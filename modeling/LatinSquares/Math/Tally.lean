/-
# Counting the conflicts of a family of squares

How often each symbol occurs among some cells, and how many symbols do not occur there. A
family of squares is Latin and mutually orthogonal when no row or column misses or repeats a
symbol and no two squares miss a pair of symbols; `conflicts` adds up what is missing and
repeated. One cell is written at a time, which changes a count by one for the symbol that goes
and by one for the symbol that comes.
-/

import Mathlib.Algebra.BigOperators.Group.Finset.Basic
import Mathlib.Algebra.BigOperators.Ring.Finset
import Mathlib.Algebra.Order.BigOperators.Group.Finset
import Mathlib.Data.Nat.Choose.Basic
import Mathlib.Tactic.Ring

namespace LatinSquares.Math

open Finset

section Tally

variable {ι σ : Type*} {cells : Finset ι} {f : ι → σ} {i : ι} {s v : σ}

/-- How many entries of a table of counters are zero. -/
def zeros (symbols : Finset σ) (table : σ → ℤ) : ℤ := ∑ s ∈ symbols, if table s = 0 then 1 else 0

/-- A sum over a table after one entry is replaced. -/
theorem sum_update [DecidableEq ι] {A : Type*} (table : ι → A) (a : A) (g : ι → A → ℤ)
    (hi : i ∈ cells) :
    ∑ c ∈ cells, g c (Function.update table i a c) =
      ∑ c ∈ cells, g c (table c) - g i (table i) + g i a := by
  have hrest : ∑ c ∈ cells.erase i, g c (Function.update table i a c) =
      ∑ c ∈ cells.erase i, g c (table c) := by
    apply sum_congr rfl
    intro c hc
    rw [Function.update_of_ne (ne_of_mem_erase hc)]
  rw [← add_sum_erase cells _ hi, ← add_sum_erase cells (fun c => g c (table c)) hi, hrest,
    Function.update_self]
  ring

/-- A sum over all entries of a table, before and after one of them is replaced. -/
theorem sum_update_add [Fintype ι] [DecidableEq ι] {M : Type*} [AddCommMonoid M] (table : ι → σ)
    (i : ι) (s : σ) (g : σ → M) :
    (∑ c, g (Function.update table i s c)) + g (table i) = (∑ c, g (table c)) + g s := by
  have hrest : ∑ c ∈ univ.erase i, g (Function.update table i s c) =
      ∑ c ∈ univ.erase i, g (table c) := by
    apply sum_congr rfl
    intro c hc
    rw [Function.update_of_ne (ne_of_mem_erase hc)]
  rw [← add_sum_erase univ _ (mem_univ i), ← add_sum_erase univ (fun c => g (table c)) (mem_univ i),
    hrest, Function.update_self, add_right_comm, add_comm (g s), add_right_comm, add_right_comm]

variable [DecidableEq σ]

/-- How many of the cells show a symbol. -/
def tally (cells : Finset ι) (f : ι → σ) (s : σ) : ℕ := #{c ∈ cells | f c = s}

/-- How many of the symbols no cell shows. -/
def missing (cells : Finset ι) (f : ι → σ) (symbols : Finset σ) : ℕ :=
  #{s ∈ symbols | tally cells f s = 0}

theorem zeros_update {symbols : Finset σ} {table : σ → ℤ} {a : ℤ} (hs : s ∈ symbols) :
    zeros symbols (Function.update table s a) =
      zeros symbols table - (if table s = 0 then 1 else 0) + (if a = 0 then 1 else 0) :=
  sum_update table a (fun _ a => if a = 0 then 1 else 0) hs

theorem tally_eq_sum : (tally cells f s : ℤ) = ∑ c ∈ cells, if f c = s then 1 else 0 := by
  rw [tally, card_filter]
  push_cast
  rfl

theorem tally_congr {g : ι → σ} (h : ∀ c ∈ cells, f c = g c) :
    tally cells f s = tally cells g s := by
  unfold tally
  rw [filter_congr fun c hc => by rw [h c hc]]

theorem tally_pos (hi : i ∈ cells) : 0 < tally cells f (f i) :=
  card_pos.mpr ⟨i, mem_filter.mpr ⟨hi, rfl⟩⟩

theorem zeros_tally {symbols : Finset σ} :
    zeros symbols (fun s => (tally cells f s : ℤ)) = missing cells f symbols := by
  unfold zeros missing
  rw [card_filter]
  push_cast
  simp only [Nat.cast_eq_zero]

variable [DecidableEq ι]

theorem tally_update (hi : i ∈ cells) :
    (tally cells (Function.update f i v) s : ℤ) =
      tally cells f s - (if f i = s then 1 else 0) + (if v = s then 1 else 0) := by
  rw [tally_eq_sum, tally_eq_sum]
  exact sum_update f v (fun _ a => if a = s then 1 else 0) hi

theorem tally_update_of_notMem (hi : i ∉ cells) :
    tally cells (Function.update f i v) s = tally cells f s := by
  apply tally_congr
  intro c hc
  rw [Function.update_of_ne (ne_of_mem_of_not_mem hc hi)]

/-- One cell shows another symbol: the symbol that goes may be missing now, and the one that comes
is not. -/
theorem missing_update {symbols : Finset σ} (hi : i ∈ cells) (hf : f i ∈ symbols)
    (hv : v ∈ symbols) (hne : f i ≠ v) :
    (missing cells (Function.update f i v) symbols : ℤ) = missing cells f symbols +
      (if (tally cells f (f i) : ℤ) - 1 = 0 then 1 else 0) -
        (if tally cells f v = 0 then 1 else 0) := by
  have htally : (fun s => (tally cells (Function.update f i v) s : ℤ)) =
      Function.update (Function.update (fun s => (tally cells f s : ℤ)) (f i)
        (tally cells f (f i) - 1)) v (tally cells f v + 1) := by
    funext s
    rw [tally_update hi]
    by_cases hs : v = s
    · subst hs
      simp [hne]
    · by_cases hold : f i = s
      · subst hold
        simp [hs, hne]
      · simp [hs, hold, Ne.symm hs, Ne.symm hold]
  have hpos := tally_pos (f := f) hi
  rw [← zeros_tally, htally, zeros_update hv, zeros_update hf, zeros_tally,
    Function.update_of_ne hne.symm, if_neg (by omega : ¬ (tally cells f (f i) : ℤ) = 0),
    if_neg (by omega : ¬ (tally cells f v : ℤ) + 1 = 0)]
  simp only [Nat.cast_eq_zero]
  ring

end Tally

/-- What a symbol adds to the conflicts of a row or column in which it occurs `c` times. -/
def excess (c : ℕ) : ℕ := c.choose 2 + if c = 0 then 1 else 0

theorem excess_eq (c : ℕ) :
    (excess c : ℤ) = (c * (c - 1) : ℤ).tdiv 2 + if (c : ℤ) = 0 then 1 else 0 := by
  have hchoose : ((c.choose 2 : ℕ) : ℤ) = (c * (c - 1) : ℤ).tdiv 2 := by
    rw [Nat.choose_two_right]
    cases c with
    | zero => rfl
    | succ c =>
        have hcast : (((c + 1 : ℕ) : ℤ) * ((c + 1 : ℕ) - 1) : ℤ) = (((c + 1) * c : ℕ) : ℤ) := by
          push_cast
          ring
        rw [hcast, Nat.add_sub_cancel]
        rfl
  unfold excess
  push_cast
  rw [hchoose]
  simp only [Nat.cast_eq_zero]

/-- Square, row and column of a cell. -/
abbrev Cell := ℕ × ℕ × ℕ

/-- The cells of a row. -/
def rowCells (n k i : ℕ) : Finset Cell := {k} ×ˢ {i} ×ˢ range n

/-- The cells of a column. -/
def columnCells (n k j : ℕ) : Finset Cell := {k} ×ˢ range n ×ˢ {j}

/-- The positions in a square of order `n`, and the pairs of its symbols. -/
def grid (n : ℕ) : Finset (ℕ × ℕ) := range n ×ˢ range n

/-- Any two squares, the smaller index first. -/
def squarePairs (squares : ℕ) : Finset (ℕ × ℕ) := {p ∈ grid squares | p.1 < p.2}

/-- Two squares superimposed. -/
def superimposed (M : Cell → ℕ) (p cell : ℕ × ℕ) : ℕ × ℕ := (M (p.1, cell), M (p.2, cell))

/-- The conflicts of a family of squares of order `n`. -/
def conflicts (squares n : ℕ) (M : Cell → ℕ) : ℕ :=
  (∑ k ∈ range squares, ∑ i ∈ range n, ∑ s ∈ range n, excess (tally (rowCells n k i) M s)) +
  (∑ k ∈ range squares, ∑ j ∈ range n, ∑ s ∈ range n, excess (tally (columnCells n k j) M s)) +
  ∑ p ∈ squarePairs squares, missing (grid n) (superimposed M p) (grid n)

variable {n k i j : ℕ} {M : Cell → ℕ} {cell : Cell} {p : ℕ × ℕ} {v : ℕ}

theorem mem_rowCells : cell ∈ rowCells n k i ↔ cell.1 = k ∧ cell.2.1 = i ∧ cell.2.2 < n := by
  simp only [rowCells, mem_product, mem_singleton, mem_range]

theorem mem_columnCells : cell ∈ columnCells n k j ↔ cell.1 = k ∧ cell.2.1 < n ∧ cell.2.2 = j := by
  simp only [columnCells, mem_product, mem_singleton, mem_range]

theorem mem_grid : p ∈ grid n ↔ p.1 < n ∧ p.2 < n := by simp [grid]

theorem mem_squarePairs {squares : ℕ} : p ∈ squarePairs squares ↔ p.1 < p.2 ∧ p.2 < squares := by
  rw [squarePairs, mem_filter, mem_grid]
  omega

/-- Squares that are not written are superimposed as before. -/
theorem superimposed_update_of_ne (hfirst : cell.1 ≠ p.1) (hsecond : cell.1 ≠ p.2) :
    superimposed (Function.update M cell v) p = superimposed M p := by
  funext c
  unfold superimposed
  rw [Function.update_of_ne fun h => hfirst (Prod.ext_iff.mp h).1.symm,
    Function.update_of_ne fun h => hsecond (Prod.ext_iff.mp h).1.symm]

theorem superimposed_update_first (hp : p.1 ≠ p.2) (hk : cell.1 = p.1) :
    superimposed (Function.update M cell v) p =
      Function.update (superimposed M p) cell.2 (v, M (p.2, cell.2)) := by
  obtain ⟨k, c⟩ := cell
  cases hk
  funext c'
  by_cases hc : c' = c
  · subst hc
    simp [superimposed, hp.symm]
  · simp [superimposed, hc, hp.symm]

theorem superimposed_update_second (hp : p.1 ≠ p.2) (hk : cell.1 = p.2) :
    superimposed (Function.update M cell v) p =
      Function.update (superimposed M p) cell.2 (M (p.1, cell.2), v) := by
  obtain ⟨k, c⟩ := cell
  cases hk
  funext c'
  by_cases hc : c' = c
  · subst hc
    simp [superimposed, hp]
  · simp [superimposed, hc, hp]

end LatinSquares.Math
