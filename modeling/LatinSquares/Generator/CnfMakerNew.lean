/-
# The older one-hot generator

`Cnf_maker_new` writes the unreduced one-hot formula for `r` mutually orthogonal Latin squares
of order `n` with hand-computed numbers. The bound `s` of the loops over pairs of cells is a
field that is carried over from one pair of symbols to the next; for equal symbols it is not
set again in the second group of loops and has run out, and those pairs are written by the first
group. No number exceeds `r * n ^ 3`, which is less than the numbers in the list `st`, so a run
that fits into the list does not wrap around.
-/

import LatinSquares.Generator.Unreduced
import LatinSquares.Math.Writing

namespace LatinSquares.Generator

open LatinSquares.Math

/-- The static fields of `Cnf_maker_new`: the clauses written to `st`, their count `f1`, and
`s`. -/
structure CnfMakerNew where
  st : List (List Literal) := []
  f1 : Nat := 0
  s : Int := 0

namespace CnfMakerNew

/-- A clause is added to `st` and counted. -/
def add (m : CnfMakerNew) (clause : List Literal) : CnfMakerNew :=
  { m with st := m.st ++ [clause], f1 := m.f1 + 1 }

/-- `soch`: one of the variables, and no two of the first `y`. -/
def soch (m : CnfMakerNew) (e : List Nat) (y : Nat) : CnfMakerNew :=
  (List.range (y - 1)).foldl (fun m i => (rangeUntil (i + 1) y).foldl (fun m t =>
    m.add [.notVar (e.getD i 0), .notVar (e.getD t 0)]) m) (m.add (e.map .var))

/-- `soch1`: not all of four variables. -/
def soch1 (m : CnfMakerNew) (e0 e1 e2 e3 : Nat) : CnfMakerNew :=
  m.add [.notVar e0, .notVar e2, .notVar e1, .notVar e3]

/-- The loops over the lines of the rows. -/
def columns (n r : Nat) (m : CnfMakerNew) : CnfMakerNew :=
  (List.range r).foldl (fun m w => (List.range n).foldl (fun m i => (List.range n).foldl (fun m t =>
    m.soch ((List.range n).map fun j => n * n * i + t + n * j + w * n * n * n + 1) n) m) m) m

/-- The loops over the lines of the columns. -/
def rows (n r : Nat) (m : CnfMakerNew) : CnfMakerNew :=
  (List.range r).foldl (fun m w => (List.range (n * n)).foldl (fun m i =>
    m.soch ((List.range n).map fun t => i + n * n * t + w * n * n * n + 1) n) m) m

/-- The loops over the cells. -/
def entries (n r : Nat) (m : CnfMakerNew) : CnfMakerNew :=
  (List.range r).foldl (fun m w => (List.range (n * n)).foldl (fun m i =>
    m.soch ((List.range n).map fun t => n * i + t + w * n * n * n + 1) n) m) m

/-- The loops over two cells for two squares `w` and `l` and a symbol of each: `i` runs over the
first cell and `t` over the distance of the second, up to `s`. -/
def cellPairs (n w l k j : Nat) (m : CnfMakerNew) : CnfMakerNew :=
  (List.range (n * n - 1)).foldl (fun m i =>
    let m := (List.range' 1 m.s.toNat).foldl (fun m t =>
      m.soch1 (k + n * i + w * n * n * n) (j + n * i + l * n * n * n)
        (k + n * i + n * t + w * n * n * n) (j + n * i + n * t + l * n * n * n)) m
    { m with s := m.s - 1 }) m

/-- The orthogonality clauses for equal symbols. -/
def orthogonalEqual (n r : Nat) (m : CnfMakerNew) : CnfMakerNew :=
  (List.range (r - 1)).foldl (fun m w => (rangeUntil (w + 1) r).foldl (fun m j =>
    (List.range' 1 n).foldl (fun m k =>
      cellPairs n w j k k { m with s := n * n - 1 }) m) m) m

/-- The orthogonality clauses for different symbols; the `if` has no braces. -/
def orthogonalDifferent (n r : Nat) (m : CnfMakerNew) : CnfMakerNew :=
  (List.range (r - 1)).foldl (fun m w => (rangeUntil (w + 1) r).foldl (fun m l =>
    (List.range' 1 n).foldl (fun m k => (List.range' 1 n).foldl (fun m j =>
      cellPairs n w l k j (if j ≠ k then { m with s := n * n - 1 } else m)) m) m) m) m

/-- `main`. -/
def main (n r : Nat) : CnfMakerNew :=
  orthogonalDifferent n r (orthogonalEqual n r (entries n r (rows n r (columns n r {}))))

/-- The numbers of the line `p cnf`. -/
def header (n r : Nat) : Nat × Nat := (n * n * n * r, (main n r).f1)

/-- All clauses written so far hold. -/
def Holds (m : CnfMakerNew) (α : Assignment) : Prop :=
  ∀ clause ∈ m.st, clause.any (Literal.eval α) = true

/-- Every clause is counted, and `s` has a given property. -/
structure Counted (ofS : Int → Prop) (m : CnfMakerNew) : Prop where
  count : m.f1 = m.st.length
  bound : ofS m.s

variable {m : CnfMakerNew} {ofS : Int → Prop} {n r w l k j : Nat}

theorem adds_add (hm : m.Counted ofS) (clause : List Literal) :
    Adds Holds (Counted ofS) m (m.add clause) fun α => clause.any (Literal.eval α) = true where
  holds α := by
    unfold Holds add
    rw [List.forall_mem_append, List.forall_mem_singleton]
  keeps := ⟨by simp [add, hm.count], hm.bound⟩

/-- The clauses of `soch` say that exactly one variable is true. -/
theorem adds_soch (hm : m.Counted ofS) (g : Nat → Nat) :
    Adds Holds (Counted ofS) m (m.soch ((List.range n).map g) n) fun α =>
      ∃! x : Fin n, α (g x) = true := by
  have hpairs : Adds Holds (Counted ofS) (m.add (((List.range n).map g).map .var))
      (m.soch ((List.range n).map g) n) _ :=
    adds_foldl (adds_add hm _).keeps fun m hm i _ =>
      adds_foldl hm fun m hm t _ => adds_add hm _
  refine ((adds_add hm _).trans hpairs).congr fun α => ?_
  have hget {i : Nat} (hi : i < n) : ((List.range n).map g).getD i 0 = g i := by
    rw [List.getD_eq_getElem _ _ (by simpa using hi)]
    simp
  constructor
  · rintro ⟨hsome, hpairs⟩
    obtain ⟨l, hl, htrue⟩ := List.any_eq_true.mp hsome
    obtain ⟨v, hv, rfl⟩ := List.mem_map.mp hl
    obtain ⟨x, hx, rfl⟩ := List.mem_map.mp hv
    have hapart {i t : Nat} (hit : i < t) (ht : t < n) : ¬ (α (g i) = true ∧ α (g t) = true) := by
      have hclause := hpairs i (List.mem_range.mpr (by omega)) t
        (List.mem_range'_1.mpr (by omega))
      rw [hget (hit.trans ht), hget ht] at hclause
      cases hi : α (g i) <;> cases ht : α (g t) <;> simp_all
    refine ⟨⟨x, List.mem_range.mp hx⟩, htrue, fun y hy => Fin.ext ?_⟩
    rcases lt_trichotomy (y : Nat) x with hlt | heq | hgt
    · exact absurd ⟨hy, htrue⟩ (hapart hlt (List.mem_range.mp hx))
    · exact heq
    · exact absurd ⟨htrue, hy⟩ (hapart hgt y.isLt)
  · rintro ⟨x, hx, hunique⟩
    constructor
    · exact List.any_eq_true.mpr ⟨.var (g x), List.mem_map_of_mem (List.mem_map_of_mem
        (List.mem_range.mpr x.isLt)), hx⟩
    · intro i hi t ht
      obtain ⟨hit, ht⟩ : i < t ∧ t < n := by
        rw [rangeUntil, List.mem_range'_1] at ht
        omega
      rw [hget (hit.trans ht), hget ht]
      have hnot : ¬ (α (g i) = true ∧ α (g t) = true) := by
        rintro ⟨hi, ht'⟩
        have heq := (hunique ⟨i, hit.trans ht⟩ hi).trans (hunique ⟨t, ht⟩ ht').symm
        exact hit.ne (Fin.ext_iff.mp heq)
      cases hi : α (g i) <;> cases ht : α (g t) <;> simp_all

/-- A clause of `soch1` says that not all four variables are true. -/
theorem adds_soch1 (hm : m.Counted ofS) (e0 e1 e2 e3 : Nat) :
    Adds Holds (Counted ofS) m (m.soch1 e0 e1 e2 e3) fun α =>
      ¬ ((α e0 = true ∧ α e1 = true) ∧ α e2 = true ∧ α e3 = true) := by
  refine (adds_add hm _).congr fun α => ?_
  cases h0 : α e0 <;> cases h1 : α e1 <;> cases h2 : α e2 <;> cases h3 : α e3 <;>
    simp [Literal.eval, h0, h1, h2, h3]

/-- The clauses for two squares and a symbol of each; `s` runs down with the first cell. -/
theorem adds_cellPairs {bound : Int} (hm : m.Counted (· = bound)) :
    Adds Holds (Counted (· = bound - ((n * n - 1 : Nat) : Int))) m (cellPairs n w l k j m) fun α =>
      ∀ i < n * n - 1, ∀ t : Nat, 1 ≤ t → (t : Int) ≤ bound - i →
        ¬ ((α (k + n * i + w * n * n * n) = true ∧ α (j + n * i + l * n * n * n) = true) ∧
          α (k + n * i + n * t + w * n * n * n) = true ∧
          α (j + n * i + n * t + l * n * n * n) = true) := by
  apply adds_foldl_range fun i => Counted (· = bound - (i : Int))
  · exact ⟨hm.count, by rw [hm.bound]; simp⟩
  · intro m i _ hm
    have hinner := adds_foldl (l := List.range' 1 m.s.toNat) hm fun m hm t _ =>
      adds_soch1 hm (k + n * i + w * n * n * n) (j + n * i + l * n * n * n)
        (k + n * i + n * t + w * n * n * n) (j + n * i + n * t + l * n * n * n)
    refine ⟨fun α => ?_, ⟨hinner.keeps.count, ?_⟩⟩
    · refine (hinner.holds α).trans (and_congr_right fun _ => forall_congr' fun t => ?_)
      rw [List.mem_range'_1, hm.bound]
      have hrange : (1 ≤ t ∧ t < 1 + (bound - (i : Int)).toNat) ↔
          1 ≤ t ∧ (t : Int) ≤ bound - i := by omega
      rw [hrange, and_imp]
    · have hs := hinner.keeps.bound
      push_cast
      rw [← sub_sub, ← hs]

/-- No two cells have symbol `k` in square `w` and symbol `j` in square `l`, symbols counted
from one and cells row by row. -/
def Apart (n w l k j : Nat) (α : Assignment) : Prop :=
  ∀ x y, x < y → y < n * n →
    ¬ ((α (k + n * x + w * n * n * n) = true ∧ α (j + n * x + l * n * n * n) = true) ∧
      α (k + n * y + w * n * n * n) = true ∧ α (j + n * y + l * n * n * n) = true)

/-- With `s` set before, all pairs of cells are written, and `s` ends at zero. -/
theorem adds_cellPairs_reset (hm : m.Counted ofS) :
    Adds Holds (Counted (· ≤ 0)) m (cellPairs n w l k j { m with s := n * n - 1 })
      (Apart n w l k j) := by
  have hreset : ({ m with s := n * n - 1 } : CnfMakerNew).Counted (· = (n * n - 1 : Int)) :=
    ⟨hm.count, rfl⟩
  have hpairs := adds_cellPairs (n := n) (w := w) (l := l) (k := k) (j := j) hreset
  refine ⟨fun α => (hpairs.holds α).trans (and_congr_right fun _ => ?_),
    ⟨hpairs.keeps.count, ?_⟩⟩
  · constructor
    · intro h x y hxy hy
      obtain ⟨t, rfl⟩ := Nat.exists_eq_add_of_lt hxy
      have hpair := h x (by omega) (t + 1) (by omega) (by push_cast; omega)
      rwa [Nat.add_assoc x, Nat.mul_add, ← Nat.add_assoc, ← Nat.add_assoc]
    · intro h i hi t ht hle
      have hpair := h i (i + t) (by omega) (by omega)
      rwa [Nat.mul_add, ← Nat.add_assoc, ← Nat.add_assoc] at hpair
  · have hs := hpairs.keeps.bound
    have hle : (n * n : Int) - 1 ≤ ((n * n - 1 : Nat) : Int) := by
      omega
    omega

/-- With `s` run out, no clause is written. -/
theorem adds_cellPairs_spent (hm : m.Counted (· ≤ 0)) :
    Adds Holds (Counted (· ≤ 0)) m (cellPairs n w l k j m) fun _ => True := by
  have hpairs := adds_cellPairs (n := n) (w := w) (l := l) (k := k) (j := j)
    (⟨hm.count, rfl⟩ : m.Counted (· = m.s))
  have hs := hm.bound
  refine ⟨fun α => (hpairs.holds α).trans (and_congr_right fun _ => ?_), hpairs.keeps.count, ?_⟩
  · exact iff_true_intro fun i _ t ht hle => by omega
  · have hbound := hpairs.keeps.bound
    omega

/-- The first group of loops. -/
theorem adds_orthogonalEqual (hm : m.Counted (· ≤ 0)) :
    Adds Holds (Counted (· ≤ 0)) m (orthogonalEqual n r m) fun α =>
      ∀ w ∈ List.range (r - 1), ∀ l ∈ rangeUntil (w + 1) r, ∀ k ∈ List.range' 1 n,
        Apart n w l k k α :=
  adds_foldl hm fun _ hm _ _ => adds_foldl hm fun _ hm _ _ => adds_foldl hm fun _ hm _ _ =>
    adds_cellPairs_reset hm

/-- The second group of loops. -/
theorem adds_orthogonalDifferent (hm : m.Counted (· ≤ 0)) :
    Adds Holds (Counted (· ≤ 0)) m (orthogonalDifferent n r m) fun α =>
      ∀ w ∈ List.range (r - 1), ∀ l ∈ rangeUntil (w + 1) r, ∀ k ∈ List.range' 1 n,
        ∀ j ∈ List.range' 1 n, j ≠ k → Apart n w l k j α := by
  refine adds_foldl hm fun m hm w _ => adds_foldl hm fun m hm l _ => adds_foldl hm fun m hm k _ =>
    adds_foldl hm fun m hm j _ => ?_
  by_cases hjk : j = k
  · rw [if_neg (not_not_intro hjk)]
    exact (adds_cellPairs_spent hm).congr fun α => (iff_true_intro (absurd hjk)).symm
  · rw [if_pos hjk]
    exact (adds_cellPairs_reset hm).congr fun α => (imp_iff_right hjk).symm

/-- What a run of `main` writes, in the order of the loops. -/
theorem adds_main : Adds Holds (Counted (· ≤ 0)) {} (main n r) fun α =>
    (∀ w ∈ List.range r, ∀ i ∈ List.range n, ∀ t ∈ List.range n,
      ∃! j : Fin n, α (n * n * i + t + n * j + w * n * n * n + 1) = true) ∧
    (∀ w ∈ List.range r, ∀ i ∈ List.range (n * n),
      ∃! t : Fin n, α (i + n * n * t + w * n * n * n + 1) = true) ∧
    (∀ w ∈ List.range r, ∀ i ∈ List.range (n * n),
      ∃! t : Fin n, α (n * i + t + w * n * n * n + 1) = true) ∧
    ∀ w ∈ List.range (r - 1), ∀ l ∈ rangeUntil (w + 1) r, ∀ k ∈ List.range' 1 n,
      ∀ j ∈ List.range' 1 n, Apart n w l k j α := by
  have hstart : ({} : CnfMakerNew).Counted (· ≤ 0) := ⟨rfl, le_rfl⟩
  have hcolumns : Adds Holds (Counted (· ≤ 0)) {} (columns n r {}) _ :=
    adds_foldl hstart fun m hm w _ => adds_foldl hm fun m hm i _ => adds_foldl hm fun m hm t _ =>
      adds_soch hm fun j => n * n * i + t + n * j + w * n * n * n + 1
  have hrows : Adds Holds (Counted (· ≤ 0)) _ (rows n r (columns n r {})) _ :=
    adds_foldl hcolumns.keeps fun m hm w _ => adds_foldl hm fun m hm i _ =>
      adds_soch hm fun t => i + n * n * t + w * n * n * n + 1
  have hentries : Adds Holds (Counted (· ≤ 0)) _ (entries n r (rows n r (columns n r {}))) _ :=
    adds_foldl hrows.keeps fun m hm w _ => adds_foldl hm fun m hm i _ =>
      adds_soch hm fun t => n * i + t + w * n * n * n + 1
  have hequal := adds_orthogonalEqual (n := n) (r := r) hentries.keeps
  have hdifferent := adds_orthogonalDifferent (n := n) (r := r) hequal.keeps
  refine (hcolumns.trans (hrows.trans (hentries.trans (hequal.trans hdifferent)))).congr
    fun α => and_congr_right fun _ => and_congr_right fun _ => and_congr_right fun _ => ?_
  constructor
  · rintro ⟨hequal, hdifferent⟩ w hw l hl k hk j hj
    by_cases hjk : j = k
    · exact hjk ▸ hequal w hw l hl k hk
    · exact hdifferent w hw l hl k hk j hj hjk
  · intro h
    exact ⟨fun w hw l hl k hk => h w hw l hl k hk k hk,
      fun w hw l hl k hk j hj _ => h w hw l hl k hk j hj⟩

/-- A loop over the cells runs through rows and columns. -/
theorem forall_cells_iff {p : Nat → Prop} :
    (∀ i ∈ List.range (n * n), p i) ↔ ∀ a b : Fin n, p (a * n + b) := by
  constructor
  · intro h a b
    exact h _ (List.mem_range.mpr (cell_lt a.isLt b.isLt))
  · intro h i hi
    have hi : i < n * n := List.mem_range.mp hi
    have hn : 0 < n := Nat.pos_of_mul_pos_right (Nat.zero_lt_of_lt hi)
    have hcell := h ⟨i / n, Nat.div_lt_of_lt_mul hi⟩ ⟨i % n, Nat.mod_lt i hn⟩
    rwa [Nat.div_add_mod'] at hcell

theorem forall_range_iff {p : Nat → Prop} : (∀ i ∈ List.range n, p i) ↔ ∀ i : Fin n, p i := by
  simp [Fin.forall_iff]

/-- Symbols counted from one. -/
theorem forall_symbols_iff {p : Nat → Prop} :
    (∀ i ∈ List.range' 1 n, p i) ↔ ∀ i : Fin n, p (i + 1) := by
  rw [List.range'_eq_map_range, List.forall_mem_map, forall_range_iff]
  simp only [Nat.add_comm 1]

/-- All pairs are shown when none is shown in a cell and again in a later one. -/
theorem le_pairCount_iff_not_later {L M : Square (Fin n)} :
    n * n ≤ pairCount L M ↔ ∀ a b a' b' : Fin n, (a : Nat) * n + b < a' * n + b' →
      ¬ (L a b = L a' b' ∧ M a b = M a' b') := by
  have hcard : n * n = Fintype.card (Fin n) * Fintype.card (Fin n) := by rw [Fintype.card_fin]
  rw [hcard, le_pairCount_iff_injective]
  constructor
  · rintro hinjective a b a' b' hlt ⟨hl, hm⟩
    have hcell : (a, b) = (a', b') := hinjective (Prod.ext hl hm)
    cases hcell
    exact hlt.false
  · rintro h ⟨a, b⟩ ⟨a', b'⟩ hpair
    obtain ⟨hl, hm⟩ := Prod.ext_iff.mp hpair
    rcases lt_trichotomy ((a : Nat) * n + b) (a' * n + b') with hlt | heq | hgt
    · exact absurd ⟨hl, hm⟩ (h a b a' b' hlt)
    · apply finProdFinEquiv.injective
      apply Fin.ext
      rw [finProdFinEquiv_apply_val, finProdFinEquiv_apply_val]
      simpa only [Nat.mul_comm n, Nat.add_comm] using heq
    · exact absurd ⟨hl.symm, hm.symm⟩ (h a' b' a b hgt)

/-- Apart for all symbols, two described squares show all pairs. -/
theorem forall_apart_iff {α : Assignment} {F : Fin r → Square (Fin n)} (hF : OneHotCode α F)
    (w l : Fin r) :
    (∀ k j : Fin n, Apart n w l (k + 1) (j + 1) α) ↔ n * n ≤ pairCount (F w) (F l) := by
  have hvariable (t : Fin r) (a b v : Fin n) :
      α (v + 1 + n * (a * n + b) + t * n * n * n) = true ↔ F t a b = v := by
    rw [← hF t a b v]
    have hnumber : (v + 1 + n * (a * n + b) + t * n * n * n : Nat) = oneHotVariable n t a b v := by
      rw [oneHotVariable]
      ring
    rw [hnumber]
  rw [le_pairCount_iff_not_later]
  constructor
  · rintro h a b a' b' hlt ⟨hw, hl⟩
    apply h (F w a b) (F l a b) (a * n + b) (a' * n + b') hlt (cell_lt a'.isLt b'.isLt)
    exact ⟨⟨(hvariable w a b _).mpr rfl, (hvariable l a b _).mpr rfl⟩,
      (hvariable w a' b' _).mpr hw.symm, (hvariable l a' b' _).mpr hl.symm⟩
  · intro h k j
    have hcells : ∀ x ∈ List.range (n * n), ∀ y ∈ List.range (n * n), x < y →
        ¬ ((α (k + 1 + n * x + w * n * n * n) = true ∧ α (j + 1 + n * x + l * n * n * n) = true) ∧
          α (k + 1 + n * y + w * n * n * n) = true ∧ α (j + 1 + n * y + l * n * n * n) = true) := by
      rw [forall_cells_iff]
      intro a b
      rw [forall_cells_iff]
      intro a' b' hlt
      simp only [hvariable]
      rintro ⟨⟨hw, hl⟩, hw', hl'⟩
      exact h a b a' b' hlt ⟨hw.trans hw'.symm, hl.trans hl'.symm⟩
    exact fun x y hxy hy => hcells x (List.mem_range.mpr (hxy.trans hy)) y
      (List.mem_range.mpr hy) hxy

theorem forall_squarePairs_iff {p : Nat → Nat → Prop} :
    (∀ w ∈ List.range (r - 1), ∀ l ∈ rangeUntil (w + 1) r, p w l) ↔
      ∀ w l : Fin r, w < l → p w l := by
  constructor
  · intro h w l hwl
    have hwl : (w : Nat) < l := hwl
    exact h w (List.mem_range.mpr (by omega)) l (mem_rangeUntil.mpr ⟨hwl, l.isLt⟩)
  · intro h w _ l hl
    obtain ⟨hwl, hlr⟩ := mem_rangeUntil.mp hl
    exact h ⟨w, by omega⟩ ⟨l, hlr⟩ hwl

/-- The loops over lines and cells say that every table is that of a Latin square. -/
theorem lines_iff {α : Assignment} :
    ((∀ w ∈ List.range r, ∀ i ∈ List.range n, ∀ t ∈ List.range n,
        ∃! j : Fin n, α (n * n * i + t + n * j + w * n * n * n + 1) = true) ∧
      (∀ w ∈ List.range r, ∀ i ∈ List.range (n * n),
        ∃! t : Fin n, α (i + n * n * t + w * n * n * n + 1) = true) ∧
      ∀ w ∈ List.range r, ∀ i ∈ List.range (n * n),
        ∃! t : Fin n, α (n * i + t + w * n * n * n + 1) = true) ↔
      ∃ F : Fin r → Square (Fin n), OneHotCode α F ∧ ∀ t, IsLatin (F t) := by
  have hcolumn (t i j v : Nat) : n * n * i + v + n * j + t * n * n * n + 1 =
      oneHotVariable n t i j v := by
    rw [oneHotVariable]
    ring
  have hrow (t i j v : Nat) : j * n + v + n * n * i + t * n * n * n + 1 =
      oneHotVariable n t i j v := by
    rw [oneHotVariable]
    ring
  have hentry (t i j v : Nat) : n * (i * n + j) + v + t * n * n * n + 1 =
      oneHotVariable n t i j v := by
    rw [oneHotVariable]
    ring
  simp only [forall_cells_iff, forall_range_iff, hcolumn, hrow, hentry]
  have htable (t : Fin r) := exists_isLatin_iff
    (T := fun i j v : Fin n => α (oneHotVariable n t i j v) = true)
  constructor
  · rintro ⟨hcolumns, hrows, hentries⟩
    choose F hlatin hcode using fun t => (htable t).mpr ⟨hentries t, hcolumns t, hrows t⟩
    exact ⟨F, hcode, hlatin⟩
  · rintro ⟨F, hcode, hlatin⟩
    have hlines (t : Fin r) := (htable t).mp ⟨F t, hlatin t, hcode t⟩
    exact ⟨fun t => (hlines t).2.1, fun t => (hlines t).2.2, fun t => (hlines t).1⟩

/-- The clauses of a run hold exactly for the codes of orthogonal Latin squares. -/
theorem main_holds_iff {α : Assignment} : (main n r).Holds α ↔
    ∃ F : Fin r → Square (Fin n), OneHotCode α F ∧ LatinFamily (fun _ _ => n * n) F := by
  have hstart : ({} : CnfMakerNew).Holds α := fun clause hclause => absurd hclause List.not_mem_nil
  rw [adds_main.holds, and_iff_right hstart, ← and_assoc, ← and_assoc, and_assoc (a := ∀ w ∈ _, _),
    lines_iff]
  simp only [forall_symbols_iff]
  rw [forall_squarePairs_iff]
  constructor
  · rintro ⟨⟨F, hcode, hlatin⟩, hpairs⟩
    exact ⟨F, hcode, hlatin, fun w l hwl => (forall_apart_iff hcode w l).mp (hpairs w l hwl)⟩
  · rintro ⟨F, hcode, hfamily⟩
    exact ⟨⟨F, hcode, hfamily.latin⟩, fun w l hwl =>
      (forall_apart_iff hcode w l).mpr (hfamily.pairs w l hwl)⟩

/-- The older generator and the unreduced one-hot encoder with `q = n * n` have the same models
over the core variables, and the older one counts its clauses. -/
theorem models_iff_cnf (order : Order) (weighted : Bool) (hn : 2 ≤ n) (hr : 2 ≤ r) :
    ∃ f, ({ reduced := false, weighted, n, k := r, q := n * n } : LatinSquareEncoder).cnf order =
        some f ∧
      f.coreVariables = List.range' 1 (r * n ^ 3) ∧
      (∀ α, (main n r).Holds α ↔ ∃ β, (∀ v ∈ f.coreVariables, β v = α v) ∧ f.Holds β) ∧
      header n r = (r * n ^ 3, (main n r).st.length) := by
  obtain ⟨f, hf, hcore, -, hmeaning⟩ := LatinSquareEncoder.exists_cnf_unreduced order
    (e := { reduced := false, weighted, n, k := r, q := n * n }) rfl hn hr le_rfl
  refine ⟨f, hf, hcore, fun α => ?_, ?_⟩
  · have hzero := hmeaning 0 (Nat.zero_le _) α
    simp only [List.take_zero, List.not_mem_nil, false_imp_iff, implies_true, and_true,
      incrementalBound_zero] at hzero
    rw [main_holds_iff, hzero]
  · have hcounted : (main n r).f1 = (main n r).st.length := adds_main.keeps.count
    rw [header, hcounted, show n * n * n * r = r * n ^ 3 by ring]

/-- Two squares of order two. -/
theorem models_iff_cnf_two :
    ∃ f, ({ reduced := false, n := 2, k := 2, q := 2 * 2 } : LatinSquareEncoder).cnf
        Order.identity = some f ∧
      f.coreVariables = List.range' 1 (2 * 2 ^ 3) ∧
      (∀ α, (main 2 2).Holds α ↔ ∃ β, (∀ v ∈ f.coreVariables, β v = α v) ∧ f.Holds β) ∧
      header 2 2 = (2 * 2 ^ 3, (main 2 2).st.length) :=
  models_iff_cnf Order.identity false le_rfl le_rfl

end CnfMakerNew

end LatinSquares.Generator
