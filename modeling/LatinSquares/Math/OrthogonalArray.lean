/-
# Orthogonal arrays

An array has two coordinate rows and `k` further rows over the same columns. When no
two columns agree in a coordinate row and another row, the coordinates name each
cell of a square once, and the further rows, spread over the cells they are the
coordinates of, are Latin squares. Spreading keeps the number of distinct pairs two
rows show, and it can be undone along any numbering of the cells.
-/

import LatinSquares.Math.LatinSquare
import Mathlib.Data.Fin.Tuple.Basic

namespace LatinSquares.Math

variable {ι σ : Type*} {k q : Nat}

/-- The squares of `F` hold the further rows of `A` in the cells named by its coordinates. -/
def Spreads (A : Fin (k + 2) → ι → σ) (F : Fin k → Square σ) : Prop :=
  ∀ t c, F t (A 0 c) (A 1 c) = A t.succ.succ c

/-- The array of a family along a numbering of its cells. -/
def arrayOf (row column : ι → σ) (F : Fin k → Square σ) : Fin (k + 2) → ι → σ :=
  Fin.cons row (Fin.cons column fun t c => F t (row c) (column c))

theorem spreads_arrayOf {row column : ι → σ} {F : Fin k → Square σ} :
    Spreads (arrayOf row column F) F := fun _ _ => rfl

variable {A : Fin (k + 2) → ι → σ} {F : Fin k → Square σ}

theorem exists_spreads (hA : Function.Bijective fun c => (A 0 c, A 1 c)) : ∃ F, Spreads A F := by
  refine ⟨fun t i j => A t.succ.succ ((Equiv.ofBijective _ hA).symm (i, j)), fun t c => ?_⟩
  have hcell := (Equiv.ofBijective _ hA).symm_apply_apply c
  rw [Equiv.ofBijective_apply] at hcell
  simp only [hcell]

/-- The cells of a square, by the column that names them. -/
theorem exists_column (hA : Function.Bijective fun c => (A 0 c, A 1 c)) (i j : σ) :
    ∃ c, A 0 c = i ∧ A 1 c = j := by
  obtain ⟨c, hc⟩ := hA.surjective (i, j)
  exact ⟨c, (Prod.ext_iff.mp hc).1, (Prod.ext_iff.mp hc).2⟩

variable [Fintype ι] [DecidableEq σ]

/-- The number of distinct pairs two rows show in their columns. -/
def rowPairCount (a b : ι → σ) : Nat := (Finset.univ.image fun c => (a c, b c)).card

/-- Two rows show as many pairs as there are columns when no two columns show the same. -/
theorem card_le_rowPairCount_iff {a b : ι → σ} :
    Fintype.card ι ≤ rowPairCount a b ↔ Function.Injective fun c => (a c, b c) := by
  rw [← Set.injOn_univ, ← Finset.coe_univ, ← Finset.card_image_iff, Finset.card_univ]
  exact ⟨fun h => le_antisymm Finset.card_image_le h, fun h => h.ge⟩

/-- Rows `0` and `1` are the coordinates of the columns; every other row is
orthogonal to both, and any two others show at least `q` pairs. -/
structure IsArray (q : Nat) (A : Fin (k + 2) → ι → σ) : Prop where
  coordinates : Function.Injective fun c => (A 0 c, A 1 c)
  rows : ∀ t : Fin k, Function.Injective fun c => (A 0 c, A t.succ.succ c)
  columns : ∀ t : Fin k, Function.Injective fun c => (A 1 c, A t.succ.succ c)
  pairs : ∀ t u : Fin k, t < u → q ≤ rowPairCount (A t.succ.succ) (A u.succ.succ)

/-- Rows of which the first two show `full` pairs with every later row, and any two
others show at least `q`. -/
structure ShowsPairs {s : Nat} (full q : Nat) (A : Fin s → ι → σ) : Prop where
  coordinate : ∀ i j : Fin s, (i : Nat) < 2 → i < j → full ≤ rowPairCount (A i) (A j)
  other : ∀ i j : Fin s, 2 ≤ (i : Nat) → i < j → q ≤ rowPairCount (A i) (A j)

/-- When there are as many pairs as columns, such rows are an array. -/
theorem isArray_iff_showsPairs : IsArray q A ↔ ShowsPairs (Fintype.card ι) q A := by
  constructor
  · rintro ⟨hcoordinates, hrows, hcolumns, hpairs⟩
    refine ⟨fun i j hi hij => ?_, fun i j hi hij => ?_⟩
    · rw [card_le_rowPairCount_iff]
      cases j using Fin.cases with
      | zero => exact absurd hij (Nat.not_lt_zero _)
      | succ j =>
          cases i using Fin.cases with
          | zero =>
              cases j using Fin.cases with
              | zero => exact hcoordinates
              | succ t => exact hrows t
          | succ i =>
              have hzero : (i : Nat) = 0 := by
                rw [Fin.val_succ] at hi
                omega
              obtain rfl : i = 0 := Fin.ext hzero
              cases j using Fin.cases with
              | zero => exact absurd hij (lt_irrefl _)
              | succ t => exact hcolumns t
    · cases i using Fin.cases with
      | zero => simp at hi
      | succ i =>
          cases i using Fin.cases with
          | zero => simp at hi
          | succ t =>
              cases j using Fin.cases with
              | zero => exact absurd hij (Nat.not_lt_zero _)
              | succ j =>
                  cases j using Fin.cases with
                  | zero => simp [Fin.lt_def] at hij
                  | succ u => exact hpairs t u (by simpa using hij)
  · rintro ⟨hcoordinate, hother⟩
    simp only [card_le_rowPairCount_iff] at hcoordinate
    refine ⟨hcoordinate 0 1 (by simp) (by simp), fun t => ?_, fun t => ?_,
      fun t u htu => ?_⟩
    · exact hcoordinate 0 t.succ.succ (by simp) (by simp)
    · exact hcoordinate 1 t.succ.succ (by simp) (by simp [Fin.lt_def])
    · exact hother _ _ (by simp) (by simpa using htu)

/-- The squares of an array are Latin. -/
theorem Spreads.isLatin (hbijective : Function.Bijective fun c => (A 0 c, A 1 c))
    (hF : Spreads A F) (hA : IsArray q A) (t : Fin k) : IsLatin (F t) where
  row i j j' h := by
    obtain ⟨c, rfl, rfl⟩ := exists_column hbijective i j
    obtain ⟨c', hi, rfl⟩ := exists_column hbijective (A 0 c) j'
    rw [hF, ← hi, hF] at h
    have hcolumn : c = c' := hA.rows t (Prod.ext hi.symm h)
    rw [hcolumn]
  column j i i' h := by
    obtain ⟨c, rfl, rfl⟩ := exists_column hbijective i j
    obtain ⟨c', rfl, hj⟩ := exists_column hbijective i' (A 1 c)
    simp only at h
    rw [hF, ← hj, hF] at h
    have hcolumn : c = c' := hA.columns t (Prod.ext hj.symm h)
    rw [hcolumn]

variable [Fintype σ]

/-- There are as many columns as cells, so every cell is named. -/
theorem IsArray.bijective (hA : IsArray q A)
    (hcard : Fintype.card ι = Fintype.card σ * Fintype.card σ) :
    Function.Bijective fun c => (A 0 c, A 1 c) := by
  rw [Fintype.bijective_iff_injective_and_card, Fintype.card_prod]
  exact ⟨hA.coordinates, hcard⟩

namespace Spreads

variable (hbijective : Function.Bijective fun c => (A 0 c, A 1 c)) (hF : Spreads A F)

include hbijective hF

/-- Two squares show the pairs the two rows show. -/
theorem pairCount_eq (t u : Fin k) :
    pairCount (F t) (F u) = rowPairCount (A t.succ.succ) (A u.succ.succ) := by
  rw [pairCount, rowPairCount]
  congr 1
  ext ⟨a, b⟩
  rw [mem_pairs, Finset.mem_image]
  constructor
  · rintro ⟨i, j, rfl, rfl⟩
    obtain ⟨c, rfl, rfl⟩ := exists_column hbijective i j
    exact ⟨c, Finset.mem_univ _, by rw [hF, hF]⟩
  · rintro ⟨c, -, hc⟩
    obtain ⟨rfl, rfl⟩ := Prod.ext_iff.mp hc
    exact ⟨A 0 c, A 1 c, hF t c, hF u c⟩

theorem latinFamily (hA : IsArray q A) : LatinFamily (fun _ _ => q) F where
  latin := Spreads.isLatin hbijective hF hA
  pairs t u htu := by
    rw [hF.pairCount_eq hbijective]
    exact hA.pairs t u htu

end Spreads

section Numbering

variable {row column : ι → σ}

/-- Along a numbering of the cells a family of Latin squares is an array. -/
theorem isArray_arrayOf (hcells : Function.Bijective fun c => (row c, column c))
    (hF : LatinFamily (fun _ _ => q) F) : IsArray q (arrayOf row column F) where
  coordinates := hcells.injective
  rows t c c' h := by
    obtain ⟨hrow, hsymbol⟩ : row c = row c' ∧ F t (row c) (column c) = F t (row c') (column c') :=
      Prod.ext_iff.mp h
    rw [← hrow] at hsymbol
    exact hcells.injective (Prod.ext hrow ((hF.latin t).row _ hsymbol))
  columns t c c' h := by
    obtain ⟨hcolumn, hsymbol⟩ :
        column c = column c' ∧ F t (row c) (column c) = F t (row c') (column c') :=
      Prod.ext_iff.mp h
    rw [← hcolumn] at hsymbol
    exact hcells.injective (Prod.ext ((hF.latin t).column _ hsymbol) hcolumn)
  pairs t u htu := by
    have hspreads : Spreads (arrayOf row column F) F := spreads_arrayOf
    rw [← hspreads.pairCount_eq hcells]
    exact hF.pairs t u htu

end Numbering

end LatinSquares.Math
