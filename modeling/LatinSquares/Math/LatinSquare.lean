/-
# Families of Latin squares

A square is a table of symbols indexed by rows and columns; it is Latin when no
symbol is repeated in a row or in a column. Superimposing two squares shows
ordered pairs of symbols, and two Latin squares are orthogonal when every pair
is shown.

Permuting rows and columns of all squares of a family alike and the symbols of
each square separately keeps squares Latin and keeps the number of pairs any two
of them show. `exists_standard` uses that freedom to bring a family into the form
in which encoders fix cells: one square reads off its columns in a chosen row,
and every square reads off its rows in a chosen column.
-/

import Mathlib.Data.Fintype.Prod
import Mathlib.Data.Fintype.Perm
import Mathlib.Data.Fintype.Card
import Mathlib.Logic.Equiv.Basic

namespace LatinSquares.Math

/-- A table with one symbol for every row and column. -/
abbrev Square (ι : Type*) := ι → ι → ι

variable {ι κ : Type*}

/-- No symbol is repeated in a row or in a column. -/
structure IsLatin (L : Square ι) : Prop where
  row : ∀ i, Function.Injective (L i)
  column : ∀ j, Function.Injective fun i => L i j

/-- Two cells in different rows and different columns show the same pair. -/
def RepeatsPair (L M : Square ι) : Prop :=
  ∃ i₁ i₂ j₁ j₂, i₁ ≠ i₂ ∧ j₁ ≠ j₂ ∧ L i₁ j₁ = L i₂ j₂ ∧ M i₁ j₁ = M i₂ j₂

section Pairs

variable [Fintype ι] [DecidableEq ι]

/-- The ordered pairs two superimposed squares show. -/
def pairs (L M : Square ι) : Finset (ι × ι) :=
  Finset.univ.image fun cell : ι × ι => (L cell.1 cell.2, M cell.1 cell.2)

/-- The number of distinct ordered pairs two superimposed squares show. -/
def pairCount (L M : Square ι) : Nat := (pairs L M).card

theorem mem_pairs {L M : Square ι} {a b : ι} :
    (a, b) ∈ pairs L M ↔ ∃ i j, L i j = a ∧ M i j = b := by
  simp [pairs]

theorem pairCount_le (L M : Square ι) : pairCount L M ≤ Fintype.card ι * Fintype.card ι := by
  calc
    pairCount L M ≤ (Finset.univ : Finset (ι × ι)).card := Finset.card_le_univ _
    _ = Fintype.card ι * Fintype.card ι := by rw [Finset.card_univ, Fintype.card_prod]

/-- All pairs are shown exactly when no two cells show the same one. -/
theorem le_pairCount_iff_injective (L M : Square ι) :
    Fintype.card ι * Fintype.card ι ≤ pairCount L M ↔
      Function.Injective fun cell : ι × ι => (L cell.1 cell.2, M cell.1 cell.2) := by
  rw [← Set.injOn_univ, ← Finset.coe_univ, ← Finset.card_image_iff, Finset.card_univ,
    Fintype.card_prod]
  constructor
  · intro h
    exact le_antisymm (pairCount_le L M) h
  · intro h
    exact h.ge

/-- For Latin squares, cells that show the same pair differ in row and column, so
only such cells have to be told apart. -/
theorem le_pairCount_iff_not_repeatsPair {L M : Square ι} (hL : IsLatin L) :
    Fintype.card ι * Fintype.card ι ≤ pairCount L M ↔ ¬ RepeatsPair L M := by
  rw [le_pairCount_iff_injective]
  constructor
  · rintro hinjective ⟨i₁, i₂, j₁, j₂, hi, -, hl, hm⟩
    have hcell : (i₁, j₁) = (i₂, j₂) := hinjective (Prod.ext hl hm)
    exact hi (Prod.ext_iff.mp hcell).1
  · rintro hrepeats ⟨i₁, j₁⟩ ⟨i₂, j₂⟩ hpair
    obtain ⟨hl, hm⟩ := Prod.ext_iff.mp hpair
    simp only at hl hm
    by_cases hi : i₁ = i₂
    · subst hi
      rw [hL.row i₁ hl]
    · by_cases hj : j₁ = j₂
      · subst hj
        exact absurd (hL.column j₁ hl) hi
      · exact absurd ⟨i₁, i₂, j₁, j₂, hi, hj, hl, hm⟩ hrepeats

/-- A family of Latin squares of which any two show at least `bound` pairs. -/
structure LatinFamily [LT κ] (bound : κ → κ → Nat) (F : κ → Square ι) : Prop where
  latin : ∀ t, IsLatin (F t)
  pairs : ∀ t u, t < u → bound t u ≤ pairCount (F t) (F u)

end Pairs

/-- Rows reordered by `ρ`, columns by `χ`, and symbols renamed by `σ`. -/
def isotope (ρ χ σ : Equiv.Perm ι) (L : Square ι) : Square ι :=
  fun i j => σ (L (ρ i) (χ j))

@[simp]
theorem isotope_apply (ρ χ σ : Equiv.Perm ι) (L : Square ι) (i j : ι) :
    isotope ρ χ σ L i j = σ (L (ρ i) (χ j)) := rfl

theorem isotope_isotope (ρ χ σ ρ' χ' σ' : Equiv.Perm ι) (L : Square ι) :
    isotope ρ' χ' σ' (isotope ρ χ σ L) = isotope (ρ * ρ') (χ * χ') (σ' * σ) L := rfl

theorem IsLatin.isotope {L : Square ι} (hL : IsLatin L) (ρ χ σ : Equiv.Perm ι) :
    IsLatin (isotope ρ χ σ L) where
  row i _ _ h := χ.injective (hL.row (ρ i) (σ.injective h))
  column j _ _ h := ρ.injective (hL.column (χ j) (σ.injective h))

theorem pairCount_isotope [Fintype ι] [DecidableEq ι] (ρ χ σ τ : Equiv.Perm ι)
    (L M : Square ι) :
    pairCount (isotope ρ χ σ L) (isotope ρ χ τ M) = pairCount L M := by
  have himage : pairs (isotope ρ χ σ L) (isotope ρ χ τ M) =
      (pairs L M).image (Equiv.prodCongr σ τ) := by
    ext ⟨a, b⟩
    simp only [mem_pairs, Finset.mem_image, Prod.exists, isotope_apply]
    constructor
    · rintro ⟨i, j, rfl, rfl⟩
      exact ⟨_, _, ⟨ρ i, χ j, rfl, rfl⟩, rfl⟩
    · rintro ⟨_, _, ⟨i, j, rfl, rfl⟩, hab⟩
      obtain ⟨rfl, rfl⟩ := Prod.ext_iff.mp hab
      exact ⟨ρ.symm i, χ.symm j, by simp, by simp⟩
  rw [pairCount, himage, Finset.card_image_of_injective _ (Equiv.injective _), pairCount]

/-- Isotopes of a family show as many pairs. -/
theorem LatinFamily.isotope [Fintype ι] [DecidableEq ι] [LT κ] {bound : κ → κ → Nat}
    {F : κ → Square ι} (hF : LatinFamily bound F) (ρ χ : Equiv.Perm ι) (σ : κ → Equiv.Perm ι) :
    LatinFamily bound fun t => isotope ρ χ (σ t) (F t) where
  latin t := (hF.latin t).isotope ρ χ (σ t)
  pairs t u htu := by
    rw [pairCount_isotope]
    exact hF.pairs t u htu

/-- The row of a Latin square, as a permutation from columns to symbols. -/
noncomputable def IsLatin.rowPerm [Finite ι] {L : Square ι} (hL : IsLatin L) (i : ι) :
    Equiv.Perm ι :=
  Equiv.ofBijective (L i) (Finite.injective_iff_bijective.mp (hL.row i))

@[simp]
theorem IsLatin.rowPerm_apply [Finite ι] {L : Square ι} (hL : IsLatin L) (i j : ι) :
    hL.rowPerm i j = L i j := rfl

/-- The column of a Latin square, as a permutation from rows to symbols. -/
noncomputable def IsLatin.columnPerm [Finite ι] {L : Square ι} (hL : IsLatin L) (j : ι) :
    Equiv.Perm ι :=
  Equiv.ofBijective (fun i => L i j) (Finite.injective_iff_bijective.mp (hL.column j))

@[simp]
theorem IsLatin.columnPerm_apply [Finite ι] {L : Square ι} (hL : IsLatin L) (i j : ι) :
    hL.columnPerm j i = L i j := rfl

/-- Square `lead` lists the columns in row `o`, and every square lists the rows
in column `o`. -/
structure Standard (o : ι) (lead : κ) (F : κ → Square ι) : Prop where
  row : ∀ j, F lead o j = j
  column : ∀ t i, F t i o = i

section Normalisation

variable [Finite ι] {F : κ → Square ι} {o : ι} {lead : κ}

/-- A family whose leading square lists the columns in row `o` is brought into
standard form by reordering rows and renaming the symbols of the other squares;
row `o` and the leading square's symbols stay. -/
theorem exists_standard_of_row (hF : ∀ t, IsLatin (F t)) (hrow : ∀ j, F lead o j = j) :
    ∃ (ρ : Equiv.Perm ι) (σ : κ → Equiv.Perm ι), ρ o = o ∧ σ lead = 1 ∧
      (∀ i, F lead (ρ i) o = i) ∧ Standard o lead fun t => isotope ρ 1 (σ t) (F t) := by
  classical
  let ρ : Equiv.Perm ι := ((hF lead).columnPerm o).symm
  have hlead : ∀ i, F lead (ρ i) o = i := fun i =>
    ((hF lead).columnPerm o).apply_symm_apply i
  have hρ : ρ o = o := by
    apply (hF lead).column o
    simp only [hlead, hrow]
  let σ : κ → Equiv.Perm ι := fun t =>
    if t = lead then 1 else (ρ.trans ((hF t).columnPerm o)).symm
  refine ⟨ρ, σ, hρ, by simp [σ], hlead, ?_, ?_⟩
  · intro j
    simp [σ, hρ, hrow]
  · intro t i
    by_cases ht : t = lead
    · subst ht
      simp [σ, hlead]
    · have hcancel := (ρ.trans ((hF t).columnPerm o)).symm_apply_apply i
      simpa [σ, ht] using hcancel

/-- Every family of Latin squares has a standard isotope, whose distinguished row
and column may be taken from any row `r` and column `c` of the family. -/
theorem exists_standard [DecidableEq ι] (hF : ∀ t, IsLatin (F t)) (o r c : ι) (lead : κ) :
    ∃ (ρ χ : Equiv.Perm ι) (σ : κ → Equiv.Perm ι), ρ o = r ∧ χ o = c ∧
      Standard o lead fun t => isotope ρ χ (σ t) (F t) := by
  classical
  let χ : Equiv.Perm ι := Equiv.swap o c
  let ρ₀ : Equiv.Perm ι := Equiv.swap o r
  let σ₀ : κ → Equiv.Perm ι := fun t =>
    if t = lead then (χ.trans ((hF lead).rowPerm r)).symm else 1
  let G : κ → Square ι := fun t => isotope ρ₀ χ (σ₀ t) (F t)
  have hG : ∀ t, IsLatin (G t) := fun t => (hF t).isotope _ _ _
  have hrow : ∀ j, G lead o j = j := by
    intro j
    have hcancel := (χ.trans ((hF lead).rowPerm r)).symm_apply_apply j
    simpa [G, σ₀, ρ₀] using hcancel
  obtain ⟨ρ, σ, hρ, -, -, hstandard⟩ := exists_standard_of_row hG hrow
  refine ⟨ρ₀ * ρ, χ, fun t => σ t * σ₀ t, ?_, by simp [χ], ?_⟩
  · simp [hρ, ρ₀]
  · exact hstandard

end Normalisation

end LatinSquares.Math
