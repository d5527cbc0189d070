/-
# One-hot tables

A formula describes a square by one truth value for every row, column and symbol.
Such a table describes a square when every cell has exactly one symbol. The square
is Latin exactly when, in addition, every symbol occurs once in every row and once
in every column; on a finite type those two conditions already give every cell a
symbol, so long as no cell has two.
-/

import LatinSquares.Math.LatinSquare
import Mathlib.Algebra.BigOperators.Fin

namespace LatinSquares.Math

variable {ι : Type*}

/-- The table `T` marks the symbols of `L`. -/
def OneHot (T : ι → ι → ι → Prop) (L : Square ι) : Prop := ∀ i j k, T i j k ↔ L i j = k

section Tables

variable {T U : ι → ι → ι → Prop} {L M : Square ι}

theorem OneHot.unique (hL : OneHot T L) (hM : OneHot T M) : L = M := by
  funext i j
  exact ((hL i j (M i j)).mp ((hM i j (M i j)).mpr rfl))

/-- The lines of a described square: a symbol occurs once in every row and column. -/
theorem OneHot.isLatin_iff [Finite ι] (h : OneHot T L) :
    IsLatin L ↔ (∀ i k, ∃! j, T i j k) ∧ ∀ j k, ∃! i, T i j k := by
  simp only [OneHot] at h
  simp only [h]
  constructor
  · intro hL
    constructor
    · intro i k
      obtain ⟨j, hj⟩ := (Finite.injective_iff_surjective.mp (hL.row i)) k
      exact ⟨j, hj, fun j' hj' => hL.row i (hj'.trans hj.symm)⟩
    · intro j k
      obtain ⟨i, hi⟩ := (Finite.injective_iff_surjective.mp (hL.column j)) k
      exact ⟨i, hi, fun i' hi' => hL.column j (hi'.trans hi.symm)⟩
  · rintro ⟨hrows, hcolumns⟩
    exact ⟨fun i j j' hj => (hrows i (L i j')).unique hj rfl,
      fun j i i' hi => (hcolumns j (L i' j)).unique hi rfl⟩

theorem exists_oneHot_iff : (∃ L, OneHot T L) ↔ ∀ i j, ∃! k, T i j k := by
  constructor
  · rintro ⟨L, hL⟩ i j
    exact ⟨L i j, (hL i j _).mpr rfl, fun k hk => ((hL i j k).mp hk).symm⟩
  · intro h
    choose L hL using h
    exact ⟨L, fun i j k => ⟨fun hk => ((hL i j).2 k hk).symm, fun hk => hk ▸ (hL i j).1⟩⟩

/-- A table describes a Latin square exactly when cells, rows and columns are one-hot. -/
theorem exists_isLatin_iff [Finite ι] :
    (∃ L, IsLatin L ∧ OneHot T L) ↔
      (∀ i j, ∃! k, T i j k) ∧ (∀ i k, ∃! j, T i j k) ∧ ∀ j k, ∃! i, T i j k := by
  constructor
  · rintro ⟨L, hL, hT⟩
    exact ⟨exists_oneHot_iff.mp ⟨L, hT⟩, hT.isLatin_iff.mp hL⟩
  · rintro ⟨hcells, hlines⟩
    obtain ⟨L, hT⟩ := exists_oneHot_iff.mpr hcells
    exact ⟨L, hT.isLatin_iff.mpr hlines, hT⟩

/-- If no cell has two symbols, one-hot rows and columns are enough: the `n`
symbols of a row occupy `n` different cells. -/
theorem exists_isLatin_iff_lines [Finite ι] (hcell : ∀ i j k k', T i j k → T i j k' → k = k') :
    (∃ L, IsLatin L ∧ OneHot T L) ↔ (∀ i k, ∃! j, T i j k) ∧ ∀ j k, ∃! i, T i j k := by
  rw [exists_isLatin_iff]
  constructor
  · exact fun h => h.2
  · rintro ⟨hrows, hcolumns⟩
    refine ⟨fun i j => ?_, hrows, hcolumns⟩
    choose place hplace using fun k => (hrows i k).exists
    have hinjective : Function.Injective place := by
      intro k k' hkk'
      exact hcell i (place k) k k' (hplace k) (hkk' ▸ hplace k')
    obtain ⟨k, rfl⟩ := (Finite.injective_iff_surjective.mp hinjective) j
    exact ⟨k, hplace k, fun k' hk' => hcell i _ k' k hk' (hplace k)⟩

end Tables

/-- Cells that hold arbitrary values hold the symbols of a Latin square when every symbol is
somewhere in every row and column: the `n` symbols leave no cell for another value. -/
theorem exists_isLatin_iff_occurs [Finite ι] {κ : Type*} {T : ι → ι → κ} {s : ι → κ}
    (hs : Function.Injective s) :
    (∃ L : Square ι, (∀ i j, T i j = s (L i j)) ∧ IsLatin L) ↔
      (∀ k i, ∃ j, T i j = s k) ∧ ∀ k j, ∃ i, T i j = s k := by
  constructor
  · rintro ⟨L, hT, hL⟩
    constructor
    · intro k i
      obtain ⟨j, rfl⟩ := Finite.injective_iff_surjective.mp (hL.row i) k
      exact ⟨j, hT i j⟩
    · intro k j
      obtain ⟨i, rfl⟩ := Finite.injective_iff_surjective.mp (hL.column j) k
      exact ⟨i, hT i j⟩
  · rintro ⟨hrows, hcolumns⟩
    have hsymbol : ∀ i j, ∃ k, T i j = s k := by
      intro i j
      choose place hplace using fun k => hrows k i
      have hinjective : Function.Injective place := fun k k' hkk' =>
        hs ((hplace k).symm.trans (hkk' ▸ hplace k'))
      obtain ⟨k, rfl⟩ := Finite.injective_iff_surjective.mp hinjective j
      exact ⟨k, hplace k⟩
    choose L hL using hsymbol
    refine ⟨L, hL, fun i => Finite.injective_iff_surjective.mpr fun k => ?_,
      fun j => Finite.injective_iff_surjective.mpr fun k => ?_⟩
    · obtain ⟨j, hj⟩ := hrows k i
      exact ⟨j, hs ((hL i j).symm.trans hj)⟩
    · obtain ⟨i, hi⟩ := hcolumns k j
      exact ⟨i, hs ((hL i j).symm.trans hi)⟩

/-- Counting the pairs for which an indicator holds counts the pairs shown. -/
theorem card_filter_eq_pairCount [Fintype ι] [DecidableEq ι] {L M : Square ι}
    {shown : ι → ι → Bool} (h : ∀ a b, shown a b = true ↔ ∃ i j, L i j = a ∧ M i j = b) :
    (Finset.univ.filter fun p : ι × ι => shown p.1 p.2 = true).card = pairCount L M := by
  have hpairs : (Finset.univ.filter fun p : ι × ι => shown p.1 p.2 = true) = pairs L M := by
    ext ⟨a, b⟩
    rw [Finset.mem_filter, mem_pairs, h]
    simp
  rw [hpairs, pairCount]

section Lists

theorem sum_map_range (f : Nat → Nat) (n : Nat) :
    ((List.range n).map f).sum = ∑ i : Fin n, f i := by
  rw [← List.map_coe_finRange_eq_range, List.map_map, ← List.ofFn_eq_map, List.sum_ofFn]
  rfl

theorem countP_range (p : Nat → Bool) (n : Nat) :
    (List.range n).countP p = (Finset.univ.filter fun i : Fin n => p i).card := by
  rw [← List.map_coe_finRange_eq_range, List.countP_map, List.countP_eq_length_filter,
    Fin.univ_def]
  simp [Finset.card, Finset.filter, Function.comp_def]

/-- Counting over the rows of an `n` by `n` list is counting over the pairs of indices. -/
theorem countP_square {α : Type*} (p : α → Bool) (f : Nat → Nat → α) (n : Nat) :
    ((List.range n).flatMap fun i => (List.range n).map (f i)).countP p =
      (Finset.univ.filter fun x : Fin n × Fin n => p (f x.1 x.2)).card := by
  have hrow : ∀ i, ((List.range n).map (f i)).countP p =
      ∑ j : Fin n, if p (f i j) = true then 1 else 0 := by
    intro i
    rw [List.countP_map, countP_range, Finset.card_filter]
    rfl
  rw [Finset.card_filter, Fintype.sum_prod_type, List.countP_flatMap]
  simp only [Function.comp_def, hrow]
  rw [sum_map_range]

end Lists

end LatinSquares.Math
