/-
# Canonical forms of a family

A family in standard form still has the freedom to rename columns, rows and symbols
together. It is used up by one more row: the second row of the leading square, or
the first row of another square orthogonal to it, is laid out along a partition.
Both keep the standard form, because the renaming is the same on columns and
symbols and the cell in the first column stays where it is.
-/

import LatinSquares.Math.LatinSquare
import LatinSquares.Math.CycleLayout
import Mathlib.Data.Nat.ModEq

namespace LatinSquares.Math

open Equiv

variable {ι κ : Type*}

/-- Row `r` and column `c` of the leading square and any other show no pair twice,
besides the cell they share. -/
def CrossFree (lead : κ) (F : κ → Square ι) (r c : ι) : Prop :=
  ∀ t ≠ lead, ∀ i ≠ r, ∀ j ≠ c, ¬ (F lead r j = F lead i c ∧ F t r j = F t i c)

theorem crossFree_isotope {lead : κ} {F : κ → Square ι} {ρ χ : Perm ι} {σ : κ → Perm ι}
    {r c : ι} :
    CrossFree lead (fun t => isotope ρ χ (σ t) (F t)) r c ↔ CrossFree lead F (ρ r) (χ c) := by
  simp only [CrossFree, isotope_apply, (σ _).injective.eq_iff]
  refine forall_congr' fun t => forall_congr' fun _ => ?_
  constructor
  · intro h i hi j hj
    have hcell := h (ρ.symm i) (fun heq => hi (by rw [← heq, apply_symm_apply])) (χ.symm j)
      fun heq => hj (by rw [← heq, apply_symm_apply])
    simpa only [apply_symm_apply] using hcell
  · intro h i hi j hj
    exact h (ρ i) (ρ.injective.ne hi) (χ j) (χ.injective.ne hj)

/-- In standard form the cross at `o` repeats a pair exactly when another square has
symbol `j` in column `j` of row `o`. -/
theorem Standard.crossFree_iff {lead : κ} {F : κ → Square ι} {o : ι} (hF : Standard o lead F) :
    CrossFree lead F o o ↔ ∀ t ≠ lead, ∀ j ≠ o, F t o j ≠ j := by
  constructor
  · intro h t ht j hj heq
    exact h t ht j hj j hj ⟨by rw [hF.row, hF.column], by rw [heq, hF.column]⟩
  · rintro h t ht i hi j hj ⟨hlead, hother⟩
    rw [hF.row, hF.column] at hlead
    rw [hF.column] at hother
    exact h t ht j hj (hother.trans hlead.symm)

/-- Squares that show every pair show none twice. -/
theorem crossFree_of_forall_injective {lead : κ} {F : κ → Square ι} (r c : ι)
    (h : ∀ t ≠ lead, Function.Injective fun cell : ι × ι =>
      (F lead cell.1 cell.2, F t cell.1 cell.2)) : CrossFree lead F r c := by
  rintro t ht i hi j hj ⟨hlead, hother⟩
  have hcell : (r, j) = (i, c) := h t ht (Prod.ext hlead hother)
  exact hi (Prod.ext_iff.mp hcell).1.symm

/-- A family has a standard isotope without the symbol `j` in column `j` of the
distinguished row of another square exactly when one of its crosses repeats no pair. -/
theorem exists_standard_avoiding_iff [Finite ι] [DecidableEq ι] {F : κ → Square ι}
    (hF : ∀ t, IsLatin (F t)) (o : ι) (lead : κ) :
    (∃ (ρ χ : Perm ι) (σ : κ → Perm ι), Standard o lead (fun t => isotope ρ χ (σ t) (F t)) ∧
      ∀ t ≠ lead, ∀ j ≠ o, isotope ρ χ (σ t) (F t) o j ≠ j) ↔
      ∃ r c, CrossFree lead F r c := by
  constructor
  · rintro ⟨ρ, χ, σ, hstandard, havoid⟩
    exact ⟨ρ o, χ o, crossFree_isotope.mp (hstandard.crossFree_iff.mpr havoid)⟩
  · rintro ⟨r, c, hcross⟩
    obtain ⟨ρ, χ, σ, rfl, rfl, hstandard⟩ := exists_standard hF o r c lead
    exact ⟨ρ, χ, σ, hstandard, hstandard.crossFree_iff.mp (crossFree_isotope.mpr hcross)⟩

/-- The columns in the order `0, 2, 3, …, n - 1, 1`. -/
def shift (n j : Nat) : Nat := if j = 0 then 0 else if j + 1 = n then 1 else j + 1

theorem shift_injective {n j j' : Nat} (hj : j < n) (hj' : j' < n) (h : shift n j = shift n j') :
    j = j' := by
  simp only [shift] at h
  split_ifs at h <;> omega

/-- Row `i` turned by `d j` places in column `j`. -/
def turnedSquare (n : Nat) (hn : 0 < n) (d : Nat → Nat) : Square (Fin n) :=
  fun i j => ⟨(i + d j) % n, Nat.mod_lt _ hn⟩

theorem isLatin_turnedSquare {n : Nat} (hn : 0 < n) {d : Nat → Nat} (hd : ∀ j < n, d j < n)
    (hinjective : ∀ j < n, ∀ j' < n, d j = d j' → j = j') : IsLatin (turnedSquare n hn d) where
  row i j j' h := by
    have hmod : (i + d j) % n = (i + d j') % n := Fin.ext_iff.mp h
    have hcancel := Nat.ModEq.add_left_cancel' (i : Nat) hmod
    exact Fin.ext (hinjective j j.isLt j' j'.isLt
      (hcancel.eq_of_lt_of_lt (hd j j.isLt) (hd j' j'.isLt)))
  column j i i' h := by
    have hmod : (i + d j) % n = (i' + d j) % n := Fin.ext_iff.mp h
    have hcancel := Nat.ModEq.add_right_cancel' (d j) hmod
    exact Fin.ext (hcancel.eq_of_lt_of_lt i.isLt i'.isLt)

/-- From order three on there are Latin squares in standard form of which none but the
leading one has symbol `j` in column `j` of the first row. -/
theorem exists_standard_avoiding [DecidableEq κ] {n : Nat} (hn : 3 ≤ n) (lead : κ) :
    ∃ F : κ → Square (Fin n), (∀ t, IsLatin (F t)) ∧ Standard ⟨0, by omega⟩ lead F ∧
      ∀ t ≠ lead, ∀ j ≠ ⟨0, by omega⟩, F t ⟨0, by omega⟩ j ≠ j := by
  have hshift : ∀ j < n, shift n j < n := by
    intro j hj
    simp only [shift]
    split_ifs <;> omega
  refine ⟨fun t => turnedSquare n (by omega) (if t = lead then id else shift n),
    fun t => ?_, ⟨fun j => ?_, fun t i => ?_⟩, fun t ht j hj h => ?_⟩
  · dsimp only
    split
    · exact isLatin_turnedSquare _ (fun _ hj => hj) fun _ _ _ _ h => h
    · exact isLatin_turnedSquare _ hshift fun _ hj _ hj' => shift_injective hj hj'
  · apply Fin.ext
    simp [turnedSquare, Nat.mod_eq_of_lt j.isLt]
  · apply Fin.ext
    split <;> simp [turnedSquare, shift, Nat.mod_eq_of_lt i.isLt]
  · have hvalue : (0 + shift n j) % n = j := by
      simpa [turnedSquare, ht] using Fin.ext_iff.mp h
    rw [Nat.zero_add, Nat.mod_eq_of_lt (hshift j j.isLt)] at hvalue
    have hpos : (j : Nat) ≠ 0 := fun hzero => hj (Fin.ext hzero)
    simp only [shift] at hvalue
    split_ifs at hvalue <;> omega

section Cycles

variable {n : Nat} {F : κ → Square (Fin n)} {lead other : κ}

/-- The first of the blocks takes the first cell to the second. -/
theorem RowLaidOut.apply_zero {L : Fin n → Fin n} {l : List Nat} (hn : 0 < n)
    (hsum : l.sum = n) (hparts : ∀ p ∈ l, 2 ≤ p) (h : RowLaidOut L l 0) :
    (L ⟨0, hn⟩ : Nat) = 1 := by
  cases l with
  | nil => simp at hsum; omega
  | cons p l =>
      have hp := hparts p (List.mem_cons_self ..)
      obtain ⟨_, hcell⟩ := h.1 0 (by omega)
      have hmod : (0 + 1) % p = 1 := Nat.mod_eq_of_lt (by omega)
      rw [hmod] at hcell
      exact hcell

/-- Every family has a standard isotope in which the second row of the leading square
is laid out along a partition. -/
theorem exists_standard_second_row (hn : 2 ≤ n) (hF : ∀ t, IsLatin (F t)) (lead : κ) :
    ∃ (ρ χ : Perm (Fin n)) (σ : κ → Perm (Fin n)),
      Standard ⟨0, by omega⟩ lead (fun t => isotope ρ χ (σ t) (F t)) ∧
      ∃ l ∈ partitions n 2,
        RowLaidOut (isotope ρ χ (σ lead) (F lead) ⟨1, by omega⟩) l 0 := by
  classical
  let o : Fin n := ⟨0, by omega⟩
  let one : Fin n := ⟨1, by omega⟩
  obtain ⟨ρ₀, χ₀, σ₀, -, -, hstandard⟩ := exists_standard hF o o o lead
  have hG : ∀ t, IsLatin (isotope ρ₀ χ₀ (σ₀ t) (F t)) := fun t => (hF t).isotope _ _ _
  generalize hGdef : (fun t => isotope ρ₀ χ₀ (σ₀ t) (F t)) = G at hstandard
  have hGt : ∀ t, isotope ρ₀ χ₀ (σ₀ t) (F t) = G t := fun t => congrFun hGdef t
  simp only [hGt] at hG
  -- the second row moves every cell, so it is a cycle layout up to renaming
  let π : Perm (Fin n) := (hG lead).rowPerm one
  have hmoves : ∀ c : Fin n, π c = c ↔ (c : Nat) < 0 := by
    intro c
    refine ⟨fun h => ?_, fun h => absurd h (Nat.not_lt_zero _)⟩
    have hrows : one = o := (hG lead).column c (by
      show G lead one c = G lead o c
      rw [hstandard.row]
      exact h)
    simp [one, o, Fin.ext_iff] at hrows
  obtain ⟨l, hl, τ, -, hlaid⟩ := exists_conj_laidOut (by omega) π hmoves
  obtain ⟨hsum, hparts⟩ := sum_of_mem_partitions (by decide) (by omega) l hl
  rw [Nat.sub_zero] at hl hsum
  -- rename columns and the leading square's symbols alike, and restore the first column
  let σ₁ : κ → Perm (Fin n) := fun t => if t = lead then τ else 1
  have hH : ∀ t, IsLatin (isotope 1 τ⁻¹ (σ₁ t) (G t)) := fun t => (hG t).isotope _ _ _
  have hrow : ∀ j, isotope 1 τ⁻¹ (σ₁ lead) (G lead) o j = j := by
    intro j
    simp [σ₁, hstandard.row]
  have hsecond : isotope 1 τ⁻¹ (σ₁ lead) (G lead) one = ⇑(τ * π * τ⁻¹) := by
    funext j
    simp [σ₁, π]
  obtain ⟨ρ, σ, hρo, hσ, hcolumn, hfinal⟩ :=
    exists_standard_of_row (F := fun t => isotope 1 τ⁻¹ (σ₁ t) (G t)) hH hrow
  have hρone : ρ one = one := by
    have hfirst : isotope 1 τ⁻¹ (σ₁ lead) (G lead) one o = one := by
      rw [hsecond]
      exact Fin.ext (hlaid.apply_zero (by omega) hsum hparts)
    exact (hH lead).column o ((hcolumn one).trans hfirst.symm)
  refine ⟨ρ₀ * 1 * ρ, χ₀ * τ⁻¹ * 1, fun t => σ t * (σ₁ t * σ₀ t), ?_, l, hl, ?_⟩
  · simp only [← isotope_isotope, hGt]
    exact hfinal
  · simp only [← isotope_isotope, hGt]
    have hlast : isotope ρ 1 (σ lead) (isotope 1 τ⁻¹ (σ₁ lead) (G lead)) one =
        ⇑(τ * π * τ⁻¹) := by
      rw [← hsecond]
      funext j
      rw [isotope_apply, hσ, hρone, Perm.one_apply, Perm.one_apply]
    rw [← hlast] at hlaid
    exact hlaid

/-- A family whose leading square shows every pair with each of the others has a
standard isotope in which the first row of another is laid out along a partition. -/
theorem exists_standard_other_row (hn : 3 ≤ n) (hF : ∀ t, IsLatin (F t)) (hother : other ≠ lead)
    (hpairs : ∀ t ≠ lead, Function.Injective fun cell : Fin n × Fin n =>
      (F lead cell.1 cell.2, F t cell.1 cell.2)) :
    ∃ (ρ χ : Perm (Fin n)) (σ : κ → Perm (Fin n)),
      Standard ⟨0, by omega⟩ lead (fun t => isotope ρ χ (σ t) (F t)) ∧
      ∃ l ∈ partitions (n - 1) 2,
        RowLaidOut (isotope ρ χ (σ other) (F other) ⟨0, by omega⟩) l 1 := by
  let o : Fin n := ⟨0, by omega⟩
  obtain ⟨ρ₀, χ₀, σ₀, -, -, hstandard⟩ := exists_standard hF o o o lead
  have hG : IsLatin (isotope ρ₀ χ₀ (σ₀ other) (F other)) := (hF other).isotope _ _ _
  have hcross : CrossFree lead (fun t => isotope ρ₀ χ₀ (σ₀ t) (F t)) o o := by
    rw [crossFree_isotope]
    exact crossFree_of_forall_injective _ _ hpairs
  generalize hGdef : (fun t => isotope ρ₀ χ₀ (σ₀ t) (F t)) = G at hstandard hcross
  have hGt : ∀ t, isotope ρ₀ χ₀ (σ₀ t) (F t) = G t := fun t => congrFun hGdef t
  rw [hGt] at hG
  -- the row of the other square fixes its first cell and no other
  let π : Perm (Fin n) := hG.rowPerm o
  have hmoves : ∀ c : Fin n, π c = c ↔ (c : Nat) < 1 := by
    intro c
    constructor
    · intro h
      by_contra hc
      refine hstandard.crossFree_iff.mp hcross other hother c ?_ h
      rintro rfl
      exact hc Nat.one_pos
    · intro hc
      obtain rfl : c = o := Fin.ext (by simp [o]; omega)
      exact hstandard.column other o
  obtain ⟨l, hl, τ, hτ, hlaid⟩ := exists_conj_laidOut (by omega) π hmoves
  have hτo : τ⁻¹ o = o := by
    have hzero := hτ o Nat.one_pos
    rw [Perm.inv_eq_iff_eq]
    exact Fin.ext (by simp [o] at hzero ⊢; omega)
  refine ⟨ρ₀ * τ⁻¹, χ₀ * τ⁻¹, fun t => τ * σ₀ t, ⟨fun j => ?_, fun t i => ?_⟩, l, hl, ?_⟩
  · simp only [← isotope_isotope, hGt]
    rw [isotope_apply, hτo, hstandard.row]
    exact τ.apply_symm_apply j
  · simp only [← isotope_isotope, hGt]
    rw [isotope_apply, hτo, hstandard.column]
    exact τ.apply_symm_apply i
  · simp only [← isotope_isotope, hGt]
    have hrow : isotope τ⁻¹ τ⁻¹ τ (G other) o = ⇑(τ * π * τ⁻¹) := by
      funext j
      rw [isotope_apply, hτo]
      rfl
    rw [← hrow] at hlaid
    exact hlaid

end Cycles

end LatinSquares.Math
