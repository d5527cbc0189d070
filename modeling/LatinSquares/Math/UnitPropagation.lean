/-
# Fixing the literals of unit clauses

A propagation over indexed clauses fixes the literals of unit clauses. A clause may lose the
literals that are false then, and a clause with a fixed literal may shrink to that literal.
As long as every fixed literal keeps a unit clause, the assignments that satisfy all clauses
stay the same.
-/

import Mathlib.Data.List.Basic

namespace LatinSquares.Math

namespace UnitPropagation

variable {L : Type} {ι : Type} {neg : L → L} {T : L → Prop} {clause fixed : List L}

/-- A literal of the clause is true. -/
def Holds (T : L → Prop) (clause : List L) : Prop := ∃ l ∈ clause, T l

/-- A literal is true exactly when its negation is not. -/
def Consistent (neg : L → L) (T : L → Prop) : Prop := ∀ l, T (neg l) ↔ ¬ T l

@[simp]
theorem holds_singleton {l : L} : Holds T [l] ↔ T l := by
  simp [Holds]

theorem Holds.mono {clause' : List L} (h : Holds T clause) (hsub : clause ⊆ clause') :
    Holds T clause' := by
  obtain ⟨l, hl, hT⟩ := h
  exact ⟨l, hsub hl, hT⟩

variable [DecidableEq L]

/-- The clause without the literals whose negations are fixed. -/
def strip (neg : L → L) (fixed clause : List L) : List L := clause.filter fun l => neg l ∉ fixed

theorem mem_strip {l : L} : l ∈ strip neg fixed clause ↔ l ∈ clause ∧ neg l ∉ fixed := by
  simp [strip]

/-- Stripping loses no true literal while the fixed ones are true. -/
theorem holds_strip (hT : Consistent neg T) (hfixed : ∀ l ∈ fixed, T l) :
    Holds T (strip neg fixed clause) ↔ Holds T clause := by
  constructor
  · exact fun h => h.mono fun l hl => (mem_strip.mp hl).1
  · intro h
    obtain ⟨l, hl, htrue⟩ := h
    apply Exists.intro l
    apply And.intro _ htrue
    apply mem_strip.mpr
    apply And.intro hl
    intro hmem
    exact (hT l).mp (hfixed _ hmem) htrue

/-- What a propagation leaves of the clauses with the given indices. -/
structure Propagated (neg : L → L) (indices : Set ι) (before after : ι → List L)
    (fixed : List L) : Prop where
  entailed : ∀ T, Consistent neg T → (∀ i ∈ indices, Holds T (before i)) → ∀ l ∈ fixed, T l
  unit : ∀ l ∈ fixed, ∃ i ∈ indices, after i = [l]
  shape : ∀ i ∈ indices, after i = before i ∨ after i = strip neg fixed (before i) ∨
    ∃ l ∈ fixed, l ∈ before i ∧ after i = [l]

/-- The same assignments satisfy all clauses before and after. -/
theorem Propagated.holds_iff {indices : Set ι} {before after : ι → List L}
    (h : Propagated neg indices before after fixed) (hT : Consistent neg T) :
    (∀ i ∈ indices, Holds T (after i)) ↔ ∀ i ∈ indices, Holds T (before i) := by
  have htransfer (hfixed : ∀ l ∈ fixed, T l) (i : ι) (hi : i ∈ indices) :
      Holds T (after i) ↔ Holds T (before i) := by
    rcases h.shape i hi with heq | heq | ⟨l, hl, hmem, heq⟩
    · rw [heq]
    · rw [heq, holds_strip hT hfixed]
    · rw [heq, holds_singleton]
      exact iff_of_true (hfixed l hl) ⟨l, hmem, hfixed l hl⟩
  constructor
  · intro hafter
    have hfixed : ∀ l ∈ fixed, T l := by
      intro l hl
      obtain ⟨i, hi, hunit⟩ := h.unit l hl
      have hholds := hafter i hi
      rwa [hunit, holds_singleton] at hholds
    exact fun i hi => (htransfer hfixed i hi).mp (hafter i hi)
  · intro hbefore
    have hfixed := h.entailed T hT hbefore
    exact fun i hi => (htransfer hfixed i hi).mpr (hbefore i hi)

/-- A unit clause left by stripping entails its literal. -/
theorem entails_of_strip_eq {l : L} (hT : Consistent neg T) (hfixed : ∀ l ∈ fixed, T l)
    (hclause : Holds T clause) (hunit : strip neg fixed clause = [l]) : T l := by
  have hholds := (holds_strip hT hfixed).mpr hclause
  rwa [hunit, holds_singleton] at hholds

end UnitPropagation

end LatinSquares.Math
