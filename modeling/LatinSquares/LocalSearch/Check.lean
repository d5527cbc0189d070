/-
# Trying a list of flips

`check_flipped` compares the weight of the satisfied clauses with the one after the flips.
It evaluates the clauses that contain a flipped variable with the forward scan of
`Clause.propagateFlipped`, which misses the flips behind a larger variable, and it adds
modulo `2^32`. Where neither matters it is right.
-/

import LatinSquares.LocalSearch.Closure
import LatinSquares.LocalSearch.Solver
import Mathlib.Algebra.BigOperators.Intervals
import Mathlib.Data.UInt
import Mathlib.Tactic.Abel

namespace LatinSquares.LocalSearch.HillClimbingSolver

open LatinSquares.Math

variable {s : HillClimbingSolver} {α : Nat → Bool} {toCompute : Finset Nat}
variable {flipped closed : List Nat} {order : SwapOrder}

/-- The weight of the clauses among `indices` for which `p` holds. -/
def weightOf (s : HillClimbingSolver) (indices : Finset Nat) (p : Clause → Bool) : Nat :=
  ∑ i ∈ indices, if p (s.clause i) then (s.weights i).toNat else 0

/-- The indices of the clauses that are not in `toCompute`. -/
def ignored (s : HillClimbingSolver) (toCompute : Finset Nat) : Finset Nat :=
  Finset.range s.clauses.length \ toCompute

/-- The tables lead to the occurrences in the clauses of `toCompute`, and the marks and
their sum are exact for `α`. Clauses outside `toCompute` count as satisfied. -/
structure Bookkeeping (s : HillClimbingSolver) (α : Nat → Bool) (toCompute : Finset Nat) :
    Prop where
  propagated : s.propagated = unitsOf α
  toCompute_lt : ∀ i ∈ toCompute, i < s.clauses.length
  positive : ∀ v i, i ∈ s.literalToClauseWithPositiveValue v ↔
    i ∈ toCompute ∧ ⟨v, true⟩ ∈ (s.clause i).literals
  negative : ∀ v i, i ∈ s.literalToClauseWithNegativeValue v ↔
    i ∈ toCompute ∧ ⟨v, false⟩ ∈ (s.clause i).literals
  satisfied : ∀ i < s.clauses.length,
    (s.satisfied i = true ↔ (i ∈ toCompute → (s.clause i).eval α = true))
  satisfiedSum : s.satisfiedSum.toNat =
    ∑ i ∈ Finset.range s.clauses.length, if s.satisfied i then (s.weights i).toNat else 0

/-- No flipped variable stands behind a larger one in a clause of `toCompute`. -/
def NoFlipMissed (s : HillClimbingSolver) (toCompute : Finset Nat) (closed : List Nat) : Prop :=
  ∀ i ∈ toCompute, (s.clause i).literals.Pairwise fun a b =>
    b.number ∈ closed → a.number ≤ b.number

/-- Where no flip is missed, the scan finds the true weight. -/
theorem weightOf_propagateFlipped (hascending : closed.Pairwise (· < ·))
    (hmissed : s.NoFlipMissed toCompute closed) :
    s.weightOf toCompute (Clause.propagateFlipped (unitsOf α) closed) =
      s.weightOf toCompute (Clause.eval (flipAll α closed)) := by
  apply Finset.sum_congr rfl
  intro i hi
  rw [Clause.propagateFlipped_of_ascending _ hascending, Clause.evalSeen_eq (hmissed i hi)]

/-- Every clause met contributes once. -/
theorem foldl_visit_snd (s : HillClimbingSolver) (flipped : List Nat) (indices met : List Nat)
    (sum : UInt32) :
    (indices.foldl (s.visit flipped) (met, sum)).2 =
      sum + ∑ i ∈ indices.toFinset \ met.toFinset, s.trialDelta flipped i := by
  induction indices generalizing met sum with
  | nil => simp
  | cons index indices ih =>
      rw [List.foldl_cons, visit, List.toFinset_cons]
      by_cases hmet : index ∈ met
      · rw [if_pos hmet, ih, Finset.insert_sdiff_of_mem _ (List.mem_toFinset.mpr hmet)]
      · have hnot : index ∉ met.toFinset := fun h => hmet (List.mem_toFinset.mp h)
        rw [if_neg hmet, ih, List.toFinset_cons, Finset.insert_sdiff_of_notMem _ hnot,
          ← Finset.add_sum_erase _ _ (Finset.mem_insert_self index _),
          Finset.erase_insert_eq_erase, ← Finset.sdiff_insert, add_assoc]

/-- Sums of weights as 32-bit numbers. -/
theorem ofNat_sum {indices : Finset Nat} (f : Nat → Nat) :
    UInt32.ofNat (∑ i ∈ indices, f i) = ∑ i ∈ indices, UInt32.ofNat (f i) :=
  map_sum (AddMonoidHom.mk' UInt32.ofNat UInt32.ofNat_add) f indices

namespace Bookkeeping

variable (h : Bookkeeping s α toCompute)
include h

/-- A clause in which no flipped variable occurs is evaluated as it is. -/
theorem mem_occurrences {i number : Nat} :
    i ∈ s.occurrences number ↔
      i ∈ toCompute ∧ ∃ literal ∈ (s.clause i).literals, literal.number = number := by
  rw [occurrences, List.mem_append, h.positive, h.negative, ← and_or_left]
  apply and_congr_right
  intro _
  constructor
  · rintro (hliteral | hliteral)
    · exact ⟨_, hliteral, rfl⟩
    · exact ⟨_, hliteral, rfl⟩
  · rintro ⟨⟨number, value⟩, hliteral, rfl⟩
    cases value
    · exact Or.inr hliteral
    · exact Or.inl hliteral

/-- What a trial adds for a clause of `toCompute`. -/
theorem trialDelta_eq {i : Nat} (hi : i ∈ toCompute) :
    s.trialDelta closed i =
      (if (s.clause i).propagateFlipped (unitsOf α) closed then s.weights i else 0) -
        (if (s.clause i).eval α then s.weights i else 0) := by
  have hsatisfied : s.satisfied i = (s.clause i).eval α := by
    rw [Bool.eq_iff_iff, h.satisfied i (h.toCompute_lt i hi)]
    exact ⟨fun himp => himp hi, fun htrue _ => htrue⟩
  rw [trialDelta, h.propagated, hsatisfied]
  cases (s.clause i).propagateFlipped (unitsOf α) closed <;>
    cases (s.clause i).eval α <;> simp

/-- Clauses without a flipped variable add nothing. -/
theorem trialDelta_eq_zero {i : Nat} (hi : i ∈ toCompute)
    (hnot : i ∉ closed.flatMap s.occurrences) : s.trialDelta closed i = 0 := by
  have hfree : ∀ literal ∈ (s.clause i).literals, literal.number ∉ closed := by
    intro literal hliteral hmem
    apply hnot
    exact List.mem_flatMap.mpr ⟨_, hmem, h.mem_occurrences.mpr ⟨hi, literal, hliteral, rfl⟩⟩
  have hseen : ∀ literal ∈ (s.clause i).literals, literal.number ∉ records closed :=
    fun literal hliteral hmem => hfree literal hliteral (mem_of_mem_records hmem)
  have horder : (s.clause i).literals.Pairwise fun a b =>
      b.number ∈ records closed → a.number ≤ b.number :=
    List.Pairwise.imp_of_mem (fun _ hb _ hmem => absurd hmem (hseen _ hb))
      (List.pairwise_of_forall fun _ _ => trivial)
  rw [h.trialDelta_eq hi, Clause.propagateFlipped_eq_evalSeen, Clause.evalSeen_eq horder,
    Clause.eval_flipAll_of_disjoint hseen, sub_self]

/-- The sum kept by the solver: the ignored clauses and the satisfied ones. -/
theorem satisfiedSum_eq :
    s.satisfiedSum.toNat =
      s.weightOf (s.ignored toCompute) (fun _ => true) + s.weightOf toCompute (Clause.eval α) := by
  have hsubset : toCompute ⊆ Finset.range s.clauses.length := fun i hi =>
    Finset.mem_range.mpr (h.toCompute_lt i hi)
  rw [h.satisfiedSum, ← Finset.sum_sdiff hsubset]
  congr 1
  · apply Finset.sum_congr rfl
    intro i hi
    obtain ⟨hrange, hnot⟩ := Finset.mem_sdiff.mp hi
    have hmark := (h.satisfied i (Finset.mem_range.mp hrange)).mpr fun hmem => absurd hmem hnot
    simp [hmark]
  · apply Finset.sum_congr rfl
    intro i hi
    have hmark := h.satisfied i (h.toCompute_lt i hi)
    by_cases htrue : (s.clause i).eval α = true
    · simp [htrue, hmark.mpr fun _ => htrue]
    · have hunmarked : s.satisfied i = false :=
        Bool.eq_false_iff.mpr fun hsat => htrue (hmark.mp hsat hi)
      simp [htrue, hunmarked]

/-- The sum a trial ends with. -/
theorem foldl_visit_eq (closed : List Nat) :
    ((closed.flatMap s.occurrences).foldl (s.visit closed) ([], s.satisfiedSum)).2 =
      UInt32.ofNat (s.weightOf (s.ignored toCompute) (fun _ => true) +
        s.weightOf toCompute (Clause.propagateFlipped (unitsOf α) closed)) := by
  have hmet : (closed.flatMap s.occurrences).toFinset ⊆ toCompute := by
    intro i hi
    obtain ⟨_, _, hmem⟩ := List.mem_flatMap.mp (List.mem_toFinset.mp hi)
    exact (h.mem_occurrences.mp hmem).1
  have hall : ∑ i ∈ (closed.flatMap s.occurrences).toFinset, s.trialDelta closed i =
      ∑ i ∈ toCompute, s.trialDelta closed i := by
    apply Finset.sum_subset hmet
    intro i hi hnot
    exact h.trialDelta_eq_zero hi fun hmem => hnot (List.mem_toFinset.mpr hmem)
  have hweights : ∀ p : Clause → Bool, UInt32.ofNat (s.weightOf toCompute p) =
      ∑ i ∈ toCompute, if p (s.clause i) then s.weights i else 0 := by
    intro p
    rw [weightOf, ofNat_sum]
    apply Finset.sum_congr rfl
    intro i _
    split <;> simp
  rw [foldl_visit_snd, List.toFinset_nil, Finset.sdiff_empty, hall,
    Finset.sum_congr rfl fun i hi => h.trialDelta_eq hi, Finset.sum_sub_distrib,
    ← hweights (Clause.propagateFlipped _ _), ← hweights (Clause.eval α), UInt32.ofNat_add,
    ← UInt32.ofNat_toNat (x := s.satisfiedSum), h.satisfiedSum_eq, UInt32.ofNat_add]
  abel

end Bookkeeping

/-- `check_flipped` compares the weight kept by the solver with the one its scan finds. -/
theorem checkFlipped_eq (h : Bookkeeping s α toCompute)
    (hclosed : s.net.compute order s.propagated flipped = some closed) :
    let other := s.weightOf (s.ignored toCompute) fun _ => true
    s.checkFlipped order flipped =
      some (decide (other + s.weightOf toCompute (Clause.eval α) <
        (other + s.weightOf toCompute (Clause.propagateFlipped (unitsOf α) closed)) % 2 ^ 32),
        closed) := by
  intro other
  rw [checkFlipped, hclosed]
  change some (decide (s.satisfiedSum <
    ((closed.flatMap s.occurrences).foldl (s.visit closed) ([], s.satisfiedSum)).2), closed) = _
  simp only [UInt32.lt_iff_toNat_lt, h.satisfiedSum_eq, h.foldl_visit_eq, UInt32.toNat_ofNat']
  rfl

/-- `check_flipped` is right about a list of flips if no flipped variable stands behind a larger
one in a clause and the weights do not overflow. -/
theorem checkFlipped_correct (h : Bookkeeping s α toCompute)
    (hclosed : s.net.compute order s.propagated flipped = some closed)
    (hascending : closed.Pairwise (· < ·)) (hmissed : s.NoFlipMissed toCompute closed)
    (hfits : s.weightOf (s.ignored toCompute) (fun _ => true) +
      s.weightOf toCompute (Clause.eval (flipAll α closed)) < 2 ^ 32) :
    ∃ b, s.checkFlipped order flipped = some (b, closed) ∧
      (b = true ↔ s.weightOf toCompute (Clause.eval α) <
        s.weightOf toCompute (Clause.eval (flipAll α closed))) := by
  refine ⟨_, checkFlipped_eq h hclosed, ?_⟩
  rw [decide_eq_true_iff, weightOf_propagateFlipped hascending hmissed, Nat.mod_eq_of_lt hfits]
  exact Nat.add_lt_add_iff_left

/-- Three clauses on the inputs `1` and `2` and the node `3`, which is their conjunction. All
variables are false, and the second clause is the only one with weight `2`. -/
def threeClauses : HillClimbingSolver where
  clauses := [⟨[⟨1, true⟩, ⟨2, true⟩]⟩, ⟨[⟨1, false⟩, ⟨3, true⟩]⟩,
    ⟨[⟨2, false⟩, ⟨3, true⟩, ⟨4, true⟩]⟩]
  propagated := unitsOf fun _ => false
  satisfied := fun i => i != 0
  literalToUnsat := fun v => if v = 1 ∨ v = 2 then 1 else 0
  weights := fun i => if i = 1 then 2 else 1
  net := Net.conjunctions
  clausesCountSatisfied := fun i => if i = 0 then 0 else 1
  literalToClauseWithPositiveValue := ([[], [0], [0], [1, 2], [2]].getD · [])
  literalToClauseWithNegativeValue := ([[], [1], [2]].getD · [])
  satisfiedSum := 3
  satisfiedCount := 2

theorem bookkeeping_threeClauses : Bookkeeping threeClauses (fun _ => false) {0, 1, 2} where
  propagated := rfl
  toCompute_lt := by decide
  positive v i := by
    rcases v with _ | _ | _ | _ | _ | v <;> rcases i with _ | _ | _ | i <;>
      simp [threeClauses, clause]
  negative v i := by
    rcases v with _ | _ | _ | _ | _ | v <;> rcases i with _ | _ | _ | i <;>
      simp [threeClauses, clause]
  satisfied := by decide
  satisfiedSum := by decide

theorem checkFlipped_correct_threeClauses :
    ∃ b, threeClauses.checkFlipped .rightFirst [1, 2] = some (b, [1, 2, 3]) ∧
      (b = true ↔ threeClauses.weightOf {0, 1, 2} (Clause.eval fun _ => false) <
        threeClauses.weightOf {0, 1, 2} (Clause.eval (flipAll (fun _ => false) [1, 2, 3]))) :=
  checkFlipped_correct bookkeeping_threeClauses (by decide +kernel) (by decide)
    (by unfold NoFlipMissed; decide) (by decide)

end LatinSquares.LocalSearch.HillClimbingSolver
