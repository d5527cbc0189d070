/-
# Clauses of the local search

`cnf/Clause.cpp`. The clause printed in a file keeps the order of its literals when it
is read. The evaluation on flipped values runs one cursor along the list of flips, so it
misses the flip of a variable that stands behind a larger one.
-/

import LatinSquares.LocalSearch.Evaluation

namespace LatinSquares.LocalSearch

open LatinSquares.Math

/-- A clause as `operator>>` reads it. -/
structure Clause where
  literals : List Literal
  deriving DecidableEq, Repr

namespace Clause

/-- `propagate(units)`: how many literals are true. -/
def propagate (units : Units) (clause : Clause) : Nat :=
  clause.literals.countP fun literal => units literal.number == literal.value.toUInt8

/-- The loop of `propagate(units, flipped)`. -/
def scan (units : Units) : List Literal → List Nat → Bool
  | [], _ => false
  | literal :: literals, rest =>
      let rest := advance rest literal.number
      if units literal.number ^^^ (atCursor rest literal.number).toUInt8 == literal.value.toUInt8
      then true
      else scan units literals rest

/-- `propagate(units, flipped)`. -/
def propagateFlipped (units : Units) (flipped : List Nat) (clause : Clause) : Bool :=
  scan units clause.literals flipped

/-- Some literal is true, if the flip of a variable counts only where no larger one stands
in front of it. -/
def evalSeen (α : Nat → Bool) (flipped : List Nat) (clause : Clause) : Bool :=
  (readArgs α (flipAll α flipped) 0 clause.literals).any fun p => p.1 == p.2

/-- Some literal is true. -/
def eval (α : Nat → Bool) (clause : Clause) : Bool :=
  clause.literals.any fun literal => α literal.number == literal.value

variable {α : Nat → Bool} {flipped rest : List Nat} {literals : List Literal} {m : Nat}

theorem unit_eq_iff (α : Nat → Bool) (number : Nat) (b value : Bool) :
    (unitsOf α number ^^^ b.toUInt8 == value.toUInt8) = ((α number ^^ b) == value) := by
  unfold unitsOf
  cases α number <;> cases b <;> cases value <;> decide

/-- On a total assignment the loop is the one of `OrIffNode::propagate`. -/
theorem scan_eq_orScan (α : Nat → Bool) (literals : List Literal) (rest : List Nat) :
    scan (unitsOf α) literals rest = Node.orScan (unitsOf α) literals rest := by
  induction literals generalizing rest with
  | nil => rfl
  | cons literal literals ih =>
      rw [scan, Node.orScan, unit_eq_iff, flippedValue_unitsOf, ih]

/-- What `propagate(units, flipped)` computes. -/
theorem propagateFlipped_eq_evalSeen (clause : Clause) (α : Nat → Bool) (flipped : List Nat) :
    clause.propagateFlipped (unitsOf α) flipped = clause.evalSeen α (records flipped) := by
  have hstart : advance flipped 0 = flipped := advance_eq_self fun y _ => Nat.zero_le y
  have hscan : Node.orScan (unitsOf α) clause.literals (advance flipped 0) =
      (readArgs α (flipAll α (records flipped)) 0 clause.literals).any fun p => p.1 == p.2 :=
    Node.orScan_eq clause.literals 0
  rw [hstart] at hscan
  rw [propagateFlipped, scan_eq_orScan, hscan]
  rfl

theorem any_readArgs
    (horder : literals.Pairwise fun a b => b.number ∈ flipped → a.number ≤ b.number)
    (hm : ∀ literal ∈ literals, literal.number ∈ flipped → m ≤ literal.number) :
    ((readArgs α (flipAll α flipped) m literals).any fun p => p.1 == p.2) =
      literals.any fun literal => flipAll α flipped literal.number == literal.value := by
  induction literals generalizing m with
  | nil => rfl
  | cons literal literals ih =>
      obtain ⟨hhead, htail⟩ := List.pairwise_cons.mp horder
      obtain ⟨hle, hrest⟩ := List.forall_mem_cons.mp hm
      have hseen : (if m ≤ literal.number then flipAll α flipped literal.number
          else α literal.number) = flipAll α flipped literal.number := by
        by_cases hmem : literal.number ∈ flipped
        · exact if_pos (hle hmem)
        · simp [flipAll, hmem]
      rw [readArgs, List.any_cons, List.any_cons, hseen, ih htail]
      intro next hnext hmem
      exact max_le (hrest next hnext hmem) (hhead next hnext hmem)

/-- No flip is missed where flipped variables stand behind no larger one. -/
theorem evalSeen_eq {clause : Clause}
    (horder : clause.literals.Pairwise fun a b => b.number ∈ flipped → a.number ≤ b.number) :
    clause.evalSeen α flipped = clause.eval (flipAll α flipped) :=
  any_readArgs horder fun _ _ _ => Nat.zero_le _

theorem evalSeen_congr {l : List Nat} (clause : Clause) (h : ∀ v, v ∈ l ↔ v ∈ flipped) :
    clause.evalSeen α l = clause.evalSeen α flipped := by
  have hflip : flipAll α l = flipAll α flipped := by
    funext v
    rw [flipAll, flipAll, decide_eq_decide.mpr (h v)]
  rw [evalSeen, evalSeen, hflip]

/-- The scan along an ascending list misses only the flips behind a larger variable. -/
theorem propagateFlipped_of_ascending (clause : Clause) (hflipped : flipped.Pairwise (· < ·)) :
    clause.propagateFlipped (unitsOf α) flipped = clause.evalSeen α flipped := by
  rw [propagateFlipped_eq_evalSeen]
  exact clause.evalSeen_congr fun v => mem_records_of_sorted (hflipped.imp fun h => h.le)

theorem eval_congr {β : Nat → Bool} {clause : Clause}
    (h : ∀ literal ∈ clause.literals, α literal.number = β literal.number) :
    clause.eval α = clause.eval β := by
  apply any_congr_of_mem
  intro literal hliteral
  rw [h literal hliteral]

/-- Flips of other variables do not change a clause. -/
theorem eval_flipAll_of_disjoint {clause : Clause}
    (h : ∀ literal ∈ clause.literals, literal.number ∉ flipped) :
    clause.eval (flipAll α flipped) = clause.eval α := by
  apply eval_congr
  intro literal hliteral
  simp [flipAll, h literal hliteral]

end Clause

end LatinSquares.LocalSearch
