/-
# The hill climbing solver

`solver/HillClimbingSolver.h` and the two functions of `HillClimbingSolver.cpp` that try
and commit a list of flips. Vectors indexed by variables or clauses are functions on these
indices; counts, sums and weights are 32-bit numbers and wrap around.
-/

import LatinSquares.LocalSearch.Clause
import LatinSquares.Math.Loops

namespace LatinSquares.LocalSearch

open LatinSquares.Math

/-- A cell with the literals that each value of its domain sets. -/
structure MetaVariable where
  matrixIndex : UInt8
  rowIndex : UInt8
  columnIndex : UInt8
  variables_ : List (List Literal) := []
  values : List UInt8 := []
  deriving DecidableEq, Repr

/-- `propagated[variable.number] = variable.value` for every literal of a list. -/
def setLiterals (units : Units) (literals : List Literal) : Units :=
  literals.foldl (fun units l => Function.update units l.number l.value.toUInt8) units

/-- The fields of the solver. In `literalToMetaVariable`, `none` stands for `-1`. -/
structure HillClimbingSolver where
  clauses : List Clause
  propagated : Units
  satisfied : Nat → Bool
  metaVariables : List MetaVariable := []
  metaValues : List (List (List UInt32)) := []
  literalToMetaVariable : Nat → Option Nat := fun _ => none
  literalToUnsat : Nat → UInt32
  weights : Nat → UInt32
  net : Net
  clausesCountSatisfied : Nat → UInt32
  literalToClauseWithPositiveValue : Nat → List Nat
  literalToClauseWithNegativeValue : Nat → List Nat
  satisfiedSum : UInt32
  satisfiedCount : UInt32

namespace HillClimbingSolver

/-- `clauses[index]`. -/
def clause (s : HillClimbingSolver) (index : Nat) : Clause := s.clauses.getD index ⟨[]⟩

/-- What a clause adds to the sum when the flips satisfy or falsify it. -/
def trialDelta (s : HillClimbingSolver) (flipped : List Nat) (index : Nat) : UInt32 :=
  let newSatisfied := (s.clause index).propagateFlipped s.propagated flipped
  if newSatisfied && !s.satisfied index then s.weights index
  else if !newSatisfied && s.satisfied index then 0 - s.weights index
  else 0

/-- A clause met in the loops of `check_flipped`; it counts the first time only. The state
holds the clauses met and `newSatisfiedSum`. -/
def visit (s : HillClimbingSolver) (flipped : List Nat) (state : List Nat × UInt32)
    (index : Nat) : List Nat × UInt32 :=
  if index ∈ state.1 then state
  else (index :: state.1, state.2 + s.trialDelta flipped index)

/-- The clauses in which a variable occurs, as `check_flipped` goes through them. -/
def occurrences (s : HillClimbingSolver) (number : Nat) : List Nat :=
  s.literalToClauseWithPositiveValue number ++ s.literalToClauseWithNegativeValue number

/-- `check_flipped`: the result, and the list it has extended. -/
def checkFlipped (order : SwapOrder) (s : HillClimbingSolver) (flippedLiterals : List Nat) :
    Option (Bool × List Nat) := do
  let flipped ← s.net.compute order s.propagated flippedLiterals
  let state := (flipped.flatMap s.occurrences).foldl (s.visit flipped) ([], s.satisfiedSum)
  return (s.satisfiedSum < state.2, flipped)

/-- The variables `apply_flipped` updates in its loop. -/
structure Update where
  newSatisfied : List Nat := []
  newSatisfiedCountClauses : Nat → UInt32 := fun _ => 0
  literalToUnsat : Nat → UInt32
  newSatisfiedCount : UInt32
  newSatisfiedSum : UInt32

/-- `literal_to_unsat[literal.number] += delta` for the literals of a clause. -/
def addUnsat (clause : Clause) (delta : UInt32) (literalToUnsat : Nat → UInt32) : Nat → UInt32 :=
  clause.literals.foldl (fun unsat literal =>
    Function.update unsat literal.number (unsat literal.number + delta)) literalToUnsat

/-- The body of the loop over `to_sub`. -/
def subtract (s : HillClimbingSolver) (u : Update) (index : Nat) : Update :=
  let delta := u.newSatisfiedCountClauses index - 1
  let counts := Function.update u.newSatisfiedCountClauses index delta
  let u := { u with newSatisfiedCountClauses := counts }
  if s.clausesCountSatisfied index + delta = 0 then
    { u with
      literalToUnsat := addUnsat (s.clause index) 1 u.literalToUnsat
      newSatisfied := u.newSatisfied ++ [index]
      newSatisfiedSum := u.newSatisfiedSum - s.weights index
      newSatisfiedCount := u.newSatisfiedCount - 1 }
  else u

/-- The body of the loop over `to_add`. -/
def add (s : HillClimbingSolver) (u : Update) (index : Nat) : Update :=
  let delta := u.newSatisfiedCountClauses index + 1
  let counts := Function.update u.newSatisfiedCountClauses index delta
  let u := { u with newSatisfiedCountClauses := counts }
  if s.clausesCountSatisfied index + delta = 1 then
    { u with
      literalToUnsat := addUnsat (s.clause index) (0 - 1) u.literalToUnsat
      newSatisfied := u.newSatisfied ++ [index]
      newSatisfiedSum := u.newSatisfiedSum + s.weights index
      newSatisfiedCount := u.newSatisfiedCount + 1 }
  else u

/-- The body of the loop over the flipped variables, with the new values in `propagated`. -/
def applyVariable (s : HillClimbingSolver) (propagated : Units) (u : Update) (i : Nat) : Update :=
  let positive := s.literalToClauseWithPositiveValue i
  let negative := s.literalToClauseWithNegativeValue i
  let toAdd := if propagated i != 0 then positive else negative
  let toSub := if propagated i != 0 then negative else positive
  toAdd.foldl s.add (toSub.foldl s.subtract u)

/-- `propagated[i] ^= 1` for every entry of the list. -/
def toggle (propagated : Units) (flipped : List Nat) : Units :=
  flipped.foldl (fun units i => Function.update units i (units i ^^^ 1)) propagated

theorem toggle_eq_iterate (units : Units) (l : List Nat) (v : Nat) :
    toggle units l v = (· ^^^ 1)^[l.count v] (units v) :=
  foldl_update (· ^^^ 1) l units v

/-- `apply_flipped`. -/
def applyFlipped (order : SwapOrder) (s : HillClimbingSolver) (flippedLiterals : List Nat) :
    Option HillClimbingSolver := do
  let flipped ← s.net.compute order s.propagated flippedLiterals
  let propagated := toggle s.propagated flipped
  let u := flipped.foldl (s.applyVariable propagated)
    { literalToUnsat := s.literalToUnsat
      newSatisfiedCount := s.satisfiedCount
      newSatisfiedSum := s.satisfiedSum }
  return { s with
    propagated
    literalToUnsat := u.literalToUnsat
    clausesCountSatisfied := fun i => s.clausesCountSatisfied i + u.newSatisfiedCountClauses i
    satisfiedCount := u.newSatisfiedCount
    satisfiedSum := u.newSatisfiedSum
    satisfied := u.newSatisfied.foldl (fun satisfied index =>
      Function.update satisfied index (!satisfied index)) s.satisfied }

end HillClimbingSolver

end LatinSquares.LocalSearch
