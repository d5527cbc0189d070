/-
# The constructor of the solver

`HillClimbingSolver::HillClimbingSolver`: after `reduce` the first column of every square and
the first row of the first one receive constants in `metaValues`, every meta variable receives
a value of its domain, the net computes what is unknown, and the clauses are counted.
-/

import LatinSquares.LocalSearch.Reduce

namespace LatinSquares.LocalSearch

/-- `metaValues[matrix][row][column]`. -/
def metaValueAt (metaValues : List (List (List UInt32))) (place : Nat × Nat × Nat) :
    Option UInt32 := do
  let rows ← metaValues[place.1]?
  let row ← rows[place.2.1]?
  row[place.2.2]?

namespace MetaVariable

/-- The indices of the cell. -/
def place (m : MetaVariable) : Nat × Nat × Nat :=
  (m.matrixIndex.toNat, m.rowIndex.toNat, m.columnIndex.toNat)

/-- `metaValues[matrixIndex][rowIndex][columnIndex] = value`. -/
def setValue (m : MetaVariable) (metaValues : List (List (List UInt32))) (value : UInt8) :
    Option (List (List (List UInt32))) :=
  if (metaValueAt metaValues m.place).isSome then
    some (metaValues.modify m.matrixIndex.toNat fun rows =>
      rows.modify m.rowIndex.toNat fun row => row.set m.columnIndex.toNat value.toUInt32)
  else none

end MetaVariable

/-- `std::vector::resize`. -/
def resize {A : Type} (size : Nat) (fill : A) (l : List A) : List A :=
  l.take size ++ List.replicate (size - l.length) fill

/-- The constants of one square. Its row `1` and the first cell of every row have to be
there. -/
def fixSquare (k : Nat) (rows : List (List UInt32)) : Option (List (List UInt32)) := do
  let second ← rows[1]?
  let rows := rows.modify 0 (resize second.length 0)
  guard (∀ row ∈ rows, row ≠ [])
  let rows := rows.mapIdx fun i row => row.set 0 (UInt32.ofNat (i + 1))
  return if k = 0 then
    rows.modify 0 fun row => row.mapIdx fun i _ => UInt32.ofNat (i + 1)
  else rows

/-- The loop that writes constants to `metaValues`. -/
def fixConstants (metaValues : List (List (List UInt32))) :
    Option (List (List (List UInt32))) :=
  metaValues.zipIdx.mapM fun p => fixSquare p.2 p.1

namespace HillClimbingSolver

/-- A meta variable receives the value `rand() % variables.size()`. -/
def chooseValue (s : HillClimbingSolver) (m : MetaVariable) (rand : Nat) :
    Option HillClimbingSolver := do
  let index := rand % m.variables_.length
  let value ← m.values[index]?
  let metaValues ← m.setValue s.metaValues value
  let literals ← m.variables_[index]?
  return { s with metaValues, propagated := setLiterals s.propagated literals }

/-- The loop over the meta variables. The calls of `rand` are numbered. -/
def chooseValues (rand : Nat → Nat) (s : HillClimbingSolver) : Option HillClimbingSolver :=
  s.metaVariables.zipIdx.foldlM (fun s p => s.chooseValue p.1 (rand p.2)) s

/-- The body of the loop over a start assignment. -/
def takeFirst (first : List UInt8) (s : HillClimbingSolver) (i : Nat) :
    Option HillClimbingSolver := do
  let value ← first[i]?
  let s := { s with propagated := Function.update s.propagated i value }
  if value = 0 then return s
  match s.literalToMetaVariable i with
  | none => return s
  | some k => do
      let metaVar ← s.metaVariables[k]?
      match metaVar.variables_.findIdx? fun literals => literals.contains ⟨i, true⟩ with
      | none => return s
      | some index => do
          let value ← metaVar.values[index]?
          let metaValues ← metaVar.setValue s.metaValues value
          return { s with metaValues }

/-- The loop over a start assignment, if there is one. -/
def takeAll (coreSize : Nat) (first : List UInt8) (s : HillClimbingSolver) :
    Option HillClimbingSolver :=
  if first = [] then some s
  else (List.range' 1 coreSize).foldlM (takeFirst first) s

/-- The constructor, with a bound on the rounds of `reduce`. -/
def construct (fuel : Nat) (clauses : List Clause) (toCompute : List Nat)
    (weights : Nat → UInt32) (net : Net) (metaVariables : List MetaVariable) (coreSize : Nat)
    (first : List UInt8) (rand : Nat → Nat) : Option HillClimbingSolver := do
  let s ← unreduced clauses toCompute weights net metaVariables
  let s ← s.reduce fuel
  let metaValues ← fixConstants s.metaValues
  let s ← { s with metaValues }.chooseValues rand
  let s ← s.takeAll coreSize first
  return countClauses toCompute { s with propagated := s.net.evaluate s.propagated }

end HillClimbingSolver

end LatinSquares.LocalSearch
