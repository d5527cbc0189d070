/-
# What the solver has of a generated file

The clauses, the net, the weights and the indices to compute, as they stand in the solver
once a file of the generator has been read.
-/

import LatinSquares.Generator.Printing
import LatinSquares.LocalSearch.Construct
import LatinSquares.LocalSearch.Finalize

namespace LatinSquares.LocalSearch

open LatinSquares.Generator (CNF LatinSquareEncoder Order)

/-- A printed literal as it is read. A constant prints nothing. -/
def readLiteral : Generator.Literal → Option Literal
  | .constFalse => none
  | .constTrue => none
  | .var name => some ⟨name, true⟩
  | .notVar name => some ⟨name, false⟩

/-- A printed clause as `operator>>` reads it: the literals stay in order. -/
def readClause (clause : Generator.Clause) : Clause := ⟨clause.args.filterMap readLiteral⟩

/-- A printed node as `parse_node` reads it. -/
def readNode : Generator.Node → Node
  | .value var value => .value var value
  | .andIff var args => .andIff var (args.filterMap readLiteral)
  | .orIff var args => .orIff var (args.filterMap readLiteral)
  | .orAnd var args => .orAnd var (args.map fun args => args.filterMap readLiteral)

/-- A meta variable as `readDimacs` stores it. -/
def readMetaVariable (it : Generator.MetaVariable) : MetaVariable where
  matrixIndex := UInt8.ofNat it.matrix
  rowIndex := UInt8.ofNat it.row
  columnIndex := UInt8.ofNat it.column
  variables_ := it.values.map fun entry => entry.2.filterMap readLiteral
  values := it.values.map fun entry => UInt8.ofNat entry.1

/-- The solver of a file, for a given assignment. -/
def HillClimbingSolver.ofFile (cnf : CNF) (net : Net) (propagated : Units) : HillClimbingSolver :=
  ofAssignment (cnf.clauses.map fun c => readClause c.clause) cnf.toCompute
    (fun i => UInt32.ofNat (cnf.weights.getD i 0)) net propagated

namespace HillClimbingSolver

open LatinSquares.Math

variable {cnf : CNF} {net : Net} {α : Nat → Bool}

/-- The marks and sums of a new solver for a file are exact. -/
theorem bookkeeping_ofFile
    (hfits : ∑ i ∈ Finset.range cnf.clauses.length,
      (UInt32.ofNat (cnf.weights.getD i 0)).toNat < 2 ^ 32) :
    Bookkeeping (ofFile cnf net (unitsOf α)) α cnf.toCompute.toFinset := by
  apply bookkeeping_ofAssignment
  · intro i hi
    rw [List.length_map]
    exact List.mem_range.mp (List.mem_filter.mp hi).1
  · rwa [List.length_map]

theorem net_ofFile : (ofFile cnf net (unitsOf α)).net = net :=
  (counted_ofAssignment _ _ _ net (unitsOf α)).net

/-- Sums of weights in a new solver for a file. -/
theorem weightOf_ofFile (indices : Finset Nat) (p : Clause → Bool) :
    (ofFile cnf net (unitsOf α)).weightOf indices p =
      ∑ i ∈ indices, if p ((cnf.clauses.map fun c => readClause c.clause).getD i ⟨[]⟩) then
        (UInt32.ofNat (cnf.weights.getD i 0)).toNat else 0 := by
  have hcounted := counted_ofAssignment
    (cnf.clauses.map fun c : Generator.Conjunct => readClause c.clause) cnf.toCompute
    (fun i => UInt32.ofNat (cnf.weights.getD i 0)) net (unitsOf α)
  unfold weightOf clause ofFile
  rw [hcounted.clauses, hcounted.weights]

/-- For two squares of order 3 with the first kind of symmetry breaking, the file has the
clauses `-19 -1`, `-19 2` and `-19 3` with the larger variable in front. When cell `(1, 1)`
of the first square changes and the one of the second square is empty, `19` changes alone. A
heavier set of clauses is satisfied, but the scan misses the flips of `1` and `2` behind `19`. -/
theorem exists_checkFlipped_rejects :
    let encoder : LatinSquareEncoder :=
      { reduced := true, breakingSymmetryType := .first, n := 3, k := 2, q := 8 }
    let α : Nat → Bool := fun v =>
      [1, 3, 5, 8, 9, 14, 16, 18, 20, 21, 22, 24, 25, 26, 28, 29, 46, 52, 68, 75, 85, 107, 113,
        114, 115, 116, 117].contains v
    ∃ cnf, encoder.cnf Order.identity = some cnf ∧
      ∃ net, Net.Finalizes (cnf.net.map readNode) net ∧
        (∀ node ∈ net.finalized, α node.var = node.eval α) ∧
        let s := ofFile cnf net (unitsOf α)
        let toCompute := cnf.toCompute.toFinset
        let closed := [1, 2, 19]
        Bookkeeping s α toCompute ∧ closed.Pairwise (· < ·) ∧
          (∀ order, s.net.compute order s.propagated [1, 2] = some closed ∧
            s.checkFlipped order [1, 2] = some (false, closed)) ∧
          s.weightOf toCompute (Clause.eval α) <
            s.weightOf toCompute (Clause.eval (flipAll α closed)) := by
  intro encoder α
  have hfile : (encoder.cnf Order.identity).any (fun cnf =>
      let nodes := cnf.net.map readNode
      let net := Net.sortedNet 12 nodes
      let clauses := cnf.clauses.map fun c => readClause c.clause
      let weight (p : Clause → Bool) : Nat :=
        ∑ i ∈ cnf.toCompute.toFinset,
          if p (clauses.getD i ⟨[]⟩) then (UInt32.ofNat (cnf.weights.getD i 0)).toNat else 0
      let closed := [1, 2, 19]
      decide ((∀ node ∈ nodes, (Net.depth nodes 12 node).isSome = true) ∧
        (∀ node ∈ net.finalized, α node.var = node.eval α) ∧
        net.compute .leftFirst (unitsOf α) [1, 2] = some closed ∧
        net.compute .rightFirst (unitsOf α) [1, 2] = some closed ∧
        (∑ i ∈ Finset.range cnf.clauses.length, (UInt32.ofNat (cnf.weights.getD i 0)).toNat) <
          2 ^ 32 ∧
        weight (Clause.propagateFlipped (unitsOf α) closed) ≤ weight (Clause.eval α) ∧
        weight (Clause.eval α) < weight (Clause.eval (flipAll α closed)))) = true := by
    decide +kernel
  obtain ⟨cnf, hcnf, hfacts⟩ := (Option.any_eq_true _ _).mp hfile
  obtain ⟨hdepth, hvalues, hleft, hright, hfits, hscan, hbetter⟩ := of_decide_eq_true hfacts
  have hfinalizes := Net.finalizes_sortedNet fun node hnode =>
    Option.isSome_iff_exists.mp (hdepth node hnode)
  refine ⟨cnf, hcnf, _, hfinalizes, hvalues, ?_⟩
  intro s toCompute closed
  have hbook : Bookkeeping s α toCompute := bookkeeping_ofFile hfits
  have hnet : ∀ order, s.net.compute order s.propagated [1, 2] = some closed := by
    intro order
    rw [net_ofFile, hbook.propagated]
    cases order with
    | leftFirst => exact hleft
    | rightFirst => exact hright
  have hbetter' : s.weightOf toCompute (Clause.eval α) <
      s.weightOf toCompute (Clause.eval (flipAll α closed)) := by
    rw [weightOf_ofFile, weightOf_ofFile]
    exact hbetter
  have hscan' : s.weightOf toCompute (Clause.propagateFlipped (unitsOf α) closed) ≤
      s.weightOf toCompute (Clause.eval α) := by
    rw [weightOf_ofFile, weightOf_ofFile]
    exact hscan
  refine ⟨hbook, by decide, fun order => ⟨hnet order, ?_⟩, hbetter'⟩
  apply (checkFlipped_eq hbook (hnet order)).trans
  apply congrArg fun b => some (b, closed)
  apply decide_eq_false
  exact not_lt.mpr ((Nat.mod_le _ _).trans (Nat.add_le_add_left hscan' _))

end HillClimbingSolver

end LatinSquares.LocalSearch
