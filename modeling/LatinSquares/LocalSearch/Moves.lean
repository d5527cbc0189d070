/-
# The moves of the solver

The part of `solve` that tries one value for each meta variable of a bag, and the part that
accepts the move when `check_flipped` finds an improvement: the flips are committed and the
new values are written to `metaValues`.
-/

import LatinSquares.LocalSearch.Construction

namespace LatinSquares.LocalSearch

open LatinSquares.Math

/-- `flipped.push_back(literal.number)` for the literals that are not true. -/
def flipsOf (units : Units) (literals : List Literal) : List Nat :=
  (literals.filter fun l => units l.number != l.value.toUInt8).map Literal.number

namespace HillClimbingSolver

/-- The entry and the value that a pair of indices leads to in the meta variables. -/
def candidate (s : HillClimbingSolver) (p : Nat × Nat) :
    Option (MetaVariable × List Literal × UInt8) := do
  let m ← s.metaVariables[p.1]?
  let literals ← m.variables_[p.2]?
  let value ← m.values[p.2]?
  return (m, literals, value)

/-- The list `flipped` for a bag; each meta variable comes with the index of its new value. -/
def flipped (s : HillClimbingSolver) (bag : List (Nat × Nat)) : Option (List Nat) := do
  let candidates ← bag.mapM s.candidate
  return candidates.flatMap fun c => flipsOf s.propagated c.2.1

/-- The values in `newMetaValues` are written to `metaValues`. -/
def writeValues (s : HillClimbingSolver) (bag : List (Nat × Nat)) :
    Option (List (List (List UInt32))) := do
  let candidates ← bag.mapM s.candidate
  candidates.foldlM (fun metaValues c => c.1.setValue metaValues c.2.2) s.metaValues

/-- An accepted move: `check_flipped` finds an improvement, and the list it has extended is
committed by `apply_flipped`. -/
def accept (order : SwapOrder) (s : HillClimbingSolver) (bag : List (Nat × Nat)) :
    Option HillClimbingSolver := do
  let flipped ← s.flipped bag
  let (improves, flipped) ← s.checkFlipped order flipped
  guard (improves = true)
  let next ← s.applyFlipped order flipped
  let metaValues ← s.writeValues bag
  return { next with metaValues }

/-- A move of `solve`. The meta variables of a bag are different ones. -/
def Accepts (order : SwapOrder) (s s' : HillClimbingSolver) : Prop :=
  ∃ bag : List (Nat × Nat), (bag.map Prod.fst).Nodup ∧ s.accept order bag = some s'

end HillClimbingSolver

variable {order : SwapOrder} {net : Net} {units : Units} {l closed : List Nat} {v : Nat}

/-- The net enters its own variables only. -/
theorem Net.count_compute (h : net.compute order units l = some closed)
    (hv : ∀ node ∈ net.finalized, node.var ≠ v) : closed.count v = l.count v := by
  obtain ⟨state, hfold, hstate⟩ := Option.bind_eq_some_iff.mp h
  cases hstate
  have hrun : ∀ (nodes : List Node) (state state' : List Nat × List Nat),
      (∀ node ∈ nodes, node.var ≠ v) →
        nodes.foldlM (net.computeNode order units) state = some state' →
          state'.1.count v = state.1.count v := by
    intro nodes
    induction nodes with
    | nil =>
        intro state state' _ hfold
        cases hfold
        rfl
    | cons node nodes ih =>
        intro state state' hnodes hfold
        obtain ⟨hnode, hrest⟩ := List.forall_mem_cons.mp hnodes
        rw [List.foldlM_cons] at hfold
        obtain ⟨middle, hstep, htail⟩ := Option.bind_eq_some_iff.mp hfold
        rw [ih middle state' hrest htail]
        rcases Net.computeNode_cases hstep with ⟨-, -, hlist⟩ | ⟨-, rfl⟩
        · rw [hlist, (perm_enter order state.1 node.var).count_eq, List.count_cons_of_ne hnode]
        · rfl
  exact hrun net.finalized _ state hv hfold

end LatinSquares.LocalSearch
