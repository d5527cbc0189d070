/-
# The accesses of `Net::compute` on printed nets

On the net of a file every access of `compute` is in bounds but one: after a change, the entry of
the variable in `literal_to_nodes` is read. There is an entry unless the variable is in the last
row of the last counter, or, when there are no counters, the indicator of a cycle.
-/

import LatinSquares.Generator.NetReads
import LatinSquares.LocalSearch.Accesses
import LatinSquares.LocalSearch.Ignored

namespace LatinSquares.LocalSearch

open LatinSquares.Generator (CNF LatinSquareEncoder Order)

variable {node : Generator.Node} {v : Nat}

/-- A node is read with the literals that are variables. -/
theorem args_readNode (node : Generator.Node) :
    (readNode node).args = node.args.filterMap readLiteral := by
  cases node with
  | value var b => rfl
  | andIff var args => rfl
  | orIff var args => rfl
  | orAnd var args => exact (List.filterMap_flatten ..).symm

theorem exists_arg_readNode :
    (∃ arg ∈ (readNode node).args, v ≤ arg.number) ↔ ∃ l ∈ node.args, ∃ w ∈ l.names, v ≤ w := by
  rw [args_readNode]
  constructor
  · rintro ⟨arg, harg, hle⟩
    obtain ⟨l, hl, hread⟩ := List.mem_filterMap.mp harg
    cases l with
    | constFalse => cases hread
    | constTrue => cases hread
    | var name =>
        cases hread
        exact ⟨_, hl, name, List.mem_singleton_self _, hle⟩
    | notVar name =>
        cases hread
        exact ⟨_, hl, name, List.mem_singleton_self _, hle⟩
  · rintro ⟨l, hl, w, hw, hle⟩
    cases l with
    | constFalse => cases hw
    | constTrue => cases hw
    | var name =>
        obtain rfl := List.mem_singleton.mp hw
        exact ⟨_, List.mem_filterMap.mpr ⟨_, hl, rfl⟩, hle⟩
    | notVar name =>
        obtain rfl := List.mem_singleton.mp hw
        exact ⟨_, List.mem_filterMap.mpr ⟨_, hl, rfl⟩, hle⟩

section Printed

variable {e : LatinSquareEncoder} {f : CNF} {s₁ s : Generator.GenState} {net : Net}
variable {breaking : Generator.Expression} {ortho : List Generator.VariabledExpression}
variable {args : List Generator.Conjunct} {size : Nat}

/-- The vectors of the solver fit the net of a file. -/
theorem fits_of_returned (hn : 0 < e.n) (h : e.Returned f s₁ s breaking ortho args)
    (hnet : Net.Finalizes (f.net.map readNode) net) (hsize : f.variables_.length < size) :
    net.Fits size := by
  rw [h.length_variables hn] at hsize
  refine ⟨fun node hnode => ?_, fun node hnode arg harg => ?_, fun indices hindices k hk => ?_⟩
  · have hvar := (mem_vars_iff h).mp
      (List.mem_map_of_mem (f := Node.var) (hnet.perm.mem_iff.mp hnode))
    exact hvar.2.trans_lt hsize
  · obtain ⟨node₀, hnode₀, rfl⟩ := List.mem_map.mp (hnet.perm.mem_iff.mp hnode)
    exact ((readNode_of_proper (net_proper h node₀ hnode₀)).1 arg harg).2.trans_lt hsize
  · obtain ⟨v, hv, rfl⟩ := List.getElem_of_mem hindices
    have hentry : k ∈ (Net.indexNodes net.finalized).getD v [] := by
      rwa [← hnet.table, List.getD_eq_getElem?_getD, List.getElem?_eq_getElem hv]
    obtain ⟨node, hnode, -⟩ := Net.mem_getD_indexNodes.mp hentry
    exact (List.getElem?_eq_some_iff.mp hnode).1

/-- The variables past the core variables that `literal_to_nodes` has an entry for. -/
theorem lt_length_literalToNodes_iff (hn : 0 < e.n) (h : e.Returned f s₁ s breaking ortho args)
    (hends : e.NetEnds s) (hnet : Net.Finalizes (f.net.map readNode) net) (hv : e.coreSize < v) :
    v < net.literalToNodes.length ↔
      e.q < e.n * e.n ∧ v + (e.n * e.n - e.q) ≤ f.variables_.length := by
  rw [← LatinSquareEncoder.exists_arg_ge_iff hn h hends hv, hnet.table, Net.lt_length_indexNodes]
  constructor
  · rintro ⟨node, hnode, harg⟩
    obtain ⟨node₀, hnode₀, rfl⟩ := List.mem_map.mp (hnet.perm.mem_iff.mp hnode)
    exact ⟨node₀, hnode₀, exists_arg_readNode.mp harg⟩
  · rintro ⟨node₀, hnode₀, harg⟩
    exact ⟨readNode node₀, hnet.perm.mem_iff.mpr (List.mem_map_of_mem hnode₀),
      exists_arg_readNode.mpr harg⟩

end Printed

/-- In every round of the second loop: where the variable of the node changes, the file has
counters, and the variable is not in the last row of the last one. -/
def ChangesBelowLastRow (e : LatinSquareEncoder) (f : CNF) (order : SwapOrder) (net : Net)
    (units : Units) (flipped : List Nat) : Prop :=
  ∀ pre node, pre ++ [node] <+: net.finalized → ∀ state,
    net.computeUpTo order units flipped pre = some state → Net.Changes units state node →
      e.q < e.n * e.n ∧ node.var + (e.n * e.n - e.q) ≤ f.variables_.length

/-- On the net of a file, `compute` stays within its vectors exactly if no variable of the last
row of the last counter changes, and no indicator of a cycle where there are no counters. -/
theorem accesses_in_bounds_iff (order : Order) (e : LatinSquareEncoder) (f : CNF) (net : Net)
    (hn : 3 ≤ e.n) (hk : 2 ≤ e.k) (hf : e.cnf order = some f)
    (hnet : Net.Finalizes (f.net.map readNode) net) (swapOrder : SwapOrder) (units : List UInt8)
    (hunits : f.variables_.length < units.length) (flipped : List Nat) :
    (Checked.compute swapOrder net units flipped).isSome ↔
      ChangesBelowLastRow e f swapOrder net (unitsAt units) flipped := by
  obtain ⟨s₁, s, breaking, ortho, args, h, hends⟩ :=
    LatinSquareEncoder.exists_returned_netEnds order hn hk hf
  have hpos : 0 < e.n := by omega
  rw [isSome_compute_eq (fits_of_returned hpos h hnet hunits), isSome_computeUpTo_iff]
  refine forall_congr' fun pre => forall_congr' fun node => forall_congr' fun hpre =>
    forall_congr' fun state => forall_congr' fun _ => forall_congr' fun _ => ?_
  have hnode : node ∈ net.finalized := hpre.subset (List.mem_append_right _ List.mem_cons_self)
  have hvar := (mem_vars_iff h).mp
    (List.mem_map_of_mem (f := Node.var) (hnet.perm.mem_iff.mp hnode))
  exact lt_length_literalToNodes_iff hpos h hends hnet hvar.1

section FirstCycle

/-- Two orthogonal squares of order 3 with the first kind of symmetry breaking. -/
def firstCycle : LatinSquareEncoder :=
  { reduced := true, breakingSymmetryType := .first, n := 3, k := 2, q := 9 }

/-- Values for the variables `1..19` that respect the net: `2` and `3` are true, `1` is false, and
the indicator `19` of the only cycle is true. -/
def firstCycleUnits : List UInt8 :=
  [0, 0, 1, 1, 0, 0, 0, 0, 0, 0, 0, 0, 0, 0, 0, 0, 0, 0, 0, 1]

/-- The net of the file is `19 = -1 and 2 and 3`. With the flip of `1` the indicator changes, and
the table ends at `3`. -/
theorem exists_firstCycle : ∃ f net, firstCycle.cnf Order.identity = some f ∧
    Net.Finalizes (f.net.map readNode) net ∧ firstCycleUnits.length = f.variables_.length + 1 ∧
      (Checked.compute .leftFirst net firstCycleUnits [1]).isSome = false := by
  have hfile : (firstCycle.cnf Order.identity).any (fun f =>
      let net := Net.sortedNet 2 (f.net.map readNode)
      decide ((∀ node ∈ f.net.map readNode, (Net.depth (f.net.map readNode) 2 node).isSome = true) ∧
        firstCycleUnits.length = f.variables_.length + 1 ∧
        (Checked.compute .leftFirst net firstCycleUnits [1]).isSome = false)) = true := by
    decide +kernel
  obtain ⟨f, hf, hfacts⟩ := (Option.any_eq_true _ _).mp hfile
  obtain ⟨hdepth, hlength, hcompute⟩ := of_decide_eq_true hfacts
  exact ⟨f, _, hf, Net.finalizes_sortedNet fun node hnode =>
    Option.isSome_iff_exists.mp (hdepth node hnode), hlength, hcompute⟩

theorem not_accesses_in_bounds :
    ¬ ∀ (order : Order) (e : LatinSquareEncoder) (f : CNF) (net : Net), 3 ≤ e.n → 2 ≤ e.k →
      e.cnf order = some f → Net.Finalizes (f.net.map readNode) net →
        ∀ (swapOrder : SwapOrder) (units : List UInt8), units.length = f.variables_.length + 1 →
          (∀ unit ∈ units, unit = 0 ∨ unit = 1) → ∀ flipped : List Nat,
            (∀ v ∈ flipped, 1 ≤ v ∧ v ≤ e.coreSize) →
              (Checked.compute swapOrder net units flipped).isSome := by
  intro h
  obtain ⟨f, net, hf, hnet, hlength, hcompute⟩ := exists_firstCycle
  have hbounds := h Order.identity firstCycle f net (by decide) (by decide) hf hnet .leftFirst
    firstCycleUnits hlength (by simp [firstCycleUnits]) [1] (by decide +kernel)
  rw [hcompute] at hbounds
  cases hbounds

theorem accesses_in_bounds_iff_firstCycle : ∃ f net,
    (Checked.compute .leftFirst net firstCycleUnits [1]).isSome ↔
      ChangesBelowLastRow firstCycle f .leftFirst net (unitsAt firstCycleUnits) [1] := by
  obtain ⟨f, net, hf, hnet, hlength, -⟩ := exists_firstCycle
  exact ⟨f, net, accesses_in_bounds_iff Order.identity firstCycle f net (by decide) (by decide) hf
    hnet .leftFirst firstCycleUnits (by rw [hlength]; exact Nat.lt_succ_self _) [1]⟩

end FirstCycle

end LatinSquares.LocalSearch
