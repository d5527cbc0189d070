/-
# Finalizing and evaluating a net

`Net::finalize` of `net/Net.cpp` stores the depths it finds in the nodes, where `-1` says
that none has been found. The stored numbers are the depths of the recursion without a
store, on every acyclic net. The nodes sorted by them come after the nodes they read, so
one pass of `Net::compute(units)` gives every node variable its value.
-/

import Mathlib.Data.List.Induction
import Mathlib.Data.Finset.Card
import Mathlib.Logic.Relation
import LatinSquares.LocalSearch.Finalize

namespace LatinSquares.LocalSearch.Net

open LatinSquares.Math

/-- The field `depth` of the nodes, by their indices. -/
abbrev Depths := Nat → Int

/-- `variable_to_node`, with `none` for `UINT32_MAX`. -/
def variableToNode (nodes : List Node) : Nat → Option Nat :=
  nodes.zipIdx.foldl (fun table p => Function.update table p.1.var (some p.2)) fun _ => none

/-- The depths the constructors set. -/
def initialDepths (nodes : List Node) : Depths := fun i =>
  match nodes[i]? with
  | some (.value _ _) => 0
  | _ => -1

/-- The loop of `finalize(i)` over the arguments; `visit` is the nested call. The result is
`maxDepth` with the depths stored meanwhile. -/
def scanArgs (nodes : List Node) (visit : Depths → Nat → Option Depths) :
    List Literal → Depths → Int → Option (Depths × Int)
  | [], depths, maxDepth => some (depths, maxDepth)
  | arg :: args, depths, maxDepth =>
      if variableToNodeSize nodes ≤ arg.number then none
      else match variableToNode nodes arg.number with
        | none => scanArgs nodes visit args depths (max maxDepth 0)
        | some nodeIndex =>
            let stored := if depths nodeIndex = -1 then visit depths nodeIndex else some depths
            stored.bind fun depths =>
              scanArgs nodes visit args depths (max maxDepth (depths nodeIndex))

/-- `finalize(i)`, with fuel for the nested calls. -/
def finalizeNode (nodes : List Node) : Nat → Depths → Nat → Option Depths
  | 0, _, _ => none
  | fuel + 1, depths, i => do
      let node ← nodes[i]?
      let scanned ← scanArgs nodes (finalizeNode nodes fuel) node.args depths 0
      return Function.update scanned.1 i (scanned.2 + 1)

/-- The first loop of `finalize()`. -/
def finalizeDepths (nodes : List Node) (fuel : Nat) : Option Depths :=
  (List.range nodes.length).foldlM (fun depths i =>
    if depths i = -1 then finalizeNode nodes fuel depths i else some depths) (initialDepths nodes)

/-- `finalize()` for the stored depths: the nodes in an order of ascending depth, as
`std::sort` may leave them, and their table. -/
structure SortedBy (nodes : List Node) (depths : Depths) (net : Net) : Prop where
  order : ∃ indices : List Nat, indices.Perm (List.range nodes.length) ∧
    indices.Pairwise (fun i j => depths i ≤ depths j) ∧
    net.finalized = indices.filterMap fun i => nodes[i]?
  table : net.literalToNodes = indexNodes net.finalized

variable {nodes : List Node} {depths depths' : Depths} {i k d m fuel : Nat} {node : Node}

theorem variableToNode_append (nodes : List Node) (node : Node) :
    variableToNode (nodes ++ [node]) =
      Function.update (variableToNode nodes) node.var (some nodes.length) := by
  simp [variableToNode, List.zipIdx_append]

/-- The index stored for a variable is that of its node. -/
theorem getElem?_variableToNode (nodes : List Node) (k : Nat) :
    (variableToNode nodes k).bind (fun i => nodes[i]?) = nodeOf nodes k ∧
      ∀ i ∈ variableToNode nodes k, i < nodes.length := by
  induction nodes using List.reverseRecOn with
  | nil => simp [variableToNode, nodeOf]
  | append_singleton nodes node ih =>
      rw [variableToNode_append, nodeOf, List.reverse_append]
      by_cases hk : k = node.var
      · subst hk
        simp
      · rw [Function.update_of_ne hk]
        have hother : (node.var == k) = false := by simpa using Ne.symm hk
        simp only [List.reverse_singleton, List.singleton_append, List.find?_cons, hother]
        refine ⟨?_, fun i hi => by have := ih.2 i hi; simp; omega⟩
        rw [← nodeOf, ← ih.1]
        cases hindex : variableToNode nodes k with
        | none => rfl
        | some i =>
            have hlt := ih.2 i hindex
            simp [List.getElem?_append_left hlt]

/-- The stored depths are right where they are not `-1`. -/
structure Exact (nodes : List Node) (depths : Depths) : Prop where
  known : ∀ i node, nodes[i]? = some node → depths i ≠ -1 →
    ∃ fuel d, depth nodes fuel node = some d ∧ depths i = d
  value : ∀ i var b, nodes[i]? = some (.value var b) → depths i = 0

/-- Depths that are known are kept. -/
def Keeps (depths depths' : Depths) : Prop := ∀ i, depths i ≠ -1 → depths' i = depths i

theorem Keeps.refl (depths : Depths) : Keeps depths depths := fun _ _ => rfl

theorem Keeps.trans {depths'' : Depths} (h : Keeps depths depths') (h' : Keeps depths' depths'') :
    Keeps depths depths'' := by
  intro i hi
  rw [h' i (by rw [h i hi]; exact hi), h i hi]

theorem exact_initialDepths (nodes : List Node) : Exact nodes (initialDepths nodes) where
  known i node hnode hknown := by
    cases node with
    | value var b => exact ⟨1, 0, rfl, by simp [initialDepths, hnode]⟩
    | andIff var args => simp [initialDepths, hnode] at hknown
    | orIff var args => simp [initialDepths, hnode] at hknown
    | orAnd var orAndArgs => simp [initialDepths, hnode] at hknown
  value i var b hnode := by simp [initialDepths, hnode]

/-- What a call of `finalize(i)` does for a node whose depth is `d`. -/
def Finds (nodes : List Node) (visit : Depths → Nat → Option Depths) (i d : Nat) : Prop :=
  ∀ depths, Exact nodes depths → ∃ depths', visit depths i = some depths' ∧
    Exact nodes depths' ∧ Keeps depths depths' ∧ depths' i = d

/-- The loop over the arguments finds their greatest depth, if the nested calls do. -/
theorem scanArgs_eq {visit : Depths → Nat → Option Depths} {depthOf : Node → Option Nat}
    (hdepth : ∀ node d, depthOf node = some d → ∃ fuel, depth nodes fuel node = some d)
    (hvisit : ∀ i node d, nodes[i]? = some node → (∀ var b, node ≠ .value var b) →
      depthOf node = some d → Finds nodes visit i d)
    {args : List Literal} {depths : Depths} (hexact : Exact nodes depths) {start : Nat}
    (hargs : args.foldlM (fun m arg => do
      let d ← argDepth nodes depthOf arg.number
      return max m d) start = some m) :
    ∃ depths', scanArgs nodes visit args depths start = some (depths', (m : Int)) ∧
      Exact nodes depths' ∧ Keeps depths depths' := by
  induction args generalizing depths start with
  | nil =>
      cases hargs
      exact ⟨depths, rfl, hexact, Keeps.refl depths⟩
  | cons arg args ih =>
      rw [List.foldlM_cons] at hargs
      obtain ⟨m', hm', hargs⟩ := Option.bind_eq_some_iff.mp hargs
      obtain ⟨d, hd, hmax⟩ := Option.bind_eq_some_iff.mp hm'
      obtain rfl := Option.some.inj hmax
      unfold argDepth at hd
      split at hd
      · cases hd
      · next hrange =>
          rw [scanArgs, if_neg hrange]
          have hindex := (getElem?_variableToNode nodes arg.number).1
          cases hk : variableToNode nodes arg.number with
          | none =>
              rw [hk] at hindex
              rw [← hindex] at hd
              cases hd
              simpa using ih hexact hargs
          | some i =>
              rw [hk] at hindex
              have hlt := (getElem?_variableToNode nodes arg.number).2 i hk
              have hnode : nodes[i]? = some nodes[i] := List.getElem?_eq_getElem hlt
              rw [Option.bind_some, hnode] at hindex
              rw [← hindex] at hd
              -- either the depth is stored already, or the nested call stores it
              have hstored : ∃ depths', (if depths i = -1 then visit depths i else some depths) =
                  some depths' ∧ Exact nodes depths' ∧ Keeps depths depths' ∧ depths' i = d := by
                split
                · next hunknown =>
                    refine hvisit i _ d hnode ?_ hd depths hexact
                    intro var b hvalue
                    rw [hvalue] at hnode
                    rw [hexact.value i var b hnode] at hunknown
                    cases hunknown
                · next hknown =>
                    obtain ⟨fuel, d', hd', hstored⟩ := hexact.known i _ hnode hknown
                    obtain ⟨fuel', hd⟩ := hdepth _ _ hd
                    rw [depth_unique hd hd']
                    exact ⟨depths, rfl, hexact, Keeps.refl depths, hstored⟩
              obtain ⟨depths', heq, hexact', hkeeps, hi⟩ := hstored
              obtain ⟨depths'', hscan, hexact'', hkeeps'⟩ := ih hexact' hargs
              refine ⟨depths'', ?_, hexact'', hkeeps.trans hkeeps'⟩
              simp only [heq, Option.bind_some, hi]
              have hmax : ((max start d : Nat) : Int) = max (start : Int) d := by omega
              rw [← hscan, hmax]

theorem Exact.update (h : Exact nodes depths) (hnode : nodes[i]? = some node)
    (hvalue : ∀ var b, node ≠ .value var b) (hd : depth nodes fuel node = some d) :
    Exact nodes (Function.update depths i (d : Int)) where
  known j node' hnode' hknown := by
    by_cases hj : j = i
    · subst hj
      obtain rfl : node = node' := Option.some.inj (hnode.symm.trans hnode')
      exact ⟨fuel, d, hd, Function.update_self ..⟩
    · rw [Function.update_of_ne hj] at hknown ⊢
      exact h.known j node' hnode' hknown
  value j var b hnode' := by
    have hj : j ≠ i := by
      rintro rfl
      exact hvalue var b (Option.some.inj (hnode.symm.trans hnode'))
    rw [Function.update_of_ne hj]
    exact h.value j var b hnode'

theorem Exact.keeps_update (h : Exact nodes depths) (hnode : nodes[i]? = some node)
    (hd : depth nodes fuel node = some d) :
    Keeps depths (Function.update depths i (d : Int)) := by
  intro j hj
  by_cases heq : j = i
  · subst heq
    obtain ⟨fuel', d', hd', hstored⟩ := h.known j node hnode hj
    rw [Function.update_self, hstored, depth_unique hd hd']
  · rw [Function.update_of_ne heq]

/-- `finalize(i)` stores the depth of its node. -/
theorem finalizeNode_finds (fuel : Nat) : ∀ i node d, nodes[i]? = some node →
    (∀ var b, node ≠ .value var b) → depth nodes fuel node = some d →
    Finds nodes (finalizeNode nodes fuel) i d := by
  induction fuel with
  | zero =>
      intro i node d _ _ hd
      simp [depth] at hd
  | succ fuel ih =>
      intro i node d hnode hvalue hd depths hexact
      obtain ⟨m, hm, hmd⟩ := (depth_eq_some_iff hvalue).mp hd
      obtain ⟨depths', hscan, hexact', hkeeps⟩ :=
        scanArgs_eq (fun node d h => ⟨fuel, h⟩) ih hexact hm
      have hcast : (m : Int) + 1 = d := by
        rw [← hmd]
        rfl
      refine ⟨Function.update depths' i d, ?_, hexact'.update hnode hvalue hd,
        hkeeps.trans (hexact'.keeps_update hnode hd), Function.update_self ..⟩
      rw [finalizeNode, hnode]
      simp only [Option.bind_eq_bind, Option.bind_some]
      rw [show ((0 : Int)) = ((0 : Nat) : Int) from rfl, hscan]
      simp [hcast]

/-- The loop stores all depths that one amount of fuel is enough for. -/
theorem finalizeDepths_spec
    (hfuel : ∀ node ∈ nodes, ∃ d, depth nodes fuel node = some d) :
    ∃ depths, finalizeDepths nodes fuel = some depths ∧ Exact nodes depths ∧
      ∀ i < nodes.length, depths i ≠ -1 := by
  have hloop : ∀ count ≤ nodes.length, ∃ depths,
      (List.range count).foldlM (fun depths i =>
        if depths i = -1 then finalizeNode nodes fuel depths i else some depths)
        (initialDepths nodes) = some depths ∧ Exact nodes depths ∧ ∀ i < count, depths i ≠ -1 := by
    intro count hcount
    induction count with
    | zero => exact ⟨_, rfl, exact_initialDepths nodes, fun i hi => absurd hi (Nat.not_lt_zero i)⟩
    | succ count ih =>
        obtain ⟨depths, hfold, hexact, hknown⟩ := ih (by omega)
        have hnode : nodes[count]? = some nodes[count] := List.getElem?_eq_getElem (by omega)
        obtain ⟨d, hd⟩ := hfuel nodes[count] (List.getElem_mem _)
        rw [List.range_succ, List.foldlM_append, hfold]
        by_cases hunknown : depths count = -1
        · have hvalue : ∀ var b, nodes[count] ≠ .value var b := by
            intro var b heq
            rw [heq] at hnode
            rw [hexact.value count var b hnode] at hunknown
            cases hunknown
          obtain ⟨depths', hfind, hexact', hkeeps, hstored⟩ :=
            finalizeNode_finds fuel count _ d hnode hvalue hd depths hexact
          refine ⟨depths', by simp [hunknown, hfind], hexact', fun i hi => ?_⟩
          rcases Nat.lt_succ_iff_lt_or_eq.mp hi with hlt | rfl
          · rw [hkeeps i (hknown i hlt)]
            exact hknown i hlt
          · rw [hstored]
            omega
        · refine ⟨depths, by simp [hunknown], hexact, fun i hi => ?_⟩
          rcases Nat.lt_succ_iff_lt_or_eq.mp hi with hlt | rfl
          · exact hknown i hlt
          · exact hunknown
  exact hloop nodes.length le_rfl

theorem filterMap_range_getElem? {A : Type} (l : List A) :
    (List.range l.length).filterMap (fun i => l[i]?) = l := by
  have htake : ∀ count, (List.range count).filterMap (fun i => l[i]?) = l.take count := by
    intro count
    induction count with
    | zero => rfl
    | succ count ih =>
        rw [List.range_succ, List.filterMap_append, ih, List.take_add_one]
        cases h : l[count]? <;> simp [h]
  rw [htake, List.take_length]

/-- Sorting by the stored depths is sorting by the depths of the recursion. -/
theorem SortedBy.finalizes {net : Net} (h : SortedBy nodes depths net)
    (hfuel : ∀ node ∈ nodes, ∃ d, depth nodes fuel node = some d)
    (hexact : Exact nodes depths) (hknown : ∀ i < nodes.length, depths i ≠ -1) :
    Finalizes nodes net := by
  obtain ⟨indices, hperm, hsorted, hfinalized⟩ := h.order
  let depthOf : Node → Nat := fun node => (depth nodes fuel node).getD 0
  have hdepth : ∀ node ∈ nodes, depth nodes fuel node = some (depthOf node) := by
    intro node hnode
    obtain ⟨d, hd⟩ := hfuel node hnode
    simp [depthOf, hd]
  have hstored : ∀ i node, nodes[i]? = some node → depths i = depthOf node := by
    intro i node hnode
    have hlt := (List.getElem?_eq_some_iff.mp hnode).1
    obtain ⟨fuel', d, hd, heq⟩ := hexact.known i node hnode (hknown i hlt)
    rw [heq, depth_unique hd (hdepth node (List.mem_of_getElem? hnode))]
  refine ⟨?_, ⟨depthOf, fun node hnode => ⟨fuel, hdepth node hnode⟩, ?_⟩, h.table⟩
  · rw [hfinalized]
    calc (indices.filterMap fun i => nodes[i]?).Perm
          ((List.range nodes.length).filterMap fun i => nodes[i]?) := hperm.filterMap _
      _ = nodes := filterMap_range_getElem? nodes
  · rw [hfinalized, List.pairwise_filterMap]
    apply hsorted.imp
    intro i j hij a ha b hb
    rw [hstored i a ha, hstored j b hb] at hij
    exact Int.ofNat_le.mp hij

theorem exists_sortedBy (nodes : List Node) (depths : Depths) :
    ∃ net, SortedBy nodes depths net := by
  let indices := (List.range nodes.length).insertionSort fun i j => depths i ≤ depths j
  let finalized := indices.filterMap fun i => nodes[i]?
  have htotal : Std.Total fun i j : Nat => depths i ≤ depths j := ⟨fun _ _ => le_total _ _⟩
  have htrans : IsTrans Nat fun i j => depths i ≤ depths j := ⟨fun _ _ _ => le_trans⟩
  exact ⟨⟨finalized, indexNodes finalized⟩, ⟨indices, List.perm_insertionSort _ _,
    List.pairwise_insertionSort _ _, rfl⟩, rfl⟩

section Evaluation

variable {net : Net} {units : Units} {l : List Node}

theorem flippedValue_false (units : Units) (number : Nat) :
    flippedValue units number false = (units number != 0) := by
  change (units number ^^^ 0 != 0) = _
  rw [UInt8.xor_zero]

/-- Without flips a node is evaluated on the numbers that are not `0`. -/
theorem propagate_nil (units : Units) (node : Node) :
    node.propagate units [] = node.eval fun v => units v != 0 := by
  cases node with
  | value var b => rfl
  | andIff var args =>
      rw [Node.propagate, Node.eval]
      induction args with
      | nil => rfl
      | cons arg args ih =>
          have hscan : Node.andScan units (arg :: args) [] =
              if (units arg.number != 0) != arg.value then false
              else Node.andScan units args [] := by
            rw [← flippedValue_false]
            rfl
          rw [hscan, ih, List.all_cons, bne]
          cases (units arg.number != 0) == arg.value <;> rfl
  | orIff var args =>
      rw [Node.propagate, Node.eval]
      induction args with
      | nil => rfl
      | cons arg args ih =>
          have hscan : Node.orScan units (arg :: args) [] =
              if (units arg.number != 0) == arg.value then true
              else Node.orScan units args [] := by
            rw [← flippedValue_false]
            rfl
          rw [hscan, ih, List.any_cons]
          cases (units arg.number != 0) == arg.value <;> rfl
  | orAnd var orAndArgs =>
      rw [Node.propagate, Node.orAndScan, Node.eval]
      apply any_congr_of_mem
      intro args _
      apply all_congr_of_mem
      intro arg _
      exact congrArg (· == arg.value) (flippedValue_false units arg.number)

/-- One round of `compute(units)`. -/
theorem evaluate_step_of_unknown {node : Node} (hunknown : units node.var = 2) :
    (if units node.var == 2 then
        Function.update units node.var (node.propagate units []).toUInt8 else units) =
      Function.update units node.var (node.eval fun v => units v != 0).toUInt8 := by
  rw [hunknown, propagate_nil]
  rfl

theorem toUInt8_bne_zero (b : Bool) : (b.toUInt8 != 0) = b := by
  cases b <;> rfl

/-- The pass recomputes the unknown node variables and leaves all others as they are. -/
theorem foldl_evaluate (hvars : (l.map Node.var).Nodup)
    (hunknown : ∀ node ∈ l, units node.var = 2) :
    let result := l.foldl (fun units node =>
      if units node.var == 2 then
        Function.update units node.var (node.propagate units []).toUInt8
      else units) units
    (fun v => result v != 0) = recompute (l.map Node.definition) (fun v => units v != 0) ∧
      (∀ v ∉ l.map Node.var, result v = units v) ∧
      ∀ v ∈ l.map Node.var, result v = 0 ∨ result v = 1 := by
  induction l generalizing units with
  | nil => simp
  | cons node l ih =>
      obtain ⟨hnot, hvars⟩ := List.nodup_cons.mp hvars
      obtain ⟨hhead, htail⟩ := List.forall_mem_cons.mp hunknown
      have hlater : ∀ node' ∈ l, Function.update units node.var
          (node.eval fun v => units v != 0).toUInt8 node'.var = 2 := by
        intro node' hnode'
        have hne : node'.var ≠ node.var := fun heq => hnot (heq ▸ List.mem_map_of_mem hnode')
        rw [Function.update_of_ne hne]
        exact htail node' hnode'
      obtain ⟨hvalues, hkept, hknown⟩ := ih hvars hlater
      simp only [List.foldl_cons, evaluate_step_of_unknown hhead]
      refine ⟨?_, fun v hv => ?_, fun v hv => ?_⟩
      · rw [hvalues, List.map_cons, recompute_cons]
        congr 1
        funext v
        change _ = Function.update (fun v => units v != 0) node.var
          (node.eval fun v => units v != 0) v
        by_cases hv : v = node.var
        · subst hv
          rw [Function.update_self, Function.update_self, toUInt8_bne_zero]
        · rw [Function.update_of_ne hv, Function.update_of_ne hv]
      · rw [List.map_cons, List.mem_cons, not_or] at hv
        rw [hkept v hv.2, Function.update_of_ne hv.1]
      · by_cases hv' : v ∈ l.map Node.var
        · exact hknown v hv'
        · have heq : v = node.var := (List.mem_cons.mp hv).resolve_right hv'
          rw [hkept v hv', heq, Function.update_self]
          cases node.eval fun v => units v != 0
          · exact Or.inl rfl
          · exact Or.inr rfl

/-- `compute(units)` on an ordered net gives the node variables their values. -/
theorem exists_evaluate_eq (hvars : (net.finalized.map Node.var).Nodup)
    (hordered : Ordered net.definitions)
    (hgiven : ∀ v ∉ net.finalized.map Node.var, units v = 0 ∨ units v = 1)
    (hunknown : ∀ v ∈ net.finalized.map Node.var, units v = 2) :
    ∃ β, net.evaluate units = unitsOf β ∧
      (∀ v ∉ net.finalized.map Node.var, units v = (β v).toUInt8) ∧
      ∀ node ∈ net.finalized, β node.var = node.eval β := by
  obtain ⟨hvalues, hkept, hknown⟩ := foldl_evaluate hvars fun node hnode =>
    hunknown node.var (List.mem_map_of_mem hnode)
  have hbit : ∀ v, net.evaluate units v = 0 ∨ net.evaluate units v = 1 := by
    intro v
    by_cases hv : v ∈ net.finalized.map Node.var
    · exact hknown v hv
    · rw [evaluate, hkept v hv]
      exact hgiven v hv
  have hunits : net.evaluate units = unitsOf fun v => net.evaluate units v != 0 := by
    funext v
    rcases hbit v with h | h
    · rw [unitsOf, h]
      rfl
    · rw [unitsOf, h]
      rfl
  refine ⟨_, hunits, fun v hv => ?_, ?_⟩
  · have hv' : net.evaluate units v = units v := hkept v hv
    rw [← hv']
    exact congrFun hunits v
  · have hrespects := respects_recompute hordered fun v => units v != 0
    change Respects net.definitions _ at hrespects
    rw [show recompute net.definitions (fun v => units v != 0) = fun v => net.evaluate units v != 0
      from hvalues.symm] at hrespects
    exact forall_mem_definitions.mp hrespects

end Evaluation

section Printed

/-- A node of the net computes an argument of another. -/
def Reads (nodes : List Node) (arg node : Node) : Prop :=
  node ∈ nodes ∧ arg ∈ nodes ∧ arg.var ∈ node.args.map Literal.number

/-- The nets the generator prints: one node for a variable, no argument above the largest
node variable, and no node that its own value depends on. -/
structure Printed (nodes : List Node) : Prop where
  vars : (nodes.map Node.var).Nodup
  below : ∀ node ∈ nodes, ∀ k ∈ node.args.map Literal.number, ∃ last ∈ nodes, k ≤ last.var
  acyclic : ∀ node, ¬ Relation.TransGen (Reads nodes) node node

theorem lt_variableToNodeSize (h : ∃ last ∈ nodes, k ≤ last.var) :
    k < variableToNodeSize nodes := by
  obtain ⟨last, hlast, hle⟩ := h
  have hmax : ∀ (sizes : List Nat) (start : Nat), start ≤ sizes.foldl max start ∧
      ∀ size ∈ sizes, size ≤ sizes.foldl max start := by
    intro sizes
    induction sizes with
    | nil => simp
    | cons size sizes ih =>
        intro start
        obtain ⟨hstart, hsizes⟩ := ih (max start size)
        refine ⟨(le_max_left start size).trans hstart, List.forall_mem_cons.mpr ⟨?_, hsizes⟩⟩
        exact (le_max_right start size).trans hstart
  have hsize := (hmax (nodes.map fun node => node.var + 1) 0).2 (last.var + 1)
    (List.mem_map_of_mem (f := fun node => node.var + 1) hlast)
  exact lt_of_lt_of_le (Nat.lt_succ_of_le hle) hsize

/-- Arguments below the variable of their node leave no cycle. -/
theorem acyclic_of_lt (h : ∀ node ∈ nodes, ∀ k ∈ node.args.map Literal.number, k < node.var)
    (node : Node) : ¬ Relation.TransGen (Reads nodes) node node := by
  intro hcycle
  have hlt : ∀ a b, Relation.TransGen (Reads nodes) a b → a.var < b.var := by
    intro a b hpath
    induction hpath with
    | single hread => exact h _ hread.1 _ hread.2.2
    | tail _ hread ih => exact ih.trans (h _ hread.1 _ hread.2.2)
  exact lt_irrefl _ (hlt node node hcycle)

/-- The number of nodes a node depends on grows along the net. -/
theorem Printed.exists_rank (h : Printed nodes) :
    ∃ rank : Node → Nat, ∀ node ∈ nodes, ∀ k ∈ node.args.map Literal.number, ∀ arg,
      nodeOf nodes k = some arg → rank arg < rank node := by
  classical
  let below : Node → Finset Node := fun node =>
    nodes.toFinset.filter fun arg => Relation.TransGen (Reads nodes) arg node
  refine ⟨fun node => (below node).card, fun node hnode k hk arg harg => ?_⟩
  have hmem : arg ∈ nodes := List.mem_reverse.mp (List.mem_of_find?_eq_some harg)
  have hvar : arg.var = k := by simpa using List.find?_some harg
  have hreads : Reads nodes arg node := ⟨hnode, hmem, hvar ▸ hk⟩
  apply Finset.card_lt_card
  rw [Finset.ssubset_iff_of_subset]
  · -- the argument itself is new: it does not depend on itself
    refine ⟨arg, ?_, ?_⟩
    · exact Finset.mem_filter.mpr ⟨List.mem_toFinset.mpr hmem, .single hreads⟩
    · intro hself
      exact h.acyclic arg (Finset.mem_filter.mp hself).2
  · intro other hother
    obtain ⟨hother, hdepends⟩ := Finset.mem_filter.mp hother
    exact Finset.mem_filter.mpr ⟨hother, hdepends.tail hreads⟩

/-- In an ordered net a node stands behind the nodes it reads. -/
theorem lt_of_reads {net : Net} (hordered : Ordered net.definitions) {i j : Nat} {a b : Node}
    (ha : net.finalized[i]? = some a) (hb : net.finalized[j]? = some b)
    (hread : b.var ∈ a.args.map Literal.number) : j < i := by
  obtain ⟨hi, rfl⟩ := List.getElem?_eq_some_iff.mp ha
  obtain ⟨hj, rfl⟩ := List.getElem?_eq_some_iff.mp hb
  have hpairwise := List.pairwise_map.mp hordered.forward
  rw [List.pairwise_iff_getElem] at hpairwise
  rcases lt_trichotomy j i with hlt | heq | hgt
  · exact hlt
  · subst heq
    exact absurd hread (forall_mem_definitions.mp hordered.irreflexive _ (List.getElem_mem hj))
  · exact absurd hread (hpairwise i j hi hj hgt).1

/-- `finalize` returns on every printed net, whatever the order of its nodes, and what it
leaves makes `compute(units)` give every node variable the value of its node. -/
theorem Printed.finalize_evaluate (h : Printed nodes) :
    ∃ enough, ∀ fuel ≥ enough, ∃ depths, finalizeDepths nodes fuel = some depths ∧
      (∃ net, SortedBy nodes depths net) ∧
      ∀ net, SortedBy nodes depths net →
        net.finalized.Perm nodes ∧ net.finalized.Nodup ∧
        (∀ (i j : Nat) (a b : Node), net.finalized[i]? = some a → net.finalized[j]? = some b →
          b.var ∈ a.args.map Literal.number → j < i) ∧
        (∀ v k, k ∈ net.literalToNodes.getD v [] ↔
          ∃ node, net.finalized[k]? = some node ∧ v ∈ node.args.map Literal.number) ∧
        ∀ units : Units, (∀ v ∉ nodes.map Node.var, units v = 0 ∨ units v = 1) →
          (∀ v ∈ nodes.map Node.var, units v = 2) →
          ∃ β, net.evaluate units = unitsOf β ∧
            (∀ v ∉ nodes.map Node.var, units v = (β v).toUInt8) ∧
            ∀ node ∈ nodes, β node.var = node.eval β := by
  obtain ⟨rank, hrank⟩ := h.exists_rank
  obtain ⟨enough, henough⟩ := exists_common_fuel (exists_depth rank hrank
    fun node hnode k hk => lt_variableToNodeSize (h.below node hnode k hk))
  refine ⟨enough, fun fuel hfuel => ?_⟩
  have hdepth : ∀ node ∈ nodes, ∃ d, depth nodes fuel node = some d := by
    intro node hnode
    obtain ⟨d, hd⟩ := henough node hnode
    refine ⟨d, ?_⟩
    rw [← Nat.add_sub_cancel' hfuel]
    exact depth_add hd _
  obtain ⟨depths, hloop, hexact, hknown⟩ := finalizeDepths_spec hdepth
  refine ⟨depths, hloop, exists_sortedBy nodes depths, fun net hnet => ?_⟩
  have hfinalizes := hnet.finalizes hdepth hexact hknown
  have hordered := hfinalizes.ordered h.vars
  have hperm := hfinalizes.perm
  have hvars : (net.finalized.map Node.var).Nodup :=
    (hperm.map Node.var).nodup_iff.mpr h.vars
  have hmem : ∀ v, v ∈ net.finalized.map Node.var ↔ v ∈ nodes.map Node.var := fun v =>
    (hperm.map Node.var).mem_iff
  refine ⟨hperm, List.Nodup.of_map _ hvars, fun i j a b ha hb => lt_of_reads hordered ha hb,
    fun v k => ?_, fun units hgiven hunknown => ?_⟩
  · rw [hfinalizes.table]
    exact mem_getD_indexNodes
  · simp only [← hmem] at hgiven hunknown ⊢
    simp only [← hperm.mem_iff]
    exact exists_evaluate_eq hvars hordered hgiven hunknown

/-- A net whose first node reads the others. -/
def smallNet : List Node :=
  [.andIff 5 [⟨3, false⟩, ⟨4, true⟩], .orIff 4 [⟨1, true⟩, ⟨2, true⟩], .value 3 false]

theorem printed_smallNet : Printed smallNet where
  vars := by decide
  below := by decide
  acyclic := acyclic_of_lt (by decide)

theorem finalize_evaluate_smallNet : ∃ fuel depths net, finalizeDepths smallNet fuel = some depths ∧
    SortedBy smallNet depths net ∧ net.finalized.Perm smallNet := by
  obtain ⟨enough, hfuel⟩ := Printed.finalize_evaluate printed_smallNet
  obtain ⟨depths, hdepths, ⟨net, hnet⟩, hall⟩ := hfuel enough le_rfl
  exact ⟨enough, depths, net, hdepths, hnet, (hall net hnet).1⟩

end Printed

end LatinSquares.LocalSearch.Net
