/-
# What `Net.finalize` establishes

A node is deeper than the nodes that compute its arguments, so sorting by depth puts
every node after the nodes it reads. The table `literal_to_nodes` ends with the largest
argument of any node and leads from each variable to the nodes that read it.
-/

import LatinSquares.LocalSearch.Evaluation

namespace LatinSquares.LocalSearch.Net

open LatinSquares.Math

variable {nodes : List Node} {net : Net}

section Depth

variable {A : Type} {f g : A → Option Nat} {as : List A} {d d' m start fuel fuel' k : Nat}
variable {node node' : Node}

/-- A maximum is found when every depth is, and is none of them smaller. -/
theorem le_of_foldlM_max
    (h : as.foldlM (fun m a => do let d ← f a; return max m d) start = some m) :
    start ≤ m ∧ ∀ a ∈ as, ∃ d, f a = some d ∧ d ≤ m := by
  induction as generalizing start with
  | nil =>
      cases h
      exact ⟨le_rfl, fun a ha => by simp at ha⟩
  | cons a as ih =>
      rw [List.foldlM_cons] at h
      cases ha : f a with
      | none => simp [ha] at h
      | some d =>
          have h' : as.foldlM (fun m a => do let d ← f a; return max m d) (max start d) =
              some m := by simpa [ha] using h
          obtain ⟨hle, hall⟩ := ih h'
          have hd : d ≤ m := (le_max_right start d).trans hle
          exact ⟨(le_max_left start d).trans hle, List.forall_mem_cons.mpr ⟨⟨d, ha, hd⟩, hall⟩⟩

theorem foldlM_max_mono (hfg : ∀ a d, f a = some d → g a = some d)
    (h : as.foldlM (fun m a => do let d ← f a; return max m d) start = some m) :
    as.foldlM (fun m a => do let d ← g a; return max m d) start = some m := by
  induction as generalizing start with
  | nil => exact h
  | cons a as ih =>
      rw [List.foldlM_cons] at h ⊢
      cases ha : f a with
      | none => simp [ha] at h
      | some d =>
          have h' : as.foldlM (fun m a => do let d ← f a; return max m d) (max start d) =
              some m := by simpa [ha] using h
          simpa [hfg a d ha] using ih h'

/-- The depth of a node other than a `value` node, unfolded once. -/
theorem depth_eq_some_iff (hnode : ∀ var b, node ≠ .value var b) :
    depth nodes (fuel + 1) node = some d ↔
      ∃ m, node.args.foldlM (fun m arg => do
        let d ← argDepth nodes (depth nodes fuel) arg.number
        return max m d) 0 = some m ∧ m + 1 = d := by
  cases node with
  | value var b => exact absurd rfl (hnode var b)
  | andIff var args => simp [depth, Option.bind_eq_some_iff]
  | orIff var args => simp [depth, Option.bind_eq_some_iff]
  | orAnd var orAndArgs => simp [depth, Option.bind_eq_some_iff]

theorem argDepth_mono {depth depth' : Node → Option Nat}
    (h : ∀ node d, depth node = some d → depth' node = some d)
    (hk : argDepth nodes depth k = some d) : argDepth nodes depth' k = some d := by
  unfold argDepth at hk ⊢
  split at hk
  · cases hk
  · next hsize =>
      rw [if_neg hsize]
      cases hnode : nodeOf nodes k with
      | none => simpa [hnode] using hk
      | some node =>
          rw [hnode] at hk
          exact h node d hk

/-- More fuel does not change a depth. -/
theorem depth_succ (h : depth nodes fuel node = some d) : depth nodes (fuel + 1) node = some d := by
  induction fuel generalizing node d with
  | zero => simp [depth] at h
  | succ fuel ih =>
      by_cases hnode : ∀ var b, node ≠ .value var b
      · rw [depth_eq_some_iff hnode] at h ⊢
        obtain ⟨m, hm, hd⟩ := h
        exact ⟨m, foldlM_max_mono (fun arg d => argDepth_mono fun _ _ => ih) hm, hd⟩
      · push Not at hnode
        obtain ⟨var, b, rfl⟩ := hnode
        exact h

theorem depth_add (h : depth nodes fuel node = some d) (extra : Nat) :
    depth nodes (fuel + extra) node = some d := by
  induction extra with
  | zero => exact h
  | succ extra ih => exact depth_succ ih

theorem depth_unique (h : depth nodes fuel node = some d) (h' : depth nodes fuel' node = some d') :
    d = d' := by
  have hsum := depth_add h fuel'
  rw [Nat.add_comm, depth_add h' fuel] at hsum
  exact (Option.some.inj hsum).symm

/-- A node is deeper than the nodes it reads. -/
theorem depth_lt (h : depth nodes fuel node = some d) (hk : k ∈ node.args.map Literal.number)
    (hnode' : nodeOf nodes k = some node') :
    ∃ fuel' d', depth nodes fuel' node' = some d' ∧ d' < d := by
  obtain ⟨arg, harg, rfl⟩ := List.mem_map.mp hk
  have hnode : ∀ var b, node ≠ .value var b := by
    intro var b heq
    rw [heq] at harg
    simp [Node.args] at harg
  cases fuel with
  | zero => simp [depth] at h
  | succ fuel =>
      obtain ⟨m, hm, hd⟩ := (depth_eq_some_iff hnode).mp h
      obtain ⟨d', hd', hle⟩ := (le_of_foldlM_max hm).2 arg harg
      have hread : depth nodes fuel node' = some d' := by
        unfold argDepth at hd'
        split at hd'
        · cases hd'
        · rwa [hnode'] at hd'
      exact ⟨fuel, d', hread, by omega⟩

/-- Where every variable has one node, `variable_to_node` leads to it. -/
theorem nodeOf_eq_some (hvars : (nodes.map Node.var).Nodup) (hnode : node ∈ nodes) :
    nodeOf nodes node.var = some node := by
  unfold nodeOf
  cases hfind : nodes.reverse.find? fun node' => node'.var == node.var with
  | none =>
      have hnone := List.find?_eq_none.mp hfind node (List.mem_reverse.mpr hnode)
      simp at hnone
  | some node' =>
      have hmem : node' ∈ nodes := List.mem_reverse.mp (List.mem_of_find?_eq_some hfind)
      have hvar : node'.var = node.var := by simpa using List.find?_some hfind
      rw [List.inj_on_of_nodup_map hvars hmem hnode hvar]

/-- If every argument has a depth, the maximum is found. -/
theorem exists_foldlM_max (h : ∀ a ∈ as, ∃ d, f a = some d) (start : Nat) :
    ∃ m, as.foldlM (fun m a => do let d ← f a; return max m d) start = some m := by
  induction as generalizing start with
  | nil => exact ⟨start, rfl⟩
  | cons a as ih =>
      obtain ⟨d, hd⟩ := h a List.mem_cons_self
      obtain ⟨m, hm⟩ := ih (fun b hb => h b (List.mem_cons_of_mem _ hb)) (max start d)
      exact ⟨m, by rw [List.foldlM_cons, hd]; exact hm⟩

/-- One amount of fuel is enough for finitely many nodes. -/
theorem exists_common_fuel {ns : List Node}
    (h : ∀ node ∈ ns, ∃ fuel d, depth nodes fuel node = some d) :
    ∃ fuel, ∀ node ∈ ns, ∃ d, depth nodes fuel node = some d := by
  induction ns with
  | nil => exact ⟨0, fun node hnode => by simp at hnode⟩
  | cons node ns ih =>
      obtain ⟨fuel, d, hd⟩ := h node List.mem_cons_self
      obtain ⟨fuel', hall⟩ := ih fun node hnode => h node (List.mem_cons_of_mem _ hnode)
      refine ⟨fuel + fuel', List.forall_mem_cons.mpr ⟨⟨d, depth_add hd fuel'⟩, ?_⟩⟩
      intro node' hnode'
      obtain ⟨d', hd'⟩ := hall node' hnode'
      exact ⟨d', by rw [Nat.add_comm]; exact depth_add hd' fuel⟩

/-- `finalize(i)` returns on an acyclic net whose arguments are not past the end of
`variable_to_node`. -/
theorem exists_depth (rank : Node → Nat)
    (hacyclic : ∀ node ∈ nodes, ∀ k ∈ node.args.map Literal.number, ∀ node',
      nodeOf nodes k = some node' → rank node' < rank node)
    (hrange : ∀ node ∈ nodes, ∀ k ∈ node.args.map Literal.number, k < variableToNodeSize nodes) :
    ∀ node ∈ nodes, ∃ fuel d, depth nodes fuel node = some d := by
  intro node hnode
  induction hrank : rank node using Nat.strong_induction_on generalizing node with
  | h r ih =>
      have hreads : ∀ node' ∈ (node.args.map Literal.number).filterMap (nodeOf nodes),
          ∃ fuel d, depth nodes fuel node' = some d := by
        intro node' hread
        obtain ⟨k, hk, hnode'⟩ := List.mem_filterMap.mp hread
        have hmem : node' ∈ nodes := List.mem_reverse.mp (List.mem_of_find?_eq_some hnode')
        exact ih _ (hrank ▸ hacyclic node hnode k hk node' hnode') node' hmem rfl
      obtain ⟨fuel, hfuel⟩ := exists_common_fuel hreads
      by_cases hvalue : ∀ var b, node ≠ .value var b
      · have hargs : ∀ arg ∈ node.args,
            ∃ d, argDepth nodes (depth nodes fuel) arg.number = some d := by
          intro arg harg
          have hk := List.mem_map_of_mem (f := Literal.number) harg
          unfold argDepth
          rw [if_neg (not_le.mpr (hrange node hnode _ hk))]
          cases hnode' : nodeOf nodes arg.number with
          | none => exact ⟨0, rfl⟩
          | some node' => exact hfuel node' (List.mem_filterMap.mpr ⟨_, hk, hnode'⟩)
        obtain ⟨m, hm⟩ := exists_foldlM_max hargs 0
        exact ⟨fuel + 1, m + 1, (depth_eq_some_iff hvalue).mpr ⟨m, hm, rfl⟩⟩
      · push Not at hvalue
        obtain ⟨var, b, rfl⟩ := hvalue
        exact ⟨1, 0, rfl⟩

/-- `finalize()` with an insertion sort. -/
def sortedNet (fuel : Nat) (nodes : List Node) : Net :=
  let finalized := nodes.insertionSort fun a b =>
    (depth nodes fuel a).getD 0 ≤ (depth nodes fuel b).getD 0
  ⟨finalized, indexNodes finalized⟩

theorem finalizes_sortedNet (hfuel : ∀ node ∈ nodes, ∃ d, depth nodes fuel node = some d) :
    Finalizes nodes (sortedNet fuel nodes) := by
  let depthOf : Node → Nat := fun node => (depth nodes fuel node).getD 0
  refine ⟨List.perm_insertionSort _ _, ⟨depthOf, ?_, ?_⟩, rfl⟩
  · intro node hnode
    obtain ⟨d, hd⟩ := hfuel node hnode
    exact ⟨fuel, by simp [depthOf, hd]⟩
  · have htotal : Std.Total fun a b : Node => depthOf a ≤ depthOf b := ⟨fun _ _ => le_total _ _⟩
    have htrans : IsTrans Node fun a b => depthOf a ≤ depthOf b := ⟨fun _ _ _ => le_trans⟩
    exact List.pairwise_insertionSort _ _

/-- `finalize` returns on such a net. -/
theorem exists_finalizes (rank : Node → Nat)
    (hacyclic : ∀ node ∈ nodes, ∀ k ∈ node.args.map Literal.number, ∀ node',
      nodeOf nodes k = some node' → rank node' < rank node)
    (hrange : ∀ node ∈ nodes, ∀ k ∈ node.args.map Literal.number, k < variableToNodeSize nodes) :
    ∃ net, Finalizes nodes net := by
  obtain ⟨fuel, hfuel⟩ := exists_common_fuel (exists_depth rank hacyclic hrange)
  exact ⟨_, finalizes_sortedNet hfuel⟩

end Depth

/-- The definitions of a net. -/
def definitions (net : Net) : List (Definition Nat Bool) := net.finalized.map Node.definition

theorem forall_mem_definitions {p : Definition Nat Bool → Prop} :
    (∀ d ∈ net.definitions, p d) ↔ ∀ node ∈ net.finalized, p node.definition := by
  simp [definitions]

/-- Every node comes after the nodes it reads. -/
theorem Finalizes.ordered (h : Finalizes nodes net) (hvars : (nodes.map Node.var).Nodup) :
    Ordered net.definitions := by
  obtain ⟨depthOf, hdepth, hsorted⟩ := h.sorted
  have hlt : ∀ a ∈ net.finalized, ∀ b ∈ net.finalized, b.var ∈ a.args.map Literal.number →
      depthOf b < depthOf a := by
    intro a ha b hb hread
    obtain ⟨fuel, hfuel⟩ := hdepth a (h.perm.mem_iff.mp ha)
    have hb' := h.perm.mem_iff.mp hb
    obtain ⟨fuel', d', hd', hlt⟩ := depth_lt hfuel hread (nodeOf_eq_some hvars hb')
    obtain ⟨fuel'', hfuel''⟩ := hdepth b hb'
    rwa [depth_unique hfuel'' hd']
  have hnodup : (net.finalized.map Node.var).Nodup :=
    (h.perm.map Node.var).nodup_iff.mpr hvars
  constructor
  · intro d hd hread
    obtain ⟨node, hnode, rfl⟩ := List.mem_map.mp hd
    exact absurd (hlt node hnode node hnode hread) (lt_irrefl _)
  · apply List.pairwise_map.mpr
    have hpair := (List.pairwise_map.mp hnodup).and hsorted
    apply hpair.imp_of_mem
    intro a b ha hb hab
    exact ⟨fun hread => absurd (hlt a ha b hb hread) (not_lt.mpr hab.2), hab.1⟩

section Table

variable {table : List (List Nat)} {pairs : List (Nat × Nat)} {number i v k : Nat}

theorem length_addNodeIndex :
    (addNodeIndex table number i).length = max table.length (number + 1) := by
  rw [addNodeIndex, List.length_modify, List.length_append, List.length_replicate]
  omega

theorem mem_getD_addNodeIndex :
    k ∈ (addNodeIndex table number i).getD v [] ↔
      k ∈ table.getD v [] ∨ v = number ∧ k = i := by
  unfold addNodeIndex
  simp only [List.getD_eq_getElem?_getD, List.getElem?_modify, List.getElem?_append,
    List.getElem?_replicate]
  by_cases hv : v < table.length
  · by_cases hnumber : number = v
    · simp [hv, hnumber]
    · simp [hv, hnumber, Ne.symm hnumber]
  · by_cases hnumber : number = v
    · have hlt : v - table.length < v + 1 - table.length := by omega
      simp [hv, hnumber, hlt]
    · by_cases hlt : v - table.length < number + 1 - table.length
      · simp [hv, hnumber, hlt, Ne.symm hnumber]
      · simp [hv, hnumber, hlt, Ne.symm hnumber]

theorem lt_length_foldl_addNodeIndex :
    v < (pairs.foldl (fun table p => addNodeIndex table p.1 p.2) table).length ↔
      v < table.length ∨ ∃ p ∈ pairs, v ≤ p.1 := by
  induction pairs generalizing table with
  | nil => simp
  | cons p pairs ih =>
      have hmax : v < max table.length (p.1 + 1) ↔ v < table.length ∨ v ≤ p.1 := by omega
      rw [List.foldl_cons, ih, length_addNodeIndex, hmax]
      simp [or_assoc]

theorem mem_getD_foldl_addNodeIndex :
    k ∈ (pairs.foldl (fun table p => addNodeIndex table p.1 p.2) table).getD v [] ↔
      k ∈ table.getD v [] ∨ (v, k) ∈ pairs := by
  induction pairs generalizing table with
  | nil => simp
  | cons p pairs ih =>
      rw [List.foldl_cons, ih, mem_getD_addNodeIndex, List.mem_cons, Prod.ext_iff, or_assoc]

/-- The pairs of an argument and the index of its node, in the order they are entered. -/
theorem indexNodes_eq (finalized : List Node) :
    indexNodes finalized = (finalized.zipIdx.flatMap fun p =>
      p.1.args.map fun arg => (arg.number, p.2)).foldl
        (fun table p => addNodeIndex table p.1 p.2) [] := by
  rw [indexNodes, List.foldl_flatMap]
  simp only [List.foldl_map]

theorem lt_length_indexNodes {finalized : List Node} :
    v < (indexNodes finalized).length ↔
      ∃ node ∈ finalized, ∃ arg ∈ node.args, v ≤ arg.number := by
  rw [indexNodes_eq, lt_length_foldl_addNodeIndex]
  simp only [List.length_nil, Nat.not_lt_zero, false_or, List.mem_flatMap, List.mem_map]
  constructor
  · rintro ⟨-, ⟨⟨node, i⟩, hnode, arg, harg, rfl⟩, hle⟩
    exact ⟨node, List.fst_mem_of_mem_zipIdx hnode, arg, harg, hle⟩
  · rintro ⟨node, hnode, arg, harg, hle⟩
    obtain ⟨i, hi, rfl⟩ := List.getElem_of_mem hnode
    exact ⟨_, ⟨(finalized[i], i), by simp [List.mem_zipIdx_iff_getElem?], arg, harg, rfl⟩, hle⟩

theorem mem_getD_indexNodes {finalized : List Node} :
    k ∈ (indexNodes finalized).getD v [] ↔
      ∃ node, finalized[k]? = some node ∧ v ∈ node.args.map Literal.number := by
  rw [indexNodes_eq, mem_getD_foldl_addNodeIndex]
  simp only [List.getD_nil, List.not_mem_nil, false_or, List.mem_flatMap, List.mem_map,
    Prod.mk.injEq]
  constructor
  · rintro ⟨⟨node, i⟩, hnode, arg, harg, rfl, rfl⟩
    exact ⟨node, List.mem_zipIdx_iff_getElem?.mp hnode, arg, harg, rfl⟩
  · rintro ⟨node, hnode, arg, harg, rfl⟩
    exact ⟨(node, k), List.mem_zipIdx_iff_getElem?.mpr hnode, arg, harg, rfl, rfl⟩

/-- The entry of a variable leads to the nodes that read it. -/
theorem Finalizes.mem_nodeVars (h : Finalizes nodes net) {var : Nat} :
    var ∈ net.nodeVars (net.literalToNodes.getD v []) ↔
      ∃ node ∈ net.finalized, node.var = var ∧ v ∈ node.args.map Literal.number := by
  rw [nodeVars, h.table]
  simp only [List.mem_filterMap, mem_getD_indexNodes, Option.map_eq_some_iff]
  constructor
  · rintro ⟨k, ⟨node, hk, hread⟩, node', hk', rfl⟩
    obtain rfl : node = node' := Option.some.inj (hk.symm.trans hk')
    exact ⟨node, List.mem_of_getElem? hk, rfl, hread⟩
  · rintro ⟨node, hnode, rfl, hread⟩
    obtain ⟨k, hk⟩ := List.getElem?_of_mem hnode
    exact ⟨k, ⟨node, hk, hread⟩, node, hk, rfl⟩

end Table

end LatinSquares.LocalSearch.Net
