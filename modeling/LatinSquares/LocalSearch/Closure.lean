/-
# What `Net.compute` adds to a list of flips

Evaluated from scratch on the inverted inputs, a net gives some of its variables new values; these
are the ones `compute` has to add to the flips. Whichever argument of `std::swap` comes first, it
does so exactly when two things hold at every node: a variable that changes has an entry in
`literal_to_nodes`, and a node that is reached gets its new value already from the entries that
`propagate` sees in the list `compute` has made so far. In an ascending list a node with a cursor
sees all entries, and an `orAnd` node the smallest one.
-/

import LatinSquares.LocalSearch.Finalize
import LatinSquares.LocalSearch.SwapOrder

namespace LatinSquares.LocalSearch

open LatinSquares.Math

/-- The list of flips once those variables of the nodes `pre` have been entered that change from
`α` to `β`. -/
def SwapOrder.entered (order : SwapOrder) (α β : Nat → Bool) (flipped : List Nat)
    (pre : List Node) : List Nat :=
  ((pre.map Node.var).filter fun v => β v != α v).foldl order.enter flipped

namespace Net

/-- All nodes recomputed from the inverted inputs. -/
def fresh (net : Net) (α : Nat → Bool) (flipped : List Nat) : Nat → Bool :=
  recompute net.definitions (flipAll α flipped)

/-- At a node that comes after the nodes `pre`, `compute` does what it should. -/
structure Follows (order : SwapOrder) (net : Net) (α : Nat → Bool) (flipped : List Nat)
    (pre : List Node) (node : Node) : Prop where
  indexed : net.fresh α flipped node.var ≠ α node.var → node.var < net.literalToNodes.length
  seen : (∃ k ∈ node.args.map Literal.number, net.fresh α flipped k ≠ α k) →
    node.eval (flipAll α (node.seen (order.entered α (net.fresh α flipped) flipped pre))) =
      node.eval (net.fresh α flipped)

variable {order : SwapOrder} {nodes pre post : List Node} {net : Net} {α β : Nat → Bool}
variable {flipped : List Nat} {state state' : List Nat × List Nat} {node : Node} {v : Nat}

theorem mem_entered :
    v ∈ order.entered α β flipped pre ↔ v ∈ flipped ∨ v ∈ pre.map Node.var ∧ β v ≠ α v := by
  rw [SwapOrder.entered, mem_foldl_enter, List.mem_filter, bne_iff_ne]

theorem entered_append_singleton :
    order.entered α β flipped (pre ++ [node]) =
      if β node.var = α node.var then order.entered α β flipped pre
      else order.enter (order.entered α β flipped pre) node.var := by
  unfold SwapOrder.entered
  rw [List.map_append, List.filter_append, List.foldl_append]
  by_cases hchange : β node.var = α node.var <;> simp [hchange]

/-- A finalized net with one node for each node variable. -/
structure OneNodeEach (nodes : List Node) (net : Net) : Prop where
  finalizes : Finalizes nodes net
  vars : (nodes.map Node.var).Nodup

/-- Such a net with inputs to invert. -/
structure Inverts (nodes : List Node) (net : Net) (flipped : List Nat) : Prop
    extends OneNodeEach nodes net where
  inputs : ∀ node ∈ nodes, node.var ∉ flipped

/-- New values `β` of the variables once `flipped` is inverted. A node keeps its value unless an
argument changes. -/
structure Updates (nodes : List Node) (net : Net) (α β : Nat → Bool) (flipped : List Nat) : Prop
    extends Inverts nodes net flipped where
  input : ∀ v, (∀ node ∈ net.finalized, node.var ≠ v) → β v = flipAll α flipped v
  kept : ∀ node ∈ net.finalized, (∀ k ∈ node.args.map Literal.number, β k = α k) →
    β node.var = α node.var

/-- The marked variables are those of the nodes that read an entry of the list. -/
def MarksReaders (net : Net) (state : List Nat × List Nat) : Prop :=
  ∀ node ∈ net.finalized, node.var ∈ state.2 ↔ ∃ k ∈ node.args.map Literal.number, k ∈ state.1

/-- The flips and the marks after the nodes `pre`, with the new values `β`. -/
structure Reached (order : SwapOrder) (net : Net) (α β : Nat → Bool) (flipped : List Nat)
    (pre : List Node) (state : List Nat × List Nat) : Prop where
  list : state.1 = order.entered α β flipped pre
  marks : net.MarksReaders state

theorem mem_or_not_var (net : Net) (v : Nat) :
    v ∈ net.finalized.map Node.var ∨ ∀ node ∈ net.finalized, node.var ≠ v := by
  by_cases hv : v ∈ net.finalized.map Node.var
  · exact Or.inl hv
  · exact Or.inr fun node hnode heq => hv (heq ▸ List.mem_map_of_mem hnode)

theorem changes_iff : Changes (unitsOf α) state node ↔
    node.var ∈ state.2 ∧ node.propagate (unitsOf α) state.1 ≠ α node.var := by
  have hinjective : ∀ a b : Bool, a.toUInt8 = b.toUInt8 ↔ a = b := by decide
  exact and_congr_right fun _ => (hinjective _ _).not

/-- What one round does. -/
theorem computeNode_cases {units : Units}
    (h : net.computeNode order units state node = some state') :
    (Changes units state node ∧ node.var < net.literalToNodes.length ∧
        state'.1 = order.enter state.1 node.var) ∨
      (¬ Changes units state node ∧ state' = state) := by
  unfold computeNode at h
  split at h
  · next hchanges =>
      obtain ⟨indices, hindices, hstate⟩ := Option.bind_eq_some_iff.mp h
      cases hstate
      exact Or.inl ⟨hchanges, (List.getElem?_eq_some_iff.mp hindices).1, rfl⟩
  · next hchanges =>
      cases h
      exact Or.inr ⟨hchanges, rfl⟩

/-- A round decides about the variable of its node only. -/
theorem computeNode_frame {units : Units}
    (hstep : net.computeNode order units state node = some state') (hv : v ≠ node.var) :
    v ∈ state'.1 ↔ v ∈ state.1 := by
  rcases computeNode_cases hstep with ⟨-, -, hlist⟩ | ⟨-, rfl⟩
  · rw [hlist, mem_enter, or_iff_right hv]
  · rfl

theorem foldlM_computeNode_frame {units : Units}
    (hrun : post.foldlM (net.computeNode order units) state = some state')
    (hv : v ∉ post.map Node.var) : v ∈ state'.1 ↔ v ∈ state.1 := by
  induction post generalizing state with
  | nil =>
      cases hrun
      rfl
  | cons node post ih =>
      obtain ⟨hne, hpost⟩ := not_or.mp (mt List.mem_cons.mpr hv)
      rw [List.foldlM_cons] at hrun
      obtain ⟨middle, hstep, hrest⟩ := Option.bind_eq_some_iff.mp hrun
      rw [ih hrest hpost, computeNode_frame hstep hne]

/-- `compute` decides about the variables of the net only. -/
theorem compute_frame {units : Units} {out : List Nat}
    (h : net.compute order units flipped = some out)
    (hv : ∀ node ∈ net.finalized, node.var ≠ v) : v ∈ out ↔ v ∈ flipped := by
  obtain ⟨state, hrun, hout⟩ := Option.bind_eq_some_iff.mp h
  obtain rfl := Option.some.inj hout
  apply foldlM_computeNode_frame hrun
  intro hmem
  obtain ⟨node, hnode, heq⟩ := List.mem_map.mp hmem
  exact hv node hnode heq

theorem compute_eq_of_run {units : Units}
    (hrun : net.computeUpTo order units flipped net.finalized = some state) :
    net.compute order units flipped = some state.1 := by
  rw [compute, hrun]
  rfl

theorem computeUpTo_append_singleton {units : Units} :
    net.computeUpTo order units flipped (pre ++ [node]) =
      (net.computeUpTo order units flipped pre).bind fun state =>
        net.computeNode order units state node := by
  unfold computeUpTo
  rw [List.foldlM_append]
  simp

/-- A run that returns has returned from its first rounds. -/
theorem isSome_computeUpTo_of_isPrefix {units : Units} (hpre : pre <+: nodes)
    (h : (net.computeUpTo order units flipped nodes).isSome) :
    (net.computeUpTo order units flipped pre).isSome := by
  obtain ⟨post, rfl⟩ := hpre
  rw [computeUpTo, List.foldlM_append] at h
  exact Option.isSome_of_isSome_bind h

namespace OneNodeEach

variable (h : OneNodeEach nodes net)
include h

theorem mem_finalized : node ∈ net.finalized ↔ node ∈ nodes := h.finalizes.perm.mem_iff

theorem ordered : Ordered net.definitions := h.finalizes.ordered h.vars

theorem vars_finalized : (net.finalized.map Node.var).Nodup :=
  (h.finalizes.perm.map Node.var).nodup_iff.mpr h.vars

/-- Two nodes of one variable are the same. -/
theorem node_ext {node' : Node} (hnode : node ∈ net.finalized) (hnode' : node' ∈ net.finalized)
    (hvar : node.var = node'.var) : node = node' :=
  List.inj_on_of_nodup_map h.vars_finalized hnode hnode' hvar

section Split

variable (hsplit : net.finalized = pre ++ node :: post)
include hsplit

omit h in
theorem node_mem : node ∈ net.finalized := by simp [hsplit]

theorem later_notMem_pre (hv : v ∈ (node :: post).map Node.var) : v ∉ pre.map Node.var := by
  have hnodup := h.vars_finalized
  rw [hsplit, List.map_append] at hnodup
  exact fun hmem => List.disjoint_of_nodup_append hnodup hmem hv

theorem var_notMem_post : node.var ∉ post.map Node.var := by
  have hnodup := h.vars_finalized
  rw [hsplit, List.map_append, List.map_cons] at hnodup
  exact (List.nodup_cons.mp (List.nodup_append.mp hnodup).2.1).1

/-- A node reads no variable of its own or of a later node. -/
theorem read_notMem {k : Nat} (hk : k ∈ node.args.map Literal.number) :
    k ∉ (node :: post).map Node.var := by
  have hordered := h.ordered
  rw [definitions, hsplit, List.map_append, List.map_cons] at hordered
  intro hmem
  rcases List.mem_cons.mp hmem with heq | hpost
  · subst heq
    exact hordered.irreflexive node.definition (by simp) hk
  · obtain ⟨later, hlater, rfl⟩ := List.mem_map.mp hpost
    have hforward := (List.pairwise_append.mp hordered.forward).2.1
    exact ((List.pairwise_cons.mp hforward).1 later.definition (List.mem_map_of_mem hlater)).1 hk

/-- A node reads inputs and variables of the nodes before it. -/
theorem read_cases {k : Nat} (hk : k ∈ node.args.map Literal.number) :
    k ∈ pre.map Node.var ∨ ∀ node' ∈ net.finalized, node'.var ≠ k := by
  refine or_iff_not_imp_left.mpr fun hpre node' hnode' heq => ?_
  subst heq
  rw [hsplit] at hnode'
  rcases List.mem_append.mp hnode' with hmem | hmem
  · exact hpre (List.mem_map_of_mem hmem)
  · exact h.read_notMem hsplit hk (List.mem_map_of_mem hmem)

end Split

/-- The marks once a variable has been added to the flips. -/
theorem marksReaders_enter {indices : List Nat} (hmarks : net.MarksReaders state) {var : Nat}
    (hindices : net.literalToNodes[var]? = some indices) :
    net.MarksReaders (order.enter state.1 var, state.2 ++ net.nodeVars indices) := by
  intro node hnode
  have hentry : net.literalToNodes.getD var [] = indices := by
    rw [List.getD_eq_getElem?_getD, hindices, Option.getD_some]
  have hreads : node.var ∈ net.nodeVars indices ↔ var ∈ node.args.map Literal.number := by
    rw [← hentry, h.finalizes.mem_nodeVars]
    constructor
    · rintro ⟨node', hnode', hvar, hread⟩
      exact h.node_ext hnode' hnode hvar ▸ hread
    · intro hread
      exact ⟨node, hnode, rfl, hread⟩
  simp only [List.mem_append, hmarks node hnode, hreads, mem_enter]
  constructor
  · rintro (⟨k, hk, hmem⟩ | hread)
    · exact ⟨k, hk, Or.inr hmem⟩
    · exact ⟨var, hread, Or.inl rfl⟩
  · rintro ⟨k, hk, rfl | hmem⟩
    · exact Or.inr hk
    · exact Or.inl ⟨k, hk, hmem⟩

theorem marksReaders_step {units : Units} (hmarks : net.MarksReaders state)
    (hstep : net.computeNode order units state node = some state') : net.MarksReaders state' := by
  unfold computeNode at hstep
  split at hstep
  · obtain ⟨indices, hindices, hstate⟩ := Option.bind_eq_some_iff.mp hstep
    cases hstate
    exact h.marksReaders_enter hmarks hindices
  · cases hstep
    exact hmarks

/-- The marks `compute` starts with. -/
theorem marksReaders_initial (l : List Nat) : net.MarksReaders (l, net.initialMarks l) := by
  intro node hnode
  rw [initialMarks, List.mem_flatMap]
  constructor
  · rintro ⟨k, hk, hmark⟩
    obtain ⟨node', hnode', hvar, hread⟩ := h.finalizes.mem_nodeVars.mp hmark
    exact ⟨k, h.node_ext hnode' hnode hvar ▸ hread, hk⟩
  · rintro ⟨k, hread, hk⟩
    exact ⟨k, hk, h.finalizes.mem_nodeVars.mpr ⟨node, hnode, rfl, hread⟩⟩

end OneNodeEach

namespace Inverts

variable (h : Inverts nodes net flipped)
include h

theorem not_var_of_mem (hv : v ∈ flipped) : ∀ node ∈ net.finalized, node.var ≠ v :=
  fun node hnode heq => h.inputs node (h.mem_finalized.mp hnode) (heq ▸ hv)

/-- The variables of the nodes from a node on are new. -/
theorem later_notMem (hsplit : net.finalized = pre ++ node :: post)
    (hv : v ∈ (node :: post).map Node.var) : v ∉ flipped ∧ v ∉ pre.map Node.var := by
  refine ⟨fun hmem => ?_, h.later_notMem_pre hsplit hv⟩
  obtain ⟨later, hlater, rfl⟩ := List.mem_map.mp hv
  exact h.not_var_of_mem hmem later (by rw [hsplit]; exact List.mem_append_right _ hlater) rfl

end Inverts

namespace Updates

variable (h : Updates nodes net α β flipped)
include h

/-- The inputs that change are the inverted ones. -/
theorem changed_iff_of_not_var (hv : ∀ node ∈ net.finalized, node.var ≠ v) :
    β v ≠ α v ↔ v ∈ flipped := by
  rw [h.input v hv, flipAll]
  by_cases hmem : v ∈ flipped <;> simp [hmem]

theorem changed_of_mem (hv : v ∈ flipped) : β v ≠ α v :=
  (h.changed_iff_of_not_var (h.not_var_of_mem hv)).mpr hv

/-- In the end all changes have been entered. -/
theorem mem_entered_finalized : v ∈ order.entered α β flipped net.finalized ↔ β v ≠ α v := by
  rw [mem_entered]
  constructor
  · exact fun hv => hv.elim h.changed_of_mem And.right
  · intro hchanged
    cases mem_or_not_var net v with
    | inl hvar => exact Or.inr ⟨hvar, hchanged⟩
    | inr hinput => exact Or.inl ((h.changed_iff_of_not_var hinput).mp hchanged)

section Split

variable (hsplit : net.finalized = pre ++ node :: post)
include hsplit

theorem var_notMem_entered : node.var ∉ order.entered α β flipped pre := by
  have hnew := h.later_notMem hsplit (v := node.var) List.mem_cons_self
  rw [mem_entered]
  rintro (hflipped | ⟨hpre, -⟩)
  · exact hnew.1 hflipped
  · exact hnew.2 hpre

/-- What a node reads has been entered if it changes. -/
theorem mem_entered_of_read {k : Nat} (hk : k ∈ node.args.map Literal.number) :
    k ∈ order.entered α β flipped pre ↔ β k ≠ α k := by
  rw [mem_entered]
  constructor
  · exact fun hmem => hmem.elim h.changed_of_mem And.right
  · intro hchanged
    cases h.read_cases hsplit hk with
    | inl hpre => exact Or.inr ⟨hpre, hchanged⟩
    | inr hinput => exact Or.inl ((h.changed_iff_of_not_var hinput).mp hchanged)

theorem marked_iff (hreached : Reached order net α β flipped pre state) :
    node.var ∈ state.2 ↔ ∃ k ∈ node.args.map Literal.number, β k ≠ α k := by
  rw [hreached.marks node (OneNodeEach.node_mem hsplit), hreached.list]
  exact exists_congr fun k => and_congr_right fun hk => h.mem_entered_of_read hsplit hk

end Split

theorem reached_initial : Reached order net α β flipped [] (flipped, net.initialMarks flipped) where
  list := rfl
  marks := h.marksReaders_initial flipped

section Round

variable (hsplit : net.finalized = pre ++ node :: post)
variable (hreached : Reached order net α β flipped pre state)
include hsplit hreached

/-- One round at a node that gets its new value. -/
theorem reached_step (hindexed : β node.var ≠ α node.var → node.var < net.literalToNodes.length)
    (hvalue : node.var ∈ state.2 → node.propagate (unitsOf α) state.1 = β node.var) :
    ∃ state', net.computeNode order (unitsOf α) state node = some state' ∧
      Reached order net α β flipped (pre ++ [node]) state' := by
  unfold computeNode
  by_cases hchanged : β node.var = α node.var
  · have hkeep : ¬ Changes (unitsOf α) state node := fun hchanges =>
      (changes_iff.mp hchanges).2 ((hvalue hchanges.1).trans hchanged)
    refine ⟨state, if_neg hkeep, ?_, hreached.marks⟩
    rw [entered_append_singleton, if_pos hchanged, hreached.list]
  · have hmark : node.var ∈ state.2 := by
      by_contra hmark
      apply hchanged
      apply h.kept node (OneNodeEach.node_mem hsplit)
      intro k hk
      by_contra hne
      exact hmark ((h.marked_iff hsplit hreached).mpr ⟨k, hk, hne⟩)
    have hchanges : Changes (unitsOf α) state node :=
      changes_iff.mpr ⟨hmark, fun heq => hchanged ((hvalue hmark).symm.trans heq)⟩
    have hindices := List.getElem?_eq_getElem (hindexed hchanged)
    refine ⟨_, by rw [if_pos hchanges, hindices]; rfl, ?_,
      h.marksReaders_enter hreached.marks hindices⟩
    rw [entered_append_singleton, if_neg hchanged, hreached.list]

/-- A round that decides as it should finds the new value of its node. -/
theorem value_of_step (hstep : net.computeNode order (unitsOf α) state node = some state')
    (hmem : node.var ∈ state'.1 ↔ β node.var ≠ α node.var) :
    (β node.var ≠ α node.var → node.var < net.literalToNodes.length) ∧
      (node.var ∈ state.2 → node.propagate (unitsOf α) state.1 = β node.var) := by
  rcases computeNode_cases hstep with ⟨hchanges, hlength, hlist⟩ | ⟨hkeep, rfl⟩
  · have hchanged := hmem.mp (by rw [hlist]; exact mem_enter.mpr (Or.inl rfl))
    have hne := (changes_iff.mp hchanges).2
    exact ⟨fun _ => hlength, fun _ => (Bool.eq_not.mpr hne).trans (Bool.eq_not.mpr hchanged).symm⟩
  · have hunchanged : β node.var = α node.var := by
      by_contra hchanged
      exact h.var_notMem_entered hsplit (hreached.list ▸ hmem.mpr hchanged)
    refine ⟨fun hchanged => absurd hunchanged hchanged, fun hmark => ?_⟩
    rw [hunchanged]
    by_contra hne
    exact hkeep (changes_iff.mpr ⟨hmark, hne⟩)

end Round

end Updates

/-- A net and an assignment that respects it, with a list of inputs to invert. -/
structure Trial (nodes : List Node) (net : Net) (α : Nat → Bool) (flipped : List Nat) :
    Prop where
  finalizes : Finalizes nodes net
  vars : (nodes.map Node.var).Nodup
  ascendingArgs : ∀ node ∈ nodes, node.Ascending
  respects : ∀ node ∈ nodes, α node.var = node.eval α
  ascending : flipped.Pairwise (· < ·)
  inputs : ∀ node ∈ nodes, node.var ∉ flipped

namespace Trial

variable (h : Trial nodes net α flipped)
include h

theorem mem_finalized : node ∈ net.finalized ↔ node ∈ nodes := h.finalizes.perm.mem_iff

theorem ordered : Ordered net.definitions := h.finalizes.ordered h.vars

theorem respects_fresh : Respects net.definitions (net.fresh α flipped) :=
  respects_recompute h.ordered _

theorem fresh_var (hnode : node ∈ net.finalized) :
    net.fresh α flipped node.var = node.eval (net.fresh α flipped) :=
  forall_mem_definitions.mp h.respects_fresh node hnode

omit h in
theorem fresh_of_not_var (hv : ∀ node ∈ net.finalized, node.var ≠ v) :
    net.fresh α flipped v = flipAll α flipped v :=
  recompute_of_not_target _ (forall_mem_definitions.mpr hv)

/-- Recomputing changes a node only if an argument changes. -/
theorem updates : Updates nodes net α (net.fresh α flipped) flipped where
  finalizes := h.finalizes
  vars := h.vars
  inputs := h.inputs
  input _ hv := fresh_of_not_var hv
  kept node hnode hargs := by
    rw [h.fresh_var hnode, h.respects node (h.mem_finalized.mp hnode)]
    exact node.eval_congr hargs

section Round

variable (hsplit : net.finalized = pre ++ node :: post)
variable (hreached : Reached order net α (net.fresh α flipped) flipped pre state)
include hsplit hreached

/-- `compute` follows at a node that is not missed in the table and gets its new value. -/
theorem follows_iff : net.Follows order α flipped pre node ↔
    (net.fresh α flipped node.var ≠ α node.var → node.var < net.literalToNodes.length) ∧
      (node.var ∈ state.2 →
        node.propagate (unitsOf α) state.1 = net.fresh α flipped node.var) := by
  have hnode := OneNodeEach.node_mem hsplit
  have hvalue : node.propagate (unitsOf α) state.1 = net.fresh α flipped node.var ↔
      node.eval (flipAll α (node.seen (order.entered α (net.fresh α flipped) flipped pre))) =
        node.eval (net.fresh α flipped) := by
    rw [Node.propagate_eq (h.ascendingArgs node (h.mem_finalized.mp hnode)), hreached.list,
      h.fresh_var hnode]
  rw [h.updates.marked_iff hsplit hreached, hvalue]
  exact ⟨fun hfollows => ⟨hfollows.indexed, hfollows.seen⟩, fun hand => ⟨hand.1, hand.2⟩⟩

end Round

/-- From the nodes `pre` on, the run adds what changes exactly if it follows everywhere. -/
theorem run_iff (hsplit : net.finalized = pre ++ post)
    (hreached : Reached order net α (net.fresh α flipped) flipped pre state) :
    (∃ state', post.foldlM (net.computeNode order (unitsOf α)) state = some state' ∧
        ∀ v, v ∈ state'.1 ↔ net.fresh α flipped v ≠ α v) ↔
      ∀ mid node post', post = mid ++ node :: post' →
        net.Follows order α flipped (pre ++ mid) node := by
  induction post generalizing pre state with
  | nil =>
      apply iff_of_true
      · rw [List.append_nil] at hsplit
        refine ⟨state, rfl, fun v => ?_⟩
        rw [hreached.list, ← hsplit, h.updates.mem_entered_finalized]
      · intro mid node post' hnil
        simp at hnil
  | cons node post ih =>
      have hnext : net.finalized = (pre ++ [node]) ++ post := by rw [hsplit]; simp
      constructor
      · rintro ⟨state', hrun, hmem⟩
        rw [List.foldlM_cons] at hrun
        obtain ⟨middle, hstep, hrest⟩ := Option.bind_eq_some_iff.mp hrun
        have hlater := h.updates.var_notMem_post hsplit
        have hdecides : node.var ∈ middle.1 ↔ net.fresh α flipped node.var ≠ α node.var := by
          rw [← foldlM_computeNode_frame hrest hlater]
          exact hmem node.var
        have hvalue := h.updates.value_of_step hsplit hreached hstep hdecides
        obtain ⟨next, hstep', hnextReached⟩ :=
          h.updates.reached_step hsplit hreached hvalue.1 hvalue.2
        obtain rfl : middle = next := Option.some.inj (hstep.symm.trans hstep')
        intro mid node' post' hmid
        cases mid with
        | nil =>
            obtain ⟨rfl, -⟩ := List.cons.inj hmid
            rw [List.append_nil]
            exact (h.follows_iff hsplit hreached).mpr hvalue
        | cons head mid =>
            obtain ⟨rfl, htail⟩ := List.cons.inj hmid
            have hall := (ih hnext hnextReached).mp ⟨state', hrest, hmem⟩ mid node' post' htail
            rwa [List.append_assoc] at hall
      · intro hall
        have hfollows := hall [] node post rfl
        rw [List.append_nil] at hfollows
        have hvalue := (h.follows_iff hsplit hreached).mp hfollows
        obtain ⟨next, hstep, hnextReached⟩ :=
          h.updates.reached_step hsplit hreached hvalue.1 hvalue.2
        have htail : ∀ mid node' post', post = mid ++ node' :: post' →
            net.Follows order α flipped (pre ++ [node] ++ mid) node' := by
          intro mid node' post' hmid
          rw [List.append_assoc]
          exact hall (node :: mid) node' post' (by rw [hmid]; rfl)
        obtain ⟨state', hrest, hmem⟩ := (ih hnext hnextReached).mpr htail
        refine ⟨state', ?_, hmem⟩
        rw [List.foldlM_cons, hstep]
        exact hrest

/-- The list `compute` returns is right when it holds the variables that change. -/
theorem respects_flipAll_iff {out : List Nat}
    (hcompute : net.compute order (unitsOf α) flipped = some out) :
    Respects net.definitions (flipAll α out) ↔ ∀ v, v ∈ out ↔ net.fresh α flipped v ≠ α v := by
  constructor
  · intro hrespects
    have hfresh : flipAll α out = net.fresh α flipped := by
      apply Respects.unique h.ordered hrespects h.respects_fresh
      intro v hv
      have hnot := forall_mem_definitions.mp hv
      rw [fresh_of_not_var hnot, flipAll, flipAll,
        decide_eq_decide.mpr (compute_frame hcompute hnot)]
    intro v
    rw [← hfresh, flipAll]
    by_cases hmem : v ∈ out <;> simp [hmem]
  · intro hmem
    have hfresh : flipAll α out = net.fresh α flipped := funext fun v => flipAll_eq (hmem v)
    rw [hfresh]
    exact h.respects_fresh

/-- `compute` extends the flips so that every node has the value of its function again
exactly if it follows at every node. -/
theorem compute_respects_iff :
    (∃ out, net.compute order (unitsOf α) flipped = some out ∧
        Respects net.definitions (flipAll α out)) ↔
      ∀ pre node post, net.finalized = pre ++ node :: post →
        net.Follows order α flipped pre node := by
  have hsplit : net.finalized = [] ++ net.finalized := rfl
  have hreached : Reached order net α (net.fresh α flipped) flipped [] _ :=
    h.updates.reached_initial
  have hrun := h.run_iff hsplit hreached
  simp only [List.nil_append] at hrun
  rw [← hrun]
  constructor
  · rintro ⟨out, hcompute, hrespects⟩
    have hmem := (h.respects_flipAll_iff hcompute).mp hrespects
    obtain ⟨state, hrun, hout⟩ := Option.bind_eq_some_iff.mp hcompute
    exact ⟨state, hrun, Option.some.inj hout ▸ hmem⟩
  · rintro ⟨state, hrun, hmem⟩
    have hcompute := compute_eq_of_run hrun
    exact ⟨state.1, hcompute, (h.respects_flipAll_iff hcompute).mpr hmem⟩

theorem sorted_leftFirst (pre : List Node) :
    (SwapOrder.leftFirst.entered α (net.fresh α flipped) flipped pre).Pairwise (· ≤ ·) := by
  refine List.foldlRecOn _ _ (h.ascending.imp fun hlt => hlt.le) fun l hl v _ => ?_
  rw [enter_leftFirst]
  exact sorted_insertFromBack hl v

/-- With the first argument first, a node with a cursor gets its new value. -/
theorem seen_leftFirst (hsplit : net.finalized = pre ++ node :: post)
    (hnode : ∀ var orAndArgs, node ≠ .orAnd var orAndArgs) :
    node.eval (flipAll α (node.seen
        (SwapOrder.leftFirst.entered α (net.fresh α flipped) flipped pre))) =
      node.eval (net.fresh α flipped) := by
  have hseen : node.seen (SwapOrder.leftFirst.entered α (net.fresh α flipped) flipped pre) =
      records (SwapOrder.leftFirst.entered α (net.fresh α flipped) flipped pre) := by
    cases node with
    | value var b => rfl
    | andIff var args => rfl
    | orIff var args => rfl
    | orAnd var orAndArgs => exact absurd rfl (hnode var orAndArgs)
  rw [hseen]
  apply node.eval_congr
  intro k hk
  apply flipAll_eq
  rw [mem_records_of_sorted (h.sorted_leftFirst pre), h.updates.mem_entered_of_read hsplit hk]

end Trial

/-- After `compute` the inverted assignment is the one recomputed from the inverted inputs exactly
when, at every node, a variable that changes has an entry in `literal_to_nodes`, and a node with a
changed argument gets its new value already from the entries it sees among the flips and the
changed variables before it. -/
theorem compute_recomputes_iff (h : Trial nodes net α flipped) (order : SwapOrder) :
    (∃ out, net.compute order (unitsOf α) flipped = some out ∧
        (∀ node ∈ nodes, flipAll α out node.var = node.eval (flipAll α out)) ∧
        flipAll α out = net.fresh α flipped) ↔
      ∀ pre node post, net.finalized = pre ++ node :: post →
        net.Follows order α flipped pre node := by
  rw [← h.compute_respects_iff]
  apply exists_congr
  intro out
  apply and_congr_right
  intro hcompute
  have hnodes : (∀ node ∈ nodes, flipAll α out node.var = node.eval (flipAll α out)) ↔
      Respects net.definitions (flipAll α out) := by
    unfold Respects
    rw [forall_mem_definitions]
    exact forall_congr' fun node => imp_congr_left h.mem_finalized.symm
  rw [hnodes, and_iff_left_iff_imp]
  intro hrespects
  exact funext fun v => flipAll_eq ((h.respects_flipAll_iff hcompute).mp hrespects v)

/-- A node of two inputs that are inverted together, and one that reads it and stays false. -/
def conjunctions : Net :=
  ⟨[.andIff 3 [⟨1, true⟩, ⟨2, true⟩], .andIff 5 [⟨3, true⟩, ⟨4, true⟩]],
    [[], [0], [0], [1], [1]]⟩

theorem trial_conjunctions : Trial conjunctions.finalized conjunctions (fun _ => false) [1, 2] where
  finalizes :=
    { perm := List.Perm.refl _
      sorted := ⟨fun node => (node.var - 1) / 2, by
        simp only [conjunctions, List.forall_mem_cons]
        exact ⟨⟨3, rfl⟩, ⟨5, rfl⟩, by simp⟩, by decide⟩
      table := rfl }
  vars := by decide
  ascendingArgs := by simp [conjunctions, Node.Ascending]
  respects := by decide
  ascending := by decide
  inputs := by decide

theorem compute_recomputes_iff_conjunctions :
    (∃ out, conjunctions.compute .rightFirst (unitsOf fun _ => false) [1, 2] = some out ∧
        (∀ node ∈ conjunctions.finalized,
          flipAll (fun _ => false) out node.var = node.eval (flipAll (fun _ => false) out)) ∧
        flipAll (fun _ => false) out = conjunctions.fresh (fun _ => false) [1, 2]) ↔
      ∀ pre node post, conjunctions.finalized = pre ++ node :: post →
        conjunctions.Follows .rightFirst (fun _ => false) [1, 2] pre node :=
  compute_recomputes_iff trial_conjunctions .rightFirst

/-- With the second argument first, `6` does not find `3` behind `5`. -/
example :
    let nodes : List Node := [.andIff 5 [⟨1, true⟩], .andIff 3 [⟨5, true⟩], .andIff 6 [⟨3, true⟩]]
    let net : Net := ⟨nodes, [[], [0], [], [2], [], [1]]⟩
    net.compute .rightFirst (unitsOf fun _ => false) [1] = some [1, 5, 3] := by
  decide +kernel

/-- An `orAnd` node of two inputs that are inverted together keeps its old value. -/
theorem exists_missed_flip :
    let nodes : List Node := [.orAnd 3 [[⟨1, true⟩, ⟨2, true⟩]]]
    let net : Net := ⟨nodes, [[], [0], [0]]⟩
    let α : Nat → Bool := fun _ => false
    Trial nodes net α [1, 2] ∧
      (∀ order, net.compute order (unitsOf α) [1, 2] = some [1, 2]) ∧
      ∃ node ∈ nodes, flipAll α [1, 2] node.var ≠ node.eval (flipAll α [1, 2]) := by
  refine ⟨⟨⟨List.Perm.refl _, ⟨fun _ => 1, ?_, by decide⟩, rfl⟩, by decide, ?_, by decide,
    by decide, by decide⟩, fun _ => rfl, by decide⟩
  · simp only [List.forall_mem_cons]
    exact ⟨⟨1, rfl⟩, by simp⟩
  · simp only [List.forall_mem_cons]
    exact ⟨trivial, by simp⟩

end Net

end LatinSquares.LocalSearch
