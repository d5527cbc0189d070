/-
# The list of flips stays ascending

All cursors rely on `flipped` being ascending. With the first argument of `std::swap` first it is,
at every moment of `compute`. With the second one first the loop after `push_back` does nothing,
and the list stays ascending as long as every variable that changes is greater than the flips and
than the variables that have changed before it. Which ones change is found by one pass over the
net in which every node is read as its class reads it.
-/

import LatinSquares.LocalSearch.Closure

namespace LatinSquares.LocalSearch.Net

open LatinSquares.Math

/-- `flipped` is ascending whenever a node is evaluated, whenever a variable has been entered, and
in the end. -/
def StaysAscending (order : SwapOrder) (net : Net) (units : Units) (flipped : List Nat) : Prop :=
  ∀ pre, pre <+: net.finalized → ∀ state, net.computeUpTo order units flipped pre = some state →
    state.1.Pairwise (· < ·) ∧ ∀ node, pre ++ [node] <+: net.finalized →
      Changes units state node → (order.enter state.1 node.var).Pairwise (· < ·)

/-- The smallest variable that changes from `α` to `β`. -/
def leastChanged (net : Net) (α β : Nat → Bool) (flipped : List Nat) : Option Nat :=
  ((flipped ++ net.finalized.map Node.var).filter fun v => β v != α v).min?

/-- A node read again, with the changes from `α` to `β` it can find: an `orAnd` node finds the
smallest one, the others find those of arguments that stand behind no larger argument. -/
def reread (net : Net) (α β : Nat → Bool) (flipped : List Nat) : Node → Bool
  | .orAnd var orAndArgs =>
      (Node.orAnd var orAndArgs).eval (flipAll α (net.leastChanged α β flipped).toList)
  | node => node.reading α β

/-- A node whose arguments have changed is read again. -/
def refreshNode (net : Net) (α : Nat → Bool) (flipped : List Nat) (β : Nat → Bool) (node : Node) :
    Nat → Bool :=
  if ∃ k ∈ node.args.map Literal.number, β k ≠ α k then
    Function.update β node.var (net.reread α β flipped node)
  else β

/-- One pass over the net from the inverted inputs. -/
def refresh (net : Net) (α : Nat → Bool) (flipped : List Nat) : Nat → Bool :=
  net.finalized.foldl (net.refreshNode α flipped) (flipAll α flipped)

/-- The variables of the given nodes that change have entries in `literal_to_nodes`. -/
def Indexed (net : Net) (α : Nat → Bool) (flipped : List Nat) (ns : List Node) : Prop :=
  ∀ node ∈ ns, net.refresh α flipped node.var ≠ α node.var →
    node.var < net.literalToNodes.length

/-- Every node variable that changes is greater than the flips and than the node variables that
have changed before it, up to the first one without an entry in `literal_to_nodes`. -/
def ChangesAscend (net : Net) (α : Nat → Bool) (flipped : List Nat) : Prop :=
  ∀ pre node post, net.finalized = pre ++ node :: post → net.Indexed α flipped pre →
    net.refresh α flipped node.var ≠ α node.var →
      (∀ v ∈ flipped, v < node.var) ∧
        ∀ before ∈ pre, net.refresh α flipped before.var ≠ α before.var → before.var < node.var

variable {order : SwapOrder} {nodes pre post ns : List Node} {net : Net} {α β : Nat → Bool}
variable {flipped : List Nat} {state : List Nat × List Nat} {node : Node} {v : Nat}

section Pass

theorem foldl_refreshNode_of_not_var (hv : v ∉ ns.map Node.var) :
    ns.foldl (net.refreshNode α flipped) β v = β v := by
  induction ns generalizing β with
  | nil => rfl
  | cons node ns ih =>
      obtain ⟨hne, hns⟩ := not_or.mp (mt List.mem_cons.mpr hv)
      rw [List.foldl_cons, ih hns, refreshNode]
      split
      · exact Function.update_of_ne hne _ _
      · rfl

namespace Inverts

section Split

variable (hsplit : net.finalized = pre ++ node :: post)
include hsplit

/-- Before a node, the pass has the final values of the other variables but the later ones. -/
theorem foldl_refreshNode_eq (hv : v ∉ (node :: post).map Node.var) :
    pre.foldl (net.refreshNode α flipped) (flipAll α flipped) v = net.refresh α flipped v := by
  rw [refresh, hsplit, List.foldl_append, foldl_refreshNode_of_not_var hv]

variable (h : Inverts nodes net flipped)
include h

/-- Later variables have their old values. -/
theorem foldl_refreshNode_later (hv : v ∈ (node :: post).map Node.var) :
    pre.foldl (net.refreshNode α flipped) (flipAll α flipped) v = α v := by
  have hnew := h.later_notMem hsplit hv
  rw [foldl_refreshNode_of_not_var hnew.2, flipAll]
  simp [hnew.1]

theorem refresh_var : net.refresh α flipped node.var =
    if ∃ k ∈ node.args.map Literal.number, net.refresh α flipped k ≠ α k then
      net.reread α (pre.foldl (net.refreshNode α flipped) (flipAll α flipped)) flipped node
    else α node.var := by
  have hread : ∀ k ∈ node.args.map Literal.number,
      pre.foldl (net.refreshNode α flipped) (flipAll α flipped) k = net.refresh α flipped k :=
    fun k hk => foldl_refreshNode_eq hsplit (h.read_notMem hsplit hk)
  have hlater := h.var_notMem_post hsplit
  have hvalue : net.refresh α flipped node.var =
      net.refreshNode α flipped (pre.foldl (net.refreshNode α flipped) (flipAll α flipped)) node
        node.var := by
    rw [refresh, hsplit, List.foldl_append, List.foldl_cons, foldl_refreshNode_of_not_var hlater]
  have hiff : (∃ k ∈ node.args.map Literal.number,
      pre.foldl (net.refreshNode α flipped) (flipAll α flipped) k ≠ α k) ↔
        ∃ k ∈ node.args.map Literal.number, net.refresh α flipped k ≠ α k :=
    exists_congr fun k => and_congr_right fun hk => by rw [hread k hk]
  rw [hvalue, refreshNode]
  by_cases hchange : ∃ k ∈ node.args.map Literal.number, net.refresh α flipped k ≠ α k
  · rw [if_pos (hiff.mpr hchange), if_pos hchange, Function.update_self]
  · rw [if_neg fun hex => hchange (hiff.mp hex), if_neg hchange]
    exact h.foldl_refreshNode_later hsplit List.mem_cons_self

omit hsplit in
/-- A node changes only if an argument changes. -/
theorem updates (α : Nat → Bool) : Updates nodes net α (net.refresh α flipped) flipped where
  toInverts := h
  input v hv := foldl_refreshNode_of_not_var fun hmem => by
    obtain ⟨node, hnode, heq⟩ := List.mem_map.mp hmem
    exact hv node hnode heq
  kept node hnode hargs := by
    obtain ⟨pre, post, hsplit⟩ := List.append_of_mem hnode
    rw [h.refresh_var hsplit, if_neg]
    rintro ⟨k, hk, hne⟩
    exact hne (hargs k hk)

/-- An ascending list of the changes so far starts with the smallest one. -/
theorem head?_entered
    (hascending : (order.entered α (net.refresh α flipped) flipped pre).Pairwise (· < ·)) :
    (order.entered α (net.refresh α flipped) flipped pre).head? =
      net.leastChanged α (pre.foldl (net.refreshNode α flipped) (flipAll α flipped)) flipped := by
  apply head?_eq_min? (hascending.imp fun hlt => hlt.le)
  intro v
  rw [List.mem_filter, List.mem_append, bne_iff_ne, mem_entered, hsplit, List.map_append,
    List.mem_append]
  by_cases hlater : v ∈ (node :: post).map Node.var
  · have hnew := h.later_notMem hsplit hlater
    rw [h.foldl_refreshNode_later hsplit hlater]
    simp [hnew]
  · rw [foldl_refreshNode_eq hsplit hlater, or_iff_left hlater, or_and_right,
      and_iff_left_of_imp (h.updates α).changed_of_mem]

/-- The pass reads a node as `propagate` does on an ascending list of the changes so far. -/
theorem propagate_entered
    (hmark : ∃ k ∈ node.args.map Literal.number, net.refresh α flipped k ≠ α k)
    (hascending : (order.entered α (net.refresh α flipped) flipped pre).Pairwise (· < ·)) :
    node.propagate (unitsOf α) (order.entered α (net.refresh α flipped) flipped pre) =
      net.refresh α flipped node.var := by
  have hleast := h.head?_entered hsplit hascending
  have hrecords : ∀ v, v ∈ records (order.entered α (net.refresh α flipped) flipped pre) ↔
      v ∈ order.entered α (net.refresh α flipped) flipped pre := fun v =>
    mem_records_of_sorted (hascending.imp fun hlt => hlt.le)
  have hread : ∀ k ∈ node.args.map Literal.number,
      flipAll α (records (order.entered α (net.refresh α flipped) flipped pre)) k =
        pre.foldl (net.refreshNode α flipped) (flipAll α flipped) k := by
    intro k hk
    rw [foldl_refreshNode_eq hsplit (h.read_notMem hsplit hk)]
    exact flipAll_eq ((hrecords k).trans ((h.updates α).mem_entered_of_read hsplit hk))
  rw [h.refresh_var hsplit, if_pos hmark, Node.propagate_eq_reading]
  cases node with
  | value var b => rfl
  | andIff var args => exact Node.reading_congr _ hread
  | orIff var args => exact Node.reading_congr _ hread
  | orAnd var orAndArgs =>
      rw [Node.seen, hleast]
      rfl

variable {state' : List Nat × List Nat}

section Round

variable (hreached : Reached order net α (net.refresh α flipped) flipped pre state)
variable (hascending : (order.entered α (net.refresh α flipped) flipped pre).Pairwise (· < ·))
include hreached hascending

/-- On an ascending list a round finds out whether the variable of its node changes. -/
theorem changes_iff_refresh :
    Changes (unitsOf α) state node ↔ net.refresh α flipped node.var ≠ α node.var := by
  rw [changes_iff, (h.updates α).marked_iff hsplit hreached, hreached.list]
  constructor
  · rintro ⟨hmark, hne⟩
    rwa [h.propagate_entered hsplit hmark hascending] at hne
  · intro hne
    have hmark : ∃ k ∈ node.args.map Literal.number, net.refresh α flipped k ≠ α k := by
      by_contra hnone
      rw [h.refresh_var hsplit, if_neg hnone] at hne
      exact hne rfl
    exact ⟨hmark, by rwa [h.propagate_entered hsplit hmark hascending]⟩

theorem step_of_indexed
    (hindexed : net.refresh α flipped node.var ≠ α node.var →
      node.var < net.literalToNodes.length) :
    ∃ state', net.computeNode order (unitsOf α) state node = some state' ∧
      Reached order net α (net.refresh α flipped) flipped (pre ++ [node]) state' := by
  refine (h.updates α).reached_step hsplit hreached hindexed fun hmark => ?_
  rw [hreached.list]
  exact h.propagate_entered hsplit (((h.updates α).marked_iff hsplit hreached).mp hmark) hascending

end Round

/-- The next entry keeps the list ascending if it is the greatest one, or in any case with the
first order. -/
theorem pairwise_entered_append
    (hascending : (order.entered α (net.refresh α flipped) flipped pre).Pairwise (· < ·)) :
    (order.entered α (net.refresh α flipped) flipped (pre ++ [node])).Pairwise (· < ·) ↔
      order = .leftFirst ∨ (net.refresh α flipped node.var ≠ α node.var →
        (∀ v ∈ flipped, v < node.var) ∧ ∀ before ∈ pre,
          net.refresh α flipped before.var ≠ α before.var → before.var < node.var) := by
  rw [entered_append_singleton]
  by_cases hchanged : net.refresh α flipped node.var = α node.var
  · rw [if_pos hchanged]
    exact iff_of_true hascending (Or.inr fun hne => absurd hchanged hne)
  · have hentries : (∀ v ∈ order.entered α (net.refresh α flipped) flipped pre, v < node.var) ↔
        (∀ v ∈ flipped, v < node.var) ∧ ∀ before ∈ pre,
          net.refresh α flipped before.var ≠ α before.var → before.var < node.var := by
      simp only [mem_entered, or_imp, forall_and, and_imp, List.forall_mem_map]
    rw [if_neg hchanged, pairwise_enter_iff hascending ((h.updates α).var_notMem_entered hsplit),
      hentries]
    exact or_congr_right ⟨fun hand _ => hand, fun himp => himp hchanged⟩

end Split

section Rounds

variable (h : Inverts nodes net flipped) (hpre : pre <+: net.finalized)
variable (hascending : ∀ ns, ns <+: pre →
  (order.entered α (net.refresh α flipped) flipped ns).Pairwise (· < ·))
include h hpre hascending

/-- As long as the list is ascending the rounds follow the pass. -/
theorem reached_of_computeUpTo
    (hstate : net.computeUpTo order (unitsOf α) flipped pre = some state) :
    net.Indexed α flipped pre ∧ Reached order net α (net.refresh α flipped) flipped pre state := by
  induction pre using List.reverseRecOn generalizing state with
  | nil =>
      cases hstate
      exact ⟨nofun, (h.updates α).reached_initial⟩
  | append_singleton pre node ih =>
      rw [computeUpTo_append_singleton] at hstate
      obtain ⟨before, hbefore, hstep⟩ := Option.bind_eq_some_iff.mp hstate
      have hshorter : pre <+: pre ++ [node] := List.prefix_append pre [node]
      obtain ⟨hindexed, hreached⟩ := ih (hshorter.trans hpre)
        (fun ns hns => hascending ns (hns.trans hshorter)) hbefore
      obtain ⟨post, hsplit⟩ := hpre
      rw [List.append_assoc, List.singleton_append] at hsplit
      have hnow := hascending pre hshorter
      have hindex : net.refresh α flipped node.var ≠ α node.var →
          node.var < net.literalToNodes.length := by
        intro hne
        have hchanges := (h.changes_iff_refresh hsplit.symm hreached hnow).mpr hne
        rcases computeNode_cases hstep with ⟨-, hlength, -⟩ | ⟨hkeep, -⟩
        · exact hlength
        · exact absurd hchanges hkeep
      obtain ⟨next, hnext, hreached'⟩ := h.step_of_indexed hsplit.symm hreached hnow hindex
      obtain rfl : next = state := Option.some.inj (hnext.symm.trans hstep)
      refine ⟨fun n hn => ?_, hreached'⟩
      rcases List.mem_append.mp hn with hmem | hmem
      · exact hindexed n hmem
      · obtain rfl := List.mem_singleton.mp hmem
        exact hindex

theorem exists_computeUpTo (hindexed : net.Indexed α flipped pre) :
    ∃ state, net.computeUpTo order (unitsOf α) flipped pre = some state := by
  induction pre using List.reverseRecOn with
  | nil => exact ⟨_, rfl⟩
  | append_singleton pre node ih =>
      have hshorter : pre <+: pre ++ [node] := List.prefix_append pre [node]
      have hascending' := fun ns hns => hascending ns (List.IsPrefix.trans hns hshorter)
      obtain ⟨before, hbefore⟩ := ih (hshorter.trans hpre) hascending'
        fun n hn => hindexed n (List.mem_append_left _ hn)
      have hreached := (h.reached_of_computeUpTo (hshorter.trans hpre) hascending' hbefore).2
      obtain ⟨post, hsplit⟩ := hpre
      rw [List.append_assoc, List.singleton_append] at hsplit
      obtain ⟨next, hnext, -⟩ := h.step_of_indexed hsplit.symm hreached (hascending pre hshorter)
        (hindexed node (List.mem_append_right _ List.mem_cons_self))
      exact ⟨next, by rw [computeUpTo_append_singleton, hbefore]; exact hnext⟩

end Rounds

section Prefixes

/-- What passes from the prefixes of a list to the next one holds of all of them. -/
theorem forall_prefix {P : List Node → Prop} (hnil : P [])
    (hstep : ∀ ns last, ns ++ [last] <+: pre → (∀ ns', ns' <+: ns → P ns') → P (ns ++ [last])) :
    ∀ ns, ns <+: pre → P ns := by
  suffices hall : ∀ ns, ns <+: pre → ∀ ns', ns' <+: ns → P ns' from
    fun ns hns => hall ns hns ns (List.prefix_refl ns)
  intro ns
  induction ns using List.reverseRecOn with
  | nil =>
      intro _ ns' hns'
      exact List.prefix_nil.mp hns' ▸ hnil
  | append_singleton ns last ih =>
      intro hns ns' hns'
      have hbefore := ih ((List.prefix_append ns [last]).trans hns)
      rcases List.prefix_concat_iff.mp hns' with rfl | hshorter
      · exact hstep ns last hns hbefore
      · exact hbefore ns' hshorter

variable (h : Inverts nodes net flipped) (hflipped : flipped.Pairwise (· < ·))
include h hflipped

theorem pairwise_entered_of_staysAscending
    (hstays : StaysAscending order net (unitsOf α) flipped) (hpre : pre ++ [node] <+: net.finalized)
    (hindexed : net.Indexed α flipped pre) :
    ∀ ns, ns <+: pre ++ [node] →
      (order.entered α (net.refresh α flipped) flipped ns).Pairwise (· < ·) := by
  refine forall_prefix hflipped fun ns last hns hascending => ?_
  have hnode : ns ++ [last] <+: net.finalized := hns.trans hpre
  have hshorter : ns <+: net.finalized := (List.prefix_append ns [last]).trans hnode
  have hsub : ns ⊆ pre := by
    rcases List.prefix_concat_iff.mp hns with heq | hshorter
    · rw [(List.append_inj' heq rfl).1]
      exact List.Subset.refl pre
    · exact ((List.prefix_append ns [last]).trans hshorter).subset
  obtain ⟨state, hstate⟩ := h.exists_computeUpTo hshorter hascending
    fun n hn => hindexed n (hsub hn)
  have hreached := (h.reached_of_computeUpTo hshorter hascending hstate).2
  have hnow := hascending ns (List.prefix_refl ns)
  rw [entered_append_singleton]
  split
  · exact hnow
  · next hchanged =>
      obtain ⟨post, hsplit⟩ := id hnode
      rw [List.append_assoc, List.singleton_append] at hsplit
      have hchanges := (h.changes_iff_refresh hsplit.symm hreached hnow).mpr hchanged
      rw [← hreached.list]
      exact (hstays ns hshorter state hstate).2 last hnode hchanges

theorem pairwise_entered_of_changesAscend
    (horder : order = .leftFirst ∨ net.ChangesAscend α flipped) (hpre : pre <+: net.finalized)
    (hstate : net.computeUpTo order (unitsOf α) flipped pre = some state) :
    ∀ ns, ns <+: pre →
      (order.entered α (net.refresh α flipped) flipped ns).Pairwise (· < ·) := by
  refine forall_prefix hflipped fun ns last hns hascending => ?_
  have hshorter : ns <+: pre := (List.prefix_append ns [last]).trans hns
  have hsome : (net.computeUpTo order (unitsOf α) flipped pre).isSome := by rw [hstate]; rfl
  obtain ⟨before, hbefore⟩ :=
    Option.isSome_iff_exists.mp (isSome_computeUpTo_of_isPrefix hshorter hsome)
  have hindexed := (h.reached_of_computeUpTo (hshorter.trans hpre) hascending hbefore).1
  obtain ⟨post, hsplit⟩ := hns.trans hpre
  rw [List.append_assoc, List.singleton_append] at hsplit
  apply (h.pairwise_entered_append hsplit.symm (hascending ns (List.prefix_refl ns))).mpr
  exact horder.imp_right fun hascend => hascend ns last post hsplit.symm hindexed

end Prefixes

end Inverts

end Pass

/-- The list is ascending throughout if and only if the first argument is evaluated first or every
variable that changes is greater than the flips and the variables that change before it. -/
theorem staysAscending_iff (hnet : Finalizes nodes net) (hvars : (nodes.map Node.var).Nodup)
    (hflipped : flipped.Pairwise (· < ·)) (hinputs : ∀ node ∈ nodes, node.var ∉ flipped)
    (order : SwapOrder) (α : Nat → Bool) :
    StaysAscending order net (unitsOf α) flipped ↔
      order = .leftFirst ∨ net.ChangesAscend α flipped := by
  have h : Inverts nodes net flipped := ⟨⟨hnet, hvars⟩, hinputs⟩
  constructor
  · intro hstays
    refine or_iff_not_imp_left.mpr fun horder pre node post hsplit hindexed hchanged => ?_
    have hnode : pre ++ [node] <+: net.finalized := ⟨post, by simp [hsplit]⟩
    have hascending := h.pairwise_entered_of_staysAscending hflipped hstays hnode hindexed
    exact ((h.pairwise_entered_append hsplit (hascending pre (List.prefix_append pre [node]))).mp
      (hascending _ (List.prefix_refl _))).resolve_left horder hchanged
  · intro horder pre hpre state hstate
    have hascending := h.pairwise_entered_of_changesAscend hflipped horder hpre hstate
    obtain ⟨hindexed, hreached⟩ := h.reached_of_computeUpTo hpre hascending hstate
    have hnow := hascending pre (List.prefix_refl _)
    refine ⟨hreached.list ▸ hnow, fun node hnode hchanges => ?_⟩
    obtain ⟨post, hsplit⟩ := hnode
    rw [List.append_assoc, List.singleton_append] at hsplit
    have hchanged := (h.changes_iff_refresh hsplit.symm hreached hnow).mp hchanges
    have hnext := (h.pairwise_entered_append hsplit.symm hnow).mpr
      (horder.imp_right fun hascend => hascend pre node post hsplit.symm hindexed)
    rwa [entered_append_singleton, if_neg hchanged, ← hreached.list] at hnext

/-- Where `compute` follows at every node with the first order, the pass recomputes the net. -/
theorem refresh_eq_fresh (h : Trial nodes net α flipped)
    (hfollows : ∀ pre node post, net.finalized = pre ++ node :: post →
      net.Follows .leftFirst α flipped pre node) :
    net.refresh α flipped = net.fresh α flipped := by
  have hinverts : Inverts nodes net flipped := h.updates.toInverts
  obtain ⟨out, hout, hrespects⟩ := h.compute_respects_iff.mpr hfollows
  have hfresh : flipAll α out = net.fresh α flipped :=
    funext fun v => flipAll_eq ((h.respects_flipAll_iff hout).mp hrespects v)
  obtain ⟨state, hstate, heq⟩ := Option.bind_eq_some_iff.mp hout
  obtain rfl := Option.some.inj heq
  have hascending := hinverts.pairwise_entered_of_changesAscend (α := α) h.ascending (Or.inl rfl)
    (List.prefix_refl _) hstate
  have hreached :=
    (hinverts.reached_of_computeUpTo (List.prefix_refl _) hascending hstate).2
  rw [← hfresh]
  funext v
  refine (flipAll_eq ?_).symm
  rw [hreached.list, (hinverts.updates α).mem_entered_finalized]

/-- The changes of the small net ascend. -/
theorem staysAscending_conjunctions :
    StaysAscending .rightFirst conjunctions (unitsOf fun _ => false) [1, 2] := by
  have h := trial_conjunctions
  refine (staysAscending_iff h.finalizes h.vars h.ascending h.inputs .rightFirst _).mpr (Or.inr ?_)
  intro pre node post hsplit _ hchanged
  rcases pre with _ | ⟨first, _ | ⟨second, pre⟩⟩
  · obtain ⟨rfl, -⟩ := List.cons.inj hsplit
    exact ⟨by decide, nofun⟩
  · obtain ⟨rfl, hrest⟩ := List.cons.inj hsplit
    obtain ⟨rfl, -⟩ := List.cons.inj hrest
    exact absurd (by decide +kernel) hchanged
  · simp [conjunctions] at hsplit

/-- A net with a node that is numbered below its argument. -/
def lowNode : Net := ⟨[.value 3 true, .andIff 1 [⟨2, true⟩]], [[], [], [1]]⟩

theorem finalizes_lowNode : Finalizes lowNode.finalized lowNode where
  perm := List.Perm.refl _
  sorted := ⟨fun node => node.args.length, by
    simp only [lowNode, List.forall_mem_cons]
    exact ⟨⟨1, rfl⟩, ⟨2, rfl⟩, by simp⟩, by decide⟩
  table := rfl

/-- With the second argument first, the list is `2, 1` in the end. -/
theorem not_staysAscending :
    ¬ ∀ (order : SwapOrder) (nodes : List Node) (net : Net) (α : Nat → Bool) (flipped : List Nat),
      Finalizes nodes net → (nodes.map Node.var).Nodup → flipped.Pairwise (· < ·) →
        (∀ node ∈ nodes, node.var ∉ flipped) →
          StaysAscending order net (unitsOf α) flipped := by
  intro h
  have hstays := h .rightFirst _ _ (fun _ => false) [2] finalizes_lowNode (by decide) (by decide)
    (by decide)
  have hend := (hstays lowNode.finalized (List.prefix_refl _) _ rfl).1
  revert hend
  decide

end LatinSquares.LocalSearch.Net
