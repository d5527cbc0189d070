/-
# An accepted move takes its closure twice

`check_flipped` extends the list of flips by the variables of the net that change, and `solve`
commits this list by `apply_flipped`, which extends it once more. The nodes that change are found
again, since the assignment is still the old one, and so their variables are in the list twice.
They are inverted twice: an accepted move changes the inputs of the net and nothing else. The
books stay exact over a run as long as no move changes a variable of the net.

With the second argument of `std::swap` first, the second closure always finds what the first one
has found. With the first argument first, a variable that has come in since can hide others.
-/

import LatinSquares.LocalSearch.Appended
import LatinSquares.LocalSearch.Ledger
import LatinSquares.LocalSearch.Accepted

namespace LatinSquares.LocalSearch.Net

open LatinSquares.Math

variable {order : SwapOrder} {nodes pre post : List Node} {net : Net} {α β : Nat → Bool}
variable {node : Node} {flipped closed again : List Nat} {state : List Nat × List Nat} {v : Nat}

/-- `compute` does what it should for the list of flips, and with the first argument first also for
the list it has extended. -/
structure FollowsTwice (order : SwapOrder) (net : Net) (α : Nat → Bool) (flipped : List Nat) :
    Prop where
  first : ∀ pre node post, net.finalized = pre ++ node :: post →
    net.Follows order α flipped pre node
  second : order = .leftFirst → ∀ node ∈ net.finalized,
    net.Follows order α flipped net.finalized node

theorem perm_entered : (order.entered α β flipped pre).Perm
    (((pre.map Node.var).filter fun v => β v != α v) ++ flipped) := by
  unfold SwapOrder.entered
  generalize (pre.map Node.var).filter (fun v => β v != α v) = vs
  induction vs generalizing flipped with
  | nil => exact List.Perm.refl _
  | cons x vs ih => exact ih.trans (((perm_enter order flipped x).append_left vs).trans
      List.perm_middle)

/-- The flips and the marks of the second closure after the nodes `pre`, with the first argument
first: the variables of the nodes that change have come in a second time. -/
structure ReachedAgain (net : Net) (closed : List Nat) (pre : List Node)
    (state : List Nat × List Nat) : Prop where
  sorted : state.1.Pairwise (· ≤ ·)
  count : ∀ v, state.1.count v =
    closed.count v + if v ∈ pre.map Node.var ∧ v ∈ closed then 1 else 0
  marks : net.MarksReaders state

theorem ReachedAgain.mem_iff (h : ReachedAgain net closed pre state) :
    v ∈ state.1 ↔ v ∈ closed := by
  have hcount := h.count v
  have hclosed := List.count_pos_iff (a := v) (l := closed)
  have hstate := List.count_pos_iff (a := v) (l := state.1)
  by_cases hmem : v ∈ closed
  · exact iff_of_true (hstate.mp (by have := hclosed.mpr hmem; omega)) hmem
  · rw [if_neg fun hand => hmem hand.2, List.count_eq_zero.mpr hmem] at hcount
    exact iff_of_false (List.count_eq_zero.mp hcount) hmem

/-- Nodes see the same entries in both lists. -/
theorem ReachedAgain.seen_eq (h : ReachedAgain net closed pre state)
    (hclosed : closed.Pairwise (· < ·)) (node : Node) :
    flipAll α (node.seen state.1) = flipAll α (node.seen closed) := by
  have hrecords : ∀ v, v ∈ records state.1 ↔ v ∈ records closed := fun v => by
    rw [mem_records_of_sorted h.sorted, mem_records_of_sorted (hclosed.imp fun hlt => hlt.le),
      h.mem_iff]
  have hhead : state.1.head? = closed.head? := by
    rw [head?_eq_min? h.sorted fun v => h.mem_iff.symm,
      head?_eq_min? (hclosed.imp fun hlt => hlt.le) fun v => Iff.rfl]
  funext v
  unfold flipAll
  congr 1
  apply decide_eq_decide.mpr
  cases node with
  | value var b => exact hrecords v
  | andIff var args => exact hrecords v
  | orIff var args => exact hrecords v
  | orAnd var orAndArgs =>
      rw [Node.seen, Node.seen, hhead]

namespace Trial

variable (h : Trial nodes net α flipped)
include h

/-- The first closure ends with all changes. -/
theorem exists_closed (hfollows : ∀ pre node post, net.finalized = pre ++ node :: post →
      net.Follows order α flipped pre node) :
    ∃ closed, net.compute order (unitsOf α) flipped = some closed ∧
      closed = order.entered α (net.fresh α flipped) flipped net.finalized := by
  have hrun : ∀ post pre state, net.finalized = pre ++ post →
      Reached order net α (net.fresh α flipped) flipped pre state →
        ∃ state', post.foldlM (net.computeNode order (unitsOf α)) state = some state' ∧
          Reached order net α (net.fresh α flipped) flipped net.finalized state' := by
    intro post
    induction post with
    | nil =>
        intro pre state hsplit hreached
        rw [List.append_nil] at hsplit
        exact ⟨state, rfl, hsplit ▸ hreached⟩
    | cons node post ih =>
        intro pre state hsplit hreached
        have hvalue := (h.follows_iff hsplit hreached).mp (hfollows pre node post hsplit)
        obtain ⟨next, hnext, hreached⟩ := h.updates.reached_step hsplit hreached hvalue.1 hvalue.2
        obtain ⟨state', hstate', hlast⟩ := ih (pre ++ [node]) next (by simp [hsplit]) hreached
        refine ⟨state', ?_, hlast⟩
        rw [List.foldlM_cons, hnext]
        exact hstate'
  obtain ⟨state, hstate, hreached⟩ := hrun net.finalized [] _ rfl h.updates.reached_initial
  exact ⟨state.1, compute_eq_of_run hstate, hreached.list⟩

variable (hclosed : closed = order.entered α (net.fresh α flipped) flipped net.finalized)
include hclosed

theorem mem_closed : v ∈ closed ↔ net.fresh α flipped v ≠ α v := by
  rw [hclosed, h.updates.mem_entered_finalized]

theorem nodup_closed : closed.Nodup := by
  rw [hclosed, perm_entered.nodup_iff]
  refine List.Nodup.append (h.updates.vars_finalized.filter _) h.ascending.nodup ?_
  intro v hvar hflipped
  obtain ⟨node, hnode, rfl⟩ := List.mem_map.mp (List.mem_filter.mp hvar).1
  exact h.updates.not_var_of_mem hflipped node hnode rfl

end Trial

section LeftFirst

variable (h : Trial nodes net α flipped)
variable (hclosed : closed =
  SwapOrder.leftFirst.entered α (net.fresh α flipped) flipped net.finalized)
include h hclosed

theorem Trial.ascending_closed : closed.Pairwise (· < ·) := by
  have hsorted := h.sorted_leftFirst net.finalized
  rw [← hclosed] at hsorted
  exact hsorted.imp₂ (fun _ _ hle hne => lt_of_le_of_ne hle hne) (h.nodup_closed hclosed)

variable (hagain : ReachedAgain net closed pre state)
include hagain

theorem Trial.marked_again_iff (hnode : node ∈ net.finalized) : node.var ∈ state.2 ↔
    ∃ k ∈ node.args.map Literal.number, net.fresh α flipped k ≠ α k := by
  rw [hagain.marks node hnode]
  exact exists_congr fun k => and_congr_right fun _ =>
    hagain.mem_iff.trans (h.mem_closed hclosed)

/-- `propagate` finds the new value of a marked node once more. -/
theorem Trial.propagate_again (hfollows : net.Follows .leftFirst α flipped net.finalized node)
    (hnode : node ∈ net.finalized) (hmark : node.var ∈ state.2) :
    node.propagate (unitsOf α) state.1 = net.fresh α flipped node.var := by
  have hread := (h.marked_again_iff hclosed hagain hnode).mp hmark
  rw [Node.propagate_eq (h.ascendingArgs node (h.mem_finalized.mp hnode)),
    hagain.seen_eq (h.ascending_closed hclosed), hclosed, hfollows.seen hread, h.fresh_var hnode]

theorem Trial.reachedAgain_step (hsplit : net.finalized = pre ++ node :: post)
    (hfollows : net.Follows .leftFirst α flipped net.finalized node) :
    ∃ state', net.computeNode .leftFirst (unitsOf α) state node = some state' ∧
      ReachedAgain net closed (pre ++ [node]) state' := by
  have hnode := OneNodeEach.node_mem hsplit
  have hnew := h.updates.later_notMem_pre hsplit (v := node.var) List.mem_cons_self
  have hmemPre : ∀ v, v ∈ (pre ++ [node]).map Node.var ↔ v ∈ pre.map Node.var ∨ v = node.var := by
    intro v
    simp
  have hmark : net.fresh α flipped node.var ≠ α node.var → node.var ∈ state.2 := by
    intro hchanged
    by_contra hmark
    refine hchanged (h.updates.kept node hnode fun k hk => ?_)
    by_contra hne
    exact hmark ((h.marked_again_iff hclosed hagain hnode).mpr ⟨k, hk, hne⟩)
  have hvalue := h.propagate_again hclosed hagain hfollows hnode
  unfold computeNode
  by_cases hchanged : net.fresh α flipped node.var = α node.var
  · have hkeep : ¬ Changes (unitsOf α) state node := fun hchanges =>
      (changes_iff.mp hchanges).2 ((hvalue hchanges.1).trans hchanged)
    have hnot : node.var ∉ closed := fun hmem => (h.mem_closed hclosed).mp hmem hchanged
    refine ⟨state, if_neg hkeep, hagain.sorted, fun v => ?_, hagain.marks⟩
    rw [hagain.count]
    simp only [hmemPre]
    by_cases hv : v = node.var
    · simp [hv, hnot]
    · simp [hv]
  · have hmark := hmark hchanged
    have hchanges : Changes (unitsOf α) state node :=
      changes_iff.mpr ⟨hmark, fun heq => hchanged ((hvalue hmark).symm.trans heq)⟩
    have hmem : node.var ∈ closed := (h.mem_closed hclosed).mpr hchanged
    have hindices := List.getElem?_eq_getElem (hfollows.indexed hchanged)
    refine ⟨_, by rw [if_pos hchanges, hindices]; rfl, ?_, fun v => ?_,
      h.updates.marksReaders_enter hagain.marks hindices⟩
    · rw [enter_leftFirst]
      exact sorted_insertFromBack hagain.sorted _
    · rw [(perm_enter .leftFirst state.1 node.var).count_eq, List.count_cons, hagain.count]
      simp only [hmemPre]
      by_cases hv : v = node.var
      · subst hv
        simp [hnew, hmem]
      · simp [hv, Ne.symm hv]

omit hagain in
/-- The second closure enters every changed variable of the net once more. -/
theorem Trial.exists_again_leftFirst
    (hfollows : ∀ node ∈ net.finalized, net.Follows .leftFirst α flipped net.finalized node) :
    ∃ again, net.compute .leftFirst (unitsOf α) closed = some again ∧
      ∀ v, again.count v =
        closed.count v + if v ∈ net.finalized.map Node.var ∧ v ∈ closed then 1 else 0 := by
  have hrun : ∀ post pre state, net.finalized = pre ++ post → ReachedAgain net closed pre state →
      ∃ state', post.foldlM (net.computeNode .leftFirst (unitsOf α)) state = some state' ∧
        ReachedAgain net closed net.finalized state' := by
    intro post
    induction post with
    | nil =>
        intro pre state hsplit hagain
        rw [List.append_nil] at hsplit
        exact ⟨state, rfl, hsplit ▸ hagain⟩
    | cons node post ih =>
        intro pre state hsplit hagain
        obtain ⟨next, hnext, hagain⟩ := h.reachedAgain_step hclosed hagain hsplit
          (hfollows node (OneNodeEach.node_mem hsplit))
        obtain ⟨state', hstate', hlast⟩ := ih (pre ++ [node]) next (by simp [hsplit]) hagain
        refine ⟨state', ?_, hlast⟩
        rw [List.foldlM_cons, hnext]
        exact hstate'
  have hstart : ReachedAgain net closed [] (closed, net.initialMarks closed) :=
    ⟨(h.ascending_closed hclosed).imp fun hlt => hlt.le, fun v => by simp,
      h.updates.marksReaders_initial closed⟩
  obtain ⟨state, hstate, hlast⟩ := hrun net.finalized [] _ rfl hstart
  exact ⟨state.1, compute_eq_of_run hstate, hlast.count⟩

end LeftFirst

namespace Trial

variable (h : Trial nodes net α flipped)
include h

/-- With the second argument first the second closure appends the changed variables again. -/
theorem exists_again_rightFirst
    (hclosed : net.compute .rightFirst (unitsOf α) flipped = some closed)
    (hlist : closed = SwapOrder.rightFirst.entered α (net.fresh α flipped) flipped net.finalized) :
    ∃ again, net.compute .rightFirst (unitsOf α) closed = some again ∧
      ∀ v, again.count v =
        closed.count v + if v ∈ net.finalized.map Node.var ∧ v ∈ closed then 1 else 0 := by
  have hnodup := h.nodup_closed hlist
  obtain ⟨entries, hentries, hsub, hagain⟩ :=
    h.updates.toOneNodeEach.compute_compute_rightFirst hclosed
  refine ⟨closed ++ entries, hagain, fun v => ?_⟩
  rw [hentries] at hnodup
  have hiff : v ∈ entries ↔ v ∈ net.finalized.map Node.var ∧ v ∈ closed := by
    rw [hentries, List.mem_append]
    constructor
    · exact fun hmem => ⟨hsub hmem, Or.inr hmem⟩
    · rintro ⟨hvar, hflipped | hmem⟩
      · obtain ⟨node, hnode, rfl⟩ := List.mem_map.mp hvar
        exact absurd rfl (h.updates.not_var_of_mem hflipped node hnode)
      · exact hmem
  rw [List.count_append, (List.nodup_append.mp hnodup).2.1.count, if_congr hiff rfl rfl]

/-- The second closure enters every changed variable of the net once more. -/
theorem exists_again (htwice : net.FollowsTwice order α flipped)
    (hclosed : net.compute order (unitsOf α) flipped = some closed)
    (hlist : closed = order.entered α (net.fresh α flipped) flipped net.finalized) :
    ∃ again, net.compute order (unitsOf α) closed = some again ∧
      ∀ v, again.count v =
        closed.count v + if v ∈ net.finalized.map Node.var ∧ v ∈ closed then 1 else 0 := by
  cases order with
  | leftFirst => exact h.exists_again_leftFirst hlist (htwice.second rfl)
  | rightFirst => exact h.exists_again_rightFirst hclosed hlist

variable (hlist : closed = order.entered α (net.fresh α flipped) flipped net.finalized)
include hlist

/-- What the second closure has listed twice keeps its value. -/
theorem toggle_again (hagain : ∀ v, again.count v =
      closed.count v + if v ∈ net.finalized.map Node.var ∧ v ∈ closed then 1 else 0) :
    HillClimbingSolver.toggle (unitsOf α) again = unitsOf (flipAll α flipped) := by
  funext v
  rw [HillClimbingSolver.toggle_eq_iterate, hagain, (h.nodup_closed hlist).count]
  by_cases hmem : v ∈ net.finalized.map Node.var
  · have hflipped : v ∉ flipped := by
      obtain ⟨node, hnode, rfl⟩ := List.mem_map.mp hmem
      exact h.inputs node (h.mem_finalized.mp hnode)
    have heven : Even ((if v ∈ closed then 1 else 0) +
        if v ∈ net.finalized.map Node.var ∧ v ∈ closed then 1 else 0) := by
      by_cases hv : v ∈ closed <;> simp [hmem, hv]
    rw [involutive_xor_one.iterate_even heven]
    simp [unitsOf, flipAll, hflipped]
  · have hfree : ∀ node ∈ net.finalized, node.var ≠ v := fun node hnode heq =>
      hmem (heq ▸ List.mem_map_of_mem hnode)
    have hinput : v ∈ closed ↔ v ∈ flipped := by
      rw [h.mem_closed hlist, h.updates.changed_iff_of_not_var hfree]
    unfold unitsOf flipAll
    by_cases hv : v ∈ flipped
    · simp only [hmem, hinput, hv, if_true, false_and, if_false, Nat.add_zero, decide_true,
        Function.iterate_one]
      cases α v <;> decide
    · simp [hmem, hinput, hv]

end Trial

/-- The closure lists every change once; its own closure lists the changed variables of the net
twice, so that inverting all that it lists inverts the inputs only. -/
theorem compute_compute (h : Trial nodes net α flipped)
    (htwice : net.FollowsTwice order α flipped) :
    ∃ closed again, net.compute order (unitsOf α) flipped = some closed ∧
      net.compute order (unitsOf α) closed = some again ∧
      (∀ v, closed.count v = if net.fresh α flipped v = α v then 0 else 1) ∧
      (∀ v, again.count v = if net.fresh α flipped v = α v then 0
        else if v ∈ nodes.map Node.var then 2 else 1) ∧
      HillClimbingSolver.toggle (unitsOf α) again = unitsOf (flipAll α flipped) := by
  obtain ⟨closed, hclosed, hlist⟩ := h.exists_closed htwice.first
  obtain ⟨again, hagain, hcount⟩ := h.exists_again htwice hclosed hlist
  have honce : ∀ v, closed.count v = if net.fresh α flipped v = α v then 0 else 1 := by
    intro v
    have hmem := h.mem_closed hlist (v := v)
    rw [(h.nodup_closed hlist).count]
    by_cases hv : net.fresh α flipped v = α v <;> simp [hmem, hv]
  refine ⟨closed, again, hclosed, hagain, honce, fun v => ?_, h.toggle_again hlist hcount⟩
  have hvars : v ∈ net.finalized.map Node.var ↔ v ∈ nodes.map Node.var :=
    (h.finalizes.perm.map Node.var).mem_iff
  have hmem := h.mem_closed hlist (v := v)
  rw [hcount, honce]
  by_cases hv : net.fresh α flipped v = α v
  · simp [hmem, hv]
  · rw [if_neg hv, if_neg hv]
    by_cases hvar : v ∈ nodes.map Node.var <;> simp [hmem, hvars, hv, hvar]

theorem followsTwice_conjunctions (order : SwapOrder) :
    conjunctions.FollowsTwice order (fun _ => false) [1, 2] where
  first pre node post hsplit := by
    rcases pre with _ | ⟨first, _ | ⟨second, pre⟩⟩
    · obtain ⟨rfl, -⟩ := List.cons.inj hsplit
      exact ⟨fun _ => by decide, fun _ => by cases order <;> decide +kernel⟩
    · obtain ⟨rfl, hrest⟩ := List.cons.inj hsplit
      obtain ⟨rfl, -⟩ := List.cons.inj hrest
      exact ⟨fun hne => absurd (by decide +kernel) hne,
        fun _ => by cases order <;> decide +kernel⟩
    · simp [conjunctions] at hsplit
  second horder node hnode := by
    subst horder
    simp only [conjunctions, List.mem_cons, List.not_mem_nil, or_false] at hnode
    rcases hnode with rfl | rfl
    · exact ⟨fun _ => by decide, fun _ => by decide +kernel⟩
    · exact ⟨fun hne => absurd (by decide +kernel) hne, fun _ => by decide +kernel⟩

theorem compute_compute_conjunctions : ∃ again,
    conjunctions.compute .rightFirst (unitsOf fun _ => false) [1, 2, 3] = some again ∧
      again.count 3 = 2 := by
  obtain ⟨closed, again, hclosed, hagain, -, hcount, -⟩ :=
    compute_compute trial_conjunctions (followsTwice_conjunctions .rightFirst)
  obtain rfl : closed = [1, 2, 3] := Option.some.inj (hclosed.symm.trans (by decide +kernel))
  exact ⟨again, hagain, (hcount 3).trans (by decide +kernel)⟩

end LatinSquares.LocalSearch.Net

namespace LatinSquares.LocalSearch.HillClimbingSolver

open LatinSquares.Math Net

/-- All books are exact for `α`, and the variables of the net have the values of their nodes. -/
structure Sound (nodes : List Node) (toCompute : Finset Nat) (fixed : Set Nat)
    (s : HillClimbingSolver) (α : Nat → Bool) : Prop where
  ledger : Ledger s α toCompute fixed
  respects : ∀ node ∈ nodes, α node.var = node.eval α

/-- The flips of a move on which both closures do what they should. -/
structure Admissible (order : SwapOrder) (nodes : List Node) (fixed : Set Nat)
    (s : HillClimbingSolver) (α : Nat → Bool) (flipped : List Nat) : Prop where
  trial : Trial nodes s.net α flipped
  follows : s.net.FollowsTwice order α flipped
  free : ∀ v ∈ flipped, v ∉ fixed

/-- A move that changes no variable of the net. -/
def KeepsNet (nodes : List Node) (s : HillClimbingSolver) (α : Nat → Bool)
    (flipped : List Nat) : Prop :=
  ∀ node ∈ nodes, s.net.fresh α flipped node.var = α node.var

/-- The bags of accepted moves, one after the other; every state on the way satisfies `P`. -/
def AllStates (order : SwapOrder) (P : HillClimbingSolver → Prop) (s : HillClimbingSolver) :
    List (List (Nat × Nat)) → Prop
  | [] => P s
  | bag :: bags => P s ∧ ∀ s', s.accept order bag = some s' → AllStates order P s' bags

/-- Every accepted move satisfies `P`, with the assignment it starts from and its flips. -/
def AllMoves (order : SwapOrder) (P : HillClimbingSolver → (Nat → Bool) → List Nat → Prop)
    (s : HillClimbingSolver) : List (List (Nat × Nat)) → Prop
  | [] => True
  | bag :: bags => ∀ s', s.accept order bag = some s' →
      (∀ α flipped, s.propagated = unitsOf α → s.flipped bag = some flipped → P s α flipped) ∧
        AllMoves order P s' bags

variable {nodes : List Node} {toCompute : Finset Nat} {fixed : Set Nat}
variable {s s' : HillClimbingSolver} {α β : Nat → Bool} {bag : List (Nat × Nat)}
variable {bags : List (List (Nat × Nat))} {flipped : List Nat} {order : SwapOrder}

theorem unitsOf_injective : Function.Injective unitsOf := by
  intro α β heq
  funext v
  have hinjective : ∀ a b : Bool, a.toUInt8 = b.toUInt8 → a = b := by decide
  exact hinjective _ _ (congrFun heq v)

theorem AllStates.head {P : HillClimbingSolver → Prop} (h : AllStates order P s bags) : P s := by
  cases bags with
  | nil => exact h
  | cons bag bags => exact h.1

/-- An accepted move commits the closure of the closure. -/
theorem exists_closures (haccept : s.accept order bag = some s')
    (hflipped : s.flipped bag = some flipped) :
    ∃ closed again, s.net.compute order s.propagated flipped = some closed ∧
      s.net.compute order s.propagated closed = some again ∧
      s'.propagated = toggle s.propagated again ∧
      ∃ next, s.applyFlipped order closed = some next ∧
        s' = { next with metaValues := s'.metaValues } := by
  obtain ⟨flips, hflips, haccept⟩ := Option.bind_eq_some_iff.mp haccept
  cases hflipped.symm.trans hflips
  obtain ⟨⟨improves, closed⟩, hcheck, haccept⟩ := Option.bind_eq_some_iff.mp haccept
  obtain ⟨closed₀, hclosed, hresult⟩ := Option.bind_eq_some_iff.mp hcheck
  cases hresult
  obtain ⟨_, -, haccept⟩ := Option.bind_eq_some_iff.mp haccept
  obtain ⟨next, hnext, haccept⟩ := Option.bind_eq_some_iff.mp haccept
  obtain ⟨metaValues, -, haccept⟩ := Option.bind_eq_some_iff.mp haccept
  cases haccept
  refine ⟨closed, ?_⟩
  obtain ⟨again, hagain, happlied⟩ := Option.bind_eq_some_iff.mp hnext
  cases happlied
  exact ⟨again, hclosed, hagain, rfl, _, hnext, rfl⟩

theorem Ledger.withMetaValues (h : Ledger s α toCompute fixed)
    (metaValues : List (List (List UInt32))) :
    Ledger { s with metaValues := metaValues } α toCompute fixed :=
  ⟨h.propagated, h.toCompute_lt, h.fits, h.positive, h.negative, h.count, h.satisfied,
    h.satisfiedSum, h.satisfiedCount, h.literalToUnsat⟩

/-- What an accepted move does to the assignment: its inputs are inverted, and the variables of
the net stay as they were. -/
theorem Admissible.propagated_eq (h : Admissible order nodes fixed s α flipped)
    (hunits : s.propagated = unitsOf α) (hflipped : s.flipped bag = some flipped)
    (haccept : s.accept order bag = some s') : s'.propagated = unitsOf (flipAll α flipped) := by
  obtain ⟨closed, again, hclosed, hagain, htoggle, -⟩ := exists_closures haccept hflipped
  rw [hunits] at hclosed hagain htoggle
  obtain ⟨closed', hclosed', hlist⟩ := h.trial.exists_closed h.follows.first
  cases hclosed.symm.trans hclosed'
  obtain ⟨again', hagain', hcount⟩ := h.trial.exists_again h.follows hclosed hlist
  cases hagain.symm.trans hagain'
  rw [htoggle, h.trial.toggle_again hlist hcount]

/-- Where the new assignment respects the nodes, none of them has changed. -/
theorem Admissible.keepsNet (h : Admissible order nodes fixed s α flipped)
    (hrespects : ∀ node ∈ nodes, flipAll α flipped node.var = node.eval (flipAll α flipped)) :
    KeepsNet nodes s α flipped := by
  intro node hnode
  have hdefinitions : Respects s.net.definitions (flipAll α flipped) :=
    forall_mem_definitions.mpr fun node hnode => hrespects node (h.trial.mem_finalized.mp hnode)
  rw [fresh, recompute_of_respects hdefinitions, flipAll]
  simp [h.trial.inputs node hnode]

/-- Where no node changes, the move leads to the recomputed assignment. -/
theorem Admissible.fresh_eq (h : Admissible order nodes fixed s α flipped)
    (hkeeps : KeepsNet nodes s α flipped) : s.net.fresh α flipped = flipAll α flipped := by
  funext v
  cases mem_or_not_var s.net v with
  | inl hvar =>
      obtain ⟨node, hnode, rfl⟩ := List.mem_map.mp hvar
      have hnode := h.trial.mem_finalized.mp hnode
      rw [hkeeps node hnode, flipAll]
      simp [h.trial.inputs node hnode]
  | inr hinput => exact Trial.fresh_of_not_var hinput

/-- Without a change in the net the closures add nothing. -/
theorem Admissible.compute_eq (h : Admissible order nodes fixed s α flipped)
    (hkeeps : KeepsNet nodes s α flipped) :
    s.net.compute order (unitsOf α) flipped = some flipped := by
  obtain ⟨closed, hclosed, hlist⟩ := h.trial.exists_closed h.follows.first
  have hnone : ((s.net.finalized.map Node.var).filter fun v =>
      s.net.fresh α flipped v != α v) = [] := by
    rw [List.filter_eq_nil_iff, List.forall_mem_map]
    intro node hnode
    simp [hkeeps node (h.trial.mem_finalized.mp hnode)]
  rw [SwapOrder.entered, hnone] at hlist
  rw [hclosed, hlist]
  rfl

/-- After an accepted move the state is sound for some assignment exactly if the move has
changed no variable of the net. -/
theorem Sound.accept_iff (h : Sound nodes toCompute fixed s α)
    (hmove : Admissible order nodes fixed s α flipped) (hflipped : s.flipped bag = some flipped)
    (haccept : s.accept order bag = some s') :
    (∃ β, Sound nodes toCompute fixed s' β) ↔ KeepsNet nodes s α flipped := by
  have hunits := hmove.propagated_eq h.ledger.propagated hflipped haccept
  constructor
  · rintro ⟨β, hledger, hrespects⟩
    have hβ : β = flipAll α flipped := unitsOf_injective (hledger.propagated.symm.trans hunits)
    subst hβ
    exact hmove.keepsNet hrespects
  · intro hkeeps
    obtain ⟨closed, again, hclosed, hagain, -, next, hnext, heq⟩ :=
      exists_closures haccept hflipped
    have hsame := hmove.compute_eq hkeeps
    rw [← h.ledger.propagated] at hsame
    cases hclosed.symm.trans hsame
    obtain ⟨next', hnext', hledger, -⟩ :=
      h.ledger.exists_applied hsame hmove.trial.ascending.nodup hmove.free
    cases hnext.symm.trans hnext'
    refine ⟨flipAll α flipped, heq ▸ hledger.withMetaValues _, fun node hnode => ?_⟩
    rw [← hmove.fresh_eq hkeeps]
    exact hmove.trial.fresh_var (hmove.trial.mem_finalized.mpr hnode)

/-- Along a run of accepted moves the books and the net stay sound in every state exactly if no
move changes a variable of the net. -/
theorem Sound.allStates_iff (h : Sound nodes toCompute fixed s α)
    (hmoves : AllMoves order (fun s α flipped => Sound nodes toCompute fixed s α →
      Admissible order nodes fixed s α flipped) s bags) :
    AllStates order (fun s => ∃ α, Sound nodes toCompute fixed s α) s bags ↔
      AllMoves order (KeepsNet nodes) s bags := by
  induction bags generalizing s α with
  | nil => exact iff_of_true ⟨α, h⟩ trivial
  | cons bag bags ih =>
      constructor
      · intro hstates s' haccept
        obtain ⟨hmove, hrest⟩ := hmoves s' haccept
        have hnext := hstates.2 s' haccept
        have hsound : ∃ β, Sound nodes toCompute fixed s' β := hnext.head
        refine ⟨fun γ flipped hγ hflipped => ?_, ?_⟩
        · obtain rfl : γ = α := unitsOf_injective (hγ.symm.trans h.ledger.propagated)
          exact (h.accept_iff (hmove γ flipped hγ hflipped h) hflipped haccept).mp hsound
        · obtain ⟨β, hβ⟩ := hsound
          exact (ih hβ hrest).mp hnext
      · intro hkeeps
        refine ⟨⟨α, h⟩, fun s' haccept => ?_⟩
        obtain ⟨hmove, hrest⟩ := hmoves s' haccept
        obtain ⟨hkeep, hkeeps⟩ := hkeeps s' haccept
        obtain ⟨flipped, hflipped, -⟩ := Option.bind_eq_some_iff.mp haccept
        have hunits := h.ledger.propagated
        have hmove := hmove α flipped hunits hflipped h
        obtain ⟨β, hβ⟩ :=
          (h.accept_iff hmove hflipped haccept).mpr (hkeep α flipped hunits hflipped)
        exact (ih hβ hrest).mpr hkeeps

/-- The three clauses with a cell whose only value sets the variables `1` and `2`. The node `3`
changes with them. -/
def oneNode : HillClimbingSolver where
  __ := threeClauses
  metaVariables := [⟨0, 0, 0, [[⟨1, true⟩, ⟨2, true⟩]], [1]⟩]
  metaValues := [[[0]]]

theorem sound_oneNode : Sound conjunctions.finalized {0, 1, 2} ∅ oneNode fun _ => false where
  ledger :=
    { propagated := rfl
      toCompute_lt := by decide
      fits := by decide
      positive := ledger_threeClauses.positive
      negative := ledger_threeClauses.negative
      count := by decide
      satisfied := by decide
      satisfiedSum := by decide
      satisfiedCount := by decide
      literalToUnsat := ledger_threeClauses.literalToUnsat }
  respects := by decide

theorem not_allStates_oneNode : ¬ AllStates .rightFirst
    (fun s => ∃ α, Sound conjunctions.finalized {0, 1, 2} ∅ s α) oneNode [[(0, 0)]] := by
  have hflipped : oneNode.flipped [(0, 0)] = some [1, 2] := by decide +kernel
  have hmoves : AllMoves .rightFirst (fun s α flipped =>
      Sound conjunctions.finalized {0, 1, 2} ∅ s α →
        Admissible .rightFirst conjunctions.finalized ∅ s α flipped) oneNode [[(0, 0)]] := by
    refine fun s' _ => ⟨fun α flipped hunits hflips _ => ?_, trivial⟩
    obtain rfl : α = fun _ => false := unitsOf_injective hunits.symm
    cases hflipped.symm.trans hflips
    exact ⟨trial_conjunctions, followsTwice_conjunctions .rightFirst, fun _ _ => id⟩
  rw [sound_oneNode.allStates_iff hmoves]
  intro hkeeps
  have haccept : (oneNode.accept .rightFirst [(0, 0)]).isSome := by decide +kernel
  obtain ⟨s', hs'⟩ := Option.isSome_iff_exists.mp haccept
  have hkeep := (hkeeps s' hs').1 (fun _ => false) [1, 2] rfl hflipped
  exact absurd (hkeep (.andIff 3 [⟨1, true⟩, ⟨2, true⟩]) (by decide)) (by decide +kernel)

end LatinSquares.LocalSearch.HillClimbingSolver
