/-
# Closures whose new entries stay at the end

With the second argument of `std::swap` first, `compute` appends the variables that change. On the
list it has extended it finds the same changes once more: the entries behind the ones a node had
found the first time belong to later nodes, and an entry that comes again moves no cursor.
-/

import LatinSquares.LocalSearch.Closure

namespace LatinSquares.LocalSearch.Net

open LatinSquares.Math

variable {nodes pre post : List Node} {net : Net} {units : Units} {node : Node}
variable {flipped closed entries later : List Nat} {state state' again : List Nat × List Nat}

/-- The rounds append variables of their nodes. -/
theorem foldlM_computeNode_append
    (h : post.foldlM (net.computeNode .rightFirst units) state = some state') :
    ∃ entries, state'.1 = state.1 ++ entries ∧ entries ⊆ post.map Node.var := by
  induction post generalizing state with
  | nil =>
      cases h
      exact ⟨[], (List.append_nil _).symm, List.nil_subset _⟩
  | cons node post ih =>
      rw [List.foldlM_cons] at h
      obtain ⟨middle, hstep, hrest⟩ := Option.bind_eq_some_iff.mp h
      obtain ⟨entries, hentries, hsub⟩ := ih hrest
      rcases computeNode_cases hstep with ⟨-, -, hlist⟩ | ⟨-, rfl⟩
      · refine ⟨node.var :: entries, ?_, List.cons_subset_cons _ hsub⟩
        rw [hentries, hlist, enter_rightFirst, List.append_assoc, List.singleton_append]
      · exact ⟨entries, hentries, List.subset_cons_of_subset _ hsub⟩

namespace OneNodeEach

variable (h : OneNodeEach nodes net)
include h

/-- A node that comes to the list again, with `later` from the nodes behind it and `entries` from
the ones before, changes as it did. -/
theorem changes_again (hsplit : net.finalized = pre ++ node :: post)
    (hmarks : net.MarksReaders state) (hmarks' : net.MarksReaders again)
    (hlater : later ⊆ (node :: post).map Node.var) (hentries : entries ⊆ state.1)
    (hagain : again.1 = state.1 ++ (later ++ entries)) :
    Changes units again node ↔ Changes units state node := by
  have hnode := OneNodeEach.node_mem hsplit
  have hread : ∀ k ∈ node.args.map Literal.number, k ∈ again.1 ↔ k ∈ state.1 := by
    intro k hk
    have hnot : k ∉ later := fun hmem => h.read_notMem hsplit hk (hlater hmem)
    rw [hagain, List.mem_append, List.mem_append, or_iff_right hnot,
      or_iff_left_of_imp fun hmem => hentries hmem]
  have hmark : node.var ∈ again.2 ↔ node.var ∈ state.2 := by
    rw [hmarks' node hnode, hmarks node hnode]
    exact exists_congr fun k => and_congr_right fun hk => hread k hk
  have hrecord : ∀ k ∈ node.args.map Literal.number,
      k ∈ records again.1 ↔ k ∈ records state.1 := by
    intro k hk
    rw [hagain, mem_records_append, or_iff_left]
    rintro ⟨hmem, hall⟩
    have hk' : k ∈ state.1 := by
      rw [← hread k hk, hagain]
      exact List.mem_append_right _ (mem_of_mem_records hmem)
    exact lt_irrefl k (hall k hk')
  unfold Changes
  rw [hmark]
  apply and_congr_right
  intro hmarked
  obtain ⟨k, -, hmem⟩ := (hmarks node hnode).mp hmarked
  have hhead : again.1.head? = state.1.head? := by
    rw [hagain, List.head?_append_of_ne_nil _ (List.ne_nil_of_mem hmem)]
  rw [Node.propagate_congr units node hrecord hhead]

/-- From a split of the net on, the second closure takes the entries of the first one again. -/
theorem foldlM_computeNode_again (hsplit : net.finalized = pre ++ post)
    (hmarks : net.MarksReaders state) (hmarks' : net.MarksReaders again)
    (hrun : post.foldlM (net.computeNode .rightFirst units) state = some state')
    (hlater : state'.1 = state.1 ++ later) (hentries : entries ⊆ state.1)
    (hagain : again.1 = state.1 ++ (later ++ entries)) :
    ∃ last, post.foldlM (net.computeNode .rightFirst units) again = some last ∧
      last.1 = again.1 ++ later := by
  induction post generalizing pre state again later entries with
  | nil =>
      cases hrun
      have hnil : later = [] := List.self_eq_append_right.mp hlater
      exact ⟨again, rfl, by rw [hnil, List.append_nil]⟩
  | cons node post ih =>
      rw [List.foldlM_cons] at hrun
      obtain ⟨middle, hstep, hrest⟩ := Option.bind_eq_some_iff.mp hrun
      obtain ⟨rest, hrestEntries, hsub⟩ := foldlM_computeNode_append hrest
      have hsplit' : net.finalized = (pre ++ [node]) ++ post := by rw [hsplit]; simp
      have hmarksMiddle := h.marksReaders_step hmarks hstep
      rcases computeNode_cases hstep with ⟨hchanges, hlength, hlist⟩ | ⟨hkeep, rfl⟩
      · rw [enter_rightFirst] at hlist
        have hcons : later = node.var :: rest := by
          rw [hrestEntries, hlist, List.append_assoc] at hlater
          exact (List.append_cancel_left hlater).symm
        subst hcons
        have hlaterSub : node.var :: rest ⊆ (node :: post).map Node.var :=
          List.cons_subset_cons _ hsub
        have hchanges' := (h.changes_again hsplit hmarks hmarks' hlaterSub hentries hagain).mpr
          hchanges
        have hnext : net.computeNode .rightFirst units again node =
            some (SwapOrder.rightFirst.enter again.1 node.var,
              again.2 ++ net.nodeVars net.literalToNodes[node.var]) := by
          rw [computeNode, if_pos hchanges', List.getElem?_eq_getElem hlength]
          rfl
        have hentries' : entries ++ [node.var] ⊆ middle.1 := by
          rw [hlist]
          apply List.append_subset.mpr
          exact ⟨List.subset_append_of_subset_left _ hentries, List.subset_append_right _ _⟩
        have hagain' : SwapOrder.rightFirst.enter again.1 node.var =
            middle.1 ++ (rest ++ (entries ++ [node.var])) := by
          rw [enter_rightFirst, hagain, hlist]
          simp
        obtain ⟨last, hlast, hlastList⟩ := ih hsplit' hmarksMiddle
          (h.marksReaders_step hmarks' hnext) hrest hrestEntries hentries' hagain'
        refine ⟨last, ?_, ?_⟩
        · rw [List.foldlM_cons, hnext]
          exact hlast
        · rw [hlastList, enter_rightFirst, List.append_assoc, List.singleton_append]
      · have hlater' : later = rest := by
          rw [hrestEntries] at hlater
          exact (List.append_cancel_left hlater).symm
        subst hlater'
        have hkeep' : ¬ Changes units again node := fun hchanges => hkeep
          ((h.changes_again hsplit hmarks hmarks' (List.subset_cons_of_subset _ hsub) hentries
            hagain).mp hchanges)
        obtain ⟨last, hlast, hlastList⟩ := ih hsplit' hmarks hmarks' hrest hrestEntries hentries
          hagain
        refine ⟨last, ?_, hlastList⟩
        rw [List.foldlM_cons, computeNode, if_neg hkeep']
        exact hlast

/-- With the second argument first, a closure that is closed again gets the same entries once
more. -/
theorem compute_compute_rightFirst (hclosed : net.compute .rightFirst units flipped = some closed) :
    ∃ entries, closed = flipped ++ entries ∧ entries ⊆ net.finalized.map Node.var ∧
      net.compute .rightFirst units closed = some (closed ++ entries) := by
  obtain ⟨state, hrun, hstate⟩ := Option.bind_eq_some_iff.mp hclosed
  obtain rfl := Option.some.inj hstate
  obtain ⟨entries, hentries, hsub⟩ := foldlM_computeNode_append hrun
  have hsplit : net.finalized = [] ++ net.finalized := rfl
  obtain ⟨last, hlast, hlist⟩ := h.foldlM_computeNode_again hsplit
    (h.marksReaders_initial flipped) (h.marksReaders_initial state.1) hrun hentries
    (List.nil_subset flipped) (by rw [List.append_nil, hentries])
  refine ⟨entries, hentries, hsub, ?_⟩
  rw [compute_eq_of_run hlast, hlist]

end OneNodeEach

end LatinSquares.LocalSearch.Net
