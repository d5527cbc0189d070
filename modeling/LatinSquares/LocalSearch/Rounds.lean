/-
# Rounds with many workers

`solve` commits what the workers of a round leave behind: the flip list of the worker that was last
in `solution`, and the values of all that have written to `newMetaValues`. If at most one worker
writes, the round is a move of a single worker or changes nothing. If several do, the values of the
earlier ones stay in `metaValues` although their flips are not committed.
-/

import LatinSquares.LocalSearch.Certificate
import LatinSquares.LocalSearch.Session

namespace LatinSquares.LocalSearch

open LatinSquares.Math

namespace Round

/-- What happens in a round: the list of bags after the shuffle, what the workers find in their
shares, and the order of the events. -/
structure Schedule where
  thread_count : Nat
  allPermutationIndices : List Combination
  bags : Fin thread_count → List (Option Move)
  events : List (Event thread_count)

/-- The variables of the round when `wait_for_tasks_conditional` has returned. -/
def Schedule.outcome (r : Schedule) : State r.thread_count := (start r.bags).run r.events

/-- No worker reads the unset flag while another one is about to set it. -/
def Schedule.Apart (r : Schedule) : Prop := AllApart (start r.bags) r.events

/-- The cell of an entry of `newMetaValues`. -/
def entryPlace (entry : Nat × Nat × Nat × Nat) : Nat × Nat × Nat :=
  (entry.1, entry.2.1, entry.2.2.1)

/-- The value of a cell after the entries of `newMetaValues` are written. -/
def valueAfter (entries : List (Nat × Nat × Nat × Nat)) (place : Nat × Nat × Nat)
    (value : Option UInt32) : Option UInt32 :=
  entries.foldl (fun value entry =>
    if entryPlace entry = place then some (UInt32.ofNat entry.2.2.2) else value) value

/-- The values that are written, apart from those of the bag of `solution`, are there already. -/
def Schedule.Tidy (r : Schedule) (metaValues : List (List (List UInt32))) : Prop :=
  r.outcome.isSolutionFound = true → ∃ w move earlier, some move ∈ r.bags w ∧
    r.outcome.solution = move.flipped ∧ r.outcome.newMetaValues = earlier ++ move.metaValues ∧
    ∀ place ∉ move.metaValues.map entryPlace,
      valueAfter r.outcome.newMetaValues place (metaValueAt metaValues place) =
        metaValueAt metaValues place

variable {workers : Nat} {bags : Fin workers → List (Option Move)} {events : List (Event workers)}

variable {entries entries' : List (Nat × Nat × Nat × Nat)} {place : Nat × Nat × Nat}

theorem valueAfter_append (entries entries' : List (Nat × Nat × Nat × Nat))
    (place : Nat × Nat × Nat) (value : Option UInt32) :
    valueAfter (entries ++ entries') place value =
      valueAfter entries' place (valueAfter entries place value) :=
  List.foldl_append

theorem valueAfter_of_not_mem (h : place ∉ entries.map entryPlace) (value : Option UInt32) :
    valueAfter entries place value = value := by
  induction entries generalizing value with
  | nil => rfl
  | cons entry entries ih =>
      obtain ⟨hne, hrest⟩ := not_or.mp (mt List.mem_cons.mpr h)
      unfold valueAfter at ih ⊢
      rw [List.foldl_cons, if_neg (Ne.symm hne), ih hrest]

/-- Entries for a cell leave nothing of its value. -/
theorem valueAfter_of_mem (h : place ∈ entries.map entryPlace) (value value' : Option UInt32) :
    valueAfter entries place value = valueAfter entries place value' := by
  induction entries generalizing value value' with
  | nil => cases h
  | cons entry entries ih =>
      unfold valueAfter at ih ⊢
      rw [List.foldl_cons, List.foldl_cons]
      rcases List.mem_cons.mp h with rfl | hrest
      · rw [if_pos rfl, if_pos rfl]
      · exact ih hrest _ _

/-- What is left of a round: the moves that have been written, the last one to `solution`. -/
theorem exists_written (hfinished : ((start bags).run events).Finished) :
    ∃ written : List Move, (∀ move ∈ written, ∃ w, some move ∈ bags w) ∧
      ((start bags).run events).solution = (written.getLast?.map Move.flipped).getD [] ∧
      ((start bags).run events).newMetaValues = written.flatMap Move.metaValues ∧
      (((start bags).run events).isSolutionFound = true ↔ written ≠ []) ∧
      (AllApart (start bags) events ↔ written.length ≤ 1) := by
  have hzero : claimed (start bags) [] = 0 := by simp [claimed, start, Phase.claims]
  have hunset : (start bags).isSolutionFound ≠ true := by simp [start]
  have hstart : Invariant bags (start bags) [] := invariant_start
  obtain ⟨written, hlast, hfound, hiff⟩ := hstart.run
    (by rw [hzero]; exact Nat.zero_le 1) (fun hflag => absurd hflag hunset) events
  have hclaimed : claimed ((start bags).run events) written = written.length := by
    simp [claimed, hfinished _, Phase.claims]
  rw [hclaimed] at hfound hiff
  refine ⟨written, hlast.written_mem, hlast.solution, ?_, ⟨?_, ?_⟩, hiff⟩
  · exact hlast.values.2 fun w rest heq => by simp [hfinished w] at heq
  · intro hflag hnil
    have hone := hfound hflag
    simp [hnil] at hone
  · intro hne
    by_contra hflag
    exact hne (hlast.announced (Bool.eq_false_iff.mpr hflag)).1

end Round

namespace HillClimbingSolver

/-- `metaValues[get<0>(mv)][get<1>(mv)][get<2>(mv)] = get<3>(mv)`. -/
def writeEntry (metaValues : List (List (List UInt32))) (mv : Nat × Nat × Nat × Nat) :
    Option (List (List (List UInt32))) :=
  if (metaValueAt metaValues (mv.1, mv.2.1, mv.2.2.1)).isSome then
    some (metaValues.modify mv.1 fun rows =>
      rows.modify mv.2.1 fun row => row.set mv.2.2.1 (UInt32.ofNat mv.2.2.2))
  else none

/-- The end of a round: `solution` and `newMetaValues` are committed if there is a solution. -/
def commit (order : SwapOrder) {workers : Nat} (s : HillClimbingSolver)
    (round : Round.State workers) : Option HillClimbingSolver :=
  if round.isSolutionFound then do
    let next ← s.applyFlipped order round.solution
    let metaValues ← round.newMetaValues.foldlM writeEntry s.metaValues
    return { next with metaValues }
  else some s

/-- A round that can take place in a state. -/
structure Takes (order : SwapOrder) (s : HillClimbingSolver) (fuel : Nat) (r : Round.Schedule) :
    Prop where
  nodup : ∀ bag ∈ r.allPermutationIndices, bag.Nodup
  searches : s.Searches order fuel r.allPermutationIndices r.bags
  finished : r.outcome.Finished

/-- `P` holds of every round of a run, with the states before and after it. -/
def AllRounds (order : SwapOrder)
    (P : HillClimbingSolver → Round.Schedule → HillClimbingSolver → Prop)
    (s : HillClimbingSolver) : List Round.Schedule → Prop
  | [] => True
  | r :: rounds => ∀ s', s.commit order r.outcome = some s' → P s r s' ∧ AllRounds order P s' rounds

/-- The rounds of a run, one after the other. -/
def runRounds (order : SwapOrder) (s : HillClimbingSolver) (rounds : List Round.Schedule) :
    Option HillClimbingSolver :=
  rounds.foldlM (fun s r => s.commit order r.outcome) s

section Moves

variable {order : SwapOrder} {s s' : HillClimbingSolver} {fuel : Nat} {r : Round.Schedule}
variable {bag : Combination}
variable {permIndices : List Nat} {move : Move}
variable {metaValues metaValues' : List (List (List UInt32))}

/-- The entry of `newMetaValues` for a value. -/
def entryOf (c : MetaVariable × List Literal × UInt8) : Nat × Nat × Nat × Nat :=
  (c.1.place.1, c.1.place.2.1, c.1.place.2.2, c.2.2.toNat)

theorem entryPlace_entryOf (c : MetaVariable × List Literal × UInt8) :
    Round.entryPlace (entryOf c) = c.1.place := rfl

theorem writeEntry_entryOf (metaValues : List (List (List UInt32)))
    (c : MetaVariable × List Literal × UInt8) :
    writeEntry metaValues (entryOf c) = c.1.setValue metaValues c.2.2 := by
  unfold writeEntry MetaVariable.setValue entryOf
  simp only [UInt32.ofNat_uInt8ToNat]
  rfl

theorem foldlM_writeEntry (candidates : List (MetaVariable × List Literal × UInt8))
    (metaValues : List (List (List UInt32))) :
    (candidates.map entryOf).foldlM writeEntry metaValues =
      candidates.foldlM (fun metaValues c => c.1.setValue metaValues c.2.2) metaValues := by
  rw [List.foldlM_map]
  simp only [writeEntry_entryOf]

theorem metaValueAt_writes {candidates : List (MetaVariable × List Literal × UInt8)}
    (h : (candidates.map entryOf).foldlM writeEntry metaValues = some metaValues')
    (place : Nat × Nat × Nat) : metaValueAt metaValues' place =
      Round.valueAfter (candidates.map entryOf) place (metaValueAt metaValues place) := by
  rw [foldlM_writeEntry] at h
  induction candidates generalizing metaValues with
  | nil =>
      cases h
      rfl
  | cons c candidates ih =>
      rw [List.foldlM_cons] at h
      obtain ⟨middle, hfirst, hrest⟩ := Option.bind_eq_some_iff.mp h
      rw [ih hrest, metaValueAt_setValue hfirst, List.map_cons, Round.valueAfter, Round.valueAfter,
        List.foldl_cons, entryPlace_entryOf]
      simp only [eq_comm (a := place), entryOf, UInt32.ofNat_uInt8ToNat]

/-- The entries are written if and only if there are cells for them. -/
theorem exists_writes_iff {candidates : List (MetaVariable × List Literal × UInt8)} :
    (∃ metaValues', (candidates.map entryOf).foldlM writeEntry metaValues = some metaValues') ↔
      ∀ c ∈ candidates, (metaValueAt metaValues c.1.place).isSome = true := by
  rw [foldlM_writeEntry]
  induction candidates generalizing metaValues with
  | nil => simp
  | cons c candidates ih =>
      rw [List.foldlM_cons, List.forall_mem_cons]
      constructor
      · rintro ⟨metaValues', h⟩
        obtain ⟨middle, hfirst, hrest⟩ := Option.bind_eq_some_iff.mp h
        have hroom := ih.mp ⟨metaValues', hrest⟩
        simp only [isSome_setValue hfirst] at hroom
        refine ⟨?_, hroom⟩
        unfold MetaVariable.setValue at hfirst
        split at hfirst
        · next hsome => exact hsome
        · cases hfirst
      · rintro ⟨hfirst, hrest⟩
        obtain ⟨middle, hmiddle⟩ := exists_setValue hfirst c.2.2
        obtain ⟨metaValues', h⟩ := ih.mpr fun c' hc' =>
          (isSome_setValue hmiddle c'.1.place).trans (hrest c' hc')
        refine ⟨metaValues', ?_⟩
        rw [hmiddle]
        exact h

/-- What a worker reports is an improving move of a bag with values. -/
structure Reports (order : SwapOrder) (s : HillClimbingSolver) (move : Move)
    (bag : List (Nat × Nat)) (candidates : List (MetaVariable × List Literal × UInt8)) : Prop where
  nodup : (bag.map Prod.fst).Nodup
  found : bag.mapM s.candidate = some candidates
  improves : ∃ flipped, s.flipped bag = some flipped ∧
    s.checkFlipped order flipped = some (true, move.flipped)
  metaValues : move.metaValues = candidates.map entryOf

theorem nodup_zip (h : bag.Nodup) (permIndices : List Nat) :
    ((bag.zip permIndices).map Prod.fst).Nodup := by
  induction bag generalizing permIndices with
  | nil => exact List.nodup_nil
  | cons i bag ih =>
      cases permIndices with
      | nil => exact List.nodup_nil
      | cons x permIndices =>
          obtain ⟨hi, hbag⟩ := List.nodup_cons.mp h
          refine List.nodup_cons.mpr ⟨fun hmem => hi ?_, ih hbag permIndices⟩
          obtain ⟨p, hp, rfl⟩ := List.mem_map.mp hmem
          exact (List.of_mem_zip (a := p.1) (b := p.2) hp).1

theorem exists_reports_of_searchBag (hbag : bag.Nodup)
    (h : s.searchBag order fuel bag = some (some move)) : ∃ values candidates,
      s.Reports order move values candidates := by
  obtain ⟨indices, -, hseek⟩ := Option.bind_eq_some_iff.mp h
  obtain ⟨permIndices, htry⟩ := exists_body_of_seek hseek
  obtain ⟨accepted, -, hrest⟩ := Option.bind_eq_some_iff.mp htry
  split at hrest
  · cases hrest
  obtain ⟨flipped, hflipped, hrest⟩ := Option.bind_eq_some_iff.mp hrest
  obtain ⟨⟨returned, closed⟩, hcheck, hrest⟩ := Option.bind_eq_some_iff.mp hrest
  dsimp only at hrest
  split at hrest
  · cases hrest
  next hreturned =>
    obtain ⟨entries, hentries, hmove⟩ := Option.bind_eq_some_iff.mp hrest
    obtain ⟨candidates, hcandidates, hvalues⟩ := Option.bind_eq_some_iff.mp hentries
    cases hvalues
    cases hmove
    have htrue : returned = true := by simpa using hreturned
    rw [htrue] at hcheck
    exact ⟨_, candidates, nodup_zip hbag permIndices, hcandidates, ⟨flipped, hflipped, hcheck⟩, rfl⟩

/-- All moves in the reports of a round are found in its state. -/
theorem Takes.exists_reports (h : s.Takes order fuel r) {w : Fin r.thread_count}
    (hmove : some move ∈ r.bags w) :
    ∃ values candidates, s.Reports order move values candidates := by
  have hsearch := forall₂_of_mapM (h.searches w)
  obtain ⟨bag, hbag, hfound⟩ := exists_of_forall₂ hsearch hmove
  refine exists_reports_of_searchBag (h.nodup bag ?_) hfound
  rw [← flatten_batches w.pos r.allPermutationIndices]
  rw [List.getD_eq_getElem?_getD] at hbag
  cases hbatch : (batches r.thread_count r.allPermutationIndices)[w.val]? with
  | none =>
      rw [hbatch] at hbag
      cases hbag
  | some batch =>
      rw [hbatch] at hbag
      exact List.mem_flatten.mpr ⟨batch, List.mem_of_getElem? hbatch, hbag⟩

theorem Reports.mem_metaVariables {values : List (Nat × Nat)}
    {candidates : List (MetaVariable × List Literal × UInt8)}
    (h : s.Reports order move values candidates) : ∀ c ∈ candidates, c.1 ∈ s.metaVariables := by
  intro c hc
  obtain ⟨p, -, hp⟩ := exists_of_forall₂ (forall₂_of_mapM h.found) hc
  obtain ⟨m, hm, hrest⟩ := Option.bind_eq_some_iff.mp hp
  obtain ⟨literals, -, hrest⟩ := Option.bind_eq_some_iff.mp hrest
  obtain ⟨value, -, hcandidate⟩ := Option.bind_eq_some_iff.mp hrest
  cases hcandidate
  exact List.mem_of_getElem? hm

/-- The entries of all workers are values of meta variables. -/
theorem Takes.exists_entries (h : s.Takes order fuel r) {written : List Move}
    (hwritten : ∀ move ∈ written, ∃ w, some move ∈ r.bags w) :
    ∃ candidates : List (MetaVariable × List Literal × UInt8),
      written.flatMap Move.metaValues = candidates.map entryOf ∧
        ∀ c ∈ candidates, c.1 ∈ s.metaVariables := by
  induction written with
  | nil => exact ⟨[], rfl, fun _ hc => absurd hc List.not_mem_nil⟩
  | cons move written ih =>
      obtain ⟨⟨w, hmove⟩, hrest⟩ := List.forall_mem_cons.mp hwritten
      obtain ⟨values, candidates, hreports⟩ := h.exists_reports hmove
      obtain ⟨others, hothers, hmem⟩ := ih hrest
      refine ⟨candidates ++ others, ?_, List.forall_mem_append.mpr
        ⟨hreports.mem_metaVariables, hmem⟩⟩
      rw [List.flatMap_cons, hothers, hreports.metaValues, List.map_append]

/-- If there are cells for its values, the move of a worker is a move of the solver. -/
theorem Reports.accept_eq {values : List (Nat × Nat)}
    {candidates : List (MetaVariable × List Literal × UInt8)} {next : HillClimbingSolver}
    (h : s.Reports order move values candidates)
    (hnext : s.applyFlipped order move.flipped = some next)
    (hwrite : (candidates.map entryOf).foldlM writeEntry s.metaValues = some metaValues) :
    s.accept order values = some { next with metaValues } := by
  obtain ⟨flipped, hflipped, hcheck⟩ := h.improves
  rw [foldlM_writeEntry] at hwrite
  simp [accept, hflipped, hcheck, hnext, writeValues, h.found, hwrite]

/-- What a round with a solution commits. -/
theorem Takes.exists_commit (h : s.Takes order fuel r)
    (hcommit : s.commit order r.outcome = some s') (hfound : r.outcome.isSolutionFound = true) :
    ∃ (candidates : List (MetaVariable × List Literal × UInt8)) (next : HillClimbingSolver),
      r.outcome.newMetaValues = candidates.map entryOf ∧
      (∀ c ∈ candidates, c.1 ∈ s.metaVariables) ∧
      s.applyFlipped order r.outcome.solution = some next ∧
      (candidates.map entryOf).foldlM writeEntry s.metaValues = some s'.metaValues ∧
      s' = { next with metaValues := s'.metaValues } := by
  obtain ⟨written, hwritten, -, hentries, -⟩ := Round.exists_written h.finished
  obtain ⟨candidates, hcandidates, hmem⟩ := h.exists_entries hwritten
  rw [commit, if_pos hfound] at hcommit
  obtain ⟨next, hnext, hcommit⟩ := Option.bind_eq_some_iff.mp hcommit
  obtain ⟨metaValues, hwrite, hcommit⟩ := Option.bind_eq_some_iff.mp hcommit
  cases hcommit
  have hnew := hentries.trans hcandidates
  exact ⟨candidates, next, hnew, hmem, hnext, hnew ▸ hwrite, rfl⟩

/-- The worker that was last in `solution` has also written the last values. -/
theorem Takes.exists_last (h : s.Takes order fuel r) (hfound : r.outcome.isSolutionFound = true) :
    ∃ w move e, some move ∈ r.bags w ∧ r.outcome.solution = move.flipped ∧
      r.outcome.newMetaValues = e ++ move.metaValues := by
  obtain ⟨written, hwritten, hsolution, hvalues, hiff, -⟩ := Round.exists_written h.finished
  obtain ⟨others, move, rfl⟩ := written.eq_nil_or_concat'.resolve_left (hiff.mp hfound)
  obtain ⟨w, hmove⟩ := hwritten move (List.mem_append_right _ (List.mem_singleton_self move))
  refine ⟨w, move, others.flatMap Move.metaValues, hmove, ?_, ?_⟩
  · rw [Round.Schedule.outcome, hsolution, List.getLast?_concat]
    rfl
  · rw [Round.Schedule.outcome, hvalues, List.flatMap_append, List.flatMap_singleton]

/-- The values after a round. -/
theorem Takes.metaValueAt_commit (h : s.Takes order fuel r)
    (hcommit : s.commit order r.outcome = some s') (hfound : r.outcome.isSolutionFound = true)
    (place : Nat × Nat × Nat) :
    metaValueAt s'.metaValues place =
      Round.valueAfter r.outcome.newMetaValues place (metaValueAt s.metaValues place) := by
  obtain ⟨candidates, next, hnew, -, -, hwrite, -⟩ := h.exists_commit hcommit hfound
  rw [hnew, metaValueAt_writes hwrite]

/-- A round is the move of a worker whose flips are committed, up to the values. -/
theorem Takes.exists_accepts (h : s.Takes order fuel r)
    (hcommit : s.commit order r.outcome = some s')
    (hfound : r.outcome.isSolutionFound = true) {w : Fin r.thread_count}
    (hmove : some move ∈ r.bags w) (hsolution : r.outcome.solution = move.flipped)
    {e : List (Nat × Nat × Nat × Nat)}
    (hvalues : r.outcome.newMetaValues = e ++ move.metaValues) :
    ∃ values candidates accepted, s.Reports order move values candidates ∧
      s.accept order values = some accepted ∧ s' = { accepted with metaValues := s'.metaValues } ∧
      (e = [] → accepted.metaValues = s'.metaValues) ∧
      ∀ place, metaValueAt accepted.metaValues place =
        Round.valueAfter move.metaValues place (metaValueAt s.metaValues place) := by
  obtain ⟨all, next, hnew, -, hnext, hwrite, heq⟩ := h.exists_commit hcommit hfound
  obtain ⟨values, candidates, hreports⟩ := h.exists_reports hmove
  have hroom : ∀ c ∈ candidates, (metaValueAt s.metaValues c.1.place).isSome = true := by
    intro c hc
    have hentry : entryOf c ∈ all.map entryOf := by
      rw [← hnew, hvalues, hreports.metaValues]
      exact List.mem_append_right _ (List.mem_map_of_mem hc)
    obtain ⟨c', hc', hsame⟩ := List.mem_map.mp hentry
    rw [← entryPlace_entryOf c, ← hsame, entryPlace_entryOf]
    exact exists_writes_iff.mp ⟨_, hwrite⟩ c' hc'
  obtain ⟨metaValues, hown⟩ := exists_writes_iff.mpr hroom
  rw [hsolution] at hnext
  have haccept := hreports.accept_eq hnext hown
  refine ⟨values, candidates, _, hreports, haccept, heq, ?_, fun place => ?_⟩
  · rintro rfl
    rw [← hnew, hvalues, List.nil_append, hreports.metaValues, hown] at hwrite
    exact Option.some.inj hwrite
  · rw [metaValueAt_writes hown, hreports.metaValues]

/-- A round in which at most one worker writes is a move, or changes nothing. -/
theorem Takes.accepts_or_eq (h : s.Takes order fuel r) (hapart : r.Apart)
    (hcommit : s.commit order r.outcome = some s') : s' = s ∨ Accepts order s s' := by
  obtain ⟨written, hwritten, hsolution, hvalues, hfound, hiff⟩ := Round.exists_written h.finished
  have hle := hiff.mp hapart
  by_cases hflag : r.outcome.isSolutionFound = true
  · obtain ⟨move, hmove⟩ := List.length_eq_one_iff.mp
      (Nat.le_antisymm hle (List.length_pos_of_ne_nil (hfound.mp hflag)))
    subst hmove
    obtain ⟨w, hw⟩ := hwritten move (List.mem_singleton_self move)
    obtain ⟨values, candidates, accepted, hreports, haccept, heq, hsame, -⟩ := h.exists_accepts
      (e := []) hcommit hflag hw hsolution (hvalues.trans (List.flatMap_singleton ..))
    right
    rw [heq, ← hsame rfl]
    exact ⟨values, hreports.nodup, haccept⟩
  · left
    rw [commit, if_neg hflag] at hcommit
    exact (Option.some.inj hcommit).symm

/-- As long as the workers of every round set the flag apart from each other, any number of rounds
with any number of workers is a run of moves of a single worker. -/
theorem reflTransGen_of_apart {rounds : List Round.Schedule}
    (hrounds : AllRounds order (fun s r _ => s.Takes order fuel r ∧ r.Apart) s rounds)
    (hrun : s.runRounds order rounds = some s') : Relation.ReflTransGen (Accepts order) s s' := by
  induction rounds generalizing s with
  | nil =>
      cases hrun
      exact Relation.ReflTransGen.refl
  | cons r rounds ih =>
      rw [runRounds, List.foldlM_cons] at hrun
      obtain ⟨middle, hcommit, hrun⟩ := Option.bind_eq_some_iff.mp hrun
      obtain ⟨⟨htakes, hapart⟩, hrest⟩ := hrounds middle hcommit
      have htail := ih hrest hrun
      obtain rfl | haccepts := htakes.accepts_or_eq hapart hcommit
      · exact htail
      · exact Relation.ReflTransGen.head haccepts htail

/-- The round in which the workers search their shares of a list. -/
abbrev schedule (order : SwapOrder) (s : HillClimbingSolver) (fuel thread_count : Nat)
    (allPermutationIndices : List Combination) (events : List (Round.Event thread_count)) :
    Round.Schedule where
  thread_count
  allPermutationIndices
  bags w := (((batches thread_count allPermutationIndices).getD w []).mapM
    (s.searchBag order fuel)).getD []
  events

theorem takes_schedule {thread_count : Nat} {allPermutationIndices : List Combination}
    {events : List (Round.Event thread_count)} (hnodup : ∀ bag ∈ allPermutationIndices, bag.Nodup)
    (hsearch : ∀ w : Fin thread_count,
      (((batches thread_count allPermutationIndices).getD w []).mapM
        (s.searchBag order fuel)).isSome = true)
    (hfinished : ∀ w : Fin thread_count,
      (s.schedule order fuel thread_count allPermutationIndices events).outcome.phase w =
        .finished) :
    s.Takes order fuel (s.schedule order fuel thread_count allPermutationIndices events) where
  nodup := hnodup
  searches w := by
    obtain ⟨found, hfound⟩ := Option.isSome_iff_exists.mp (hsearch w)
    change _ = some (Option.getD _ [])
    rw [hfound]
    rfl
  finished := hfinished

/-- A round of two workers that find a move each. The second one reads the flag when the first one
has set it. -/
abbrev together (s : HillClimbingSolver) : Round.Schedule :=
  s.schedule .rightFirst 2 2 [[0], [3]] ([0, 1, 0, 0, 1, 0, 0, 0, 0].map .worker)

theorem reflTransGen_of_apart_together : ∃ s s', startOneReduced [] = some s ∧
    s'.propagated ≠ s.propagated ∧ Relation.ReflTransGen (Accepts .rightFirst) s s' := by
  have hrun : ((startOneReduced []).bind fun s => (s.commit .rightFirst s.together.outcome).bind
      fun s' => if s'.propagated 2 ≠ s.propagated 2 ∧
        (∀ w : Fin 2, (((batches 2 [[0], [3]]).getD w []).mapM
          (s.searchBag .rightFirst 2)).isSome = true) ∧
        (∀ w : Fin 2, s.together.outcome.phase w = .finished) ∧
        Round.AllApart (Round.start s.together.bags) s.together.events
        then some s' else none).isSome = true := by
    decide +kernel
  obtain ⟨s', hs'⟩ := Option.isSome_iff_exists.mp hrun
  obtain ⟨s, hs, hrest⟩ := Option.bind_eq_some_iff.mp hs'
  obtain ⟨s'', hcommit, hchecks⟩ := Option.bind_eq_some_iff.mp hrest
  obtain ⟨⟨hmoved, hsearch, hfinished, hapart⟩, hsame⟩ := Option.ite_none_right_eq_some.mp hchecks
  obtain rfl := Option.some.inj hsame
  have htakes : s.Takes .rightFirst 2 s.together := takes_schedule (by decide) hsearch hfinished
  refine ⟨s, s'', hs, fun heq => hmoved (congrFun heq 2), ?_⟩
  have hrounds : AllRounds .rightFirst (fun s r _ => s.Takes .rightFirst 2 r ∧ r.Apart) s
      [s.together] := fun s' _ => ⟨⟨htakes, hapart⟩, trivial⟩
  apply reflTransGen_of_apart hrounds
  rw [runRounds, List.foldlM_cons, hcommit]
  rfl

end Moves

end HillClimbingSolver

section Symbols

open LatinSquares.Generator (LatinSquareEncoder)
open HillClimbingSolver (Settled AllRounds Takes)

variable {e : LatinSquareEncoder} {metaVariables : List MetaVariable} {net : Net}
variable {order : SwapOrder} {p s s' accepted : HillClimbingSolver} {r : Round.Schedule}
variable {m : MetaVariable}
variable {fuel : Nat}

/-- The core variables leave one value for a cell. -/
theorem HoldsSymbols.metaValueAt_eq (h : HoldsSymbols e s) (h' : HoldsSymbols e s')
    (hsame : s'.propagated = s.propagated) (hmeta : e.metaVars e.tables ≠ []) {t i j : Nat}
    (ht : t < e.k) (hi : i < e.n) (hj : j < e.n) :
    metaValueAt s'.metaValues (t, i, j) = metaValueAt s.metaValues (t, i, j) := by
  obtain ⟨symbol, hat⟩ := h.present hmeta t ht i hi j hj
  obtain ⟨symbol', hat'⟩ := h'.present hmeta t ht i hi j hj
  obtain ⟨hpos, hle, hexact⟩ := h.exact t ht i hi j hj symbol hat
  obtain ⟨hpos', hle', hexact'⟩ := h'.exact t ht i hi j hj symbol' hat'
  have htrue : SymbolTrue e s.propagated t i j symbol'.toNat :=
    hsame ▸ (hexact' _ hpos' hle').mpr rfl
  have heq := (hexact _ hpos' hle').mp htrue
  rw [hat, hat', UInt32.toNat_inj.mp heq]

/-- Only the values of the cells count. -/
theorem HillClimbingSolver.Settled.congr (h : Settled p accepted)
    (heq : s' = { accepted with metaValues := s'.metaValues })
    (hvalues : ∀ place, metaValueAt s'.metaValues place = metaValueAt accepted.metaValues place) :
    Settled p s' := by
  have hmeta : s'.metaVariables = accepted.metaVariables := by rw [heq]
  have hnet : s'.net = accepted.net := by rw [heq]
  have hunits : s'.propagated = accepted.propagated := by rw [heq]
  refine ⟨h.room, hmeta.trans h.metaVariables, hnet.trans h.net, fun m hm => ?_,
    fun place hplace => ?_⟩
  · rw [hunits]
    exact (h.mirrors m (hmeta ▸ hm)).congr (hvalues m.place) fun _ _ _ _ => rfl
  · rw [hvalues, h.constants place hplace]

/-- Where the other workers change nothing, the round leads to a state of a single worker. -/
theorem HillClimbingSolver.Settled.commit (hs : Settled p s) (hgrid : Grid p.metaVariables)
    (hnet : KeepsCells order p.net p.metaVariables) (htakes : s.Takes order fuel r)
    (hcommit : s.commit order r.outcome = some s') (htidy : r.Tidy s.metaValues) :
    Settled p s' := by
  by_cases hfound : r.outcome.isSolutionFound = true
  · obtain ⟨w, move, earlier, hmove, hsolution, hvalues, hothers⟩ := htidy hfound
    obtain ⟨values, candidates, accepted, hreports, haccept, heq, -, hown⟩ := htakes.exists_accepts
      hcommit hfound hmove hsolution hvalues
    have haccepts : HillClimbingSolver.Accepts order s accepted := ⟨values, hreports.nodup, haccept⟩
    refine (hs.accept hgrid hnet haccepts).congr heq fun place => ?_
    rw [hown, htakes.metaValueAt_commit hcommit hfound]
    by_cases hplace : place ∈ move.metaValues.map Round.entryPlace
    · rw [hvalues, Round.valueAfter_append]
      exact Round.valueAfter_of_mem hplace _ _
    · rw [hothers place hplace, Round.valueAfter_of_not_mem hplace]
  · rw [HillClimbingSolver.commit, if_neg hfound] at hcommit
    obtain rfl := Option.some.inj hcommit
    exact hs

/-- Otherwise a cell is left with a value that its variables do not have. -/
theorem HillClimbingSolver.Settled.tidy (hs : Settled p s) (hn : 3 ≤ e.n)
    (h : List.Forall₂ MetaVariable.ReadFrom metaVariables (e.metaVars e.tables))
    (hthins : List.Forall₂ MetaVariable.Thins metaVariables p.metaVariables)
    (hsymbols : ∀ accepted, Settled p accepted → HoldsSymbols e accepted)
    (hgrid : Grid p.metaVariables) (hnet : KeepsCells order p.net p.metaVariables)
    (htakes : s.Takes order fuel r) (hcommit : s.commit order r.outcome = some s')
    (hholds : HoldsSymbols e s') : r.Tidy s.metaValues := by
  intro hfound
  obtain ⟨w, move, _, hmove, hflips, hentries⟩ := htakes.exists_last hfound
  refine ⟨w, move, _, hmove, hflips, hentries, fun place hplace => ?_⟩
  obtain ⟨values, candidates, accepted, hreports, haccept, heq, -, hown⟩ := htakes.exists_accepts
    hcommit hfound hmove hflips hentries
  have haccepts : HillClimbingSolver.Accepts order s accepted := ⟨values, hreports.nodup, haccept⟩
  rw [← htakes.metaValueAt_commit hcommit hfound]
  -- a cell that no worker has written is as before, and the others are cells of the encoder
  by_cases hany : place ∈ r.outcome.newMetaValues.map Round.entryPlace
  · obtain ⟨candidates, -, hnew, hmem, -⟩ := htakes.exists_commit hcommit hfound
    rw [hnew, List.map_map] at hany
    obtain ⟨c, hc, rfl⟩ := List.mem_map.mp hany
    have hcell : c.1.place ∈ metaVariables.map MetaVariable.place := by
      rw [← places_thins hthins]
      exact List.mem_map_of_mem (hs.metaVariables ▸ hmem c hc)
    obtain ⟨m, hm, hsame⟩ := List.mem_map.mp hcell
    obtain ⟨t, ht, i, hi, j, hj, hat, -⟩ := exists_cell_of_readFrom h hm
    have hsettled := hs.accept hgrid hnet haccepts
    have hunits : s'.propagated = accepted.propagated := by rw [heq]
    have hvalue := (hsymbols accepted hsettled).metaValueAt_eq hholds hunits
      (metaVars_ne_nil hn (by omega)) ht hi hj
    rw [← hat, hsame] at hvalue
    rw [Function.comp_apply, HillClimbingSolver.entryPlace_entryOf] at hplace ⊢
    rw [hvalue, hown, Round.valueAfter_of_not_mem hplace]
  · rw [htakes.metaValueAt_commit hcommit hfound, Round.valueAfter_of_not_mem hany]

/-- The states of a run of rounds have the symbols of their core variables as long as the values
of other workers change nothing. -/
theorem HillClimbingSolver.Settled.allRounds_iff (hs : Settled p s) (hn : 3 ≤ e.n)
    (h : List.Forall₂ MetaVariable.ReadFrom metaVariables (e.metaVars e.tables))
    (hthins : List.Forall₂ MetaVariable.Thins metaVariables p.metaVariables)
    (hsymbols : ∀ accepted, Settled p accepted → HoldsSymbols e accepted)
    (hgrid : Grid p.metaVariables) (hnet : KeepsCells order p.net p.metaVariables)
    {rounds : List Round.Schedule}
    (hrounds : AllRounds order (fun s r _ => s.Takes order fuel r) s rounds) :
    AllRounds order (fun _ _ s' => HoldsSymbols e s') s rounds ↔
      AllRounds order (fun s r _ => r.Tidy s.metaValues) s rounds := by
  induction rounds generalizing s with
  | nil => exact Iff.rfl
  | cons r rounds ih =>
      refine forall_congr' fun s' => imp_congr_right fun hcommit => ?_
      obtain ⟨htakes, hrest⟩ := hrounds s' hcommit
      constructor
      · rintro ⟨hholds, hlater⟩
        have htidy := hs.tidy hn h hthins hsymbols hgrid hnet htakes hcommit hholds
        exact ⟨htidy, (ih (hs.commit hgrid hnet htakes hcommit htidy) hrest).mp hlater⟩
      · rintro ⟨htidy, hlater⟩
        have hnext := hs.commit hgrid hnet htakes hcommit htidy
        exact ⟨hsymbols s' hnext, (ih hnext hrest).mpr hlater⟩

variable {clauses : List Clause} {toCompute : List Nat} {weights : Nat → UInt32}
variable {literalCount fuelBags : Nat}

/-- The same for a file of the encoder. -/
theorem Session.rounds_of_cnf (shuffle : Generator.Order) (hn : 3 ≤ e.n) (hn' : e.n < 256)
    (hk : 2 ≤ e.k) (hk' : e.k ≤ 256) {f : Generator.CNF} (hf : e.cnf shuffle = some f)
    (hnet : Net.Finalizes (f.net.map readNode) net) (hfits : f.variables_.length < 2 ^ 31)
    (hs : Session order fuel clauses toCompute weights net (f.metaVariables.map readMetaVariable)
      e.coreSize f.variables_.length s) {rounds : List Round.Schedule}
    (hrounds : AllRounds order (fun s r _ => s.Takes order fuelBags r) s rounds) :
    AllRounds order (fun _ _ s' => HoldsSymbols e s') s rounds ↔
      AllRounds order (fun s r _ => r.Tidy s.metaValues) s rounds := by
  obtain ⟨h, hauxiliary, hcore⟩ := cells_of_cnf shuffle hn hn' hk hk' hf hnet
  have hgrid := grid_of_readFrom h
  have hcells := oneHotCells_of_readFrom hn h
  obtain ⟨p, hprepare, hsettled⟩ := hs.exists_settled hgrid hcells (Or.inl hauxiliary) hcore hfits
  have hp := HillClimbingSolver.prepared_of_eq_some hcells hprepare
  refine hsettled.allRounds_iff hn h hp.thins
    (fun _ hsettled => holdsSymbols_of_settled hn h hprepare hsettled) (hgrid.thins hp.thins)
    (Or.inl ?_) hrounds
  rw [hp.net]
  exact auxiliary_thins hauxiliary hp.thins

end Symbols

end LatinSquares.LocalSearch
