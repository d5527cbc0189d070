/-
# How the workers of a round report an improving move

In one round of `solve` every worker goes through its share of the candidate bags. One
that finds an improving move reads `isSolutionFound`, sets it, and then, holding
`solutionMutex`, writes `solution` and appends to `newMetaValues`. A schedule says whose
step comes next. Nothing a bag yields depends on the schedule, because the fields of the
solver are not written before the round is over.

The flag is read and set in two steps, so two workers can both read it unset. The round
is sound exactly if no worker reads the unset flag while another is about to set it.
-/

import Mathlib.Algebra.BigOperators.Fin
import Mathlib.Algebra.Order.BigOperators.Group.Finset
import Mathlib.Data.Fintype.Basic

namespace LatinSquares.LocalSearch

/-- An improving move: the flip list and the new values of the cells of its bag, each
with matrix, row and column. -/
structure Move where
  flipped : List Nat
  metaValues : List (Nat × Nat × Nat × Nat)
  deriving DecidableEq, Repr

namespace Round

/-- Where a worker stands in its task. -/
inductive Phase where
  | search (bags : List (Option Move))
  | test (move : Move)
  | set (move : Move)
  | lock (move : Move)
  | write (move : Move)
  | append (rest : List (Nat × Nat × Nat × Nat))
  | finished
  deriving DecidableEq, Repr

/-- The variables the workers of a round share, and where each of them stands. -/
structure State (workers : Nat) where
  phase : Fin workers → Phase
  stopped : Bool := false
  isSolutionFound : Bool := false
  solutionMutex : Option (Fin workers) := none
  solution : List Nat := []
  newMetaValues : List (Nat × Nat × Nat × Nat) := []

/-- A worker takes a step, the signal handler sets `stopped`, or a worker leaves a bag
because it saw that. -/
inductive Event (workers : Nat) where
  | worker (w : Fin workers)
  | signal
  | leave (w : Fin workers)
  deriving DecidableEq, Repr

variable {workers : Nat}

namespace State

/-- Worker `w` moves on. -/
def goto (s : State workers) (w : Fin workers) (phase : Phase) : State workers :=
  { s with phase := Function.update s.phase w phase }

/-- The next step of worker `w`. Of a bag it finds the first improving move, if any;
after a bag without one it reads `isSolutionFound` and `stopped`. -/
def work (s : State workers) (w : Fin workers) : State workers :=
  match s.phase w with
  | .search [] => s.goto w .finished
  | .search (some move :: _) => s.goto w (.test move)
  | .search (none :: bags) =>
      s.goto w (if s.isSolutionFound || s.stopped then .finished else .search bags)
  | .test move => s.goto w (if s.isSolutionFound then .finished else .set move)
  | .set move => { s.goto w (.lock move) with isSolutionFound := true }
  | .lock move =>
      if s.solutionMutex = none then { s.goto w (.write move) with solutionMutex := some w } else s
  | .write move => { s.goto w (.append move.metaValues) with solution := move.flipped }
  | .append (value :: rest) =>
      { s.goto w (.append rest) with newMetaValues := s.newMetaValues ++ [value] }
  | .append [] => { s.goto w .finished with solutionMutex := none }
  | .finished => s

/-- One event. -/
def step (s : State workers) : Event workers → State workers
  | .worker w => s.work w
  | .signal => { s with stopped := true }
  | .leave w =>
      match s.phase w with
      | .search _ => if s.stopped then s.goto w .finished else s
      | _ => s

/-- A schedule of events. -/
def run (s : State workers) (events : List (Event workers)) : State workers :=
  events.foldl step s

/-- The task of every worker has returned. -/
def Finished (s : State workers) : Prop := ∀ w, s.phase w = .finished

end State

/-- A round starts with the bags of each worker. -/
def start (bags : Fin workers → List (Option Move)) : State workers where
  phase w := .search (bags w)

/-- The flip list and the new values that a round commits belong to one bag. -/
def Agrees (bags : Fin workers → List (Option Move)) (s : State workers) : Prop :=
  s.isSolutionFound = true → ∃ w move, some move ∈ bags w ∧
    s.solution = move.flipped ∧ s.newMetaValues = move.metaValues

/-- The event is no read of the unset flag while another worker is about to set it. -/
def Apart (s : State workers) (event : Event workers) : Prop :=
  ∀ w move, event = .worker w → s.phase w = .test move → s.isSolutionFound = false →
    ∀ w' move', s.phase w' ≠ .set move'

/-- No event of a schedule is. -/
def AllApart : State workers → List (Event workers) → Prop
  | _, [] => True
  | s, event :: events => Apart s event ∧ AllApart (s.step event) events

instance (s : State workers) (event : Event workers) : Decidable (Apart s event) :=
  decidable_of_iff (∀ w, event = .worker w → (s.phase w matches .test _) = true →
    s.isSolutionFound = false → ∀ w', (s.phase w' matches .set _) = false) (by
    constructor
    · intro h w move heq hphase hunset w' move' hset
      have hnot := h w heq (by rw [hphase]) hunset w'
      rw [hset] at hnot
      cases hnot
    · intro h w heq htest hunset w'
      cases hphase : s.phase w with
      | test move =>
          cases hset : s.phase w' with
          | set move' => exact absurd hset (h w move heq hphase hunset w' move')
          | _ => rfl
      | _ =>
          rw [hphase] at htest
          cases htest)

/-- Whether the claims of a schedule are apart. -/
instance decidableAllApart : (s : State workers) → (events : List (Event workers)) →
    Decidable (AllApart s events)
  | _, [] => .isTrue trivial
  | s, event :: events =>
      have := decidableAllApart (s.step event) events
      inferInstanceAs (Decidable (_ ∧ _))

namespace Phase

/-- The phases in which a worker holds `solutionMutex`. -/
def critical : Phase → Bool
  | write _ => true
  | append _ => true
  | _ => false

/-- The phases in which a worker is going to commit its move. -/
def claims : Phase → Nat
  | set _ => 1
  | lock _ => 1
  | write _ => 1
  | _ => 0

/-- The phases a worker reaches only after it has set `isSolutionFound`. -/
def announced : Phase → Bool
  | lock _ => true
  | write _ => true
  | append _ => true
  | _ => false

/-- The moves a worker may still commit come from its bags. -/
def Within (bags : List (Option Move)) : Phase → Prop
  | search rest => ∀ move, some move ∈ rest → some move ∈ bags
  | test move => some move ∈ bags
  | set move => some move ∈ bags
  | lock move => some move ∈ bags
  | write move => some move ∈ bags
  | append _ => True
  | finished => True

end Phase

variable {bags : Fin workers → List (Option Move)} {s : State workers} {written : List Move}
variable {w w' : Fin workers} {phase : Phase}

/-- What holds after any number of events; `written` lists the moves whose flip list has
been written to `solution`, in this order. -/
structure Invariant (bags : Fin workers → List (Option Move)) (s : State workers)
    (written : List Move) : Prop where
  within : ∀ w, (s.phase w).Within (bags w)
  written_mem : ∀ move ∈ written, ∃ w, some move ∈ bags w
  critical : ∀ w, (s.phase w).critical = true ↔ s.solutionMutex = some w
  announced : s.isSolutionFound = false → written = [] ∧ ∀ w, (s.phase w).announced = false
  solution : s.solution = (written.getLast?.map Move.flipped).getD []
  values : (∀ w rest, s.phase w = .append rest →
      s.newMetaValues ++ rest = written.flatMap Move.metaValues) ∧
    ((∀ w rest, s.phase w ≠ .append rest) → s.newMetaValues = written.flatMap Move.metaValues)

/-- The moves committed or bound to be. -/
def claimed (s : State workers) (written : List Move) : Nat :=
  written.length + ∑ w, (s.phase w).claims

theorem State.goto_phase (s : State workers) (w w' : Fin workers) (phase : Phase) :
    (s.goto w phase).phase w' = if w' = w then phase else s.phase w' :=
  Function.update_apply _ _ _ _

/-- What holds of the new phase and of the phases of the others holds after the move. -/
theorem State.forall_goto {P : Fin workers → Phase → Prop} (hw : P w phase)
    (hothers : ∀ w', w' ≠ w → P w' (s.phase w')) (w' : Fin workers) :
    P w' ((s.goto w phase).phase w') := by
  rw [s.goto_phase]
  split
  · next heq => exact heq ▸ hw
  · next hne => exact hothers w' hne

theorem sum_claims_goto (s : State workers) (w : Fin workers) (phase : Phase) :
    (∑ w', ((s.goto w phase).phase w').claims) + (s.phase w).claims =
      (∑ w', (s.phase w').claims) + phase.claims := by
  have hold := Finset.add_sum_erase Finset.univ (fun w' => (s.phase w').claims)
    (Finset.mem_univ w)
  have hnew := Finset.add_sum_erase Finset.univ (fun w' => ((s.goto w phase).phase w').claims)
    (Finset.mem_univ w)
  have hrest : ∑ w' ∈ Finset.univ.erase w, ((s.goto w phase).phase w').claims =
      ∑ w' ∈ Finset.univ.erase w, (s.phase w').claims := by
    apply Finset.sum_congr rfl
    intro w' hw'
    rw [s.goto_phase, if_neg (Finset.ne_of_mem_erase hw')]
  rw [hrest] at hnew
  simp only [s.goto_phase, if_true] at hnew
  simp only [s.goto_phase]
  omega

theorem claims_le_sum (s : State workers) (w : Fin workers) :
    (s.phase w).claims ≤ ∑ w', (s.phase w').claims :=
  Finset.single_le_sum (f := fun w => (s.phase w).claims) (fun _ _ => Nat.zero_le _)
    (Finset.mem_univ w)

theorem invariant_start : Invariant bags (start bags) [] where
  within _ _ hmove := hmove
  written_mem := by simp
  critical w := by simp [start, Phase.critical]
  announced _ := ⟨rfl, fun _ => rfl⟩
  solution := rfl
  values := ⟨fun w rest h => by simp [start] at h, fun _ => rfl⟩

namespace Invariant

/-- A worker moves on outside the critical section. -/
theorem goto (h : Invariant bags s written) (hold : (s.phase w).critical = false)
    (hnew : phase.critical = false) (hwithin : phase.Within (bags w))
    (hannounced : s.isSolutionFound = false → phase.announced = false) :
    Invariant bags (s.goto w phase) written where
  within := State.forall_goto (P := fun w' p => p.Within (bags w')) hwithin fun w' _ => h.within w'
  written_mem := h.written_mem
  critical := by
    refine State.forall_goto (P := fun w' p => p.critical = true ↔ s.solutionMutex = some w') ?_
      fun w' _ => h.critical w'
    exact iff_of_false (by simp [hnew]) fun hmutex => by
      simp [(h.critical w).mpr hmutex] at hold
  announced hflag := ⟨(h.announced hflag).1, State.forall_goto (P := fun _ p => p.announced = false)
    (hannounced hflag) fun w' _ => (h.announced hflag).2 w'⟩
  solution := h.solution
  values := by
    have hiff : ∀ w' rest,
        (s.goto w phase).phase w' = .append rest ↔ s.phase w' = .append rest := by
      intro w' rest
      rw [s.goto_phase]
      split
      · next heq =>
          subst heq
          constructor
          · intro heq
            simp [heq, Phase.critical] at hnew
          · intro heq
            simp [heq, Phase.critical] at hold
      · rfl
    constructor
    · intro w' rest hrest
      exact h.values.1 w' rest ((hiff w' rest).mp hrest)
    · intro hnone
      exact h.values.2 fun w' rest hrest => hnone w' rest ((hiff w' rest).mpr hrest)

/-- At most one worker is in the critical section. -/
theorem eq_of_critical (h : Invariant bags s written) (hw : (s.phase w).critical = true)
    (hw' : (s.phase w').critical = true) : w' = w :=
  Option.some.inj (((h.critical w').mp hw').symm.trans ((h.critical w).mp hw))

theorem flag_of_announced (h : Invariant bags s written) (hw : (s.phase w).announced = true) :
    s.isSolutionFound ≠ false := fun hflag => by
  simp [(h.announced hflag).2 w] at hw

/-- No other worker is in the critical section. -/
theorem not_critical_of_ne (h : Invariant bags s written) (hw : (s.phase w).critical = true)
    (hne : w' ≠ w) : (s.phase w').critical = false :=
  Bool.eq_false_iff.mpr fun hw' => hne (h.eq_of_critical hw hw')

variable {move : Move} {value : Nat × Nat × Nat × Nat} {rest : List (Nat × Nat × Nat × Nat)}

/-- A worker acquires the mutex. -/
theorem acquire (h : Invariant bags s written) (hphase : s.phase w = .lock move)
    (hmutex : s.solutionMutex = none) :
    Invariant bags { s.goto w (.write move) with solutionMutex := some w } written := by
  have hannounced : s.isSolutionFound ≠ false :=
    h.flag_of_announced (w := w) (by rw [hphase]; rfl)
  have hfree : ∀ w', (s.phase w').critical = false := fun w' =>
    Bool.eq_false_iff.mpr fun hw' => by simp [(h.critical w').mp hw'] at hmutex
  have hnone : ∀ w' rest, s.phase w' ≠ .append rest := fun w' rest heq => by
    simpa [heq, Phase.critical] using hfree w'
  have hnone' : ∀ w' rest, (s.goto w (.write move)).phase w' ≠ .append rest :=
    State.forall_goto (P := fun _ p => ∀ rest, p ≠ .append rest) (by simp) fun w' _ => hnone w'
  constructor
  · refine State.forall_goto (P := fun w' p => p.Within (bags w')) ?_ fun w' _ => h.within w'
    have hwithin := h.within w
    rwa [hphase] at hwithin
  · exact h.written_mem
  · exact State.forall_goto (P := fun w' p => p.critical = true ↔ some w = some w')
      (by simp [Phase.critical]) fun w' hne => by simp [hfree w', Ne.symm hne]
  · intro hflag
    exact absurd hflag hannounced
  · exact h.solution
  · exact ⟨fun w' rest heq => absurd heq (hnone' w' rest), fun _ => h.values.2 hnone⟩

/-- The worker that holds the mutex writes its flip list. -/
theorem write (h : Invariant bags s written) (hphase : s.phase w = .write move) :
    Invariant bags { s.goto w (.append move.metaValues) with solution := move.flipped }
      (written ++ [move]) := by
  have hannounced : s.isSolutionFound ≠ false :=
    h.flag_of_announced (w := w) (by rw [hphase]; rfl)
  have hcritical : (s.phase w).critical = true := by rw [hphase]; rfl
  have hnone : ∀ w' rest, s.phase w' ≠ .append rest := by
    intro w' rest heq
    have hw' : w' = w := h.eq_of_critical hcritical (by rw [heq]; rfl)
    rw [hw', hphase] at heq
    cases heq
  constructor
  · exact State.forall_goto (P := fun w' p => p.Within (bags w')) trivial fun w' _ => h.within w'
  · intro move' hmove'
    cases List.mem_append.mp hmove' with
    | inl hold => exact h.written_mem move' hold
    | inr hnew =>
        obtain rfl := List.mem_singleton.mp hnew
        have hwithin := h.within w
        rw [hphase] at hwithin
        exact ⟨w, hwithin⟩
  · exact State.forall_goto (P := fun w' p => p.critical = true ↔ s.solutionMutex = some w')
      (by simpa [Phase.critical] using (h.critical w).mp hcritical) fun w' _ => h.critical w'
  · intro hflag
    exact absurd hflag hannounced
  · simp
  · constructor
    · intro w' rest hrest
      change (s.goto w (.append move.metaValues)).phase w' = _ at hrest
      rw [s.goto_phase] at hrest
      split at hrest
      · cases hrest
        change s.newMetaValues ++ move.metaValues = _
        rw [h.values.2 hnone, List.flatMap_append, List.flatMap_singleton]
      · exact absurd hrest (hnone w' rest)
    · intro hall
      refine absurd ?_ (hall w move.metaValues)
      change (s.goto w (.append move.metaValues)).phase w = _
      rw [s.goto_phase, if_pos rfl]

/-- It appends one of its new values. -/
theorem append (h : Invariant bags s written) (hphase : s.phase w = .append (value :: rest)) :
    Invariant bags { s.goto w (.append rest) with newMetaValues := s.newMetaValues ++ [value] }
      written := by
  have hannounced : s.isSolutionFound ≠ false :=
    h.flag_of_announced (w := w) (by rw [hphase]; rfl)
  have hcritical : (s.phase w).critical = true := by rw [hphase]; rfl
  constructor
  · exact State.forall_goto (P := fun w' p => p.Within (bags w')) trivial fun w' _ => h.within w'
  · exact h.written_mem
  · exact State.forall_goto (P := fun w' p => p.critical = true ↔ s.solutionMutex = some w')
      (by simpa [Phase.critical] using (h.critical w).mp hcritical) fun w' _ => h.critical w'
  · intro hflag
    exact absurd hflag hannounced
  · exact h.solution
  · constructor
    · intro w' rest' hrest
      change (s.goto w (.append rest)).phase w' = _ at hrest
      rw [s.goto_phase] at hrest
      split at hrest
      · cases hrest
        change (s.newMetaValues ++ [value]) ++ rest = _
        rw [List.append_assoc, List.singleton_append]
        exact h.values.1 w _ hphase
      · next hne =>
          have hw' := h.not_critical_of_ne hcritical hne
          simp [hrest, Phase.critical] at hw'
    · intro hall
      refine absurd ?_ (hall w rest)
      change (s.goto w (.append rest)).phase w = _
      rw [s.goto_phase, if_pos rfl]

/-- Having appended them all, it releases the mutex and returns. -/
theorem release (h : Invariant bags s written) (hphase : s.phase w = .append []) :
    Invariant bags { s.goto w .finished with solutionMutex := none } written := by
  have hannounced : s.isSolutionFound ≠ false :=
    h.flag_of_announced (w := w) (by rw [hphase]; rfl)
  have hcritical : (s.phase w).critical = true := by rw [hphase]; rfl
  have hfree : ∀ w', ((s.goto w .finished).phase w').critical = false :=
    State.forall_goto (P := fun _ p => p.critical = false) rfl fun w' hne =>
      h.not_critical_of_ne hcritical hne
  constructor
  · exact State.forall_goto (P := fun w' p => p.Within (bags w')) trivial fun w' _ => h.within w'
  · exact h.written_mem
  · intro w'
    change ((s.goto w .finished).phase w').critical = true ↔ none = some w'
    simp [hfree w']
  · intro hflag
    exact absurd hflag hannounced
  · exact h.solution
  · constructor
    · intro w' rest hrest
      change (s.goto w .finished).phase w' = _ at hrest
      have hw' := hfree w'
      simp [hrest, Phase.critical] at hw'
    · intro _
      change s.newMetaValues = _
      rw [← h.values.1 w [] hphase, List.append_nil]

theorem setFlag (h : Invariant bags s written) :
    Invariant bags { s with isSolutionFound := true } written where
  within := h.within
  written_mem := h.written_mem
  critical := h.critical
  announced hflag := by simp at hflag
  solution := h.solution
  values := h.values

theorem setStopped (h : Invariant bags s written) :
    Invariant bags { s with stopped := true } written where
  within := h.within
  written_mem := h.written_mem
  critical := h.critical
  announced := h.announced
  solution := h.solution
  values := h.values

end Invariant

/-- The event is a read of the unset flag by a worker that has found a move. -/
def Claims (s : State workers) (event : Event workers) : Prop :=
  ∃ w move, event = .worker w ∧ s.phase w = .test move ∧ s.isSolutionFound = false

/-- A step leaves the number of claimed moves as it is, unless it claims one. -/
def Counts (s s' : State workers) (written written' : List Move) (claim : Prop) : Prop :=
  (claim → claimed s' written' = claimed s written + 1) ∧
    (¬ claim → claimed s' written' = claimed s written)

theorem claimed_goto (s : State workers) (written : List Move) (w : Fin workers)
    (phase : Phase) :
    claimed (s.goto w phase) written + (s.phase w).claims = claimed s written + phase.claims := by
  have hsum := sum_claims_goto s w phase
  unfold claimed
  omega

/-- Moving to a phase with the same claim changes no count. -/
theorem claimed_goto_of_eq (hphase : s.phase w = phase) {next : Phase}
    (hclaims : next.claims = phase.claims) :
    claimed (s.goto w next) written = claimed s written := by
  have hcount := claimed_goto s written w next
  rw [hphase] at hcount
  omega

/-- What a step of a worker does to the invariant and to the number of claimed moves. -/
theorem Invariant.work (h : Invariant bags s written) (w : Fin workers) :
    ∃ written', Invariant bags (s.work w) written' ∧
      Counts s (s.work w) written written' (Claims s (.worker w)) := by
  have hwithin := h.within w
  have hno : ∀ {phase : Phase}, s.phase w = phase → (∀ move, phase ≠ .test move) →
      ¬ Claims s (.worker w) := by
    rintro phase hphase hne ⟨w', move, heq, htest, -⟩
    cases heq
    exact hne move (hphase.symm.trans htest)
  unfold State.work
  split
  · next hphase =>
      exact ⟨written, h.goto (by rw [hphase]; rfl) rfl trivial fun _ => rfl,
        fun hclaim => absurd hclaim (hno hphase (by simp)),
        fun _ => claimed_goto_of_eq hphase rfl⟩
  · next move rest hphase =>
      rw [hphase] at hwithin
      exact ⟨written, h.goto (by rw [hphase]; rfl) rfl (hwithin move List.mem_cons_self)
          fun _ => rfl,
        fun hclaim => absurd hclaim (hno hphase (by simp)),
        fun _ => claimed_goto_of_eq hphase rfl⟩
  · next rest hphase =>
      rw [hphase] at hwithin
      have hrest : ∀ move, some move ∈ rest → some move ∈ bags w := fun move hmove =>
        hwithin move (List.mem_cons_of_mem _ hmove)
      split
      · exact ⟨written, h.goto (by rw [hphase]; rfl) rfl trivial fun _ => rfl,
          fun hclaim => absurd hclaim (hno hphase (by simp)),
          fun _ => claimed_goto_of_eq hphase rfl⟩
      · exact ⟨written, h.goto (by rw [hphase]; rfl) rfl hrest fun _ => rfl,
          fun hclaim => absurd hclaim (hno hphase (by simp)),
          fun _ => claimed_goto_of_eq hphase rfl⟩
  · next move hphase =>
      rw [hphase] at hwithin
      split
      · next hflag =>
          refine ⟨written, h.goto (by rw [hphase]; rfl) rfl trivial fun _ => rfl, ?_,
            fun _ => claimed_goto_of_eq hphase rfl⟩
          rintro ⟨_, _, _, _, hunset⟩
          simp [hflag] at hunset
      · next hflag =>
          refine ⟨written, h.goto (by rw [hphase]; rfl) rfl hwithin fun _ => rfl, fun _ => ?_,
            fun hnot => absurd ⟨w, move, rfl, hphase, by simpa using hflag⟩ hnot⟩
          simpa [hphase, Phase.claims] using claimed_goto s written w (.set move)
  · next move hphase =>
      rw [hphase] at hwithin
      have hold : (s.phase w).critical = false := by rw [hphase]; rfl
      have hnew : (Phase.lock move).critical = false := rfl
      exact ⟨written, (h.setFlag).goto hold hnew hwithin fun hflag => by simp at hflag,
        fun hclaim => absurd hclaim (hno hphase (by simp)),
        fun _ => claimed_goto_of_eq hphase rfl⟩
  · next move hphase =>
      split
      · next hmutex =>
          exact ⟨written, h.acquire hphase hmutex,
            fun hclaim => absurd hclaim (hno hphase (by simp)),
            fun _ => claimed_goto_of_eq hphase rfl⟩
      · exact ⟨written, h, fun hclaim => absurd hclaim (hno hphase (by simp)), fun _ => rfl⟩
  · next move hphase =>
      refine ⟨written ++ [move], h.write hphase,
        fun hclaim => absurd hclaim (hno hphase (by simp)), fun _ => ?_⟩
      have hcount := claimed_goto s written w (.append move.metaValues)
      simp only [hphase, Phase.claims, claimed] at hcount ⊢
      rw [List.length_append, List.length_singleton]
      omega
  · next value rest hphase =>
      exact ⟨written, h.append hphase, fun hclaim => absurd hclaim (hno hphase (by simp)),
        fun _ => claimed_goto_of_eq hphase rfl⟩
  · next hphase =>
      exact ⟨written, h.release hphase, fun hclaim => absurd hclaim (hno hphase (by simp)),
        fun _ => claimed_goto_of_eq hphase rfl⟩
  · next hphase =>
      exact ⟨written, h, fun hclaim => absurd hclaim (hno hphase (by simp)), fun _ => rfl⟩

/-- What an event does. -/
theorem Invariant.step (h : Invariant bags s written) (event : Event workers) :
    ∃ written', Invariant bags (s.step event) written' ∧
      Counts s (s.step event) written written' (Claims s event) := by
  cases event with
  | worker w => exact h.work w
  | signal =>
      have hno : ¬ Claims s .signal := fun ⟨_, _, heq, _⟩ => by cases heq
      exact ⟨written, h.setStopped, fun hclaim => absurd hclaim hno, fun _ => rfl⟩
  | leave w =>
      have hno : ¬ Claims s (.leave w) := fun ⟨_, _, heq, _⟩ => by cases heq
      simp only [State.step]
      split
      · next rest hphase =>
          split
          · exact ⟨written, h.goto (by rw [hphase]; rfl) rfl trivial fun _ => rfl,
              fun hclaim => absurd hclaim hno, fun _ => claimed_goto_of_eq hphase rfl⟩
          · exact ⟨written, h, fun hclaim => absurd hclaim hno, fun _ => rfl⟩
      · exact ⟨written, h, fun hclaim => absurd hclaim hno, fun _ => rfl⟩

/-- A move is claimed apart from others exactly if it is the first one. -/
theorem Invariant.apart_iff {event : Event workers} (h : Invariant bags s written)
    (hclaim : Claims s event) : Apart s event ↔ claimed s written = 0 := by
  obtain ⟨w, move, rfl, hphase, hflag⟩ := hclaim
  obtain ⟨rfl, hannounced⟩ := h.announced hflag
  constructor
  · intro hapart
    have hnone : ∀ w', (s.phase w').claims = 0 := by
      intro w'
      have hset := hapart w move rfl hphase hflag w'
      have hfalse := hannounced w'
      cases hphase' : s.phase w' with
      | set move' => exact absurd hphase' (hset move')
      | lock move' => simp [hphase', Phase.announced] at hfalse
      | write move' => simp [hphase', Phase.announced] at hfalse
      | search rest => rfl
      | test move' => rfl
      | append rest => rfl
      | finished => rfl
    simp [claimed, hnone]
  · intro hzero _ _ _ _ _ w' move' hset
    have hle := claims_le_sum s w'
    rw [hset] at hle
    simp only [claimed, Phase.claims] at hzero hle
    omega

theorem claimed_le_step {event : Event workers} {written' : List Move}
    (hcount : Counts s (s.step event) written written' (Claims s event)) :
    claimed s written ≤ claimed (s.step event) written' := by
  by_cases hclaim : Claims s event
  · exact (hcount.1 hclaim).symm ▸ Nat.le_succ _
  · exact (hcount.2 hclaim).ge

/-- The flag is only set by a worker that has claimed a move. -/
theorem claimed_of_flag {event : Event workers} (hflag : (s.step event).isSolutionFound = true) :
    s.isSolutionFound = true ∨ 1 ≤ claimed s written := by
  have hset : ∀ w move, s.phase w = .set move → 1 ≤ claimed s written := by
    intro w move hphase
    have hle := claims_le_sum s w
    rw [hphase] at hle
    exact hle.trans (Nat.le_add_left _ _)
  cases event with
  | signal => exact Or.inl hflag
  | leave w =>
      simp only [State.step] at hflag
      split at hflag
      · split at hflag <;> exact Or.inl hflag
      · exact Or.inl hflag
  | worker w =>
      simp only [State.step, State.work] at hflag
      split at hflag
      · exact Or.inl hflag
      · exact Or.inl hflag
      · exact Or.inl hflag
      · exact Or.inl hflag
      · next move hphase => exact Or.inr (hset w move hphase)
      · split at hflag <;> exact Or.inl hflag
      · exact Or.inl hflag
      · exact Or.inl hflag
      · exact Or.inl hflag
      · exact Or.inl hflag

theorem found_step {event : Event workers} {written' : List Move}
    (hcount : Counts s (s.step event) written written' (Claims s event))
    (hfound : s.isSolutionFound = true → 1 ≤ claimed s written)
    (hflag : (s.step event).isSolutionFound = true) :
    1 ≤ claimed (s.step event) written' := by
  have hle := claimed_le_step hcount
  have hclaimed : s.isSolutionFound = true ∨ 1 ≤ claimed s written := claimed_of_flag hflag
  cases hclaimed with
  | inl hold => exact (hfound hold).trans hle
  | inr hone => exact hone.trans hle

/-- Over a schedule the number of claimed moves only grows. -/
theorem Invariant.run_mono (h : Invariant bags s written)
    (hfound : s.isSolutionFound = true → 1 ≤ claimed s written) (events : List (Event workers)) :
    ∃ written', Invariant bags (s.run events) written' ∧
      claimed s written ≤ claimed (s.run events) written' ∧
      ((s.run events).isSolutionFound = true → 1 ≤ claimed (s.run events) written') := by
  induction events generalizing s written with
  | nil => exact ⟨written, h, le_rfl, hfound⟩
  | cons event events ih =>
      obtain ⟨next, hnext, hcount⟩ := h.step event
      have hle := claimed_le_step hcount
      have hfound' := found_step hcount hfound
      obtain ⟨last, hlast, hmono, hflag⟩ := ih hnext hfound'
      exact ⟨last, hlast, hle.trans hmono, hflag⟩

/-- It stays at one exactly if the claims are apart. -/
theorem Invariant.run (h : Invariant bags s written) (hle : claimed s written ≤ 1)
    (hfound : s.isSolutionFound = true → 1 ≤ claimed s written) (events : List (Event workers)) :
    ∃ written', Invariant bags (s.run events) written' ∧
      ((s.run events).isSolutionFound = true → 1 ≤ claimed (s.run events) written') ∧
      (AllApart s events ↔ claimed (s.run events) written' ≤ 1) := by
  induction events generalizing s written with
  | nil => exact ⟨written, h, hfound, iff_of_true trivial hle⟩
  | cons event events ih =>
      obtain ⟨next, hnext, hcount⟩ := h.step event
      have hfound' := found_step hcount hfound
      by_cases hclaim : Claims s event
      · by_cases hzero : claimed s written = 0
        · have hone : claimed (s.step event) next ≤ 1 := by rw [hcount.1 hclaim, hzero]
          obtain ⟨last, hlast, hflag, hiff⟩ := ih hnext hone hfound'
          exact ⟨last, hlast, hflag, (and_iff_right ((h.apart_iff hclaim).mpr hzero)).trans hiff⟩
        · obtain ⟨last, hlast, hmono, hflag⟩ := hnext.run_mono hfound' events
          refine ⟨last, hlast, hflag, iff_of_false ?_ ?_⟩
          · exact fun hall => hzero ((h.apart_iff hclaim).mp hall.1)
          · have htwo := hcount.1 hclaim
            change ¬ claimed (s.run (event :: events)) last ≤ 1
            change claimed (s.step event) next ≤ claimed (s.run (event :: events)) last at hmono
            omega
      · have hapart : Apart s event := fun w move heq hphase hunset =>
          absurd ⟨w, move, heq, hphase, hunset⟩ hclaim
        have hone : claimed (s.step event) next ≤ 1 := (hcount.2 hclaim).le.trans hle
        obtain ⟨last, hlast, hflag, hiff⟩ := ih hnext hone hfound'
        exact ⟨last, hlast, hflag, (and_iff_right hapart).trans hiff⟩

/-- Once every worker has finished, the flip list and the values belong to one bag if at
most one move was written. -/
theorem Invariant.agrees_iff (h : Invariant bags s written) (hfinished : s.Finished)
    {bagSize : Nat} (hpos : 0 < bagSize)
    (hsize : ∀ w move, some move ∈ bags w → move.metaValues.length = bagSize)
    (hfound : s.isSolutionFound = true → 1 ≤ claimed s written) :
    Agrees bags s ↔ claimed s written ≤ 1 := by
  have hclaimed : claimed s written = written.length := by simp [claimed, hfinished _, Phase.claims]
  have hvalues : s.newMetaValues = written.flatMap Move.metaValues :=
    h.values.2 fun w rest heq => by simp [hfinished w] at heq
  have hlength : s.newMetaValues.length = written.length * bagSize := by
    rw [hvalues, List.length_flatMap, List.map_congr_left (g := fun _ => bagSize)]
    · simp
    · intro move hmove
      obtain ⟨w, hw⟩ := h.written_mem move hmove
      exact hsize w move hw
  rw [hclaimed] at hfound ⊢
  constructor
  · intro hagrees
    by_contra htwo
    have hflag : s.isSolutionFound = true := by
      by_contra hunset
      have hnil := (h.announced (Bool.eq_false_iff.mpr hunset)).1
      simp [hnil] at htwo
    obtain ⟨w, move, hmove, -, hone⟩ := hagrees hflag
    rw [hone, hsize w move hmove] at hlength
    have hle : 2 * bagSize ≤ written.length * bagSize := Nat.mul_le_mul_right _ (by omega)
    omega
  · intro hle hflag
    obtain ⟨move, hmove⟩ := List.length_eq_one_iff.mp (Nat.le_antisymm hle (hfound hflag))
    obtain ⟨w, hw⟩ := h.written_mem move (by simp [hmove])
    exact ⟨w, move, hw, by rw [h.solution, hmove]; rfl, by rw [hvalues, hmove]; simp⟩

/-- When all workers of a round have finished, what it commits belongs to one bag exactly
if no worker read the unset flag while another was about to set it. -/
theorem agrees_iff_allApart (bags : Fin workers → List (Option Move)) {bagSize : Nat}
    (hpos : 0 < bagSize)
    (hsize : ∀ w move, some move ∈ bags w → move.metaValues.length = bagSize)
    (events : List (Event workers)) (hfinished : ((start bags).run events).Finished) :
    Agrees bags ((start bags).run events) ↔ AllApart (start bags) events := by
  have hzero : claimed (start bags) [] = 0 := by simp [claimed, start, Phase.claims]
  have hunset : (start bags).isSolutionFound ≠ true := by simp [start]
  have hstart : Invariant bags (start bags) [] := invariant_start
  obtain ⟨written, hlast, hfound, hiff⟩ := hstart.run
    (by rw [hzero]; exact Nat.zero_le 1) (fun hflag => absurd hflag hunset) events
  rw [hlast.agrees_iff hfinished hpos hsize hfound, hiff]

/-- Two workers with an improving move each. The second one reads the flag when the first one has
set it. -/
theorem agrees_iff_allApart_two :
    let bags : Fin 2 → List (Option Move) :=
      ![[none, some ⟨[4], [(0, 1, 1, 2)]⟩], [some ⟨[1], [(0, 0, 1, 2)]⟩, none]]
    let events := [0, 1, 0, 0, 0, 1, 0, 0, 0, 0, 1].map Event.worker
    Agrees bags ((start bags).run events) ↔ AllApart (start bags) events :=
  agrees_iff_allApart _ (Nat.zero_lt_one) (by simp [Fin.forall_fin_two]) _
    (by unfold State.Finished; decide)

/-- Two workers that both read the unset flag: the second flip list replaces the first,
but the new values of both bags are kept. -/
theorem exists_two_commits :
    let first : Move := ⟨[1], [(0, 0, 1, 2)]⟩
    let second : Move := ⟨[4], [(0, 1, 1, 1)]⟩
    let bags : Fin 2 → List (Option Move) := ![[some first], [some second]]
    let events := [0, 1, 0, 1, 0, 1, 0, 0, 0, 0, 1, 1, 1, 1].map Event.worker
    ((start bags).run events).Finished ∧
      ((start bags).run events).solution = second.flipped ∧
      ((start bags).run events).newMetaValues = first.metaValues ++ second.metaValues ∧
      ¬ Agrees bags ((start bags).run events) := by
  intro first second bags events
  refine ⟨by unfold State.Finished; decide, by decide, by decide, fun hagrees => ?_⟩
  obtain ⟨w, move, hmove, -, hvalues⟩ := hagrees (by decide)
  have hlength : ∀ w, some move ∈ bags w → move.metaValues.length = 1 := by
    refine Fin.forall_fin_two.mpr ⟨?_, ?_⟩
    · intro hmem
      obtain rfl := Option.some.inj (List.mem_singleton.mp hmem)
      rfl
    · intro hmem
      obtain rfl := Option.some.inj (List.mem_singleton.mp hmem)
      rfl
  have hone := hlength w hmove
  rw [← hvalues] at hone
  exact absurd hone (by decide)

end Round

end LatinSquares.LocalSearch
