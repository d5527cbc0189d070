/-
# Waiting for the threads of a round

The pool of `utils/thread_pool.hpp` as `solve` uses it: the main thread pushes the tasks of a
round and calls `wait_for_tasks_conditional`, and every worker runs tasks and notifies when the
counter of unfinished tasks is zero. Each thread takes its steps in its own time. The counter is
decremented and the notification sent without the mutex of the waiter, so the last worker can be
done between the test of the main thread and its wait.
-/

import Mathlib.Data.Fintype.Basic
import LatinSquares.Math.Tally

namespace LatinSquares.LocalSearch

open LatinSquares.Math

/-- Where the main thread is. -/
inductive MainState where
  /-- Between two rounds. -/
  | idle
  /-- In the loop of `push_task`, with this many tasks left. -/
  | pushing (left : Nat)
  /-- In `push_task` after `tasks_total++`. -/
  | counted (left : Nat)
  /-- In front of the test of `wait_for_tasks_conditional`. -/
  | testing
  /-- The test has found tasks, and `notifier.wait` comes next. -/
  | aboutToWait
  /-- Blocked in `notifier.wait`. -/
  | blocked
  /-- The wait is over, and `reset_queue` comes next. -/
  | finished
  deriving DecidableEq, Repr

/-- Where a worker is. -/
inductive WorkerState where
  /-- At the head of its loop. -/
  | idle
  /-- With a task out of the queue. -/
  | running
  /-- After `tasks_total--`, in front of the test. -/
  | decremented
  /-- The test has found zero, and `notifier.notify_all` comes next. -/
  | notifying
  deriving DecidableEq, Repr

/-- The state of a pool with workers `ι`. -/
structure ThreadPool (ι : Type) where
  main : MainState
  worker : ι → WorkerState
  tasksTotal : Nat
  tasks : Nat

/-- A step of the main thread, or of a worker. -/
inductive PoolAction (ι : Type) where
  /-- The main thread comes to the tasks of a round. -/
  | start (tasks : Nat)
  | count
  | push
  /-- All tasks are pushed. -/
  | await
  | test
  | wait
  /-- A condition variable may wake its waiter for no reason. -/
  | wakeSpuriously
  | resetQueue
  | pop (worker : ι)
  | finish (worker : ι)
  | check (worker : ι)
  | notify (worker : ι)

namespace ThreadPool

variable {ι : Type} [DecidableEq ι]

/-- A worker goes on. -/
def setWorker (s : ThreadPool ι) (w : ι) (state : WorkerState) : ThreadPool ι :=
  { s with worker := Function.update s.worker w state }

/-- One step, if the thread is there. -/
def step (s : ThreadPool ι) : PoolAction ι → Option (ThreadPool ι)
  | .start tasks => if s.main = .idle then some { s with main := .pushing tasks } else none
  | .count => match s.main with
      | .pushing (left + 1) =>
          some { s with main := .counted left, tasksTotal := s.tasksTotal + 1 }
      | _ => none
  | .push => match s.main with
      | .counted left => some { s with main := .pushing left, tasks := s.tasks + 1 }
      | _ => none
  | .await => if s.main = .pushing 0 then some { s with main := .testing } else none
  | .test =>
      if s.main = .testing then
        some { s with main := if s.tasksTotal = 0 then .finished else .aboutToWait }
      else none
  | .wait => if s.main = .aboutToWait then some { s with main := .blocked } else none
  | .wakeSpuriously => if s.main = .blocked then some { s with main := .testing } else none
  | .resetQueue =>
      if s.main = .finished then
        if s.tasks = 0 then some { s with main := .idle }
        else some { s with main := .idle, tasks := s.tasks - 1, tasksTotal := s.tasksTotal - 1 }
      else none
  | .pop w =>
      if s.worker w = .idle ∧ s.tasks ≠ 0 then
        some ({ s with tasks := s.tasks - 1 }.setWorker w .running)
      else none
  | .finish w =>
      if s.worker w = .running then
        some ({ s with tasksTotal := s.tasksTotal - 1 }.setWorker w .decremented)
      else none
  | .check w =>
      if s.worker w = .decremented then
        some (s.setWorker w (if s.tasksTotal = 0 then .notifying else .idle))
      else none
  | .notify w =>
      if s.worker w = .notifying then
        let main := if s.main = MainState.blocked then .testing else s.main
        some ({ s with main }.setWorker w .idle)
      else none

/-- A run of the pool. -/
def run (s : ThreadPool ι) (actions : List (PoolAction ι)) : Option (ThreadPool ι) :=
  actions.foldlM step s

/-- The pool after its construction. -/
def initial (ι : Type) : ThreadPool ι where
  main := .idle
  worker _ := .idle
  tasksTotal := 0
  tasks := 0

/-- A worker has decremented the counter and not notified yet. -/
def NotifyPending (s : ThreadPool ι) : Prop :=
  ∃ w, s.worker w = .decremented ∨ s.worker w = .notifying

/-- The main thread waits for a notification that nobody has to send. -/
def Hangs (s : ThreadPool ι) : Prop := s.main = .blocked ∧ s.tasksTotal = 0 ∧ ¬ s.NotifyPending

/-- A wait that begins now is woken: there are tasks, or a notification is still to come. -/
def InTime (s : ThreadPool ι) : Prop := s.tasksTotal ≠ 0 ∨ s.NotifyPending

variable {s s' : ThreadPool ι} {a : PoolAction ι} {w v : ι} {actions : List (PoolAction ι)}

theorem worker_setWorker (s : ThreadPool ι) (w v : ι) (state : WorkerState) :
    (s.setWorker w state).worker v = if v = w then state else s.worker v :=
  Function.update_apply ..

theorem run_append_singleton (s : ThreadPool ι) (actions : List (PoolAction ι))
    (a : PoolAction ι) : s.run (actions ++ [a]) = (s.run actions).bind fun s => s.step a := by
  unfold run
  rw [List.foldlM_append]
  simp

/-- A notification stays to be sent while other workers go on. -/
theorem NotifyPending.setWorker {state : WorkerState} (h : s.NotifyPending)
    (hw : s.worker w ≠ .decremented ∧ s.worker w ≠ .notifying) :
    (s.setWorker w state).NotifyPending := by
  obtain ⟨v, hv⟩ := h
  have hne : v ≠ w := by
    intro heq
    subst heq
    exact hv.elim hw.1 hw.2
  refine ⟨v, ?_⟩
  rw [worker_setWorker, if_neg hne]
  exact hv

/-- The steps there are, one for each branch of `step`. -/
inductive Steps (s : ThreadPool ι) : PoolAction ι → ThreadPool ι → Prop
  | start {tasks : Nat} (hmain : s.main = .idle) :
      Steps s (.start tasks) { s with main := .pushing tasks }
  | count {left : Nat} (hmain : s.main = .pushing (left + 1)) :
      Steps s .count { s with main := .counted left, tasksTotal := s.tasksTotal + 1 }
  | push {left : Nat} (hmain : s.main = .counted left) :
      Steps s .push { s with main := .pushing left, tasks := s.tasks + 1 }
  | await (hmain : s.main = .pushing 0) : Steps s .await { s with main := .testing }
  | pass (hmain : s.main = .testing) (htotal : s.tasksTotal = 0) :
      Steps s .test { s with main := .finished }
  | fail (hmain : s.main = .testing) (htotal : s.tasksTotal ≠ 0) :
      Steps s .test { s with main := .aboutToWait }
  | wait (hmain : s.main = .aboutToWait) : Steps s .wait { s with main := .blocked }
  | wakeSpuriously (hmain : s.main = .blocked) :
      Steps s .wakeSpuriously { s with main := .testing }
  | resetEmpty (hmain : s.main = .finished) (htasks : s.tasks = 0) :
      Steps s .resetQueue { s with main := .idle }
  | resetQueue (hmain : s.main = .finished) (htasks : s.tasks ≠ 0) :
      Steps s .resetQueue
        { s with main := .idle, tasks := s.tasks - 1, tasksTotal := s.tasksTotal - 1 }
  | pop (w : ι) (hworker : s.worker w = .idle) (htasks : s.tasks ≠ 0) :
      Steps s (.pop w) ({ s with tasks := s.tasks - 1 }.setWorker w .running)
  | finish (w : ι) (hworker : s.worker w = .running) :
      Steps s (.finish w) ({ s with tasksTotal := s.tasksTotal - 1 }.setWorker w .decremented)
  | checkLast (w : ι) (hworker : s.worker w = .decremented) (htotal : s.tasksTotal = 0) :
      Steps s (.check w) (s.setWorker w .notifying)
  | check (w : ι) (hworker : s.worker w = .decremented) (htotal : s.tasksTotal ≠ 0) :
      Steps s (.check w) (s.setWorker w .idle)
  | wake (w : ι) (hworker : s.worker w = .notifying) (hmain : s.main = .blocked) :
      Steps s (.notify w) ({ s with main := .testing }.setWorker w .idle)
  | notify (w : ι) (hworker : s.worker w = .notifying) (hmain : s.main ≠ .blocked) :
      Steps s (.notify w) (s.setWorker w .idle)

theorem steps_of_step (h : s.step a = some s') : Steps s a s' := by
  cases a with
  | start tasks =>
      obtain ⟨hmain, rfl⟩ := Option.ite_some_none_eq_some.mp h
      exact .start hmain
  | count =>
      simp only [step] at h
      split at h
      · next left hmain =>
          obtain rfl := Option.some.inj h
          exact .count hmain
      · cases h
  | push =>
      simp only [step] at h
      split at h
      · next left hmain =>
          obtain rfl := Option.some.inj h
          exact .push hmain
      · cases h
  | await =>
      obtain ⟨hmain, rfl⟩ := Option.ite_some_none_eq_some.mp h
      exact .await hmain
  | test =>
      obtain ⟨hmain, rfl⟩ := Option.ite_some_none_eq_some.mp h
      split
      · next htotal => exact .pass hmain htotal
      · next htotal => exact .fail hmain htotal
  | wait =>
      obtain ⟨hmain, rfl⟩ := Option.ite_some_none_eq_some.mp h
      exact .wait hmain
  | wakeSpuriously =>
      obtain ⟨hmain, rfl⟩ := Option.ite_some_none_eq_some.mp h
      exact .wakeSpuriously hmain
  | resetQueue =>
      obtain ⟨hmain, h⟩ := Option.ite_none_right_eq_some.mp h
      split at h
      · next htasks =>
          obtain rfl := Option.some.inj h
          exact .resetEmpty hmain htasks
      · next htasks =>
          obtain rfl := Option.some.inj h
          exact .resetQueue hmain htasks
  | pop w =>
      obtain ⟨⟨hworker, htasks⟩, rfl⟩ := Option.ite_some_none_eq_some.mp h
      exact .pop w hworker htasks
  | finish w =>
      obtain ⟨hworker, rfl⟩ := Option.ite_some_none_eq_some.mp h
      exact .finish w hworker
  | check w =>
      obtain ⟨hworker, rfl⟩ := Option.ite_some_none_eq_some.mp h
      split
      · next htotal => exact .checkLast w hworker htotal
      · next htotal => exact .check w hworker htotal
  | notify w =>
      obtain ⟨hworker, rfl⟩ := Option.ite_some_none_eq_some.mp h
      split
      · next hmain => exact .wake w hworker hmain
      · next hmain => exact .notify w hworker hmain

/-- Only a wait that begins too late brings the pool to a halt. -/
theorem not_hangs_step (h : s.step a = some s') (hs : ¬ s.Hangs) (hwait : a = .wait → s.InTime) :
    ¬ s'.Hangs := by
  rintro ⟨hblocked, hzero, hnone⟩
  cases steps_of_step h with
  | wait hmain => exact (hwait rfl).elim (fun htotal => htotal hzero) hnone
  | pop w hworker htasks =>
      refine hs ⟨hblocked, hzero, fun hpending => hnone ?_⟩
      exact NotifyPending.setWorker (s := { s with tasks := s.tasks - 1 }) hpending
        (by simp [hworker])
  | finish w hworker => exact hnone ⟨_, Or.inl (by rw [worker_setWorker, if_pos rfl])⟩
  | checkLast w hworker htotal => exact hnone ⟨_, Or.inr (by rw [worker_setWorker, if_pos rfl])⟩
  | check w hworker htotal => exact htotal hzero
  | notify w hworker hmain => exact hmain hblocked
  -- the main thread is somewhere else afterwards
  | _ => cases hblocked

/-- A run never hangs if and only if each of its waits begins while there are tasks or a worker
has still to notify. -/
theorem never_hangs_iff (h : (initial ι).run actions = some s') :
    (∀ before, before <+: actions → ∀ s, (initial ι).run before = some s → ¬ s.Hangs) ↔
      ∀ before, before ++ [.wait] <+: actions → ∀ s, (initial ι).run before = some s →
        s.InTime := by
  constructor
  · intro hnever before hbefore s hs
    by_contra hlate
    obtain ⟨htotal, hpending⟩ := not_or.mp hlate
    -- the wait has been taken in the run, so the main thread was in front of it
    obtain ⟨after, hafter⟩ := hbefore
    obtain ⟨waiting, hwaiting⟩ : ∃ waiting, (initial ι).run (before ++ [.wait]) = some waiting := by
      rw [← hafter] at h
      unfold run at h ⊢
      rw [List.foldlM_append] at h
      obtain ⟨waiting, hwaiting, -⟩ := Option.bind_eq_some_iff.mp h
      exact ⟨waiting, hwaiting⟩
    refine hnever _ ⟨after, hafter⟩ waiting hwaiting ?_
    rw [run_append_singleton, hs, Option.bind_some] at hwaiting
    simp only [step, Option.ite_none_right_eq_some, Option.some.injEq] at hwaiting
    obtain ⟨-, rfl⟩ := hwaiting
    exact ⟨rfl, not_not.mp htotal, hpending⟩
  · intro hwaits before
    induction before using List.reverseRecOn with
    | nil =>
        rintro - s hs ⟨hblocked, -⟩
        cases hs
        cases hblocked
    | append_singleton before a ih =>
        intro hbefore s' hs'
        rw [run_append_singleton] at hs'
        obtain ⟨s, hs, hstep⟩ := Option.bind_eq_some_iff.mp hs'
        apply not_hangs_step hstep
        · exact ih ((List.prefix_append before [a]).trans hbefore) s hs
        · rintro rfl
          exact hwaits before hbefore s hs

/-- One worker and one task: the worker is done between the test and the wait. -/
def lateWait : List (PoolAction (Fin 1)) :=
  [.start 1, .count, .push, .await, .test, .pop 0, .finish 0, .check 0, .notify 0, .wait]

theorem never_hangs_iff_lateWait :
    (∀ before, before <+: lateWait → ∀ s, (initial (Fin 1)).run before = some s → ¬ s.Hangs) ↔
      ∀ before, before ++ [.wait] <+: lateWait → ∀ s, (initial (Fin 1)).run before = some s →
        s.InTime :=
  never_hangs_iff rfl

theorem not_never_hangs :
    ¬ ∀ (workers : Nat) (actions : List (PoolAction (Fin workers))) (s : ThreadPool (Fin workers)),
      (initial (Fin workers)).run actions = some s → ¬ s.Hangs := by
  intro h
  apply h 1 lateWait _ rfl
  refine ⟨rfl, rfl, ?_⟩
  rintro ⟨w, hw⟩
  rw [Subsingleton.elim w 0] at hw
  revert hw
  decide

section Stuck

variable [Fintype ι]

/-- How many workers run a task. -/
def tasksRunning (s : ThreadPool ι) : Nat := tally Finset.univ s.worker .running

/-- The task that `push_task` has counted and not pushed yet. -/
def betweenCountAndPush : MainState → Nat
  | .counted _ => 1
  | _ => 0

/-- A task that is counted is about to be pushed, in the queue or with a worker. -/
def Balanced (s : ThreadPool ι) : Prop :=
  s.tasksTotal = s.tasks + s.tasksRunning + betweenCountAndPush s.main

theorem tasksRunning_setWorker (s : ThreadPool ι) (w : ι) (state : WorkerState) :
    ((s.setWorker w state).tasksRunning : Int) = s.tasksRunning -
      (if s.worker w = .running then 1 else 0) + if state = .running then 1 else 0 :=
  tally_update (Finset.mem_univ w)

theorem balanced_step (h : s.step a = some s') (hs : s.Balanced) : s'.Balanced := by
  unfold Balanced at hs ⊢
  cases steps_of_step h with
  | count hmain =>
      rw [hmain] at hs
      exact congrArg (· + 1) hs
  | push hmain =>
      rw [hmain] at hs
      simp only [betweenCountAndPush] at hs ⊢
      rw [hs]
      exact Nat.add_right_comm ..
  | resetQueue hmain htasks =>
      have hsame : ThreadPool.tasksRunning { s with
          main := .idle, tasks := s.tasks - 1, tasksTotal := s.tasksTotal - 1 } =
            s.tasksRunning := rfl
      rw [hmain] at hs
      simp only [betweenCountAndPush] at hs ⊢
      omega
  | pop w hworker htasks =>
      have hsame : ThreadPool.tasksRunning { s with tasks := s.tasks - 1 } = s.tasksRunning := rfl
      have hrunning := tasksRunning_setWorker { s with tasks := s.tasks - 1 } w .running
      simp only [hworker, reduceCtorEq, if_false, if_true] at hrunning
      simp only [setWorker] at hrunning ⊢
      omega
  | finish w hworker =>
      have hsame :
          ThreadPool.tasksRunning { s with tasksTotal := s.tasksTotal - 1 } = s.tasksRunning := rfl
      have hrunning :=
        tasksRunning_setWorker { s with tasksTotal := s.tasksTotal - 1 } w .decremented
      simp only [hworker, reduceCtorEq, if_false, if_true] at hrunning
      simp only [setWorker] at hrunning ⊢
      omega
  | checkLast w hworker htotal =>
      have hrunning := tasksRunning_setWorker s w .notifying
      simp only [hworker, reduceCtorEq, if_false] at hrunning
      simp only [setWorker] at hrunning ⊢
      omega
  | check w hworker htotal =>
      have hrunning := tasksRunning_setWorker s w .idle
      simp only [hworker, reduceCtorEq, if_false] at hrunning
      simp only [setWorker] at hrunning ⊢
      omega
  | wake w hworker hmain =>
      have hsame : ThreadPool.tasksRunning { s with main := .testing } = s.tasksRunning := rfl
      have hrunning := tasksRunning_setWorker { s with main := .testing } w .idle
      simp only [hworker, reduceCtorEq, if_false] at hrunning
      rw [hmain] at hs
      simp only [setWorker, betweenCountAndPush] at hrunning hs ⊢
      omega
  | notify w hworker hmain =>
      have hrunning := tasksRunning_setWorker s w .idle
      simp only [hworker, reduceCtorEq, if_false] at hrunning
      simp only [setWorker] at hrunning ⊢
      omega
  -- the main thread goes on, and nothing is counted
  | start hmain | await hmain | pass hmain _ | fail hmain _ | wait hmain | wakeSpuriously hmain
  | resetEmpty hmain _ =>
      rw [hmain] at hs
      exact hs

theorem balanced_run (h : (initial ι).run actions = some s) : s.Balanced := by
  induction actions using List.reverseRecOn generalizing s with
  | nil =>
      cases h
      simp [Balanced, tasksRunning, initial, betweenCountAndPush, tally]
  | append_singleton actions a ih =>
      rw [run_append_singleton] at h
      obtain ⟨before, hbefore, hstep⟩ := Option.bind_eq_some_iff.mp h
      exact balanced_step hstep (ih hbefore)

/-- A pool that hangs has no step left, unless the main thread wakes for no reason. -/
theorem eq_wakeSpuriously_of_hangs (h : (initial ι).run actions = some s) (hs : s.Hangs)
    (hstep : s.step a = some s') : a = .wakeSpuriously := by
  obtain ⟨hblocked, hzero, hnone⟩ := hs
  have hbalanced := balanced_run h
  unfold Balanced at hbalanced
  have htasks : s.tasks = 0 := by omega
  have hrunning (w : ι) : s.worker w ≠ .running := by
    intro hw
    have hpos : 0 < tally Finset.univ s.worker (s.worker w) := tally_pos (Finset.mem_univ w)
    rw [hw] at hpos
    unfold tasksRunning at hbalanced
    omega
  cases a with
  | wakeSpuriously => rfl
  | finish w => simp [step, hrunning w] at hstep
  | check w =>
      simp only [step, Option.ite_none_right_eq_some] at hstep
      exact absurd ⟨w, Or.inl hstep.1⟩ hnone
  | notify w =>
      simp only [step, Option.ite_none_right_eq_some] at hstep
      exact absurd ⟨w, Or.inr hstep.1⟩ hnone
  | _ => simp [step, hblocked, htasks] at hstep

/-- Between two rounds all tasks are done. -/
def Clean (s : ThreadPool ι) : Prop := s.main = .idle ∨ s.main = .finished → s.tasksTotal = 0

omit [Fintype ι] in
theorem clean_step (h : s.step a = some s') (hs : s.Clean) : s'.Clean := by
  unfold Clean at hs ⊢
  cases steps_of_step h with
  | pass hmain htotal => exact fun _ => htotal
  | resetEmpty hmain htasks => exact fun _ => hs (Or.inr hmain)
  | resetQueue hmain htasks => exact fun _ => by simp [hs (Or.inr hmain)]
  | finish w hworker => exact fun hmain => by simp [setWorker, hs hmain]
  | pop | checkLast | check | notify => exact hs
  | _ => simp [setWorker]

omit [DecidableEq ι] in
/-- Without unfinished tasks nothing is left in the queue or with a worker. -/
theorem Balanced.eq_zero (hs : s.Balanced) (hzero : s.tasksTotal = 0) :
    s.tasks = 0 ∧ ∀ w, s.worker w ≠ .running := by
  unfold Balanced at hs
  refine ⟨by omega, fun w hw => ?_⟩
  have hpos : 0 < tally Finset.univ s.worker (s.worker w) := tally_pos (Finset.mem_univ w)
  rw [hw] at hpos
  unfold tasksRunning at hs
  omega

end Stuck

section Rank

variable [Fintype ι]

/-- The steps that the threads take by themselves. -/
def Own : PoolAction ι → Prop
  | .start _ => False
  | .wakeSpuriously => False
  | _ => True

/-- How many steps are left for the main thread, and for the workers with its tasks. -/
def mainRank : MainState → Nat
  | .idle => 0
  | .pushing left => 8 * left + 4
  | .counted left => 8 * left + 11
  | .testing => 3
  | .aboutToWait => 2
  | .blocked => 1
  | .finished => 1

/-- How many steps are left for a worker, and for the main thread if the worker wakes it. -/
def workerRank : WorkerState → Nat
  | .idle => 0
  | .running => 5
  | .decremented => 4
  | .notifying => 3

def rank (s : ThreadPool ι) : Nat := mainRank s.main + 6 * s.tasks + ∑ w, workerRank (s.worker w)

theorem sum_workerRank_setWorker (s : ThreadPool ι) (w : ι) (state : WorkerState) :
    (∑ v, workerRank ((s.setWorker w state).worker v)) + workerRank (s.worker w) =
      (∑ v, workerRank (s.worker v)) + workerRank state :=
  sum_update_add s.worker w state workerRank

/-- Every step brings the round nearer to its end. -/
theorem rank_step (h : s.step a = some s') (hown : Own a) : s'.rank < s.rank := by
  unfold rank
  cases steps_of_step h with
  | start hmain => exact hown.elim
  | wakeSpuriously hmain => exact hown.elim
  | pop w hworker htasks =>
      have hsum := sum_workerRank_setWorker { s with tasks := s.tasks - 1 } w .running
      simp only [hworker, workerRank, setWorker] at hsum ⊢
      omega
  | finish w hworker =>
      have hsum :=
        sum_workerRank_setWorker { s with tasksTotal := s.tasksTotal - 1 } w .decremented
      simp only [hworker, workerRank, setWorker] at hsum ⊢
      omega
  | checkLast w hworker htotal =>
      have hsum := sum_workerRank_setWorker s w .notifying
      simp only [hworker, workerRank, setWorker] at hsum ⊢
      omega
  | check w hworker htotal =>
      have hsum := sum_workerRank_setWorker s w .idle
      simp only [hworker, workerRank, setWorker] at hsum ⊢
      omega
  | wake w hworker hmain =>
      have hsum := sum_workerRank_setWorker { s with main := .testing } w .idle
      simp only [hworker, hmain, workerRank, mainRank, setWorker] at hsum ⊢
      omega
  | notify w hworker hmain =>
      have hsum := sum_workerRank_setWorker s w .idle
      simp only [hworker, workerRank, setWorker] at hsum ⊢
      omega
  | count hmain | push hmain | await hmain | pass hmain _ | fail hmain _ | wait hmain
  | resetEmpty hmain _ | resetQueue hmain _ =>
      simp only [hmain, mainRank]
      omega

end Rank

end ThreadPool

end LatinSquares.LocalSearch
