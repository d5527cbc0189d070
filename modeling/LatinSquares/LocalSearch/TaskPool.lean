/-
# The tasks of a pool

The pool with its tasks instead of their numbers: `push_task` puts a task into the queue, a worker
takes the first one and runs it, and `reset_queue` drops the first one that is left. Forgetting
which tasks there are leads to the pool that counts them. A round runs each of its tasks once and
then ends or hangs, in whatever order the threads take their steps.
-/

import LatinSquares.LocalSearch.ThreadPool
import Mathlib.Algebra.Order.Group.Multiset
import Mathlib.Tactic.Abel

namespace LatinSquares.LocalSearch

open LatinSquares.Math

/-- Where the main thread is, with the tasks that it has still to push. -/
inductive TaskMain (T : Type) where
  | idle
  | pushing (left : List T)
  | counted (task : T) (left : List T)
  | testing
  | aboutToWait
  | blocked
  | finished

/-- Where a worker is, with the task that it runs. -/
inductive TaskWorker (T : Type) where
  | idle
  | running (task : T)
  | decremented
  | notifying

/-- The state of a pool with workers `ι` and tasks `T`, and the tasks that have been run. -/
structure TaskPool (ι T : Type) where
  main : TaskMain T
  worker : ι → TaskWorker T
  tasksTotal : Nat
  tasks : List T
  executed : List T

/-- A step of the main thread, or of a worker. -/
inductive TaskAction (ι T : Type) where
  | start (tasks : List T)
  | count
  | push
  | await
  | test
  | wait
  | wakeSpuriously
  | resetQueue
  | pop (worker : ι)
  | finish (worker : ι)
  | check (worker : ι)
  | notify (worker : ι)

namespace TaskMain

variable {T : Type}

/-- The same place, with the number of the tasks. -/
def forget : TaskMain T → MainState
  | idle => .idle
  | pushing left => .pushing left.length
  | counted _ left => .counted left.length
  | testing => .testing
  | aboutToWait => .aboutToWait
  | blocked => .blocked
  | finished => .finished

/-- The tasks that are not in the queue yet. -/
def unpushed : TaskMain T → List T
  | pushing left => left
  | counted task left => task :: left
  | _ => []

@[simp] theorem forget_testing : (testing : TaskMain T).forget = .testing := rfl

@[simp] theorem forget_aboutToWait : (aboutToWait : TaskMain T).forget = .aboutToWait := rfl

@[simp] theorem forget_finished : (finished : TaskMain T).forget = .finished := rfl

/-- `notify_all` ends a wait. -/
def notified : TaskMain T → TaskMain T
  | blocked => testing
  | main => main

end TaskMain

namespace TaskWorker

variable {T : Type}

def forget : TaskWorker T → WorkerState
  | idle => .idle
  | running _ => .running
  | decremented => .decremented
  | notifying => .notifying

@[simp] theorem forget_idle : (idle : TaskWorker T).forget = .idle := rfl

@[simp] theorem forget_running (task : T) : (running task).forget = .running := rfl

@[simp] theorem forget_decremented : (decremented : TaskWorker T).forget = .decremented := rfl

@[simp] theorem forget_notifying : (notifying : TaskWorker T).forget = .notifying := rfl

/-- The task that a worker has taken out of the queue. -/
def holding : TaskWorker T → Multiset T
  | running task => {task}
  | _ => 0

@[simp] theorem holding_idle : (idle : TaskWorker T).holding = 0 := rfl

@[simp] theorem holding_running (task : T) : (running task).holding = {task} := rfl

@[simp] theorem holding_decremented : (decremented : TaskWorker T).holding = 0 := rfl

@[simp] theorem holding_notifying : (notifying : TaskWorker T).holding = 0 := rfl

end TaskWorker

/-- The same step, with the number of the tasks. -/
def TaskAction.forget {ι T : Type} : TaskAction ι T → PoolAction ι
  | start tasks => .start tasks.length
  | count => .count
  | push => .push
  | await => .await
  | test => .test
  | wait => .wait
  | wakeSpuriously => .wakeSpuriously
  | resetQueue => .resetQueue
  | pop w => .pop w
  | finish w => .finish w
  | check w => .check w
  | notify w => .notify w

/-- The tasks that a step brings. -/
def TaskAction.given {ι T : Type} : TaskAction ι T → List T
  | start tasks => tasks
  | _ => []

namespace TaskPool

variable {ι T : Type} [DecidableEq ι]

/-- A worker goes on. -/
def setWorker (s : TaskPool ι T) (w : ι) (state : TaskWorker T) : TaskPool ι T :=
  { s with worker := Function.update s.worker w state }

/-- One step. -/
inductive Step : TaskPool ι T → TaskAction ι T → TaskPool ι T → Prop
  | start {s : TaskPool ι T} {tasks : List T} (hmain : s.main = .idle) :
      Step s (.start tasks) { s with main := .pushing tasks }
  | count {s : TaskPool ι T} {task : T} {left : List T} (hmain : s.main = .pushing (task :: left)) :
      Step s .count { s with main := .counted task left, tasksTotal := s.tasksTotal + 1 }
  | push {s : TaskPool ι T} {task : T} {left : List T} (hmain : s.main = .counted task left) :
      Step s .push { s with main := .pushing left, tasks := s.tasks ++ [task] }
  | await {s : TaskPool ι T} (hmain : s.main = .pushing []) :
      Step s .await { s with main := .testing }
  | test {s : TaskPool ι T} (hmain : s.main = .testing) :
      Step s .test { s with main := if s.tasksTotal = 0 then .finished else .aboutToWait }
  | wait {s : TaskPool ι T} (hmain : s.main = .aboutToWait) :
      Step s .wait { s with main := .blocked }
  | wakeSpuriously {s : TaskPool ι T} (hmain : s.main = .blocked) :
      Step s .wakeSpuriously { s with main := .testing }
  | resetEmpty {s : TaskPool ι T} (hmain : s.main = .finished) (htasks : s.tasks = []) :
      Step s .resetQueue { s with main := .idle }
  | resetQueue {s : TaskPool ι T} {task : T} {tasks : List T} (hmain : s.main = .finished)
      (htasks : s.tasks = task :: tasks) :
      Step s .resetQueue { s with main := .idle, tasks, tasksTotal := s.tasksTotal - 1 }
  | pop {s : TaskPool ι T} {w : ι} {task : T} {tasks : List T} (hworker : s.worker w = .idle)
      (htasks : s.tasks = task :: tasks) :
      Step s (.pop w) ({ s with tasks }.setWorker w (.running task))
  | finish {s : TaskPool ι T} {w : ι} {task : T} (hworker : s.worker w = .running task) :
      Step s (.finish w) ({ s with
        executed := s.executed ++ [task], tasksTotal := s.tasksTotal - 1 }.setWorker w .decremented)
  | check {s : TaskPool ι T} {w : ι} (hworker : s.worker w = .decremented) :
      Step s (.check w) (s.setWorker w (if s.tasksTotal = 0 then .notifying else .idle))
  | notify {s : TaskPool ι T} {w : ι} (hworker : s.worker w = .notifying) :
      Step s (.notify w) ({ s with main := s.main.notified }.setWorker w .idle)

/-- A run of the pool. -/
inductive Run : TaskPool ι T → List (TaskAction ι T) → TaskPool ι T → Prop
  | nil (s : TaskPool ι T) : Run s [] s
  | cons {s s' s'' : TaskPool ι T} {a : TaskAction ι T} {actions : List (TaskAction ι T)}
      (hstep : Step s a s') (hrest : Run s' actions s'') : Run s (a :: actions) s''

/-- The pool after its construction. -/
def initial (ι T : Type) : TaskPool ι T where
  main := .idle
  worker _ := .idle
  tasksTotal := 0
  tasks := []
  executed := []

/-- The tasks of the rounds of a run. -/
def given (actions : List (TaskAction ι T)) : List T := actions.flatMap TaskAction.given

/-- The pool that counts. -/
def forget (s : TaskPool ι T) : ThreadPool ι where
  main := s.main.forget
  worker w := (s.worker w).forget
  tasksTotal := s.tasksTotal
  tasks := s.tasks.length

variable {s s' : TaskPool ι T} {a : TaskAction ι T} {actions : List (TaskAction ι T)}

theorem forget_setWorker (s : TaskPool ι T) (w : ι) (state : TaskWorker T) :
    (s.setWorker w state).forget = s.forget.setWorker w state.forget := by
  unfold forget setWorker ThreadPool.setWorker
  simp only [ThreadPool.mk.injEq, true_and, and_true]
  exact Function.comp_update TaskWorker.forget s.worker w state

theorem forget_notified (main : TaskMain T) :
    main.notified.forget = if main.forget = MainState.blocked then .testing else main.forget := by
  cases main <;> rfl

/-- Every step of the pool is one of the pool that counts. -/
theorem Step.forget (h : Step s a s') : s.forget.step a.forget = some s'.forget := by
  unfold ThreadPool.step
  cases h with
  | start hmain => simp [TaskPool.forget, TaskAction.forget, hmain, TaskMain.forget]
  | count hmain => simp [TaskPool.forget, TaskAction.forget, hmain, TaskMain.forget]
  | push hmain => simp [TaskPool.forget, TaskAction.forget, hmain, TaskMain.forget]
  | await hmain => simp [TaskPool.forget, TaskAction.forget, hmain, TaskMain.forget]
  | test hmain =>
      simp [TaskPool.forget, TaskAction.forget, hmain, apply_ite TaskMain.forget]
  | wait hmain => simp [TaskPool.forget, TaskAction.forget, hmain, TaskMain.forget]
  | wakeSpuriously hmain => simp [TaskPool.forget, TaskAction.forget, hmain, TaskMain.forget]
  | resetEmpty hmain htasks =>
      simp [TaskPool.forget, TaskAction.forget, hmain, htasks, TaskMain.forget]
  | resetQueue hmain htasks =>
      simp [TaskPool.forget, TaskAction.forget, hmain, htasks, TaskMain.forget]
  | pop hworker htasks =>
      rw [forget_setWorker]
      simp [TaskPool.forget, TaskAction.forget, hworker, htasks]
  | finish hworker =>
      rw [forget_setWorker]
      simp [TaskPool.forget, TaskAction.forget, hworker]
  | check hworker =>
      rw [forget_setWorker, apply_ite TaskWorker.forget]
      simp only [TaskPool.forget, TaskAction.forget, hworker, TaskWorker.forget_decremented,
        if_true]
      rfl
  | notify hworker =>
      rw [forget_setWorker]
      simp only [TaskPool.forget, TaskAction.forget, hworker, TaskWorker.forget_notifying, if_true,
        forget_notified]
      rfl

theorem Run.forget (h : Run s actions s') :
    s.forget.run (actions.map TaskAction.forget) = some s'.forget := by
  induction h with
  | nil s => rfl
  | cons hstep _ ih =>
      rw [List.map_cons, ThreadPool.run, List.foldlM_cons, hstep.forget]
      exact ih

section Accounts

variable [Fintype ι] {tasks : List T}

/-- Every task has been run, or is with a worker, in the queue or still to be pushed. -/
def Accounts (s : TaskPool ι T) (tasks : List T) : Prop :=
  (tasks : Multiset T) = s.executed + (∑ w, (s.worker w).holding) + s.tasks + s.main.unpushed

theorem holding_setWorker (s : TaskPool ι T) (w : ι) (state : TaskWorker T) :
    (∑ v, ((s.setWorker w state).worker v).holding) + (s.worker w).holding =
      (∑ v, (s.worker v).holding) + state.holding :=
  sum_update_add s.worker w state TaskWorker.holding

theorem unpushed_notified (main : TaskMain T) : main.notified.unpushed = main.unpushed := by
  cases main <;> rfl

/-- No step loses a task or runs one twice, unless `reset_queue` drops it. -/
theorem Accounts.step (hs : s.Accounts tasks) (h : Step s a s')
    (hreset : s.main = .finished → s.tasks = []) : s'.Accounts (tasks ++ a.given) := by
  unfold Accounts at hs ⊢
  rw [← Multiset.coe_add, hs]
  cases h with
  | start hmain =>
      simp only [hmain, TaskMain.unpushed, TaskAction.given]
      abel
  | count hmain =>
      simp only [hmain, TaskMain.unpushed, TaskAction.given]
      simp
  | push hmain =>
      simp only [hmain, TaskMain.unpushed, TaskAction.given, ← Multiset.coe_add,
        ← Multiset.cons_coe, ← Multiset.singleton_add, Multiset.coe_nil]
      abel
  | await hmain =>
      simp [hmain, TaskMain.unpushed, TaskAction.given]
  | test hmain =>
      by_cases hzero : s.tasksTotal = 0 <;>
        simp [hmain, hzero, TaskMain.unpushed, TaskAction.given]
  | wait hmain => simp [hmain, TaskMain.unpushed, TaskAction.given]
  | wakeSpuriously hmain => simp [hmain, TaskMain.unpushed, TaskAction.given]
  | resetEmpty hmain htasks => simp [hmain, TaskMain.unpushed, TaskAction.given]
  | resetQueue hmain htasks =>
      rw [hreset hmain] at htasks
      cases htasks
  | @pop w task rest hworker htasks =>
      have hsum := holding_setWorker { s with tasks := rest } w (.running task)
      simp only [hworker, TaskWorker.holding_idle, TaskWorker.holding_running, add_zero] at hsum
      rw [hsum]
      simp only [htasks, setWorker, TaskAction.given, ← Multiset.cons_coe, ← Multiset.singleton_add,
        Multiset.coe_nil]
      abel
  | @finish w task hworker =>
      have hsum := holding_setWorker
        { s with executed := s.executed ++ [task], tasksTotal := s.tasksTotal - 1 } w .decremented
      simp only [hworker, TaskWorker.holding_decremented, TaskWorker.holding_running,
        add_zero] at hsum
      rw [← hsum]
      simp only [setWorker, TaskAction.given, ← Multiset.coe_add, Multiset.coe_singleton,
        Multiset.coe_nil]
      abel
  | @check w hworker =>
      have hsum := holding_setWorker s w (if s.tasksTotal = 0 then .notifying else .idle)
      simp only [hworker, apply_ite TaskWorker.holding, TaskWorker.holding_decremented,
        TaskWorker.holding_notifying, TaskWorker.holding_idle, ite_self, add_zero] at hsum
      rw [hsum]
      simp [setWorker, TaskAction.given]
  | @notify w hworker =>
      have hsum := holding_setWorker { s with main := s.main.notified } w .idle
      simp only [hworker, TaskWorker.holding_notifying, TaskWorker.holding_idle, add_zero] at hsum
      rw [hsum]
      simp [setWorker, TaskAction.given, unpushed_notified]

/-- What holds after any number of steps. -/
structure Invariant (s : TaskPool ι T) (tasks : List T) : Prop where
  balanced : s.forget.Balanced
  clean : s.forget.Clean
  accounts : s.Accounts tasks

omit [DecidableEq ι] in
theorem invariant_initial : (initial ι T).Invariant [] where
  balanced := by
    simp [ThreadPool.Balanced, ThreadPool.tasksRunning, initial, forget, tally, TaskMain.forget,
      ThreadPool.betweenCountAndPush]
  clean _ := rfl
  accounts := by simp [Accounts, initial, TaskMain.unpushed]

omit [DecidableEq ι] in
theorem Invariant.tasks_eq_nil (h : s.Invariant tasks) (hzero : s.tasksTotal = 0) : s.tasks = [] :=
  List.length_eq_zero_iff.mp (h.balanced.eq_zero hzero).1

theorem Invariant.step (h : s.Invariant tasks) (hstep : Step s a s') :
    s'.Invariant (tasks ++ a.given) where
  balanced := ThreadPool.balanced_step hstep.forget h.balanced
  clean := ThreadPool.clean_step hstep.forget h.clean
  accounts := by
    refine h.accounts.step hstep fun hmain => h.tasks_eq_nil (h.clean (Or.inr ?_))
    change s.main.forget = .finished
    rw [hmain, TaskMain.forget_finished]

theorem Invariant.run (h : s.Invariant tasks) (hrun : Run s actions s') :
    s'.Invariant (tasks ++ given actions) := by
  induction hrun generalizing tasks with
  | nil s => rwa [given, List.flatMap_nil, List.append_nil]
  | cons hstep _ ih =>
      rw [given, List.flatMap_cons, ← List.append_assoc]
      exact ih (h.step hstep)

omit [DecidableEq ι] in
/-- Without unfinished tasks all of them have been run. -/
theorem Invariant.perm (h : s.Invariant tasks) (hzero : s.tasksTotal = 0)
    (hunpushed : s.main.unpushed = []) : s.executed.Perm tasks := by
  have hholding : ∀ w, (s.worker w).holding = 0 := by
    intro w
    have hrunning := (h.balanced.eq_zero hzero).2 w
    change (s.worker w).forget ≠ .running at hrunning
    cases hworker : s.worker w with
    | running task => exact absurd (congrArg TaskWorker.forget hworker) hrunning
    | _ => rfl
  have haccounts := h.accounts
  unfold Accounts at haccounts
  simp only [h.tasks_eq_nil hzero, hunpushed, hholding, Finset.sum_const_zero, Multiset.coe_nil,
    add_zero, Multiset.coe_eq_coe] at haccounts
  exact haccounts.symm

omit [DecidableEq ι] [Fintype ι] in
theorem unpushed_of_forget (h : s.forget.main = .finished ∨ s.forget.main = .blocked ∨
    s.forget.main = .idle) : s.main.unpushed = [] := by
  change s.main.forget = _ ∨ s.main.forget = _ ∨ s.main.forget = _ at h
  cases hmain : s.main with
  | pushing left => simp [hmain, TaskMain.forget] at h
  | counted task left => simp [hmain, TaskMain.forget] at h
  | _ => rfl

/-- When the wait of a round is over, and also when it hangs, every task that there was has been
run once, and `reset_queue` has nothing to drop. -/
theorem executed_perm (h : Run (initial ι T) actions s)
    (hover : s.forget.main = .finished ∨ s.forget.Hangs) :
    s.executed.Perm (given actions) ∧ s.tasks = [] := by
  have hinvariant := invariant_initial.run h
  have hzero : s.tasksTotal = 0 := by
    rcases hover with hmain | hhangs
    · exact hinvariant.clean (Or.inr hmain)
    · exact hhangs.2.1
  refine ⟨hinvariant.perm hzero (unpushed_of_forget ?_), hinvariant.tasks_eq_nil hzero⟩
  exact hover.imp_right fun hhangs => Or.inl hhangs.1

/-- Two workers and two tasks: the second task is done before the first one, and both before the
main thread waits for them. -/
theorem executed_perm_twoTasks : ∃ s, Run (initial (Fin 2) Nat)
      [.start [7, 8], .count, .push, .pop 1, .count, .push, .pop 0, .finish 0, .check 0,
        .finish 1, .check 1, .await, .test] s ∧
    s.executed.Perm [7, 8] ∧ s.tasks = [] := by
  obtain ⟨s, hrun, hmain⟩ : ∃ s, Run (initial (Fin 2) Nat)
      [.start [7, 8], .count, .push, .pop 1, .count, .push, .pop 0, .finish 0, .check 0,
        .finish 1, .check 1, .await, .test] s ∧
      s.forget.main = .finished :=
    ⟨_, .cons (.start rfl) <| .cons (.count rfl) <| .cons (.push rfl) <|
      .cons (.pop (w := 1) rfl rfl) <| .cons (.count rfl) <| .cons (.push rfl) <|
      .cons (.pop (w := 0) rfl rfl) <| .cons (.finish (w := 0) rfl) <|
      .cons (.check (w := 0) rfl) <| .cons (.finish (w := 1) rfl) <|
      .cons (.check (w := 1) rfl) <| .cons (.await rfl) <| .cons (.test rfl) <| .nil _, rfl⟩
  exact ⟨s, hrun, executed_perm hrun (Or.inl hmain)⟩

end Accounts

section Rounds

variable {later : List (TaskAction ι T)}

/-- A step that the thread takes by itself. -/
def Own (a : TaskAction ι T) : Prop := ThreadPool.Own a.forget

/-- Nobody takes a step any more. -/
def Stuck (s : TaskPool ι T) : Prop := ∀ a s', Own a → ¬ Step s a s'

theorem Stuck.worker_eq_idle (h : s.Stuck) (w : ι) : s.worker w = .idle := by
  cases hworker : s.worker w with
  | idle => rfl
  | running task => exact absurd (Step.finish hworker) (h _ _ trivial)
  | decremented => exact absurd (Step.check hworker) (h _ _ trivial)
  | notifying => exact absurd (Step.notify hworker) (h _ _ trivial)

theorem Stuck.tasks_eq_nil [Nonempty ι] (h : s.Stuck) : s.tasks = [] := by
  obtain ⟨w⟩ := ‹Nonempty ι›
  cases htasks : s.tasks with
  | nil => rfl
  | cons task tasks => exact absurd (Step.pop (h.worker_eq_idle w) htasks) (h _ _ trivial)

/-- A pool without a step is between two rounds or waits. -/
theorem Stuck.main_eq [Nonempty ι] (h : s.Stuck) : s.main = .idle ∨ s.main = .blocked := by
  cases hmain : s.main with
  | idle => exact Or.inl rfl
  | blocked => exact Or.inr rfl
  | pushing left =>
      cases left with
      | nil => exact absurd (Step.await hmain) (h _ _ trivial)
      | cons task left => exact absurd (Step.count hmain) (h _ _ trivial)
  | counted task left => exact absurd (Step.push hmain) (h _ _ trivial)
  | testing => exact absurd (Step.test hmain) (h _ _ trivial)
  | aboutToWait => exact absurd (Step.wait hmain) (h _ _ trivial)
  | finished => exact absurd (Step.resetEmpty hmain h.tasks_eq_nil) (h _ _ trivial)

variable [Fintype ι]

theorem Stuck.tasksTotal_eq_zero [Nonempty ι] (h : s.Stuck) (hbalanced : s.forget.Balanced) :
    s.tasksTotal = 0 := by
  have hrunning : s.forget.tasksRunning = 0 := by
    unfold ThreadPool.tasksRunning tally
    rw [Finset.card_eq_zero, Finset.filter_eq_empty_iff]
    intro w _
    change (s.worker w).forget ≠ .running
    rw [h.worker_eq_idle w]
    simp
  have hmain : ThreadPool.betweenCountAndPush s.forget.main = 0 := by
    change ThreadPool.betweenCountAndPush s.main.forget = 0
    rcases h.main_eq with hmain | hmain <;>
      · rw [hmain]
        rfl
  unfold ThreadPool.Balanced at hbalanced
  rw [hrunning, hmain] at hbalanced
  change s.tasksTotal = s.tasks.length + 0 + 0 at hbalanced
  rw [hbalanced, h.tasks_eq_nil]
  rfl

/-- From any state on the threads take a bounded number of steps by themselves, until the next
round can begin or the main thread hangs. Then every task that there was has been run once. -/
theorem ends_or_hangs [Nonempty ι] (h : Run (initial ι T) actions s) (hlater : Run s later s')
    (hown : ∀ a ∈ later, Own a) :
    later.length + s'.forget.rank ≤ s.forget.rank ∧
      (s'.Stuck → (s'.main = .idle ∨ s'.forget.Hangs) ∧ s'.executed.Perm (given actions)) := by
  constructor
  · clear h
    induction hlater with
    | nil s => exact (Nat.zero_add _).le
    | cons hstep _ ih =>
        obtain ⟨ha, hrest⟩ := List.forall_mem_cons.mp hown
        have hlt := ThreadPool.rank_step hstep.forget ha
        have hle := ih hrest
        rw [List.length_cons]
        omega
  · intro hstuck
    have hnothing : given later = [] := by
      refine List.flatMap_eq_nil_iff.mpr fun a ha => ?_
      cases a with
      | start tasks => exact (hown _ ha).elim
      | _ => rfl
    have hinvariant := (invariant_initial.run h).run hlater
    rw [hnothing, List.append_nil, List.nil_append] at hinvariant
    have hzero := hstuck.tasksTotal_eq_zero hinvariant.balanced
    have hperm := hinvariant.perm hzero
    rcases hstuck.main_eq with hmain | hmain
    · exact ⟨Or.inl hmain, hperm (by rw [hmain]; rfl)⟩
    · refine ⟨Or.inr ⟨congrArg TaskMain.forget hmain, hzero, ?_⟩, hperm (by rw [hmain]; rfl)⟩
      rintro ⟨w, hw⟩
      change (s'.worker w).forget = _ ∨ (s'.worker w).forget = _ at hw
      rw [hstuck.worker_eq_idle w] at hw
      simp at hw

/-- One worker and one task: the worker is done before the wait, and the main thread hangs. -/
theorem ends_or_hangs_lateWait : ∃ s' : TaskPool (Fin 1) Nat, 9 + s'.forget.rank ≤ 12 ∧
    s'.forget.Hangs ∧ s'.executed.Perm [7] := by
  have hstart : Run (initial (Fin 1) Nat) [.start [7]]
      { initial (Fin 1) Nat with main := .pushing [7] } :=
    .cons (.start rfl) (.nil _)
  obtain ⟨s', hlater, hhangs⟩ : ∃ s', Run { initial (Fin 1) Nat with main := .pushing [7] }
      [.count, .push, .await, .test, .pop 0, .finish 0, .check 0, .notify 0, .wait] s' ∧
      s'.forget.Hangs := by
    refine ⟨_, .cons (.count rfl) <| .cons (.push rfl) <| .cons (.await rfl) <| .cons (.test rfl) <|
      .cons (.pop (w := 0) rfl rfl) <| .cons (.finish (w := 0) rfl) <|
      .cons (.check (w := 0) rfl) <| .cons (.notify (w := 0) rfl) <|
      .cons (.wait rfl) <| .nil _, rfl, rfl, ?_⟩
    rintro ⟨w, hw⟩
    rw [Subsingleton.elim w 0] at hw
    revert hw
    decide
  have hstuck : s'.Stuck := by
    intro a s'' hown hstep
    have hrun := (Run.cons (.start (s := initial (Fin 1) Nat) rfl) hlater).forget
    have heq := ThreadPool.eq_wakeSpuriously_of_hangs hrun hhangs hstep.forget
    rw [Own, heq] at hown
    exact hown
  obtain ⟨hle, hover⟩ := ends_or_hangs hstart hlater
    (by simp [Own, TaskAction.forget, ThreadPool.Own])
  exact ⟨s', hle.trans_eq (by decide), hhangs, (hover hstuck).2⟩

end Rounds

end TaskPool

end LatinSquares.LocalSearch
