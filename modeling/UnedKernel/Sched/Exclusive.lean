import UnedKernel.Lib.Run
import UnedKernel.Sched.Scheduler

/-! # Exclusivity of the scheduler

Only the current task executes, whatever the operations do to the task list. -/

namespace UnedKernel.Sched
open Run

/-- The scheduler, and the tasks created but not yet added. -/
abbrev SchedConfig := Scheduler × List Nat

/-- The operations, with creations that satisfy `okCreate` and additions that satisfy `okAdd`. -/
inductive SchedStep (okCreate : SchedConfig → Prop) (okAdd : SchedConfig → Nat → Prop) :
    SchedConfig → SchedConfig → Prop
  | create {s s' : Scheduler} {pending : List Nat} {fuel task : Nat} (hok : okCreate (s, pending))
      (h : s.createTask fuel = some (task, s')) :
      SchedStep okCreate okAdd (s, pending) (s', task :: pending)
  | add {s s' : Scheduler} {pending : List Nat} {fuel task : Nat} (ht : task < s.created)
      (hok : okAdd (s, pending) task) (h : s.addTask fuel task = some s') :
      SchedStep okCreate okAdd (s, pending) (s', pending.erase task)
  | kill {s s' : Scheduler} {pending : List Nat} {fuel : Nat} {pid : BitVec 16}
      (h : s.killTask fuel pid = some s') : SchedStep okCreate okAdd (s, pending) (s', pending)
  | pause {s : Scheduler} {pending : List Nat} {task : Nat} (ht : task < s.created) :
      SchedStep okCreate okAdd (s, pending) (s.pauseTask task, pending)
  | resume {s : Scheduler} {pending : List Nat} {task : Nat} (ht : task < s.created) :
      SchedStep okCreate okAdd (s, pending) (s.resumeTask task, pending)
  | exit {s s' : Scheduler} {pending : List Nat} (h : s.exit = .ok s') :
      SchedStep okCreate okAdd (s, pending) (s', pending)
  | block {s s' : Scheduler} {pending : List Nat} {fuel : Nat} {reason : Int}
      (h : s.blockTask fuel reason = some (.ok s')) :
      SchedStep okCreate okAdd (s, pending) (s', pending)
  | unblock {s s' : Scheduler} {pending : List Nat} {fuel task : Nat} (ht : task < s.created)
      (h : s.unblockTask fuel task = some (.ok s')) :
      SchedStep okCreate okAdd (s, pending) (s', pending)
  | schedule {s s' : Scheduler} {pending : List Nat} {fuel prev : Nat}
      (h : s.schedule fuel = some (.ok (prev, s'))) :
      SchedStep okCreate okAdd (s, pending) (s', pending)

theorem ready_ne_executing : TASK_READY ≠ TASK_EXECUTING := by decide

theorem uninterruptible_ne_executing : TASK_UNINTERRUPTIBLE ≠ TASK_EXECUTING := by decide

theorem zombie_ne_executing : TASK_ZOMBIE ≠ TASK_EXECUTING := by decide

/-- A task that executes is the current one. -/
def Exclusive (s : Scheduler) : Prop :=
  ∀ t, t < s.created → (s.tasks t).state = TASK_EXECUTING → s.currentTask = some t

/-- Task `n` may enter the processor: it is ready to run, or it is the idle task at the head. -/
def MayRun (s : Scheduler) (n : Nat) : Prop :=
  (s.tasks n).state = TASK_READY ∨ (s.tasks n).state = TASK_EXECUTING ∨
    (s.taskHead = some n ∧ (s.tasks n).state = TASK_IDLE)

namespace Scheduler

variable {s s' : Scheduler} {fuel t n : Nat}

@[simp] theorem setTask_created (f : Task → Task) : (s.setTask t f).created = s.created := rfl

@[simp] theorem setTask_currentTask (f : Task → Task) :
    (s.setTask t f).currentTask = s.currentTask := rfl

@[simp] theorem setTask_taskHead (f : Task → Task) : (s.setTask t f).taskHead = s.taskHead := rfl

theorem setTask_tasks (f : Task → Task) (a : Nat) :
    (s.setTask t f).tasks a = if a = t then f (s.tasks a) else s.tasks a := rfl

theorem setTask_same (f : Task → Task) : (s.setTask t f).tasks t = f (s.tasks t) := if_pos rfl

theorem setTask_of_ne (f : Task → Task) {a : Nat} (h : a ≠ t) :
    (s.setTask t f).tasks a = s.tasks a := if_neg h

/-- An assignment that keeps a field of the task keeps it for all tasks. -/
theorem setTask_field {α : Type} (field : Task → α) {f : Task → Task}
    (hf : ∀ a, field (f a) = field a) (a : Nat) :
    field ((s.setTask t f).tasks a) = field (s.tasks a) := by
  rw [setTask_tasks]
  split
  · exact hf _
  · rfl

/-! ## What the operations do to the states -/

/-- `create_task` gives a new task in state ready. -/
theorem createTask_spec (h : s.createTask fuel = some (t, s')) :
    t = s.created ∧ s'.created = s.created + 1 ∧ s'.taskHead = s.taskHead ∧
      s'.currentTask = s.currentTask ∧ (∀ a, a ≠ t → s'.tasks a = s.tasks a) ∧
      (s'.tasks t).state = TASK_READY ∧ (s'.tasks t).next = none ∧
      ({ s with created := s.created + 1 } : Scheduler).getFreePid fuel = some (s'.tasks t).pid := by
  simp only [createTask, Option.bind_eq_bind, Option.bind_eq_some_iff, Option.pure_def,
    Option.some.injEq, Prod.mk.injEq] at h
  obtain ⟨pid, hpid, rfl, rfl⟩ := h
  refine ⟨rfl, rfl, rfl, rfl, fun a ha => setTask_of_ne _ ha, ?_, ?_, ?_⟩
  · rw [setTask_same]
  · rw [setTask_same]
  · rw [setTask_same]
    exact hpid

/-- `add_task` changes the links only. -/
theorem addTask_keeps (h : s.addTask fuel t = some s') :
    s'.created = s.created ∧ s'.currentTask = s.currentTask ∧
      ∀ a, (s'.tasks a).state = (s.tasks a).state ∧ (s'.tasks a).pid = (s.tasks a).pid := by
  rw [addTask] at h
  split at h
  · cases h
    exact ⟨rfl, rfl, fun a => ⟨rfl, rfl⟩⟩
  · simp only [Option.bind_eq_bind, Option.bind_eq_some_iff, Option.pure_def,
      Option.some.injEq] at h
    obtain ⟨last, -, rfl⟩ := h
    refine ⟨rfl, rfl, fun a => ⟨?_, ?_⟩⟩
    · exact (setTask_field (f := fun a : Task => { a with prev := some last }) Task.state
        (fun _ => rfl) a).trans
          (setTask_field (f := fun a : Task => { a with next := some t }) Task.state (fun _ => rfl) a)
    · exact (setTask_field (f := fun a : Task => { a with prev := some last }) Task.pid
        (fun _ => rfl) a).trans
          (setTask_field (f := fun a : Task => { a with next := some t }) Task.pid (fun _ => rfl) a)

/-- `kill_task` turns a task into a zombie, or does nothing. -/
theorem killTask_cases {pid : BitVec 16} (h : s.killTask fuel pid = some s') :
    s' = s ∨ ∃ t, s' = s.setTask t fun a =>
      { a with exitCode := 0, exitSignal := SIGKILL, state := TASK_ZOMBIE } := by
  simp only [killTask, Option.bind_eq_bind, Option.bind_eq_some_iff, Option.pure_def] at h
  obtain ⟨r, -, h⟩ := h
  cases r with
  | none => exact .inl (Option.some.inj h).symm
  | some t => exact .inr ⟨t, (Option.some.inj h).symm⟩

theorem exit_eq (h : s.exit = .ok s') : ∃ current, s.currentTask = some current ∧
    s' = s.setTask current fun a => { a with exitCode := 0, state := TASK_ZOMBIE } := by
  rw [exit] at h
  split at h
  · cases h
  · rename_i current hc
    cases h
    exact ⟨current, hc, rfl⟩

theorem switchTask_currentTask {prev : Nat} : (s.switchTask prev n).currentTask = some n := by
  rw [switchTask]
  split <;> split <;> rfl

/-- What the ring search finds is ready to run. -/
theorem searchReady_some {original current : Nat}
    (h : s.searchReady original current fuel = some (.ok (some n))) :
    (s.tasks n).state = TASK_READY ∨ (s.tasks n).state = TASK_EXECUTING := by
  induction fuel generalizing current with
  | zero => cases h
  | succ fuel ih =>
    rw [searchReady] at h
    split at h
    · cases h
    · split at h
      · rename_i hready
        cases h
        exact hready
      · split at h
        · cases h
        · exact ih h

/-- `schedule` switches from the current task to one that may run. -/
theorem schedule_spec {prev : Nat} (h : s.schedule fuel = some (.ok (prev, s'))) :
    ∃ next, s.currentTask = some prev ∧ s' = s.switchTask prev next ∧ MayRun s next := by
  rw [schedule] at h
  split at h
  · cases h
  · rename_i current hc
    split at h
    · cases h
    · cases h
    · rename_i next hs
      cases h
      refine ⟨next, hc, rfl, ?_⟩
      rcases searchReady_some hs with hr | hr
      · exact .inl hr
      · exact .inr (.inl hr)
    · split at h
      · cases h
      · rename_i head hh
        split at h
        · cases h
        · rename_i hidle
          cases h
          exact ⟨head, hc, rfl, .inr (.inr ⟨hh, not_not.mp hidle⟩)⟩

theorem blockTask_spec {reason : Int} (h : s.blockTask fuel reason = some (.ok s')) :
    ∃ current, s.currentTask = some current ∧
      (s.setState current reason).schedule fuel = some (.ok (current, s')) := by
  rw [blockTask] at h
  split at h
  · cases h
  · rename_i current hc
    cases hs : (s.setState current reason).schedule fuel with
    | none => rw [hs] at h; cases h
    | some r =>
      rw [hs] at h
      cases r with
      | error e => cases h
      | ok p =>
        cases h
        obtain ⟨next, hprev, -, -⟩ := schedule_spec hs
        have hcp : current = p.1 := Option.some.inj (hc.symm.trans hprev)
        exact ⟨current, hc, by rw [hs, hcp]⟩

theorem unblockTask_spec (h : s.unblockTask fuel t = some (.ok s')) :
    ∃ prev, (s.setState t TASK_READY).schedule fuel = some (.ok (prev, s')) := by
  rw [unblockTask] at h
  cases hs : (s.setState t TASK_READY).schedule fuel with
  | none => rw [hs] at h; cases h
  | some r =>
    rw [hs] at h
    cases r with
    | error e => cases h
    | ok p =>
      cases h
      exact ⟨p.1, rfl⟩

end Scheduler

/-! ## Exclusivity is kept -/

namespace Exclusive

open Scheduler
variable {s s' : Scheduler} {t n : Nat}

/-- An assignment that makes no task but the current one execute. -/
theorem setTask (h : Exclusive s) {f : Task → Task}
    (hf : (f (s.tasks t)).state = TASK_EXECUTING → s.currentTask = some t) :
    Exclusive (s.setTask t f) := by
  intro a ha hstate
  rw [setTask_tasks] at hstate
  split at hstate
  · rename_i hat
    subst hat
    exact hf hstate
  · exact h a ha hstate

theorem create {fuel : Nat} (h : Exclusive s) (hc : s.createTask fuel = some (t, s')) :
    Exclusive s' := by
  obtain ⟨rfl, hcreated, -, hcurrent, hother, hready, -, -⟩ := createTask_spec hc
  intro a ha hstate
  rw [hcurrent]
  by_cases hat : a = s.created
  · rw [hat, hready] at hstate
    exact absurd hstate (by decide)
  · rw [hother a hat] at hstate
    exact h a (by omega) hstate

theorem add {fuel : Nat} (h : Exclusive s) (ha : s.addTask fuel t = some s') : Exclusive s' := by
  obtain ⟨hcreated, hcurrent, hkeep⟩ := addTask_keeps ha
  intro a hlt hstate
  rw [hcurrent]
  rw [(hkeep a).1] at hstate
  exact h a (hcreated ▸ hlt) hstate

/-- Leaving the current task: it stops executing, and the next one may start. -/
theorem switch {prev : Nat} (h : Exclusive s) (hprev : s.currentTask = some prev) :
    Exclusive (s.switchTask prev n) := by
  obtain ⟨u, hu⟩ : ∃ u, (if (s.tasks prev).state = TASK_EXECUTING then s.setState prev TASK_READY
    else s) = u := ⟨_, rfl⟩
  -- between the two assignments no task executes
  have hnone : ∀ a, a < u.created → (u.tasks a).state ≠ TASK_EXECUTING := by
    intro a ha hstate
    by_cases hexec : (s.tasks prev).state = TASK_EXECUTING
    · rw [if_pos hexec] at hu
      subst hu
      rw [setState, setTask_tasks] at hstate
      split at hstate
      · exact absurd hstate ready_ne_executing
      · rename_i hne
        have := h a ha hstate
        exact hne (Option.some.inj (this.symm.trans hprev))
    · rw [if_neg hexec] at hu
      subst hu
      have := h a ha hstate
      obtain rfl := Option.some.inj (this.symm.trans hprev)
      exact hexec hstate
  rw [switchTask, hu]
  simp only
  have hidle : Exclusive { u with currentTask := some n } := fun a ha hstate =>
    absurd hstate (hnone a ha)
  split
  · exact hidle.setTask fun _ => rfl
  · exact hidle

theorem schedule {fuel prev : Nat} (h : Exclusive s)
    (hs : s.schedule fuel = some (.ok (prev, s'))) : Exclusive s' := by
  obtain ⟨next, hprev, rfl, -⟩ := schedule_spec hs
  exact h.switch hprev

/-- Every operation keeps exclusivity. -/
theorem step {okCreate : SchedConfig → Prop} {okAdd : SchedConfig → Nat → Prop}
    {c c' : SchedConfig} (h : Exclusive c.1) (hstep : SchedStep okCreate okAdd c c') :
    Exclusive c'.1 := by
  cases hstep with
  | create _ hc => exact h.create hc
  | add _ _ ha => exact h.add ha
  | kill hk =>
    rcases killTask_cases hk with rfl | ⟨t, rfl⟩
    · exact h
    · exact h.setTask fun hstate => absurd hstate zombie_ne_executing
  | pause _ => exact h.setTask fun hstate => absurd hstate uninterruptible_ne_executing
  | resume _ => exact h.setTask fun hstate => absurd hstate ready_ne_executing
  | exit he =>
    obtain ⟨current, -, rfl⟩ := exit_eq he
    exact h.setTask fun hstate => absurd hstate zombie_ne_executing
  | block hb =>
    obtain ⟨current, hc, hs⟩ := blockTask_spec hb
    -- the reason is any number: the current task may keep executing
    exact (h.setTask fun _ => hc).schedule hs
  | unblock _ hu =>
    obtain ⟨prev, hs⟩ := unblockTask_spec hu
    exact (h.setTask fun hstate => absurd hstate ready_ne_executing).schedule hs
  | schedule hs => exact h.schedule hs

end Exclusive

theorem initScheduler_spec {fuel : Nat} {memory : Nat → Task} {s : Scheduler}
    (h : Scheduler.initScheduler fuel memory = some s) :
    s.created = 1 ∧ s.taskHead = some 0 ∧ s.currentTask = some 0 ∧
      (s.tasks 0).state = TASK_IDLE ∧ (s.tasks 0).pid = 0 ∧ (s.tasks 0).next = none := by
  simp only [Scheduler.initScheduler, Option.bind_eq_bind, Option.bind_eq_some_iff,
    Option.pure_def, Option.some.injEq] at h
  obtain ⟨⟨idle, s₁⟩, hc, s₂, ha, rfl⟩ := h
  obtain ⟨hidle, hcreated, hhead, hcurrent, -, -, hnext, -⟩ := Scheduler.createTask_spec hc
  simp only at hidle hcreated hhead hcurrent ha
  subst hidle
  rw [Scheduler.addTask, Scheduler.setTask_taskHead, hhead] at ha
  cases ha
  refine ⟨hcreated, rfl, rfl, ?_, ?_, ?_⟩
  · rw [Scheduler.setTask_same]
  · rw [Scheduler.setTask_same]
  · rw [Scheduler.setTask_same]
    exact hnext

/-- In every state reached from `init_scheduler` a task that executes is the current one, and
`schedule`, wherever it is called, gives the processor to a task that was ready to run or to
the idle task at the head. -/
theorem schedule_exclusive {fuel : Nat} {memory : Nat → Task} {s : Scheduler} {c : SchedConfig}
    (hinit : Scheduler.initScheduler fuel memory = some s)
    (hrun : Reaches (SchedStep (fun _ => True) fun _ _ => True) (s, []) c) :
    Exclusive c.1 ∧ ∀ (before : Scheduler) fuel prev s',
      before.schedule fuel = some (.ok (prev, s')) →
        ∃ next, s'.currentTask = some next ∧ MayRun before next := by
  have hstart : Exclusive s := by
    obtain ⟨hcreated, -, hcurrent, hidle, -, -⟩ := initScheduler_spec hinit
    intro t ht hstate
    obtain rfl : t = 0 := by omega
    rw [hidle] at hstate
    exact absurd hstate (by decide)
  refine ⟨Run.invariant (fun c : SchedConfig => Exclusive c.1) (fun _ _ h hstep => h.step hstep)
    hstart hrun, fun before fuel prev s' hs => ?_⟩
  obtain ⟨next, -, rfl, hmay⟩ := Scheduler.schedule_spec hs
  exact ⟨next, Scheduler.switchTask_currentTask, hmay⟩

/-- A task is created, added and scheduled. -/
theorem schedule_exclusive_first : ∃ s c,
    Scheduler.initScheduler 2 (fun _ => ⟨7, 0, 0, 0, 0, none, none⟩) = some s ∧
    Reaches (SchedStep (fun _ => True) fun _ _ => True) (s, []) c ∧
    (c.1.tasks 1).state = TASK_EXECUTING ∧ Exclusive c.1 := by
  have hrun {s₀ s₁ s₂ s₃ : Scheduler}
      (hinit : Scheduler.initScheduler 2 (fun _ => ⟨7, 0, 0, 0, 0, none, none⟩) = some s₀)
      (hcreate : s₀.createTask 2 = some (1, s₁)) (hlt : 1 < s₁.created)
      (hadd : s₁.addTask 2 1 = some s₂) (hschedule : s₂.schedule 2 = some (.ok (0, s₃)))
      (hstate : (s₃.tasks 1).state = TASK_EXECUTING) :
      ∃ s c, Scheduler.initScheduler 2 (fun _ => ⟨7, 0, 0, 0, 0, none, none⟩) = some s ∧
        Reaches (SchedStep (fun _ => True) fun _ _ => True) (s, []) c ∧
        (c.1.tasks 1).state = TASK_EXECUTING ∧ Exclusive c.1 := by
    have hreach : Reaches (SchedStep (fun _ => True) fun _ _ => True) (s₀, []) (s₃, []) :=
      ((Relation.ReflTransGen.single (.create trivial hcreate)).tail (.add hlt trivial hadd)).tail
        (.schedule hschedule)
    exact ⟨s₀, (s₃, []), hinit, hreach, hstate, (schedule_exclusive hinit hreach).1⟩
  exact hrun rfl (show Scheduler.createTask 2 _ = some (1, _) from rfl) (Nat.lt_succ_self 1)
    (show Scheduler.addTask 2 _ 1 = some _ from rfl)
    (show Scheduler.schedule 2 _ = some (.ok (0, _)) from rfl) rfl

end UnedKernel.Sched
