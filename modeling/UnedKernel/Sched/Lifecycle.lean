import UnedKernel.Sched.Pids

/-! # The idle task and the dead tasks

Operations on the scheduler in any order: `schedule` needs the idle task at the
head of the list, and a task that is dead should not be scheduled again. -/

namespace UnedKernel.Sched
open Run

/-- A call of the scheduler. -/
inductive SchedOp where
  | createTask
  | addTask (task : Nat)
  | killTask (pid : BitVec 16)
  | pauseTask (task : Nat)
  | resumeTask (task : Nat)
  | exit
  | blockTask (reason : Int)
  | unblockTask (task : Nat)
  | schedule

namespace SchedOp

/-- What the call does; `none` when the fuel runs out. -/
def run (fuel : Nat) (s : Scheduler) : SchedOp → Option (Except Fault Scheduler)
  | createTask => (s.createTask fuel).map fun r => .ok r.2
  | addTask task => (s.addTask fuel task).map .ok
  | killTask pid => (s.killTask fuel pid).map .ok
  | pauseTask task => some (.ok (s.pauseTask task))
  | resumeTask task => some (.ok (s.resumeTask task))
  | exit => some s.exit
  | blockTask reason => s.blockTask fuel reason
  | unblockTask task => s.unblockTask fuel task
  | schedule => (s.schedule fuel).map fun r => r.map Prod.snd

/-- The task that the call names exists. -/
def Valid (s : Scheduler) : SchedOp → Prop
  | addTask task | pauseTask task | resumeTask task | unblockTask task => task < s.created
  | _ => True

/-- The call ends with a switch to another task. -/
def Switches : SchedOp → Prop
  | blockTask _ | unblockTask _ | schedule => True
  | _ => False

/-- The task that the call turns into a zombie. -/
def kills (fuel : Nat) (s : Scheduler) : SchedOp → Option Nat
  | killTask pid => (s.getTask fuel pid).bind id
  | exit => s.currentTask
  | _ => none

end SchedOp

/-- The scheduler, and the tasks that were put to death. -/
abbrev LifeConfig := Scheduler × List Nat

/-- One call that satisfies `ok`. -/
inductive LifeStep (ok : LifeConfig → SchedOp → Prop) : LifeConfig → LifeConfig → Prop
  | call {s s' : Scheduler} {dead : List Nat} {fuel : Nat} (op : SchedOp) (hvalid : op.Valid s)
      (hok : ok (s, dead) op) (h : op.run fuel s = some (.ok s')) :
      LifeStep ok (s, dead) (s', (op.kills fuel s).toList ++ dead)

namespace Scheduler

variable {s s' : Scheduler} {fuel t n prev : Nat}

theorem getTaskFrom_pid {pid : BitVec 16} {current : Nat}
    (h : s.getTaskFrom pid current fuel = some (some t)) : (s.tasks t).pid = pid := by
  induction fuel generalizing current with
  | zero => cases h
  | succ fuel ih =>
    rw [getTaskFrom] at h
    split at h
    · cases h
    · split at h
      · rename_i hpid
        cases h
        exact hpid
      · exact ih h

theorem getTask_pid {pid : BitVec 16} (h : s.getTask fuel pid = some (some t)) :
    (s.tasks t).pid = pid := by
  rw [getTask] at h
  split at h
  · cases h
  · split at h
    · rename_i hpid
      cases h
      exact hpid
    · exact getTaskFrom_pid h

/-- The head of the list is the first one looked at. -/
theorem getTask_head (h : s.taskHead = some t) : s.getTask fuel (s.tasks t).pid = some (some t) := by
  rw [getTask, h]
  exact if_pos rfl

/-- `kill_task` on the task that `get_task` finds. -/
theorem killTask_eq {pid : BitVec 16} (h : s.killTask fuel pid = some s') :
    (s.getTask fuel pid = some none ∧ s' = s) ∨ ∃ t, s.getTask fuel pid = some (some t) ∧
      s' = s.setTask t fun a =>
        { a with exitCode := 0, exitSignal := SIGKILL, state := TASK_ZOMBIE } := by
  simp only [killTask, Option.bind_eq_bind, Option.bind_eq_some_iff, Option.pure_def] at h
  obtain ⟨r, hr, h⟩ := h
  cases r with
  | none => exact .inl ⟨hr, (Option.some.inj h).symm⟩
  | some t => exact .inr ⟨t, hr, (Option.some.inj h).symm⟩

/-- The state of a task that could run. -/
def Runnable (s : Scheduler) (t : Nat) : Prop :=
  (s.tasks t).state = TASK_READY ∨ (s.tasks t).state = TASK_EXECUTING

theorem setState_same {state : Int} : ((s.setState t state).tasks t).state = state := by
  rw [setState, setTask_same]

theorem setState_of_ne {state : Int} {a : Nat} (h : a ≠ t) :
    ((s.setState t state).tasks a).state = (s.tasks a).state := by
  rw [setState, setTask_of_ne _ h]

/-- A switch changes no state but those of tasks that could run. -/
theorem switchTask_state {a : Nat} (h : ¬ s.Runnable a) :
    ((s.switchTask prev n).tasks a).state = (s.tasks a).state := by
  obtain ⟨u, hu⟩ : ∃ u, (if (s.tasks prev).state = TASK_EXECUTING then s.setState prev TASK_READY
    else s) = u := ⟨_, rfl⟩
  have hsame : (u.tasks a).state = (s.tasks a).state := by
    rw [← hu]
    split
    · rename_i hprev
      exact setState_of_ne fun hap => h (.inr (hap ▸ hprev))
    · rfl
  rw [switchTask, hu]
  simp only
  split
  · rename_i hn
    refine (setState_of_ne fun han => h (.inl ?_)).trans hsame
    rw [← hsame, han]
    exact hn
  · exact hsame

/-- A task that could run still can after a switch. -/
theorem switchTask_runnable {a : Nat} (h : s.Runnable a) : (s.switchTask prev n).Runnable a := by
  obtain ⟨u, hu⟩ : ∃ u, (if (s.tasks prev).state = TASK_EXECUTING then s.setState prev TASK_READY
    else s) = u := ⟨_, rfl⟩
  have hmid : u.Runnable a := by
    rw [← hu]
    split
    · by_cases hap : a = prev
      · subst hap
        exact .inl setState_same
      · rw [Runnable, setState_of_ne hap]
        exact h
    · exact h
  rw [switchTask, hu]
  simp only
  split
  · by_cases han : a = n
    · subst han
      exact .inr setState_same
    · exact hmid.imp (setState_of_ne (s := { u with currentTask := some n }) han).trans
        (setState_of_ne (s := { u with currentTask := some n }) han).trans
  · exact hmid

/-- A switch neither makes a task idle nor ends it. -/
theorem switchTask_idle_iff (a : Nat) :
    ((s.switchTask prev n).tasks a).state = TASK_IDLE ↔ (s.tasks a).state = TASK_IDLE := by
  by_cases h : s.Runnable a
  · have hidle : ∀ u : Scheduler, u.Runnable a → (u.tasks a).state ≠ TASK_IDLE := by
      intro u hu
      rcases hu with hu | hu
      · rw [hu]
        decide
      · rw [hu]
        decide
    exact iff_of_false (hidle _ (switchTask_runnable h)) (hidle _ h)
  · rw [switchTask_state h]

theorem addTask_head (ha : s.addTask fuel t = some s') (h : s.taskHead = some n) :
    s'.taskHead = some n := by
  rw [addTask, h] at ha
  simp only [Option.bind_eq_bind, Option.bind_eq_some_iff, Option.pure_def,
    Option.some.injEq] at ha
  obtain ⟨last, -, rfl⟩ := ha
  exact h

/-! ## The search does not fail -/

theorem searchReady_ne_error {original current : Nat} {e : Fault} (h : s.taskHead ≠ none) :
    s.searchReady original current fuel ≠ some (.error e) := by
  induction fuel generalizing current with
  | zero => exact fun hs => nomatch hs
  | succ fuel ih =>
    intro hs
    rw [searchReady] at hs
    split at hs
    · rename_i hnext
      split at hnext
      · exact h hnext
      · cases hnext
    · split at hs
      · cases hs
      · split at hs
        · cases hs
        · exact ih hs

/-- `schedule` neither panics nor follows a null pointer when the head is idle. -/
theorem schedule_ne_error {e : Fault} (hhead : s.taskHead = some t)
    (hidle : (s.tasks t).state = TASK_IDLE) (hcurrent : s.currentTask ≠ none) :
    s.schedule fuel ≠ some (.error e) := by
  intro h
  obtain ⟨current, hc⟩ := Option.ne_none_iff_exists'.mp hcurrent
  rw [schedule, hc] at h
  simp only at h
  have hsearch : s.searchReady current current fuel ≠ some (.error e) :=
    searchReady_ne_error (by rw [hhead]; exact Option.some_ne_none t)
  cases hs : s.searchReady current current fuel with
  | none => rw [hs] at h; cases h
  | some r =>
    rw [hs] at h hsearch
    cases r with
    | error e' =>
      cases h
      exact hsearch rfl
    | ok found =>
      cases found with
      | some next => cases h
      | none =>
        simp only [hhead] at h
        rw [if_neg (not_not_intro hidle)] at h
        cases h

end Scheduler

/-! ## The idle task -/

theorem zombie_ne_idle : TASK_ZOMBIE ≠ TASK_IDLE := by decide

/-- The idle task, the first one created, is at the head of the list and idle. -/
def IdleAtHead (s : Scheduler) : Prop :=
  s.taskHead = some 0 ∧ (s.tasks 0).state = TASK_IDLE

/-- The call leaves the idle task alone. -/
def SparesIdle (c : LifeConfig) : SchedOp → Prop
  | .killTask pid => pid ≠ 0
  | .pauseTask task | .resumeTask task | .unblockTask task => task ≠ 0
  | .exit => c.1.currentTask ≠ some 0
  | .blockTask reason => c.1.currentTask = some 0 → reason = TASK_IDLE
  | _ => True

/-- What the operations keep of the idle task, whatever its state. -/
structure IdleKnown (s : Scheduler) : Prop where
  head : s.taskHead = some 0
  pid : (s.tasks 0).pid = 0
  created : 0 < s.created
  current : s.currentTask ≠ none

namespace IdleKnown

open Scheduler
variable {s s' : Scheduler} {fuel t prev n : Nat}

theorem same (h : IdleKnown s) (hs : SameLinks s s') (hcurrent : s'.currentTask ≠ none) :
    IdleKnown s' :=
  ⟨hs.head.trans h.head, (hs.pid 0).trans h.pid, by rw [hs.created]; exact h.created, hcurrent⟩

theorem setState (h : IdleKnown s) {state : Int} : IdleKnown (s.setState t state) :=
  h.same SameLinks.setState h.current

theorem schedule (h : IdleKnown s) (hs : s.schedule fuel = some (.ok (prev, s'))) :
    IdleKnown s' ∧ ((s'.tasks 0).state = TASK_IDLE ↔ (s.tasks 0).state = TASK_IDLE) := by
  obtain ⟨next, -, rfl, -⟩ := schedule_spec hs
  refine ⟨h.same SameLinks.switchTask ?_, switchTask_idle_iff 0⟩
  rw [switchTask_currentTask]
  exact Option.some_ne_none next

/-- An assignment to a state leaves the idle task idle if it is to another task, or idle. -/
theorem setState_idle {state : Int} (hidle : (s.tasks 0).state = TASK_IDLE) :
    ((s.setState t state).tasks 0).state = TASK_IDLE ↔ (t = 0 → state = TASK_IDLE) := by
  by_cases ht : t = 0
  · subst ht
    rw [setState_same]
    exact ⟨fun hs _ => hs, fun hs => hs rfl⟩
  · rw [setState_of_ne (Ne.symm ht)]
    exact iff_of_true hidle fun h0 => absurd h0 ht

/-- After one call the idle task is idle if and only if the call leaves it alone. -/
theorem step {dead : List Nat} {op : SchedOp} (h : IdleKnown s)
    (hidle : (s.tasks 0).state = TASK_IDLE) (hrun : op.run fuel s = some (.ok s')) :
    IdleKnown s' ∧ ((s'.tasks 0).state = TASK_IDLE ↔ SparesIdle (s, dead) op) := by
  cases op with
  | createTask =>
    rw [SchedOp.run, Option.map_eq_some_iff] at hrun
    obtain ⟨⟨t, u⟩, hc, heq⟩ := hrun
    obtain rfl := Except.ok.inj heq
    obtain ⟨rfl, hcreated, hhead, hcurrent, hother, -⟩ := createTask_spec hc
    have hold := hother 0 (Nat.ne_of_lt h.created)
    refine ⟨⟨hhead.trans h.head, by rw [hold]; exact h.pid, ?_, ?_⟩, ?_⟩
    · exact hcreated ▸ Nat.succ_pos _
    · exact hcurrent ▸ h.current
    · rw [hold]
      exact iff_of_true hidle trivial
  | addTask task =>
    rw [SchedOp.run, Option.map_eq_some_iff] at hrun
    obtain ⟨u, ha, heq⟩ := hrun
    obtain rfl := Except.ok.inj heq
    obtain ⟨hcreated, hcurrent, hkeep⟩ := addTask_keeps ha
    refine ⟨⟨addTask_head ha h.head, (hkeep 0).2.trans h.pid, ?_, ?_⟩, ?_⟩
    · exact hcreated ▸ h.created
    · exact hcurrent ▸ h.current
    · rw [(hkeep 0).1]
      exact iff_of_true hidle trivial
  | killTask pid =>
    rw [SchedOp.run, Option.map_eq_some_iff] at hrun
    obtain ⟨u, hk, heq⟩ := hrun
    obtain rfl := Except.ok.inj heq
    have hzero : s.getTask fuel 0 = some (some 0) := h.pid ▸ getTask_head h.head
    rcases killTask_eq hk with ⟨hnone, rfl⟩ | ⟨t, ht, rfl⟩
    · refine ⟨h, iff_of_true hidle ?_⟩
      intro hpid
      rw [hpid, hzero] at hnone
      cases hnone
    · refine ⟨h.same (SameLinks.setTask (fun _ => rfl) fun _ => rfl) h.current, ?_⟩
      by_cases hpid : pid = 0
      · rw [hpid, hzero] at ht
        obtain rfl := Option.some.inj (Option.some.inj ht)
        rw [setTask_same]
        exact iff_of_false zombie_ne_idle fun hne => hne hpid
      · have ht0 : 0 ≠ t := fun heq => hpid (by rw [← getTask_pid ht, ← heq, h.pid])
        rw [setTask_of_ne _ ht0]
        exact iff_of_true hidle hpid
  | pauseTask task =>
    obtain rfl := Except.ok.inj (Option.some.inj hrun)
    refine ⟨h.setState, (setState_idle hidle).trans ?_⟩
    exact forall_congr' fun _ => iff_of_false (by decide) id
  | resumeTask task =>
    obtain rfl := Except.ok.inj (Option.some.inj hrun)
    refine ⟨h.setState, (setState_idle hidle).trans ?_⟩
    exact forall_congr' fun _ => iff_of_false (by decide) id
  | exit =>
    obtain ⟨current, hc, rfl⟩ := exit_eq (Option.some.inj hrun)
    refine ⟨h.same (SameLinks.setTask (fun _ => rfl) fun _ => rfl) h.current, ?_⟩
    rw [SparesIdle, hc]
    by_cases h0 : current = 0
    · subst h0
      rw [setTask_same]
      exact iff_of_false zombie_ne_idle fun hne => hne rfl
    · rw [setTask_of_ne _ (Ne.symm h0)]
      exact iff_of_true hidle fun heq => h0 (Option.some.inj heq)
  | blockTask reason =>
    obtain ⟨current, hc, hs⟩ := blockTask_spec hrun
    obtain ⟨hknown, hiff⟩ := h.setState.schedule hs
    refine ⟨hknown, (hiff.trans (setState_idle hidle)).trans ?_⟩
    rw [SparesIdle, hc, Option.some.injEq]
  | unblockTask task =>
    obtain ⟨prev, hs⟩ := unblockTask_spec hrun
    obtain ⟨hknown, hiff⟩ := h.setState.schedule hs
    refine ⟨hknown, (hiff.trans (setState_idle hidle)).trans ?_⟩
    exact forall_congr' fun _ => iff_of_false (by decide) id
  | schedule =>
    rw [SchedOp.run, Option.map_eq_some_iff] at hrun
    obtain ⟨r, hs, hr⟩ := hrun
    cases r with
    | error e => cases hr
    | ok p =>
      obtain rfl := Except.ok.inj hr
      obtain ⟨hknown, hiff⟩ := h.schedule hs
      exact ⟨hknown, hiff.trans (iff_of_true hidle trivial)⟩

/-- A call that leaves the idle task alone does not stop the kernel. -/
theorem ne_error {dead : List Nat} {op : SchedOp} {e : Fault} (h : IdleKnown s)
    (hidle : (s.tasks 0).state = TASK_IDLE) (hok : SparesIdle (s, dead) op) :
    op.run fuel s ≠ some (.error e) := by
  obtain ⟨current, hc⟩ := Option.ne_none_iff_exists'.mp h.current
  have hschedule : ∀ {t : Nat} {state : Int}, (t = 0 → state = TASK_IDLE) →
      (s.setState t state).schedule fuel ≠ some (.error e) := fun {t state} ht =>
    schedule_ne_error (s := s.setState t state) h.head ((setState_idle hidle).mpr ht) h.current
  intro hrun
  cases op with
  | createTask => simp [SchedOp.run] at hrun
  | addTask task => simp [SchedOp.run] at hrun
  | killTask pid => simp [SchedOp.run] at hrun
  | pauseTask task => cases hrun
  | resumeTask task => cases hrun
  | exit =>
    rw [SchedOp.run, Scheduler.exit, hc] at hrun
    cases hrun
  | blockTask reason =>
    rw [SchedOp.run, blockTask, hc, Option.map_eq_some_iff] at hrun
    obtain ⟨r, hs, hr⟩ := hrun
    cases r with
    | error e' =>
      cases hr
      exact hschedule (fun h0 => hok (by rw [hc, h0])) hs
    | ok p => cases hr
  | unblockTask task =>
    rw [SchedOp.run, unblockTask, Option.map_eq_some_iff] at hrun
    obtain ⟨r, hs, hr⟩ := hrun
    cases r with
    | error e' =>
      cases hr
      exact hschedule (fun h0 => absurd h0 hok) hs
    | ok p => cases hr
  | schedule =>
    rw [SchedOp.run, Option.map_eq_some_iff] at hrun
    obtain ⟨r, hs, hr⟩ := hrun
    cases r with
    | error e' =>
      cases hr
      exact schedule_ne_error h.head hidle h.current hs
    | ok p => cases hr

end IdleKnown

/-- While the calls leave the idle task alone it stays idle at the head, and none of them stops
the kernel; the next call keeps it so if and only if it leaves the idle task alone too. -/
theorem idle_at_head {fuel : Nat} {memory : Nat → Task} {s : Scheduler} {c : LifeConfig}
    (hinit : Scheduler.initScheduler fuel memory = some s)
    (hrun : Reaches (LifeStep SparesIdle) (s, []) c) :
    IdleAtHead c.1 ∧
      (∀ op fuel e, SparesIdle c op → op.run fuel c.1 ≠ some (.error e)) ∧
      ∀ op fuel s', op.run fuel c.1 = some (.ok s') → (IdleAtHead s' ↔ SparesIdle c op) := by
  obtain ⟨hcreated, hhead, hcurrent, hidle, hpid, -⟩ := initScheduler_spec hinit
  have hstart : IdleKnown s ∧ (s.tasks 0).state = TASK_IDLE :=
    ⟨⟨hhead, hpid, hcreated ▸ Nat.one_pos, hcurrent ▸ Option.some_ne_none 0⟩, hidle⟩
  obtain ⟨hknown, hstate⟩ := Run.invariant
    (fun c : LifeConfig => IdleKnown c.1 ∧ (c.1.tasks 0).state = TASK_IDLE)
    (fun _ _ h hstep => by
      cases hstep with
      | call _ _ hok hrun =>
        obtain ⟨hk, hiff⟩ := h.1.step h.2 hrun
        exact ⟨hk, hiff.mpr hok⟩) hstart hrun
  refine ⟨⟨hknown.head, hstate⟩, fun op fuel e hok => hknown.ne_error hstate hok,
    fun op fuel s' hop => ?_⟩
  obtain ⟨hk, hiff⟩ := hknown.step hstate hop
  rw [IdleAtHead, hiff]
  exact and_iff_right hk.head

/-- The memory before `init_scheduler`. -/
def blankTasks : Nat → Task := fun _ => ⟨0, 0, 0, 0, 0, none, none⟩

/-- A task is created, added, scheduled and killed. -/
theorem idle_at_head_one : ∃ s c, Scheduler.initScheduler 2 blankTasks = some s ∧
    Reaches (LifeStep SparesIdle) (s, []) c ∧ c.2 = [1] ∧ IdleAtHead c.1 := by
  have hrun {s₀ s₁ s₂ s₃ s₄ : Scheduler} (hinit : Scheduler.initScheduler 2 blankTasks = some s₀)
      (h₁ : SchedOp.createTask.run 2 s₀ = some (.ok s₁)) (hlt : 1 < s₁.created)
      (h₂ : (SchedOp.addTask 1).run 2 s₁ = some (.ok s₂))
      (h₃ : SchedOp.schedule.run 2 s₂ = some (.ok s₃))
      (h₄ : (SchedOp.killTask 1).run 2 s₃ = some (.ok s₄))
      (hdead : (SchedOp.killTask 1).kills 2 s₃ = some 1) :
      ∃ s c, Scheduler.initScheduler 2 blankTasks = some s ∧
        Reaches (LifeStep SparesIdle) (s, []) c ∧ c.2 = [1] ∧ IdleAtHead c.1 := by
    have hreach : Reaches (LifeStep SparesIdle) (s₀, [])
        (s₄, ((SchedOp.killTask 1).kills 2 s₃).toList ++ []) :=
      (((Relation.ReflTransGen.single (.call .createTask trivial trivial h₁)).tail
        (.call (.addTask 1) hlt trivial h₂)).tail (.call .schedule trivial trivial h₃)).tail
          (.call (.killTask 1) trivial (by show (1 : BitVec 16) ≠ 0; decide) h₄)
    exact ⟨s₀, _, hinit, hreach, by rw [hdead]; rfl, (idle_at_head hinit hreach).1⟩
  exact hrun rfl rfl (Nat.lt_succ_self 1) rfl rfl rfl rfl

/-- The calls that do not block. -/
def NoBlocking (_ : LifeConfig) : SchedOp → Prop
  | .blockTask _ | .unblockTask _ => False
  | _ => True

/-- `kill_task(0)` kills the idle task. -/
theorem not_idle_at_head : ¬ ∀ (fuel : Nat) (memory : Nat → Task) (s : Scheduler) (c : LifeConfig),
    Scheduler.initScheduler fuel memory = some s → Reaches (LifeStep NoBlocking) (s, []) c →
    IdleAtHead c.1 ∧ ∀ fuel e, c.1.schedule fuel ≠ some (.error e) := by
  intro hall
  have hrun {s₀ s₁ : Scheduler} (hinit : Scheduler.initScheduler 2 blankTasks = some s₀)
      (h₁ : (SchedOp.killTask 0).run 2 s₀ = some (.ok s₁))
      (hpanic : s₁.schedule 2 = some (.error (.panic ⟨"Idle task is not valid or at head\n"⟩))) :
      False :=
    (hall 2 _ s₀ _ hinit (.single (.call (.killTask 0) trivial trivial h₁))).2 2 _ hpanic
  exact hrun rfl rfl rfl

/-! ## The dead tasks -/

/-- The call does not make a dead task one that may run. -/
def SparesDead (c : LifeConfig) : SchedOp → Prop
  | .resumeTask task | .unblockTask task => task ∉ c.2
  | .blockTask reason => ∀ t, c.1.currentTask = some t → t ∈ c.2 →
      reason ≠ TASK_READY ∧ reason ≠ TASK_EXECUTING ∧
        (c.1.taskHead = some t → reason ≠ TASK_IDLE)
  | _ => True

/-- The pointers of the scheduler lead to tasks that exist. -/
structure LinksValid (s : Scheduler) : Prop where
  head : ∃ t, s.taskHead = some t ∧ t < s.created
  current : ∀ t, s.currentTask = some t → t < s.created
  next : ∀ t u, t < s.created → (s.tasks t).next = some u → u < s.created

namespace LinksValid

open Scheduler
variable {s s' : Scheduler} {fuel t prev n : Nat}

theorem same (h : LinksValid s) (hs : SameLinks s s')
    (hcurrent : ∀ t, s'.currentTask = some t → t < s.created) : LinksValid s' := by
  obtain ⟨head, hhead, hlt⟩ := h.head
  refine ⟨⟨head, hs.head.trans hhead, by rw [hs.created]; exact hlt⟩, fun t ht => ?_,
    fun t u ht hu => ?_⟩
  · rw [hs.created]
    exact hcurrent t ht
  · rw [hs.created] at ht ⊢
    rw [hs.next] at hu
    exact h.next t u ht hu

theorem getTask_lt (h : LinksValid s) {pid : BitVec 16}
    (hg : s.getTask fuel pid = some (some t)) : t < s.created := by
  obtain ⟨head, hhead, hlt⟩ := h.head
  have hfrom : ∀ {fuel current : Nat}, current < s.created →
      s.getTaskFrom pid current fuel = some (some t) → t < s.created := by
    intro fuel
    induction fuel with
    | zero => exact fun _ hf => nomatch hf
    | succ fuel ih =>
      intro current hc hf
      rw [getTaskFrom] at hf
      split at hf
      · cases hf
      · rename_i next hnext
        have hn := h.next current next hc hnext
        split at hf
        · cases hf
          exact hn
        · exact ih hn hf
  rw [getTask, hhead] at hg
  simp only at hg
  split at hg
  · cases hg
    exact hlt
  · exact hfrom hlt hg

theorem searchReady_lt (h : LinksValid s) {original current : Nat} (hc : current < s.created)
    (hs : s.searchReady original current fuel = some (.ok (some n))) : n < s.created := by
  obtain ⟨head, hhead, hlt⟩ := h.head
  induction fuel generalizing current with
  | zero => cases hs
  | succ fuel ih =>
    rw [searchReady] at hs
    split at hs
    · cases hs
    · rename_i next hnext
      have hn : next < s.created := by
        split at hnext
        · rw [hhead] at hnext
          cases hnext
          exact hlt
        · rename_i hlink
          cases hnext
          exact h.next current next hc hlink
      split at hs
      · cases hs
        exact hn
      · split at hs
        · cases hs
        · exact ih hn hs

/-- `schedule` switches to a task that exists and may run. -/
theorem schedule_spec (h : LinksValid s) (hs : s.schedule fuel = some (.ok (prev, s'))) :
    ∃ next, s' = s.switchTask prev next ∧ MayRun s next ∧ next < s.created := by
  obtain ⟨head, hhead, hlt⟩ := h.head
  rw [schedule] at hs
  split at hs
  · cases hs
  · rename_i current hc
    split at hs
    · cases hs
    · cases hs
    · rename_i next hsearch
      cases hs
      exact ⟨next, rfl, (searchReady_some hsearch).imp_right .inl,
        h.searchReady_lt (h.current _ hc) hsearch⟩
    · rw [hhead] at hs
      simp only at hs
      split at hs
      · cases hs
      · rename_i hidle
        cases hs
        exact ⟨head, rfl, .inr (.inr ⟨hhead, not_not.mp hidle⟩), hlt⟩

theorem setState (h : LinksValid s) {state : Int} : LinksValid (s.setState t state) :=
  h.same SameLinks.setState h.current

theorem schedule (h : LinksValid s) (hs : s.schedule fuel = some (.ok (prev, s'))) :
    LinksValid s' := by
  obtain ⟨next, rfl, -, hlt⟩ := h.schedule_spec hs
  refine h.same SameLinks.switchTask fun t ht => ?_
  rw [switchTask_currentTask] at ht
  exact Option.some.inj ht ▸ hlt

theorem create (h : LinksValid s) (hc : s.createTask fuel = some (t, s')) : LinksValid s' := by
  obtain ⟨rfl, hcreated, hhead, hcurrent, hother, -, hnext, -⟩ := createTask_spec hc
  obtain ⟨head, hh, hlt⟩ := h.head
  refine ⟨⟨head, hhead.trans hh, by omega⟩, fun t ht => ?_, fun t u ht hu => ?_⟩
  · have := h.current t (hcurrent ▸ ht)
    omega
  · by_cases hts : t = s.created
    · rw [hts, hnext] at hu
      cases hu
    · rw [hother t hts] at hu
      have := h.next t u (by omega) hu
      omega

theorem add (h : LinksValid s) (ht : t < s.created) (ha : s.addTask fuel t = some s') :
    LinksValid s' := by
  obtain ⟨head, hhead, hlt⟩ := h.head
  rw [addTask, hhead] at ha
  simp only [Option.bind_eq_bind, Option.bind_eq_some_iff, Option.pure_def,
    Option.some.injEq] at ha
  obtain ⟨last, -, rfl⟩ := ha
  refine ⟨⟨head, hhead, hlt⟩, h.current, fun a u ha hu => ?_⟩
  rw [setTask_field (f := fun a : Task => { a with prev := some last }) Task.next (fun _ => rfl),
    setTask_tasks] at hu
  split at hu
  · cases hu
    exact ht
  · exact h.next a u ha hu

end LinksValid

/-- The dead tasks exist, and none of them may run. -/
structure DeadStay (c : LifeConfig) : Prop where
  links : LinksValid c.1
  lt : ∀ t ∈ c.2, t < c.1.created
  stay : ∀ t ∈ c.2, ¬ MayRun c.1 t

section dead

open Scheduler
variable {s s' : Scheduler} {fuel t prev n : Nat} {dead : List Nat}

/-- A task may run after a switch if and only if it may before. -/
theorem mayRun_switchTask (a : Nat) : MayRun (s.switchTask prev n) a ↔ MayRun s a := by
  by_cases h : s.Runnable a
  · exact iff_of_true ((switchTask_runnable h).imp_right .inl) (h.imp_right .inl)
  · rw [MayRun, MayRun, switchTask_state h, SameLinks.switchTask.head]

theorem mayRun_setTask_of_ne {f : Task → Task} {a : Nat} (h : a ≠ t) :
    MayRun (s.setTask t f) a ↔ MayRun s a := by
  rw [MayRun, MayRun, setTask_of_ne _ h, setTask_taskHead]

/-- The states in which a task may not run. -/
def Barred (s : Scheduler) (t : Nat) (state : Int) : Prop :=
  state ≠ TASK_READY ∧ state ≠ TASK_EXECUTING ∧ (s.taskHead = some t → state ≠ TASK_IDLE)

theorem barred_zombie : Barred s t TASK_ZOMBIE :=
  ⟨by decide, by decide, fun _ => zombie_ne_idle⟩

theorem barred_uninterruptible : Barred s t TASK_UNINTERRUPTIBLE :=
  ⟨by decide, by decide, fun _ => by decide⟩

theorem not_barred_ready : ¬ Barred s t TASK_READY := fun h => h.1 rfl

theorem not_mayRun_setTask {f : Task → Task} {state : Int} (hf : (f (s.tasks t)).state = state) :
    ¬ MayRun (s.setTask t f) t ↔ Barred s t state := by
  rw [MayRun, setTask_same, hf, setTask_taskHead, not_or, not_or, not_and]
  exact Iff.rfl

/-- After an assignment no dead task may run if a dead one is barred by its new state. -/
theorem setTask_stay {f : Task → Task} {state : Int} (h : ∀ a ∈ dead, ¬ MayRun s a)
    (hf : (f (s.tasks t)).state = state) :
    (∀ a ∈ dead, ¬ MayRun (s.setTask t f) a) ↔ (t ∈ dead → Barred s t state) := by
  refine ⟨fun hall ht => (not_mayRun_setTask hf).mp (hall t ht), fun ht a ha => ?_⟩
  by_cases hat : a = t
  · subst hat
    exact (not_mayRun_setTask hf).mpr (ht ha)
  · rw [mayRun_setTask_of_ne hat]
    exact h a ha

/-- What a switch keeps, and the task that it selects. -/
structure Switched (u s' : Scheduler) : Prop where
  links : LinksValid s'
  created : s'.created = u.created
  mayRun : ∀ a, MayRun s' a ↔ MayRun u a
  selected : ∃ next, s'.currentTask = some next ∧ MayRun u next

theorem LinksValid.switched {u : Scheduler} (h : LinksValid u)
    (hs : u.schedule fuel = some (.ok (prev, s'))) : Switched u s' := by
  have hlinks := h.schedule hs
  obtain ⟨next, rfl, hmay, -⟩ := h.schedule_spec hs
  exact ⟨hlinks, SameLinks.switchTask.created, mayRun_switchTask,
    ⟨next, switchTask_currentTask, hmay⟩⟩

/-- What one call does to the dead tasks. -/
structure DeadStep (fuel : Nat) (s : Scheduler) (dead : List Nat) (op : SchedOp)
    (s' : Scheduler) : Prop where
  links : LinksValid s'
  created : s.created ≤ s'.created
  kills : ∀ t, op.kills fuel s = some t → t < s.created ∧ ¬ MayRun s' t
  stay : (∀ t ∈ dead, ¬ MayRun s' t) ↔ SparesDead (s, dead) op
  selected : op.Switches → SparesDead (s, dead) op → ∀ t ∈ dead, s'.currentTask ≠ some t

/-- A call that ends with a switch. -/
theorem Switched.deadStep {u : Scheduler} {op : SchedOp} (hsw : Switched u s')
    (hcreated : u.created = s.created) (hkills : op.kills fuel s = none)
    (hstay : (∀ t ∈ dead, ¬ MayRun u t) ↔ SparesDead (s, dead) op) :
    DeadStep fuel s dead op s' := by
  refine ⟨hsw.links, Nat.le_of_eq (hsw.created.trans hcreated).symm, fun t ht => ?_, ?_,
    fun _ hok t ht hcurrent => ?_⟩
  · rw [hkills] at ht
    cases ht
  · rw [← hstay]
    exact forall_congr' fun t => forall_congr' fun _ => not_congr (hsw.mayRun t)
  · obtain ⟨next, hnext, hmay⟩ := hsw.selected
    obtain rfl := Option.some.inj (hcurrent.symm.trans hnext)
    exact hstay.mpr hok t ht hmay

/-- A call that only assigns to a task. -/
theorem LinksValid.deadStep {f : Task → Task} {state : Int} (op : SchedOp) (h : LinksValid s)
    (hdead : ∀ a ∈ dead, ¬ MayRun s a) (hnext : ∀ a, (f a).next = a.next)
    (hpid : ∀ a, (f a).pid = a.pid) (hf : (f (s.tasks t)).state = state)
    (hkills : ∀ a, op.kills fuel s = some a → a = t ∧ t < s.created ∧ state = TASK_ZOMBIE)
    (hok : (t ∈ dead → Barred s t state) ↔ SparesDead (s, dead) op) (hop : ¬ op.Switches) :
    DeadStep fuel s dead op (s.setTask t f) := by
  refine ⟨h.same (SameLinks.setTask hnext hpid) h.current, le_refl _, fun a ha => ?_,
    (setTask_stay hdead hf).trans hok, fun hsw => absurd hsw hop⟩
  obtain ⟨rfl, hlt, rfl⟩ := hkills a ha
  exact ⟨hlt, (not_mayRun_setTask hf).mpr barred_zombie⟩

theorem DeadStay.step {op : SchedOp} (h : DeadStay (s, dead)) (hvalid : op.Valid s)
    (hrun : op.run fuel s = some (.ok s')) : DeadStep fuel s dead op s' := by
  have hdead : ∀ a ∈ dead, ¬ MayRun s a := h.stay
  cases op with
  | createTask =>
    rw [SchedOp.run, Option.map_eq_some_iff] at hrun
    obtain ⟨⟨t, u⟩, hc, heq⟩ := hrun
    obtain rfl := Except.ok.inj heq
    have hlinks := h.links.create hc
    obtain ⟨rfl, hcreated, hhead, -, hother, -⟩ := createTask_spec hc
    refine ⟨hlinks, hcreated ▸ Nat.le_succ _, fun t ht => (nomatch ht), iff_of_true ?_ trivial,
      fun hsw => hsw.elim⟩
    intro a ha
    have hlt : a < s.created := h.lt a ha
    rw [MayRun, hother a (Nat.ne_of_lt hlt), hhead]
    exact hdead a ha
  | addTask task =>
    rw [SchedOp.run, Option.map_eq_some_iff] at hrun
    obtain ⟨u, ha, heq⟩ := hrun
    obtain rfl := Except.ok.inj heq
    obtain ⟨head, hhead, -⟩ := h.links.head
    obtain ⟨hcreated, -, hkeep⟩ := addTask_keeps ha
    refine ⟨h.links.add hvalid ha, Nat.le_of_eq hcreated.symm, fun t ht => (nomatch ht),
      iff_of_true ?_ trivial, fun hsw => hsw.elim⟩
    intro a ha'
    rw [MayRun, (hkeep a).1, addTask_head ha hhead, ← hhead]
    exact hdead a ha'
  | killTask pid =>
    rw [SchedOp.run, Option.map_eq_some_iff] at hrun
    obtain ⟨u, hk, heq⟩ := hrun
    obtain rfl := Except.ok.inj heq
    rcases killTask_eq hk with ⟨hnone, rfl⟩ | ⟨t, ht, rfl⟩
    · refine ⟨h.links, le_refl _, fun t ht => ?_, iff_of_true hdead trivial, fun hsw => hsw.elim⟩
      rw [SchedOp.kills, hnone] at ht
      cases ht
    · refine h.links.deadStep (.killTask pid) hdead (fun _ => rfl) (fun _ => rfl) rfl
        (fun a ha => ?_) (iff_of_true (fun _ => barred_zombie) trivial) id
      rw [SchedOp.kills, ht] at ha
      obtain rfl := Option.some.inj ha
      exact ⟨rfl, h.links.getTask_lt ht, rfl⟩
  | pauseTask task =>
    obtain rfl := Except.ok.inj (Option.some.inj hrun)
    show DeadStep fuel s dead (.pauseTask task)
      (s.setTask task fun a => { a with state := TASK_UNINTERRUPTIBLE })
    exact h.links.deadStep (.pauseTask task) hdead (fun _ => rfl) (fun _ => rfl) rfl (fun a ha => (nomatch ha))
      (iff_of_true (fun _ => barred_uninterruptible) trivial) id
  | resumeTask task =>
    obtain rfl := Except.ok.inj (Option.some.inj hrun)
    show DeadStep fuel s dead (.resumeTask task)
      (s.setTask task fun a => { a with state := TASK_READY })
    exact h.links.deadStep (.resumeTask task) hdead (fun _ => rfl) (fun _ => rfl) rfl (fun a ha => (nomatch ha))
      (forall_congr' fun _ => iff_of_false not_barred_ready id) id
  | exit =>
    obtain ⟨current, hc, rfl⟩ := exit_eq (Option.some.inj hrun)
    refine h.links.deadStep .exit hdead (fun _ => rfl) (fun _ => rfl) rfl (fun a ha => ?_)
      (iff_of_true (fun _ => barred_zombie) trivial) id
    obtain rfl := Option.some.inj (hc.symm.trans ha)
    exact ⟨rfl, h.links.current _ hc, rfl⟩
  | blockTask reason =>
    obtain ⟨current, hc, hs⟩ := blockTask_spec hrun
    refine (h.links.setState.switched hs).deadStep rfl rfl ((setTask_stay hdead rfl).trans ?_)
    refine ⟨fun hb t ht hmem => ?_, fun hok hmem => hok current hc hmem⟩
    obtain rfl := Option.some.inj (hc.symm.trans ht)
    exact hb hmem
  | unblockTask task =>
    obtain ⟨prev, hs⟩ := unblockTask_spec hrun
    refine (h.links.setState.switched hs).deadStep rfl rfl ((setTask_stay hdead rfl).trans ?_)
    exact forall_congr' fun _ => iff_of_false not_barred_ready id
  | schedule =>
    rw [SchedOp.run, Option.map_eq_some_iff] at hrun
    obtain ⟨r, hs, hr⟩ := hrun
    cases r with
    | error e => cases hr
    | ok p =>
      obtain rfl := Except.ok.inj hr
      exact (h.links.switched hs).deadStep rfl rfl (iff_of_true hdead trivial)

/-- The dead stay dead, and the tasks that the call kills are dead too. -/
theorem DeadStep.deadStay {op : SchedOp} (h : DeadStay (s, dead)) (hstep : DeadStep fuel s dead op s')
    (hok : SparesDead (s, dead) op) : DeadStay (s', (op.kills fuel s).toList ++ dead) := by
  refine ⟨hstep.links, fun t ht => ?_, fun t ht => ?_⟩
  · rcases List.mem_append.mp ht with hk | hd
    · exact Nat.lt_of_lt_of_le (hstep.kills t (Option.mem_toList.mp hk)).1 hstep.created
    · exact Nat.lt_of_lt_of_le (h.lt t hd) hstep.created
  · rcases List.mem_append.mp ht with hk | hd
    · exact (hstep.kills t (Option.mem_toList.mp hk)).2
    · exact hstep.stay.mpr hok t hd

end dead

/-- While no call wakes a dead task, none is ever selected, in any order of the calls; the next
call leaves a dead task that may run if and only if it wakes one. -/
theorem dead_stay_dead {fuel : Nat} {memory : Nat → Task} {s : Scheduler} {c : LifeConfig}
    (hinit : Scheduler.initScheduler fuel memory = some s)
    (hrun : Reaches (LifeStep SparesDead) (s, []) c) :
    ∀ op fuel s', op.Valid c.1 → op.run fuel c.1 = some (.ok s') →
      (op.Switches → SparesDead c op → ∀ t ∈ c.2, s'.currentTask ≠ some t) ∧
      ((∀ t ∈ c.2, ¬ MayRun s' t) ↔ SparesDead c op) := by
  obtain ⟨hcreated, hhead, hcurrent, -, -, hnext⟩ := initScheduler_spec hinit
  have hstart : DeadStay (s, []) := by
    refine ⟨⟨⟨0, hhead, hcreated ▸ Nat.one_pos⟩, fun t ht => ?_, fun t u ht hu => ?_⟩,
      fun t ht => absurd ht List.not_mem_nil, fun t ht => absurd ht List.not_mem_nil⟩
    · obtain rfl := Option.some.inj (hcurrent.symm.trans ht)
      exact hcreated ▸ Nat.one_pos
    · simp only at hcreated ht hu
      obtain rfl : t = 0 := by omega
      rw [hnext] at hu
      cases hu
  have hdead := Run.invariant DeadStay (fun _ _ h hstep => by
    cases hstep with
    | call op hvalid hok hrun => exact (h.step hvalid hrun).deadStay h hok) hstart hrun
  intro op fuel s' hvalid hop
  have hstep := hdead.step hvalid hop
  exact ⟨hstep.selected, hstep.stay⟩

/-- A task dies and the scheduler goes on. -/
theorem dead_stay_dead_one : ∃ s c s', Scheduler.initScheduler 2 blankTasks = some s ∧
    Reaches (LifeStep SparesDead) (s, []) c ∧ c.2 = [1] ∧
    SchedOp.schedule.run 2 c.1 = some (.ok s') ∧ s'.currentTask ≠ some 1 := by
  have hrun {s₀ s₁ s₂ s₃ s₄ : Scheduler} (hinit : Scheduler.initScheduler 2 blankTasks = some s₀)
      (h₁ : SchedOp.createTask.run 2 s₀ = some (.ok s₁)) (hlt : 1 < s₁.created)
      (h₂ : (SchedOp.addTask 1).run 2 s₁ = some (.ok s₂))
      (h₃ : (SchedOp.killTask 1).run 2 s₂ = some (.ok s₃))
      (hdead : (SchedOp.killTask 1).kills 2 s₂ = some 1)
      (h₄ : SchedOp.schedule.run 2 s₃ = some (.ok s₄)) :
      ∃ s c s', Scheduler.initScheduler 2 blankTasks = some s ∧
        Reaches (LifeStep SparesDead) (s, []) c ∧ c.2 = [1] ∧
        SchedOp.schedule.run 2 c.1 = some (.ok s') ∧ s'.currentTask ≠ some 1 := by
    have hreach : Reaches (LifeStep SparesDead) (s₀, [])
        (s₃, ((SchedOp.killTask 1).kills 2 s₂).toList ++ []) :=
      ((Relation.ReflTransGen.single (.call .createTask trivial trivial h₁)).tail
        (.call (.addTask 1) hlt trivial h₂)).tail (.call (.killTask 1) trivial trivial h₃)
    rw [hdead] at hreach
    exact ⟨s₀, _, s₄, hinit, hreach, rfl, h₄, (dead_stay_dead hinit hreach .schedule 2 s₄ trivial
      h₄).1 trivial trivial 1 (List.mem_singleton.mpr rfl)⟩
  exact hrun rfl rfl (Nat.lt_succ_self 1) rfl rfl rfl rfl

/-- `resume_task` wakes a task that was killed. -/
theorem not_dead_stay_dead : ¬ ∀ (fuel : Nat) (memory : Nat → Task) (s : Scheduler) (c : LifeConfig),
    Scheduler.initScheduler fuel memory = some s → Reaches (LifeStep fun _ _ => True) (s, []) c →
    ∀ (op : SchedOp) fuel s', op.Valid c.1 → op.run fuel c.1 = some (.ok s') → op.Switches →
      ∀ t ∈ c.2, s'.currentTask ≠ some t := by
  intro hall
  have hrun {s₀ s₁ s₂ s₃ s₄ s₅ : Scheduler}
      (hinit : Scheduler.initScheduler 2 blankTasks = some s₀)
      (h₁ : SchedOp.createTask.run 2 s₀ = some (.ok s₁)) (hlt : 1 < s₁.created)
      (h₂ : (SchedOp.addTask 1).run 2 s₁ = some (.ok s₂))
      (h₃ : (SchedOp.killTask 1).run 2 s₂ = some (.ok s₃)) (hlt' : 1 < s₃.created)
      (hdead : (SchedOp.killTask 1).kills 2 s₂ = some 1)
      (h₄ : (SchedOp.resumeTask 1).run 2 s₃ = some (.ok s₄))
      (h₅ : SchedOp.schedule.run 2 s₄ = some (.ok s₅)) (hcurrent : s₅.currentTask = some 1) :
      False := by
    have hreach : Reaches (LifeStep fun _ _ => True) (s₀, [])
        (s₄, ((SchedOp.resumeTask 1).kills 2 s₃).toList ++
          (((SchedOp.killTask 1).kills 2 s₂).toList ++ [])) :=
      (((Relation.ReflTransGen.single (.call .createTask trivial trivial h₁)).tail
        (.call (.addTask 1) hlt trivial h₂)).tail (.call (.killTask 1) trivial trivial h₃)).tail
          (.call (.resumeTask 1) hlt' trivial h₄)
    rw [hdead] at hreach
    exact hall 2 _ s₀ _ hinit hreach .schedule 2 s₅ trivial h₅ trivial 1
      (List.mem_singleton.mpr rfl) hcurrent
  exact hrun rfl rfl (Nat.lt_succ_self 1) rfl rfl (Nat.lt_succ_self 1) rfl rfl rfl rfl

end UnedKernel.Sched
