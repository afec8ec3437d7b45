import Mathlib.Logic.Function.Basic
import UnedKernel.Lib.Run

/-! # The depth of the scheduler lock

`irq_disable_counter` counts the `lock_scheduler` that no `unlock_scheduler` has
answered yet. There is one counter for all tasks, and a switch leaves it as it is:
it is the depth of the running task only as long as tasks are switched at equal
depths. -/

namespace UnedKernel.Sched

/-- The counter, the interrupt flag and the running task, with the number of
`lock_scheduler` of each task that it has not answered itself. -/
structure Machine where
  irqDisableCounter : Int
  interrupts : Bool
  running : Nat
  depth : Nat → Nat

namespace Machine

def lockScheduler (m : Machine) : Machine where
  irqDisableCounter := m.irqDisableCounter + 1
  interrupts := false
  running := m.running
  depth := Function.update m.depth m.running (m.depth m.running + 1)

def unlockScheduler (m : Machine) : Machine where
  irqDisableCounter := m.irqDisableCounter - 1
  interrupts := if m.irqDisableCounter - 1 = 0 then true else m.interrupts
  running := m.running
  depth := Function.update m.depth m.running (m.depth m.running - 1)

/-- `yield` to the task that `schedule` finds: `newctxswtch` enables interrupts when it
has loaded the context. -/
def yieldTo (m : Machine) (task : Nat) : Machine :=
  { m with running := task, interrupts := true }

/-- A step of the running task. `switch` is what `block_task` and `unblock_task` do up to
their `yield`; their `unlock_scheduler` is a step of the task when it runs again. -/
inductive Step where
  | lock
  | unlock
  | switch (task : Nat)
  | preempt (task : Nat)

/-- The machine after a step. Sections are balanced, and a task is preempted by an
interrupt only; `none` is a step that cannot be taken. -/
def step (m : Machine) : Step → Option Machine
  | .lock => some m.lockScheduler
  | .unlock => if m.depth m.running = 0 then none else some m.unlockScheduler
  | .switch task => some (m.lockScheduler.yieldTo task)
  | .preempt task => if m.interrupts then some (m.yieldTo task) else none

/-- The running task leaves `k` of its sections. -/
def leave (m : Machine) : Nat → Machine
  | 0 => m
  | k + 1 => m.unlockScheduler.leave k

/-- The counter is not negative. Where the running task is outside its sections, it is 0,
and the next section enables interrupts at its end. -/
def Honest (m : Machine) : Prop :=
  0 ≤ m.irqDisableCounter ∧ (m.depth m.running = 0 →
    m.irqDisableCounter = 0 ∧ m.lockScheduler.unlockScheduler.interrupts = true)

/-- A step is served when the counter is honest after it, and stays so while the running
task leaves the sections that it is inside. -/
def Served (m : Machine) (s : Step) : Prop :=
  ∀ t, m.step s = some t → ∀ k, k ≤ t.depth t.running → (t.leave k).Honest

/-- When a step is served: a switch is to a task that is inside as many sections as the
one that stops, the lock of `block_task` counted. -/
def Meets (m : Machine) : Step → Prop
  | .lock => True
  | .unlock => True
  | .switch task => m.lockScheduler.depth task = m.lockScheduler.depth m.running
  | .preempt task => m.interrupts = true → m.depth task = m.depth m.running

/-- The counter is the depth of the running task. -/
def Holds (m : Machine) : Prop := m.irqDisableCounter = m.depth m.running

variable {m t : Machine} {s : Step}

@[simp] theorem depth_lockScheduler : m.lockScheduler.depth m.running = m.depth m.running + 1 :=
  Function.update_self ..

@[simp] theorem depth_unlockScheduler :
    m.unlockScheduler.depth m.unlockScheduler.running = m.depth m.running - 1 :=
  Function.update_self ..

/-- What leaving `k` sections does to the counter and to the depth. -/
theorem leave_spec (m : Machine) (k : Nat) : (m.leave k).irqDisableCounter = m.irqDisableCounter - k ∧
    (m.leave k).depth (m.leave k).running = m.depth m.running - k := by
  induction k generalizing m with
  | zero => exact ⟨(Int.sub_zero _).symm, rfl⟩
  | succ k ih =>
    obtain ⟨hcounter, hdepth⟩ := ih m.unlockScheduler
    rw [leave, hcounter, hdepth, depth_unlockScheduler]
    constructor
    · show m.irqDisableCounter - 1 - k = m.irqDisableCounter - (k + 1 : Nat)
      omega
    · omega

/-- A section entered and left where the counter is 0 enables interrupts. -/
theorem interrupts_of_zero (h : m.irqDisableCounter = 0) :
    m.lockScheduler.unlockScheduler.interrupts = true := by
  have hzero : m.lockScheduler.irqDisableCounter - 1 = 0 := by
    show m.irqDisableCounter + 1 - 1 = 0
    rw [h]
    rfl
  unfold unlockScheduler
  rw [if_pos hzero]

/-- The counter stays honest while the task leaves its sections exactly when it is their
number. -/
theorem honest_leave_iff : (∀ k, k ≤ m.depth m.running → (m.leave k).Honest) ↔ m.Holds := by
  unfold Honest Holds
  constructor
  · intro hall
    obtain ⟨hcounter, hdepth⟩ := leave_spec m (m.depth m.running)
    obtain ⟨-, hzero⟩ := hall _ (Nat.le_refl _)
    rw [hdepth, hcounter] at hzero
    exact Int.eq_of_sub_eq_zero (hzero (Nat.sub_self _)).1
  · intro hholds k hk
    obtain ⟨hcounter, hdepth⟩ := leave_spec m k
    have hrest : (m.leave k).irqDisableCounter = (m.depth m.running - k : Nat) := by
      rw [hcounter, hholds]
      omega
    refine ⟨by rw [hrest]; exact Int.natCast_nonneg _, fun hout => ?_⟩
    have hzero : (m.leave k).irqDisableCounter = 0 := by
      rw [hrest, ← hdepth, hout]
      rfl
    exact ⟨hzero, interrupts_of_zero hzero⟩

theorem Holds.served_iff (h : m.Holds) (s : Step) : Served m s ↔ Meets m s := by
  have hiff {t : Machine} (hstep : m.step s = some t) : Served m s ↔ t.Holds := by
    rw [← honest_leave_iff]
    constructor
    · intro hserved
      exact hserved t hstep
    · intro hall t' hstep'
      rw [← Option.some.inj (hstep.symm.trans hstep')]
      exact hall
  cases s with
  | lock =>
    refine (hiff rfl).trans (iff_of_true ?_ trivial)
    show m.irqDisableCounter + 1 = (m.lockScheduler.depth m.running : Nat)
    rw [depth_lockScheduler, h]
    rfl
  | unlock =>
    by_cases hout : m.depth m.running = 0
    · refine iff_of_true (fun t hstep => ?_) trivial
      rw [step, if_pos hout] at hstep
      cases hstep
    · refine (hiff (by rw [step, if_neg hout])).trans (iff_of_true ?_ trivial)
      show m.irqDisableCounter - 1 = (m.unlockScheduler.depth m.unlockScheduler.running : Nat)
      rw [depth_unlockScheduler, h]
      omega
  | switch task =>
    refine (hiff rfl).trans ?_
    show m.irqDisableCounter + 1 = (m.lockScheduler.depth task : Nat) ↔
      m.lockScheduler.depth task = m.lockScheduler.depth m.running
    rw [depth_lockScheduler, h]
    omega
  | preempt task =>
    unfold Meets
    by_cases hon : m.interrupts = true
    · refine (hiff (by rw [step, if_pos hon])).trans ?_
      show m.irqDisableCounter = (m.depth task : Nat) ↔ _
      rw [h, Int.ofNat_inj]
      exact ⟨fun heq _ => heq.symm, fun heq => (heq hon).symm⟩
    · refine iff_of_true (fun t hstep => ?_) (fun hyes => absurd hyes hon)
      rw [step, if_neg hon] at hstep
      cases hstep

theorem Holds.next (h : m.Holds) (hserved : Served m s) (hstep : m.step s = some t) : t.Holds :=
  honest_leave_iff.mp (hserved t hstep)

/-- Tasks that have not run, the first of which is started with interrupts enabled. -/
def start (task : Nat) : Machine := ⟨0, true, task, fun _ => 0⟩

/-- The counter belongs to the running task throughout a run exactly when every switch of
the run is between tasks at equal depths. -/
theorem lock_depth_iff (task : Nat) (steps : List Step) :
    Run.Throughout (fun m s t => m.step s = some t) Served (start task) steps ↔
      Run.Throughout (fun m s t => m.step s = some t) Meets (start task) steps :=
  Run.throughout_iff Holds (fun _ s h => h.served_iff s) (fun _ _ _ h hserved => h.next hserved)
    (show (start task).Holds from rfl) steps

/-- `block_task` in the first task brings the second one in with the counter at 1. -/
theorem not_lock_depth :
    ¬ ∀ (task : Nat) (steps : List Step),
      Run.Throughout (fun m s t => m.step s = some t) Served (start task) steps := by
  intro h
  have hall := h 0 [.switch 1]
  have hhonest := hall.1 _ rfl 0 (Nat.zero_le _)
  exact absurd (hhonest.2 rfl).1 (by decide)

end Machine
end UnedKernel.Sched
