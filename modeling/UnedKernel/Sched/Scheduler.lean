import UnedKernel.Memory.Pages

/-! # The scheduler

`scheduler.c`. Tasks live at the addresses that `kmalloc` gave them, here their
number in the order of creation, and the task list is threaded through them. A
null pointer is `none`. Loops over the list have fuel: `none` when it runs out. -/

namespace UnedKernel.Sched
open UnedKernel.Memory (Panic)

def TASK_EXECUTING : Int := 0
def TASK_READY : Int := 1
def TASK_UNINTERRUPTIBLE : Int := 3
def TASK_ZOMBIE : Int := 5
def TASK_IDLE : Int := 8

def SIGKILL : Int := 9

/-- `struct task`: what the scheduler decides by. -/
structure Task where
  state : Int
  exitCode : Int
  exitSignal : Int
  pid : BitVec 16
  ppid : BitVec 16
  next : Option Nat
  prev : Option Nat
  deriving DecidableEq, Repr

/-- The globals of the scheduler, and the tasks. -/
structure Scheduler where
  tasks : Nat → Task
  created : Nat
  taskHead : Option Nat
  currentTask : Option Nat

/-- What stops the kernel: a panic, or a null task followed. -/
inductive Fault where
  | panic (p : Panic)
  | nullTask

namespace Scheduler

/-- Assign to a task. -/
def setTask (s : Scheduler) (t : Nat) (f : Task → Task) : Scheduler :=
  { s with tasks := fun a => if a = t then f (s.tasks a) else s.tasks a }

def setState (s : Scheduler) (t : Nat) (state : Int) : Scheduler :=
  s.setTask t fun a => { a with state := state }

/-! ## The task list -/

/-- The loop of `get_task` from `current` on. -/
def getTaskFrom (s : Scheduler) (pid : BitVec 16) (current : Nat) : Nat → Option (Option Nat)
  | 0 => none
  | fuel + 1 =>
    match (s.tasks current).next with
    | none => some none
    | some next => if (s.tasks next).pid = pid then some (some next) else getTaskFrom s pid next fuel

/-- `get_task`. -/
def getTask (fuel : Nat) (s : Scheduler) (pid : BitVec 16) : Option (Option Nat) :=
  match s.taskHead with
  | none => some none
  | some head => if (s.tasks head).pid = pid then some (some head) else getTaskFrom s pid head fuel

/-- The loop of `get_free_pid`, over the values of an `int16_t`. -/
def getFreePidFrom (fuel : Nat) (s : Scheduler) (pid : BitVec 16) : Nat → Option (BitVec 16)
  | 0 => none
  | tries + 1 => do
    match ← s.getTask fuel pid with
    | some _ => getFreePidFrom fuel s (pid + 1) tries
    | none => return pid

/-- `get_free_pid`. -/
def getFreePid (fuel : Nat) (s : Scheduler) : Option (BitVec 16) := getFreePidFrom fuel s 1 fuel

/-- The last task from `current` on: the loop of `add_task`. -/
def lastTask (s : Scheduler) (current : Nat) : Nat → Option Nat
  | 0 => none
  | fuel + 1 =>
    match (s.tasks current).next with
    | none => some current
    | some next => lastTask s next fuel

/-- `add_task`. -/
def addTask (fuel : Nat) (s : Scheduler) (task : Nat) : Option Scheduler :=
  match s.taskHead with
  | none => some { s with taskHead := some task }
  | some head => do
    let current ← s.lastTask head fuel
    let s := s.setTask current fun a => { a with next := some task }
    return s.setTask task fun a => { a with prev := some current }

/-- `remove_task`. The links of the task itself stay as they are. -/
def removeTask (s : Scheduler) (task : Nat) : Scheduler :=
  let next := (s.tasks task).next
  match (s.tasks task).prev with
  | none =>
    let s := { s with taskHead := next }
    match next with
    | none => s
    | some head => s.setTask head fun a => { a with prev := none }
  | some prev =>
    let s := s.setTask prev fun a => { a with next := next }
    match (s.tasks task).next with
    | none => s
    | some next => s.setTask next fun a => { a with prev := (s.tasks task).prev }

/-! ## Tasks -/

/-- `create_task`: the new task and its number. -/
def createTask (fuel : Nat) (s : Scheduler) : Option (Nat × Scheduler) := do
  let task := s.created
  let s := { s with created := s.created + 1 }
  let ppid := match s.currentTask with
    | none => 0
    | some parent => (s.tasks parent).pid
  let pid ← s.getFreePid fuel
  return (task, s.setTask task fun _ =>
    { state := TASK_READY, exitCode := 0, exitSignal := 0, pid := pid, ppid := ppid, next := none,
      prev := none })

/-- `init_scheduler`. -/
def initScheduler (fuel : Nat) (memory : Nat → Task) : Option Scheduler := do
  let s : Scheduler := { tasks := memory, created := 0, taskHead := none, currentTask := none }
  let (idle, s) ← s.createTask fuel
  let s := s.setTask idle fun a => { a with pid := 0, state := TASK_IDLE }
  let s ← s.addTask fuel idle
  return { s with currentTask := s.taskHead }

/-- `pause_task`. -/
def pauseTask (s : Scheduler) (task : Nat) : Scheduler := s.setState task TASK_UNINTERRUPTIBLE

/-- `resume_task`. -/
def resumeTask (s : Scheduler) (task : Nat) : Scheduler := s.setState task TASK_READY

/-- `exit`. -/
def exit (s : Scheduler) : Except Fault Scheduler :=
  match s.currentTask with
  | none => .error .nullTask
  | some current => .ok (s.setTask current fun a => { a with exitCode := 0, state := TASK_ZOMBIE })

/-- `kill_task`. -/
def killTask (fuel : Nat) (s : Scheduler) (pid : BitVec 16) : Option Scheduler := do
  match ← s.getTask fuel pid with
  | none => return s
  | some task => return s.setTask task fun a =>
      { a with exitCode := 0, exitSignal := SIGKILL, state := TASK_ZOMBIE }

/-! ## Switching -/

/-- The ring search of `schedule` from `current` on: a task that is ready to run, `none`
once the search is back at the task it started from. -/
def searchReady (s : Scheduler) (original current : Nat) : Nat → Option (Except Fault (Option Nat))
  | 0 => none
  | fuel + 1 =>
    let next := match (s.tasks current).next with
      | none => s.taskHead
      | some next => some next
    match next with
    | none => some (.error .nullTask)
    | some current =>
      if (s.tasks current).state = TASK_READY ∨ (s.tasks current).state = TASK_EXECUTING then
        some (.ok (some current))
      else if current = original then some (.ok none)
      else searchReady s original current fuel

/-- The end of `schedule`: leave `prev` for `next`. -/
def switchTask (s : Scheduler) (prev next : Nat) : Scheduler :=
  let s := if (s.tasks prev).state = TASK_EXECUTING then s.setState prev TASK_READY else s
  let s := { s with currentTask := some next }
  if (s.tasks next).state = TASK_READY then s.setState next TASK_EXECUTING else s

/-- `schedule`: the task that left the processor. -/
def schedule (fuel : Nat) (s : Scheduler) : Option (Except Fault (Nat × Scheduler)) :=
  match s.currentTask with
  | none => some (.error .nullTask)
  | some current =>
    match s.searchReady current current fuel with
    | none => none
    | some (.error e) => some (.error e)
    | some (.ok (some next)) => some (.ok (current, s.switchTask current next))
    | some (.ok none) =>
      match s.taskHead with
      | none => some (.error .nullTask)
      | some head =>
        if (s.tasks head).state ≠ TASK_IDLE then
          some (.error (.panic ⟨"Idle task is not valid or at head\n"⟩))
        else some (.ok (current, s.switchTask current head))

/-- `block_task`: the current task waits for `reason`, and the next one is scheduled. -/
def blockTask (fuel : Nat) (s : Scheduler) (reason : Int) : Option (Except Fault Scheduler) :=
  match s.currentTask with
  | none => some (.error .nullTask)
  | some current =>
    ((s.setState current reason).schedule fuel).map fun r => r.map Prod.snd

/-- `unblock_task`. -/
def unblockTask (fuel : Nat) (s : Scheduler) (task : Nat) : Option (Except Fault Scheduler) :=
  ((s.setState task TASK_READY).schedule fuel).map fun r => r.map Prod.snd

end Scheduler
end UnedKernel.Sched
