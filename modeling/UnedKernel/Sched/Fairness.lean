import UnedKernel.Lib.Rounds
import UnedKernel.Sched.Lifecycle
import UnedKernel.Sched.TaskLinks

/-! # Fairness of the scheduler

`schedule` searches the task list as a ring, from the task behind the current one on.
The tasks that could run stay the same, so calls one after the other go round. -/

namespace UnedKernel.Sched
open Rounds

namespace Scheduler

variable {s s' : Scheduler} {fuel original current c n : Nat} {xs rest front back ts : List Nat}

/-- The task behind `t` in the ring: the loop of `schedule` goes on with the head after
the last task. -/
def follow (s : Scheduler) (t : Nat) : Option Nat :=
  match (s.tasks t).next with
  | none => s.taskHead
  | some next => some next

/-- `Runnable`, as a test. -/
def canRun (s : Scheduler) (t : Nat) : Bool :=
  (s.tasks t).state = TASK_READY ∨ (s.tasks t).state = TASK_EXECUTING

theorem canRun_iff (t : Nat) : s.canRun t = true ↔ s.Runnable t := by
  rw [canRun, decide_eq_true_iff, Runnable]

theorem canRun_switchTask (prev next : Nat) : (s.switchTask prev next).canRun = s.canRun := by
  funext t
  rw [Bool.eq_iff_iff, canRun_iff, canRun_iff]
  refine ⟨fun h => ?_, switchTask_runnable⟩
  by_contra hnot
  refine hnot ?_
  rw [Runnable, switchTask_state hnot] at h
  exact h

theorem follow_switchTask (prev next t : Nat) :
    (s.switchTask prev next).follow t = s.follow t := by
  have hlinks : SameLinks s (s.switchTask prev next) := SameLinks.switchTask
  rw [follow, follow, hlinks.next, hlinks.head]

/-! ## The ring of a list -/

/-- From the head on to a task of the list. -/
theorem walk_to {start : Option Nat} (h : TaskList s start (front ++ c :: back))
    (hn : s.follow n = start) : Walk s.follow n (front ++ [c]) := by
  induction front generalizing start n with
  | nil => exact ⟨hn.trans h.1, trivial⟩
  | cons t front ih =>
    refine ⟨hn.trans h.1, ih h.2 ?_⟩
    rw [follow]
    cases hnext : (s.tasks t).next with
    | none =>
      have hhead := h.2.head_eq
      rw [hnext] at hhead
      cases front <;> cases hhead
    | some next => rfl

/-- Behind a task the list goes on to its end, and then round. -/
theorem walk_round (h : TaskList s (s.tasks c).next back)
    (hend : ∀ last, (s.tasks last).next = none → Walk s.follow last xs) :
    Walk s.follow c (back ++ xs) := by
  induction back generalizing c with
  | nil => exact hend c h
  | cons t back ih =>
    refine ⟨?_, ih h.2⟩
    rw [follow, h.1]

/-- The tasks behind a task of the list, and then those before it. -/
theorem round_list (h : TaskList s s.taskHead (front ++ c :: back)) :
    Round s.follow c (back ++ front) := by
  refine ⟨?_, ?_⟩
  · rw [List.append_assoc]
    refine walk_round h.behind fun last hlast => walk_to h ?_
    rw [follow, hlast]
  · refine (List.Perm.nodup_iff ?_).mp h.nodup
    have hcomm : (front ++ [c] ++ back).Perm (back ++ (front ++ [c])) := List.perm_append_comm
    simpa using hcomm

/-! ## One call -/

theorem searchReady_succ : s.searchReady original current (fuel + 1) =
    match s.follow current with
    | none => some (.error .nullTask)
    | some current =>
      if s.canRun current then some (.ok (some current))
      else if current = original then some (.ok none)
      else s.searchReady original current fuel := by
  simp only [canRun, decide_eq_true_eq]
  rfl

/-- The search finds the first task behind `current` that could run. -/
theorem searchReady_eq (h : Walk s.follow current (xs ++ [original])) (hfresh : original ∉ xs)
    (hfuel : xs.length < fuel) : s.searchReady original current fuel =
      some (.ok (waiting s.canRun original xs).head?) := by
  induction fuel generalizing current xs with
  | zero => omega
  | succ fuel ih =>
    rw [searchReady_succ]
    cases xs with
    | nil =>
      rw [show s.follow current = some original from h.1]
      simp only
      by_cases hrun : s.canRun original
      · rw [if_pos hrun]
        simp [waiting, hrun]
      · rw [if_neg hrun]
        simp [waiting, hrun]
    | cons t xs =>
      obtain ⟨hnext, hrest⟩ := h
      rw [hnext]
      simp only
      have hne : t ≠ original := fun heq => hfresh (by simp [heq])
      by_cases hrun : s.canRun t
      · rw [if_pos hrun]
        simp [waiting, hrun]
      · rw [if_neg hrun, if_neg hne,
          ih hrest (fun hmem => hfresh (List.mem_cons_of_mem t hmem)) (by simpa using hfuel)]
        simp [waiting, hrun]

/-- `schedule` enters the first task that could run, behind the current one. -/
theorem schedule_eq (h : Round s.follow c xs) (hcurrent : s.currentTask = some c)
    (hfuel : xs.length < fuel) (hfirst : waiting s.canRun c xs = n :: rest) :
    s.schedule fuel = some (.ok (c, s.switchTask c n)) := by
  have hfresh : c ∉ xs := fun hmem =>
    (List.nodup_append.mp h.nodup).2.2 c hmem c (List.mem_singleton_self c) rfl
  rw [schedule, hcurrent]
  simp only [searchReady_eq h.walk hfresh hfuel, hfirst, List.head?_cons]

/-- With no task that could run, `schedule` enters the idle task at the head. -/
theorem schedule_idle (h : Round s.follow c xs) (hcurrent : s.currentTask = some c)
    (hfuel : xs.length < fuel) (hnone : waiting s.canRun c xs = [])
    (hhead : s.taskHead = some n) (hidle : (s.tasks n).state = TASK_IDLE) :
    s.schedule fuel = some (.ok (c, s.switchTask c n)) := by
  have hfresh : c ∉ xs := fun hmem =>
    (List.nodup_append.mp h.nodup).2.2 c hmem c (List.mem_singleton_self c) rfl
  rw [schedule, hcurrent]
  simp only [searchReady_eq h.walk hfresh hfuel, hnone, List.head?_nil, hhead]
  rw [if_neg (not_not.mpr hidle)]

/-! ## Calls one after the other -/

/-- The tasks that calls of `schedule` one after the other select. -/
def schedules (fuel : Nat) (s : Scheduler) : Nat → Option (Except Fault (List (Option Nat) × Scheduler))
  | 0 => some (.ok ([], s))
  | calls + 1 =>
    match s.schedule fuel with
    | none => none
    | some (.error e) => some (.error e)
    | some (.ok (_, s)) =>
      (schedules fuel s calls).map fun r => r.map fun (selected, t) => (s.currentTask :: selected, t)

theorem schedules_eq {selected : List Nat} (h : Round s.follow c xs)
    (hcurrent : s.currentTask = some c) (hfuel : xs.length < fuel)
    (hwaiting : waiting s.canRun c xs = selected ++ rest) :
    ∃ s' : Scheduler, s.schedules fuel selected.length = some (.ok (selected.map some, s')) := by
  induction selected generalizing s c xs rest with
  | nil => exact ⟨s, rfl⟩
  | cons n selected ih =>
    obtain ⟨ys, hround, hlength, hys⟩ := h.waiting_turn hwaiting
    obtain ⟨t, ht⟩ : ∃ t, s.switchTask c n = t := ⟨_, rfl⟩
    have hround' : Round t.follow n ys := ht ▸ hround.congr (follow_switchTask c n)
    have hrun : t.canRun = s.canRun := ht ▸ canRun_switchTask c n
    have hcurrent' : t.currentTask = some n := ht ▸ switchTask_currentTask
    have hwaiting' : waiting t.canRun n ys = selected ++ (rest ++ [n]) := by
      rw [hrun, hys]
      exact List.append_assoc ..
    obtain ⟨s', hs'⟩ := ih hround' hcurrent' (hlength.trans_lt hfuel) hwaiting'
    refine ⟨s', ?_⟩
    rw [List.length_cons, schedules, schedule_eq h hcurrent hfuel hwaiting, ht]
    simp only [hs', hcurrent', Option.map_some, Except.map, List.map_cons]

end Scheduler

open Scheduler

/-- With `k` tasks of the list that could run, `k` calls of `schedule` end and select each
of them once, in the order of the ring behind the current task; with none, `schedule`
selects the idle task at the head. -/
theorem schedule_round_robin {s : Scheduler} {front back : List Nat} {c fuel : Nat}
    (h : TaskList s s.taskHead (front ++ c :: back)) (hcurrent : s.currentTask = some c)
    (hfuel : (front ++ c :: back).length ≤ fuel) :
    (waiting s.canRun c (back ++ front)).Nodup ∧
      (∀ t, t ∈ waiting s.canRun c (back ++ front) ↔ t ∈ front ++ c :: back ∧ s.Runnable t) ∧
      (∃ s' : Scheduler, s.schedules fuel (waiting s.canRun c (back ++ front)).length =
        some (.ok ((waiting s.canRun c (back ++ front)).map some, s'))) ∧
      ((∀ t, t ∈ front ++ c :: back → ¬ s.Runnable t) →
        ∀ head, s.taskHead = some head → (s.tasks head).state = TASK_IDLE →
        ∃ s' : Scheduler, s.schedule fuel = some (.ok (c, s')) ∧ s'.currentTask = some head) := by
  have hround : Round s.follow c (back ++ front) := round_list h
  have hlen : (back ++ front).length < fuel := by
    simp only [List.length_append, List.length_cons] at hfuel ⊢
    omega
  have hmem : ∀ t, t ∈ waiting s.canRun c (back ++ front) ↔
      t ∈ front ++ c :: back ∧ s.Runnable t := by
    intro t
    rw [waiting, List.mem_filter, canRun_iff]
    simp only [List.mem_append, List.mem_cons, List.not_mem_nil, or_false]
    tauto
  refine ⟨hround.nodup.filter _, hmem, ?_, fun hnone head hhead hidle => ?_⟩
  · have hall : waiting s.canRun c (back ++ front) = waiting s.canRun c (back ++ front) ++ [] :=
      (List.append_nil _).symm
    exact schedules_eq hround hcurrent hlen hall
  · have hempty : waiting s.canRun c (back ++ front) = [] :=
      List.eq_nil_iff_forall_not_mem.mpr fun t ht => hnone t ((hmem t).mp ht).1 ((hmem t).mp ht).2
    exact ⟨_, schedule_idle hround hcurrent hlen hempty hhead hidle, switchTask_currentTask⟩

/-- The idle task, a ready one, a blocked one and the current one. -/
def fourTasks : Scheduler where
  tasks
    | 0 => ⟨TASK_IDLE, 0, 0, 0, 0, some 1, none⟩
    | 1 => ⟨TASK_READY, 0, 0, 1, 0, some 2, some 0⟩
    | 2 => ⟨TASK_UNINTERRUPTIBLE, 0, 0, 2, 0, some 3, some 1⟩
    | _ => ⟨TASK_EXECUTING, 0, 0, 3, 0, none, some 2⟩
  created := 4
  taskHead := some 0
  currentTask := some 3

/-- The ready task comes first, then the current one again. -/
theorem schedule_round_robin_four : ∃ s' : Scheduler,
    fourTasks.schedules 4 2 = some (.ok ([some 1, some 3], s')) :=
  (@schedule_round_robin fourTasks [0, 1, 2] [] 3 4 ⟨rfl, rfl, rfl, rfl, rfl⟩ rfl
    (Nat.le_refl 4)).2.2.1

end UnedKernel.Sched
