import UnedKernel.Sched.Pids

/-! # The task list under removals

`remove_task` takes a task off the list and leaves its own links as they are, and
`add_task` relies on them: it sets the `prev` of the new task only when the list is
not empty, and its `next` never. -/

namespace UnedKernel.Sched
open Run

namespace TaskList

variable {s s' : Scheduler} {start : Option Nat} {ts ts' front back : List Nat} {t : Nat}

theorem head_eq (h : TaskList s start ts) : start = ts.head? := (nodeList_iff.mp h).head_eq

/-- The links of a task pass the tasks behind it. -/
theorem behind (h : TaskList s start (front ++ t :: back)) :
    TaskList s (s.tasks t).next back :=
  nodeList_iff.mpr (nodeList_iff.mp h).behind

theorem next_eq (h : TaskList s start (front ++ t :: back)) : (s.tasks t).next = back.head? :=
  (nodeList_iff.mp h).next_eq

/-- A list that ends passes no task twice. -/
theorem nodup (h : TaskList s start ts) : ts.Nodup := (nodeList_iff.mp h).nodup

/-- A list is given by the first task and by what follows each task. -/
theorem of_next (hstart : start = ts.head?)
    (hnext : ∀ front t back, ts = front ++ t :: back → (s.tasks t).next = back.head?) :
    TaskList s start ts :=
  nodeList_iff.mpr (NodeList.of_next hstart hnext)

theorem lastTask_eq_last (s : Scheduler) (t fuel : Nat) :
    s.lastTask t fuel = NodeList.last (fun t => (s.tasks t).next) fuel t := by
  induction fuel generalizing t with
  | zero => rfl
  | succ fuel ih =>
    rw [Scheduler.lastTask, NodeList.last]
    cases (s.tasks t).next with
    | none => rfl
    | some next => exact ih next

/-- The loop of `add_task` ends. -/
theorem lastTask_eq {fuel last : Nat} (h : TaskList s (some t) (front ++ [last]))
    (hfuel : front.length < fuel) : s.lastTask t fuel = some last :=
  (lastTask_eq_last s t fuel).trans ((nodeList_iff.mp h).last_eq hfuel)

end TaskList

/-! ## What `remove_task` assigns -/

namespace Scheduler

variable (s : Scheduler) (t a : Nat)

theorem setPrev_next (p : Option Nat) :
    ((s.setTask t fun b => { b with prev := p }).tasks a).next = (s.tasks a).next :=
  setTask_field (f := fun b : Task => { b with prev := p }) Task.next (fun _ => rfl) a

theorem setNext_prev (n : Option Nat) :
    ((s.setTask t fun b => { b with next := n }).tasks a).prev = (s.tasks a).prev :=
  setTask_field (f := fun b : Task => { b with next := n }) Task.prev (fun _ => rfl) a

theorem removeTask_taskHead : (s.removeTask t).taskHead =
    if (s.tasks t).prev = none then (s.tasks t).next else s.taskHead := by
  rw [removeTask]
  cases hprev : (s.tasks t).prev with
  | none =>
    simp only
    cases hnext : (s.tasks t).next with
    | none => rfl
    | some next => rfl
  | some prev =>
    simp only
    split <;> rfl

theorem removeTask_next : ((s.removeTask t).tasks a).next =
    if (s.tasks t).prev = some a then (s.tasks t).next else (s.tasks a).next := by
  rw [removeTask]
  cases hprev : (s.tasks t).prev with
  | none =>
    simp only
    cases hnext : (s.tasks t).next with
    | none => rfl
    | some next => exact setPrev_next _ next a none
  | some prev =>
    simp only
    have hset : ((s.setTask prev fun b => { b with next := (s.tasks t).next }).tasks a).next =
        if some prev = some a then (s.tasks t).next else (s.tasks a).next := by
      by_cases heq : a = prev
      · rw [heq, setTask_same, if_pos rfl]
      · rw [setTask_of_ne _ heq, if_neg fun h => heq (Option.some.inj h).symm]
    split
    · exact hset
    · exact (setPrev_next _ _ a _).trans hset

theorem removeTask_prev : ((s.removeTask t).tasks a).prev =
    if (s.tasks t).next = some a then (s.tasks t).prev else (s.tasks a).prev := by
  rw [removeTask]
  cases hprev : (s.tasks t).prev with
  | none =>
    simp only
    cases hnext : (s.tasks t).next with
    | none => rfl
    | some next =>
      by_cases heq : a = next
      · rw [heq, if_pos rfl]
        exact congrArg Task.prev (setTask_same _)
      · rw [if_neg fun h => heq (Option.some.inj h).symm]
        exact congrArg Task.prev (setTask_of_ne _ heq)
  | some prev =>
    obtain ⟨u, hu⟩ : ∃ u, (s.setTask prev fun b => { b with next := (s.tasks t).next }) = u :=
      ⟨_, rfl⟩
    have hkeep : ∀ b, (u.tasks b).prev = (s.tasks b).prev := fun b =>
      hu ▸ setNext_prev s prev b _
    have hself : (u.tasks t).next = (s.tasks t).next := by
      rw [← hu, setTask_tasks]
      split <;> rfl
    simp only [hu, hself]
    cases hnext : (s.tasks t).next with
    | none => exact hkeep a
    | some next =>
      by_cases heq : a = next
      · rw [heq, setTask_same, if_pos rfl]
        exact (hkeep t).trans hprev
      · rw [setTask_of_ne _ heq, if_neg fun h => heq (Option.some.inj h).symm]
        exact hkeep a

end Scheduler

/-! ## The list in both directions -/

/-- The links from the head on pass the tasks `ts` and end, and each task points back to
the one before it, the first to none. -/
structure Linked (s : Scheduler) (ts : List Nat) : Prop where
  list : TaskList s s.taskHead ts
  prev : ∀ front t back, ts = front ++ t :: back → (s.tasks t).prev = front.getLast?

/-- The state after the assignments of `add_task`. -/
def Scheduler.append (s : Scheduler) (last : Option Nat) (t : Nat) : Scheduler :=
  match last with
  | none => { s with taskHead := some t }
  | some last => (s.setTask last fun a => { a with next := some t }).setTask t
      fun a => { a with prev := some last }

theorem Scheduler.append_some (s : Scheduler) (last t : Nat) : s.append (some last) t =
    (s.setTask last fun a => { a with next := some t }).setTask t
      fun a => { a with prev := some last } := rfl

/-- A task ready to be added: it has no successor, and no predecessor if it comes first. -/
def CleanLinks (s : Scheduler) (ts : List Nat) (t : Nat) : Prop :=
  (s.tasks t).next = none ∧ (ts = [] → (s.tasks t).prev = none)

namespace Linked

variable {s s' : Scheduler} {ts front back : List Nat} {t fuel : Nat}

theorem addTask_eq (h : Linked s ts) (hadd : s.addTask fuel t = some s') :
    s' = s.append ts.getLast? t := by
  have hlist : TaskList s s.taskHead ts := h.list
  rw [Scheduler.addTask] at hadd
  cases hhead : s.taskHead with
  | none =>
    rw [hhead] at hadd hlist
    obtain rfl : ts = [] := by simpa using hlist.head_eq.symm
    exact (Option.some.inj hadd).symm
  | some head =>
    rw [hhead] at hadd hlist
    simp only [Option.bind_eq_bind, Option.bind_eq_some_iff, Option.pure_def,
      Option.some.injEq] at hadd
    obtain ⟨last, hlast, rfl⟩ := hadd
    obtain ⟨front, rfl⟩ := hlist.lastTask_spec hlast
    rw [List.getLast?_concat]
    rfl

theorem addTask_terminates (h : Linked s ts) (t : Nat) :
    s.addTask (ts.length + 1) t = some (s.append ts.getLast? t) := by
  have hlist : TaskList s s.taskHead ts := h.list
  rw [Scheduler.addTask]
  rcases List.eq_nil_or_concat ts with rfl | ⟨front, last, rfl⟩
  · rw [show s.taskHead = none from hlist]
    rfl
  · rw [List.concat_eq_append] at hlist ⊢
    obtain ⟨head, hhead⟩ : ∃ head, s.taskHead = some head := by
      cases hhead : s.taskHead with
      | some head => exact ⟨head, rfl⟩
      | none =>
        have hstart := hlist.head_eq
        simp [hhead] at hstart
    rw [hhead] at hlist ⊢
    rw [List.getLast?_concat]
    have hlast : s.lastTask head ((front ++ [last]).length + 1) = some last :=
      hlist.lastTask_eq (by rw [List.length_append]; omega)
    simp only [hlast, Option.bind_eq_bind, Option.bind_some]
    rfl

/-- A task before or behind the place of another one. -/
theorem cases_around {A B : List Nat} {u : Nat} (heq : front ++ back = A ++ u :: B) :
    (∃ mid, A = front ++ mid ∧ back = mid ++ u :: B) ∨
      ∃ mid, front = A ++ u :: mid ∧ B = mid ++ back := by
  rcases List.append_eq_append_iff.mp heq with ⟨mid, hA, hback⟩ | ⟨mid, hfront, hB⟩
  · exact .inl ⟨mid, hA, hback⟩
  · cases mid with
    | nil => exact .inl ⟨[], by simpa using hfront.symm, hB.symm⟩
    | cons v mid =>
      obtain ⟨rfl, rfl⟩ := List.cons.inj hB
      exact .inr ⟨mid, hfront, rfl⟩

theorem removeTask (h : Linked s (front ++ t :: back)) : Linked (s.removeTask t) (front ++ back) := by
  have hnext : (s.tasks t).next = back.head? := h.list.next_eq
  have hprev : (s.tasks t).prev = front.getLast? := h.prev front t back rfl
  have hnodup : (front ++ t :: back).Nodup := h.list.nodup
  have hne : ∀ a, a ∈ front → a ∉ back := fun a ha hb =>
    (List.nodup_append.mp hnodup).2.2 a ha a (List.mem_cons_of_mem t hb) rfl
  have hfront : front.Nodup := (List.nodup_append.mp hnodup).1
  have hback : back.Nodup := (List.nodup_cons.mp (List.nodup_append.mp hnodup).2.1).2
  refine ⟨TaskList.of_next ?_ ?_, ?_⟩
  · rw [Scheduler.removeTask_taskHead, hprev, hnext, h.list.head_eq]
    cases front with
    | nil => rfl
    | cons a front => simp
  · intro A u B heq
    rw [Scheduler.removeTask_next, hprev, hnext]
    rcases cases_around heq with ⟨mid, rfl, rfl⟩ | ⟨mid, rfl, rfl⟩
    · have hlist : TaskList s s.taskHead ((front ++ t :: mid) ++ u :: B) := by
        simpa using h.list
      have hold : (s.tasks u).next = B.head? := hlist.next_eq
      rw [if_neg fun hlast => hne u (List.mem_of_getLast? hlast) (by simp), hold]
    · have hlist : TaskList s s.taskHead (A ++ u :: (mid ++ t :: back)) := by
        simpa using h.list
      have hold : (s.tasks u).next = (mid ++ t :: back).head? := hlist.next_eq
      rw [hold]
      cases mid with
      | nil => simp
      | cons v mid =>
        rw [if_neg]
        · rfl
        · intro hlast
          rw [List.getLast?_append_cons, List.getLast?_cons_cons] at hlast
          exact (List.nodup_cons.mp (List.nodup_append.mp hfront).2.1).1
            (List.mem_of_getLast? hlast)
  · intro A u B heq
    rw [Scheduler.removeTask_prev, hprev, hnext]
    rcases cases_around heq with ⟨mid, rfl, rfl⟩ | ⟨mid, rfl, rfl⟩
    · have hold : (s.tasks u).prev = (front ++ t :: mid).getLast? :=
        h.prev (front ++ t :: mid) u B (by simp)
      rw [hold]
      cases mid with
      | nil => simp
      | cons v mid =>
        rw [if_neg]
        · simp [List.getLast?_append]
        · intro hhead
          obtain rfl : v = u := by simpa using hhead
          exact (List.nodup_cons.mp hback).1 (by simp)
    · have hold : (s.tasks u).prev = A.getLast? := h.prev A u (mid ++ t :: back) (by simp)
      rw [if_neg fun hhead : back.head? = some u => hne u (by simp) (List.mem_of_head? hhead), hold]

/-- The list stays linked exactly when the links of the task added are clean: `add_task`
leaves the end of the list, and the `prev` of a first task, to what it finds there. -/
theorem append_iff (h : Linked s ts) (ht : t ∉ ts) :
    Linked (s.append ts.getLast? t) (ts ++ [t]) ↔ CleanLinks s ts t := by
  rcases List.eq_nil_or_concat ts with rfl | ⟨front, last, rfl⟩
  · constructor
    · intro hlinked
      exact ⟨hlinked.list.2, fun _ => hlinked.prev [] t [] rfl⟩
    · intro hclean
      refine ⟨⟨rfl, hclean.1⟩, fun A u B heq => ?_⟩
      cases A with
      | nil =>
        obtain rfl : t = u := (List.cons.inj heq).1
        exact hclean.2 rfl
      | cons v A => simp at heq
  · rw [List.concat_eq_append] at h ht ⊢
    rw [List.getLast?_concat]
    have htlast : t ≠ last := fun heq => ht (by simp [heq])
    have hself : ((s.append (some last) t).tasks t).next = (s.tasks t).next := by
      refine (Scheduler.setPrev_next _ t t _).trans ?_
      rw [Scheduler.setTask_of_ne _ htlast]
    constructor
    · intro hlinked
      have hend : ((s.append (some last) t).tasks t).next = none :=
        TaskList.last_next hlinked.list
      exact ⟨hself ▸ hend, fun hnil => absurd hnil (by simp)⟩
    · intro hclean
      refine ⟨?_, fun A u B heq => ?_⟩
      · refine TaskList.snoc h.list (fun a ha => ?_) ?_ (hself.trans hclean.1)
        · have hne : a ≠ last := fun heq =>
            (List.nodup_append.mp h.list.nodup).2.2 a ha last (by simp) heq
          refine (Scheduler.setPrev_next _ t a _).trans ?_
          rw [Scheduler.setTask_of_ne _ hne]
        · refine (Scheduler.setPrev_next _ t last _).trans ?_
          rw [Scheduler.setTask_same]
      · rcases List.eq_nil_or_concat B with rfl | ⟨mid, v, rfl⟩
        · obtain ⟨rfl, hu⟩ := List.append_inj' heq rfl
          obtain rfl : t = u := (List.cons.inj hu).1
          rw [List.getLast?_concat]
          rw [Scheduler.append_some, Scheduler.setTask_same]
        · rw [List.concat_eq_append, ← List.cons_append, ← List.append_assoc] at heq
          obtain ⟨hold, -⟩ := List.append_inj' heq rfl
          have hne : u ≠ t := by
            intro hut
            exact ht (by rw [hold, hut]; simp)
          rw [Scheduler.append_some, Scheduler.setTask_of_ne _ hne, Scheduler.setNext_prev]
          exact h.prev A u mid hold

end Linked

/-! ## Runs -/

inductive ListOp where
  | add (t : Nat)
  | remove (t : Nat)

namespace ListOp

/-- `add_task` takes a task that is not on the list, `remove_task` one that is. -/
def Legal (ts : List Nat) : ListOp → Prop
  | add t => t ∉ ts
  | remove t => t ∈ ts

/-- The tasks added and not removed, in the order of their latest addition. -/
def after (ts : List Nat) : ListOp → List Nat
  | add t => ts ++ [t]
  | remove t => ts.erase t

/-- The state and the list that the operation leads to. -/
def result (c : Scheduler × List Nat) : ListOp → Scheduler × List Nat
  | add t => (c.1.append c.2.getLast? t, c.2 ++ [t])
  | remove t => (c.1.removeTask t, c.2.erase t)

/-- The operation ends in a state. -/
def Gives (s : Scheduler) (op : ListOp) (s' : Scheduler) : Prop :=
  match op with
  | add t => ∃ fuel, s.addTask fuel t = some s'
  | remove t => s' = s.removeTask t

end ListOp

/-- The scheduler, and the tasks that should be on its list. -/
abbrev ListConfig := Scheduler × List Nat

def ListStep (c : ListConfig) (op : ListOp) (c' : ListConfig) : Prop :=
  op.Legal c.2 ∧ op.Gives c.1 c'.1 ∧ c'.2 = op.after c.2

/-- The operation ends, and leaves a list of the tasks that should be on it. -/
def KeepsList (c : ListConfig) (op : ListOp) : Prop :=
  op.Legal c.2 → ∃ s' : Scheduler, op.Gives c.1 s' ∧ Linked s' (op.after c.2)

/-- A task added again has clean links. -/
def AddsClean (c : ListConfig) (op : ListOp) : Prop :=
  match op with
  | .add t => t ∉ c.2 → CleanLinks c.1 c.2 t
  | .remove _ => True

namespace Linked

variable {c c' : ListConfig} {op : ListOp}

theorem keepsList_iff (h : Linked c.1 c.2) : KeepsList c op ↔ AddsClean c op := by
  cases op with
  | add t =>
    constructor
    · intro hkeeps ht
      obtain ⟨s', ⟨fuel, hadd⟩, hlinked⟩ := hkeeps ht
      rw [h.addTask_eq hadd] at hlinked
      exact (h.append_iff ht).mp hlinked
    · intro hclean ht
      exact ⟨_, ⟨_, h.addTask_terminates t⟩, (h.append_iff ht).mpr (hclean ht)⟩
  | remove t =>
    refine ⟨fun _ => trivial, fun _ ht => ⟨c.1.removeTask t, rfl, ?_⟩⟩
    obtain ⟨front, back, hts⟩ := List.append_of_mem ht
    rw [hts] at h
    have hfresh : t ∉ front := fun hmem =>
      (List.nodup_append.mp h.list.nodup).2.2 t hmem t List.mem_cons_self rfl
    have herase : c.2.erase t = front ++ back := by
      rw [hts, List.erase_append_right _ hfresh, List.erase_cons_head]
    rw [ListOp.after, herase]
    exact h.removeTask

theorem step_eq (h : Linked c.1 c.2) (hstep : ListStep c op c') : c' = op.result c := by
  obtain ⟨-, hgives, hafter⟩ := hstep
  cases op with
  | add t =>
    obtain ⟨fuel, hadd⟩ := hgives
    exact Prod.ext (h.addTask_eq hadd) hafter
  | remove t => exact Prod.ext hgives hafter

theorem step (h : Linked c.1 c.2) (hkeeps : KeepsList c op) (hstep : ListStep c op c') :
    Linked c'.1 c'.2 := by
  obtain ⟨s', hgives, hlinked⟩ := hkeeps hstep.1
  rw [h.step_eq hstep]
  have hstep' : ListStep c op (s', op.after c.2) := ⟨hstep.1, hgives, rfl⟩
  rwa [← h.step_eq hstep']

end Linked

/-- In any sequence of additions of tasks that are not on the list and removals of tasks
that are, each operation ends with a proper list exactly when each addition finds the
task's `next` null, and its `prev` too where the list is empty. -/
theorem taskList_linked_iff {s : Scheduler} {ts : List Nat} (h : Linked s ts)
    (ops : List ListOp) :
    Throughout ListStep KeepsList (s, ts) ops ↔ Throughout ListStep AddsClean (s, ts) ops :=
  throughout_iff (fun c : ListConfig => Linked c.1 c.2) (fun _ _ hc => hc.keepsList_iff)
    (fun _ _ _ hc hkeeps hstep => hc.step hkeeps hstep) h ops

/-- Tasks as `create_task` leaves them, and none on the list. -/
def noTasks : Scheduler where
  tasks := fun _ => ⟨TASK_READY, 0, 0, 0, 0, none, none⟩
  created := 0
  taskHead := none
  currentTask := none

theorem linked_noTasks : Linked noTasks [] := ⟨rfl, fun front t back h => by simp at h⟩

/-- A task that is alone on the list, removed and added again. -/
theorem taskList_linked_iff_alone :
    Throughout ListStep KeepsList (noTasks, []) [.add 0, .remove 0, .add 0] := by
  refine (taskList_linked_iff linked_noTasks _).mpr ⟨fun _ => ⟨rfl, fun _ => rfl⟩, ?_⟩
  have hone : Linked (noTasks.append none 0) [0] :=
    (linked_noTasks.append_iff (by simp)).mpr ⟨rfl, fun _ => rfl⟩
  have hnone : Linked ((noTasks.append none 0).removeTask 0) [] := @Linked.removeTask _ [] [] 0 hone
  intro c hstep
  obtain rfl := Linked.step_eq (c := (noTasks, [])) linked_noTasks hstep
  refine ⟨trivial, fun c hstep => ?_⟩
  obtain rfl := Linked.step_eq (c := (_, [0])) hone hstep
  exact ⟨fun _ => ⟨rfl, fun _ => rfl⟩, fun _ _ => trivial⟩

/-- A head that is removed and added again points at the rest of the list. -/
theorem not_taskList_linked :
    ¬ ∀ ops : List ListOp, Throughout ListStep KeepsList (noTasks, []) ops := by
  intro hall
  obtain ⟨-, hrun⟩ := hall [.add 0, .add 1, .remove 0, .add 0]
  obtain ⟨-, hrun⟩ := hrun (noTasks.append none 0, [0]) ⟨by simp [ListOp.Legal], ⟨1, rfl⟩, rfl⟩
  obtain ⟨-, hrun⟩ := hrun (((noTasks.append none 0).append (some 0) 1), [0, 1])
    ⟨by simp [ListOp.Legal], ⟨1, rfl⟩, rfl⟩
  obtain ⟨hkeeps, -⟩ := hrun (_, [1]) ⟨by simp [ListOp.Legal], rfl, rfl⟩
  have hone : Linked (noTasks.append none 0) [0] :=
    (linked_noTasks.append_iff (by simp)).mpr ⟨rfl, fun _ => rfl⟩
  have htwo : Linked ((noTasks.append none 0).append (some 0) 1) [0, 1] :=
    (hone.append_iff (by simp)).mpr ⟨rfl, fun _ => rfl⟩
  have hlast : Linked (((noTasks.append none 0).append (some 0) 1).removeTask 0) [1] :=
    @Linked.removeTask _ [] [1] 0 htwo
  have hclean := (Linked.keepsList_iff (c := (_, [1])) hlast).mp hkeeps (by simp)
  exact absurd hclean.1 (by decide)

end UnedKernel.Sched
