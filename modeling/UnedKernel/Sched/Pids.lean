import UnedKernel.Lib.NodeList
import UnedKernel.Sched.Exclusive

/-! # Process identifiers

`create_task` picks the pid by a scan of the task list, and `add_task` enters the
task into the list later. Identifiers stay distinct as long as no task is created
between the two steps of another. -/

namespace UnedKernel.Sched
open Run

/-- `t` is on the task list. -/
inductive OnList (s : Scheduler) : Nat → Prop
  | head {t : Nat} : s.taskHead = some t → OnList s t
  | next {t u : Nat} : OnList s t → (s.tasks t).next = some u → OnList s u

/-- A pid names at most one task of the list. -/
def UniquePids (s : Scheduler) : Prop :=
  ∀ a b, OnList s a → OnList s b → (s.tasks a).pid = (s.tasks b).pid → a = b

/-- The links from `start` on pass the tasks of a list and end. -/
def TaskList (s : Scheduler) : Option Nat → List Nat → Prop
  | start, [] => start = none
  | start, t :: ts => start = some t ∧ TaskList s (s.tasks t).next ts

namespace TaskList

variable {s s' : Scheduler} {start : Option Nat} {ts front : List Nat} {t last : Nat}

/-- The task list is a list of nodes. -/
theorem nodeList_iff : TaskList s start ts ↔ NodeList (fun t => (s.tasks t).next) start ts := by
  induction ts generalizing start with
  | nil => exact Iff.rfl
  | cons t ts ih => exact and_congr_right fun _ => ih

theorem congr (h : TaskList s start ts)
    (hnext : ∀ t, t ∈ ts → (s'.tasks t).next = (s.tasks t).next) : TaskList s' start ts :=
  nodeList_iff.mpr ((nodeList_iff.mp h).congr hnext)

/-- A task linked behind the last one. -/
theorem snoc (h : TaskList s start (front ++ [last]))
    (hnext : ∀ t, t ∈ front → (s'.tasks t).next = (s.tasks t).next)
    (hlast : (s'.tasks last).next = some t) (ht : (s'.tasks t).next = none) :
    TaskList s' start (front ++ [last] ++ [t]) :=
  nodeList_iff.mpr ((nodeList_iff.mp h).snoc hnext hlast ht)

/-- The last task of a list has no successor. -/
theorem last_next (h : TaskList s start (front ++ [last])) : (s.tasks last).next = none :=
  (nodeList_iff.mp h).next_eq

theorem next_mem (h : TaskList s start ts) {u : Nat} (ht : t ∈ ts)
    (hu : (s.tasks t).next = some u) : u ∈ ts :=
  (nodeList_iff.mp h).next_mem ht hu

theorem mem (h : TaskList s s.taskHead ts) (ht : OnList s t) : t ∈ ts := by
  induction ht with
  | head hhead =>
    rw [hhead] at h
    cases ts with
    | nil => cases h
    | cons u ts =>
      obtain rfl := Option.some.inj h.1
      exact List.mem_cons_self
  | next _ hnext ih => exact h.next_mem ih hnext

/-- The loop of `add_task` ends at the last task of the list. -/
theorem lastTask_spec {fuel : Nat} (h : TaskList s (some t) ts)
    (hl : s.lastTask t fuel = some last) : ∃ front, ts = front ++ [last] := by
  induction fuel generalizing t ts with
  | zero => cases hl
  | succ fuel ih =>
    rw [Scheduler.lastTask] at hl
    cases ts with
    | nil => cases h
    | cons u ts =>
      obtain ⟨hstart, hrest⟩ := h
      obtain rfl := Option.some.inj hstart
      cases hn : (s.tasks t).next with
      | none =>
        rw [hn] at hl hrest
        obtain rfl := Option.some.inj hl
        cases ts with
        | nil => exact ⟨[], rfl⟩
        | cons u ts => cases hrest.1
      | some next =>
        rw [hn] at hl hrest
        obtain ⟨front, rfl⟩ := ih hrest hl
        exact ⟨t :: front, rfl⟩

/-- What `get_task` does not find is not on the list. -/
theorem getTaskFrom_none {fuel current : Nat} {pid : BitVec 16}
    (h : TaskList s (s.tasks current).next ts)
    (hg : s.getTaskFrom pid current fuel = some none) :
    ∀ t, t ∈ ts → (s.tasks t).pid ≠ pid := by
  induction fuel generalizing current ts with
  | zero => cases hg
  | succ fuel ih =>
    rw [Scheduler.getTaskFrom] at hg
    cases ts with
    | nil => exact fun t ht => by cases ht
    | cons u ts =>
      obtain ⟨hstart, hrest⟩ := h
      rw [hstart] at hg
      simp only at hg
      split at hg
      · cases hg
      · rename_i hne
        intro t ht
        rcases List.mem_cons.mp ht with rfl | hmem
        · exact hne
        · exact ih hrest hg t hmem

theorem getTask_none {fuel : Nat} {pid : BitVec 16} (h : TaskList s s.taskHead ts)
    (hg : s.getTask fuel pid = some none) : ∀ t, t ∈ ts → (s.tasks t).pid ≠ pid := by
  rw [Scheduler.getTask] at hg
  cases ts with
  | nil => exact fun t ht => by cases ht
  | cons u ts =>
    obtain ⟨hstart, hrest⟩ := h
    rw [hstart] at hg
    simp only at hg
    split at hg
    · cases hg
    · rename_i hne
      intro t ht
      rcases List.mem_cons.mp ht with rfl | hmem
      · exact hne
      · exact hrest.getTaskFrom_none hg t hmem

end TaskList

/-- `get_free_pid` returns a pid that `get_task` does not find. -/
theorem Scheduler.getFreePidFrom_spec {s : Scheduler} {fuel tries : Nat} {start pid : BitVec 16}
    (h : s.getFreePidFrom fuel start tries = some pid) : s.getTask fuel pid = some none := by
  induction tries generalizing start with
  | zero => cases h
  | succ tries ih =>
    simp only [Scheduler.getFreePidFrom, Option.bind_eq_bind, Option.bind_eq_some_iff] at h
    obtain ⟨r, hr, h⟩ := h
    cases r with
    | some t => exact ih h
    | none =>
      obtain rfl := Option.some.inj h
      exact hr

theorem Scheduler.getFreePid_spec {s : Scheduler} {fuel : Nat} {pid : BitVec 16}
    (h : s.getFreePid fuel = some pid) : s.getTask fuel pid = some none :=
  getFreePidFrom_spec h

/-! ## What keeps the list -/

/-- Two states with the same list and the same identifiers. -/
structure SameLinks (s s' : Scheduler) : Prop where
  created : s'.created = s.created
  head : s'.taskHead = s.taskHead
  next : ∀ t, (s'.tasks t).next = (s.tasks t).next
  pid : ∀ t, (s'.tasks t).pid = (s.tasks t).pid

namespace SameLinks

variable {s s' s'' : Scheduler} {t : Nat}

theorem refl (s : Scheduler) : SameLinks s s := ⟨rfl, rfl, fun _ => rfl, fun _ => rfl⟩

theorem trans (h : SameLinks s s') (h' : SameLinks s' s'') : SameLinks s s'' :=
  ⟨h'.created.trans h.created, h'.head.trans h.head, fun t => (h'.next t).trans (h.next t),
    fun t => (h'.pid t).trans (h.pid t)⟩

theorem setTask {f : Task → Task} (hnext : ∀ a, (f a).next = a.next)
    (hpid : ∀ a, (f a).pid = a.pid) : SameLinks s (s.setTask t f) :=
  ⟨rfl, rfl, Scheduler.setTask_field Task.next hnext, Scheduler.setTask_field Task.pid hpid⟩

theorem setState {state : Int} : SameLinks s (s.setState t state) :=
  setTask (fun _ => rfl) fun _ => rfl

theorem switchTask {prev next : Nat} : SameLinks s (s.switchTask prev next) := by
  obtain ⟨u, hu⟩ : ∃ u, (if (s.tasks prev).state = TASK_EXECUTING then s.setState prev TASK_READY
    else s) = u := ⟨_, rfl⟩
  have hleave : SameLinks s u := by
    subst hu
    split
    · exact setState
    · exact refl s
  have henter : SameLinks u { u with currentTask := some next } :=
    ⟨rfl, rfl, fun _ => rfl, fun _ => rfl⟩
  rw [Scheduler.switchTask, hu]
  simp only
  split
  · exact (hleave.trans henter).trans setState
  · exact hleave.trans henter

theorem schedule {fuel prev : Nat} (h : s.schedule fuel = some (.ok (prev, s'))) :
    SameLinks s s' := by
  obtain ⟨next, -, rfl, -⟩ := Scheduler.schedule_spec h
  exact switchTask

end SameLinks

/-! ## The invariant -/

/-- The task list has distinct identifiers, and none of them is that of a task on its way
into the list; there is at most one such task. -/
structure DistinctPids (c : SchedConfig) (ts : List Nat) : Prop where
  list : TaskList c.1 c.1.taskHead ts
  old : ∀ t, t ∈ ts → t < c.1.created
  nodup : (ts.map fun t => (c.1.tasks t).pid).Nodup
  one : c.2.length ≤ 1
  pendingOld : ∀ t, t ∈ c.2 → t < c.1.created
  pendingLast : ∀ t, t ∈ c.2 → (c.1.tasks t).next = none
  pendingPid : ∀ t, t ∈ c.2 → ∀ u, u ∈ ts → (c.1.tasks u).pid ≠ (c.1.tasks t).pid

namespace DistinctPids

variable {s s' : Scheduler} {pending ts : List Nat} {t : Nat}

theorem unique {c : SchedConfig} (h : DistinctPids c ts) : UniquePids c.1 := by
  intro a b ha hb heq
  exact List.inj_on_of_nodup_map h.nodup (h.list.mem ha) (h.list.mem hb) heq

theorem same (h : DistinctPids (s, pending) ts) (hs : SameLinks s s') :
    DistinctPids (s', pending) ts where
  list := by
    have hlist : TaskList s' s.taskHead ts := h.list.congr fun t _ => hs.next t
    exact (show s'.taskHead = s.taskHead from hs.head) ▸ hlist
  old t ht := hs.created ▸ h.old t ht
  nodup := by
    have hmap : (ts.map fun t => (s'.tasks t).pid) = ts.map fun t => (s.tasks t).pid :=
      List.map_congr_left fun t _ => hs.pid t
    exact hmap ▸ h.nodup
  one := h.one
  pendingOld t ht := hs.created ▸ h.pendingOld t ht
  pendingLast t ht := (hs.next t).trans (h.pendingLast t ht)
  pendingPid t ht u hu := by
    rw [hs.pid, hs.pid]
    exact h.pendingPid t ht u hu

/-- With no task on its way, the task created has a new pid. -/
theorem create {fuel : Nat} (h : DistinctPids (s, []) ts)
    (hc : s.createTask fuel = some (t, s')) : DistinctPids (s', [t]) ts := by
  obtain ⟨rfl, hcreated, hhead, -, hother, -, hnext, hpid⟩ := Scheduler.createTask_spec hc
  have hne : ∀ a, a ∈ ts → a ≠ s.created := fun a ha => Nat.ne_of_lt (h.old a ha)
  have hsame : TaskList { s with created := s.created + 1 } s.taskHead ts :=
    h.list.congr fun _ _ => rfl
  have hfree : ∀ u, u ∈ ts → (s.tasks u).pid ≠ (s'.tasks s.created).pid :=
    TaskList.getTask_none (s := { s with created := s.created + 1 }) hsame
      (Scheduler.getFreePid_spec hpid)
  refine ⟨?_, ?_, ?_, Nat.le_refl 1, ?_, ?_, ?_⟩
  · have hlist : TaskList s' s.taskHead ts :=
      h.list.congr fun a ha => congrArg Task.next (hother a (hne a ha))
    exact hhead ▸ hlist
  · intro a ha
    have hlt : a < s.created := h.old a ha
    show a < s'.created
    omega
  · have hmap : (ts.map fun a => (s'.tasks a).pid) = ts.map fun a => (s.tasks a).pid :=
      List.map_congr_left fun a ha => congrArg Task.pid (hother a (hne a ha))
    exact hmap ▸ h.nodup
  · intro a ha
    obtain rfl := List.mem_singleton.mp ha
    show s.created < s'.created
    omega
  · intro a ha
    obtain rfl := List.mem_singleton.mp ha
    exact hnext
  · intro a ha u hu
    obtain rfl := List.mem_singleton.mp ha
    show (s'.tasks u).pid ≠ (s'.tasks s.created).pid
    rw [hother u (hne u hu)]
    exact hfree u hu

/-- The task on its way enters the list at its end. -/
theorem add {fuel : Nat} (h : DistinctPids (s, [t]) ts) (ha : s.addTask fuel t = some s') :
    DistinctPids (s', []) (ts ++ [t]) := by
  have hmem : t ∈ [t] := List.mem_singleton_self t
  have htnext : (s.tasks t).next = none := h.pendingLast t hmem
  have htpid : ∀ u, u ∈ ts → (s.tasks u).pid ≠ (s.tasks t).pid := h.pendingPid t hmem
  have htold : t < s.created := h.pendingOld t hmem
  obtain ⟨hcreated, -, hkeep⟩ := Scheduler.addTask_keeps ha
  have hlist : TaskList s' s'.taskHead (ts ++ [t]) := by
    have hold : TaskList s s.taskHead ts := h.list
    rw [Scheduler.addTask] at ha
    split at ha
    · rename_i hhead
      rw [hhead] at hold
      cases ts with
      | cons u ts => cases hold.1
      | nil =>
        obtain rfl := Option.some.inj ha
        exact ⟨rfl, htnext⟩
    · rename_i head hhead
      simp only [Option.bind_eq_bind, Option.bind_eq_some_iff, Option.pure_def,
        Option.some.injEq] at ha
      obtain ⟨last, hlast, rfl⟩ := ha
      rw [hhead] at hold
      obtain ⟨front, rfl⟩ := hold.lastTask_spec hlast
      have hback : ∀ a, (((s.setTask last fun a => { a with next := some t }).setTask t
          fun a => { a with prev := some last }).tasks a).next =
          ((s.setTask last fun a => { a with next := some t }).tasks a).next :=
        Scheduler.setTask_field (f := fun a : Task => { a with prev := some last }) Task.next
          fun _ => rfl
      have hnodup : (front ++ [last]).Nodup := List.Nodup.of_map _ h.nodup
      have htne : t ≠ last := fun heq => htpid last (by simp) (by rw [heq])
      show TaskList _ s.taskHead _
      rw [hhead]
      refine hold.snoc (fun a hfront => ?_) ?_ ?_
      · have hne : a ≠ last := by
          rintro rfl
          exact absurd hnodup (by simp [List.nodup_append, hfront])
        rw [hback, Scheduler.setTask_of_ne _ hne]
      · rw [hback, Scheduler.setTask_same]
      · rw [hback, Scheduler.setTask_of_ne _ htne]
        exact htnext
  refine ⟨hlist, ?_, ?_, Nat.zero_le 1, ?_, ?_, ?_⟩
  · intro a hmem
    show a < s'.created
    rw [hcreated]
    rcases List.mem_append.mp hmem with hold | hnew
    · exact h.old a hold
    · exact (List.mem_singleton.mp hnew) ▸ htold
  · have hmap : ((ts ++ [t]).map fun a => (s'.tasks a).pid) =
        (ts.map fun a => (s.tasks a).pid) ++ [(s.tasks t).pid] := by
      rw [List.map_append, List.map_singleton, (hkeep t).2]
      exact congrArg (· ++ _) (List.map_congr_left fun a _ => (hkeep a).2)
    show ((ts ++ [t]).map fun a => (s'.tasks a).pid).Nodup
    rw [hmap]
    refine List.nodup_append.mpr ⟨h.nodup, List.nodup_singleton _, ?_⟩
    intro p hp q hq heq
    obtain ⟨u, hu, rfl⟩ := List.mem_map.mp hp
    exact htpid u hu (heq.trans (List.mem_singleton.mp hq))
  · exact fun a ha => absurd ha List.not_mem_nil
  · exact fun a ha => absurd ha List.not_mem_nil
  · exact fun a ha => absurd ha List.not_mem_nil

/-- Every operation keeps the identifiers distinct, a creation when no task is on its way. -/
theorem step {c c' : SchedConfig}
    (hstep : SchedStep (fun c => c.2 = []) (fun c t => t ∈ c.2) c c') (h : DistinctPids c ts) :
    ∃ ts', DistinctPids c' ts' := by
  cases hstep with
  | create hok hc =>
    obtain rfl : _ = [] := hok
    exact ⟨ts, h.create hc⟩
  | @add s s' pending fuel task ht hok ha =>
    obtain ⟨a, rfl⟩ : ∃ a, pending = [a] :=
      List.length_eq_one_iff.mp (Nat.le_antisymm h.one (List.length_pos_of_mem hok))
    obtain rfl := List.mem_singleton.mp hok
    have hempty : [task].erase task = [] := List.erase_cons_head task []
    rw [hempty]
    exact ⟨ts ++ [task], h.add ha⟩
  | kill hk =>
    rcases Scheduler.killTask_cases hk with rfl | ⟨t, rfl⟩
    · exact ⟨ts, h⟩
    · exact ⟨ts, h.same (SameLinks.setTask (fun _ => rfl) fun _ => rfl)⟩
  | pause => exact ⟨ts, h.same SameLinks.setState⟩
  | resume => exact ⟨ts, h.same SameLinks.setState⟩
  | exit he =>
    obtain ⟨current, -, rfl⟩ := Scheduler.exit_eq he
    exact ⟨ts, h.same (SameLinks.setTask (fun _ => rfl) fun _ => rfl)⟩
  | block hb =>
    obtain ⟨current, -, hs⟩ := Scheduler.blockTask_spec hb
    exact ⟨ts, h.same (SameLinks.setState.trans (SameLinks.schedule hs))⟩
  | unblock _ hu =>
    obtain ⟨prev, hs⟩ := Scheduler.unblockTask_spec hu
    exact ⟨ts, h.same (SameLinks.setState.trans (SameLinks.schedule hs))⟩
  | schedule hs => exact ⟨ts, h.same (SameLinks.schedule hs)⟩

/-- After `init_scheduler` the idle task is alone on the list. -/
theorem init {fuel : Nat} {memory : Nat → Task}
    (h : Scheduler.initScheduler fuel memory = some s) : DistinctPids (s, []) [0] := by
  obtain ⟨hcreated, hhead, -, -, -, hnext⟩ := initScheduler_spec h
  refine ⟨⟨hhead, hnext⟩, ?_, List.nodup_singleton _, Nat.zero_le 1, ?_, ?_, ?_⟩
  · intro t ht
    obtain rfl := List.mem_singleton.mp ht
    show 0 < s.created
    rw [hcreated]
    exact Nat.one_pos
  · exact fun a ha => nomatch ha
  · exact fun a ha => nomatch ha
  · exact fun a ha => nomatch ha

end DistinctPids

/-- From `init_scheduler` on, as long as no task is created while another one waits to be
added to the list, a pid names at most one task of the list. -/
theorem pids_unique {fuel : Nat} {memory : Nat → Task} {s : Scheduler} {c : SchedConfig}
    (hinit : Scheduler.initScheduler fuel memory = some s)
    (hrun : Reaches (SchedStep (fun c => c.2 = []) fun c t => t ∈ c.2) (s, []) c) :
    UniquePids c.1 := by
  obtain ⟨ts, h⟩ := Run.invariant (fun c : SchedConfig => ∃ ts, DistinctPids c ts)
    (fun _ _ ⟨_, h⟩ hstep => h.step hstep) ⟨[0], DistinctPids.init hinit⟩ hrun
  exact h.unique

/-- Two tasks created and added one after the other. -/
theorem pids_unique_two : ∃ s c,
    Scheduler.initScheduler 4 (fun _ => ⟨7, 0, 0, 0, 0, none, none⟩) = some s ∧
    Reaches (SchedStep (fun c => c.2 = []) fun c t => t ∈ c.2) (s, []) c ∧
    OnList c.1 1 ∧ OnList c.1 2 ∧ (c.1.tasks 2).pid = 2 ∧ UniquePids c.1 := by
  have hrun {s₀ s₁ s₂ s₃ s₄ : Scheduler}
      (hinit : Scheduler.initScheduler 4 (fun _ => ⟨7, 0, 0, 0, 0, none, none⟩) = some s₀)
      (hcreate : s₀.createTask 4 = some (1, s₁)) (hlt : 1 < s₁.created)
      (hadd : s₁.addTask 4 1 = some s₂) (hcreate' : s₂.createTask 4 = some (2, s₃))
      (hlt' : 2 < s₃.created) (hadd' : s₃.addTask 4 2 = some s₄) (hhead : s₄.taskHead = some 0)
      (hnext : (s₄.tasks 0).next = some 1) (hnext' : (s₄.tasks 1).next = some 2)
      (hpid : (s₄.tasks 2).pid = 2) :
      ∃ s c, Scheduler.initScheduler 4 (fun _ => ⟨7, 0, 0, 0, 0, none, none⟩) = some s ∧
        Reaches (SchedStep (fun c => c.2 = []) fun c t => t ∈ c.2) (s, []) c ∧
        OnList c.1 1 ∧ OnList c.1 2 ∧ (c.1.tasks 2).pid = 2 ∧ UniquePids c.1 := by
    have hreach : Reaches (SchedStep (fun c => c.2 = []) fun c t => t ∈ c.2) (s₀, []) (s₄, []) :=
      (((Relation.ReflTransGen.single (.create rfl hcreate)).tail
        (.add hlt (List.mem_singleton_self 1) hadd)).tail (.create rfl hcreate')).tail
          (.add hlt' (List.mem_singleton_self 2) hadd')
    have hone : OnList s₄ 1 := .next (.head hhead) hnext
    exact ⟨s₀, (s₄, []), hinit, hreach, hone, .next hone hnext', hpid, pids_unique hinit hreach⟩
  exact hrun rfl (show Scheduler.createTask 4 _ = some (1, _) from rfl) (Nat.lt_succ_self 1)
    (show Scheduler.addTask 4 _ 1 = some _ from rfl)
    (show Scheduler.createTask 4 _ = some (2, _) from rfl) (Nat.lt_succ_self 2)
    (show Scheduler.addTask 4 _ 2 = some _ from rfl) rfl rfl rfl rfl

/-- Two tasks created before either is added have the same pid. -/
theorem pids_not_unique : ¬ ∀ (fuel : Nat) (memory : Nat → Task) (s : Scheduler) (c : SchedConfig),
    Scheduler.initScheduler fuel memory = some s →
    Reaches (SchedStep (fun _ => True) fun c t => t ∈ c.2) (s, []) c → UniquePids c.1 := by
  intro hall
  have hrun {s₀ s₁ s₂ s₃ s₄ : Scheduler}
      (hinit : Scheduler.initScheduler 4 (fun _ => ⟨7, 0, 0, 0, 0, none, none⟩) = some s₀)
      (hcreate : s₀.createTask 4 = some (1, s₁)) (hcreate' : s₁.createTask 4 = some (2, s₂))
      (hlt : 1 < s₂.created) (hadd : s₂.addTask 4 1 = some s₃) (hlt' : 2 < s₃.created)
      (hadd' : s₃.addTask 4 2 = some s₄) (hhead : s₄.taskHead = some 0)
      (hnext : (s₄.tasks 0).next = some 1) (hnext' : (s₄.tasks 1).next = some 2)
      (hpid : (s₄.tasks 1).pid = (s₄.tasks 2).pid) : False := by
    have hreach : Reaches (SchedStep (fun _ => True) fun c t => t ∈ c.2) (s₀, [])
        (s₄, ([2, 1].erase 1).erase 2) :=
      (((Relation.ReflTransGen.single (.create trivial hcreate)).tail
        (.create trivial hcreate')).tail
          (.add hlt (List.mem_cons_of_mem 2 (List.mem_singleton_self 1)) hadd)).tail
            (.add hlt' (List.mem_singleton_self 2) hadd')
    have hone : OnList s₄ 1 := .next (.head hhead) hnext
    have hsame := hall 4 _ s₀ _ hinit hreach 1 2 hone (.next hone hnext') hpid
    exact absurd hsame (by decide)
  exact hrun rfl (show Scheduler.createTask 4 _ = some (1, _) from rfl)
    (show Scheduler.createTask 4 _ = some (2, _) from rfl) (Nat.lt_succ_of_lt (Nat.lt_succ_self 1))
    (show Scheduler.addTask 4 _ 1 = some _ from rfl) (Nat.lt_succ_self 2)
    (show Scheduler.addTask 4 _ 2 = some _ from rfl) rfl rfl rfl rfl

end UnedKernel.Sched
