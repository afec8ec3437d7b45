import UnedKernel.Memory.UserHeapRuns

/-! # The heaps of different tasks

User tasks that one kernel task creates: each has a directory of its own, and
its heap at the same addresses as every other. The kernel works on all of them
under its own directory, which shows at these addresses the heap that was
created last. -/

namespace UnedKernel.Memory
open ByteMem Word Run

/-- A user task: its directory, and its memory after `create_user_heap`. -/
structure UserTask where
  pd : Nat
  memory : Option TaskMemory

/-- The machine and the user tasks. -/
structure Tasks (ι : Type) where
  machine : Machine
  task : ι → Option UserTask

variable {ι : Type}

/-- The directory of the kernel task, or that of a user task. -/
def Tasks.Dir (s : Tasks ι) (current d : Nat) : Prop :=
  d = current ∨ ∃ i u, s.task i = some u ∧ u.pd = d

/-- What the kernel does for task `i`, with requests that satisfy `ok`, stacks that satisfy
`room`, and calls on heaps that satisfy `shown`. -/
inductive TasksStep [DecidableEq ι] (ok : Machine → TaskHeap → Nat → Prop) (room : TaskHeap → Nat → Prop)
    (shown : Machine → Nat → TaskHeap → Prop) (current : Nat) (i : ι) : Tasks ι → Tasks ι → Prop
  | spawn {s : Tasks ι} {pd : Nat} {t : PagingState} (hnone : s.task i = none)
      (hsize : FrameSized s.machine.paging.mem)
      (hsupply : Supply s.machine.paging (s.Dir current) duplicatePages)
      (h : duplicateCurrentKernelPml4 s.machine.paging current = .ok (pd, t)) :
      TasksStep ok room shown current i s
        ⟨{ s.machine with paging := t }, Function.update s.task i (some ⟨pd, none⟩)⟩
  | create {s : Tasks ι} {u : UserTask} {cheap : Heap} {h' : TaskHeap} {m' : Machine}
      (hu : s.task i = some u) (hsupply : Supply s.machine.paging (s.Dir current) 14)
      (h : s.machine.createUserHeap current u.pd cheap = .ok (h', m')) :
      TasksStep ok room shown current i s
        ⟨m', Function.update s.task i (some ⟨u.pd, some ⟨h', [], []⟩⟩)⟩
  | call {s : Tasks ι} {u : UserTask} {o o' : TaskMemory} {m' : Machine} (hu : s.task i = some u)
      (ho : u.memory = some o) (hshown : shown s.machine u.pd o.heap)
      (h : TaskCall ok room (s.Dir current) current u.pd (s.machine, o) (m', o')) :
      TasksStep ok room shown current i s
        ⟨m', Function.update s.task i (some ⟨u.pd, some o'⟩)⟩

/-! ## What a step preserves -/

/-- The heap of a task is in order as its own directory shows it. -/
structure OwnHeap (m : Machine) (pd : Nat) (o : TaskMemory) : Prop where
  holds : HeapHolds (m.enter pd o.heap, o.live)
  owned : Owned m.paging.mem pd o.heap
  isKernel : o.heap.cheap.isKernel = false
  below : StackBelow o.heap
  stackBlocks : ∀ b ∈ o.stackBlocks, b.1 % PAGESIZE = 0 ∧ ∀ a, a % PAGESIZE = 0 → b.1 ≤ a →
    a < b.1 + b.2 → (a, 3) ∈ o.heap.pages

/-- The invariant: each task has its own directory, each heap is in order through it, and the
heaps of two tasks lie in different frames. -/
structure TasksHold (current : Nat) (s : Tasks ι) : Prop where
  spaces : Spaces s.machine.paging.mem (s.Dir current)
  ne : ∀ i u, s.task i = some u → u.pd ≠ current
  inj : ∀ i j u w, s.task i = some u → s.task j = some w → u.pd = w.pd → i = j
  userOpen : ∀ i u, s.task i = some u → UserOpen s.machine.paging.mem u.pd
  own : ∀ i u o, s.task i = some u → u.memory = some o → OwnHeap s.machine u.pd o
  apart : ∀ i j u w o q, i ≠ j → s.task i = some u → u.memory = some o → s.task j = some w →
    w.memory = some q → ∀ p ∈ o.heap.pages, ∀ r ∈ q.heap.pages,
      virtualToPhysical s.machine.paging.mem u.pd p.1 ≠
        virtualToPhysical s.machine.paging.mem w.pd r.1

/-- Each heap satisfies the invariant of heaps through the directory of its task. -/
def HeapsSafe (s : Tasks ι) : Prop :=
  ∀ i u o, s.task i = some u → u.memory = some o → HeapSafe (s.machine.enter u.pd o.heap, o.live)

/-- The other tasks keep their heaps: the records, and all bytes of their pages as their own
directories show them. -/
def OthersKept (i : ι) (s t : Tasks ι) : Prop :=
  ∀ j, j ≠ i → t.task j = s.task j ∧ ∀ w q, s.task j = some w → w.memory = some q →
    ∀ r ∈ q.heap.pages, ∀ o, o < PAGESIZE →
      t.machine.view w.pd (r.1 + o) = s.machine.view w.pd (r.1 + o)

theorem TaskHolds.ownHeap {D : Nat → Prop} {current pd : Nat} {m : Machine} {o : TaskMemory}
    (h : TaskHolds D current pd m o) : OwnHeap m pd o :=
  ⟨heapHolds_sameFrames h.owned h.same h.holds, h.owned.congr h.same, h.isKernel, h.below,
    h.stackBlocks⟩

theorem SameFrames.symm {t : Frames} {d e : Nat} {h : TaskHeap} (hs : SameFrames t d e h) :
    SameFrames t e d h := fun p hp => (hs p hp).symm

/-- A heap stays in order when its directory and its bytes stay. -/
theorem OwnHeap.keep {m m' : Machine} {pd : Nat} {o : TaskMemory} (h : OwnHeap m pd o)
    (hagree : Radix.AgreeOn Entry.child m.paging.mem m'.paging.mem pd 3)
    (hview : ∀ r ∈ o.heap.pages, ∀ x, x < PAGESIZE →
      m'.view pd (r.1 + x) = m.view pd (r.1 + x)) : OwnHeap m' pd o := by
  refine ⟨h.holds.transfer rfl rfl hview, ⟨fun p hp => ?_, fun p hp q hq heq => ?_⟩, h.isKernel,
    h.below, h.stackBlocks⟩
  · rw [mappingOf_agree hagree]
    exact h.owned.page p hp
  · rw [virtualToPhysical_eq, virtualToPhysical_eq, mappingOf_agree hagree,
      mappingOf_agree hagree, ← virtualToPhysical_eq, ← virtualToPhysical_eq] at heq
    exact h.owned.distinct p hp q hq heq

/-- A task after task `i` has changed. -/
theorem task_update [DecidableEq ι] {f : ι → Option UserTask} {i j : ι} {u w : UserTask}
    (h : Function.update f i (some u) j = some w) : (j = i ∧ w = u) ∨ (j ≠ i ∧ f j = some w) := by
  by_cases hij : j = i
  · subst hij
    rw [Function.update_self] at h
    exact .inl ⟨rfl, (Option.some.inj h).symm⟩
  · rw [Function.update_of_ne hij] at h
    exact .inr ⟨hij, h⟩

namespace TasksHold

variable {current : Nat} {s : Tasks ι} {i : ι}

theorem dir (_h : TasksHold current s) {u : UserTask} (hu : s.task i = some u) :
    s.Dir current u.pd := .inr ⟨i, u, hu, rfl⟩

/-- The directories stay when task `i` keeps its own. -/
theorem dir_update [DecidableEq ι] {u u' : UserTask} {m' : Machine} (hu : s.task i = some u) (hpd : u'.pd = u.pd) :
    Tasks.Dir ⟨m', Function.update s.task i (some u')⟩ current = s.Dir current := by
  funext d
  refine propext ⟨?_, ?_⟩
  · rintro (rfl | ⟨j, w, hj, rfl⟩)
    · exact .inl rfl
    · rcases task_update hj with ⟨rfl, rfl⟩ | ⟨-, hj⟩
      · exact .inr ⟨j, u, hu, hpd.symm⟩
      · exact .inr ⟨j, w, hj, rfl⟩
  · rintro (rfl | ⟨j, w, hj, rfl⟩)
    · exact .inl rfl
    · by_cases hij : j = i
      · subst hij
        rw [hu] at hj
        obtain rfl := Option.some.inj hj
        exact .inr ⟨j, u', Function.update_self _ _ _, hpd⟩
      · exact .inr ⟨j, w, (Function.update_of_ne hij _ _).trans hj, rfl⟩

/-- A change of the heap of task `i`, whose pages were `old` before. -/
theorem change [DecidableEq ι] (hs : TasksHold current s) {u : UserTask} {m' : Machine} {o' : TaskMemory}
    {old : TaskHeap} (hu : s.task i = some u)
    (hold : ∀ j w q, j ≠ i → s.task j = some w → w.memory = some q → ∀ p ∈ old.pages,
      ∀ r ∈ q.heap.pages, virtualToPhysical s.machine.paging.mem current p.1 ≠
        virtualToPhysical s.machine.paging.mem w.pd r.1)
    (ht : TaskHolds (s.Dir current) current u.pd m' o')
    (ha : Apart (s.Dir current) current u.pd s.machine m' old o'.heap) :
    TasksHold current ⟨m', Function.update s.task i (some ⟨u.pd, some o'⟩)⟩ ∧
      OthersKept i s ⟨m', Function.update s.task i (some ⟨u.pd, some o'⟩)⟩ := by
  have hpd : ∀ j w, j ≠ i → s.task j = some w → w.pd ≠ u.pd := fun j w hj hw heq =>
    hj (hs.inj j i w u hw hu heq)
  have hagree : ∀ j w, j ≠ i → s.task j = some w →
      Radix.AgreeOn Entry.child s.machine.paging.mem m'.paging.mem w.pd 3 := fun j w hj hw =>
    ha.agree w.pd (hs.dir hw) (hs.ne j w hw) (hpd j w hj hw)
  -- the pages of task `i` are in frames that no other heap has
  have hframes : ∀ j w q, j ≠ i → s.task j = some w → w.memory = some q →
      ∀ p ∈ o'.heap.pages, ∀ r ∈ q.heap.pages, virtualToPhysical m'.paging.mem current p.1 ≠
        virtualToPhysical s.machine.paging.mem w.pd r.1 := by
    intro j w q hj hw hq p hp r hr
    rcases ha.new p hp with hp | hnew
    · rw [ha.old p hp]
      exact hold j w q hj hw hq p hp r hr
    · obtain ⟨-, hlt, f, hf⟩ := (hs.own j w q hw hq).owned.page r hr
      rw [virtualToPhysical_of_mapped hf]
      exact hnew w.pd (hs.dir hw) _ (userPage_of_lt hlt) _ hf
  have hview : ∀ j w q, j ≠ i → s.task j = some w → w.memory = some q →
      ∀ r ∈ q.heap.pages, ∀ x, x < PAGESIZE →
        m'.view w.pd (r.1 + x) = s.machine.view w.pd (r.1 + x) :=
    fun j w q hj hw hq r hr x hx => ha.other w.pd (hs.dir hw) (hs.ne j w hw) (hpd j w hj hw) r.1 x
      ((hs.own j w q hw hq).owned.page r hr).1 hx fun p hp => hframes j w q hj hw hq p hp r hr
  have hphys : ∀ j w, j ≠ i → s.task j = some w → ∀ v, virtualToPhysical m'.paging.mem w.pd v =
      virtualToPhysical s.machine.paging.mem w.pd v := fun j w hj hw v => by
    rw [virtualToPhysical_eq, virtualToPhysical_eq, mappingOf_agree (hagree j w hj hw)]
  have hdir : Tasks.Dir ⟨m', Function.update s.task i (some ⟨u.pd, some o'⟩)⟩ current =
      s.Dir current := dir_update hu rfl
  refine ⟨⟨?_, fun j w hj => ?_, fun j k w x hj hk heq => ?_, fun j w hj => ?_,
    fun j w q hj hq => ?_, fun j k w x q r hjk hj hq hk hr p hp p' hp' => ?_⟩,
    fun j hj => ⟨Function.update_of_ne hj _ _, fun w q hw hq => hview j w q hj hw hq⟩⟩
  · rw [hdir]
    exact ht.spaces
  · rcases task_update hj with ⟨rfl, rfl⟩ | ⟨-, hw⟩
    · exact hs.ne j u hu
    · exact hs.ne j w hw
  · rcases task_update hj with ⟨rfl, rfl⟩ | ⟨hji, hw⟩
    · rcases task_update hk with ⟨rfl, rfl⟩ | ⟨-, hx⟩
      · rfl
      · exact hs.inj j k u x hu hx heq
    · rcases task_update hk with ⟨rfl, rfl⟩ | ⟨-, hx⟩
      · exact absurd heq (hpd j w hji hw)
      · exact hs.inj j k w x hw hx heq
  · rcases task_update hj with ⟨rfl, rfl⟩ | ⟨hji, hw⟩
    · exact ht.userOpen
    · exact (hs.userOpen j w hw).agree (hagree j w hji hw)
  · rcases task_update hj with ⟨rfl, rfl⟩ | ⟨hji, hw⟩
    · obtain rfl := Option.some.inj hq
      exact ht.ownHeap
    · exact (hs.own j w q hw hq).keep (hagree j w hji hw) (hview j w q hji hw hq)
  · rcases task_update hj with ⟨rfl, rfl⟩ | ⟨hji, hw⟩
    · obtain rfl := Option.some.inj hq
      rcases task_update hk with ⟨rfl, rfl⟩ | ⟨hki, hx⟩
      · exact absurd rfl hjk
      · rw [← ht.same.physical hp, hphys k x hki hx]
        exact hframes k x r hki hx hr p hp p' hp'
    · rcases task_update hk with ⟨rfl, rfl⟩ | ⟨hki, hx⟩
      · obtain rfl := Option.some.inj hr
        rw [← ht.same.physical hp', hphys j w hji hw]
        exact (hframes j w q hji hw hq p' hp' p hp).symm
      · rw [hphys j w hji hw, hphys k x hki hx]
        exact hs.apart j k w x q r hjk hw hq hx hr p hp p' hp'

/-- `create_task` duplicates the directory of the kernel task. -/
theorem spawn [DecidableEq ι] (hs : TasksHold current s) {pd : Nat} {t : PagingState} (hnone : s.task i = none)
    (hsize : FrameSized s.machine.paging.mem)
    (hsupply : Supply s.machine.paging (s.Dir current) duplicatePages)
    (h : duplicateCurrentKernelPml4 s.machine.paging current = .ok (pd, t)) :
    TasksHold current ⟨{ s.machine with paging := t }, Function.update s.task i (some ⟨pd, none⟩)⟩ ∧
      OthersKept i s
        ⟨{ s.machine with paging := t }, Function.update s.task i (some ⟨pd, none⟩)⟩ := by
  have hadded := hs.spaces.duplicate (.inl rfl) hsize hsupply.fresh h
  have hagree : ∀ j w, s.task j = some w →
      Radix.AgreeOn Entry.child s.machine.paging.mem t.mem w.pd 3 := fun j w hw =>
    hadded.same w.pd (hs.dir hw)
  have hphys : ∀ j w, s.task j = some w → ∀ v, virtualToPhysical t.mem w.pd v =
      virtualToPhysical s.machine.paging.mem w.pd v := fun j w hw v => by
    rw [virtualToPhysical_eq, virtualToPhysical_eq, mappingOf_agree (hagree j w hw)]
  have hview : ∀ j w, s.task j = some w → ∀ v,
      Machine.view { s.machine with paging := t } w.pd v = s.machine.view w.pd v := fun j w hw v => by
    show s.machine.phys (virtualToPhysical t.mem w.pd v + v % PAGESIZE) = _
    rw [hphys j w hw]
    rfl
  have hnew : ∀ j w, s.task j = some w → w.pd ≠ pd := fun j w hw heq =>
    hadded.new (heq ▸ hs.dir hw)
  refine ⟨⟨?_, fun j w hj => ?_, fun j k w x hj hk heq => ?_, fun j w hj => ?_,
    fun j w q hj hq => ?_, fun j k w x q r hjk hj hq hk hr p hp p' hp' => ?_⟩,
    fun j hj => ⟨Function.update_of_ne hj _ _, fun w q hw hq r hr o ho => hview j w hw _⟩⟩
  · have hdir : Tasks.Dir ⟨{ s.machine with paging := t },
        Function.update s.task i (some ⟨pd, none⟩)⟩ current =
        fun d => s.Dir current d ∨ d = pd := by
      funext d
      refine propext ⟨?_, ?_⟩
      · rintro (rfl | ⟨j, w, hj, rfl⟩)
        · exact .inl (.inl rfl)
        · rcases task_update hj with ⟨rfl, rfl⟩ | ⟨-, hw⟩
          · exact .inr rfl
          · exact .inl (hs.dir hw)
      · rintro ((rfl | ⟨j, w, hj, rfl⟩) | rfl)
        · exact .inl rfl
        · have hij : j ≠ i := by
            rintro rfl
            rw [hnone] at hj
            cases hj
          exact .inr ⟨j, w, (Function.update_of_ne hij _ _).trans hj, rfl⟩
        · exact .inr ⟨i, _, Function.update_self _ _ _, rfl⟩
    rw [hdir]
    exact hadded.spaces
  · rcases task_update hj with ⟨rfl, rfl⟩ | ⟨-, hw⟩
    · exact fun heq => hadded.new (.inl heq)
    · exact hs.ne j w hw
  · rcases task_update hj with ⟨rfl, rfl⟩ | ⟨-, hw⟩
    · rcases task_update hk with ⟨rfl, rfl⟩ | ⟨-, hx⟩
      · rfl
      · exact absurd heq.symm (hnew k x hx)
    · rcases task_update hk with ⟨rfl, rfl⟩ | ⟨-, hx⟩
      · exact absurd heq (hnew j w hw)
      · exact hs.inj j k w x hw hx heq
  · rcases task_update hj with ⟨rfl, rfl⟩ | ⟨-, hw⟩
    · exact userOpen_of_zero hadded.zero
    · exact (hs.userOpen j w hw).agree (hagree j w hw)
  · rcases task_update hj with ⟨rfl, rfl⟩ | ⟨-, hw⟩
    · cases hq
    · exact (hs.own j w q hw hq).keep (hagree j w hw) fun r _ x _ => hview j w hw _
  · rcases task_update hj with ⟨rfl, rfl⟩ | ⟨-, hw⟩
    · cases hq
    · rcases task_update hk with ⟨rfl, rfl⟩ | ⟨-, hx⟩
      · cases hr
      · rw [hphys j w hw, hphys k x hx]
        exact hs.apart j k w x q r hjk hw hq hx hr p hp p' hp'

/-- A step on a heap that the directory of the kernel task shows. -/
theorem step [DecidableEq ι] {t : Tasks ι} (hs : TasksHold current s)
    (h : TasksStep (fun m h size => CallFits m current h size) StackRoom
      (fun m pd h => SameFrames m.paging.mem current pd h) current i s t) :
    TasksHold current t ∧ OthersKept i s t := by
  cases h with
  | spawn hnone hsize hsupply h => exact hs.spawn hnone hsize hsupply h
  | @create u cheap h' m' hu hsupply h =>
    obtain ⟨⟨f, g, hcreated⟩, -⟩ := createUserHeap_spec (k := 0) hs.spaces (.inl rfl) (hs.dir hu)
      (hs.ne i u hu).symm hsupply h
    exact hs.change hu (fun _ _ _ _ _ _ p hp => absurd hp List.not_mem_nil)
      (hcreated.taskHolds (.inl rfl) (hs.dir hu) (hs.userOpen i u hu))
      (hcreated.apart (.inl rfl) cheap)
  | @call u o o' m' hu ho hshown h =>
    have hown := hs.own i u o hu ho
    have hholds : TaskHolds (s.Dir current) current u.pd s.machine o :=
      ⟨hs.spaces, hs.userOpen i u hu, heapHolds_sameFrames hown.owned hshown.symm hown.holds,
        hown.owned.congr hshown.symm, hshown, hown.isKernel, hown.below, hown.stackBlocks⟩
    obtain ⟨ht, ha⟩ := hholds.call (.inl rfl) (hs.dir hu) (hs.ne i u hu).symm h
    refine hs.change hu (fun j w q hj hw hq p hp r hr => ?_) ht ha
    rw [hshown.physical hp]
    exact hs.apart i j u w o q hj.symm hu ho hw hq p hp r hr

theorem safe (hs : TasksHold current s) : HeapsSafe s := fun i u o hu ho =>
  (hs.own i u o hu ho).holds.safe

end TasksHold

/-- Before the first task is created. -/
theorem TasksHold.init {s : Tasks ι} {current : Nat} (hwf : WellFormed s.machine.paging.mem current)
    (hnone : ∀ i, s.task i = none) : TasksHold current s := by
  have hdir : ∀ d, s.Dir current d → d = current := by
    rintro d (rfl | ⟨i, u, hu, -⟩)
    · rfl
    · rw [hnone] at hu
      cases hu
  refine ⟨⟨fun d hd => hdir d hd ▸ hwf, fun d e hd he hne => ?_, fun d e hd he hne => ?_⟩,
    fun i u hu => ?_, fun i j u w hu => ?_, fun i u hu => ?_, fun i u o hu => ?_,
    fun i j u w o q _ hu => ?_⟩
  · exact absurd ((hdir d hd).trans (hdir e he).symm) hne
  · exact absurd ((hdir d hd).trans (hdir e he).symm) hne
  all_goals
    rw [hnone] at hu
    cases hu

theorem duplicate_empty (k : Nat) :
    duplicateCurrentKernelPml4 { emptyMachine.paging with next := k } 1 =
      .ok (16 + k, { emptyMachine.paging with next := k + 1 }) := by
  have hpage : requestPage { emptyMachine.paging with next := k }
      "ERROR: Could not allocate page for new PML4\n" =
      .ok (16 + k, { emptyMachine.paging with next := k + 1 }) := by
    have hsupply : emptyMachine.paging.supply k = (16 + k) * 4096 := rfl
    have hshift : ((16 + k) * 4096) >>> 12 = 16 + k := by
      rw [Nat.shiftRight_eq_div_pow]
      omega
    rw [requestPage]
    dsimp only
    rw [hsupply, if_neg (by omega), hshift]
  have hfill : Radix.Store.fill emptyMachine.paging.mem (16 + k) 0 = emptyMachine.paging.mem := by
    funext g i
    rw [Radix.Store.fill]
    split <;> rfl
  rw [duplicateCurrentKernelPml4, duplicatePd, hpage]
  show ((duplicateDirectories 1 (16 + k) 256 256 { emptyMachine.paging with
    mem := Radix.Store.fill emptyMachine.paging.mem (16 + k) 0, next := k + 1 }).bind fun s =>
      .ok (16 + k, s)) = _
  rw [hfill, duplicateDirectories_skip (n := 0) fun _ _ _ => rfl]
  rfl

/-- No task. -/
def noTasks : Tasks Bool := ⟨emptyMachine, fun _ => none⟩

/-- Two tasks with their directories. -/
def twoTasks (m : Machine) (a b : Option TaskMemory) : Tasks Bool :=
  ⟨m, fun i => some (if i then ⟨17, b⟩ else ⟨16, a⟩)⟩

/-- The machine after two directories are duplicated. -/
def spawnedMachine : Machine :=
  { emptyMachine with paging := { emptyMachine.paging with next := 2 } }

theorem twoTasks_false {m m' : Machine} {a a' b : Option TaskMemory} :
    (⟨m', Function.update (twoTasks m a b).task false (some ⟨16, a'⟩)⟩ : Tasks Bool) =
      twoTasks m' a' b := by
  rw [twoTasks]
  congr 1
  funext i
  cases i <;> rfl

theorem twoTasks_true {m m' : Machine} {a b b' : Option TaskMemory} :
    (⟨m', Function.update (twoTasks m a b).task true (some ⟨17, b'⟩)⟩ : Tasks Bool) =
      twoTasks m' a b' := by
  rw [twoTasks]
  congr 1
  funext i
  cases i <;> rfl

theorem twoTasks_dir {m : Machine} {a b : Option TaskMemory} :
    (twoTasks m a b).Dir 1 = fun d => d = 1 ∨ d = 16 ∨ d = 17 := by
  funext d
  refine propext ⟨?_, ?_⟩
  · rintro (rfl | ⟨i, u, hu, rfl⟩)
    · exact .inl rfl
    · obtain rfl := Option.some.inj hu
      cases i
      · exact .inr (.inl rfl)
      · exact .inr (.inr rfl)
  · rintro (rfl | rfl | rfl)
    · exact .inl rfl
    · exact .inr ⟨false, _, rfl, rfl⟩
    · exact .inr ⟨true, _, rfl, rfl⟩

section twoTasks

variable {ok : Machine → TaskHeap → Nat → Prop} {room : TaskHeap → Nat → Prop}
  {shown : Machine → Nat → TaskHeap → Prop}

theorem twoTasks_spawned : Reaches (fun s t => ∃ i, TasksStep ok room shown 1 i s t) noTasks
    (twoTasks spawnedMachine none none) := by
  have hsize : FrameSized emptyMachine.paging.mem := fun _ _ _ => Entry.zero_child
  have hsupply : ∀ k, k ≤ 1 → ∀ D : Nat → Prop, (∀ d, D d → d < 16 + k) →
      Supply { emptyMachine.paging with next := k } D duplicatePages := fun k hk D hD =>
    supply_empty hD (by unfold duplicatePages; omega)
  have hfirst : TasksStep ok room shown 1 false noTasks
      ⟨{ emptyMachine with paging := { emptyMachine.paging with next := 1 } },
        Function.update noTasks.task false (some ⟨16, none⟩)⟩ := by
    refine .spawn rfl hsize (hsupply 0 (by omega) _ ?_) (duplicate_empty 0)
    rintro d (rfl | ⟨i, u, hu, -⟩)
    · decide
    · cases hu
  refine .tail (.single ⟨false, hfirst⟩) ⟨true, ?_⟩
  have htwo : twoTasks spawnedMachine none none = ⟨spawnedMachine,
      Function.update (Function.update noTasks.task false (some ⟨16, none⟩)) true
        (some ⟨17, none⟩)⟩ := by
    rw [twoTasks]
    congr 1
    funext i
    cases i <;> rfl
  rw [htwo]
  refine .spawn rfl hsize (hsupply 1 (by omega) _ ?_) (duplicate_empty 1)
  rintro d (rfl | ⟨i, u, hu, rfl⟩)
  · decide
  · rcases task_update hu with ⟨-, rfl⟩ | ⟨-, hu⟩
    · show 16 < 16 + 1
      decide
    · cases hu

variable {h₁ h₂ : TaskHeap} {m₁ m₂ : Machine}

/-- Both heaps are created, that of the second task last. -/
theorem twoTasks_created (hc₁ : spawnedMachine.createUserHeap 1 16 emptyHeap = .ok (h₁, m₁))
    (hc₂ : m₁.createUserHeap 1 17 emptyHeap = .ok (h₂, m₂)) :
    Reaches (fun s t => ∃ i, TasksStep ok room shown 1 i s t) noTasks
      (twoTasks m₂ (some ⟨h₁, [], []⟩) (some ⟨h₂, [], []⟩)) := by
  have hsupply : Supply spawnedMachine.paging (fun d => d = 1 ∨ d = 16 ∨ d = 17) (14 + 14) :=
    supply_empty (k := 2) (fun d hd => by omega) (by decide)
  have hspaces : Spaces spawnedMachine.paging.mem (fun d => d = 1 ∨ d = 16 ∨ d = 17) :=
    spaces_empty _
  obtain ⟨-, hsupply₁⟩ := createUserHeap_spec (k := 14) hspaces (.inl rfl) (.inr (.inl rfl))
    (by decide) hsupply hc₁
  have hstep₁ : TasksStep ok room shown 1 false (twoTasks spawnedMachine none none)
      ⟨m₁, Function.update (twoTasks spawnedMachine none none).task false
        (some ⟨16, some ⟨h₁, [], []⟩⟩)⟩ :=
    .create (u := ⟨16, none⟩) rfl (by rw [twoTasks_dir]; exact hsupply.mono (by decide)) hc₁
  rw [twoTasks_false] at hstep₁
  have hstep₂ : TasksStep ok room shown 1 true (twoTasks m₁ (some ⟨h₁, [], []⟩) none)
      ⟨m₂, Function.update (twoTasks m₁ (some ⟨h₁, [], []⟩) none).task true
        (some ⟨17, some ⟨h₂, [], []⟩⟩)⟩ :=
    .create (u := ⟨17, none⟩) rfl (by rw [twoTasks_dir]; exact hsupply₁) hc₂
  rw [twoTasks_true] at hstep₂
  exact .tail (.tail twoTasks_spawned ⟨false, hstep₁⟩) ⟨true, hstep₂⟩

theorem noTasks_wellFormed : WellFormed noTasks.machine.paging.mem 1 := by
  intro p q f _ _ hp hq
  rw [(walk_empty hp).1, (walk_empty hq).1]

/-- The current directory shows the heap that was created last. -/
theorem twoTasks_shown (hc₁ : spawnedMachine.createUserHeap 1 16 emptyHeap = .ok (h₁, m₁))
    (hc₂ : m₁.createUserHeap 1 17 emptyHeap = .ok (h₂, m₂)) :
    SameFrames m₂.paging.mem 1 17 h₂ := by
  have hsupply : Supply spawnedMachine.paging (fun d => d = 1 ∨ d = 16 ∨ d = 17) (14 + 14) :=
    supply_empty (k := 2) (fun d hd => by omega) (by decide)
  have hspaces : Spaces spawnedMachine.paging.mem (fun d => d = 1 ∨ d = 16 ∨ d = 17) :=
    spaces_empty _
  obtain ⟨⟨f₁, g₁, hcreated₁⟩, hsupply₁⟩ := createUserHeap_spec (k := 14) hspaces (.inl rfl)
    (.inr (.inl rfl)) (by decide) hsupply hc₁
  obtain ⟨⟨f₂, g₂, hcreated₂⟩, -⟩ := createUserHeap_spec (k := 0) hcreated₁.spaces (.inl rfl)
    (.inr (.inr rfl)) (by decide) hsupply₁ hc₂
  have hopen : UserOpen m₁.paging.mem 17 := by
    have hzero : UserOpen spawnedMachine.paging.mem 17 := userOpen_of_zero fun _ _ => rfl
    exact hzero.agree (hcreated₁.agree 17 (.inr (.inr rfl)) (by decide) (by decide))
  exact (hcreated₂.taskHolds (.inl rfl) (.inr (.inr rfl)) hopen).same

end twoTasks

end UnedKernel.Memory
