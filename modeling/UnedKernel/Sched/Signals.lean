import Mathlib.Algebra.Group.Nat.Defs
import Mathlib.Data.Finset.Basic
import UnedKernel.Lib.NodeList

/-! # The signals of a task

`add_signal` puts a node at the end of the task's `signal_queue`, which it finds by
walking from the head. `process_loop` passes the nodes to the handlers and frees them
one after the other, and clears the head when it is through: until then the head is a
node that is freed already. -/

namespace UnedKernel.Sched

/-- The arguments of a handler. -/
structure Signal where
  signal : Int
  data : Nat
  size : Nat
  deriving DecidableEq

/-- `struct task_signal`. -/
structure TaskSignal where
  signal : Int
  signalData : Nat
  signalDataSize : Nat
  next : Option Nat

/-- What a handler is called with for a node. -/
def TaskSignal.args (b : TaskSignal) : Signal := ⟨b.signal, b.signalData, b.signalDataSize⟩

/-- A signal that `process_loop` has passed, with the handler that it called: `none` where
none was registered. -/
structure Passed where
  handler : Option Nat
  signal : Signal

/-- Where `process_loop` is: at the test of the queue, at the test of the handler of
`current`, behind that test or in the handler, with `next` read, and with `current`
freed. -/
inductive LoopPlace where
  | idle
  | test (current : Nat)
  | handler (current : Nat)
  | read (current : Nat) (next : Option Nat)
  | freed (next : Option Nat)

/-- `process_loop` has read the pointer of the last node. -/
def LoopPlace.pastLast : LoopPlace → Bool
  | .read _ none => true
  | .freed none => true
  | _ => false

/-- The signals of a task in `process_loop`, with the nodes in use, those freed since
the queue was found not empty, and what has been queued and passed so far. A handler is
the word at the index of its signal, `none` for 0. -/
structure SignalTask where
  signalQueue : Option Nat
  signalHandlers : Int → Option Nat
  nodes : Nat → TaskSignal
  place : LoopPlace
  live : Finset Nat
  drained : List Nat
  queued : List Signal
  passed : List Passed

namespace SignalTask

/-- The pointer of a node. -/
def next (s : SignalTask) (p : Nat) : Option Nat := (s.nodes p).next

/-- The next statement of `process_loop`. A handler that runs may be interrupted, and add
signals itself, before the statement behind its call. -/
def processLoop (s : SignalTask) : SignalTask :=
  match s.place with
  | .idle =>
    match s.signalQueue with
    | none => s
    | some current => { s with place := .test current }
  | .test current =>
    let signal := (s.nodes current).args
    { s with
      place := .handler current
      passed := s.passed ++ [⟨s.signalHandlers signal.signal, signal⟩] }
  | .handler current => { s with place := .read current (s.next current) }
  | .read current next =>
    { s with
      place := .freed next
      live := s.live.erase current
      drained := s.drained ++ [current] }
  | .freed (some current) => { s with place := .test current }
  | .freed none => { s with place := .idle, signalQueue := none, drained := [] }

/-- Pointers have 64 bits: a walk over nodes that takes more turns does not end. -/
def turns : Nat := 2 ^ 64

/-- The node of `add_signal`, not linked yet. -/
def withNode (s : SignalTask) (signal : Signal) (p : Nat) : SignalTask :=
  { s with
    nodes := Function.update s.nodes p ⟨signal.signal, signal.data, signal.size, none⟩
    live := insert p s.live
    queued := s.queued ++ [signal] }

/-- The node linked behind `current`. -/
def linkBehind (s : SignalTask) (current p : Nat) : SignalTask :=
  { s with nodes := Function.update s.nodes current { s.nodes current with next := some p } }

/-- `add_signal` with the node that `kmalloc` gives. `none` is a walk that does not end. -/
def addSignal (s : SignalTask) (signal : Signal) (p : Nat) : Option SignalTask :=
  let s := s.withNode signal p
  match s.signalQueue with
  | none => some { s with signalQueue := some p }
  | some head =>
    match NodeList.last s.next turns head with
    | none => none
    | some current => some (s.linkBehind current p)

def subscribeSignal (s : SignalTask) (signal : Int) (handler : Option Nat) : SignalTask :=
  { s with signalHandlers := Function.update s.signalHandlers signal handler }

/-- A step: the next statement of `process_loop`, or a call in between. -/
inductive SignalStep where
  | run
  | addSignal (signal : Signal) (p : Nat)
  | subscribeSignal (signal : Int) (handler : Option Nat)

def step (s : SignalTask) : SignalStep → Option SignalTask
  | .run => some s.processLoop
  | .addSignal signal p => s.addSignal signal p
  | .subscribeSignal signal handler => some (s.subscribeSignal signal handler)

/-- A task without signals. -/
def start (handlers : Int → Option Nat) (nodes : Nat → TaskSignal) : SignalTask :=
  ⟨none, handlers, nodes, .idle, ∅, [], [], []⟩

/-- The node that `kmalloc` gives is not in use. -/
def Fresh (s : SignalTask) : SignalStep → Prop
  | .run => True
  | .addSignal _ p => p ∉ s.live ∧ p < turns
  | .subscribeSignal .. => True

/-- The queue is empty, and every signal queued was passed, once and in the order queued,
to the handler registered for it. -/
def Settled (s : SignalTask) : Prop :=
  s.place = .idle ∧ s.signalQueue = none ∧ s.passed.map Passed.signal = s.queued

/-- The queue ends, and `process_loop` left to itself settles it. -/
def Delivers (s : SignalTask) : Prop :=
  (∃ ps, NodeList s.next s.signalQueue ps) ∧ ∃ n, Settled (processLoop^[n] s)

/-- A step is served: it ends, and the signals queued are delivered. -/
def SignalServed (s : SignalTask) (i : SignalStep) : Prop := ∃ t, s.step i = some t ∧ Delivers t

/-- When a step is served: a signal is added before `process_loop` reads the pointer of the
last node, and in a node that it has not freed since it found the queue not empty. -/
def InTime (s : SignalTask) : SignalStep → Prop
  | .run => True
  | .addSignal _ p => s.place.pastLast = false ∧ p ∉ s.drained
  | .subscribeSignal .. => True

instance (s : SignalTask) (i : SignalStep) : Decidable (s.Fresh i) :=
  match i with
  | .run => isTrue trivial
  | .addSignal _ p => inferInstanceAs (Decidable (p ∉ s.live ∧ p < turns))
  | .subscribeSignal .. => isTrue trivial

instance (s : SignalTask) (i : SignalStep) : Decidable (s.InTime i) :=
  match i with
  | .run => isTrue trivial
  | .addSignal _ p => inferInstanceAs (Decidable (s.place.pastLast = false ∧ p ∉ s.drained))
  | .subscribeSignal .. => isTrue trivial

/-! ## The nodes still to be passed -/

/-- The nodes from the head on that `process_loop` has passed. -/
def done (s : SignalTask) : List Nat :=
  match s.place with
  | .handler current => s.drained ++ [current]
  | .read current _ => s.drained ++ [current]
  | _ => s.drained

/-- Where `process_loop` is when the nodes `rest` are still to be passed. -/
def Before (s : SignalTask) (rest : List Nat) : Prop :=
  match s.place with
  | .idle => s.drained = []
  | .test current => rest.head? = some current
  | .handler current => current ∈ s.live
  | .read current next => current ∈ s.live ∧ next = rest.head?
  | .freed next => next = rest.head?

/-- The queue is the nodes passed and the nodes `rest`, which hold what is queued and not
passed yet. -/
structure Holds (s : SignalTask) (rest : List Nat) : Prop where
  list : NodeList s.next s.signalQueue (s.done ++ rest)
  before : s.Before rest
  live : ∀ p ∈ rest, p ∈ s.live
  addr_lt : ∀ p ∈ s.done ++ rest, p < turns
  queued : s.passed.map Passed.signal ++ rest.map (fun p => (s.nodes p).args) = s.queued

/-- What is left to do until the queue is settled. -/
def rank (s : SignalTask) (rest : List Nat) : Nat :=
  match s.place with
  | .idle => if rest = [] then 0 else 4 * rest.length + 1
  | .test _ => 4 * rest.length
  | .handler _ => 4 * rest.length + 3
  | .read .. => 4 * rest.length + 2
  | .freed _ => 4 * rest.length + 1

variable {s t : SignalTask} {rest : List Nat} {signal : Signal} {p : Nat}

/-- A statement of `process_loop` keeps the queue and comes nearer to its end. -/
theorem Holds.processLoop (h : Holds s rest) :
    s.place = .idle ∧ rest = [] ∧ s.processLoop = s ∨
    ∃ rest', Holds s.processLoop rest' ∧ s.processLoop.rank rest' < s.rank rest := by
  obtain ⟨queue, handlers, nodes, place, live, drained, queued, passed⟩ := s
  obtain ⟨hlist, hbefore, hlive, haddr, hqueued⟩ := h
  cases place with
  | idle =>
    obtain rfl : drained = [] := hbefore
    cases rest with
    | nil =>
      obtain rfl : queue = none := hlist
      exact .inl ⟨rfl, rfl, rfl⟩
    | cons c rest =>
      obtain rfl : queue = some c := hlist.1
      refine .inr ⟨c :: rest, ⟨hlist, rfl, hlive, haddr, hqueued⟩, ?_⟩
      exact Nat.lt_succ_self (4 * (c :: rest).length)
  | test c =>
    cases rest with
    | nil => cases (show none = some c from hbefore)
    | cons d rest =>
      obtain rfl : d = c := Option.some.inj hbefore
      have hdone : drained ++ d :: rest = drained ++ [d] ++ rest := (List.append_cons ..)
      refine .inr ⟨rest, ⟨?_, hlive d List.mem_cons_self, ?_, ?_, ?_⟩, ?_⟩
      · exact hdone ▸ hlist
      · exact fun p hp => hlive p (List.mem_cons_of_mem d hp)
      · exact fun p hp => haddr p (hdone ▸ hp)
      · refine Eq.trans ?_ hqueued
        show (passed ++ [_]).map Passed.signal ++ _ = _
        rw [List.map_append, List.append_assoc]
        rfl
      · show 4 * rest.length + 3 < 4 * (rest.length + 1)
        omega
  | handler c =>
    refine .inr ⟨rest, ⟨hlist, ⟨hbefore, ?_⟩, hlive, haddr, hqueued⟩, Nat.lt_succ_self _⟩
    have hlist' : NodeList _ queue (drained ++ c :: rest) := (List.append_cons ..).symm ▸ hlist
    exact hlist'.next_eq
  | read c next =>
    obtain ⟨hc, hnext⟩ := hbefore
    refine .inr ⟨rest, ⟨hlist, hnext, ?_, haddr, hqueued⟩, Nat.lt_succ_self _⟩
    intro p hp
    refine Finset.mem_erase.mpr ⟨?_, hlive p hp⟩
    rintro rfl
    have hnodup := hlist.nodup
    exact (List.nodup_append.mp hnodup).2.2 p (List.mem_append_right drained List.mem_cons_self) p hp rfl
  | freed next =>
    cases rest with
    | nil =>
      obtain rfl : next = none := hbefore
      refine .inr ⟨[], ⟨rfl, rfl, hlive, ?_, hqueued⟩, Nat.lt_succ_self 0⟩
      exact fun p hp => absurd hp List.not_mem_nil
    | cons c rest =>
      obtain rfl : next = some c := hbefore
      exact .inr ⟨c :: rest, ⟨hlist, rfl, hlive, haddr, hqueued⟩, Nat.lt_succ_self _⟩

theorem Holds.delivers (h : Holds s rest) : Delivers s := by
  refine ⟨⟨_, h.list⟩, Run.comes_to (fun t k => ∃ rest, Holds t rest ∧ t.rank rest = k) ?_
    ⟨rest, h, rfl⟩⟩
  rintro t k ⟨rest, ht, rfl⟩
  rcases ht.processLoop with ⟨hidle, rfl, -⟩ | ⟨rest', ht', hlt⟩
  · refine .inl ⟨hidle, ?_, ?_⟩
    · have hlist := ht.list
      have hdrained := ht.before
      unfold Before at hdrained
      unfold done at hlist
      rw [hidle] at hlist hdrained
      simp only at hlist hdrained
      rw [hdrained] at hlist
      exact hlist
    · have hqueued := ht.queued
      rwa [List.map_nil, List.append_nil] at hqueued
  · exact .inr ⟨_, hlt, rest', ht', rfl⟩

/-! ## Adding a signal -/

theorem withNode_next_same : (s.withNode signal p).next p = none := by
  unfold next withNode
  simp only [Function.update_self]

theorem withNode_next_of_ne {q : Nat} (hq : q ≠ p) : (s.withNode signal p).next q = s.next q := by
  unfold next withNode
  simp only [Function.update_of_ne hq]

theorem withNode_args_same : ((s.withNode signal p).nodes p).args = signal := by
  unfold withNode
  simp only [Function.update_self]
  rfl

theorem withNode_args_of_ne {q : Nat} (hq : q ≠ p) :
    ((s.withNode signal p).nodes q).args = (s.nodes q).args := by
  unfold withNode
  simp only [Function.update_of_ne hq]

theorem linkBehind_next_same {c : Nat} : (s.linkBehind c p).next c = some p := by
  unfold next linkBehind
  simp only [Function.update_self]

theorem linkBehind_next_of_ne {c q : Nat} (hq : q ≠ c) : (s.linkBehind c p).next q = s.next q := by
  unfold next linkBehind
  simp only [Function.update_of_ne hq]

theorem linkBehind_args {c : Nat} (q : Nat) :
    ((s.linkBehind c p).nodes q).args = (s.nodes q).args := by
  unfold linkBehind
  by_cases hq : q = c
  · simp only [hq, Function.update_self]
    rfl
  · simp only [Function.update_of_ne hq]

/-- `add_signal` links the node behind the last one that it finds. -/
theorem addSignal_eq {head last : Nat} {front : List Nat} (hhead : s.signalQueue = some head)
    (hlist : NodeList (s.withNode signal p).next (some head) (front ++ [last]))
    (haddr : ∀ q ∈ front ++ [last], q < turns) :
    s.addSignal signal p = some ((s.withNode signal p).linkBehind last p) := by
  have hlength := hlist.length_le haddr
  rw [List.length_append] at hlength
  have hqueue : (s.withNode signal p).signalQueue = some head := hhead
  unfold addSignal
  simp only [hqueue, hlist.last_eq hlength]

/-- The nodes from the head on are in use, or freed since the queue was found not empty. -/
theorem Holds.used (h : Holds s rest) {q : Nat} (hq : q ∈ s.done ++ rest) :
    q ∈ s.drained ∨ q ∈ s.live := by
  rcases List.mem_append.mp hq with hq | hq
  · have hbefore := h.before
    unfold done at hq
    unfold Before at hbefore
    cases hplace : s.place with
    | idle => rw [hplace] at hq; exact .inl hq
    | test c => rw [hplace] at hq; exact .inl hq
    | freed next => rw [hplace] at hq; exact .inl hq
    | handler c =>
      rw [hplace] at hq hbefore
      rcases List.mem_append.mp hq with hq | hq
      · exact .inl hq
      · rw [List.mem_singleton.mp hq]
        exact .inr hbefore
    | read c next =>
      rw [hplace] at hq hbefore
      rcases List.mem_append.mp hq with hq | hq
      · exact .inl hq
      · rw [List.mem_singleton.mp hq]
        exact .inr hbefore.1
  · exact .inr (h.live q hq)

/-- A node may be added behind the nodes to be passed until the last pointer is read. -/
theorem Before.append (h : s.Before rest) (hlast : s.place.pastLast = false) (hplace : t.place = s.place)
    (hdrained : t.drained = s.drained) (hlive : s.live ⊆ t.live) : t.Before (rest ++ [p]) := by
  unfold Before at h ⊢
  rw [hplace]
  cases hs : s.place with
  | idle =>
    rw [hs] at h
    exact hdrained.trans h
  | test c =>
    rw [hs] at h
    exact List.head?_append.trans (by rw [show rest.head? = some c from h]; rfl)
  | handler c =>
    rw [hs] at h
    exact hlive h
  | read c next =>
    rw [hs] at h
    obtain ⟨hc, hnext⟩ := h
    refine ⟨hlive hc, ?_⟩
    cases next with
    | none => rw [hs] at hlast; cases hlast
    | some d => exact (List.head?_append.trans (by rw [← hnext]; rfl)).symm
  | freed next =>
    rw [hs] at h
    cases next with
    | none => rw [hs] at hlast; cases hlast
    | some d => exact (List.head?_append.trans (by rw [← show some d = rest.head? from h]; rfl)).symm

/-- A node with the signal is put at the end of the queue. -/
theorem Holds.grow (h : Holds s rest) (hp : p < turns) (hlast : s.place.pastLast = false)
    (hplace : t.place = s.place) (hdrained : t.drained = s.drained) (hpassed : t.passed = s.passed)
    (hlive : t.live = insert p s.live) (hqueued : t.queued = s.queued ++ [signal])
    (hargs : ∀ q ∈ rest, (t.nodes q).args = (s.nodes q).args) (hsignal : (t.nodes p).args = signal)
    (hlist : NodeList t.next t.signalQueue (s.done ++ rest ++ [p])) : Holds t (rest ++ [p]) where
  list := by
    unfold done at hlist ⊢
    rw [hplace, hdrained, ← List.append_assoc]
    exact hlist
  before := h.before.append hlast hplace hdrained (hlive ▸ Finset.subset_insert p s.live)
  live := by
    intro q hq
    rw [hlive]
    rcases List.mem_append.mp hq with hq | hq
    · exact Finset.mem_insert_of_mem (h.live q hq)
    · rw [List.mem_singleton.mp hq]
      exact Finset.mem_insert_self p s.live
  addr_lt := by
    intro q hq
    unfold done at hq
    rw [hplace, hdrained, ← List.append_assoc] at hq
    rcases List.mem_append.mp hq with hq | hq
    · exact h.addr_lt q hq
    · rw [List.mem_singleton.mp hq]
      exact hp
  queued := by
    rw [hpassed, hqueued, ← h.queued, List.map_append, List.map_congr_left hargs,
      List.append_assoc]
    exact congrArg (fun q => _ ++ (_ ++ [q])) hsignal

/-- A signal that is in time is put at the end of the queue. -/
theorem Holds.addSignal (h : Holds s rest) (hfresh : p ∉ s.live) (hp : p < turns)
    (htime : s.InTime (.addSignal signal p)) :
    ∃ t, s.addSignal signal p = some t ∧ Holds t (rest ++ [p]) := by
  obtain ⟨hlast, hdrained⟩ := htime
  have hne (q : Nat) (hq : q ∈ s.done ++ rest) : q ≠ p := by
    rintro rfl
    exact (h.used hq).elim hdrained hfresh
  have hlist : NodeList (s.withNode signal p).next s.signalQueue (s.done ++ rest) :=
    h.list.congr fun q hq => withNode_next_of_ne (hne q hq)
  have hargs (q : Nat) (hq : q ∈ rest) : ((s.withNode signal p).nodes q).args = (s.nodes q).args :=
    withNode_args_of_ne (hne q (List.mem_append_right _ hq))
  cases hqueue : s.signalQueue with
  | none =>
    rw [hqueue] at hlist
    have hnil : s.done ++ rest = [] := List.head?_eq_none_iff.mp hlist.head_eq.symm
    refine ⟨{ s.withNode signal p with signalQueue := some p }, ?_, h.grow hp hlast rfl rfl rfl rfl
      rfl hargs withNode_args_same ?_⟩
    · have hqueue' : (s.withNode signal p).signalQueue = none := hqueue
      unfold SignalTask.addSignal
      simp only [hqueue']
    · rw [hnil]
      exact ⟨rfl, withNode_next_same⟩
  | some head =>
    rw [hqueue] at hlist
    have hnonempty : s.done ++ rest ≠ [] := by
      intro hnil
      rw [hnil] at hlist
      cases (show some head = none from hlist)
    obtain ⟨front, last, hsplit⟩ :=
      (List.eq_nil_or_concat' (s.done ++ rest)).resolve_left hnonempty
    have haddr := h.addr_lt
    rw [hsplit] at hlist haddr hne
    have hlastne : last ≠ p := hne last (List.mem_append_right front List.mem_cons_self)
    refine ⟨_, addSignal_eq hqueue hlist haddr, h.grow hp hlast rfl rfl rfl rfl rfl ?_ ?_ ?_⟩
    · exact fun q hq => (linkBehind_args q).trans (hargs q hq)
    · exact (linkBehind_args p).trans withNode_args_same
    · rw [hsplit]
      show NodeList _ s.signalQueue _
      rw [hqueue]
      exact hlist.snoc (fun q hq => linkBehind_next_of_ne (hlist.front_ne hq)) linkBehind_next_same
        ((linkBehind_next_of_ne hlastne.symm).trans withNode_next_same)

/-! ## Adding a signal too late, or in a freed node -/

/-- `process_loop` is about to clear the queue, or has cleared it. -/
def Ending (s : SignalTask) : Prop :=
  s.place.pastLast = true ∨ s.place = .idle ∧ s.signalQueue = none

theorem Ending.processLoop (h : s.Ending) :
    s.processLoop.Ending ∧ s.processLoop.passed = s.passed ∧ s.processLoop.queued = s.queued := by
  obtain ⟨queue, handlers, nodes, place, live, drained, queued, passed⟩ := s
  rcases h with hlast | ⟨hplace, hqueue⟩
  · cases place with
    | idle => cases hlast
    | test c => cases hlast
    | handler c => cases hlast
    | read c next =>
      cases next with
      | none => exact ⟨.inl rfl, rfl, rfl⟩
      | some d => cases hlast
    | freed next =>
      cases next with
      | none => exact ⟨.inr ⟨rfl, rfl⟩, rfl, rfl⟩
      | some d => cases hlast
  · obtain rfl : place = .idle := hplace
    obtain rfl : queue = none := hqueue
    exact ⟨.inr ⟨rfl, rfl⟩, rfl, rfl⟩

theorem Ending.iterate (h : s.Ending) (n : Nat) :
    (SignalTask.processLoop^[n] s).passed = s.passed ∧
      (SignalTask.processLoop^[n] s).queued = s.queued := by
  induction n generalizing s with
  | zero => exact ⟨rfl, rfl⟩
  | succ n ih =>
    obtain ⟨hending, hpassed, hqueued⟩ := h.processLoop
    obtain ⟨hpassed', hqueued'⟩ := ih hending
    exact ⟨hpassed'.trans hpassed, hqueued'.trans hqueued⟩

/-- Behind the last node that `process_loop` passes, no signal is delivered. -/
theorem Ending.not_delivers (h : s.Ending) (hmore : s.passed.map Passed.signal ≠ s.queued) :
    ¬ Delivers s := by
  intro ⟨_, n, _, _, hpassed⟩
  obtain ⟨hsame, hsame'⟩ := h.iterate n
  rw [hsame, hsame'] at hpassed
  exact hmore hpassed

/-- What every `add_signal` that ends leaves as it is. -/
theorem addSignal_fields (h : s.addSignal signal p = some t) :
    t.place = s.place ∧ t.passed = s.passed ∧ t.queued = s.queued ++ [signal] := by
  unfold addSignal at h
  simp only at h
  split at h
  · cases h
    exact ⟨rfl, rfl, rfl⟩
  · split at h
    · cases h
    · cases h
      exact ⟨rfl, rfl, rfl⟩

/-- A signal added when the last pointer is read stays behind. -/
theorem Holds.not_late (h : Holds s rest) (hlast : s.place.pastLast = true)
    (hadd : s.addSignal signal p = some t) : ¬ Delivers t := by
  obtain ⟨hplace, hpassed, hqueued⟩ := addSignal_fields hadd
  have hrest : rest = [] := by
    have hbefore := h.before
    unfold Before at hbefore
    unfold LoopPlace.pastLast at hlast
    split at hlast
    · rename_i hs
      rw [hs] at hbefore
      exact List.head?_eq_none_iff.mp hbefore.2.symm
    · rename_i hs
      rw [hs] at hbefore
      exact List.head?_eq_none_iff.mp hbefore.symm
    · cases hlast
  have hall := h.queued
  rw [hrest, List.map_nil, List.append_nil] at hall
  have hending : t.Ending := .inl (hplace ▸ hlast)
  refine hending.not_delivers ?_
  rw [hpassed, hqueued, hall]
  exact fun heq => List.cons_ne_nil signal [] (List.self_eq_append_right.mp heq)

theorem drained_done (s : SignalTask) : ∃ more, s.done = s.drained ++ more := by
  unfold done
  split
  · exact ⟨_, rfl⟩
  · exact ⟨_, rfl⟩
  · exact ⟨[], (List.append_nil _).symm⟩

/-- A node that the head still leads to is linked behind itself. -/
theorem Holds.not_freed (h : Holds s rest) (hp : p ∈ s.drained)
    (hadd : s.addSignal signal p = some t) : ¬ Delivers t := by
  obtain ⟨more, hmore⟩ := s.drained_done
  obtain ⟨front, back, hsplit⟩ := List.append_of_mem hp
  have hlist := h.list
  have haddr := h.addr_lt
  rw [hmore, hsplit, List.append_assoc, List.append_assoc, List.cons_append] at hlist haddr
  have hfront (q : Nat) (hq : q ∈ front) : q ≠ p := hlist.front_ne hq
  have hcut : NodeList (s.withNode signal p).next s.signalQueue (front ++ [p]) := by
    refine hlist.cut (fun q hq => withNode_next_of_ne (hfront q hq)) ?_
    rw [withNode_next_same]
    exact rfl
  have haddr' (q : Nat) (hq : q ∈ front ++ [p]) : q < turns := by
    refine haddr q ?_
    rcases List.mem_append.mp hq with hq | hq
    · exact List.mem_append_left _ hq
    · rw [List.mem_singleton.mp hq]
      exact List.mem_append_right _ List.mem_cons_self
  cases hqueue : s.signalQueue with
  | none =>
    rw [hqueue] at hcut
    have hnil := hcut.head_eq
    rw [eq_comm, List.head?_eq_none_iff] at hnil
    exact absurd hnil (List.append_ne_nil_of_right_ne_nil front (List.cons_ne_nil p []))
  | some head =>
    rw [hqueue] at hcut
    obtain rfl := Option.some.inj ((addSignal_eq hqueue hcut haddr').symm.trans hadd)
    intro ⟨⟨ps, hps⟩, _⟩
    have hqueue' : ((s.withNode signal p).linkBehind p p).signalQueue = some head := hqueue
    rw [hqueue'] at hps
    have hmem := hcut.mem_of_same (fun q hq => linkBehind_next_of_ne (hfront q hq)) hps
    exact hps.next_ne_self hmem linkBehind_next_same

/-! ## Runs -/

theorem Holds.subscribeSignal (h : Holds s rest) (i : Int) (handler : Option Nat) :
    Holds (s.subscribeSignal i handler) rest :=
  ⟨h.list, h.before, h.live, h.addr_lt, h.queued⟩

/-- A step that is in time ends, and the queue goes on. -/
theorem Holds.step (h : Holds s rest) {i : SignalStep} (hfresh : s.Fresh i) (htime : s.InTime i) :
    ∃ t, s.step i = some t ∧ ∃ rest', Holds t rest' := by
  cases i with
  | run =>
    rcases h.processLoop with ⟨-, -, hstays⟩ | ⟨rest', ht, -⟩
    · exact ⟨_, rfl, rest, hstays.symm ▸ h⟩
    · exact ⟨_, rfl, rest', ht⟩
  | addSignal signal p =>
    obtain ⟨t, hadd, ht⟩ := h.addSignal hfresh.1 hfresh.2 htime
    exact ⟨t, hadd, _, ht⟩
  | subscribeSignal signal handler => exact ⟨_, rfl, rest, h.subscribeSignal signal handler⟩

theorem Holds.served_iff (h : Holds s rest) {i : SignalStep} (hfresh : s.Fresh i) :
    SignalServed s i ↔ InTime s i := by
  constructor
  · intro ⟨t, hstep, hdelivers⟩
    cases i with
    | run => trivial
    | addSignal signal p =>
      refine ⟨Bool.eq_false_iff.mpr fun hlast => ?_, fun hdrained => ?_⟩
      · exact h.not_late hlast hstep hdelivers
      · exact h.not_freed hdrained hstep hdelivers
    | subscribeSignal signal handler => trivial
  · intro htime
    obtain ⟨t, hstep, rest', ht⟩ := h.step hfresh htime
    exact ⟨t, hstep, ht.delivers⟩

theorem holds_start (handlers : Int → Option Nat) (nodes : Nat → TaskSignal) :
    Holds (start handlers nodes) [] :=
  ⟨rfl, rfl, fun _ hp => absurd hp List.not_mem_nil, fun _ hp => absurd hp List.not_mem_nil, rfl⟩

/-- In a run in which `kmalloc` gives no node in use, the signals are delivered after
every step exactly when every step is in time. -/
theorem Holds.throughout_iff (h : Holds s rest) {steps : List SignalStep}
    (hfresh : Run.Throughout (fun s i t => s.step i = some t) Fresh s steps) :
    Run.Throughout (fun s i t => s.step i = some t) SignalServed s steps ↔
      Run.Throughout (fun s i t => s.step i = some t) InTime s steps := by
  refine Run.throughout_iff_of (fun s => ∃ rest, Holds s rest) ?_ ?_ ⟨rest, h⟩ hfresh
  · intro s i ⟨rest, h⟩ hi
    exact h.served_iff hi
  · intro s i t ⟨rest, h⟩ hi hserved hstep
    obtain ⟨t', hstep', rest', ht⟩ := h.step hi ((h.served_iff hi).mp hserved)
    exact ⟨rest', Option.some.inj (hstep'.symm.trans hstep) ▸ ht⟩

/-- Two signals are queued, and `process_loop` calls the handler of the second one, which
adds a signal in the node `p`. -/
def secondHandler (p : Nat) : List SignalStep :=
  [.addSignal ⟨1, 16, 8⟩ 4096, .addSignal ⟨1, 32, 8⟩ 8192, .run, .run, .run, .run, .run, .run,
    .addSignal ⟨2, 48, 8⟩ p]

end SignalTask
end UnedKernel.Sched
