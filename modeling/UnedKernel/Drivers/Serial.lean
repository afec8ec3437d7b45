import UnedKernel.Lib.Bytes
import UnedKernel.Lib.Ring
import UnedKernel.Lib.Run

/-! # The transmit buffer of a serial port

`write_outb` raises the overflow interrupt where the index that is written next
catches up with the one that is read next. To `_serial_flush` the ring is empty
there, so the handler sends nothing, and then discards the whole ring. -/

namespace Serial
open ByteMem Ring

def MAX_COM_DEVICES : Nat := 2

/-- What a port sends, and the subscribers it runs. -/
inductive SerialEvent where
  | writeSerial (port : Int) (c : Byte)
  | handler (subscriber : Nat) (c : Byte) (port : Int)
  deriving DecidableEq

/-- `struct serial_device`. `writeSubscribers` are the handlers behind the first node of
the list, which is never run. -/
structure SerialDevice where
  valid : Int
  port : Int
  writeSubscribers : List Nat
  inb : Indexed Byte
  outb : Indexed Byte

/-- `serial_devices`, `initialized` and `interrupted_serial_device`. -/
structure Serials where
  devices : Nat → SerialDevice
  initialized : Bool
  interrupted : Option Nat

/-- A buffer filled with zeros, with nothing pending. -/
def discarded (r : Indexed Byte) : Indexed Byte := ⟨fun _ => 0, r.size, r.write, r.write⟩

/-- `read_outb`; `none` is a read outside the buffer. -/
def SerialDevice.readOutb (d : SerialDevice) : Option (Byte × SerialDevice × List SerialEvent) :=
  if d.outb.read = d.outb.write then some (0, d, [])
  else d.outb.load.map fun (c, outb) =>
    (c, { d with outb }, d.writeSubscribers.map (.handler · c d.port))

/-- The loop of `_serial_flush`, for a number of characters it does not exceed. -/
def SerialDevice.flushLoop (port : Int) : Nat → SerialDevice → Option (SerialDevice × List SerialEvent)
  | 0, _ => none
  | turns + 1, d => d.readOutb.bind fun (c, d, events) =>
    if c = 0 then some (d, events)
    else (flushLoop port turns d).map fun r => (r.1, events ++ .writeSerial port c :: r.2)

namespace Serials

def setDevice (s : Serials) (i : Nat) (d : SerialDevice) : Serials :=
  { s with devices := Function.update s.devices i d }

def getSerial (s : Serials) (port : Int) : Option Nat :=
  if s.initialized then
    (List.range MAX_COM_DEVICES).find? fun i =>
      decide ((s.devices i).valid ≠ 0 ∧ (s.devices i).port = port)
  else none

/-- `_serial_flush`. A ring has fewer characters than cells. -/
def serialFlush (s : Serials) (port : Int) : Option (Serials × List SerialEvent) :=
  match s.getSerial port with
  | none => some (s, [])
  | some i =>
    ((s.devices i).flushLoop port ((s.devices i).outb.size.toNat + 1)).map fun r =>
      (s.setDevice i r.1, r.2)

def serialDiscard (s : Serials) (port : Int) : Serials :=
  match s.getSerial port with
  | none => s
  | some i =>
    s.setDevice i { s.devices i with
      inb := discarded (s.devices i).inb
      outb := discarded (s.devices i).outb }

/-- `SERIAL_OF_HANDLER`. -/
def overflowHandler (s : Serials) : Option (Serials × List SerialEvent) :=
  match s.interrupted with
  | none => some (s, [])
  | some i => (s.serialFlush (s.devices i).port).map fun r =>
    (r.1.serialDiscard (r.1.devices i).port, r.2)

/-- `write_outb` to the device `i`. The interrupt runs its handler before it returns;
`none` is a write outside the buffer. -/
def writeOutb (s : Serials) (i : Nat) (c : Byte) : Option (Serials × List SerialEvent) :=
  ((s.devices i).outb.store c).bind fun outb =>
    let s := s.setDevice i { s.devices i with outb }
    if outb.write = outb.read then s.overflowHandler else some (s, [])

end Serials

/-! ## One device -/

/-- The characters among the events that the port sends. -/
def sent (events : List SerialEvent) : List Byte :=
  events.filterMap fun e => match e with
    | .writeSerial _ c => some c
    | .handler _ _ _ => none

variable {s : Serials} {d : SerialDevice} {i : Nat} {l : List Byte} {c : Byte} {port : Int}

theorem sent_handlers (subscribers : List Nat) (c : Byte) (port : Int) (events : List SerialEvent) :
    sent (subscribers.map (.handler · c port) ++ events) = sent events := by
  simp [sent]

/-- The loop sends the characters pending and leaves the ring empty. -/
theorem flushLoop_eq (port : Int) {turns : Nat} (hl : d.outb.Holds l) (hnonzero : ∀ c ∈ l, c ≠ 0)
    (hturns : l.length < turns) :
    ∃ outb events, d.flushLoop port turns = some ({ d with outb }, events) ∧ sent events = l ∧
      outb.size = d.outb.size ∧ outb.Holds [] := by
  induction l generalizing d turns with
  | nil =>
    obtain ⟨turns, rfl⟩ := Nat.exists_eq_succ_of_ne_zero (Nat.ne_of_gt hturns)
    refine ⟨d.outb, [], ?_, rfl, rfl, hl⟩
    unfold SerialDevice.flushLoop SerialDevice.readOutb
    rw [if_pos (hl.read_eq_write_iff.mpr rfl)]
    rfl
  | cons c l ih =>
    obtain ⟨turns, rfl⟩ := Nat.exists_eq_succ_of_ne_zero (Nat.ne_of_gt (Nat.zero_lt_of_lt hturns))
    obtain ⟨outb, hload, hsize, -, hrest⟩ := hl.load
    obtain ⟨outb', events, hloop, hsent, hsize', hempty⟩ :=
      ih (d := { d with outb }) hrest
        (fun c hc => hnonzero c (List.mem_cons_of_mem _ hc)) (Nat.lt_of_succ_lt_succ hturns)
    refine ⟨outb', d.writeSubscribers.map (.handler · c d.port) ++ .writeSerial port c :: events, ?_,
      ?_, hsize'.trans hsize, hempty⟩
    · unfold SerialDevice.flushLoop SerialDevice.readOutb
      rw [if_neg (mt hl.read_eq_write_iff.mp (List.cons_ne_nil c l)), hload]
      simp only [Option.map_some, Option.bind_some]
      rw [if_neg (hnonzero c List.mem_cons_self), hloop]
      rfl
    · rw [sent_handlers, ← hsent]
      rfl

@[simp] theorem setDevice_self : (s.setDevice i d).devices i = d := Function.update_self ..

theorem setDevice_ne {j : Nat} (hj : j ≠ i) : (s.setDevice i d).devices j = s.devices j :=
  Function.update_of_ne hj ..

/-- A device found by its port is found there whatever its buffers hold. -/
theorem getSerial_setDevice (hvalid : d.valid = (s.devices i).valid)
    (hport : d.port = (s.devices i).port) (port : Int) :
    (s.setDevice i d).getSerial port = s.getSerial port := by
  have hfound (j : Nat) : ((s.setDevice i d).devices j).valid = (s.devices j).valid ∧
      ((s.setDevice i d).devices j).port = (s.devices j).port := by
    by_cases hj : j = i
    · subst hj
      rw [setDevice_self]
      exact ⟨hvalid, hport⟩
    · rw [setDevice_ne hj]
      exact ⟨rfl, rfl⟩
  unfold Serials.getSerial
  simp only [hfound]
  rfl

/-- The device `i` is in use, is found by its port, and is the last one interrupted; its
transmit buffer holds `l`. -/
structure Ready (s : Serials) (i : Nat) (l : List Byte) : Prop where
  found : s.getSerial (s.devices i).port = some i
  interrupted : s.interrupted = some i
  ring : (s.devices i).outb.Holds l
  nonzero : ∀ c ∈ l, c ≠ 0

/-- A device of which only the buffers change is still found. -/
theorem Ready.replace {outb : Indexed Byte} {l' : List Byte} (h : Ready s i l) (inb : Indexed Byte)
    (hring : outb.Holds l') (hnonzero : ∀ c ∈ l', c ≠ 0) :
    Ready (s.setDevice i { s.devices i with inb, outb }) i l' where
  found := by
    rw [setDevice_self]
    exact (getSerial_setDevice (d := { s.devices i with inb, outb }) rfl rfl _).trans h.found
  interrupted := h.interrupted
  ring := by
    rw [setDevice_self]
    exact hring
  nonzero := hnonzero

/-- A flush sends what is pending. -/
theorem Ready.flush (h : Ready s i l) :
    ∃ t events, s.serialFlush (s.devices i).port = some (t, events) ∧ sent events = l ∧
      Ready t i [] ∧ (t.devices i).port = (s.devices i).port ∧
      (t.devices i).outb.size = (s.devices i).outb.size := by
  have hlen := h.ring.length_lt
  obtain ⟨outb, events, hloop, hsent, hsize, hempty⟩ :=
    flushLoop_eq (s.devices i).port h.ring h.nonzero
      (show l.length < (s.devices i).outb.size.toNat + 1 by omega)
  refine ⟨_, events, ?_, hsent, h.replace (s.devices i).inb hempty nofun, ?_, ?_⟩
  · unfold Serials.serialFlush
    rw [h.found]
    simp only [hloop, Option.map_some]
  · rw [setDevice_self]
  · rw [setDevice_self]
    exact hsize

/-- A write for which there is room keeps the character. -/
theorem Ready.write (h : Ready s i l) (hc : c ≠ 0)
    (hroom : (l.length : Int) + 1 < (s.devices i).outb.size) :
    ∃ t, s.writeOutb i c = some (t, []) ∧ Ready t i (l ++ [c]) ∧
      (t.devices i).outb.size = (s.devices i).outb.size := by
  obtain ⟨outb, hstore, hsize, -, hne, hring⟩ := h.ring.store (c := c) hroom
  refine ⟨_, ?_, h.replace (s.devices i).inb hring ?_, ?_⟩
  · unfold Serials.writeOutb
    rw [hstore, Option.bind_some]
    simp only [if_neg hne]
  · intro x hx
    rcases List.mem_append.mp hx with hold | hnew
    · exact h.nonzero x hold
    · exact List.mem_singleton.mp hnew ▸ hc
  · rw [setDevice_self]
    exact hsize

/-- A ring whose indices meet. -/
theorem holds_met {r : Indexed Byte} (hl : r.Holds l) (cells : Nat → Byte) {k : Int}
    (hk : k = r.read ∨ k = r.write) : (⟨cells, r.size, k, k⟩ : Indexed Byte).Holds [] := by
  obtain ⟨n, h, t, hn, hh, ht, hring⟩ := hl
  rcases hk with rfl | rfl
  · exact ⟨n, h, h, hn, hh, hh, .nil hring.head_lt⟩
  · exact ⟨n, t, t, hn, ht, ht, .nil hring.tail_lt⟩

/-- A write into a full ring loses all that was pending: the handler finds both indices
equal, so it sends nothing and discards the ring. -/
theorem Ready.overflow (h : Ready s i l) (hfull : (l.length : Int) + 1 = (s.devices i).outb.size) :
    ∃ t events, s.writeOutb i c = some (t, events) ∧ sent events = [] ∧ Ready t i [] ∧
      (t.devices i).outb.size = (s.devices i).outb.size := by
  have hstore := h.ring.store_full (c := c) hfull
  have hready := h.replace (s.devices i).inb
    (holds_met h.ring (Function.update (s.devices i).outb.cells (s.devices i).outb.write.toNat c)
      (.inl rfl)) nofun
  obtain ⟨t, events, hflush, hsent, hready', hport, hsize⟩ := hready.flush
  have hdiscard : t.serialDiscard (t.devices i).port = t.setDevice i { t.devices i with
      inb := discarded (t.devices i).inb
      outb := discarded (t.devices i).outb } := by
    unfold Serials.serialDiscard
    rw [hready'.found]
  refine ⟨t.serialDiscard (t.devices i).port, events, ?_, hsent, ?_, ?_⟩
  · unfold Serials.writeOutb Serials.overflowHandler
    rw [hstore, Option.bind_some]
    simp only [if_true]
    rw [hready.interrupted]
    simp only [hflush, Option.map_some]
  · rw [hdiscard]
    exact hready'.replace _ (holds_met hready'.ring _ (.inr rfl)) nofun
  · rw [hdiscard, setDevice_self]
    rw [setDevice_self] at hsize
    exact hsize

/-! ## Runs -/

/-- A call on the transmit buffer; the characters written are not 0. -/
inductive SerialCall where
  | write (c : { c : Byte // c ≠ 0 })
  | flush

/-- The ports, and what was written to and sent by one device. -/
structure Traffic where
  serials : Serials
  written : List Byte
  sent : List Byte

namespace Traffic

/-- A call on the device `i`. -/
def step (i : Nat) (s : Traffic) : SerialCall → Option Traffic
  | .write c => (s.serials.writeOutb i c).map fun r =>
    ⟨r.1, s.written ++ [c.val], s.sent ++ Serial.sent r.2⟩
  | .flush => (s.serials.serialFlush (s.serials.devices i).port).map fun r =>
    ⟨r.1, s.written, s.sent ++ Serial.sent r.2⟩

/-- A flush sends all that was written. -/
def FlushesAll (i : Nat) (s : Traffic) : Prop :=
  ∃ t, s.step i .flush = some t ∧ t.sent = s.written

/-- What has been sent after a call is a prefix of what was written, and a flush sends
the whole. -/
def Served (i : Nat) (s : Traffic) (call : SerialCall) : Prop :=
  ∃ t, s.step i call = some t ∧ t.sent <+: t.written ∧ FlushesAll i t ∧
    (call = .flush → t.sent = t.written)

/-- When a call is served: a write finds room for one character more. -/
def Meets (i : Nat) (s : Traffic) : SerialCall → Prop
  | .write _ => ((s.serials.devices i).outb.pending.length : Int) + 1 < (s.serials.devices i).outb.size
  | .flush => True

instance (i : Nat) (s : Traffic) : (call : SerialCall) → Decidable (Meets i s call)
  | .write _ => inferInstanceAs (Decidable ((_ : Int) < _))
  | .flush => inferInstanceAs (Decidable True)

/-- The transmit buffer holds what was written and not sent. -/
def Holds (i : Nat) (s : Traffic) : Prop :=
  ∃ l, Ready s.serials i l ∧ s.written = s.sent ++ l

variable {s t : Traffic} {i : Nat} {call : SerialCall}

theorem step_flush {l : List Byte} (h : Ready s.serials i l) :
    ∃ t, s.step i .flush = some t ∧ t.sent = s.sent ++ l ∧ t.written = s.written ∧
      Ready t.serials i [] := by
  obtain ⟨serials, events, hflush, hsent, hready, -, -⟩ := h.flush
  refine ⟨⟨serials, s.written, s.sent ++ Serial.sent events⟩, ?_, ?_, rfl, hready⟩
  · unfold step
    simp only [hflush, Option.map_some]
  · show s.sent ++ Serial.sent events = _
    rw [hsent]

/-- A call that meets the condition keeps what was written and not sent. -/
theorem Holds.step (h : Holds i s) (hmeets : Meets i s call) :
    ∃ t, s.step i call = some t ∧ Holds i t ∧ (call = .flush → t.sent = t.written) := by
  obtain ⟨l, hready, hwritten⟩ := h
  cases call with
  | write c =>
    have hroom : (l.length : Int) + 1 < (s.serials.devices i).outb.size := by
      unfold Meets at hmeets
      rwa [hready.ring.eq_pending] at hmeets
    obtain ⟨serials, hwrite, hready', -⟩ := hready.write c.property hroom
    refine ⟨⟨serials, s.written ++ [c.val], s.sent ++ Serial.sent []⟩, ?_, ⟨_, hready', ?_⟩, nofun⟩
    · unfold Traffic.step
      simp only [hwrite, Option.map_some]
    · show s.written ++ [c.val] = s.sent ++ [] ++ (l ++ [c.val])
      rw [hwritten, List.append_nil, List.append_assoc]
  | flush =>
    obtain ⟨t, hstep, hsent, hsame, hready'⟩ := step_flush hready
    have hall : t.sent = t.written := by rw [hsent, hsame, hwritten]
    exact ⟨t, hstep, ⟨[], hready', by rw [List.append_nil]; exact hall.symm⟩, fun _ => hall⟩

theorem Holds.flushesAll (h : Holds i s) : FlushesAll i s := by
  obtain ⟨l, hready, hwritten⟩ := h
  obtain ⟨t, hstep, hsent, -, -⟩ := step_flush hready
  exact ⟨t, hstep, hsent.trans hwritten.symm⟩

theorem Holds.served (h : Holds i s) (hmeets : Meets i s call) : Served i s call := by
  obtain ⟨t, hstep, hheld, hflush⟩ := h.step hmeets
  have hprefix : t.sent <+: t.written := by
    obtain ⟨l, -, hwritten⟩ := hheld
    rw [hwritten]
    exact List.prefix_append _ _
  exact ⟨t, hstep, hprefix, hheld.flushesAll, hflush⟩

/-- After a write that overflows the ring no flush completes what was written. -/
theorem Holds.not_served (h : Holds i s) (hmeets : ¬ Meets i s call) : ¬ Served i s call := by
  obtain ⟨l, hready, hwritten⟩ := h
  cases call with
  | flush => exact absurd trivial hmeets
  | write c =>
    intro ⟨t, hstep, _, ⟨u, hflush, hall⟩, _⟩
    have hfull : (l.length : Int) + 1 = (s.serials.devices i).outb.size := by
      have hlen := hready.ring.length_lt
      unfold Meets at hmeets
      rw [hready.ring.eq_pending] at hmeets
      omega
    obtain ⟨serials, events, hwrite, hnone, hready', -⟩ := hready.overflow (c := c.val) hfull
    have ht : t = ⟨serials, s.written ++ [c.val], s.sent ++ Serial.sent events⟩ := by
      unfold Traffic.step at hstep
      simp only [hwrite, Option.map_some] at hstep
      exact (Option.some.inj hstep).symm
    subst ht
    obtain ⟨u', hflush', hsent, -, -⟩ := step_flush (i := i)
      (s := ⟨serials, s.written ++ [c.val], s.sent ++ Serial.sent events⟩) hready'
    rw [← Option.some.inj (hflush'.symm.trans hflush), hsent] at hall
    have hlen := congrArg List.length hall
    simp only [hnone, hwritten, List.length_append, List.length_nil, List.length_singleton] at hlen
    omega

theorem Holds.served_iff (h : Holds i s) (call : SerialCall) : Served i s call ↔ Meets i s call :=
  ⟨fun hserved => Decidable.byContradiction fun hmeets => h.not_served hmeets hserved, h.served⟩

/-- Ports of which the device `i` has a transmit buffer of `outbs` cells, and nothing to send. -/
structure Fresh (s : Serials) (i : Nat) (outbs : Int) : Prop where
  found : s.getSerial (s.devices i).port = some i
  interrupted : s.interrupted = some i
  outb : (s.devices i).outb = ⟨fun _ => 0, outbs, 0, 0⟩

theorem Fresh.holds {serials : Serials} {outbs : Int} (h : Fresh serials i outbs)
    (hsize : 2 ≤ outbs) : Holds i ⟨serials, [], []⟩ := by
  refine ⟨[], ⟨h.found, h.interrupted, ?_, nofun⟩, rfl⟩
  obtain ⟨n, rfl⟩ := Int.eq_ofNat_of_zero_le (Int.le_trans (by decide) hsize)
  rw [h.outb]
  exact ⟨n, 0, 0, rfl, rfl, rfl, .nil (by omega)⟩

/-- The transmit buffer loses nothing exactly when every write finds room for one
character more. -/
theorem transmit_served_iff {serials : Serials} {outbs : Int} (h : Fresh serials i outbs)
    (hsize : 2 ≤ outbs) (calls : List SerialCall) :
    Run.Throughout (fun s call t => s.step i call = some t) (Served i) ⟨serials, [], []⟩ calls ↔
      Run.Throughout (fun s call t => s.step i call = some t) (Meets i) ⟨serials, [], []⟩ calls :=
  Run.throughout_iff (Holds i) (fun _ call hs => hs.served_iff call)
    (fun s call t hs hserved hnext => by
      obtain ⟨t', hstep, hheld, -⟩ := hs.step ((hs.served_iff call).mp hserved)
      rw [← Option.some.inj (hstep.symm.trans hnext)]
      exact hheld)
    (h.holds hsize) calls

/-- Two ports with buffers of three cells, the first of them interrupted last. -/
def threeCells : Serials where
  devices := fun i => ⟨1, if i = 0 then 0x3f8 else 0x2f8, [], ⟨fun _ => 0, 3, 0, 0⟩, ⟨fun _ => 0, 3, 0, 0⟩⟩
  initialized := true
  interrupted := some 0

theorem fresh_three : Fresh threeCells 0 3 := ⟨by decide, rfl, rfl⟩

def letter : { c : Byte // c ≠ 0 } := ⟨0x61#8, by decide⟩

/-- Two characters fit, and the flush sends them. -/
theorem transmit_served_three :
    Run.Throughout (fun s call t => s.step 0 call = some t) (Served 0) ⟨threeCells, [], []⟩
      [.write letter, .write letter, .flush] :=
  (transmit_served_iff fresh_three (by decide) _).mpr (by decide)

/-- The third character is lost together with the two before it. -/
theorem not_transmit_served :
    ¬ ∀ (serials : Serials) (i : Nat) (outbs : Int) (calls : List SerialCall),
      Fresh serials i outbs → 2 ≤ outbs →
        Run.Throughout (fun s call t => s.step i call = some t) (Served i) ⟨serials, [], []⟩ calls := by
  intro h
  have hall := h threeCells 0 3 [.write letter, .write letter, .write letter] fresh_three (by decide)
  have hlast := ((hall.2 _ rfl).2 _ rfl).1
  obtain ⟨t, ht, -, ⟨u, hu, hsent⟩, -⟩ := hlast
  cases ht
  cases hu
  exact absurd hsent (by decide)

end Traffic
end Serial
