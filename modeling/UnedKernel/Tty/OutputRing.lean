import UnedKernel.Lib.Run
import UnedKernel.Tty.Terminal

/-! # What a flush sends

`_tty_flush` gives the device one piece of the output ring: up to the index that
is written next, or up to the end of the buffer. Where the pending characters lie
round the end it sends the first piece of them and leaves the other one. -/

namespace Tty
open ByteMem Ring

/-- The bytes among the events that the device is given. -/
def received (events : List TtyEvent) : List Byte :=
  events.flatMap fun e => match e with
    | .deviceWrite _ chars => chars
    | .serialFlushTx _ => []
    | .handler _ _ => []

/-- A call on the output ring. -/
inductive OutputCall where
  | write (c : Byte)
  | flush

/-- A call that flushes: `_tty_flush`, or a carriage return. -/
def OutputCall.Flushes : OutputCall → Prop
  | .write c => c = TTY_FLUSH_CHAR
  | .flush => True

instance : DecidablePred OutputCall.Flushes
  | .write c => inferInstanceAs (Decidable (c = TTY_FLUSH_CHAR))
  | .flush => inferInstanceAs (Decidable True)

/-- The characters a call adds. -/
def OutputCall.chars : OutputCall → List Byte
  | .write c => [c]
  | .flush => []

/-- What a call does to a terminal. -/
def OutputCall.run (tty : Terminal) : OutputCall → Option (Terminal × List TtyEvent)
  | .write c => tty.writeOutb c
  | .flush => tty.flush

/-- The index written next when a call comes to flush. -/
def OutputCall.writeIndex (r : Indexed Byte) : OutputCall → Int
  | .write _ => after r.size r.write
  | .flush => r.write

/-- A terminal, what was written to it up to the last flush and after it, and what its
device has received. -/
structure Output where
  tty : Terminal
  flushed : List Byte
  pending : List Byte
  received : List Byte

/-- A flush empties the ring and hands all that was pending to the device, in order. -/
def Terminal.SendsPending (tty : Terminal) : Prop :=
  ∃ tty' events, tty.flush = some (tty', events) ∧ tty'.outb.read = tty'.outb.write ∧
    Tty.received events = tty.outb.pending

variable {tty : Terminal} {l : List Byte} {c : Byte}

/-- A flush of an empty ring does nothing. -/
theorem flush_empty (hnull : tty.outbNull = false) (hl : tty.outb.Holds []) :
    tty.flush = some (tty, []) := by
  unfold Terminal.flush
  rw [if_neg (ne_true_of_eq_false hnull), if_pos (hl.read_eq_write_iff.mpr rfl)]

/-- A flush sends the first `k` pending characters and keeps the others; these are all
where the pending ones lie in one piece. -/
theorem flush_sends (tty : Terminal) (hnull : tty.outbNull = false) (hl : tty.outb.Holds l) :
    ∃ k outb events, k ≤ l.length ∧ (k = l.length ↔ tty.outb.InOnePiece) ∧
      tty.flush = some ({ tty with outb }, events) ∧ received events = l.take k ∧
      outb.size = tty.outb.size ∧ outb.write = tty.outb.write ∧ outb.Holds (l.drop k) := by
  by_cases hne : l = []
  · subst hne
    have hmeet := hl.read_eq_write_iff.mpr rfl
    refine ⟨0, tty.outb, [], Nat.le_refl 0, iff_of_true rfl ?_, flush_empty hnull hl, rfl, rfl, rfl,
      hl⟩
    unfold Indexed.InOnePiece
    omega
  · have hpos := List.length_pos_iff.mpr hne
    obtain ⟨n, h, t, hn, hh, ht, hring⟩ := hl
    have hlen := hring.len_lt
    have hhn := hring.head_lt
    have htn := hring.tail_lt
    have hpiece := hring.contiguous_iff
    -- the piece that is sent ends at the tail or at the end of the buffer
    obtain ⟨k, hk, hfit, hkpos, hlast, hlen'⟩ : ∃ k : Nat, k ≤ l.length ∧ h + k ≤ n ∧ 0 < k ∧
        (k = l.length ↔ h + l.length ≤ n) ∧
        (if (t : Int) - h < 0 then (n : Int) - h else t - h) = k := by
      rcases hring.tail_cases with ⟨hlt, htail⟩ | ⟨hge, htail⟩
      · exact ⟨l.length, Nat.le_refl _, by omega, hpos, by omega, by omega⟩
      · exact ⟨n - h, by omega, by omega, by omega, by omega, by omega⟩
    have hrest := hring.drop hk
    unfold Terminal.flush
    rw [if_neg (ne_true_of_eq_false hnull), if_neg (by
      intro heq
      have hnil := hring.tail_eq_head_iff.mp (by omega)
      exact hne hnil)]
    simp only [hn, hh, ht, hlen']
    rw [if_neg (by omega), Int.toNat_natCast, Int.toNat_natCast, hring.slice_take hk hfit]
    refine ⟨k, _, _, hk, ?_, rfl, ?_, hn.symm ▸ rfl, rfl, n, (h + k) % n, t, rfl, ?_, rfl, hrest⟩
    · unfold Indexed.InOnePiece
      rw [hh, ht, hlast, hpiece]
      omega
    · split <;> simp [received]
    · rcases Nat.lt_or_ge (h + k) n with hlt | hge
      · rw [Nat.mod_eq_of_lt hlt, if_neg (by omega)]
        rfl
      · rw [Nat.le_antisymm hfit hge, Nat.mod_self, if_pos (by omega)]
        rfl

/-- A flush sends everything pending exactly where that lies in one piece. -/
theorem sendsPending_iff (hnull : tty.outbNull = false) (hr : tty.outb.InRange) :
    tty.SendsPending ↔ tty.outb.InOnePiece := by
  obtain ⟨k, outb, events, hk, hpiece, hflush, hsent, -, hwrite, hrest⟩ :=
    flush_sends tty hnull hr.holds
  rw [← hpiece]
  constructor
  · intro ⟨tty', events', hflush', _, hall⟩
    rw [hflush] at hflush'
    have hevents : events = events' := congrArg Prod.snd (Option.some.inj hflush')
    rw [← hevents, hsent] at hall
    have hlen := congrArg List.length hall
    rw [List.length_take] at hlen
    omega
  · intro hlast
    refine ⟨_, events, hflush, ?_, ?_⟩
    · rw [hlast, List.drop_length] at hrest
      exact hrest.read_eq_write_iff.mpr rfl
    · rw [hsent, hlast, List.take_length]

/-! ## Runs -/

namespace Output

/-- What has been written up to the last flush when the call is done. -/
def flushedBy (s : Output) (call : OutputCall) : List Byte :=
  if call.Flushes then s.flushed ++ (s.pending ++ call.chars) else s.flushed

def pendingAfter (s : Output) (call : OutputCall) : List Byte :=
  if call.Flushes then [] else s.pending ++ call.chars

def step (s : Output) (call : OutputCall) : Option Output :=
  (call.run s.tty).map fun r =>
    ⟨r.1, s.flushedBy call, s.pendingAfter call, s.received ++ Tty.received r.2⟩

abbrev Next (s : Output) (call : OutputCall) (t : Output) : Prop := s.step call = some t

/-- At most `outb_size - 1` characters are pending. -/
def Fits (s : Output) (call : OutputCall) : Prop :=
  ((s.pending ++ call.chars).length : Int) ≤ s.tty.outb.size - 1

/-- After a call the device has received exactly what was written up to the last
flush, and a flush leaves the ring empty. -/
def Served (s : Output) (call : OutputCall) : Prop :=
  ∃ t, s.step call = some t ∧ t.tty.outb.InRange ∧ t.received = t.flushed ∧
    (call.Flushes → t.tty.outb.read = t.tty.outb.write)

instance (s : Output) (call : OutputCall) : Decidable (Fits s call) :=
  inferInstanceAs (Decidable ((_ : Int) ≤ _))

instance (s : Output) (call : OutputCall) : Decidable (Served s call) :=
  match hstep : s.step call with
  | none => isFalse fun ⟨_, ht, _⟩ => absurd (hstep.symm.trans ht) nofun
  | some t => decidable_of_iff
      (t.tty.outb.InRange ∧ t.received = t.flushed ∧
        (call.Flushes → t.tty.outb.read = t.tty.outb.write))
      ⟨fun hgood => ⟨t, hstep, hgood⟩,
        fun ⟨_, ht, hgood⟩ => Option.some.inj (hstep.symm.trans ht) ▸ hgood⟩

/-- When a call is served: at a flush the pending characters do not lie round the end of
the buffer. -/
def Meets (s : Output) (call : OutputCall) : Prop :=
  call.Flushes → ¬ (0 < call.writeIndex s.tty.outb ∧ call.writeIndex s.tty.outb < s.tty.outb.read)

instance (s : Output) (call : OutputCall) : Decidable (Meets s call) :=
  inferInstanceAs (Decidable (_ → _))

/-- The ring holds what is pending, and the device has the rest. -/
structure Holds (s : Output) : Prop where
  notNull : s.tty.outbNull = false
  ring : s.tty.outb.Holds s.pending
  received : s.received = s.flushed

variable {s t : Output} {call : OutputCall}

theorem received_runSubscribers (tty : Terminal) (event : Nat) :
    Tty.received (tty.runSubscribers event) = [] := by
  unfold Terminal.runSubscribers
  split
  · rfl
  · cases tty.subscribers with
    | none => rfl
    | some handlers => simp [Tty.received]

/-- A call puts its characters into the ring, and then flushes it or is done. -/
theorem Holds.put (h : Holds s) (hfits : Fits s call) :
    ∃ outb, outb.Holds (s.pending ++ call.chars) ∧ outb.read = s.tty.outb.read ∧
      outb.write = call.writeIndex s.tty.outb ∧
      (call.Flushes → ∀ tty sent, Terminal.flush { s.tty with outb } = some (tty, sent) →
        ∃ events, call.run s.tty = some (tty, events) ∧ Tty.received events = Tty.received sent) ∧
      (¬ call.Flushes → call.run s.tty = some ({ s.tty with outb }, [])) := by
  cases call with
  | write c =>
    have hroom : (s.pending.length : Int) + 1 < s.tty.outb.size := by
      unfold Fits OutputCall.chars at hfits
      rw [List.length_append, List.length_singleton] at hfits
      omega
    obtain ⟨outb, hstore, hsize, hread, hne, hring⟩ := h.ring.store (c := c) hroom
    have hwrite : outb.write = after s.tty.outb.size s.tty.outb.write := by
      unfold Indexed.store at hstore
      split at hstore
      · cases hstore
      · rw [← Option.some.inj hstore]
    have hput : Tty.put s.tty.outb c = some outb := by
      unfold Tty.put
      rw [hstore, Option.map_some, if_neg hne]
    refine ⟨outb, hring, hread, hwrite, ?_, ?_⟩
    · intro hflushes tty sent hflush
      have hreturn : c = TTY_FLUSH_CHAR := hflushes
      refine ⟨sent ++ tty.runSubscribers TTY_EVENT_OUTB, ?_, ?_⟩
      · show s.tty.writeOutb c = _
        unfold Terminal.writeOutb
        rw [if_neg (ne_true_of_eq_false h.notNull), hput, Option.bind_some]
        simp only [if_pos hreturn, hflush, Option.map_some]
      · have hnone := received_runSubscribers tty TTY_EVENT_OUTB
        unfold Tty.received at hnone ⊢
        rw [List.flatMap_append, hnone, List.append_nil]
    · intro hflushes
      have hreturn : c ≠ TTY_FLUSH_CHAR := hflushes
      show s.tty.writeOutb c = _
      unfold Terminal.writeOutb
      rw [if_neg (ne_true_of_eq_false h.notNull), hput, Option.bind_some]
      simp only [if_neg hreturn]
  | flush =>
    refine ⟨s.tty.outb, ?_, rfl, rfl, ?_, fun hno => absurd trivial hno⟩
    · rw [OutputCall.chars, List.append_nil]
      exact h.ring
    · intro _ tty sent hflush
      exact ⟨sent, hflush, rfl⟩

/-- What a call comes to: it sends the first `k` of the characters that are then
pending, all of them if the condition holds; without a flush it sends none. -/
theorem Holds.does (h : Holds s) (hfits : Fits s call) :
    ∃ k tty events, k ≤ (s.pending ++ call.chars).length ∧
      call.run s.tty = some (tty, events) ∧
      tty.outbNull = false ∧ tty.outb.Holds ((s.pending ++ call.chars).drop k) ∧
      Tty.received events = (s.pending ++ call.chars).take k ∧
      (call.Flushes → (k = (s.pending ++ call.chars).length ↔ Meets s call)) ∧
      (¬ call.Flushes → k = 0) := by
  obtain ⟨outb, hring, hread, hwrite, hflush, hkeep⟩ := h.put hfits
  by_cases hflushes : call.Flushes
  · obtain ⟨k, outb', sent, hk, hpiece, hflush', hsent, -, -, hrest⟩ :=
      flush_sends { s.tty with outb } h.notNull hring
    obtain ⟨events, hcalls, hevents⟩ := hflush hflushes _ _ hflush'
    refine ⟨k, _, events, hk, hcalls, h.notNull, hrest, hevents.trans hsent, ?_,
      fun hno => absurd hflushes hno⟩
    intro _
    rw [hpiece]
    unfold Indexed.InOnePiece Meets
    rw [hread, hwrite]
    exact ⟨fun hone _ => hone, fun hone => hone hflushes⟩
  · exact ⟨0, _, [], Nat.zero_le _, hkeep hflushes, h.notNull, hring, rfl,
      fun hyes => absurd hyes hflushes, fun _ => rfl⟩

/-- The state after a call. -/
theorem Holds.step (h : Holds s) (hfits : Fits s call) :
    ∃ t, s.step call = some t ∧ t.tty.outb.InRange ∧ (Meets s call → Holds t) ∧
      (t.received = t.flushed → Meets s call) := by
  obtain ⟨k, tty, events, hk, hrun, hnull, hrest, hsent, hall, hnone⟩ := h.does hfits
  have hstep : s.step call = some
      ⟨tty, s.flushedBy call, s.pendingAfter call, s.received ++ Tty.received events⟩ := by
    unfold Output.step
    rw [hrun, Option.map_some]
  refine ⟨_, hstep, hrest.inRange, ?_, ?_⟩
  · intro hmeets
    refine ⟨hnull, ?_, ?_⟩
    · show tty.outb.Holds (s.pendingAfter call)
      unfold pendingAfter
      by_cases hflushes : call.Flushes
      · rw [(hall hflushes).mpr hmeets, List.drop_length] at hrest
        rwa [if_pos hflushes]
      · rw [hnone hflushes, List.drop_zero] at hrest
        rwa [if_neg hflushes]
    · show s.received ++ Tty.received events = s.flushedBy call
      rw [hsent, h.received, flushedBy]
      by_cases hflushes : call.Flushes
      · rw [(hall hflushes).mpr hmeets, List.take_length, if_pos hflushes]
      · rw [hnone hflushes, List.take_zero, List.append_nil, if_neg hflushes]
  · intro hreceived hflushes
    -- a flush that sends fewer characters leaves the device behind
    have hequal : s.received ++ Tty.received events = s.flushedBy call := hreceived
    rw [hsent, h.received, flushedBy, if_pos hflushes] at hequal
    have hlen := congrArg List.length (List.append_cancel_left hequal)
    rw [List.length_take] at hlen
    exact (hall hflushes).mp (by omega) hflushes

theorem Holds.served_iff (h : Holds s) (hfits : Fits s call) : Served s call ↔ Meets s call := by
  obtain ⟨t, hstep, hrange, hholds, hmeets⟩ := h.step hfits
  constructor
  · intro ⟨t', hstep', _, hreceived, _⟩
    rw [← Option.some.inj (hstep.symm.trans hstep')] at hreceived
    exact hmeets hreceived
  · intro hcond
    have hheld := hholds hcond
    refine ⟨t, hstep, hrange, hheld.received, ?_⟩
    intro hflushes
    have hpending : t.pending = [] := by
      unfold Output.step at hstep
      obtain ⟨r, -, hr⟩ := Option.map_eq_some_iff.mp hstep
      rw [← hr]
      exact if_pos hflushes
    exact hheld.ring.read_eq_write_iff.mpr hpending

theorem Holds.next (h : Holds s) (hfits : Fits s call) (hserved : Served s call)
    (hnext : Next s call t) : Holds t := by
  obtain ⟨t', hstep, -, hholds, -⟩ := h.step hfits
  rw [← Option.some.inj (hstep.symm.trans hnext)]
  exact hholds ((h.served_iff hfits).mp hserved)

/-- A terminal to which nothing has been written. -/
def start (tty : Terminal) : Output := ⟨tty, [], [], []⟩

theorem holds_start {outdev : List Byte} {mode inbs outbs : Int}
    (hinit : ttyInit outdev mode inbs outbs = some tty) (hsize : 2 ≤ outbs) : Holds (start tty) := by
  unfold ttyInit at hinit
  split at hinit
  · rw [← Option.some.inj hinit]
    exact ⟨rfl, holds_calloc hsize, rfl⟩
  · cases hinit

/-- A flush sends everything pending exactly where it lies in one piece, and over a run in
which the ring never overflows the device receives what is written up to the last flush
exactly if that is so at every flush. -/
theorem output_served_iff {outdev : List Byte} {mode inbs outbs : Int}
    (hinit : ttyInit outdev mode inbs outbs = some tty) (hsize : 2 ≤ outbs)
    (calls : List OutputCall) (hfits : Run.Throughout Next Fits (start tty) calls) :
    (∀ tty : Terminal, tty.outbNull = false → tty.outb.InRange →
      (tty.SendsPending ↔ tty.outb.InOnePiece)) ∧
    (Run.Throughout Next Served (start tty) calls ↔ Run.Throughout Next Meets (start tty) calls) :=
  ⟨fun _ hnull hr => sendsPending_iff hnull hr,
    Run.throughout_iff_of Holds (fun _ _ h hf => h.served_iff hf) (fun _ _ _ h hf => h.next hf)
      (holds_start hinit hsize) hfits⟩

/-- A terminal with three cells for its output. -/
def threeCells : Terminal where
  outdev := []
  mode := TTY_MODE_SERIAL
  valid := 1
  subscribers := some []
  inbNull := false
  inb := calloc 3
  outbNull := false
  outb := calloc 3

/-- A character is written and flushed. -/
theorem output_served_three :
    Run.Throughout Next Served (start threeCells) [.write 0x61#8, .flush] := by
  have hinit : ttyInit [] TTY_MODE_SERIAL 3 3 = some threeCells := rfl
  exact (output_served_iff hinit (by decide) _ (by decide)).2.mpr (by decide)

/-- Two characters are written and flushed one by one, which leaves both indices at 2.
The next two lie round the end, and the flush sends only the first of them. -/
theorem not_output_served :
    ¬ ∀ (outdev : List Byte) (mode inbs outbs : Int) (tty : Terminal) (calls : List OutputCall),
      ttyInit outdev mode inbs outbs = some tty → 2 ≤ outbs →
        Run.Throughout Next Fits (start tty) calls →
          Run.Throughout Next Served (start tty) calls := by
  intro h
  have hall := h [] TTY_MODE_SERIAL 3 3 threeCells [.write 0x61#8, .flush, .write 0x62#8, .flush,
    .write 0x63#8, .write 0x64#8, .flush] rfl (by decide) (by decide +kernel)
  exact absurd hall (by decide +kernel)

end Output
end Tty
