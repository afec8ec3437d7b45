import UnedKernel.Lib.Run
import UnedKernel.Tty.Terminal

/-! # The input ring as a queue

`tty_write_inb` and `tty_read_inb` are a queue of the newest `inb_size - 1`
characters. `_tty_get_size` is the length of that queue only while the queue does
not lie round the end of the buffer: its difference of the two indices is
negative there. -/

namespace Tty
open ByteMem Ring

/-- A call on the input ring. -/
inductive InputCall where
  | write (c : Byte)
  | read (c : Byte)
  | size

/-- The unread characters after a call. -/
def InputCall.unread (inbs : Int) (unread : List Byte) : InputCall → List Byte
  | .write c => newest (inbs.toNat - 1) (unread ++ [c])
  | .read _ => unread.tail
  | .size => unread

/-- A terminal and the characters typed that have not been read. -/
abbrev Input := Terminal × List Byte

namespace Input

/-- The terminal after a call. -/
def Calls (tty : Terminal) (call : InputCall) (tty' : Terminal) : Prop :=
  match call with
  | .write c => tty.writeInb c = some tty'
  | .read c => ∃ got, tty.readInb c = some (got, tty')
  | .size => tty' = tty

def Next (s : Input) (call : InputCall) (t : Input) : Prop :=
  Calls s.1 call t.1 ∧ t.2 = call.unread s.1.inb.size s.2

/-- A call stays inside the buffer and leaves the indices in it, a read gives the
oldest unread character, or 0, and the size is the number of the unread ones. -/
def Served (s : Input) : InputCall → Prop
  | .write c => ∃ tty, s.1.writeInb c = some tty ∧ tty.inb.InRange
  | .read c => ∃ tty, s.1.readInb c = some (s.2.headD 0, tty) ∧ tty.inb.InRange
  | .size => s.1.getSize = s.2.length

/-- When a call is served: the size is asked for while the index that is written
next is not before the one that is read next. -/
def Meets (s : Input) : InputCall → Prop
  | .write _ => True
  | .read _ => True
  | .size => s.1.inb.read ≤ s.1.inb.write

/-- The buffer of a valid terminal holds the unread characters. -/
structure Holds (s : Input) : Prop where
  valid : s.1.valid = 1
  notNull : s.1.inbNull = false
  ring : s.1.inb.Holds s.2

variable {s t : Input} {call : InputCall}

theorem Holds.write (h : Holds s) (c : Byte) :
    ∃ tty, s.1.writeInb c = some tty ∧
      Holds (tty, newest (s.1.inb.size.toNat - 1) (s.2 ++ [c])) := by
  obtain ⟨inb, hput, -, hring⟩ := holds_put h.ring
  refine ⟨{ s.1 with inb }, ?_, h.valid, h.notNull, hring⟩
  unfold Terminal.writeInb
  rw [if_neg (ne_true_of_eq_false h.notNull), hput]
  rfl

theorem Holds.read (h : Holds s) (c : Byte) :
    ∃ tty, s.1.readInb c = some (s.2.headD 0, tty) ∧ Holds (tty, s.2.tail) := by
  obtain ⟨inb, htake, -, hring⟩ := holds_take h.ring
  refine ⟨{ s.1 with inb }, ?_, h.valid, h.notNull, hring⟩
  unfold Terminal.readInb
  rw [if_neg (ne_true_of_eq_false h.notNull), htake]
  rfl

/-- The difference of the indices is the length where it is not negative. -/
theorem Holds.getSize_iff (h : Holds s) :
    s.1.getSize = s.2.length ↔ s.1.inb.read ≤ s.1.inb.write := by
  have hsize : s.1.getSize = s.1.inb.write - s.1.inb.read := by
    unfold Terminal.getSize
    rw [if_neg (by rw [h.valid]; decide)]
  obtain ⟨n, i, j, hn, hi, hj, hring⟩ := h.ring
  rw [hsize, hi, hj]
  have hin := hring.head_lt
  have hlen := hring.len_lt
  rcases hring.tail_cases with ⟨-, htail⟩ | ⟨-, htail⟩ <;> omega

theorem Holds.served_iff (h : Holds s) (call : InputCall) : Served s call ↔ Meets s call := by
  cases call with
  | write c =>
    obtain ⟨tty, hwrite, hheld⟩ := h.write c
    exact iff_of_true ⟨tty, hwrite, hheld.ring.inRange⟩ trivial
  | read c =>
    obtain ⟨tty, hread, hheld⟩ := h.read c
    exact iff_of_true ⟨tty, hread, hheld.ring.inRange⟩ trivial
  | size => exact h.getSize_iff

/-- Every call keeps the queue. -/
theorem Holds.next (h : Holds s) (hnext : Next s call t) : Holds t := by
  obtain ⟨hcalls, hunread⟩ := hnext
  have heq : t = (t.1, call.unread s.1.inb.size s.2) := Prod.ext rfl hunread
  rw [heq]
  cases call with
  | write c =>
    obtain ⟨tty, hwrite, hheld⟩ := h.write c
    rw [Option.some.inj (hcalls.symm.trans hwrite)]
    exact hheld
  | read c =>
    obtain ⟨tty, hread, hheld⟩ := h.read c
    obtain ⟨got, hread'⟩ := hcalls
    have htty : t.1 = tty := congrArg Prod.snd (Option.some.inj (hread'.symm.trans hread))
    rw [htty]
    exact hheld
  | size =>
    rw [show t.1 = s.1 from hcalls]
    exact h

theorem holds_ttyInit {outdev : List Byte} {mode inbs outbs : Int} {tty : Terminal}
    (hinit : ttyInit outdev mode inbs outbs = some tty) (hsize : 2 ≤ inbs) : Holds (tty, []) := by
  unfold ttyInit at hinit
  split at hinit
  · cases hinit
    exact ⟨rfl, rfl, holds_calloc hsize⟩
  · cases hinit

/-- The input ring of a terminal is a bounded queue with an honest size exactly
when the size is asked for only where the queue does not lie round the end. -/
theorem input_served_iff {outdev : List Byte} {mode inbs outbs : Int} {tty : Terminal}
    (hinit : ttyInit outdev mode inbs outbs = some tty) (hsize : 2 ≤ inbs)
    (calls : List InputCall) :
    Run.Throughout Next Served (tty, []) calls ↔ Run.Throughout Next Meets (tty, []) calls :=
  Run.throughout_iff Holds (fun _ call h => h.served_iff call) (fun _ _ _ h _ hn => h.next hn)
    (holds_ttyInit hinit hsize) calls

/-- A terminal with two cells for its input. -/
def twoCells : Terminal where
  outdev := []
  mode := TTY_MODE_SERIAL
  valid := 1
  subscribers := some []
  inbNull := false
  inb := calloc 2
  outbNull := false
  outb := calloc 2

theorem ttyInit_two : ttyInit [] TTY_MODE_SERIAL 2 2 = some twoCells := rfl

/-- One character is written, counted and read. -/
theorem input_served_two :
    Run.Throughout Next Served (twoCells, []) [.write 0x61#8, .size, .read 0] := by
  refine (input_served_iff ttyInit_two (by decide) _).mpr ⟨trivial, ?_⟩
  intro s hs
  have hmeets : s.1.inb.read ≤ s.1.inb.write := by
    rw [← Option.some.inj hs.1]
    decide
  exact ⟨hmeets, fun _ _ => ⟨trivial, fun _ _ => trivial⟩⟩

/-- When one character has been written and read, both indices stand at 1; the next
one brings the index that is written next to 0, and the size is -1. -/
theorem not_input_served :
    ¬ ∀ (outdev : List Byte) (mode inbs outbs : Int) (tty : Terminal) (calls : List InputCall),
      ttyInit outdev mode inbs outbs = some tty → 2 ≤ inbs →
        Run.Throughout Next Served (tty, []) calls := by
  intro h
  have hall := h [] TTY_MODE_SERIAL 2 2 twoCells [.write 0x61#8, .read 0, .write 0x62#8, .size]
    rfl (by decide)
  have hsize := (((hall.2 (_, _) ⟨rfl, rfl⟩).2 (_, _) ⟨⟨_, rfl⟩, rfl⟩).2 (_, _) ⟨rfl, rfl⟩).1
  exact absurd (show (0 : Int) - 1 = 1 from hsize) (by decide)

end Input
end Tty
