import UnedKernel.Lib.Bytes
import UnedKernel.Lib.Ring

/-! # Terminals

`tty.c` keeps the characters typed and the characters to be sent in two buffers
of the same kind. A writer that catches up with the reader moves the reader on,
so each buffer keeps the newest characters. -/

namespace Tty
open ByteMem Ring

def TTY_EVENT_OUTB : Nat := 0
def TTY_EVENT_INB : Nat := 1

def TTY_FLUSH_CHAR : Byte := 0xd#8

def TTY_MODE_SERIAL : Int := 0
def TTY_MODE_PTY : Int := 1

/-- What a terminal asks of its output device, and the subscribers it runs. -/
inductive TtyEvent where
  | deviceWrite (dev chars : List Byte)
  | serialFlushTx (dev : List Byte)
  | handler (subscriber event : Nat)
  deriving DecidableEq

/-- `struct tty`. `subscribers` are the handlers behind the first node of the
list, which is never run. -/
structure Terminal where
  outdev : List Byte
  mode : Int
  valid : Int
  subscribers : Option (List Nat)
  inbNull : Bool
  inb : Indexed Byte
  outbNull : Bool
  outb : Indexed Byte

/-- A buffer from `kcalloc`. -/
def calloc (size : Int) : Indexed Byte := ⟨fun _ => 0, size, 0, 0⟩

/-- `tty_init`, with memory for its blocks. `none` is its -1 for a mode. -/
def ttyInit (outdev : List Byte) (mode inbs outbs : Int) : Option Terminal :=
  if mode = TTY_MODE_SERIAL ∨ mode = TTY_MODE_PTY then
    some {
      outdev, mode
      valid := 1
      subscribers := some []
      inbNull := false
      inb := calloc inbs
      outbNull := false
      outb := calloc outbs }
  else none

/-- The buffer after a character; `none` is a write outside it. -/
def put (r : Indexed Byte) (c : Byte) : Option (Indexed Byte) :=
  (r.store c).map fun r =>
    if r.write = r.read then { r with read := after r.size r.read } else r

/-- The next character of a buffer, 0 from an empty one. -/
def take (r : Indexed Byte) : Option (Byte × Indexed Byte) :=
  if r.read = r.write then some (0, r) else r.load

namespace Terminal

def runSubscribers (tty : Terminal) (event : Nat) : List TtyEvent :=
  if tty.valid = 0 then []
  else match tty.subscribers with
    | none => []
    | some handlers => handlers.map (.handler · event)

/-- `_tty_flush`. The device is given one piece of the buffer; `none` is a piece
that does not lie in it. -/
def flush (tty : Terminal) : Option (Terminal × List TtyEvent) :=
  if tty.outbNull then some (tty, [])
  else if tty.outb.read = tty.outb.write then some (tty, [])
  else
    let ahead := tty.outb.write - tty.outb.read
    let len := if ahead < 0 then tty.outb.size - tty.outb.read else ahead
    if tty.outb.read < 0 ∨ len < 0 ∨ tty.outb.size < tty.outb.read + len then none
    else
      let read := tty.outb.read + len
      let chars := (List.range len.toNat).map fun i => tty.outb.cells (tty.outb.read.toNat + i)
      some ({ tty with outb := { tty.outb with read := if tty.outb.size ≤ read then 0 else read } },
        .deviceWrite tty.outdev chars ::
          if tty.mode = TTY_MODE_SERIAL then [.serialFlushTx tty.outdev] else [])

def writeInb (tty : Terminal) (c : Byte) : Option Terminal :=
  if tty.inbNull then some tty else (put tty.inb c).map fun inb => { tty with inb }

def writeOutb (tty : Terminal) (c : Byte) : Option (Terminal × List TtyEvent) :=
  if tty.outbNull then some (tty, [])
  else (put tty.outb c).bind fun outb =>
    let tty := { tty with outb }
    if c = TTY_FLUSH_CHAR then
      tty.flush.map fun r => (r.1, r.2 ++ r.1.runSubscribers TTY_EVENT_OUTB)
    else some (tty, [])

/-- `tty_read_inb` into a variable that holds `c`. -/
def readInb (tty : Terminal) (c : Byte) : Option (Byte × Terminal) :=
  if tty.inbNull then some (c, tty) else (take tty.inb).map fun r => (r.1, { tty with inb := r.2 })

/-- `_tty_get_size`. -/
def getSize (tty : Terminal) : Int :=
  if tty.valid = 0 then 0 else tty.inb.write - tty.inb.read

end Terminal

/-! ## The buffers as lists -/

variable {r : Indexed Byte} {l : List Byte} {c : Byte}

/-- The last `k` elements of a list. -/
def newest (k : Nat) (l : List Byte) : List Byte := l.drop (l.length - k)

theorem holds_calloc {size : Int} (hsize : 2 ≤ size) : (calloc size).Holds [] := by
  obtain ⟨n, rfl⟩ := Int.eq_ofNat_of_zero_le (Int.le_trans (by decide) hsize)
  exact ⟨n, 0, 0, rfl, rfl, rfl, .nil (by omega)⟩

/-- A buffer keeps the newest characters, one fewer than it has cells. -/
theorem holds_put (hl : r.Holds l) :
    ∃ s, put r c = some s ∧ s.size = r.size ∧ s.Holds (newest (r.size.toNat - 1) (l ++ [c])) := by
  obtain ⟨n, h, t, hn, hh, ht, hring⟩ := hl
  have hhn := hring.head_lt
  have htn := hring.tail_lt
  have hput := hring.put (c := c)
  unfold put Indexed.store
  rw [if_neg (by omega), Option.map_some]
  simp only [hn, hh, ht, after_natCast htn, after_natCast hhn, Int.toNat_natCast]
  by_cases hmeet : (t + 1) % n = h
  · rw [if_pos hmeet] at hput
    rw [if_pos (congrArg Nat.cast hmeet)]
    exact ⟨_, rfl, rfl, n, _, _, rfl, rfl, rfl, hput⟩
  · rw [if_neg hmeet] at hput
    rw [if_neg fun heq => hmeet (Int.ofNat_inj.mp heq)]
    exact ⟨_, rfl, rfl, n, _, _, rfl, rfl, rfl, hput⟩

/-- A buffer gives its characters in order, and 0 when there are none. -/
theorem holds_take (hl : r.Holds l) :
    ∃ s, take r = some (l.headD 0, s) ∧ s.size = r.size ∧ s.Holds l.tail := by
  unfold take
  cases l with
  | nil =>
    rw [if_pos (hl.read_eq_write_iff.mpr rfl)]
    exact ⟨r, rfl, rfl, hl⟩
  | cons c l =>
    rw [if_neg (mt hl.read_eq_write_iff.mp (List.cons_ne_nil c l))]
    obtain ⟨s, hload, hsize, -, hrest⟩ := hl.load
    exact ⟨s, hload, hsize, hrest⟩

end Tty
