import UnedKernel.Lib.Bytes
import UnedKernel.Lib.Ring

/-! # The line discipline of a terminal

Characters typed in canonical mode wait in a circular buffer until a carriage
return hands the line to `flush_cb`, as a pointer to its first character and a
length. -/

namespace Tty
open ByteMem

def LINE_DISCIPLINE_MODE_RAW : Int := 0
def LINE_DISCIPLINE_MODE_CANONICAL : Int := 1
def LINE_DISCIPLINE_MODE_ECHO_ON : Int := 0
def LINE_DISCIPLINE_MODE_ECHO_OFF : Int := 1

def LD_NULL : Byte := 0#8
def LD_BACKSPACE : Byte := 8#8
def LD_NEWLINE : Byte := 10#8
def LD_CARRIAGE_RETURN : Byte := 13#8
def LD_DEL : Byte := 127#8
def space : Byte := 0x20#8

/-- The largest `int`. -/
def INT_MAX : Int := 2147483647

/-- `struct line_discipline`, of whose `echo_cb` the model keeps whether it is set. -/
structure LineDiscipline where
  mode : Int
  echo : Int
  valid : Int
  buffer : Nat → Byte
  size : Int
  head : Int
  tail : Int
  echoCb : Bool

/-- What the line discipline hands to its terminal. -/
inductive LdEvent where
  | flush (chars : List Byte)
  | echo (c : Byte)
  deriving DecidableEq

/-- The functions of `default_ld_table`; all but two only print a message. -/
inductive LdAction where
  | ignore | bell | eof | erase | htab | lfeed | vtab | newpage | cret
  | restartOut | stopOut | sigint | sigstop | del
  deriving DecidableEq

/-- `struct line_discipline_action_table_entry`, without the translation of output. -/
structure ActionEntry where
  output : List Byte
  inserti : List Byte
  action : LdAction

namespace LineDiscipline

/-- An entry that echoes and inserts nothing. -/
def plain (action : LdAction) : ActionEntry := ⟨[0#8, 0#8, 0#8, 0#8], [0#8, 0#8, 0#8, 0#8], action⟩

def defaultLdTable : List ActionEntry :=
  [plain .ignore, plain .ignore, plain .ignore, plain .sigint, plain .eof, plain .ignore,
   plain .ignore, plain .bell,
   { plain .erase with output := [LD_BACKSPACE, space, LD_BACKSPACE, 0#8] },
   plain .htab,
   { plain .lfeed with output := [LD_NEWLINE, 0#8, 0#8, 0#8] },
   plain .vtab, plain .newpage,
   { plain .cret with output := [LD_CARRIAGE_RETURN, LD_NEWLINE, 0#8, 0#8] },
   plain .ignore, plain .ignore, plain .ignore, plain .restartOut, plain .ignore, plain .stopOut,
   plain .ignore, plain .ignore, plain .ignore, plain .ignore, plain .ignore, plain .ignore,
   plain .sigstop, plain .del]

/-- `line_discipline_create` with memory for both blocks; `fresh` is what the
buffer holds before. -/
def create (mode echo bufferSize : Int) (echoCb : Bool) (fresh : Nat → Byte) : LineDiscipline where
  mode := if mode = LINE_DISCIPLINE_MODE_RAW ∨ mode = LINE_DISCIPLINE_MODE_CANONICAL then mode
    else LINE_DISCIPLINE_MODE_CANONICAL
  echo := if echo = LINE_DISCIPLINE_MODE_ECHO_ON ∨ echo = LINE_DISCIPLINE_MODE_ECHO_OFF then echo
    else LINE_DISCIPLINE_MODE_ECHO_ON
  valid := 1
  buffer := fresh
  size := bufferSize
  head := 0
  tail := 0
  echoCb := echoCb

/-- `(tail - 1) % size` is the remainder of C, which keeps the sign of its left side. -/
def deleteLast (ld : LineDiscipline) : LineDiscipline :=
  if ld.valid = 0 then ld
  else if ld.tail = ld.head then ld
  else { ld with tail := (ld.tail - 1).tmod ld.size }

/-- `line_discipline_insert`; `none` is a write outside the buffer. -/
def insert (ld : LineDiscipline) (c : Byte) : Option LineDiscipline :=
  if ld.valid = 0 then some ld
  else if c = LD_NULL then some ld
  else if ld.tail < 0 ∨ ld.size ≤ ld.tail then none
  else
    let tail := (ld.tail + 1).tmod ld.size
    some { ld with
      buffer := Function.update ld.buffer ld.tail.toNat c
      tail := tail
      head := if tail = ld.head then (ld.head + 1).tmod ld.size else ld.head }

/-- `line_discipline_force_flush`. The callback reads `count` characters from
the address of the head; `none` is a sum beyond `int`, or a read outside the buffer. -/
def forceFlush (ld : LineDiscipline) : Option (LineDiscipline × List LdEvent) :=
  if ld.valid ≠ 1 then some (ld, [])
  else if ld.mode = LINE_DISCIPLINE_MODE_CANONICAL then
    let total := ld.tail - ld.head + ld.size
    let count := total.tmod ld.size
    if INT_MAX < total then none
    else if 0 < count ∧ (ld.head < 0 ∨ ld.size < ld.head + count) then none
    else some ({ ld with head := ld.tail },
      [.flush ((List.range count.toNat).map fun i => ld.buffer (ld.head.toNat + i))])
  else some (ld, [])

def runAction (ld : LineDiscipline) : LdAction → Option (LineDiscipline × List LdEvent)
  | .erase => some (ld.deleteLast, [])
  | .cret => ld.forceFlush
  | _ => some (ld, [])

/-- The loop over `inserti`. -/
def insertAll (ld : LineDiscipline) : List Byte → Option LineDiscipline
  | [] => some ld
  | c :: cs => (ld.insert c).bind fun ld => ld.insertAll cs

/-- A character that goes into the line, as a signed `char`. -/
def Inserts (c : Byte) : Prop := c ≠ LD_DEL ∧ (c.toInt < 0 ∨ 27 < c.toInt)

instance (c : Byte) : Decidable (Inserts c) := inferInstanceAs (Decidable (_ ∧ _))

/-- Whether the characters are echoed. -/
def Echoes (ld : LineDiscipline) : Prop :=
  ld.echo = LINE_DISCIPLINE_MODE_ECHO_ON ∧ ld.echoCb = true

instance (ld : LineDiscipline) : Decidable ld.Echoes := inferInstanceAs (Decidable (_ ∧ _))

/-- `line_discipline_apply`. For DEL the echo callback is called without a test;
`none` is the call through a null pointer. -/
def apply (ld : LineDiscipline) (c : Byte) : Option (LineDiscipline × List LdEvent) :=
  if ld.valid ≠ 1 then some (ld, [])
  else if Inserts c then
    (ld.insert c).map fun ld' => (ld', if ld.Echoes then [.echo c] else [])
  else if c = LD_DEL then
    if ld.echoCb then
      some (ld.deleteLast, [.echo LD_BACKSPACE, .echo space, .echo LD_BACKSPACE])
    else none
  else
    let entry := defaultLdTable.getD c.toNat (plain .ignore)
    (ld.insertAll entry.inserti).bind fun ld =>
      (ld.runAction entry.action).map fun r =>
        (r.1, (if ld.Echoes then (entry.output.takeWhile (· ≠ LD_NULL)).map .echo else []) ++ r.2)

/-- `line_discipline_read`. -/
def read (ld : LineDiscipline) (c : Byte) : Option (LineDiscipline × List LdEvent) :=
  if ld.valid ≠ 1 then some (ld, [])
  else if ld.mode = LINE_DISCIPLINE_MODE_RAW then
    some (ld, (if ld.Echoes then [.echo c] else []) ++ [.flush [c]])
  else if ld.mode = LINE_DISCIPLINE_MODE_CANONICAL then ld.apply c
  else some (ld, [])

end LineDiscipline
end Tty
