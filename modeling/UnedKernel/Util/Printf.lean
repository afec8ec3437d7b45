import UnedKernel.Util.Strtoull

/-! # Formatted output

`_vsnprintf` of `printf.c`. A format is read into its directives, and what they
give goes out character by character under the size of the buffer. The functions
return the characters that they hand to `out`, whose index is their number. What
`_ftoa` and `_etoa` make of a `double` is a parameter. -/

namespace Util
open ByteMem CString Word

/-! ## Directives -/

def PRINTF_NTOA_BUFFER_SIZE : Nat := 32

/-- The internal flags, `FLAGS_ZEROPAD` to `FLAGS_ADAPT_EXP`. -/
structure Flags where
  zeropad : Bool := false
  left : Bool := false
  plus : Bool := false
  space : Bool := false
  hash : Bool := false
  uppercase : Bool := false
  char : Bool := false
  short : Bool := false
  long : Bool := false
  longLong : Bool := false
  precision : Bool := false
  adaptExp : Bool := false
  deriving DecidableEq

/-- An argument of the list: a word, or the string that it points to. -/
inductive Arg
  | word (w : Nat)
  | text (s : List Byte)
  deriving DecidableEq

/-- The text of a `double`, which its word stands for, with the precision, the width and the flags. -/
structure Floats where
  ftoa : (value prec width : Nat) → Flags → List Byte
  etoa : (value prec width : Nat) → Flags → List Byte

/-- The value of a word as a signed number of `n` bits. -/
def signed (n w : Nat) : Int := (BitVec.ofNat n w).toInt

/-! ## Integers -/

/-- `_out_rev` on the characters of `buf`. -/
def outRev (buf : List Byte) (width : Nat) (flags : Flags) : List Byte :=
  let pad := List.replicate (width - buf.length) 0x20
  (if !flags.left && !flags.zeropad then pad else []) ++ buf.reverse ++ if flags.left then pad else []

/-- The loops that append zeros up to a length, which the buffer ends. -/
def padZeros (buf : List Byte) (n : Nat) : List Byte :=
  buf ++ List.replicate (min n PRINTF_NTOA_BUFFER_SIZE - buf.length) 0x30

/-- A store behind the characters, if the buffer has room. -/
def pushChar (buf : List Byte) (c : Byte) : List Byte :=
  if buf.length < PRINTF_NTOA_BUFFER_SIZE then buf ++ [c] else buf

/-- The branch for the hash: the last zeros make place for the prefix, which it does not check. -/
def formatHash (buf : List Byte) (base prec width : Nat) (flags : Flags) : List Byte :=
  let buf :=
    if !flags.precision && buf.length ≠ 0 && (buf.length = prec || buf.length = width) then
      let buf := buf.dropLast
      if buf.length ≠ 0 ∧ base = 16 then buf.dropLast else buf
    else buf
  let buf :=
    if base = 16 then pushChar buf (if flags.uppercase then 0x58 else 0x78)
    else if base = 2 then pushChar buf 0x62
    else buf
  pushChar buf 0x30

/-- `_ntoa_format` -/
def ntoaFormat (buf : List Byte) (negative : Bool) (base prec width : Nat) (flags : Flags) : List Byte :=
  let width :=
    if !flags.left && width ≠ 0 && flags.zeropad && (negative || flags.plus || flags.space) then width - 1
    else width
  let buf :=
    if flags.left then buf
    else
      let buf := padZeros buf prec
      if flags.zeropad then padZeros buf width else buf
  let buf := if flags.hash then formatHash buf base prec width flags else buf
  let buf :=
    if negative then pushChar buf 0x2d
    else if flags.plus then pushChar buf 0x2b
    else if flags.space then pushChar buf 0x20
    else buf
  outRev buf width flags

/-- The character of a digit. -/
def ntoaDigit (upper : Bool) (digit : Nat) : Byte :=
  BitVec.ofNat 8 (if digit < 10 then 0x30 + digit else (if upper then 0x41 else 0x61) + digit - 10)

/-- The loop over the digits, the last digit first. -/
def ntoaDigits (base : Nat) (upper : Bool) : (room : Nat) → (value : Nat) → List Byte
  | 0, _ => []
  | room + 1, value =>
    ntoaDigit upper (value % base) ::
      if value / base = 0 then [] else ntoaDigits base upper room (value / base)

/-- `_ntoa_long` and `_ntoa_long_long` -/
def ntoaLong (value : Nat) (negative : Bool) (base prec width : Nat) (flags : Flags) : List Byte :=
  let flags := if value = 0 then { flags with hash := false } else flags
  let buf :=
    if !flags.precision || value ≠ 0 then ntoaDigits base flags.uppercase PRINTF_NTOA_BUFFER_SIZE value
    else []
  ntoaFormat buf negative base prec width flags

/-- The absolute value that `d` and `i` hand on, and the sign. -/
def signedValue (flags : Flags) (w : Nat) : Int :=
  if flags.longLong || flags.long then signed 64 w
  else if flags.char then signed 8 w
  else if flags.short then signed 16 w
  else signed 32 w

def unsignedValue (flags : Flags) (w : Nat) : Nat :=
  if flags.longLong || flags.long then u64 w
  else if flags.char then w % 256
  else if flags.short then u16 w
  else u32 w

/-- The specifiers of an integer. -/
def IsInteger (c : Byte) : Prop := c ∈ ascii "diuxXob"

instance (c : Byte) : Decidable (IsInteger c) := inferInstanceAs (Decidable (_ ∈ _))

def integerBase (c : Byte) : Nat :=
  if c = 0x78 ∨ c = 0x58 then 16 else if c = 0x6f then 8 else if c = 0x62 then 2 else 10

/-- The branch for an integer. -/
def formatInteger (c : Byte) (flags : Flags) (width precision w : Nat) : List Byte :=
  let base := integerBase c
  let flags := if base = 10 then { flags with hash := false } else flags
  let flags := if c = 0x58 then { flags with uppercase := true } else flags
  let isSigned := c = 0x69 ∨ c = 0x64
  let flags := if isSigned then flags else { flags with plus := false, space := false }
  let flags := if flags.precision then { flags with zeropad := false } else flags
  if isSigned then
    let value := signedValue flags w
    ntoaLong value.natAbs (value < 0) base precision width flags
  else ntoaLong (unsignedValue flags w) false base precision width flags

/-! ## The other directives -/

/-- The branch for a character. -/
def formatChar (flags : Flags) (width w : Nat) : List Byte :=
  let pad := List.replicate (width - 1) 0x20
  (if flags.left then [] else pad) ++ [BitVec.ofNat 8 w] ++ if flags.left then pad else []

/-- The branch for a string. -/
def formatString (flags : Flags) (width precision : Nat) (p : List Byte) : List Byte :=
  let l := u32 (if precision = 0 then p.length else min p.length precision)
  let l := if flags.precision then min l precision else l
  let pad := List.replicate (width - l) 0x20
  (if flags.left then [] else pad) ++ (if flags.precision then p.take precision else p) ++
    if flags.left then pad else []

/-- The specifiers of a `double`. -/
def IsFloat (c : Byte) : Prop := c ∈ ascii "fFeEgG"

instance (c : Byte) : Decidable (IsFloat c) := inferInstanceAs (Decidable (_ ∈ _))

def formatFloat (floats : Floats) (c : Byte) (flags : Flags) (width precision w : Nat) : List Byte :=
  let flags := if c = 0x67 ∨ c = 0x47 then { flags with adaptExp := true } else flags
  let flags := if c = 0x46 ∨ c = 0x45 ∨ c = 0x47 then { flags with uppercase := true } else flags
  if c = 0x66 ∨ c = 0x46 then floats.ftoa w precision width flags else floats.etoa w precision width flags

/-- The `switch` over the specifier. `none` is an argument that is not there or not of the type. -/
def formatSpecifier (floats : Floats) (c : Byte) (flags : Flags) (width precision : Nat) (va : List Arg) :
    Option (List Byte × List Arg) :=
  if IsInteger c then
    match va with
    | .word w :: va => some (formatInteger c flags width precision w, va)
    | _ => none
  else if IsFloat c then
    match va with
    | .word w :: va => some (formatFloat floats c flags width precision w, va)
    | _ => none
  else if c = 0x63 then
    match va with
    | .word w :: va => some (formatChar flags width w, va)
    | _ => none
  else if c = 0x73 then
    match va with
    | .text p :: va => some (formatString flags width precision p, va)
    | _ => none
  else if c = 0x70 then
    match va with
    | .word w :: va =>
      some (ntoaLong (u64 w) false 16 precision 16 { flags with zeropad := true, uppercase := true }, va)
    | _ => none
  else some ([c], va)

/-! ## The parser of a directive -/

/-- What a character of the flags sets. -/
def setFlag (flags : Flags) (c : Byte) : Option Flags :=
  if c = 0x30 then some { flags with zeropad := true }
  else if c = 0x2d then some { flags with left := true }
  else if c = 0x2b then some { flags with plus := true }
  else if c = 0x20 then some { flags with space := true }
  else if c = 0x23 then some { flags with hash := true }
  else none

/-- The loop over the flags. -/
def parseFlags : (flags : Flags) → (format : List Byte) → Flags × List Byte
  | flags, [] => (flags, [])
  | flags, c :: format =>
    match setFlag flags c with
    | some flags => parseFlags flags format
    | none => (flags, c :: format)

/-- `_is_digit` -/
def isDigit (ch : Byte) : Bool := 0x30 ≤ ch.toInt ∧ ch.toInt ≤ 0x39

/-- `_atoi`, which moves the string along. -/
def atoiDigits : (i : Nat) → (str : List Byte) → Nat × List Byte
  | i, [] => (i, [])
  | i, c :: str =>
    if isDigit c then atoiDigits (u32 (i * 10 + (c.toInt - 0x30).toNat)) str else (i, c :: str)

/-- The width field. A star takes an argument. -/
def parseWidth (flags : Flags) (format : List Byte) (va : List Arg) :
    Option (Flags × Nat × List Byte × List Arg) :=
  match format with
  | [] => some (flags, 0, [], va)
  | c :: rest =>
    if isDigit c then
      let (width, format) := atoiDigits 0 format
      some (flags, width, format, va)
    else if c = 0x2a then
      match va with
      | .word w :: va =>
        if signed 32 w < 0 then some ({ flags with left := true }, (signed 32 w).natAbs, rest, va)
        else some (flags, (signed 32 w).toNat, rest, va)
      | _ => none
    else some (flags, 0, format, va)

/-- The precision field. -/
def parsePrecision (flags : Flags) (format : List Byte) (va : List Arg) :
    Option (Flags × Nat × List Byte × List Arg) :=
  match format with
  | [] => some (flags, 0, [], va)
  | c :: rest =>
    if c = 0x2e then
      let flags := { flags with precision := true }
      match rest with
      | [] => some (flags, 0, [], va)
      | d :: rest' =>
        if isDigit d then
          let (precision, format) := atoiDigits 0 rest
          some (flags, precision, format, va)
        else if d = 0x2a then
          match va with
          | .word w :: va => some (flags, (signed 32 w).toNat, rest', va)
          | _ => none
        else some (flags, 0, rest, va)
    else some (flags, 0, format, va)

/-- The length field. -/
def parseLength (flags : Flags) : (format : List Byte) → Flags × List Byte
  | [] => (flags, [])
  | c :: format =>
    if c = 0x6c then
      if format.head? = some 0x6c then ({ flags with long := true, longLong := true }, format.tail)
      else ({ flags with long := true }, format)
    else if c = 0x68 then
      if format.head? = some 0x68 then ({ flags with short := true, char := true }, format.tail)
      else ({ flags with short := true }, format)
    else if c = 0x74 ∨ c = 0x6a ∨ c = 0x7a then ({ flags with long := true }, format)
    else (flags, c :: format)

/-- A directive behind its `%`. `none` too is a format that ends in it, behind which the loop reads on. -/
def formatDirective (floats : Floats) (format : List Byte) (va : List Arg) :
    Option (List Byte × List Byte × List Arg) :=
  let (flags, format) := parseFlags {} format
  (parseWidth flags format va).bind fun (flags, width, format, va) =>
  (parsePrecision flags format va).bind fun (flags, precision, format, va) =>
  let (flags, format) := parseLength flags format
  match format with
  | [] => none
  | c :: format =>
    (formatSpecifier floats c flags width precision va).map fun (text, va) => (text, format, va)

/-! ## `_vsnprintf` -/

/-- The loop over the format. -/
def formatLoop (floats : Floats) : (fuel : Nat) → (format : List Byte) → List Arg → Option (List Byte)
  | _, [], _ => some []
  | 0, _ :: _, _ => none
  | fuel + 1, c :: format, va =>
    if c ≠ 0x25 then (formatLoop floats fuel format va).map (c :: ·)
    else
      (formatDirective floats format va).bind fun (text, format, va) =>
        (formatLoop floats fuel format va).map (text ++ ·)

/-- The text of a format, which has no more rounds than characters. -/
def formatText (floats : Floats) (format : List Byte) (va : List Arg) : Option (List Byte) :=
  formatLoop floats format.length format va

/-- `_out_buffer` -/
def outBuffer (character : Byte) (m : Bytes) (buffer idx maxlen : Nat) : Bytes :=
  if idx < maxlen then Function.update m (buffer + idx) character else m

/-- The text goes out. -/
def outText (buffer maxlen : Nat) : (m : Bytes) → (idx : Nat) → (text : List Byte) → Bytes × Nat
  | m, idx, [] => (m, idx)
  | m, idx, c :: text => outText buffer maxlen (outBuffer c m buffer idx maxlen) (u64 (idx + 1)) text

/-- `_vsnprintf` with `_out_buffer`, and with `_out_null` for no buffer. -/
def vsnprintf (floats : Floats) (m : Bytes) (buffer maxlen : Nat) (format : List Byte) (va : List Arg) :
    Option (Bytes × Int) :=
  (formatText floats format va).map fun text =>
    if buffer = 0 then (m, signed 32 text.length)
    else
      let (m, idx) := outText buffer maxlen m 0 text
      (outBuffer 0 m buffer (if idx < maxlen then idx else sub64 maxlen 1) maxlen, signed 32 idx)

/-! ## What a format stands for -/

/-- The number of a width or of a precision. -/
inductive Field
  | none
  | digits (t : List Byte) (hne : t ≠ []) (hdigit : ∀ c ∈ t, isDigit c = true)
  | star

inductive Length
  | none | l | ll | h | hh | t | j | z
  deriving DecidableEq

def specifiers : List Byte := ascii "diuxXobfFeEgGcsp%"

/-- A directive that is written out in full: its width is no flag, and its specifier is one of those known. -/
structure Directive where
  flags : List Byte
  width : Field
  precision : Option Field
  length : Length
  specifier : Byte
  flags_mem : ∀ c ∈ flags, c ∈ ascii "0-+ #"
  width_head : ∀ t hne hdigit, width = .digits t hne hdigit → t.head? ≠ some 0x30
  specifier_mem : specifier ∈ specifiers

/-- A format is made of characters and directives. -/
inductive Piece
  | literal (c : Byte) (h : c ≠ 0x25)
  | directive (d : Directive)

namespace Field

def spell : Field → List Byte
  | none => []
  | digits t _ _ => t
  | star => [0x2a]

/-- The number, and the arguments behind it. -/
def value : Field → List Arg → Option (Int × List Arg)
  | none, va => some (0, va)
  | digits t _ _, va => some (u32 (horner 10 0 (t.map fun c => (c.toInt - 0x30).toNat)), va)
  | star, .word w :: va => some (signed 32 w, va)
  | star, _ => Option.none

end Field

def Length.spell : Length → List Byte
  | none => []
  | l => ascii "l"
  | ll => ascii "ll"
  | h => ascii "h"
  | hh => ascii "hh"
  | t => ascii "t"
  | j => ascii "j"
  | z => ascii "z"

namespace Directive

variable (d : Directive)

/-- What is written behind the `%`. -/
def spell : List Byte :=
  d.flags ++ (d.width.spell ++ (d.precision.elim [] (fun p => 0x2e :: p.spell) ++
    (d.length.spell ++ [d.specifier])))

/-- The flags of a directive whose width is given from outside as `w`. -/
def flagsOf (w : Int) : Flags where
  zeropad := d.flags.contains 0x30
  left := d.flags.contains 0x2d || w < 0
  plus := d.flags.contains 0x2b
  space := d.flags.contains 0x20
  hash := d.flags.contains 0x23
  char := d.length = .hh
  short := d.length = .h ∨ d.length = .hh
  long := d.length ∉ [.none, .h, .hh]
  longLong := d.length = .ll
  precision := d.precision.isSome

/-- The text of a directive, and the arguments that it leaves. -/
def text (floats : Floats) (va : List Arg) : Option (List Byte × List Arg) :=
  (d.width.value va).bind fun (w, va) =>
  ((d.precision.getD .none).value va).bind fun (p, va) =>
  formatSpecifier floats d.specifier (d.flagsOf w) w.natAbs p.toNat va

end Directive

namespace Piece

def spell : Piece → List Byte
  | literal c _ => [c]
  | directive d => 0x25 :: d.spell

def text (floats : Floats) : Piece → List Arg → Option (List Byte × List Arg)
  | literal c _, va => some ([c], va)
  | directive d, va => d.text floats va

end Piece

/-- The texts of the pieces, each with the arguments that the one before it leaves. -/
def piecesText (floats : Floats) : List Piece → List Arg → Option (List Byte)
  | [], _ => some []
  | p :: ps, va =>
    (p.text floats va).bind fun (text, va) => (piecesText floats ps va).map (text ++ ·)

/-! ## The stages of the parser -/

section stages

/-- The string begins with one of the characters. -/
def HeadIn (B s : List Byte) : Prop := ∃ c t, s = c :: t ∧ c ∈ B

variable {B C s t rest : List Byte} {c : Byte} {flags : Flags} {va : List Arg} {d : Directive}

theorem HeadIn.mono (h : HeadIn B s) (hsub : B ⊆ C) : HeadIn C s := by
  obtain ⟨c, t, rfl, hc⟩ := h
  exact ⟨c, t, rfl, hsub hc⟩

/-- The flags that the characters set above those that are set. -/
def withFlags (flags : Flags) (fs : List Byte) : Flags :=
  { flags with
    zeropad := flags.zeropad || fs.contains 0x30
    left := flags.left || fs.contains 0x2d
    plus := flags.plus || fs.contains 0x2b
    space := flags.space || fs.contains 0x20
    hash := flags.hash || fs.contains 0x23 }

theorem setFlag_mem (flags : Flags) (hc : c ∈ ascii "0-+ #") (fs : List Byte) :
    ∃ next, setFlag flags c = some next ∧ withFlags next fs = withFlags flags (c :: fs) := by
  have hcases : c = 0x30 ∨ c = 0x2d ∨ c = 0x2b ∨ c = 0x20 ∨ c = 0x23 := by
    simpa [ascii] using hc
  rcases hcases with rfl | rfl | rfl | rfl | rfl
  all_goals exact ⟨_, rfl, by simp [withFlags]⟩

theorem parseFlags_append (hfs : ∀ c ∈ s, c ∈ ascii "0-+ #") (hrest : HeadIn B rest)
    (hB : ∀ c ∈ B, ∀ flags, setFlag flags c = none) :
    parseFlags flags (s ++ rest) = (withFlags flags s, rest) := by
  induction s generalizing flags with
  | nil =>
    obtain ⟨c, t, rfl, hc⟩ := hrest
    simp [parseFlags, hB c hc, withFlags]
  | cons c s ih =>
    obtain ⟨next, hset, hwith⟩ := setFlag_mem flags (hfs c List.mem_cons_self) s
    rw [List.cons_append, parseFlags, hset, ← hwith]
    exact ih fun c hc => hfs c (List.mem_cons_of_mem _ hc)

theorem atoiDigits_append (x : Nat) (hs : ∀ c ∈ s, isDigit c = true) (hrest : HeadIn B rest)
    (hB : ∀ c ∈ B, isDigit c = false) :
    atoiDigits (u32 x) (s ++ rest) =
      (u32 (horner 10 x (s.map fun c => (c.toInt - 0x30).toNat)), rest) := by
  induction s generalizing x with
  | nil =>
    obtain ⟨c, t, rfl, hc⟩ := hrest
    rw [List.nil_append, atoiDigits, if_neg (by simp [hB c hc])]
    rfl
  | cons c s ih =>
    have hstep : u32 (u32 x * 10 + (c.toInt - 0x30).toNat) = u32 (x * 10 + (c.toInt - 0x30).toNat) := by
      unfold u32
      omega
    rw [List.cons_append, atoiDigits, if_pos (hs c List.mem_cons_self), hstep,
      ih _ fun c hc => hs c (List.mem_cons_of_mem _ hc)]
    rfl

/-- The heads of what stands behind the width, the precision and the flags. -/
def lengthHeads : List Byte := ascii "lhtjz" ++ specifiers

def precisionHeads : List Byte := 0x2e :: lengthHeads

def widthHeads : List Byte := ascii "123456789*" ++ precisionHeads

theorem headIn_length (l : Length) (hc : c ∈ specifiers) :
    HeadIn lengthHeads (l.spell ++ c :: rest) := by
  have hletter {b : Byte} {t : List Byte} (hb : b ∈ ascii "lhtjz") : HeadIn lengthHeads (b :: t) :=
    ⟨b, t, rfl, List.mem_append_left _ hb⟩
  cases l with
  | none => exact ⟨c, rest, rfl, List.mem_append_right _ hc⟩
  | l => exact hletter (by decide)
  | ll => exact hletter (by decide)
  | h => exact hletter (by decide)
  | hh => exact hletter (by decide)
  | t => exact hletter (by decide)
  | j => exact hletter (by decide)
  | z => exact hletter (by decide)

theorem headIn_precision (p : Option Field) (hrest : HeadIn lengthHeads rest) :
    HeadIn precisionHeads (p.elim [] (fun p => 0x2e :: p.spell) ++ rest) := by
  cases p with
  | none => exact hrest.mono fun c hc => List.mem_cons_of_mem _ hc
  | some p => exact ⟨_, _, rfl, List.mem_cons_self⟩

theorem mem_digits (h : isDigit c = true) (hne : c ≠ 0x30) : c ∈ ascii "123456789*" := by
  have hall : ∀ c : Byte, isDigit c = true → c ≠ 0x30 → c ∈ ascii "123456789*" := by decide +kernel
  exact hall c h hne

theorem headIn_width (f : Field) (hhead : ∀ t hne hdigit, f = .digits t hne hdigit → t.head? ≠ some 0x30)
    (hrest : HeadIn precisionHeads rest) : HeadIn widthHeads (f.spell ++ rest) := by
  cases f with
  | none => exact hrest.mono fun c hc => List.mem_append_right _ hc
  | star => exact ⟨_, _, rfl, by decide⟩
  | digits t hne hdigit =>
    obtain ⟨c, t, rfl⟩ := List.exists_cons_of_ne_nil hne
    have hzero : c ≠ 0x30 := fun heq => hhead _ _ _ rfl (congrArg some heq)
    exact ⟨c, t ++ rest, rfl, List.mem_append_left _ (mem_digits (hdigit c List.mem_cons_self) hzero)⟩

theorem parseWidth_spell (f : Field) (hrest : HeadIn precisionHeads rest) :
    parseWidth flags (f.spell ++ rest) va = (f.value va).map fun (w, va) =>
      ({ flags with left := flags.left || decide (w < 0) }, w.natAbs, rest, va) := by
  have hB : ∀ c ∈ precisionHeads, isDigit c = false ∧ c ≠ 0x2a := by decide +kernel
  cases f with
  | none =>
    obtain ⟨c, t, rfl, hc⟩ := hrest
    obtain ⟨hdigit, hstar⟩ := hB c hc
    simp only [Field.spell, List.nil_append, parseWidth, Field.value, Option.map_some]
    rw [if_neg (by simp [hdigit]), if_neg hstar]
    simp
  | star =>
    rcases va with _ | ⟨w | s, va⟩
    · rfl
    · show (if signed 32 w < 0 then some ({ flags with left := true }, (signed 32 w).natAbs, rest, va)
        else some (flags, (signed 32 w).toNat, rest, va)) = _
      by_cases hneg : signed 32 w < 0
      · simp [hneg, Field.value]
      · have habs : (signed 32 w).toNat = (signed 32 w).natAbs := by omega
        simp [hneg, habs, Field.value]
    · rfl
  | digits t hne hdigit =>
    obtain ⟨c, t, rfl⟩ := List.exists_cons_of_ne_nil hne
    have hnum := atoiDigits_append (B := precisionHeads) 0 hdigit hrest fun c hc => (hB c hc).1
    simp only [Field.spell, List.cons_append, parseWidth]
    rw [if_pos (hdigit c List.mem_cons_self), ← List.cons_append, show atoiDigits 0 _ = _ from hnum]
    simp only [Field.value, Option.map_some, Int.natAbs_natCast]
    rw [decide_eq_false (by omega), Bool.or_false]

theorem parsePrecision_spell (p : Option Field) (hrest : HeadIn lengthHeads rest) :
    parsePrecision flags (p.elim [] (fun p => 0x2e :: p.spell) ++ rest) va =
      ((p.getD .none).value va).map fun (n, va) =>
        ({ flags with precision := flags.precision || p.isSome }, n.toNat, rest, va) := by
  have hB : ∀ c ∈ lengthHeads, isDigit c = false ∧ c ≠ 0x2a ∧ c ≠ 0x2e := by decide +kernel
  rcases p with _ | f
  · obtain ⟨c, t, rfl, hc⟩ := hrest
    obtain ⟨-, -, hdot⟩ := hB c hc
    simp only [Option.elim_none, List.nil_append, parsePrecision, Option.getD_none, Field.value,
      Option.map_some]
    rw [if_neg hdot]
    simp
  · cases f with
    | none =>
      obtain ⟨c, t, rfl, hc⟩ := hrest
      obtain ⟨hdigit, hstar, -⟩ := hB c hc
      simp only [Option.elim_some, Field.spell, List.cons_append, List.nil_append, parsePrecision,
        Option.getD_some, Field.value, Option.map_some]
      rw [if_pos trivial, if_neg (by simp [hdigit]), if_neg hstar]
      simp
    | star =>
      rcases va with _ | ⟨w | s, va⟩
      · rfl
      · show some ({ flags with precision := true }, (signed 32 w).toNat, rest, va) = _
        simp [Field.value]
      · rfl
    | digits t hne hdigit =>
      obtain ⟨c, t, rfl⟩ := List.exists_cons_of_ne_nil hne
      have hnum := atoiDigits_append (B := lengthHeads) 0 hdigit hrest fun c hc => (hB c hc).1
      simp only [Option.elim_some, Field.spell, List.cons_append, parsePrecision]
      rw [if_pos trivial, if_pos (hdigit c List.mem_cons_self), ← List.cons_append,
        show atoiDigits 0 _ = _ from hnum]
      simp [Field.value]

/-- The flags that a length sets. -/
def withLength (flags : Flags) (l : Length) : Flags :=
  { flags with
    char := flags.char || decide (l = .hh)
    short := flags.short || decide (l = .h ∨ l = .hh)
    long := flags.long || decide (l ∉ [.none, .h, .hh])
    longLong := flags.longLong || decide (l = .ll) }

theorem parseLength_spell (l : Length) (hc : c ∈ specifiers) :
    parseLength flags (l.spell ++ c :: rest) = (withLength flags l, c :: rest) := by
  have hB : ∀ c ∈ specifiers, c ≠ 0x6c#8 ∧ c ≠ 0x68#8 ∧ c ≠ 0x74#8 ∧ c ≠ 0x6a#8 ∧ c ≠ 0x7a#8 := by
    decide +kernel
  obtain ⟨hl, hh, ht, hj, hz⟩ := hB c hc
  cases l <;> simp [Length.spell, ascii, parseLength, withLength, *]

/-- A directive that is written out is read as what it stands for. -/
theorem formatDirective_spell (floats : Floats) :
    formatDirective floats (d.spell ++ rest) va = (d.text floats va).map fun (text, va) => (text, rest, va) := by
  have hlength : HeadIn lengthHeads (d.length.spell ++ d.specifier :: rest) :=
    headIn_length d.length d.specifier_mem
  have hprecision := headIn_precision d.precision hlength
  have hwidth := headIn_width d.width d.width_head hprecision
  have hnone : ∀ c ∈ widthHeads, ∀ flags, setFlag flags c = none := by
    have hall : ∀ c ∈ widthHeads, c ≠ 0x30#8 ∧ c ≠ 0x2d#8 ∧ c ≠ 0x2b#8 ∧ c ≠ 0x20#8 ∧ c ≠ 0x23#8 :=
      by decide +kernel
    intro c hc flags
    obtain ⟨h0, h1, h2, h3, h4⟩ := hall c hc
    simp [setFlag, h0, h1, h2, h3, h4]
  have hspell : d.spell ++ rest = d.flags ++ (d.width.spell ++
      (d.precision.elim [] (fun p => 0x2e :: p.spell) ++ (d.length.spell ++ d.specifier :: rest))) := by
    simp [Directive.spell]
  unfold formatDirective
  rw [hspell, parseFlags_append d.flags_mem hwidth hnone]
  simp only
  rw [parseWidth_spell d.width hprecision]
  cases hw : d.width.value va with
  | none => simp [Directive.text, hw]
  | some wva =>
    obtain ⟨w, va⟩ := wva
    simp only [Option.map_some, Option.bind_some]
    rw [parsePrecision_spell d.precision hlength]
    cases hp : (d.precision.getD .none).value va with
    | none => simp [Directive.text, hw, hp]
    | some pva =>
      obtain ⟨p, va⟩ := pva
      simp only [Option.map_some, Option.bind_some]
      rw [parseLength_spell d.length d.specifier_mem]
      have hflags : withLength { withFlags {} d.flags with
          left := (withFlags {} d.flags).left || decide (w < 0)
          precision := (withFlags {} d.flags).precision || d.precision.isSome } d.length = d.flagsOf w := by
        simp [withLength, withFlags, Directive.flagsOf]
      simp only [hflags]
      simp [Directive.text, hw, hp]

end stages

/-! ## Whole formats -/

section formats

variable {floats : Floats} {m : Bytes} {va : List Arg} {text : List Byte} {buffer maxlen idx : Nat}

def spell (ps : List Piece) : List Byte := ps.flatMap Piece.spell

theorem formatLoop_spell {ps : List Piece} {fuel : Nat} (hfuel : (spell ps).length ≤ fuel) :
    formatLoop floats fuel (spell ps) va = piecesText floats ps va := by
  induction ps generalizing fuel va with
  | nil => cases fuel <;> rfl
  | cons p ps ih =>
    have hspell : spell (p :: ps) = p.spell ++ spell ps := rfl
    rw [hspell, List.length_append] at hfuel
    rw [hspell, piecesText]
    cases p with
    | literal c h =>
      obtain ⟨fuel, rfl⟩ := Nat.exists_eq_add_of_le' (show 1 ≤ fuel from
        Nat.le_trans (Nat.le_add_right 1 _) hfuel)
      have hrest : (spell ps).length ≤ fuel := by
        simp only [Piece.spell, List.length_singleton] at hfuel
        omega
      simp only [Piece.spell, List.singleton_append, formatLoop, Piece.text, Option.bind_some]
      rw [if_pos h, ih hrest]
    | directive d =>
      obtain ⟨fuel, rfl⟩ := Nat.exists_eq_add_of_le' (show 1 ≤ fuel by
        simp only [Piece.spell, List.length_cons] at hfuel
        omega)
      have hrest : (spell ps).length ≤ fuel := by
        simp only [Piece.spell, List.length_cons] at hfuel
        omega
      simp only [Piece.spell, List.cons_append, formatLoop, Piece.text]
      rw [if_neg (not_not_intro rfl), formatDirective_spell]
      cases d.text floats va with
      | none => rfl
      | some tva => simp only [Option.map_some, Option.bind_some, ih hrest]

/-- Each character goes to its place as long as there is room. -/
theorem outText_spec (buffer maxlen : Nat) (m : Bytes) (idx : Nat)
    (hidx : idx + text.length < 18446744073709551616) :
    (outText buffer maxlen m idx text).2 = idx + text.length ∧
      ∀ x, (outText buffer maxlen m idx text).1 x =
        if buffer + idx ≤ x ∧ x < buffer + min (idx + text.length) maxlen then text.getD (x - buffer - idx) 0
        else m x := by
  induction text generalizing m idx with
  | nil =>
    refine ⟨rfl, fun x => ?_⟩
    rw [if_neg (by simp only [List.length_nil]; omega)]
    rfl
  | cons c text ih =>
    rw [List.length_cons] at hidx ⊢
    have hnext : u64 (idx + 1) = idx + 1 := u64_of_lt (by omega)
    obtain ⟨hlen, hmem⟩ := ih (outBuffer c m buffer idx maxlen) (idx + 1) (by omega)
    rw [outText, hnext]
    refine ⟨by omega, fun x => ?_⟩
    rw [hmem x]
    by_cases hlater : buffer + (idx + 1) ≤ x ∧ x < buffer + min (idx + 1 + text.length) maxlen
    · rw [if_pos hlater, if_pos (by omega), show x - buffer - idx = x - buffer - (idx + 1) + 1 by omega,
        List.getD_cons_succ]
    · rw [if_neg hlater]
      by_cases hhere : x = buffer + idx ∧ idx < maxlen
      · obtain ⟨rfl, hroom⟩ := hhere
        rw [outBuffer, if_pos hroom, Function.update_self, if_pos (by omega),
          show buffer + idx - buffer - idx = 0 by omega]
        rfl
      · have hout : ¬ (buffer + idx ≤ x ∧ x < buffer + min (idx + (text.length + 1)) maxlen) := by omega
        rw [if_neg hout, outBuffer]
        split
        · exact Function.update_of_ne (by omega) _ _
        · rfl

/-- A format that is made of pieces gives their texts, each directive with the arguments that are left to
it, cut to the size of the buffer with a terminator behind; no other byte changes, and the length of
the whole text is returned. -/
theorem vsnprintf_pieces {ps : List Piece} (htext : piecesText floats ps va = some text)
    (hlen : text.length < 18446744073709551616) (hbuffer : buffer ≠ 0)
    (hmaxlen : maxlen < 18446744073709551616) :
    ∃ m', vsnprintf floats m buffer maxlen (spell ps) va = some (m', signed 32 text.length) ∧
      (0 < maxlen → Reads m' buffer (text.take (maxlen - 1))) ∧
      ∀ x, ¬ (buffer ≤ x ∧ x < buffer + min (text.length + 1) maxlen) → m' x = m x := by
  obtain ⟨hidx, hmem⟩ := outText_spec buffer maxlen m 0 (show 0 + text.length < _ by omega)
  rw [Nat.zero_add] at hidx
  simp only [Nat.zero_add, Nat.add_zero, Nat.sub_zero] at hmem
  have hlast (hpos : 0 < maxlen) : (if text.length < maxlen then text.length else sub64 maxlen 1) =
      min text.length (maxlen - 1) := by
    split
    · omega
    · rw [sub64_of_le hpos hmaxlen]
      omega
  refine ⟨outBuffer 0 (outText buffer maxlen m 0 text).1 buffer
    (if text.length < maxlen then text.length else sub64 maxlen 1) maxlen, ?_, ?_, ?_⟩
  · rw [vsnprintf, formatText, formatLoop_spell (Nat.le_refl _), htext, Option.map_some, if_neg hbuffer]
    simp only [hidx]
  · intro hpos i hi
    rw [List.length_take, Nat.min_comm] at hi
    rw [hlast hpos, outBuffer, if_pos (by omega)]
    by_cases hend : i = min text.length (maxlen - 1)
    · rw [hend, Function.update_self, List.getD_eq_getElem?_getD, List.getElem?_eq_none]
      · rfl
      · rw [List.length_take]
        omega
    · rw [Function.update_of_ne (by omega), hmem, if_pos (by omega), Nat.add_sub_cancel_left]
      simp only [List.getD_eq_getElem?_getD]
      rw [List.getElem?_take_of_lt (by omega)]
  · intro x hx
    have hkept : (outText buffer maxlen m 0 text).1 x = m x := by rw [hmem, if_neg (by omega)]
    by_cases hpos : 0 < maxlen
    · rw [hlast hpos, outBuffer, if_pos (by omega), Function.update_of_ne (by omega), hkept]
    · rw [outBuffer, if_neg (by omega), hkept]

/-- Of `%-5d!` five characters fit into a buffer of six. -/
theorem vsnprintf_pieces_cut :
    let width : Field := .digits [0x35] (by decide) (by decide)
    let d : Directive :=
      ⟨[0x2d], width, none, .none, 0x64, by decide, fun _ _ _ h => Field.digits.inj h ▸ by decide, by decide⟩
    let floats : Floats := ⟨fun _ _ _ _ => [], fun _ _ _ _ => []⟩
    let text := ascii "42   !"
    ∃ m', vsnprintf floats (fun _ => 0xff) 4096 6 (spell [.directive d, .literal 0x21 (by decide)]) [.word 42] =
        some (m', signed 32 text.length) ∧
      (0 < 6 → Reads m' 4096 (text.take (6 - 1))) ∧
      ∀ x, ¬ (4096 ≤ x ∧ x < 4096 + min (text.length + 1) 6) → m' x = 0xff :=
  vsnprintf_pieces (by decide +kernel) (by decide) (by decide) (by decide)

end formats

end Util
