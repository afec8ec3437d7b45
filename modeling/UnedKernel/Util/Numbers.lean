import Mathlib.Data.Nat.Digits.Lemmas
import UnedKernel.Lib.CString
import UnedKernel.Lib.Word

/-! # Numbers

`atou64` of `string.c`, with the character classes of `ctype.c`. The digits are
taken from the last on, under a multiplier that wraps; in front of them the
parser passes all that is no decimal digit. -/

namespace Util
open ByteMem CString Word

/-! ## `ctype.c` -/

def isspace (c : Int) : Bool := c = 0x20 ∨ c = 0x09

def isdigit (c : Int) : Bool := 0x30 ≤ c ∧ c ≤ 0x39

def isxdigit (c : Int) : Bool := isdigit c ∨ (0x61 ≤ c ∧ c ≤ 0x66) ∨ (0x41 ≤ c ∧ c ≤ 0x46)

/-! ## `atou64` -/

def STR_MAX_SIZE : Nat := 65536

/-- The loop over blanks, which the terminator at the end of the list ends too. -/
def skipBlanks (nptr : List Byte) : List Byte := nptr.dropWhile fun c => isspace c.toInt

/-- The base, and what is behind its prefix. -/
def baseOf (nptr : List Byte) : Nat × List Byte :=
  if ascii "0x" <+: nptr then (16, nptr.drop 2)
  else if ascii "0b" <+: nptr then (2, nptr.drop 2)
  else (10, nptr)

/-- The loop up to the first decimal digit. The terminator is none, and the loop goes on behind it. -/
def skipToDigit : List Byte → Option (List Byte)
  | [] => none
  | c :: nptr => if isdigit c.toInt then some (c :: nptr) else skipToDigit nptr

/-- The value of a character, in either case. -/
def digitOf (c : Byte) : Nat :=
  if isdigit c.toInt then (c.toInt - 0x30).toNat
  else if isxdigit c.toInt then
    if 0x61 ≤ c.toInt ∧ c.toInt ≤ 0x66 then (c.toInt - 0x61 + 10).toNat
    else if 0x41 ≤ c.toInt ∧ c.toInt ≤ 0x46 then (c.toInt - 0x41 + 10).toNat
    else 0
  else 0

/-- The loop over the characters, the last one first. -/
def accumulate (base : Nat) : List Byte → (result multiplier : Nat) → Nat
  | [], result, _ => result
  | c :: cs, result, multiplier =>
    accumulate base cs (u64 (result + u64 (digitOf c * multiplier))) (u64 (multiplier * base))

/-- `atou64` on the characters before the terminator. `none` is a read behind it. -/
def atou64 (nptr : List Byte) : Option Nat :=
  let (base, nptr) := baseOf (skipBlanks nptr)
  (skipToDigit nptr).map fun nptr =>
    accumulate base (nptr.take (strlen STR_MAX_SIZE nptr)).reverse 0 1

/-! ## Printed numbers -/

/-- The digits of a number from the last on, a zero for zero. -/
def numeral (base v : Nat) : List Nat := if v = 0 then [0] else Nat.digits base v

/-- The character is that digit, a letter of either case from ten on. -/
inductive DigitChar : Byte → Nat → Prop
  | decimal {c d} (hd : d < 10) (hc : c.toNat = 0x30 + d) : DigitChar c d
  | lower {c d} (hd : d < 6) (hc : c.toNat = 0x61 + d) : DigitChar c (10 + d)
  | upper {c d} (hd : d < 6) (hc : c.toNat = 0x41 + d) : DigitChar c (10 + d)

/-- The characters are the digits of the number, without leading zeros. -/
def Writes (base v : Nat) (t : List Byte) : Prop := List.Forall₂ DigitChar t (numeral base v).reverse

/-- The strings that a number is printed as. -/
inductive Denotes (v : Nat) : List Byte → Prop
  | decimal {t} (h : Writes 10 v t) : Denotes v t
  | hexadecimal {t} (h : Writes 16 v t) : Denotes v (ascii "0x" ++ t)
  | binary {t} (h : Writes 2 v t) : Denotes v (ascii "0b" ++ t)

/-- Behind a prefix `0x` stands a decimal digit. -/
def DigitFirst (s : List Byte) : Prop := ∀ c t, s = ascii "0x" ++ c :: t → isdigit c.toInt = true

/-! ## One digit -/

section digit

variable {c : Byte} {d n : Nat}

theorem toInt_eq (h : c.toNat = n) (hn : n < 128) : c.toInt = n := by
  rw [BitVec.toInt_eq_toNat_of_lt (by omega), h]

namespace DigitChar

theorem toInt_spec (h : DigitChar c d) : d < 10 ∧ c.toInt = 0x30 + d ∨
    10 ≤ d ∧ d < 16 ∧ (c.toInt = 0x57 + d ∨ c.toInt = 0x37 + d) := by
  cases h with
  | decimal hd hc =>
    have := toInt_eq hc (by omega)
    omega
  | lower hd hc =>
    have := toInt_eq hc (by omega)
    omega
  | upper hd hc =>
    have := toInt_eq hc (by omega)
    omega

theorem isdigit_iff (h : DigitChar c d) : isdigit c.toInt = true ↔ d < 10 := by
  have := h.toInt_spec
  simp only [isdigit, decide_eq_true_eq]
  omega

theorem isspace_eq_false (h : DigitChar c d) : isspace c.toInt = false := by
  have := h.toInt_spec
  simp only [isspace, decide_eq_false_iff_not]
  omega

theorem digitOf_eq (h : DigitChar c d) : digitOf c = d := by
  have hspec := h.toInt_spec
  unfold digitOf
  by_cases hd : d < 10
  · rw [if_pos (h.isdigit_iff.mpr hd)]
    omega
  · have hx : isxdigit c.toInt = true := by
      simp only [isxdigit, decide_eq_true_eq]
      omega
    rw [if_neg fun hdigit => hd (h.isdigit_iff.mp hdigit), if_pos hx]
    split_ifs <;> omega

end DigitChar

/-! ## The digits of a string -/

variable {base v m r : Nat} {s t u : List Byte}

/-- The number that the characters are in the base. -/
def valueOf (base : Nat) (t : List Byte) : Nat := Nat.ofDigits base (t.map digitOf).reverse

theorem valueOf_append : valueOf base (s ++ t) = valueOf base t + base ^ t.length * valueOf base s := by
  simp [valueOf, Nat.ofDigits_append]

theorem valueOf_cons : valueOf base (c :: t) = valueOf base t + base ^ t.length * digitOf c := by
  simp [valueOf, Nat.ofDigits_append, Nat.ofDigits_singleton]

theorem accumulate_lt (hr : r < 18446744073709551616) :
    accumulate base s r m < 18446744073709551616 := by
  induction s generalizing r m with
  | nil => exact hr
  | cons c s ih => exact ih (u64_lt _)

/-- The wrapping loop has the number modulo `2^64`. -/
theorem accumulate_modEq : accumulate base s r m ≡ r + m * Nat.ofDigits base (s.map digitOf)
    [MOD 18446744073709551616] := by
  induction s generalizing r m with
  | nil => exact Nat.ModEq.rfl
  | cons c s ih =>
    have hterm : u64 (r + u64 (digitOf c * m)) ≡ r + digitOf c * m [MOD 18446744073709551616] :=
      (Nat.mod_modEq _ _).trans ((Nat.mod_modEq _ _).add_left r)
    have hmult : u64 (m * base) ≡ m * base [MOD 18446744073709551616] := Nat.mod_modEq _ _
    calc accumulate base (c :: s) r m
      _ ≡ u64 (r + u64 (digitOf c * m)) + u64 (m * base) * Nat.ofDigits base (s.map digitOf)
          [MOD 18446744073709551616] := ih
      _ ≡ r + digitOf c * m + m * base * Nat.ofDigits base (s.map digitOf)
          [MOD 18446744073709551616] := hterm.add (hmult.mul_right _)
      _ = r + m * Nat.ofDigits base ((c :: s).map digitOf) := by
        rw [List.map_cons, Nat.ofDigits_cons]
        ring

theorem accumulate_eq (ht : t.length ≤ STR_MAX_SIZE) :
    accumulate base (t.take (strlen STR_MAX_SIZE t)).reverse 0 1 = u64 (valueOf base t) := by
  have hmod : accumulate base t.reverse 0 1 ≡ 0 + 1 * Nat.ofDigits base (t.reverse.map digitOf)
      [MOD 18446744073709551616] := accumulate_modEq
  rw [Nat.zero_add, Nat.one_mul, List.map_reverse] at hmod
  rw [strlen, Nat.min_eq_left ht, List.take_length, ← u64_of_lt (accumulate_lt (by decide))]
  exact hmod

end digit

/-! ## The digits of a number -/

section number

variable {base v d : Nat} {c : Byte} {s t u : List Byte}

theorem numeral_ne_nil : numeral base v ≠ [] := by
  unfold numeral
  split
  · exact List.cons_ne_nil 0 []
  · exact Nat.digits_ne_nil_iff_ne_zero.mpr ‹_›

theorem lt_of_mem_numeral (hbase : 1 < base) (hd : d ∈ numeral base v) : d < base := by
  unfold numeral at hd
  split at hd
  · rw [List.mem_singleton.mp hd]
    omega
  · exact Nat.digits_lt_base hbase hd

theorem length_numeral_le (hbase : 1 < base) (hv : v < 18446744073709551616) :
    (numeral base v).length ≤ 64 := by
  unfold numeral
  split
  · exact Nat.le_of_ble_eq_true rfl
  · rw [Nat.digits_length_le_iff hbase]
    calc v
      _ < 2 ^ 64 := hv
      _ ≤ base ^ 64 := Nat.pow_le_pow_left hbase 64

theorem ofDigits_numeral : Nat.ofDigits base (numeral base v) = v := by
  unfold numeral
  split
  · simp [*]
  · exact Nat.ofDigits_digits base v

namespace Writes

theorem ne_nil (h : Writes base v t) : t ≠ [] := by
  rintro rfl
  exact numeral_ne_nil (List.reverse_eq_nil_iff.mp (List.forall₂_nil_left_iff.mp h))

theorem length_le (h : Writes base v t) (hbase : 1 < base) (hv : v < 18446744073709551616) :
    t.length ≤ STR_MAX_SIZE := by
  have hlen := length_numeral_le hbase hv
  rw [h.length_eq, List.length_reverse]
  exact hlen.trans (by decide)

theorem digitChar (h : Writes base v t) (hbase : 1 < base) (hc : c ∈ t) :
    ∃ d, d < base ∧ DigitChar c d := by
  obtain ⟨i, hi, rfl⟩ := List.getElem_of_mem hc
  have hi' : i < (numeral base v).reverse.length := h.length_eq ▸ hi
  exact ⟨_, lt_of_mem_numeral hbase (List.mem_reverse.mp (List.getElem_mem hi')),
    List.Forall₂.get h hi hi'⟩

theorem valueOf_eq (h : Writes base v t) : valueOf base t = v := by
  have hmap : t.map digitOf = (numeral base v).reverse := by
    refine List.forall₂_eq_eq_eq ▸ List.forall₂_map_left_iff.mpr (h.imp fun c d hcd => hcd.digitOf_eq)
  rw [valueOf, hmap, List.reverse_reverse, ofDigits_numeral]

/-- Up to base ten all characters are decimal digits. -/
theorem isdigit (h : Writes base v t) (hbase : 1 < base) (hten : base ≤ 10) (hc : c ∈ t) :
    isdigit c.toInt = true := by
  obtain ⟨d, hd, hchar⟩ := h.digitChar hbase hc
  exact hchar.isdigit_iff.mpr (hd.trans_le hten)

theorem not_prefix {p : List Byte} (h : Writes base v t) (hbase : 1 < base) (hten : base ≤ 10)
    (hp : ∃ x ∈ p, Util.isdigit x.toInt = false) : ¬ p <+: t := by
  obtain ⟨x, hx, hfalse⟩ := hp
  intro hfront
  rw [h.isdigit hbase hten (hfront.subset hx)] at hfalse
  cases hfalse

end Writes

/-! ## The prefix -/

theorem skipBlanks_cons (hc : isspace c.toInt = false) : skipBlanks (c :: s) = c :: s :=
  List.dropWhile_cons_of_neg (by simp [hc])

theorem baseOf_hex : baseOf (skipBlanks (ascii "0x" ++ t)) = (16, t) := by
  have hskip : skipBlanks (ascii "0x" ++ t) = ascii "0x" ++ t := skipBlanks_cons (by decide)
  rw [hskip, baseOf, if_pos (List.prefix_append _ _)]
  rfl

theorem not_prefix_binary : ¬ ascii "0x" <+: ascii "0b" ++ t := by
  intro h
  exact absurd ((List.cons_prefix_cons.mp (List.cons_prefix_cons.mp h).2).1) (by decide)

theorem baseOf_binary : baseOf (skipBlanks (ascii "0b" ++ t)) = (2, t) := by
  have hskip : skipBlanks (ascii "0b" ++ t) = ascii "0b" ++ t := skipBlanks_cons (by decide)
  rw [hskip, baseOf, if_neg not_prefix_binary, if_pos (List.prefix_append _ _)]
  rfl

theorem baseOf_decimal (h : Writes 10 v t) : baseOf (skipBlanks t) = (10, t) := by
  have hx := h.not_prefix (by decide) (by decide) (p := ascii "0x") (by decide)
  have hb := h.not_prefix (by decide) (by decide) (p := ascii "0b") (by decide)
  obtain ⟨c, s, rfl⟩ := List.exists_cons_of_ne_nil h.ne_nil
  obtain ⟨d, -, hchar⟩ := h.digitChar (by decide) List.mem_cons_self
  rw [skipBlanks_cons hchar.isspace_eq_false, baseOf, if_neg hx, if_neg hb]

/-! ## The whole parser -/

theorem skipToDigit_suffix (h : skipToDigit s = some t) : t <:+ s := by
  induction s with
  | nil => cases h
  | cons c s ih =>
    unfold skipToDigit at h
    split at h
    · cases h
      exact List.suffix_rfl
    · exact (ih h).trans (List.suffix_cons c s)

theorem atou64_eq (hbase : baseOf (skipBlanks s) = (base, t)) (ht : t.length ≤ STR_MAX_SIZE) :
    atou64 s = (skipToDigit t).map fun u => u64 (valueOf base u) := by
  rw [atou64, hbase]
  cases hskip : skipToDigit t with
  | none => simp only [hskip, Option.map_none]
  | some u =>
    have hu : u.length ≤ STR_MAX_SIZE := (skipToDigit_suffix hskip).length_le.trans ht
    simp only [hskip, Option.map_some, accumulate_eq hu]

/-- Digits behind the prefix are parsed when the first of them is decimal. -/
theorem atou64_digit (hbase : baseOf (skipBlanks s) = (base, c :: t)) (h : Writes base v (c :: t))
    (hone : 1 < base) (hv : v < 18446744073709551616) (hc : isdigit c.toInt = true) :
    atou64 s = some v := by
  rw [atou64_eq hbase (h.length_le hone hv), skipToDigit, if_pos hc, Option.map_some, h.valueOf_eq,
    u64_of_lt hv]

/-- Letters in front are passed over, and what is left is less than the number, if there is a digit. -/
theorem atou64_letter (hbase : baseOf (skipBlanks s) = (base, c :: t)) (h : Writes base v (c :: t))
    (hone : 1 < base) (hv : v < 18446744073709551616) (hc : isdigit c.toInt = false) :
    ∀ x, atou64 s = some x → x < v := by
  intro x hx
  rw [atou64_eq hbase (h.length_le hone hv), skipToDigit, if_neg (by simp [hc])] at hx
  obtain ⟨u, hskip, rfl⟩ := Option.map_eq_some_iff.mp hx
  obtain ⟨w, hw⟩ := skipToDigit_suffix hskip
  obtain ⟨d, -, hchar⟩ := h.digitChar hone List.mem_cons_self
  have hd : 10 ≤ d := by
    by_contra hlt
    rw [hchar.isdigit_iff.mpr (Nat.lt_of_not_le hlt)] at hc
    cases hc
  have hpos : 0 < valueOf base (c :: w) := by
    rw [valueOf_cons, hchar.digitOf_eq]
    positivity
  have hvalue : v = valueOf base u + base ^ u.length * valueOf base (c :: w) := by
    rw [← h.valueOf_eq, ← hw, ← List.cons_append, valueOf_append]
  have hlost : 0 < base ^ u.length * valueOf base (c :: w) := by positivity
  calc u64 (valueOf base u)
    _ ≤ valueOf base u := Nat.mod_le _ _
    _ < v := by omega

end number

/-- A printed number is parsed back exactly when no letter stands behind the prefix `0x`. -/
theorem atou64_iff {v : Nat} {s : List Byte} (hv : v < 18446744073709551616) (hs : Denotes v s) :
    atou64 s = some v ↔ DigitFirst s := by
  cases hs with
  | decimal h =>
    have hx := h.not_prefix (by decide) (by decide) (p := ascii "0x") (by decide)
    obtain ⟨c, t, rfl⟩ := List.exists_cons_of_ne_nil h.ne_nil
    have hdigit := h.isdigit (by decide) (by decide) List.mem_cons_self
    refine iff_of_true (atou64_digit (baseOf_decimal h) h (by decide) hv hdigit) ?_
    intro d u heq
    exact absurd ⟨d :: u, heq.symm⟩ hx
  | hexadecimal h =>
    obtain ⟨c, t, rfl⟩ := List.exists_cons_of_ne_nil h.ne_nil
    constructor
    · intro hparsed d u heq
      have hd : c = d := (List.cons.inj (List.append_cancel_left heq)).1
      rw [← hd]
      by_contra hc
      exact Nat.lt_irrefl v (atou64_letter baseOf_hex h (by decide) hv (by simpa using hc) v hparsed)
    · intro hfirst
      exact atou64_digit baseOf_hex h (by decide) hv (hfirst c t rfl)
  | binary h =>
    obtain ⟨c, t, rfl⟩ := List.exists_cons_of_ne_nil h.ne_nil
    have hdigit := h.isdigit (by decide) (by decide) List.mem_cons_self
    refine iff_of_true (atou64_digit baseOf_binary h (by decide) hv hdigit) ?_
    intro d u heq
    have hfront : ascii "0x" <+: ascii "0b" ++ c :: t := ⟨d :: u, heq.symm⟩
    exact absurd hfront not_prefix_binary

theorem writes_1F : Writes 16 31 (ascii "1F") := by
  have hdigits : (numeral 16 31).reverse = [1, 10 + 5] := by simp [numeral]
  rw [Writes, hdigits]
  exact .cons (.decimal (by decide) (by decide)) (.cons (.upper (by decide) (by decide)) .nil)

theorem atou64_iff_1F :
    atou64 (ascii "0x" ++ ascii "1F") = some 31 ↔ DigitFirst (ascii "0x" ++ ascii "1F") :=
  atou64_iff (by decide) (.hexadecimal writes_1F)

/-- All digits of `0xff` are letters, and the parser reads behind the terminator. The number `0xA1`
comes out as one. -/
theorem not_parsed :
    Denotes 255 (ascii "0x" ++ ascii "ff") ∧ atou64 (ascii "0x" ++ ascii "ff") = none ∧
    Denotes 161 (ascii "0x" ++ ascii "A1") ∧ atou64 (ascii "0x" ++ ascii "A1") = some 1 := by
  have hff : (numeral 16 255).reverse = [10 + 5, 10 + 5] := by simp [numeral]
  have hA1 : (numeral 16 161).reverse = [10 + 0, 1] := by simp [numeral]
  have hwritesff : Writes 16 255 (ascii "ff") := by
    rw [Writes, hff]
    exact .cons (.lower (by decide) (by decide)) (.cons (.lower (by decide) (by decide)) .nil)
  have hwritesA1 : Writes 16 161 (ascii "A1") := by
    rw [Writes, hA1]
    exact .cons (.upper (by decide) (by decide)) (.cons (.decimal (by decide) (by decide)) .nil)
  exact ⟨.hexadecimal hwritesff, by decide, .hexadecimal hwritesA1, by decide⟩

end Util
