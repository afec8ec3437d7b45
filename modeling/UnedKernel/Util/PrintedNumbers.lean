import UnedKernel.Util.Printf

/-! # Printed numbers

What the directives for integers of `printf.c` write, as `strtoull` reads it in
their base. The flags, the width and the precision add blanks, zeros, signs and
prefixes; the reader takes all of them, but the writer loses a sign or digits
where its buffer ends and where it trims for a prefix. -/

namespace Util
open ByteMem CString Word

variable {base v a b prec width : Nat} {D buf : List Byte} {ds : List Nat} {flags : Flags}
  {sign : Option Bool} {negative : Bool}

/-! ## Reading -/

/-- The characters, the last one first, are digits with this value. -/
structure Valued (base v : Nat) (D : List Byte) (ds : List Nat) : Prop where
  digits : List.Forall₂ (DigitOf base) D ds
  value : Nat.ofDigits base ds = v

namespace Valued

theorem reverse (h : Valued base v D ds) : Digits base D.reverse ds.reverse :=
  List.forall₂_reverse_iff.mpr h.digits

theorem horner_eq (h : Valued base v D ds) : horner base 0 ds.reverse = v := by
  rw [Util.horner_eq, List.reverse_reverse, h.value]
  omega

/-- Zeros in front do not count. -/
theorem zeros (h : Valued base v D ds) (hbase : 0 < base) (z : Nat) :
    Valued base v (D ++ List.replicate z 0x30) (ds ++ List.replicate z 0) := by
  have hzero : List.Forall₂ (DigitOf base) (List.replicate z (0x30 : Byte)) (List.replicate z 0) := by
    induction z with
    | zero => exact .nil
    | succ z ih => exact .cons ⟨by decide, hbase⟩ ih
  refine ⟨List.rel_append h.digits hzero, ?_⟩
  rw [Nat.ofDigits_append_replicate_zero, h.value]

/-- The first digits that are taken are the rest of the value. -/
theorem take (h : Valued base v D ds) (hbase : 0 < base) (n : Nat) :
    Valued base (v % base ^ n) (D.take n) (ds.take n) := by
  refine ⟨List.forall₂_take n h.digits, ?_⟩
  have hlt : ∀ d ∈ ds, d < base := by
    intro d hd
    obtain ⟨i, hi, rfl⟩ := List.getElem_of_mem hd
    have hi' : i < D.length := h.digits.length_eq ▸ hi
    exact (List.Forall₂.get h.digits hi' hi).2
  rw [← Nat.ofDigits_mod_pow_eq_ofDigits_take n hbase ds hlt, h.value]

end Valued

theorem blank_of_replicate {c : Byte} (h : c ∈ List.replicate a (0x20 : Byte)) : c = 0x20 :=
  List.eq_of_mem_replicate h

/-- Blanks in front of another character are skipped. -/
theorem skipBlanks_replicate {c : Byte} {s : List Byte} (hc : isspace c.toInt = false) :
    skipBlanks (List.replicate a 0x20 ++ c :: s) = c :: s := by
  refine skipBlanks_append (fun c hc => ?_) fun d u heq => (List.cons.inj heq).1 ▸ hc
  rw [blank_of_replicate hc]
  decide

theorem ends_blanks (base : Nat) : Ends base (List.replicate b 0x20) := by
  intro c t d heq hd
  have hc : c = 0x20 := blank_of_replicate (a := b) (heq ▸ List.mem_cons_self)
  have hnone : digitValue 0x20 = none := by decide
  have hvalue := hd.1
  rw [hc, hnone] at hvalue
  cases hvalue

/-- Blanks and a sign are passed. Where no sign and no digit stands, the blanks behind are passed too. -/
theorem signOf_blanks (a b : Nat) (sign : Option Bool) (h : Valued base v D ds) : ∃ b',
    signOf (skipBlanks (List.replicate a 0x20 ++ (signText sign ++ (D.reverse ++ List.replicate b 0x20)))) =
      (decide (sign = some true), D.reverse ++ List.replicate b' 0x20) := by
  have hblank {n : Nat} : ∀ c ∈ List.replicate n (0x20 : Byte), isspace c.toInt = true := by
    intro c hc
    rw [blank_of_replicate hc]
    decide
  by_cases hempty : sign = none ∧ D = []
  · obtain ⟨rfl, rfl⟩ := hempty
    have hall : List.replicate a (0x20 : Byte) ++ (signText none ++ ([].reverse ++ List.replicate b 0x20)) =
        List.replicate (a + b) 0x20 ++ [] := by
      simp [signText]
    refine ⟨0, ?_⟩
    rw [hall, skipBlanks_append hblank fun c u heq => nomatch (show [] = c :: u from heq)]
    rfl
  · refine ⟨b, ?_⟩
    have hdigit : D ≠ [] → ∀ c u, D.reverse ++ List.replicate b 0x20 = c :: u →
        isspace c.toInt = false ∧ c ≠ 0x2d ∧ c ≠ 0x2b := by
      intro hne c u heq
      have hdigits := h.reverse
      obtain ⟨c', t, hrev⟩ := List.exists_cons_of_ne_nil (List.reverse_ne_nil_iff.mpr hne)
      rw [hrev] at hdigits heq
      obtain ⟨d, ds', hd, -, -⟩ := List.forall₂_cons_left_iff.mp hdigits
      exact (List.cons.inj heq).1 ▸ digitValue_spec hd.1
    cases sign with
    | none =>
      have hne : D ≠ [] := fun hnil => hempty ⟨rfl, hnil⟩
      have hskip : skipBlanks (List.replicate a 0x20 ++ (signText none ++
          (D.reverse ++ List.replicate b 0x20))) = signText none ++ (D.reverse ++ List.replicate b 0x20) :=
        skipBlanks_append hblank fun c u heq => (hdigit hne c u heq).1
      rw [hskip]
      exact signOf_sign none fun c u heq => (hdigit hne c u heq).2
    | some neg =>
      cases neg with
      | true =>
        show signOf (skipBlanks (_ ++ 0x2d :: _)) = _
        rw [skipBlanks_replicate (by decide)]
        rfl
      | false =>
        show signOf (skipBlanks (_ ++ 0x2b :: _)) = _
        rw [skipBlanks_replicate (by decide)]
        rfl

/-- Digits among blanks, with or without a sign. -/
theorem strtoull_number (a b : Nat) (sign : Option Bool) (h : Valued base v D ds) (hbase : 2 ≤ base ∧ base ≤ 33)
    (hv : v < 18446744073709551616) :
    (strtoull (List.replicate a 0x20 ++ (signText sign ++ (D.reverse ++ List.replicate b 0x20))) base).1 =
      if sign = some true then sub64 0 v else v := by
  obtain ⟨b', hsign⟩ := signOf_blanks a b sign h
  have hasks : Asks base base [] (D.reverse ++ List.replicate b' 0x20) :=
    .plain hbase.1 fun _ => h.reverse.not_hexPrefix hbase.2 fun c hc => blank_of_replicate hc
  have hasked := hasks.askedBase_eq
  rw [List.nil_append] at hasked
  rw [strtoull_fst hsign hasked (by omega) h.reverse (ends_blanks base), h.horner_eq,
    if_neg (by unfold ULLONG_MAX; omega)]
  simp only [decide_eq_true_eq]

/-- Digits behind the prefix of base 16. -/
theorem strtoull_hex {x : Byte} (h : Valued 16 v D ds) (hx : x = 0x78 ∨ x = 0x58)
    (hv : v < 18446744073709551616) :
    (strtoull (List.replicate a 0x20 ++ ([0x30, x] ++ (D.reverse ++ List.replicate b 0x20))) 16).1 = v := by
  have hp : [0x30, x] = ascii "0x" ∨ [0x30, x] = ascii "0X" := by
    rcases hx with rfl | rfl
    · exact .inl rfl
    · exact .inr rfl
  have hsign : signOf (skipBlanks (List.replicate a 0x20 ++ ([0x30, x] ++ (D.reverse ++ List.replicate b 0x20)))) =
      (false, [0x30, x] ++ (D.reverse ++ List.replicate b 0x20)) := by
    show signOf (skipBlanks (_ ++ 0x30 :: _)) = _
    rw [skipBlanks_replicate (by decide)]
    rfl
  have hasks : Asks 16 16 [0x30, x] (D.reverse ++ List.replicate b 0x20) := .hex (.inr rfl) hp
  rw [strtoull_fst hsign hasks.askedBase_eq (by decide) h.reverse (ends_blanks 16), h.horner_eq,
    if_neg (by unfold ULLONG_MAX; omega), if_neg nofun]

/-- A prefix without its zero is no number. -/
theorem strtoull_x {x : Byte} {s : List Byte} (hx : x = 0x78 ∨ x = 0x58) :
    (strtoull (List.replicate a 0x20 ++ (x :: s)) 16).1 = 0 := by
  have hhead : isspace x.toInt = false ∧ digitValue x = some 33 ∧ x ≠ 0x2d ∧ x ≠ 0x2b ∧ x ≠ 0x30 := by
    rcases hx with rfl | rfl <;> decide
  obtain ⟨hblank, hdigit, hminus, hplus, hzero⟩ := hhead
  have hsign : signOf (skipBlanks (List.replicate a 0x20 ++ (x :: s))) = (false, x :: s) := by
    rw [skipBlanks_replicate hblank]
    simp only [signOf, if_neg hminus, if_neg hplus]
  have hasks : Asks 16 16 [] (x :: s) :=
    .plain (by decide) fun _ => not_hexPrefix fun heq => hzero (Option.some.inj heq)
  have hends : Ends 16 (x :: s) := by
    intro c t d heq hd
    have hvalue := hd.1
    rw [← (List.cons.inj heq).1, hdigit] at hvalue
    exact absurd hd.2 (Option.some.inj hvalue ▸ by decide)
  exact strtoull_fst hsign hasks.askedBase_eq (by decide) .nil hends

/-! ## Writing -/

theorem outRev_eq (buf : List Byte) (width : Nat) (flags : Flags) : ∃ a b,
    outRev buf width flags = List.replicate a 0x20 ++ (buf.reverse ++ List.replicate b 0x20) := by
  refine ⟨if !flags.left && !flags.zeropad then width - buf.length else 0,
    if flags.left then width - buf.length else 0, ?_⟩
  rw [outRev, List.append_assoc]
  congr 1
  · split <;> rfl
  · congr 1
    split <;> rfl

/-- The width that is left of the one that is asked for, beside a sign. -/
def fieldWidth (flags : Flags) (negative : Bool) (width : Nat) : Nat :=
  if !flags.left && width ≠ 0 && flags.zeropad && (negative || flags.plus || flags.space) then width - 1
  else width

/-- The digits with the zeros in front of them. -/
def padded (flags : Flags) (prec width : Nat) (buf : List Byte) : List Byte :=
  if flags.left then buf
  else if flags.zeropad then padZeros (padZeros buf prec) width
  else padZeros buf prec

def pushSign (flags : Flags) (negative : Bool) (buf : List Byte) : List Byte :=
  if negative then pushChar buf 0x2d
  else if flags.plus then pushChar buf 0x2b
  else if flags.space then pushChar buf 0x20
  else buf

theorem ntoaFormat_eq : ntoaFormat buf negative base prec width flags =
    outRev (pushSign flags negative
      (if flags.hash then
        formatHash (padded flags prec (fieldWidth flags negative width) buf) base prec
          (fieldWidth flags negative width) flags
      else padded flags prec (fieldWidth flags negative width) buf))
      (fieldWidth flags negative width) flags := rfl

theorem length_padZeros (buf : List Byte) (n : Nat) : (padZeros buf n).length = max buf.length (min n 32) := by
  simp only [padZeros, PRINTF_NTOA_BUFFER_SIZE, List.length_append, List.length_replicate]
  omega

theorem length_padded (flags : Flags) (prec width : Nat) (buf : List Byte) :
    (padded flags prec width buf).length =
    if flags.left then buf.length
    else max buf.length (min 32 (max prec (if flags.zeropad then width else 0))) := by
  unfold padded
  split
  · rfl
  · split
    · rw [length_padZeros, length_padZeros]
      omega
    · rw [length_padZeros]
      omega

theorem Valued.padded (flags : Flags) (prec width : Nat) (h : Valued base v buf ds) (hbase : 0 < base) :
    ∃ ds', Valued base v (padded flags prec width buf) ds' := by
  unfold Util.padded
  split
  · exact ⟨_, h⟩
  · split
    · exact ⟨_, (h.zeros hbase _).zeros hbase _⟩
    · exact ⟨_, h.zeros hbase _⟩

/-- Without a prefix the number is read back, up to a sign that did not fit. -/
theorem strtoull_pushSign (h : Valued base v D ds) (hbase : 2 ≤ base ∧ base ≤ 33)
    (hv : v < 18446744073709551616) :
    (strtoull (outRev (pushSign flags negative D) width flags) base).1 =
      if negative ∧ D.length < 32 then sub64 0 v else v := by
  obtain ⟨a, b, htext⟩ := outRev_eq (pushSign flags negative D) width flags
  rw [htext]
  have hread (sign : Option Bool) (n : Nat) :=
    strtoull_number n b sign h hbase hv
  by_cases hroom : D.length < 32
  · have hpush (c : Byte) : (pushChar D c).reverse = c :: D.reverse := by
      rw [pushChar, PRINTF_NTOA_BUFFER_SIZE, if_pos hroom, List.reverse_append]
      rfl
    by_cases hneg : negative = true
    · rw [if_pos ⟨hneg, hroom⟩, pushSign, if_pos hneg, hpush]
      exact hread (some true) a
    · rw [if_neg fun hand => hneg hand.1, pushSign, if_neg hneg]
      by_cases hplus : flags.plus = true
      · rw [if_pos hplus, hpush]
        exact hread (some false) a
      · rw [if_neg hplus]
        by_cases hspace : flags.space = true
        · have hblank : List.replicate a (0x20 : Byte) ++ (0x20 :: D.reverse ++ List.replicate b 0x20) =
              List.replicate (a + 1) 0x20 ++ (signText none ++ (D.reverse ++ List.replicate b 0x20)) := by
            rw [List.replicate_succ', List.append_assoc]
            rfl
          rw [if_pos hspace, hpush, hblank]
          exact hread none (a + 1)
        · rw [if_neg hspace]
          exact hread none a
  · have hfull (c : Byte) : pushChar D c = D := if_neg hroom
    have hsame : pushSign flags negative D = D := by
      simp only [pushSign, hfull, ite_self]
    rw [hsame, if_neg fun hand => hroom hand.2]
    exact hread none a

/-! ## Prefixes -/

/-- The number of digits that the trimming leaves. -/
def trimmed (base width len : Nat) (flags : Flags) : Nat :=
  if flags.precision = false ∧ len = width then len - (if base = 16 then 2 else 1) else len

theorem formatHash_eq (hbase : base ≠ 2) (hprec : flags.precision = false → prec = 0) (hne : D ≠ []) :
    formatHash D base prec width flags =
      pushChar
        (if base = 16 then
          pushChar (D.take (trimmed base width D.length flags)) (if flags.uppercase then 0x58 else 0x78)
        else D.take (trimmed base width D.length flags)) 0x30 := by
  have hlen : D.length ≠ 0 := fun h => hne (List.length_eq_zero_iff.mp h)
  have htrim : (if !flags.precision && D.length ≠ 0 && (D.length = prec || D.length = width) then
      (if D.dropLast.length ≠ 0 ∧ base = 16 then D.dropLast.dropLast else D.dropLast) else D) =
      D.take (trimmed base width D.length flags) := by
    unfold trimmed
    by_cases hcut : flags.precision = false ∧ D.length = width
    · have hzero := hprec hcut.1
      rw [if_pos hcut, if_pos (by simp [hcut.1, hlen, decide_eq_true hcut.2])]
      rw [List.dropLast_eq_take, List.length_take]
      split
      · next hand =>
        rw [if_pos hand.2, List.dropLast_eq_take, List.take_take, List.length_take]
        congr 1
        omega
      · next hand =>
        congr 1
        split
        · next h16 =>
          have : min (D.length - 1) D.length = 0 := by
            by_contra hpos
            exact hand ⟨hpos, h16⟩
          omega
        · rfl
    · rw [if_neg hcut, List.take_length]
      refine if_neg fun hyes => hcut ?_
      simp only [Bool.and_eq_true, Bool.not_eq_true', decide_eq_true_eq, Bool.or_eq_true] at hyes
      obtain ⟨⟨hflag, -⟩, heq⟩ := hyes
      have := hprec hflag
      exact ⟨hflag, by omega⟩
  simp only [formatHash, htrim, if_neg hbase]

theorem trimmed_le (base width len : Nat) (flags : Flags) : trimmed base width len flags ≤ len := by
  unfold trimmed
  split
  · exact Nat.sub_le _ _
  · exact Nat.le_refl _

/-- With a prefix the digits are read back that the trimming leaves, but nothing where the prefix
ends the buffer before its zero. -/
theorem strtoull_formatHash (h : Valued base v D ds) (hbase : base = 8 ∨ base = 16)
    (hv : v < 18446744073709551616) (hprec : flags.precision = false → prec = 0) (hne : D ≠ []) :
    (strtoull (outRev (formatHash D base prec width flags) width flags) base).1 =
      if base = 16 ∧ trimmed base width D.length flags = 31 then 0
      else v % base ^ trimmed base width D.length flags := by
  obtain ⟨a, b, htext⟩ := outRev_eq (formatHash D base prec width flags) width flags
  rw [htext, formatHash_eq (by omega) hprec hne]
  have hle := trimmed_le base width D.length flags
  generalize trimmed base width D.length flags = m at hle ⊢
  have hlen : (D.take m).length = m := by
    rw [List.length_take]
    omega
  have hrest := h.take (by omega) m
  have hlt : v % base ^ m < 18446744073709551616 := Nat.lt_of_le_of_lt (Nat.mod_le _ _) hv
  rcases hbase with rfl | rfl
  · rw [if_neg (by decide), if_neg (by omega)]
    have hvalued : ∃ ds', Valued 8 (v % 8 ^ m) (pushChar (D.take m) 0x30) ds' := by
      unfold pushChar
      split
      · exact ⟨_, hrest.zeros (by decide) 1⟩
      · exact ⟨_, hrest⟩
    obtain ⟨ds', hvalued⟩ := hvalued
    exact (strtoull_number _ _ none hvalued (by decide) hlt).trans (if_neg nofun)
  · rw [if_pos rfl]
    have hx : (if flags.uppercase then 0x58 else 0x78 : Byte) = 0x78 ∨
        (if flags.uppercase then 0x58 else 0x78 : Byte) = 0x58 := by
      cases flags.uppercase
      · exact .inl rfl
      · exact .inr rfl
    generalize (if flags.uppercase then 0x58 else 0x78 : Byte) = x at hx ⊢
    have hpush (buf : List Byte) (c : Byte) : pushChar buf c = if buf.length < 32 then buf ++ [c] else buf := rfl
    by_cases hroom : m < 32
    · rw [hpush (D.take m), if_pos (by omega), hpush, List.length_append, List.length_singleton, hlen]
      by_cases hzero : m = 31
      · rw [if_neg (by omega), if_pos ⟨rfl, hzero⟩, List.reverse_append]
        exact strtoull_x hx
      · rw [if_pos (by omega), if_neg (by omega), List.reverse_append, List.reverse_append]
        exact strtoull_hex hrest hx hlt
    · rw [hpush (D.take m), if_neg (by omega), hpush, if_neg (by omega), if_neg (by omega)]
      exact (strtoull_number _ _ none hrest (by decide) hlt).trans (if_neg nofun)

/-! ## The digits of `_ntoa_long` -/

theorem digitOf_ntoaDigit {d : Nat} (upper : Bool) (hd : d < base) (hbase : base ≤ 16) :
    DigitOf base (ntoaDigit upper d) d := by
  have hall : ∀ upper, ∀ d < 16, digitValue (ntoaDigit upper d) = some d := by decide +kernel
  exact ⟨hall upper d (by omega), hd⟩

theorem ntoaDigits_spec (upper : Bool) {room : Nat} (hbase : 2 ≤ base ∧ base ≤ 16)
    (hroom : (numeral base v).length ≤ room) :
    List.Forall₂ (DigitOf base) (ntoaDigits base upper room v) (numeral base v) := by
  induction room generalizing v with
  | zero => exact absurd (List.length_eq_zero_iff.mp (Nat.le_zero.mp hroom)) numeral_ne_nil
  | succ room ih =>
    have hdigit := digitOf_ntoaDigit upper (Nat.mod_lt v (show 0 < base by omega)) hbase.2
    rw [numeral_step hbase.1] at hroom ⊢
    rw [ntoaDigits]
    by_cases hzero : v / base = 0
    · rw [if_pos hzero, if_pos hzero]
      exact .cons hdigit .nil
    · rw [if_neg hzero] at hroom ⊢
      rw [if_neg hzero]
      exact .cons hdigit (ih (Nat.le_of_succ_le_succ hroom))

/-- A word has at most 22 digits from base 8 on. -/
theorem length_numeral (hbase : 8 ≤ base) (hv : v < 18446744073709551616) :
    1 ≤ (numeral base v).length ∧ (numeral base v).length ≤ 22 := by
  refine ⟨List.length_pos_of_ne_nil numeral_ne_nil, ?_⟩
  unfold numeral
  split
  · decide
  · rw [Nat.digits_length_le_iff (by omega)]
    calc v
      _ < 8 ^ 22 := by omega
      _ ≤ base ^ 22 := Nat.pow_le_pow_left hbase 22

theorem mod_pow_eq_iff {n : Nat} (hbase : 2 ≤ base) (hv : v ≠ 0) :
    v % base ^ n = v ↔ (numeral base v).length ≤ n := by
  rw [numeral, if_neg hv, Nat.digits_length_le_iff hbase]
  constructor
  · intro heq
    rw [← heq]
    exact Nat.mod_lt _ (by positivity)
  · exact Nat.mod_eq_of_lt

/-! ## Numbers without a prefix -/

theorem strtoull_ntoaFormat (h : Valued base v buf ds) (hbase : 2 ≤ base ∧ base ≤ 33)
    (hv : v < 18446744073709551616) (hhash : flags.hash = false) :
    (strtoull (ntoaFormat buf negative base prec width flags) base).1 =
      if negative ∧ (padded flags prec (fieldWidth flags negative width) buf).length < 32 then sub64 0 v
      else v := by
  obtain ⟨ds', hpadded⟩ := h.padded flags prec (fieldWidth flags negative width) (by omega)
  rw [ntoaFormat_eq, hhash, if_neg nofun]
  exact strtoull_pushSign hpadded hbase hv

/-- `_ntoa_long` hands its digits on, and no hash for zero. -/
theorem ntoaLong_eq (base v prec width : Nat) (negative : Bool) (flags : Flags)
    (hbase : 8 ≤ base ∧ base ≤ 16) (hv : v < 18446744073709551616) :
    ∃ buf ds, Valued base v buf ds ∧ buf.length ≤ 22 ∧ (v ≠ 0 → buf.length = (numeral base v).length) ∧
      ntoaLong v negative base prec width flags = ntoaFormat buf negative base prec width
        (if v = 0 then { flags with hash := false } else flags) := by
  have hlen := length_numeral hbase.1 hv
  by_cases hempty : flags.precision = true ∧ v = 0
  · obtain ⟨hprec, rfl⟩ := hempty
    refine ⟨[], [], ⟨.nil, rfl⟩, Nat.zero_le _, fun hne => absurd rfl hne, ?_⟩
    simp [ntoaLong, hprec]
  · have hroom : (numeral base v).length ≤ 32 := by omega
    have hspec := ntoaDigits_spec flags.uppercase (by omega) hroom
    refine ⟨ntoaDigits base flags.uppercase 32 v, _, ⟨hspec, ofDigits_numeral⟩,
      hspec.length_eq.trans_le hlen.2, fun _ => hspec.length_eq, ?_⟩
    have hcond : (!flags.precision || v ≠ 0) = true := by
      by_cases hv0 : v = 0
      · have : flags.precision = false := by simpa [hv0] using hempty
        simp [this]
      · simp [hv0]
    by_cases hv0 : v = 0
    · simp only [ntoaLong, if_pos hv0, PRINTF_NTOA_BUFFER_SIZE]
      rw [if_pos hcond]
    · simp only [ntoaLong, if_neg hv0, PRINTF_NTOA_BUFFER_SIZE]
      rw [if_pos hcond]

/-! ## Printing and reading -/

/-- The sign has no room behind 32 characters. The least number is its own negation. -/
def SignLost (flags : Flags) (width precision : Nat) (value : Int) : Prop :=
  value < 0 ∧ value ≠ -9223372036854775808 ∧ flags.left = false ∧
    (32 ≤ precision ∨ flags.precision = false ∧ flags.zeropad = true ∧ 33 ≤ width)

/-- The trimming takes digits where the width has no zeros to give, and the prefix of base 16 loses
its zero behind 31 digits. -/
def DigitsLost (flags : Flags) (base width precision value : Nat) : Prop :=
  flags.hash = true ∧ value ≠ 0 ∧
    (flags.precision = false ∧ ((numeral base value).length = width ∨
        base = 16 ∧ flags.left = false ∧ flags.zeropad = true ∧ (numeral base value).length + 1 = width) ∨
      flags.precision = true ∧ base = 16 ∧ flags.left = false ∧ precision = 31)

theorem signed_ntoaLong (prec width : Nat) (flags : Flags) {value : Int}
    (hvalue : -9223372036854775808 ≤ value ∧ value < 9223372036854775808)
    (hhash : flags.hash = false) (hzeropad : flags.precision = true → flags.zeropad = false)
    (hprec : flags.precision = false → prec = 0) :
    (strtoull (ntoaLong value.natAbs (value < 0) 10 prec width flags) 10).1 =
        (value % 18446744073709551616).toNat ↔ ¬ SignLost flags width prec value := by
  obtain ⟨buf, ds, hvalued, hlen, -, heq⟩ := ntoaLong_eq 10 value.natAbs prec width (value < 0) flags
    (by decide) (by omega)
  have hsame : (if value.natAbs = 0 then { flags with hash := false } else flags) = flags := by
    split
    · rw [← hhash]
    · rfl
  rw [heq, hsame, strtoull_ntoaFormat hvalued (by decide) (by omega) hhash, length_padded]
  unfold SignLost
  by_cases hneg : value < 0
  · have hfull : (if flags.left then buf.length
        else max buf.length (min 32 (max prec
          (if flags.zeropad then fieldWidth flags (decide (value < 0)) width else 0)))) < 32 ↔
        ¬ (flags.left = false ∧
          (32 ≤ prec ∨ flags.precision = false ∧ flags.zeropad = true ∧ 33 ≤ width)) := by
      unfold fieldWidth
      cases hleft : flags.left with
      | true => simp; omega
      | false =>
        cases hzero : flags.zeropad with
        | false => simp; omega
        | true =>
          have hflag : flags.precision = false := by
            by_contra hp
            exact absurd (hzeropad (by simpa using hp)) (by simp [hzero])
          have := hprec hflag
          simp [hneg, hflag]
          split_ifs <;> omega
    by_cases hlost : flags.left = false ∧
        (32 ≤ prec ∨ flags.precision = false ∧ flags.zeropad = true ∧ 33 ≤ width)
    · have hword : value.natAbs = (value % 18446744073709551616).toNat ↔ value = -9223372036854775808 := by
        omega
      rw [if_neg fun hand => hfull.mp hand.2 hlost, hword]
      exact ⟨fun hleast hand => hand.2.1 hleast,
        fun hkept => by_contra fun hne => hkept ⟨hneg, hne, hlost⟩⟩
    · rw [if_pos ⟨decide_eq_true hneg, hfull.mpr hlost⟩]
      refine iff_of_true ?_ fun hand => hlost hand.2.2
      unfold sub64 u64
      omega
  · rw [if_neg fun hand => hneg (of_decide_eq_true hand.1)]
    refine iff_of_true (by omega) fun hlost => hneg hlost.1

theorem unsigned_ntoaLong (prec width : Nat) (flags : Flags) (hbase : base = 8 ∨ base = 16)
    (hv : v < 18446744073709551616)
    (hplus : flags.plus = false) (hspace : flags.space = false)
    (hzeropad : flags.precision = true → flags.zeropad = false) (hprec : flags.precision = false → prec = 0) :
    (strtoull (ntoaLong v false base prec width flags) base).1 = v ↔ ¬ DigitsLost flags base width prec v := by
  obtain ⟨buf, ds, hvalued, -, hdigits, heq⟩ := ntoaLong_eq base v prec width false flags (by omega) hv
  rw [heq]
  by_cases hplain : flags.hash = false ∨ v = 0
  · have hhash : (if v = 0 then { flags with hash := false } else flags).hash = false := by
      split
      · rfl
      · next hne => exact hplain.resolve_right hne
    rw [strtoull_ntoaFormat hvalued (by omega) hv hhash, if_neg (by simp)]
    refine iff_of_true rfl fun hlost => ?_
    rcases hplain with hhash | hzero
    · exact absurd hlost.1 (by simp [hhash])
    · exact hlost.2.1 hzero
  · rw [not_or] at hplain
    obtain ⟨hhash, hne⟩ := hplain
    have hhash : flags.hash = true := by simpa using hhash
    have hwidth : fieldWidth flags false width = width := by
      rw [fieldWidth, if_neg (by simp [hplus, hspace])]
    have hsign (buf : List Byte) : pushSign flags false buf = buf := by
      simp [pushSign, hplus, hspace]
    have hlen : 1 ≤ (numeral base v).length ∧ (numeral base v).length ≤ 22 := length_numeral (by omega) hv
    obtain ⟨ds', hpadded⟩ := hvalued.padded flags prec width (by omega)
    have hpaddedLen := length_padded flags prec width buf
    have hnil : padded flags prec width buf ≠ [] := by
      intro hnil
      rw [hnil, hdigits hne, List.length_nil] at hpaddedLen
      split at hpaddedLen <;> omega
    rw [if_neg hne, ntoaFormat_eq, hhash, if_pos rfl, hwidth, hsign,
      strtoull_formatHash hpadded hbase hv hprec hnil, hpaddedLen, hdigits hne]
    have hread {m : Nat} : (if base = 16 ∧ m = 31 then 0 else v % base ^ m) = v ↔
        ¬ (base = 16 ∧ m = 31) ∧ (numeral base v).length ≤ m := by
      split
      · next hand => exact iff_of_false (fun h => hne h.symm) fun h => h.1 hand
      · next hand => exact (mod_pow_eq_iff (by omega) hne).trans (iff_and_self.mpr fun _ => hand)
    rw [hread, DigitsLost]
    simp only [hhash, true_and, hne, not_false_eq_true, ne_eq]
    unfold trimmed
    cases hprecision : flags.precision with
    | true =>
      have hnozero := hzeropad hprecision
      cases hleft : flags.left with
      | true => simp; omega
      | false => simp [hnozero]; omega
    | false =>
      have hzero := hprec hprecision
      cases hleft : flags.left with
      | true =>
        simp
        split_ifs <;> omega
      | false =>
        cases hpad : flags.zeropad with
        | true =>
          simp [hzero]
          split_ifs <;> omega
        | false =>
          simp [hzero]
          split_ifs <;> omega

/-! ## The directives -/

theorem signed_bounds {n : Nat} (hn : n ≤ 64) (w : Nat) :
    -9223372036854775808 ≤ signed n w ∧ signed n w < 9223372036854775808 := by
  have hpow : (2 : Int) ^ (n - 1) ≤ 2 ^ 63 := pow_le_pow_right₀ (by decide) (by omega)
  have hlow := BitVec.le_toInt (BitVec.ofNat n w)
  have hhigh := BitVec.toInt_lt (x := BitVec.ofNat n w)
  unfold signed
  omega

theorem signedValue_bounds (flags : Flags) (w : Nat) :
    -9223372036854775808 ≤ signedValue flags w ∧ signedValue flags w < 9223372036854775808 := by
  unfold signedValue
  split_ifs <;> exact signed_bounds (by decide) w

theorem unsignedValue_lt (flags : Flags) (w : Nat) : unsignedValue flags w < 18446744073709551616 := by
  unfold unsignedValue u64 u16 u32
  split_ifs <;> omega

/-- The word that a directive prints. -/
def integerValue (c : Byte) (flags : Flags) (w : Nat) : Nat :=
  if c = 0x69 ∨ c = 0x64 then (signedValue flags w % 18446744073709551616).toNat else unsignedValue flags w

/-- What a directive loses of it. -/
def Lost (c : Byte) (flags : Flags) (width precision w : Nat) : Prop :=
  if c = 0x69 ∨ c = 0x64 then SignLost flags width precision (signedValue flags w)
  else integerBase c ≠ 10 ∧ DigitsLost flags (integerBase c) width precision (unsignedValue flags w)

/-- The flags that the branch for an integer hands on. -/
def signedFlags (flags : Flags) : Flags :=
  { flags with hash := false, zeropad := flags.zeropad && !flags.precision }

def unsignedFlags (c : Byte) (flags : Flags) : Flags :=
  { flags with
    hash := flags.hash && decide (integerBase c ≠ 10)
    uppercase := flags.uppercase || decide (c = 0x58)
    plus := false
    space := false
    zeropad := flags.zeropad && !flags.precision }

theorem formatInteger_signed {c : Byte} {w : Nat} (hc : c = 0x69 ∨ c = 0x64) :
    formatInteger c flags width prec w = ntoaLong (signedValue flags w).natAbs (signedValue flags w < 0) 10
      prec width (signedFlags flags) := by
  rcases hc with rfl | rfl
  all_goals cases hp : flags.precision <;> simp [formatInteger, integerBase, signedFlags, signedValue, hp]

theorem formatInteger_unsigned {c : Byte} {w : Nat} (hc : c ∈ ascii "uxXo") :
    formatInteger c flags width prec w = ntoaLong (unsignedValue flags w) false (integerBase c)
      prec width (unsignedFlags c flags) := by
  have hcases : c = 0x75 ∨ c = 0x78 ∨ c = 0x58 ∨ c = 0x6f := by simpa [ascii] using hc
  rcases hcases with rfl | rfl | rfl | rfl
  all_goals cases hp : flags.precision <;>
    simp [formatInteger, integerBase, unsignedFlags, unsignedValue, hp]

/-- A printed number is read back in its base exactly when neither its sign nor one of its digits is lost. -/
theorem strtoull_formatInteger {c : Byte} {w : Nat} (hc : c ∈ ascii "diuxXo")
    (hprec : flags.precision = false → prec = 0) :
    (strtoull (formatInteger c flags width prec w) (integerBase c)).1 = integerValue c flags w ↔
      ¬ Lost c flags width prec w := by
  have hkinds : ∀ c ∈ ascii "diuxXo", c = 0x69 ∨ c = 0x64 ∨
      (c ∈ ascii "uxXo" ∧ (integerBase c = 10 ∨ integerBase c = 8 ∨ integerBase c = 16)) := by decide
  by_cases hsigned : c = 0x69 ∨ c = 0x64
  · have hbase : integerBase c = 10 := by rcases hsigned with rfl | rfl <;> rfl
    have hread := signed_ntoaLong prec width (signedFlags flags)
      (signedValue_bounds flags w) rfl (fun hp => by simp [signedFlags, show flags.precision = true from hp]) hprec
    rw [formatInteger_signed hsigned, hbase, integerValue, if_pos hsigned, hread, Lost, if_pos hsigned]
    cases hp : flags.precision <;> simp [SignLost, signedFlags, hp]
  · obtain ⟨hmem, hbase⟩ : c ∈ ascii "uxXo" ∧ _ := by
      rcases hkinds c hc with hi | hd | hkind
      · exact absurd (.inl hi) hsigned
      · exact absurd (.inr hd) hsigned
      · exact hkind
    have hvalue := unsignedValue_lt flags w
    rw [formatInteger_unsigned hmem, integerValue, if_neg hsigned, Lost, if_neg hsigned]
    rcases hbase with h10 | hbase
    · obtain ⟨buf, ds, hvalued, -, -, heq⟩ := ntoaLong_eq 10 (unsignedValue flags w) prec width
        false (unsignedFlags c flags) (by decide) hvalue
      rw [h10, heq, strtoull_ntoaFormat hvalued (by decide) hvalue, if_neg (by simp)]
      · exact iff_of_true rfl fun hlost => hlost.1 rfl
      · split
        · rfl
        · simp [unsignedFlags, h10]
    · have hten : integerBase c ≠ 10 := by omega
      have hread := unsigned_ntoaLong prec width (unsignedFlags c flags) hbase hvalue rfl rfl
        (fun hp => by simp [unsignedFlags, show flags.precision = true from hp]) hprec
      rw [hread]
      cases hp : flags.precision <;> simp [DigitsLost, unsignedFlags, hp, hten]

/-- Of `0x1234` in a field of four characters the hash leaves `0x34`. -/
theorem strtoull_formatInteger_trimmed :
    (strtoull (formatInteger 0x78 { hash := true } 4 0 4660) (integerBase 0x78)).1 =
        integerValue 0x78 { hash := true } 4660 ↔ ¬ Lost 0x78 { hash := true } 4 0 4660 :=
  strtoull_formatInteger (by decide) fun _ => rfl

end Util
