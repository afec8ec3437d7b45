import UnedKernel.Util.Numbers

/-! # Numbers in any base

`strtoull` of `string.c` and `itoa` of `printf.c`. The reader takes the longest
run of digits of its base and stops counting at the largest word; what `itoa`
writes in a base is read back in it. -/

namespace Util
open ByteMem CString Word

/-! ## `ctype.c` -/

def isupper (c : Int) : Bool := 0x41 ≤ c ∧ c ≤ 0x5a

def islower (c : Int) : Bool := 0x61 ≤ c ∧ c ≤ 0x7a

def isalpha (c : Int) : Bool := isupper c || islower c

/-! ## `strtoull` -/

def ULLONG_MAX : Nat := 18446744073709551615

/-- What the loop makes of a character, before it looks at the base. -/
def digitValue (c : Byte) : Option Nat :=
  if isdigit c.toInt then some (c.toInt - 0x30).toNat
  else if isalpha c.toInt then
    some (c.toInt - if isupper c.toInt then 0x41 - 10 else 0x61 - 10).toNat
  else none

/-- The loop over the digits. It leaves `any`, `acc` and what is behind the digits. -/
def digitLoop (base : Nat) : (any : Int) → (acc : Nat) → List Byte → Int × Nat × List Byte
  | any, acc, [] => (any, acc, [])
  | any, acc, c :: s =>
    match digitValue c with
    | none => (any, acc, c :: s)
    | some d =>
      if base ≤ d then (any, acc, c :: s)
      else if any < 0 ∨ ULLONG_MAX / base < acc ∨ acc = ULLONG_MAX / base ∧ ULLONG_MAX % base < d then
        digitLoop base (-1) acc s
      else digitLoop base 1 (u64 (u64 (acc * base) + d)) s

/-- The sign, and what is behind it. -/
def signOf : List Byte → Bool × List Byte
  | [] => (false, [])
  | c :: s => if c = 0x2d then (true, s) else if c = 0x2b then (false, s) else (false, c :: s)

/-- The string goes on with a prefix of base 16. -/
def HexPrefix (s : List Byte) : Prop := ascii "0x" <+: s ∨ ascii "0X" <+: s

instance (s : List Byte) : Decidable (HexPrefix s) := inferInstanceAs (Decidable (_ ∨ _))

/-- The base that is taken for the one that was asked, and what is behind its prefix. -/
def askedBase (base : Nat) (s : List Byte) : Nat × List Byte :=
  if (base = 0 ∨ base = 16) ∧ HexPrefix s then (16, s.drop 2)
  else if base = 0 then (if s.head? = some 0x30 then 8 else 10, s)
  else (base, s)

/-- `strtoull`, with the number of characters in front of `*endptr`. -/
def strtoull (nptr : List Byte) (base : Nat) : Nat × Nat :=
  let (neg, s) := signOf (skipBlanks nptr)
  let (base, s) := askedBase base s
  let (any, acc, s) := digitLoop base 0 0 s
  (if any < 0 then ULLONG_MAX else if neg then sub64 0 acc else acc,
    if any ≠ 0 then nptr.length - s.length else 0)

/-! ## The digits -/

/-- The character is that digit of the base. -/
def DigitOf (base : Nat) (c : Byte) (d : Nat) : Prop := digitValue c = some d ∧ d < base

/-- The characters are these digits. -/
def Digits (base : Nat) (t : List Byte) (ds : List Nat) : Prop := List.Forall₂ (DigitOf base) t ds

/-- The string does not go on with a digit of the base. -/
def Ends (base : Nat) (s : List Byte) : Prop := ∀ c t d, s = c :: t → ¬ DigitOf base c d

/-- The number of the digits, the first one first, behind a number. -/
def horner (base x : Nat) (ds : List Nat) : Nat := ds.foldl (fun a d => a * base + d) x

/-- What the loop has of a number: the number, or that it is too large. -/
def Counts (any : Int) (acc x : Nat) : Prop :=
  0 ≤ any ∧ acc = x ∧ x ≤ ULLONG_MAX ∨ any < 0 ∧ ULLONG_MAX < x

variable {base x d acc : Nat} {any : Int} {s t tail : List Byte} {ds : List Nat} {c : Byte}

theorem digitLoop_ends (h : Ends base tail) : digitLoop base any acc tail = (any, acc, tail) := by
  cases tail with
  | nil => rfl
  | cons c s =>
    rw [digitLoop]
    cases hd : digitValue c with
    | none => rfl
    | some d =>
      have hge : base ≤ d := Nat.le_of_not_lt fun hlt => h c s d rfl ⟨hd, hlt⟩
      exact if_pos hge

/-- The test before a digit tells whether the number still fits. -/
theorem cutoff_iff (hbase : 0 < base) :
    (ULLONG_MAX / base < x ∨ x = ULLONG_MAX / base ∧ ULLONG_MAX % base < d) ∧ d < base ↔
      ULLONG_MAX < x * base + d ∧ d < base := by
  have hdiv := Nat.div_add_mod ULLONG_MAX base
  have hmod := Nat.mod_lt ULLONG_MAX hbase
  rw [Nat.mul_comm] at hdiv
  refine and_congr_left fun hd => ?_
  rcases Nat.lt_trichotomy x (ULLONG_MAX / base) with hlt | heq | hgt
  · have := Nat.mul_le_mul_right base (Nat.succ_le_of_lt hlt)
    rw [Nat.succ_mul] at this
    omega
  · rw [heq]
    omega
  · have := Nat.mul_le_mul_right base (Nat.succ_le_of_lt hgt)
    rw [Nat.succ_mul] at this
    omega

/-- Behind the digits the loop has their number, or knows that it is too large. -/
theorem digitLoop_digits (hbase : 0 < base) (ht : Digits base t ds) (htail : Ends base tail)
    (hcounts : Counts any acc x) :
    ∃ any' acc', digitLoop base any acc (t ++ tail) = (any', acc', tail) ∧
      Counts any' acc' (horner base x ds) ∧ (t ≠ [] → any' ≠ 0) := by
  induction ht generalizing any acc x with
  | nil => exact ⟨any, acc, digitLoop_ends htail, hcounts, fun hne => absurd rfl hne⟩
  | @cons c d t ds hc _ ih =>
    obtain ⟨hvalue, hlt⟩ := hc
    rw [List.cons_append, digitLoop, hvalue]
    simp only
    rw [if_neg (Nat.not_le_of_lt hlt)]
    have hcut := cutoff_iff (x := acc) (d := d) hbase
    have hnext {any' : Int} {acc' : Nat} (hne : any' ≠ 0) (h : Counts any' acc' (x * base + d)) :
        ∃ any'' acc'', digitLoop base any' acc' (t ++ tail) = (any'', acc'', tail) ∧
          Counts any'' acc'' (horner base x (d :: ds)) ∧ (c :: t ≠ [] → any'' ≠ 0) := by
      obtain ⟨any'', acc'', hloop, hcounts'', hne'⟩ := ih h
      refine ⟨any'', acc'', hloop, hcounts'', fun _ => ?_⟩
      cases t with
      | nil =>
        rw [List.nil_append, digitLoop_ends htail] at hloop
        rwa [← (Prod.mk.inj hloop).1]
      | cons => exact hne' (List.cons_ne_nil _ _)
    rcases hcounts with ⟨hpos, rfl, hle⟩ | ⟨hneg, hover⟩
    · by_cases hfits : acc * base + d ≤ ULLONG_MAX
      · have hno : ¬ (any < 0 ∨ ULLONG_MAX / base < acc ∨
            acc = ULLONG_MAX / base ∧ ULLONG_MAX % base < d) := by
          rintro (hneg | hcutoff)
          · omega
          · exact absurd (hcut.mp ⟨hcutoff, hlt⟩).1 (by omega)
        have hmul : u64 (acc * base) = acc * base := u64_of_lt (by unfold ULLONG_MAX at hfits; omega)
        rw [if_neg hno, hmul, u64_of_lt (by unfold ULLONG_MAX at hfits; omega)]
        exact hnext (by omega) (.inl ⟨by omega, rfl, hfits⟩)
      · have hyes := (hcut.mpr ⟨by omega, hlt⟩).1
        rw [if_pos (.inr hyes)]
        exact hnext (by omega) (.inr ⟨by omega, by omega⟩)
    · rw [if_pos (.inl hneg)]
      have hgrows : x ≤ x * base := Nat.le_mul_of_pos_right x hbase
      exact hnext (by omega) (.inr ⟨by omega, by omega⟩)

/-! ## The whole reader -/

/-- The characters of a sign, if there is one. -/
def signText : Option Bool → List Byte
  | none => []
  | some true => [0x2d]
  | some false => [0x2b]

/-- How the base that is asked for, the base and the prefix belong together in front of a string. -/
inductive Asks : Nat → Nat → List Byte → List Byte → Prop
  | plain {base : Nat} {s : List Byte} (h : 2 ≤ base) (hx : base = 16 → ¬ HexPrefix s) :
      Asks base base [] s
  | hex {asked : Nat} {p s : List Byte} (h : asked = 0 ∨ asked = 16)
      (hp : p = ascii "0x" ∨ p = ascii "0X") : Asks asked 16 p s
  | octal {s : List Byte} (h : s.head? = some 0x30) (hx : ¬ HexPrefix s) : Asks 0 8 [] s
  | decimal {s : List Byte} (h : s.head? ≠ some 0x30) : Asks 0 10 [] s

variable {asked : Nat} {p : List Byte}

theorem Asks.two_le (h : Asks asked base p s) : 2 ≤ base := by
  cases h with
  | plain h => exact h
  | hex => decide
  | octal => decide
  | decimal => decide

theorem not_hexPrefix (h : s.head? ≠ some 0x30) : ¬ HexPrefix s := by
  rintro (⟨t, rfl⟩ | ⟨t, rfl⟩)
  · exact h rfl
  · exact h rfl

theorem Asks.askedBase_eq (h : Asks asked base p s) : askedBase asked (p ++ s) = (base, s) := by
  cases h with
  | plain h hx =>
    rw [List.nil_append, askedBase, if_neg fun hhex => ?_, if_neg (by omega)]
    exact hx (hhex.1.resolve_left (by omega)) hhex.2
  | hex h hp =>
    have hprefix : HexPrefix (p ++ s) := by
      rcases hp with rfl | rfl
      · exact .inl (List.prefix_append _ s)
      · exact .inr (List.prefix_append _ s)
    have hdrop : (p ++ s).drop 2 = s := by rcases hp with rfl | rfl <;> rfl
    rw [askedBase, if_pos ⟨h, hprefix⟩, hdrop]
  | octal h hx => rw [List.nil_append, askedBase, if_neg fun hhex => hx hhex.2, if_pos rfl, if_pos h]
  | decimal h =>
    rw [List.nil_append, askedBase, if_neg fun hhex => not_hexPrefix h hhex.2, if_pos rfl, if_neg h]

/-- A digit is no blank and no sign. -/
theorem digitValue_spec (h : digitValue c = some d) :
    isspace c.toInt = false ∧ c ≠ 0x2d ∧ c ≠ 0x2b := by
  have hall : ∀ c : Byte, digitValue c ≠ none → isspace c.toInt = false ∧ c ≠ 0x2d ∧ c ≠ 0x2b := by
    decide +kernel
  exact hall c (by rw [h]; nofun)

theorem skipBlanks_append (hs : ∀ c ∈ s, isspace c.toInt = true)
    (ht : ∀ c u, t = c :: u → isspace c.toInt = false) :
    skipBlanks (s ++ t) = t := by
  induction s with
  | nil =>
    cases t with
    | nil => rfl
    | cons c t => exact skipBlanks_cons (ht c t rfl)
  | cons c s ih =>
    have hblank := hs c List.mem_cons_self
    rw [List.cons_append, skipBlanks, List.dropWhile_cons_of_pos (by simpa using hblank)]
    exact ih fun c hc => hs c (List.mem_cons_of_mem _ hc)

theorem signOf_sign (sign : Option Bool) (h : ∀ c u, s = c :: u → c ≠ 0x2d ∧ c ≠ 0x2b) :
    signOf (signText sign ++ s) = (decide (sign = some true), s) := by
  cases sign with
  | none =>
    cases s with
    | nil => rfl
    | cons c s =>
      obtain ⟨hminus, hplus⟩ := h c s rfl
      show signOf (c :: s) = (false, c :: s)
      rw [signOf, if_neg hminus, if_neg hplus]
  | some neg => cases neg <;> rfl

/-- What is read behind the blanks, the sign and the prefix, also where no digit stands there. -/
theorem strtoull_fst {nptr : List Byte} {neg : Bool} (hsign : signOf (skipBlanks nptr) = (neg, s))
    (hasked : askedBase asked s = (base, t ++ tail)) (hbase : 0 < base) (ht : Digits base t ds)
    (htail : Ends base tail) :
    (strtoull nptr asked).1 = if ULLONG_MAX < horner base 0 ds then ULLONG_MAX
      else if neg = true then sub64 0 (horner base 0 ds) else horner base 0 ds := by
  obtain ⟨any, acc, hloop, hcounts, -⟩ := digitLoop_digits hbase ht htail
    (show Counts 0 0 0 from .inl ⟨Int.le_refl 0, rfl, Nat.zero_le _⟩)
  unfold strtoull
  simp only [hsign, hasked, hloop]
  rcases hcounts with ⟨hpos, rfl, hle⟩ | ⟨hneg, hover⟩
  · rw [if_neg (Int.not_lt.mpr hpos), if_neg (Nat.not_lt.mpr hle)]
  · rw [if_pos hneg, if_pos hover]

/-- The reading ends behind the digits. -/
theorem strtoull_snd {nptr : List Byte} {neg : Bool} (hsign : signOf (skipBlanks nptr) = (neg, s))
    (hasked : askedBase asked s = (base, t ++ tail)) (hbase : 0 < base) (ht : Digits base t ds)
    (hne : t ≠ []) (htail : Ends base tail) : (strtoull nptr asked).2 = nptr.length - tail.length := by
  obtain ⟨any, acc, hloop, -, hany⟩ := digitLoop_digits hbase ht htail
    (show Counts 0 0 0 from .inl ⟨Int.le_refl 0, rfl, Nat.zero_le _⟩)
  unfold strtoull
  simp only [hsign, hasked, hloop]
  rw [if_pos (hany hne)]

/-- Neither a prefix nor a digit begins with a blank or a sign. -/
theorem Asks.head_spec {u : List Byte} (h : Asks asked base p (t ++ tail)) (ht : Digits base t ds)
    (hne : t ≠ []) (heq : p ++ (t ++ tail) = c :: u) : isspace c.toInt = false ∧ c ≠ 0x2d ∧ c ≠ 0x2b := by
  obtain ⟨c', t, rfl⟩ := List.exists_cons_of_ne_nil hne
  obtain ⟨d, ds', hc', -, -⟩ := List.forall₂_cons_left_iff.mp ht
  have hdigit := digitValue_spec hc'.1
  cases h with
  | plain => exact (List.cons.inj heq).1 ▸ hdigit
  | octal => exact (List.cons.inj heq).1 ▸ hdigit
  | decimal => exact (List.cons.inj heq).1 ▸ hdigit
  | hex _ hp => rcases hp with rfl | rfl <;> exact (List.cons.inj heq).1 ▸ by decide

theorem signOf_skipBlanks (blanks : List Byte) (sign : Option Bool)
    (hblanks : ∀ c ∈ blanks, isspace c.toInt = true)
    (h : ∀ c u, s = c :: u → isspace c.toInt = false ∧ c ≠ 0x2d ∧ c ≠ 0x2b) :
    signOf (skipBlanks (blanks ++ (signText sign ++ s))) = (decide (sign = some true), s) := by
  rw [skipBlanks_append hblanks fun c u heq => ?_, signOf_sign sign fun c u heq => (h c u heq).2]
  cases sign with
  | none => exact (h c u heq).1
  | some neg => cases neg <;> exact (List.cons.inj heq).1 ▸ by decide

/-- The reader takes blanks, a sign, a prefix and the digits, whatever is behind them, and gives their
number, negated in the word for a minus, or the largest word where the number is larger. -/
theorem strtoull_exact {blanks digits : List Byte} (sign : Option Bool)
    (hblanks : ∀ c ∈ blanks, isspace c.toInt = true) (hasks : Asks asked base p (digits ++ tail))
    (hdigits : Digits base digits ds) (hne : digits ≠ []) (htail : Ends base tail) :
    strtoull (blanks ++ (signText sign ++ (p ++ (digits ++ tail)))) asked =
      (if ULLONG_MAX < horner base 0 ds then ULLONG_MAX
        else if sign = some true then sub64 0 (horner base 0 ds) else horner base 0 ds,
        blanks.length + (signText sign).length + p.length + digits.length) := by
  have hbase := hasks.two_le
  have hsign := signOf_skipBlanks blanks sign hblanks fun c u heq => hasks.head_spec hdigits hne heq
  refine Prod.ext ?_ ?_
  · rw [strtoull_fst hsign hasks.askedBase_eq (by omega) hdigits htail]
    simp only [decide_eq_true_eq]
  · rw [strtoull_snd hsign hasks.askedBase_eq (by omega) hdigits hne htail]
    simp only [List.length_append]
    omega

/-- The blanks, the sign and the prefix in front count, and a letter behind the digits ends them. -/
theorem strtoull_exact_hex :
    strtoull (ascii "  " ++ (signText (some true) ++ (ascii "0x" ++ (ascii "Ff" ++ ascii "z")))) 0 =
      (if ULLONG_MAX < horner 16 0 [15, 15] then ULLONG_MAX
        else if some true = some true then sub64 0 (horner 16 0 [15, 15]) else horner 16 0 [15, 15],
        (ascii "  ").length + (signText (some true)).length + (ascii "0x").length +
          (ascii "Ff").length) := by
  refine strtoull_exact (some true) (by decide) (.hex (.inl rfl) (.inl rfl))
    (.cons ⟨by decide, by decide⟩ (.cons ⟨by decide, by decide⟩ .nil)) (by decide) fun c t d heq hd => ?_
  have hz : digitValue c = some 35 := (List.cons.inj heq).1 ▸ by decide
  exact absurd hd.2 (Option.some.inj (hz.symm.trans hd.1) ▸ by decide)

/-! ## `itoa` -/

def BUFFERSIZE : Nat := 128

/-- The digits on both sides of zero. -/
def digitTable : List Byte :=
  ascii "zyxwvutsrqponmlkjihgfedcba9876543210123456789abcdefghijklmnopqrstuvwxyz"

/-- The loop over the digits, the last digit first, with the value that the last round started
with. `none` is a store behind the buffer. -/
def itoaDigits (base : Int) : (room : Nat) → (value : Int) → Option (List Byte × Int)
  | 0, _ => none
  | room + 1, tmp_value =>
    let value := tmp_value.tdiv base
    let c := digitTable.getD (35 + (tmp_value - value * base)).toNat 0
    if value = 0 then some ([c], tmp_value)
    else (itoaDigits base room value).map fun (cs, last) => (c :: cs, last)

/-- `itoa`, with the characters in front of the terminator. -/
def itoa (value base : Int) : Option (List Byte) :=
  if base < 2 ∨ 36 < base then some []
  else
    (itoaDigits base BUFFERSIZE value).bind fun (cs, tmp_value) =>
      let cs := if tmp_value < 0 then cs ++ [0x2d] else cs
      if cs.length < BUFFERSIZE then some cs.reverse else none

section itoa

variable {b v last : Int} {room : Nat} {cs : List Byte}

theorem digitOf_table {r : Int} (hbase : base ≤ 36) (hr : r.natAbs < base) :
    DigitOf base (digitTable.getD (35 + r).toNat 0) r.natAbs := by
  have htable : ∀ i < 71, digitValue (digitTable.getD i 0) = some (((i : Int) - 35).natAbs) := by
    decide +kernel
  have hi : (((35 + r).toNat : Int) - 35).natAbs = r.natAbs := by omega
  exact ⟨hi ▸ htable _ (by omega), hr⟩

theorem natAbs_tmod (hb : b = base) :
    (v - v.tdiv b * b).natAbs = v.natAbs % base ∧ (v.tdiv b).natAbs = v.natAbs / base := by
  have hmod : v - v.tdiv b * b = v.tmod b := by
    have := Int.tmod_add_mul_tdiv v b
    rw [Int.mul_comm] at this
    omega
  rw [hmod, Int.natAbs_tmod, Int.natAbs_tdiv, hb, Int.natAbs_natCast]
  exact ⟨rfl, rfl⟩

theorem numeral_step (hbase : 2 ≤ base) {n : Nat} :
    numeral base n = if n / base = 0 then [n % base] else n % base :: numeral base (n / base) := by
  unfold numeral
  by_cases hdiv : n / base = 0
  · have hlt : n < base := (Nat.div_eq_zero_iff.mp hdiv).resolve_left (by omega)
    rw [if_pos hdiv, Nat.mod_eq_of_lt hlt]
    split
    · simp [*]
    · exact Nat.digits_of_lt base n ‹_› hlt
  · have hne : n ≠ 0 := by
      rintro rfl
      exact hdiv (Nat.zero_div base)
    rw [if_neg hdiv, if_neg hne, if_neg hdiv, Nat.digits_def' hbase (Nat.pos_of_ne_zero hne)]

/-- The rounds write the digits of the absolute value, and the last one starts on the side of the value. -/
theorem itoaDigits_spec (hb : b = base) (h : 2 ≤ base) (h36 : base ≤ 36)
    (hroom : (numeral base v.natAbs).length ≤ room) :
    ∃ cs last, itoaDigits b room v = some (cs, last) ∧
      List.Forall₂ (DigitOf base) cs (numeral base v.natAbs) ∧ (last < 0 ↔ v < 0) := by
  induction room generalizing v with
  | zero => exact absurd (List.length_eq_zero_iff.mp (Nat.le_zero.mp hroom)) numeral_ne_nil
  | succ room ih =>
    obtain ⟨hmod, hdiv⟩ := natAbs_tmod (v := v) hb
    have hdigit := digitOf_table (r := v - v.tdiv b * b) h36 (by rw [hmod]; exact Nat.mod_lt _ (by omega))
    rw [hmod] at hdigit
    rw [numeral_step h] at hroom ⊢
    rw [itoaDigits]
    simp only
    by_cases hzero : v.tdiv b = 0
    · have : v.natAbs / base = 0 := by rw [← hdiv, hzero, Int.natAbs_zero]
      rw [if_pos hzero, if_pos this]
      exact ⟨_, _, rfl, .cons hdigit .nil, Iff.rfl⟩
    · have hne : ¬ v.natAbs / base = 0 := by
        rw [← hdiv]
        exact fun habs => hzero (Int.natAbs_eq_zero.mp habs)
      rw [if_neg hne] at hroom ⊢
      rw [← hdiv] at hroom ⊢
      obtain ⟨cs, last, hrun, hcs, hlast⟩ := ih (v := v.tdiv b) (Nat.le_of_succ_le_succ hroom)
      rw [if_neg hzero, hrun]
      refine ⟨_, _, rfl, .cons hdigit hcs, hlast.trans ?_⟩
      rcases Int.lt_or_le v 0 with hneg | hpos
      · have := Int.tdiv_nonneg (show 0 ≤ -v by omega) (show 0 ≤ b by omega)
        rw [Int.neg_tdiv] at this
        omega
      · have := Int.tdiv_nonneg hpos (show 0 ≤ b by omega)
        omega

/-- An `x` is no digit of a base up to 33. -/
theorem Digits.not_hexPrefix {t : List Byte} {ds : List Nat} (h : Digits base t ds) (hbase : base ≤ 33)
    (htail : ∀ c ∈ tail, c = 0x20) : ¬ HexPrefix (t ++ tail) := by
  have hx {c : Byte} (hc : digitValue c = some 33) : c ∉ t ++ tail := by
    intro hmem
    rcases List.mem_append.mp hmem with hmem | hmem
    · obtain ⟨i, hi, rfl⟩ := List.getElem_of_mem hmem
      have hdigit := List.Forall₂.get h hi (h.length_eq ▸ hi)
      have heq : some 33 = some _ := hc.symm.trans hdigit.1
      have hlt := hdigit.2
      rw [← Option.some.inj heq] at hlt
      omega
    · rw [htail c hmem] at hc
      exact absurd hc (by decide)
  rintro (hfront | hfront)
  · exact hx (c := 0x78) (by decide) (hfront.subset (by decide))
  · exact hx (c := 0x58) (by decide) (hfront.subset (by decide))

theorem horner_eq {x : Nat} {ds : List Nat} :
    horner base x ds = x * base ^ ds.length + Nat.ofDigits base ds.reverse := by
  induction ds generalizing x with
  | nil => simp [horner]
  | cons d ds ih =>
    have hstep : horner base x (d :: ds) = horner base (x * base + d) ds := rfl
    rw [hstep, ih, List.reverse_cons, Nat.ofDigits_append, List.length_reverse, List.length_cons,
      Nat.ofDigits_singleton]
    ring

/-- What is written in a base is read back in it, to the last character. -/
theorem strtoull_itoa (hbase : 2 ≤ base ∧ base ≤ 36)
    (hv : -9223372036854775808 ≤ v ∧ v < 9223372036854775808) :
    ∃ t, itoa v base = some t ∧
      strtoull t base = ((v % 18446744073709551616).toNat, t.length) := by
  obtain ⟨h2, h36⟩ := hbase
  have hlen : (numeral base v.natAbs).length ≤ 64 := length_numeral_le h2 (by omega)
  have hroom : (numeral base v.natAbs).length ≤ BUFFERSIZE := hlen.trans (by decide)
  obtain ⟨cs, last, hrun, hcs, hlast⟩ := itoaDigits_spec (rfl : (base : Int) = base) h2 h36 hroom
  have hcslen := hcs.length_eq
  have hshort : (if last < 0 then cs ++ [0x2d] else cs).length < BUFFERSIZE := by
    unfold BUFFERSIZE
    split
    · rw [List.length_append, List.length_singleton]
      omega
    · omega
  refine ⟨(if last < 0 then cs ++ [0x2d] else cs).reverse, ?_, ?_⟩
  · rw [itoa, if_neg (by omega), hrun]
    exact if_pos hshort
  · have hdigits : Digits base cs.reverse (numeral base v.natAbs).reverse :=
      List.forall₂_reverse_iff.mpr hcs
    have hne : cs.reverse ≠ [] := by
      intro hnil
      rw [List.reverse_eq_nil_iff.mp hnil] at hcslen
      exact numeral_ne_nil (List.length_eq_zero_iff.mp hcslen.symm)
    have hvalue : horner base 0 (numeral base v.natAbs).reverse = v.natAbs := by
      rw [horner_eq, List.reverse_reverse, ofDigits_numeral]
      omega
    have hasks : Asks base base [] (cs.reverse ++ []) :=
      .plain h2 fun h16 => hdigits.not_hexPrefix (by omega) nofun
    have hnone : ¬ ULLONG_MAX < v.natAbs := by
      unfold ULLONG_MAX
      omega
    have hsign := signOf_skipBlanks [] (if v < 0 then some true else none) nofun
      fun c u heq => hasks.head_spec hdigits hne heq
    have htext : (if last < 0 then cs ++ [0x2d] else cs).reverse =
        signText (if v < 0 then some true else none) ++ cs.reverse := by
      by_cases hneg : v < 0
      · rw [if_pos (hlast.mpr hneg), if_pos hneg, List.reverse_append]
        rfl
      · rw [if_neg (mt hlast.mp hneg), if_neg hneg]
        rfl
    rw [List.nil_append, List.nil_append, List.append_nil] at hsign
    have hasked : askedBase base cs.reverse = (base, cs.reverse ++ []) := by
      simpa using hasks.askedBase_eq
    have hends : Ends base [] := nofun
    rw [htext]
    refine Prod.ext ?_ ?_
    · rw [strtoull_fst hsign hasked (by omega) hdigits hends, hvalue, if_neg hnone]
      by_cases hneg : v < 0
      · simp only [if_pos hneg, decide_true, if_true, sub64, u64]
        omega
      · simp only [if_neg hneg, reduceCtorEq, decide_false, Bool.false_eq_true, if_false]
        omega
    · rw [strtoull_snd hsign hasked (by omega) hdigits hne hends]
      rfl

end itoa

theorem strtoull_itoa_least : ∃ t, itoa (-9223372036854775808) (36 : Nat) = some t ∧
    strtoull t 36 = (((-9223372036854775808 : Int) % 18446744073709551616).toNat, t.length) :=
  strtoull_itoa (by decide) (by decide)

end Util
