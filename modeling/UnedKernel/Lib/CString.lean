import Mathlib.Data.List.Basic
import UnedKernel.Lib.Bytes

/-! # C strings

A string is the list of its bytes before the terminator, none of them zero. A
memory holds a string at an address when its bytes stand there and a zero after
them, which is what every reader of a `char *` goes by. -/

namespace CString
open ByteMem

/-- No terminator among the bytes. -/
def NulFree (s : List Byte) : Prop := ∀ c ∈ s, c ≠ 0

instance (s : List Byte) : Decidable (NulFree s) := inferInstanceAs (Decidable (∀ c ∈ s, c ≠ 0))

/-- The bytes of a C string, without the terminator. -/
structure Str where
  chars : List Byte
  nulFree : NulFree chars
  deriving DecidableEq

/-- The bytes of a literal. -/
def ascii (s : String) : List Byte := s.toList.map fun c => BitVec.ofNat 8 c.toNat

variable {m m' : Bytes} {a : Nat} {s t : List Byte} {c : Byte}

/-- `strlen`, which gives up after `max` bytes. -/
def strlen (max : Nat) (s : List Byte) : Nat := min s.length max

/-- `strcmp` of the string in memory at `a` with `s`: the difference of the
first two bytes that differ, the terminators counted among them. -/
def strcmp (m : Bytes) (a : Nat) : List Byte → Int
  | [] => (m a).toInt
  | c :: s => if m a = c then strcmp m (a + 1) s else (m a).toInt - c.toInt

/-- `strncpy` of at most `n` bytes of `s` to `a`, with a terminator after them. -/
def strncpy (m : Bytes) (a : Nat) (s : List Byte) (n : Nat) : Bytes := fun x =>
  if a ≤ x ∧ x < a + min s.length n then s.getD (x - a) 0
  else if x = a + min s.length n then 0 else m x

/-- The memory reads as the string `s` from `a` on. -/
def Reads (m : Bytes) (a : Nat) (s : List Byte) : Prop := ∀ i, i ≤ s.length → m (a + i) = s.getD i 0

/-- `strncmp`: the difference of the first two bytes that differ among the
first `n`, as unsigned, the terminator counted among them. -/
def strncmp : List Byte → List Byte → Nat → Int
  | _, _, 0 => 0
  | [], t, _ + 1 => 0 - (t.headD 0).toNat
  | c :: _, [], _ + 1 => c.toNat
  | c :: s, d :: t, n + 1 => if c = d then strncmp s t n else c.toNat - d.toNat

theorem NulFree.tail (h : NulFree (c :: s)) : NulFree s :=
  fun d hd => h d (List.mem_cons_of_mem c hd)

theorem toNat_ne_zero (h : c ≠ 0) : c.toNat ≠ 0 := by
  intro h0
  exact h (BitVec.eq_of_toNat_eq (by simpa using h0))

/-- `strncmp` over the length of the first string finds them equal exactly when
the first is a prefix of the second. -/
theorem strncmp_length_eq_zero (hs : NulFree s) : strncmp s t s.length = 0 ↔ s <+: t := by
  induction s generalizing t with
  | nil => simp [strncmp]
  | cons c s ih =>
    cases t with
    | nil =>
      have hc := toNat_ne_zero (hs c List.mem_cons_self)
      simp only [List.length_cons, strncmp, List.prefix_nil, reduceCtorEq, iff_false]
      omega
    | cons d t =>
      simp only [List.length_cons, strncmp, List.cons_prefix_cons]
      by_cases hcd : c = d
      · subst hcd
        simp only [if_true, true_and]
        exact ih hs.tail
      · have hne : (c.toNat : Int) ≠ d.toNat := fun h =>
          hcd (BitVec.eq_of_toNat_eq (Int.ofNat_inj.mp h))
        simp only [hcd, if_false, false_and, iff_false]
        exact sub_ne_zero.mpr hne

/-! ## Strings in memory -/

theorem toInt_ne_zero (h : c ≠ 0) : c.toInt ≠ 0 := by
  intro h0
  exact h (BitVec.eq_of_toInt_eq (by simpa using h0))

theorem reads_nil : Reads m a [] ↔ m a = 0 := by
  constructor
  · intro h
    exact h 0 (Nat.le_refl 0)
  · intro h i hi
    rw [Nat.le_zero.mp hi]
    exact h

theorem reads_cons : Reads m a (c :: s) ↔ m a = c ∧ Reads m (a + 1) s := by
  constructor
  · intro h
    refine ⟨h 0 (Nat.zero_le _), fun i hi => ?_⟩
    rw [Nat.add_right_comm]
    exact h (i + 1) (Nat.succ_le_succ hi)
  · rintro ⟨h0, h⟩ i hi
    cases i with
    | zero => exact h0
    | succ i =>
      rw [← Nat.add_assoc, Nat.add_right_comm]
      exact h i (Nat.le_of_succ_le_succ hi)

/-- `strcmp` finds the memory equal to `s` exactly when it reads as `s`. -/
theorem strcmp_eq_zero (hs : NulFree s) : strcmp m a s = 0 ↔ Reads m a s := by
  induction s generalizing a with
  | nil =>
    rw [reads_nil]
    constructor
    · intro h
      by_contra h0
      exact toInt_ne_zero h0 h
    · intro h
      rw [strcmp, h]
      rfl
  | cons c s ih =>
    rw [reads_cons, strcmp]
    by_cases hc : m a = c
    · rw [if_pos hc, ih hs.tail]
      exact ⟨fun h => ⟨hc, h⟩, fun h => h.2⟩
    · rw [if_neg hc]
      constructor
      · intro h
        exact absurd (BitVec.eq_of_toInt_eq (sub_eq_zero.mp h)) hc
      · intro h
        exact absurd h.1 hc

/-- A memory reads as one string only. -/
theorem Reads.unique (hs : NulFree s) (ht : NulFree t) (h : Reads m a s) (h' : Reads m a t) :
    s = t := by
  induction s generalizing a t with
  | nil =>
    cases t with
    | nil => rfl
    | cons d t =>
      rw [reads_nil] at h
      exact absurd ((reads_cons.mp h').1.symm.trans h) (ht d List.mem_cons_self)
  | cons c s ih =>
    obtain ⟨h0, h⟩ := reads_cons.mp h
    cases t with
    | nil => exact absurd (h0.symm.trans (reads_nil.mp h')) (hs c List.mem_cons_self)
    | cons d t =>
      obtain ⟨h0', h'⟩ := reads_cons.mp h'
      rw [ih hs.tail ht.tail h h', h0.symm.trans h0']

theorem Reads.congr (h : Reads m a s) (heq : ∀ i, i ≤ s.length → m' (a + i) = m (a + i)) :
    Reads m' a s := fun i hi => (heq i hi).trans (h i hi)

theorem strncpy_in {n x : Nat} (hx : a ≤ x) (hx' : x ≤ a + min s.length n) :
    strncpy m a s n x = if x < a + min s.length n then s.getD (x - a) 0 else 0 := by
  unfold strncpy
  by_cases h : x < a + min s.length n
  · rw [if_pos ⟨hx, h⟩, if_pos h]
  · rw [if_neg (fun hlt => h hlt.2), if_pos (Nat.le_antisymm hx' (Nat.not_lt.mp h)), if_neg h]

theorem strncpy_out {n x : Nat} (hx : x < a ∨ a + min s.length n < x) :
    strncpy m a s n x = m x := by
  unfold strncpy
  rw [if_neg (by omega), if_neg (by omega)]

/-- A whole string copied reads as that string. -/
theorem strncpy_reads {n : Nat} (hn : s.length ≤ n) : Reads (strncpy m a s n) a s := by
  intro i hi
  have hmin : min s.length n = s.length := Nat.min_eq_left hn
  rw [strncpy_in (Nat.le_add_right a i) (by omega), hmin]
  by_cases h : i < s.length
  · rw [if_pos (Nat.add_lt_add_left h a), Nat.add_sub_cancel_left]
  · rw [if_neg (fun hlt => h (Nat.lt_of_add_lt_add_left hlt)), List.getD_eq_getElem?_getD,
      List.getElem?_eq_none (Nat.not_lt.mp h)]
    rfl

/-- A copy that ends inside a string reads as what was copied. -/
theorem strncpy_append_reads : Reads (strncpy m a (s ++ t) s.length) a s := by
  intro i hi
  have hmin : min (s ++ t).length s.length = s.length := by
    rw [List.length_append]
    omega
  rw [strncpy_in (Nat.le_add_right a i) (by omega), hmin, Nat.add_sub_cancel_left]
  by_cases h : i < s.length
  · rw [if_pos (Nat.add_lt_add_left h a), List.getD_eq_getElem?_getD, List.getElem?_append_left h,
      List.getD_eq_getElem?_getD]
  · rw [if_neg (fun hlt => h (Nat.lt_of_add_lt_add_left hlt)), List.getD_eq_getElem?_getD,
      List.getElem?_eq_none (Nat.not_lt.mp h)]
    rfl

/-- The first byte of a copy. -/
theorem strncpy_first {n : Nat} (hs : NulFree s) : strncpy m a s n a = 0 ↔ min s.length n = 0 := by
  rw [strncpy_in (Nat.le_refl a) (Nat.le_add_right _ _), Nat.sub_self]
  by_cases h0 : min s.length n = 0
  · simp [h0]
  · rw [if_pos (Nat.lt_add_of_pos_right (Nat.pos_of_ne_zero h0))]
    cases s with
    | nil => simp at h0
    | cons c s => exact iff_of_false (hs c List.mem_cons_self) h0

/-- A string before a copy is still read, unless its terminator is where the
copy begins and something is copied. -/
theorem reads_before_strncpy {b n : Nat} (h : Reads m a s) (hab : a + s.length ≤ b)
    (ht : NulFree t) : Reads (strncpy m b t n) a s ↔ (a + s.length = b → min t.length n = 0) := by
  have hend : s.getD s.length 0 = 0 := by simp
  constructor
  · intro hr hb
    have hlast := hr s.length (Nat.le_refl _)
    rw [hend, hb] at hlast
    exact (strncpy_first ht).mp hlast
  · intro hb i hi
    by_cases hlt : a + i < b
    · rw [strncpy_out (.inl hlt)]
      exact h i hi
    · have hi' : i = s.length := by omega
      have hab' : a + s.length = b := by omega
      rw [hi', hend, hab']
      exact (strncpy_first ht).mpr (hb hab')

/-! ## The string at an address -/

/-- The bytes at `a` up to the first zero, `max` of them at most, as `strlen` counts them. -/
def stringAt (m : Bytes) (a : Nat) : Nat → List Byte
  | 0 => []
  | max + 1 => if m a = 0 then [] else m a :: stringAt m (a + 1) max

variable {max i k : Nat}

theorem stringAt_nulFree : NulFree (stringAt m a max) := by
  induction max generalizing a with
  | zero => exact fun c hc => nomatch hc
  | succ max ih =>
    unfold stringAt
    split
    · exact fun c hc => nomatch hc
    · intro c hc
      rcases List.mem_cons.mp hc with rfl | hc
      · assumption
      · exact ih c hc

/-- The string is no longer than `k` when a zero stands among its first `k + 1` bytes. -/
theorem length_stringAt_le_iff (hk : k < max) :
    (stringAt m a max).length ≤ k ↔ ∃ j, j ≤ k ∧ m (a + j) = 0 := by
  induction max generalizing a k with
  | zero => exact absurd hk (Nat.not_lt_zero k)
  | succ max ih =>
    unfold stringAt
    by_cases h0 : m a = 0
    · rw [if_pos h0]
      exact ⟨fun _ => ⟨0, Nat.zero_le k, h0⟩, fun _ => Nat.zero_le k⟩
    rw [if_neg h0, List.length_cons]
    cases k with
    | zero =>
      constructor
      · intro h
        omega
      · rintro ⟨j, hj, hz⟩
        rw [Nat.le_zero.mp hj] at hz
        exact absurd hz h0
    | succ k =>
      rw [Nat.succ_le_succ_iff, ih (Nat.lt_of_succ_lt_succ hk)]
      constructor
      · rintro ⟨j, hj, hz⟩
        exact ⟨j + 1, Nat.succ_le_succ hj, by rwa [Nat.add_right_comm] at hz⟩
      · rintro ⟨j, hj, hz⟩
        cases j with
        | zero => exact absurd hz h0
        | succ j => exact ⟨j, Nat.le_of_succ_le_succ hj, by rwa [Nat.add_right_comm]⟩

/-- Characters in memory begin the string there. -/
theorem stringAt_append (hs : NulFree s) (h : ∀ i, i < s.length → m (a + i) = s.getD i 0) :
    stringAt m a (s.length + k) = s ++ stringAt m (a + s.length) k := by
  induction s generalizing a with
  | nil => rw [List.length_nil, Nat.zero_add, Nat.add_zero, List.nil_append]
  | cons c s ih =>
    have hc : m a = c := h 0 (Nat.succ_pos _)
    have hne : m a ≠ 0 := by
      rw [hc]
      exact hs c List.mem_cons_self
    have hrest := ih (a := a + 1) hs.tail fun i hi => by
      rw [Nat.add_assoc, Nat.add_comm 1, h (i + 1) (Nat.succ_lt_succ hi), List.getD_cons_succ]
    rw [List.length_cons, Nat.add_right_comm, stringAt, if_neg hne, hc, hrest, List.cons_append,
      Nat.add_assoc, Nat.add_comm 1]

/-! ## Buffers -/

/-- The `n` bytes from `a` on. -/
def bytesAt (m : Bytes) (a : Nat) : Nat → List Byte
  | 0 => []
  | n + 1 => m a :: bytesAt m (a + 1) n

/-- The string in a buffer: the bytes before its first zero, `none` when it has no zero. -/
def bufferString : List Byte → Option (List Byte)
  | [] => none
  | c :: rest => if c = 0 then some [] else (bufferString rest).map (c :: ·)

theorem bufferString_append_zero (hs : NulFree s) : bufferString (s ++ 0 :: t) = some s := by
  induction s with
  | nil => rfl
  | cons c s ih =>
    have hc : c ≠ 0 := hs c List.mem_cons_self
    rw [List.cons_append, bufferString, if_neg hc, ih hs.tail]
    rfl

/-- A copy of memory holds the string there when it reaches the terminator. -/
theorem bufferString_bytesAt {n : Nat} (hs : NulFree s) (h : Reads m a s) :
    bufferString (bytesAt m a n) = if s.length < n then some s else none := by
  induction n generalizing a s with
  | zero => rfl
  | succ n ih =>
    cases s with
    | nil =>
      rw [bytesAt, bufferString, if_pos (reads_nil.mp h)]
      simp
    | cons c s =>
      obtain ⟨hc, hrest⟩ := reads_cons.mp h
      have hne : m a ≠ 0 := by
        rw [hc]
        exact hs c List.mem_cons_self
      rw [bytesAt, bufferString, if_neg hne, ih hs.tail hrest, hc]
      by_cases hlt : s.length < n <;> simp [hlt]

theorem Reads.drop (h : Reads m a s) {k : Nat} (hk : k ≤ s.length) : Reads m (a + k) (s.drop k) := by
  intro i hi
  rw [List.length_drop] at hi
  rw [Nat.add_assoc, h (k + i) (by omega), List.getD_eq_getElem?_getD, List.getD_eq_getElem?_getD,
    List.getElem?_drop]

theorem bytesAt_eq_take {n : Nat} (h : Reads m a s) (hn : n ≤ s.length) : bytesAt m a n = s.take n := by
  induction n generalizing a s with
  | zero => rfl
  | succ n ih =>
    cases s with
    | nil => exact absurd hn (Nat.not_succ_le_zero n)
    | cons c s =>
      obtain ⟨hc, hrest⟩ := reads_cons.mp h
      rw [bytesAt, hc, ih hrest (Nat.le_of_succ_le_succ hn), List.take_succ_cons]

/-- `strlen` counts up to the terminator. -/
theorem stringAt_eq_take {max : Nat} (hs : NulFree s) (h : Reads m a s) :
    stringAt m a max = s.take max := by
  induction max generalizing a s with
  | zero => rfl
  | succ max ih =>
    cases s with
    | nil => rw [stringAt, if_pos (reads_nil.mp h), List.take_nil]
    | cons c s =>
      obtain ⟨hc, hrest⟩ := reads_cons.mp h
      have hne : m a ≠ 0 := by
        rw [hc]
        exact hs c List.mem_cons_self
      rw [stringAt, if_neg hne, hc, ih hs.tail hrest, List.take_succ_cons]

theorem NulFree.left (h : NulFree (s ++ t)) : NulFree s :=
  fun c hc => h c (List.mem_append_left t hc)

theorem NulFree.right (h : NulFree (s ++ t)) : NulFree t :=
  fun c hc => h c (List.mem_append_right s hc)

theorem NulFree.drop (h : NulFree s) (k : Nat) : NulFree (s.drop k) :=
  fun c hc => h c (List.mem_of_mem_drop hc)

theorem NulFree.take (h : NulFree s) (k : Nat) : NulFree (s.take k) :=
  fun c hc => h c (List.mem_of_mem_take hc)

end CString
