import Mathlib.Data.Nat.Count
import UnedKernel.Lib.Bytes

/-! # Bitmaps in byte memories

Bit `k` of a bitmap is bit `k % 8` of byte `k / 8`. Setting and clearing act
on one bit; the number of clear bits moves by one with each. -/

namespace Bitmap
open ByteMem

/-- Bit `k` of the bitmap `b`. -/
def bit (b : Bytes) (k : Nat) : Bool := (b (k / 8)).getLsbD (k % 8)

def setBit (b : Bytes) (k : Nat) : Bytes := fun i =>
  if i = k / 8 then b i ||| (1#8 <<< (k % 8)) else b i

def clearBit (b : Bytes) (k : Nat) : Bytes := fun i =>
  if i = k / 8 then b i &&& ~~~(1#8 <<< (k % 8)) else b i

/-- The number of clear bits among the first `n`. -/
def clearCount (b : Bytes) (n : Nat) : Nat := Nat.count (fun k => bit b k = false) n

private theorem getLsbD_oneHot {i j : Nat} (hi : i < 8) (hj : j < 8) :
    (1#8 <<< i).getLsbD j = decide (j = i) := by
  have hall : ∀ i : Fin 8, ∀ j : Fin 8, (1#8 <<< i.val).getLsbD j.val = decide (j.val = i.val) := by
    decide
  exact hall ⟨i, hi⟩ ⟨j, hj⟩

theorem bit_setBit (b : Bytes) (k j : Nat) : bit (setBit b k) j = (decide (j = k) || bit b j) := by
  unfold bit setBit
  by_cases hb : j / 8 = k / 8
  · rw [if_pos hb, BitVec.getLsbD_or, getLsbD_oneHot (by omega) (by omega), Bool.or_comm]
    congr 1
    exact decide_eq_decide.mpr (by omega)
  · rw [if_neg hb]
    have hne : j ≠ k := by rintro rfl; exact hb rfl
    simp [hne]

theorem bit_clearBit (b : Bytes) (k j : Nat) :
    bit (clearBit b k) j = (!decide (j = k) && bit b j) := by
  unfold bit clearBit
  by_cases hb : j / 8 = k / 8
  · rw [if_pos hb, BitVec.getLsbD_and, BitVec.getLsbD_not,
      getLsbD_oneHot (by omega) (by omega), Bool.and_comm]
    have hd : decide (j % 8 = k % 8) = decide (j = k) := decide_eq_decide.mpr (by omega)
    have h8 : j % 8 < 8 := Nat.mod_lt _ (by omega)
    simp [hd, h8]
  · rw [if_neg hb]
    have hne : j ≠ k := by rintro rfl; exact hb rfl
    simp [hne]

@[simp] theorem bit_setBit_self (b : Bytes) (k : Nat) : bit (setBit b k) k = true := by
  simp [bit_setBit]

@[simp] theorem bit_clearBit_self (b : Bytes) (k : Nat) : bit (clearBit b k) k = false := by
  simp [bit_clearBit]

theorem bit_setBit_of_ne (b : Bytes) {k j : Nat} (h : j ≠ k) : bit (setBit b k) j = bit b j := by
  simp [bit_setBit, h]

theorem bit_clearBit_of_ne (b : Bytes) {k j : Nat} (h : j ≠ k) :
    bit (clearBit b k) j = bit b j := by
  simp [bit_clearBit, h]

theorem bit_congr {b b' : Bytes} {k : Nat} (h : b (k / 8) = b' (k / 8)) : bit b k = bit b' k := by
  simp [bit, h]

/-! ## Counting clear bits -/

theorem clearCount_succ (b : Bytes) (n : Nat) :
    clearCount b (n + 1) = clearCount b n + if bit b n = false then 1 else 0 := Nat.count_succ ..

theorem clearCount_congr {b b' : Bytes} {n : Nat} (h : ∀ j, j < n → bit b' j = bit b j) :
    clearCount b' n = clearCount b n := by
  induction n with
  | zero => rfl
  | succ n ih =>
    rw [clearCount_succ, clearCount_succ, ih fun j hj => h j (by omega), h n (by omega)]

theorem clearCount_le (b : Bytes) (n : Nat) : clearCount b n ≤ n := Nat.count_le ..

theorem clearCount_le_of {b : Bytes} {n m : Nat} (h : ∀ k, k < n → bit b k = false → k < m) :
    clearCount b n ≤ m := by
  induction n with
  | zero => exact Nat.zero_le m
  | succ n ih =>
    rw [clearCount_succ]
    split
    · rename_i hclear
      have := clearCount_le b n
      have := h n (by omega) hclear
      omega
    · exact ih fun k hk => h k (by omega)

theorem clearCount_interval {b : Bytes} {n a c : Nat}
    (h : ∀ k, k < n → (bit b k = false ↔ a ≤ k ∧ k < c)) : clearCount b n = min n c - a := by
  induction n with
  | zero => simp [clearCount]
  | succ n ih =>
    have hlast := h n (by omega)
    rw [clearCount_succ, ih fun k hk => h k (by omega)]
    split
    · have := hlast.mp ‹_›
      omega
    · rename_i hset
      have : ¬ (a ≤ n ∧ n < c) := fun hin => hset (hlast.mpr hin)
      omega

/-- Setting a clear bit takes one from the count. -/
theorem clearCount_taken {b b' : Bytes} {n k : Nat} (hk : k < n) (hclear : bit b k = false)
    (h : ∀ j, j < n → bit b' j = (decide (j = k) || bit b j)) :
    clearCount b' n + 1 = clearCount b n := by
  induction n with
  | zero => omega
  | succ n ih =>
    have hlast := h n (by omega)
    rw [clearCount_succ, clearCount_succ]
    by_cases hkn : k = n
    · subst hkn
      have hbelow : clearCount b' k = clearCount b k := clearCount_congr fun j hj => by
        have hne : j ≠ k := by omega
        simpa [hne] using h j (by omega)
      simp [hbelow, hlast, hclear]
    · have hne : n ≠ k := fun he => hkn he.symm
      have := ih (by omega) fun j hj => h j (by omega)
      simp only [hlast, hne, decide_false, Bool.false_or]
      omega

/-- Clearing a set bit adds one to the count. -/
theorem clearCount_given {b b' : Bytes} {n k : Nat} (hk : k < n) (hset : bit b k = true)
    (h : ∀ j, j < n → bit b' j = (!decide (j = k) && bit b j)) :
    clearCount b' n = clearCount b n + 1 := by
  refine Eq.symm (clearCount_taken hk (by simp [h k hk]) fun j hj => ?_)
  rw [h j hj]
  by_cases hjk : j = k
  · simp [hjk, hset]
  · simp [hjk]

/-! ## Words of a bitmap

A bitmap is also an array of little-endian words of `w` bytes: bit `k` of word
`j` is bit `8 * w * j + k` of the bitmap. -/

/-- Word `j`. -/
def word (w : Nat) (b : Bytes) (j : Nat) : Nat := load b (w * j) w

/-- The first clear bit of a word among its bits from `k` on, `n` of them left. -/
def scanBits (x k : Nat) : Nat → Option Nat
  | 0 => none
  | n + 1 => if x.testBit k then scanBits x (k + 1) n else some k

/-- The first clear bit of the words from `j` on, `n` of them left: full words
are skipped as a whole. -/
def scanWords (w : Nat) (b : Bytes) (j : Nat) : Nat → Option (Nat × Nat)
  | 0 => none
  | n + 1 =>
    if word w b j = 256 ^ w - 1 then scanWords w b (j + 1) n
    else match scanBits (word w b j) 0 (8 * w) with
      | some k => some (j, k)
      | none => scanWords w b (j + 1) n

theorem testBit_word (b : Bytes) {w j k : Nat} (hk : k < 8 * w) :
    (word w b j).testBit k = bit b (8 * (w * j) + k) := by
  rw [word, testBit_load b hk, bit, show (8 * (w * j) + k) / 8 = w * j + k / 8 by omega,
    show (8 * (w * j) + k) % 8 = k % 8 by omega]

theorem scanBits_some {x k n r : Nat} (h : scanBits x k n = some r) :
    k ≤ r ∧ r < k + n ∧ x.testBit r = false ∧ ∀ i, k ≤ i → i < r → x.testBit i = true := by
  induction n generalizing k with
  | zero => cases h
  | succ n ih =>
    rw [scanBits] at h
    split at h
    · rename_i hk
      obtain ⟨hle, hlt, hr, hbelow⟩ := ih h
      refine ⟨by omega, by omega, hr, fun i hi hir => ?_⟩
      rcases Nat.eq_or_lt_of_le hi with rfl | hi
      · exact hk
      · exact hbelow i hi hir
    · rename_i hk
      cases h
      exact ⟨Nat.le_refl _, by omega, by simpa using hk, fun i hi hir => absurd hir (by omega)⟩

theorem scanBits_none {x k n : Nat} (h : scanBits x k n = none) :
    ∀ i, k ≤ i → i < k + n → x.testBit i = true := by
  induction n generalizing k with
  | zero => intro i hi hin; omega
  | succ n ih =>
    rw [scanBits] at h
    split at h
    · rename_i hk
      intro i hi hin
      rcases Nat.eq_or_lt_of_le hi with rfl | hi
      · exact hk
      · exact ih h i hi (by omega)
    · cases h

/-- A full word has no clear bit. -/
theorem bit_of_full {w j k : Nat} {b : Bytes} (hfull : word w b j = 256 ^ w - 1)
    (hk : k < 8 * w) : bit b (8 * (w * j) + k) = true := by
  rw [← testBit_word b hk, hfull, show (256 : Nat) ^ w = 2 ^ (8 * w) by rw [Nat.pow_mul],
    Nat.testBit_two_pow_sub_one]
  exact decide_eq_true hk

/-- The bits of the words from `j` on are those of word `j` and those of the rest. -/
private theorem bits_cons {w j n : Nat} {p : Nat → Prop}
    (hhead : ∀ k, k < 8 * w → p (8 * (w * j) + k))
    (htail : ∀ i, 8 * (w * (j + 1)) ≤ i → i < 8 * (w * (j + 1 + n)) → p i) :
    ∀ i, 8 * (w * j) ≤ i → i < 8 * (w * (j + (n + 1))) → p i := by
  intro i hi hin
  rw [show j + (n + 1) = j + 1 + n by omega] at hin
  have hmul : w * (j + 1) = w * j + w := Nat.mul_succ w j
  by_cases hhd : i < 8 * (w * j) + 8 * w
  · have := hhead (i - 8 * (w * j)) (by omega)
    rwa [show 8 * (w * j) + (i - 8 * (w * j)) = i by omega] at this
  · exact htail i (by omega) hin

/-- What the scan finds is clear, and all bits before it are set. -/
theorem scanWords_some {w j n r k : Nat} {b : Bytes} (h : scanWords w b j n = some (r, k)) :
    j ≤ r ∧ r < j + n ∧ k < 8 * w ∧ bit b (8 * (w * r) + k) = false ∧
      ∀ i, 8 * (w * j) ≤ i → i < 8 * (w * r) + k → bit b i = true := by
  induction n generalizing j with
  | zero => cases h
  | succ n ih =>
    have hstep (hfull : ∀ k, k < 8 * w → bit b (8 * (w * j) + k) = true)
        (h : scanWords w b (j + 1) n = some (r, k)) :
        j ≤ r ∧ r < j + (n + 1) ∧ k < 8 * w ∧ bit b (8 * (w * r) + k) = false ∧
          ∀ i, 8 * (w * j) ≤ i → i < 8 * (w * r) + k → bit b i = true := by
      obtain ⟨hle, hlt, hk, hbit, hbelow⟩ := ih h
      refine ⟨by omega, by omega, hk, hbit, fun i hi hir => ?_⟩
      have hmul : w * (j + 1) = w * j + w := Nat.mul_succ w j
      by_cases hhd : i < 8 * (w * j) + 8 * w
      · have := hfull (i - 8 * (w * j)) (by omega)
        rwa [show 8 * (w * j) + (i - 8 * (w * j)) = i by omega] at this
      · exact hbelow i (by omega) hir
    rw [scanWords] at h
    split at h
    · exact hstep (fun k hk => bit_of_full ‹_› hk) h
    · cases hs : scanBits (word w b j) 0 (8 * w) with
      | some q =>
        rw [hs] at h
        cases h
        obtain ⟨-, hq, hclear, hbelow⟩ := scanBits_some hs
        have hq' : k < 8 * w := by omega
        refine ⟨Nat.le_refl _, by omega, hq', by rw [← testBit_word b hq']; exact hclear,
          fun i hi hir => ?_⟩
        have := hbelow (i - 8 * (w * r)) (by omega) (by omega)
        rwa [testBit_word b (by omega), show 8 * (w * r) + (i - 8 * (w * r)) = i by omega] at this
      | none =>
        rw [hs] at h
        refine hstep (fun k hk => ?_) h
        rw [← testBit_word b hk]
        exact scanBits_none hs k (by omega) (by omega)

/-- A scan that finds nothing has seen set bits only. -/
theorem scanWords_none {w j n : Nat} {b : Bytes} (h : scanWords w b j n = none) :
    ∀ i, 8 * (w * j) ≤ i → i < 8 * (w * (j + n)) → bit b i = true := by
  induction n generalizing j with
  | zero => intro i hi hin; simp only [Nat.add_zero] at hin; omega
  | succ n ih =>
    rw [scanWords] at h
    split at h
    · exact bits_cons (fun k hk => bit_of_full ‹_› hk) (ih h)
    · cases hs : scanBits (word w b j) 0 (8 * w) with
      | some q => rw [hs] at h; cases h
      | none =>
        rw [hs] at h
        refine bits_cons (fun k hk => ?_) (ih h)
        rw [← testBit_word b hk]
        exact scanBits_none hs k (by omega) (by omega)

/-- Bit `k` is clear and all before it are set, among the first `n`. -/
def FirstClear (b : Bytes) (n k : Nat) : Prop :=
  k < n ∧ bit b k = false ∧ ∀ i, i < k → bit b i = true

/-- All of the first `n` bits are set. -/
def Full (b : Bytes) (n : Nat) : Prop := ∀ i, i < n → bit b i = true

theorem FirstClear.not_full {b : Bytes} {n k : Nat} (h : FirstClear b n k) : ¬ Full b n := by
  intro hfull
  have := hfull k h.1
  rw [h.2.1] at this
  cases this

theorem FirstClear.congr {b b' : Bytes} {n k : Nat} (hb : ∀ i, i < n → bit b' i = bit b i)
    (h : FirstClear b n k) : FirstClear b' n k :=
  ⟨h.1, by rw [hb k h.1]; exact h.2.1, fun i hi => by
    rw [hb i (Nat.lt_trans hi h.1)]; exact h.2.2 i hi⟩

theorem FirstClear.unique {b : Bytes} {n k k' : Nat} (h : FirstClear b n k)
    (h' : FirstClear b n k') : k = k' := by
  rcases Nat.lt_trichotomy k k' with hlt | rfl | hlt
  · have := h'.2.2 k hlt
    rw [h.2.1] at this
    cases this
  · rfl
  · have := h.2.2 k' hlt
    rw [h'.2.1] at this
    cases this

theorem scanWords_firstClear {w n j k : Nat} {b : Bytes} (h : scanWords w b 0 n = some (j, k)) :
    k < 8 * w ∧ FirstClear b (8 * (w * n)) (8 * (w * j) + k) := by
  obtain ⟨-, hj, hk, hclear, hbelow⟩ := scanWords_some h
  have hmul : w * (j + 1) ≤ w * n := Nat.mul_le_mul_left w (by omega)
  rw [Nat.mul_succ] at hmul
  exact ⟨hk, by omega, hclear, fun i hi => hbelow i (by omega) hi⟩

theorem scanWords_full {w n : Nat} {b : Bytes} (h : scanWords w b 0 n = none) :
    Full b (8 * (w * n)) := fun i hi =>
  scanWords_none h i (by omega) (by simpa using hi)

/-- Bit `k` of word `j` is set. -/
def setWordBit (w : Nat) (b : Bytes) (j k : Nat) : Bytes :=
  store b (w * j) w (word w b j ||| 2 ^ k)

/-- Bit `k` of word `j` is cleared. -/
def clearWordBit (w : Nat) (b : Bytes) (j k : Nat) : Bytes :=
  store b (w * j) w (word w b j &&& (256 ^ w - 1 ^^^ 2 ^ k))

theorem ext_bit {b b' : Bytes} (h : ∀ k, bit b k = bit b' k) : b = b' := by
  funext x
  apply BitVec.eq_of_getLsbD_eq
  intro i hi
  have := h (8 * x + i)
  rwa [bit, bit, show (8 * x + i) / 8 = x by omega, show (8 * x + i) % 8 = i by omega] at this

theorem clearBit_setBit {b : Bytes} {k : Nat} (h : bit b k = false) : clearBit (setBit b k) k = b := by
  apply ext_bit
  intro j
  rw [bit_clearBit, bit_setBit]
  by_cases hj : j = k
  · rw [hj, h]
    simp
  · simp [hj]

theorem bit_store (b : Bytes) (a w v i : Nat) : bit (store b a w v) i =
    if 8 * a ≤ i ∧ i < 8 * (a + w) then v.testBit (i - 8 * a) else bit b i := by
  split
  · have hp : (256 : Nat) ^ (i / 8 - a) = 2 ^ (8 * (i / 8 - a)) := by rw [Nat.pow_mul]
    have h8 : i % 8 < 8 := Nat.mod_lt _ (by omega)
    rw [bit, store_apply_in b (by omega) (by omega), BitVec.getLsbD_ofNat, hp,
      Nat.testBit_div_two_pow, show i % 8 + 8 * (i / 8 - a) = i - 8 * a by omega]
    simp [h8]
  · exact bit_congr (store_apply_out b (by omega))

theorem setWordBit_eq (b : Bytes) {w j k : Nat} (hk : k < 8 * w) :
    setWordBit w b j k = setBit b (8 * (w * j) + k) := by
  apply ext_bit
  intro i
  rw [setWordBit, bit_store, bit_setBit]
  split
  · rw [Nat.testBit_or, testBit_word b (by omega), Nat.testBit_two_pow,
      show 8 * (w * j) + (i - 8 * (w * j)) = i by omega, Bool.or_comm]
    congr 1
    exact decide_eq_decide.mpr (by omega)
  · have hne : i ≠ 8 * (w * j) + k := by omega
    simp [hne]

theorem clearWordBit_eq (b : Bytes) {w j k : Nat} (hk : k < 8 * w) :
    clearWordBit w b j k = clearBit b (8 * (w * j) + k) := by
  apply ext_bit
  intro i
  rw [clearWordBit, bit_store, bit_clearBit]
  split
  · have hi : i - 8 * (w * j) < 8 * w := by omega
    rw [Nat.testBit_and, Nat.testBit_xor, testBit_word b hi, Nat.testBit_two_pow,
      show (256 : Nat) ^ w = 2 ^ (8 * w) by rw [Nat.pow_mul], Nat.testBit_two_pow_sub_one,
      show 8 * (w * j) + (i - 8 * (w * j)) = i by omega, Bool.and_comm]
    have hd : decide (k = i - 8 * (w * j)) = decide (i = 8 * (w * j) + k) :=
      decide_eq_decide.mpr (by omega)
    simp [hd, hi]
  · have hne : i ≠ 8 * (w * j) + k := by omega
    simp [hne]

end Bitmap
