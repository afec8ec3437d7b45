import Mathlib.Tactic.Ring

/-! # Bit fields of a machine word

A field of `w` bits at bit `lo` of a word. Assigning a field truncates the
value to its width and keeps every bit outside it. -/

namespace BitField

variable {n : Nat}

/-- The value of the field of `w` bits at `lo`. -/
def field (e : BitVec n) (lo w : Nat) : Nat := (e.extractLsb' lo w).toNat

/-- Assign `v` to the field of `w` bits at `lo`. -/
def setField (e : BitVec n) (lo w v : Nat) : BitVec n :=
  (e &&& ~~~(BitVec.ofNat n ((2 ^ w - 1) <<< lo))) ||| BitVec.ofNat n ((v % 2 ^ w) <<< lo)

theorem testBit_field (e : BitVec n) (lo w k : Nat) :
    (field e lo w).testBit k = (decide (k < w) && e.getLsbD (lo + k)) := by
  rw [field, BitVec.testBit_toNat, BitVec.getLsbD_extractLsb']

theorem field_lt (e : BitVec n) (lo w : Nat) : field e lo w < 2 ^ w :=
  (e.extractLsb' lo w).isLt

theorem getLsbD_setField (e : BitVec n) {lo w : Nat} (v k : Nat) (h : lo + w ≤ n) :
    (setField e lo w v).getLsbD k =
      if lo ≤ k ∧ k < lo + w then v.testBit (k - lo) else e.getLsbD k := by
  simp only [setField, BitVec.getLsbD_or, BitVec.getLsbD_and, BitVec.getLsbD_not,
    BitVec.getLsbD_ofNat, Nat.testBit_shiftLeft, Nat.testBit_two_pow_sub_one,
    Nat.testBit_mod_two_pow]
  split
  · rename_i hk
    have h1 : k < n := by omega
    have h2 : k - lo < w := by omega
    simp [h1, h2, hk.1]
  · rename_i hk
    by_cases hn : k < n
    · by_cases hlo : lo ≤ k
      · have h2 : ¬ k - lo < w := by omega
        simp [hn, h2]
      · simp [hn, hlo]
    · simp [hn, BitVec.getLsbD_of_ge e k (by omega)]

/-- A field keeps what was assigned to it, truncated to its width. -/
theorem field_setField_same (e : BitVec n) {lo w : Nat} (v : Nat) (h : lo + w ≤ n) :
    field (setField e lo w v) lo w = v % 2 ^ w := by
  apply Nat.eq_of_testBit_eq
  intro k
  rw [testBit_field, getLsbD_setField e v _ h, Nat.testBit_mod_two_pow]
  by_cases hk : k < w
  · simp [hk]
  · simp [hk]

/-- Assigning a field leaves the fields apart from it alone. -/
theorem field_setField_apart (e : BitVec n) {lo w lo' w' : Nat} (v : Nat) (h : lo + w ≤ n)
    (hap : lo + w ≤ lo' ∨ lo' + w' ≤ lo) : field (setField e lo w v) lo' w' = field e lo' w' := by
  apply Nat.eq_of_testBit_eq
  intro k
  rw [testBit_field, testBit_field, getLsbD_setField e v _ h]
  by_cases hk : k < w'
  · rw [if_neg (by omega)]
  · simp [hk]

end BitField
