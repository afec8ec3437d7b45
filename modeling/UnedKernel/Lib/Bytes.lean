import Mathlib.Tactic.Ring

/-! # Byte memories with little-endian access

A memory is a total function from addresses to bytes. A field of `n` bytes at
address `a` is read by `load` and written by `store`, both little-endian, as
natural numbers. The laws are those a record in memory needs: a field keeps
what was written to it, truncated to its width, and a write leaves every
disjoint field alone. -/

namespace ByteMem

abbrev Byte := BitVec 8

/-- A memory, a buffer or a disk: a byte at every address. -/
abbrev Bytes := Nat → Byte

/-- The `n`-byte little-endian field at `a`. -/
def load (m : Bytes) (a : Nat) : Nat → Nat
  | 0 => 0
  | n + 1 => (m a).toNat + 256 * load m (a + 1) n

/-- Write the low `n` bytes of `v` at `a`. -/
def store (m : Bytes) (a n v : Nat) : Bytes := fun x =>
  if a ≤ x ∧ x < a + n then BitVec.ofNat 8 (v / 256 ^ (x - a)) else m x

/-- Copy `n` bytes of `src` from `s` to `d`. -/
def copy (m : Bytes) (d : Nat) (src : Bytes) (s n : Nat) : Bytes := fun x =>
  if d ≤ x ∧ x < d + n then src (s + (x - d)) else m x

/-- Set `n` bytes at `a` to `v`. -/
def fill (m : Bytes) (a n : Nat) (v : Byte) : Bytes := fun x =>
  if a ≤ x ∧ x < a + n then v else m x

/-- The ranges `[a, a + n)` and `[b, b + k)` share no address. -/
def Apart (a n b k : Nat) : Prop := a + n ≤ b ∨ b + k ≤ a

/-! ## Reading -/

theorem load_lt (m : Bytes) (n a : Nat) : load m a n < 256 ^ n := by
  induction n generalizing a with
  | zero => simp [load]
  | succ n ih =>
    have hb := (m a).isLt
    have := ih (a + 1)
    simp only [load, Nat.pow_succ]
    omega

theorem load_shift {m m' : Bytes} {n a b : Nat} (h : ∀ i, i < n → m (a + i) = m' (b + i)) :
    load m a n = load m' b n := by
  induction n generalizing a b with
  | zero => rfl
  | succ n ih =>
    have hfirst := h 0 (Nat.succ_pos n)
    rw [load, load, show m a = m' b from hfirst, ih fun i hi => ?_]
    have := h (i + 1) (Nat.succ_lt_succ hi)
    rwa [Nat.add_right_comm a 1 i, Nat.add_right_comm b 1 i]

/-- A field reads only its own bytes. -/
theorem load_congr {m m' : Bytes} {n a : Nat} (h : ∀ i, i < n → m (a + i) = m' (a + i)) :
    load m a n = load m' a n :=
  load_shift h

/-- Bit `k` of a field is bit `k % 8` of its byte `k / 8`. -/
theorem testBit_load (m : Bytes) {n a k : Nat} (hk : k < 8 * n) :
    (load m a n).testBit k = (m (a + k / 8)).getLsbD (k % 8) := by
  induction n generalizing a k with
  | zero => omega
  | succ n ih =>
    have hb : (m a).toNat < 2 ^ 8 := (m a).isLt
    have hl : load m a (n + 1) = 2 ^ 8 * load m (a + 1) n + (m a).toNat := by
      simp only [load]; omega
    rw [hl, Nat.testBit_two_pow_mul_add _ hb]
    split
    · rename_i h8
      rw [Nat.div_eq_of_lt h8, Nat.mod_eq_of_lt h8]
      simp [BitVec.getLsbD]
    · rw [ih (by omega), show a + 1 + (k - 8) / 8 = a + k / 8 by omega,
        show (k - 8) % 8 = k % 8 by omega]

/-! ## Writing -/

theorem store_apply_in (m : Bytes) {a n v x : Nat} (h : a ≤ x) (h' : x < a + n) :
    store m a n v x = BitVec.ofNat 8 (v / 256 ^ (x - a)) := if_pos ⟨h, h'⟩

theorem store_apply_out (m : Bytes) {a n v x : Nat} (h : x < a ∨ a + n ≤ x) :
    store m a n v x = m x := if_neg (by omega)

theorem copy_apply_in (m src : Bytes) {d s n x : Nat} (h : d ≤ x) (h' : x < d + n) :
    copy m d src s n x = src (s + (x - d)) := if_pos ⟨h, h'⟩

theorem copy_apply_out (m src : Bytes) {d s n x : Nat} (h : x < d ∨ d + n ≤ x) :
    copy m d src s n x = m x := if_neg (by omega)

theorem fill_apply_in (m : Bytes) {a n x : Nat} {v : Byte} (h : a ≤ x) (h' : x < a + n) :
    fill m a n v x = v := if_pos ⟨h, h'⟩

theorem fill_apply_out (m : Bytes) {a n x : Nat} {v : Byte} (h : x < a ∨ a + n ≤ x) :
    fill m a n v x = m x := if_neg (by omega)

/-- A field keeps what was written to it, truncated to its width. -/
theorem load_store_same (m : Bytes) (n a v : Nat) : load (store m a n v) a n = v % 256 ^ n := by
  induction n generalizing m a v with
  | zero => simp [load, Nat.mod_one]
  | succ n ih =>
    have htail : load (store m a (n + 1) v) (a + 1) n = load (store m (a + 1) n (v / 256)) (a + 1) n := by
      apply load_congr
      intro i hi
      rw [store_apply_in m (by omega) (by omega), store_apply_in m (by omega) (by omega),
        Nat.div_div_eq_div_mul, show a + 1 + i - a = (a + 1 + i - (a + 1)) + 1 by omega,
        Nat.pow_succ, Nat.mul_comm]
    have hhead : (store m a (n + 1) v a).toNat = v % 256 := by
      rw [store_apply_in m (by omega) (by omega)]
      simp
    have hmod : v % 256 ^ (n + 1) = v % 256 + 256 * (v / 256 % 256 ^ n) := by
      rw [Nat.pow_succ, Nat.mul_comm, Nat.mod_mul]
    simp only [load]
    rw [htail, ih, hhead, hmod]

/-- A write leaves every field apart from it alone. -/
theorem load_store_apart (m : Bytes) {n a v b k : Nat} (h : Apart a n b k) :
    load (store m a n v) b k = load m b k :=
  load_congr fun i hi => store_apply_out m (by rcases h with h | h <;> omega)

theorem load_copy_apart (m src : Bytes) {d s n b k : Nat} (h : Apart d n b k) :
    load (copy m d src s n) b k = load m b k :=
  load_congr fun i hi => copy_apply_out m src (by rcases h with h | h <;> omega)

/-- A field inside a copied range is the field of the source. -/
theorem load_copy_in (m src : Bytes) {d s n b k : Nat} (h : d ≤ b) (h' : b + k ≤ d + n) :
    load (copy m d src s n) b k = load src (s + (b - d)) k :=
  load_shift fun i hi => by
    rw [copy_apply_in m src (by omega) (by omega), show s + (b + i - d) = s + (b - d) + i by omega]

/-- A field takes a value modulo its range. -/
theorem store_mod (m : Bytes) (a n v : Nat) : store m a n (v % 256 ^ n) = store m a n v := by
  funext x
  unfold store
  split
  · rename_i hx
    have hpow : 256 ^ n = 256 ^ (x - a) * 256 ^ (n - (x - a)) := by
      rw [← Nat.pow_add, Nat.add_sub_cancel' (by omega)]
    have hdvd : 256 ∣ 256 ^ (n - (x - a)) := dvd_pow_self 256 (by omega)
    apply BitVec.eq_of_toNat_eq
    rw [BitVec.toNat_ofNat, BitVec.toNat_ofNat, hpow, Nat.mod_mul_right_div_self]
    exact Nat.mod_mod_of_dvd _ hdvd
  · rfl

/-- Writing back what a field holds changes nothing. -/
theorem store_load_self (m : Bytes) (a n : Nat) : store m a n (load m a n) = m := by
  funext x
  by_cases hx : a ≤ x ∧ x < a + n
  · rw [store_apply_in m hx.1 hx.2]
    apply BitVec.eq_of_getLsbD_eq
    intro i hi
    have hp : (256 : Nat) ^ (x - a) = 2 ^ (8 * (x - a)) := by rw [Nat.pow_mul]
    rw [BitVec.getLsbD_ofNat, hp, Nat.testBit_div_two_pow, testBit_load m (by omega),
      show a + (i + 8 * (x - a)) / 8 = x by omega, show (i + 8 * (x - a)) % 8 = i by omega]
    simp [hi]
  · exact store_apply_out m (by omega)

end ByteMem
