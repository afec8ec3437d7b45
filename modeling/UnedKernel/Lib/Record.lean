import UnedKernel.Lib.Bytes

/-! # Records in memory

A field of a record is an offset and a width. Reading and writing a field of
the record at an address are the little-endian accesses at its offset. -/

namespace ByteMem

/-- A field of a record: its offset and its width in bytes. -/
structure Field where
  off : Nat
  width : Nat
  deriving DecidableEq

namespace Field

/-- The field of the record at `a`. -/
def get (f : Field) (m : Bytes) (a : Nat) : Nat := load m (a + f.off) f.width

/-- Assign the field of the record at `a`. -/
def set (f : Field) (m : Bytes) (a v : Nat) : Bytes := store m (a + f.off) f.width v

/-- The field lies inside the first `n` bytes of its record. -/
def Within (f : Field) (n : Nat) : Prop := f.off + f.width ≤ n

/-- Two fields of one record share no byte. -/
def Disjoint (f g : Field) : Prop := Apart f.off f.width g.off g.width

instance (f : Field) (n : Nat) : Decidable (f.Within n) := inferInstanceAs (Decidable (_ ≤ _))

instance (f g : Field) : Decidable (f.Disjoint g) := inferInstanceAs (Decidable (_ ∨ _))

variable {f g : Field} (m : Bytes) {a b n : Nat} (v : Nat)

theorem get_lt : f.get m a < 256 ^ f.width := load_lt m f.width _

theorem get_set_same : f.get (f.set m a v) a = v % 256 ^ f.width := load_store_same m _ _ _

theorem get_set_disjoint (h : f.Disjoint g) : g.get (f.set m a v) a = g.get m a :=
  load_store_apart m (by rcases h with h | h <;> [left; right] <;> omega)

/-- Two records of `n` bytes that share no byte share no field. -/
theorem get_set_apart (hf : f.Within n) (hg : g.Within n) (h : a + n ≤ b ∨ b + n ≤ a) :
    g.get (f.set m a v) b = g.get m b :=
  load_store_apart m (by
    unfold Within at hf hg
    rcases h with h | h <;> [left; right] <;> omega)

/-- A field reads only the bytes of its record. -/
theorem get_congr {m m' : Bytes} (hf : f.Within n) (h : ∀ x, a ≤ x → x < a + n → m' x = m x) :
    f.get m' a = f.get m a :=
  load_congr fun i hi => h _ (by omega) (by unfold Within at hf; omega)

/-- Outside its record a write changes nothing. -/
theorem set_apply_out (hf : f.Within n) {x : Nat} (h : x < a ∨ a + n ≤ x) : f.set m a v x = m x :=
  store_apply_out m (by unfold Within at hf; omega)

end Field
end ByteMem
