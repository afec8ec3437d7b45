import Mathlib.Tactic.Ring

/-! # Machine words as natural numbers

The value of an unsigned machine word is a natural number below its modulus.
The moduli are numerals, so that `omega` decides what unfolds to them. -/

namespace Word

/-- Truncation to 16 bits. -/
def u16 (x : Nat) : Nat := x % 65536

/-- Truncation to 32 bits. -/
def u32 (x : Nat) : Nat := x % 4294967296

/-- Truncation to 64 bits. -/
def u64 (x : Nat) : Nat := x % 18446744073709551616

/-- Unsigned 64-bit subtraction of a word. -/
def sub64 (x y : Nat) : Nat := u64 (x + (18446744073709551616 - y))

/-- Unsigned 32-bit subtraction of a word. -/
def sub32 (x y : Nat) : Nat := u32 (x + (4294967296 - y))

/-- Unsigned 16-bit subtraction of a word. -/
def sub16 (x y : Nat) : Nat := u16 (x + (65536 - y))

/-- A 32-bit word as the `int` it converts to, widened to 64 bits. -/
def sext32 (x : Nat) : Nat :=
  if x < 2147483648 then x else x + 18446744069414584320

theorem u32_of_lt {x : Nat} (h : x < 4294967296) : u32 x = x := Nat.mod_eq_of_lt h

theorem u64_of_lt {x : Nat} (h : x < 18446744073709551616) : u64 x = x := Nat.mod_eq_of_lt h

theorem u32_lt (x : Nat) : u32 x < 4294967296 := Nat.mod_lt _ (by omega)

theorem u64_lt (x : Nat) : u64 x < 18446744073709551616 := Nat.mod_lt _ (by omega)

theorem sub64_of_le {x y : Nat} (h : y ≤ x) (hx : x < 18446744073709551616) :
    sub64 x y = x - y := by
  unfold sub64 u64; omega

theorem sub32_of_le {x y : Nat} (h : y ≤ x) (hx : x < 4294967296) : sub32 x y = x - y := by
  unfold sub32 u32; omega

theorem sub16_of_le {x y : Nat} (h : y ≤ x) (hx : x < 65536) : sub16 x y = x - y := by
  unfold sub16 u16; omega

theorem sext32_of_lt {x : Nat} (h : x < 2147483648) : sext32 x = x := if_pos h

end Word
