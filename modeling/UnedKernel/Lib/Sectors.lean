import UnedKernel.Lib.Bytes
import UnedKernel.Lib.Word

/-! # Devices of 512-byte sectors

The content of a device is a byte memory; sector `s` starts at byte `512 * s`.
Sector numbers are 64-bit words and wrap. `window` is what a transfer from a
sector on reads, `put` is what a transfer of `n` sectors leaves behind. -/

namespace Sectors
open ByteMem Word

/-- The bytes from sector `off` on. -/
def window (image : Bytes) (off : Nat) : Bytes := fun x =>
  image (512 * u64 (off + x / 512) + x % 512)

/-- The content after the first `n` sectors of `buf` are written at sector `off`. -/
def put (image : Bytes) (off : Nat) (buf : Bytes) (n : Nat) : Bytes := fun a =>
  if a / 512 < 18446744073709551616 ∧ sub64 (a / 512) off < n then
    buf (512 * sub64 (a / 512) off + a % 512)
  else image a

variable {image buf : Bytes} {off off' n x : Nat}

@[simp] theorem put_zero : put image off buf 0 = image := by
  funext a
  simp [put]

private theorem sub64_eq_iff {s i : Nat} (hs : s < 18446744073709551616)
    (ho : off < 18446744073709551616) (hi : i < 18446744073709551616) :
    sub64 s off = i ↔ s = u64 (off + i) := by
  unfold sub64 u64
  omega

/-- One more sector is one more copy. -/
theorem put_succ (ho : off < 18446744073709551616) (hn : n < 18446744073709551616) :
    put image off buf (n + 1) =
      copy (put image off buf n) (512 * u64 (off + n)) buf (512 * n) 512 := by
  funext a
  have hu := u64_lt (off + n)
  by_cases ha : a / 512 = u64 (off + n)
  · have hd : sub64 (a / 512) off = n := (sub64_eq_iff (by omega) ho hn).mpr ha
    rw [copy_apply_in _ _ (by omega) (by omega), put, if_pos ⟨by omega, by omega⟩, hd]
    congr 1
    omega
  · rw [copy_apply_out _ _ (by omega)]
    by_cases hlt : a / 512 < 18446744073709551616
    · have hd : sub64 (a / 512) off ≠ n := fun h => ha ((sub64_eq_iff hlt ho hn).mp h)
      have hiff : (sub64 (a / 512) off < n + 1) = (sub64 (a / 512) off < n) := by
        apply propext
        omega
      simp only [put, hiff]
    · rw [put, put, if_neg (by omega), if_neg (by omega)]

/-- Reading one more sector extends what was read. -/
theorem copy_window_succ :
    copy (copy buf 0 (window image off) 0 (512 * n)) (512 * n) image (512 * u64 (off + n)) 512 =
      copy buf 0 (window image off) 0 (512 * (n + 1)) := by
  funext x
  by_cases hx : 512 * n ≤ x ∧ x < 512 * n + 512
  · rw [copy_apply_in _ _ hx.1 hx.2, copy_apply_in _ _ (by omega) (by omega), window,
      show (0 + (x - 0)) / 512 = n by omega]
    congr 1
    omega
  · rw [copy_apply_out _ _ (by omega)]
    by_cases hlt : x < 512 * n
    · rw [copy_apply_in _ _ (by omega) (by omega), copy_apply_in _ _ (by omega) (by omega)]
    · rw [copy_apply_out _ _ (by omega), copy_apply_out _ _ (by omega)]

/-- What was written is read back. -/
theorem window_put_in (ho : off < 18446744073709551616) (hx : x < 512 * n)
    (hn : n < 18446744073709551616) : window (put image off buf n) off x = buf x := by
  have hu := u64_lt (off + x / 512)
  have hd : (512 * u64 (off + x / 512) + x % 512) / 512 = u64 (off + x / 512) := by omega
  have hs : sub64 (u64 (off + x / 512)) off = x / 512 :=
    (sub64_eq_iff hu ho (by omega)).mpr rfl
  rw [window, put, if_pos (by rw [hd, hs]; omega), hd, hs]
  congr 1
  omega

/-- A byte of a sector that the transfer does not reach. -/
theorem window_put_out (ho : off < 18446744073709551616) (hn : n ≤ 18446744073709551616)
    (h : ∀ i, i < n → u64 (off + i) ≠ u64 (off' + x / 512)) :
    window (put image off buf n) off' x = window image off' x := by
  have hu := u64_lt (off' + x / 512)
  have hd : (512 * u64 (off' + x / 512) + x % 512) / 512 = u64 (off' + x / 512) := by omega
  rw [window, put, if_neg ?_, window]
  rw [hd]
  intro hin
  exact h _ hin.2 ((sub64_eq_iff hu ho (by omega)).mp rfl).symm

/-- Past the end of the transfer nothing changed. -/
theorem window_put_past (ho : off < 18446744073709551616) (hn : n ≤ x / 512)
    (hx : x / 512 < 18446744073709551616) :
    window (put image off buf n) off x = window image off x :=
  window_put_out ho (by omega) fun i hi => by unfold u64; omega

/-- Below the wrap, sectors are consecutive bytes. -/
theorem window_eq (h : off + x / 512 < 18446744073709551616) :
    window image off x = image (512 * off + x) := by
  rw [window, u64_of_lt h]
  congr 1
  omega

/-- Below the wrap, a transfer is a copy. -/
theorem put_eq_copy (h : off + n ≤ 18446744073709551616) :
    put image off buf n = copy image (512 * off) buf 0 (512 * n) := by
  funext a
  unfold put sub64 u64
  by_cases ha : 512 * off ≤ a ∧ a < 512 * off + 512 * n
  · rw [copy_apply_in _ _ ha.1 ha.2, if_pos (by omega)]
    congr 1
    omega
  · rw [copy_apply_out _ _ (by omega), if_neg (by omega)]

end Sectors
