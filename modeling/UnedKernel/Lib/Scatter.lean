import UnedKernel.Lib.Bytes
import UnedKernel.Lib.Indirect

/-! # Cells scattered over a memory

A list of cells of `size` bytes, each somewhere in a memory, and a flat buffer
that holds them one after the other: `gather` fills the buffer from the cells,
`scatter` writes the first `n` bytes of each cell back. -/

namespace Scatter
open ByteMem Indirect

variable (place : Nat → Nat) {m src buf : Bytes} {cells : Nat → Nat} {size n t k x a : Nat}

/-- The step of a gather: one cell to its position in the buffer. -/
def gather (m : Bytes) (size : Nat) : Bytes → Nat → Nat → Bytes := fun buf b pos =>
  copy buf pos m (place b) size

/-- The step of a scatter: the first `n` bytes at a position go to the cell. -/
def scatter (src : Bytes) (n : Nat) : Bytes → Nat → Nat → Bytes := fun m b pos =>
  copy m (place b) src pos n

variable {place}

theorem fold_gather (hsize : 0 < size) :
    fold (gather place m size) cells size 0 t buf x =
      if x < t * size then m (place (cells (x / size)) + x % size) else buf x := by
  induction t with
  | zero => rw [fold, Nat.zero_mul, if_neg (Nat.not_lt_zero x)]
  | succ t ih =>
    rw [fold, Nat.zero_add, gather, Nat.succ_mul]
    by_cases hx : t * size ≤ x ∧ x < t * size + size
    · have hdiv : x / size = t := Nat.div_eq_of_lt_le hx.1 (by rw [Nat.succ_mul]; exact hx.2)
      have hmod := Nat.div_add_mod x size
      rw [hdiv, Nat.mul_comm] at hmod
      rw [copy_apply_in _ _ hx.1 hx.2, if_pos hx.2, hdiv]
      congr 2
      omega
    · rw [copy_apply_out _ _ (by omega), ih]
      by_cases hlt : x < t * size
      · rw [if_pos hlt, if_pos (by omega)]
      · rw [if_neg hlt, if_neg (by omega)]

/-- A byte outside what is written of the cells stays. -/
theorem fold_scatter_out (h : ∀ k, k < t → a < place (cells k) ∨ place (cells k) + n ≤ a) :
    fold (scatter place src n) cells size 0 t m a = m a := by
  induction t with
  | zero => rfl
  | succ t ih =>
    rw [fold, scatter, copy_apply_out _ _ (h t (Nat.lt_succ_self t)),
      ih fun k hk => h k (Nat.lt_succ_of_lt hk)]

/-- Cells that are apart hold the bytes at their position. -/
theorem fold_scatter_in (hk : k < t) (hx : x < n)
    (h : ∀ j, j < t → j ≠ k → Apart (place (cells j)) n (place (cells k)) n) :
    fold (scatter place src n) cells size 0 t m (place (cells k) + x) = src (k * size + x) := by
  induction t with
  | zero => exact absurd hk (Nat.not_lt_zero k)
  | succ t ih =>
    rw [fold, Nat.zero_add, scatter]
    by_cases hlast : t = k
    · subst hlast
      rw [copy_apply_in _ _ (by omega) (by omega)]
      congr 1
      omega
    · have hapart := h t (Nat.lt_succ_self t) hlast
      unfold Apart at hapart
      rw [copy_apply_out _ _ (by omega)]
      exact ih (by omega) fun j hj => h j (Nat.lt_succ_of_lt hj)

end Scatter
