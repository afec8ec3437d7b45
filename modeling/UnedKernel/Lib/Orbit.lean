import Mathlib.Data.Fintype.Pigeonhole
import Mathlib.Logic.Function.Iterate

/-! # Loops over positions

A loop goes from a position to the next while it is below a bound. It ends when
and only when no position comes again. -/

namespace Orbit

variable {next : Nat → Nat} {size p q k : Nat}

/-- The loop from `p` on still runs in its turn `k`. -/
def Runs (next : Nat → Nat) (size p k : Nat) : Prop := ∀ j, j ≤ k → next^[j] p < size

/-- A position comes again while the loop runs. -/
def Repeats (next : Nat → Nat) (size p : Nat) : Prop :=
  ∃ i j, i < j ∧ Runs next size p j ∧ next^[i] p = next^[j] p

theorem Runs.mono (h : Runs next size p k) {j : Nat} (hj : j ≤ k) : Runs next size p j :=
  fun i hi => h i (Nat.le_trans hi hj)

theorem runs_zero : Runs next size p 0 ↔ p < size :=
  ⟨fun h => h 0 (Nat.le_refl 0), fun h j hj => by rw [Nat.le_zero.mp hj]; exact h⟩

theorem runs_succ : Runs next size p (k + 1) ↔ p < size ∧ Runs next size (next p) k := by
  constructor
  · intro h
    refine ⟨h 0 (Nat.zero_le _), fun j hj => ?_⟩
    have := h (j + 1) (Nat.succ_le_succ hj)
    rwa [Function.iterate_succ_apply] at this
  · intro h j hj
    cases j with
    | zero => exact h.1
    | succ j =>
      rw [Function.iterate_succ_apply]
      exact h.2 j (Nat.le_of_succ_le_succ hj)

/-- Positions that come again keep coming. -/
theorem iterate_mod {i j : Nat} (hij : i < j) (h : next^[i] p = next^[j] p) (m : Nat) :
    next^[i + m] p = next^[i + m % (j - i)] p := by
  induction m using Nat.strong_induction_on with
  | _ m ih =>
    by_cases hm : m < j - i
    · rw [Nat.mod_eq_of_lt hm]
    · have hstep := ih (m - (j - i)) (by omega)
      rw [Nat.mod_eq_sub_mod (by omega), ← hstep, show i + m = m - (j - i) + j by omega,
        Function.iterate_add_apply, ← h, ← Function.iterate_add_apply]
      congr 1
      omega

/-- A loop in which a position comes again does not end. -/
theorem Repeats.runs (h : Repeats next size p) (k : Nat) : Runs next size p k := by
  obtain ⟨i, j, hij, hruns, heq⟩ := h
  intro n _
  by_cases hn : n ≤ j
  · exact hruns n hn
  · have hmod := iterate_mod hij heq (n - i)
    rw [show i + (n - i) = n by omega] at hmod
    rw [hmod]
    have := Nat.mod_lt (n - i) (show 0 < j - i by omega)
    exact hruns _ (by omega)

/-- A loop that runs for as many turns as there are positions meets one again. -/
theorem repeats_of_runs (h : Runs next size p size) : Repeats next size p := by
  let f : Fin (size + 1) → Fin size := fun i => ⟨next^[i.val] p, h i.val (Nat.le_of_lt_succ i.isLt)⟩
  obtain ⟨i, j, hne, heq⟩ := Fintype.exists_ne_map_eq_of_card_lt f (by simp)
  have heq : next^[i.val] p = next^[j.val] p := congrArg Fin.val heq
  have hval : i.val ≠ j.val := fun he => hne (Fin.ext he)
  rcases Nat.lt_or_gt_of_ne hval with hlt | hlt
  · exact ⟨i, j, hlt, h.mono (Nat.le_of_lt_succ j.isLt), heq⟩
  · exact ⟨j, i, hlt, h.mono (Nat.le_of_lt_succ i.isLt), heq.symm⟩

theorem repeats_iff_runs {turns : Nat} (hturns : size ≤ turns) :
    Repeats next size p ↔ Runs next size p turns :=
  ⟨fun h => h.runs turns, fun h => repeats_of_runs (h.mono hturns)⟩

/-- Where every turn goes on, no position comes again; where one stays, it does. -/
theorem repeats_iff_stays (hle : ∀ q, q < size → q ≤ next q) :
    Repeats next size p ↔ ∃ k, Runs next size p k ∧ next (next^[k] p) = next^[k] p := by
  constructor
  · intro ⟨i, j, hij, hruns, heq⟩
    by_contra hne
    have hlt (k : Nat) (hk : k ≤ j) : next^[k] p < next^[k + 1] p := by
      rw [Function.iterate_succ_apply']
      exact Nat.lt_of_le_of_ne (hle _ (hruns k hk)) fun he => hne ⟨k, hruns.mono hk, he.symm⟩
    have hmono (m : Nat) (hm : i + 1 + m ≤ j) : next^[i] p < next^[i + 1 + m] p := by
      induction m with
      | zero => exact hlt i (by omega)
      | succ m ih => exact Nat.lt_trans (ih (by omega)) (hlt (i + 1 + m) (by omega))
    have := hmono (j - i - 1) (by omega)
    rw [show i + 1 + (j - i - 1) = j by omega] at this
    omega
  · intro ⟨k, hruns, heq⟩
    refine ⟨k, k + 1, Nat.lt_succ_self k, fun j hj => ?_, ?_⟩
    · rcases Nat.le_succ_iff.mp hj with hj | rfl
      · exact hruns j hj
      · rw [Function.iterate_succ_apply', heq]
        exact hruns k (Nat.le_refl k)
    · rw [Function.iterate_succ_apply', heq]

end Orbit
