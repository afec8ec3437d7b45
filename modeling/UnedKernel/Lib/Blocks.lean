import Mathlib.Data.Finset.Basic

/-! # Blocks of an allocator

A trace records what a program does with the blocks that an allocator gives it, the
newest event first. An address is given out again after it is freed, so a block is in
use when its address was allocated later than it was freed. -/

namespace Blocks

inductive Event (α : Type*) where
  | alloc (a : α)
  | touch (a : α)
  | free (a : α)

variable {α : Type*} [DecidableEq α]

/-- The blocks allocated and not yet freed. -/
def live : List (Event α) → Finset α
  | [] => ∅
  | .alloc a :: es => insert a (live es)
  | .touch _ :: es => live es
  | .free a :: es => (live es).erase a

/-- How often a block was allocated. -/
def allocs (a : α) : List (Event α) → Nat
  | [] => 0
  | .alloc b :: es => allocs a es + if a = b then 1 else 0
  | .touch _ :: es => allocs a es
  | .free _ :: es => allocs a es

/-- How often a block was freed. -/
def frees (a : α) : List (Event α) → Nat
  | [] => 0
  | .alloc _ :: es => frees a es
  | .touch _ :: es => frees a es
  | .free b :: es => frees a es + if a = b then 1 else 0

/-- No block is read or written unless it is in use. -/
def TouchesLive : List (Event α) → Prop
  | [] => True
  | .alloc _ :: es => TouchesLive es
  | .touch a :: es => a ∈ live es ∧ TouchesLive es
  | .free _ :: es => TouchesLive es

/-- Every block is freed as often as it is allocated, once less while it is in use. -/
def FreedOnce (es : List (Event α)) : Prop :=
  ∀ a, allocs a es = frees a es + if a ∈ live es then 1 else 0

variable {es : List (Event α)} {as : List α} {a b : α}

@[simp] theorem live_touches : live (as.map .touch ++ es) = live es := by
  induction as with
  | nil => rfl
  | cons a as ih => exact ih

theorem TouchesLive.touches (h : TouchesLive es) (has : ∀ a ∈ as, a ∈ live es) :
    TouchesLive (as.map .touch ++ es) := by
  induction as with
  | nil => exact h
  | cons a as ih =>
    refine ⟨?_, ih fun b hb => has b (List.mem_cons_of_mem a hb)⟩
    show a ∈ live (as.map .touch ++ es)
    rw [live_touches]
    exact has a List.mem_cons_self

theorem TouchesLive.of_append {es' : List (Event α)} (h : TouchesLive (es' ++ es)) :
    TouchesLive es := by
  induction es' with
  | nil => exact h
  | cons e es' ih =>
    cases e with
    | alloc a => exact ih h
    | touch a => exact ih h.2
    | free a => exact ih h

theorem FreedOnce.touches (h : FreedOnce es) (as : List α) : FreedOnce (as.map .touch ++ es) := by
  induction as with
  | nil => exact h
  | cons a as ih => exact ih

/-- The allocator gives out a block that is not in use. -/
theorem FreedOnce.alloc (h : FreedOnce es) (ha : a ∉ live es) : FreedOnce (.alloc a :: es) := by
  intro b
  have hb := h b
  unfold allocs frees live
  by_cases heq : b = a
  · rw [heq, if_neg ha] at hb
    rw [heq, if_pos rfl, if_pos (Finset.mem_insert_self a _), hb]
  · simp only [if_neg heq, hb, Finset.mem_insert, or_iff_right heq, Nat.add_zero]

theorem FreedOnce.free (h : FreedOnce es) (ha : a ∈ live es) : FreedOnce (.free a :: es) := by
  intro b
  have hb := h b
  unfold allocs frees live
  by_cases heq : b = a
  · rw [heq, if_pos ha] at hb
    rw [heq, if_pos rfl, if_neg (Finset.notMem_erase a _), hb]
  · simp only [hb, Finset.mem_erase, ne_eq, heq, not_false_iff, true_and, if_false, Nat.add_zero]

end Blocks
