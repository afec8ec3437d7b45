import Mathlib.Data.List.Basic

/-! # Rounds of a ring

A successor function passes the elements of a ring. A round from an element passes
each of them once and comes back to it. A search that goes on from what it found
finds the elements with a property one after the other. -/

namespace Rounds

variable {α : Type*} {succ : α → Option α} {a b c : α} {xs ys : List α} {p : α → Bool}

/-- The successors from `a` on are the elements of a list. -/
def Walk (succ : α → Option α) : α → List α → Prop
  | _, [] => True
  | a, x :: xs => succ a = some x ∧ Walk succ x xs

theorem Walk.append (h : Walk succ a (xs ++ [b])) (hys : Walk succ b ys) :
    Walk succ a (xs ++ [b] ++ ys) := by
  induction xs generalizing a with
  | nil => exact ⟨h.1, hys⟩
  | cons x xs ih => exact ⟨h.1, ih h.2⟩

theorem Walk.front (h : Walk succ a (xs ++ ys)) : Walk succ a xs := by
  induction xs generalizing a with
  | nil => trivial
  | cons x xs ih => exact ⟨h.1, ih h.2⟩

theorem Walk.back (h : Walk succ a (xs ++ b :: ys)) : Walk succ b ys := by
  induction xs generalizing a with
  | nil => exact h.2
  | cons x xs ih => exact ih h.2

theorem Walk.congr {succ' : α → Option α} (hsame : ∀ x, succ' x = succ x)
    (h : Walk succ a xs) : Walk succ' a xs := by
  induction xs generalizing a with
  | nil => trivial
  | cons x xs ih => exact ⟨(hsame a).trans h.1, ih h.2⟩

/-- The walk from `a` passes `xs`, each element once, and comes back to `a`. -/
structure Round (succ : α → Option α) (a : α) (xs : List α) : Prop where
  walk : Walk succ a (xs ++ [a])
  nodup : (xs ++ [a]).Nodup

/-- The round from an element further on. -/
theorem Round.turn (h : Round succ a (xs ++ b :: ys)) : Round succ b (ys ++ a :: xs) := by
  have hwalk : Walk succ a (xs ++ b :: (ys ++ [a])) := by simpa using h.walk
  have hfront : Walk succ a ((xs ++ [b]) ++ (ys ++ [a])) := by simpa using h.walk
  refine ⟨?_, ?_⟩
  · simpa using hwalk.back.append hfront.front
  · refine (List.Perm.nodup_iff ?_).mp h.nodup
    have hcomm : (xs ++ [b] ++ (ys ++ [a])).Perm (ys ++ [a] ++ (xs ++ [b])) :=
      List.perm_append_comm
    simpa using hcomm

theorem Round.congr {succ' : α → Option α} (hsame : ∀ x, succ' x = succ x)
    (h : Round succ a xs) : Round succ' a xs :=
  ⟨h.walk.congr hsame, h.nodup⟩

/-- The elements with a property, in the order of the round from `a`, which comes last. -/
def waiting (p : α → Bool) (a : α) (xs : List α) : List α := (xs ++ [a]).filter p

/-- Behind the first of the elements with a property come the others, and then this one. -/
theorem Round.waiting_turn (h : Round succ a xs) {rest : List α}
    (hfirst : waiting p a xs = b :: rest) :
    ∃ ys, Round succ b ys ∧ ys.length = xs.length ∧ waiting p b ys = rest ++ [b] := by
  obtain ⟨front, back, heq, hskip, hb, hback⟩ := List.filter_eq_cons_iff.mp hfirst
  have hfront : front.filter p = [] := by
    rw [List.filter_eq_nil_iff]
    exact hskip
  rcases List.eq_nil_or_concat back with rfl | ⟨ys, v, rfl⟩
  · obtain ⟨rfl, hab⟩ := List.append_inj' heq rfl
    obtain rfl : a = b := (List.cons.inj hab).1
    have hrest : rest = [] := by simpa using hback.symm
    refine ⟨xs, h, rfl, ?_⟩
    rw [waiting, List.filter_append, hfront, hrest, List.filter_cons_of_pos hb]
    rfl
  · rw [List.concat_eq_append, ← List.cons_append, ← List.append_assoc] at heq
    obtain ⟨rfl, hav⟩ := List.append_inj' heq rfl
    obtain rfl : a = v := (List.cons.inj hav).1
    refine ⟨_, h.turn, by simp; omega, ?_⟩
    rw [List.concat_eq_append] at hback
    have horder : ys ++ a :: front ++ [b] = (ys ++ [a]) ++ front ++ [b] := by simp
    rw [waiting, horder, List.filter_append, List.filter_append, hback, hfront,
      List.filter_cons_of_pos hb]
    simp

end Rounds
