import Mathlib.Algebra.Order.Ring.Nat
import Mathlib.Tactic.Ring

/-! # Trees of indirect blocks

A list of roots, each the number of a table of `e` numbers, each of which is
again the number of a table, down to level 0 where the numbers are the leaves.
`leaf` is the leaf at a position in the order of the tree; `fold` applies a step
to the first leaves in that order, with the place in a flat buffer where each of
them goes. -/

namespace Indirect

variable (tbl : Nat → Nat → Nat) (e : Nat)

/-- The leaf at position `k` below roots of level `n`. -/
def leaf : Nat → (Nat → Nat) → Nat → Nat
  | 0, roots, k => roots k
  | n + 1, roots, k => leaf n (tbl (roots (k / e ^ (n + 1)))) (k % e ^ (n + 1))

/-- The tables on the way to position `k` satisfy `T`, the leaf there `L`. -/
def Along (T L : Nat → Prop) : Nat → (Nat → Nat) → Nat → Prop
  | 0, roots, k => L (roots k)
  | n + 1, roots, k => T (roots (k / e ^ (n + 1))) ∧
      Along T L n (tbl (roots (k / e ^ (n + 1)))) (k % e ^ (n + 1))

variable {tbl e} {T T' L L' : Nat → Prop} {roots : Nat → Nat} {n i k a : Nat}

/-- The leaves below root `i` follow those of the roots before it. -/
theorem leaf_add (hk : k < e ^ (n + 1)) :
    leaf tbl e (n + 1) roots (i * e ^ (n + 1) + k) = leaf tbl e n (tbl (roots i)) k := by
  have hpos := Nat.zero_lt_of_lt hk
  rw [leaf, Nat.mul_comm, Nat.mul_add_div hpos, Nat.div_eq_of_lt hk, Nat.add_zero,
    Nat.mul_add_mod, Nat.mod_eq_of_lt hk]

theorem along_add (hk : k < e ^ (n + 1)) :
    Along tbl e T L (n + 1) roots (i * e ^ (n + 1) + k) ↔
      T (roots i) ∧ Along tbl e T L n (tbl (roots i)) k := by
  have hpos := Nat.zero_lt_of_lt hk
  rw [Along, Nat.mul_comm, Nat.mul_add_div hpos, Nat.div_eq_of_lt hk, Nat.add_zero,
    Nat.mul_add_mod, Nat.mod_eq_of_lt hk]

theorem Along.mono (hT : ∀ b, T b → T' b) (hL : ∀ b, L b → L' b)
    (h : Along tbl e T L n roots k) : Along tbl e T' L' n roots k := by
  induction n generalizing roots k with
  | zero => exact hL _ h
  | succ n ih => exact ⟨hT _ h.1, ih h.2⟩

theorem Along.leaf (h : Along tbl e T L n roots k) : L (leaf tbl e n roots k) := by
  induction n generalizing roots k with
  | zero => exact h
  | succ n ih => exact ih h.2

theorem Along.and (h : Along tbl e T L n roots k) (h' : Along tbl e T' L' n roots k) :
    Along tbl e (fun b => T b ∧ T' b) (fun b => L b ∧ L' b) n roots k := by
  induction n generalizing roots k with
  | zero => exact ⟨h, h'⟩
  | succ n ih => exact ⟨⟨h.1, h'.1⟩, ih h.2 h'.2⟩

/-- The leaf that is reached is the leaf at the position. -/
theorem Along.at_leaf (h : Along tbl e T L n roots k) :
    Along tbl e T (fun b => L b ∧ b = Indirect.leaf tbl e n roots k) n roots k := by
  induction n generalizing roots k with
  | zero => exact ⟨h, rfl⟩
  | succ n ih => exact ⟨h.1, ih h.2⟩

/-- Below the first root no other matters. -/
theorem Along.first_root {roots' : Nat → Nat} (hk : k < e ^ (n + 1)) (hroot : roots' 0 = roots 0)
    (h : Along tbl e T L (n + 1) roots k) : Along tbl e T L (n + 1) roots' k := by
  unfold Along at h ⊢
  rw [Nat.div_eq_of_lt hk] at h ⊢
  rwa [hroot]

/-- Below one root that names a table the leaves are those below the entries of the table. -/
theorem leaf_root (hk : k < e ^ (n + 1)) :
    leaf tbl e (n + 1) (fun _ => a) k = leaf tbl e n (tbl a) k := by
  rw [leaf, Nat.mod_eq_of_lt hk]

theorem along_root (hk : k < e ^ (n + 1)) :
    Along tbl e T L (n + 1) (fun _ => a) k ↔ T a ∧ Along tbl e T L n (tbl a) k := by
  rw [Along, Nat.mod_eq_of_lt hk]

/-- The leaves below root `i` alone. -/
theorem leaf_child (hk : k < e ^ n) :
    leaf tbl e n roots (i * e ^ n + k) = leaf tbl e n (fun _ => roots i) k := by
  cases n with
  | zero => rw [leaf, leaf, show i * e ^ 0 + k = i by rw [Nat.pow_zero] at hk ⊢; omega]
  | succ n => rw [leaf_add hk, leaf_root hk]

theorem along_child (hk : k < e ^ n) :
    Along tbl e T L n roots (i * e ^ n + k) ↔ Along tbl e T L n (fun _ => roots i) k := by
  cases n with
  | zero => rw [Along, Along, show i * e ^ 0 + k = i by rw [Nat.pow_zero] at hk ⊢; omega]
  | succ n => rw [along_add hk, along_root hk]

/-- Below the first root no other matters. -/
theorem leaf_first (hk : k < e ^ n) : leaf tbl e n roots k = leaf tbl e n (fun _ => roots 0) k := by
  have h : leaf tbl e n roots (0 * e ^ n + k) = leaf tbl e n (fun _ => roots 0) k := leaf_child hk
  rwa [Nat.zero_mul, Nat.zero_add] at h

theorem along_first (hk : k < e ^ n) :
    Along tbl e T L n roots k ↔ Along tbl e T L n (fun _ => roots 0) k := by
  have h : Along tbl e T L n roots (0 * e ^ n + k) ↔ Along tbl e T L n (fun _ => roots 0) k :=
    along_child hk
  rwa [Nat.zero_mul, Nat.zero_add] at h

/-- What holds of every number holds along the way. -/
theorem along_of_forall {R : Nat → Prop} (hroots : ∀ i, R (roots i)) (htbl : ∀ b i, R (tbl b i)) :
    Along tbl e R R n roots k := by
  induction n generalizing roots k with
  | zero => exact hroots k
  | succ n ih => exact ⟨hroots _, ih (htbl _)⟩

/-- The way to a position stays where the tables on it stay. -/
theorem Along.congr {tbl' : Nat → Nat → Nat} {s : Nat → Nat} {r : Nat}
    (htbl : ∀ b, T b → ∀ i, i < e → tbl' b i = tbl b i) (hroots : ∀ i, i < r → s i = roots i)
    (hk : k < r * e ^ n) (h : Along tbl e T L n roots k) :
    Along tbl' e T L n s k ∧ Indirect.leaf tbl' e n s k = Indirect.leaf tbl e n roots k := by
  induction n generalizing roots s k r with
  | zero =>
    have hsame := hroots k (by rwa [Nat.pow_zero, Nat.mul_one] at hk)
    rw [Along] at h ⊢
    rw [Indirect.leaf, Indirect.leaf, hsame]
    exact ⟨h, rfl⟩
  | succ n ih =>
    have hpos : 0 < e ^ (n + 1) := Nat.pos_of_ne_zero fun h0 => by
      rw [h0, Nat.mul_zero] at hk
      exact Nat.not_lt_zero k hk
    have hsame := hroots (k / e ^ (n + 1)) ((Nat.div_lt_iff_lt_mul hpos).mpr hk)
    rw [Along] at h ⊢
    rw [Indirect.leaf, Indirect.leaf, hsame]
    obtain ⟨halong, hleaf⟩ := ih (htbl _ h.1) (r := e) (s := tbl' (roots (k / e ^ (n + 1))))
      (by rw [← Nat.pow_succ']; exact Nat.mod_lt _ hpos) h.2
    exact ⟨⟨h.1, halong⟩, hleaf⟩

variable {ω : Type*} {step : ω → Nat → Nat → ω} {leaves : Nat → Nat} {size pos : Nat} {o : ω}

/-- The first `t` leaves, each with its place in a buffer of cells of `size` from `pos` on. -/
def fold (step : ω → Nat → Nat → ω) (leaves : Nat → Nat) (size pos : Nat) : Nat → ω → ω
  | 0, o => o
  | t + 1, o => step (fold step leaves size pos t o) (leaves t) (pos + t * size)

theorem fold_add (a t : Nat) :
    fold step (fun k => leaves (a + k)) size (pos + a * size) t (fold step leaves size pos a o) =
      fold step leaves size pos (a + t) o := by
  induction t with
  | zero => rfl
  | succ t ih =>
    rw [fold, ih, ← Nat.add_assoc a t 1, fold, Nat.add_assoc pos, ← Nat.add_mul]

theorem fold_congr {leaves' : Nat → Nat} {t : Nat} (h : ∀ k, k < t → leaves k = leaves' k) :
    fold step leaves size pos t o = fold step leaves' size pos t o := by
  induction t with
  | zero => rfl
  | succ t ih =>
    rw [fold, fold, ih fun k hk => h k (Nat.lt_succ_of_lt hk), h t (Nat.lt_succ_self t)]

end Indirect
