import Mathlib.Data.List.Basic
import Mathlib.Logic.Function.Basic

/-! # Ring buffers

A ring of `n` cells holds a list of fewer than `n` elements between its head and
its tail, round the end of the array. One cell stays free, so that head and tail
meet only when the list is empty. -/

namespace Ring

variable {α : Type*} {buf : Nat → α} {n h t : Nat} {l : List α} {c : α}

/-- The cells from `h` up to `t`, round the end, hold the list `l`. -/
structure Holds (buf : Nat → α) (n h t : Nat) (l : List α) : Prop where
  head_lt : h < n
  len_lt : l.length < n
  tail_eq : t = (h + l.length) % n
  get : ∀ i, (hi : i < l.length) → buf ((h + i) % n) = l[i]

theorem Holds.nil (hh : h < n) : Holds buf n h h [] where
  head_lt := hh
  len_lt := Nat.zero_lt_of_lt hh
  tail_eq := (Nat.mod_eq_of_lt hh).symm
  get := fun _ hi => absurd hi (Nat.not_lt_zero _)

theorem Holds.tail_lt (hl : Holds buf n h t l) : t < n :=
  hl.tail_eq ▸ Nat.mod_lt _ (Nat.zero_lt_of_lt hl.head_lt)

/-- The tail goes round the end exactly when the list does. -/
theorem Holds.tail_cases (hl : Holds buf n h t l) :
    h + l.length < n ∧ t = h + l.length ∨ n ≤ h + l.length ∧ t + n = h + l.length := by
  have hlen := hl.len_lt
  have hh := hl.head_lt
  have ht := hl.tail_eq
  rcases Nat.lt_or_ge (h + l.length) n with hlt | hge
  · exact .inl ⟨hlt, ht.trans (Nat.mod_eq_of_lt hlt)⟩
  · rw [Nat.mod_eq_sub_mod hge, Nat.mod_eq_of_lt (by omega)] at ht
    exact .inr ⟨hge, by omega⟩

theorem Holds.tail_eq_head_iff (hl : Holds buf n h t l) : t = h ↔ l = [] := by
  rw [← List.length_eq_zero_iff]
  have hlen := hl.len_lt
  have hh := hl.head_lt
  rcases hl.tail_cases with ⟨-, ht⟩ | ⟨-, ht⟩ <;> omega

theorem Holds.length_eq (hl : Holds buf n h t l) : (t + n - h) % n = l.length := by
  have hlen := hl.len_lt
  have hh := hl.head_lt
  rcases hl.tail_cases with ⟨-, ht⟩ | ⟨-, ht⟩
  · rw [show t + n - h = l.length + n by omega, Nat.add_mod_right, Nat.mod_eq_of_lt hlen]
  · rw [show t + n - h = l.length by omega, Nat.mod_eq_of_lt hlen]

/-- The list lies in one piece unless the tail has come round to before the head. -/
theorem Holds.contiguous_iff (hl : Holds buf n h t l) : h + l.length ≤ n ↔ ¬ (0 < t ∧ t < h) := by
  have hlen := hl.len_lt
  rcases hl.tail_cases with ⟨_, ht⟩ | ⟨_, ht⟩ <;> omega

/-- The elements before the end of the array are read from the head on. -/
theorem Holds.slice_take {k : Nat} (hl : Holds buf n h t l) (hk : k ≤ l.length)
    (hfit : h + k ≤ n) : (List.range k).map (fun i => buf (h + i)) = l.take k := by
  apply List.ext_getElem (by simp [hk])
  intro i hi hi'
  rw [List.length_map, List.length_range] at hi
  have hget := hl.get i (Nat.lt_of_lt_of_le hi hk)
  rw [Nat.mod_eq_of_lt (by omega)] at hget
  simpa using hget

/-- A list in one piece is read from the head on. -/
theorem Holds.slice (hl : Holds buf n h t l) (hfit : h + l.length ≤ n) :
    (List.range l.length).map (fun i => buf (h + i)) = l := by
  rw [hl.slice_take (Nat.le_refl _) hfit, List.take_length]

/-- The cell at the tail is none of the list's. -/
theorem Holds.get_ne_tail (hl : Holds buf n h t l) {i : Nat} (hi : i < l.length) :
    (h + i) % n ≠ t := by
  have hlen := hl.len_lt
  have hh := hl.head_lt
  rcases Nat.lt_or_ge (h + i) n with hlt | hge
  · rw [Nat.mod_eq_of_lt hlt]
    rcases hl.tail_cases with ⟨-, ht⟩ | ⟨-, ht⟩ <;> omega
  · rw [Nat.mod_eq_sub_mod hge, Nat.mod_eq_of_lt (by omega)]
    rcases hl.tail_cases with ⟨-, ht⟩ | ⟨-, ht⟩ <;> omega

/-- A write at the tail, where there is room for one element more. -/
theorem Holds.push (hl : Holds buf n h t l) (hroom : l.length + 1 < n) :
    Holds (Function.update buf t c) n h ((t + 1) % n) (l ++ [c]) where
  head_lt := hl.head_lt
  len_lt := by simpa using hroom
  tail_eq := by
    rw [hl.tail_eq, Nat.mod_add_mod, List.length_append, List.length_singleton, Nat.add_assoc]
  get := fun i hi => by
    by_cases hi' : i < l.length
    · rw [Function.update_of_ne (hl.get_ne_tail hi'), List.getElem_append_left hi', hl.get i hi']
    · have hlast : i = l.length := by
        rw [List.length_append, List.length_singleton] at hi
        omega
      subst hlast
      rw [← hl.tail_eq, Function.update_self, List.getElem_concat_length]
      rfl

/-- The tail after a write meets the head exactly when the ring was full. -/
theorem Holds.push_meets_iff (hl : Holds buf n h t l) :
    (t + 1) % n = h ↔ l.length + 1 = n := by
  have hlen := hl.len_lt
  have hh := hl.head_lt
  have ht' := hl.tail_lt
  rcases Nat.lt_or_ge (t + 1) n with hlt | hge
  · rw [Nat.mod_eq_of_lt hlt]
    rcases hl.tail_cases with ⟨-, ht⟩ | ⟨-, ht⟩ <;> omega
  · have hn : t + 1 = n := Nat.le_antisymm ht' hge
    rw [hn, Nat.mod_self]
    rcases hl.tail_cases with ⟨-, ht⟩ | ⟨-, ht⟩ <;> omega

/-- A write into a full ring drops the oldest element. -/
theorem Holds.overwrite (hl : Holds buf n h t l) (hfull : l.length + 1 = n) :
    Holds (Function.update buf t c) n ((h + 1) % n) ((t + 1) % n) (l ++ [c]).tail where
  head_lt := Nat.mod_lt _ (Nat.zero_lt_of_lt hl.head_lt)
  len_lt := by
    rw [List.length_tail, List.length_append, List.length_singleton]
    omega
  tail_eq := by
    rw [hl.tail_eq, Nat.mod_add_mod, Nat.mod_add_mod, List.length_tail, List.length_append,
      List.length_singleton, Nat.add_sub_cancel, Nat.add_right_comm]
  get := fun i hi => by
    have hi1 : i + 1 < (l ++ [c]).length := by
      rw [List.length_tail] at hi
      omega
    rw [List.getElem_tail, Nat.mod_add_mod, Nat.add_right_comm, Nat.add_assoc]
    by_cases hi' : i + 1 < l.length
    · rw [Function.update_of_ne (hl.get_ne_tail hi'), List.getElem_append_left hi', hl.get _ hi']
    · have hlast : i + 1 = l.length := by
        rw [List.length_append, List.length_singleton] at hi1
        omega
      rw [show (h + (i + 1)) % n = t by rw [hlast, ← hl.tail_eq], Function.update_self]
      simp [hlast]

/-- A write that makes room for itself: in a full ring it drops the oldest element. -/
theorem Holds.put (hl : Holds buf n h t l) :
    Holds (Function.update buf t c) n (if (t + 1) % n = h then (h + 1) % n else h) ((t + 1) % n)
      ((l ++ [c]).drop ((l ++ [c]).length - (n - 1))) := by
  have hlen := hl.len_lt
  rw [List.length_append, List.length_singleton]
  by_cases hfull : l.length + 1 = n
  · rw [if_pos (hl.push_meets_iff.mpr hfull), hfull, Nat.sub_sub_self (by omega), List.drop_one]
    exact hl.overwrite hfull
  · rw [if_neg (mt hl.push_meets_iff.mp hfull), Nat.sub_eq_zero_of_le (by omega), List.drop_zero]
    exact hl.push (by omega)

/-- Leaving out the first `k` elements. -/
theorem Holds.drop {k : Nat} (hl : Holds buf n h t l) (hk : k ≤ l.length) :
    Holds buf n ((h + k) % n) t (l.drop k) where
  head_lt := Nat.mod_lt _ (Nat.zero_lt_of_lt hl.head_lt)
  len_lt := by
    have hlen := hl.len_lt
    rw [List.length_drop]
    omega
  tail_eq := by
    rw [hl.tail_eq, Nat.mod_add_mod, List.length_drop, Nat.add_assoc, Nat.add_sub_cancel' hk]
  get := fun i hi => by
    rw [List.length_drop] at hi
    rw [List.getElem_drop, Nat.mod_add_mod, Nat.add_assoc]
    exact hl.get (k + i) (by omega)

/-- Reading the element at the head. -/
theorem Holds.shift (hl : Holds buf n h t (c :: l)) :
    buf h = c ∧ Holds buf n ((h + 1) % n) t l := by
  constructor
  · have hget := hl.get 0 (Nat.zero_lt_succ _)
    rwa [Nat.add_zero, Nat.mod_eq_of_lt hl.head_lt] at hget
  · exact hl.drop (Nat.succ_le_succ (Nat.zero_le _))

/-- Taking back the element before the tail. -/
theorem Holds.pop (hl : Holds buf n h t l) (hne : l ≠ []) :
    Holds buf n h ((t + n - 1) % n) l.dropLast where
  head_lt := hl.head_lt
  len_lt := Nat.lt_of_le_of_lt (by simp) hl.len_lt
  tail_eq := by
    have hpos := List.length_pos_iff.mpr hne
    have hh := hl.head_lt
    rw [List.length_dropLast]
    rcases hl.tail_cases with ⟨-, ht⟩ | ⟨-, ht⟩
    · rw [show t + n - 1 = h + (l.length - 1) + n by omega, Nat.add_mod_right]
    · rw [show t + n - 1 = h + (l.length - 1) by omega]
  get := fun i hi => by
    rw [List.getElem_dropLast]
    exact hl.get i _

/-! ## Arrays with two indices

The indices are `int`s, and go back to 0 where they reach the size. -/

/-- The index after `i` in an array of `size` cells. -/
def after (size i : Int) : Int := if size ≤ i + 1 then 0 else i + 1

theorem after_natCast {i : Nat} (hi : i < n) : after n i = ((i + 1) % n : Nat) := by
  unfold after
  rcases Nat.lt_or_ge (i + 1) n with hlt | hge
  · rw [if_neg (by omega), Nat.mod_eq_of_lt hlt]
    rfl
  · rw [if_pos (by omega), show i + 1 = n by omega, Nat.mod_self]
    rfl

/-- An array, its size, and the indices that are written and read next. -/
structure Indexed (α : Type*) where
  cells : Nat → α
  size : Int
  write : Int
  read : Int

namespace Indexed

variable {r s : Indexed α}

/-- Both indices are cells of the array. -/
def InRange (r : Indexed α) : Prop :=
  0 ≤ r.read ∧ r.read < r.size ∧ 0 ≤ r.write ∧ r.write < r.size

instance (r : Indexed α) : Decidable r.InRange := inferInstanceAs (Decidable (_ ∧ _))

/-- Storing an element; `none` is a write outside the array. -/
def store (r : Indexed α) (c : α) : Option (Indexed α) :=
  if r.write < 0 ∨ r.size ≤ r.write then none
  else some { r with
    cells := Function.update r.cells r.write.toNat c
    write := after r.size r.write }

/-- Loading an element; `none` is a read outside the array. -/
def load (r : Indexed α) : Option (α × Indexed α) :=
  if r.read < 0 ∨ r.size ≤ r.read then none
  else some (r.cells r.read.toNat, { r with read := after r.size r.read })

/-- The elements between the indices, the next one to be read first. -/
def pending (r : Indexed α) : List α :=
  (List.range ((r.write + r.size - r.read).toNat % r.size.toNat)).map
    fun i => r.cells ((r.read.toNat + i) % r.size.toNat)

/-- What is pending does not lie round the end of the array. -/
def InOnePiece (r : Indexed α) : Prop := ¬ (0 < r.write ∧ r.write < r.read)

/-- The cells from the one read next up to the one written next hold `l`. -/
def Holds (r : Indexed α) (l : List α) : Prop :=
  ∃ n h t : Nat, r.size = n ∧ r.read = h ∧ r.write = t ∧ Ring.Holds r.cells n h t l

theorem Holds.inRange (hl : r.Holds l) : r.InRange := by
  obtain ⟨n, h, t, hn, hh, ht, hring⟩ := hl
  have hhn := hring.head_lt
  have htn := hring.tail_lt
  unfold InRange
  omega

theorem Holds.length_lt (hl : r.Holds l) : (l.length : Int) < r.size := by
  obtain ⟨n, h, t, hn, -, -, hring⟩ := hl
  have hlen := hring.len_lt
  omega

theorem Holds.read_eq_write_iff (hl : r.Holds l) : r.read = r.write ↔ l = [] := by
  obtain ⟨n, h, t, -, hh, ht, hring⟩ := hl
  rw [hh, ht, Int.ofNat_inj, eq_comm]
  exact hring.tail_eq_head_iff

/-- Every array whose indices are in range holds what lies between them. -/
theorem InRange.holds (hr : r.InRange) : r.Holds r.pending := by
  obtain ⟨n, hn⟩ := Int.eq_ofNat_of_zero_le (Int.le_trans hr.1 (Int.le_of_lt hr.2.1))
  obtain ⟨h, hh⟩ := Int.eq_ofNat_of_zero_le hr.1
  obtain ⟨t, ht⟩ := Int.eq_ofNat_of_zero_le hr.2.2.1
  have hhn : h < n := by have := hr.2.1; omega
  have htn : t < n := by have := hr.2.2.2; omega
  have hcount : r.pending = (List.range ((t + n - h) % n)).map fun i => r.cells ((h + i) % n) := by
    unfold pending
    rw [hn, hh, ht, show ((t : Int) + n - h).toNat = t + n - h by omega]
    rfl
  refine ⟨n, h, t, hn, hh, ht, hhn, ?_, ?_, ?_⟩
  · rw [hcount, List.length_map, List.length_range]
    exact Nat.mod_lt _ (by omega)
  · rw [hcount, List.length_map, List.length_range, Nat.add_mod_mod,
      show h + (t + n - h) = t + n by omega, Nat.add_mod_right, Nat.mod_eq_of_lt htn]
  · intro i hi
    simp [hcount]

/-- Two lists held are the same. -/
theorem Holds.eq_pending (hl : r.Holds l) : r.pending = l := by
  obtain ⟨n, h, t, hn, hh, ht, hring⟩ := hl
  have hhn := hring.head_lt
  have hlen : (r.write + r.size - r.read).toNat % r.size.toNat = l.length := by
    rw [hn, hh, ht, show ((t : Int) + n - h).toNat = t + n - h by omega, Int.toNat_natCast,
      hring.length_eq]
  unfold pending
  rw [hlen, hn, hh, Int.toNat_natCast, Int.toNat_natCast]
  apply List.ext_getElem (by rw [List.length_map, List.length_range])
  intro i _ hi
  rw [List.getElem_map, List.getElem_range]
  exact hring.get i hi

/-- A store where there is room for one element more. -/
theorem Holds.store (hl : r.Holds l) (hroom : (l.length : Int) + 1 < r.size) :
    ∃ s, r.store c = some s ∧ s.size = r.size ∧ s.read = r.read ∧ s.write ≠ s.read ∧
      s.Holds (l ++ [c]) := by
  obtain ⟨n, h, t, hn, hh, ht, hring⟩ := hl
  have htn := hring.tail_lt
  unfold Indexed.store
  rw [if_neg (by omega)]
  refine ⟨_, rfl, rfl, rfl, ?_, n, h, (t + 1) % n, hn, hh, ?_, ?_⟩
  · rw [hn, hh, ht, after_natCast htn]
    intro heq
    have hfull := hring.push_meets_iff.mp (Int.ofNat_inj.mp heq)
    omega
  · rw [hn, ht, after_natCast htn]
  · rw [ht, Int.toNat_natCast]
    exact hring.push (by omega)

/-- A store into a full array makes the indices meet. -/
theorem Holds.store_full (hl : r.Holds l) (hfull : (l.length : Int) + 1 = r.size) :
    r.store c = some { r with
      cells := Function.update r.cells r.write.toNat c
      write := r.read } := by
  obtain ⟨n, h, t, hn, hh, ht, hring⟩ := hl
  have htn := hring.tail_lt
  unfold Indexed.store
  rw [if_neg (by omega), hn, hh, ht, after_natCast htn, hring.push_meets_iff.mpr (by omega)]

/-- A load takes the first element. -/
theorem Holds.load (hl : r.Holds (c :: l)) :
    ∃ s, r.load = some (c, s) ∧ s.size = r.size ∧ s.write = r.write ∧ s.Holds l := by
  obtain ⟨n, h, t, hn, hh, ht, hring⟩ := hl
  have hhn := hring.head_lt
  obtain ⟨hget, hrest⟩ := hring.shift
  unfold Indexed.load
  rw [if_neg (by omega)]
  refine ⟨{ r with read := after r.size r.read }, ?_, rfl, rfl, n, (h + 1) % n, t, hn, ?_, ht, hrest⟩
  · rw [hh, Int.toNat_natCast, hget]
  · show after r.size r.read = _
    rw [hn, hh, after_natCast hhn]

end Indexed

end Ring
