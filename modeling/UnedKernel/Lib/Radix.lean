import Mathlib.Tactic.Ring

/-! # Radix trees of tables in a store

A store holds a table of entries at every node. An entry may lead to a child
node, so that a list of indices walks from a root to a node. The tree of a
root is separated, down to a depth, when no node is reached by two walks; then
a write to one entry is seen by the walks through that entry only. -/

namespace Radix

variable {ν ι ε : Type*}

/-- A table of entries at every node. -/
abbrev Store (ν ι ε : Type*) := ν → ι → ε

/-- Write one entry. -/
def Store.set [DecidableEq ν] [DecidableEq ι] (m : Store ν ι ε) (f : ν) (i : ι) (e : ε) :
    Store ν ι ε := fun g j => if g = f ∧ j = i then e else m g j

/-- Write every entry of a table. -/
def Store.fill [DecidableEq ν] (m : Store ν ι ε) (f : ν) (e : ε) : Store ν ι ε := fun g j =>
  if g = f then e else m g j

/-- The node that the indices lead to. -/
def walk (child : ε → Option ν) (m : Store ν ι ε) : ν → List ι → Option ν
  | r, [] => some r
  | r, i :: p => (child (m r i)).bind fun c => walk child m c p

/-- No node is reached by two walks of at most `n` indices. -/
def Separated (child : ε → Option ν) (m : Store ν ι ε) (r : ν) (n : Nat) : Prop :=
  ∀ p q f, p.length ≤ n → q.length ≤ n → walk child m r p = some f →
    walk child m r q = some f → p = q

/-- Node `c` is not reached by a walk of at most `n` indices. -/
def Outside (child : ε → Option ν) (m : Store ν ι ε) (r : ν) (n : Nat) (c : ν) : Prop :=
  ∀ p, p.length ≤ n → walk child m r p ≠ some c

variable {child : ε → Option ν} {m : Store ν ι ε}

@[simp] theorem walk_nil (r : ν) : walk child m r [] = some r := rfl

theorem walk_cons (r : ν) (i : ι) (p : List ι) :
    walk child m r (i :: p) = (child (m r i)).bind fun c => walk child m c p := rfl

theorem walk_append (r : ν) (p q : List ι) :
    walk child m r (p ++ q) = (walk child m r p).bind fun f => walk child m f q := by
  induction p generalizing r with
  | nil => rfl
  | cons i p ih =>
    rw [List.cons_append, walk_cons, walk_cons, Option.bind_assoc]
    exact congrArg _ (funext fun c => ih c)

theorem walk_concat {r f : ν} {p : List ι} (h : walk child m r p = some f) (i : ι) :
    walk child m r (p ++ [i]) = child (m f i) := by
  rw [walk_append, h, Option.bind_some, walk_cons]
  cases child (m f i) <;> rfl

/-- A walk sees two stores alike when every entry it may read is the same. -/
theorem walk_congr {m' : Store ν ι ε} {r : ν} (q : List ι) {s : List ι} {g : ν}
    (hs : walk child m r s = some g)
    (hsame : ∀ p f i t, s ++ q = p ++ i :: t → s <+: p → walk child m r p = some f →
      m' f i = m f i) :
    walk child m' g q = walk child m g q := by
  induction q generalizing s g with
  | nil => rfl
  | cons j q ih =>
    have hj : m' g j = m g j := hsame s g j q rfl (List.prefix_refl s) hs
    rw [walk_cons, walk_cons, hj]
    cases hc : child (m g j) with
    | none => rfl
    | some c =>
      have hs' : walk child m r (s ++ [j]) = some c := by rw [walk_concat hs, hc]
      refine ih hs' fun p f i t heq hp hw => hsame p f i t ?_ ?_ hw
      · rw [← heq, List.append_assoc]; rfl
      · exact (List.prefix_append s [j]).trans hp

section Clear
variable [DecidableEq ν]

theorem Store.fill_same (f : ν) (i : ι) (e : ε) : m.fill f e f i = e := by simp [Store.fill]

theorem Store.fill_of_ne {f g : ν} (i : ι) (e : ε) (h : g ≠ f) : m.fill f e g i = m g i :=
  if_neg h

/-- Clearing a table outside the tree changes no walk. -/
theorem walk_fill {r c : ν} {n : Nat} (hout : Outside child m r n c) {e : ε} {q : List ι}
    (hqn : q.length ≤ n + 1) : walk child (m.fill c e) r q = walk child m r q := by
  refine walk_congr q (s := []) rfl fun s g j t heq _ hs => Store.fill_of_ne j e ?_
  rintro rfl
  have hlen : s.length ≤ n := by
    have := congrArg List.length heq
    simp at this
    omega
  exact hout s hlen hs

theorem Separated.fill {r c : ν} {n : Nat} (hsep : Separated child m r n)
    (hout : Outside child m r n c) (e : ε) : Separated child (m.fill c e) r n := by
  intro p q f hp hq hwp hwq
  rw [walk_fill hout (by omega)] at hwp hwq
  exact hsep p q f hp hq hwp hwq

theorem Outside.fill {r c d : ν} {n : Nat} (hout : Outside child m r n c)
    (hd : Outside child m r n d) (e : ε) : Outside child (m.fill c e) r n d := by
  intro p hp
  rw [walk_fill hout (by omega)]
  exact hd p hp

end Clear

section Write
variable [DecidableEq ν] [DecidableEq ι]

theorem Store.set_same (f : ν) (i : ι) (e : ε) : m.set f i e f i = e := by simp [Store.set]

theorem Store.set_of_ne {f g : ν} {i j : ι} (e : ε) (h : g ≠ f ∨ j ≠ i) :
    m.set f i e g j = m g j := if_neg (by tauto)

/-- Writing one entry of a separated tree changes only the walks through it. -/
theorem walk_set {r f : ν} {n : Nat} (hsep : Separated child m r n) {p : List ι}
    (hp : walk child m r p = some f) (hpn : p.length ≤ n) {i : ι} {e : ε} {q : List ι}
    (hqn : q.length ≤ n + 1) (hnot : ¬ (p ++ [i]) <+: q) :
    walk child (m.set f i e) r q = walk child m r q := by
  refine walk_congr q (s := []) rfl fun s g j t heq _ hs => Store.set_of_ne e ?_
  by_contra hcon
  simp only [ne_eq, not_or, not_not] at hcon
  obtain ⟨rfl, rfl⟩ := hcon
  rw [List.nil_append] at heq
  have hlen : s.length ≤ n := by
    have := congrArg List.length heq
    simp at this
    omega
  have hsp : s = p := hsep s p g hlen hpn hs hp
  exact hnot ⟨t, by rw [heq, hsp, List.append_assoc]; rfl⟩

/-- A write to the last level of a separated tree changes no walk down to it. -/
theorem walk_set_leaf {r f : ν} {n : Nat} (hsep : Separated child m r n) {p : List ι}
    (hp : walk child m r p = some f) (hpn : p.length = n) {i : ι} {e : ε} {q : List ι}
    (hqn : q.length ≤ n) : walk child (m.set f i e) r q = walk child m r q :=
  walk_set hsep hp (by omega) (by omega) fun hpre => by
    have := hpre.length_le
    simp at this
    omega

theorem Separated.set_leaf {r f : ν} {n : Nat} (hsep : Separated child m r n) {p : List ι}
    (hp : walk child m r p = some f) (hpn : p.length = n) (i : ι) (e : ε) :
    Separated child (m.set f i e) r n := by
  intro s q g hs hq hws hwq
  rw [walk_set_leaf hsep hp hpn (by omega)] at hws hwq
  exact hsep s q g hs hq hws hwq

/-! ## Hanging an empty table into the tree -/

section Hang
variable {r f c : ν} {n : Nat} {p : List ι} {i : ι} {e : ε}
  (hsep : Separated child m r n) (hout : Outside child m r n c)
  (hp : walk child m r p = some f) (hpn : p.length + 1 ≤ n)
  (hold : child (m f i) = none) (hnew : child e = some c) (hempty : ∀ j, child (m c j) = none)
include hsep hout hp hpn hold hnew hempty

/-- The new table is reached by its own path, nothing is below it, and every
other walk is as before. -/
theorem walk_hang {q : List ι} (hqn : q.length ≤ n + 1) :
    walk child (m.set f i e) r q = if q = p ++ [i] then some c else walk child m r q := by
  by_cases hpre : (p ++ [i]) <+: q
  · obtain ⟨t, rfl⟩ := hpre
    have hcf : c ≠ f := by
      rintro rfl
      exact hout p (by omega) hp
    have hwp : walk child (m.set f i e) r p = some f := by
      rw [walk_set hsep hp (by omega) (by omega), hp]
      intro h
      have := h.length_le
      simp at this
    have hwc : walk child (m.set f i e) r (p ++ [i]) = some c := by
      rw [walk_concat hwp, Store.set_same, hnew]
    have hwo : walk child m r (p ++ [i]) = none := by rw [walk_concat hp, hold]
    cases t with
    | nil => simp [hwc]
    | cons j t =>
      rw [if_neg (by simp), walk_append, hwc, Option.bind_some, walk_cons,
        Store.set_of_ne e (.inl hcf), hempty j, walk_append, hwo]
      rfl
  · rw [walk_set hsep hp (by omega) hqn hpre, if_neg]
    rintro rfl
    exact hpre (List.prefix_refl _)

theorem Separated.hang : Separated child (m.set f i e) r n := by
  have hw := @walk_hang ν ι ε child m _ _ r f c n p i e hsep hout hp hpn hold hnew hempty
  intro s q g hs hq hws hwq
  rw [hw (by omega)] at hws hwq
  split at hws <;> split at hwq
  · rename_i h1 h2; rw [h1, h2]
  · cases hws; exact absurd hwq (hout q hq)
  · cases hwq; exact absurd hws (hout s hs)
  · exact hsep s q g hs hq hws hwq

theorem Outside.hang {d : ν} (hd : Outside child m r n d) (hdc : d ≠ c) :
    Outside child (m.set f i e) r n d := by
  have hw := @walk_hang ν ι ε child m _ _ r f c n p i e hsep hout hp hpn hold hnew hempty
  intro s hs
  rw [hw (by omega)]
  split
  · simpa using Ne.symm hdc
  · exact hd s hs

end Hang
end Write

/-! ## Leaves -/

/-- The entry of index `i` in the table that `p` leads to, if `live` holds of it. -/
def leaf (child : ε → Option ν) (live : ε → Bool) (m : Store ν ι ε) (r : ν) (p : List ι) (i : ι) :
    Option ε := (walk child m r p).bind fun f => if live (m f i) = true then some (m f i) else none

section Leaf
variable [DecidableEq ν] {live : ε → Bool}

theorem leaf_fill {r c : ν} {n : Nat} (hout : Outside child m r n c) {e : ε} {q : List ι}
    (hqn : q.length ≤ n) (j : ι) :
    leaf child live (m.fill c e) r q j = leaf child live m r q j := by
  simp only [leaf, walk_fill hout (Nat.le_succ_of_le hqn)]
  cases hw : walk child m r q with
  | none => rfl
  | some g =>
    have hg : g ≠ c := by
      rintro rfl
      exact hout q hqn hw
    simp [Store.fill_of_ne j e hg]

variable [DecidableEq ι]

/-- Writing a last-level entry changes that leaf, and no other. -/
theorem leaf_set {r f : ν} {n : Nat} (hsep : Separated child m r n) {p : List ι}
    (hp : walk child m r p = some f) (hpn : p.length = n) {i : ι} {e : ε} {q : List ι}
    (hqn : q.length ≤ n) (j : ι) : leaf child live (m.set f i e) r q j =
      if q = p ∧ j = i then if live e = true then some e else none
      else leaf child live m r q j := by
  simp only [leaf, walk_set_leaf hsep hp hpn hqn]
  by_cases hq : q = p
  · subst hq
    by_cases hj : j = i
    · subst hj; simp [hp, Store.set_same]
    · simp [hp, hj, Store.set_of_ne e (.inr hj)]
  · rw [if_neg (by tauto)]
    cases hw : walk child m r q with
    | none => rfl
    | some g =>
      have hg : g ≠ f := by
        rintro rfl
        exact hq (hsep q p g hqn (by omega) hw hp)
      simp [Store.set_of_ne e (.inl hg)]

/-- Hanging a table without live entries into the tree changes no leaf of the last level. -/
theorem leaf_hang {r f c : ν} {n : Nat} {p : List ι} {i : ι} {e : ε}
    (hsep : Separated child m r n) (hout : Outside child m r n c)
    (hp : walk child m r p = some f) (hpn : p.length + 1 ≤ n)
    (hold : child (m f i) = none) (hnew : child e = some c) (hempty : ∀ j, child (m c j) = none)
    (hdead : ∀ j, live (m c j) = false) {q : List ι} (hqn : q.length = n) (j : ι) :
    leaf child live (m.set f i e) r q j = leaf child live m r q j := by
  have hcf : c ≠ f := by
    rintro rfl
    exact hout p (by omega) hp
  simp only [leaf, walk_hang hsep hout hp hpn hold hnew hempty (q := q) (by omega)]
  by_cases hq : q = p ++ [i]
  · subst hq
    rw [if_pos rfl, walk_concat hp, hold]
    simp [Store.set_of_ne e (.inl hcf), hdead]
  · rw [if_neg hq]
    cases hw : walk child m r q with
    | none => rfl
    | some g =>
      have hg : g ≠ f := by
        rintro rfl
        have := congrArg List.length (hsep q p g (by omega) (by omega) hw hp)
        omega
      simp [Store.set_of_ne e (.inl hg)]

end Leaf
end Radix
