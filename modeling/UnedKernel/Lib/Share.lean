import UnedKernel.Lib.Radix

/-! # Radix trees that share tables

Two roots in one store whose trees meet, if at all, in the tables of the last
level, each at the same path of both. A write to one tree is seen by the other
exactly at the shared paths. A copy of a tree down to its last tables but one
is of this kind. -/

namespace Radix

variable {ν ι ε : Type*} {child : ε → Option ν} {m m' : Store ν ι ε}

/-! ## Stores that agree on a tree -/

/-- What differs between the stores lies outside the tree of `r`. -/
def AgreeOn (child : ε → Option ν) (m m' : Store ν ι ε) (r : ν) (n : Nat) : Prop :=
  ∀ f, ¬ Outside child m r n f → m' f = m f

theorem not_outside {r f : ν} {n : Nat} {p : List ι} (hp : p.length ≤ n)
    (hw : walk child m r p = some f) : ¬ Outside child m r n f := fun h => h p hp hw

namespace AgreeOn

variable {r : ν} {n : Nat}

theorem walk_eq (h : AgreeOn child m m' r n) {q : List ι} (hq : q.length ≤ n + 1) :
    walk child m' r q = walk child m r q := by
  refine walk_congr q (s := []) rfl fun s g i t heq _ hs => ?_
  have hlen : s.length ≤ n := by
    have := congrArg List.length heq
    simp at this
    omega
  rw [h g (not_outside hlen hs)]

theorem separated (h : AgreeOn child m m' r n) (hsep : Separated child m r n) :
    Separated child m' r n := by
  intro p q f hp hq hwp hwq
  rw [h.walk_eq (by omega)] at hwp hwq
  exact hsep p q f hp hq hwp hwq

theorem outside (h : AgreeOn child m m' r n) {c : ν} (hc : Outside child m r n c) :
    Outside child m' r n c := by
  intro p hp
  rw [h.walk_eq (by omega)]
  exact hc p hp

theorem leaf_eq (h : AgreeOn child m m' r n) {live : ε → Bool} {q : List ι} (hq : q.length ≤ n)
    (j : ι) : leaf child live m' r q j = leaf child live m r q j := by
  rw [leaf, leaf, h.walk_eq (by omega)]
  cases hw : walk child m r q with
  | none => rfl
  | some f =>
    have hf : m' f = m f := h f (not_outside hq hw)
    simp only [Option.bind_some, hf]

theorem trans {m'' : Store ν ι ε} (h : AgreeOn child m m' r n) (h' : AgreeOn child m' m'' r n) :
    AgreeOn child m m'' r n := by
  intro f hf
  rw [h' f fun hout => hf fun p hp => ?_, h f hf]
  rw [← h.walk_eq (by omega)]
  exact hout p hp

end AgreeOn

/-! ## Trees that meet at the last level -/

/-- A node in both trees is reached by one path of full length. -/
def Meet (child : ε → Option ν) (m : Store ν ι ε) (a b : ν) (n : Nat) : Prop :=
  ∀ p q f, p.length ≤ n → q.length ≤ n → walk child m a p = some f → walk child m b q = some f →
    p = q ∧ p.length = n

namespace Meet

variable {a b : ν} {n : Nat}

theorem symm (h : Meet child m a b n) : Meet child m b a n := by
  intro p q f hp hq hwp hwq
  obtain ⟨rfl, hlen⟩ := h q p f hq hp hwq hwp
  exact ⟨rfl, hlen⟩

/-- The nodes of the upper levels are in one tree only. -/
theorem outside (h : Meet child m a b n) {p : List ι} {f : ν} (hp : walk child m a p = some f)
    (hlt : p.length < n) : Outside child m b n f := by
  intro q hq hw
  obtain ⟨-, hlen⟩ := h p q f (by omega) hq hp hw
  omega

theorem congr (h : Meet child m a b n)
    (ha : ∀ p, p.length ≤ n → walk child m' a p = walk child m a p)
    (hb : ∀ p, p.length ≤ n → walk child m' b p = walk child m b p) : Meet child m' a b n := by
  intro p q f hp hq hwp hwq
  rw [ha p hp] at hwp
  rw [hb q hq] at hwq
  exact h p q f hp hq hwp hwq

end Meet

/-! ## Writes to one of two trees -/

section Write
variable [DecidableEq ν] [DecidableEq ι] {a b f c : ν} {n : Nat} {p : List ι} {i : ι} {e : ε}

theorem agreeOn_set {r : ν} (hf : Outside child m r n f) : AgreeOn child m (m.set f i e) r n := by
  intro g hg
  funext j
  refine Store.set_of_ne e (.inl ?_)
  rintro rfl
  exact hg hf

omit [DecidableEq ι] in
theorem agreeOn_fill {r : ν} (hc : Outside child m r n c) : AgreeOn child m (m.fill c e) r n := by
  intro g hg
  funext j
  refine Store.fill_of_ne j e ?_
  rintro rfl
  exact hg hc

/-- Hanging a table of its own into one tree keeps the trees as far apart. -/
theorem Meet.hang (h : Meet child m a b n) (hsep : Separated child m a n)
    (hout : Outside child m a n c) (houtb : Outside child m b n c)
    (hp : walk child m a p = some f) (hpn : p.length + 1 ≤ n) (hold : child (m f i) = none)
    (hnew : child e = some c) (hempty : ∀ j, child (m c j) = none) :
    Meet child (m.set f i e) a b n := by
  have hlt : p.length < n := hpn
  have hagree : AgreeOn child m (m.set f i e) b n := agreeOn_set (h.outside hp hlt)
  intro s q g hs hq hws hwq
  rw [hagree.walk_eq (by omega)] at hwq
  rw [walk_hang hsep hout hp hpn hold hnew hempty (by omega)] at hws
  split at hws
  · cases hws
    exact absurd hwq (houtb q hq)
  · exact h s q g hs hq hws hwq

/-- A write to a table of the last level of one tree changes no walk of the other. -/
theorem Meet.walk_set_leaf (h : Meet child m a b n) (hsep : Separated child m b n)
    (hp : walk child m a p = some f) (hpn : p.length = n) {q : List ι} (hq : q.length ≤ n) :
    walk child (m.set f i e) b q = walk child m b q := by
  by_cases hw : walk child m b p = some f
  · exact Radix.walk_set_leaf hsep hw hpn hq
  · have hagree : AgreeOn child m (m.set f i e) b n := agreeOn_set fun s hs hws => by
      obtain ⟨rfl, -⟩ := h p s f (by omega) hs hp hws
      exact hw hws
    exact hagree.walk_eq (Nat.le_succ_of_le hq)

theorem Meet.set_leaf (h : Meet child m a b n) (hsepa : Separated child m a n)
    (hsepb : Separated child m b n) (hp : walk child m a p = some f) (hpn : p.length = n) :
    Meet child (m.set f i e) a b n :=
  h.congr (fun _ hq => Radix.walk_set_leaf hsepa hp hpn hq)
    fun _ hq => h.walk_set_leaf hsepb hp hpn hq

/-- The other tree sees the write at the path of the table, if it shares it. -/
theorem Meet.leaf_set (h : Meet child m a b n) (hsep : Separated child m b n) {live : ε → Bool}
    (hp : walk child m a p = some f) (hpn : p.length = n) {q : List ι} (hq : q.length ≤ n)
    (j : ι) : leaf child live (m.set f i e) b q j =
      if walk child m b p = some f ∧ q = p ∧ j = i then if live e = true then some e else none
      else leaf child live m b q j := by
  by_cases hw : walk child m b p = some f
  · rw [Radix.leaf_set hsep hw hpn hq]
    simp only [hw, true_and]
  · rw [if_neg fun hall => hw hall.1]
    have hagree : AgreeOn child m (m.set f i e) b n := agreeOn_set fun s hs hws => by
      obtain ⟨rfl, -⟩ := h p s f (by omega) hs hp hws
      exact hw hws
    exact hagree.leaf_eq hq j

end Write

/-! ## Entries above the last level -/

/-- `P` holds of every entry above the last level and the path that ends with it. -/
def Upper (child : ε → Option ν) (m : Store ν ι ε) (r : ν) (n : Nat) (P : List ι → ε → Prop) :
    Prop := ∀ p f i, p.length < n → walk child m r p = some f → P (p ++ [i]) (m f i)

namespace Upper

variable {r : ν} {n : Nat} {P : List ι → ε → Prop}

theorem agree (h : Upper child m r n P) (ha : AgreeOn child m m' r n) : Upper child m' r n P := by
  intro p f i hp hw
  rw [ha.walk_eq (by omega)] at hw
  rw [ha f (not_outside (by omega) hw)]
  exact h p f i hp hw

variable [DecidableEq ν] [DecidableEq ι] {f c : ν} {p : List ι} {i : ι} {e : ε}

theorem set_leaf (h : Upper child m r n P) (hsep : Separated child m r n)
    (hp : walk child m r p = some f) (hpn : p.length = n) : Upper child (m.set f i e) r n P := by
  intro q g j hq hw
  rw [walk_set_leaf hsep hp hpn (by omega)] at hw
  have hne : g ≠ f := by
    rintro rfl
    have := congrArg List.length (hsep q p g (by omega) (by omega) hw hp)
    omega
  rw [Store.set_of_ne e (.inl hne)]
  exact h q g j hq hw

/-- A write to a table of the last level of another tree changes no entry above it. -/
theorem set_leaf_twin {a : ν} (h : Upper child m r n P) (hmeet : Meet child m a r n)
    (hsep : Separated child m r n) (hp : walk child m a p = some f) (hpn : p.length = n) :
    Upper child (m.set f i e) r n P := by
  by_cases hw : walk child m r p = some f
  · exact h.set_leaf hsep hw hpn
  · refine h.agree (agreeOn_set fun q hq hwq => ?_)
    obtain ⟨rfl, -⟩ := hmeet p q f (by omega) hq hp hwq
    exact hw hwq

/-- A new table adds its own entries and the one it hangs under. -/
theorem hang (h : Upper child m r n P) (hsep : Separated child m r n)
    (hout : Outside child m r n c) (hp : walk child m r p = some f) (hpn : p.length + 1 ≤ n)
    (hold : child (m f i) = none) (hnew : child e = some c) (hempty : ∀ j, child (m c j) = none)
    (he : P (p ++ [i]) e) (hc : ∀ j, P (p ++ [i] ++ [j]) (m c j)) :
    Upper child (m.set f i e) r n P := by
  intro q g j hq hw
  rw [walk_hang hsep hout hp hpn hold hnew hempty (by omega)] at hw
  split at hw
  · rename_i hqp
    cases hw
    have hcf : c ≠ f := by
      rintro rfl
      exact hout p (by omega) hp
    rw [Store.set_of_ne e (.inl hcf), hqp]
    exact hc j
  · by_cases hfi : g = f ∧ j = i
    · obtain ⟨rfl, rfl⟩ := hfi
      rw [Store.set_same, hsep q p g (by omega) (by omega) hw hp]
      exact he
    · rw [Store.set_of_ne e (by tauto)]
      exact h q g j hq hw

end Upper

/-! ## Copies -/

/-- Copy a table. -/
def Store.copy [DecidableEq ν] (m : Store ν ι ε) (new old : ν) : Store ν ι ε := fun g =>
  if g = new then m old else m g

theorem Store.copy_same [DecidableEq ν] (new old : ν) : m.copy new old new = m old := if_pos rfl

theorem Store.copy_of_ne [DecidableEq ν] {new old g : ν} (h : g ≠ new) :
    m.copy new old g = m g := if_neg h

/-- The tree of `new` is that of `old`, with the tables of `d` levels below the root copied
to the tables `table x` for numbers `x` from `lo` to `hi`; `origin x` is what was copied. -/
def IsCopy (child : ε → Option ν) (m : Store ν ι ε) (table origin : Nat → ν) (lo hi : Nat) :
    Nat → ν → ν → Prop
  | 0, old, new => m new = m old
  | d + 1, old, new => ∀ i, (child (m old i) = none ∧ child (m new i) = none) ∨
      ∃ x, lo ≤ x ∧ x < hi ∧ child (m old i) = some (origin x) ∧ child (m new i) = some (table x) ∧
        IsCopy child m table origin lo hi d (origin x) (table x)

/-- The tree of `new` is a part of a copy of that of `old`, as walks see it. -/
structure IsPart (child : ε → Option ν) (m : Store ν ι ε) (table origin : Nat → ν) (lo hi d : Nat)
    (old new : ν) : Prop where
  upper : ∀ p, p ≠ [] → p.length ≤ d → walk child m new p = none ∨
    ∃ x, lo ≤ x ∧ x < hi ∧ walk child m old p = some (origin x) ∧
      walk child m new p = some (table x)
  last : ∀ p, p.length = d + 1 → walk child m new p = none ∨
    walk child m new p = walk child m old p

section Copy
variable {table origin : Nat → ν} {lo hi d : Nat} {old new : ν}

namespace IsCopy

/-- The walks of a copy above its last level, beside those of the tree copied. -/
theorem walk_upper (h : IsCopy child m table origin lo hi d old new) {p : List ι} (hne : p ≠ [])
    (hp : p.length ≤ d) : walk child m new p = none ∨
      ∃ x, lo ≤ x ∧ x < hi ∧ walk child m old p = some (origin x) ∧
        walk child m new p = some (table x) := by
  induction p generalizing d old new with
  | nil => exact absurd rfl hne
  | cons i p ih =>
    cases d with
    | zero => simp at hp
    | succ d =>
      rw [walk_cons, walk_cons]
      rcases h i with ⟨hold, hnew⟩ | ⟨x, hlo, hhi, hold, hnew, hrest⟩
      · exact .inl (by rw [hnew]; rfl)
      · rw [hold, hnew, Option.bind_some, Option.bind_some]
        cases p with
        | nil => exact .inr ⟨x, hlo, hhi, rfl, rfl⟩
        | cons j p => exact ih hrest (List.cons_ne_nil j p) (Nat.le_of_succ_le_succ hp)

/-- The tables of the last level are those of the tree copied. -/
theorem walk_last (h : IsCopy child m table origin lo hi d old new) {p : List ι}
    (hp : p.length = d + 1) : walk child m new p = walk child m old p := by
  induction d generalizing p old new with
  | zero =>
    obtain ⟨i, rfl⟩ := List.length_eq_one_iff.mp hp
    rw [walk_cons, walk_cons, show m new = m old from h]
  | succ d ih =>
    cases p with
    | nil => cases hp
    | cons i p =>
      rw [walk_cons, walk_cons]
      rcases h i with ⟨hold, hnew⟩ | ⟨x, -, -, hold, hnew, hrest⟩
      · rw [hold, hnew]
      · rw [hold, hnew, Option.bind_some, Option.bind_some]
        exact ih hrest (Nat.succ.inj hp)

theorem congr {origin' : Nat → ν} {lo' hi' : Nat}
    (h : IsCopy child m table origin lo hi d old new) (hlo : lo' ≤ lo) (hhi : hi ≤ hi')
    (horigin : ∀ x, lo ≤ x → x < hi → origin' x = origin x) (hnew : m' new = m new)
    (hold : m' old = m old)
    (hin : ∀ x, lo ≤ x → x < hi → m' (table x) = m (table x) ∧ m' (origin x) = m (origin x)) :
    IsCopy child m' table origin' lo' hi' d old new := by
  induction d generalizing old new with
  | zero => exact hnew.trans ((show m new = m old from h).trans hold.symm)
  | succ d ih =>
    intro i
    rw [hnew, hold]
    rcases h i with hnone | ⟨x, hxlo, hxhi, hxold, hxnew, hrest⟩
    · exact .inl hnone
    · refine .inr ⟨x, Nat.le_trans hlo hxlo, Nat.lt_of_lt_of_le hxhi hhi, ?_, hxnew, ?_⟩
      · rw [horigin x hxlo hxhi]
        exact hxold
      · rw [horigin x hxlo hxhi]
        exact ih hrest (hin x hxlo hxhi).1 (hin x hxlo hxhi).2

end IsCopy

namespace IsPart

/-- A root whose entries are those of a copy or lead nowhere. -/
theorem of_root (h : ∀ i, child (m new i) = none ∨
      ∃ x, lo ≤ x ∧ x < hi ∧ child (m old i) = some (origin x) ∧ child (m new i) = some (table x) ∧
        IsCopy child m table origin lo hi d (origin x) (table x)) :
    IsPart child m table origin lo hi (d + 1) old new := by
  refine ⟨fun p hne hp => ?_, fun p hp => ?_⟩
  · cases p with
    | nil => exact absurd rfl hne
    | cons i p =>
      rw [walk_cons, walk_cons]
      rcases h i with hnew | ⟨x, hlo, hhi, hold, hnew, hrest⟩
      · exact .inl (by rw [hnew]; rfl)
      · rw [hold, hnew, Option.bind_some, Option.bind_some]
        cases p with
        | nil => exact .inr ⟨x, hlo, hhi, rfl, rfl⟩
        | cons j p => exact hrest.walk_upper (List.cons_ne_nil j p) (Nat.le_of_succ_le_succ hp)
  · cases p with
    | nil => cases hp
    | cons i p =>
      rw [walk_cons, walk_cons]
      rcases h i with hnew | ⟨x, -, -, hold, hnew, hrest⟩
      · exact .inl (by rw [hnew]; rfl)
      · rw [hold, hnew, Option.bind_some, Option.bind_some]
        exact .inr (hrest.walk_last (Nat.succ.inj hp))

variable {r : Nat} (h : IsPart child m table origin lo hi d old (table r)) (hr : r < lo)
  (hrhi : r < hi) (hout : ∀ x, r ≤ x → x < hi → Outside child m old (d + 1) (table x))
  (hsep : Separated child m old (d + 1))
include h hr hrhi hout hsep

/-- A part of a copy, in tables of its own, is separated. -/
theorem separated
    (hinj : ∀ x y, r ≤ x → x < hi → r ≤ y → y < hi → table x = table y → x = y) :
    Separated child m (table r) (d + 1) := by
  -- above the last level the walks stay in the tables of the copy
  have hupper : ∀ p f, p.length ≤ d → walk child m (table r) p = some f → ∃ x, r ≤ x ∧ x < hi ∧
      f = table x ∧ walk child m old p = some (if x = r then old else origin x) := by
    intro p f hp hw
    by_cases hnil : p = []
    · subst hnil
      exact ⟨r, le_refl r, hrhi, (Option.some.inj hw).symm, by rw [if_pos rfl]; rfl⟩
    · rcases h.upper p hnil hp with hnone | ⟨x, hlo, hhi, hold, hnew⟩
      · rw [hnone] at hw
        cases hw
      · refine ⟨x, by omega, hhi, Option.some.inj (hw.symm.trans hnew), ?_⟩
        rw [if_neg (by omega)]
        exact hold
  have hlast : ∀ p f, d < p.length → p.length ≤ d + 1 → walk child m (table r) p = some f →
      walk child m old p = some f := by
    intro p f hpd hp hw
    rcases h.last p (by omega) with hnone | heq
    · rw [hnone] at hw
      cases hw
    · exact heq.symm.trans hw
  intro p q f hp hq hwp hwq
  rcases Nat.lt_or_ge d p.length with hpd | hpd
  · have hwp' := hlast p f hpd hp hwp
    rcases Nat.lt_or_ge d q.length with hqd | hqd
    · exact hsep p q f hp hq hwp' (hlast q f hqd hq hwq)
    · obtain ⟨x, hx, hxhi, rfl, -⟩ := hupper q f hqd hwq
      exact absurd hwp' (hout x hx hxhi p hp)
  · obtain ⟨x, hx, hxhi, rfl, hwx⟩ := hupper p f hpd hwp
    rcases Nat.lt_or_ge d q.length with hqd | hqd
    · exact absurd (hlast q _ hqd hq hwq) (hout x hx hxhi q hq)
    · obtain ⟨y, hy, hyhi, hxy, hwy⟩ := hupper q _ hqd hwq
      obtain rfl := hinj x y hx hxhi hy hyhi hxy
      exact hsep p q _ hp hq hwx hwy

/-- A part of a copy and the tree copied meet at the last level only. -/
theorem meet : Meet child m old (table r) (d + 1) := by
  intro p q f hp hq hwp hwq
  rcases Nat.lt_or_ge d q.length with hqd | hqd
  · rcases h.last q (by omega) with hnone | heq
    · rw [hnone] at hwq
      cases hwq
    · obtain rfl := hsep p q f hp hq hwp (heq.symm.trans hwq)
      exact ⟨rfl, by omega⟩
  · by_cases hnil : q = []
    · subst hnil
      obtain rfl := Option.some.inj hwq
      exact absurd hwp (hout r (le_refl r) hrhi p hp)
    · rcases h.upper q hnil hqd with hnone | ⟨x, hlo, hhi, -, hnew⟩
      · rw [hnone] at hwq
        cases hwq
      · obtain rfl := Option.some.inj (hwq.symm.trans hnew)
        exact absurd hwp (hout x (by omega) hhi p hp)

end IsPart
end Copy
end Radix
