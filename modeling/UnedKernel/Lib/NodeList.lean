import Mathlib.Data.Finset.Card
import Mathlib.Data.Finset.Range
import UnedKernel.Lib.Run

/-! # Linked lists

A list in memory is given by what follows each node. `NodeList next p as` says that
the pointers from `p` on pass the nodes `as` and end there. -/

variable {α : Type*}

/-- The pointers from the first one on pass the nodes of the list and then end. -/
def NodeList (next : α → Option α) : Option α → List α → Prop
  | p, [] => p = none
  | p, a :: as => p = some a ∧ NodeList next (next a) as

namespace NodeList

variable {next next' : α → Option α} {p : Option α} {a b : α} {as bs front back : List α}

theorem head_eq (h : NodeList next p as) : p = as.head? := by
  cases as with
  | nil => exact h
  | cons a as => exact h.1

/-- The pointer of a node passes the nodes behind it. -/
theorem behind (h : NodeList next p (front ++ a :: back)) : NodeList next (next a) back := by
  induction front generalizing p with
  | nil => exact h.2
  | cons b front ih => exact ih h.2

theorem next_eq (h : NodeList next p (front ++ a :: back)) : next a = back.head? :=
  h.behind.head_eq

/-- The pointers determine the list. -/
theorem unique (h : NodeList next p as) (h' : NodeList next p bs) : as = bs := by
  induction as generalizing p bs with
  | nil =>
    cases bs with
    | nil => rfl
    | cons b bs => cases (show p = none from h).symm.trans h'.1
  | cons a as ih =>
    cases bs with
    | nil => cases (show p = none from h').symm.trans h.1
    | cons b bs =>
      obtain rfl := Option.some.inj (h.1.symm.trans h'.1)
      rw [ih h.2 h'.2]

/-- A list that ends passes no node twice. -/
theorem nodup (h : NodeList next p as) : as.Nodup := by
  induction as generalizing p with
  | nil => exact List.nodup_nil
  | cons a as ih =>
    refine List.nodup_cons.mpr ⟨fun hmem => ?_, ih h.2⟩
    obtain ⟨front, back, rfl⟩ := List.append_of_mem hmem
    have hloop := congrArg List.length (h.2.unique h.2.behind)
    rw [List.length_append, List.length_cons] at hloop
    omega

theorem front_ne (h : NodeList next p (front ++ a :: back)) (hb : b ∈ front) : b ≠ a := by
  intro heq
  exact (List.nodup_append.mp h.nodup).2.2 b hb a List.mem_cons_self heq

/-- A list of nodes below `n` has at most `n` of them. -/
theorem length_le {next : Nat → Option Nat} {p : Option Nat} {as : List Nat} {n : Nat}
    (h : NodeList next p as) (hlt : ∀ a ∈ as, a < n) : as.length ≤ n := by
  have hsub : as.toFinset ⊆ Finset.range n := by
    intro a ha
    exact Finset.mem_range.mpr (hlt a (List.mem_toFinset.mp ha))
  have hcard := Finset.card_le_card hsub
  rwa [List.toFinset_card_of_nodup h.nodup, Finset.card_range] at hcard

/-- A list is given by its first node and by what follows each node. -/
theorem of_next (hp : p = as.head?)
    (hnext : ∀ front a back, as = front ++ a :: back → next a = back.head?) :
    NodeList next p as := by
  induction as generalizing p with
  | nil => exact hp
  | cons a as ih =>
    refine ⟨hp, ih (hnext [] a as rfl) fun front b back heq => ?_⟩
    exact hnext (a :: front) b back (congrArg (a :: ·) heq)

/-- A list stays where the pointers of its nodes stay. -/
theorem congr (h : NodeList next p as) (hsame : ∀ a ∈ as, next' a = next a) : NodeList next' p as := by
  induction as generalizing p with
  | nil => exact h
  | cons a as ih =>
    refine ⟨h.1, ?_⟩
    rw [hsame a List.mem_cons_self]
    exact ih h.2 fun b hb => hsame b (List.mem_cons_of_mem a hb)

/-- Cut a list at one of its nodes. -/
theorem cut (h : NodeList next p (front ++ a :: back)) (hsame : ∀ b ∈ front, next' b = next b)
    (hbehind : NodeList next' (next' a) bs) : NodeList next' p (front ++ a :: bs) := by
  induction front generalizing p with
  | nil => exact ⟨h.1, hbehind⟩
  | cons b front ih =>
    refine ⟨h.1, ?_⟩
    rw [hsame b List.mem_cons_self]
    exact ih h.2 fun c hc => hsame c (List.mem_cons_of_mem b hc)

/-- A node is linked behind the last one. -/
theorem snoc (h : NodeList next p (front ++ [a])) (hsame : ∀ c ∈ front, next' c = next c)
    (ha : next' a = some b) (hb : next' b = none) : NodeList next' p (front ++ [a] ++ [b]) := by
  rw [List.append_assoc]
  refine h.cut hsame ?_
  rw [ha]
  exact ⟨rfl, hb⟩

theorem next_mem (h : NodeList next p as) (ha : a ∈ as) (hb : next a = some b) : b ∈ as := by
  obtain ⟨front, back, rfl⟩ := List.append_of_mem ha
  have hback : b ∈ back := List.mem_of_mem_head? (h.next_eq.symm.trans hb)
  exact List.mem_append_right front (List.mem_cons_of_mem a hback)

/-- Where the pointers up to a node stay, a list still passes it. -/
theorem mem_of_same (h : NodeList next p (front ++ a :: back)) (hsame : ∀ b ∈ front, next' b = next b)
    (h' : NodeList next' p bs) : a ∈ bs := by
  induction front generalizing p bs with
  | nil =>
    have hhead := h'.head_eq
    rw [show p = some a from h.1] at hhead
    exact List.mem_of_mem_head? hhead.symm
  | cons b front ih =>
    cases bs with
    | nil => cases (show p = none from h').symm.trans h.1
    | cons c bs =>
      obtain rfl := Option.some.inj (h'.1.symm.trans h.1)
      have hrest := h'.2
      rw [hsame c List.mem_cons_self] at hrest
      exact List.mem_cons_of_mem c
        (ih h.2 (fun d hd => hsame d (List.mem_cons_of_mem c hd)) hrest)

/-- No list passes a node that points to itself. -/
theorem next_ne_self (h : NodeList next p as) (ha : a ∈ as) : next a ≠ some a := by
  intro hself
  obtain ⟨front, back, rfl⟩ := List.append_of_mem ha
  have hback := h.behind
  rw [hself] at hback
  have hmem : a ∈ back := List.mem_of_mem_head? hback.head_eq.symm
  exact (List.nodup_cons.mp (List.nodup_append.mp h.nodup).2.1).1 hmem

/-! ## Walks -/

/-- The last node from `a` on, where it comes within `n` nodes. -/
def last (next : α → Option α) : Nat → α → Option α
  | 0, _ => none
  | n + 1, a =>
    match next a with
    | none => some a
    | some b => last next n b

theorem last_eq {n : Nat} (h : NodeList next (some b) (front ++ [a])) (hn : front.length < n) :
    last next n b = some a := by
  induction n generalizing b front with
  | zero => exact absurd hn (Nat.not_lt_zero _)
  | succ n ih =>
    rw [last]
    cases front with
    | nil =>
      obtain rfl := Option.some.inj h.1
      rw [show next b = none from h.2]
    | cons c front =>
      obtain ⟨hb, hrest⟩ := h
      obtain rfl := Option.some.inj hb
      obtain ⟨d, hd⟩ : ∃ d, next b = some d := by
        cases front with
        | nil => exact ⟨a, hrest.1⟩
        | cons d front => exact ⟨d, hrest.1⟩
      rw [hd] at hrest ⊢
      exact ih hrest (Nat.lt_of_succ_lt_succ hn)

/-- The nodes reached from the first one are those of the list. -/
theorem reaches_iff (h : NodeList next (some a) as) :
    Run.Reaches (fun c d => next c = some d) a b ↔ b ∈ as := by
  constructor
  · intro hreach
    induction hreach with
    | refl => exact List.mem_of_mem_head? h.head_eq.symm
    | tail _ hstep ih => exact h.next_mem ih hstep
  · intro hb
    induction as generalizing a with
    | nil => exact absurd hb List.not_mem_nil
    | cons c as ih =>
      obtain ⟨hc, hrest⟩ := h
      obtain rfl := Option.some.inj hc
      rcases List.mem_cons.mp hb with rfl | hb
      · exact Relation.ReflTransGen.refl
      · cases as with
        | nil => exact absurd hb List.not_mem_nil
        | cons d as =>
          have hd : next a = some d := hrest.1
          rw [hd] at hrest
          exact Relation.ReflTransGen.head hd (ih hrest hb)

end NodeList
