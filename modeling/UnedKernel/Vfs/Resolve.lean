import Mathlib.Data.List.DropRight
import UnedKernel.Vfs.Remove

/-! # Paths part by part

A path is the list of its parts between slashes, the empty ones among them.
`resolve` takes `..` for what it means; `placed` is what the loop of
`vfs_normalize_path` leaves of the same parts. The two agree on the parts that
`Keeps` describes and on no others: a count of the ordinary names on both sides
shows the difference wherever it begins. -/

namespace Vfs
open ByteMem

/-- A name that does not end in a dot. -/
def Ordinary (c : List Byte) : Prop := c ≠ [] ∧ c.getLast? ≠ some dot

instance (c : List Byte) : Decidable (Ordinary c) :=
  inferInstanceAs (Decidable (c ≠ [] ∧ c.getLast? ≠ some dot))

/-- One part of a path: `..` takes back the last name, but not one of the first `floor`. -/
def resolveStep (floor : Nat) (stack : List (List Byte)) (c : List Byte) : List (List Byte) :=
  if c = [] ∨ c = [dot] then stack
  else if c = [dot, dot] then (if floor < stack.length then stack.tail else stack)
  else c :: stack

theorem Ordinary.ne {c : List Byte} (h : Ordinary c) : c ≠ [] ∧ c ≠ [dot] ∧ c ≠ [dot, dot] := by
  refine ⟨h.1, ?_, ?_⟩
  · intro heq
    subst heq
    exact h.2 rfl
  · intro heq
    subst heq
    exact h.2 rfl

theorem resolveStep_name {floor : Nat} {c : List Byte} {stack : List (List Byte)}
    (hne : c ≠ [] ∧ c ≠ [dot] ∧ c ≠ [dot, dot]) : resolveStep floor stack c = c :: stack := by
  rw [resolveStep, if_neg (fun hor => hor.elim hne.1 hne.2.1), if_neg hne.2.2]

/-- The names that are left after all parts, the last one first. -/
def resolve (floor : Nat) (stack parts : List (List Byte)) : List (List Byte) :=
  parts.foldl (resolveStep floor) stack

/-- What the loop of `vfs_normalize_path` does with a part and the slash behind it: to the parts
that are written with their slash, the last one first, and to what is written behind them. -/
def partStep (t : List (List Byte) × List Byte) (c : List Byte) : List (List Byte) × List Byte :=
  if [dot, dot] <:+ c then (t.1, [])
  else if c.getLast? = some dot then (t.1, t.2 ++ c.dropLast)
  else ((t.2 ++ c) :: t.1, [])

theorem partStep_name {c : List Byte} {t : List (List Byte) × List Byte} (h : Ordinary c) :
    partStep t c = ((t.2 ++ c) :: t.1, []) := by
  have htwo : ¬ [dot, dot] <:+ c := by
    intro hsuffix
    obtain ⟨y, rfl⟩ := hsuffix
    exact h.2 (by simp)
  rw [partStep, if_neg htwo, if_neg h.2]

/-- What it leaves of the parts, the last one first: dots at the end are removed. -/
def placed (t : List (List Byte) × List Byte) : List (List Byte) → List (List Byte)
  | [] => t.1
  | c :: rest =>
    if rest = [] then (t.2 ++ c).rdropWhile (· = dot) :: t.1 else placed (partStep t c) rest

/-- The parts that are read as they are meant. `waiting` counts the names ending in a dot that a
`..` has to take back, and `pending` says that the slash behind one of them was lost. -/
def Keeps (floor names waiting : Nat) (pending : Bool) : List (List Byte) → Prop
  | [] => waiting = 0
  | c :: rest =>
    if c = [] then pending = false ∧ Keeps floor names waiting pending rest
    else if c = [dot] then Keeps floor names waiting pending rest
    else if c = [dot, dot] then
      match waiting with
      | 0 => names ≤ floor ∧ Keeps floor names 0 false rest
      | w + 1 => (rest = [] → pending = false) ∧ Keeps floor names w false rest
    else if c.getLast? = some dot then
      floor ≤ names ∧ Keeps floor names (waiting + 1) (!decide ([dot, dot] <:+ c)) rest
    else waiting = 0 ∧ Keeps floor (names + 1) 0 false rest

/-- No empty part stands before an ordinary name. -/
def NoGap : List (List Byte) → Prop
  | [] => True
  | c :: rest => (c = [] → ∀ d ∈ rest, ¬ Ordinary d) ∧ NoGap rest

/-! ## Counting ordinary names -/

/-- The ordinary names among the parts. -/
abbrev ordinary (parts : List (List Byte)) : Nat := parts.countP fun c => decide (Ordinary c)

/-- The parts that are not empty. -/
abbrev nonEmpty (parts : List (List Byte)) : List (List Byte) := parts.filter fun c => decide (c ≠ [])

section count

variable {floor : Nat} {c d x p : List Byte} {stack parts new st done : List (List Byte)}

theorem ordinary_cons : ordinary (c :: parts) = ordinary parts + if Ordinary c then 1 else 0 := by
  by_cases h : Ordinary c <;> simp [ordinary, h]

theorem nonEmpty_cons : nonEmpty (d :: done) = if d = [] then nonEmpty done else d :: nonEmpty done := by
  by_cases h : d = [] <;> simp [nonEmpty, h]

theorem nonEmpty_cons_le : (nonEmpty done).length ≤ (nonEmpty (d :: done)).length := by
  rw [nonEmpty_cons]
  split <;> simp

theorem resolveStep_ordinary_le :
    ordinary (resolveStep floor stack c) ≤ ordinary stack + ordinary [c] := by
  unfold resolveStep
  split
  · exact Nat.le_add_right _ _
  split
  · split
    · exact Nat.le_trans ((List.tail_sublist stack).countP_le) (Nat.le_add_right _ _)
    · exact Nat.le_add_right _ _
  · simp only [ordinary, List.countP_cons, List.countP_nil]
    omega

/-- No part adds more than one ordinary name. -/
theorem resolve_ordinary_le : ordinary (resolve floor stack parts) ≤ ordinary stack + ordinary parts := by
  induction parts generalizing stack with
  | nil => exact Nat.le_refl _
  | cons c rest ih =>
    have hstep := @resolveStep_ordinary_le floor c stack
    have hrest := @ih (resolveStep floor stack c)
    simp only [ordinary, List.countP_cons, List.countP_nil] at hstep hrest ⊢
    simp only [resolve, List.foldl_cons] at hrest ⊢
    omega

/-- A name stays with everything below it, or it is lost to the count. -/
theorem resolve_keeps_or_loses : (∃ new', resolve floor (new ++ x :: st) parts = new' ++ x :: st) ∨
    ordinary (resolve floor (new ++ x :: st) parts) ≤ ordinary st + ordinary parts := by
  induction parts generalizing new with
  | nil => exact .inl ⟨new, rfl⟩
  | cons c rest ih =>
    have hcount : ordinary rest ≤ ordinary (c :: rest) := by
      simp only [ordinary, List.countP_cons]
      omega
    have hstep : resolve floor (new ++ x :: st) (c :: rest) =
        resolve floor (resolveStep floor (new ++ x :: st) c) rest := rfl
    rw [hstep]
    have hsame (new : List (List Byte)) :
        (∃ new', resolve floor (new ++ x :: st) rest = new' ++ x :: st) ∨
        ordinary (resolve floor (new ++ x :: st) rest) ≤ ordinary st + ordinary (c :: rest) :=
      (@ih new).imp_right fun h => Nat.le_trans h (Nat.add_le_add_left hcount _)
    unfold resolveStep
    split
    · exact hsame new
    split
    · split
      · cases new with
        | nil => exact .inr (Nat.le_trans resolve_ordinary_le (Nat.add_le_add_left hcount _))
        | cons y new => exact hsame new
      · exact hsame new
    · exact hsame (c :: new)

/-- One of the first `floor` names stays. -/
theorem resolve_keeps_floor (hst : st.length < floor) :
    ∃ new', resolve floor (new ++ x :: st) parts = new' ++ x :: st := by
  induction parts generalizing new with
  | nil => exact ⟨new, rfl⟩
  | cons c rest ih =>
    have hstep : resolve floor (new ++ x :: st) (c :: rest) =
        resolve floor (resolveStep floor (new ++ x :: st) c) rest := rfl
    rw [hstep]
    unfold resolveStep
    split
    · exact ih
    split
    · split
      · rename_i hlt
        cases new with
        | nil => simp only [List.nil_append, List.length_cons] at hlt; omega
        | cons y new => exact ih
      · exact ih
    · exact @ih (c :: new)

end count

/-! ## What the loop leaves -/

/-- What is written has no dot before a slash, nor at its end. -/
def Clean (t : List (List Byte) × List Byte) : Prop :=
  (∀ d ∈ t.1, d.getLast? ≠ some dot) ∧ t.2.getLast? ≠ some dot

section clean

variable {c p : List Byte} {parts r : List (List Byte)} {t : List (List Byte) × List Byte}

/-- A part that ends in one dot, without the dot. -/
theorem dropLast_getLast? (hc : c.getLast? = some dot) (htwo : ¬ [dot, dot] <:+ c) :
    c.dropLast.getLast? ≠ some dot := by
  obtain ⟨y, rfl⟩ := List.getLast?_eq_some_iff.mp hc
  rw [List.dropLast_concat]
  intro hy
  obtain ⟨z, rfl⟩ := List.getLast?_eq_some_iff.mp hy
  exact htwo ⟨z, by simp⟩

theorem append_getLast? (hp : p.getLast? ≠ some dot) (hc : c.getLast? ≠ some dot) :
    (p ++ c).getLast? ≠ some dot := by
  rw [List.getLast?_append]
  cases hlast : c.getLast? with
  | none => simpa using hp
  | some d =>
    rw [hlast] at hc
    simpa using hc

theorem rdropWhile_getLast? : (p.rdropWhile (· = dot)).getLast? ≠ some dot := by
  intro h
  obtain ⟨y, hy⟩ := List.getLast?_eq_some_iff.mp h
  have hne : p.rdropWhile (· = dot) ≠ [] := by simp [hy]
  have hlast := List.rdropWhile_last_not (fun x : Byte => decide (x = dot)) p hne
  simp [hy] at hlast

theorem rdropWhile_eq_self (hp : p.getLast? ≠ some dot) : p.rdropWhile (· = dot) = p := by
  rw [List.rdropWhile_eq_self_iff]
  intro hne hdot
  rw [List.getLast?_eq_some_getLast hne] at hp
  exact hp (congrArg some (of_decide_eq_true hdot))

theorem Clean.step (ht : Clean t) : Clean (partStep t c) := by
  unfold partStep
  split
  · exact ⟨ht.1, by simp⟩
  rename_i htwo
  split
  · rename_i hc
    exact ⟨ht.1, append_getLast? ht.2 (dropLast_getLast? hc htwo)⟩
  · rename_i hc
    refine ⟨fun d hd => ?_, by simp⟩
    rcases List.mem_cons.mp hd with rfl | hd
    · exact append_getLast? ht.2 hc
    · exact ht.1 d hd

theorem placed_getLast? (ht : Clean t) : ∀ d ∈ placed t parts, d.getLast? ≠ some dot := by
  induction parts generalizing t with
  | nil => exact ht.1
  | cons c rest ih =>
    unfold placed
    split
    · intro d hd
      rcases List.mem_cons.mp hd with rfl | hd
      · exact rdropWhile_getLast?
      · exact ht.1 d hd
    · exact ih ht.step

/-- A part that is ordinary is written. -/
theorem partStep_count : (nonEmpty t.1).length + (if Ordinary c then 1 else 0) ≤
    (nonEmpty (partStep t c).1).length := by
  by_cases ho : Ordinary c
  · rw [partStep_name ho, if_pos ho, nonEmpty_cons, if_neg (by simp [ho.1])]
    exact Nat.le_refl _
  · rw [if_neg ho]
    unfold partStep
    split
    · exact Nat.le_refl _
    split
    · exact Nat.le_refl _
    · exact nonEmpty_cons_le

/-- Every ordinary name is found in what is left. -/
theorem ordinary_le_placed : ordinary parts + (nonEmpty t.1).length ≤ (nonEmpty (placed t parts)).length := by
  induction parts generalizing t with
  | nil => simp [placed]
  | cons c rest ih =>
    rw [placed, ordinary_cons]
    by_cases hrest : rest = []
    · subst hrest
      rw [if_pos rfl]
      by_cases ho : Ordinary c
      · have hkeep : (t.2 ++ c).rdropWhile (· = dot) = t.2 ++ c := by
          refine rdropWhile_eq_self ?_
          rw [List.getLast?_append_of_ne_nil _ ho.1]
          exact ho.2
        rw [hkeep, if_pos ho, nonEmpty_cons, if_neg (by simp [ho.1]), List.length_cons, Nat.add_comm]
        exact Nat.le_refl _
      · rw [if_neg ho, Nat.add_zero]
        simpa using nonEmpty_cons_le
    · rw [if_neg hrest]
      have hplaced := @ih (partStep t c)
      have hstep := @partStep_count c t
      omega

/-- All names that are left are ordinary. -/
theorem placed_ordinary (ht : Clean t) (h : nonEmpty (placed t parts) = r) : ∀ d ∈ r, Ordinary d := by
  intro d hd
  rw [← h] at hd
  obtain ⟨hmem, hne⟩ := List.mem_filter.mp hd
  exact ⟨of_decide_eq_true hne, placed_getLast? ht d hmem⟩

theorem placed_count (ht : Clean t) (h : nonEmpty (placed t parts) = r) :
    ordinary parts + (nonEmpty t.1).length ≤ ordinary r := by
  have hall : ordinary r = r.length :=
    List.countP_eq_length.mpr fun d hd => decide_eq_true (placed_ordinary ht h d hd)
  rw [hall, ← h]
  exact ordinary_le_placed

end clean

/-! ## Where the two agree -/

/-- Before the remaining parts: the names above the written ones wait for a `..`. -/
structure Agrees (floor names : Nat) (waits : List (List Byte)) (pending : Bool)
    (t : List (List Byte) × List Byte) (stack : List (List Byte)) : Prop where
  clean : Clean t
  lost : pending = false ↔ t.2 = []
  eq : stack = waits ++ nonEmpty t.1
  dots : ∀ w ∈ waits, w.getLast? = some dot
  count : (nonEmpty t.1).length = names
  above : waits ≠ [] → floor ≤ names
  idle : waits = [] → pending = false

theorem resolve_cons {floor : Nat} {c : List Byte} {stack rest : List (List Byte)} :
    resolve floor stack (c :: rest) = resolve floor (resolveStep floor stack c) rest := rfl

theorem placed_cons {c : List Byte} {rest : List (List Byte)} {t : List (List Byte) × List Byte}
    (hrest : rest ≠ []) : placed t (c :: rest) = placed (partStep t c) rest := by
  rw [placed, if_neg hrest]

section violations

variable {parts r : List (List Byte)} {u : List (List Byte) × List Byte} {w : List Byte}

/-- A name that ends in a dot is not among the names that are left. -/
theorem placed_ne_of_dot (hu : Clean u) (hw : w ∈ r) (hlast : w.getLast? = some dot) :
    nonEmpty (placed u parts) ≠ r :=
  fun heq => (placed_ordinary hu heq w hw).2 hlast

/-- More names are left than there should be. -/
theorem placed_ne_of_count (hu : Clean u)
    (hlt : ordinary r < ordinary parts + (nonEmpty u.1).length) : nonEmpty (placed u parts) ≠ r := by
  intro heq
  have hcount := placed_count hu heq
  omega

end violations

namespace Agrees

variable {floor names : Nat} {waits stack rest : List (List Byte)} {pending : Bool} {c w : List Byte}
  {t : List (List Byte) × List Byte}

theorem ordinary_stack (h : Agrees floor names waits pending t stack) : ordinary stack = names := by
  have hwaits : ordinary waits = 0 :=
    List.countP_eq_zero.mpr fun w hw ho => (of_decide_eq_true ho).2 (h.dots w hw)
  have hwritten : ordinary (nonEmpty t.1) = (nonEmpty t.1).length := by
    refine List.countP_eq_length.mpr fun d hd => decide_eq_true ?_
    obtain ⟨hmem, hne⟩ := List.mem_filter.mp hd
    exact ⟨of_decide_eq_true hne, h.clean.1 d hmem⟩
  have hsum : ordinary (waits ++ nonEmpty t.1) = ordinary waits + ordinary (nonEmpty t.1) :=
    List.countP_append
  rw [h.eq, hsum, hwaits, hwritten, h.count, Nat.zero_add]

/-- Nothing waits, so all names are written. -/
theorem of_nil (h : Agrees floor names [] pending t stack) :
    pending = false ∧ t.2 = [] ∧ stack = nonEmpty t.1 ∧ stack.length = names := by
  have hpending := h.idle rfl
  exact ⟨hpending, h.lost.mp hpending, h.eq, by rw [h.eq]; exact h.count⟩

theorem mem_of_cons (h : Agrees floor names (w :: waits) pending t stack) :
    w ∈ stack ∧ w.getLast? = some dot ∧ floor < stack.length := by
  have habove := h.above (List.cons_ne_nil _ _)
  refine ⟨by rw [h.eq]; simp, h.dots w (List.mem_cons_self ..), ?_⟩
  rw [h.eq, List.cons_append, List.length_cons, List.length_append, h.count]
  omega

/-! ## The last part -/

/-- Dots at the end are cut off. -/
theorem placed_dots (h : Agrees floor names [] pending t stack) (hc : c.rdropWhile (· = dot) = []) :
    nonEmpty (placed t [c]) = stack := by
  obtain ⟨-, hp, heq, -⟩ := h.of_nil
  rw [placed, if_pos rfl, hp, List.nil_append, hc, nonEmpty_cons, if_pos rfl, heq]

theorem last_empty (h : Agrees floor names waits pending t stack) :
    nonEmpty (placed t [[]]) = resolve floor stack [[]] ↔ pending = false ∧ waits = [] := by
  have hstack : resolve floor stack [[]] = stack := rfl
  rw [hstack]
  cases waits with
  | nil =>
    exact iff_of_true (h.placed_dots (List.rdropWhile_nil _)) ⟨h.idle rfl, rfl⟩
  | cons w waits =>
    obtain ⟨hw, hlast, -⟩ := h.mem_of_cons
    exact iff_of_false (placed_ne_of_dot h.clean hw hlast) (by simp)

theorem last_dot (h : Agrees floor names waits pending t stack) :
    nonEmpty (placed t [[dot]]) = resolve floor stack [[dot]] ↔ waits = [] := by
  have hstack : resolve floor stack [[dot]] = stack := rfl
  rw [hstack]
  cases waits with
  | nil =>
    exact iff_of_true (h.placed_dots (by decide)) rfl
  | cons w waits =>
    obtain ⟨hw, hlast, -⟩ := h.mem_of_cons
    exact iff_of_false (placed_ne_of_dot h.clean hw hlast) (by simp)

/-- `..` at the end is cut off: it took back nothing, or a name of which nothing is written. -/
theorem last_dots_nil (h : Agrees floor names [] pending t stack) :
    nonEmpty (placed t [[dot, dot]]) = resolve floor stack [[dot, dot]] ↔ names ≤ floor := by
  obtain ⟨-, -, -, hlen⟩ := h.of_nil
  have hplaced : nonEmpty (placed t [[dot, dot]]) = stack := h.placed_dots (by decide)
  have hresolve : resolve floor stack [[dot, dot]] =
      if floor < stack.length then stack.tail else stack := rfl
  rw [hplaced, hresolve, hlen]
  split
  · rename_i hlt
    refine iff_of_false (fun htail => ?_) (by omega)
    have hcount := congrArg List.length htail
    rw [List.length_tail] at hcount
    omega
  · exact iff_of_true rfl (by omega)

theorem last_dots_cons (h : Agrees floor names (w :: waits) pending t stack) :
    nonEmpty (placed t [[dot, dot]]) = resolve floor stack [[dot, dot]] ↔
      pending = false ∧ waits = [] := by
  have hresolve : resolve floor stack [[dot, dot]] = waits ++ nonEmpty t.1 := by
    have hif : resolve floor stack [[dot, dot]] =
      if floor < stack.length then stack.tail else stack := rfl
    rw [hif, if_pos h.mem_of_cons.2.2, h.eq]
    rfl
  rw [hresolve]
  cases waits with
  | nil =>
    have hdrop : (t.2 ++ [dot, dot]).rdropWhile (· = dot) = t.2 := by
      have hsplit : t.2 ++ [dot, dot] = t.2 ++ [dot] ++ [dot] := by simp
      rw [hsplit, List.rdropWhile_concat_pos _ _ _ (by simp), List.rdropWhile_concat_pos _ _ _ (by simp),
        rdropWhile_eq_self h.clean.2]
    rw [h.lost, placed, if_pos rfl, hdrop, List.nil_append, nonEmpty_cons]
    by_cases hp : t.2 = []
    · simp [hp]
    · rw [if_neg hp]
      refine iff_of_false (fun heq => ?_) (fun hand => hp hand.1)
      have hcount := congrArg List.length heq
      rw [List.length_cons] at hcount
      omega
  | cons x waits =>
    refine iff_of_false (placed_ne_of_dot h.clean (w := x) (by simp) (h.dots x (by simp))) (by simp)

theorem last_waits (h : Agrees floor names waits pending t stack) (hne : c ≠ [] ∧ c ≠ [dot] ∧ c ≠ [dot, dot])
    (hlast : c.getLast? = some dot) : nonEmpty (placed t [c]) ≠ resolve floor stack [c] := by
  have hresolve : resolve floor stack [c] = c :: stack := resolveStep_name hne
  rw [hresolve]
  exact placed_ne_of_dot h.clean (List.mem_cons_self ..) hlast

theorem last_name (h : Agrees floor names waits pending t stack) (ho : Ordinary c) :
    nonEmpty (placed t [c]) = resolve floor stack [c] ↔ waits = [] := by
  have hresolve : resolve floor stack [c] = c :: stack := resolveStep_name ho.ne
  rw [hresolve]
  cases waits with
  | nil =>
    obtain ⟨-, hp, heq, -⟩ := h.of_nil
    refine iff_of_true ?_ rfl
    rw [placed, if_pos rfl, hp, List.nil_append, rdropWhile_eq_self ho.2, nonEmpty_cons, if_neg ho.1, heq]
  | cons w waits =>
    obtain ⟨hw, hlast, -⟩ := h.mem_of_cons
    exact iff_of_false (placed_ne_of_dot h.clean (List.mem_cons_of_mem _ hw) hlast) (by simp)

/-! ## Another part -/

theorem empty (h : Agrees floor names waits false t stack) :
    Agrees floor names waits false (partStep t []) (resolveStep floor stack []) := by
  have hp : t.2 = [] := h.lost.mp rfl
  have hstep : partStep t [] = ((t.2 ++ []) :: t.1, []) := rfl
  have hsame : nonEmpty (partStep t []).1 = nonEmpty t.1 := by
    rw [hstep, nonEmpty_cons, if_pos (by simpa using hp)]
  exact ⟨h.clean.step, iff_of_true rfl rfl, by rw [hsame]; exact h.eq, h.dots, by rw [hsame]; exact h.count,
    h.above, h.idle⟩

/-- An empty part behind a lost slash ends a name that has no dot then. -/
theorem empty_ne (h : Agrees floor names waits true t stack) :
    nonEmpty (placed (partStep t []) rest) ≠ resolve floor (resolveStep floor stack []) rest := by
  have hp : t.2 ≠ [] := fun hnil => Bool.noConfusion (h.lost.mpr hnil)
  have hstep : partStep t [] = ((t.2 ++ []) :: t.1, []) := rfl
  have hcount : (nonEmpty (partStep t []).1).length = names + 1 := by
    rw [hstep, nonEmpty_cons, if_neg (by simpa using hp), List.length_cons, h.count]
  have hle := @resolve_ordinary_le floor stack rest
  rw [h.ordinary_stack] at hle
  refine placed_ne_of_count h.clean.step ?_
  have hskip : resolveStep floor stack [] = stack := rfl
  rw [hskip]
  omega

theorem dot_step (h : Agrees floor names waits pending t stack) :
    Agrees floor names waits pending (partStep t [dot]) (resolveStep floor stack [dot]) := by
  have hstep : partStep t [dot] = (t.1, t.2 ++ []) := rfl
  rw [hstep, List.append_nil]
  exact h

theorem partStep_dots : partStep t [dot, dot] = (t.1, []) := rfl

theorem resolveStep_dots : resolveStep floor stack [dot, dot] =
    if floor < stack.length then stack.tail else stack := rfl

theorem dots_nil (h : Agrees floor names [] pending t stack) (hle : names ≤ floor) :
    Agrees floor names [] false (partStep t [dot, dot]) (resolveStep floor stack [dot, dot]) := by
  obtain ⟨-, -, heq, hlen⟩ := h.of_nil
  rw [partStep_dots, resolveStep_dots, if_neg (by omega)]
  exact ⟨⟨h.clean.1, by simp⟩, iff_of_true rfl rfl, heq, h.dots, h.count, h.above, fun _ => rfl⟩

/-- A name is taken back that is written. -/
theorem dots_nil_ne (h : Agrees floor names [] pending t stack) (hlt : floor < names) :
    nonEmpty (placed (partStep t [dot, dot]) rest) ≠
      resolve floor (resolveStep floor stack [dot, dot]) rest := by
  obtain ⟨-, -, -, hlen⟩ := h.of_nil
  refine placed_ne_of_count h.clean.step ?_
  rw [partStep_dots, resolveStep_dots, if_pos (by omega), h.count]
  have hle := @resolve_ordinary_le floor stack.tail rest
  have htail : ordinary stack.tail ≤ stack.tail.length := List.countP_le_length
  rw [List.length_tail] at htail
  omega

theorem dots_cons (h : Agrees floor names (w :: waits) pending t stack) :
    Agrees floor names waits false (partStep t [dot, dot]) (resolveStep floor stack [dot, dot]) := by
  have habove := h.above (List.cons_ne_nil _ _)
  rw [partStep_dots, resolveStep_dots, if_pos h.mem_of_cons.2.2]
  refine ⟨⟨h.clean.1, by simp⟩, iff_of_true rfl rfl, ?_, fun x hx => h.dots x (List.mem_cons_of_mem _ hx),
    h.count, fun _ => habove, fun _ => rfl⟩
  rw [h.eq]
  rfl

theorem waits_step (h : Agrees floor names waits pending t stack)
    (hne : c ≠ [] ∧ c ≠ [dot] ∧ c ≠ [dot, dot]) (hlast : c.getLast? = some dot) (hle : floor ≤ names) :
    Agrees floor names (c :: waits) (!decide ([dot, dot] <:+ c)) (partStep t c)
      (resolveStep floor stack c) := by
  have hsame : (partStep t c).1 = t.1 := by
    unfold partStep
    split
    · rfl
    · rfl
  refine ⟨h.clean.step, ?_, ?_, fun x hx => ?_, by rw [hsame]; exact h.count, fun _ => hle,
    fun hnil => absurd hnil (List.cons_ne_nil _ _)⟩
  · unfold partStep
    by_cases htwo : [dot, dot] <:+ c
    · rw [if_pos htwo]
      simp [htwo]
    · rw [if_neg htwo, if_pos hlast]
      obtain ⟨y, rfl⟩ := List.getLast?_eq_some_iff.mp hlast
      have hy : y ≠ [] := by
        intro hy
        subst hy
        exact hne.2.1 rfl
      simp [htwo, hy]
  · rw [resolveStep_name hne, hsame, h.eq]
    rfl
  · rcases List.mem_cons.mp hx with rfl | hx
    · exact hlast
    · exact h.dots x hx

/-- A name ending in a dot is one of the first, which no `..` takes back. -/
theorem waits_ne (h : Agrees floor names waits pending t stack)
    (hne : c ≠ [] ∧ c ≠ [dot] ∧ c ≠ [dot, dot]) (hlast : c.getLast? = some dot) (hlt : names < floor) :
    nonEmpty (placed (partStep t c) rest) ≠ resolve floor (resolveStep floor stack c) rest := by
  have hwaits : waits = [] := by
    by_contra hwaits
    have habove := h.above hwaits
    omega
  subst hwaits
  obtain ⟨-, -, -, hlen⟩ := h.of_nil
  rw [resolveStep_name hne]
  obtain ⟨new, hnew⟩ := @resolve_keeps_floor floor c rest [] stack (by omega)
  rw [List.nil_append] at hnew
  exact placed_ne_of_dot h.clean.step (w := c) (by rw [hnew]; simp) hlast

theorem name_step (h : Agrees floor names [] pending t stack) (ho : Ordinary c) :
    Agrees floor (names + 1) [] false (partStep t c) (resolveStep floor stack c) := by
  obtain ⟨-, hp, heq, -⟩ := h.of_nil
  have hstep : nonEmpty (partStep t c).1 = c :: nonEmpty t.1 ∧ (partStep t c).2 = [] := by
    rw [partStep_name ho, hp, List.nil_append, nonEmpty_cons, if_neg ho.1]
    exact ⟨rfl, rfl⟩
  exact ⟨h.clean.step, iff_of_true rfl hstep.2, by rw [resolveStep_name ho.ne, hstep.1, heq]; rfl, h.dots,
    by rw [hstep.1, List.length_cons, h.count], fun hnil => absurd rfl hnil, fun _ => rfl⟩

/-- A name is written while one before it, which ends in a dot, still waits. -/
theorem name_ne (h : Agrees floor names (w :: waits) pending t stack) (ho : Ordinary c) :
    nonEmpty (placed (partStep t c) rest) ≠ resolve floor (resolveStep floor stack c) rest := by
  obtain ⟨hw, hlast, -⟩ := h.mem_of_cons
  have hcount : (nonEmpty (partStep t c).1).length = names + 1 := by
    rw [partStep_name ho, nonEmpty_cons, if_neg (by simp [ho.1]), List.length_cons, h.count]
  rw [resolveStep_name ho.ne]
  rcases @resolve_keeps_or_loses floor c rest [] stack with ⟨new, hnew⟩ | hle
  · rw [List.nil_append] at hnew
    exact placed_ne_of_dot h.clean.step (w := w) (by rw [hnew]; simp [hw]) hlast
  · rw [List.nil_append, h.ordinary_stack] at hle
    exact placed_ne_of_count h.clean.step (by omega)

/-- What is left is what is meant exactly when `Keeps` holds of the parts. -/
theorem placed_iff (h : Agrees floor names waits pending t stack) (hrest : rest ≠ []) :
    nonEmpty (placed t rest) = resolve floor stack rest ↔
      Keeps floor names waits.length pending rest := by
  induction rest generalizing names waits pending t stack with
  | nil => exact absurd rfl hrest
  | cons c rest ih =>
    clear hrest
    unfold Keeps
    by_cases hempty : c = []
    · subst hempty
      rw [if_pos rfl]
      by_cases hrest : rest = []
      · subst hrest
        rw [h.last_empty, Keeps, List.length_eq_zero_iff]
      rw [placed_cons hrest, resolve_cons]
      cases pending with
      | false => simp [ih h.empty hrest]
      | true => simp [h.empty_ne]
    rw [if_neg hempty]
    by_cases hdot : c = [dot]
    · subst hdot
      rw [if_pos rfl]
      by_cases hrest : rest = []
      · subst hrest
        rw [h.last_dot, Keeps, List.length_eq_zero_iff]
      · rw [placed_cons hrest, resolve_cons, ih h.dot_step hrest]
    rw [if_neg hdot]
    by_cases hdots : c = [dot, dot]
    · subst hdots
      rw [if_pos rfl]
      cases waits with
      | nil =>
        by_cases hrest : rest = []
        · subst hrest
          simp [h.last_dots_nil, Keeps]
        rw [placed_cons hrest, resolve_cons]
        by_cases hle : names ≤ floor
        · simp [ih (h.dots_nil hle) hrest, hle]
        · simp [h.dots_nil_ne (by omega), hle]
      | cons w waits =>
        by_cases hrest : rest = []
        · subst hrest
          simp [h.last_dots_cons, Keeps]
        · rw [placed_cons hrest, resolve_cons, ih h.dots_cons hrest]
          simp [hrest]
    rw [if_neg hdots]
    by_cases hlast : c.getLast? = some dot
    · rw [if_pos hlast]
      have hne : c ≠ [] ∧ c ≠ [dot] ∧ c ≠ [dot, dot] := ⟨hempty, hdot, hdots⟩
      by_cases hrest : rest = []
      · subst hrest
        simp [h.last_waits hne hlast, Keeps]
      rw [placed_cons hrest, resolve_cons]
      by_cases hle : floor ≤ names
      · simp [ih (h.waits_step hne hlast hle) hrest, hle]
      · simp [h.waits_ne hne hlast (by omega), hle]
    · rw [if_neg hlast]
      have ho : Ordinary c := ⟨hempty, hlast⟩
      by_cases hrest : rest = []
      · subst hrest
        rw [h.last_name ho, Keeps]
        simp
      rw [placed_cons hrest, resolve_cons]
      cases waits with
      | nil => simp [ih (h.name_step ho) hrest]
      | cons w waits => simp [h.name_ne ho]

end Agrees

/-! ## Empty parts -/

/-- The parts that may be written: the ordinary names, and the empty ones. -/
abbrev plain (parts : List (List Byte)) : List (List Byte) :=
  parts.filter fun c => decide (c = [] ∨ Ordinary c)

section plain

variable {floor names : Nat} {c : List Byte} {waits stack rest parts : List (List Byte)} {pending : Bool}
  {t : List (List Byte) × List Byte}

theorem plain_cons_of_pos (hc : c = [] ∨ Ordinary c) : plain (c :: rest) = c :: plain rest :=
  List.filter_cons_of_pos (decide_eq_true hc)

theorem plain_cons_of_neg (hc : ¬ (c = [] ∨ Ordinary c)) : plain (c :: rest) = plain rest :=
  List.filter_cons_of_neg (by simpa using hc)

theorem dropWhile_nil_cons : ([] :: parts).dropWhile (· = []) = parts.dropWhile (· = []) :=
  List.dropWhile_cons_of_pos rfl

/-- Dots at the end leave an empty part when nothing is written before them. -/
theorem placed_last_dots (hp : t.2 = []) (hc : c.rdropWhile (· = dot) = [])
    (hplain : ¬ (c = [] ∨ Ordinary c)) :
    (placed t [c]).dropWhile (· = []) = ((plain [c]).reverse ++ t.1).dropWhile (· = []) := by
  rw [placed, if_pos rfl, hp, List.nil_append, hc, dropWhile_nil_cons, plain_cons_of_neg hplain]
  rfl

/-- With `Keeps` only these are written, up to empty ones at the end. -/
theorem Agrees.placed_plain (h : Agrees floor names waits pending t stack)
    (hk : Keeps floor names waits.length pending rest) (hrest : rest ≠ []) :
    (placed t rest).dropWhile (· = []) = ((plain rest).reverse ++ t.1).dropWhile (· = []) := by
  induction rest generalizing names waits pending t stack with
  | nil => exact absurd rfl hrest
  | cons c rest ih =>
    clear hrest
    unfold Keeps at hk
    by_cases hempty : c = []
    · subst hempty
      rw [if_pos rfl] at hk
      obtain ⟨rfl, hk⟩ := hk
      have hp := h.lost.mp rfl
      rw [plain_cons_of_pos (.inl rfl), List.reverse_cons, List.append_assoc, List.singleton_append]
      by_cases hrest : rest = []
      · subst hrest
        rw [placed, if_pos rfl, hp]
        rfl
      · have hstep : (partStep t []).1 = [] :: t.1 := by
          show (t.2 ++ []) :: t.1 = _
          rw [hp, List.nil_append]
        rw [placed_cons hrest, ih h.empty hk hrest, hstep]
    rw [if_neg hempty] at hk
    by_cases hdot : c = [dot]
    · subst hdot
      rw [if_pos rfl] at hk
      have hplain : ¬ ([dot] = [] ∨ Ordinary [dot]) := by decide
      by_cases hrest : rest = []
      · subst hrest
        obtain rfl := List.eq_nil_of_length_eq_zero hk
        exact placed_last_dots h.of_nil.2.1 (by decide) hplain
      · rw [placed_cons hrest, ih h.dot_step hk hrest, plain_cons_of_neg hplain]
        rfl
    rw [if_neg hdot] at hk
    by_cases hdots : c = [dot, dot]
    · subst hdots
      rw [if_pos rfl] at hk
      have hplain : ¬ ([dot, dot] = [] ∨ Ordinary [dot, dot]) := by decide
      cases waits with
      | nil =>
        obtain ⟨hle, hk⟩ := hk
        by_cases hrest : rest = []
        · subst hrest
          exact placed_last_dots h.of_nil.2.1 (by decide) hplain
        · rw [placed_cons hrest, ih (h.dots_nil hle) hk hrest, plain_cons_of_neg hplain]
          rfl
      | cons w waits =>
        obtain ⟨hpending, hk⟩ := hk
        by_cases hrest : rest = []
        · exact hrest ▸ placed_last_dots (h.lost.mp (hpending hrest)) (by decide) hplain
        · rw [placed_cons hrest, ih h.dots_cons hk hrest, plain_cons_of_neg hplain]
          rfl
    rw [if_neg hdots] at hk
    by_cases hlast : c.getLast? = some dot
    · rw [if_pos hlast] at hk
      have hplain : ¬ (c = [] ∨ Ordinary c) := fun hor => hor.elim hempty fun ho => ho.2 hlast
      by_cases hrest : rest = []
      · subst hrest
        exact absurd hk.2 (Nat.succ_ne_zero _)
      · have hstep : (partStep t c).1 = t.1 := by
          unfold partStep
          split
          · rfl
          · rfl
        rw [placed_cons hrest, ih (h.waits_step ⟨hempty, hdot, hdots⟩ hlast hk.1) hk.2 hrest,
          plain_cons_of_neg hplain, hstep]
    · rw [if_neg hlast] at hk
      have ho : Ordinary c := ⟨hempty, hlast⟩
      obtain rfl := List.eq_nil_of_length_eq_zero hk.1
      have hp := h.of_nil.2.1
      rw [plain_cons_of_pos (.inr ho), List.reverse_cons, List.append_assoc, List.singleton_append]
      by_cases hrest : rest = []
      · subst hrest
        rw [placed, if_pos rfl, hp, List.nil_append, rdropWhile_eq_self hlast]
        rfl
      · have hstep : (partStep t c).1 = c :: t.1 := by
          rw [partStep_name ho, hp, List.nil_append]
        rw [placed_cons hrest, ih (h.name_step ho) hk.2 hrest, hstep]

theorem dropWhile_eq_nil_iff : (plain parts).reverse.dropWhile (· = []) = [] ↔ ∀ d ∈ parts, ¬ Ordinary d := by
  simp only [List.dropWhile_eq_nil_iff, List.mem_reverse, List.mem_filter, decide_eq_true_eq]
  constructor
  · intro h d hd ho
    exact ho.1 (h d ⟨hd, .inr ho⟩)
  · intro h d hd
    exact hd.2.resolve_right (h d hd.1)

/-- An empty part is left in between exactly when there is a gap. -/
theorem nil_not_mem_plain_iff : [] ∉ (plain parts).reverse.dropWhile (· = []) ↔ NoGap parts := by
  induction parts with
  | nil => simp [NoGap]
  | cons c rest ih =>
    rw [NoGap, ← ih, ← dropWhile_eq_nil_iff]
    by_cases hc : c = [] ∨ Ordinary c
    · rw [plain_cons_of_pos hc, List.reverse_cons, List.dropWhile_append]
      by_cases hnil : (plain rest).reverse.dropWhile (· = []) = []
      · rw [hnil]
        by_cases hempty : c = []
        · simp [hempty]
        · simp [hempty, Ne.symm hempty]
      · rw [if_neg (by simpa using hnil), List.mem_append, List.mem_singleton, not_or]
        simp [hnil, and_comm, eq_comm]
    · rw [plain_cons_of_neg hc]
      have hempty : c ≠ [] := fun heq => hc (.inl heq)
      simp [hempty]

end plain

theorem agrees_nil {floor : Nat} : Agrees floor 0 [] false ([], []) [] :=
  ⟨⟨fun d hd => (nomatch hd), by simp⟩, iff_of_true rfl rfl, rfl, fun w hw => (nomatch hw), rfl,
    fun h => absurd rfl h, fun _ => rfl⟩

end Vfs
