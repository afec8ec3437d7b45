import UnedKernel.Lib.Components
import UnedKernel.Vfs.Resolve

/-! # `vfs_normalize_path` in place

The function rewrites its argument between two pointers. The pointer that
writes never passes the one that reads, so the bytes that are still to be read
are those of the path: in memory it leaves what `vfsNormalizePath` gives. Part
by part that is `placed`. -/

namespace Vfs
open ByteMem CString Components

/-- Back to the last slash that is written, `written` bytes behind the start of the path. -/
def backToSlash (m : Bytes) (path : Nat) : Nat → Nat
  | 0 => 0
  | written + 1 => if m (path + written) = slash then written + 1 else backToSlash m path written

/-- Back over the slashes and dots at the end. -/
def trimEnd (m : Bytes) (path : Nat) : Nat → Nat
  | 0 => 0
  | written + 1 =>
    if m (path + written) ≠ slash ∧ m (path + written) ≠ dot then written + 1
    else trimEnd m path written

/-- The first loop of `vfs_normalize_path`, with the pointers `pathPtr` and `path + written`. -/
def normalizeLoop (path : Nat) : Nat → Bytes → Nat → Nat → Option (Bytes × Nat)
  | 0, _, _, _ => none
  | fuel + 1, m, pathPtr, written =>
    if m pathPtr = 0 then some (m, written)
    else if m pathPtr = dot ∧ m (pathPtr + 1) = slash then
      normalizeLoop path fuel m (pathPtr + 2) written
    else if m pathPtr = dot ∧ m (pathPtr + 1) = dot ∧ m (pathPtr + 2) = slash then
      normalizeLoop path fuel m (pathPtr + 3) (backToSlash m path written)
    else normalizeLoop path fuel (fill m (path + written) 1 (m pathPtr)) (pathPtr + 1) (written + 1)

/-- `vfs_normalize_path` on the path in memory. -/
def vfsNormalizePathAt (fuel : Nat) (m : Bytes) (path : Nat) : Option Bytes :=
  (normalizeLoop path fuel m path 0).map fun (m, written) => fill m (path + trimEnd m path written) 1 0

/-! ## What is written -/

/-- The bytes from `a` on are those of the list, the last one first. -/
def Written (m : Bytes) (a : Nat) : List Byte → Prop
  | [] => True
  | c :: out => m (a + out.length) = c ∧ Written m a out

section written

variable {m m' : Bytes} {a : Nat} {out : List Byte}

theorem Written.congr (h : Written m a out) (hm : ∀ x, x < a + out.length → m' x = m x) :
    Written m' a out := by
  induction out with
  | nil => trivial
  | cons c out ih =>
    rw [List.length_cons] at hm
    exact ⟨(hm _ (by omega)).trans h.1, ih h.2 fun x hx => hm x (by omega)⟩

theorem Written.dropWhile (h : Written m a out) (p : Byte → Bool) : Written m a (out.dropWhile p) := by
  induction out with
  | nil => trivial
  | cons c out ih =>
    rw [List.dropWhile_cons]
    split
    · exact ih h.2
    · exact h

theorem Written.backToSlash (h : Written m a out) :
    backToSlash m a out.length = (out.dropWhile (· ≠ slash)).length := by
  induction out with
  | nil => rfl
  | cons c out ih =>
    rw [List.length_cons, Vfs.backToSlash, h.1, List.dropWhile_cons]
    by_cases hc : c = slash
    · simp [hc]
    · simp [hc, ih h.2]

theorem Written.trimEnd (h : Written m a out) :
    trimEnd m a out.length = (out.dropWhile fun c => c = slash ∨ c = dot).length := by
  induction out with
  | nil => rfl
  | cons c out ih =>
    rw [List.length_cons, Vfs.trimEnd, h.1, List.dropWhile_cons]
    by_cases hc : c = slash ∨ c = dot
    · rw [if_neg (by tauto), ih h.2, if_pos (decide_eq_true hc)]
    · rw [if_pos (by tauto), if_neg (by simpa using hc), List.length_cons]

theorem Written.reads (h : Written m a out) : ∀ i, i < out.length → m (a + i) = out.reverse.getD i 0 := by
  induction out with
  | nil => exact fun i hi => absurd hi (Nat.not_lt_zero i)
  | cons c out ih =>
    intro i hi
    rw [List.length_cons] at hi
    rw [List.reverse_cons, List.getD_eq_getElem?_getD]
    by_cases hlt : i < out.length
    · rw [List.getElem?_append_left (by simpa using hlt), ← List.getD_eq_getElem?_getD]
      exact ih h.2 i hlt
    · obtain rfl : i = out.length := by omega
      rw [List.getElem?_append_right (by simp)]
      simpa using h.1

/-- With a terminator behind it, what is written is a string. -/
theorem Written.terminated (h : Written m a out) : Reads (fill m (a + out.length) 1 0) a out.reverse := by
  intro i hi
  rw [List.length_reverse] at hi
  by_cases hlt : i < out.length
  · rw [fill_apply_out m (by omega)]
    exact h.reads i hlt
  · obtain rfl : i = out.length := by omega
    rw [fill_apply_in m (Nat.le_refl _) (Nat.lt_succ_self _)]
    simp

end written

/-! ## The loop -/

section loop

variable {m : Bytes} {a ptr : Nat} {c : Byte} {rest out : List Byte}

theorem normalizeFrom_dot_slash : normalizeFrom (dot :: slash :: rest) out = normalizeFrom rest out := by
  cases rest with
  | nil => simp [normalizeFrom]
  | cons e rest => simp [normalizeFrom]

theorem normalizeFrom_dots_slash : normalizeFrom (dot :: dot :: slash :: rest) out =
    normalizeFrom rest (out.dropWhile (· ≠ slash)) := by
  have hne : dot ≠ slash := by decide
  simp [normalizeFrom, hne]

theorem normalizeFrom_write (h : ¬ [dot, slash] <+: c :: rest) (h' : ¬ [dot, dot, slash] <+: c :: rest) :
    normalizeFrom (c :: rest) out = normalizeFrom rest (c :: out) := by
  match rest with
  | [] => simp [normalizeFrom]
  | [d] =>
    have hcd : ¬ (c = dot ∧ d = slash) := fun hcd => h ⟨[], by simp [hcd]⟩
    simp [normalizeFrom, hcd]
  | d :: e :: rest =>
    rw [normalizeFrom, if_neg, if_neg]
    · intro hcde
      exact h' ⟨rest, by simp [hcde]⟩
    · intro hcd
      exact h ⟨e :: rest, by simp [hcd]⟩

theorem reads_first {d : Byte} (hr : Reads m ptr rest) (hd : d ≠ 0) (h : m ptr = d) :
    ∃ rest', rest = d :: rest' ∧ Reads m (ptr + 1) rest' := by
  cases rest with
  | nil => exact absurd (h.symm.trans (reads_nil.mp hr)) hd
  | cons e rest' =>
    obtain ⟨he, hrest⟩ := reads_cons.mp hr
    exact ⟨rest', by rw [← he, h], hrest⟩

/-- The loop, from a point where `out` is written and `rest` is to be read. It writes nothing
behind what it reads. -/
theorem normalizeLoop_eq {fuel : Nat} (hfuel : rest.length < fuel) (hfree : NulFree rest)
    (hr : Reads m ptr rest) (hw : Written m a out) (hle : a + out.length ≤ ptr) :
    ∃ m', normalizeLoop a fuel m ptr out.length = some (m', (normalizeFrom rest out).length) ∧
      Written m' a (normalizeFrom rest out) ∧
      (∀ x, x < a ∨ ptr + rest.length ≤ x → m' x = m x) ∧
      a + (normalizeFrom rest out).length ≤ ptr + rest.length := by
  induction fuel generalizing m ptr rest out with
  | zero => exact absurd hfuel (Nat.not_lt_zero _)
  | succ fuel ih =>
    cases rest with
    | nil =>
      rw [normalizeLoop, if_pos (reads_nil.mp hr)]
      exact ⟨m, rfl, hw, fun _ _ => rfl, hle⟩
    | cons c rest =>
      obtain ⟨hc, hrest⟩ := reads_cons.mp hr
      have hne : m ptr ≠ 0 := by
        rw [hc]
        exact hfree c List.mem_cons_self
      rw [List.length_cons] at hfuel
      rw [normalizeLoop, if_neg hne]
      by_cases hone : m ptr = dot ∧ m (ptr + 1) = slash
      · obtain ⟨rest, rfl, hnext⟩ := reads_first hrest (by decide) hone.2
        have hcd : c = dot := hc.symm.trans hone.1
        subst hcd
        rw [List.length_cons] at hfuel
        obtain ⟨m', hloop, hwritten, hframe, hend⟩ :=
          ih (by omega) (hfree.tail).tail hnext hw (by omega)
        rw [if_pos hone, normalizeFrom_dot_slash]
        simp only [List.length_cons]
        exact ⟨m', hloop, hwritten, fun x hx => hframe x (by omega), by omega⟩
      rw [if_neg hone]
      by_cases htwo : m ptr = dot ∧ m (ptr + 1) = dot ∧ m (ptr + 2) = slash
      · obtain ⟨rest, rfl, hnext⟩ := reads_first hrest (by decide) htwo.2.1
        obtain ⟨rest, rfl, hlast⟩ := reads_first hnext (by decide) htwo.2.2
        have hcd : c = dot := hc.symm.trans htwo.1
        subst hcd
        simp only [List.length_cons] at hfuel
        have hshort : (out.dropWhile (· ≠ slash)).length ≤ out.length := List.length_dropWhile_le _ _
        obtain ⟨m', hloop, hwritten, hframe, hend⟩ :=
          ih (by omega) ((hfree.tail).tail).tail hlast (hw.dropWhile (· ≠ slash)) (by omega)
        rw [if_pos htwo, normalizeFrom_dots_slash, hw.backToSlash]
        simp only [List.length_cons]
        exact ⟨m', hloop, hwritten, fun x hx => hframe x (by omega), by omega⟩
      rw [if_neg htwo]
      have hwrite : normalizeFrom (c :: rest) out = normalizeFrom rest (c :: out) := by
        refine normalizeFrom_write (fun hprefix => hone ?_) (fun hprefix => htwo ?_)
        · obtain ⟨r, hr'⟩ := hprefix
          obtain ⟨rfl, rfl⟩ := List.cons.inj hr'
          exact ⟨hc, (reads_cons.mp hrest).1⟩
        · obtain ⟨r, hr'⟩ := hprefix
          obtain ⟨rfl, rfl⟩ := List.cons.inj hr'
          obtain ⟨hd, hrest'⟩ := reads_cons.mp hrest
          exact ⟨hc, hd, (reads_cons.mp hrest').1⟩
      -- the byte is written before the one that is read next
      have hset : ∀ x, x ≠ a + out.length → fill m (a + out.length) 1 (m ptr) x = m x :=
        fun x hx => fill_apply_out m (by omega)
      have hnew : Written (fill m (a + out.length) 1 (m ptr)) a (c :: out) :=
        ⟨(fill_apply_in m (Nat.le_refl _) (Nat.lt_succ_self _)).trans hc,
          hw.congr fun x hx => hset x (by omega)⟩
      have hread : Reads (fill m (a + out.length) 1 (m ptr)) (ptr + 1) rest :=
        hrest.congr fun i _ => hset _ (by omega)
      obtain ⟨m', hloop, hwritten, hframe, hend⟩ :=
        ih (by omega) hfree.tail hread hnew (by rw [List.length_cons]; omega)
      rw [hwrite]
      simp only [List.length_cons] at hloop ⊢
      exact ⟨m', hloop, hwritten, fun x hx => (hframe x (by omega)).trans (hset x (by omega)), by omega⟩

end loop

/-- In memory the function leaves what `vfsNormalizePath` gives, and writes to the string only. -/
theorem vfsNormalizePathAt_eq {m : Bytes} {a fuel : Nat} {s : List Byte} (hfree : NulFree s)
    (hr : Reads m a s) (hfuel : s.length < fuel) : ∃ m', vfsNormalizePathAt fuel m a = some m' ∧
      Reads m' a (vfsNormalizePath s) ∧ ∀ x, x < a ∨ a + s.length < x → m' x = m x := by
  obtain ⟨m', hloop, hwritten, hframe, hend⟩ :=
    @normalizeLoop_eq m a a s [] fuel hfuel hfree hr trivial (Nat.le_refl _)
  obtain ⟨end', hend'⟩ : ∃ end', (normalizeFrom s []).dropWhile (fun c => c = slash ∨ c = dot) = end' :=
    ⟨_, rfl⟩
  have hshort : end'.length ≤ (normalizeFrom s []).length := by
    rw [← hend']
    exact List.length_dropWhile_le _ _
  have htrim := hwritten.trimEnd
  have hkept := hwritten.dropWhile fun c => c = slash ∨ c = dot
  rw [hend'] at htrim hkept
  rw [List.length_nil] at hloop
  refine ⟨fill m' (a + trimEnd m' a (normalizeFrom s []).length) 1 0, ?_, ?_, fun x hx => ?_⟩
  · rw [vfsNormalizePathAt, hloop]
    rfl
  · rw [htrim, vfsNormalizePath, hend']
    exact hkept.terminated
  · rw [htrim, fill_apply_out _ (by omega)]
    exact hframe x (by omega)

/-! ## Part by part -/

/-- The parts that are written with their slashes, and what is written behind them, the last byte
first. -/
def flat (t : List (List Byte) × List Byte) : List Byte :=
  t.2.reverse ++ t.1.flatMap fun d => slash :: d.reverse

/-- No slash in what is written. -/
def NoSlash (t : List (List Byte) × List Byte) : Prop := (∀ d ∈ t.1, slash ∉ d) ∧ slash ∉ t.2

section parts

variable {c rest out : List Byte} {parts : List (List Byte)} {t : List (List Byte) × List Byte}

theorem NoSlash.step (ht : NoSlash t) (hc : slash ∉ c) : NoSlash (partStep t c) := by
  unfold partStep
  split
  · exact ⟨ht.1, by simp⟩
  split
  · refine ⟨ht.1, ?_⟩
    rw [List.mem_append, not_or]
    exact ⟨ht.2, fun h => hc (List.dropLast_subset _ h)⟩
  · refine ⟨fun d hd => ?_, by simp⟩
    rcases List.mem_cons.mp hd with rfl | hd
    · rw [List.mem_append, not_or]
      exact ⟨ht.2, hc⟩
    · exact ht.1 d hd

/-- The last part is written as it is. -/
theorem normalizeFrom_last (hc : slash ∉ c) : normalizeFrom c out = c.reverse ++ out := by
  induction c generalizing out with
  | nil => simp [normalizeFrom]
  | cons d c ih =>
    have hd : slash ∉ c := fun h => hc (List.mem_cons_of_mem _ h)
    rw [normalizeFrom_write, ih hd, List.reverse_cons, List.append_assoc]
    · rfl
    · intro h
      exact hc (h.subset (by simp))
    · intro h
      exact hc (h.subset (by simp))

/-- A part before a slash: what the loop does depends on the dots at its end. -/
theorem normalizeFrom_part (hc : slash ∉ c) : normalizeFrom (c ++ slash :: rest) out =
    normalizeFrom rest (if [dot, dot] <:+ c then out.dropWhile (· ≠ slash)
      else if c.getLast? = some dot then c.dropLast.reverse ++ out else slash :: (c.reverse ++ out)) := by
  induction c generalizing out with
  | nil =>
    have hne : slash ≠ dot := by decide
    rw [List.nil_append, normalizeFrom_write]
    · simp
    · intro h
      exact hne (List.cons_prefix_cons.mp h).1.symm
    · intro h
      exact hne (List.cons_prefix_cons.mp h).1.symm
  | cons d c ih =>
    have hd : d ≠ slash := fun heq => hc (heq ▸ List.mem_cons_self)
    have hc' : slash ∉ c := fun h => hc (List.mem_cons_of_mem _ h)
    by_cases hone : d = dot ∧ c = []
    · obtain ⟨rfl, rfl⟩ := hone
      rw [List.cons_append, List.nil_append, normalizeFrom_dot_slash]
      rfl
    by_cases htwo : d = dot ∧ c = [dot]
    · obtain ⟨rfl, rfl⟩ := htwo
      rw [List.cons_append, List.singleton_append, normalizeFrom_dots_slash, if_pos (List.suffix_refl _)]
    rw [List.cons_append, normalizeFrom_write, ih hc']
    · have hsuffix : [dot, dot] <:+ d :: c ↔ [dot, dot] <:+ c := by
        rw [List.suffix_cons_iff]
        refine or_iff_right fun heq => htwo ?_
        obtain ⟨rfl, rfl⟩ := List.cons.inj heq
        exact ⟨rfl, rfl⟩
      by_cases hnil : c = []
      · subst hnil
        have hdot : d ≠ dot := fun heq => hone ⟨heq, rfl⟩
        simp [hsuffix, hdot]
      · have hlast : (d :: c).getLast? = c.getLast? := List.getLast?_cons_of_ne_nil hnil
        have hdrop : (d :: c).dropLast = d :: c.dropLast := List.dropLast_cons_of_ne_nil hnil
        have hback : (d :: out).dropWhile (· ≠ slash) = out.dropWhile (· ≠ slash) := by
          rw [List.dropWhile_cons_of_pos (by simpa using hd)]
        simp only [hsuffix, hlast, hdrop, hback, List.reverse_cons, List.append_assoc,
          List.singleton_append]
    · intro h
      obtain ⟨hdot, hrest⟩ := List.cons_prefix_cons.mp h
      cases c with
      | nil => exact hone ⟨hdot.symm, rfl⟩
      | cons e c => exact hc' ((List.cons_prefix_cons.mp hrest).1 ▸ List.mem_cons_self)
    · intro h
      obtain ⟨hdot, hrest⟩ := List.cons_prefix_cons.mp h
      cases c with
      | nil => exact absurd (List.cons_prefix_cons.mp hrest).1 (by decide)
      | cons e c =>
        obtain ⟨he, hrest⟩ := List.cons_prefix_cons.mp hrest
        cases c with
        | nil => exact htwo ⟨hdot.symm, by rw [← he]⟩
        | cons f c => exact hc' ((List.cons_prefix_cons.mp hrest).1 ▸ by simp)

theorem intercalate_concat {q : List Byte} (hne : parts ≠ []) :
    [slash].intercalate (parts ++ [q]) = [slash].intercalate parts ++ slash :: q := by
  induction parts with
  | nil => exact absurd rfl hne
  | cons c rest ih =>
    cases rest with
    | nil => simp
    | cons d rest =>
      have hrest := ih (List.cons_ne_nil _ _)
      simp only [List.cons_append, List.intercalate_cons_cons, List.append_assoc] at hrest ⊢
      rw [hrest]

theorem flat_step (hc : slash ∉ c) (ht : NoSlash t) :
    normalizeFrom (c ++ slash :: rest) (flat t) = normalizeFrom rest (flat (partStep t c)) := by
  have hback : (flat t).dropWhile (· ≠ slash) = flat (t.1, []) := by
    have hpending : ∀ x ∈ t.2.reverse, decide (x ≠ slash) = true := fun x hx =>
      decide_eq_true fun heq => ht.2 (heq ▸ List.mem_reverse.mp hx)
    rw [flat, List.dropWhile_append_of_pos hpending]
    cases t.1 with
    | nil => rfl
    | cons d done => simp [flat]
  rw [normalizeFrom_part hc, hback, partStep]
  split
  · rfl
  split
  · simp [flat]
  · simp [flat]

/-- The loop on parts that are joined by slashes. -/
theorem normalizeFrom_parts (hne : parts ≠ []) (hparts : ∀ c ∈ parts, slash ∉ c) (ht : NoSlash t)
    (hclean : Clean t) : ∃ done q, placed t parts = q.rdropWhile (· = dot) :: done ∧
      normalizeFrom ([slash].intercalate parts) (flat t) = flat (done, q) ∧ NoSlash (done, q) ∧
      ∀ d ∈ done, d.getLast? ≠ some dot := by
  induction parts generalizing t with
  | nil => exact absurd rfl hne
  | cons c rest ih =>
    have hc := hparts c List.mem_cons_self
    cases rest with
    | nil =>
      refine ⟨t.1, t.2 ++ c, ?_, ?_, ⟨ht.1, ?_⟩, hclean.1⟩
      · rw [placed, if_pos rfl]
      · simp [normalizeFrom_last hc, flat]
      · rw [List.mem_append, not_or]
        exact ⟨ht.2, hc⟩
    | cons d rest =>
      rw [placed_cons (List.cons_ne_nil _ _), List.intercalate_cons_cons, List.append_assoc,
        List.singleton_append, flat_step hc ht]
      exact ih (List.cons_ne_nil _ _) (fun e he => hparts e (List.mem_cons_of_mem _ he)) (ht.step hc)
        hclean.step

/-- The written parts in order, with the last one behind them. -/
theorem flat_reverse {q : List Byte} {done : List (List Byte)} :
    (flat (done, q)).reverse = [slash].intercalate (q :: done).reverse := by
  induction done generalizing q with
  | nil => simp [flat]
  | cons d done ih =>
    have hne : (d :: done).reverse ≠ [] := by simp
    have hsplit : flat (d :: done, q) = q.reverse ++ slash :: flat (done, d) := by simp [flat]
    rw [hsplit, List.reverse_append, List.reverse_cons, List.reverse_reverse, ih,
      List.reverse_cons (a := q), intercalate_concat hne, List.append_assoc, List.singleton_append]

theorem dropWhile_of_not_mem (h : slash ∉ out) :
    (out.dropWhile fun c => c = slash ∨ c = dot) = out.dropWhile (· = dot) := by
  induction out with
  | nil => rfl
  | cons c out ih =>
    have hc : c ≠ slash := fun heq => h (heq ▸ List.mem_cons_self)
    have hrest := ih fun hmem => h (List.mem_cons_of_mem _ hmem)
    rw [List.dropWhile_cons, List.dropWhile_cons, hrest]
    simp [hc]

/-- Slashes and dots at the end are cut off. -/
theorem flat_trim {q : List Byte} {done : List (List Byte)} (hq : NoSlash (done, q))
    (hdone : ∀ d ∈ done, d.getLast? ≠ some dot) :
    ((flat (done, q)).dropWhile fun c => c = slash ∨ c = dot).reverse =
      [slash].intercalate ((q.rdropWhile (· = dot) :: done).dropWhile (· = [])).reverse := by
  have hdrop := @dropWhile_of_not_mem q.reverse fun h => hq.2 (List.mem_reverse.mp h)
  obtain ⟨r, hr⟩ : ∃ r, q.rdropWhile (· = dot) = r := ⟨_, rfl⟩
  have hback : q.reverse.dropWhile (· = dot) = r.reverse := by
    rw [← hr, List.rdropWhile, List.reverse_reverse]
  rw [hr]
  by_cases hnil : r = []
  · subst hnil
    cases done with
    | nil =>
      have hflat : flat ([], q) = q.reverse := by simp [flat]
      rw [hflat, hdrop, hback]
      simp
    | cons d done =>
      have hflat : flat (d :: done, q) = q.reverse ++ slash :: flat (done, d) := by simp [flat]
      have hd := hdone d List.mem_cons_self
      have hrest := flat_trim (q := d)
        ⟨fun e he => hq.1 e (List.mem_cons_of_mem _ he), hq.1 d List.mem_cons_self⟩
        fun e he => hdone e (List.mem_cons_of_mem _ he)
      rw [rdropWhile_eq_self hd] at hrest
      rw [hflat, List.dropWhile_append, hdrop, hback, if_pos (by simp), List.dropWhile_cons_of_pos (by simp),
        List.dropWhile_cons_of_pos (by simp), hrest]
  · have hflat : flat (done, q) = q.reverse ++ flat (done, []) := by simp [flat]
    have hkept : r.reverse ++ flat (done, []) = flat (done, r) := by simp [flat]
    rw [hflat, List.dropWhile_append, hdrop, hback, if_neg (by simpa using hnil), hkept, flat_reverse,
      List.dropWhile_cons_of_neg (by simpa using hnil)]

end parts

/-- What `vfs_normalize_path` makes of a path, from its parts: the last ones are dropped while they
are empty. -/
theorem vfsNormalizePath_eq (s : List Byte) : vfsNormalizePath s =
    [slash].intercalate ((placed ([], []) (s.splitOn slash)).dropWhile (· = [])).reverse := by
  have hparts : ∀ c ∈ s.splitOn slash, slash ∉ c := fun c hc => not_mem_of_mem_splitOn hc
  obtain ⟨done, q, hplaced, hloop, hslash, hdone⟩ := normalizeFrom_parts (t := ([], []))
    (List.splitOn_ne_nil slash s) hparts ⟨fun d hd => (nomatch hd), by simp⟩
    ⟨fun d hd => (nomatch hd), by simp⟩
  rw [List.intercalate_splitOn] at hloop
  have hflat : flat ([], []) = [] := rfl
  rw [hflat] at hloop
  rw [vfsNormalizePath, hloop, flat_trim hslash hdone, hplaced]

theorem mem_normalizeFrom {c : Byte} (s out : List Byte) (h : c ∈ normalizeFrom s out) : c ∈ s ∨ c ∈ out := by
  fun_induction normalizeFrom s out with
  | case1 out => exact .inr h
  | case2 out d => simpa [or_comm] using h
  | case3 => exact .inr h
  | case4 out d e hne ih =>
    have hmem := ih h
    simp only [List.mem_cons] at hmem ⊢
    tauto
  | case5 out d e f rest hone ih =>
    have hmem := ih h
    simp only [List.mem_cons] at hmem ⊢
    tauto
  | case6 out d e f rest hone htwo ih =>
    have hmem := (ih h).imp_right fun hdrop => (List.dropWhile_sublist _).mem hdrop
    simp only [List.mem_cons]
    tauto
  | case7 out d e f rest hone htwo ih =>
    have hmem := ih h
    simp only [List.mem_cons] at hmem ⊢
    tauto

theorem vfsNormalizePath_nulFree {s : List Byte} (h : NulFree s) : NulFree (vfsNormalizePath s) := by
  intro c hc
  have hmem := (List.dropWhile_sublist _).mem (List.mem_reverse.mp hc)
  exact h c ((mem_normalizeFrom s [] hmem).resolve_right List.not_mem_nil)

/-- No slash is left at the end. -/
theorem vfsNormalizePath_getLast? (s : List Byte) : (vfsNormalizePath s).getLast? ≠ some slash := by
  intro h
  rw [vfsNormalizePath, List.getLast?_reverse] at h
  have hne : (normalizeFrom s []).dropWhile (fun c => c = slash ∨ c = dot) ≠ [] := by
    intro hnil
    rw [hnil] at h
    cases h
  have hhead := List.head_dropWhile_not (fun c => decide (c = slash ∨ c = dot)) hne
  rw [List.head?_eq_some_head hne] at h
  rw [Option.some.inj h] at hhead
  exact absurd hhead (by decide)

theorem nonEmpty_dropWhile {parts : List (List Byte)} :
    nonEmpty (parts.dropWhile (· = [])) = nonEmpty parts := by
  induction parts with
  | nil => rfl
  | cons c parts ih =>
    by_cases hc : c = []
    · rw [List.dropWhile_cons_of_pos (by simpa using hc), nonEmpty_cons, if_pos hc, ih]
    · rw [List.dropWhile_cons_of_neg (by simpa using hc)]

theorem slash_not_mem_placed (s : List Byte) : ∀ c ∈ placed ([], []) (s.splitOn slash), slash ∉ c := by
  have hparts : ∀ c ∈ s.splitOn slash, slash ∉ c := fun c hc => not_mem_of_mem_splitOn hc
  obtain ⟨done, q, hplaced, -, hslash, -⟩ := normalizeFrom_parts (t := ([], []))
    (List.splitOn_ne_nil slash s) hparts ⟨fun d hd => (nomatch hd), by simp⟩
    ⟨fun d hd => (nomatch hd), by simp⟩
  intro c hc hmem
  rw [hplaced] at hc
  rcases List.mem_cons.mp hc with rfl | hc
  · exact hslash.2 ((List.rdropWhile_prefix _ q).subset hmem)
  · exact hslash.1 c hc hmem

/-- The components that are left. -/
theorem vfsNormalizePath_components (s : List Byte) : components slash (vfsNormalizePath s) =
    (nonEmpty (placed ([], []) (s.splitOn slash))).reverse := by
  rw [vfsNormalizePath_eq, components_intercalate]
  · rw [List.filter_reverse]
    exact congrArg List.reverse nonEmpty_dropWhile
  · intro c hc
    exact slash_not_mem_placed s c ((List.dropWhile_sublist _).mem (List.mem_reverse.mp hc))

/-! ## What the path means -/

/-- The names a path goes through: `.` stays, and `..` goes back one name. -/
def canonical (s : List Byte) : List (List Byte) := (resolve 0 [] (components slash s)).reverse

/-- Empty parts mean nothing. -/
theorem resolve_components {floor : Nat} {stack : List (List Byte)} {s : List Byte} :
    resolve floor stack (components slash s) = resolve floor stack (s.splitOn slash) := by
  rw [components]
  induction s.splitOn slash generalizing stack with
  | nil => rfl
  | cons c parts ih =>
    rw [List.filter_cons, resolve_cons, ← ih]
    by_cases hc : c = []
    · subst hc
      rfl
    · rw [if_pos (decide_eq_true hc), resolve_cons]

/-- The memory holds the canonical path where the path was, and is the same around it. -/
structure CanonicalAt (m m' : Bytes) (a : Nat) (s : List Byte) : Prop where
  string : ∃ t, NulFree t ∧ Reads m' a t ∧ components slash t = canonical s ∧ t.getLast? ≠ some slash
  frame : ∀ x, x < a ∨ a + s.length < x → m' x = m x

/-- The path is made canonical exactly when every `..` takes back a name that ends in a dot, or
comes before all names, and every name that ends in a dot is taken back in time. -/
theorem vfs_normalize_path_iff {m : Bytes} {a : Nat} {s : List Byte} (hfree : NulFree s)
    (hr : Reads m a s) :
    (∀ fuel, s.length < fuel → ∃ m', vfsNormalizePathAt fuel m a = some m' ∧ CanonicalAt m m' a s) ↔
      Keeps 0 0 0 false (s.splitOn slash) := by
  have hcomponents : components slash (vfsNormalizePath s) = canonical s ↔
      Keeps 0 0 0 false (s.splitOn slash) := by
    rw [vfsNormalizePath_components, canonical, resolve_components, List.reverse_inj]
    exact agrees_nil.placed_iff (List.splitOn_ne_nil slash s)
  rw [← hcomponents]
  constructor
  · intro hall
    obtain ⟨m', hrun, ⟨t, hfree', hreads, heq, -⟩, -⟩ := hall _ (Nat.lt_succ_self _)
    obtain ⟨m'', hrun', hreads', -⟩ := vfsNormalizePathAt_eq hfree hr (Nat.lt_succ_self _)
    obtain rfl : m' = m'' := Option.some.inj (hrun.symm.trans hrun')
    rwa [hreads.unique hfree' (vfsNormalizePath_nulFree hfree) hreads'] at heq
  · intro heq fuel hfuel
    obtain ⟨m', hrun, hreads, hframe⟩ := vfsNormalizePathAt_eq hfree hr hfuel
    exact ⟨m', hrun, ⟨_, vfsNormalizePath_nulFree hfree, hreads, heq, vfsNormalizePath_getLast? s⟩, hframe⟩

/-- `a/./b.c`. -/
theorem vfs_normalize_path_plain : ∃ m', vfsNormalizePathAt 8
    (fun i => [0x61, 0x2f, 0x2e, 0x2f, 0x62, 0x2e, 0x63].getD i 0) 0 = some m' ∧
    CanonicalAt (fun i => [0x61, 0x2f, 0x2e, 0x2f, 0x62, 0x2e, 0x63].getD i 0) m' 0
      [0x61, 0x2f, 0x2e, 0x2f, 0x62, 0x2e, 0x63] := by
  have hparts : List.splitOn slash [0x61, 0x2f, 0x2e, 0x2f, 0x62, 0x2e, 0x63] =
      [[0x61], [dot], [0x62, 0x2e, 0x63]] := by decide
  refine (vfs_normalize_path_iff (by decide) ?_).mpr ?_ 8 (by decide)
  · intro i _
    rw [Nat.zero_add]
  · rw [hparts]
    simp [Keeps, dot]

/-- `a/../b` stays `a/b`. -/
theorem vfs_normalize_path_dots : ¬ ∀ (m : Bytes) (a : Nat) (s : List Byte), NulFree s → Reads m a s →
    ∀ fuel, s.length < fuel → ∃ m', vfsNormalizePathAt fuel m a = some m' ∧ CanonicalAt m m' a s := by
  intro hall
  have hfree : NulFree [0x61, 0x2f, 0x2e, 0x2e, 0x2f, 0x62] := by decide
  have hreads : Reads (fun i => [0x61, 0x2f, 0x2e, 0x2e, 0x2f, 0x62].getD i 0) 0
      [0x61, 0x2f, 0x2e, 0x2e, 0x2f, 0x62] := by
    intro i _
    rw [Nat.zero_add]
  obtain ⟨m', hrun, ⟨t, hfree', hread, heq, -⟩, -⟩ := hall _ _ _ hfree hreads 7 (by decide)
  obtain ⟨m'', hrun', hread', -⟩ := @vfsNormalizePathAt_eq _ _ 7 _ hfree hreads (by decide)
  obtain rfl : m' = m'' := Option.some.inj (hrun.symm.trans hrun')
  rw [hread.unique hfree' (vfsNormalizePath_nulFree hfree) hread'] at heq
  exact absurd heq (by decide)

end Vfs
