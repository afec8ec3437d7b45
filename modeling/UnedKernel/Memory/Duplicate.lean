import UnedKernel.Lib.Share
import UnedKernel.Memory.PagingRefinement

/-! # Duplicating a directory

`_duplicate_pd` of `paging.c`, and what the copy has in common with the
original: the tables of the last level, which the loops leave in place. -/

namespace UnedKernel.Memory
open BitField Radix

/-! ## The loops -/

/-- `request_page`: the frame of the next page, or a panic with `message`. -/
def requestPage (s : PagingState) (message : String) : Except Panic (Nat × PagingState) :=
  if s.supply s.next = 0 then .error ⟨message⟩
  else .ok (s.supply s.next >>> 12, { s with next := s.next + 1 })

/-- The loop of `_duplicate_pd` over `n` entries of the table `pt` from `k` on. -/
def copyEntries (pt newPt : Nat) : Nat → Nat → Frames → Frames
  | _, 0, m => m
  | k, n + 1, m =>
    let pte := m pt k
    copyEntries pt newPt (k + 1) n (if pte.present ≠ 0 then m.set newPt k pte else m)

/-- The loop of `_duplicate_pd` over `n` entries of the directory `pd` from `j` on. -/
def duplicateTables (pd newPd : Nat) : Nat → Nat → PagingState → Except Panic PagingState
  | _, 0, s => .ok s
  | j, n + 1, s =>
    let pde := s.mem pd j
    if pde.present = 0 then duplicateTables pd newPd (j + 1) n s
    else do
      let pt := pde.pagePpn
      let (newPt, s) ← requestPage s "ERROR: Could not allocate page for new PT\n"
      let m := (s.mem.copy newPt pt).set newPd j (pde.setPagePpn newPt)
      duplicateTables pd newPd (j + 1) n { s with mem := copyEntries pt newPt 0 512 m }

/-- The loop of `_duplicate_pd` over `n` entries of `father` from `i` on. -/
def duplicateDirectories (father pml : Nat) : Nat → Nat → PagingState → Except Panic PagingState
  | _, 0, s => .ok s
  | i, n + 1, s =>
    let pde := s.mem father i
    if pde.present = 0 then duplicateDirectories father pml (i + 1) n s
    else do
      let pd := pde.pagePpn
      let (newPd, s) ← requestPage s "ERROR: Could not allocate page for new PD\n"
      let m := (s.mem.copy newPd pd).set pml i (pde.setPagePpn newPd)
      let s ← duplicateTables pd newPd 0 512 { s with mem := m }
      duplicateDirectories father pml (i + 1) n s

/-- `_duplicate_pd`. -/
def duplicatePd (s : PagingState) (father start stop : Nat) : Except Panic (Nat × PagingState) := do
  let (pml, s) ← requestPage s "ERROR: Could not allocate page for new PML4\n"
  let s ← duplicateDirectories father pml start (stop - start) { s with mem := s.mem.fill pml 0 }
  return (pml, s)

/-- `duplicate_current_pml4`, with the directory that `get_pml4` returns. -/
def duplicateCurrentPml4 (s : PagingState) (pml4 : Nat) : Except Panic (Nat × PagingState) :=
  duplicatePd s pml4 0 512

/-- `duplicate_current_kernel_pml4`. -/
def duplicateCurrentKernelPml4 (s : PagingState) (pml4 : Nat) : Except Panic (Nat × PagingState) :=
  duplicatePd s pml4 256 512

theorem bind_ok {ε α β : Type} {x : Except ε α} {a : α} (h : x = .ok a) (f : α → Except ε β) :
    x >>= f = f a := by
  rw [h]
  rfl

theorem requestPage_ok {s t : PagingState} {message : String} {f : Nat}
    (h : requestPage s message = .ok (f, t)) :
    f = s.supply s.next >>> 12 ∧ t = { s with next := s.next + 1 } := by
  rw [requestPage] at h
  split at h
  · cases h
  · cases h
    exact ⟨rfl, rfl⟩

/-- The innermost loop writes what `memcpy` has written. -/
theorem copyEntries_eq {pt newPt k n : Nat} {m : Frames} (h : m newPt = m pt) :
    copyEntries pt newPt k n m = m := by
  induction n generalizing k with
  | zero => rfl
  | succ n ih =>
    rw [copyEntries]
    have hset : m.set newPt k (m pt k) = m := by
      funext g j
      rw [Store.set]
      split
      · rename_i hgj
        rw [hgj.1, hgj.2, h]
      · rfl
    simp only [hset, ite_self]
    exact ih

/-- Entries that are not present have nothing to copy. -/
theorem duplicateTables_skip {s : PagingState} {pd newPd j n k : Nat}
    (h : ∀ i, j ≤ i → i < j + k → (s.mem pd i).present = 0) :
    duplicateTables pd newPd j (k + n) s = duplicateTables pd newPd (j + k) n s := by
  induction k generalizing j with
  | zero => rw [Nat.zero_add, Nat.add_zero]
  | succ k ih =>
    rw [Nat.succ_add, duplicateTables]
    simp only [h j (le_refl j) (by omega), if_true]
    rw [ih fun i hj hi => h i (by omega) (by omega), Nat.add_assoc, Nat.add_comm 1 k]

theorem duplicateDirectories_skip {s : PagingState} {father pml i n k : Nat}
    (h : ∀ j, i ≤ j → j < i + k → (s.mem father j).present = 0) :
    duplicateDirectories father pml i (k + n) s = duplicateDirectories father pml (i + k) n s := by
  induction k generalizing i with
  | zero => rw [Nat.zero_add, Nat.add_zero]
  | succ k ih =>
    rw [Nat.succ_add, duplicateDirectories]
    simp only [h i (le_refl i) (by omega), if_true]
    rw [ih fun j hi hj => h j (by omega) (by omega), Nat.add_assoc, Nat.add_comm 1 k]

/-! ## One level -/

/-- The pages with numbers from `base` to `limit` lie in frames of their own, outside the tree
of `father` in `m₀`. -/
structure FreshFrames (m₀ : Frames) (father : Nat) (supply : Nat → Nat) (base limit : Nat) :
    Prop where
  small : ∀ x, base ≤ x → x < limit → supply x >>> 12 < 268435456
  inj : ∀ x y, base ≤ x → x < limit → base ≤ y → y < limit → supply x >>> 12 = supply y >>> 12 →
    x = y
  out : ∀ x, base ≤ x → x < limit → Outside Entry.child m₀ father 3 (supply x >>> 12)

/-- The frames of the pages of a state. -/
def PagingState.frame (s : PagingState) (x : Nat) : Nat := s.supply x >>> 12

/-- The entry `i` of the copy: not present, as in the original, or leading to a copy `d` levels
deep in frames of pages from `lo` to `hi`. -/
def EntryCopied (m₀ : Frames) (origin : Nat → Nat) (t : PagingState) (lo hi d old new i : Nat) :
    Prop :=
  ∃ x, lo ≤ x ∧ x < hi ∧ Entry.child (m₀ old i) = some (origin x) ∧
    Entry.child (t.mem new i) = some (t.frame x) ∧
    IsCopy Entry.child t.mem t.frame origin lo hi d (origin x) (t.frame x)

/-- A step that writes the table `new` and the frames of the pages it requests, at most `bound`. -/
structure Extends (s t : PagingState) (new bound : Nat) : Prop where
  supply : t.supply = s.supply
  le : s.next ≤ t.next
  bound : t.next ≤ s.next + bound
  same : ∀ f, f ≠ new → (∀ x, s.next ≤ x → x < t.next → f ≠ s.frame x) → t.mem f = s.mem f

/-- What a loop over `n` entries from `j` on has done to the copy of a table. -/
structure Copied (m₀ : Frames) (father : Nat) (s t : PagingState) (d old new j n bound : Nat) :
    Prop extends Extends s t new bound where
  rest : ∀ i, i < j ∨ j + n ≤ i → t.mem new i = s.mem new i
  copied : ∃ origin : Nat → Nat,
    (∀ x, s.next ≤ x → x < t.next → ¬ Outside Entry.child m₀ father 3 (origin x)) ∧
    ∀ i, j ≤ i → i < j + n →
      (Entry.child (m₀ old i) = none ∧ t.mem new i = s.mem new i) ∨
      EntryCopied m₀ origin t s.next t.next d old new i

theorem PagingState.frame_congr {s t : PagingState} (h : t.supply = s.supply) : t.frame = s.frame := by
  funext x
  rw [frame, frame, h]

namespace Copied

variable {m₀ : Frames} {father d old new j n bound bound' base limit : Nat} {s u t : PagingState}

theorem nil : Copied m₀ father s s d old new j 0 0 :=
  ⟨⟨rfl, le_refl _, le_refl _, fun _ _ _ => rfl⟩, fun _ _ => rfl, fun _ => 0, fun x h h' => by omega,
    fun i h h' => by omega⟩

/-- An entry that is not present is skipped. -/
theorem skip (hnone : Entry.child (m₀ old j) = none)
    (h : Copied m₀ father s t d old new (j + 1) n bound) :
    Copied m₀ father s t d old new j (n + 1) (bound + bound') := by
  obtain ⟨⟨hsupply, hle, hbound, hsame⟩, hrest, origin, horigin, hcopied⟩ := h
  refine ⟨⟨hsupply, hle, by omega, hsame⟩, fun i hi => hrest i (by omega), origin, horigin,
    fun i hlo hhi => ?_⟩
  by_cases hij : i = j
  · subst hij
    exact .inl ⟨hnone, hrest i (.inl (Nat.lt_succ_self i))⟩
  · exact hcopied i (by omega) (by omega)

/-- One entry is copied, then the others. -/
theorem cons (hfresh : FreshFrames m₀ father s.supply base limit) (hbase : base ≤ s.next)
    (hlimit : t.next ≤ limit) (hnew : Outside Entry.child m₀ father 3 new)
    (hnewFrame : ∀ x, s.next ≤ x → x < t.next → s.frame x ≠ new)
    (h₁ : Copied m₀ father s u d old new j 1 bound') (hlive : Entry.child (m₀ old j) ≠ none)
    (h₂ : Copied m₀ father u t d old new (j + 1) n bound) :
    Copied m₀ father s t d old new j (n + 1) (bound + bound') := by
  obtain ⟨⟨hsupply₁, hle₁, hbound₁, hsame₁⟩, hrest₁, origin₁, horigin₁, hcopied₁⟩ := h₁
  obtain ⟨⟨hsupply₂, hle₂, hbound₂, hsame₂⟩, hrest₂, origin₂, horigin₂, hcopied₂⟩ := h₂
  have hframe₁ : u.frame = s.frame := PagingState.frame_congr hsupply₁
  have hframe₂ : t.frame = u.frame := PagingState.frame_congr hsupply₂
  have hone : ∀ x, s.next ≤ x → x < u.next →
      (if x < u.next then origin₁ x else origin₂ x) = origin₁ x := fun x _ hx => if_pos hx
  have htwo : ∀ x, u.next ≤ x → x < t.next →
      (if x < u.next then origin₁ x else origin₂ x) = origin₂ x := fun x hx _ => if_neg (by omega)
  -- the second part leaves the frames of the first part and the original alone
  have hkeep : ∀ x, s.next ≤ x → x < u.next →
      t.mem (u.frame x) = u.mem (u.frame x) ∧ t.mem (origin₁ x) = u.mem (origin₁ x) := by
    intro x hlo hhi
    refine ⟨hsame₂ _ ?_ fun y hylo hyhi heq => ?_, hsame₂ _ ?_ fun y hylo hyhi heq => ?_⟩
    · rw [hframe₁]
      exact hnewFrame x hlo (by omega)
    · rw [hframe₁] at heq
      have := hfresh.inj x y (by omega) (by omega) (by omega) (by omega) heq
      omega
    · intro heq
      exact horigin₁ x hlo hhi (heq ▸ hnew)
    · rw [hframe₁] at heq
      exact horigin₁ x hlo hhi (heq ▸ hfresh.out y (by omega) (by omega))
  refine ⟨⟨hsupply₂.trans hsupply₁, by omega, by omega, fun f hf hx => ?_⟩, fun i hi => ?_,
    fun x => if x < u.next then origin₁ x else origin₂ x, fun x hlo hhi => ?_, fun i hlo hhi => ?_⟩
  · rw [hsame₂ f hf fun x hlo hhi => hframe₁ ▸ hx x (by omega) hhi,
      hsame₁ f hf fun x hlo hhi => hx x hlo (by omega)]
  · rw [hrest₂ i (by omega), hrest₁ i (by omega)]
  · rcases Nat.lt_or_ge x u.next with hlt | hge
    · simp only [if_pos hlt]
      exact horigin₁ x hlo hlt
    · simp only [if_neg (Nat.not_lt.mpr hge)]
      exact horigin₂ x hge hhi
  · by_cases hij : i = j
    · subst hij
      right
      obtain ⟨hnone, -⟩ | ⟨x, hxlo, hxhi, hold, hnewx, hcopy⟩ := hcopied₁ i (le_refl i) (by omega)
      · exact absurd hnone hlive
      refine ⟨x, hxlo, by omega, ?_, ?_, ?_⟩
      · simp only [hone x hxlo hxhi]
        exact hold
      · rw [hrest₂ i (.inl (Nat.lt_succ_self i)), hframe₂]
        exact hnewx
      · simp only [hone x hxlo hxhi, hframe₂]
        exact hcopy.congr (le_refl _) hle₂ hone (hkeep x hxlo hxhi).1 (hkeep x hxlo hxhi).2
          fun y hylo hyhi => hkeep y hylo hyhi
    · rcases hcopied₂ i (by omega) (by omega) with ⟨hnone, heq⟩ | ⟨x, hxlo, hxhi, hold, hnewx, hcopy⟩
      · exact .inl ⟨hnone, heq.trans (hrest₁ i (by omega))⟩
      · refine .inr ⟨x, by omega, hxhi, ?_, hnewx, ?_⟩
        · simp only [htwo x hxlo hxhi]
          exact hold
        · simp only [htwo x hxlo hxhi]
          exact hcopy.congr (by omega) (le_refl _) htwo rfl rfl fun y _ _ => ⟨rfl, rfl⟩

end Copied

/-! ## The two loops -/

/-- An entry that is given the frame of a page leads to it. -/
theorem Entry.child_setPagePpn {e : Entry} {f : Nat} (he : e.present ≠ 0) (hf : f < 268435456) :
    Entry.child (e.setPagePpn f) = some f := by
  have hpres : (e.setPagePpn f).present = e.present := by
    rw [present, setPagePpn, field_setField_apart _ _ (by omega) (by omega)]
    rfl
  have hppn : (e.setPagePpn f).pagePpn = f := by
    rw [pagePpn, setPagePpn, field_setField_same _ _ (by omega)]
    exact Nat.mod_eq_of_lt hf
  rw [child, hpres, hppn, if_neg he]

/-- What the copy of the table under entry `j` of `old` to the next page does. -/
structure TableCopied (m₀ : Frames) (father : Nat) (s t : PagingState) (old new j : Nat) :
    Prop where
  supply : t.supply = s.supply
  next : t.next = s.next + 1
  same : ∀ f, f ≠ new → f ≠ s.frame s.next → t.mem f = s.mem f
  rest : ∀ i, i ≠ j → t.mem new i = s.mem new i
  entry : Entry.child (t.mem new j) = some (s.frame s.next)
  table : ∃ pt, Entry.child (m₀ old j) = some pt ∧ ¬ Outside Entry.child m₀ father 3 pt ∧
    t.mem (s.frame s.next) = m₀ pt ∧ t.mem pt = m₀ pt

theorem TableCopied.extends {m₀ : Frames} {father old new j : Nat} {s t : PagingState}
    (h : TableCopied m₀ father s t old new j) : Extends s t new 1 where
  supply := h.supply
  le := by rw [h.next]; exact Nat.le_succ _
  bound := by rw [h.next]
  same f hf hx := h.same f hf (hx _ (le_refl _) (by rw [h.next]; exact Nat.lt_succ_self _))

theorem TableCopied.copied {m₀ : Frames} {father old new j : Nat} {s t : PagingState}
    (h : TableCopied m₀ father s t old new j) : Copied m₀ father s t 0 old new j 1 1 := by
  obtain ⟨pt, hold, hin, htable, hsource⟩ := h.table
  refine ⟨h.extends, fun i hi => h.rest i (by omega), fun _ => pt, fun _ _ _ => hin,
    fun i hlo hhi => ?_⟩
  obtain rfl : i = j := by omega
  have hframe : t.frame = s.frame := PagingState.frame_congr h.supply
  refine .inr ⟨s.next, le_refl _, by rw [h.next]; exact Nat.lt_succ_self _, hold, ?_, ?_⟩
  · rw [hframe]
    exact h.entry
  · rw [hframe]
    exact htable.trans hsource.symm

section Loops
variable {m₀ : Frames} {father d old new j n bound base limit : Nat} {p : List Nat}
  {s t : PagingState}

/-- The tree of the original stays as it is. -/
theorem Extends.agreeOn (h : Extends s t new bound) (hfresh : FreshFrames m₀ father s.supply base limit)
    (hbase : base ≤ s.next) (hlimit : t.next ≤ limit)
    (hnew : Outside Entry.child m₀ father 3 new)
    (hagree : AgreeOn Entry.child m₀ s.mem father 3) : AgreeOn Entry.child m₀ t.mem father 3 := by
  intro f hf
  rw [h.same f (fun heq => hf (heq ▸ hnew)) fun x hlo hhi heq =>
    hf (heq ▸ hfresh.out x (by omega) (by omega)), hagree f hf]

variable (hfresh : FreshFrames m₀ father s.supply base limit) (hbase : base ≤ s.next)
  (hagree : AgreeOn Entry.child m₀ s.mem father 3) (hp : p.length + 1 ≤ 3)
  (hold : walk Entry.child m₀ father p = some old) (hnew : Outside Entry.child m₀ father 3 new)
  (hnewFrame : ∀ x, s.next ≤ x → x < limit → s.frame x ≠ new)
include hfresh hbase hagree hp hold hnew hnewFrame

/-- The table under the entry `j` of `old` is copied to the next page, for the entry of `new`. -/
theorem copyTable_spec (hlimit : s.next < limit) (hlive : (s.mem old j).present ≠ 0)
    (ht : t = ⟨(s.mem.copy (s.frame s.next) (s.mem old j).pagePpn).set new j
      ((s.mem old j).setPagePpn (s.frame s.next)), s.supply, s.next + 1⟩) :
    TableCopied m₀ father s t old new j := by
  have hsame : s.mem old = m₀ old := hagree old (not_outside (by omega) hold)
  have hne : s.frame s.next ≠ new := hnewFrame _ (le_refl _) hlimit
  -- the table that is copied is in the tree of the original
  have hwalk : walk Entry.child m₀ father (p ++ [j]) = some (s.mem old j).pagePpn := by
    rw [walk_concat hold, ← hsame]
    exact Entry.child_of_live hlive
  have hin : ¬ Outside Entry.child m₀ father 3 (s.mem old j).pagePpn :=
    not_outside (by simp; omega) hwalk
  have hptNew : (s.mem old j).pagePpn ≠ new := fun heq => hin (heq ▸ hnew)
  have hptFrame : (s.mem old j).pagePpn ≠ s.frame s.next := fun heq =>
    hin (heq ▸ hfresh.out s.next hbase hlimit)
  have hpt : Entry.child (m₀ old j) = some (s.mem old j).pagePpn := by
    rw [← hsame]
    exact Entry.child_of_live hlive
  generalize (s.mem old j).pagePpn = pt at *
  generalize he : (s.mem old j).setPagePpn (s.frame s.next) = e at ht
  have hout : ∀ g, g ≠ new → t.mem g = s.mem.copy (s.frame s.next) pt g := fun g hg => by
    rw [ht]
    exact funext fun k => Store.set_of_ne e (.inl hg)
  refine ⟨by rw [ht], by rw [ht], fun f hf hx => ?_, fun i hi => ?_, ?_, pt, hpt, hin, ?_, ?_⟩
  · rw [hout f hf, Store.copy_of_ne hx]
  · rw [ht]
    show ((s.mem.copy (s.frame s.next) pt).set new j e) new i = _
    rw [Store.set_of_ne e (.inr hi), Store.copy_of_ne hne.symm]
  · rw [ht]
    show Entry.child (((s.mem.copy (s.frame s.next) pt).set new j e) new j) = _
    rw [Store.set_same, ← he]
    exact Entry.child_setPagePpn hlive (hfresh.small s.next hbase hlimit)
  · rw [hout _ hne, Store.copy_same, hagree pt hin]
  · rw [hout _ hptNew, Store.copy_of_ne hptFrame, hagree pt hin]

theorem duplicateTables_copied (hlimit : s.next + n ≤ limit)
    (h : duplicateTables old new j n s = .ok t) : Copied m₀ father s t 0 old new j n n := by
  induction n generalizing j s with
  | zero =>
    obtain rfl := Except.ok.inj h
    exact .nil
  | succ n ih =>
    have hsame : s.mem old = m₀ old := hagree old (not_outside (by omega) hold)
    rw [duplicateTables] at h
    split at h
    · rename_i hdead
      refine (ih hfresh hbase hagree hnewFrame (by omega) h).skip ?_
      rw [← hsame]
      exact if_pos hdead
    · rename_i hlive
      cases hr : requestPage s "ERROR: Could not allocate page for new PT\n" with
      | error e =>
        rw [hr] at h
        cases h
      | ok r =>
        obtain ⟨newPt, s₁⟩ := r
        rw [hr] at h
        obtain ⟨rfl, rfl⟩ := requestPage_ok hr
        obtain ⟨u, hu⟩ : ∃ u : PagingState, u = ⟨(s.mem.copy (s.frame s.next)
            (s.mem old j).pagePpn).set new j ((s.mem old j).setPagePpn (s.frame s.next)), s.supply,
              s.next + 1⟩ := ⟨_, rfl⟩
        have hspec := copyTable_spec hfresh hbase hagree hp hold hnew hnewFrame (by omega) hlive hu
        have hone := hspec.copied
        have hnext : u.next = s.next + 1 := hspec.next
        have hrun : duplicateTables old new (j + 1) n u = .ok t := by
          obtain ⟨pt, hpt, -, htable, hsource⟩ := hspec.table
          obtain rfl : (s.mem old j).pagePpn = pt := by
            rw [← hsame, Entry.child_of_live hlive] at hpt
            exact Option.some.inj hpt
          have hentries : copyEntries (s.mem old j).pagePpn (s.frame s.next) 0 512 u.mem = u.mem :=
            copyEntries_eq (htable.trans hsource.symm)
          have hsame' : (⟨copyEntries (s.mem old j).pagePpn (s.frame s.next) 0 512 u.mem, u.supply,
              u.next⟩ : PagingState) = u := by rw [hentries]
          rw [← h, ← hsame', hu]
          rfl
        have hframe : u.frame = s.frame := PagingState.frame_congr hone.supply
        have hrest := ih (hone.supply ▸ hfresh) (by omega)
          (hone.agreeOn hfresh hbase (by omega) hnew hagree)
          (fun x hlo => hframe ▸ hnewFrame x (by omega)) (by omega) hrun
        have hbound : t.next ≤ limit := by
          have := hrest.bound
          omega
        refine Copied.cons hfresh hbase hbound hnew (fun x hlo hhi => hnewFrame x hlo (by omega))
          hone ?_ hrest
        rw [← hsame, Entry.child_of_live hlive]
        exact Option.some_ne_none _

/-- A directory is copied to the next page, and the tables under it to the pages after. -/
theorem copyDirectory_copied {u : PagingState} {pd : Nat} (hp' : p.length + 2 ≤ 3)
    (hsize : ∀ f i, 512 ≤ i → Entry.child (m₀ f i) = none) (hlimit : s.next + 513 ≤ limit)
    (hspec : TableCopied m₀ father s u old new j) (hpd : Entry.child (m₀ old j) = some pd)
    (h : duplicateTables pd (s.frame s.next) 0 512 u = .ok t) :
    Copied m₀ father s t 1 old new j 1 513 := by
  have hnext : u.next = s.next + 1 := hspec.next
  have hframe : u.frame = s.frame := PagingState.frame_congr hspec.supply
  have hwalk : walk Entry.child m₀ father (p ++ [j]) = some pd := by
    rw [walk_concat hold]
    exact hpd
  have hlen : (p ++ [j]).length + 1 ≤ 3 := by simp; omega
  have hin : ¬ Outside Entry.child m₀ father 3 pd := not_outside (by omega) hwalk
  obtain ⟨pt, hpt, -, htable, hsource⟩ := hspec.table
  obtain rfl : pt = pd := Option.some.inj (hpt.symm.trans hpd)
  have hagree' : AgreeOn Entry.child m₀ u.mem father 3 :=
    hspec.extends.agreeOn hfresh hbase (by omega) hnew hagree
  have hout : Outside Entry.child m₀ father 3 (s.frame s.next) :=
    hfresh.out s.next hbase (by omega)
  have hloop := duplicateTables_copied (hspec.supply ▸ hfresh) (by omega) hagree' hlen hwalk
    hout (fun x hlo hhi heq => by
      rw [hframe] at heq
      have := hfresh.inj x s.next (by omega) hhi hbase (by omega) heq
      omega) (by omega) h
  have hfresh' : FreshFrames m₀ father u.supply base limit := hspec.supply ▸ hfresh
  have hbound : t.next ≤ u.next + 512 := hloop.bound
  have hle : u.next ≤ t.next := hloop.le
  have hagreet : AgreeOn Entry.child m₀ t.mem father 3 :=
    hloop.agreeOn hfresh' (by omega) (by omega) hout hagree'
  -- the loop over the tables leaves `new` alone
  have hnewSame : t.mem new = u.mem new := by
    refine hloop.same new (fun heq => ?_) fun x hlo hhi heq => ?_
    · exact hnewFrame s.next (le_refl _) (by omega) heq.symm
    · rw [hframe] at heq
      exact hnewFrame x (by omega) (by omega) heq.symm
  have hframe' : t.frame = s.frame := (PagingState.frame_congr hloop.supply).trans hframe
  obtain ⟨origin, horigin, hcopied⟩ := hloop.copied
  obtain ⟨origin', hfirst, hothers⟩ : ∃ origin' : Nat → Nat, origin' s.next = pt ∧
      ∀ x, x ≠ s.next → origin' x = origin x :=
    ⟨fun x => if x = s.next then pt else origin x, if_pos rfl, fun x hx => if_neg hx⟩
  refine ⟨⟨hloop.supply.trans hspec.supply, by omega, by omega, fun f hf hx => ?_⟩, fun i hi => ?_,
    origin', fun x hlo hhi => ?_, fun i hlo hhi => ?_⟩
  · have hfs : f ≠ s.frame s.next := hx s.next (le_refl _) (by omega)
    rw [hloop.same f hfs fun x hlo hhi => hframe ▸ hx x (by omega) hhi, hspec.same f hf hfs]
  · rw [hnewSame, hspec.rest i (by omega)]
  · by_cases hx : x = s.next
    · rw [hx, hfirst]
      exact hin
    · rw [hothers x hx]
      exact horigin x (by omega) hhi
  · obtain rfl : i = j := by omega
    refine .inr ⟨s.next, le_refl _, by omega, by rw [hfirst]; exact hpd, ?_, ?_⟩
    · rw [hnewSame, hframe']
      exact hspec.entry
    · rw [hfirst, hframe']
      intro k
      rw [hagreet pt hin]
      by_cases hk : k < 512
      · rcases hcopied k (Nat.zero_le k) (by omega) with ⟨hnone, heq⟩ | ⟨x, hxlo, hxhi, hold', hnew', hcopy⟩
        · refine .inl ⟨hnone, ?_⟩
          rw [heq, htable]
          exact hnone
        · rw [hframe'] at hnew' hcopy
          have hx : x ≠ s.next := by omega
          refine .inr ⟨x, by omega, hxhi, ?_, hnew', ?_⟩
          · rw [hothers x hx]
            exact hold'
          · rw [hothers x hx]
            exact hcopy
      · refine .inl ⟨hsize pt k (by omega), ?_⟩
        rw [hloop.rest k (.inr (by omega)), htable]
        exact hsize pt k (by omega)

theorem duplicateDirectories_copied (hp' : p.length + 2 ≤ 3)
    (hsize : ∀ f i, 512 ≤ i → Entry.child (m₀ f i) = none) (hlimit : s.next + 513 * n ≤ limit)
    (h : duplicateDirectories old new j n s = .ok t) :
    Copied m₀ father s t 1 old new j n (513 * n) := by
  induction n generalizing j s with
  | zero =>
    obtain rfl := Except.ok.inj h
    rw [Nat.mul_zero]
    exact .nil
  | succ n ih =>
    have hsame : s.mem old = m₀ old := hagree old (not_outside (by omega) hold)
    rw [Nat.mul_succ] at hlimit ⊢
    generalize 513 * n = pages at ih hlimit ⊢
    rw [Nat.add_comm pages 513, ← Nat.add_assoc] at hlimit
    rw [duplicateDirectories] at h
    split at h
    · rename_i hdead
      have hrest := ih (s := s) hfresh hbase hagree hnewFrame (by omega) h
      refine hrest.skip ?_
      rw [← hsame]
      exact if_pos hdead
    · rename_i hlive
      cases hr : requestPage s "ERROR: Could not allocate page for new PD\n" with
      | error e =>
        rw [hr] at h
        cases h
      | ok r =>
        obtain ⟨newPd, s₁⟩ := r
        rw [hr] at h
        obtain ⟨rfl, rfl⟩ := requestPage_ok hr
        obtain ⟨u, hu⟩ : ∃ u : PagingState, u = ⟨(s.mem.copy (s.frame s.next)
            (s.mem old j).pagePpn).set new j ((s.mem old j).setPagePpn (s.frame s.next)), s.supply,
              s.next + 1⟩ := ⟨_, rfl⟩
        have hspec := copyTable_spec hfresh hbase hagree hp hold hnew hnewFrame (by omega) hlive hu
        have hrun : (duplicateTables (s.mem old j).pagePpn (s.frame s.next) 0 512 u >>=
            fun u => duplicateDirectories old new (j + 1) n u) = .ok t := by
          rw [← h, hu]
          rfl
        cases htab : duplicateTables (s.mem old j).pagePpn (s.frame s.next) 0 512 u with
        | error e =>
          rw [htab] at hrun
          cases hrun
        | ok v =>
          rw [htab] at hrun
          have hpd : Entry.child (m₀ old j) = some (s.mem old j).pagePpn := by
            rw [← hsame]
            exact Entry.child_of_live hlive
          have hone := copyDirectory_copied hfresh hbase hagree hp hold hnew hnewFrame hp' hsize
            (by omega) hspec hpd htab
          have hframe : v.frame = s.frame := PagingState.frame_congr hone.supply
          have hbound : v.next ≤ s.next + 513 := hone.bound
          have hle : s.next ≤ v.next := hone.le
          have hagree' : AgreeOn Entry.child m₀ v.mem father 3 :=
            hone.agreeOn hfresh hbase (by omega) hnew hagree
          have hrest := ih (s := v) (hone.supply ▸ hfresh) (by omega) hagree'
            (fun x hlo => hframe ▸ hnewFrame x (by omega)) (by omega) hrun
          have hlast : t.next ≤ v.next + pages := hrest.bound
          refine Copied.cons hfresh hbase (by omega) hnew
            (fun x hlo hhi => hnewFrame x hlo (by omega)) hone ?_ hrest
          rw [hpd]
          exact Option.some_ne_none _

end Loops

/-! ## The duplicate -/

/-- The pages that a duplicate of a directory needs at most. -/
abbrev duplicatePages : Nat := 262657

/-- A frame holds 512 entries: there are none from 512 on. -/
def FrameSized (m : Frames) : Prop := ∀ f i, 512 ≤ i → Entry.child (m f i) = none

/-- The directory `pml` is a duplicate of the entries of `father` from `start` to `stop`. -/
structure Duplicated (s t : PagingState) (father pml start stop : Nat) : Prop where
  supply : t.supply = s.supply
  root : pml = s.frame s.next
  lt : s.next < t.next
  bound : t.next ≤ s.next + duplicatePages
  same : ∀ f, (∀ x, s.next ≤ x → x < t.next → f ≠ s.frame x) → t.mem f = s.mem f
  agree : AgreeOn Entry.child s.mem t.mem father 3
  wellFormed : WellFormed t.mem pml
  meet : Meet Entry.child t.mem father pml 3
  shared : ∀ i j k, start ≤ i → i < stop →
    walk Entry.child t.mem pml [i, j, k] = walk Entry.child s.mem father [i, j, k]
  zero : ∀ i, i < start ∨ stop ≤ i → t.mem pml i = 0
  own : ∀ q f, q.length ≤ 2 → walk Entry.child t.mem pml q = some f →
    ∃ x, s.next ≤ x ∧ x < t.next ∧ f = s.frame x
  last : ∀ q f, q.length = 3 → walk Entry.child t.mem pml q = some f →
    walk Entry.child s.mem father q = some f

theorem FreshPages.freshFrames {s : PagingState} {father n : Nat} (h : FreshPages s father n) :
    FreshFrames s.mem father s.supply s.next (s.next + n) := by
  refine ⟨fun x hlo hhi => ?_, fun x y hxlo hxhi hylo hyhi heq => ?_, fun x hlo hhi => ?_⟩
  · obtain ⟨k, rfl⟩ := Nat.exists_eq_add_of_le hlo
    have hsmall := h.small k (by omega)
    rw [Nat.shiftRight_eq_div_pow]
    omega
  · obtain ⟨j, rfl⟩ := Nat.exists_eq_add_of_le hxlo
    obtain ⟨k, rfl⟩ := Nat.exists_eq_add_of_le hylo
    rcases Nat.lt_trichotomy j k with hlt | rfl | hlt
    · exact absurd heq.symm (h.frame_ne hlt (by omega))
    · rfl
    · exact absurd heq (h.frame_ne hlt (by omega))
  · obtain ⟨k, rfl⟩ := Nat.exists_eq_add_of_le hlo
    exact h.out k (by omega)

theorem duplicatePd_spec {s t : PagingState} {father pml start stop : Nat}
    (hwf : WellFormed s.mem father) (hfresh : FreshPages s father duplicatePages)
    (hsize : FrameSized s.mem) (hle : start ≤ stop) (hstop : stop ≤ 512)
    (h : duplicatePd s father start stop = .ok (pml, t)) :
    Duplicated s t father pml start stop := by
  have hframes := hfresh.freshFrames
  rw [duplicatePd] at h
  cases hr : requestPage s "ERROR: Could not allocate page for new PML4\n" with
  | error e =>
    rw [hr] at h
    cases h
  | ok r =>
    obtain ⟨root, s₁⟩ := r
    rw [hr] at h
    obtain ⟨rfl, rfl⟩ := requestPage_ok hr
    obtain ⟨u, hu⟩ : ∃ u : PagingState, u = ⟨s.mem.fill (s.frame s.next) 0, s.supply, s.next + 1⟩ :=
      ⟨_, rfl⟩
    have hrun : (duplicateDirectories father (s.frame s.next) start (stop - start) u >>=
        fun t => pure (s.frame s.next, t)) = .ok (pml, t) := by
      rw [← h, hu]
      rfl
    cases hd : duplicateDirectories father (s.frame s.next) start (stop - start) u with
    | error e =>
      rw [hd] at hrun
      cases hrun
    | ok v =>
      rw [hd] at hrun
      obtain ⟨rfl, hv⟩ := Prod.mk.inj (Except.ok.inj hrun)
      rw [hv] at hd
      -- the new root is cleared, then its entries are copied one by one
      have hnext : u.next = s.next + 1 := by rw [hu]
      have hframe : u.frame = s.frame := PagingState.frame_congr (by rw [hu])
      have hout : Outside Entry.child s.mem father 3 (s.frame s.next) :=
        hframes.out s.next (le_refl _) (by unfold duplicatePages; omega)
      have hagree : AgreeOn Entry.child s.mem u.mem father 3 := by
        rw [hu]
        exact agreeOn_fill hout
      have hbudget : 513 * (stop - start) ≤ 262656 :=
        Nat.mul_le_mul_left 513 (show stop - start ≤ 512 by omega)
      have hfresh' : FreshFrames s.mem father u.supply s.next (s.next + duplicatePages) := by
        rw [hu]
        exact hframes
      have hlimit : u.next + 513 * (stop - start) ≤ s.next + duplicatePages := by
        rw [hnext]
        unfold duplicatePages
        generalize 513 * (stop - start) = pages at hbudget ⊢
        omega
      have hcopied := duplicateDirectories_copied hfresh' (by omega) hagree (p := []) (by decide)
        rfl hout (fun x hlo hhi heq => by
          rw [hframe] at heq
          have := hframes.inj x s.next (by omega) hhi (le_refl _) (by unfold duplicatePages; omega) heq
          omega) (by decide) hsize hlimit hd
      have hbound : t.next ≤ s.next + duplicatePages := Nat.le_trans hcopied.bound hlimit
      have hlt : u.next ≤ t.next := hcopied.le
      have hagreet : AgreeOn Entry.child s.mem t.mem father 3 :=
        hcopied.agreeOn hfresh' (by omega) hbound hout hagree
      have hframe' : t.frame = s.frame := (PagingState.frame_congr hcopied.supply).trans hframe
      have hzero : ∀ i, u.mem (s.frame s.next) i = 0 := fun i => by
        rw [hu]
        exact Store.fill_same _ i 0
      have hfather : t.mem father = s.mem father := hagreet father (not_outside (p := []) (by decide) rfl)
      obtain ⟨origin, -, hentries⟩ := hcopied.copied
      have hroot : ∀ i, Entry.child (t.mem (s.frame s.next) i) = none ∨
          EntryCopied s.mem origin t u.next t.next 1 father (s.frame s.next) i := by
        intro i
        by_cases hi : start ≤ i ∧ i < start + (stop - start)
        · rcases hentries i hi.1 hi.2 with ⟨-, heq⟩ | hcopy
          · rw [heq, hzero]
            exact .inl Entry.zero_child
          · exact .inr hcopy
        · rw [hcopied.rest i (by omega), hzero]
          exact .inl Entry.zero_child
      have hpart : IsPart Entry.child t.mem s.frame origin u.next t.next 2 father (s.frame s.next) := by
        refine .of_root fun i => (hroot i).imp_right fun ⟨x, hlo, hhi, hold, hnew, hcopy⟩ => ?_
        rw [hframe'] at hnew hcopy
        exact ⟨x, hlo, hhi, by rw [hfather]; exact hold, hnew, hcopy⟩
      have houts : ∀ x, s.next ≤ x → x < t.next → Outside Entry.child t.mem father 3 (s.frame x) :=
        fun x hlo hhi => hagreet.outside (hframes.out x hlo (by omega))
      have hwft : WellFormed t.mem father := hagreet.separated hwf
      refine ⟨?_, rfl, by omega, hbound, fun f hf => ?_, hagreet, ?_, ?_, fun i j k hi hi' => ?_,
        fun i hi => ?_, fun q f hq hw => ?_, fun q f hq hw => ?_⟩
      · rw [hcopied.supply, hu]
      · have hfr : f ≠ s.frame s.next := hf s.next (le_refl _) (by omega)
        rw [hcopied.same f hfr fun x hlo hhi => hframe ▸ hf x (by omega) hhi, hu]
        exact funext fun i => Store.fill_of_ne i 0 hfr
      · exact hpart.separated (by omega) (by omega) houts hwft fun x y hx hxhi hy hyhi =>
          hframes.inj x y hx (by omega) hy (by omega)
      · exact hpart.meet (by omega) (by omega) houts hwft
      · rw [← hagreet.walk_eq (q := [i, j, k]) (Nat.le_succ 3), walk_cons, walk_cons, hfather]
        rcases hentries i hi (by omega) with ⟨hnone, heq⟩ | ⟨x, -, -, hold, hnew, hcopy⟩
        · rw [hnone, heq, hzero]
          rfl
        · rw [hold, hnew, Option.bind_some, Option.bind_some]
          exact hcopy.walk_last rfl
      · rw [hcopied.rest i (by omega), hzero]
      · by_cases hnil : q = []
        · subst hnil
          exact ⟨s.next, le_refl _, by omega, (Option.some.inj hw).symm⟩
        · rcases hpart.upper q hnil hq with hnone | ⟨x, hlo, hhi, -, hnew⟩
          · rw [hnone] at hw
            cases hw
          · exact ⟨x, by omega, hhi, Option.some.inj (hw.symm.trans hnew)⟩
      · rcases hpart.last q hq with hnone | heq
        · rw [hnone] at hw
          cases hw
        · rw [← hagreet.walk_eq (by omega), ← heq]
          exact hw

/-- The tables of the duplicate are its own, and those of the original. -/
theorem Duplicated.outside {s t : PagingState} {father pml start stop c : Nat}
    (h : Duplicated s t father pml start stop) (hc : Outside Entry.child s.mem father 3 c)
    (hne : ∀ x, s.next ≤ x → x < t.next → c ≠ s.frame x) : Outside Entry.child t.mem pml 3 c := by
  intro q hq hw
  rcases Nat.lt_or_ge 2 q.length with hlen | hlen
  · exact hc q hq (h.last q c (by omega) hw)
  · obtain ⟨x, hlo, hhi, heq⟩ := h.own q c hlen hw
    exact hne x hlo hhi heq

/-- The pages after those of the duplicate are fresh for both directories. -/
theorem Duplicated.freshPages {s t : PagingState} {father pml start stop n : Nat}
    (h : Duplicated s t father pml start stop) (hfresh : FreshPages s father (duplicatePages + n)) :
    FreshPages t pml n ∧ FreshPages t father n := by
  obtain ⟨d, hd⟩ := Nat.exists_eq_add_of_lt h.lt
  have hbound := h.bound
  have hpage : ∀ k, t.supply (t.next + k) = s.supply (s.next + (d + 1 + k)) := fun k => by
    rw [h.supply, hd, Nat.add_assoc, Nat.add_assoc, Nat.add_assoc]
  have hframes := hfresh.freshFrames
  have hout : ∀ k, k < n → Outside Entry.child s.mem father 3 (s.supply (s.next + (d + 1 + k)) >>> 12) :=
    fun k hk => hfresh.out _ (by omega)
  refine ⟨⟨fun k hk => ?_, fun k hk => ?_, fun j k hj hk => ?_, fun k hk => ?_⟩, fun k hk => ?_,
    fun k hk => ?_, fun j k hj hk => ?_, fun k hk => ?_⟩
  · rw [hpage]
    exact hfresh.aligned _ (by omega)
  · rw [hpage]
    exact hfresh.small _ (by omega)
  · rw [hpage, hpage]
    exact hfresh.distinct _ _ (by omega) (by omega)
  · rw [hpage]
    refine h.outside (hout k hk) fun x hlo hhi heq => ?_
    have := hframes.inj _ x (Nat.le_add_right _ _) (by omega) hlo (by omega) heq
    omega
  · rw [hpage]
    exact hfresh.aligned _ (by omega)
  · rw [hpage]
    exact hfresh.small _ (by omega)
  · rw [hpage, hpage]
    exact hfresh.distinct _ _ (by omega) (by omega)
  · rw [hpage]
    exact h.agree.outside (hout k hk)

/-- With pages for all tables the duplicate is made. -/
theorem duplicatePd_total {s : PagingState} (father start stop : Nat)
    (hpages : ∀ x, s.supply x ≠ 0) : ∃ r, duplicatePd s father start stop = .ok r := by
  have hpage {s' : PagingState} (hs : s'.supply = s.supply) (message : String) :
      requestPage s' message = .ok (s'.supply s'.next >>> 12, { s' with next := s'.next + 1 }) := by
    rw [requestPage, if_neg (by rw [hs]; exact hpages _)]
  have htables : ∀ n pd newPd j s', s'.supply = s.supply →
      ∃ t, duplicateTables pd newPd j n s' = .ok t ∧ t.supply = s.supply := by
    intro n pd newPd
    induction n with
    | zero => exact fun j s' hs => ⟨s', rfl, hs⟩
    | succ n ih =>
      intro j s' hs
      rw [duplicateTables]
      split
      · exact ih (j + 1) s' hs
      · rw [hpage hs]
        exact ih (j + 1) _ hs
  have hdirs : ∀ n pml i s', s'.supply = s.supply →
      ∃ t, duplicateDirectories father pml i n s' = .ok t := by
    intro n pml
    induction n with
    | zero => exact fun i s' _ => ⟨s', rfl⟩
    | succ n ih =>
      intro i s' hs
      rw [duplicateDirectories]
      split
      · exact ih (i + 1) s' hs
      · rw [hpage hs]
        obtain ⟨u, hu, hus⟩ := htables 512 (s'.mem father i).pagePpn (s'.frame s'.next) 0
          ⟨(s'.mem.copy (s'.frame s'.next) (s'.mem father i).pagePpn).set pml i
            ((s'.mem father i).setPagePpn (s'.frame s'.next)), s'.supply, s'.next + 1⟩ hs
        obtain ⟨t, ht⟩ := ih (i + 1) u hus
        have hbind : ∀ x, x = .ok u →
            (x >>= fun u => duplicateDirectories father pml (i + 1) n u) = .ok t := by
          intro x hx
          rw [hx]
          exact ht
        exact ⟨t, hbind _ hu⟩
  rw [duplicatePd, hpage rfl]
  obtain ⟨t, ht⟩ := hdirs (stop - start) (s.frame s.next) start
    ⟨s.mem.fill (s.frame s.next) 0, s.supply, s.next + 1⟩ rfl
  have hbind : ∀ x, x = .ok t → (x >>= fun t => pure (s.frame s.next, t)) =
      (.ok (s.frame s.next, t) : Except Panic (Nat × PagingState)) := by
    intro x hx
    rw [hx]
    rfl
  exact ⟨(s.frame s.next, t), hbind _ ht⟩

end UnedKernel.Memory
