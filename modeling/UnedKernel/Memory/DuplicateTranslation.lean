import UnedKernel.Memory.Duplicate

/-! # What a duplicate translates

`_duplicate_pd` gives the duplicate tables of its own at three levels, with the entries of
the original, and shares the tables of the last level. So an address of the range that is
duplicated leads to the same frame, through entries with the same permissions. -/

namespace UnedKernel.Memory
open BitField Radix

/-! ## The translation of an address -/

namespace Entry

/-- The entry maps a page itself. -/
def size (e : Entry) : Nat := field e 7 1

/-- The table of the next level under an entry. -/
def table (e : Entry) : Option Nat := if e.present = 0 ∨ e.size ≠ 0 then none else some e.pagePpn

end Entry

/-- The frame under entry `pde` of the third level and the permissions of the entries that
lead to it: the entry maps 2 MiB, or leads to a page table. -/
def translationBelow (m : Frames) (pde : Entry) (i : Nat) : Option (Nat × List Nat) :=
  if pde.present = 0 then none
  else if pde.size ≠ 0 then some (pde.pagePpn / 512 * 512 + i, [pde.perms])
  else
    let pte := m pde.pagePpn i
    if pte.present = 0 then none else some (pte.pagePpn, [pde.perms, pte.perms])

/-- The frame that an address leads to, with the permissions of each entry on the way. -/
def translation (m : Frames) (pml4 v : Nat) : Option (Nat × List Nat) :=
  let map := addressToMap v
  let pde := m pml4 map.PDP_i
  if pde.present = 0 then none
  else
    let pde' := m pde.pagePpn map.PD_i
    if pde'.present = 0 then none
    else
      (translationBelow m (m pde'.pagePpn map.PT_i) map.P_i).map fun r =>
        (r.1, pde.perms :: pde'.perms :: r.2)

/-- Frame `f` is a table of the directory, of one of the four levels. -/
def IsTable (m : Frames) (pml4 f : Nat) : Prop :=
  ∃ p : List Nat, p.length ≤ 3 ∧ (∀ i ∈ p, i < 512) ∧ walk Entry.table m pml4 p = some f

/-- Only entries of the third level map pages themselves. -/
def WithoutGiantPages (m : Frames) (pml4 : Nat) : Prop :=
  ∀ (p : List Nat) (f i : Nat), p.length ≤ 1 → (∀ j ∈ p, j < 512) → i < 512 →
    walk Entry.table m pml4 p = some f → (m f i).present ≠ 0 → (m f i).size = 0

/-- The next `n` pages that `request_page` returns: none is a table of `father`. -/
structure NewPages (s : PagingState) (father n : Nat) : Prop where
  nonzero : ∀ k, k < n → s.supply (s.next + k) ≠ 0
  aligned : ∀ k, k < n → s.supply (s.next + k) % PAGESIZE = 0
  small : ∀ k, k < n → s.supply (s.next + k) < 1099511627776
  distinct : ∀ j k, j < k → k < n → s.supply (s.next + j) ≠ s.supply (s.next + k)
  out : ∀ k, k < n → ¬ IsTable s.mem father (s.supply (s.next + k) >>> 12)

/-! ## Copies -/

/-- Entry `e'` of a copy: not present like `e`, or `e` with the frame of a page from `lo` to `hi`
for its table, where the one table is to the other as `R` says. -/
def EntryCopy (frame : Nat → Nat) (lo hi : Nat) (R : Nat → Nat → Prop) (e e' : Entry) : Prop :=
  (e.present = 0 ∧ e'.present = 0) ∨
    (e.present ≠ 0 ∧ ∃ x, lo ≤ x ∧ x < hi ∧ e' = e.setPagePpn (frame x) ∧ R e.pagePpn (frame x))

/-- Table `g` of `m` is a copy of table `f` of `m₀`, `d` levels deep. -/
def CopyOf (m₀ m : Frames) (frame : Nat → Nat) (lo hi : Nat) : Nat → Nat → Nat → Prop
  | 0, f, g => m g = m₀ f
  | d + 1, f, g => ∀ i, i < 512 → EntryCopy frame lo hi (CopyOf m₀ m frame lo hi d) (m₀ f i) (m g i)

section copies

variable {frame : Nat → Nat} {lo hi lo' hi' : Nat} {R R' : Nat → Nat → Prop} {e e' : Entry}

theorem EntryCopy.imp (h : EntryCopy frame lo hi R e e') (hlo : lo' ≤ lo) (hhi : hi ≤ hi')
    (hR : ∀ f x, lo ≤ x → x < hi → R f (frame x) → R' f (frame x)) :
    EntryCopy frame lo' hi' R' e e' := by
  rcases h with hdead | ⟨hlive, x, hxlo, hxhi, heq, hrel⟩
  · exact .inl hdead
  · exact .inr ⟨hlive, x, by omega, by omega, heq, hR _ x hxlo hxhi hrel⟩

/-- A copy stays one when its tables do. -/
theorem CopyOf.congr {m₀ m m' : Frames} {d f g : Nat} (h : CopyOf m₀ m frame lo hi d f g)
    (hlo : lo' ≤ lo) (hhi : hi ≤ hi') (hg : m' g = m g)
    (hsame : ∀ x, lo ≤ x → x < hi → m' (frame x) = m (frame x)) :
    CopyOf m₀ m' frame lo' hi' d f g := by
  induction d generalizing f g with
  | zero => exact hg.trans h
  | succ d ih =>
    intro i hi512
    rw [hg]
    exact (h i hi512).imp hlo hhi fun f x hxlo hxhi hcopy => ih hcopy (hsame x hxlo hxhi)

end copies

/-- What a loop over `n` entries of `old` from `j` on leaves in the copy `new`. -/
structure Looped (m₀ : Frames) (s t : PagingState) (d old new j n bound : Nat) : Prop
    extends Extends s t new bound where
  rest : ∀ i, i < j ∨ j + n ≤ i → t.mem new i = s.mem new i
  entries : ∀ i, j ≤ i → i < j + n → EntryCopy s.frame s.next t.next
    (CopyOf m₀ t.mem s.frame s.next t.next d) (m₀ old i) (t.mem new i)

/-- The pages with numbers from `base` to `limit` lie in frames of their own, none of them in `P`. -/
structure NewFrames (P : Nat → Prop) (supply : Nat → Nat) (base limit : Nat) : Prop where
  nonzero : ∀ x, base ≤ x → x < limit → supply x ≠ 0
  small : ∀ x, base ≤ x → x < limit → supply x >>> 12 < 268435456
  inj : ∀ x y, base ≤ x → x < limit → base ≤ y → y < limit → supply x >>> 12 = supply y >>> 12 →
    x = y
  out : ∀ x, base ≤ x → x < limit → ¬ P (supply x >>> 12)

namespace Looped

variable {m₀ : Frames} {s u t : PagingState} {d old new j n bound bound' base limit : Nat}
  {P : Nat → Prop}

theorem nil : Looped m₀ s s d old new j 0 0 :=
  ⟨⟨rfl, le_refl _, le_refl _, fun _ _ _ => rfl⟩, fun _ _ => rfl, fun i h h' => by omega⟩

theorem skip (hdead : (m₀ old j).present = 0) (hnew : (s.mem new j).present = 0)
    (h : Looped m₀ s t d old new (j + 1) n bound) :
    Looped m₀ s t d old new j (n + 1) (bound + bound') := by
  obtain ⟨⟨hsupply, hle, hbound, hsame⟩, hrest, hentries⟩ := h
  refine ⟨⟨hsupply, hle, by omega, hsame⟩, fun i hi => hrest i (by omega), fun i hlo hhi => ?_⟩
  by_cases hij : i = j
  · subst hij
    refine .inl ⟨hdead, ?_⟩
    rw [hrest i (.inl (Nat.lt_succ_self i))]
    exact hnew
  · exact hentries i (by omega) (by omega)

/-- The second part leaves the pages of the first one alone. -/
theorem cons (hframes : NewFrames P s.supply base limit) (hbase : base ≤ s.next)
    (hlimit : t.next ≤ limit) (hnew : ∀ x, s.next ≤ x → x < t.next → s.frame x ≠ new)
    (h₁ : Looped m₀ s u d old new j 1 bound') (h₂ : Looped m₀ u t d old new (j + 1) n bound) :
    Looped m₀ s t d old new j (n + 1) (bound + bound') := by
  obtain ⟨⟨hsupply₁, hle₁, hbound₁, hsame₁⟩, hrest₁, hentries₁⟩ := h₁
  obtain ⟨⟨hsupply₂, hle₂, hbound₂, hsame₂⟩, hrest₂, hentries₂⟩ := h₂
  have hframe : u.frame = s.frame := PagingState.frame_congr hsupply₁
  have hkeep : ∀ x, s.next ≤ x → x < u.next → t.mem (s.frame x) = u.mem (s.frame x) := by
    intro x hlo hhi
    refine hsame₂ _ (hnew x hlo (by omega)) fun y hylo hyhi heq => ?_
    rw [hframe] at heq
    have hxy := hframes.inj x y (by omega) (by omega) (by omega) (by omega) heq
    omega
  refine ⟨⟨hsupply₂.trans hsupply₁, by omega, by omega, fun f hf hx => ?_⟩, fun i hi => ?_,
    fun i hlo hhi => ?_⟩
  · rw [hsame₂ f hf fun x hlo hhi => hframe ▸ hx x (by omega) hhi,
      hsame₁ f hf fun x hlo hhi => hx x hlo (by omega)]
  · rw [hrest₂ i (by omega), hrest₁ i (by omega)]
  · by_cases hij : i = j
    · subst hij
      rw [hrest₂ i (.inl (Nat.lt_succ_self i))]
      exact (hentries₁ i (le_refl i) (by omega)).imp (le_refl _) hle₂ fun f x hxlo hxhi hcopy =>
        hcopy.congr (le_refl _) hle₂ (hkeep x hxlo hxhi) hkeep
    · have hentry := hentries₂ i (by omega) (by omega)
      rw [hframe] at hentry
      exact hentry.imp hle₁ (le_refl _) fun f x _ _ hcopy =>
        hcopy.congr hle₁ (le_refl _) rfl fun _ _ _ => rfl

end Looped

/-! ## The two loops -/

/-- The next page is a copy of table `pt`, and entry `j` of `new` is `e`. -/
theorem copyTable_mem {s u : PagingState} {new pt j : Nat} {e : Entry} (hne : s.frame s.next ≠ new)
    (hu : u = ⟨(s.mem.copy (s.frame s.next) pt).set new j e, s.supply, s.next + 1⟩) :
    u.mem (s.frame s.next) = s.mem pt ∧ u.mem new j = e ∧
      (∀ i, i ≠ j → u.mem new i = s.mem new i) ∧
      ∀ f, f ≠ new → f ≠ s.frame s.next → u.mem f = s.mem f := by
  have hout : ∀ g, g ≠ new → u.mem g = s.mem.copy (s.frame s.next) pt g := fun g hg => by
    rw [hu]
    exact funext fun k => Store.set_of_ne e (.inl hg)
  refine ⟨?_, ?_, fun i hi => ?_, fun f hf hx => ?_⟩
  · rw [hout _ hne, Store.copy_same]
  · rw [hu]
    exact Store.set_same new j e
  · rw [hu]
    exact (Store.set_of_ne e (.inr hi)).trans (congrFun (Store.copy_of_ne hne.symm) i)
  · rw [hout f hf, Store.copy_of_ne hx]

section loops

variable {m₀ : Frames} {P : Nat → Prop} {base limit old new j n : Nat} {s : PagingState}

/-- The tables in `P` are as they were, `old` is one of them, and the pages are not. -/
structure Ready (m₀ : Frames) (P : Nat → Prop) (base limit : Nat) (s : PagingState) (old new : Nat) :
    Prop where
  frames : NewFrames P s.supply base limit
  base : base ≤ s.next
  agree : ∀ f, P f → s.mem f = m₀ f
  source : P old
  target : ¬ P new
  apart : ∀ x, s.next ≤ x → x < limit → s.frame x ≠ new
  tables : ∀ i, i < 512 → (m₀ old i).present ≠ 0 → P (m₀ old i).pagePpn

/-- A loop leaves the tables in `P` alone. -/
theorem Ready.extends {t : PagingState} {bound : Nat} (h : Ready m₀ P base limit s old new)
    (he : Extends s t new bound) (hlimit : t.next ≤ limit) : Ready m₀ P base limit t old new := by
  have hle := he.le
  have hbase := h.base
  have hframe : t.frame = s.frame := PagingState.frame_congr he.supply
  refine ⟨he.supply ▸ h.frames, by omega, fun f hf => ?_, h.source, h.target, fun x hlo hhi => ?_, h.tables⟩
  · rw [he.same f (fun heq => h.target (heq ▸ hf)) fun x hlo hhi heq =>
      h.frames.out x (by omega) (by omega) (show P (s.frame x) from heq ▸ hf), h.agree f hf]
  · rw [hframe]
    exact h.apart x (by omega) hhi

/-- The table under entry `j` is copied to the next page. -/
theorem Ready.copyTable (h : Ready m₀ P base limit s old new) (hj : j < 512)
    (hlimit : s.next < limit) (hlive : (m₀ old j).present ≠ 0) : ∃ u,
    u = (⟨(s.mem.copy (s.frame s.next) (m₀ old j).pagePpn).set new j
      ((m₀ old j).setPagePpn (s.frame s.next)), s.supply, s.next + 1⟩ : PagingState) ∧
    Looped m₀ s u 0 old new j 1 1 ∧ u.next = s.next + 1 ∧
    u.mem (s.frame s.next) = m₀ (m₀ old j).pagePpn ∧
    u.mem new j = (m₀ old j).setPagePpn (s.frame s.next) := by
  obtain ⟨u, hu⟩ : ∃ u, u = (⟨(s.mem.copy (s.frame s.next) (m₀ old j).pagePpn).set new j
      ((m₀ old j).setPagePpn (s.frame s.next)), s.supply, s.next + 1⟩ : PagingState) := ⟨_, rfl⟩
  obtain ⟨hcopy, hentry, hrest, hsame⟩ := copyTable_mem (h.apart _ (le_refl _) hlimit) hu
  have hnext : u.next = s.next + 1 := by rw [hu]
  rw [h.agree _ (h.tables j hj hlive)] at hcopy
  refine ⟨u, hu, ⟨⟨by rw [hu], by omega, by omega, fun f hf hx => hsame f hf ?_⟩,
    fun i hi => hrest i (by omega), fun i hlo hhi => ?_⟩, hnext, hcopy, hentry⟩
  · exact hx s.next (le_refl _) (by omega)
  · obtain rfl : i = j := by omega
    exact .inr ⟨hlive, s.next, le_refl _, by omega, hentry, hcopy⟩

theorem duplicateTables_looped (h : Ready m₀ P base limit s old new)
    (hdead : ∀ i, j ≤ i → (m₀ old i).present = 0 → (s.mem new i).present = 0)
    (hj : j + n ≤ 512) (hlimit : s.next + n ≤ limit) :
    ∃ t, duplicateTables old new j n s = .ok t ∧ Looped m₀ s t 0 old new j n n := by
  induction n generalizing j s with
  | zero => exact ⟨s, rfl, .nil⟩
  | succ n ih =>
    have hsame : s.mem old = m₀ old := h.agree old h.source
    by_cases hlive : (m₀ old j).present = 0
    · have hrun : duplicateTables old new j (n + 1) s = duplicateTables old new (j + 1) n s := by
        rw [duplicateTables, hsame]
        exact if_pos hlive
      obtain ⟨t, ht, hlooped⟩ := @ih (j + 1) s h (fun i hi => hdead i (by omega)) (by omega) (by omega)
      exact ⟨t, hrun.trans ht, hlooped.skip hlive (hdead j (le_refl j) hlive)⟩
    · obtain ⟨u, hu, hone, hnext, hcopy, -⟩ := h.copyTable (by omega) (by omega) hlive
      have hready := h.extends hone.toExtends (by omega)
      have hrun : duplicateTables old new j (n + 1) s = duplicateTables old new (j + 1) n u := by
        have hsource := hready.agree _ (h.tables j (by omega) hlive)
        have hentries : copyEntries (m₀ old j).pagePpn (s.frame s.next) 0 512 u.mem = u.mem :=
          copyEntries_eq (hcopy.trans hsource.symm)
        have hstate : (⟨copyEntries (m₀ old j).pagePpn (s.frame s.next) 0 512 u.mem, u.supply,
            u.next⟩ : PagingState) = u := by rw [hentries]
        rw [duplicateTables, hsame]
        refine (if_neg hlive).trans ?_
        rw [requestPage, if_neg (h.frames.nonzero s.next h.base (by omega)), ← hstate, hu]
        rfl
      obtain ⟨t, ht, hlooped⟩ := @ih (j + 1) u hready (fun i hi hi' => by
        rw [hone.rest i (by omega)]
        exact hdead i (by omega) hi') (by omega) (by omega)
      have hbound := hlooped.bound
      exact ⟨t, hrun.trans ht, .cons h.frames h.base (by omega)
        (fun x hlo hhi => h.apart x hlo (by omega)) hone hlooped⟩

/-- The tables of the next level but one are in `P`, too. -/
def TablesBelow (m₀ : Frames) (P : Nat → Prop) (old : Nat) : Prop :=
  ∀ i k, i < 512 → k < 512 → (m₀ old i).present ≠ 0 → (m₀ (m₀ old i).pagePpn k).present ≠ 0 →
    P (m₀ (m₀ old i).pagePpn k).pagePpn

/-- A directory is copied to the next page, and its tables to the pages after. -/
theorem Ready.copyDirectory {u : PagingState} (h : Ready m₀ P base limit s old new)
    (hbelow : TablesBelow m₀ P old) (hj : j < 512) (hlimit : s.next + 513 ≤ limit)
    (hlive : (m₀ old j).present ≠ 0) (hone : Looped m₀ s u 0 old new j 1 1)
    (hnext : u.next = s.next + 1) (hcopy : u.mem (s.frame s.next) = m₀ (m₀ old j).pagePpn)
    (hentry : u.mem new j = (m₀ old j).setPagePpn (s.frame s.next)) :
    ∃ v, duplicateTables (m₀ old j).pagePpn (s.frame s.next) 0 512 u = .ok v ∧
      Looped m₀ s v 1 old new j 1 513 := by
  have hbase := h.base
  have hready := h.extends hone.toExtends (by omega)
  have hframe : u.frame = s.frame := PagingState.frame_congr hone.supply
  have hpd : P (m₀ old j).pagePpn := h.tables j hj hlive
  have hinner : Ready m₀ P base limit u (m₀ old j).pagePpn (s.frame s.next) := by
    refine ⟨hready.frames, hready.base, hready.agree, hpd, h.frames.out _ hbase (by omega),
      fun x hlo hhi heq => ?_, fun k hk hk' => hbelow j k hj hk hlive hk'⟩
    rw [hframe] at heq
    have hx := h.frames.inj x s.next (by omega) hhi hbase (by omega) heq
    omega
  obtain ⟨v, hv, hlooped⟩ := @duplicateTables_looped m₀ P base limit _ _ 0 512 u hinner
    (fun i _ hi => by rwa [hcopy]) (le_refl _) (by omega)
  have hle := hlooped.le
  have hbound := hlooped.bound
  have hsupply : v.supply = s.supply := hlooped.supply.trans hone.supply
  -- the loop over the tables leaves `new` alone
  have hnew : v.mem new = u.mem new := by
    refine hlooped.same new (fun heq => h.apart s.next (le_refl _) (by omega) heq.symm)
      fun x hlo hhi heq => ?_
    rw [hframe] at heq
    exact h.apart x (by omega) (by omega) heq.symm
  refine ⟨v, hv, ⟨hsupply, by omega, by omega, fun f hf hx => ?_⟩, fun i hi => ?_, fun i hlo hhi => ?_⟩
  · rw [hlooped.same f (hx s.next (le_refl _) (by omega)) fun x hlo hhi =>
      hframe ▸ hx x (by omega) hhi]
    refine hone.same f hf fun x hlo hhi => hx x hlo (by omega)
  · rw [hnew]
    exact hone.rest i hi
  · obtain rfl : i = j := by omega
    rw [hnew]
    refine .inr ⟨hlive, s.next, le_refl _, by omega, hentry, fun k hk => ?_⟩
    have hk' := hlooped.entries k (Nat.zero_le k) (by omega)
    rw [hframe] at hk'
    exact hk'.imp (by omega) (le_refl _) fun f x _ _ hcopied => hcopied

theorem duplicateDirectories_looped (h : Ready m₀ P base limit s old new)
    (hbelow : TablesBelow m₀ P old)
    (hdead : ∀ i, j ≤ i → (m₀ old i).present = 0 → (s.mem new i).present = 0)
    (hj : j + n ≤ 512) (hlimit : s.next + 513 * n ≤ limit) :
    ∃ t, duplicateDirectories old new j n s = .ok t ∧ Looped m₀ s t 1 old new j n (513 * n) := by
  induction n generalizing j s with
  | zero => exact ⟨s, rfl, .nil⟩
  | succ n ih =>
    rw [Nat.mul_succ] at hlimit ⊢
    generalize 513 * n = pages at ih hlimit ⊢
    rw [Nat.add_comm pages 513, ← Nat.add_assoc] at hlimit
    have hsame : s.mem old = m₀ old := h.agree old h.source
    by_cases hlive : (m₀ old j).present = 0
    · have hrun : duplicateDirectories old new j (n + 1) s =
          duplicateDirectories old new (j + 1) n s := by
        rw [duplicateDirectories, hsame]
        exact if_pos hlive
      obtain ⟨t, ht, hlooped⟩ := @ih (j + 1) s h (fun i hi => hdead i (by omega)) (by omega) (by omega)
      exact ⟨t, hrun.trans ht, hlooped.skip hlive (hdead j (le_refl j) hlive)⟩
    · obtain ⟨u, hu, hone, hnext, hcopy, hentry⟩ := h.copyTable (by omega) (by omega) hlive
      obtain ⟨v, hv, hdir⟩ := h.copyDirectory hbelow (by omega) (by omega) hlive hone hnext hcopy hentry
      have hle := hdir.bound
      have hrun : duplicateDirectories old new j (n + 1) s =
          duplicateDirectories old new (j + 1) n v := by
        rw [duplicateDirectories, hsame]
        refine (if_neg hlive).trans ?_
        rw [requestPage, if_neg (h.frames.nonzero s.next h.base (by omega))]
        rw [hu] at hv
        exact bind_ok hv _
      obtain ⟨t, ht, hlooped⟩ := @ih (j + 1) v (h.extends hdir.toExtends (by omega)) (fun i hi hi' => by
        rw [hdir.rest i (by omega)]
        exact hdead i (by omega) hi') (by omega) (by omega)
      have hbound := hlooped.bound
      exact ⟨t, hrun.trans ht, .cons h.frames h.base (by omega)
        (fun x hlo hhi => h.apart x hlo (by omega)) hdir hlooped⟩

end loops

/-! ## The same translation -/

/-- What an entry that leads to another table keeps. -/
theorem EntryCopy.cases {frame : Nat → Nat} {lo hi : Nat} {R : Nat → Nat → Prop} {e e' : Entry}
    (h : EntryCopy frame lo hi R e e') (hsmall : ∀ x, lo ≤ x → x < hi → frame x < 268435456) :
    (e.present = 0 ∧ e'.present = 0) ∨
      (e.present ≠ 0 ∧ e'.present ≠ 0 ∧ e'.perms = e.perms ∧ R e.pagePpn e'.pagePpn) := by
  rcases h with hdead | ⟨hlive, x, hlo, hhi, rfl, hR⟩
  · exact .inl hdead
  · have hkeep : ∀ b, b + 1 ≤ 12 ∨ 40 ≤ b → field (e.setPagePpn (frame x)) b 1 = field e b 1 :=
      fun b hb => field_setField_apart e (frame x) (by decide) (by omega)
    have hppn : (e.setPagePpn (frame x)).pagePpn = frame x :=
      (field_setField_same e (frame x) (by decide)).trans (Nat.mod_eq_of_lt (hsmall x hlo hhi))
    refine .inr ⟨hlive, ?_, ?_, by rwa [hppn]⟩
    · rw [Entry.present, hkeep 0 (by decide)]
      exact hlive
    · simp only [Entry.perms, Entry.writeable, Entry.userAccess, Entry.executionDisabled,
        Entry.cacheDisabled]
      rw [hkeep 1 (by decide), hkeep 2 (by decide), hkeep 63 (by decide), hkeep 4 (by decide)]

theorem addressToMap_lt (v : Nat) : (addressToMap v).PDP_i < 512 ∧ (addressToMap v).PD_i < 512 ∧
    (addressToMap v).PT_i < 512 ∧ (addressToMap v).P_i < 512 := by
  rw [addressToMap_eq]
  exact ⟨Nat.mod_lt _ (by decide), Nat.mod_lt _ (by decide), Nat.mod_lt _ (by decide),
    Nat.mod_lt _ (by decide)⟩

/-- `virtual_to_physical` of an address that no large page maps. -/
theorem virtualToPhysical_translation (m : Frames) (pml4 v : Nat) :
    (translation m pml4 v = none → virtualToPhysical m pml4 v = 0) ∧
      ∀ f perms, translation m pml4 v = some (f, perms) → perms.length = 4 →
        virtualToPhysical m pml4 v = f <<< 12 := by
  simp only [translation, virtualToPhysical, translationBelow]
  generalize addressToMap v = map
  by_cases h4 : (m pml4 map.PDP_i).present = 0
  · simp [h4]
  generalize (m pml4 map.PDP_i) = e4 at h4 ⊢
  by_cases h3 : (m e4.pagePpn map.PD_i).present = 0
  · simp [h4, h3]
  generalize (m e4.pagePpn map.PD_i) = e3 at h3 ⊢
  by_cases h2 : (m e3.pagePpn map.PT_i).present = 0
  · simp [h4, h3, h2]
  generalize (m e3.pagePpn map.PT_i) = e2 at h2 ⊢
  by_cases hsize : e2.size = 0
  · by_cases h1 : (m e2.pagePpn map.P_i).present = 0
    · simp [h4, h3, h2, h1, hsize]
    · simp only [h4, h3, h2, h1, hsize, if_false, ne_eq, not_true_eq_false, Option.map_some,
        Option.some.injEq, Prod.mk.injEq, reduceCtorEq, false_implies, true_and]
      rintro f perms ⟨hf, -⟩ -
      rw [hf]
  · simp only [h4, h3, h2, hsize, if_false, ne_eq, not_false_eq_true, if_true, Option.map_some,
      Option.some.injEq, Prod.mk.injEq, reduceCtorEq, false_implies, true_and]
    rintro f perms ⟨-, hperms⟩ hlen
    rw [← hperms] at hlen
    cases hlen

/-- No large page maps the address. -/
def OnSmallPage (m : Frames) (pml4 v : Nat) : Prop :=
  ∀ f perms, translation m pml4 v = some (f, perms) → perms.length = 4

theorem virtualToPhysical_congr {m m' : Frames} {pml4 pml4' v : Nat}
    (h : translation m' pml4' v = translation m pml4 v) (hv : OnSmallPage m pml4 v) :
    virtualToPhysical m' pml4' v = virtualToPhysical m pml4 v := by
  obtain ⟨hnone, hsome⟩ := virtualToPhysical_translation m pml4 v
  obtain ⟨hnone', hsome'⟩ := virtualToPhysical_translation m' pml4' v
  cases ht : translation m pml4 v with
  | none => rw [hnone ht, hnone' (h.trans ht)]
  | some r => rw [hsome _ _ ht (hv _ _ ht), hsome' _ _ (h.trans ht) (hv _ _ ht)]

section father

variable {m m' : Frames} {father : Nat}

theorem IsTable.root : IsTable m father father := ⟨[], by decide, by simp, rfl⟩

/-- The table under an entry of a table of the upper levels. -/
theorem isTable_concat {p : List Nat} {f i : Nat} (hp : p.length ≤ 2) (hp' : ∀ j ∈ p, j < 512)
    (hi : i < 512) (hw : walk Entry.table m father p = some f) (hlive : (m f i).present ≠ 0)
    (hsize : (m f i).size = 0) :
    walk Entry.table m father (p ++ [i]) = some (m f i).pagePpn ∧
      (∀ j ∈ p ++ [i], j < 512) ∧ IsTable m father (m f i).pagePpn := by
  have hwalk : walk Entry.table m father (p ++ [i]) = some (m f i).pagePpn := by
    rw [walk_concat hw, Entry.table, if_neg]
    intro h
    exact h.elim hlive fun hne => hne hsize
  have hlt : ∀ j ∈ p ++ [i], j < 512 := fun j hj => by
    rcases List.mem_append.mp hj with hj | hj
    · exact hp' j hj
    · rwa [List.mem_singleton.mp hj]
  exact ⟨hwalk, hlt, p ++ [i], by simp; omega, hlt, hwalk⟩

/-- The tables of the two levels below the root. -/
theorem WithoutGiantPages.tables (h : WithoutGiantPages m father) {i : Nat} (hi : i < 512)
    (hlive : (m father i).present ≠ 0) : IsTable m father (m father i).pagePpn ∧
    ∀ k, k < 512 → (m (m father i).pagePpn k).present ≠ 0 →
      IsTable m father (m (m father i).pagePpn k).pagePpn ∧
      ∀ l, l < 512 → (m (m (m father i).pagePpn k).pagePpn l).present ≠ 0 →
        (m (m (m father i).pagePpn k).pagePpn l).size = 0 →
        IsTable m father (m (m (m father i).pagePpn k).pagePpn l).pagePpn := by
  obtain ⟨hw, hlt, htable⟩ := @isTable_concat m father [] father i (by decide) (by simp) hi rfl hlive
    (h [] father i (by decide) (by simp) hi rfl hlive)
  refine ⟨htable, fun k hk hlive' => ?_⟩
  obtain ⟨hw', hlt', htable'⟩ := isTable_concat (by simp) hlt hk hw hlive'
    (h _ _ k (by simp) hlt hk hw hlive')
  exact ⟨htable', fun l hl hlive'' hsize =>
    (isTable_concat (by simp) hlt' hl hw' hlive'' hsize).2.2⟩

theorem translationBelow_congr {e : Entry} {i : Nat}
    (h : e.present ≠ 0 → e.size = 0 → m' e.pagePpn = m e.pagePpn) :
    translationBelow m' e i = translationBelow m e i := by
  unfold translationBelow
  by_cases hlive : e.present = 0
  · rw [if_pos hlive, if_pos hlive]
  by_cases hsize : e.size = 0
  · rw [h hlive hsize]
  · rw [if_neg hlive, if_neg hlive, if_pos hsize, if_pos hsize]

end father

/-- The directory `pml` translates the addresses of the range as `father` does, and no others. -/
structure Translates (s t : PagingState) (father pml start stop : Nat) : Prop where
  inside : ∀ v, start ≤ (addressToMap v).PDP_i → (addressToMap v).PDP_i < stop →
    translation t.mem pml v = translation s.mem father v ∧
      (OnSmallPage s.mem father v → virtualToPhysical t.mem pml v = virtualToPhysical s.mem father v)
  outside : ∀ v, (addressToMap v).PDP_i < start ∨ stop ≤ (addressToMap v).PDP_i →
    translation t.mem pml v = none ∧ virtualToPhysical t.mem pml v = 0
  tables : ∀ f, IsTable s.mem father f → t.mem f = s.mem f
  original : ∀ v, translation t.mem father v = translation s.mem father v

theorem NewPages.newFrames {s : PagingState} {father n : Nat} (h : NewPages s father n) :
    NewFrames (IsTable s.mem father) s.supply s.next (s.next + n) := by
  have hne : ∀ j k, j < k → k < n → s.supply (s.next + j) >>> 12 ≠ s.supply (s.next + k) >>> 12 := by
    intro j k hj hk
    have haj := h.aligned j (by omega)
    have hak := h.aligned k hk
    have hdistinct := h.distinct j k hj hk
    simp only [Nat.shiftRight_eq_div_pow]
    unfold PAGESIZE at haj hak
    omega
  refine ⟨fun x hlo hhi => ?_, fun x hlo hhi => ?_, fun x y hxlo hxhi hylo hyhi heq => ?_,
    fun x hlo hhi => ?_⟩
  · obtain ⟨k, rfl⟩ := Nat.exists_eq_add_of_le hlo
    exact h.nonzero k (by omega)
  · obtain ⟨k, rfl⟩ := Nat.exists_eq_add_of_le hlo
    have hsmall := h.small k (by omega)
    rw [Nat.shiftRight_eq_div_pow]
    omega
  · obtain ⟨j, rfl⟩ := Nat.exists_eq_add_of_le hxlo
    obtain ⟨k, rfl⟩ := Nat.exists_eq_add_of_le hylo
    rcases Nat.lt_trichotomy j k with hlt | rfl | hlt
    · exact absurd heq (hne j k hlt (by omega))
    · rfl
    · exact absurd heq.symm (hne k j hlt (by omega))
  · obtain ⟨k, rfl⟩ := Nat.exists_eq_add_of_le hlo
    exact h.out k (by omega)

/-- The duplicate is made, with copies of two levels in pages of its own. -/
theorem duplicatePd_looped {s : PagingState} {father start stop : Nat}
    (hwf : WithoutGiantPages s.mem father) (hpages : NewPages s father duplicatePages)
    (hle : start ≤ stop) (hstop : stop ≤ 512) : ∃ u t,
      duplicatePd s father start stop = .ok (s.frame s.next, t) ∧
      (∀ i, u.mem (s.frame s.next) i = 0) ∧ u.frame = s.frame ∧ s.next ≤ u.next ∧
      t.next ≤ s.next + duplicatePages ∧
      Ready s.mem (IsTable s.mem father) s.next (s.next + duplicatePages) u father (s.frame s.next) ∧
      Looped s.mem u t 1 father (s.frame s.next) start (stop - start) (513 * (stop - start)) := by
  have hframes := hpages.newFrames
  obtain ⟨u, hu⟩ : ∃ u : PagingState, u = ⟨s.mem.fill (s.frame s.next) 0, s.supply, s.next + 1⟩ :=
    ⟨_, rfl⟩
  have hnext : u.next = s.next + 1 := by rw [hu]
  have hframe : u.frame = s.frame := PagingState.frame_congr (by rw [hu])
  have hzero : ∀ i, u.mem (s.frame s.next) i = 0 := fun i => by
    rw [hu]
    exact Store.fill_same _ i 0
  have hbudget : 513 * (stop - start) ≤ 262656 :=
    Nat.mul_le_mul_left 513 (show stop - start ≤ 512 by omega)
  have hroom : s.next < s.next + duplicatePages := by
    unfold duplicatePages
    omega
  have hout : ¬ IsTable s.mem father (s.frame s.next) := hframes.out _ (le_refl _) hroom
  have hready : Ready s.mem (IsTable s.mem father) s.next (s.next + duplicatePages) u father
      (s.frame s.next) := by
    refine ⟨by rw [hu]; exact hframes, by omega, fun f hf => ?_, IsTable.root, hout,
      fun x hlo hhi heq => ?_, fun i hi hlive => (hwf.tables hi hlive).1⟩
    · rw [hu]
      exact funext fun i => Store.fill_of_ne i 0 fun heq => hout (heq ▸ hf)
    · rw [hframe] at heq
      have hx := hframes.inj x s.next (by omega) hhi (le_refl _) hroom heq
      omega
  have hlimit : u.next + 513 * (stop - start) ≤ s.next + duplicatePages := by
    rw [hnext]
    unfold duplicatePages
    generalize 513 * (stop - start) = pages at hbudget ⊢
    omega
  obtain ⟨t, ht, hlooped⟩ := @duplicateDirectories_looped s.mem _ s.next _ father (s.frame s.next)
    start (stop - start) u hready
    (fun i k hi hk hlive hlive' => ((hwf.tables hi hlive).2 k hk hlive').1)
    (fun i _ _ => by rw [hzero]; exact show field (0 : Entry) 0 1 = 0 by decide) (by omega) hlimit
  refine ⟨u, t, ?_, hzero, hframe, by omega, Nat.le_trans hlooped.bound hlimit, hready, hlooped⟩
  rw [duplicatePd, requestPage, if_neg (hframes.nonzero _ (le_refl _) hroom)]
  rw [hu] at ht
  exact bind_ok ht _

/-- For tables without 1-GiB pages and pages of its own, the duplicate of a range translates
exactly the addresses of the range, to the frames and with the permissions of the original,
which stays as it is. -/
theorem duplicate_translates {s : PagingState} {father start stop : Nat}
    (hwf : WithoutGiantPages s.mem father) (hpages : NewPages s father duplicatePages)
    (hle : start ≤ stop) (hstop : stop ≤ 512) : ∃ pml t,
      duplicatePd s father start stop = .ok (pml, t) ∧ Translates s t father pml start stop := by
  obtain ⟨u, t, ht, hzero, hframe, hnext, hlimit, hready, hlooped⟩ :=
    duplicatePd_looped hwf hpages hle hstop
  have hagree : ∀ f, IsTable s.mem father f → t.mem f = s.mem f :=
    (hready.extends hlooped.toExtends hlimit).agree
  have hsmall : ∀ x, u.next ≤ x → x < t.next → u.frame x < 268435456 := fun x hlo hhi => by
    rw [hframe]
    exact hpages.newFrames.small x (by omega) (by omega)
  have hinside : ∀ v, start ≤ (addressToMap v).PDP_i → (addressToMap v).PDP_i < stop →
      translation t.mem (s.frame s.next) v = translation s.mem father v := fun v hlo hhi => by
    obtain ⟨h4, h3, h2, -⟩ := addressToMap_lt v
    simp only [translation]
    generalize addressToMap v = map at *
    rcases (hlooped.entries map.PDP_i hlo (by omega)).cases hsmall with ⟨hdead, hdead'⟩ |
      ⟨hlive, hlive', hperms, hcopy⟩
    · rw [if_pos hdead, if_pos hdead']
    rw [if_neg hlive, if_neg hlive', hperms]
    rcases (hcopy map.PD_i h3).cases hsmall with ⟨hdead, hdead'⟩ | ⟨hlive₁, hlive₁', hperms₁, hsame⟩
    · rw [if_pos hdead, if_pos hdead']
    rw [if_neg hlive₁, if_neg hlive₁', hperms₁, hsame]
    have hbelow := ((hwf.tables h4 hlive).2 map.PD_i h3 hlive₁).2 map.PT_i h2
    rw [translationBelow_congr fun hlive₂ hsize => hagree _ (hbelow hlive₂ hsize)]
  refine ⟨s.frame s.next, t, ht, fun v hlo hhi => ?_, fun v hv => ?_, hagree, fun v => ?_⟩
  · exact ⟨hinside v hlo hhi, virtualToPhysical_congr (hinside v hlo hhi)⟩
  · have hroot : t.mem (s.frame s.next) (addressToMap v).PDP_i = 0 := by
      rw [hlooped.rest _ (by omega), hzero]
    have hnone : translation t.mem (s.frame s.next) v = none := by
      simp only [translation, hroot]
      exact if_pos (by decide)
    exact ⟨hnone, (virtualToPhysical_translation _ _ v).1 hnone⟩
  · obtain ⟨h4, h3, h2, -⟩ := addressToMap_lt v
    simp only [translation]
    generalize addressToMap v = map at *
    rw [hagree father IsTable.root]
    by_cases hlive : (s.mem father map.PDP_i).present = 0
    · rw [if_pos hlive, if_pos hlive]
    obtain ⟨hpd, hpds⟩ := hwf.tables h4 hlive
    rw [if_neg hlive, if_neg hlive, hagree _ hpd]
    by_cases hlive₁ : (s.mem (s.mem father map.PDP_i).pagePpn map.PD_i).present = 0
    · rw [if_pos hlive₁, if_pos hlive₁]
    obtain ⟨hpt, hpts⟩ := hpds map.PD_i h3 hlive₁
    rw [if_neg hlive₁, if_neg hlive₁, hagree _ hpt,
      translationBelow_congr fun hlive₂ hsize => hagree _ (hpts map.PT_i h2 hlive₂ hsize)]

/-- Frames 0 to 3 hold the tables of address 0, which is mapped to frame 4. -/
def onePage : PagingState where
  mem f i := if f < 4 ∧ i = 0 then BitVec.ofNat 64 ((f + 1) <<< 12 ||| 1) else 0
  supply x := (x + 16) * 4096
  next := 0

theorem onePage_table {f i c : Nat} (h : Entry.table (onePage.mem f i) = some c) : c = f + 1 ∧ f < 4 := by
  simp only [onePage] at h
  split at h
  · rename_i hf
    obtain ⟨hf, -⟩ := hf
    have hall : ∀ g, g < 4 → Entry.table (BitVec.ofNat 64 ((g + 1) <<< 12 ||| 1)) = some (g + 1) := by
      decide
    rw [hall f hf] at h
    exact ⟨(Option.some.inj h).symm, hf⟩
  · rw [show Entry.table 0 = none by decide] at h
    cases h

theorem onePage_walk {p : List Nat} {r f : Nat} (hr : r < 5)
    (h : walk Entry.table onePage.mem r p = some f) : f < 5 := by
  induction p generalizing r with
  | nil => exact Option.some.inj h ▸ hr
  | cons i p ih =>
    obtain ⟨c, hc, hw⟩ := Option.bind_eq_some_iff.mp h
    obtain ⟨rfl, hlt⟩ := onePage_table hc
    exact ih (by omega) hw

theorem onePage_withoutGiants : WithoutGiantPages onePage.mem 0 := by
  intro p f i _ _ _ _ _
  simp only [onePage]
  split
  · rename_i hf
    have hall : ∀ g, g < 4 → Entry.size (BitVec.ofNat 64 ((g + 1) <<< 12 ||| 1)) = 0 := by decide
    exact hall f hf.1
  · decide

theorem onePage_newPages (n : Nat) (hn : n ≤ 268435440) : NewPages onePage 0 n := by
  have hsupply : ∀ k, onePage.supply (onePage.next + k) = (k + 16) * 4096 := fun k => by
    show (0 + k + 16) * 4096 = _
    rw [Nat.zero_add]
  refine ⟨fun k hk => ?_, fun k hk => ?_, fun k hk => ?_, fun j k hj hk => ?_, fun k hk hin => ?_⟩
  · rw [hsupply]
    omega
  · rw [hsupply]
    unfold PAGESIZE
    omega
  · rw [hsupply]
    omega
  · rw [hsupply, hsupply]
    omega
  · obtain ⟨p, -, -, hw⟩ := hin
    have hlt := onePage_walk (by decide) hw
    rw [hsupply, Nat.shiftRight_eq_div_pow] at hlt
    omega

theorem duplicate_translates_onePage : translation onePage.mem 0 0 = some (4, [0, 0, 0, 0]) ∧
    ∃ pml t, duplicatePd onePage 0 0 512 = .ok (pml, t) ∧ Translates onePage t 0 pml 0 512 :=
  ⟨by decide, duplicate_translates onePage_withoutGiants (onePage_newPages _ (by decide)) (by decide)
    (by decide)⟩

end UnedKernel.Memory
