import Mathlib.Data.List.Pairwise
import UnedKernel.Proc.LoaderTask

/-! # The memory image of a program

`elf_load_elf` loads the segments one after the other, each page into a new
frame. A page of several segments is loaded once for each, and shows what the
last of them put there. -/

namespace UnedKernel.Proc
open ByteMem Word Memory Radix

/-! ## The pages of a segment -/

namespace Phdr

/-- `allocate_segment` loads page `n`. -/
def Loads (ph : Phdr) (n : Nat) : Prop :=
  ph.type = PT_LOAD ∧ ∃ i, i < ph.pageNo ∧ pageNumber (u64 (ph.page + i * PAGESIZE)) = n

instance (ph : Phdr) (n : Nat) : Decidable (ph.Loads n) :=
  inferInstanceAs (Decidable (_ ∧ ∃ i, i < _ ∧ _))

/-- The byte that the file describes at `vaddr + k`. -/
def imageByte (ph : Phdr) (file : Bytes) (k : Nat) : Byte :=
  if k < ph.filesz then file (ph.offset + k) else 0

/-- A segment of the user half with at least as many bytes in memory as in the file. -/
structure UserSegment (ph : Phdr) : Prop where
  filesz : ph.filesz ≤ ph.memsz
  high : ph.vaddr + ph.memsz ≤ USERLAND_END

/-- The byte ranges of two segments share no address. -/
def RangesApart (p q : Phdr) : Prop :=
  ∀ v, p.vaddr ≤ v → v < p.vaddr + p.memsz → ¬ (q.vaddr ≤ v ∧ v < q.vaddr + q.memsz)

variable {ph : Phdr} {file : Bytes} {i k n v : Nat}

theorem perms_mod (ph : Phdr) : ph.perms % 16 = ph.perms := by
  unfold perms
  split
  · split
    · rfl
    · rfl
  · split
    · rfl
    · rfl

theorem perms_user (ph : Phdr) : ph.perms &&& PAGE_USER_BIT ≠ 0 := by
  unfold perms
  split
  · split
    · decide
    · decide
  · split
    · decide
    · decide

theorem perms_write (ph : Phdr) : ph.perms &&& PAGE_WRITE_BIT ≠ 0 ↔ ph.flags &&& PF_W ≠ 0 := by
  unfold perms
  by_cases hw : ph.flags &&& PF_W ≠ 0
  · refine iff_of_true ?_ hw
    simp only [if_pos hw]
    split
    · decide
    · decide
  · refine iff_of_false ?_ hw
    simp only [if_neg hw]
    split
    · decide
    · decide

theorem perms_execute (ph : Phdr) : ph.perms &&& PAGE_NX_BIT = 0 ↔ ph.flags &&& PF_X ≠ 0 := by
  unfold perms
  by_cases hx : ph.flags &&& PF_X = 0
  · refine iff_of_false ?_ (not_not_intro hx)
    simp only [if_pos hx]
    split
    · decide
    · decide
  · refine iff_of_true ?_ hx
    simp only [if_neg hx]
    split
    · decide
    · decide

theorem page_add (ph : Phdr) : ph.page + ph.vaddrOffset = ph.vaddr :=
  Nat.sub_add_cancel (Nat.mod_le _ _)

theorem page_mod (ph : Phdr) : ph.page % PAGESIZE = 0 := by
  have := ph.page_add
  unfold vaddrOffset at this
  unfold PAGESIZE
  omega

namespace UserSegment

theorem totalSize (h : ph.UserSegment) : ph.totalSize = ph.memsz + ph.vaddrOffset := by
  have hhigh := h.high
  have hpage := ph.page_add
  unfold USERLAND_END at hhigh
  unfold Phdr.totalSize
  exact u64_of_lt (by omega)

/-- A page that is loaded lies below the end of the segment. -/
theorem below (h : ph.UserSegment) (hi : i < ph.pageNo) :
    ph.page + i * PAGESIZE < USERLAND_END := by
  have hhigh := h.high
  have hpage := ph.page_add
  have htotal := h.totalSize
  unfold pageNo at hi
  unfold PAGESIZE
  unfold USERLAND_END at hhigh ⊢
  split at hi <;> omega

theorem pageNumber_eq (h : ph.UserSegment) (hi : i < ph.pageNo) :
    pageNumber (u64 (ph.page + i * PAGESIZE)) = ph.page / PAGESIZE + i := by
  have hlow := h.below hi
  have hpage := ph.page_mod
  unfold USERLAND_END at hlow
  rw [u64_of_lt (by omega)]
  unfold pageNumber
  unfold PAGESIZE at *
  omega

theorem loads_iff (h : ph.UserSegment) : ph.Loads n ↔ ph.type = PT_LOAD ∧
    ∃ i, i < ph.pageNo ∧ n = ph.page / PAGESIZE + i := by
  refine and_congr_right fun _ => exists_congr fun i => and_congr_right fun hi => ?_
  rw [h.pageNumber_eq hi]
  exact eq_comm

/-- The page of every byte of the segment is loaded. -/
theorem loads_byte (h : ph.UserSegment) (hload : ph.type = PT_LOAD) (hk : k < ph.memsz) :
    ph.Loads ((ph.vaddr + k) / PAGESIZE) := by
  have hpage := ph.page_add
  have hmod := ph.page_mod
  have htotal := h.totalSize
  refine h.loads_iff.mpr ⟨hload, (ph.vaddr + k) / PAGESIZE - ph.page / PAGESIZE, ?_, ?_⟩
  · unfold pageNo
    unfold PAGESIZE at *
    split <;> omega
  · unfold PAGESIZE at *
    omega

theorem pageNumber_byte (h : ph.UserSegment) (hk : k < ph.memsz) :
    pageNumber (ph.vaddr + k) = (ph.vaddr + k) / PAGESIZE :=
  pageNumber_of_lt (Nat.lt_of_lt_of_le (Nat.add_lt_add_left hk _) h.high)

end UserSegment

/-- The buffer of a segment holds its bytes, with zeros around them. -/
theorem completeBuffer_eq (file : Bytes) (hv : ph.page ≤ v) : ph.completeBuffer file (v - ph.page) =
    if ph.vaddr ≤ v ∧ v < ph.vaddr + ph.filesz then file (ph.offset + (v - ph.vaddr)) else 0 := by
  have hpage := ph.page_add
  by_cases hin : ph.vaddr ≤ v ∧ v < ph.vaddr + ph.filesz
  · rw [if_pos hin, completeBuffer, copy_apply_in _ _ (by omega) (by omega)]
    exact congrArg file (by omega)
  · rw [if_neg hin, completeBuffer, copy_apply_out _ _ (by omega)]

end Phdr

/-- The last of the program headers that loads page `n`. -/
def lastLoader (n : Nat) : List Phdr → Option Phdr
  | [] => none
  | ph :: phs =>
    match lastLoader n phs with
    | some q => some q
    | none => if ph.Loads n then some ph else none

theorem lastLoader_loads {n : Nat} {phs : List Phdr} {q : Phdr} (h : lastLoader n phs = some q) :
    q ∈ phs ∧ q.Loads n := by
  induction phs with
  | nil => cases h
  | cons ph phs ih =>
    rw [lastLoader] at h
    cases hlast : lastLoader n phs with
    | some x =>
      rw [hlast] at h
      obtain ⟨hmem, hloads⟩ := ih (hlast.trans h)
      exact ⟨List.mem_cons_of_mem ph hmem, hloads⟩
    | none =>
      simp only [hlast] at h
      split at h
      · rename_i hloads
        cases h
        exact ⟨List.mem_cons_self, hloads⟩
      · cases h

theorem lastLoader_none {n : Nat} {phs : List Phdr} (h : lastLoader n phs = none) :
    ∀ ph ∈ phs, ¬ ph.Loads n := by
  induction phs with
  | nil => exact fun ph hph => absurd hph List.not_mem_nil
  | cons ph phs ih =>
    rw [lastLoader] at h
    cases hlast : lastLoader n phs with
    | some x => rw [hlast] at h; cases h
    | none =>
      simp only [hlast] at h
      intro q hq
      rcases List.mem_cons.mp hq with rfl | hq
      · intro hloads
        rw [if_pos hloads] at h
        cases h
      · exact ih hlast q hq

/-! ## Loading one page -/

/-- The current directory maps page `j` of the supply where `TO_KERNEL_MAP` looks for it. -/
def DirectMapped (s : PagingState) (current j : Nat) : Prop :=
  ∃ x, mappingOf s.mem current (pageNumber (u64 (IDENTITY_MAP_START + s.supply j))) = some x ∧
    x.frame = s.frame j

/-- Between two pages of the loader: `k` pages of the supply are fresh, and those up to `stop`
are mapped in the current directory. -/
structure Loading (m : Machine) (current pd stop k : Nat) : Prop where
  ne : current ≠ pd
  spaces : Spaces m.paging.mem fun e => e = current ∨ e = pd
  userOpen : UserOpen m.paging.mem pd
  supply : Supply m.paging (fun e => e = current ∨ e = pd) k
  direct : ∀ j, m.paging.next ≤ j → j < stop → DirectMapped m.paging current j

/-- Page `n` of a directory is mapped with some permissions and shows some bytes. -/
def Shows (m : Machine) (pd n perms : Nat) (bytes : Nat → Byte) : Prop :=
  ∃ f, mappingOf m.paging.mem pd n = some ⟨f, perms⟩ ∧
    ∀ o, o < PAGESIZE → m.phys (f <<< 12 + o) = bytes o

section page

variable {m : Machine} {t : PagingState} {current pd stop k n p v perms : Nat} {buffer : Bytes}

theorem DirectMapped.small {s : PagingState} {j : Nat} (h : DirectMapped s current j) :
    s.supply j < 1099511627776 := by
  obtain ⟨x, hx, hxf⟩ := h
  have hlt := mappingOf_frame_lt hx
  rw [hxf, PagingState.frame, Nat.shiftRight_eq_div_pow] at hlt
  omega

theorem directMap_kernel {a : Nat} (h : a < 1099511627776) :
    ¬ UserPage (pageNumber (u64 (IDENTITY_MAP_START + a))) := by
  unfold UserPage IDENTITY_MAP_START
  rw [u64_of_lt (by omega)]
  unfold pageNumber
  omega

/-- The map at `IDENTITY_MAP_START` stays when its page does. -/
theorem DirectMapped.congr {s : PagingState} {j : Nat} (h : DirectMapped s current j)
    (hsupply : t.supply = s.supply) (hmap : ∀ a, a < 1099511627776 →
      mappingOf t.mem current (pageNumber (u64 (IDENTITY_MAP_START + a))) =
        mappingOf s.mem current (pageNumber (u64 (IDENTITY_MAP_START + a)))) :
    DirectMapped t current j := by
  have hsmall := h.small
  obtain ⟨x, hx, hxf⟩ := h
  refine ⟨x, ?_, ?_⟩
  · rw [hsupply, hmap _ hsmall]
    exact hx
  · rw [hxf, PagingState.frame_congr hsupply]

/-- One page is loaded, and what the others show stays. -/
theorem Loading.page (h : Loading m current pd stop (k + 4)) (hstop : m.paging.next < stop) (hv : v % PAGESIZE = 0)
    (huser : UserPage (pageNumber v)) (a : Nat)
    (hp : u64 (IDENTITY_MAP_START + m.paging.supply m.paging.next) = p)
    (ht : mapMemoryHh { m.paging with next := m.paging.next + 1 } pd v
      (virtualToPhysical m.paging.mem current p) perms = .ok t) {b : Bytes}
    (hb : copy m.phys (virtualToPhysical t.mem current p) buffer a PAGESIZE = b) :
    Loading ⟨t, b⟩ current pd stop k ∧
      Shows ⟨t, b⟩ pd (pageNumber v) (perms % 16) (fun o => buffer (a + o)) ∧
      ∀ n, UserPage n → n ≠ pageNumber v → ∀ q bytes, Shows m pd n q bytes →
        Shows ⟨t, b⟩ pd n q bytes := by
  obtain ⟨x, hx, hxf⟩ := h.direct m.paging.next (le_refl _) hstop
  rw [hp] at hx
  have hlt := mappingOf_frame_lt hx
  have hshift : x.frame <<< 12 = x.frame * 4096 := Nat.shiftLeft_eq _ _
  have hback : x.frame <<< 12 >>> 12 = x.frame := by
    rw [hshift, Nat.shiftRight_eq_div_pow]
    omega
  have hphys := virtualToPhysical_of_mapped hx
  rw [hphys] at ht
  have hsup := Supply.request (k := k + 3) h.supply
  obtain ⟨t', ht', hmap⟩ := Spaces.map (s := { m.paging with next := m.paging.next + 1 })
    (p := x.frame <<< 12) perms h.spaces (.inr rfl) (hsup.fresh.mono (Nat.le_add_left 3 k)) hv
    (by rw [hshift]; unfold PAGESIZE; omega) (by rw [hshift]; omega) huser
  rw [ht] at ht'
  obtain rfl := Except.ok.inj ht'
  rw [hback] at hmap
  have hcurrent : ∀ i, i < 68719476736 → mappingOf t.mem current i =
      mappingOf m.paging.mem current i := fun i hi => by
    rw [hmap.mapping current (.inl rfl) i hi, if_neg fun hc => h.ne hc.1]
  have hle : m.paging.next + 1 ≤ t.next := hmap.le
  have hsame : virtualToPhysical t.mem current p = x.frame <<< 12 := by
    rw [virtualToPhysical_eq, hcurrent _ (pageNumber_lt p), hx]
    rfl
  rw [hsame] at hb
  -- the new frame is not that of a page mapped before
  have hother : ∀ n, UserPage n → ∀ y, mappingOf m.paging.mem pd n = some y →
      y.frame ≠ x.frame := fun n hn y hy => by
    have := h.supply.unmapped 0 (by omega) pd (.inr rfl) n hn y hy
    rwa [Nat.add_zero, ← hxf] at this
  refine ⟨⟨h.ne, hmap.spaces, ?_, ?_, fun j hj hj' => ?_⟩, ⟨x.frame, ?_, fun o ho => ?_⟩,
    fun n hn hne q bytes ⟨f, hf, hbytes⟩ => ⟨f, ?_, fun o ho => ?_⟩⟩
  · exact mapMemoryHh_open (s := { m.paging with next := m.paging.next + 1 }) h.userOpen
      (h.spaces.wellFormed pd (.inr rfl)) (hsup.fresh.mono (Nat.le_add_left 3 k) pd (.inr rfl)) ht
  · refine Supply.map hsup hmap fun j hj => ?_
    have hne := (h.supply.fresh current (.inl rfl)).frame_ne (j := 0) (k := 1 + j) (by omega)
      (by omega)
    rw [Nat.add_zero, ← Nat.add_assoc] at hne
    rw [hxf]
    exact hne.symm
  · exact (h.direct j (Nat.le_trans (Nat.le_of_succ_le hle) hj) hj').congr hmap.supply
      fun a _ => hcurrent _ (pageNumber_lt _)
  · rw [hmap.mapping pd (.inr rfl) _ (pageNumber_lt v), if_pos ⟨rfl, rfl⟩]
  · show b _ = _
    rw [← hb, copy_apply_in _ _ (by omega) (by omega)]
    exact congrArg buffer (by omega)
  · have hnlt : n < 68719476736 := by
      unfold UserPage at hn
      omega
    rw [hmap.mapping pd (.inr rfl) n hnlt, if_neg fun hc => hne hc.2]
    exact hf
  · have hframe : f ≠ x.frame := hother n hn _ hf
    have hshift' : f <<< 12 = f * 4096 := Nat.shiftLeft_eq _ _
    have hout : f * 4096 + o < x.frame * 4096 ∨ x.frame * 4096 + PAGESIZE ≤ f * 4096 + o := by
      unfold PAGESIZE at ho ⊢
      omega
    rw [← hbytes o ho, hshift']
    show b _ = _
    rw [← hb, hshift]
    exact copy_apply_out _ _ hout

/-- Growth of the kernel outside the user half and outside the map at `IDENTITY_MAP_START`. -/
def KernelGrowth (vs : List Nat) : Prop := ∀ v ∈ vs, ¬ UserPage (pageNumber v) ∧
  ∀ a, a < 1099511627776 → pageNumber v ≠ pageNumber (u64 (IDENTITY_MAP_START + a))

theorem KernelGrowth.pages {vs : List Nat} (h : KernelGrowth vs) : KernelPages vs :=
  fun v hv => (h v hv).1

/-- The growth of the kernel between two segments. -/
theorem Loading.grow {vs : List Nat} (h : Loading m current pd stop (k + 4 * vs.length))
    (hvs : KernelGrowth vs) (ht : growKernel current vs m.paging = .ok t) :
    Loading { m with paging := t } current pd stop k ∧ ∀ n, UserPage n → ∀ q bytes,
      Shows m pd n q bytes → Shows { m with paging := t } pd n q bytes := by
  have hgrown := growKernel_spec h.spaces (.inl rfl)
    (h.supply.fresh.mono (Nat.le_add_left _ _)) hvs.pages ht
  refine ⟨⟨h.ne, hgrown.spaces, hgrown.userOpen pd (.inr rfl) h.userOpen, hgrown.rest k h.supply,
    fun j hj hj' => ?_⟩, fun n hn q bytes ⟨f, hf, hbytes⟩ => ⟨f, ?_, hbytes⟩⟩
  · exact (h.direct j (Nat.le_trans hgrown.le hj) hj').congr hgrown.supply fun a ha =>
      hgrown.mapping current (.inl rfl) _ (pageNumber_lt _) fun v hv => (hvs v hv).2 a ha
  · have hnlt : n < 68719476736 := by
      unfold UserPage at hn
      omega
    rw [hgrown.mapping pd (.inr rfl) n hnlt fun v hv heq => (hvs v hv).1 (heq ▸ hn)]
    exact hf

end page

/-! ## Loading the segments -/

/-- Page `n` of a directory shows what segment `ph` loads there. -/
def Holds (file : Bytes) (m : Machine) (pd : Nat) (ph : Phdr) (n : Nat) : Prop :=
  Shows m pd n ph.perms fun o => ph.completeBuffer file (n * PAGESIZE - ph.page + o)

/-- The pages that the segments from header `i` on request at most. -/
def Growth.segmentPages (g : Growth) : Nat → List Phdr → Nat
  | _, [] => 0
  | i, ph :: phs => (if ph.type = PT_LOAD then 4 * (g.segment i).length + 4 * ph.pageNo else 0) +
      segmentPages g (i + 1) phs

section segments

variable {file : Bytes} {m m' : Machine} {current pd stop k i n : Nat} {ph : Phdr}
  {phs : List Phdr} {g : Growth}

theorem loadPages_spec (hph : ph.UserSegment) (h : Loading m current pd stop (k + 4 * n))
    (hn : i + n ≤ ph.pageNo) (hstop : m'.paging.next ≤ stop)
    (ht : loadPages current pd ph.perms ph.page (ph.completeBuffer file) i n m = .ok m') :
    Loading m' current pd stop k ∧
      (∀ j, i ≤ j → j < i + n → Holds file m' pd ph (ph.page / PAGESIZE + j)) ∧
      ∀ x, UserPage x → (∀ j, i ≤ j → j < i + n → x ≠ ph.page / PAGESIZE + j) →
        ∀ q bytes, Shows m pd x q bytes → Shows m' pd x q bytes := by
  induction n generalizing i m with
  | zero =>
    cases ht
    exact ⟨h, fun j h1 h2 => absurd h1 (by omega), fun _ _ _ _ _ => id⟩
  | succ n ih =>
    obtain ⟨t, hmap, hrest⟩ := loadPages_succ rfl ht
    have hi : i < ph.pageNo := by omega
    have hnumber := hph.pageNumber_eq hi
    have hlow := hph.below hi
    have huser : UserPage (pageNumber (u64 (ph.page + i * PAGESIZE))) := by
      refine userPage_of_lt ?_
      rwa [u64_of_lt (Nat.lt_trans hlow (by decide))]
    have hal : u64 (ph.page + i * PAGESIZE) % PAGESIZE = 0 := by
      have := ph.page_mod
      rw [u64_of_lt (Nat.lt_trans hlow (by decide))]
      unfold PAGESIZE at *
      omega
    have hbudget : k + 4 * (n + 1) = k + 4 * n + 4 := by omega
    rw [hbudget] at h
    have hnext := loadPages_next ht
    obtain ⟨hload, hshows, hkeep⟩ := h.page (by omega) hal huser (i * PAGESIZE) rfl hmap rfl
    rw [hnumber, ph.perms_mod] at hshows
    rw [hnumber] at huser hkeep
    obtain ⟨hload', hholds, hkeep'⟩ := ih hload (by omega) hrest
    refine ⟨hload', fun j h1 h2 => ?_, fun x hx hne q bytes hshow => ?_⟩
    · by_cases hj : j = i
      · subst hj
        have hpage := ph.page_mod
        have hoffset : (ph.page / PAGESIZE + j) * PAGESIZE - ph.page = j * PAGESIZE := by
          unfold PAGESIZE at *
          omega
        refine hkeep' _ huser (fun a h3 _ => by omega) _ _ ?_
        rw [hoffset]
        exact hshows
      · exact hholds j (by omega) (by omega)
    · exact hkeep' x hx (fun j h1 h2 => hne j (by omega) (by omega)) q bytes
        (hkeep x hx (hne i (le_refl i) (by omega)) q bytes hshow)

/-- Every page shows what the last segment that loads it puts there. -/
theorem loadSegments_spec (hphs : ∀ ph ∈ phs, ph.type = PT_LOAD → ph.UserSegment)
    (hg : ∀ j, KernelGrowth (g.segment j)) (h : Loading m current pd stop (k + g.segmentPages i phs))
    (hstop : m'.paging.next ≤ stop) (ht : loadSegments file current pd g i phs m = some (.ok m')) :
    Loading m' current pd stop k ∧ ∀ x, UserPage x →
      (∀ q, lastLoader x phs = some q → Holds file m' pd q x) ∧
      (lastLoader x phs = none → ∀ q bytes, Shows m pd x q bytes → Shows m' pd x q bytes) := by
  induction phs generalizing i m with
  | nil =>
    cases ht
    exact ⟨h, fun x _ => ⟨fun q hq => (nomatch hq), fun _ _ _ => id⟩⟩
  | cons ph phs ih =>
    have htail : ∀ q ∈ phs, q.type = PT_LOAD → q.UserSegment := fun q hq =>
      hphs q (List.mem_cons_of_mem ph hq)
    rw [Growth.segmentPages] at h
    by_cases hload : ph.type = PT_LOAD
    · rw [if_pos hload] at h
      have hph := hphs ph List.mem_cons_self hload
      obtain ⟨-, s, m₁, hs, hm₁, hrest⟩ := loadSegments_cons hload ht
      have hbudget : k + (4 * (g.segment i).length + 4 * ph.pageNo + g.segmentPages (i + 1) phs) =
          k + g.segmentPages (i + 1) phs + 4 * ph.pageNo + 4 * (g.segment i).length := by omega
      rw [hbudget] at h
      obtain ⟨hgrow, hkeep₁⟩ := h.grow (hg i) hs
      obtain ⟨hpages, hholds, hkeep₂⟩ := loadPages_spec hph hgrow (Nat.le_of_eq (Nat.zero_add _))
        (Nat.le_trans (loadSegments_next hrest) hstop) hm₁
      obtain ⟨hdone, hlater⟩ := ih htail hpages hrest
      refine ⟨hdone, fun x hx => ?_⟩
      obtain ⟨hsome, hnone⟩ := hlater x hx
      rw [lastLoader]
      cases hlast : lastLoader x phs with
      | some p =>
        refine ⟨fun q hq => ?_, fun hq => nomatch hq⟩
        cases hq
        exact hsome p hlast
      | none =>
        have hkeep₃ := hnone hlast
        simp only
        by_cases hloads : ph.Loads x
        · rw [if_pos hloads]
          refine ⟨fun q hq => ?_, fun hq => nomatch hq⟩
          cases hq
          obtain ⟨-, j, hj, rfl⟩ := hph.loads_iff.mp hloads
          exact hkeep₃ _ _ (hholds j (Nat.zero_le j) (by omega))
        · rw [if_neg hloads]
          refine ⟨fun q hq => (nomatch hq), fun _ q bytes hshow => ?_⟩
          refine hkeep₃ q bytes (hkeep₂ x hx (fun j _ hj heq => hloads ?_) q bytes
            (hkeep₁ x hx q bytes hshow))
          exact hph.loads_iff.mpr ⟨hload, j, by omega, heq⟩
    · rw [if_neg hload, Nat.zero_add] at h
      rw [loadSegments_skip hload] at ht
      obtain ⟨hdone, hlater⟩ := ih htail h ht
      refine ⟨hdone, fun x hx => ?_⟩
      obtain ⟨hsome, hnone⟩ := hlater x hx
      have hloads : ¬ ph.Loads x := fun hl => hload hl.1
      rw [lastLoader, if_neg hloads]
      cases hlast : lastLoader x phs with
      | some p =>
        refine ⟨fun q hq => ?_, fun hq => nomatch hq⟩
        cases hq
        exact hsome p hlast
      | none => exact ⟨fun q hq => (nomatch hq), fun _ => hnone hlast⟩

end segments

/-! ## The image -/

/-- The machine before a call that takes the pages of the supply up to `stop`: the pages that it
may take are fresh, those that it takes are mapped at `IDENTITY_MAP_START`, and the kernel grows
elsewhere. -/
structure LoaderReady (m : Machine) (current stop : Nat) (g : Growth) (phs : List Phdr) :
    Prop where
  wellFormed : WellFormed m.paging.mem current
  frameSized : FrameSized m.paging.mem
  supply : Supply m.paging (fun e => e = current) (g.segmentPages 0 phs + g.taskPages)
  direct : ∀ j, m.paging.next ≤ j → j < stop → DirectMapped m.paging current j
  task : KernelGrowth g.task
  stack : KernelGrowth g.stack
  segment : ∀ i, KernelGrowth (g.segment i)

/-- The segments that the file may have. -/
structure ImageFile (phs : List Phdr) : Prop where
  segment : ∀ ph ∈ phs, ph.type = PT_LOAD → ph.UserSegment
  apart : (phs.filter fun ph => ph.type = PT_LOAD).Pairwise Phdr.RangesApart

/-- A user program may use the page of `v` as the flags of its segment say. -/
def UserMay (t : Frames) (pd v flags : Nat) : Prop :=
  OpenAbove t pd (pageNumber v) ∧ ∃ x, mappingOf t pd (pageNumber v) = some x ∧
    x.perms &&& PAGE_USER_BIT ≠ 0 ∧ (flags &&& PF_W ≠ 0 → x.perms &&& PAGE_WRITE_BIT ≠ 0) ∧
    (flags &&& PF_X ≠ 0 → x.perms &&& PAGE_NX_BIT = 0)

/-- The address space of the task holds the segment as the file describes it. -/
structure ImageOf (file : Bytes) (m : Machine) (pd : Nat) (ph : Phdr) : Prop where
  bytes : ∀ k, k < ph.memsz → m.view pd (ph.vaddr + k) = ph.imageByte file k
  access : ∀ k, k < ph.memsz → UserMay m.paging.mem pd (ph.vaddr + k) ph.flags

/-- Where another segment is the last one to load the page of a byte, the byte is zero and the
permissions of that segment cover those of its own. -/
def SharedPagesAgree (file : Bytes) (phs : List Phdr) : Prop :=
  ∀ ph ∈ phs, ph.type = PT_LOAD → ∀ k, k < ph.memsz → ∀ q,
    lastLoader ((ph.vaddr + k) / PAGESIZE) phs = some q → q = ph ∨
      (ph.imageByte file k = 0 ∧ (ph.flags &&& PF_W ≠ 0 → q.flags &&& PF_W ≠ 0) ∧
        (ph.flags &&& PF_X ≠ 0 → q.flags &&& PF_X ≠ 0))

section image

variable {file : Bytes} {m m' : Machine} {current pd k : Nat} {ph q : Phdr} {phs : List Phdr}
  {g : Growth}

/-- The address space of the new task is ready for the segments. -/
theorem TaskMade.loading {stop : Nat} (hmade : TaskMade m m' current pd g)
    (h : LoaderReady m current stop g phs) : Loading m' current pd stop (g.segmentPages 0 phs) := by
  refine ⟨hmade.ne, hmade.spaces, hmade.userOpen, hmade.rest _ h.supply, fun j hj hj' => ?_⟩
  exact (h.direct j (Nat.le_trans hmade.le hj) hj').congr hmade.supply fun a ha =>
    hmade.mapping _ (pageNumber_lt _) (directMap_kernel ha) (fun v hv => (h.task v hv).2 a ha)
      fun v hv => (h.stack v hv).2 a ha

/-- A byte of a segment, as the last segment that loads its page leaves it. -/
theorem Holds.byte (hph : ph.UserSegment) (hk : k < ph.memsz) (hq : q.UserSegment)
    (hloads : q.Loads ((ph.vaddr + k) / PAGESIZE))
    (h : Holds file m pd q ((ph.vaddr + k) / PAGESIZE)) :
    (∃ x, mappingOf m.paging.mem pd (pageNumber (ph.vaddr + k)) = some x ∧ x.perms = q.perms) ∧
      m.view pd (ph.vaddr + k) =
        if q.vaddr ≤ ph.vaddr + k ∧ ph.vaddr + k < q.vaddr + q.filesz then
          file (q.offset + (ph.vaddr + k - q.vaddr)) else 0 := by
  obtain ⟨f, hf, hbytes⟩ := h
  rw [← hph.pageNumber_byte hk] at hf
  refine ⟨⟨_, hf, rfl⟩, ?_⟩
  obtain ⟨-, j, -, hj⟩ := hq.loads_iff.mp hloads
  have hpage := q.page_mod
  have hlow : q.page ≤ (ph.vaddr + k) / PAGESIZE * PAGESIZE := by
    rw [hj]
    unfold PAGESIZE at *
    omega
  have hle : (ph.vaddr + k) / PAGESIZE * PAGESIZE ≤ ph.vaddr + k := Nat.div_mul_le_self _ _
  have hsplit : (ph.vaddr + k) / PAGESIZE * PAGESIZE - q.page + (ph.vaddr + k) % PAGESIZE =
      ph.vaddr + k - q.page := by
    unfold PAGESIZE at *
    omega
  have hbyte := hbytes ((ph.vaddr + k) % PAGESIZE) (Nat.mod_lt _ (by decide))
  simp only at hbyte
  rw [hsplit, Phdr.completeBuffer_eq file (Nat.le_trans hlow hle)] at hbyte
  rw [← hbyte, Machine.view, virtualToPhysical_of_mapped hf]

/-- One byte and its page are as the file describes them if the last segment that loads the page
is their own, or agrees on them. -/
theorem Holds.image_iff (hph : ph.UserSegment) (hk : k < ph.memsz) (hq : q.UserSegment)
    (hloads : q.Loads ((ph.vaddr + k) / PAGESIZE)) (hopen : UserOpen m.paging.mem pd)
    (hapart : q = ph ∨ ph.RangesApart q)
    (h : Holds file m pd q ((ph.vaddr + k) / PAGESIZE)) :
    (m.view pd (ph.vaddr + k) = ph.imageByte file k ∧
      UserMay m.paging.mem pd (ph.vaddr + k) ph.flags) ↔ q = ph ∨
        (ph.imageByte file k = 0 ∧ (ph.flags &&& PF_W ≠ 0 → q.flags &&& PF_W ≠ 0) ∧
          (ph.flags &&& PF_X ≠ 0 → q.flags &&& PF_X ≠ 0)) := by
  obtain ⟨⟨x, hx, hperms⟩, hview⟩ := h.byte hph hk hq hloads
  have huser : UserPage (pageNumber (ph.vaddr + k)) :=
    userPage_of_lt (Nat.lt_of_lt_of_le (Nat.add_lt_add_left hk _) hph.high)
  have hmay : UserMay m.paging.mem pd (ph.vaddr + k) ph.flags ↔
      (ph.flags &&& PF_W ≠ 0 → q.flags &&& PF_W ≠ 0) ∧
        (ph.flags &&& PF_X ≠ 0 → q.flags &&& PF_X ≠ 0) := by
    constructor
    · intro ⟨_, y, hy, _, hwrite, hexecute⟩
      obtain rfl := Option.some.inj (hx.symm.trans hy)
      rw [hperms, q.perms_write] at hwrite
      rw [hperms, q.perms_execute] at hexecute
      exact ⟨hwrite, hexecute⟩
    · intro ⟨hwrite, hexecute⟩
      refine ⟨hopen.openAbove huser hx, x, hx, ?_, ?_, ?_⟩
      · rw [hperms]
        exact q.perms_user
      · rw [hperms, q.perms_write]
        exact hwrite
      · rw [hperms, q.perms_execute]
        exact hexecute
  rw [hmay, hview]
  by_cases hown : q = ph
  · subst hown
    refine iff_of_true ⟨?_, id, id⟩ (.inl rfl)
    rw [Phdr.imageByte]
    refine if_congr ⟨fun hc => by omega, fun hc => by omega⟩ ?_ rfl
    exact congrArg file (by omega)
  · -- the byte lies outside the other segment
    have hout := (hapart.resolve_left hown) (ph.vaddr + k) (Nat.le_add_right _ _)
      (Nat.add_lt_add_left hk _)
    have hfilesz := hq.filesz
    rw [if_neg fun hc => hout ⟨hc.1, by omega⟩, or_iff_right hown]
    exact and_congr_left fun _ => eq_comm

end image

/-! ## A small program -/

/-- The fields of a file: their addresses and values. -/
def fileOf (fields : List (Nat × Nat)) : Bytes := fun a =>
  BitVec.ofNat 8 (fields.foldl (fun n x => n + x.2 * 256 ^ x.1) 0 / 256 ^ a)

/-- A program of two segments of four bytes each, the second one at `vaddr`. -/
def twoSegments (vaddr : Nat) : Bytes := fileOf
  [(0, ELFMAG), (4, 2), (16, ET_EXEC), (24, 0x401000), (32, 64), (56, 2),
    (64, PT_LOAD), (68, 5), (72, 176), (80, 0x401000), (96, 4), (104, 4),
    (120, PT_LOAD), (124, 5), (128, 180), (136, vaddr), (152, 4), (160, 4),
    (176, 0x8877665544332211)]

/-- Directory 1 maps the 512 frames from frame 512 on at `IDENTITY_MAP_START`. -/
def directFrames : Frames := fun f i =>
  if f = 1 ∧ i = 320 ∨ f = 2 ∧ i = 0 ∨ f = 3 ∧ i = 1 then Entry.hung 0 (f + 1)
  else if f = 4 ∧ i < 512 then Entry.hung 0 (512 + i)
  else 0

/-- The directory, with the pages from frame 512 on for `request_page`. -/
def directMachine : Machine where
  paging := { mem := directFrames, supply := fun k => (512 + k) * 4096, next := 0 }
  phys := fun _ => 0

/-- A kernel that does not grow. -/
def noGrowth : Growth := ⟨[], [], fun _ => []⟩

theorem directFrames_child {f i g : Nat} (h : Entry.child (directFrames f i) = some g) :
    ((f = 1 ∧ i = 320 ∨ f = 2 ∧ i = 0 ∨ f = 3 ∧ i = 1) ∧ g = f + 1) ∨
      (f = 4 ∧ i < 512 ∧ g = 512 + i) := by
  rw [directFrames] at h
  split at h
  · rename_i hupper
    rw [Entry.hung, Entry.child_fresh 0 (by omega)] at h
    exact .inl ⟨hupper, (Option.some.inj h).symm⟩
  split at h
  · rename_i hlast
    rw [Entry.hung, Entry.child_fresh 0 (by omega)] at h
    exact .inr ⟨hlast.1, hlast.2, (Option.some.inj h).symm⟩
  · rw [Entry.zero_child] at h
    cases h

theorem directFrames_walk {p : List Nat} {r f : Nat} (hr : r + p.length ≤ 4) (hpos : 1 ≤ r)
    (h : walk Entry.child directFrames r p = some f) :
    f = r + p.length ∧ p = ([320, 0, 1].drop (r - 1)).take p.length := by
  induction p generalizing r with
  | nil => exact ⟨(Option.some.inj h).symm, rfl⟩
  | cons i p ih =>
    rw [walk_cons, Option.bind_eq_some_iff] at h
    obtain ⟨c, hc, hw⟩ := h
    rw [List.length_cons] at hr
    obtain ⟨hupper, rfl⟩ := (directFrames_child hc).resolve_right fun hlast => by omega
    obtain ⟨hf, hp⟩ := ih (by omega) (Nat.le_add_left 1 r) hw
    refine ⟨by rw [hf, List.length_cons]; omega, ?_⟩
    rw [List.length_cons]
    rcases hupper with ⟨rfl, rfl⟩ | ⟨rfl, rfl⟩ | ⟨rfl, rfl⟩
    · exact congrArg (320 :: ·) hp
    · exact congrArg (0 :: ·) hp
    · exact congrArg (1 :: ·) hp

theorem directFrames_wellFormed : WellFormed directFrames 1 := by
  intro p q f hp hq hwp hwq
  obtain ⟨hfp, hpp⟩ := directFrames_walk (by omega) (le_refl 1) hwp
  obtain ⟨hfq, hqq⟩ := directFrames_walk (by omega) (le_refl 1) hwq
  have hlen : p.length = q.length := by omega
  rw [hpp, hqq, hlen]

theorem directFrames_frameSized : FrameSized directFrames := by
  intro f i hi
  cases h : Entry.child (directFrames f i) with
  | none => rfl
  | some g =>
    rcases directFrames_child h with ⟨hupper, -⟩ | ⟨-, hlt, -⟩
    · omega
    · omega

theorem directMachine_supply {n : Nat} (hn : n ≤ 268434944) :
    Supply directMachine.paging (fun e => e = 1) n := by
  have hpage : ∀ j, directMachine.paging.supply (directMachine.paging.next + j) =
      (512 + j) * 4096 := fun j => by
    show (512 + (0 + j)) * 4096 = _
    rw [Nat.zero_add]
  refine ⟨?_, ?_⟩
  · rintro d rfl
    refine ⟨fun j _ => ?_, fun j hj => ?_, fun i j hij _ => ?_, fun j _ p hp hw => ?_⟩
    · rw [hpage]
      exact Nat.mul_mod_left _ _
    · rw [hpage]
      omega
    · rw [hpage, hpage]
      omega
    · obtain ⟨hf, -⟩ := directFrames_walk (by omega) (le_refl 1) hw
      rw [hpage, Nat.shiftRight_eq_div_pow, Nat.mul_div_cancel _ (by decide)] at hf
      omega
  · rintro j - d rfl k hk x hx
    -- nothing is mapped in the user half
    obtain ⟨pt, hw, -⟩ := mappingOf_some hx
    obtain ⟨-, hpath⟩ := directFrames_walk (p := pagePath k) (le_refl 4) (le_refl 1) hw
    have hhead : k / 134217728 % 512 = 320 := (List.cons.inj hpath).1
    unfold UserPage at hk
    omega

theorem directMachine_ready {stop : Nat} {phs : List Phdr} (hstop : stop ≤ 64)
    (hpages : noGrowth.segmentPages 0 phs ≤ 1000) :
    LoaderReady directMachine 1 stop noGrowth phs := by
  have hnone : KernelGrowth [] := fun v hv => absurd hv List.not_mem_nil
  have hmapped : ∀ j, j < 64 → (mappingOf directFrames 1 (pageNumber (u64
      (IDENTITY_MAP_START + (512 + j) * 4096)))).map Mapping.frame = some (512 + j) := by
    decide +kernel
  have htask : noGrowth.taskPages ≤ 263000 := by decide
  refine ⟨directFrames_wellFormed, directFrames_frameSized, directMachine_supply (by omega),
    fun j _ hj => ?_, hnone, hnone, fun _ => hnone⟩
  obtain ⟨x, hx, hxf⟩ := Option.map_eq_some_iff.mp (hmapped j (by omega))
  refine ⟨x, hx, ?_⟩
  show x.frame = ((512 + j) * 4096) >>> 12
  rw [hxf, Nat.shiftRight_eq_div_pow, Nat.mul_div_cancel _ (by decide)]

/-- The machine with the duplicate of its directory, in frames 512 to 514. -/
def duplicatedMachine : Machine :=
  { directMachine with paging := { directMachine.paging with
      mem := ((((directFrames.fill 512 0).copy 513 2).set 512 320
        ((Entry.hung 0 2).setPagePpn 513)).copy 514 3).set 513 0 ((Entry.hung 0 3).setPagePpn 514)
      next := 3 } }

/-- The loops skip the entries that are not present. -/
theorem directMachine_duplicate :
    duplicateCurrentKernelPml4 directMachine.paging 1 = .ok (512, duplicatedMachine.paging) := by
  have hpage : ∀ (t : Frames) n message, requestPage ⟨t, directMachine.paging.supply, n⟩ message =
      .ok (512 + n, ⟨t, directMachine.paging.supply, n + 1⟩) := fun t n message => by
    have hframe : ((512 + n) * 4096) >>> 12 = 512 + n := by
      rw [Nat.shiftRight_eq_div_pow]
      exact Nat.mul_div_cancel _ (by decide)
    rw [requestPage]
    dsimp only
    rw [show directMachine.paging.supply n = (512 + n) * 4096 from rfl, if_neg (by omega), hframe]
  have habsent : ∀ e : Entry, e = 0 → e.present = 0 := fun e he => by
    rw [he]
    rfl
  obtain ⟨t₁, ht₁⟩ : ∃ t : Frames, t = directFrames.fill 512 0 := ⟨_, rfl⟩
  obtain ⟨t₂, ht₂⟩ : ∃ t : Frames, t = (t₁.copy 513 2).set 512 320 ((Entry.hung 0 2).setPagePpn 513) :=
    ⟨_, rfl⟩
  obtain ⟨t₃, ht₃⟩ : ∃ t : Frames, t = (t₂.copy 514 3).set 513 0 ((Entry.hung 0 3).setPagePpn 514) :=
    ⟨_, rfl⟩
  have htables : duplicateTables 2 513 0 512 ⟨t₂, directMachine.paging.supply, 2⟩ =
      .ok ⟨t₃, directMachine.paging.supply, 3⟩ := by
    have hentry : t₂ 2 0 = Entry.hung 0 3 := by
      rw [ht₂, ht₁]
      decide +kernel
    have hcopy : t₃ 514 = t₃ 3 := by
      rw [ht₃]
      funext i
      rw [Store.set_of_ne _ (.inl (by decide)), Store.set_of_ne _ (.inl (by decide)),
        Store.copy_same, Store.copy_of_ne (by decide)]
    rw [duplicateTables]
    simp only [hentry, hpage, bind, Except.bind]
    rw [if_neg (by decide +kernel), show (Entry.hung 0 3).pagePpn = 3 by decide +kernel, ← ht₃,
      copyEntries_eq hcopy]
    refine (@duplicateTables_skip _ 2 513 1 0 511 fun j h1 h2 => habsent _ ?_).trans rfl
    show t₃ 2 j = 0
    rw [ht₃, Store.set_of_ne _ (.inl (by decide)), Store.copy_of_ne (by decide), ht₂,
      Store.set_of_ne _ (.inl (by decide)), Store.copy_of_ne (by decide), ht₁,
      Store.fill_of_ne j 0 (by decide), directFrames, if_neg (by omega), if_neg (by omega)]
  have hdirectories : duplicateDirectories 1 512 256 256 ⟨t₁, directMachine.paging.supply, 1⟩ =
      .ok ⟨t₃, directMachine.paging.supply, 3⟩ := by
    have hfirst : ∀ j, t₁ 1 j = directFrames 1 j := fun j => by
      rw [ht₁, Store.fill_of_ne j 0 (by decide)]
    have hentry : t₁ 1 320 = Entry.hung 0 2 := by
      rw [hfirst]
      decide +kernel
    refine (@duplicateDirectories_skip _ 1 512 256 192 64 fun j h1 h2 => habsent _ ?_).trans ?_
    · show t₁ 1 j = 0
      rw [hfirst, directFrames, if_neg (by omega), if_neg (by omega)]
    rw [duplicateDirectories]
    simp only [hentry, hpage, bind, Except.bind]
    rw [if_neg (by decide +kernel), show (Entry.hung 0 2).pagePpn = 2 by decide +kernel, ← ht₂, htables]
    refine (@duplicateDirectories_skip _ 1 512 321 0 191 fun j h1 h2 => habsent _ ?_).trans rfl
    show t₃ 1 j = 0
    rw [ht₃, Store.set_of_ne _ (.inl (by decide)), Store.copy_of_ne (by decide), ht₂,
      Store.set_of_ne _ (.inl (by decide)), Store.copy_of_ne (by decide), hfirst, directFrames,
      if_neg (by omega), if_neg (by omega)]
  have hdone : duplicatedMachine.paging = ⟨t₃, directMachine.paging.supply, 3⟩ := by
    rw [ht₃, ht₂, ht₁]
    rfl
  have hfirst : requestPage directMachine.paging "ERROR: Could not allocate page for new PML4\n" =
      .ok (512, ⟨directFrames, directMachine.paging.supply, 1⟩) := hpage directFrames 0 _
  rw [hdone]
  rw [ht₁] at hdirectories
  exact (bind_ok hfirst _).trans (bind_ok hdirectories _)

/-- What is left of `create_task` after the duplicate. -/
theorem directMachine_task (cheap : Heap) : createTask directMachine 1 noGrowth cheap = do
    let (h, m) ← Machine.createUserHeap { duplicatedMachine with
      paging := { duplicatedMachine.paging with next := 4 } } 1 512 cheap
    let (_, _, m) ← m.stackalloc 1 512 h USER_STACK_SIZE
    let s ← growKernel 1 [] m.paging
    return (512, { m with paging := s }) := by
  have hgrow : growKernel 1 [] directMachine.paging = .ok directMachine.paging := rfl
  rw [createTask]
  exact (bind_ok hgrow _).trans (bind_ok directMachine_duplicate _)

/-- The headers of the program. -/
theorem twoSegments_headers (vaddr : Nat) (h : vaddr = 0x401800 ∨ vaddr = 0x402000) :
    programHeaders (twoSegments vaddr) =
      [⟨PT_LOAD, 5, 176, 0x401000, 4, 4⟩, ⟨PT_LOAD, 5, 180, vaddr, 4, 4⟩] := by
  rcases h with rfl | rfl
  · decide +kernel
  · decide +kernel

theorem twoSegments_file (vaddr : Nat) (h : vaddr = 0x401800 ∨ vaddr = 0x402000) :
    ImageFile (programHeaders (twoSegments vaddr)) := by
  rw [twoSegments_headers vaddr h]
  refine ⟨fun ph hph _ => ?_, ?_⟩
  · rcases List.mem_pair.mp hph with rfl | rfl
    · exact ⟨le_refl 4, by decide⟩
    · refine ⟨le_refl 4, ?_⟩
      show vaddr + 4 ≤ USERLAND_END
      unfold USERLAND_END
      omega
  · refine .cons (fun q hq => ?_) (.cons (fun q hq => absurd hq List.not_mem_nil) .nil)
    obtain rfl := List.mem_singleton.mp hq
    intro v h1 h2 h3
    simp only at h1 h2 h3
    omega

end UnedKernel.Proc

