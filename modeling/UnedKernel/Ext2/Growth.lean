import Mathlib.Data.List.GetD
import UnedKernel.Ext2.Resize

/-! # Growing a file

What `ext2_allocate_blocks` takes and where the file's pointers lead afterwards,
as long as the table of indirect blocks it writes reaches the disk. -/

namespace UnedKernel.Ext2
open ByteMem Word Sectors Bitmap Indirect

/-! ## The bits that an allocation sets -/

/-- The bits of all groups reach the disk, and the blocks from block 1 on. -/
structure Allocatable (p : Partition) : Prop where
  first : p.super Superblock.firstSbBlock = 1
  written : p.super Superblock.blocksPerGroup ≤ 4096 * p.writtenSectors
  bitmaps : BitmapsReached p
  addressable : ∀ b, p.IsBlock b → p.Addressable b

/-- The blocks were free, are different and are in use now; every call is counted. -/
structure Taken (v w : Volume) (blocks : List Nat) : Prop where
  layout : SameLayout v.part w.part
  flush : w.part.bgdtBlock = v.part.bgdtBlock ∧ w.part.sbBlock = v.part.sbBlock
  consistent : BlocksConsistent w
  bits : ∀ c, v.part.IsBlock c → (w.blockBit c = true ↔ v.blockBit c = true ∨ c ∈ blocks)
  free : ∀ b ∈ blocks, v.part.IsBlock b ∧ v.blockBit b = false
  nodup : blocks.Nodup
  groups : ∀ g, w.part.group BlockGroup.freeBlocksCount g +
    (blocks.countP fun b => v.part.blockGroup b = g) = v.part.group BlockGroup.freeBlocksCount g
  super : (w.part.super Superblock.freeBlocksCount + blocks.length) % 4294967296 =
    v.part.super Superblock.freeBlocksCount

/-- No group has a free block left. -/
def Exhausted (v : Volume) : Prop := ∀ g, g < v.part.groupNumber → v.Passed g

section

variable {p p' : Partition} {v w x : Volume} {blocks blocks' : List Nat} {b c g k n : Nat}

theorem SameLayout.allocatable (h : SameLayout p p') (ha : Allocatable p) : Allocatable p' := by
  refine ⟨?_, ?_, h.bitmapsReached ha.bitmaps, fun b hb => ?_⟩
  · rw [h.super _ (by decide)]
    exact ha.first
  · rw [h.super _ (by decide), h.writtenSectors]
    exact ha.written
  · rw [h.addressable]
    exact ha.addressable b (h.isBlock.mp hb)

theorem Allocatable.meets (ha : Allocatable v.part) (h : BlocksConsistent v) : AllocateMeets v := by
  intro g hg _ _
  refine ⟨ha.bitmaps.addressable g hg, fun k hk => ⟨ha.first, ?_⟩⟩
  exact Nat.lt_of_lt_of_le (h.padded g k hg hk.1 hk.2.1).1 ha.written

namespace Taken

theorem nil (h : BlocksConsistent v) : Taken v v [] := by
  have hsuper : v.part.super Superblock.freeBlocksCount < 4294967296 := Partition.super_lt
  exact ⟨.refl _, ⟨rfl, rfl⟩, h, fun c _ => by simp, fun b hb => by simp at hb, .nil, fun g => rfl,
    Nat.mod_eq_of_lt hsuper⟩

theorem trans (h : Taken v w blocks) (h' : Taken w x blocks') : Taken v x (blocks ++ blocks') := by
  have hl := h.layout
  refine ⟨hl.trans h'.layout, ⟨h'.flush.1.trans h.flush.1, h'.flush.2.trans h.flush.2⟩, h'.consistent,
    fun c hc => ?_, fun b hb => ?_, ?_, fun g => ?_, ?_⟩
  · rw [h'.bits c (hl.isBlock.mpr hc), h.bits c hc, List.mem_append, or_assoc]
  · rcases List.mem_append.mp hb with hb | hb
    · exact h.free b hb
    · obtain ⟨hblock, hbit⟩ := h'.free b hb
      have hblock := hl.isBlock.mp hblock
      refine ⟨hblock, Bool.eq_false_iff.mpr fun hset => ?_⟩
      rw [(h.bits b hblock).mpr (.inl hset)] at hbit
      cases hbit
  · refine List.nodup_append.mpr ⟨h.nodup, h'.nodup, fun a ha b hb hab => ?_⟩
    subst hab
    obtain ⟨hblock, hbit⟩ := h'.free a hb
    rw [(h.bits a (hl.isBlock.mp hblock)).mpr (.inr ha)] at hbit
    cases hbit
  · have hsame : (fun b => decide (w.part.blockGroup b = g)) = fun b => decide (v.part.blockGroup b = g) := by
      funext b
      rw [hl.blockGroup]
    have hgroup := h'.groups g
    rw [hsame] at hgroup
    rw [List.countP_append, ← h.groups g, ← hgroup]
    omega
  · rw [List.length_append, ← h.super, ← h'.super]
    omega

theorem of_unchanged (hw : Unchanged v w) (h : Taken w x blocks) : Taken v x blocks := by
  refine ⟨hw.sameLayout.trans h.layout, by rw [← hw.part]; exact h.flush, h.consistent, fun c hc => ?_,
    fun b hb => ?_, h.nodup, fun g => ?_, by rw [h.super, hw.part]⟩
  · rw [h.bits c (hw.sameLayout.isBlock.mpr hc), hw.blockBit]
  · obtain ⟨hblock, hbit⟩ := h.free b hb
    exact ⟨hw.sameLayout.isBlock.mp hblock, hw.blockBit ▸ hbit⟩
  · have hgroup := h.groups g
    rwa [hw.part] at hgroup

theorem perm (h : Taken v w blocks) (hp : blocks.Perm blocks') : Taken v w blocks' :=
  ⟨h.layout, h.flush, h.consistent, fun c hc => by rw [h.bits c hc, hp.mem_iff],
    fun b hb => h.free b (hp.mem_iff.mpr hb), hp.nodup_iff.mp h.nodup,
    fun g => by rw [← hp.countP_eq, h.groups], by rw [← hp.length_eq, h.super]⟩

theorem kmalloc (h : Taken v w blocks) : Taken v (kmalloc w).2 blocks :=
  ⟨h.layout, h.flush, h.consistent.unchanged ⟨rfl, rfl, id⟩, h.bits, h.free, h.nodup, h.groups, h.super⟩

end Taken

/-- A call of `ext2_allocate_block`. -/
theorem allocateBlock_taken (h : BlocksConsistent v) (ha : Allocatable v.part) :
    ((allocateBlock v).1 = 0 ∧ Unchanged v (allocateBlock v).2 ∧ Exhausted v) ∨
    (0 < (allocateBlock v).1 ∧ Taken v (allocateBlock v).2 [(allocateBlock v).1]) := by
  rcases allocateBlockFrom_reliable (i := 0) (n := v.part.groupNumber) h.mounted h.reliable
    (fun g hg => h.nonzero g (by omega)) with ⟨hzero, hsame, hpassed⟩ | ⟨g, k, hstop, htaken, hnum⟩
  · exact .inl ⟨hzero, hsame, fun g hg => hpassed g (Nat.zero_le g) (by omega)⟩
  · obtain ⟨hstands, haddr, hk, -, hclear⟩ := allocateBlock_standsFor h (ha.meets h) hstop
    obtain ⟨b, hb⟩ : ∃ b, (allocateBlock v).1 = b := ⟨_, rfl⟩
    obtain ⟨w, hw⟩ : ∃ w, (allocateBlock v).2 = w := ⟨_, rfl⟩
    rw [allocateBlock] at hb hw
    rw [← hnum, hb] at hstands
    rw [hw] at htaken
    rw [allocateBlock, hb, hw]
    have hl := htaken.sameLayout
    have hbefore : v.blockBit b = false := by
      rw [blockBit_add hstands.index hstands.block]
      exact hclear
    have hgroup : v.part.blockGroup b = g := by
      rw [hstands.block, Partition.blockGroup_add hstands.index]
    have hindex : v.part.blockIndex b = k := by
      rw [hstands.block, Partition.blockIndex_add hstands.index]
    have hbits {i j : Nat} (hi : i < v.part.groupNumber) (hj : j < 8 * v.part.blockSize) :=
      htaken.bit_eq h haddr hstands.group hk hi hj
    have hlower := hstands.isBlock.1
    have hone := ha.first
    refine .inr ⟨by omega, hl, by rw [htaken.part]; exact ⟨rfl, rfl⟩, ?_, fun c hc => ?_, fun c hc => ?_,
      List.nodup_singleton b, fun i => ?_, ?_⟩
    · refine h.transfer hl htaken.written.reliable fun i j hi hj hbit => ?_
      rw [hbits hi hj, Bool.or_eq_false_iff] at hbit
      exact h.padded i j hi hj hbit.2
    · rw [Volume.blockBit, hl.blockGroup, hl.blockIndex, hbits (ha.bitmaps.covered c hc) h.blockIndex_lt,
        Bool.or_eq_true, decide_eq_true_iff, List.mem_singleton, or_comm]
      refine or_congr Iff.rfl ⟨fun he => ?_, fun he => ?_⟩
      · exact Partition.block_ext hc hstands.isBlock (he.1.trans hgroup.symm) (he.2.trans hindex.symm)
      · subst he
        exact ⟨hgroup, hindex⟩
    · rw [List.mem_singleton] at hc
      subst hc
      exact ⟨hstands.isBlock, hbefore⟩
    · have hfree := hstop.free
      have hcount : v.part.group BlockGroup.freeBlocksCount i < 65536 := Partition.group_lt
      rw [htaken.part, Partition.group_flush, List.countP_singleton, hgroup]
      by_cases hgi : g = i
      · subst hgi
        rw [Partition.group_countBlockTaken_same, sub16_of_le (by omega) hcount]
        simp only [decide_true, if_true]
        omega
      · rw [Partition.group_countBlockTaken_of_ne (Ne.symm hgi)]
        simp only [hgi, decide_false]
        rw [if_neg Bool.false_ne_true, Nat.add_zero]
    · have hsuper : v.part.super Superblock.freeBlocksCount < 4294967296 := Partition.super_lt
      rw [htaken.part, Partition.super_flush, Partition.super_countBlockTaken, List.length_singleton]
      unfold sub32 u32
      omega

/-- Once no group has a free block, no call takes one. -/
theorem Exhausted.allocateBlock (he : Exhausted v) (h : BlocksConsistent v) :
    (allocateBlock v).1 = 0 ∧ Unchanged v (allocateBlock v).2 := by
  rcases allocateBlockFrom_reliable (i := 0) (n := v.part.groupNumber) h.mounted h.reliable
    (fun g hg => h.nonzero g (by omega)) with ⟨hzero, hsame, -⟩ | ⟨g, k, hstop, -, -⟩
  · exact ⟨hzero, hsame⟩
  · have hupper := hstop.upper
    rcases he g (by omega) with hfree | hfull
    · exact absurd hfree hstop.free
    · have hclear := hstop.clear.2.1
      rw [hfull k hstop.clear.1] at hclear
      cases hclear

theorem Exhausted.unchanged (he : Exhausted v) (hw : Unchanged v w) : Exhausted w := fun g hg =>
  hw.passed.mpr (he g (hw.part ▸ hg))

/-! ## Pointers filled in one after another -/

/-- `f` with the numbers of `data` from position `i` on. -/
def overlay (f : Nat → Nat) (i : Nat) (data : List Nat) (j : Nat) : Nat :=
  if i ≤ j ∧ j < i + data.length then data.getD (j - i) 0 else f j

section

variable {f f' : Nat → Nat} {data : List Nat} {i j : Nat}

@[simp] theorem overlay_nil : overlay f i [] = f := by
  funext j
  exact if_neg (by rw [List.length_nil]; omega)

theorem overlay_cons (hf : ∀ j, f' j = if j = i then b else f j) :
    overlay f' (i + 1) data j = overlay f i (b :: data) j := by
  unfold overlay
  rw [List.length_cons]
  by_cases hij : j = i
  · subst hij
    rw [if_neg (by omega), if_pos (by omega), hf, if_pos rfl, Nat.sub_self]
    rfl
  · by_cases hin : i + 1 ≤ j ∧ j < i + 1 + data.length
    · rw [if_pos hin, if_pos (by omega), show j - i = j - (i + 1) + 1 by omega]
      rfl
    · rw [if_neg hin, if_neg (by omega), hf, if_neg hij]

theorem overlay_of_lt (h : j < i) : overlay f i data j = f j := if_neg (by omega)

theorem overlay_in (h : j < data.length) : overlay f i data (i + j) = data.getD j 0 := by
  rw [overlay, if_pos (by omega), Nat.add_sub_cancel_left]

end

/-- What a loop that fills pointers leaves behind: what it has taken, and why it stopped. -/
structure Fills (v w : Volume) (wanted done n : Nat) (result : Option Nat) (data : List Nat) : Prop where
  taken : Taken v w data
  length_le : data.length ≤ n
  counted : ∀ total, result = some total →
    total = done + data.length ∧ total ≤ wanted ∧ (total = wanted ∨ data.length = n)
  exhausted : result = none → Exhausted w

section

variable {inode inode' table table' : Bytes} {result : Option Nat} {wanted done total i j m : Nat}

theorem Fills.nil (h : BlocksConsistent v) (hdone : done ≤ wanted) (hstop : done = wanted ∨ n = 0) :
    Fills v v wanted done n (some done) [] := by
  refine ⟨.nil h, Nat.zero_le n, fun total htotal => ?_, fun hnone => by cases hnone⟩
  cases htotal
  exact ⟨rfl, hdone, hstop.imp id Eq.symm⟩

theorem Fills.cons {data : List Nat} (h : Taken v w [b]) (hrest : Fills w x wanted (done + 1) n result data) :
    Fills v x wanted done (n + 1) result (b :: data) := by
  refine ⟨h.trans hrest.taken, Nat.succ_le_succ hrest.length_le, fun total htotal => ?_, hrest.exhausted⟩
  obtain ⟨hsum, hle, hwhy⟩ := hrest.counted total htotal
  rw [List.length_cons]
  omega

/-- A loop that cannot take a block. -/
theorem Fills.none (h : BlocksConsistent v) (hw : Unchanged v w) (he : Exhausted v) :
    Fills v w wanted done n Option.none [] :=
  ⟨.of_unchanged hw (.nil (h.unchanged hw)), Nat.zero_le n, fun _ htotal => (by cases htotal),
    fun _ => he.unchanged hw⟩

theorem Taken.block_lt (h : Taken v w [b]) : b < 4294967296 :=
  have hlt : v.part.super Superblock.blocksCount < 4294967296 := Partition.super_lt
  (h.free b (List.mem_singleton_self b)).1.2.trans hlt

theorem iBlock_setIBlock (hb : b < 4294967296) :
    iBlock (setIBlock inode i b) j = if j = i then b else iBlock inode j := by
  unfold iBlock setIBlock
  split
  · rename_i hij
    rw [hij, load_store_same]
    exact Nat.mod_eq_of_lt hb
  · exact load_store_apart _ (by unfold Apart; omega)

/-- The loop over the direct blocks goes past the pointers in use. -/
theorem allocateDirectFrom_skip (hne : done ≠ wanted)
    (hused : ∀ j, i ≤ j → j < i + m → iBlock inode j ≠ 0) :
    allocateDirectFrom wanted v inode done i (m + n) = allocateDirectFrom wanted v inode done (i + m) n := by
  induction m generalizing i with
  | zero => rw [Nat.zero_add, Nat.add_zero]
  | succ m ih =>
    rw [show m + 1 + n = m + n + 1 by omega, allocateDirectFrom, if_neg hne,
      if_pos (hused i (Nat.le_refl i) (by omega)), ih fun j hij hj => hused j (by omega) (by omega)]
    congr 1
    omega

/-- Null pointers are filled in one after another. -/
theorem allocateDirectFrom_fills (h : BlocksConsistent v) (ha : Allocatable v.part) (hdone : done ≤ wanted)
    (hnull : ∀ j, i ≤ j → j < i + n → iBlock inode j = 0)
    (hrun : allocateDirectFrom wanted v inode done i n = (result, inode', w)) :
    ∃ data, Fills v w wanted done n result data ∧
      ∀ j, iBlock inode' j = overlay (iBlock inode) i data j := by
  induction n generalizing v inode done i with
  | zero =>
    cases hrun
    exact ⟨[], .nil h hdone (.inr rfl), fun j => by rw [overlay_nil]⟩
  | succ n ih =>
    rw [allocateDirectFrom] at hrun
    split at hrun
    · rename_i heq
      cases hrun
      exact ⟨[], .nil h hdone (.inl heq), fun j => by rw [overlay_nil]⟩
    · rename_i hne
      rw [if_neg (not_not_intro (hnull i (Nat.le_refl i) (by omega)))] at hrun
      simp only at hrun
      rcases allocateBlock_taken h ha with ⟨hzero, hsame, he⟩ | ⟨hpos, htaken⟩
      · rw [if_pos hzero, hzero] at hrun
        cases hrun
        refine ⟨[], .none h hsame he, fun j => ?_⟩
        rw [overlay_nil, iBlock_setIBlock (by omega)]
        split
        · rename_i hij
          rw [hij, hnull i (Nat.le_refl i) (by omega)]
        · rfl
      · rw [if_neg (by omega)] at hrun
        have hl := htaken.layout
        have hset (j : Nat) : iBlock (setIBlock inode i (allocateBlock v).1) j =
            if j = i then (allocateBlock v).1 else iBlock inode j := iBlock_setIBlock htaken.block_lt
        obtain ⟨data, hfills, hpointers⟩ := ih htaken.consistent (hl.allocatable ha) (by omega)
          (fun j hij hj => by rw [hset, if_neg (by omega)]; exact hnull j (by omega) (by omega)) hrun
        exact ⟨_, .cons htaken hfills, fun j => (hpointers j).trans (overlay_cons hset)⟩

theorem load_store_entry (hb : b < 4294967296) :
    load (store table (4 * i) 4 b) (4 * j) 4 = if j = i then b else load table (4 * j) 4 := by
  split
  · rename_i hij
    rw [hij, load_store_same]
    exact Nat.mod_eq_of_lt hb
  · exact load_store_apart _ (by unfold Apart; omega)

/-- The entries of a table are filled in one after another. -/
theorem allocateEntriesFrom_fills (h : BlocksConsistent v) (ha : Allocatable v.part) (hdone : done ≤ wanted)
    (hrun : allocateEntriesFrom wanted v table done i n = (result, table', w)) :
    ∃ data, Fills v w wanted done n result data ∧ (result ≠ none → ∀ j, load table' (4 * j) 4 =
      overlay (fun j => load table (4 * j) 4) i data j) := by
  induction n generalizing v table done i with
  | zero =>
    cases hrun
    exact ⟨[], .nil h hdone (.inr rfl), fun _ j => by rw [overlay_nil]⟩
  | succ n ih =>
    rw [allocateEntriesFrom] at hrun
    split at hrun
    · rename_i heq
      cases hrun
      exact ⟨[], .nil h hdone (.inl heq), fun _ j => by rw [overlay_nil]⟩
    · rename_i hne
      simp only at hrun
      rcases allocateBlock_taken h ha with ⟨hzero, hsame, he⟩ | ⟨hpos, htaken⟩
      · rw [if_pos hzero] at hrun
        cases hrun
        exact ⟨[], .none h hsame he, fun hne => absurd rfl hne⟩
      · rw [if_neg (by omega)] at hrun
        obtain ⟨data, hfills, hentries⟩ := ih htaken.consistent (htaken.layout.allocatable ha) (by omega) hrun
        exact ⟨_, .cons htaken hfills, fun hne j => (hentries hne j).trans
          (overlay_cons fun j => load_store_entry htaken.block_lt)⟩

/-! ## One block of pointers -/

/-- No free block has a sector in `S`. -/
def FreeApart (v : Volume) (S : Nat → Prop) : Prop :=
  ∀ b, v.part.IsBlock b → v.blockBit b = false → ∀ s, v.part.BlockSpan b s → ¬ S s

theorem FreeApart.taken {S : Nat → Prop} (hf : FreeApart v S) (h : Taken v w blocks) : FreeApart w S := by
  intro b hb hbit s hs
  have hb := h.layout.isBlock.mp hb
  refine hf b hb (Bool.eq_false_iff.mpr fun hset => ?_) s ((Partition.blockSpan_congr h.layout).mp hs)
  rw [(h.bits b hb).mpr (.inl hset)] at hbit
  cases hbit

theorem FreeApart.congr {S T : Nat → Prop} (hf : FreeApart v S) (h : ∀ s, T s → S s) : FreeApart v T :=
  fun b hb hbit s hs ht => hf b hb hbit s hs (h s ht)

/-- A write beside the bitmaps takes nothing. -/
theorem Taken.of_alters {S : Nat → Prop} (h : BlocksConsistent v) (hr : BitmapsReached v.part)
    (halters : Alters S v w) (hpart : w.part = v.part) (hS : ∀ s, v.part.BitmapSpan s → ¬ S s) :
    Taken v w [] := by
  have hl := halters.layout
  have hsuper : v.part.super Superblock.freeBlocksCount < 4294967296 := Partition.super_lt
  refine ⟨hl, ⟨halters.bgdtBlock, halters.sbBlock⟩, h.transfer hl (halters.reliable h.reliable)
    fun i j hi hj hbit => h.padded i j hi hj ?_, fun c hc => ?_, fun b hb => ?_, .nil, fun g => ?_, ?_⟩
  · rw [← hbit, Volume.groupBlock, Volume.groupBlock, hl.group _ (by decide), hl.blockSector]
    exact (bit_congr (halters.block_eq h.mounted (hr.addressable i hi) (fun s hs => hS s ⟨i, hi, hs⟩)
      (by omega))).symm
  · rw [halters.blockBit h hr hc hS]
    simp
  · simp at hb
  · rw [hpart]
    rfl
  · rw [hpart]
    exact Nat.mod_eq_of_lt hsuper

/-- `ext2_allocate_indirect_block` on as many blocks as the sectors of the table that are written
hold pointers. -/
theorem allocateIndirectBlock_spec {target : Nat} (h : BlocksConsistent v) (ha : Allocatable v.part)
    (hfree : FreeApart v v.part.BitmapSpan) (hfit : wanted ≤ 128 * v.part.writtenSectors)
    (hrun : allocateIndirectBlock v wanted = (target, done, w)) :
    (done = 0 ∧ Exhausted w ∧ ∃ blocks, Taken v w blocks) ∨
    (done = wanted ∧ ∃ data, data.length = wanted ∧ Taken v w (target :: data) ∧
      ∀ j, j < wanted → w.pointer target j = data.getD j 0) := by
  unfold allocateIndirectBlock at hrun
  simp only at hrun
  rcases allocateBlock_taken h ha with ⟨hzero, hsame, he⟩ | ⟨hpos, htaken⟩
  · rw [if_pos hzero] at hrun
    cases hrun
    exact .inl ⟨rfl, he.unchanged hsame, _, .of_unchanged hsame (.nil (h.unchanged hsame))⟩
  rw [if_neg (by omega)] at hrun
  obtain ⟨b, hb⟩ : ∃ b, (allocateBlock v).1 = b := ⟨_, rfl⟩
  obtain ⟨x, hx⟩ : ∃ x, (kmalloc (allocateBlock v).2).2 = x := ⟨_, rfl⟩
  have hvx : Taken v x [b] := hb ▸ hx ▸ htaken.kmalloc
  rw [hb, hx] at hrun
  cases hentries : allocateEntriesFrom wanted x (kmalloc (allocateBlock v).2).1 0 0
      (x.part.blockSize / 4) with
  | mk result rest =>
    obtain ⟨table, y⟩ := rest
    obtain ⟨data, hfills, htable⟩ := allocateEntriesFrom_fills hvx.consistent (hvx.layout.allocatable ha)
      (Nat.zero_le wanted) hentries
    have hvy : Taken v y (b :: data) := hvx.trans hfills.taken
    rw [hentries] at hrun
    cases result with
    | none =>
      cases hrun
      exact .inl ⟨rfl, hfills.exhausted rfl, _, hvy⟩
    | some total =>
      obtain ⟨htotal, hle, hwhy⟩ := hfills.counted total rfl
      have hm := h.mounted
      have hsize := hm.blockSize_eq
      have hsectors := hm.writtenSectors_le
      have hl := hvy.layout
      have hblock := hl.blockSize
      rw [hvx.layout.blockSize] at hwhy
      have hfull : total = wanted := by omega
      obtain ⟨hisBlock, hclear⟩ := hvy.free b (List.mem_cons_self)
      have hupper : v.part.super Superblock.blocksCount < 4294967296 := Partition.super_lt
      have hreached : y.part.Reached b := ⟨by omega, (hl.allocatable ha).addressable b (hl.isBlock.mpr hisBlock),
        hisBlock.2.trans hupper⟩
      have hmy := hl.mounted hm
      have hwrite := writeBlock_reached table hmy hvy.consistent.reliable hreached
      simp only [hwrite] at hrun
      rw [if_neg (by omega)] at hrun
      cases hrun
      have halters := (Alters.refl (S := y.part.BlockSpan target) y).writeBlock hmy target table fun _ => id
      rw [hwrite] at halters
      refine .inr ⟨hfull, data, by omega, ?_, fun j hj => ?_⟩
      · have hwritten := Taken.of_alters hvy.consistent (hl.bitmapsReached ha.bitmaps) halters rfl
          fun s hs hspan => hfree target hisBlock hclear s ((Partition.blockSpan_congr hl).mp hspan)
            ((Partition.bitmapSpan_congr hl).mp hs)
        exact List.append_nil (target :: data) ▸ hvy.trans hwritten
      · -- the pointer lies in the sectors that are written
        have hentry := htable (Option.some_ne_none _) j
        have hin := overlay_in (f := fun j => load (kmalloc (allocateBlock v).2).1 (4 * j) 4) (i := 0)
          (show j < data.length by omega)
        rw [Nat.zero_add] at hin
        rw [Volume.pointer, Volume.after_part, Volume.after, Disk.after_image,
          load_copy_in _ _ (Nat.le_add_right _ _) (by rw [hl.writtenSectors]; omega), Nat.zero_add,
          Nat.add_sub_cancel_left, hentry, hin]

/-! ## `ext2_allocate_blocks` -/

/-- An allocator that takes nothing once no group has a free block. -/
def GivesUp (below : BlockAllocator) : Prop := ∀ v wanted, BlocksConsistent v → Allocatable v.part →
  Exhausted v → (below v wanted).2.1 = 0 ∧ Unchanged v (below v wanted).2.2

theorem givesUp_table (below : BlockAllocator) : GivesUp (allocateTable below) := by
  intro v wanted h _ he
  obtain ⟨hzero, hsame⟩ := he.allocateBlock h
  unfold allocateTable
  simp only [hzero, ite_true]
  exact ⟨trivial, hsame⟩

/-- The stages fail once no group has a free block. -/
theorem allocateStages_exhausted {stages : List (Nat × BlockAllocator)} (h : BlocksConsistent v)
    (ha : Allocatable v.part) (he : Exhausted v) (hstages : ∀ s ∈ stages, GivesUp s.2)
    (hlt : done < 4294967296) (hne : done ≠ wanted) :
    (allocateStages wanted stages inode done v).1 ≠ 0 := by
  induction stages generalizing v inode with
  | nil =>
    rw [allocateStages, if_neg hne]
    exact Nat.one_ne_zero
  | cons s stages ih =>
    obtain ⟨i, below⟩ := s
    obtain ⟨hmore, hsame⟩ := hstages _ (List.mem_cons_self) v (sub32 wanted done) h ha he
    simp only [allocateStages] at hmore hsame ⊢
    rw [if_neg hne, hmore, Nat.add_zero, u32_of_lt hlt]
    exact ih (h.unchanged hsame) (hsame.part ▸ ha) (he.unchanged hsame)
      fun s hs => hstages s (List.mem_cons_of_mem _ hs)

/-- Where the data of a growth lies: the pointers in use stay, and the logical blocks behind them
are the blocks of `data`, the first of them in direct blocks and the others below one table. -/
structure Appends (v w : Volume) (inode inode' : Bytes) (d : Nat) (data tables : List Nat) : Prop where
  taken : Taken v w (data ++ tables)
  kept : ∀ k, k < d → iBlock inode' k = iBlock inode k
  along : ∀ j, j < data.length → w.LogicalAlong inode' (· ∈ tables) (fun _ => True) (d + j)
  added : ∀ j, j < data.length → w.logicalBlock inode' (d + j) = data.getD j 0

/-- `ext2_allocate_blocks` for an inode of `d` direct blocks. -/
theorem allocateBlocks_appends {d : Nat} (h : BlocksConsistent v) (ha : Allocatable v.part)
    (hfree : FreeApart v v.part.BitmapSpan) (hused : ∀ i, i < d → iBlock inode i ≠ 0)
    (hnull : ∀ i, d ≤ i → i < 12 → iBlock inode i = 0) (hd : d ≤ 12) (hwanted : 0 < wanted)
    (hlt : wanted < 4294967296) (hfit : d + wanted ≤ 12 + 128 * v.part.writtenSectors)
    (hrun : allocateBlocks v inode wanted = (0, inode', w)) :
    ∃ data tables, data.length = wanted ∧ Appends v w inode inode' d data tables := by
  have hskip : allocateDirectFrom wanted v inode 0 0 (d + (12 - d)) =
      allocateDirectFrom wanted v inode 0 (0 + d) (12 - d) :=
    allocateDirectFrom_skip (by omega) fun j _ hj => hused j (by omega)
  rw [Nat.add_sub_cancel' hd, Nat.zero_add] at hskip
  unfold allocateBlocks at hrun
  rw [hskip] at hrun
  cases hdirect : allocateDirectFrom wanted v inode 0 d (12 - d) with
  | mk result rest =>
    obtain ⟨inode₁, w₁⟩ := rest
    obtain ⟨data₁, hfills, hpointers⟩ := allocateDirectFrom_fills h ha (Nat.zero_le wanted)
      (fun j hj hj' => hnull j hj (by omega)) hdirect
    rw [hdirect] at hrun
    have hlen := hfills.length_le
    cases result with
    | none => cases hrun
    | some done =>
      obtain ⟨htotal, hle, hwhy⟩ := hfills.counted done rfl
      rw [Nat.zero_add] at htotal
      subst htotal
      simp only [allocateStages] at hrun
      have hin (j : Nat) (hj : j < data₁.length) : iBlock inode₁ (d + j) = data₁.getD j 0 := by
        rw [hpointers, overlay_in hj]
      by_cases hdone : data₁.length = wanted
      · rw [if_pos hdone] at hrun
        cases hrun
        refine ⟨data₁, [], hdone, ?_, fun k hk => ?_, fun j hj => ?_, fun j hj => ?_⟩
        · rw [List.append_nil]
          exact hfills.taken
        · rw [hpointers, overlay_of_lt hk]
        · exact (Volume.logicalAlong_direct (by omega)).mpr trivial
        · rw [Volume.logicalBlock_direct (by omega), hin j hj]
      · have hl := hfills.taken.layout
        have hwritten := h.mounted.writtenSectors_le
        have hsize := h.mounted.blockSize_eq
        have hfull : data₁.length = 12 - d := by omega
        rw [if_neg hdone] at hrun
        cases hindirect : allocateIndirectBlock w₁ (sub32 wanted data₁.length) with
        | mk target rest =>
          obtain ⟨more, w₂⟩ := rest
          rw [sub32_of_le hle hlt] at hindirect
          rw [sub32_of_le hle hlt, hindirect] at hrun
          simp only at hrun
          rcases allocateIndirectBlock_spec hfills.taken.consistent (hl.allocatable ha)
            ((hfree.taken hfills.taken).congr fun s => (Partition.bitmapSpan_congr hl).mp)
            (by rw [hl.writtenSectors]; omega) hindirect with
            ⟨rfl, he, blocks, htaken⟩ | ⟨rfl, data₂, hlen₂, htaken, hentries⟩
          · -- the stages that are left find no block either
            rw [Nat.add_zero, u32_of_lt (by omega), if_neg hdone] at hrun
            have hl₂ := htaken.layout
            have hfails : (allocateStages wanted [(13, allocateDoubleIndirectBlock),
                (14, allocateTripleIndirectBlock)] (setIBlock inode₁ 12 target) data₁.length w₂).1 ≠ 0 := by
              refine allocateStages_exhausted htaken.consistent (hl₂.allocatable (hl.allocatable ha)) he
                (fun s hs => ?_) (by omega) hdone
              rcases List.mem_cons.mp hs with rfl | hs
              · exact givesUp_table _
              · rw [List.mem_singleton.mp hs]
                exact givesUp_table _
            simp only [allocateStages, if_neg hdone] at hfails
            rw [hrun] at hfails
            exact absurd rfl hfails
          · rw [Nat.add_sub_cancel' hle, u32_of_lt hlt, if_pos rfl] at hrun
            cases hrun
            have hupper : w₁.part.super Superblock.blocksCount < 4294967296 := Partition.super_lt
            have htarget : target < 4294967296 :=
              (htaken.free target (List.mem_cons_self)).1.2.trans hupper
            have hset (j : Nat) : iBlock (setIBlock inode₁ 12 target) j =
                if j = 12 then target else iBlock inode₁ j := iBlock_setIBlock htarget
            have hpointers₂ : w.pointers = v.part.blockSize / 4 := by
              rw [Volume.pointers, htaken.layout.blockSize, hl.blockSize]
            have hdirect (j : Nat) (hj : j < data₁.length) :
                iBlock (setIBlock inode₁ 12 target) (d + j) = (data₁ ++ data₂).getD j 0 := by
              rw [hset, if_neg (by omega), hin j hj, List.getD_append _ _ _ _ hj]
            have hsplit {j : Nat} (hj : ¬ j < data₁.length) (hlt : j < (data₁ ++ data₂).length) :
                d + j = 12 + (j - data₁.length) ∧ j - data₁.length < data₂.length := by
              rw [List.length_append] at hlt
              omega
            refine ⟨data₁ ++ data₂, [target], by rw [List.length_append]; omega, ?_, fun k hk => ?_,
              fun j hj => ?_, fun j hj => ?_⟩
            · refine (hfills.taken.trans htaken).perm ?_
              rw [List.append_assoc]
              exact (List.perm_append_singleton target data₂).symm.append_left data₁
            · rw [hset, if_neg (by omega), hpointers, overlay_of_lt hk]
            · by_cases hj₁ : j < data₁.length
              · exact (Volume.logicalAlong_direct (by omega)).mpr trivial
              · obtain ⟨hplace, hrest⟩ := hsplit hj₁ hj
                rw [hplace, Volume.logicalAlong_single (by omega), Along]
                rw [Nat.pow_one, Nat.div_eq_of_lt (by omega), hset, if_pos rfl]
                exact ⟨List.mem_singleton_self target, trivial⟩
            · by_cases hj₁ : j < data₁.length
              · rw [Volume.logicalBlock_direct (by omega), hdirect j hj₁]
              · obtain ⟨hplace, hrest⟩ := hsplit hj₁ hj
                rw [hplace, Volume.logicalBlock_single (by omega), leaf, leaf, Nat.pow_one,
                  Nat.div_eq_of_lt (by omega), Nat.mod_eq_of_lt (by omega), hset, if_pos rfl,
                  hentries _ (by omega), List.getD_append_right _ _ _ _ (by omega)]

end
end

/-! ## `ext2_resize_file` to a larger size -/

section

variable {v w : Volume} {d n newSize : Nat}

/-- The sectors that a resize of inode `n` writes besides blocks of pointers. -/
def Volume.ResizeSpan (v : Volume) (n s : Nat) : Prop :=
  v.part.BitmapSpan s ∨ v.part.InodeSpan n s ∨ v.part.FlushSpan s

/-- An inode of `d` direct blocks, on a volume where no free block shares a sector with what a
resize writes. -/
structure Growable (v : Volume) (n d : Nat) : Prop where
  consistent : BlocksConsistent v
  allocatable : Allocatable v.part
  fits : InodeFits v.part n
  free : FreeApart v (v.ResizeSpan n)
  bitmaps : ∀ s, v.part.BitmapSpan s → ¬ (v.part.InodeSpan n s ∨ v.part.FlushSpan s)
  inode : ∀ s, v.part.InodeSpan n s → ¬ v.part.FlushSpan s
  direct : d ≤ 12
  used : ∀ i, i < d → iBlock (v.inodeBytes n) i ≠ 0
  null : ∀ i, d ≤ i → i < 12 → iBlock (v.inodeBytes n) i = 0

/-- The file has the new size, its first `d` blocks and behind them the blocks of `data`. These and
the blocks of `tables` were free, and are the only ones taken. -/
structure Extended (v w : Volume) (n d newSize : Nat) (data tables : List Nat) : Prop where
  size : w.fileSize n = newSize
  kept : ∀ k, k < d → w.logicalBlock (w.inodeBytes n) k = v.logicalBlock (v.inodeBytes n) k
  added : ∀ j, j < data.length → w.logicalBlock (w.inodeBytes n) (d + j) = data.getD j 0
  bits : ∀ c, v.part.IsBlock c →
    (w.blockBit c = true ↔ v.blockBit c = true ∨ c ∈ data ++ tables)
  free : ∀ b ∈ data ++ tables, v.part.IsBlock b ∧ v.blockBit b = false
  nodup : (data ++ tables).Nodup

theorem blocksToAllocate_eq {p : Partition} (hm : Mounted p) (x : Nat) :
    (if x % p.blockSize ≠ 0 then x / p.blockSize + 1 else x / p.blockSize) = p.blocksFor x := by
  have hsize := hm.blockSize_bounds
  have hdiv := Nat.div_add_mod x p.blockSize
  rw [Partition.blocksFor]
  split
  · refine (Nat.div_eq_of_lt_le ?_ ?_).symm
    · rw [Nat.succ_mul, Nat.mul_comm]
      omega
    · rw [Nat.succ_mul, Nat.succ_mul, Nat.mul_comm]
      have := Nat.mod_lt x (show 0 < p.blockSize by omega)
      omega
  · refine (Nat.div_eq_of_lt_le ?_ ?_).symm
    · rw [Nat.mul_comm]
      omega
    · rw [Nat.succ_mul, Nat.mul_comm]
      omega

/-- A growth that is reported as done. -/
theorem resizeFile_extends (h : Growable v n d) (hnew : v.fileSize n < newSize) (hlt : newSize < 4294967296)
    (hfit : d + v.part.blocksFor (newSize - v.fileSize n) ≤ 12 + 128 * v.part.writtenSectors)
    (hok : (resizeFile v n newSize).1 = EXT2_RESULT_OK) :
    ∃ data tables, data.length = v.part.blocksFor (newSize - v.fileSize n) ∧
      Extended v (resizeFile v n newSize).2 n d newSize data tables := by
  have hm := h.consistent.mounted
  have hsize := hm.blockSize_bounds
  obtain ⟨inode, w, hread, hw, hbegins⟩ := readInode_prefix hm h.consistent.reliable h.fits
  have hfield : InodeDescriptor.size.get inode 0 = v.fileSize n :=
    Field.get_congr (n := 100) (by decide) fun x _ hx => hbegins x (by omega)
  have hblock {i : Nat} (hi : i < 15) : iBlock inode i = iBlock (v.inodeBytes n) i := iBlock_congr hbegins hi
  simp only [resizeFile, hread, hfield, hw.part] at hok ⊢
  rw [if_neg (by omega), if_neg (by omega), blocksToAllocate_eq hm] at hok ⊢
  obtain ⟨m, hcount⟩ : ∃ m, v.part.blocksFor (newSize - v.fileSize n) = m := ⟨_, rfl⟩
  rw [hcount] at hfit hok ⊢
  have hpos : 0 < m := hcount ▸ hm.lt_blocksFor.mpr (by omega)
  have hmlt : m < 4294967296 := by
    have hle : m ≤ newSize - v.fileSize n := by
      by_contra hgt
      have := hm.lt_blocksFor.mp (hcount.symm ▸ not_le.mp hgt)
      have := Nat.le_mul_of_pos_right (newSize - v.fileSize n) (show 0 < v.part.blockSize by omega)
      omega
    omega
  cases hallocate : allocateBlocks w inode m with
  | mk failed rest =>
    obtain ⟨inode', y⟩ := rest
    simp only [hallocate] at hok ⊢
    by_cases hfailed : failed = 0
    swap
    · rw [if_pos hfailed] at hok
      cases hok
    subst hfailed
    rw [if_neg (fun hne => hne rfl)] at hok ⊢
    have hfree : FreeApart w w.part.BitmapSpan := by
      intro b hb hbit s hs hspan
      rw [hw.blockBit] at hbit
      rw [hw.part] at hb hs hspan
      exact h.free b hb hbit s hs (.inl hspan)
    obtain ⟨data, tables, hlen, happends⟩ := allocateBlocks_appends (h.consistent.unchanged hw)
      (hw.part.symm ▸ h.allocatable) hfree (fun i hi => by rw [hblock (by have := h.direct; omega)]; exact h.used i hi)
      (fun i hi hi' => by rw [hblock (by omega)]; exact h.null i hi hi') h.direct hpos hmlt
      (by rw [hw.part]; exact hfit) hallocate
    have htaken : Taken v y (data ++ tables) := .of_unchanged hw happends.taken
    have hl := htaken.layout
    have hall : Alters (fun _ => True) v y :=
      ⟨hl, htaken.flush.1, htaken.flush.2, fun _ => htaken.consistent.reliable, fun a ha => absurd trivial ha⟩
    obtain ⟨-, hend, hbytes⟩ := finishResize_spec inode' newSize (hl.mounted hm) htaken.consistent.reliable
      (hl.inodeFits h.fits) fun s hi hf =>
        h.inode s ((Partition.inodeSpan_congr hl).mp hi) ((hall.flushSpan s).mp hf)
    have hspan (s : Nat) (hspan : y.part.InodeSpan n s ∨ y.part.FlushSpan s) :
        v.part.InodeSpan n s ∨ v.part.FlushSpan s :=
      hspan.imp (Partition.inodeSpan_congr hl).mp (hall.flushSpan s).mp
    have hpointer {i : Nat} (hi : i < 15) : iBlock ((finishResize y n inode' newSize).2.inodeBytes n) i =
        iBlock inode' i := by rw [iBlock_congr hbytes hi, iBlock_resizedInode]
    have hdirect := h.direct
    refine ⟨data, tables, hlen, ?_, fun k hk => ?_, fun j hj => ?_, fun c hc => ?_, htaken.free, htaken.nodup⟩
    · rw [Volume.fileSize, Field.get_congr (f := InodeDescriptor.size) (n := 100) (by decide)
        fun x _ hx => hbytes x (by omega)]
      exact size_resizedInode hlt
    · rw [Volume.logicalBlock_direct (by omega), Volume.logicalBlock_direct (by omega), hpointer (by omega),
        happends.kept k hk, hblock (by omega)]
    · -- the table is a block that was free, where the end of the resize writes nothing
      rw [← happends.added j hj]
      refine (happends.along j hj).logicalBlock_eq hend.pointers (fun b hb i hi => ?_) fun i hi => hpointer hi
      obtain ⟨hisBlock, hclear⟩ := htaken.free b (List.mem_append_right _ hb)
      have hone := h.allocatable.first
      have hupper : v.part.super Superblock.blocksCount < 4294967296 := Partition.super_lt
      have hlower := hisBlock.1
      refine hend.pointer (hl.mounted hm) ⟨by omega, ?_, hisBlock.2.trans hupper⟩ (fun s hs hin => ?_) hi
      · exact (hl.addressable b).mpr (h.allocatable.addressable b hisBlock)
      · exact h.free b hisBlock hclear s ((Partition.blockSpan_congr hl).mp hs) (.inr (hspan s hin))
    · have hkept := hend.blockBit htaken.consistent (hl.bitmapsReached h.allocatable.bitmaps)
        (hl.isBlock.mpr hc) fun s hb hi => h.bitmaps s ((Partition.bitmapSpan_congr hl).mp hb) (hspan s hi)
      rw [hkept, htaken.bits c hc]

end

theorem growable_fileVolume : Growable fileVolume 1 12 := by
  have hbpg : filePartition.super Superblock.blocksPerGroup = 4096 := by decide +kernel
  have hcount : filePartition.super Superblock.blocksCount = 4096 := by decide +kernel
  have hone : filePartition.super Superblock.firstSbBlock = 1 := by decide +kernel
  have hwritten : filePartition.writtenSectors = 1 := by decide +kernel
  have hsize : filePartition.blockSize = 1024 := by decide +kernel
  have hsectors : filePartition.blockSectors = 2 := by decide +kernel
  have hfirst : ∀ b, b < 4 → 1 ≤ b → fileVolume.blockBit b = true := by decide +kernel
  have hisBlock {b : Nat} (hb : fileVolume.part.IsBlock b) : 1 ≤ b ∧ b < 4096 := by
    change filePartition.super _ ≤ b ∧ b < filePartition.super _ at hb
    rwa [hone, hcount] at hb
  refine ⟨blocksConsistent_fileVolume, ⟨hone, ?_, owned_fileVolume.bitmaps, fun b hb => ?_⟩,
    readable_fileVolume.fits, fun b hb hclear s hs => ?_, separate_fileVolume.bitmaps,
    separate_fileVolume.inode, Nat.le_refl 12, by decide +kernel, fun i hi hi' => absurd hi' (by omega)⟩
  · change filePartition.super _ ≤ 4096 * filePartition.writtenSectors
    rw [hbpg, hwritten]
  · have hrange := hisBlock hb
    refine mounted_filePartition.addressable ?_ ?_
    · rw [hsize]
      omega
    · change 0 + b * filePartition.blockSectors < _
      rw [hsectors]
      omega
  · have hrange := hisBlock hb
    refine data_apart_fileVolume ⟨?_, hrange.2⟩ hs
    by_contra hlt
    rw [hfirst b (by omega) hrange.1] at hclear
    cases hclear

end UnedKernel.Ext2
