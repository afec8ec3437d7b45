import UnedKernel.Ext2.BlockTree

/-! # What a walk over a tree of blocks transfers

A walk of level `n` with nothing to skip transfers the first leaves of the tree
below its blocks, in order. The argument does not depend on what a transfer
does: it needs that the transfer of a leaf succeeds with a known effect, and
that the tables on the way read as they stand. -/

namespace UnedKernel.Ext2
open ByteMem Word Indirect

variable {ω : Type}

/-- A transfer succeeds on the leaves, with the effect `step` on what is observed,
and the tables of the tree are read as `tbl`. -/
structure Transfers (transfer : Transfer) (size : Nat) (tbl : Nat → Nat → Nat)
    (obs : Walk → ω) (step : ω → Nat → Nat → ω) (good : Walk → Prop) (T L : Nat → Prop) : Prop where
  blockSize : ∀ w, good w → w.vol.part.blockSize = size
  leaf : ∀ w b pos, good w → L b → ∃ w', transfer w b pos = (1, w') ∧ good w' ∧
    w'.skip = w.skip ∧ obs w' = step (obs w) b pos
  table : ∀ w b, good w → T b → ∃ table vol,
    readBlock (kmalloc w.vol).2 b (kmalloc w.vol).1 = (1, table, vol) ∧
    good { w with vol := vol } ∧ obs { w with vol := vol } = obs w ∧
    ∀ k, k < size / 4 → load table (4 * k) 4 = tbl b k
  skip : ∀ w n, good w → good { w with skip := n } ∧ obs { w with skip := n } = obs w

/-- A walk of level `n` with nothing to skip transfers the first `count` leaves,
or all of them. -/
def Walks (size : Nat) (tbl : Nat → Nat → Nat) (obs : Walk → ω) (step : ω → Nat → Nat → ω)
    (good : Walk → Prop) (T L : Nat → Prop) (walk : BlockWalk) (n : Nat) : Prop :=
  ∀ (blocks roots : Nat → Nat) (max pos count : Nat) (w : Walk), good w → w.skip = 0 →
    0 < count → count < 4294967296 → (∀ i, i < max → blocks i = roots i) →
    (∀ k, k < min count (max * (size / 4) ^ n) → Along tbl (size / 4) T L n roots k) →
    min count (max * (size / 4) ^ n) < 4294967293 →
    ∃ w', walk blocks max pos count w = (((min count (max * (size / 4) ^ n) : Nat) : Int), w') ∧
      good w' ∧ w'.skip = 0 ∧
      obs w' = fold step (leaf tbl (size / 4) n roots) size pos
        (min count (max * (size / 4) ^ n)) (obs w)

section walks

variable {transfer : Transfer} {size : Nat} {tbl : Nat → Nat → Nat} {obs : Walk → ω}
  {step : ω → Nat → Nat → ω} {good : Walk → Prop} {T L : Nat → Prop} {failed : Int}
  {blocks roots : Nat → Nat} {count pos i n done : Nat} {w : Walk}

/-- The loop over direct blocks when `i` of them are transferred. -/
theorem directFrom_spec (ht : Transfers transfer size tbl obs step good T L)
    (hfailed : 4294967293 ≤ failed) (pos : Nat) (o : ω) (hcount : count < 4294967296)
    (hw : good w) (hskip : w.skip = 0) (hi : i < count)
    (hblocks : ∀ k, k < i + n → blocks k = roots k)
    (hleaves : ∀ k, k < min count (i + n) → L (roots k))
    (hobs : obs w = fold step roots size pos i o) :
    ∃ w', directFrom transfer failed size blocks count n i (pos + i * size) i w =
        (((min count (i + n) : Nat) : Int), w') ∧ good w' ∧ w'.skip = 0 ∧
      obs w' = fold step roots size pos (min count (i + n)) o := by
  induction n generalizing i w with
  | zero =>
    have hmin : min count (i + 0) = i := Nat.min_eq_right (Nat.le_of_lt hi)
    rw [hmin]
    exact ⟨w, rfl, hw, hskip, hobs⟩
  | succ n ih =>
    obtain ⟨w₁, htransfer, hgood, hskip₁, hobs₁⟩ := ht.leaf w (blocks i) (pos + i * size) hw
      (hblocks i (by omega) ▸ hleaves i (by omega))
    have hfold : obs w₁ = fold step roots size pos (i + 1) o := by
      rw [hobs₁, hobs, hblocks i (by omega), fold]
    unfold directFrom
    rw [if_neg (by rw [hskip]; exact Nat.lt_irrefl 0), htransfer]
    simp only
    rw [if_neg (by omega), if_neg (by decide), Int.toNat_one, u64_of_lt (show i + 1 < 18446744073709551616 by omega)]
    by_cases hlast : i + 1 = count
    · rw [if_pos hlast]
      have hmin : min count (i + (n + 1)) = i + 1 := by omega
      rw [hmin]
      exact ⟨w₁, rfl, hgood, hskip₁.trans hskip, hfold⟩
    · rw [if_neg hlast, show pos + i * size + size = pos + (i + 1) * size by rw [Nat.succ_mul]; omega,
        show i + (n + 1) = i + 1 + n by omega]
      exact ih hgood (hskip₁.trans hskip) (by omega) (fun k hk => hblocks k (by omega))
        (fun k hk => hleaves k (by omega)) hfold

theorem walks_direct (ht : Transfers transfer size tbl obs step good T L)
    (hfailed : 4294967293 ≤ failed) :
    Walks size tbl obs step good T L (directWalk transfer failed) 0 := by
  intro blocks roots max pos count w hw hskip hpos hcount hblocks hleaves _
  have h := directFrom_spec (i := 0) (n := max) ht hfailed pos (obs w) hcount hw hskip hpos
    (by rwa [Nat.zero_add]) (by simpa [Along] using hleaves) rfl
  rw [Nat.zero_mul, Nat.add_zero, Nat.zero_add] at h
  rw [Nat.pow_zero, Nat.mul_one]
  unfold directWalk
  rw [ht.blockSize w hw]
  exact h

/-- The loop over blocks of pointers when the leaves below the first `i` are
transferred, `cap` of them below each. -/
theorem indirectFrom_spec {walk : BlockWalk} {level cap : Nat} {wrap : Nat → Nat}
    (ht : Transfers transfer size tbl obs step good T L)
    (hwalk : Walks size tbl obs step good T L walk level)
    (hfailed : 4294967293 ≤ failed) (hwrap : ∀ a, a < 4294967296 → wrap a = a)
    (hcap : (size / 4) ^ (level + 1) = cap) (hpos : 0 < cap) (pos : Nat) (o : ω)
    (hcount : count < 4294967296) (hw : good w) (hskip : w.skip = 0) (hi : i * cap < count)
    (hblocks : ∀ k, k < i + n → blocks k = roots k)
    (hleaves : ∀ k, k < min count ((i + n) * cap) →
      Along tbl (size / 4) T L (level + 1) roots k)
    (hlt : min count ((i + n) * cap) < 4294967293)
    (hobs : obs w = fold step (leaf tbl (size / 4) (level + 1) roots) size pos (i * cap) o) :
    ∃ w', indirectFrom walk failed wrap size blocks count n i (pos + i * cap * size) (i * cap) w =
        (((min count ((i + n) * cap) : Nat) : Int), w') ∧ good w' ∧ w'.skip = 0 ∧
      obs w' = fold step (leaf tbl (size / 4) (level + 1) roots) size pos
        (min count ((i + n) * cap)) o := by
  induction n generalizing i w with
  | zero =>
    rw [Nat.add_zero, Nat.min_eq_right (Nat.le_of_lt hi)]
    exact ⟨w, rfl, hw, hskip, hobs⟩
  | succ n ih =>
    have hnext : (i + 1) * cap = i * cap + cap := Nat.succ_mul i cap
    have hroom : (i + 1) * cap ≤ (i + (n + 1)) * cap := Nat.mul_le_mul_right cap (by omega)
    have hbelow : size / 4 * (size / 4) ^ level = cap := by rw [← Nat.pow_succ', hcap]
    have hunder {k : Nat} (hk : k < cap) (hk' : i * cap + k < count) :
        T (roots i) ∧ Along tbl (size / 4) T L level (tbl (roots i)) k := by
      have h := hleaves (i * cap + k) (by omega)
      rw [← hcap] at h hk
      exact (along_add hk).mp h
    obtain ⟨table, vol, hread, hgood, hsame, htable⟩ := ht.table w (roots i) hw
      (hunder hpos hi).1
    -- the walk below root `i` takes what remains, or the whole of its tree
    obtain ⟨w₁, hrun, hgood₁, hskip₁, hobs₁⟩ := hwalk (fun k => load table (4 * k) 4)
      (tbl (roots i)) (size / 4) (pos + i * cap * size) (count - i * cap) { w with vol := vol }
      hgood hskip (by omega) (by omega) htable
      (fun k hk => (hunder (by omega) (by omega)).2) (by omega)
    rw [hbelow] at hrun hobs₁
    rw [hsame, hobs] at hobs₁
    obtain ⟨t, ht'⟩ : ∃ t, min (count - i * cap) cap = t := ⟨_, rfl⟩
    rw [ht'] at hrun hobs₁
    have hfold : obs w₁ = fold step (leaf tbl (size / 4) (level + 1) roots) size pos
        (i * cap + t) o := by
      rw [hobs₁, ← fold_add]
      refine fold_congr fun k hk => ?_
      rw [← hcap]
      exact (leaf_add (by omega)).symm
    unfold indirectFrom
    simp only [hblocks i (by omega), hread]
    rw [if_neg (by decide), sub64_of_le (Nat.le_of_lt hi) (by omega)]
    simp only [hrun, Int.toNat_natCast]
    rw [if_neg (by omega), hwrap _ (by omega)]
    by_cases hlast : i * cap + t = count
    · rw [if_pos hlast, Nat.min_eq_left (by omega)]
      rw [hlast] at hfold ⊢
      exact ⟨w₁, rfl, hgood₁, hskip₁, hfold⟩
    · -- the tree below root `i` is done
      obtain rfl : t = cap := by omega
      rw [if_neg hlast, Nat.add_assoc, ← Nat.add_mul, ← hnext, show i + (n + 1) = i + 1 + n by omega]
      exact ih hgood₁ hskip₁ (by omega) (fun k hk => hblocks k (by omega))
        (fun k hk => hleaves k (by rwa [show i + (n + 1) = i + 1 + n by omega]))
        (by rwa [show i + 1 + n = i + (n + 1) by omega]) (hnext ▸ hfold)

theorem walks_indirect {walk : BlockWalk} {level : Nat} {wrap : Nat → Nat}
    (ht : Transfers transfer size tbl obs step good T L)
    (hwalk : Walks size tbl obs step good T L walk level)
    (hfailed : 4294967293 ≤ failed) (hwrap : ∀ a, a < 4294967296 → wrap a = a)
    (hsize : 0 < size / 4) :
    Walks size tbl obs step good T L (indirectWalk walk failed wrap) (level + 1) := by
  intro blocks roots max pos count w hw hskip hpos hcount hblocks hleaves hlt
  have h := indirectFrom_spec (i := 0) (n := max) ht hwalk hfailed hwrap rfl (Nat.pow_pos hsize) pos
    (obs w) hcount hw hskip (by rwa [Nat.zero_mul]) (by rwa [Nat.zero_add]) (by rwa [Nat.zero_add])
    (by rwa [Nat.zero_add]) (by rw [Nat.zero_mul]; rfl)
  rw [Nat.zero_mul, Nat.zero_mul, Nat.add_zero, Nat.zero_add] at h
  unfold indirectWalk
  rw [ht.blockSize w hw]
  exact h

/-! ## Skipped blocks -/

/-- The loop over direct blocks passes the blocks to skip. -/
theorem directFrom_skip (h : w.skip ≤ n) :
    directFrom transfer failed size blocks count n i pos done w =
      directFrom transfer failed size blocks count (n - w.skip) (i + w.skip) pos done
        { w with skip := 0 } := by
  obtain ⟨s, hs⟩ : ∃ s, w.skip = s := ⟨_, rfl⟩
  induction s generalizing n i w with
  | zero =>
    rw [hs, Nat.sub_zero, Nat.add_zero]
    congr 1
    rw [← hs]
  | succ s ih =>
    cases n with
    | zero => omega
    | succ n =>
      rw [directFrom, if_pos (by omega), ih (w := { w with skip := w.skip - 1 }) (by simp only; omega)
        (by simp only; omega)]
      simp only
      congr 1 <;> omega

/-- With as many blocks to skip as there are, nothing is transferred. -/
theorem directFrom_skip_all (h : n ≤ w.skip) :
    directFrom transfer failed size blocks count n i pos done w =
      ((done : Int), { w with skip := w.skip - n }) := by
  induction n generalizing i w with
  | zero => rfl
  | succ n ih =>
    rw [directFrom, if_pos (by omega), ih (by simp only; omega)]
    simp only [Nat.sub_sub, Nat.add_comm 1 n]

/-- The loop from block `s` on is the loop over the blocks from `s` on. -/
theorem directFrom_shift {s : Nat} :
    directFrom transfer failed size blocks count n (s + i) pos done w =
      directFrom transfer failed size (fun k => blocks (s + k)) count n i pos done w := by
  induction n generalizing i pos done w with
  | zero => rfl
  | succ n ih =>
    rw [directFrom, directFrom]
    simp only [Nat.add_assoc s i 1, ih]

/-- The direct blocks after those to skip. -/
theorem directWalk_skip (ht : Transfers transfer size tbl obs step good T L)
    (hfailed : 4294967293 ≤ failed) {s max : Nat} (hw : good w) (hskip : w.skip = s)
    (hs : s ≤ max) (hpos : 0 < count) (hcount : count < 4294967296)
    (hleaves : ∀ k, k < min count (max - s) → L (blocks (s + k))) :
    ∃ w', directWalk transfer failed blocks max pos count w =
        (((min count (max - s) : Nat) : Int), w') ∧ good w' ∧ w'.skip = 0 ∧
      obs w' = fold step (fun k => blocks (s + k)) size pos (min count (max - s)) (obs w) := by
  have hzero := ht.skip w 0 hw
  have h := directFrom_spec (i := 0) (n := max - s) ht hfailed pos (obs w) hcount hzero.1 rfl hpos
    (fun k _ => Eq.refl (blocks (s + k))) (by rwa [Nat.zero_add]) hzero.2
  rw [Nat.zero_mul, Nat.add_zero, Nat.zero_add] at h
  unfold directWalk
  rw [ht.blockSize w hw, directFrom_skip (by omega), hskip, Nat.zero_add, ← Nat.add_zero s,
    directFrom_shift]
  exact h

/-! ## The stages -/

/-- A walk below one root, as a stage. -/
theorem Walks.stage {walk : BlockWalk} {level cap : Nat}
    (h : Walks size tbl obs step good T L walk level) (hcap : (size / 4) ^ level = cap) (hw : good w)
    (hskip : w.skip = 0) (hpos : 0 < count) (hcount : count < 4294967296)
    (hleaves : ∀ k, k < min count cap → Along tbl (size / 4) T L level roots k)
    (hlt : min count cap < 4294967293) :
    ∃ w', walk roots 1 pos count w = (((min count cap : Nat) : Int), w') ∧ good w' ∧
      w'.skip = 0 ∧
      obs w' = fold step (leaf tbl (size / 4) level roots) size pos (min count cap) (obs w) := by
  have hrun := h roots roots 1 pos count w hw hskip hpos hcount (fun _ _ => rfl)
  rw [hcap, Nat.one_mul] at hrun
  exact hrun hleaves hlt

/-- A stage that transfers nothing ends the transfer. -/
theorem stagesFrom_cons_stop {stage : Nat → Nat → Walk → Int × Walk}
    {stages : List (Nat → Nat → Walk → Int × Walk)} {w' : Walk}
    (h : stage pos (sub64 count done) w = (0, w')) :
    stagesFrom failed size count (stage :: stages) pos done w = (0, w') := by
  unfold stagesFrom
  simp only [h, or_true, ite_true]

/-- A stage that transfers what it can of the blocks `done, done + 1, ...` leaves
the rest to the stages after it. -/
theorem stagesFrom_cons {stage : Nat → Nat → Walk → Int × Walk}
    {stages : List (Nat → Nat → Walk → Int × Walk)} {all : Nat → Nat} {start : Nat} {o : ω}
    (cap : Nat) (leaves : Nat → Nat) (hfailed : 4294967293 ≤ failed) (hcount : count < 4294967296) (hdone : done < count)
    (hstart : start = done * size) (hcap : 0 < cap) (hlt : min (count - done) cap < 4294967293)
    (hobs : obs w = fold step all size 0 done o)
    (hleaves : ∀ k, k < min (count - done) cap → leaves k = all (done + k))
    (hstage : ∃ w', stage start (count - done) w =
        (((min (count - done) cap : Nat) : Int), w') ∧ good w' ∧ w'.skip = 0 ∧
      obs w' = fold step leaves size start (min (count - done) cap) (obs w))
    (hrest : ∀ w', good w' → w'.skip = 0 → done + cap < count →
      obs w' = fold step all size 0 (done + cap) o →
      ∃ w'', stagesFrom failed size count stages ((done + cap) * size) (done + cap) w' =
        ((count : Int), w'') ∧ good w'' ∧ obs w'' = fold step all size 0 count o) :
    ∃ w'', stagesFrom failed size count (stage :: stages) start done w =
      ((count : Int), w'') ∧ good w'' ∧ obs w'' = fold step all size 0 count o := by
  subst hstart
  obtain ⟨w', hrun, hgood, hskip, hobs'⟩ := hstage
  obtain ⟨t, ht⟩ : ∃ t, min (count - done) cap = t := ⟨_, rfl⟩
  rw [ht] at hrun hobs' hleaves hlt
  have hfold : obs w' = fold step all size 0 (done + t) o := by
    rw [hobs', hobs, fold_congr hleaves, ← fold_add, Nat.zero_add]
  unfold stagesFrom
  rw [sub64_of_le (Nat.le_of_lt hdone) (by omega)]
  simp only [hrun, Int.toNat_natCast]
  rw [if_neg (by omega), u32_of_lt (by omega)]
  by_cases hlast : count ≤ done + t
  · rw [if_pos hlast]
    obtain rfl : done + t = count := by omega
    exact ⟨w', rfl, hgood, hfold⟩
  · obtain rfl : t = cap := by omega
    rw [if_neg hlast, ← Nat.add_mul]
    exact hrest w' hgood hskip (by omega) hfold

end walks
end UnedKernel.Ext2
