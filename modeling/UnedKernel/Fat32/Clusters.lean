import UnedKernel.Fat32.Cache

/-! # Taking clusters

`fat_get_cluster` walks the table from the hint in the FSinfo sector on. It
takes the first entry whose low seven bits are zero, and goes on to the next of
these for the hint. Nothing stops it at the end of the table. -/

namespace UnedKernel.Fat32
open ByteMem Word

def INFO_CLUST_CNT : Nat := 488
def INFO_NEXT_FREE : Nat := 492

/-- The number of the cluster that the walk has come to. -/
def clusterAt (v : Volume) (sector rw : Nat) : Nat := u32 (128 * sub32 sector v.fatLba + rw / 4)

/-- The walk along the table, `found` being the cluster it has taken. It stops at the next entry
that it takes for free, or at a sector that cannot be read. -/
def walkTable (v : Volume) (sector rw : Nat) (found : Option Nat) :
    Nat → Option (Option (Nat × Nat × Nat) × Volume)
  | 0 => none
  | fuel + 1 =>
    let (read, v) := fatRead v sector
    if read = 0 then some (none, v)
    else
      match decide (load v.buffer rw 4 &&& 0x7f = 0), found with
      | true, some cluster => some (some (cluster, sector, rw), v)
      | true, none =>
        let v' := v.stored rw 4 0xFFFFFFF
        if v.sectorSize ≤ rw + 4 then walkTable v' (u32 (sector + 1)) 0 (some (clusterAt v sector rw)) fuel
        else walkTable v' sector (rw + 4) (some (clusterAt v sector rw)) fuel
      | false, found =>
        if v.sectorSize ≤ rw + 4 then walkTable v (u32 (sector + 1)) 0 found fuel
        else walkTable v sector (rw + 4) found fuel

/-- The end of `fat_get_cluster`: the walk's last entry is the new hint. -/
def updateInfo (v : Volume) (cluster sector rw totFree : Nat) : Option Nat × Volume :=
  let (read, v) := fatRead v v.fsinfoLba
  if read = 0 then (none, v)
  else
    let v := (v.stored INFO_NEXT_FREE 4 (clusterAt v sector rw)).stored INFO_CLUST_CNT 4
      (sub32 totFree 1)
    (some cluster, (fatFlush v).2)

/-- `fat_get_cluster`, `none` inside for its 0. -/
def fatGetCluster (fuel : Nat) (v : Volume) : Option (Option Nat × Volume) :=
  let (read, v) := fatRead v v.fsinfoLba
  if read = 0 then some (none, v)
  else
    let nextFree := load v.buffer INFO_NEXT_FREE 4
    let totFree := load v.buffer INFO_CLUST_CNT 4
    match walkTable v (u32 (v.fatLba + nextFree / 128)) (nextFree % 128 * 4) none fuel with
    | none => none
    | some (none, v) => some (none, v)
    | some (some (cluster, sector, rw), v) => some (updateInfo v cluster sector rw totFree)

namespace Volume

/-- The hint of the FSinfo sector. -/
def nextFree (v : Volume) : Nat := load (v.byteAt v.fsinfoLba) INFO_NEXT_FREE 4

/-- The count of the FSinfo sector. -/
def freeCount (v : Volume) : Nat := load (v.byteAt v.fsinfoLba) INFO_CLUST_CNT 4

end Volume

/-- Where the sectors of a volume stand, in front of each other. -/
structure Laid (g : Geometry) : Prop where
  sectorSize : g.sectorSize = 512
  fsinfo : g.fsinfoLba ≠ 0
  before : g.fsinfoLba < g.fatLba
  bound : g.fsinfoLba < 4294967296

theorem Laid.fatLba {g : Geometry} (h : Laid g) : g.fatLba ≠ 0 := Nat.ne_of_gt (Nat.zero_lt_of_lt h.before)

/-- The entry passes for one of a free cluster. -/
def LooksFree (v : Volume) (c : Nat) : Prop := v.entry c % 128 = 0

instance (v : Volume) (c : Nat) : Decidable (LooksFree v c) := inferInstanceAs (Decidable (_ = _))

/-- The first entry from `p` on that passes for free. -/
structure FirstFree (v : Volume) (p c : Nat) : Prop where
  le : p ≤ c
  free : LooksFree v c
  first : ∀ r, p ≤ r → r < c → ¬ LooksFree v r

/-- The entries that the walk from the hint on takes for free, both at a place that 32 bits reach. -/
structure Room (v : Volume) (c q : Nat) : Prop where
  taken : FirstFree v v.nextFree c
  hint : FirstFree v (c + 1) q
  placed : Placed v.toGeometry q
  bound : q < 4294967296

variable {v w x : Volume} {p c q e fuel : Nat} {found : Option Nat}

theorem and_mask (e : Nat) : e &&& 0x7f = e % 128 := Nat.and_two_pow_sub_one_eq_mod e 7

theorem Same.looksFree (h : Same v w) (hfat : v.fatLba ≠ 0) (c : Nat) : LooksFree w c ↔ LooksFree v c := by
  rw [LooksFree, LooksFree, h.entry hfat]

theorem clusterAt_eq (hp : Placed v.toGeometry p) (hp' : p < 4294967296) :
    clusterAt v (v.fatLba + p / 128) (4 * (p % 128)) = p := by
  unfold Placed at hp
  have hsub : sub32 (v.fatLba + p / 128) v.fatLba = p / 128 := by
    rw [sub32_of_le (Nat.le_add_right _ _) hp, Nat.add_sub_cancel_left]
  rw [clusterAt, hsub, u32_of_lt (by omega)]
  omega

/-- Where the walk goes from an entry. -/
theorem advance (hsize : v.sectorSize = 512) (hp : Placed v.toGeometry (p + 1)) (w : Volume) :
    (if v.sectorSize ≤ 4 * (p % 128) + 4 then walkTable w (u32 (v.fatLba + p / 128 + 1)) 0 found fuel
      else walkTable w (v.fatLba + p / 128) (4 * (p % 128) + 4) found fuel) =
      walkTable w (v.fatLba + (p + 1) / 128) (4 * ((p + 1) % 128)) found fuel := by
  unfold Placed at hp
  rw [hsize]
  by_cases hlast : p % 128 = 127
  · rw [if_pos (by omega), u32_of_lt (by omega)]
    congr 1
    · omega
    · omega
  · rw [if_neg (by omega)]
    congr 1
    · omega
    · omega

/-- What is in the buffer when the sector of an entry was fetched. -/
theorem load_buffer (hsame : Same v w) (hfat : v.fatLba ≠ 0)
    (hbuffer : w.bufferLba = v.fatLba + p / 128) : load w.buffer (4 * (p % 128)) 4 = v.entry p := by
  have hs : v.fatLba + p / 128 ≠ 0 := by omega
  rw [Volume.entry, Volume.tableSector, ← hsame.load_eq hs (by omega)]
  exact load_congr fun i _ => (if_pos hbuffer.symm).symm

/-- One step of the walk at an entry that is in use. -/
theorem walkTable_used (found : Option Nat) (fuel : Nat) (h : Coherent v) (hl : Laid v.toGeometry)
    (hp : Placed v.toGeometry (p + 1))
    (hused : ¬ LooksFree v p) : ∃ w, Same v w ∧ Coherent w ∧
      (¬ v.disk.Reliable ∧
          walkTable v (v.fatLba + p / 128) (4 * (p % 128)) found (fuel + 1) = some (none, w) ∨
        walkTable v (v.fatLba + p / 128) (4 * (p % 128)) found (fuel + 1) =
          walkTable w (v.fatLba + (p + 1) / 128) (4 * ((p + 1) % 128)) found fuel) := by
  have hplaced : v.fatLba + p / 128 < 4294967296 := by unfold Placed at hp; omega
  obtain ⟨hsame, hcoherent, hcached, hreliable⟩ := fatRead_spec h hplaced
  rw [walkTable]
  obtain ⟨r, w, hread⟩ : ∃ r w, fatRead v (v.fatLba + p / 128) = (r, w) := ⟨_, _, rfl⟩
  rw [hread] at hsame hcoherent hcached hreliable ⊢
  refine ⟨w, hsame, hcoherent, ?_⟩
  cases r with
  | zero => exact .inl ⟨fun hr => hreliable hr rfl, rfl⟩
  | succ r =>
    refine .inr ?_
    have hload := load_buffer hsame hl.fatLba (hcached (Nat.succ_ne_zero r))
    have hbit : decide (load w.buffer (4 * (p % 128)) 4 &&& 0x7f = 0) = false := by
      rw [hload, and_mask]
      exact decide_eq_false hused
    have hsize : w.sectorSize = v.sectorSize := by rw [hsame.geometry]
    simp only [Nat.succ_ne_zero, if_false, hbit, hsize]
    exact advance hl.sectorSize hp w

/-- The walk comes to the next entry that passes for free. -/
theorem walkTable_hint (h : Coherent v) (hl : Laid v.toGeometry) (hq : FirstFree v p q)
    (hplaced : Placed v.toGeometry q) (hfuel : q - p < fuel) :
    ∃ w, Same v w ∧ Coherent w ∧
      (¬ v.disk.Reliable ∧
          walkTable v (v.fatLba + p / 128) (4 * (p % 128)) (some c) fuel = some (none, w) ∨
        walkTable v (v.fatLba + p / 128) (4 * (p % 128)) (some c) fuel =
          some (some (c, v.fatLba + q / 128, 4 * (q % 128)), w)) := by
  obtain ⟨n, hn⟩ : ∃ n, q = p + n := ⟨q - p, by have := hq.le; omega⟩
  induction n generalizing v p fuel with
  | zero =>
    obtain rfl : q = p := by omega
    obtain ⟨fuel, rfl⟩ : ∃ k, fuel = k + 1 := ⟨fuel - 1, by omega⟩
    obtain ⟨hsame, hcoherent, hcached, hreliable⟩ :=
      fatRead_spec h (show v.fatLba + q / 128 < 4294967296 from hplaced)
    rw [walkTable]
    obtain ⟨r, w, hread⟩ : ∃ r w, fatRead v (v.fatLba + q / 128) = (r, w) := ⟨_, _, rfl⟩
    rw [hread] at hsame hcoherent hcached hreliable ⊢
    refine ⟨w, hsame, hcoherent, ?_⟩
    cases r with
    | zero => exact .inl ⟨fun hr => hreliable hr rfl, rfl⟩
    | succ r =>
      have hload := load_buffer hsame hl.fatLba (hcached (Nat.succ_ne_zero r))
      have hbit : decide (load w.buffer (4 * (q % 128)) 4 &&& 0x7f = 0) = true := by
        rw [hload, and_mask]
        exact decide_eq_true hq.free
      simp only [Nat.succ_ne_zero, if_false, hbit]
      exact .inr trivial
  | succ n ih =>
    obtain ⟨fuel, rfl⟩ : ∃ k, fuel = k + 1 := ⟨fuel - 1, by omega⟩
    have hnext : Placed v.toGeometry (p + 1) := by unfold Placed at hplaced ⊢; omega
    obtain ⟨w, hsame, hcoherent, hstep⟩ := walkTable_used (some c) fuel h hl hnext
      (hq.first p (Nat.le_refl p) (by omega))
    rcases hstep with hfailed | hstep
    · exact ⟨w, hsame, hcoherent, .inl hfailed⟩
    · have hlba : w.fatLba = v.fatLba := by rw [hsame.geometry]
      have hfree : FirstFree w (p + 1) q := ⟨by omega, (hsame.looksFree hl.fatLba q).mpr hq.free,
        fun r hr hr' => fun hlooks => hq.first r (by omega) hr' ((hsame.looksFree hl.fatLba r).mp hlooks)⟩
      obtain ⟨x, hsame', hcoherent', hwalk⟩ := ih hcoherent (by rwa [hsame.geometry]) hfree
        (by rwa [hsame.geometry]) (show q - (p + 1) < fuel by omega) (by omega)
      rw [hlba] at hwalk
      rw [hstep]
      exact ⟨x, hsame.trans hsame', hcoherent', hwalk.imp
        (fun hfailed => ⟨fun hr => hfailed.1 (hsame.reliable hr), hfailed.2⟩) id⟩

/-- One step of the walk at the first entry that passes for free. -/
theorem walkTable_free (fuel : Nat) (h : Coherent v) (hl : Laid v.toGeometry) (hp : Placed v.toGeometry (p + 1))
    (hp' : p < 4294967296) (hfree : LooksFree v p) : ∃ w, Coherent w ∧
      (¬ v.disk.Reliable ∧ Same v w ∧
          walkTable v (v.fatLba + p / 128) (4 * (p % 128)) none (fuel + 1) = some (none, w) ∨
        Put v w (v.tableSector p) (4 * (p % 128)) 4 0xFFFFFFF ∧
          walkTable v (v.fatLba + p / 128) (4 * (p % 128)) none (fuel + 1) =
            walkTable w (v.fatLba + (p + 1) / 128) (4 * ((p + 1) % 128)) (some p) fuel) := by
  have hplaced : v.fatLba + p / 128 < 4294967296 := by unfold Placed at hp; omega
  have hs : v.fatLba + p / 128 ≠ 0 := by have := hl.fatLba; omega
  obtain ⟨hsame, hcoherent, hcached, hreliable⟩ := fatRead_spec h hplaced
  rw [walkTable]
  obtain ⟨r, w, hread⟩ : ∃ r w, fatRead v (v.fatLba + p / 128) = (r, w) := ⟨_, _, rfl⟩
  rw [hread] at hsame hcoherent hcached hreliable ⊢
  cases r with
  | zero => exact ⟨w, hcoherent, .inl ⟨fun hr => hreliable hr rfl, hsame, rfl⟩⟩
  | succ r =>
    have hbuffer : w.bufferLba = v.fatLba + p / 128 := hcached (Nat.succ_ne_zero r)
    have hbit : decide (load w.buffer (4 * (p % 128)) 4 &&& 0x7f = 0) = true := by
      rw [load_buffer hsame hl.fatLba hbuffer, and_mask]
      exact decide_eq_true hfree
    have hsize : w.sectorSize = v.sectorSize := by rw [hsame.geometry]
    have hlba : w.fatLba = v.fatLba := by rw [hsame.geometry]
    have hat : clusterAt w (v.fatLba + p / 128) (4 * (p % 128)) = p := by
      rw [← hlba]
      exact clusterAt_eq (by rw [hsame.geometry]; exact hplaced) hp'
    refine ⟨w.stored (4 * (p % 128)) 4 0xFFFFFFF, hcoherent.stored (by rwa [hbuffer]), .inr
      ⟨Put.before hsame (Put.stored hbuffer) hs, ?_⟩⟩
    simp only [Nat.succ_ne_zero, if_false, hbit, hsize, hat]
    exact advance hl.sectorSize hp _

/-- A field outside the table. -/
theorem Put.entry_apart {s a n : Nat} (h : Put v w s a n e) (hl : Laid v.toGeometry) (hs : s < v.fatLba) :
    w.entry = v.entry := by
  funext c
  have hfat := hl.fatLba
  have hc : v.fatLba + c / 128 ≠ 0 := by omega
  rw [Volume.entry, Volume.entry, Volume.tableSector, Volume.tableSector, h.geometry]
  exact h.load_apart hc (by omega) (.inl (by omega))

/-- A field outside the FSinfo sector. -/
theorem Put.fsinfo_apart {s a n k : Nat} (h : Put v w s a n e) (hl : Laid v.toGeometry)
    (hs : s ≠ v.fsinfoLba) {b : Nat} (hb : b + k ≤ 512) :
    load (w.byteAt w.fsinfoLba) b k = load (v.byteAt v.fsinfoLba) b k := by
  rw [h.geometry]
  exact h.load_apart hl.fsinfo hb (.inl (Ne.symm hs))

theorem Put.nextFree {s a n : Nat} (h : Put v w s a n e) (hl : Laid v.toGeometry) (hs : s ≠ v.fsinfoLba) :
    w.nextFree = v.nextFree := h.fsinfo_apart hl hs (by decide)

theorem Same.nextFree (h : Same v w) (hl : Laid v.toGeometry) : w.nextFree = v.nextFree := by
  rw [Volume.nextFree, Volume.nextFree, h.geometry]
  exact h.load_eq hl.fsinfo (by decide)

/-- The walk takes the first entry that passes for free, and comes to the next. -/
theorem walkTable_spec (h : Coherent v) (hl : Laid v.toGeometry) (hc : FirstFree v p c)
    (hq : FirstFree v (c + 1) q) (hplaced : Placed v.toGeometry q) (hbound : q < 4294967296)
    (hfuel : q - p < fuel) :
    ∃ w, Coherent w ∧
      (¬ v.disk.Reliable ∧ (Same v w ∨ Put v w (v.tableSector c) (4 * (c % 128)) 4 0xFFFFFFF) ∧
          walkTable v (v.fatLba + p / 128) (4 * (p % 128)) none fuel = some (none, w) ∨
        Put v w (v.tableSector c) (4 * (c % 128)) 4 0xFFFFFFF ∧
          walkTable v (v.fatLba + p / 128) (4 * (p % 128)) none fuel =
            some (some (c, v.fatLba + q / 128, 4 * (q % 128)), w)) := by
  have hlt := hq.le
  obtain ⟨n, hn⟩ : ∃ n, c = p + n := ⟨c - p, by have := hc.le; omega⟩
  have hnext : Placed v.toGeometry (p + 1) := by unfold Placed at hplaced ⊢; omega
  obtain ⟨fuel, rfl⟩ : ∃ k, fuel = k + 1 := ⟨fuel - 1, by omega⟩
  induction n generalizing v p fuel with
  | zero =>
    obtain rfl : c = p := by omega
    obtain ⟨w, hcoherent, hstep⟩ := walkTable_free fuel h hl hnext (by omega) hc.free
    rcases hstep with ⟨hrel, hsame, hstep⟩ | ⟨hput, hstep⟩
    · exact ⟨w, hcoherent, .inl ⟨hrel, .inl hsame, hstep⟩⟩
    · have hlba : w.fatLba = v.fatLba := by rw [hput.geometry]
      have hentry : w.entry = Function.update v.entry c (u32 0xFFFFFFF) := hput.entry hl.fatLba
      -- the mark is no entry that the walk comes to again
      have hlooks (r : Nat) (hr : c + 1 ≤ r) : LooksFree w r ↔ LooksFree v r := by
        rw [LooksFree, LooksFree, hentry, Function.update_of_ne (by omega)]
      have hfree : FirstFree w (c + 1) q := ⟨hq.le, (hlooks q hq.le).mpr hq.free,
        fun r hr hr' hfree => hq.first r hr hr' ((hlooks r hr).mp hfree)⟩
      obtain ⟨x, hsame, hcoherent', hwalk⟩ := walkTable_hint (c := c) hcoherent
        (by rwa [hput.geometry]) hfree (by rwa [hput.geometry]) (show q - (c + 1) < fuel by omega)
      rw [hlba] at hwalk
      rw [hstep]
      exact ⟨x, hcoherent', hwalk.imp
        (fun hfailed => ⟨fun hr => hfailed.1 (hput.reliable hr), .inr (hput.after hsame), hfailed.2⟩)
        fun hdone => ⟨hput.after hsame, hdone⟩⟩
  | succ n ih =>
    obtain ⟨w, hsame, hcoherent, hstep⟩ := walkTable_used none fuel h hl hnext
      (hc.first p (Nat.le_refl p) (by omega))
    rcases hstep with ⟨hrel, hstep⟩ | hstep
    · exact ⟨w, hcoherent, .inl ⟨hrel, .inl hsame, hstep⟩⟩
    · have hlba : w.fatLba = v.fatLba := by rw [hsame.geometry]
      have hlooks (r : Nat) := hsame.looksFree hl.fatLba r
      have hc' : FirstFree w (p + 1) c := ⟨by omega, (hlooks c).mpr hc.free,
        fun r hr hr' hfree => hc.first r (by omega) hr' ((hlooks r).mp hfree)⟩
      have hq' : FirstFree w (c + 1) q := ⟨hq.le, (hlooks q).mpr hq.free,
        fun r hr hr' hfree => hq.first r hr hr' ((hlooks r).mp hfree)⟩
      obtain ⟨fuel, rfl⟩ : ∃ k, fuel = k + 1 := ⟨fuel - 1, by omega⟩
      obtain ⟨x, hcoherent', hwalk⟩ := ih hcoherent (by rwa [hsame.geometry]) hc' hq'
        (by rwa [hsame.geometry]) (by omega) (by unfold Placed at hplaced ⊢; rw [hlba]; omega) fuel
        (by omega)
      have hsector : w.tableSector c = v.tableSector c := by
        unfold Volume.tableSector
        rw [hlba]
      have hs : v.tableSector c ≠ 0 := by
        have := hl.fatLba
        unfold Volume.tableSector
        omega
      rw [hlba, hsector] at hwalk
      rw [hstep]
      refine ⟨x, hcoherent', hwalk.imp
        (fun hfailed => ⟨fun hr => hfailed.1 (hsame.reliable hr),
          hfailed.2.1.imp hsame.trans fun hput => Put.before hsame hput hs, hfailed.2.2⟩)
        fun hdone => ⟨Put.before hsame hdone.1 hs, hdone.2⟩⟩

/-- The volume after a cluster was taken. -/
structure Taken (v w : Volume) (c q : Nat) : Prop where
  entries : w.entry = Function.update v.entry c 0xFFFFFFF
  hint : w.nextFree = q
  count : w.freeCount = sub32 v.freeCount 1
  reliable : v.disk.Reliable → w.disk.Reliable
  other : ∀ s y, s ≠ 0 → s ≠ v.fsinfoLba → s ≠ v.tableSector c → y < 512 →
    w.byteAt s y = v.byteAt s y

/-- The volume after a call that failed, with or without the mark. -/
structure Dropped (v w : Volume) (c : Nat) : Prop where
  entries : w.entry = v.entry ∨ w.entry = Function.update v.entry c 0xFFFFFFF
  hint : w.nextFree = v.nextFree

/-- The FSinfo sector is written, and nothing else. -/
theorem updateInfo_spec {n : Nat} (h : Coherent v) (hl : Laid v.toGeometry) (hq : Placed v.toGeometry q)
    (hq' : q < 4294967296) : ∃ r w, updateInfo v c (v.fatLba + q / 128) (4 * (q % 128)) n = (r, w) ∧
      Coherent w ∧ w.toGeometry = v.toGeometry ∧
      (r = none ∧ ¬ v.disk.Reliable ∧ Same v w ∨
        r = some c ∧ w.entry = v.entry ∧ w.nextFree = q ∧ w.freeCount = sub32 n 1 ∧
          (v.disk.Reliable → w.disk.Reliable) ∧
          ∀ s y, s ≠ 0 → s ≠ v.fsinfoLba → y < 512 → w.byteAt s y = v.byteAt s y) := by
  obtain ⟨hsame, hcoherent, hcached, hreliable⟩ := fatRead_spec h (show v.fsinfoLba < 4294967296 from hl.bound)
  unfold updateInfo
  obtain ⟨r, w, hread⟩ : ∃ r w, fatRead v v.fsinfoLba = (r, w) := ⟨_, _, rfl⟩
  rw [hread] at hsame hcoherent hcached hreliable ⊢
  cases r with
  | zero => exact ⟨none, w, rfl, hcoherent, hsame.geometry, .inl ⟨rfl, fun hr => hreliable hr rfl, hsame⟩⟩
  | succ r =>
    have hbuffer : w.bufferLba = v.fsinfoLba := hcached (Nat.succ_ne_zero r)
    have hinfo : w.bufferLba ≠ 0 := by rw [hbuffer]; exact hl.fsinfo
    have hat : clusterAt w (v.fatLba + q / 128) (4 * (q % 128)) = q := by
      rw [← show w.fatLba = v.fatLba by rw [hsame.geometry]]
      exact clusterAt_eq (by rw [hsame.geometry]; exact hq) hq'
    have hhint : Put v (w.stored INFO_NEXT_FREE 4 q) v.fsinfoLba INFO_NEXT_FREE 4 q :=
      Put.before hsame (Put.stored hbuffer) hl.fsinfo
    have hstored := (hcoherent.stored (a := INFO_NEXT_FREE) (n := 4) (e := q) hinfo).stored
      (a := INFO_CLUST_CNT) (n := 4) (e := sub32 n 1) hinfo
    obtain ⟨hflushed, hcoherent', -⟩ := fatFlush_spec hstored
    have hcount := (Put.stored (v := w.stored INFO_NEXT_FREE 4 q) (a := INFO_CLUST_CNT) (n := 4)
      (e := sub32 n 1) hbuffer).after hflushed
    have hlaid : Laid (w.stored INFO_NEXT_FREE 4 q).toGeometry := by rwa [hhint.geometry]
    simp only [Nat.succ_ne_zero, if_false, hat]
    refine ⟨some c, _, rfl, hcoherent', hcount.geometry.trans hhint.geometry,
      .inr ⟨rfl, ?_, ?_, ?_, fun hr => hcount.reliable (hhint.reliable hr), fun s y hs hs' hy => ?_⟩⟩
    · rw [hcount.entry_apart hlaid (by rw [hhint.geometry]; exact hl.before),
        hhint.entry_apart hl hl.before]
    · rw [Volume.nextFree, hcount.geometry, hhint.geometry,
        hcount.load_apart hl.fsinfo (by decide) (.inr (.inl (by decide))),
        hhint.load_same hl.fsinfo (by decide)]
      exact Nat.mod_eq_of_lt hq'
    · rw [Volume.freeCount, hcount.geometry, hhint.geometry, hcount.load_same hl.fsinfo (by decide)]
      exact Nat.mod_eq_of_lt (u32_lt _)
    · rw [hcount.bytes s y hs hy, if_neg hs', hhint.bytes s y hs hy, if_neg hs']

theorem FirstFree.same (h : FirstFree v p c) (hsame : Same v w) (hfat : v.fatLba ≠ 0) : FirstFree w p c :=
  ⟨h.le, (hsame.looksFree hfat c).mpr h.free,
    fun r hr hr' hfree => h.first r hr hr' ((hsame.looksFree hfat r).mp hfree)⟩

/-- With enough steps the walk ends, and the call marks the first entry it takes for free. -/
theorem fatGetCluster_spec (h : Coherent v) (hl : Laid v.toGeometry) (hroom : Room v c q)
    (hfuel : q - v.nextFree < fuel) : ∃ r w, fatGetCluster fuel v = some (r, w) ∧ Coherent w ∧
      w.toGeometry = v.toGeometry ∧
      (r = none ∧ ¬ v.disk.Reliable ∧ Dropped v w c ∨ r = some c ∧ Taken v w c q) := by
  have hplaced : v.fatLba + v.nextFree / 128 < 4294967296 := by
    have hle := hroom.taken.le
    have hle' := hroom.hint.le
    have hq := hroom.placed
    unfold Placed at hq
    omega
  have hs : v.tableSector c ≠ 0 := by
    have := hl.fatLba
    unfold Volume.tableSector
    omega
  have hne : v.tableSector c ≠ v.fsinfoLba := by
    have := hl.before
    unfold Volume.tableSector
    omega
  obtain ⟨hsame, hcoherent, hcached, hreliable⟩ := fatRead_spec h (show v.fsinfoLba < 4294967296 from hl.bound)
  unfold fatGetCluster
  obtain ⟨r, w, hread⟩ : ∃ r w, fatRead v v.fsinfoLba = (r, w) := ⟨_, _, rfl⟩
  rw [hread] at hsame hcoherent hcached hreliable ⊢
  cases r with
  | zero => exact ⟨none, w, rfl, hcoherent, hsame.geometry, .inl ⟨rfl, fun hr => hreliable hr rfl,
      .inl (hsame.entry hl.fatLba), hsame.nextFree hl⟩⟩
  | succ r =>
    have hbuffer : w.bufferLba = v.fsinfoLba := hcached (Nat.succ_ne_zero r)
    have hfield {a : Nat} (ha : a + 4 ≤ 512) :
        load w.buffer a 4 = load (v.byteAt v.fsinfoLba) a 4 := by
      rw [← hsame.load_eq hl.fsinfo ha]
      exact load_congr fun i _ => (if_pos hbuffer.symm).symm
    have hnext : load w.buffer INFO_NEXT_FREE 4 = v.nextFree := hfield (by decide)
    have hcount : load w.buffer INFO_CLUST_CNT 4 = v.freeCount := hfield (by decide)
    have hlba : w.fatLba = v.fatLba := by rw [hsame.geometry]
    have hsector : w.tableSector c = v.tableSector c := by rw [Volume.tableSector, hlba]; rfl
    obtain ⟨y, hcoherent', hwalk⟩ := walkTable_spec hcoherent (by rwa [hsame.geometry])
      (hroom.taken.same hsame hl.fatLba) (hroom.hint.same hsame hl.fatLba)
      (by rw [hsame.geometry]; exact hroom.placed) hroom.bound hfuel
    rw [hlba, hsector] at hwalk
    simp only [Nat.succ_ne_zero, if_false, hnext, hcount, hlba, u32_of_lt hplaced,
      Nat.mul_comm (v.nextFree % 128) 4]
    rcases hwalk with ⟨hrel, hsteps, hwalk⟩ | ⟨hput, hwalk⟩
    · rw [hwalk]
      refine ⟨none, y, rfl, hcoherent', ?_⟩
      rcases hsteps with hsame' | hput
      · have hboth := hsame.trans hsame'
        exact ⟨hboth.geometry, .inl ⟨rfl, fun hr => hrel (hsame.reliable hr),
          .inl (hboth.entry hl.fatLba), hboth.nextFree hl⟩⟩
      · have hboth := Put.before hsame hput hs
        exact ⟨hboth.geometry, .inl ⟨rfl, fun hr => hrel (hsame.reliable hr),
          .inr (hboth.entry hl.fatLba), hboth.nextFree hl hne⟩⟩
    · have hmark := Put.before hsame hput hs
      have hlaid : Laid y.toGeometry := by rwa [hmark.geometry]
      obtain ⟨r', z, hinfo, hcoherent'', hgeometry, hdone⟩ := updateInfo_spec (c := c) (n := v.freeCount)
        hcoherent' hlaid (by rw [hmark.geometry]; exact hroom.placed) hroom.bound
      rw [show y.fatLba = v.fatLba by rw [hmark.geometry]] at hinfo
      rw [hwalk]
      refine ⟨r', z, congrArg some hinfo, hcoherent'', hgeometry.trans hmark.geometry, ?_⟩
      rcases hdone with ⟨hnone, hrel, hsame'⟩ | ⟨hsome, hentries, hhint, hcount', hrel, hother⟩
      · have hboth := hmark.after hsame'
        exact .inl ⟨hnone, fun hr => hrel (hmark.reliable hr), .inr (hboth.entry hl.fatLba),
          hboth.nextFree hl hne⟩
      · refine .inr ⟨hsome, hentries.trans (hmark.entry hl.fatLba), hhint, hcount',
          fun hr => hrel (hmark.reliable hr), fun s a hs hs' hs'' ha => ?_⟩
        rw [hother s a hs (by rwa [hmark.geometry]) ha, hmark.bytes s a hs ha, if_neg hs'']

/-- A volume whose cluster 3 links to cluster 128, in a table of one more file and free clusters. -/
def linkedVolume : Volume :=
  { blankVolume with disk := ⟨fun x =>
      if x = 512 * 1 + 492 then 2 else if x = 512 * 1 + 488 then 100
      else if x = 512 * 32 + 4 * 2 then 0xFF else if x = 512 * 32 + 4 * 3 then 128 else 0,
    fun _ => false, 0⟩ }

theorem coherent_linkedVolume : Coherent linkedVolume :=
  ⟨fun _ hne => absurd rfl hne, nofun, by decide⟩

theorem laid_linkedVolume : Laid linkedVolume.toGeometry := ⟨rfl, by decide, by decide, by decide⟩

theorem room_linkedVolume : Room linkedVolume 3 4 := by
  have hnext : linkedVolume.nextFree = 2 := by decide +kernel
  refine ⟨⟨by omega, by decide +kernel, fun r hr hr' => ?_⟩,
    ⟨Nat.le_refl 4, by decide +kernel, fun r hr hr' => absurd hr (by omega)⟩,
    show 32 + 4 / 128 < 4294967296 by omega, by omega⟩
  obtain rfl : r = 2 := by omega
  decide +kernel

/-- A run of calls, with the clusters that it takes. Every walk has two entries before it. -/
inductive Takes (fuel : Nat) : Volume → List Nat → Volume → Prop
  | refl (v : Volume) : Takes fuel v [] v
  | table {v w : Volume} {cs : List Nat} {call : TableCall} (placed : call.Placed v.toGeometry)
      (rest : Takes fuel (tableCall v call).2 cs w) : Takes fuel v cs w
  | failed {v x w : Volume} {cs : List Nat} {c q : Nat} (room : Room v c q)
      (call : fatGetCluster fuel v = some (none, x)) (rest : Takes fuel x cs w) : Takes fuel v cs w
  | taken {v x w : Volume} {cs : List Nat} {c q d : Nat} (room : Room v c q)
      (call : fatGetCluster fuel v = some (some d, x)) (rest : Takes fuel x cs w) :
      Takes fuel v (d :: cs) w

theorem tableCall_nextFree (h : Coherent v) (hl : Laid v.toGeometry) {call : TableCall}
    (hc : call.Placed v.toGeometry) : (tableCall v call).2.nextFree = v.nextFree := by
  cases call with
  | get c => exact (fatTableGet_spec h hc).1.nextFree hl
  | set c e =>
    obtain ⟨-, hzero, hput, -⟩ := fatTableSet_spec (e := e) h hc hl.fatLba
    have hne : v.tableSector c ≠ v.fsinfoLba := by
      have := hl.before
      unfold Volume.tableSector
      omega
    by_cases hr : (fatTableSet v c e).1 = 0
    · exact (hzero hr).nextFree hl
    · exact (hput hr).2.nextFree hl hne
  | flush => exact (fatFlush_spec h).1.nextFree hl

theorem Room.lt_fuel (h : Room v c q) (hfuel : 4294967296 ≤ fuel) : q - v.nextFree < fuel := by
  have := h.bound
  omega

/-- In every run the clusters that are taken go up. No cluster is taken twice, one that was freed
included, and however many were freed behind the hint, the walk goes on to the end of the table. -/
theorem takes_increasing {cs : List Nat} (hfuel : 4294967296 ≤ fuel) (h : Coherent v)
    (hl : Laid v.toGeometry) (hrun : Takes fuel v cs w) :
    cs.Pairwise (· < ·) ∧ ∀ c ∈ cs, v.nextFree ≤ c ∧ c < w.nextFree := by
  suffices hall : v.nextFree ≤ w.nextFree ∧ cs.Pairwise (· < ·) ∧
      ∀ c ∈ cs, v.nextFree ≤ c ∧ c < w.nextFree from hall.2
  induction hrun with
  | refl => exact ⟨Nat.le_refl _, .nil, nofun⟩
  | table hc _ ih =>
    obtain ⟨hcoherent, hgeometry, -⟩ := tableCall_spec h hl.fatLba hc
    have hnext := tableCall_nextFree h hl hc
    rw [← hnext]
    exact ih hcoherent (by rwa [hgeometry])
  | failed hroom hcall _ ih =>
    obtain ⟨r, y, hcall', hcoherent, hgeometry, hdone⟩ :=
      fatGetCluster_spec h hl hroom (hroom.lt_fuel hfuel)
    obtain ⟨rfl, rfl⟩ := Prod.mk.inj (Option.some.inj (hcall.symm.trans hcall'))
    rcases hdone with ⟨-, -, hdropped⟩ | ⟨hsome, -⟩
    · rw [← hdropped.hint]
      exact ih hcoherent (by rwa [hgeometry])
    · exact absurd hsome nofun
  | @taken v x w cs c q d hroom hcall _ ih =>
    obtain ⟨r, y, hcall', hcoherent, hgeometry, hdone⟩ :=
      fatGetCluster_spec h hl hroom (hroom.lt_fuel hfuel)
    obtain ⟨rfl, rfl⟩ := Prod.mk.inj (Option.some.inj (hcall.symm.trans hcall'))
    rcases hdone with ⟨hnone, -⟩ | ⟨hsome, htaken⟩
    · exact absurd hnone nofun
    · obtain rfl := Option.some.inj hsome
      obtain ⟨hle, hpairs, hbounds⟩ := ih hcoherent (by rwa [hgeometry])
      rw [htaken.hint] at hle hbounds
      have hstart := hroom.taken.le
      have hlt := hroom.hint.le
      refine ⟨by omega, List.pairwise_cons.mpr ⟨fun b hb => ?_, hpairs⟩, fun b hb => ?_⟩
      · have := (hbounds b hb).1
        omega
      · rcases List.mem_cons.mp hb with rfl | hb
        · omega
        · have := hbounds b hb
          omega

/-- Cluster 3 is taken and freed, and then cluster 4 is taken. -/
theorem takes_increasing_freed : ∃ w, Takes 4294967296 linkedVolume [3, 4] w ∧
    [3, 4].Pairwise (· < ·) ∧ ∀ c ∈ [3, 4], linkedVolume.nextFree ≤ c ∧ c < w.nextFree := by
  obtain ⟨r, x, hcall, hcoherent, hgeometry, ⟨-, hrel, -⟩ | ⟨rfl, htaken⟩⟩ :=
    fatGetCluster_spec coherent_linkedVolume laid_linkedVolume room_linkedVolume
      (room_linkedVolume.lt_fuel (Nat.le_refl 4294967296))
  · exact absurd (fun _ => rfl) hrel
  have hplaced : (TableCall.set 3 0).Placed x.toGeometry := by
    rw [hgeometry]
    exact show 32 + 3 / 128 < 4294967296 by omega
  have hlaid : Laid x.toGeometry := by rw [hgeometry]; exact laid_linkedVolume
  obtain ⟨hcoherent', hgeometry', hanswer, hreliable, -⟩ :=
    tableCall_spec hcoherent hlaid.fatLba hplaced
  obtain ⟨-, hreliable⟩ := hreliable (htaken.reliable fun _ => rfl)
  have hnext : (tableCall x (.set 3 0)).2.nextFree = 4 :=
    (tableCall_nextFree hcoherent hlaid hplaced).trans htaken.hint
  have hfree {c : Nat} (hc : c = 4 ∨ c = 5) : LooksFree (tableCall x (.set 3 0)).2 c := by
    have hx : x.entry c = 0 := by
      rw [htaken.entries, Function.update_of_ne (by omega)]
      rcases hc with rfl | rfl <;> decide +kernel
    have hentry : (tableCall x (.set 3 0)).2.entry c = 0 := by
      rcases hanswer with ⟨-, hsame⟩ | ⟨-, hset⟩
      · rw [hsame, hx]
      · rw [hset]
        exact (Function.update_of_ne (by omega) _ _).trans hx
    rw [LooksFree, hentry]
  have hroom : Room (tableCall x (.set 3 0)).2 4 5 :=
    ⟨⟨by omega, hfree (.inl rfl), fun r hr hr' => absurd hr (by omega)⟩,
      ⟨Nat.le_refl 5, hfree (.inr rfl), fun r hr hr' => absurd hr (by omega)⟩,
      by rw [hgeometry', hgeometry]; exact show 32 + 5 / 128 < 4294967296 by omega, by omega⟩
  have hlaid' : Laid (tableCall x (.set 3 0)).2.toGeometry := by rwa [hgeometry']
  obtain ⟨r, w, hcall', -, -, ⟨-, hrel, -⟩ | ⟨rfl, -⟩⟩ :=
    fatGetCluster_spec hcoherent' hlaid' hroom (hroom.lt_fuel (Nat.le_refl 4294967296))
  · exact absurd hreliable hrel
  have hrun : Takes 4294967296 linkedVolume [3, 4] w :=
    .taken room_linkedVolume hcall (.table hplaced (.taken hroom hcall' (.refl w)))
  exact ⟨w, hrun, takes_increasing (Nat.le_refl _) coherent_linkedVolume laid_linkedVolume hrun⟩

end UnedKernel.Fat32
