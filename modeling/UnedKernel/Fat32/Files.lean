import UnedKernel.Fat32.Cache

/-! # Reading a file along its chain

`fat_file_read` and `fat_file_jump`. A file is read byte by byte through the
cached sector, and its position is a sector, a cluster and an offset that may
stand one past its sector. -/

namespace UnedKernel.Fat32
open ByteMem Word

inductive FStatus
  | ok
  | error
  | noVolume
  | pathErr
  | eof
  deriving DecidableEq

structure File where
  sector : Nat
  cluster : Nat
  rwOffset : Nat
  size : Nat
  startSect : Nat
  globOffset : Nat

def fatClustToSect (g : Geometry) (clust : Nat) : Nat :=
  u32 (u32 (sub32 clust 2 * g.clusterSize) + g.dataLba)

def fatSectToClust (g : Geometry) (sect : Nat) : Nat :=
  u32 (sub32 sect g.dataLba / g.clusterSize + 2)

/-- The entry ends a chain. -/
def isEoc (entry : Nat) : Bool := 0xFFFFFF8 ≤ entry &&& 0xFFFFFFF

/-- `fat_file_addr_resolve`. -/
def fatFileAddrResolve (v : Volume) (file : File) : Nat × File × Volume :=
  if v.sectorSize ≤ file.rwOffset then
    let file := { file with rwOffset := file.rwOffset - v.sectorSize, sector := u32 (file.sector + 1) }
    if u32 (fatClustToSect v.toGeometry file.cluster + v.clusterSize) ≤ file.sector then
      match fatTableGet v file.cluster with
      | (none, v) => (0, file, v)
      | (some newCluster, v) =>
        if isEoc newCluster then (0, file, v)
        else (1, { file with cluster := newCluster, sector := fatClustToSect v.toGeometry newCluster }, v)
    else (1, file, v)
  else (1, file, v)

/-- The start of a turn of the loop of `fat_file_read`: the byte's sector comes into the buffer. What
the resolution answers is not looked at. -/
def resolveRead (v : Volume) (file : File) : Nat × File × Volume :=
  if v.sectorSize ≤ file.rwOffset then
    let (_, file, v) := fatFileAddrResolve v file
    let (read, v) := fatRead v file.sector
    (read, file, v)
  else (1, file, v)

/-- The file behind one more byte. -/
def File.next (file : File) : File :=
  { file with rwOffset := u32 (file.rwOffset + 1), globOffset := u32 (file.globOffset + 1) }

/-- The loop of `fat_file_read`. The number of bytes is what it leaves in `status`. -/
def readBytes (v : Volume) (file : File) : Nat → FStatus × List Byte × File × Volume
  | 0 => (.ok, [], file, v)
  | count + 1 =>
    let (read, file, v) := resolveRead v file
    if read = 0 then (.error, [], file, v)
    else
      let byte := v.buffer file.rwOffset
      let file := file.next
      if file.size ≤ file.globOffset then (.ok, [byte], file, v)
      else
        let (status, bytes, file, v) := readBytes v file count
        (status, byte :: bytes, file, v)

def fatFileRead (v : Volume) (file : File) (count : Nat) : FStatus × List Byte × File × Volume :=
  let (read, v) := fatRead v file.sector
  if read = 0 then (.error, [], file, v) else readBytes v file count

/-- The loop of `fat_file_jump`: the status it returns with, if it does, and the cluster. -/
def followChain (v : Volume) (cluster : Nat) : Nat → Option FStatus × Nat × Volume
  | 0 => (none, cluster, v)
  | clusterOffset + 1 =>
    match fatTableGet v cluster with
    | (none, v) => (some .error, cluster, v)
    | (some newCluster, v) =>
      if isEoc newCluster then (some .ok, cluster, v) else followChain v newCluster clusterOffset

def fatFileJump (v : Volume) (file : File) (offset : Nat) : FStatus × File × Volume :=
  let sectorOffset := offset / v.sectorSize
  match followChain v (fatSectToClust v.toGeometry file.startSect) (sectorOffset / v.clusterSize) with
  | (some status, cluster, v) => (status, { file with cluster := cluster }, v)
  | (none, cluster, v) =>
    (.ok, { file with
      cluster := cluster
      sector := u32 (fatClustToSect v.toGeometry cluster + sectorOffset % v.clusterSize)
      rwOffset := offset % v.sectorSize
      globOffset := offset }, v)

/-! ## What a file holds -/

namespace Volume

/-- The clusters of a chain. -/
def chain (v : Volume) (first : Nat) : Nat → Nat
  | 0 => first
  | k + 1 => v.entry (v.chain first k)

/-- The sector that has the `m`-th sector of a file. -/
def fileSector (v : Volume) (first m : Nat) : Nat :=
  fatClustToSect v.toGeometry (v.chain first (m / v.clusterSize)) + m % v.clusterSize

/-- The byte of a file at an offset. -/
def fileByte (v : Volume) (first o : Nat) : Byte := v.byteAt (v.fileSector first (o / 512)) (o % 512)

end Volume

/-- The cluster lies in the data area, and its entry in the table. -/
structure DataCluster (g : Geometry) (c : Nat) : Prop where
  two_le : 2 ≤ c
  placed : Placed g c
  bound : (c - 2) * g.clusterSize + g.dataLba + g.clusterSize < 4294967296
  lt : c < 4294967296

/-- A file of a volume of 512-byte sectors, whose chain covers its size. -/
structure Chained (v : Volume) (file : File) : Prop where
  sectorSize : v.sectorSize = 512
  clusterSize : 0 < v.clusterSize
  fatLba : v.fatLba ≠ 0
  dataLba : v.dataLba ≠ 0
  start : file.startSect =
    fatClustToSect v.toGeometry (fatSectToClust v.toGeometry file.startSect)
  size : file.size < 4294967296
  data : ∀ k, 512 * (k * v.clusterSize) < file.size →
    DataCluster v.toGeometry (v.chain (fatSectToClust v.toGeometry file.startSect) k)
  linked : ∀ k, 512 * ((k + 1) * v.clusterSize) < file.size →
    isEoc (v.chain (fatSectToClust v.toGeometry file.startSect) (k + 1)) = false

namespace File

/-- The first cluster of a file. -/
def first (file : File) (g : Geometry) : Nat := fatSectToClust g file.startSect

end File

/-- The file stands at an offset, or right behind the sector of the byte before it. -/
structure StandsAt (v : Volume) (first : Nat) (file : File) (o : Nat) : Prop where
  glob : file.globOffset = o
  place : (file.rwOffset = o % 512 ∧ file.sector = v.fileSector first (o / 512) ∧
      file.cluster = v.chain first (o / 512 / v.clusterSize)) ∨
    (o % 512 = 0 ∧ 0 < o ∧ file.rwOffset = 512 ∧
      file.sector = v.fileSector first (o / 512 - 1) ∧
      file.cluster = v.chain first ((o / 512 - 1) / v.clusterSize))

variable {v w x : Volume} {file file' : File} {c m o count : Nat}

/-! ## Sectors of a chain -/

theorem DataCluster.sect {g : Geometry} (h : DataCluster g c) :
    fatClustToSect g c = (c - 2) * g.clusterSize + g.dataLba := by
  have hbound := h.bound
  have hin : u32 ((c - 2) * g.clusterSize) = (c - 2) * g.clusterSize := u32_of_lt (by omega)
  rw [fatClustToSect, sub32_of_le h.two_le h.lt, hin, u32_of_lt (by omega)]

theorem Same.chain (h : Same v w) (hfat : v.fatLba ≠ 0) (first k : Nat) :
    w.chain first k = v.chain first k := by
  induction k with
  | zero => rfl
  | succ k ih => rw [Volume.chain, Volume.chain, ih, h.entry hfat]

theorem Same.fileSector (h : Same v w) (hfat : v.fatLba ≠ 0) (first m : Nat) :
    w.fileSector first m = v.fileSector first m := by
  rw [Volume.fileSector, Volume.fileSector, h.geometry, h.chain hfat]

theorem Same.chained (h : Same v w) (hf : Chained v file) : Chained w file := by
  obtain ⟨hsector, hcluster, hfat, hdata, hstart, hsize, hclusters, hlinked⟩ := hf
  refine ⟨?_, ?_, ?_, ?_, ?_, hsize, ?_, ?_⟩
  · rw [h.geometry]; exact hsector
  · rw [h.geometry]; exact hcluster
  · rw [h.geometry]; exact hfat
  · rw [h.geometry]; exact hdata
  · rw [h.geometry]; exact hstart
  · simp only [h.chain hfat, h.geometry]; exact hclusters
  · simp only [h.chain hfat, h.geometry]; exact hlinked

theorem Same.standsAt (h : Same v w) (hfat : v.fatLba ≠ 0) (hs : StandsAt v c file o) :
    StandsAt w c file o := by
  obtain ⟨hglob, hplace⟩ := hs
  refine ⟨hglob, ?_⟩
  simp only [h.fileSector hfat, h.chain hfat, h.geometry]
  exact hplace

namespace Chained

/-- The sectors of the file lie in the data area. -/
theorem fileSector_bounds (h : Chained v file) (hm : 512 * m < file.size) :
    v.fileSector (file.first v.toGeometry) m ≠ 0 ∧
      v.fileSector (file.first v.toGeometry) m < 4294967296 := by
  have hle : m / v.clusterSize * v.clusterSize ≤ m := Nat.div_mul_le_self m v.clusterSize
  have hdata := h.data (m / v.clusterSize) (by omega)
  have hsect := hdata.sect
  have hbound := hdata.bound
  have hmod := Nat.mod_lt m h.clusterSize
  have hlba := h.dataLba
  rw [Volume.fileSector, File.first, hsect]
  omega

theorem fileByte_same (h : Chained v file) (hsame : Same v w) (ho : o < file.size) :
    w.fileByte (file.first v.toGeometry) o = v.fileByte (file.first v.toGeometry) o := by
  have hne := (h.fileSector_bounds (m := o / 512) (by omega)).1
  rw [Volume.fileByte, Volume.fileByte, hsame.fileSector h.fatLba]
  exact hsame.bytes _ _ hne (by omega)

end Chained

/-- The next sector is in the same cluster, or the first of the next one. -/
theorem succ_div_mod (hc : 0 < c) : m % c + 1 = c ∧ (m + 1) % c = 0 ∧ (m + 1) / c = m / c + 1 ∨
    m % c + 1 < c ∧ (m + 1) % c = m % c + 1 ∧ (m + 1) / c = m / c := by
  have hlt := Nat.mod_lt m hc
  have heq := Nat.div_add_mod m c
  rcases Nat.lt_or_ge (m % c + 1) c with hin | hout
  · have hsucc : m + 1 = c * (m / c) + (m % c + 1) := by omega
    refine .inr ⟨hin, ?_, ?_⟩
    · rw [hsucc, Nat.mul_add_mod, Nat.mod_eq_of_lt hin]
    · rw [hsucc, Nat.mul_add_div hc, Nat.div_eq_of_lt hin, Nat.add_zero]
  · have hsucc : m + 1 = c * (m / c + 1) := by rw [Nat.mul_add]; omega
    refine .inl ⟨by omega, ?_, ?_⟩
    · rw [hsucc, Nat.mul_mod_right]
    · rw [hsucc, Nat.mul_div_cancel_left _ hc]

/-- The file stands in the sector of an offset. -/
structure StandsIn (v : Volume) (first : Nat) (file : File) (o : Nat) : Prop where
  glob : file.globOffset = o
  rwOffset : file.rwOffset = o % 512
  sector : file.sector = v.fileSector first (o / 512)
  cluster : file.cluster = v.chain first (o / 512 / v.clusterSize)

/-- The files are one file. -/
def SameFile (file file' : File) : Prop := file'.size = file.size ∧ file'.startSect = file.startSect

theorem SameFile.first {g : Geometry} (h : SameFile file file') : file'.first g = file.first g := by
  rw [File.first, File.first, h.2]

theorem SameFile.chained (h : SameFile file file') (hf : Chained v file) : Chained v file' := by
  obtain ⟨hsector, hcluster, hfat, hdata, hstart, hsize, hclusters, hlinked⟩ := hf
  rw [← h.1] at hsize hclusters hlinked
  rw [← h.2] at hstart hclusters hlinked
  exact ⟨hsector, hcluster, hfat, hdata, hstart, hsize, hclusters, hlinked⟩

/-- From behind a sector the file comes to the next one of its chain. -/
theorem fatFileAddrResolve_spec (h : Coherent v) (hr : v.disk.Reliable) (hf : Chained v file)
    (hs : StandsAt v (file.first v.toGeometry) file o) (ho : o < file.size) :
    ∃ file' w, fatFileAddrResolve v file = (1, file', w) ∧ Same v w ∧ Coherent w ∧
      SameFile file file' ∧ StandsIn v (file.first v.toGeometry) file' o := by
  obtain ⟨hglob, ⟨hrw, hsector, hcluster⟩ | ⟨hzero, hpos, hrw, hsector, hcluster⟩⟩ := hs
  · refine ⟨file, v, ?_, Same.refl v, h, ⟨rfl, rfl⟩, hglob, hrw, hsector, hcluster⟩
    unfold fatFileAddrResolve
    rw [if_neg (by rw [hf.sectorSize]; omega)]
  · obtain ⟨m, rfl⟩ : ∃ m, o = 512 * (m + 1) := ⟨o / 512 - 1, by omega⟩
    have hm : 512 * (m + 1) / 512 = m + 1 := Nat.mul_div_cancel_left _ (by omega)
    rw [hm, Nat.add_sub_cancel] at hsector hcluster
    obtain ⟨hne, hlt⟩ := hf.fileSector_bounds (m := m) (by omega)
    obtain ⟨-, hlt'⟩ := hf.fileSector_bounds (m := m + 1) (by omega)
    have hle : m / v.clusterSize * v.clusterSize ≤ m := Nat.div_mul_le_self m v.clusterSize
    have hdata := hf.data (m / v.clusterSize) (by omega)
    have hsect := hdata.sect
    have hbound := hdata.bound
    have hmod := Nat.mod_lt m hf.clusterSize
    have hat : v.fileSector (file.first v.toGeometry) m =
        fatClustToSect v.toGeometry file.cluster + m % v.clusterSize := by rw [hcluster]; rfl
    rw [File.first] at hcluster
    rw [← hcluster] at hdata hsect hbound
    have hend : u32 (fatClustToSect v.toGeometry file.cluster + v.clusterSize) =
        fatClustToSect v.toGeometry file.cluster + v.clusterSize := u32_of_lt (by omega)
    have hnext : u32 (file.sector + 1) =
        fatClustToSect v.toGeometry file.cluster + (m % v.clusterSize + 1) := by
      rw [hsector, hat, u32_of_lt (by omega)]
      omega
    unfold fatFileAddrResolve
    rw [if_pos (by rw [hf.sectorSize]; omega)]
    simp only [hend, hf.sectorSize, hrw, hnext]
    rcases succ_div_mod (m := m) hf.clusterSize with ⟨hlast, hmod', hdiv'⟩ | ⟨hin, hmod', hdiv'⟩
    · -- the last sector of a cluster: the table has the next one
      obtain ⟨hsame, hcoherent, hanswer, hreliable, -⟩ := fatTableGet_spec h hdata.placed
      obtain ⟨e, w, hget⟩ : ∃ e w, fatTableGet v file.cluster = (e, w) := ⟨_, _, rfl⟩
      rw [hget] at hsame hcoherent hanswer hreliable
      simp only at hsame hcoherent hanswer hreliable
      have hentry : e = some (v.entry file.cluster) :=
        hanswer.elim (fun hnone => absurd hnone (hreliable hr)) fun hsome => hsome hf.fatLba
      have hchain : v.entry file.cluster = v.chain (file.first v.toGeometry) (m / v.clusterSize + 1) := by
        rw [hcluster]
        rfl
      have hle' : (m / v.clusterSize + 1) * v.clusterSize ≤ m + 1 := by
        have := Nat.div_add_mod m v.clusterSize
        rw [Nat.add_mul, Nat.mul_comm]
        omega
      have heoc : isEoc (v.entry file.cluster) = false := by
        rw [hchain]
        exact hf.linked _ (by omega)
      refine ⟨{ file with
          rwOffset := 0, cluster := v.entry file.cluster,
          sector := fatClustToSect v.toGeometry (v.entry file.cluster) },
        w, ?_, hsame, hcoherent, ⟨rfl, rfl⟩, hglob, (Nat.mul_mod_right 512 _).symm, ?_, ?_⟩
      · rw [if_pos (by omega), hget, hentry]
        simp only [heoc, Bool.false_eq_true, if_false, Nat.sub_self, hsame.geometry]
      · rw [hm, Volume.fileSector, hmod', hdiv', Nat.add_zero]
        exact congrArg (fatClustToSect v.toGeometry) hchain
      · rw [hm, hdiv']
        exact hchain
    · refine ⟨{ file with
          rwOffset := 0
          sector := fatClustToSect v.toGeometry file.cluster + (m % v.clusterSize + 1) },
        v, ?_, Same.refl v, h, ⟨rfl, rfl⟩, hglob, (Nat.mul_mod_right 512 _).symm, ?_, ?_⟩
      · rw [if_neg (by omega)]
      · rw [hm, Volume.fileSector, hmod', hdiv']
        exact congrArg (fun c => fatClustToSect v.toGeometry c + (m % v.clusterSize + 1)) hcluster
      · rw [hm, hdiv']
        exact hcluster

/-! ## One byte -/

/-- Whatever the position, the volume holds the same. -/
theorem fatTableGet_kept (h : Coherent v) (c : Nat) : Same v (fatTableGet v c).2 ∧
    Coherent (fatTableGet v c).2 := by
  obtain ⟨hsame, hcoherent, -⟩ := fatRead_spec h (u32_lt (v.fatLba + c / 128))
  unfold fatTableGet
  obtain ⟨r, w, hread⟩ : ∃ r w, fatRead v (u32 (v.fatLba + c / 128)) = (r, w) := ⟨_, _, rfl⟩
  rw [hread] at hsame hcoherent ⊢
  cases r with
  | zero => exact ⟨hsame, hcoherent⟩
  | succ r => exact ⟨hsame, hcoherent⟩

theorem fatFileAddrResolve_kept (h : Coherent v) (hs : file.sector < 4294967296) :
    ∃ r file' w, fatFileAddrResolve v file = (r, file', w) ∧ Same v w ∧ Coherent w ∧
      SameFile file file' ∧ file'.globOffset = file.globOffset ∧ file'.sector < 4294967296 := by
  unfold fatFileAddrResolve
  by_cases hover : v.sectorSize ≤ file.rwOffset
  · rw [if_pos hover]
    simp only
    by_cases hlast : u32 (fatClustToSect v.toGeometry file.cluster + v.clusterSize) ≤ u32 (file.sector + 1)
    · rw [if_pos hlast]
      obtain ⟨hsame, hcoherent⟩ := fatTableGet_kept h file.cluster
      obtain ⟨e, w, hget⟩ : ∃ e w, fatTableGet v file.cluster = (e, w) := ⟨_, _, rfl⟩
      rw [hget] at hsame hcoherent ⊢
      cases e with
      | none => exact ⟨0, _, w, rfl, hsame, hcoherent, ⟨rfl, rfl⟩, rfl, u32_lt _⟩
      | some e =>
        by_cases heoc : isEoc e = true
        · exact ⟨0, _, w, if_pos heoc, hsame, hcoherent, ⟨rfl, rfl⟩, rfl, u32_lt _⟩
        · exact ⟨1, _, w, if_neg heoc, hsame, hcoherent, ⟨rfl, rfl⟩, rfl, u32_lt _⟩
    · rw [if_neg hlast]
      exact ⟨1, _, v, rfl, Same.refl v, h, ⟨rfl, rfl⟩, rfl, u32_lt _⟩
  · rw [if_neg hover]
    exact ⟨1, file, v, rfl, Same.refl v, h, ⟨rfl, rfl⟩, rfl, hs⟩

theorem resolveRead_kept (h : Coherent v) (hs : file.sector < 4294967296) :
    ∃ r file' w, resolveRead v file = (r, file', w) ∧ Same v w ∧ Coherent w ∧ SameFile file file' ∧
      file'.globOffset = file.globOffset ∧ file'.sector < 4294967296 ∧ (v.disk.Reliable → r ≠ 0) := by
  unfold resolveRead
  by_cases hover : v.sectorSize ≤ file.rwOffset
  · rw [if_pos hover]
    obtain ⟨r, file', w, hresolve, hsame, hcoherent, hfile, hglob, hsector⟩ := fatFileAddrResolve_kept h hs
    obtain ⟨hsame', hcoherent', -, hreliable⟩ := fatRead_spec hcoherent hsector
    rw [hresolve]
    exact ⟨_, file', _, rfl, hsame.trans hsame', hcoherent', hfile, hglob, hsector,
      fun hr => hreliable (hsame.reliable hr)⟩
  · rw [if_neg hover]
    exact ⟨1, file, v, rfl, Same.refl v, h, ⟨rfl, rfl⟩, rfl, hs, fun _ => Nat.one_ne_zero⟩

theorem SameFile.trans {file'' : File} (h : SameFile file file') (h' : SameFile file' file'') :
    SameFile file file'' := ⟨h'.1.trans h.1, h'.2.trans h.2⟩

theorem readBytes_kept (count : Nat) (h : Coherent v) (hs : file.sector < 4294967296) :
    ∃ status bytes file' w, readBytes v file count = (status, bytes, file', w) ∧ Same v w ∧
      Coherent w ∧ SameFile file file' ∧ file'.sector < 4294967296 := by
  induction count generalizing v file with
  | zero => exact ⟨.ok, [], file, v, rfl, Same.refl v, h, ⟨rfl, rfl⟩, hs⟩
  | succ count ih =>
    obtain ⟨r, file', w, hresolve, hsame, hcoherent, hfile, -, hsector, -⟩ := resolveRead_kept h hs
    rw [readBytes, hresolve]
    cases r with
    | zero => exact ⟨.error, [], file', w, rfl, hsame, hcoherent, hfile, hsector⟩
    | succ r =>
      simp only [Nat.succ_ne_zero, if_false]
      by_cases hend : file'.next.size ≤ file'.next.globOffset
      · rw [if_pos hend]
        exact ⟨.ok, _, file'.next, w, rfl, hsame, hcoherent, hfile, hsector⟩
      · rw [if_neg hend]
        obtain ⟨status, bytes, file'', x, hread, hsame', hcoherent', hfile', hsector'⟩ :=
          ih hcoherent (show file'.next.sector < 4294967296 from hsector)
        rw [hread]
        exact ⟨status, _, file'', x, rfl, hsame.trans hsame', hcoherent', hfile.trans hfile', hsector'⟩

theorem resolveRead_spec (h : Coherent v) (hr : v.disk.Reliable) (hf : Chained v file)
    (hs : StandsAt v (file.first v.toGeometry) file o) (ho : o < file.size)
    (hbuffer : v.bufferLba = file.sector) :
    ∃ r file' w, resolveRead v file = (r, file', w) ∧ r ≠ 0 ∧ Same v w ∧ Coherent w ∧
      SameFile file file' ∧ StandsIn v (file.first v.toGeometry) file' o ∧
      w.bufferLba = file'.sector := by
  unfold resolveRead
  by_cases hover : v.sectorSize ≤ file.rwOffset
  · rw [if_pos hover]
    obtain ⟨file', w, hresolve, hsame, hcoherent, hfile, hin⟩ := fatFileAddrResolve_spec h hr hf hs ho
    have hlt : file'.sector < 4294967296 := by
      rw [hin.sector]
      exact (hf.fileSector_bounds (by omega)).2
    obtain ⟨hsame', hcoherent', hcached, hreliable⟩ := fatRead_spec hcoherent hlt
    have hne := hreliable (hsame.reliable hr)
    rw [hresolve]
    exact ⟨_, file', _, rfl, hne, hsame.trans hsame', hcoherent', hfile, hin, hcached hne⟩
  · rw [if_neg hover]
    refine ⟨1, file, v, rfl, Nat.one_ne_zero, Same.refl v, h, ⟨rfl, rfl⟩, ?_, hbuffer⟩
    obtain ⟨hglob, ⟨hrw, hsector, hcluster⟩ | ⟨-, -, hrw, -⟩⟩ := hs
    · exact ⟨hglob, hrw, hsector, hcluster⟩
    · rw [hf.sectorSize] at hover
      omega

/-- The byte in the buffer is that of the file, and the file goes on to the next offset. -/
theorem StandsIn.next {first : Nat} (h : StandsIn v first file o) (ho : o + 1 < 4294967296) :
    StandsAt v first file.next (o + 1) := by
  refine ⟨?_, ?_⟩
  · rw [File.next, h.glob]
    exact u32_of_lt ho
  · have hrw : file.next.rwOffset = o % 512 + 1 := by
      rw [File.next, h.rwOffset]
      exact u32_of_lt (by omega)
    by_cases hlast : o % 512 = 511
    · have hdiv : (o + 1) / 512 - 1 = o / 512 := by omega
      refine .inr ⟨by omega, by omega, by omega, ?_, ?_⟩
      · rw [hdiv]; exact h.sector
      · rw [hdiv]; exact h.cluster
    · have hdiv : (o + 1) / 512 = o / 512 := by omega
      refine .inl ⟨by omega, ?_, ?_⟩
      · rw [hdiv]; exact h.sector
      · rw [hdiv]; exact h.cluster

/-- The bytes of a file from an offset on. -/
def fileBytes (v : Volume) (first o n : Nat) : List Byte := (List.range n).map fun i => v.fileByte first (o + i)

theorem fileBytes_succ (v : Volume) (first o n : Nat) :
    fileBytes v first o (n + 1) = v.fileByte first o :: fileBytes v first (o + 1) n := by
  rw [fileBytes, List.range_succ_eq_map, List.map_cons, List.map_map, Nat.add_zero, fileBytes]
  refine congrArg (List.cons _) (List.map_congr_left fun i _ => ?_)
  rw [Function.comp_apply, show o + Nat.succ i = o + 1 + i by omega]

/-- Within the file the loop leaves the bytes that are asked for, or those up to the end. -/
theorem readBytes_spec (count : Nat) (h : Coherent v) (hr : v.disk.Reliable) (hf : Chained v file)
    (hs : StandsAt v (file.first v.toGeometry) file o) (ho : o < file.size)
    (hbuffer : v.bufferLba = file.sector) :
    ∃ file' w, readBytes v file count = (.ok,
        fileBytes v (file.first v.toGeometry) o (min count (file.size - o)), file', w) ∧
      Same v w ∧ Coherent w ∧ SameFile file file' ∧
      StandsAt w (file.first v.toGeometry) file' (o + min count (file.size - o)) := by
  induction count generalizing v file o with
  | zero =>
    rw [Nat.zero_min]
    exact ⟨file, v, rfl, Same.refl v, h, ⟨rfl, rfl⟩, hs⟩
  | succ count ih =>
    obtain ⟨r, file', w, hresolve, hne, hsame, hcoherent, hfile, hin, hbuffer'⟩ :=
      resolveRead_spec h hr hf hs ho hbuffer
    have hsize := hf.size
    have hbyte : w.buffer file'.rwOffset = v.fileByte (file.first v.toGeometry) o := by
      rw [← hf.fileByte_same hsame ho, Volume.fileByte, hsame.fileSector hf.fatLba, ← hin.sector,
        ← hin.rwOffset]
      exact (if_pos hbuffer'.symm).symm
    have hnext : StandsAt w (file.first v.toGeometry) file'.next (o + 1) :=
      hsame.standsAt hf.fatLba (hin.next (by omega))
    rw [readBytes, hresolve]
    simp only [hne, if_false, hbyte]
    have hsize' : file'.next.size = file.size := hfile.1
    rw [hsize', hnext.glob]
    by_cases hend : file.size ≤ o + 1
    · rw [if_pos hend]
      have hone : min (count + 1) (file.size - o) = 1 := by omega
      rw [hone]
      exact ⟨file'.next, w, rfl, hsame, hcoherent, hfile, hnext⟩
    · rw [if_neg hend]
      have hfile' : SameFile file file'.next := hfile
      have hfirst : file'.next.first w.toGeometry = file.first v.toGeometry := by
        rw [hsame.geometry]
        exact hfile'.first
      obtain ⟨file'', x, hread, hsame', hcoherent', hfile'', hat⟩ := ih (o := o + 1) hcoherent
        (hsame.reliable hr) (hfile'.chained (hsame.chained hf)) (by rwa [hfirst]) (by omega) hbuffer'
      rw [hfirst, hsize'] at hread hat
      have hmin : min (count + 1) (file.size - o) = min count (file.size - (o + 1)) + 1 := by omega
      have hbytes : fileBytes w (file.first v.toGeometry) (o + 1) (min count (file.size - (o + 1))) =
          fileBytes v (file.first v.toGeometry) (o + 1) (min count (file.size - (o + 1))) := by
        refine List.map_congr_left fun i hi => hf.fileByte_same hsame ?_
        have := List.mem_range.mp hi
        omega
      rw [hread, hmin, fileBytes_succ, hbytes]
      refine ⟨file'', x, rfl, hsame.trans hsame', hcoherent', hfile'.trans hfile'', ?_⟩
      rwa [show o + (min count (file.size - (o + 1)) + 1) = o + 1 + min count (file.size - (o + 1)) by omega]

/-- At the end of the file one byte more is left, and not none. -/
theorem readBytes_end (h : Coherent v) (hr : v.disk.Reliable) (hs : file.sector < 4294967296)
    (hend : file.size ≤ file.globOffset) (hglob : file.globOffset + 1 < 4294967296) :
    ∃ byte file' w, readBytes v file (count + 1) = (.ok, [byte], file', w) := by
  obtain ⟨r, file', w, hresolve, -, -, hfile, hglob', -, hreliable⟩ := resolveRead_kept h hs
  rw [readBytes, hresolve]
  simp only [hreliable hr, if_false]
  have hover : file'.next.size ≤ file'.next.globOffset := by
    have hnext : file'.next.globOffset = file.globOffset + 1 := by
      rw [File.next, hglob']
      exact u32_of_lt hglob
    have hsize : file'.next.size = file.size := hfile.1
    omega
  rw [if_pos hover]
  exact ⟨_, _, _, rfl⟩

/-! ## Jumps -/

/-- Following the chain over clusters of the file. -/
theorem followChain_spec (first k n : Nat) (h : Coherent v) (hr : v.disk.Reliable) (hfat : v.fatLba ≠ 0)
    (hdata : ∀ j, j < k + n → Placed v.toGeometry (v.chain first j))
    (hlinked : ∀ j, j < k + n → isEoc (v.chain first (j + 1)) = false) :
    ∃ w, followChain v (v.chain first k) n = (none, v.chain first (k + n), w) ∧ Same v w ∧
      Coherent w := by
  induction n generalizing v k with
  | zero => exact ⟨v, rfl, Same.refl v, h⟩
  | succ n ih =>
    obtain ⟨hsame, hcoherent, hanswer, hreliable, -⟩ := fatTableGet_spec h (hdata k (by omega))
    obtain ⟨e, w, hget⟩ : ∃ e w, fatTableGet v (v.chain first k) = (e, w) := ⟨_, _, rfl⟩
    rw [hget] at hsame hcoherent hanswer hreliable
    simp only at hsame hcoherent hanswer hreliable
    have hentry : e = some (v.chain first (k + 1)) :=
      hanswer.elim (fun hnone => absurd hnone (hreliable hr)) fun hsome => hsome hfat
    have hchain (j : Nat) := hsame.chain hfat first j
    obtain ⟨x, hfollow, hsame', hcoherent'⟩ := ih (k := k + 1) hcoherent (hsame.reliable hr)
      (by rwa [hsame.geometry]) (fun j hj => by rw [hchain, hsame.geometry]; exact hdata j (by omega))
      (fun j hj => by rw [hchain]; exact hlinked j (by omega))
    rw [hchain, hchain] at hfollow
    refine ⟨x, ?_, hsame.trans hsame', hcoherent'⟩
    rw [followChain, hget, hentry]
    simp only [hlinked k (by omega), Bool.false_eq_true, if_false]
    rw [hfollow, show k + (n + 1) = k + 1 + n by omega]

/-- A jump into the file comes to the offset. -/
theorem fatFileJump_spec (h : Coherent v) (hr : v.disk.Reliable) (hf : Chained v file) (ho : o < file.size) :
    ∃ file' w, fatFileJump v file o = (.ok, file', w) ∧ Same v w ∧ Coherent w ∧ SameFile file file' ∧
      StandsAt w (file.first v.toGeometry) file' o ∧ file'.sector < 4294967296 := by
  have hle : o / 512 / v.clusterSize * v.clusterSize ≤ o / 512 := Nat.div_mul_le_self _ _
  have hbefore {j : Nat} (hj : j < 0 + o / 512 / v.clusterSize) :
      512 * ((j + 1) * v.clusterSize) < file.size := by
    have := Nat.mul_le_mul_right v.clusterSize (show j + 1 ≤ o / 512 / v.clusterSize by omega)
    omega
  obtain ⟨w, hfollow, hsame, hcoherent⟩ := followChain_spec (file.first v.toGeometry) 0
    (o / 512 / v.clusterSize) h hr hf.fatLba
    (fun j hj => (hf.data j (by have := hbefore hj; rw [Nat.add_mul] at this; omega)).placed)
    fun j hj => hf.linked j (hbefore hj)
  rw [Nat.zero_add] at hfollow
  obtain ⟨c, hc⟩ : ∃ c, v.chain (file.first v.toGeometry) (o / 512 / v.clusterSize) = c := ⟨_, rfl⟩
  have hsector : v.fileSector (file.first v.toGeometry) (o / 512) =
      fatClustToSect v.toGeometry c + o / 512 % v.clusterSize := by rw [← hc]; rfl
  have hbounds := hf.fileSector_bounds (m := o / 512) (by omega)
  rw [hc] at hfollow
  rw [hsector] at hbounds
  refine ⟨{ file with
      cluster := c
      sector := fatClustToSect v.toGeometry c + o / 512 % v.clusterSize
      rwOffset := o % 512
      globOffset := o }, w, ?_, hsame, hcoherent, ⟨rfl, rfl⟩, ⟨rfl, .inl ⟨rfl, ?_, ?_⟩⟩, hbounds.2⟩
  · have hfollow' : followChain v (fatSectToClust v.toGeometry file.startSect) (o / 512 / v.clusterSize) =
        (none, c, w) := hfollow
    unfold fatFileJump
    simp only [hf.sectorSize, hfollow', hsame.geometry, u32_of_lt hbounds.2]
  · rw [hsame.fileSector hf.fatLba, hsector]
  · rw [hsame.chain hf.fatLba, hsame.geometry, hc]

/-! ## Runs on a file -/

inductive FileCall
  | jump (offset : Nat)
  | read (count : Nat)

def fileCall (v : Volume) (file : File) : FileCall → FStatus × List Byte × File × Volume
  | .jump offset =>
    let (status, file, v) := fatFileJump v file offset
    (status, [], file, v)
  | .read count => fatFileRead v file count

def fileCalls (v : Volume) (file : File) : List FileCall → List (FStatus × List Byte)
  | [] => []
  | call :: calls =>
    let (status, bytes, file, v) := fileCall v file call
    (status, bytes) :: fileCalls v file calls

/-- What the calls deliver of a content of some size, the offset being known or lost. -/
inductive Delivers (content : Nat → Byte) (size : Nat) :
    Option Nat → List FileCall → List (FStatus × List Byte) → Prop
  | nil {s : Option Nat} : Delivers content size s [] []
  | jump {s : Option Nat} {o : Nat} {calls answers} : o < size → Delivers content size (some o) calls answers →
      Delivers content size s (.jump o :: calls) ((.ok, []) :: answers)
  | read {o n : Nat} {calls answers} : o < size →
      Delivers content size (some (o + min n (size - o))) calls answers →
      Delivers content size (some o) (.read n :: calls)
        ((.ok, (List.range (min n (size - o))).map fun i => content (o + i)) :: answers)
  | none {calls answers} : Delivers content size (some size) calls answers →
      Delivers content size (some size) (.read 0 :: calls) ((.ok, []) :: answers)
  | past {n : Nat} {byte : Byte} {calls answers} : Delivers content size none calls answers →
      Delivers content size (some size) (.read (n + 1) :: calls) ((.ok, [byte]) :: answers)
  | lost {n : Nat} {answer calls answers} : Delivers content size none calls answers →
      Delivers content size none (.read n :: calls) (answer :: answers)

/-- Only the bytes within the size count. -/
theorem Delivers.congr {content content' : Nat → Byte} {size : Nat} {s : Option Nat}
    {calls : List FileCall} {answers : List (FStatus × List Byte)}
    (h : ∀ o, o < size → content o = content' o) (hd : Delivers content size s calls answers) :
    Delivers content' size s calls answers := by
  induction hd with
  | nil => exact .nil
  | jump ho _ ih => exact .jump ho ih
  | @read o n _ _ ho _ ih =>
    have hbytes : ((List.range (min n (size - o))).map fun i => content (o + i)) =
        (List.range (min n (size - o))).map fun i => content' (o + i) :=
      List.map_congr_left fun i hi => h _ (by have := List.mem_range.mp hi; omega)
    rw [hbytes]
    exact .read ho ih
  | none _ ih => exact .none ih
  | past _ ih => exact .past ih
  | lost _ ih => exact .lost ih

theorem fatFileRead_kept (count : Nat) (h : Coherent v) (hs : file.sector < 4294967296) :
    ∃ status bytes file' w, fatFileRead v file count = (status, bytes, file', w) ∧ Same v w ∧
      Coherent w ∧ SameFile file file' ∧ file'.sector < 4294967296 := by
  obtain ⟨hsame, hcoherent, -⟩ := fatRead_spec h hs
  unfold fatFileRead
  obtain ⟨r, w, hread⟩ : ∃ r w, fatRead v file.sector = (r, w) := ⟨_, _, rfl⟩
  rw [hread] at hsame hcoherent ⊢
  cases r with
  | zero => exact ⟨.error, [], file, w, rfl, hsame, hcoherent, ⟨rfl, rfl⟩, hs⟩
  | succ r =>
    obtain ⟨status, bytes, file', x, hbytes, hsame', hcoherent', hfile, hs'⟩ :=
      readBytes_kept count hcoherent hs
    exact ⟨status, bytes, file', x, hbytes, hsame.trans hsame', hcoherent', hfile, hs'⟩

theorem fatFileRead_spec (count : Nat) (h : Coherent v) (hr : v.disk.Reliable) (hf : Chained v file)
    (hs : StandsAt v (file.first v.toGeometry) file o) (ho : o < file.size)
    (hlt : file.sector < 4294967296) :
    ∃ file' w, fatFileRead v file count = (.ok,
        fileBytes v (file.first v.toGeometry) o (min count (file.size - o)), file', w) ∧
      Same v w ∧ StandsAt w (file.first v.toGeometry) file' (o + min count (file.size - o)) := by
  obtain ⟨hsame, hcoherent, hcached, hreliable⟩ := fatRead_spec h hlt
  unfold fatFileRead
  obtain ⟨r, w, hread⟩ : ∃ r w, fatRead v file.sector = (r, w) := ⟨_, _, rfl⟩
  rw [hread] at hsame hcoherent hcached hreliable ⊢
  have hne : r ≠ 0 := hreliable hr
  have hfirst : file.first w.toGeometry = file.first v.toGeometry := by rw [hsame.geometry]
  obtain ⟨file', x, hbytes, hsame', -, -, hat⟩ := readBytes_spec count (o := o) hcoherent
    (hsame.reliable hr) (hsame.chained hf) (by rw [hfirst]; exact hsame.standsAt hf.fatLba hs) ho
    (hcached hne)
  rw [hfirst] at hbytes hat
  have hsamebytes : fileBytes w (file.first v.toGeometry) o (min count (file.size - o)) =
      fileBytes v (file.first v.toGeometry) o (min count (file.size - o)) := by
    refine List.map_congr_left fun i hi => hf.fileByte_same hsame ?_
    have := List.mem_range.mp hi
    omega
  refine ⟨file', x, ?_, hsame.trans hsame', hat⟩
  simp only [hne, if_false]
  rw [hbytes, hsamebytes]

theorem fatFileRead_end (count : Nat) (h : Coherent v) (hr : v.disk.Reliable) (hlt : file.sector < 4294967296)
    (hend : file.size ≤ file.globOffset) (hglob : file.globOffset + 1 < 4294967296) :
    ∃ byte file' w, fatFileRead v file (count + 1) = (.ok, [byte], file', w) := by
  obtain ⟨hsame, hcoherent, -, hreliable⟩ := fatRead_spec h hlt
  unfold fatFileRead
  obtain ⟨r, w, hread⟩ : ∃ r w, fatRead v file.sector = (r, w) := ⟨_, _, rfl⟩
  rw [hread] at hsame hcoherent hreliable ⊢
  have hne : r ≠ 0 := hreliable hr
  simp only [hne, if_false]
  exact readBytes_end hcoherent (hsame.reliable hr) hlt hend hglob

/-- The file stands where the run has come to, if that is known. -/
structure Known (v : Volume) (first size : Nat) (file : File) (s : Option Nat) : Prop where
  sector : file.sector < 4294967296
  at_ : ∀ o, s = some o → StandsAt v first file o ∧ o ≤ size

theorem fileCalls_delivers {first size : Nat} {s : Option Nat} {calls : List FileCall} (h : Coherent v)
    (hr : v.disk.Reliable) (hf : Chained v file) (hfirst : file.first v.toGeometry = first)
    (hsize : file.size = size) (hlt : size + 1 < 4294967296) (hs : Known v first size file s)
    (hc : ∀ o, FileCall.jump o ∈ calls → o < size) :
    Delivers (v.fileByte first) size s calls (fileCalls v file calls) := by
  induction calls generalizing v file s with
  | nil => exact .nil
  | cons call calls ih =>
    have hnext {file' : File} {w : Volume} {s' : Option Nat} (hsame : Same v w) (hcoherent : Coherent w)
        (hfile : SameFile file file') (hknown : Known w first size file' s') :
        Delivers (v.fileByte first) size s' calls (fileCalls w file' calls) := by
      have hcontent : ∀ o, o < size → w.fileByte first o = v.fileByte first o := fun o ho => by
        rw [← hfirst]
        exact hf.fileByte_same hsame (by omega)
      have hcalls := ih hcoherent (hsame.reliable hr) (hfile.chained (hsame.chained hf))
        (by rw [hfile.first, hsame.geometry, hfirst]) (hfile.1.trans hsize) hknown
        fun o ho => hc o (List.mem_cons_of_mem _ ho)
      exact hcalls.congr hcontent
    cases call with
    | jump o =>
      have ho := hc o List.mem_cons_self
      obtain ⟨file', w, hjump, hsame, hcoherent, hfile, hat, hsector⟩ :=
        fatFileJump_spec h hr hf (hsize.symm ▸ ho)
      rw [hfirst] at hat
      simp only [fileCalls, fileCall, hjump]
      exact .jump ho (hnext hsame hcoherent hfile ⟨hsector, fun o' ho' => by
        obtain rfl := Option.some.inj ho'
        exact ⟨hat, by omega⟩⟩)
    | read n =>
      obtain ⟨status, bytes, file', w, hread, hsame, hcoherent, hfile, hsector⟩ :=
        fatFileRead_kept n h hs.sector
      simp only [fileCalls, fileCall, hread]
      cases s with
      | none => exact .lost (hnext hsame hcoherent hfile ⟨hsector, nofun⟩)
      | some o =>
        obtain ⟨hat, hle⟩ := hs.at_ o rfl
        rcases Nat.lt_or_ge o size with hin | hend
        · obtain ⟨file'', x, hread', -, hat'⟩ := fatFileRead_spec n h hr hf
            (by rwa [hfirst]) (by omega) hs.sector
          rw [hread] at hread'
          obtain ⟨rfl, rfl, rfl, rfl⟩ := by simpa only [Prod.mk.injEq] using hread'
          rw [hfirst, hsize] at hat'
          rw [hfirst, hsize]
          exact .read hin (hnext hsame hcoherent hfile ⟨hsector, fun o' ho' => by
            obtain rfl := Option.some.inj ho'
            exact ⟨hat', by omega⟩⟩)
        · obtain rfl : o = size := by omega
          cases n with
          | zero =>
            obtain ⟨hsame', -, -, hreliable⟩ := fatRead_spec h hs.sector
            have hread' : fatFileRead v file 0 = (.ok, [], file, (fatRead v file.sector).2) :=
              if_neg (hreliable hr)
            rw [hread] at hread'
            obtain ⟨rfl, rfl, rfl, rfl⟩ := by simpa only [Prod.mk.injEq] using hread'
            exact .none (hnext hsame hcoherent hfile ⟨hsector, fun o' ho' => by
              obtain rfl := Option.some.inj ho'
              exact ⟨hsame.standsAt hf.fatLba hat, Nat.le_refl _⟩⟩)
          | succ n =>
            obtain ⟨byte, file'', x, hread'⟩ := fatFileRead_end n h hr hs.sector
              (by rw [hat.glob]; omega) (by rw [hat.glob]; exact hlt)
            rw [hread] at hread'
            obtain ⟨rfl, rfl, rfl, rfl⟩ := by simpa only [Prod.mk.injEq] using hread'
            exact .past (hnext hsame hcoherent hfile ⟨hsector, nofun⟩)

/-- A volume with a file of 600 bytes in the clusters 3 and 7. -/
def pairVolume : Volume :=
  { blankVolume with disk := ⟨fun x =>
      if x / 512 ≠ 32 then BitVec.ofNat 8 (x % 251)
      else if x % 512 = 4 * 3 then 7
      else if x % 512 = 4 * 7 + 3 then 0x0F
      else if x % 512 / 4 = 7 then 0xFF else 0, fun _ => false, 0⟩ }

def pairFile : File :=
  { sector := 1065, cluster := 3, rwOffset := 0, size := 600, startSect := 1065, globOffset := 0 }

theorem chained_pairFile : Chained pairVolume pairFile := by
  have hchain : pairVolume.chain 3 1 = 7 := by decide +kernel
  refine ⟨rfl, by decide, by decide, by decide, by decide, by decide, fun k hk => ?_, fun k hk => ?_⟩
  · have hk : 512 * (k * 1) < 600 := hk
    obtain rfl | rfl : k = 0 ∨ k = 1 := by omega
    · exact ⟨by decide, show 32 + 3 / 128 < 4294967296 by omega, by decide, by decide⟩
    · rw [show pairVolume.chain (fatSectToClust pairVolume.toGeometry pairFile.startSect) 1 = 7 from hchain]
      exact ⟨by decide, show 32 + 7 / 128 < 4294967296 by omega, by decide, by decide⟩
  · have hk : 512 * ((k + 1) * 1) < 600 := hk
    obtain rfl : k = 0 := by omega
    rw [show pairVolume.chain (fatSectToClust pairVolume.toGeometry pairFile.startSect) (0 + 1) = 7 from hchain]
    decide

end UnedKernel.Fat32
