import UnedKernel.Ext2.DirectoryRecords

/-! # Adding an entry to a directory

`ext2_create_directory_entry` splits the last record of the directory. -/

namespace UnedKernel.Ext2
open ByteMem CString Word

variable {m block : Bytes} {rs : List Record} {r : Record} {name : List Byte}
  {p q e size entry parsed childInode nameLen type : Nat}

/-! ## The split -/

section split

variable (hr : recordAt block q = r) (hend : q + r.recLen = parsed)
include hr hend

theorem splitEntry_eq : splitEntry block q parsed childInode name nameLen type =
    let aligned := align4 (entrySize r.name.length)
    copy (copy (DirectoryEntry.recLen.set block q aligned) (q + aligned)
      (entryHeader childInode (r.recLen - aligned) nameLen type) 0 8) (q + aligned + 8) (chars name) 0
      nameLen := by
  have hlen : DirectoryEntry.nameLen.get block q = r.name.length := by rw [← hr, recordAt_name_length]
  have hrec : DirectoryEntry.recLen.get block q = r.recLen := congrArg Record.recLen hr
  have hstart : parsed - r.recLen = q := by omega
  simp only [splitEntry, hlen, hrec, hstart]
  rw [copy_self]
  unfold sizeofDirectoryEntry EXT2_NAME_LEN
  rw [show q + align4 (entrySize r.name.length) + 263 - 255 = q + align4 (entrySize r.name.length) + 8 by
    omega]

/-- Before the last record nothing changes. -/
theorem splitEntry_before (childInode : Nat) (name : List Byte) (nameLen type : Nat) {x : Nat}
    (hx : x < q) :
    splitEntry block q parsed childInode name nameLen type x = block x := by
  rw [splitEntry_eq hr hend]
  simp only
  rw [copy_apply_out _ _ (by omega), copy_apply_out _ _ (by omega)]
  exact store_apply_out _ (.inl (show x < q + 4 by omega))

/-- The last record is split in two. -/
theorem splitEntry_tiles (childInode type : Nat) (hlast : Tiles size block q [r] parsed) (hname : 1 ≤ name.length)
    (hlen : name.length < 256) (hroom : align4 (entrySize r.name.length) +
      align4 (entrySize name.length) ≤ r.recLen) :
    Tiles size (splitEntry block q parsed childInode name name.length type) q
      [{ r with recLen := align4 (entrySize r.name.length) },
        ⟨childInode % 4294967296, r.recLen - align4 (entrySize r.name.length), name, type % 256⟩]
      parsed := by
  obtain ⟨-, hmul, -, hin, -⟩ := hlast
  have hold : r.name.length < 256 := by rw [← hr]; exact recordAt_name_lt
  have hrec : r.recLen < 65536 := by rw [← hr]; exact DirectoryEntry.recLen.get_lt block
  rw [align4_entrySize hlen, align4_entrySize hold] at hroom
  rw [align4_entrySize hold]
  obtain ⟨a, ha⟩ : ∃ a, (r.name.length + 11) / 4 * 4 = a := ⟨_, rfl⟩
  have hsplit : splitEntry block q parsed childInode name name.length type = _ :=
    splitEntry_eq hr hend
  simp only [align4_entrySize hold, ha] at hsplit
  rw [ha] at hroom ⊢
  have hmod : (q + a) % size = q % size + a := by
    rw [Nat.add_mod, Nat.mod_eq_of_lt (show a < size by omega), Nat.mod_eq_of_lt (by omega)]
  refine ⟨?_, show a % 4 = 0 by omega, show 8 + r.name.length ≤ a by omega,
    show q % size + a ≤ size by omega, ?_, show (r.recLen - a) % 4 = 0 by omega,
    show 8 + name.length ≤ r.recLen - a by omega, ?_, show q + a + (r.recLen - a) = parsed by omega⟩
  · have hset := recordAt_setRecLen (m := block) (p := q) a
    rw [hr, Nat.mod_eq_of_lt (by omega)] at hset
    rw [← hset, hsplit]
    refine recordAt_congr fun x hx hx' => ?_
    rw [hset] at hx'
    have hx' : x < q + 8 + r.name.length := hx'
    rw [copy_apply_out _ _ (by omega), copy_apply_out _ _ (by omega)]
  · have hwritten : recordAt (splitEntry block q parsed childInode name name.length type) (q + a) =
        ⟨childInode % 4294967296, (r.recLen - a) % 65536, name, type % 256⟩ :=
      recordAt_written hlen (fun i hi => ?_) fun i hi => ?_
    · rw [hwritten, Nat.mod_eq_of_lt (show r.recLen - a < 65536 by omega)]
    · rw [hsplit, copy_apply_out _ _ (by omega), copy_apply_in _ _ (by omega) (by omega)]
      congr 1
      omega
    · rw [hsplit, copy_apply_in _ _ (by omega) (by omega)]
      unfold chars
      congr 1
      omega
  · change (q + a) % size + (r.recLen - a) ≤ size
    rw [hmod]
    omega

end split

/-- The records before the last one stay. -/
theorem splitEntry_append {init : List Record} (hinit : Tiles size block p init q)
    (hlast : Tiles size block q [r] parsed) (childInode type : Nat) (hname : 1 ≤ name.length)
    (hlen : name.length < 256) (hroom : align4 (entrySize r.name.length) +
      align4 (entrySize name.length) ≤ r.recLen) :
    Tiles size (splitEntry block q parsed childInode name name.length type) p
      (init ++ [{ r with recLen := align4 (entrySize r.name.length) },
        ⟨childInode % 4294967296, r.recLen - align4 (entrySize r.name.length), name, type % 256⟩])
      parsed := by
  have hr : recordAt block q = r := hlast.1
  have hend : q + r.recLen = parsed := hlast.2.2.2.2
  exact Tiles.append.mpr ⟨q, hinit.congr fun x _ hx =>
    splitEntry_before hr hend childInode name name.length type hx,
    splitEntry_tiles hr hend childInode type hlast hname hlen hroom⟩


/-! ## The call -/

/-- Over exact input and output an entry is added to a directory that is tiled by records: it
comes last, and what there was stays; a call that fails leaves the bytes as they were. -/
theorem createDirectoryEntry_appends {readB : InodeReader} {writeB : InodeWriter}
    {good : Volume → Prop} {n : Nat} {bytes : Volume → Bytes} {length : Volume → Nat}
    (hio : ExactBytes readB writeB good n bytes length) {v : Volume} (hv : good v)
    (hdir : TiledBlocks v.part.blockSize (bytes v) (length v) rs) (hne : rs ≠ [])
    (hname : NulFree name) (hpos : 1 ≤ name.length) (hlen : name.length ≤ 255)
    (hchild : childInode < 4294967296) :
    ∃ result w, createDirectoryEntryBy readB writeB v n childInode name type = some (result, w) ∧
      (result = 0 → ∃ rs', TiledBlocks v.part.blockSize (bytes w) (length w) rs' ∧
        rs'.map Record.entry = rs.map Record.entry ++ [(name, childInode, type % 256)]) ∧
      (result ≠ 0 → result = 1 ∧ bytes w = bytes v ∧ length w = length v) := by
  have hfail {w : Volume} (hw : SameFile good bytes length v w) :
      ((1 : Nat) = 0 → ∃ rs', TiledBlocks v.part.blockSize (bytes w) (length w) rs' ∧
        rs'.map Record.entry = rs.map Record.entry ++ [(name, childInode, type % 256)]) ∧
      ((1 : Nat) ≠ 0 → (1 : Nat) = 1 ∧ bytes w = bytes v ∧ length w = length v) :=
    ⟨fun h => absurd h Nat.one_ne_zero, fun _ => ⟨rfl, hw.bytes, hw.length⟩⟩
  have hnameLen : strlen STR_MAX_SIZE name % 256 = name.length := by
    unfold strlen STR_MAX_SIZE
    omega
  have hfirst := hio.inode v n hv
  have hsize := hio.size v
  rw [createDirectoryEntryBy]
  cases hinode : readInode v n with
  | mk inode v₁ =>
    rw [hinode] at hfirst hsize
    cases inode with
    | none => exact ⟨1, v₁, rfl, hfail hfirst⟩
    | some inode =>
      have hsize := hsize inode hv rfl
      have hheap := hfirst.trans (hio.heap v₁ hfirst.good)
      simp only [hnameLen, hsize]
      split
      · obtain ⟨read, b, v₂, hread, hsame, hbytes⟩ := hio.reads (kmalloc v₁).2 (kmalloc v₁).1
          (length v) 0 hheap.good (by rw [hheap.length]; omega)
        have hv₂ := hheap.trans hsame
        simp only [hread]
        split
        · exact ⟨1, v₂, rfl, hfail hv₂⟩
        · rename_i hok
          -- the last record of the directory, as the buffer has it
          obtain ⟨init, r, rfl⟩ := List.eq_nil_or_concat rs |>.resolve_left hne
          have hlt : length v < 4294967296 := hsize ▸ InodeDescriptor.size.get_lt inode
          have htiles : Tiles v.part.blockSize b 0 (init ++ [r]) (length v) := by
            refine Tiles.congr (by simpa using hdir.tiles) fun x _ hx => ?_
            rw [hbytes hok x hx, hheap.bytes, Nat.zero_add]
          obtain ⟨q, hloop, hinit, hlast⟩ := lastEntryFrom_tiles POSITIONS none htiles hlt
            (by unfold POSITIONS; omega)
          have hr : recordAt b q = r := hlast.1
          have hend : q + r.recLen = length v := hlast.2.2.2.2
          have hold : DirectoryEntry.nameLen.get b q = r.name.length := by rw [← hr, recordAt_name_length]
          have hrec : DirectoryEntry.recLen.get b q = r.recLen := congrArg Record.recLen hr
          simp only [hloop, hold, hrec]
          split
          · exact ⟨1, v₂, rfl, hfail hv₂⟩
          · rename_i hroom
            obtain ⟨written, w, hwrite, hw, hwlen, hbad, hgood⟩ := hio.writes v₂
              (splitEntry b q (length v) childInode name name.length type) (length v) 0 hv₂.good
              (by rw [hv₂.length]; omega)
            simp only [hwrite]
            split
            · rename_i hfailed
              exact ⟨1, w, rfl, hfail ⟨hw, (hbad hfailed).trans hv₂.bytes, hwlen.trans hv₂.length⟩⟩
            · rename_i hdone
              refine ⟨0, w, rfl, fun _ => ?_, fun h => absurd rfl h⟩
              have hall := splitEntry_append hinit hlast childInode type hpos (by omega)
                (Nat.not_lt.mp hroom)
              rw [hwlen.trans hv₂.length]
              refine ⟨_, ⟨hdir.blocks, hall.congr fun x _ hx => ?_⟩, ?_⟩
              · rw [hgood hdone, copy_apply_in _ _ (Nat.zero_le x) (by omega), Nat.sub_zero, Nat.zero_add]
              · simp [Record.entry, Nat.mod_eq_of_lt hchild]
      · exact ⟨1, v₁, rfl, hfail hfirst⟩

/-- A file `a` in a directory that holds `.` and `..`. -/
theorem createDirectoryEntry_appends_dots : ∃ result w, createDirectoryEntryBy imageReader imageWriter
      (directoryVolume 1024 (dotEntries (fun _ => 0) 2 2)) 2 12 [0x61] 1 = some (result, w) ∧
    (result = 0 → ∃ rs', TiledBlocks tablePartition.blockSize (imageBytes w) (imageLength w) rs' ∧
      rs'.map Record.entry = [([0x2E], 2, 2), ([0x2E, 0x2E], 2, 2), ([0x61], 12, 1)]) ∧
    (result ≠ 0 → result = 1 ∧
      imageBytes w = imageBytes (directoryVolume 1024 (dotEntries (fun _ => 0) 2 2)) ∧
      imageLength w = imageLength (directoryVolume 1024 (dotEntries (fun _ => 0) 2 2))) := by
  have hblock : tablePartition.blockSize = 1024 := by decide +kernel
  have hname : NulFree [(0x61 : Byte)] := by decide
  exact createDirectoryEntry_appends exactBytes_image
    (v := directoryVolume 1024 (dotEntries (fun _ => 0) 2 2)) ⟨rfl, fun _ => rfl⟩
    (hblock ▸ tiledBlocks_dots) (List.cons_ne_nil _ _) hname (Nat.le_refl 1) (Nat.le_add_left 1 254)
    (show 12 < 4294967296 by decide)

end UnedKernel.Ext2
