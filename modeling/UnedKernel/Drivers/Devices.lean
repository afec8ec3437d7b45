import Mathlib.Data.Nat.Digits.Defs
import UnedKernel.Lib.CString

/-! # The list of devices

A device is named by the identifier of its major and a hexadecimal number that
counts the devices of that major. `device_search` compares only as many bytes as
it is given, so it finds the first device whose name begins with them: names
that begin with another one of the same major belong to later devices, and no
identifier begins with another one. -/

namespace Devices
open ByteMem CString

/-- The longest string that `strlen` measures. -/
def STR_MAX_SIZE : Nat := 65536

/-- `struct device`; `next` is the order of the list. -/
structure Device where
  bc : Nat
  valid : Nat
  major : Nat
  minor : Nat
  name : Bytes
  internalId : Nat
  deviceControlStructure : Nat

/-- A node from `memset`. The last node of the list is one. -/
def zeroed : Device := ⟨0, 0, 0, 0, fun _ => 0, 0, 0⟩

/-- The first entries of `device_identifiers`. -/
def blockIdentifiers : List String :=
  ["none", "none", "none", "none", "none", "none", "none", "none", "hd", "cd", "semb", "pm", "sd",
    "none", "tty", "none", "mouse", "net", "fb", "none"]

/-- `device_identifiers`; `none` is a null pointer, or an index outside the table. -/
def deviceIdentifiers (major : Nat) : Option (List Byte) :=
  if major = 0x8d then some (ascii "serial")
  else if major = 0x8e then some (ascii "fifo")
  else if major = 0x8f then some (ascii "kbd")
  else blockIdentifiers[major]?.map ascii

/-- A digit of `%x`. -/
def hexDigit (d : Nat) : Byte := BitVec.ofNat 8 (if d < 10 then 0x30 + d else 0x61 + d - 10)

/-- The loop of `_ntoa_long`, which writes the last digit first, into a buffer of so many
bytes. -/
def ntoaLong : Nat → Nat → List Byte
  | 0, _ => []
  | len + 1, value => hexDigit (value % 16) :: if value / 16 = 0 then [] else ntoaLong len (value / 16)

def PRINTF_NTOA_BUFFER_SIZE : Nat := 32

/-- `%x`, where `_out_rev` turns the digits round. -/
def hex (value : Nat) : List Byte := (ntoaLong PRINTF_NTOA_BUFFER_SIZE value).reverse

/-- `sprintf(name, "%s%x", device_identifiers[major], minor+0xa)`. -/
def deviceName (identifier : List Byte) (minor : Nat) : List Byte := identifier ++ hex (minor + 0xa)

/-- The major a node is counted under. -/
def Device.key (d : Device) : Nat := (d.bc * 128 ||| d.major) % 256

/-- The walk of `device_create` to the last node, which counts the devices of a major. -/
def countMinor (major : Nat) : List Device → Nat → Nat
  | [], minor => minor
  | [_], minor => minor
  | d :: e :: rest, minor =>
    countMinor major (e :: rest) (if d.key = major then (minor + 1) % 256 else minor)

/-- The last node is filled in, and a new one is put behind it. -/
def fillLast (fill : Device → Device) : List Device → List Device
  | [] => []
  | [d] => [fill d, zeroed]
  | d :: e :: rest => d :: fillLast fill (e :: rest)

/-- What `device_create` is given. -/
structure Request where
  deviceControlStructure : Nat
  major : Nat
  id : Nat

/-- The node that is filled in for a request. -/
def fill (r : Request) (name : List Byte) (minor : Nat) (d : Device) : Device where
  bc := (r.major &&& 0x80) >>> 7
  valid := 1
  major := r.major &&& 0x7f
  minor := minor
  name := strncpy d.name 0 name (strlen STR_MAX_SIZE name)
  internalId := r.id
  deviceControlStructure := r.deviceControlStructure

/-- `device_create`, with memory for the new node. The pointer it returns is to the name of
the node with the index it gives; `none` is an identifier that is not there. -/
def deviceCreate (nodes : List Device) (r : Request) : Option (List Device × Nat) :=
  (deviceIdentifiers r.major).map fun identifier =>
    let minor := countMinor r.major nodes 0
    (fillLast (fill r (deviceName identifier minor) minor) nodes, nodes.length - 1)

/-- `memcmp` of the bytes at `i` with `s`, over the length of `s`. -/
def memcmp (d : Bytes) : Nat → List Byte → Nat
  | _, [] => 0
  | i, c :: s => if d i ≠ c then 1 else memcmp d (i + 1) s

/-- `device_search`, from the node with the index `i` on. -/
def deviceSearchFrom (name : List Byte) : List Device → Nat → Option Nat
  | [], _ => none
  | d :: rest, i =>
    if d.valid = 0 then none
    else if memcmp d.name 0 (name.take (strlen STR_MAX_SIZE name)) = 0 then some i
    else deviceSearchFrom name rest (i + 1)

def deviceSearch (nodes : List Device) (name : List Byte) : Option Nat :=
  deviceSearchFrom name nodes 0

/-- The string that a pointer to the name of the node `i` reads as. -/
def nameAt (nodes : List Device) (i : Nat) : List Byte :=
  stringAt (nodes.getD i zeroed).name 0 STR_MAX_SIZE

/-- The list after a sequence of requests, and the names that they return. -/
def createAll : List Device → List Request → Option (List Device × List (List Byte))
  | nodes, [] => some (nodes, [])
  | nodes, r :: rs =>
    (deviceCreate nodes r).bind fun (nodes, i) =>
      (createAll nodes rs).map fun s => (s.1, nameAt nodes i :: s.2)

/-! ## Hexadecimal numbers -/

/-- The value of a digit. -/
def digitValue (c : Byte) : Nat := if c.toNat < 0x40 then c.toNat - 0x30 else c.toNat - 0x57

/-- The number that a string of digits, the first one first, stands for. -/
def hexValue (s : List Byte) : Nat := Nat.ofDigits 16 (s.reverse.map digitValue)

theorem hexDigit_spec {d : Nat} (hd : d < 16) : digitValue (hexDigit d) = d ∧ hexDigit d ≠ 0 := by
  have hall : ∀ d < 16, digitValue (hexDigit d) = d ∧ hexDigit d ≠ 0 := by decide
  exact hall d hd

theorem ofDigits_ntoaLong {len value : Nat} (hlt : value < 16 ^ len) :
    Nat.ofDigits 16 ((ntoaLong len value).map digitValue) = value := by
  induction len generalizing value with
  | zero => rw [Nat.lt_one_iff.mp hlt]; rfl
  | succ len ih =>
    have hmod := Nat.div_add_mod value 16
    rw [ntoaLong, List.map_cons, Nat.ofDigits_cons, (hexDigit_spec (Nat.mod_lt _ (by decide))).1]
    split
    · rename_i hzero
      rw [List.map_nil, Nat.ofDigits_nil]
      omega
    · rw [ih (Nat.div_lt_of_lt_mul (by rwa [← Nat.pow_succ']))]
      omega

theorem hexValue_hex {value : Nat} (hlt : value < 16 ^ PRINTF_NTOA_BUFFER_SIZE) :
    hexValue (hex value) = value := by
  unfold hexValue hex
  rw [List.reverse_reverse]
  exact ofDigits_ntoaLong hlt

theorem hexValue_append_le (s t : List Byte) : hexValue s ≤ hexValue (s ++ t) := by
  unfold hexValue
  rw [List.reverse_append, List.map_append, Nat.ofDigits_append]
  exact Nat.le_trans (Nat.le_mul_of_pos_left _ (Nat.pow_pos (by decide))) (Nat.le_add_left _ _)

/-- A number whose digits begin with those of another one is not smaller. -/
theorem le_of_hex_prefix {v w : Nat} (hv : v < 16 ^ PRINTF_NTOA_BUFFER_SIZE)
    (hw : w < 16 ^ PRINTF_NTOA_BUFFER_SIZE) (h : hex v <+: hex w) : v ≤ w := by
  obtain ⟨t, ht⟩ := h
  have hle := hexValue_append_le (hex v) t
  rwa [ht, hexValue_hex hv, hexValue_hex hw] at hle

theorem ntoaLong_nulFree (len value : Nat) : NulFree (ntoaLong len value) := by
  induction len generalizing value with
  | zero => nofun
  | succ len ih =>
    intro c hc
    rw [ntoaLong] at hc
    rcases List.mem_cons.mp hc with rfl | hc
    · exact (hexDigit_spec (Nat.mod_lt _ (by decide))).2
    · split at hc
      · cases hc
      · exact ih _ c hc

theorem length_ntoaLong_le (len value : Nat) : (ntoaLong len value).length ≤ len := by
  induction len generalizing value with
  | zero => exact Nat.le_refl 0
  | succ len ih =>
    rw [ntoaLong, List.length_cons]
    split
    · exact Nat.succ_le_succ (Nat.zero_le _)
    · exact Nat.succ_le_succ (ih _)

/-! ## Names -/

/-- A major whose identifier is set and is not `none`. -/
def Named (major : Nat) : Prop :=
  ∃ identifier, deviceIdentifiers major = some identifier ∧ identifier ≠ ascii "none"

/-- The majors that are named. -/
def namedMajors : List Nat := [8, 9, 0xa, 0xb, 0xc, 0xe, 0x10, 0x11, 0x12, 0x8d, 0x8e, 0x8f]

def identifierOf (major : Nat) : List Byte := (deviceIdentifiers major).getD []

theorem Named.mem {major : Nat} (h : Named major) : major ∈ namedMajors := by
  obtain ⟨identifier, hidentifier, hnone⟩ := h
  have hlt : major < 0x90 := by
    by_contra hge
    have hlen : blockIdentifiers.length ≤ major := by
      rw [show blockIdentifiers.length = 20 from rfl]
      omega
    unfold deviceIdentifiers at hidentifier
    rw [if_neg (by omega), if_neg (by omega), if_neg (by omega), List.getElem?_eq_none hlen]
      at hidentifier
    cases hidentifier
  have hall : ∀ m < 0x90, (deviceIdentifiers m).isSome → deviceIdentifiers m ≠ some (ascii "none") →
      m ∈ namedMajors := by decide +kernel
  exact hall major hlt (Option.isSome_of_eq_some hidentifier)
    fun heq => hnone (Option.some.inj (hidentifier.symm.trans heq))

/-- What holds of the identifiers: they are short strings, and none begins with another. -/
theorem identifiers_spec : ∀ m ∈ namedMajors, m < 256 ∧
    deviceIdentifiers m = some (identifierOf m) ∧ NulFree (identifierOf m) ∧
    (identifierOf m).length ≤ 32 ∧
    ∀ k ∈ namedMajors, identifierOf m <+: identifierOf k → m = k := by
  decide +kernel

/-! ## What the list holds -/

/-- The number of earlier requests for the major of `r`. -/
def minorOf (earlier : List Request) (r : Request) : Nat :=
  earlier.countP fun q => decide (q.major = r.major)

/-- The name that `r` gets. -/
def nameOf (earlier : List Request) (r : Request) : List Byte :=
  deviceName (identifierOf r.major) (minorOf earlier r)

/-- The nodes that a sequence of requests fills in, after the ones `earlier`. -/
def records (earlier : List Request) : List Request → List Device
  | [] => []
  | r :: rs => fill r (nameOf earlier r) (minorOf earlier r) zeroed :: records (earlier ++ [r]) rs

/-- The names a sequence of requests gets, after the ones `earlier`. -/
def namesFrom (earlier : List Request) : List Request → List (List Byte)
  | [] => []
  | r :: rs => nameOf earlier r :: namesFrom (earlier ++ [r]) rs

/-- Requests for named majors, at most 256 for each. -/
structure Allowed (requests : List Request) : Prop where
  named : ∀ r ∈ requests, Named r.major
  few : ∀ major, requests.countP (fun q => decide (q.major = major)) ≤ 256

variable {earlier later requests rs : List Request} {r : Request} {d : Device}

@[simp] theorem length_records : (records earlier rs).length = rs.length := by
  induction rs generalizing earlier with
  | nil => rfl
  | cons r rs ih => rw [records, List.length_cons, ih, List.length_cons]

theorem records_append : records earlier (rs ++ later) =
    records earlier rs ++ records (earlier ++ rs) later := by
  induction rs generalizing earlier with
  | nil => rw [List.append_nil]; rfl
  | cons r rs ih => rw [List.cons_append, records, ih, records, List.append_assoc]; rfl

theorem Allowed.left (h : Allowed (earlier ++ later)) : Allowed earlier := by
  refine ⟨fun q hq => h.named q (List.mem_append_left _ hq), fun major => ?_⟩
  have hfew := h.few major
  rw [List.countP_append] at hfew
  exact Nat.le_trans (Nat.le_add_right _ _) hfew

theorem Allowed.minor_lt (h : Allowed (earlier ++ r :: later)) : minorOf earlier r < 256 := by
  have hfew := h.few r.major
  rw [List.countP_append, List.countP_cons_of_pos (by simp)] at hfew
  unfold minorOf
  omega

theorem Allowed.mem (h : Allowed (earlier ++ r :: later)) : r.major ∈ namedMajors :=
  (h.named r (List.mem_append_right _ List.mem_cons_self)).mem

theorem Allowed.name_spec (h : Allowed (earlier ++ r :: later)) :
    NulFree (nameOf earlier r) ∧ (nameOf earlier r).length ≤ 64 := by
  obtain ⟨-, -, hnul, hlen, -⟩ := identifiers_spec r.major h.mem
  unfold nameOf deviceName
  constructor
  · intro c hc
    rcases List.mem_append.mp hc with hc | hc
    · exact hnul c hc
    · exact ntoaLong_nulFree _ _ c (List.mem_reverse.mp hc)
  · have hdigits := length_ntoaLong_le PRINTF_NTOA_BUFFER_SIZE (minorOf earlier r + 0xa)
    rw [List.length_append, hex, List.length_reverse]
    unfold PRINTF_NTOA_BUFFER_SIZE at hdigits ⊢
    omega

/-- No name begins with that of a later device. -/
theorem Allowed.not_prefix {q : Request} {between : List Request}
    (h : Allowed (earlier ++ q :: (between ++ r :: later))) :
    ¬ nameOf (earlier ++ q :: between) r <+: nameOf earlier q := by
  have hr : Allowed ((earlier ++ q :: between) ++ r :: later) := by
    rw [List.append_assoc]
    exact h
  obtain ⟨-, -, -, -, hr_free⟩ := identifiers_spec r.major hr.mem
  obtain ⟨-, -, -, -, hq_free⟩ := identifiers_spec q.major h.mem
  unfold nameOf deviceName
  intro hprefix
  by_cases hmajor : q.major = r.major
  · rw [hmajor, List.prefix_append_right_inj] at hprefix
    have hcount : minorOf earlier q < minorOf (earlier ++ q :: between) r := by
      unfold minorOf
      rw [List.countP_append, List.countP_cons_of_pos (by simpa using hmajor), hmajor]
      omega
    have hbound {n : Nat} (hn : n < 256) : n + 0xa < 16 ^ PRINTF_NTOA_BUFFER_SIZE :=
      Nat.lt_of_lt_of_le (show n + 0xa < 266 by omega) (by decide)
    have hle := le_of_hex_prefix (hbound hr.minor_lt) (hbound h.minor_lt) hprefix
    omega
  · -- one of the two identifiers would begin with the other
    rcases List.prefix_or_prefix_of_prefix ((List.prefix_append _ _).trans hprefix)
      (List.prefix_append _ _) with hshort | hlong
    · exact hmajor (hr_free _ h.mem hshort).symm
    · exact hmajor (hq_free _ hr.mem hlong)

/-! ## One request -/

theorem key_fill (name : List Byte) (minor : Nat) (hlt : r.major < 256) :
    (fill r name minor d).key = r.major := by
  have hall : ∀ m < 256, (((m &&& 0x80) >>> 7) * 128 ||| (m &&& 0x7f)) % 256 = m := by decide +kernel
  exact hall r.major hlt

theorem countMinor_eq (major : Nat) (nodes : List Device) (last : Device) {minor : Nat}
    (hlt : minor + nodes.countP (fun d => decide (d.key = major)) < 256) :
    countMinor major (nodes ++ [last]) minor =
      minor + nodes.countP (fun d => decide (d.key = major)) := by
  induction nodes generalizing minor with
  | nil => rfl
  | cons d nodes ih =>
    obtain ⟨e, rest, hrest⟩ : ∃ e rest, nodes ++ [last] = e :: rest :=
      List.exists_cons_of_ne_nil (List.append_ne_nil_of_right_ne_nil _ (List.cons_ne_nil _ _))
    have hcons : countMinor major (d :: nodes ++ [last]) minor = countMinor major (nodes ++ [last])
        (if d.key = major then (minor + 1) % 256 else minor) := by
      rw [List.cons_append, hrest, countMinor]
    rw [hcons]
    by_cases hkey : d.key = major
    · rw [List.countP_cons_of_pos (by simpa using hkey)] at hlt ⊢
      rw [if_pos hkey, Nat.mod_eq_of_lt (by omega), ih (by omega)]
      omega
    · rw [List.countP_cons_of_neg (by simpa using hkey)] at hlt ⊢
      rw [if_neg hkey, ih hlt]

theorem fillLast_eq (f : Device → Device) (nodes : List Device) (last : Device) :
    fillLast f (nodes ++ [last]) = nodes ++ [f last, zeroed] := by
  induction nodes with
  | nil => rfl
  | cons d nodes ih =>
    obtain ⟨e, rest, hrest⟩ : ∃ e rest, nodes ++ [last] = e :: rest :=
      List.exists_cons_of_ne_nil (List.append_ne_nil_of_right_ne_nil _ (List.cons_ne_nil _ _))
    rw [List.cons_append, hrest, fillLast, ← hrest, ih, List.cons_append]

theorem countP_records (hnamed : ∀ q ∈ rs, q.major < 256) (major : Nat) :
    (records earlier rs).countP (fun d => decide (d.key = major)) =
      rs.countP fun q => decide (q.major = major) := by
  induction rs generalizing earlier with
  | nil => rfl
  | cons q rs ih =>
    rw [records, List.countP_cons, List.countP_cons, ih fun p hp => hnamed p (List.mem_cons_of_mem _ hp),
      key_fill _ _ (hnamed q List.mem_cons_self)]

/-- A request fills in the last node. -/
theorem deviceCreate_eq (h : Allowed (earlier ++ r :: later)) :
    deviceCreate (records [] earlier ++ [zeroed]) r =
      some (records [] (earlier ++ [r]) ++ [zeroed], earlier.length) := by
  have hnamed (q : Request) (hq : q ∈ earlier) : q.major < 256 :=
    (identifiers_spec q.major (h.named q (List.mem_append_left _ hq)).mem).1
  have hcount : countMinor r.major (records [] earlier ++ [zeroed]) 0 = minorOf earlier r := by
    have hsame : (records [] earlier).countP (fun d => decide (d.key = r.major)) = _ :=
      countP_records hnamed r.major
    rw [countMinor_eq, hsame, Nat.zero_add]
    · rfl
    · rw [hsame, Nat.zero_add]
      exact h.minor_lt
  unfold deviceCreate
  rw [(identifiers_spec r.major h.mem).2.1, Option.map_some, hcount, records_append]
  simp only [fillLast_eq, records, List.nil_append, List.append_assoc, List.length_append,
    length_records, List.length_singleton, Nat.add_sub_cancel, List.singleton_append]
  rfl

/-! ## Searching -/

theorem memcmp_eq_zero {m : Bytes} {i : Nat} {name s : List Byte} (hs : NulFree s)
    (hname : Reads m i name) : memcmp m i s = 0 ↔ s <+: name := by
  induction s generalizing i name with
  | nil => exact iff_of_true rfl List.nil_prefix
  | cons c s ih =>
    rw [memcmp]
    cases name with
    | nil =>
      rw [if_pos (by rw [reads_nil.mp hname]; exact (hs c List.mem_cons_self).symm)]
      exact iff_of_false (by decide) (by rw [List.prefix_nil]; exact List.cons_ne_nil c s)
    | cons b name =>
      obtain ⟨hb, hrest⟩ := reads_cons.mp hname
      rw [hb, List.cons_prefix_cons]
      by_cases hc : b = c
      · rw [if_neg (not_not.mpr hc), ih hs.tail hrest]
        exact ⟨fun hp => ⟨hc.symm, hp⟩, And.right⟩
      · rw [if_pos hc]
        exact iff_of_false (by decide) fun hp => hc hp.1.symm

theorem strlen_name {name : List Byte} (hlen : name.length ≤ 64) :
    strlen STR_MAX_SIZE name = name.length :=
  Nat.min_eq_left (Nat.le_trans hlen (by decide))

theorem valid_fill {name : List Byte} {minor : Nat} : (fill r name minor d).valid ≠ 0 :=
  Nat.one_ne_zero

theorem fill_reads {name : List Byte} {minor : Nat} (hlen : name.length ≤ 64) :
    Reads (fill r name minor d).name 0 name := by
  unfold fill
  rw [strlen_name hlen]
  exact strncpy_reads (Nat.le_refl _)

/-- A search goes past devices whose names do not begin as it asks. -/
theorem deviceSearchFrom_skip {name : List Byte} (rest : List Device) (i : Nat)
    (hname : NulFree name) (hlen : name.length ≤ 64) (hallowed : Allowed (earlier ++ rs))
    (hskip : ∀ before q after, rs = before ++ q :: after → ¬ name <+: nameOf (earlier ++ before) q) :
    deviceSearchFrom name (records earlier rs ++ rest) i = deviceSearchFrom name rest (i + rs.length) := by
  induction rs generalizing earlier i with
  | nil => rfl
  | cons q rs ih =>
    have hq := hallowed.name_spec
    have hno := hskip [] q rs rfl
    rw [List.append_nil] at hno
    rw [records, List.cons_append, deviceSearchFrom, if_neg valid_fill, strlen_name hlen,
      List.take_length, if_neg (mt (memcmp_eq_zero hname (fill_reads hq.2)).mp hno), ih]
    · rw [List.length_cons, Nat.add_right_comm, Nat.add_assoc]
    · rw [List.append_assoc]
      exact hallowed
    · intro before p after heq
      have hlater := hskip (q :: before) p after (by rw [heq]; rfl)
      rwa [List.append_assoc]

/-- A search for the name of a request finds the node that it filled in. -/
theorem deviceSearch_eq (h : Allowed (earlier ++ r :: later)) :
    deviceSearch (records [] (earlier ++ r :: later) ++ [zeroed]) (nameOf earlier r) =
      some earlier.length := by
  obtain ⟨hnul, hlen⟩ := h.name_spec
  have hskip (before : List Request) (q : Request) (after : List Request)
      (heq : earlier = before ++ q :: after) : ¬ nameOf earlier r <+: nameOf ([] ++ before) q := by
    subst heq
    rw [List.append_assoc, List.cons_append] at h
    exact h.not_prefix
  have hleft : Allowed ([] ++ earlier) := h.left
  unfold deviceSearch
  rw [records_append, List.append_assoc, deviceSearchFrom_skip _ 0 hnul hlen hleft hskip,
    List.nil_append, Nat.zero_add, records, List.cons_append, deviceSearchFrom, if_neg valid_fill,
    strlen_name hlen, List.take_length,
    if_pos ((memcmp_eq_zero hnul (fill_reads hlen)).mpr (List.prefix_refl _))]

/-- The node of a request. -/
theorem records_at (rest : List Device) : (records [] (earlier ++ r :: later) ++ rest)[earlier.length]? =
    some (fill r (nameOf earlier r) (minorOf earlier r) zeroed) := by
  rw [records_append, List.append_assoc, List.getElem?_append_right (by rw [length_records]),
    length_records, Nat.sub_self, List.nil_append, records]
  rfl

/-- The pointer that a request returns reads as its name. -/
theorem nameAt_eq (h : Allowed (earlier ++ r :: later)) (rest : List Device) :
    nameAt (records [] (earlier ++ [r]) ++ rest) earlier.length = nameOf earlier r := by
  obtain ⟨hnul, hlen⟩ := h.name_spec
  unfold nameAt
  rw [List.getD_eq_getElem?_getD, records_at, Option.getD_some,
    stringAt_eq_take hnul (fill_reads hlen),
    List.take_of_length_le (Nat.le_trans hlen (by decide))]

/-! ## Sequences of requests -/

theorem createAll_eq (h : Allowed (earlier ++ rs)) :
    createAll (records [] earlier ++ [zeroed]) rs =
      some (records [] (earlier ++ rs) ++ [zeroed], namesFrom earlier rs) := by
  induction rs generalizing earlier with
  | nil => rw [List.append_nil]; rfl
  | cons r rs ih =>
    have hnext : Allowed ((earlier ++ [r]) ++ rs) := by
      rw [List.append_assoc]
      exact h
    rw [createAll, deviceCreate_eq h, Option.bind_some]
    simp only [ih hnext, Option.map_some, nameAt_eq h, namesFrom, List.append_assoc,
      List.singleton_append]

theorem createAll_eq_nil (h : Allowed requests) :
    createAll [zeroed] requests = some (records [] requests ++ [zeroed], namesFrom [] requests) :=
  createAll_eq (show Allowed ([] ++ requests) from h)

theorem namesFrom_append : namesFrom earlier (rs ++ later) =
    namesFrom earlier rs ++ namesFrom (earlier ++ rs) later := by
  induction rs generalizing earlier with
  | nil => rw [List.append_nil]; rfl
  | cons r rs ih => rw [List.cons_append, namesFrom, ih, namesFrom, List.append_assoc]; rfl

@[simp] theorem length_namesFrom : (namesFrom earlier rs).length = rs.length := by
  induction rs generalizing earlier with
  | nil => rfl
  | cons r rs ih => rw [namesFrom, List.length_cons, ih, List.length_cons]

theorem mem_namesFrom {name : List Byte} (h : name ∈ namesFrom earlier rs) :
    ∃ before r after, rs = before ++ r :: after ∧ name = nameOf (earlier ++ before) r := by
  induction rs generalizing earlier with
  | nil => cases h
  | cons r rs ih =>
    rcases List.mem_cons.mp h with rfl | h
    · exact ⟨[], r, rs, rfl, by rw [List.append_nil]⟩
    · obtain ⟨before, q, after, rfl, hname⟩ := ih h
      exact ⟨r :: before, q, after, rfl, by rw [hname, List.append_assoc]; rfl⟩

theorem nodup_namesFrom (h : Allowed (earlier ++ rs)) : (namesFrom earlier rs).Nodup := by
  induction rs generalizing earlier with
  | nil => exact List.nodup_nil
  | cons r rs ih =>
    rw [namesFrom, List.nodup_cons]
    constructor
    · intro hmem
      obtain ⟨before, q, after, rfl, hname⟩ := mem_namesFrom hmem
      rw [List.append_assoc] at hname
      exact h.not_prefix (hname ▸ List.prefix_refl _)
    · apply ih
      rw [List.append_assoc]
      exact h

/-- The names that a sequence of requests returns are pairwise distinct, and after any of
its requests, and at the end, a search for a name finds the node of its request. -/
theorem devices_found (h : Allowed requests) :
    ∃ nodes names, createAll [zeroed] requests = some (nodes, names) ∧
      names.length = requests.length ∧ names.Nodup ∧
      ∀ earlier r later, requests = earlier ++ r :: later →
        ∃ before given after i, createAll [zeroed] earlier = some (before, given) ∧
          deviceCreate before r = some (after, i) ∧ names[earlier.length]? = some (nameAt after i) ∧
          deviceSearch nodes (nameAt after i) = some i ∧ nodes[i]? = after[i]? := by
  refine ⟨_, _, createAll_eq_nil h, length_namesFrom, nodup_namesFrom h, ?_⟩
  intro earlier r later heq
  subst heq
  have hname := nameAt_eq h [zeroed]
  refine ⟨_, _, records [] (earlier ++ [r]) ++ [zeroed], earlier.length,
    createAll_eq_nil h.left, deviceCreate_eq h, ?_, ?_, ?_⟩
  · rw [hname, namesFrom_append, List.getElem?_append_right (by rw [length_namesFrom]),
      length_namesFrom, Nat.sub_self, namesFrom]
    rfl
  · rw [hname]
    exact deviceSearch_eq h
  · rw [records_at]
    exact (records_at [zeroed]).symm

/-- Two disks and a terminal. -/
def threeRequests : List Request := [⟨0, 8, 0⟩, ⟨0, 8, 1⟩, ⟨0, 0xe, 0⟩]

theorem allowed_threeRequests : Allowed threeRequests where
  named := by
    intro r hr
    rcases List.mem_cons.mp hr with rfl | hr
    · exact ⟨ascii "hd", rfl, by decide⟩
    · rcases List.mem_cons.mp hr with rfl | hr
      · exact ⟨ascii "hd", rfl, by decide⟩
      · rw [List.mem_singleton.mp hr]
        exact ⟨ascii "tty", rfl, by decide⟩
  few := fun major => Nat.le_trans List.countP_le_length (by decide)

theorem devices_found_three :
    ∃ nodes names, createAll [zeroed] threeRequests = some (nodes, names) ∧
      names.length = threeRequests.length ∧ names.Nodup ∧
      ∀ earlier r later, threeRequests = earlier ++ r :: later →
        ∃ before given after i, createAll [zeroed] earlier = some (before, given) ∧
          deviceCreate before r = some (after, i) ∧ names[earlier.length]? = some (nameAt after i) ∧
          deviceSearch nodes (nameAt after i) = some i ∧ nodes[i]? = after[i]? :=
  devices_found allowed_threeRequests

end Devices
