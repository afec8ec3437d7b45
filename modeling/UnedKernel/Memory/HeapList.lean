import Mathlib.Data.List.Basic
import UnedKernel.Memory.Heap

/-! # The segments of the heap as a list

The abstract heap is a list of segments from the highest to the lowest. A
memory holds a list when every segment has its header, and the headers are
linked in the order of the list. Every operation of the heap replaces a few
neighbouring segments of the list, which `Chain.splice` and `Below.splice`
carry over to the whole list. -/

namespace UnedKernel.Memory
open ByteMem Word

/-! ## Headers -/

/-- What a segment header holds, but for `isStack`, which the heap never reads. -/
structure Header where
  free : Nat
  length : Nat
  next : Nat
  last : Nat
  signature : Nat
  deriving DecidableEq

def header (m : Bytes) (a : Nat) : Header :=
  { free := Segment.free.get m a
    length := Segment.length.get m a
    next := Segment.next.get m a
    last := Segment.last.get m a
    signature := Segment.signature.get m a }

section Header
variable {m m' : Bytes} {a b v : Nat} {h : Header}

theorem free_of_header (hh : header m a = h) : Segment.free.get m a = h.free :=
  congrArg Header.free hh

theorem length_of_header (hh : header m a = h) : Segment.length.get m a = h.length :=
  congrArg Header.length hh

theorem next_of_header (hh : header m a = h) : Segment.next.get m a = h.next :=
  congrArg Header.next hh

theorem last_of_header (hh : header m a = h) : Segment.last.get m a = h.last :=
  congrArg Header.last hh

theorem signature_of_header (hh : header m a = h) : Segment.signature.get m a = h.signature :=
  congrArg Header.signature hh

theorem header_congr (h : ∀ x, a ≤ x → x < a + 48 → m' x = m x) : header m' a = header m a := by
  simp only [header, Header.mk.injEq]
  exact ⟨Field.get_congr (by decide) h, Field.get_congr (by decide) h,
    Field.get_congr (by decide) h, Field.get_congr (by decide) h, Field.get_congr (by decide) h⟩

theorem header_fill {n : Nat} {v : Byte} (h : a + 48 ≤ b ∨ b + n ≤ a) :
    header (fill m b n v) a = header m a :=
  header_congr fun x hx hx' => fill_apply_out m (by rcases h with h | h <;> omega)

theorem header_set_apart {f : Field} (hf : f.Within 48) (h : a + 48 ≤ b ∨ b + 48 ≤ a) :
    header (f.set m b v) a = header m a :=
  header_congr fun x hx hx' => store_apply_out m (by
    unfold Field.Within at hf
    rcases h with h | h <;> omega)

theorem header_setFree_apart (h : a + 48 ≤ b ∨ b + 48 ≤ a) :
    header (Segment.free.set m b v) a = header m a := header_set_apart (by decide) h

theorem header_setLength_apart (h : a + 48 ≤ b ∨ b + 48 ≤ a) :
    header (Segment.length.set m b v) a = header m a := header_set_apart (by decide) h

theorem header_setNext_apart (h : a + 48 ≤ b ∨ b + 48 ≤ a) :
    header (Segment.next.set m b v) a = header m a := header_set_apart (by decide) h

theorem header_setLast_apart (h : a + 48 ≤ b ∨ b + 48 ≤ a) :
    header (Segment.last.set m b v) a = header m a := header_set_apart (by decide) h

theorem header_setIsStack_apart (h : a + 48 ≤ b ∨ b + 48 ≤ a) :
    header (Segment.isStack.set m b v) a = header m a := header_set_apart (by decide) h

theorem header_setSignature_apart (h : a + 48 ≤ b ∨ b + 48 ≤ a) :
    header (Segment.signature.set m b v) a = header m a := header_set_apart (by decide) h

theorem header_setFree :
    header (Segment.free.set m a v) a = { header m a with free := v % 256 } := by
  simp only [header, Header.mk.injEq]
  exact ⟨Field.get_set_same m v, Field.get_set_disjoint m v (by decide),
    Field.get_set_disjoint m v (by decide), Field.get_set_disjoint m v (by decide),
    Field.get_set_disjoint m v (by decide)⟩

theorem header_setLength (hv : v < 18446744073709551616) :
    header (Segment.length.set m a v) a = { header m a with length := v } := by
  simp only [header, Header.mk.injEq]
  exact ⟨Field.get_set_disjoint m v (by decide), (Field.get_set_same m v).trans (Nat.mod_eq_of_lt hv),
    Field.get_set_disjoint m v (by decide), Field.get_set_disjoint m v (by decide),
    Field.get_set_disjoint m v (by decide)⟩

theorem header_setNext (hv : v < 18446744073709551616) :
    header (Segment.next.set m a v) a = { header m a with next := v } := by
  simp only [header, Header.mk.injEq]
  exact ⟨Field.get_set_disjoint m v (by decide), Field.get_set_disjoint m v (by decide),
    (Field.get_set_same m v).trans (Nat.mod_eq_of_lt hv), Field.get_set_disjoint m v (by decide),
    Field.get_set_disjoint m v (by decide)⟩

theorem header_setLast (hv : v < 18446744073709551616) :
    header (Segment.last.set m a v) a = { header m a with last := v } := by
  simp only [header, Header.mk.injEq]
  exact ⟨Field.get_set_disjoint m v (by decide), Field.get_set_disjoint m v (by decide),
    Field.get_set_disjoint m v (by decide), (Field.get_set_same m v).trans (Nat.mod_eq_of_lt hv),
    Field.get_set_disjoint m v (by decide)⟩

theorem header_setIsStack : header (Segment.isStack.set m a v) a = header m a := by
  simp only [header, Header.mk.injEq]
  exact ⟨Field.get_set_disjoint m v (by decide), Field.get_set_disjoint m v (by decide),
    Field.get_set_disjoint m v (by decide), Field.get_set_disjoint m v (by decide),
    Field.get_set_disjoint m v (by decide)⟩

theorem header_setSignature :
    header (Segment.signature.set m a HEAP_SIGNATURE) a =
      { header m a with signature := HEAP_SIGNATURE } := by
  simp only [header, Header.mk.injEq]
  exact ⟨Field.get_set_disjoint m _ (by decide), Field.get_set_disjoint m _ (by decide),
    Field.get_set_disjoint m _ (by decide), Field.get_set_disjoint m _ (by decide),
    Field.get_set_same m _⟩

end Header

/-! ## Lists of segments -/

structure Seg where
  addr : Nat
  length : Nat
  free : Bool
  deriving DecidableEq

/-- The address after the payload. -/
def Seg.top (x : Seg) : Nat := x.addr + 48 + x.length

/-- The header of a segment between the segments at `next` and `last`. -/
def Seg.header (x : Seg) (next last : Nat) : Header :=
  ⟨x.free.toNat, x.length, next, last, HEAP_SIGNATURE⟩

/-- The address of the first segment, `n` when there is none. -/
def firstAddr (n : Nat) : List Seg → Nat
  | [] => n
  | x :: _ => x.addr

/-- The address of the last segment, `l` when there is none. -/
def lastAddr (l : Nat) : List Seg → Nat
  | [] => l
  | x :: rest => lastAddr x.addr rest

/-- The headers in memory link the segments in order, after `l` and before `n`. -/
def Chain (m : Bytes) (l n : Nat) : List Seg → Prop
  | [] => True
  | x :: rest => header m x.addr = x.header (firstAddr n rest) l ∧ Chain m x.addr n rest

/-- Every segment lies below the ones before it. -/
abbrev Below (segs : List Seg) : Prop := segs.Pairwise fun x y => y.top ≤ x.addr

@[simp] theorem firstAddr_nil (n : Nat) : firstAddr n [] = n := rfl

@[simp] theorem firstAddr_cons (n : Nat) (x : Seg) (rest : List Seg) :
    firstAddr n (x :: rest) = x.addr := rfl

@[simp] theorem lastAddr_nil (l : Nat) : lastAddr l [] = l := rfl

@[simp] theorem lastAddr_cons (l : Nat) (x : Seg) (rest : List Seg) :
    lastAddr l (x :: rest) = lastAddr x.addr rest := rfl

theorem firstAddr_append (n : Nat) (xs ys : List Seg) :
    firstAddr n (xs ++ ys) = firstAddr (firstAddr n ys) xs := by
  cases xs <;> rfl

theorem lastAddr_append (l : Nat) (xs ys : List Seg) :
    lastAddr l (xs ++ ys) = lastAddr (lastAddr l xs) ys := by
  induction xs generalizing l with
  | nil => rfl
  | cons x xs ih => exact ih x.addr

@[simp] theorem chain_nil (m : Bytes) (l n : Nat) : Chain m l n [] := trivial

theorem chain_cons {m : Bytes} {l n : Nat} {x : Seg} {rest : List Seg} :
    Chain m l n (x :: rest) ↔
      header m x.addr = x.header (firstAddr n rest) l ∧ Chain m x.addr n rest := Iff.rfl

theorem chain_append {m : Bytes} {l n : Nat} {xs ys : List Seg} :
    Chain m l n (xs ++ ys) ↔ Chain m l (firstAddr n ys) xs ∧ Chain m (lastAddr l xs) n ys := by
  induction xs generalizing l with
  | nil => simp
  | cons x xs ih =>
    rw [List.cons_append, chain_cons, chain_cons, ih, firstAddr_append, lastAddr_cons, and_assoc]

theorem Chain.congr {m m' : Bytes} {l n : Nat} {segs : List Seg} (h : Chain m l n segs)
    (hsame : ∀ x ∈ segs, header m' x.addr = header m x.addr) : Chain m' l n segs := by
  induction segs generalizing l with
  | nil => trivial
  | cons x rest ih =>
    exact ⟨(hsame x (List.mem_cons_self ..)).trans h.1,
      ih h.2 fun y hy => hsame y (List.mem_cons_of_mem x hy)⟩

/-- Neighbouring segments are replaced by others between the same two addresses. -/
theorem Chain.splice {m m' : Bytes} {l n : Nat} {pre mid mid' post : List Seg}
    (h : Chain m l n (pre ++ mid ++ post)) (hfirst : ∀ k, firstAddr k mid' = firstAddr k mid)
    (hlast : ∀ k, lastAddr k mid' = lastAddr k mid)
    (hsame : ∀ x ∈ pre ++ post, header m' x.addr = header m x.addr)
    (hmid : Chain m' (lastAddr l pre) (firstAddr n post) mid') :
    Chain m' l n (pre ++ mid' ++ post) := by
  obtain ⟨hpm, hpost⟩ := chain_append.mp h
  obtain ⟨hpre, _⟩ := chain_append.mp hpm
  refine chain_append.mpr ⟨chain_append.mpr ⟨?_, hmid⟩, ?_⟩
  · rw [hfirst]
    exact hpre.congr fun x hx => hsame x (List.mem_append_left _ hx)
  · rw [lastAddr_append, hlast, ← lastAddr_append]
    exact hpost.congr fun x hx => hsame x (List.mem_append_right _ hx)

/-- The new segments lie between the bounds of the replaced ones. -/
theorem Below.splice {pre mid mid' post : List Seg} (h : Below (pre ++ mid ++ post))
    (hmid : Below mid')
    (hin : ∀ x ∈ mid', (∃ y ∈ mid, x.top ≤ y.top) ∧ ∃ y ∈ mid, y.addr ≤ x.addr) :
    Below (pre ++ mid' ++ post) := by
  simp only [Below, List.append_assoc, List.pairwise_append, List.mem_append] at h ⊢
  obtain ⟨hpre, ⟨_, hpost, hmp⟩, hp⟩ := h
  refine ⟨hpre, ⟨hmid, hpost, fun x hx z hz => ?_⟩, fun w hw x hx => ?_⟩
  · obtain ⟨y, hy, hle⟩ := (hin x hx).2
    exact Nat.le_trans (hmp y hy z hz) hle
  · rcases hx with hx | hx
    · obtain ⟨y, hy, hle⟩ := (hin x hx).1
      exact Nat.le_trans hle (hp w hw y (.inl hy))
    · exact hp w hw x (.inr hx)

/-- Two segments of a list are the same or share no byte. -/
theorem Below.apart {segs : List Seg} (h : Below segs) {x y : Seg} (hx : x ∈ segs) (hy : y ∈ segs) :
    x = y ∨ x.top ≤ y.addr ∨ y.top ≤ x.addr := by
  induction segs with
  | nil => cases hx
  | cons z rest ih =>
    obtain ⟨hz, hrest⟩ := List.pairwise_cons.mp h
    rcases List.mem_cons.mp hx with hxz | hxr
    · rcases List.mem_cons.mp hy with hyz | hyr
      · exact .inl (hxz.trans hyz.symm)
      · exact .inr (.inr (hxz ▸ hz y hyr))
    · rcases List.mem_cons.mp hy with hyz | hyr
      · exact .inr (.inl (hyz ▸ hz x hxr))
      · exact ih hrest hxr hyr

/-- Segments of a list with one address are the same. -/
theorem Below.addr_inj {segs : List Seg} (h : Below segs) {x y : Seg} (hx : x ∈ segs)
    (hy : y ∈ segs) (ha : x.addr = y.addr) : x = y := by
  rcases h.apart hx hy with h | h | h
  · exact h
  · unfold Seg.top at h; omega
  · unfold Seg.top at h; omega

theorem Below.last_le {segs : List Seg} (h : Below segs) {x : Seg} (hx : x ∈ segs) (k : Nat) :
    lastAddr k segs ≤ x.addr := by
  induction segs generalizing k x with
  | nil => cases hx
  | cons z rest ih =>
    obtain ⟨hz, hrest⟩ := List.pairwise_cons.mp h
    rcases List.mem_cons.mp hx with rfl | hx
    · cases rest with
      | nil => exact Nat.le_refl _
      | cons y rest =>
        have hy := hz y (List.mem_cons_self ..)
        have := ih hrest (List.mem_cons_self ..) x.addr
        rw [lastAddr_cons]
        unfold Seg.top at hy
        omega
    · exact ih hrest hx z.addr

theorem Below.top_le {segs : List Seg} (h : Below segs) {z x : Seg} (hz : segs.head? = some z)
    (hx : x ∈ segs) : x.top ≤ z.top := by
  cases segs with
  | nil => cases hx
  | cons y rest =>
    obtain rfl := Option.some.inj hz
    rcases List.mem_cons.mp hx with rfl | hx
    · exact Nat.le_refl _
    · have := (List.pairwise_cons.mp h).1 x hx
      unfold Seg.top at *
      omega

/-- What lies around the segments in the middle lies above or below them all. -/
theorem Below.outside {pre mid post : List Seg} (h : Below (pre ++ mid ++ post)) {x : Seg}
    (hx : x ∈ pre ++ post) : (∀ y ∈ mid, y.top ≤ x.addr) ∨ ∀ y ∈ mid, x.top ≤ y.addr := by
  simp only [Below, List.append_assoc, List.pairwise_append, List.mem_append] at h
  rcases List.mem_append.mp hx with hx | hx
  · exact .inl fun y hy => h.2.2 x hx y (.inl hy)
  · exact .inr fun y hy => h.2.1.2.2 y hy x hx

/-- A segment other than the first has one before it. -/
theorem exists_before {segs : List Seg} {z x : Seg} (hz : segs.head? = some z) (hx : x ∈ segs)
    (hne : x ≠ z) : ∃ pre p post, segs = pre ++ p :: x :: post := by
  obtain ⟨xs, post, rfl⟩ := List.append_of_mem hx
  rcases List.eq_nil_or_concat xs with rfl | ⟨pre, p, rfl⟩
  · simp at hz; exact absurd hz hne
  · exact ⟨pre, p, post, by simp⟩

end UnedKernel.Memory
