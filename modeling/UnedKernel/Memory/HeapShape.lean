import Mathlib.Algebra.BigOperators.Group.List.Basic
import Mathlib.Data.List.Chain
import UnedKernel.Memory.HeapList

/-! # The changes of the list of segments

What `expand_heap`, `_malloc` and `_free` do to the list of segments, apart
from its memory: one relation for each, and what each keeps. -/

namespace UnedKernel.Memory

/-- The payload of a segment and its header. -/
def Seg.bytes (x : Seg) : Nat := x.length + 48

/-- `expand_heap` with `len` new bytes: a last segment that is free is made longer, below one in
use there is a new one. -/
inductive Grows (len : Nat) : List Seg → List Seg → Prop
  | append {init : List Seg} {x : Seg} (hx : x.free = false) :
      Grows len (init ++ [x]) (init ++ [x, ⟨x.addr - len, len - 48, true⟩])
  | swallow {init : List Seg} {x : Seg} (hx : x.free = true) :
      Grows len (init ++ [x]) (init ++ [⟨x.addr - len, x.length + len - 48, true⟩])

/-- `_malloc` takes segment `y`: a free one as it is, or the upper part of one. -/
inductive Takes (y : Seg) : List Seg → List Seg → Prop
  | whole {pre post : List Seg} :
      Takes y (pre ++ ⟨y.addr, y.length, true⟩ :: post) (pre ++ y :: post)
  | split {pre post : List Seg} {x : Seg} (hx : x.free = true) (hsize : y.bytes < x.length) :
      Takes y (pre ++ x :: post) (pre ++ y :: ⟨x.addr, x.length - y.bytes, true⟩ :: post)

/-- The segments next to a place of the list are in use. -/
def UsedAbove (pre : List Seg) : Prop := ∀ p ∈ pre.getLast?, p.free = false

def UsedBelow (post : List Seg) : Prop := ∀ n ∈ post.head?, n.free = false

/-- `_free` of segment `x`, which is merged with the free segments next to it. -/
inductive Releases (x : Seg) : List Seg → List Seg → Prop
  | alone {pre post : List Seg} (above : UsedAbove pre) (below : UsedBelow post) :
      Releases x (pre ++ x :: post) (pre ++ ⟨x.addr, x.length, true⟩ :: post)
  | last {pre post : List Seg} {p : Seg} (hp : p.free = true) (below : UsedBelow post) :
      Releases x (pre ++ p :: x :: post) (pre ++ ⟨x.addr, x.length + p.bytes, true⟩ :: post)
  | next {pre post : List Seg} {n : Seg} (hn : n.free = true) (above : UsedAbove pre) :
      Releases x (pre ++ x :: n :: post) (pre ++ ⟨n.addr, n.length + x.bytes, true⟩ :: post)
  | both {pre post : List Seg} {p n : Seg} (hp : p.free = true) (hn : n.free = true) :
      Releases x (pre ++ p :: x :: n :: post)
        (pre ++ ⟨n.addr, n.length + (x.bytes + p.bytes), true⟩ :: post)

/-! ## Segments in use -/

section used

variable {len : Nat} {x y z : Seg} {segs segs' : List Seg}

theorem Grows.used_iff (h : Grows len segs segs') (hz : z.free = false) : z ∈ segs' ↔ z ∈ segs := by
  cases h with
  | @append init x hx =>
    have hne : z ≠ ⟨x.addr - len, len - 48, true⟩ := fun heq => by rw [heq] at hz; cases hz
    simp [hne]
  | @swallow init x hx =>
    have hne : z ≠ ⟨x.addr - len, x.length + len - 48, true⟩ := fun heq => by rw [heq] at hz; cases hz
    have hne' : z ≠ x := fun heq => by rw [heq, hx] at hz; cases hz
    simp [hne, hne']

theorem Takes.used_iff (h : Takes y segs segs') (hz : z.free = false) :
    z ∈ segs' ↔ z ∈ segs ∨ z = y := by
  cases h with
  | whole =>
    have hne : z ≠ ⟨y.addr, y.length, true⟩ := fun heq => by rw [heq] at hz; cases hz
    simp [hne]
    tauto
  | @split pre post x hx =>
    have hne : z ≠ ⟨x.addr, x.length - y.bytes, true⟩ := fun heq => by rw [heq] at hz; cases hz
    have hne' : z ≠ x := fun heq => by rw [heq, hx] at hz; cases hz
    simp [hne, hne']
    tauto

/-- A segment that is taken was not in use. -/
theorem Takes.not_mem (h : Takes y segs segs') (hy : y.free = false) (hb : Below segs)
    (hb' : Below segs') : y ∉ segs := by
  intro hmem
  have hlow (w : Seg) : ¬ w.top ≤ w.addr := by
    unfold Seg.top
    omega
  cases h with
  | whole =>
    have heq := hb.addr_inj (List.mem_append_right _ (List.mem_cons_self ..)) hmem rfl
    rw [← heq] at hy
    cases hy
  | @split pre post x hx hsize =>
    have hne : y ≠ x := fun heq => by rw [heq, hx] at hy; cases hy
    simp only [Below, List.pairwise_append, List.pairwise_cons, List.mem_cons] at hb'
    rcases List.mem_append.mp hmem with hin | hin
    · exact hlow y (hb'.2.2 y hin y (.inl rfl))
    · exact hlow y (hb'.2.1.1 y (.inr ((List.mem_cons.mp hin).resolve_left hne)))

theorem Releases.used (h : Releases x segs segs') (hz : z.free = false) (hmem : z ∈ segs) (hne : z ≠ x) :
    z ∈ segs' := by
  have hfree {w : Seg} (hw : w.free = true) : z ≠ w := fun heq => by rw [heq, hw] at hz; cases hz
  cases h with
  | alone => simpa [hne, hfree] using hmem
  | last hp => simpa [hne, hfree, hfree hp] using hmem
  | next hn => simpa [hne, hfree, hfree hn] using hmem
  | both hp hn => simpa [hne, hfree, hfree hp, hfree hn] using hmem

theorem Releases.used_of_mem (h : Releases x segs segs') (hz : z.free = false) (hmem : z ∈ segs') :
    z ∈ segs := by
  have hfree {w : Seg} (hw : w.free = true) : z ≠ w := fun heq => by rw [heq, hw] at hz; cases hz
  cases h <;> simp [hfree] at hmem <;> simp <;> tauto

/-- The segments of a list that are one below the other are different. -/
theorem Below.nodup (h : Below segs) : segs.Nodup := by
  refine h.imp fun {a b} hab => ?_
  intro heq
  subst heq
  unfold Seg.top at hab
  omega

/-- A segment that is released is not in use anymore. -/
theorem Releases.not_mem (h : Releases x segs segs') (hx : x.free = false) (hb : Below segs) :
    x ∉ segs' := by
  have hfree {w : Seg} (hw : w.free = true) : x ≠ w := fun heq => by rw [heq, hw] at hx; cases hx
  have hnodup := hb.nodup
  cases h with
  | @alone pre post above below =>
    have hrest := (List.nodup_middle.mp hnodup).notMem
    simpa [hfree] using hrest
  | @last pre post p hp below =>
    rw [List.append_cons] at hnodup
    have hrest := (List.nodup_middle.mp hnodup).notMem
    simp only [List.mem_append, List.mem_singleton, not_or] at hrest
    simpa [hfree] using And.intro hrest.1.1 hrest.2
  | @next pre post n hn above =>
    have hrest := (List.nodup_middle.mp hnodup).notMem
    simp only [List.mem_append, List.mem_cons, not_or] at hrest
    simpa [hfree] using And.intro hrest.1 hrest.2.2
  | @both pre post p n hp hn =>
    rw [List.append_cons] at hnodup
    have hrest := (List.nodup_middle.mp hnodup).notMem
    simp only [List.mem_append, List.mem_cons, not_or] at hrest
    simpa [hfree] using And.intro hrest.1.1 hrest.2.2

end used

/-! ## Neighbours -/

/-- No two segments in a row are free. -/
def Coalesced (segs : List Seg) : Prop := segs.IsChain fun x y => ¬ (x.free = true ∧ y.free = true)

section coalesced

variable {len : Nat} {x y : Seg} {pre post segs segs' : List Seg}

/-- A segment between two parts of the list. -/
theorem coalesced_iff : Coalesced (pre ++ x :: post) ↔ Coalesced pre ∧ Coalesced post ∧
    (x.free = true → UsedAbove pre ∧ UsedBelow post) := by
  have hused (z : Seg) : z.free = false ↔ ¬ z.free = true := Bool.not_eq_true _ ▸ Iff.rfl
  simp only [Coalesced, UsedAbove, UsedBelow, List.isChain_append, List.isChain_cons, List.head?_cons,
    Option.mem_some_iff, forall_eq', hused]
  tauto

theorem coalesced_cons_iff : Coalesced (x :: post) ↔ Coalesced post ∧ (x.free = true → UsedBelow post) := by
  have h := @coalesced_iff x [] post
  simpa [Coalesced, UsedAbove] using h

theorem Grows.coalesced (h : Grows len segs segs') (hc : Coalesced segs) : Coalesced segs' := by
  cases h with
  | @append init x hx =>
    have hnew := @coalesced_iff ⟨x.addr - len, len - 48, true⟩ (init ++ [x]) []
    rw [List.append_assoc] at hnew
    refine hnew.mpr ⟨hc, .nil, fun _ => ⟨fun p hp => ?_, fun n hn => ?_⟩⟩
    · rw [List.getLast?_append, List.getLast?_singleton] at hp
      obtain rfl : x = p := by simpa using hp
      exact hx
    · cases hn
  | swallow hx =>
    obtain ⟨hinit, hnil, hused⟩ := coalesced_iff.mp hc
    exact coalesced_iff.mpr ⟨hinit, hnil, fun _ => hused hx⟩

theorem Takes.coalesced (h : Takes y segs segs') (hy : y.free = false) (hc : Coalesced segs) :
    Coalesced segs' := by
  have hnot : ¬ y.free = true := by rw [hy]; decide
  cases h with
  | whole =>
    obtain ⟨hpre, hpost, -⟩ := coalesced_iff.mp hc
    exact coalesced_iff.mpr ⟨hpre, hpost, fun hf => absurd hf hnot⟩
  | split hx =>
    obtain ⟨hpre, hpost, hused⟩ := coalesced_iff.mp hc
    exact coalesced_iff.mpr ⟨hpre, coalesced_cons_iff.mpr ⟨hpost, fun _ => (hused hx).2⟩,
      fun hf => absurd hf hnot⟩

theorem Releases.coalesced (h : Releases x segs segs') (hc : Coalesced segs) : Coalesced segs' := by
  cases h with
  | alone above below =>
    obtain ⟨hpre, hpost, -⟩ := coalesced_iff.mp hc
    exact coalesced_iff.mpr ⟨hpre, hpost, fun _ => ⟨above, below⟩⟩
  | last hp below =>
    obtain ⟨hpre, hrest, hused⟩ := coalesced_iff.mp hc
    obtain ⟨hpost, -⟩ := coalesced_cons_iff.mp hrest
    exact coalesced_iff.mpr ⟨hpre, hpost, fun _ => ⟨(hused hp).1, below⟩⟩
  | next hn above =>
    obtain ⟨hpre, hrest, -⟩ := coalesced_iff.mp hc
    obtain ⟨hpost, hused⟩ := coalesced_cons_iff.mp hrest
    exact coalesced_iff.mpr ⟨hpre, hpost, fun _ => ⟨above, hused hn⟩⟩
  | both hp hn =>
    obtain ⟨hpre, hrest, hused⟩ := coalesced_iff.mp hc
    obtain ⟨hnext, -⟩ := coalesced_cons_iff.mp hrest
    obtain ⟨hpost, hused'⟩ := coalesced_cons_iff.mp hnext
    exact coalesced_iff.mpr ⟨hpre, hpost, fun _ => ⟨(hused hp).1, hused' hn⟩⟩

end coalesced

/-! ## Bytes -/

/-- The bytes of the segments of the list that are free, or that are in use. -/
def bytesOf (free : Bool) (segs : List Seg) : Nat :=
  ((segs.filter fun x => x.free == free).map Seg.bytes).sum

@[simp] theorem bytesOf_nil (free : Bool) : bytesOf free [] = 0 := rfl

@[simp] theorem bytesOf_cons (free : Bool) (x : Seg) (segs : List Seg) :
    bytesOf free (x :: segs) = (if x.free = free then x.bytes else 0) + bytesOf free segs := by
  unfold bytesOf
  by_cases h : x.free = free <;> simp [h]

@[simp] theorem bytesOf_append (free : Bool) (xs ys : List Seg) :
    bytesOf free (xs ++ ys) = bytesOf free xs + bytesOf free ys := by
  unfold bytesOf
  simp

section bytes

variable {x y : Seg} {segs segs' : List Seg}

theorem Takes.bytes (h : Takes y segs segs') (hy : y.free = false) :
    bytesOf true segs' + y.bytes = bytesOf true segs ∧
      bytesOf false segs' = bytesOf false segs + y.bytes := by
  cases h with
  | whole =>
    simp [hy, Seg.bytes]
    omega
  | split hx hsize =>
    unfold Seg.bytes at hsize
    simp [hx, hy, Seg.bytes]
    omega

theorem Releases.bytes (h : Releases x segs segs') (hx : x.free = false) :
    bytesOf true segs' = bytesOf true segs + x.bytes ∧
      bytesOf false segs' + x.bytes = bytesOf false segs := by
  cases h with
  | alone =>
    simp [hx, Seg.bytes]
    omega
  | last hp =>
    simp [hx, hp, Seg.bytes]
    omega
  | next hn =>
    simp [hx, hn, Seg.bytes]
    omega
  | both hp hn =>
    simp [hx, hp, hn, Seg.bytes]
    omega

end bytes

end UnedKernel.Memory
