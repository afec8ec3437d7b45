import UnedKernel.Ext2.Path
import UnedKernel.Util.Tokens

/-! # The tokens of a path

The `strtok` of a path search takes what is left of the path and returns the
token itself. It does what `strtok` does in the string with the one delimiter
that paths have, and its tokens are the components. -/

namespace UnedKernel.Ext2
open ByteMem CString Components MaximalRuns

variable {r s t u v w token before : List Byte}

theorem tokenFrom_of_not_mem (h : slash ∉ u) : tokenFrom slash token u = (token ++ u, []) := by
  induction u generalizing token with
  | nil => rw [tokenFrom, List.append_nil]
  | cons c u ih =>
    have hc : c ≠ slash := fun heq => h (heq ▸ List.mem_cons_self)
    rw [tokenFrom, if_neg hc, ih fun hu => h (List.mem_cons_of_mem c hu), List.append_assoc]
    rfl

theorem tokenFrom_append (h : slash ∉ u) :
    tokenFrom slash token (u ++ slash :: t) = (token ++ u, t) := by
  induction u generalizing token with
  | nil => rw [List.nil_append, tokenFrom, if_pos rfl, List.append_nil]
  | cons c u ih =>
    have hc : c ≠ slash := fun heq => h (heq ▸ List.mem_cons_self)
    rw [List.cons_append, tokenFrom, if_neg hc, ih fun hu => h (List.mem_cons_of_mem c hu),
      List.append_assoc]
    rfl

/-- Over delimiters the inner loop goes on as a new call would. -/
theorem strtok_front (hr : ∀ c ∈ r, c = slash) (hs : s ≠ []) :
    strtok slash (r ++ s) = strtok slash s := by
  induction r with
  | nil => rfl
  | cons c r ih =>
    have hrest := ih fun d hd => hr d (List.mem_cons_of_mem c hd)
    obtain ⟨d, u, hu⟩ := List.exists_cons_of_ne_nil fun h : r ++ s = [] => hs (List.append_eq_nil_iff.mp h).2
    rw [List.cons_append, hr c List.mem_cons_self, ← hrest, hu, strtok, if_pos rfl, tokenAfter, strtok]

theorem strtok_slashes (hr : ∀ c ∈ r, c = slash) (hne : r ≠ []) : strtok slash r = none := by
  have hlast : r.getLast hne = slash := hr _ (List.getLast_mem hne)
  rw [← List.dropLast_append_getLast hne, hlast,
    strtok_front (fun c hc => hr c (List.dropLast_subset r hc)) (List.cons_ne_nil slash [])]
  rfl

theorem strtok_last (hw : slash ∉ w) (hne : w ≠ []) : strtok slash w = some (w, []) := by
  obtain ⟨c, u, rfl⟩ := List.exists_cons_of_ne_nil hne
  have hc : c ≠ slash := fun heq => hw (heq ▸ List.mem_cons_self)
  rw [strtok, if_neg hc, tokenFrom_of_not_mem fun hu => hw (List.mem_cons_of_mem c hu)]
  rfl

theorem strtok_ended (hw : slash ∉ w) (hne : w ≠ []) :
    strtok slash (w ++ slash :: v) = some (w, v) := by
  obtain ⟨c, u, rfl⟩ := List.exists_cons_of_ne_nil hne
  have hc : c ≠ slash := fun heq => hw (heq ▸ List.mem_cons_self)
  rw [List.cons_append, strtok, if_neg hc, tokenFrom_append fun hu => hw (List.mem_cons_of_mem c hu)]
  rfl

/-- What is left of a path: slashes, or a component behind slashes, at the end or before a slash. -/
theorem path_cases {motive : List Byte → Prop}
    (slashes : ∀ r, (∀ c ∈ r, c = slash) → motive r)
    (last : ∀ r w, (∀ c ∈ r, c = slash) → slash ∉ w → w ≠ [] → motive (r ++ w))
    (ended : ∀ r w v, (∀ c ∈ r, c = slash) → slash ∉ w → w ≠ [] → motive (r ++ (w ++ slash :: v)))
    (s : List Byte) : motive s := by
  have hslash : ∀ r : List Byte, (∀ c ∈ r, decide (c = slash) = true) → ∀ c ∈ r, c = slash :=
    fun r hr c hc => of_decide_eq_true (hr c hc)
  have hother : ∀ w : List Byte, (∀ c ∈ w, decide (c = slash) = false) → slash ∉ w :=
    fun w hw hmem => of_decide_eq_false (hw slash hmem) rfl
  induction s using runs_induction (fun c => decide (c = slash)) with
  | separators r hr => exact slashes r (hslash r hr)
  | last r w hr hne hw => exact last r w (hslash r hr) (hother w hw) hne
  | step r w d v hr hne hw hd _ =>
    rw [of_decide_eq_true hd]
    exact ended r w v (hslash r hr) (hother w hw) hne

/-! ## Components -/

/-- The token is the next component, unless slashes are all that is left. -/
theorem strtok_cases (hs : s ≠ []) :
    components slash s = [] ∧ EndsTwice slash s ∧ strtok slash s = none ∨
      ∃ c t, c ≠ [] ∧ strtok slash s = some (c, t) ∧ components slash s = c :: components slash t ∧
        (EndsTwice slash s ↔ EndsTwice slash t) ∧ t.length < s.length := by
  induction s using path_cases with
  | slashes r hr =>
    exact .inl ⟨components_of_forall hr, endsTwice_of_forall hr hs, strtok_slashes hr hs⟩
  | last r w hr hw hne =>
    refine .inr ⟨w, [], hne, ?_, ?_, ?_, ?_⟩
    · rw [strtok_front hr hne, strtok_last hw hne]
    · rw [components_front hr, components_of_not_mem hw hne, components_nil]
    · rw [endsTwice_front hr hne]
      exact iff_of_false (not_endsTwice hw) (not_endsTwice List.not_mem_nil)
    · exact List.length_pos_of_ne_nil hs
  | ended r w v hr hw hne =>
    have hnil : w ++ slash :: v ≠ [] := by simp
    refine .inr ⟨w, v, hne, ?_, ?_, ?_, ?_⟩
    · rw [strtok_front hr hnil, strtok_ended hw hne]
    · rw [components_front hr, components_append_cons, components_of_not_mem hw hne]
      rfl
    · rw [endsTwice_front hr hnil, endsTwice_append hw hne]
    · rw [List.length_append, List.length_append, List.length_cons]
      omega

/-! ## The string in memory -/

/-- In the string the call does the same: it reads behind the terminator, or returns a null at the
end, or points to the token and goes on at what is left. -/
theorem strtok_refines (hs : NulFree s) :
    strtok slash s = none ∧ Util.strtok [slash] none (some ⟨before, s ++ [0]⟩) = none ∨
    s = [] ∧ Util.strtok [slash] none (some ⟨before, s ++ [0]⟩) = some (none, some ⟨before, [0]⟩) ∨
    ∃ token t i m, token ≠ [] ∧ strtok slash s = some (token, t) ∧
      Util.strtok [slash] none (some ⟨before, s ++ [0]⟩) = some (some i, some m) ∧
      m.rest = t ++ [0] ∧ bufferString (m.bytes.drop i) = some token := by
  have hdelim : slash ∈ [slash] := List.mem_singleton_self slash
  have hforward : ∀ r : List Byte, (∀ c ∈ r, c = slash) → Util.Forward [slash] r := fun r hr =>
    Util.forward_singleton fun c hc => List.mem_singleton.mpr (hr c hc)
  have hother : ∀ w : List Byte, slash ∉ w → ∀ c ∈ w, c ∉ [slash] := fun w hw c hc hmem =>
    hw (List.mem_singleton.mp hmem ▸ hc)
  induction s using path_cases with
  | slashes r hr =>
    by_cases hne : r = []
    · subst hne
      exact .inr (.inl ⟨rfl, by simp [Util.strtok, Util.tokenLoop]⟩)
    · have hloop := Util.tokenLoop_end (b := before) (hforward r hr) hs hne (by decide)
      refine .inl ⟨strtok_slashes hr hne, ?_⟩
      rw [Util.strtok_null, hloop]
      rfl
  | last r w hr hw hne =>
    have hloop := Util.tokenLoop_front_last before (hforward r hr) hs.left (hother w hw)
      hs.right hne
    generalize before ++ List.replicate r.length 0 = front at hloop
    refine .inr (.inr ⟨w, [], front.length, ⟨front ++ w, [0]⟩, hne, ?_, ?_, rfl, ?_⟩)
    · rw [strtok_front hr hne, strtok_last hw hne]
    · rw [Util.strtok_null, List.append_assoc, hloop]
      rfl
    · rw [Util.Scan.bytes, List.append_assoc, List.drop_left]
      exact bufferString_append_zero hs.right
  | ended r w v hr hw hne =>
    have hloop := Util.tokenLoop_front_ended before (v ++ [0]) (hforward r hr)
      hs.left (hother w hw) hs.right.left hne hdelim (by decide)
    generalize before ++ List.replicate r.length 0 = front at hloop
    refine .inr (.inr ⟨w, v, front.length, ⟨front ++ w ++ [0], v ++ [0]⟩, hne, ?_, ?_, rfl, ?_⟩)
    · rw [strtok_front hr (by simp), strtok_ended hw hne]
    · rw [Util.strtok_null, List.append_assoc, List.append_assoc, List.cons_append, hloop]
      rfl
    · rw [Util.Scan.bytes, List.append_assoc, List.append_assoc, List.drop_left]
      exact bufferString_append_zero hs.right.left

end UnedKernel.Ext2
