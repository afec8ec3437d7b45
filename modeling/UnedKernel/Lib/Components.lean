import UnedKernel.Lib.MaximalRuns

/-! # The components of a path

A path is split at a separator; its components are the parts that are not
empty, so that repeated, leading and trailing separators make no difference. -/

namespace Components
open MaximalRuns

variable {α : Type*} [DecidableEq α] {sep : α} {s t : List α}

/-- The parts between separators that are not empty. -/
def components (sep : α) (s : List α) : List (List α) := (s.splitOn sep).filter fun c => c ≠ []

@[simp] theorem components_nil : components sep [] = [] := runs_nil

@[simp] theorem components_append_cons :
    components sep (s ++ sep :: t) = components sep s ++ components sep t :=
  runs_append_cons (beq_self_eq_true sep)

@[simp] theorem components_cons_sep : components sep (sep :: s) = components sep s :=
  runs_cons_sep (beq_self_eq_true sep)

theorem components_of_not_mem (h : sep ∉ s) (hne : s ≠ []) : components sep s = [s] := by
  refine runs_of_forall_not hne fun c hc => ?_
  have hcs : c ≠ sep := fun heq => h (heq ▸ hc)
  simpa using hcs

/-- Leading separators are in no component. -/
theorem components_front {r : List α} (hr : ∀ c ∈ r, c = sep) :
    components sep (r ++ s) = components sep s :=
  runs_append_of_forall fun c hc => beq_iff_eq.mpr (hr c hc)

theorem components_of_forall {r : List α} (hr : ∀ c ∈ r, c = sep) : components sep r = [] := by
  have h := components_front (s := []) hr
  rwa [List.append_nil, components_nil] at h

/-- No separator is left in a part. -/
theorem not_mem_of_mem_splitOn {c : List α} (h : c ∈ s.splitOn sep) : sep ∉ c := by
  intro hc
  have hpart : c ∈ s.splitOnP (fun a => a == sep) := h
  have hfalse := not_sep_of_mem_splitOnP hpart hc
  simp at hfalse

/-- A part has elements of the list only. -/
theorem mem_of_mem_splitOn {c : List α} {a : α} (h : c ∈ s.splitOn sep) (ha : a ∈ c) : a ∈ s := by
  have hjoin : [sep].intercalate (s.splitOn sep) = s := List.intercalate_splitOn sep
  rw [← hjoin]
  generalize s.splitOn sep = parts at h
  induction parts with
  | nil => cases h
  | cons d parts ih =>
    cases parts with
    | nil =>
      rw [List.mem_singleton.mp h] at ha
      simpa using ha
    | cons e parts =>
      rw [List.intercalate_cons_cons, List.mem_append, List.mem_append]
      rcases List.mem_cons.mp h with rfl | h
      · exact .inl (.inl ha)
      · exact .inr (ih h)

omit [DecidableEq α] in
theorem mem_intercalate {parts : List (List α)} {a : α} (h : a ∈ [sep].intercalate parts) :
    a = sep ∨ ∃ c ∈ parts, a ∈ c := by
  induction parts with
  | nil => cases h
  | cons d parts ih =>
    cases parts with
    | nil => exact .inr ⟨d, List.mem_cons_self, by simpa using h⟩
    | cons e parts =>
      rw [List.intercalate_cons_cons, List.mem_append, List.mem_append, List.mem_singleton] at h
      rcases h with (h | h) | h
      · exact .inr ⟨d, List.mem_cons_self, h⟩
      · exact .inl h
      · rcases ih h with h | ⟨c, hc, h⟩
        · exact .inl h
        · exact .inr ⟨c, List.mem_cons_of_mem _ hc, h⟩

/-- Parts that are joined by separators. -/
theorem components_intercalate {parts : List (List α)} (h : ∀ c ∈ parts, sep ∉ c) :
    components sep ([sep].intercalate parts) = parts.filter fun c => c ≠ [] := by
  cases parts with
  | nil => simp [components]
  | cons c parts => rw [components, List.splitOn_intercalate sep h (List.cons_ne_nil _ _)]

/-- The first separator of a list that has one. -/
theorem exists_first (h : sep ∈ s) : ∃ u v, s = u ++ sep :: v ∧ sep ∉ u := by
  induction s with
  | nil => cases h
  | cons a s ih =>
    by_cases ha : a = sep
    · exact ⟨[], s, by rw [ha]; rfl, by simp⟩
    · have hs : sep ∈ s := (List.mem_cons.mp h).resolve_left fun heq => ha heq.symm
      obtain ⟨u, v, hs', hu⟩ := ih hs
      refine ⟨a :: u, v, by rw [hs']; rfl, ?_⟩
      rw [List.mem_cons, not_or]
      exact ⟨fun heq => ha heq.symm, hu⟩

/-- The last separator of a list that has one. -/
theorem exists_last (h : sep ∈ s) : ∃ u v, s = u ++ sep :: v ∧ sep ∉ v := by
  induction s with
  | nil => cases h
  | cons a s ih =>
    by_cases hs : sep ∈ s
    · obtain ⟨u, v, hs', hv⟩ := ih hs
      exact ⟨a :: u, v, by rw [hs']; rfl, hv⟩
    · have ha : sep = a := (List.mem_cons.mp h).resolve_right hs
      exact ⟨[], s, by rw [ha]; rfl, hs⟩

/-! ## Two separators at the end -/

/-- With a separator before it the list ends in two separators. -/
def EndsTwice (sep : α) (s : List α) : Prop := [sep, sep] <:+ sep :: s

instance (sep : α) (s : List α) : Decidable (EndsTwice sep s) :=
  inferInstanceAs (Decidable ([sep, sep] <:+ sep :: s))

omit [DecidableEq α] in
theorem endsTwice_sep : EndsTwice sep [sep] := List.suffix_rfl

omit [DecidableEq α] in
/-- A list of other elements does not end so. -/
theorem not_endsTwice (h : sep ∉ s) : ¬ EndsTwice sep s := by
  intro hsuffix
  rcases List.suffix_cons_iff.mp hsuffix with heq | hsuffix
  · rw [← (List.cons.inj heq).2] at h
    exact h List.mem_cons_self
  · exact h (hsuffix.subset List.mem_cons_self)

omit [DecidableEq α] in
/-- A separator before a list that is not empty makes no difference. -/
theorem endsTwice_cons_sep (hs : s ≠ []) : EndsTwice sep (sep :: s) ↔ EndsTwice sep s := by
  unfold EndsTwice
  rw [List.suffix_cons_iff]
  refine or_iff_right fun heq => hs ?_
  exact (List.cons.inj (List.cons.inj heq).2).2.symm

omit [DecidableEq α] in
theorem endsTwice_front {r : List α} (hr : ∀ c ∈ r, c = sep) (hs : s ≠ []) :
    EndsTwice sep (r ++ s) ↔ EndsTwice sep s := by
  induction r with
  | nil => exact Iff.rfl
  | cons c r ih =>
    rw [hr c List.mem_cons_self, List.cons_append,
      endsTwice_cons_sep fun h => hs (List.append_eq_nil_iff.mp h).2]
    exact ih fun d hd => hr d (List.mem_cons_of_mem c hd)

omit [DecidableEq α] in
theorem endsTwice_of_forall {r : List α} (hr : ∀ c ∈ r, c = sep) (hne : r ≠ []) :
    EndsTwice sep r := by
  have hlast : r.getLast hne = sep := hr _ (List.getLast_mem hne)
  rw [← List.dropLast_append_getLast hne, hlast,
    endsTwice_front (fun c hc => hr c (List.dropLast_subset r hc)) (List.cons_ne_nil sep [])]
  exact endsTwice_sep

omit [DecidableEq α] in
theorem suffix_append_cons (h : sep ∉ s) :
    [sep, sep] <:+ s ++ sep :: t ↔ [sep, sep] <:+ sep :: t := by
  induction s with
  | nil => exact Iff.rfl
  | cons a s ih =>
    rw [List.cons_append, List.suffix_cons_iff, ih fun hs => h (List.mem_cons_of_mem a hs)]
    exact or_iff_right fun heq => h ((List.cons.inj heq).1 ▸ List.mem_cons_self)

omit [DecidableEq α] in
/-- The end of a list is behind its first separator, if a component stands before it. -/
theorem endsTwice_append (h : sep ∉ s) (hs : s ≠ []) :
    EndsTwice sep (s ++ sep :: t) ↔ EndsTwice sep t := by
  unfold EndsTwice
  rw [List.suffix_cons_iff, suffix_append_cons h]
  obtain ⟨a, s, rfl⟩ := List.exists_cons_of_ne_nil hs
  refine or_iff_right fun heq => h ?_
  rw [List.cons_append] at heq
  rw [(List.cons.inj (List.cons.inj heq).2).1]
  exact List.mem_cons_self

end Components
