import Mathlib.Data.List.Basic

/-! # Maximal runs

The separators of a list cut it into maximal runs of other elements. The runs
are the parts between separators that are not empty, so that repeated, leading
and trailing separators make no difference. -/

namespace MaximalRuns

variable {α : Type*} {sep : α → Bool} {s t r w v : List α} {a : α}

/-- The maximal runs of elements that are no separators, in order. -/
def runs (sep : α → Bool) (s : List α) : List (List α) := (s.splitOnP sep).filter fun w => w ≠ []

@[simp] theorem runs_nil : runs sep [] = [] := by
  simp [runs]

theorem runs_append_cons (ha : sep a = true) : runs sep (s ++ a :: t) = runs sep s ++ runs sep t := by
  rw [runs, List.splitOnP_append_cons s t ha, List.filter_append]
  rfl

theorem runs_cons_sep (ha : sep a = true) : runs sep (a :: s) = runs sep s := by
  simpa using runs_append_cons (s := []) (t := s) ha

theorem runs_of_forall_not (hne : w ≠ []) (hw : ∀ c ∈ w, sep c = false) : runs sep w = [w] := by
  simp [runs, List.splitOnP_eq_singleton hw, hne]

/-- Leading separators are in no run. -/
theorem runs_append_of_forall (hr : ∀ c ∈ r, sep c = true) : runs sep (r ++ s) = runs sep s := by
  induction r with
  | nil => rfl
  | cons c r ih =>
    rw [List.cons_append, runs_cons_sep (hr c List.mem_cons_self)]
    exact ih fun d hd => hr d (List.mem_cons_of_mem c hd)

/-- The first run, and the rest from the separator that ends it. -/
theorem runs_append_append (hne : w ≠ []) (hw : ∀ c ∈ w, sep c = false) (ha : sep a = true) :
    runs sep (w ++ a :: v) = w :: runs sep v := by
  rw [runs_append_cons ha, runs_of_forall_not hne hw]
  rfl

/-- No separator is left in a part. -/
theorem not_sep_of_mem_splitOnP {c : α} (h : w ∈ s.splitOnP sep) (hc : c ∈ w) : sep c = false := by
  induction s generalizing w with
  | nil =>
    rw [List.splitOnP_nil, List.mem_singleton] at h
    rw [h] at hc
    cases hc
  | cons a s ih =>
    rw [List.splitOnP_cons_eq_if_modifyHead] at h
    by_cases ha : sep a = true
    · rw [if_pos ha] at h
      rcases List.mem_cons.mp h with rfl | h
      · cases hc
      · exact ih h hc
    · rw [if_neg ha] at h
      obtain ⟨d, rest, hsplit⟩ := List.exists_cons_of_ne_nil (List.splitOnP_ne_nil sep s)
      rw [hsplit, List.modifyHead_cons] at h
      rcases List.mem_cons.mp h with rfl | h
      · rcases List.mem_cons.mp hc with rfl | hc
        · exact Bool.eq_false_iff.mpr ha
        · exact ih (hsplit ▸ List.mem_cons_self) hc
      · exact ih (hsplit ▸ List.mem_cons_of_mem _ h) hc

/-- No separator is in a run. -/
theorem not_sep_of_mem_runs {c : α} (h : w ∈ runs sep s) (hc : c ∈ w) : sep c = false :=
  not_sep_of_mem_splitOnP (List.mem_of_mem_filter h) hc

/-- The elements of one kind at the front of a list. -/
theorem exists_front (q : α → Bool) (s : List α) :
    ∃ u v, s = u ++ v ∧ (∀ c ∈ u, q c = true) ∧ ∀ c ∈ v.head?, q c = false := by
  induction s with
  | nil => exact ⟨[], [], rfl, by simp, by simp⟩
  | cons c s ih =>
    cases hc : q c with
    | false => exact ⟨[], c :: s, rfl, by simp, by simpa using hc⟩
    | true =>
      obtain ⟨u, v, hs, hu, hv⟩ := ih
      refine ⟨c :: u, v, by rw [hs]; rfl, fun d hd => ?_, hv⟩
      rcases List.mem_cons.mp hd with rfl | hd
      · exact hc
      · exact hu d hd

/-- A list is separators only, or separators and a run at its end, or separators, a run and a list
behind the separator that ends the run. -/
theorem runs_induction (sep : α → Bool) {motive : List α → Prop}
    (separators : ∀ r, (∀ c ∈ r, sep c = true) → motive r)
    (last : ∀ r w, (∀ c ∈ r, sep c = true) → w ≠ [] → (∀ c ∈ w, sep c = false) → motive (r ++ w))
    (step : ∀ r w a v, (∀ c ∈ r, sep c = true) → w ≠ [] → (∀ c ∈ w, sep c = false) →
      sep a = true → motive v → motive (r ++ (w ++ a :: v)))
    (s : List α) : motive s := by
  induction hn : s.length using Nat.strongRecOn generalizing s with
  | ind n ih =>
    obtain ⟨r, t, hs, hr, ht⟩ := exists_front sep s
    cases t with
    | nil =>
      rw [hs, List.append_nil]
      exact separators r hr
    | cons c t =>
      obtain ⟨w, u, hw, hnot, hu⟩ := exists_front (! sep ·) t
      have hrun : ∀ d ∈ c :: w, sep d = false := by
        intro d hd
        rcases List.mem_cons.mp hd with rfl | hd
        · exact ht d rfl
        · simpa using hnot d hd
      cases u with
      | nil =>
        rw [hs, hw, List.append_nil]
        exact last r (c :: w) hr (List.cons_ne_nil c w) hrun
      | cons a v =>
        have hlen : v.length < n := by
          rw [← hn, hs, hw, List.length_append, List.length_cons, List.length_append,
            List.length_cons]
          omega
        rw [hs, hw, ← List.cons_append]
        exact step r (c :: w) a v hr (List.cons_ne_nil c w) hrun (by simpa using hu a rfl)
          (ih v.length hlen v rfl)

end MaximalRuns
