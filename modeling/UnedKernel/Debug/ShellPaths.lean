import Mathlib.Data.List.GetD
import UnedKernel.Util.Tokens
import UnedKernel.Vfs.Normalize

/-! # The paths of the shell

`cd` and the other commands build a path from the current directory and their
argument with `apply_cd`. `cd` takes it apart with `strtok` and puts it together
again in `normalizePath`; the others leave that to `vfs_normalize_path`. -/

namespace Debug
open ByteMem CString Components Vfs

/-- `cwd` and `workpath` are arrays of 256 characters, filled with zeros before they are written. -/
abbrev PATH_SIZE : Nat := 256

/-- The array that holds the string. -/
def pathArray (s : List Byte) : List Byte := s ++ List.replicate (PATH_SIZE - s.length) 0

/-- The token that `strtok` is in and what is left of the array. `none` is a read behind the array. -/
def tokenLoop (token : List Byte) : List Byte → Option (Option (List Byte) × List Byte)
  | [] => none
  | c :: rest =>
    if c = 0 then some (if token = [] then none else some token, c :: rest)
    else if c = slash then some (some token, rest)
    else tokenLoop (token ++ [c]) rest

/-- The inner loop of `strtok` after a delimiter at the start of a token: the token begins behind
the delimiters, with whatever character is there. -/
def tokenSkip : List Byte → Option (Option (List Byte) × List Byte)
  | [] => none
  | c :: rest => if c = slash then tokenSkip rest else tokenLoop [c] rest

/-- `strtok` with the delimiter `/`, on what is left of the array: the token, `none` for a null
pointer, and what is left then. -/
def strtok : List Byte → Option (Option (List Byte) × List Byte)
  | [] => none
  | c :: rest => if c = slash then tokenSkip rest else tokenLoop [] (c :: rest)

/-- The string at the start of a token. -/
def tokenString (token : List Byte) : List Byte := token.takeWhile (· ≠ 0)

/-- Back from the end to a slash or to the first character. -/
def lastSlashBefore (path : List Byte) : Nat → Nat
  | 0 => 0
  | i + 1 => if path.getD (i + 1) 0 = slash then i + 1 else lastSlashBefore path i

/-- What `normalizePath` does with a token: the path that is written, and its depth. -/
def tokenStep (t : List Byte × Nat) (token : List Byte) : List Byte × Nat :=
  if token = [dot, dot] then
    if 0 < t.2 then
      let lastSlash := lastSlashBefore t.1 (t.1.length - 1)
      if lastSlash ≠ 0 then (t.1.take lastSlash, t.2 - 1) else t
    else t
  else if token ≠ [dot] ∧ 0 < token.length then
    ((if 0 < t.2 then t.1 ++ [slash] else t.1) ++ token, t.2 + 1)
  else t

/-- The loop of `normalizePath` over the tokens; each call of `strtok` goes on in the array. -/
def normalizeTokens : Nat → List Byte × Nat → List Byte → Option (List Byte)
  | 0, _, _ => none
  | fuel + 1, t, rest =>
    match strtok rest with
    | none => none
    | some (none, _) => some t.1
    | some (some token, rest) => normalizeTokens fuel (tokenStep t (tokenString token)) rest

/-- `normalizePath`, `none` when `strtok` reads behind the array. -/
def normalizePath (path : List Byte) : Option (List Byte) :=
  if path.length = 0 then some path
  else (normalizeTokens (PATH_SIZE + 1) ([], 0) (pathArray path)).map fun normalized =>
    if normalized.getLast? = some slash then normalized.dropLast else normalized

/-- The path that `apply_cd` leaves in `workpath`. -/
def applyCd (cwd path : List Byte) : List Byte :=
  if path.head? = some slash then path.drop 1 else cwd ++ slash :: path

/-- `root`. -/
def root : List Byte := [0x68, 0x64, 0x61, 0x70, 0x31]

/-- The current directories that `cd` produces from the root. -/
inductive Cwd : List Byte → Prop
  | root : Cwd root
  | cd {cwd cwd' path : List Byte} : Cwd cwd → NulFree path → (applyCd cwd path).length < PATH_SIZE →
      normalizePath (applyCd cwd path) = some cwd' → Cwd cwd'

/-! ## The tokens of a path -/

/-- The path ends in a delimiter at the start of a token. -/
def EndsEmpty (s : List Byte) : Prop := [slash, slash] <:+ slash :: s

instance (s : List Byte) : Decidable (EndsEmpty s) :=
  inferInstanceAs (Decidable ([slash, slash] <:+ slash :: s))

section tokens

variable {token v w s rest : List Byte} {t : List Byte × Nat} {fuel k : Nat}

theorem endsEmpty_slash_cons {c : Byte} : EndsEmpty (slash :: c :: s) ↔ EndsEmpty (c :: s) :=
  endsTwice_cons_sep (List.cons_ne_nil c s)

theorem endsEmpty_append {c : Byte} (hv : slash ∉ c :: v) :
    EndsEmpty (c :: v ++ slash :: w) ↔ EndsEmpty w := endsTwice_append hv (List.cons_ne_nil c v)

theorem not_endsEmpty (hs : slash ∉ s) : ¬ EndsEmpty s := not_endsTwice hs

theorem tokenLoop_slash (htoken : token ≠ []) (hfree : NulFree v) (hv : slash ∉ v) :
    tokenLoop token (v ++ slash :: rest) = some (some (token ++ v), rest) := by
  induction v generalizing token with
  | nil =>
    rw [List.nil_append, tokenLoop, if_neg (by decide), if_pos rfl, List.append_nil]
  | cons c v ih =>
    have hc : c ≠ slash := fun heq => hv (heq ▸ List.mem_cons_self)
    rw [List.cons_append, tokenLoop, if_neg (hfree c List.mem_cons_self), if_neg hc,
      ih (by simp) hfree.tail fun h => hv (List.mem_cons_of_mem _ h), List.append_assoc]
    rfl

theorem tokenLoop_end (htoken : token ≠ []) (hfree : NulFree v) (hv : slash ∉ v) :
    tokenLoop token (v ++ 0 :: rest) = some (some (token ++ v), 0 :: rest) := by
  induction v generalizing token with
  | nil =>
    rw [List.nil_append, tokenLoop, if_pos rfl, if_neg htoken, List.append_nil]
  | cons c v ih =>
    have hc : c ≠ slash := fun heq => hv (heq ▸ List.mem_cons_self)
    rw [List.cons_append, tokenLoop, if_neg (hfree c List.mem_cons_self), if_neg hc,
      ih (by simp) hfree.tail fun h => hv (List.mem_cons_of_mem _ h), List.append_assoc]
    rfl

/-- A token that begins with a character of the path. -/
theorem strtok_cons {c : Byte} (hc : c ≠ slash) (h0 : c ≠ 0) : strtok (c :: rest) = tokenLoop [c] rest := by
  rw [strtok, if_neg hc, tokenLoop, if_neg h0, if_neg hc, List.nil_append]

/-- A delimiter before something else is skipped. -/
theorem strtok_slash_cons {c : Byte} (h0 : c ≠ 0) : strtok (slash :: c :: rest) = strtok (c :: rest) := by
  rw [strtok, if_pos rfl, tokenSkip]
  by_cases hc : c = slash
  · rw [if_pos hc, strtok, if_pos hc]
  · rw [if_neg hc, strtok_cons hc h0]

theorem tokenString_eq (hfree : NulFree v) : tokenString v = v :=
  List.takeWhile_eq_self_iff.mpr fun c hc => decide_eq_true (hfree c hc)

/-- Only zeros are left. -/
theorem normalizeTokens_zeros : normalizeTokens (fuel + 1) t (List.replicate (k + 1) 0) = some t.1 := by
  have hstrtok : strtok (List.replicate (k + 1) 0) = some (none, List.replicate (k + 1) 0) := by
    rw [List.replicate_succ, strtok, if_neg (by decide), tokenLoop, if_pos rfl, if_pos rfl]
  rw [normalizeTokens, hstrtok]

theorem tokenStep_nil : tokenStep t [] = t := by
  rw [tokenStep, if_neg (by simp), if_neg (by simp)]

/-- A delimiter at the end, at the start of a token: `strtok` goes on behind the terminator. -/
theorem normalizeTokens_slash : normalizeTokens (fuel + 2) t (slash :: List.replicate (k + 1) 0) =
    if k = 0 then none else some t.1 := by
  have hstrtok : strtok (slash :: List.replicate (k + 1) 0) = tokenLoop [0] (List.replicate k 0) := by
    rw [strtok, if_pos rfl, List.replicate_succ, tokenSkip, if_neg (by decide)]
  cases k with
  | zero =>
    rw [normalizeTokens, hstrtok]
    rfl
  | succ k =>
    have hloop : tokenLoop [0] (List.replicate (k + 1) 0) = some (some [0], List.replicate (k + 1) 0) := by
      rw [List.replicate_succ, tokenLoop, if_pos rfl, if_neg (by simp)]
    have hstring : tokenString [0] = [] := by decide
    rw [normalizeTokens, hstrtok, hloop]
    simp only [hstring, tokenStep_nil, normalizeTokens_zeros]
    rw [if_neg (Nat.succ_ne_zero k)]

/-- The tokens of a path are its components; after a double slash at the end the last call reads one
character more than the terminator. -/
theorem normalizeTokens_eq (hfree : NulFree s) (hfuel : s.length + 1 < fuel) :
    normalizeTokens fuel t (s ++ List.replicate (k + 1) 0) =
      if k = 0 ∧ EndsEmpty s then none else some ((components slash s).foldl tokenStep t).1 := by
  induction hn : s.length using Nat.strong_induction_on generalizing s t fuel with
  | _ n ih =>
    subst hn
    obtain ⟨fuel, rfl⟩ : ∃ f, fuel = f + 1 := ⟨fuel - 1, by omega⟩
    cases s with
    | nil =>
      have hend : ¬ EndsEmpty [] := by decide
      rw [List.nil_append, normalizeTokens_zeros, if_neg (fun h => hend h.2)]
      simp
    | cons c s =>
      have h0 : c ≠ 0 := hfree c List.mem_cons_self
      rw [List.length_cons] at hfuel
      by_cases hc : c = slash
      · subst hc
        cases s with
        | nil =>
          obtain ⟨fuel, rfl⟩ : ∃ f, fuel = f + 1 := ⟨fuel - 1, by omega⟩
          have hend : EndsEmpty [slash] := by decide
          rw [List.singleton_append, normalizeTokens_slash]
          simp [hend]
        | cons d s =>
          have hd : d ≠ 0 := hfree.tail d List.mem_cons_self
          have hsame : normalizeTokens (fuel + 1) t (slash :: d :: s ++ List.replicate (k + 1) 0) =
              normalizeTokens (fuel + 1) t (d :: s ++ List.replicate (k + 1) 0) := by
            rw [List.cons_append, List.cons_append, normalizeTokens, strtok_slash_cons hd, normalizeTokens]
          rw [hsame, ih (d :: s).length (by simp) hfree.tail (by rw [List.length_cons] at *; omega) rfl]
          simp only [endsEmpty_slash_cons, components_cons_sep]
      · by_cases hmem : slash ∈ s
        · obtain ⟨v, w, rfl, hv⟩ := exists_first hmem
          have hcv : slash ∉ c :: v := by
            rw [List.mem_cons, not_or]
            exact ⟨fun heq => hc heq.symm, hv⟩
          have hvfree : NulFree (c :: v) := fun d hd => hfree d (by simp at hd ⊢; tauto)
          have hwfree : NulFree w := fun d hd => hfree d (by simp; tauto)
          have hlen : (c :: (v ++ slash :: w)).length = v.length + w.length + 2 := by simp; omega
          have hstrtok : strtok (c :: (v ++ slash :: w) ++ List.replicate (k + 1) 0) =
              some (some (c :: v), w ++ List.replicate (k + 1) 0) := by
            rw [List.cons_append, strtok_cons hc h0, List.append_assoc, List.cons_append,
              tokenLoop_slash (List.cons_ne_nil _ _) hvfree.tail hv]
            rfl
          rw [normalizeTokens, hstrtok]
          simp only [tokenString_eq hvfree]
          rw [ih w.length (by omega) hwfree (by simp at hfuel; omega) rfl]
          have hcomponents : components slash (c :: v ++ slash :: w) = [c :: v] ++ components slash w := by
            rw [components_append_cons, components_of_not_mem hcv (List.cons_ne_nil _ _)]
          simp only [← List.cons_append, endsEmpty_append hcv, hcomponents]
          rfl
        · have hcs : slash ∉ c :: s := by
            rw [List.mem_cons, not_or]
            exact ⟨fun heq => hc heq.symm, hmem⟩
          obtain ⟨fuel, rfl⟩ : ∃ f, fuel = f + 1 := ⟨fuel - 1, by omega⟩
          have hstrtok : strtok (c :: s ++ List.replicate (k + 1) 0) =
              some (some (c :: s), List.replicate (k + 1) 0) := by
            rw [List.cons_append, strtok_cons hc h0, List.replicate_succ,
              tokenLoop_end (List.cons_ne_nil _ _) hfree.tail hmem]
            rfl
          rw [normalizeTokens, hstrtok]
          simp only [tokenString_eq hfree, normalizeTokens_zeros]
          rw [if_neg fun h => not_endsEmpty hcs h.2, components_of_not_mem hcs (List.cons_ne_nil _ _)]
          rfl

end tokens

/-! ## The tokens in the array -/

section array

variable {token before rest front : List Byte}

theorem bufferString_append (u v : List Byte) : bufferString (u ++ 0 :: v) = some (tokenString u) := by
  induction u with
  | nil => rfl
  | cons c u ih =>
    rw [List.cons_append, bufferString, ih]
    by_cases hc : c = 0
    · rw [if_pos hc, hc]
      rfl
    · have hkeep : tokenString (c :: u) = c :: tokenString u :=
        List.takeWhile_cons_of_pos (by simpa using hc)
      rw [if_neg hc, hkeep]
      rfl

/-- Inside a token the loop goes on as `strtok` does in the array, behind `front`. -/
theorem tokenLoop_refines (htoken : token ≠ []) :
    tokenLoop token rest = none ∧
      Util.tokenLoop [slash] front.length (front ++ token) rest none = none ∨
    ∃ token' i m, tokenLoop token rest = some (some token', m.rest) ∧
      Util.tokenLoop [slash] front.length (front ++ token) rest none = some (some i, m) ∧
      bufferString (m.bytes.drop i) = some (tokenString token') := by
  have hlen : front.length ≠ (front ++ token).length := by
    have := List.length_pos_of_ne_nil htoken
    rw [List.length_append]
    omega
  induction rest generalizing token with
  | nil => exact .inl ⟨rfl, rfl⟩
  | cons c rest ih =>
    by_cases h0 : c = 0
    · subst h0
      refine .inr ⟨token, front.length, ⟨front ++ token, 0 :: rest⟩, ?_, ?_, ?_⟩
      · rw [tokenLoop, if_pos rfl, if_neg htoken]
      · rw [Util.tokenLoop_nul, if_neg hlen]
      · rw [Util.Scan.bytes, List.append_assoc, List.drop_left]
        exact bufferString_append token rest
    by_cases hc : c = slash
    · subst hc
      refine .inr ⟨token, front.length, ⟨front ++ token ++ [0], rest⟩, ?_, ?_, ?_⟩
      · rw [tokenLoop, if_neg h0, if_pos rfl]
      · rw [Util.tokenLoop_found (List.mem_singleton_self slash) fun _ => h0, if_neg hlen]
      · rw [Util.Scan.bytes, List.append_assoc, List.append_assoc, List.drop_left]
        exact bufferString_append token rest
    · rw [tokenLoop, if_neg h0, if_neg hc,
        Util.tokenLoop_other (fun h => hc (List.mem_singleton.mp h)) fun _ => h0, List.append_assoc]
      refine ih (by simp) ?_
      rw [List.length_append, List.length_append, List.length_singleton]
      omega

/-- The loop over delimiters in front of a token. -/
theorem tokenSkip_refines (front rest : List Byte) :
    tokenSkip rest = none ∧
      Util.tokenLoop [slash] front.length front rest (some [slash]) = none ∨
    ∃ token i m, tokenSkip rest = some (some token, m.rest) ∧
      Util.tokenLoop [slash] front.length front rest (some [slash]) = some (some i, m) ∧
      bufferString (m.bytes.drop i) = some (tokenString token) := by
  induction rest generalizing front with
  | nil => exact .inl ⟨rfl, rfl⟩
  | cons c rest ih =>
    by_cases hc : c = slash
    · subst hc
      have hlen : front.length + 1 = (front ++ [0]).length := by
        rw [List.length_append, List.length_singleton]
      have hdrop : [slash].dropWhile (· ≠ slash) = [slash] := List.dropWhile_cons_of_neg (by simp)
      rw [tokenSkip, if_pos rfl, Util.tokenLoop_found_inner (List.mem_singleton_self slash), if_pos rfl,
        hlen, hdrop]
      exact ih (front ++ [0])
    · rw [tokenSkip, if_neg hc, Util.tokenLoop_other_inner fun h => hc (List.mem_singleton.mp h)]
      exact tokenLoop_refines (List.cons_ne_nil c [])

/-- In the array the call does the same: it reads behind the array, or returns a null, or points to
the token and goes on at what is left. -/
theorem strtok_refines :
    strtok rest = none ∧ Util.strtok [slash] none (some ⟨before, rest⟩) = none ∨
    (∃ m, strtok rest = some (none, m.rest) ∧
      Util.strtok [slash] none (some ⟨before, rest⟩) = some (none, some m)) ∨
    ∃ token i m, strtok rest = some (some token, m.rest) ∧
      Util.strtok [slash] none (some ⟨before, rest⟩) = some (some i, some m) ∧
      bufferString (m.bytes.drop i) = some (tokenString token) := by
  simp only [Util.strtok_null, Option.map_eq_some_iff, Option.map_eq_none_iff]
  cases rest with
  | nil => exact .inl ⟨rfl, rfl⟩
  | cons c rest =>
    by_cases hc : c = slash
    · have hskip : strtok (c :: rest) = tokenSkip (c :: rest) := by
        rw [strtok, tokenSkip, if_pos hc, if_pos hc]
      rw [hskip, Util.tokenLoop_enter (by rw [hc]; decide)]
      rcases tokenSkip_refines before (c :: rest) with hnone | ⟨token, i, m, htoken, hloop, hstring⟩
      · exact .inl hnone
      · exact .inr (.inr ⟨token, i, m, htoken, ⟨(some i, m), hloop, rfl⟩, hstring⟩)
    by_cases h0 : c = 0
    · subst h0
      refine .inr (.inl ⟨⟨before, 0 :: rest⟩, ?_, (none, ⟨before, 0 :: rest⟩), ?_, rfl⟩)
      · rw [strtok, if_neg hc, tokenLoop, if_pos rfl, if_pos rfl]
      · rw [Util.tokenLoop_nul, if_pos rfl]
    · rw [strtok_cons hc h0, Util.tokenLoop_other (fun h => hc (List.mem_singleton.mp h)) fun _ => h0]
      rcases tokenLoop_refines (List.cons_ne_nil c []) with hnone | ⟨token, i, m, htoken, hloop, hstring⟩
      · exact .inl hnone
      · exact .inr (.inr ⟨token, i, m, htoken, ⟨(some i, m), hloop, rfl⟩, hstring⟩)

end array

/-! ## The path that is put together -/

/-- The path and the depth of `normalizePath` for the names on a stack. -/
def written (stack : List (List Byte)) : List Byte × Nat :=
  ([slash].intercalate stack.reverse, stack.length)

/-- Names, with no slash in them. -/
def Names (stack : List (List Byte)) : Prop := ∀ c ∈ stack, c ≠ [] ∧ slash ∉ c

section written

variable {c path u x : List Byte} {stack parts : List (List Byte)}

theorem lastSlashBefore_eq {i k : Nat} (hki : k ≤ i) (hk : k = 0 ∨ path.getD k 0 = slash)
    (hafter : ∀ j, k < j → j ≤ i → path.getD j 0 ≠ slash) : lastSlashBefore path i = k := by
  induction i with
  | zero => exact (Nat.le_zero.mp hki).symm
  | succ i ih =>
    rw [lastSlashBefore]
    by_cases hlast : k = i + 1
    · rw [if_pos (by rw [← hlast]; exact hk.resolve_left (by omega)), hlast]
    · rw [if_neg (hafter (i + 1) (by omega) (Nat.le_refl _))]
      exact ih (by omega) fun j hj hji => hafter j hj (by omega)

theorem getD_ne_slash {j : Nat} (hx : slash ∉ x) : x.getD j 0 ≠ slash := by
  intro heq
  rw [List.getD_eq_getElem?_getD] at heq
  cases hj : x[j]? with
  | none =>
    rw [hj] at heq
    exact absurd heq (by decide)
  | some d =>
    rw [hj] at heq
    exact hx (heq ▸ List.mem_of_getElem? hj)

/-- The last slash stands before the last name. -/
theorem lastSlashBefore_append (hx : slash ∉ x) :
    lastSlashBefore (u ++ slash :: x) ((u ++ slash :: x).length - 1) = u.length := by
  have hlen : (u ++ slash :: x).length = u.length + (x.length + 1) := by simp
  refine lastSlashBefore_eq (by omega) (.inr ?_) fun j hj hji => ?_
  · rw [List.getD_append_right _ _ _ _ (Nat.le_refl _), Nat.sub_self]
    rfl
  · obtain ⟨i, rfl⟩ : ∃ i, j = u.length + (i + 1) := ⟨j - u.length - 1, by omega⟩
    rw [List.getD_append_right _ _ _ _ (by omega), Nat.add_sub_cancel_left, List.getD_cons_succ]
    exact getD_ne_slash hx

theorem written_cons (hne : stack ≠ []) :
    (written (c :: stack)).1 = (written stack).1 ++ slash :: c := by
  have hrev : stack.reverse ≠ [] := by simpa using hne
  rw [written, List.reverse_cons, intercalate_concat hrev]
  rfl

theorem written_ne_nil (hnames : Names stack) (hne : stack ≠ []) : (written stack).1 ≠ [] := by
  obtain ⟨c, stack, rfl⟩ := List.exists_cons_of_ne_nil hne
  by_cases hstack : stack = []
  · subst hstack
    have hc := (hnames c List.mem_cons_self).1
    simpa [written] using hc
  · rw [written_cons hstack]
    simp

theorem Names.resolveStep (hnames : Names stack) (hc : c ≠ [] ∧ slash ∉ c) :
    Names (resolveStep 1 stack c) := by
  unfold Vfs.resolveStep
  split
  · exact hnames
  split
  · split
    · exact fun d hd => hnames d (List.mem_of_mem_tail hd)
    · exact hnames
  · intro d hd
    rcases List.mem_cons.mp hd with rfl | hd
    · exact hc
    · exact hnames d hd

/-- A token does to the path what its name does to the stack, the first name of which stays. -/
theorem tokenStep_written (hnames : Names stack) (hc : c ≠ [] ∧ slash ∉ c) :
    tokenStep (written stack) c = written (resolveStep 1 stack c) := by
  have hlength : (written stack).2 = stack.length := rfl
  by_cases hdots : c = [dot, dot]
  · subst hdots
    rw [tokenStep, if_pos rfl, Agrees.resolveStep_dots, hlength]
    match stack with
    | [] => rfl
    | [x] =>
      have hx := (hnames x List.mem_cons_self).2
      have hpath : (written [x]).1 = x := by simp [written]
      have hlast : lastSlashBefore x (x.length - 1) = 0 :=
        lastSlashBefore_eq (Nat.zero_le _) (.inl rfl) fun j _ _ => getD_ne_slash hx
      simp [hpath, hlast]
    | x :: y :: stack =>
      have hx := hnames x List.mem_cons_self
      have hbelow : Names (y :: stack) := fun d hd => hnames d (List.mem_cons_of_mem _ hd)
      have hne := written_ne_nil hbelow (List.cons_ne_nil _ _)
      have hpath := written_cons (c := x) (List.cons_ne_nil y stack)
      have hlast := lastSlashBefore_append (u := (written (y :: stack)).1) hx.2
      rw [← hpath] at hlast
      have hpos : (written (y :: stack)).1.length ≠ 0 := fun h0 => hne (List.eq_nil_of_length_eq_zero h0)
      simp only [List.length_cons, hlast]
      rw [if_pos (by omega), if_pos hpos, if_pos (by omega), hpath, List.take_left]
      rfl
  rw [tokenStep, if_neg hdots]
  by_cases hdot : c = [dot]
  · subst hdot
    rw [if_neg (by simp)]
    rfl
  · have hpos : 0 < c.length := List.length_pos_of_ne_nil hc.1
    rw [if_pos ⟨hdot, hpos⟩, resolveStep_name ⟨hc.1, hdot, hdots⟩, hlength]
    by_cases hstack : stack = []
    · subst hstack
      simp [written]
    · rw [if_pos (List.length_pos_of_ne_nil hstack)]
      have hpath := written_cons (c := c) hstack
      refine Prod.ext ?_ rfl
      rw [hpath, List.append_assoc, List.singleton_append]

theorem foldl_tokenStep (hparts : Names parts) (hnames : Names stack) :
    parts.foldl tokenStep (written stack) = written (resolve 1 stack parts) ∧
      Names (resolve 1 stack parts) := by
  induction parts generalizing stack with
  | nil => exact ⟨rfl, hnames⟩
  | cons c parts ih =>
    have hc := hparts c List.mem_cons_self
    rw [List.foldl_cons, tokenStep_written hnames hc, resolve_cons]
    exact ih (fun d hd => hparts d (List.mem_cons_of_mem _ hd)) (hnames.resolveStep hc)

theorem written_getLast? (hnames : Names stack) : (written stack).1.getLast? ≠ some slash := by
  cases stack with
  | nil => simp [written]
  | cons c stack =>
    have hc := hnames c List.mem_cons_self
    have hlast : c.getLast? ≠ some slash := fun h => hc.2 (List.mem_of_getLast? h)
    by_cases hstack : stack = []
    · subst hstack
      simpa [written] using hlast
    · rw [written_cons hstack, List.getLast?_append_of_ne_nil _ (List.cons_ne_nil _ _),
        List.getLast?_cons_of_ne_nil hc.1]
      exact hlast

end written

theorem names_components (s : List Byte) : Names (components slash s) := by
  intro c hc
  obtain ⟨hmem, hne⟩ := List.mem_filter.mp hc
  exact ⟨of_decide_eq_true hne, not_mem_of_mem_splitOn hmem⟩

/-- `normalizePath` joins the names that are left, unless `strtok` leaves the array. -/
theorem normalizePath_eq {s : List Byte} (hfree : NulFree s) (hlen : s.length < PATH_SIZE) :
    normalizePath s = if s.length + 1 = PATH_SIZE ∧ EndsEmpty s then none
      else some ([slash].intercalate (resolve 1 [] (components slash s)).reverse) := by
  unfold PATH_SIZE at hlen
  by_cases hnil : s = []
  · subst hnil
    simp [normalizePath, resolve]
  obtain ⟨k, hk⟩ : ∃ k, PATH_SIZE - s.length = k + 1 := ⟨255 - s.length, by unfold PATH_SIZE; omega⟩
  have htokens := @normalizeTokens_eq s (written []) (PATH_SIZE + 1) k hfree (by unfold PATH_SIZE; omega)
  obtain ⟨hfold, hnames⟩ := @foldl_tokenStep [] _ (names_components s) (fun c hc => absurd hc List.not_mem_nil)
  rw [hfold] at htokens
  have hstart : written [] = ([], 0) := rfl
  rw [normalizePath, if_neg (fun h0 => hnil (List.eq_nil_of_length_eq_zero h0)), pathArray, hk, ← hstart,
    htokens]
  have hcond : k = 0 ↔ s.length + 1 = PATH_SIZE := by
    unfold PATH_SIZE at hk ⊢
    omega
  by_cases hbad : s.length + 1 = PATH_SIZE ∧ EndsEmpty s
  · rw [if_pos hbad, if_pos ⟨hcond.mpr hbad.1, hbad.2⟩]
    rfl
  · rw [if_neg hbad, if_neg fun h => hbad ⟨hcond.mp h.1, h.2⟩, Option.map_some,
      if_neg (written_getLast? hnames)]
    rfl

/-! ## Where the two agree -/

/-- Lists of parts are told apart by the paths they make, but for the list of one empty part. -/
theorem intercalate_inj {xs ys : List (List Byte)} (hx : ∀ c ∈ xs, slash ∉ c) (hy : ∀ c ∈ ys, slash ∉ c)
    (hxne : xs ≠ [[]]) (hyne : ys ≠ [[]]) :
    [slash].intercalate xs = [slash].intercalate ys ↔ xs = ys := by
  refine ⟨fun h => ?_, fun h => by rw [h]⟩
  have hsplit := congrArg (List.splitOn slash) h
  by_cases hxnil : xs = []
  · subst hxnil
    by_cases hynil : ys = []
    · exact hynil.symm
    · rw [List.splitOn_intercalate slash hy hynil] at hsplit
      exact absurd hsplit.symm hyne
  · rw [List.splitOn_intercalate slash hx hxnil] at hsplit
    by_cases hynil : ys = []
    · subst hynil
      exact absurd hsplit hxne
    · rwa [List.splitOn_intercalate slash hy hynil] at hsplit

theorem dropWhile_ne_singleton {parts : List (List Byte)} : parts.dropWhile (· = []) ≠ [[]] := by
  intro h
  have hne : parts.dropWhile (· = []) ≠ [] := by simp [h]
  have hhead := List.head_dropWhile_not (fun c : List Byte => decide (c = [])) hne
  simp [h] at hhead

/-- The parts that are left are the names that are left: no name is lost or joined, and no empty
part stays between two. -/
theorem placed_eq_resolve_iff (s : List Byte) :
    (placed ([], []) (s.splitOn slash)).dropWhile (· = []) = resolve 1 [] (components slash s) ↔
      Keeps 1 0 0 false (s.splitOn slash) ∧ NoGap (s.splitOn slash) := by
  have hsplit := List.splitOn_ne_nil slash s
  obtain ⟨-, hnames⟩ := @foldl_tokenStep [] _ (names_components s) (fun c hc => absurd hc List.not_mem_nil)
  have hnil : [] ∉ resolve 1 [] (components slash s) := fun h => (hnames [] h).1 rfl
  have hall : nonEmpty (resolve 1 [] (components slash s)) = resolve 1 [] (components slash s) :=
    List.filter_eq_self.mpr fun c hc => decide_eq_true (hnames c hc).1
  have hkeeps := (@agrees_nil 1).placed_iff hsplit
  rw [← resolve_components] at hkeeps
  constructor
  · intro heq
    have hk := hkeeps.mp (by rw [← nonEmpty_dropWhile, heq, hall])
    refine ⟨hk, nil_not_mem_plain_iff.mp ?_⟩
    have hplain := agrees_nil.placed_plain hk hsplit
    rw [List.append_nil] at hplain
    rw [← hplain, heq]
    exact hnil
  · intro ⟨hk, hgap⟩
    have hplain := agrees_nil.placed_plain hk hsplit
    rw [List.append_nil] at hplain
    have hfull : nonEmpty ((placed ([], []) (s.splitOn slash)).dropWhile (· = [])) =
        (placed ([], []) (s.splitOn slash)).dropWhile (· = []) := by
      refine List.filter_eq_self.mpr fun c hc => decide_eq_true fun heq => ?_
      rw [hplain, heq] at hc
      exact nil_not_mem_plain_iff.mpr hgap hc
    rw [← hfull, nonEmpty_dropWhile, hkeeps.mpr hk]

/-- Both normalizers make the same string of a path. -/
theorem normalizePath_eq_iff {s : List Byte} (hfree : NulFree s) (hlen : s.length < PATH_SIZE) :
    normalizePath s = some (vfsNormalizePath s) ↔ Keeps 1 0 0 false (s.splitOn slash) ∧
      NoGap (s.splitOn slash) ∧ ¬ (s.length + 1 = PATH_SIZE ∧ EndsEmpty s) := by
  rw [normalizePath_eq hfree hlen]
  by_cases hbad : s.length + 1 = PATH_SIZE ∧ EndsEmpty s
  · rw [if_pos hbad]
    exact iff_of_false (by simp) fun h => h.2.2 hbad
  rw [if_neg hbad, ← and_assoc, ← placed_eq_resolve_iff, and_iff_left hbad, Option.some.injEq,
    vfsNormalizePath_eq]
  obtain ⟨-, hnames⟩ := @foldl_tokenStep [] _ (names_components s) (fun c hc => absurd hc List.not_mem_nil)
  rw [eq_comm, intercalate_inj, List.reverse_inj]
  · intro c hc
    exact slash_not_mem_placed s c ((List.dropWhile_sublist _).mem (List.mem_reverse.mp hc))
  · exact fun c hc => (hnames c (List.mem_reverse.mp hc)).2
  · intro h
    exact dropWhile_ne_singleton (by simpa using congrArg List.reverse h)
  · intro h
    have hmem : [] ∈ resolve 1 [] (components slash s) := by
      rw [← List.mem_reverse, h]
      exact List.mem_singleton_self _
    exact (hnames [] hmem).1 rfl

theorem applyCd_nulFree {cwd path : List Byte} (hcwd : NulFree cwd) (hpath : NulFree path) :
    NulFree (applyCd cwd path) := by
  unfold applyCd
  split
  · exact hpath.drop 1
  · intro c hc
    rcases List.mem_append.mp hc with hc | hc
    · exact hcwd c hc
    · rcases List.mem_cons.mp hc with rfl | hc
      · decide
      · exact hpath c hc

theorem mem_resolve {floor : Nat} {c : List Byte} {stack parts : List (List Byte)}
    (h : c ∈ resolve floor stack parts) : c ∈ stack ∨ c ∈ parts := by
  induction parts generalizing stack with
  | nil => exact .inl h
  | cons d parts ih =>
    rcases ih h with hstack | hparts
    · unfold resolveStep at hstack
      split at hstack
      · exact .inl hstack
      split at hstack
      · split at hstack
        · exact .inl (List.mem_of_mem_tail hstack)
        · exact .inl hstack
      · rcases List.mem_cons.mp hstack with rfl | hstack
        · exact .inr List.mem_cons_self
        · exact .inl hstack
    · exact .inr (List.mem_cons_of_mem _ hparts)

theorem normalizePath_nulFree {s t : List Byte} (hfree : NulFree s) (hlen : s.length < PATH_SIZE)
    (h : normalizePath s = some t) : NulFree t := by
  rw [normalizePath_eq hfree hlen] at h
  split at h
  · cases h
  · rw [← Option.some.inj h]
    intro b hb
    rcases mem_intercalate hb with rfl | ⟨c, hc, hbc⟩
    · decide
    · have hmem := (mem_resolve (List.mem_reverse.mp hc)).resolve_left List.not_mem_nil
      exact hfree b (mem_of_mem_splitOn (List.mem_filter.mp hmem).1 hbc)

theorem Cwd.nulFree {cwd : List Byte} (h : Cwd cwd) : NulFree cwd := by
  induction h with
  | root => decide
  | cd _ hpath hlen hnormalize ih =>
    exact normalizePath_nulFree (applyCd_nulFree ih hpath) hlen hnormalize

/-- For every current directory and argument the two make the same string of the path that
`apply_cd` builds exactly when its parts are read as they are meant, with the first name staying,
no empty part stands before a name, and `strtok` stays in the array. -/
theorem shell_vfs_agree_iff {cwd path : List Byte} (hcwd : Cwd cwd) (hpath : NulFree path)
    (hlen : (applyCd cwd path).length < PATH_SIZE) :
    normalizePath (applyCd cwd path) = some (vfsNormalizePath (applyCd cwd path)) ↔
      Keeps 1 0 0 false ((applyCd cwd path).splitOn slash) ∧ NoGap ((applyCd cwd path).splitOn slash) ∧
        ¬ ((applyCd cwd path).length + 1 = PATH_SIZE ∧ EndsEmpty (applyCd cwd path)) :=
  normalizePath_eq_iff (applyCd_nulFree hcwd.nulFree hpath) hlen

/-- `cd b` in the root. -/
theorem shell_vfs_agree_root : normalizePath (applyCd root [0x62]) = some (vfsNormalizePath (applyCd root [0x62])) := by
  have hparts : (applyCd root [0x62]).splitOn slash = [root, [0x62]] := by decide
  refine (shell_vfs_agree_iff .root (by decide) (by decide)).mpr ?_
  rw [hparts]
  simp [Keeps, NoGap, root, dot, applyCd, slash, PATH_SIZE]

/-- `cd b/..` in the root goes back to the root; `ls b/..` lists `b`. -/
theorem shell_vfs_differ : ¬ ∀ cwd path : List Byte, Cwd cwd → NulFree path →
    (applyCd cwd path).length < PATH_SIZE →
    normalizePath (applyCd cwd path) = some (vfsNormalizePath (applyCd cwd path)) := by
  intro hall
  have heq := hall root [0x62, 0x2f, 0x2e, 0x2e] .root (by decide) (by decide)
  rw [normalizePath_eq (by decide) (by decide)] at heq
  exact absurd heq (by decide)

end Debug
