import Mathlib.Data.List.Destutter
import Mathlib.Data.List.TakeWhile
import UnedKernel.Lib.CString
import UnedKernel.Lib.Components

/-! # Tokens

`strtok` of `string.c`, over any string and any delimiters. It keeps where it
stands in a static variable, writes a terminator over each delimiter it meets,
and reads on behind the terminator of its string when delimiters are all that is
left. -/

namespace Util
open ByteMem CString Components MaximalRuns

/-- Where `strtok` stands: the bytes of its object before `lastToken` and those from there on. -/
structure Scan where
  before : List Byte
  rest : List Byte
  deriving DecidableEq

def Scan.bytes (m : Scan) : List Byte := m.before ++ m.rest

/-- The loops of `strtok`, the inner one from `inner` on in the delimiters, `none` for the test of
the outer one: the index of the token, `none` for a null pointer, and where `lastToken` is then. No
result is a read behind the object. -/
def tokenLoop (delim : List Byte) (tokenStart : Nat) (before : List Byte) :
    List Byte → Option (List Byte) → Option (Option Nat × Scan)
  | [], _ => none
  | c :: rest, inner =>
    if inner = none ∧ c = 0 then
      some (if tokenStart = before.length then none else some tokenStart, ⟨before, c :: rest⟩)
    else
      match (inner.getD delim).dropWhile (· ≠ c) with
      | [] => tokenLoop delim tokenStart (before ++ [c]) rest none
      | d :: ds =>
        -- an empty token begins anew behind the delimiter, and the inner loop goes on from it
        if tokenStart = before.length then
          tokenLoop delim (before.length + 1) (before ++ [0]) rest (some (d :: ds))
        else some (some tokenStart, ⟨before ++ [0], rest⟩)

/-- `strtok`, with the object that `s` points to and the static `lastToken`. -/
def strtok (delim : List Byte) (s : Option (List Byte)) (lastToken : Option Scan) :
    Option (Option Nat × Option Scan) :=
  match s.map (Scan.mk []) <|> lastToken with
  | none => some (none, none)
  | some m => (tokenLoop delim m.before.length m.before m.rest none).map fun (token, m) =>
      (token, some m)

/-- The strings that `strtok(s)` and the calls with a null pointer after it return, up to the first
null: `none` when a call reads behind the object or none of `turns` calls returns a null. -/
def tokens (delim : List Byte) : Nat → Option (List Byte) → Option Scan → Option (List (List Byte))
  | 0, _, _ => none
  | turns + 1, s, lastToken =>
    match strtok delim s lastToken with
    | none => none
    | some (none, _) => some []
    | some (some i, lastToken) => do
      let m ← lastToken
      let token ← bufferString (m.bytes.drop i)
      let rest ← tokens delim turns none (some m)
      some (token :: rest)

/-- The calls return the maximal runs of `s` and end, wherever `strtok` stood before, and they stay
in the string. -/
def Tokenised (delim s : Str) : Prop := ∀ lastToken, ∃ turns,
  tokens delim.chars turns (some (s.chars ++ [0])) lastToken =
    some (runs (fun c => c ∈ delim.chars) s.chars)

/-! ## Strings that are tokenised -/

/-- The suffixes behind each delimiter that stands after another character. -/
def startsFrom (delim : List Byte) : (inToken : Bool) → List Byte → List (List Byte)
  | _, [] => []
  | inToken, c :: s =>
    if c ∈ delim then
      if inToken then s :: startsFrom delim false s else startsFrom delim false s
    else startsFrom delim true s

/-- The suffixes where a token is looked for: the string, and what is behind each delimiter that
ends a token. -/
def tokenStarts (delim s : List Byte) : List (List Byte) := s :: startsFrom delim false s

/-- The delimiters in front of the token stand in the order of the delimiter string, repetitions
apart, and they are not all that is left. -/
def Orderly (delim t : List Byte) : Prop :=
  ((t.takeWhile (· ∈ delim)).destutter (· ≠ ·)).Sublist delim ∧ ((∀ c ∈ t, c ∈ delim) → t = [])

instance (delim t : List Byte) : Decidable (Orderly delim t) := inferInstanceAs (Decidable (_ ∧ _))

/-- Delimiters are in order wherever a token is looked for. -/
def Tidy (delim s : List Byte) : Prop := ∀ t ∈ tokenStarts delim s, Orderly delim t

instance (delim s : List Byte) : Decidable (Tidy delim s) :=
  inferInstanceAs (Decidable (∀ t ∈ tokenStarts delim s, Orderly delim t))

/-! ## One call -/

section call

variable {delim b r rest w : List Byte} {inner : Option (List Byte)} {k : Nat} {c : Byte}

theorem tokenLoop_nul : tokenLoop delim k b (0 :: rest) none =
    some (if k = b.length then none else some k, ⟨b, 0 :: rest⟩) := by
  rw [tokenLoop, if_pos ⟨rfl, rfl⟩]

/-- A character that the inner loop does not find is left as it is. -/
theorem tokenLoop_other (hc : c ∉ inner.getD delim) (h0 : inner = none → c ≠ 0) :
    tokenLoop delim k b (c :: rest) inner = tokenLoop delim k (b ++ [c]) rest none := by
  have hdrop : (inner.getD delim).dropWhile (· ≠ c) = [] := by
    rw [List.dropWhile_eq_nil_iff]
    intro x hx
    simpa using fun heq : x = c => hc (heq ▸ hx)
  rw [tokenLoop, if_neg fun h => h0 h.1 h.2, hdrop]

/-- A delimiter is overwritten. It ends the token, unless the token is empty. -/
theorem tokenLoop_found (hc : c ∈ inner.getD delim) (h0 : inner = none → c ≠ 0) :
    tokenLoop delim k b (c :: rest) inner =
      if k = b.length then
        tokenLoop delim (b.length + 1) (b ++ [0]) rest
          (some ((inner.getD delim).dropWhile (· ≠ c)))
      else some (some k, ⟨b ++ [0], rest⟩) := by
  have hdrop : (inner.getD delim).dropWhile (· ≠ c) ≠ [] := by
    rw [Ne, List.dropWhile_eq_nil_iff]
    intro h
    simpa using h c hc
  obtain ⟨d, ds, hds⟩ := List.exists_cons_of_ne_nil hdrop
  rw [tokenLoop, if_neg fun h => h0 h.1 h.2, hds]

theorem tokenLoop_other_inner {d : List Byte} (hc : c ∉ d) :
    tokenLoop delim k b (c :: rest) (some d) = tokenLoop delim k (b ++ [c]) rest none :=
  tokenLoop_other hc nofun

theorem tokenLoop_found_inner {d : List Byte} (hc : c ∈ d) :
    tokenLoop delim k b (c :: rest) (some d) =
      if k = b.length then
        tokenLoop delim (b.length + 1) (b ++ [0]) rest (some (d.dropWhile (· ≠ c)))
      else some (some k, ⟨b ++ [0], rest⟩) :=
  tokenLoop_found hc nofun

/-- The outer loop goes over the characters of a token. -/
theorem tokenLoop_token (hw : ∀ c ∈ w, c ∉ delim) (h0 : NulFree w) :
    tokenLoop delim k b (w ++ rest) none = tokenLoop delim k (b ++ w) rest none := by
  induction w generalizing b with
  | nil => rw [List.nil_append, List.append_nil]
  | cons c w ih =>
    rw [List.cons_append, tokenLoop_other (hw c List.mem_cons_self) fun _ => h0 c List.mem_cons_self,
      ih (fun d hd => hw d (List.mem_cons_of_mem c hd)) h0.tail, List.append_assoc]
    rfl

/-- A token at the end of the string. -/
theorem tokenLoop_last (hw : ∀ c ∈ w, c ∉ delim) (h0 : NulFree w) (hne : w ≠ []) :
    tokenLoop delim b.length b (w ++ [0]) none =
      some (some b.length, ⟨b ++ w, [0]⟩) := by
  have hlen : b.length ≠ (b ++ w).length := by
    have := List.length_pos_of_ne_nil hne
    rw [List.length_append]
    omega
  rw [tokenLoop_token hw h0, tokenLoop_nul, if_neg hlen]

/-- A token with a delimiter behind it. -/
theorem tokenLoop_ended (hw : ∀ c ∈ w, c ∉ delim) (h0 : NulFree w) (hne : w ≠ []) (hc : c ∈ delim)
    (hc0 : c ≠ 0) : tokenLoop delim b.length b (w ++ c :: rest) none =
      some (some b.length, ⟨b ++ w ++ [0], rest⟩) := by
  have hlen : b.length ≠ (b ++ w).length := by
    have := List.length_pos_of_ne_nil hne
    rw [List.length_append]
    omega
  rw [tokenLoop_token hw h0, tokenLoop_found hc fun _ => hc0, if_neg hlen]

/-! ## Delimiters in front of a token -/

/-- Each delimiter is found at the place of the one before it or behind it. -/
def Forward : (d run : List Byte) → Prop
  | _, [] => True
  | d, c :: run => c ∈ d ∧ Forward (d.dropWhile (· ≠ c)) run

/-- The inner loop goes on over delimiters that stand in its order. -/
theorem tokenLoop_skip (delim rest : List Byte) {d : List Byte} (hr : Forward d r) : ∃ d', d' ⊆ d ∧
    tokenLoop delim b.length b (r ++ rest) (some d) =
      tokenLoop delim (b.length + r.length) (b ++ List.replicate r.length 0) rest (some d') := by
  induction r generalizing b d with
  | nil => exact ⟨d, fun _ h => h, by simp⟩
  | cons c r ih =>
    obtain ⟨hc, hr⟩ := hr
    obtain ⟨d', hsub, hskip⟩ := ih (b := b ++ [0]) hr
    refine ⟨d', fun x hx => List.dropWhile_subset _ (hsub hx), ?_⟩
    rw [List.cons_append, tokenLoop_found_inner hc, if_pos rfl]
    rw [List.length_append] at hskip
    rw [List.length_singleton] at hskip
    rw [hskip, List.length_cons, List.replicate_succ, List.append_assoc,
      Nat.add_assoc, Nat.add_comm 1]
    rfl

/-- The inner loop at the start of the delimiters and the test of the outer one before it. -/
theorem tokenLoop_enter (h0 : c ≠ 0) :
    tokenLoop delim k b (c :: rest) none = tokenLoop delim k b (c :: rest) (some delim) := by
  rw [tokenLoop, tokenLoop, if_neg fun h => h0 h.2, if_neg fun h => nomatch h.1]
  rfl

/-- Delimiters that stand in order before a token are overwritten, and the token begins behind them. -/
theorem tokenLoop_front (hr : Forward delim r) (hr0 : NulFree r) (hc : c ∉ delim) (hc0 : c ≠ 0) :
    tokenLoop delim b.length b (r ++ c :: rest) none =
      tokenLoop delim (b ++ List.replicate r.length 0).length
        (b ++ List.replicate r.length 0) (c :: rest) none := by
  cases r with
  | nil => simp
  | cons x r =>
    obtain ⟨d', hsub, hskip⟩ := tokenLoop_skip delim (c :: rest) (b := b) hr
    rw [List.cons_append, tokenLoop_enter (hr0 x List.mem_cons_self), ← List.cons_append, hskip,
      tokenLoop_other_inner (fun h => hc (hsub h)), tokenLoop_other hc fun _ => hc0,
      List.length_append, List.length_replicate]

/-- After delimiters at the end of the string the loop reads behind it. -/
theorem tokenLoop_end (hr : Forward delim r) (hr0 : NulFree r) (hne : r ≠ []) (h0 : 0 ∉ delim) :
    tokenLoop delim b.length b (r ++ [0]) none = none := by
  cases r with
  | nil => exact absurd rfl hne
  | cons x r =>
    obtain ⟨d', hsub, hskip⟩ := tokenLoop_skip delim [0] (b := b) hr
    rw [List.cons_append, tokenLoop_enter (hr0 x List.mem_cons_self), ← List.cons_append, hskip,
      tokenLoop_other_inner (fun h => h0 (hsub h))]
    rfl

/-- Inside a token nothing that was passed is written again, and a result is that token. -/
theorem tokenLoop_keeps {token : Option Nat} {m : Scan} (hk : k < b.length)
    (h : tokenLoop delim k b rest inner = some (token, m)) :
    token = some k ∧ b <+: m.bytes := by
  induction rest generalizing b inner with
  | nil => cases h
  | cons c rest ih =>
    have hne : k ≠ b.length := Nat.ne_of_lt hk
    by_cases hnul : inner = none ∧ c = 0
    · rw [hnul.1, hnul.2, tokenLoop_nul, if_neg hne] at h
      cases h
      exact ⟨rfl, List.prefix_append b _⟩
    have h0 : inner = none → c ≠ 0 := fun hi hc => hnul ⟨hi, hc⟩
    by_cases hc : c ∈ inner.getD delim
    · rw [tokenLoop_found hc h0, if_neg hne] at h
      cases h
      refine ⟨rfl, ?_⟩
      rw [Scan.bytes, List.append_assoc]
      exact List.prefix_append b _
    · rw [tokenLoop_other hc h0] at h
      have hlt : k < (b ++ [c]).length := by
        rw [List.length_append]
        exact Nat.lt_add_right _ hk
      obtain ⟨htoken, hfront⟩ := ih hlt h
      exact ⟨htoken, (List.prefix_append b [c]).trans hfront⟩

/-- After delimiters that do not stand in order the token begins with one of them. -/
theorem tokenLoop_astray {d : List Byte} {token : Option Nat} {m : Scan} (hr : ¬ Forward d r)
    (h : tokenLoop delim b.length b (r ++ rest) (some d) = some (token, m)) :
    ∃ i, token = some i ∧ ∃ c ∈ r, (m.bytes.drop i).head? = some c := by
  induction r generalizing b d with
  | nil => exact absurd trivial hr
  | cons c r ih =>
    rw [List.cons_append] at h
    by_cases hc : c ∈ d
    · rw [tokenLoop_found_inner hc, if_pos rfl] at h
      have hlen : b.length + 1 = (b ++ [0]).length := by
        rw [List.length_append, List.length_singleton]
      rw [hlen] at h
      obtain ⟨i, htoken, x, hx, hhead⟩ := ih (fun hr' => hr ⟨hc, hr'⟩) h
      exact ⟨i, htoken, x, List.mem_cons_of_mem c hx, hhead⟩
    · rw [tokenLoop_other_inner hc] at h
      have hlt : b.length < (b ++ [c]).length := by
        rw [List.length_append]
        exact Nat.lt_succ_self _
      obtain ⟨htoken, t, ht⟩ := tokenLoop_keeps hlt h
      refine ⟨b.length, htoken, c, List.mem_cons_self, ?_⟩
      rw [← ht, List.append_assoc, List.drop_left]
      rfl

/-! ## The order of delimiters -/

theorem cons_sublist_iff {d run : List Byte} :
    (c :: run).Sublist d ↔ c ∈ d ∧ (c :: run).Sublist (d.dropWhile (· ≠ c)) := by
  induction d with
  | nil => simp
  | cons x d ih =>
    by_cases hx : x = c
    · subst hx
      simp
    · have hc : c ≠ x := fun heq => hx heq.symm
      simp [List.sublist_cons_iff, hx, hc, ih]

theorem exists_destutter'_eq_cons (c : Byte) (run : List Byte) :
    ∃ l, run.destutter' (· ≠ ·) c = c :: l := by
  induction run with
  | nil => exact ⟨[], rfl⟩
  | cons x run ih =>
    by_cases hx : c ≠ x
    · exact ⟨_, List.destutter'_cons_pos run hx⟩
    · rw [List.destutter'_cons_neg run hx]
      exact ih

theorem dropWhile_ne_of_mem {d : List Byte} (hc : c ∈ d) : ∃ ds, d.dropWhile (· ≠ c) = c :: ds := by
  induction d with
  | nil => cases hc
  | cons x d ih =>
    by_cases hx : x = c
    · exact ⟨d, by simp [hx]⟩
    · have hcd : c ∈ d := (List.mem_cons.mp hc).resolve_left fun heq => hx heq.symm
      simpa [hx] using ih hcd

/-- From the place of one delimiter the others are found in order when together with it they are,
repetitions apart, a subsequence of what is there. -/
theorem forward_cons_iff {d run : List Byte} :
    Forward (c :: d) run ↔ (run.destutter' (· ≠ ·) c).Sublist (c :: d) := by
  induction run generalizing c d with
  | nil => simp [Forward]
  | cons x run ih =>
    rw [Forward]
    by_cases hx : c = x
    · subst hx
      rw [List.destutter'_cons_neg _ (by simp), ← ih]
      simp
    · have hxc : x ≠ c := fun heq => hx heq.symm
      obtain ⟨l, hl⟩ := exists_destutter'_eq_cons x run
      rw [List.destutter'_cons_pos _ hx, List.cons_sublist_cons, hl, cons_sublist_iff, ← hl]
      rw [List.mem_cons, or_iff_right hxc, List.dropWhile_cons_of_pos (by simpa using hx)]
      refine and_congr_right fun hmem => ?_
      obtain ⟨ds, hds⟩ := dropWhile_ne_of_mem hmem
      rw [hds, ih]

/-- Delimiters are found in order when they are, repetitions apart, a subsequence. -/
theorem forward_iff {run : List Byte} (hrun : ∀ c ∈ run, c ∈ delim) :
    Forward delim run ↔ (run.destutter (· ≠ ·)).Sublist delim := by
  cases run with
  | nil => simp [Forward]
  | cons c run =>
    have hc : c ∈ delim := hrun c List.mem_cons_self
    obtain ⟨ds, hds⟩ := dropWhile_ne_of_mem hc
    obtain ⟨l, hl⟩ := exists_destutter'_eq_cons c run
    rw [Forward, and_iff_right hc, hds, forward_cons_iff, List.destutter_cons', hl,
      cons_sublist_iff (d := delim), and_iff_right hc, hds]

end call

/-! ## The calls up to the first null -/

section calls

variable {delim bytes token : List Byte} {m m' : Scan} {lastToken : Option Scan} {i : Nat}
  {rs : List (List Byte)}

theorem strtok_null : strtok delim none (some m) =
    (tokenLoop delim m.before.length m.before m.rest none).map fun (token, m) => (token, some m) := rfl

/-- The calls with a null pointer return the strings, and then a null. -/
def Returns (delim : List Byte) (m : Scan) (rs : List (List Byte)) : Prop :=
  ∃ turns, tokens delim turns none (some m) = some rs

/-- A call with a string begins at its start, wherever `strtok` stood before. -/
theorem tokens_string {turns : Nat} : tokens delim turns (some bytes) lastToken =
    tokens delim turns none (some ⟨[], bytes⟩) := by
  cases turns <;> rfl

theorem not_returns (h : tokenLoop delim m.before.length m.before m.rest none = none) :
    ¬ Returns delim m rs := by
  intro ⟨turns, hturns⟩
  cases turns with
  | zero => cases hturns
  | succ turns =>
    simp [tokens, strtok, h] at hturns

theorem returns_nil {b : List Byte} : Returns delim ⟨b, [0]⟩ [] :=
  ⟨1, by simp [tokens, strtok, tokenLoop]⟩

theorem returns_token_iff (h : tokenLoop delim m.before.length m.before m.rest none = some (some i, m')) :
    Returns delim m rs ↔
      ∃ token rs', bufferString (m'.bytes.drop i) = some token ∧ Returns delim m' rs' ∧ rs = token :: rs' := by
  have hstep : ∀ turns, tokens delim (turns + 1) none (some m) =
      (bufferString (m'.bytes.drop i)).bind fun token =>
        (tokens delim turns none (some m')).bind fun rest => some (token :: rest) := by
    intro turns
    simp [tokens, strtok, h]
  constructor
  · rintro ⟨turns, hturns⟩
    cases turns with
    | zero => cases hturns
    | succ turns =>
      rw [hstep, Option.bind_eq_some_iff] at hturns
      obtain ⟨token, htoken, hrest⟩ := hturns
      obtain ⟨rs', hrs', heq⟩ := Option.bind_eq_some_iff.mp hrest
      exact ⟨token, rs', htoken, ⟨turns, hrs'⟩, (Option.some.inj heq).symm⟩
  · rintro ⟨token, rs', htoken, ⟨turns, hturns⟩, rfl⟩
    refine ⟨turns + 1, ?_⟩
    rw [hstep, htoken, Option.bind_some, hturns]
    rfl

end calls

/-! ## Tidy strings from their runs -/

section tidy

variable {delim r t v w : List Byte} {c : Byte} {inToken : Bool}

theorem startsFrom_front (hr : ∀ c ∈ r, c ∈ delim) :
    startsFrom delim false (r ++ t) = startsFrom delim false t := by
  induction r with
  | nil => rfl
  | cons c r ih =>
    rw [List.cons_append, startsFrom, if_pos (hr c List.mem_cons_self)]
    exact ih fun d hd => hr d (List.mem_cons_of_mem c hd)

theorem startsFrom_token (hw : ∀ c ∈ w, c ∉ delim) (hne : w ≠ []) :
    startsFrom delim inToken (w ++ t) = startsFrom delim true t := by
  induction w generalizing inToken with
  | nil => exact absurd rfl hne
  | cons c w ih =>
    rw [List.cons_append, startsFrom, if_neg (hw c List.mem_cons_self)]
    cases w with
    | nil => rfl
    | cons d w => exact ih (fun x hx => hw x (List.mem_cons_of_mem c hx)) (List.cons_ne_nil d w)

theorem orderly_delimiters (hr : ∀ c ∈ r, c ∈ delim) : Orderly delim r ↔ r = [] := by
  constructor
  · intro h
    exact h.2 hr
  · rintro rfl
    exact ⟨by simp, fun _ => rfl⟩

theorem orderly_front (hr : ∀ c ∈ r, c ∈ delim) (hc : c ∉ delim) :
    Orderly delim (r ++ c :: t) ↔ Forward delim r := by
  have htake : (r ++ c :: t).takeWhile (· ∈ delim) = r := by
    rw [List.takeWhile_append_of_pos (by simpa using hr), List.takeWhile_cons_of_neg (by simpa using hc),
      List.append_nil]
  have hmem : c ∈ r ++ c :: t := List.mem_append_right r List.mem_cons_self
  rw [Orderly, htake, forward_iff hr]
  exact and_iff_left fun hall => absurd (hall c hmem) hc

theorem tidy_delimiters (hr : ∀ c ∈ r, c ∈ delim) : Tidy delim r ↔ r = [] := by
  have hstarts : tokenStarts delim r = [r] := by
    have h := startsFrom_front (t := []) hr
    rw [List.append_nil] at h
    rw [tokenStarts, h, startsFrom]
  simp [Tidy, hstarts, orderly_delimiters hr]

theorem tidy_last (hr : ∀ c ∈ r, c ∈ delim) (hw : ∀ c ∈ w, c ∉ delim) (hne : w ≠ []) :
    Tidy delim (r ++ w) ↔ Forward delim r := by
  have hstarts : tokenStarts delim (r ++ w) = [r ++ w] := by
    have h : startsFrom delim false (w ++ []) = startsFrom delim true [] := startsFrom_token hw hne
    rw [List.append_nil] at h
    rw [tokenStarts, startsFrom_front hr, h, startsFrom]
  obtain ⟨c, w, rfl⟩ := List.exists_cons_of_ne_nil hne
  simp [Tidy, hstarts, orderly_front hr (hw c List.mem_cons_self)]

theorem tidy_step (hr : ∀ c ∈ r, c ∈ delim) (hw : ∀ c ∈ w, c ∉ delim) (hne : w ≠ []) (hc : c ∈ delim) :
    Tidy delim (r ++ (w ++ c :: v)) ↔ Forward delim r ∧ Tidy delim v := by
  have hstarts : tokenStarts delim (r ++ (w ++ c :: v)) = (r ++ (w ++ c :: v)) :: tokenStarts delim v := by
    rw [tokenStarts, startsFrom_front hr, startsFrom_token hw hne, startsFrom, if_pos hc, if_pos rfl]
    rfl
  obtain ⟨d, w, rfl⟩ := List.exists_cons_of_ne_nil hne
  rw [Tidy, hstarts, List.forall_mem_cons, List.cons_append,
    orderly_front hr (hw d List.mem_cons_self)]
  rfl

end tidy

/-! ## Exactly the tidy strings -/

section exact

variable {delim b r rest s token l : List Byte} {c : Byte}

theorem head_of_bufferString (h : bufferString l = some token) (hl : l.head? = some c) (h0 : c ≠ 0) :
    c ∈ token := by
  cases l with
  | nil => cases hl
  | cons d l =>
    cases hl
    rw [bufferString, if_neg h0, Option.map_eq_some_iff] at h
    obtain ⟨t, -, rfl⟩ := h
    exact List.mem_cons_self

/-- Delimiters that do not stand in order come back in a token. -/
theorem not_returns_of_astray (hr : ∀ c ∈ r, c ∈ delim) (h0 : NulFree r) (h : ¬ Forward delim r) :
    ¬ Returns delim ⟨b, r ++ rest⟩ (runs (fun c => c ∈ delim) s) := by
  cases r with
  | nil => exact absurd trivial h
  | cons x r =>
    have henter : tokenLoop delim b.length b (x :: r ++ rest) none =
        tokenLoop delim b.length b (x :: r ++ rest) (some delim) :=
      tokenLoop_enter (h0 x List.mem_cons_self)
    cases hloop : tokenLoop delim b.length b (x :: r ++ rest) (some delim) with
    | none => exact not_returns (henter.trans hloop)
    | some result =>
      obtain ⟨result, m⟩ := result
      obtain ⟨i, rfl, c, hc, hhead⟩ := tokenLoop_astray h hloop
      rw [returns_token_iff (henter.trans hloop)]
      rintro ⟨token, rs, htoken, -, hruns⟩
      have hmem : c ∈ token := head_of_bufferString htoken hhead (h0 c hc)
      have hrun : token ∈ runs (fun c => decide (c ∈ delim)) s := hruns ▸ List.mem_cons_self
      have hnot := not_sep_of_mem_runs hrun hmem
      exact of_decide_eq_false hnot (hr c hc)

/-- A token behind delimiters that stand in order, up to the delimiter that ends it. -/
theorem tokenLoop_front_ended (b rest : List Byte) {d : Byte} (hr : Forward delim r) (hr0 : NulFree r)
    (hw : ∀ c ∈ w, c ∉ delim) (hw0 : NulFree w) (hne : w ≠ []) (hd : d ∈ delim) (hd0 : d ≠ 0) :
    tokenLoop delim b.length b (r ++ (w ++ d :: rest)) none =
      some (some (b ++ List.replicate r.length 0).length,
        ⟨b ++ List.replicate r.length 0 ++ w ++ [0], rest⟩) := by
  obtain ⟨c, w, rfl⟩ := List.exists_cons_of_ne_nil hne
  rw [List.cons_append, tokenLoop_front hr hr0 (hw c List.mem_cons_self) (hw0 c List.mem_cons_self),
    ← List.cons_append, tokenLoop_ended hw hw0 hne hd hd0]

/-- A token behind delimiters that stand in order, at the end of the string. -/
theorem tokenLoop_front_last (b : List Byte) (hr : Forward delim r) (hr0 : NulFree r) (hw : ∀ c ∈ w, c ∉ delim)
    (hw0 : NulFree w) (hne : w ≠ []) :
    tokenLoop delim b.length b (r ++ (w ++ [0])) none =
      some (some (b ++ List.replicate r.length 0).length,
        ⟨b ++ List.replicate r.length 0 ++ w, [0]⟩) := by
  obtain ⟨c, w, rfl⟩ := List.exists_cons_of_ne_nil hne
  rw [List.cons_append, tokenLoop_front hr hr0 (hw c List.mem_cons_self) (hw0 c List.mem_cons_self),
    ← List.cons_append, tokenLoop_last hw hw0 hne]

/-- The calls return the maximal runs of what is left, and end, exactly when it is tidy. -/
theorem returns_runs_iff (hdelim : NulFree delim) (hs : NulFree s) :
    Returns delim ⟨b, s ++ [0]⟩ (runs (fun c => c ∈ delim) s) ↔ Tidy delim s := by
  induction s using runs_induction (fun c => decide (c ∈ delim)) generalizing b with
  | separators r hr =>
    have hr : ∀ c ∈ r, c ∈ delim := fun c hc => of_decide_eq_true (hr c hc)
    rw [tidy_delimiters hr]
    constructor
    · intro h
      by_contra hne
      by_cases hforward : Forward delim r
      · exact not_returns (tokenLoop_end hforward hs hne fun h0 => hdelim 0 h0 rfl) h
      · exact not_returns_of_astray hr hs hforward h
    · rintro rfl
      rw [runs_nil]
      exact returns_nil
  | last r w hr hne hw =>
    have hr : ∀ c ∈ r, c ∈ delim := fun c hc => of_decide_eq_true (hr c hc)
    have hw' : ∀ c ∈ w, c ∉ delim := fun c hc => of_decide_eq_false (hw c hc)
    rw [tidy_last hr hw' hne, List.append_assoc]
    constructor
    · intro h
      by_contra hforward
      exact not_returns_of_astray hr hs.left hforward h
    · intro hforward
      have hloop := tokenLoop_front_last b hforward hs.left hw'
        hs.right hne
      rw [runs_append_of_forall (fun c hc => decide_eq_true (hr c hc)), runs_of_forall_not hne hw,
        returns_token_iff hloop]
      refine ⟨w, [], ?_, returns_nil, rfl⟩
      rw [Scan.bytes, List.append_assoc, List.drop_left]
      exact bufferString_append_zero hs.right
  | step r w d v hr hne hw hd ih =>
    have hr : ∀ c ∈ r, c ∈ delim := fun c hc => of_decide_eq_true (hr c hc)
    have hw' : ∀ c ∈ w, c ∉ delim := fun c hc => of_decide_eq_false (hw c hc)
    have hd : d ∈ delim := of_decide_eq_true hd
    have hwd := hs.right
    rw [tidy_step hr hw' hne hd, List.append_assoc, List.append_assoc, List.cons_append]
    by_cases hforward : Forward delim r
    · have hloop := tokenLoop_front_ended b (v ++ [0]) hforward
        hs.left hw' hwd.left hne hd (hdelim d hd)
      rw [and_iff_right hforward, ← ih hwd.right.tail, runs_append_of_forall (fun c hc => decide_eq_true (hr c hc)),
        runs_append_append hne hw (decide_eq_true hd), returns_token_iff hloop]
      have htoken : bufferString ((Scan.bytes ⟨b ++ List.replicate r.length 0 ++ w ++ [0], v ++ [0]⟩).drop
          (b ++ List.replicate r.length 0).length) = some w := by
        rw [Scan.bytes, List.append_assoc, List.append_assoc, List.drop_left]
        exact bufferString_append_zero hwd.left
      constructor
      · rintro ⟨token, rs, -, hreturns, heq⟩
        rw [(List.cons.inj heq).2]
        exact hreturns
      · intro hreturns
        exact ⟨w, _, htoken, hreturns, rfl⟩
    · constructor
      · intro h
        exact absurd h (not_returns_of_astray hr hs.left hforward)
      · intro h
        exact absurd h.1 hforward

end exact

/-- The first call gives the static variable its value. -/
theorem tokenised_iff_returns (delim s : Str) : Tokenised delim s ↔
    Returns delim.chars ⟨[], s.chars ++ [0]⟩ (runs (fun c => c ∈ delim.chars) s.chars) := by
  constructor
  · intro h
    obtain ⟨turns, hturns⟩ := h none
    exact ⟨turns, tokens_string.symm.trans hturns⟩
  · rintro ⟨turns, hturns⟩ lastToken
    exact ⟨turns, tokens_string.trans hturns⟩

/-- `strtok` takes a string apart exactly when delimiters are in order wherever a token is looked for. -/
theorem tokenised_iff (delim s : Str) : Tokenised delim s ↔ Tidy delim.chars s.chars :=
  (tokenised_iff_returns delim s).trans (returns_runs_iff delim.nulFree s.nulFree)

/-- The delimiter `/` of the paths: two of them at the end, and the last call reads behind the
terminator. The delimiters ` ,`: a comma before a blank, and the blank comes back in the token. -/
theorem not_tokenised :
    ¬ Tokenised ⟨ascii "/", by decide⟩ ⟨ascii "a//", by decide⟩ ∧
    ¬ Tokenised ⟨ascii " ,", by decide⟩ ⟨ascii "a , b", by decide⟩ := by
  constructor <;> rw [tokenised_iff_returns, returns_runs_iff (by decide) (by decide)] <;> decide

/-! ## One delimiter -/

section single

variable {c : Byte} {r s : List Byte}

theorem forward_singleton (hr : ∀ d ∈ r, d ∈ [c]) : Forward [c] r := by
  induction r with
  | nil => trivial
  | cons d r ih =>
    have hd : d = c := List.mem_singleton.mp (hr d List.mem_cons_self)
    refine ⟨hr d List.mem_cons_self, ?_⟩
    rw [hd, List.dropWhile_cons_of_neg (by simp)]
    exact ih fun x hx => hr x (List.mem_cons_of_mem d hx)

/-- With one delimiter a string is tidy unless it ends in two of them, one before the string counted. -/
theorem tidy_singleton : Tidy [c] s ↔ ¬ EndsTwice c s := by
  induction s using runs_induction (fun d => decide (d ∈ [c])) with
  | separators r hr =>
    have hr : ∀ d ∈ r, d ∈ [c] := fun d hd => of_decide_eq_true (hr d hd)
    have hrc : ∀ d ∈ r, d = c := fun d hd => List.mem_singleton.mp (hr d hd)
    rw [tidy_delimiters hr]
    constructor
    · rintro rfl
      exact not_endsTwice List.not_mem_nil
    · intro h
      by_contra hne
      exact h (endsTwice_of_forall hrc hne)
  | last r w hr hne hw =>
    have hr : ∀ d ∈ r, d ∈ [c] := fun d hd => of_decide_eq_true (hr d hd)
    have hw : ∀ d ∈ w, d ∉ [c] := fun d hd => of_decide_eq_false (hw d hd)
    have hcw : c ∉ w := fun h => hw c h List.mem_cons_self
    rw [tidy_last hr hw hne, endsTwice_front (fun d hd => List.mem_singleton.mp (hr d hd)) hne]
    exact iff_of_true (forward_singleton hr) (not_endsTwice hcw)
  | step r w d v hr hne hw hd ih =>
    have hr : ∀ d ∈ r, d ∈ [c] := fun d hd => of_decide_eq_true (hr d hd)
    have hw : ∀ d ∈ w, d ∉ [c] := fun d hd => of_decide_eq_false (hw d hd)
    have hcw : c ∉ w := fun h => hw c h List.mem_cons_self
    have hd : d ∈ [c] := of_decide_eq_true hd
    have hdc : d = c := List.mem_singleton.mp hd
    have hnil : w ++ c :: v ≠ [] := by simp
    rw [tidy_step hr hw hne hd, and_iff_right (forward_singleton hr), ih, hdc,
      endsTwice_front (fun d hd => List.mem_singleton.mp (hr d hd)) hnil, endsTwice_append hcw hne]

end single

end Util
