import UnedKernel.Lib.Run
import UnedKernel.Tty.LineDiscipline
import UnedKernel.Tty.Terminal

/-! # The line editor the discipline should be

A list of the characters typed since the last carriage return, of which the
newest `size - 1` are kept. The circular buffer holds that list; it goes wrong
where the list lies round the end of the buffer, at the flush, which passes one
pointer, and at a deletion that takes the tail back over the end. -/

namespace Tty
open ByteMem

/-- The line after a character: delivered, shortened, extended, or as it was. -/
def editLine (size : Nat) (line : List Byte) (c : Byte) : List Byte :=
  if c = LD_CARRIAGE_RETURN then []
  else if c = LD_BACKSPACE ∨ c = LD_DEL then line.dropLast
  else if c.toInt < 0 ∨ 27 < c.toInt then newest (size - 1) (line ++ [c])
  else line

/-- What a character delivers: at a carriage return, the line. -/
def delivers (line : List Byte) (c : Byte) : List (List Byte) :=
  if c = LD_CARRIAGE_RETURN then [line] else []

/-- The lines among the events. -/
def flushed (events : List LdEvent) : List (List Byte) :=
  events.filterMap fun e => match e with
    | .flush chars => some chars
    | .echo _ => none

/-- Head and tail are indices of the buffer. -/
def LineDiscipline.InRange (ld : LineDiscipline) : Prop :=
  0 ≤ ld.head ∧ ld.head < ld.size ∧ 0 ≤ ld.tail ∧ ld.tail < ld.size

/-- A discipline and the line typed into it. -/
abbrev Session := LineDiscipline × List Byte

namespace Session
open LineDiscipline

/-- The session after a character. -/
def Next (s : Session) (c : Byte) (t : Session) : Prop :=
  (∃ events, s.1.read c = some (t.1, events)) ∧ t.2 = editLine s.1.size.toNat s.2 c

/-- The character is taken without leaving the buffer, head and tail stay
indices, and the line is delivered exactly at a carriage return. -/
def Served (s : Session) (c : Byte) : Prop :=
  ∃ ld events, s.1.read c = some (ld, events) ∧ ld.InRange ∧ flushed events = delivers s.2 c

/-- When the code takes a character right: at a carriage return the line does
not lie round the end of the buffer, and the sum that measures it is an `int`; at
a deletion the tail is not at the start of the buffer while the head is elsewhere;
and at DEL there is an echo callback. -/
def Meets (s : Session) (c : Byte) : Prop :=
  (c = LD_CARRIAGE_RETURN → ¬ (0 < s.1.tail ∧ s.1.tail < s.1.head) ∧
    s.1.tail - s.1.head + s.1.size ≤ INT_MAX) ∧
  (c = LD_BACKSPACE ∨ c = LD_DEL → ¬ (s.1.tail = 0 ∧ s.1.head ≠ 0)) ∧
  (c = LD_DEL → s.1.echoCb = true)

/-- The buffer holds the line typed. -/
structure Holds (s : Session) : Prop where
  valid : s.1.valid = 1
  mode : s.1.mode = LINE_DISCIPLINE_MODE_CANONICAL
  ring : ∃ n h t : Nat, s.1.size = n ∧ s.1.head = h ∧ s.1.tail = t ∧ 2 ≤ n ∧
    Ring.Holds s.1.buffer n h t s.2

variable {ld : LineDiscipline} {line : List Byte} {c : Byte}

/-! ## The operations on the buffer -/

theorem natCast_tmod_succ (a n : Nat) : ((a : Int) + 1).tmod n = ((a + 1) % n : Nat) := rfl

/-- An insertion adds the character and keeps the newest `size - 1`. -/
theorem Holds.insert (h : Holds (ld, line)) (hc : c ≠ LD_NULL) :
    ∃ ld', ld.insert c = some ld' ∧ ld'.echo = ld.echo ∧ ld'.echoCb = ld.echoCb ∧
      ld'.size = ld.size ∧ Holds (ld', newest (ld.size.toNat - 1) (line ++ [c])) := by
  obtain ⟨n, i, j, hn, hi, hj, htwo, hring⟩ := h.ring
  have hvalid : ld.valid ≠ 0 := by
    rw [h.valid]
    decide
  simp only at hn hi hj hring
  have hjn := hring.tail_lt
  unfold LineDiscipline.insert
  rw [if_neg hvalid, if_neg hc, hn, hi, hj, if_neg (by omega)]
  refine ⟨_, rfl, rfl, rfl, rfl, h.valid, h.mode, ?_⟩
  rw [Int.toNat_natCast, Int.toNat_natCast, natCast_tmod_succ, natCast_tmod_succ]
  have hput := hring.put (c := c)
  by_cases hmeet : (j + 1) % n = i
  · rw [if_pos hmeet] at hput
    exact ⟨n, (i + 1) % n, (j + 1) % n, rfl, if_pos (congrArg Nat.cast hmeet), rfl, htwo, hput⟩
  · rw [if_neg hmeet] at hput
    exact ⟨n, i, (j + 1) % n, rfl, if_neg fun heq => hmeet (Int.ofNat_inj.mp heq), rfl, htwo, hput⟩

/-- A deletion where the tail need not go back over the end. -/
theorem Holds.deleteLast (h : Holds (ld, line)) (hwrap : ¬ (ld.tail = 0 ∧ ld.head ≠ 0)) :
    Holds (ld.deleteLast, line.dropLast) := by
  obtain ⟨n, i, j, hn, hi, hj, htwo, hring⟩ := h.ring
  have hvalid : ld.valid ≠ 0 := by
    rw [h.valid]
    decide
  simp only at hn hi hj hring
  have hjn := hring.tail_lt
  unfold LineDiscipline.deleteLast
  rw [if_neg hvalid]
  by_cases hempty : j = i
  · have hnil := hring.tail_eq_head_iff.mp hempty
    rw [if_pos (by rw [hi, hj, hempty])]
    rw [hnil] at h ⊢
    exact h
  · rw [if_neg (by omega)]
    have hpos : 0 < j := by omega
    refine ⟨h.valid, h.mode, n, i, j - 1, hn, hi, ?_, htwo, ?_⟩
    · show (ld.tail - 1).tmod ld.size = (j - 1 : Nat)
      rw [hn, hj, Int.tmod_eq_of_lt (by omega) (by omega)]
      omega
    · have hpop := hring.pop (fun hnil => hempty (hring.tail_eq_head_iff.mpr hnil))
      rwa [show j + n - 1 = j - 1 + n by omega, Nat.add_mod_right,
        Nat.mod_eq_of_lt (by omega)] at hpop

/-- A deletion that takes the tail back over the end leaves it at -1. -/
theorem Holds.deleteLast_wraps (h : Holds (ld, line)) (ht : ld.tail = 0) (hh : ld.head ≠ 0) :
    ld.deleteLast.tail = -1 := by
  obtain ⟨n, i, j, hn, hi, hj, htwo, hring⟩ := h.ring
  have hvalid : ld.valid ≠ 0 := by
    rw [h.valid]
    decide
  simp only at hn
  unfold LineDiscipline.deleteLast
  rw [if_neg hvalid, if_neg (by rw [ht]; exact fun heq => hh heq.symm)]
  show (ld.tail - 1).tmod ld.size = -1
  rw [ht, hn, show (0 : Int) - 1 = -(1 : Nat) from rfl, Int.neg_tmod, ← Int.ofNat_tmod,
    Nat.mod_eq_of_lt (by omega)]
  rfl

/-- A flush delivers the line unless it lies round the end or is measured
beyond `int`. -/
theorem Holds.forceFlush (h : Holds (ld, line)) :
    (¬ (0 < ld.tail ∧ ld.tail < ld.head) ∧ ld.tail - ld.head + ld.size ≤ INT_MAX →
      ld.forceFlush = some ({ ld with head := ld.tail }, [.flush line])) ∧
    (¬ (¬ (0 < ld.tail ∧ ld.tail < ld.head) ∧ ld.tail - ld.head + ld.size ≤ INT_MAX) →
      ld.forceFlush = none) := by
  obtain ⟨n, i, j, hn, hi, hj, htwo, hring⟩ := h.ring
  simp only at hn hi hj hring
  have hin := hring.head_lt
  have hcount : ((j : Int) - i + n).tmod n = line.length := by
    rw [show (j : Int) - i + n = ((j + n - i : Nat) : Int) by omega, ← Int.ofNat_tmod,
      hring.length_eq]
  have hfit := hring.contiguous_iff
  unfold LineDiscipline.forceFlush
  rw [if_neg (by rw [h.valid]; decide), if_pos h.mode, hn, hi, hj]
  simp only [hcount]
  constructor
  · rintro ⟨hwrap, hint⟩
    have hpiece := hfit.mpr (by omega)
    rw [if_neg (by omega), if_neg (by omega), Int.toNat_natCast, Int.toNat_natCast,
      hring.slice hpiece]
  · intro hbad
    by_cases hint : INT_MAX < (j : Int) - i + n
    · rw [if_pos hint]
    · have hover := mt hfit.mp (fun hno => hbad ⟨fun hw => hno (by omega), by omega⟩)
      rw [if_neg hint, if_pos (by omega)]

theorem Holds.inRange (h : Holds (ld, line)) : ld.InRange := by
  obtain ⟨n, i, j, hn, hi, hj, -, hring⟩ := h.ring
  simp only at hn hi hj
  have hin := hring.head_lt
  have hjn := hring.tail_lt
  unfold LineDiscipline.InRange
  rw [hn, hi, hj]
  omega

/-- After a flush the head is where the tail is, and the line is empty. -/
theorem Holds.emptied (h : Holds (ld, line)) : Holds ({ ld with head := ld.tail }, []) := by
  obtain ⟨n, i, j, hn, hi, hj, htwo, hring⟩ := h.ring
  exact ⟨h.valid, h.mode, n, j, j, hn, hj, hj, htwo, .nil hring.tail_lt⟩

/-! ## One character -/

/-- The control characters insert nothing, and only two of them act. -/
theorem defaultLdTable_control (k : Fin 28) :
    (defaultLdTable.getD k (plain .ignore)).inserti = [LD_NULL, LD_NULL, LD_NULL, LD_NULL] ∧
    ((defaultLdTable.getD k (plain .ignore)).action = .erase ↔ k = 8) ∧
    ((defaultLdTable.getD k (plain .ignore)).action = .cret ↔ k = 13) := by
  revert k
  decide

/-- What is neither inserted nor DEL is a character of the table. -/
theorem toNat_lt_of_not_inserts (h : ¬ Inserts c) (hdel : c ≠ LD_DEL) : c.toNat < 28 := by
  have hrange : 0 ≤ c.toInt ∧ c.toInt ≤ 27 := by
    by_contra hout
    exact h ⟨hdel, by omega⟩
  have hcond := BitVec.toInt_eq_toNat_cond c
  have hlt := c.isLt
  split at hcond <;> omega

theorem inserts_ne {d : Byte} (h : Inserts c) (hd : ¬ Inserts d) : c ≠ d := by
  rintro rfl
  exact hd h

theorem flushed_echoes (echo : List Byte) (events : List LdEvent) :
    flushed (echo.map .echo ++ events) = flushed events := by
  simp [flushed]

theorem flushed_echo_if (p : Prop) [Decidable p] (echo : List Byte) (events : List LdEvent) :
    flushed ((if p then echo.map .echo else []) ++ events) = flushed events := by
  split
  · exact flushed_echoes echo events
  · rfl

theorem Holds.insertAll_null (h : Holds (ld, line)) (k : Nat) :
    ld.insertAll (List.replicate k LD_NULL) = some ld := by
  have hvalid : ld.valid ≠ 0 := by
    rw [h.valid]
    decide
  induction k with
  | zero => rfl
  | succ k ih =>
    rw [List.replicate_succ, insertAll, LineDiscipline.insert, if_neg hvalid, if_pos rfl]
    exact ih

theorem Holds.read_eq (h : Holds (ld, line)) : ld.read c = ld.apply c := by
  unfold LineDiscipline.read
  rw [if_neg (by rw [h.valid]; decide), if_neg (by rw [h.mode]; decide), if_pos h.mode]

/-- A control character does what its entry of the table says. -/
theorem Holds.apply_control (h : Holds (ld, line)) (hc : ¬ Inserts c) (hdel : c ≠ LD_DEL) :
    ld.apply c = (ld.runAction (defaultLdTable.getD c.toNat (plain .ignore)).action).map fun r =>
      (r.1, (if ld.Echoes then ((defaultLdTable.getD c.toNat (plain .ignore)).output.takeWhile
        (· ≠ LD_NULL)).map .echo else []) ++ r.2) := by
  have hlt := toNat_lt_of_not_inserts hc hdel
  unfold LineDiscipline.apply
  rw [if_neg (by rw [h.valid]; decide), if_neg hc, if_neg hdel]
  simp only
  rw [(defaultLdTable_control ⟨c.toNat, hlt⟩).1]
  have hnull := h.insertAll_null 4
  rw [show List.replicate 4 LD_NULL = [LD_NULL, LD_NULL, LD_NULL, LD_NULL] from rfl] at hnull
  rw [hnull]
  rfl

/-- Only backspace and the carriage return act. -/
theorem runAction_other {action : LdAction} (herase : action ≠ .erase) (hcret : action ≠ .cret) :
    ld.runAction action = some (ld, []) := by
  cases action <;> first | rfl | contradiction

theorem fin_toNat_eq_iff {d : Byte} {k : Fin 28} (hlt : c.toNat < 28) (hd : d.toNat = k) :
    (⟨c.toNat, hlt⟩ : Fin 28) = k ↔ c = d := by
  rw [Fin.ext_iff, ← hd]
  exact ⟨BitVec.eq_of_toNat_eq, congrArg BitVec.toNat⟩

/-- What an entry of the table does, in terms of the character. -/
theorem action_iff (hins : ¬ Inserts c) (hdel : c ≠ LD_DEL) :
    ((defaultLdTable.getD c.toNat (plain .ignore)).action = .erase ↔ c = LD_BACKSPACE) ∧
    ((defaultLdTable.getD c.toNat (plain .ignore)).action = .cret ↔ c = LD_CARRIAGE_RETURN) := by
  have hlt := toNat_lt_of_not_inserts hins hdel
  obtain ⟨-, herase, hcret⟩ := defaultLdTable_control ⟨c.toNat, hlt⟩
  exact ⟨herase.trans (fin_toNat_eq_iff hlt rfl), hcret.trans (fin_toNat_eq_iff hlt rfl)⟩

/-- A character that meets the condition is taken as the editor takes it. -/
theorem Holds.read (h : Holds (ld, line)) (hmeets : Meets (ld, line) c) :
    ∃ ld' events, ld.read c = some (ld', events) ∧
      Holds (ld', editLine ld.size.toNat line c) ∧ flushed events = delivers line c := by
  rw [h.read_eq]
  by_cases hins : Inserts c
  · have hnul : c ≠ LD_NULL := inserts_ne hins (by decide)
    have hcr : c ≠ LD_CARRIAGE_RETURN := inserts_ne hins (by decide)
    have hbs : c ≠ LD_BACKSPACE := inserts_ne hins (by decide)
    obtain ⟨ld', hget, -, -, -, hheld⟩ := h.insert hnul
    refine ⟨ld', if ld.Echoes then [.echo c] else [], ?_, ?_, ?_⟩
    · unfold LineDiscipline.apply
      rw [if_neg (by rw [h.valid]; decide), if_pos hins, hget]
      rfl
    · unfold editLine
      rw [if_neg hcr, if_neg (not_or.mpr ⟨hbs, hins.1⟩), if_pos hins.2]
      exact hheld
    · have hecho := flushed_echo_if ld.Echoes [c] []
      rw [List.append_nil] at hecho
      unfold delivers
      rw [if_neg hcr]
      exact hecho
  · by_cases hdel : c = LD_DEL
    · subst hdel
      refine ⟨ld.deleteLast, [.echo LD_BACKSPACE, .echo space, .echo LD_BACKSPACE], ?_, ?_, rfl⟩
      · unfold LineDiscipline.apply
        rw [if_neg (by rw [h.valid]; decide), if_neg hins, if_pos rfl, if_pos (hmeets.2.2 rfl)]
      · exact h.deleteLast (hmeets.2.1 (.inr rfl))
    · obtain ⟨herase, hcret⟩ := action_iff hins hdel
      have hout : ¬ (c.toInt < 0 ∨ 27 < c.toInt) := fun hout => hins ⟨hdel, hout⟩
      rw [h.apply_control hins hdel]
      by_cases hcr : c = LD_CARRIAGE_RETURN
      · rw [hcret.mpr hcr]
        simp only [runAction]
        rw [h.forceFlush.1 (hmeets.1 hcr)]
        refine ⟨_, _, rfl, ?_, ?_⟩
        · unfold editLine
          rw [if_pos hcr]
          exact h.emptied
        · unfold delivers
          rw [if_pos hcr]
          exact flushed_echo_if _ _ _
      · have hdelivers : delivers line c = [] := if_neg hcr
        rw [hdelivers]
        by_cases hbs : c = LD_BACKSPACE
        · rw [herase.mpr hbs]
          refine ⟨_, _, rfl, ?_, flushed_echo_if _ _ _⟩
          unfold editLine
          rw [if_neg hcr, if_pos (.inl hbs)]
          exact h.deleteLast (hmeets.2.1 (.inl hbs))
        · rw [runAction_other (mt herase.mp hbs) (mt hcret.mp hcr)]
          refine ⟨_, _, rfl, ?_, flushed_echo_if _ _ _⟩
          unfold editLine
          rw [if_neg hcr, if_neg (not_or.mpr ⟨hbs, hdel⟩), if_neg hout]
          exact h

/-- A character that fails the condition is not served. -/
theorem Holds.not_served (h : Holds (ld, line)) (hmeets : ¬ Meets (ld, line) c) :
    ¬ Served (ld, line) c := by
  rintro ⟨ld', events, hread, hrange, -⟩
  rw [h.read_eq] at hread
  refine hmeets ⟨fun hcr => ?_, fun hdelete => ?_, fun hdel => ?_⟩
  · have hins : ¬ Inserts c := hcr ▸ by decide
    have hdel : c ≠ LD_DEL := hcr ▸ by decide
    rw [h.apply_control hins hdel, (action_iff hins hdel).2.mpr hcr] at hread
    by_contra hbad
    simp only [runAction] at hread
    rw [h.forceFlush.2 hbad] at hread
    cases hread
  · rintro ⟨ht, hh⟩
    -- the tail goes to -1, whichever of the two characters deletes
    have htail := h.deleteLast_wraps ht hh
    have hdeleted : ld'.tail = ld.deleteLast.tail := by
      rcases hdelete with hbs | hdel
      · have hins : ¬ Inserts c := hbs ▸ by decide
        have hdel : c ≠ LD_DEL := hbs ▸ by decide
        rw [h.apply_control hins hdel, (action_iff hins hdel).1.mpr hbs] at hread
        cases hread
        rfl
      · subst hdel
        unfold LineDiscipline.apply at hread
        rw [if_neg (by rw [h.valid]; decide), if_neg (by decide), if_pos rfl] at hread
        split at hread
        · cases hread
          rfl
        · cases hread
    have hneg := hrange.2.2.1
    rw [hdeleted, htail] at hneg
    exact absurd hneg (by decide)
  · subst hdel
    unfold LineDiscipline.apply at hread
    rw [if_neg (by rw [h.valid]; decide), if_neg (by decide), if_pos rfl] at hread
    split at hread
    · assumption
    · cases hread

theorem Holds.served_iff {s : Session} (h : Holds s) (c : Byte) : Served s c ↔ Meets s c := by
  constructor
  · intro hserved
    by_contra hmeets
    exact h.not_served hmeets hserved
  · intro hmeets
    obtain ⟨ld', events, hread, hheld, hflushed⟩ := h.read hmeets
    exact ⟨ld', events, hread, hheld.inRange, hflushed⟩

theorem Holds.next {s t : Session} (h : Holds s) (hserved : Served s c) (hnext : Next s c t) :
    Holds t := by
  obtain ⟨ld', events, hread, hheld, -⟩ := h.read ((h.served_iff c).mp hserved)
  obtain ⟨⟨events', hread'⟩, hline⟩ := hnext
  have heq : t.1 = ld' := congrArg Prod.fst (Option.some.inj (hread'.symm.trans hread))
  have ht : t = (ld', editLine s.1.size.toNat s.2 c) := Prod.ext heq hline
  rw [ht]
  exact hheld

/-- A new discipline, with nothing typed. -/
theorem holds_create {size echo : Int} {echoCb : Bool} {fresh : Nat → Byte} (hsize : 2 ≤ size) :
    Holds (create LINE_DISCIPLINE_MODE_CANONICAL echo size echoCb fresh, []) where
  valid := rfl
  mode := rfl
  ring := by
    obtain ⟨n, rfl⟩ := Int.eq_ofNat_of_zero_le (Int.le_trans (by decide) hsize)
    exact ⟨n, 0, 0, rfl, rfl, rfl, by omega, .nil (by omega)⟩

/-- Every character of a session in canonical mode is taken as the line editor
takes it exactly when every character meets the condition. -/
theorem lines_delivered_iff {size : Int} (hsize : 2 ≤ size) (echo : Int) (echoCb : Bool)
    (fresh : Nat → Byte) (typed : List Byte) :
    Run.Throughout Next Served (create LINE_DISCIPLINE_MODE_CANONICAL echo size echoCb fresh, [])
      typed ↔
    Run.Throughout Next Meets (create LINE_DISCIPLINE_MODE_CANONICAL echo size echoCb fresh, [])
      typed :=
  Run.throughout_iff Holds (fun _ c h => h.served_iff c) (fun _ _ _ h hs hn => h.next hs hn)
    (holds_create hsize) typed

/-! ## A discipline of two cells -/

/-- A discipline of two cells with an echo callback, before anything is typed. -/
def twoCells : Session :=
  (create LINE_DISCIPLINE_MODE_CANONICAL LINE_DISCIPLINE_MODE_ECHO_ON 2 true fun _ => 0, [])

/-- `a` and a carriage return are served. -/
theorem lines_delivered_two :
    Run.Throughout Next Served twoCells [0x61#8, LD_CARRIAGE_RETURN] := by
  refine (lines_delivered_iff (by decide) _ true (fun _ => 0) _).mpr
    ⟨⟨nofun, fun hc => absurd hc (by decide), nofun⟩, ?_⟩
  rintro ⟨ld, line⟩ ⟨⟨events, hread⟩, hline⟩
  cases hread
  cases hline
  exact ⟨⟨fun _ => by decide, fun hc => absurd hc (by decide), nofun⟩, fun _ _ => trivial⟩

/-- After `a` and a carriage return the head stands at 1; `b` brings the tail to
0, and the backspace after it takes the tail to -1. -/
theorem not_lines_delivered :
    ¬ ∀ (size echo : Int) (echoCb : Bool) (fresh : Nat → Byte) (typed : List Byte), 2 ≤ size →
      Run.Throughout Next Served
        (create LINE_DISCIPLINE_MODE_CANONICAL echo size echoCb fresh, []) typed := by
  intro h
  have hall := h 2 LINE_DISCIPLINE_MODE_ECHO_ON true (fun _ => 0)
    [0x61#8, LD_CARRIAGE_RETURN, 0x62#8, LD_BACKSPACE] (by decide)
  have hlast := ((hall.2 (_, _) ⟨⟨_, rfl⟩, rfl⟩).2 (_, _) ⟨⟨_, rfl⟩, rfl⟩).2 (_, _)
    ⟨⟨_, rfl⟩, rfl⟩
  obtain ⟨ld, events, hread, hrange, -⟩ := hlast.1
  cases hread
  exact absurd hrange.2.2.1 (by decide)

end Session
end Tty
