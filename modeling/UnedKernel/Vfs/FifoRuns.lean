import UnedKernel.Lib.Ring
import UnedKernel.Lib.Run
import UnedKernel.Vfs.FileCalls

/-! # What a queue accepts and delivers

`fifo_dd_write` reports its whole buffer as written, while `fifo_put` drops the
bytes a full queue has no room for. A queue delivers what it reports as accepted
exactly as long as every write finds room. -/

namespace Vfs
open ByteMem Word

namespace Fifo

/-- The number of bytes in the queue, without the 64-bit sum of `fifo_size`. -/
def unread (f : Fifo) : Nat := (f.tail + f.size - f.head) % f.size

/-- Where the sum in `fifo_size` fits into 64 bits, for `k` bytes from `head` on. -/
def SumFits (size head k : Nat) : Prop := head + k < size → k + size < 18446744073709551616

instance (size head k : Nat) : Decidable (SumFits size head k) := inferInstanceAs (Decidable (_ → _))

/-- The queue holds the list `l`. -/
def Holds (f : Fifo) (l : List Byte) : Prop := Ring.Holds f.buf f.size f.head f.tail l

variable {f : Fifo} {l : List Byte} {c : Byte}

theorem Holds.unread_eq (h : f.Holds l) : f.unread = l.length := Ring.Holds.length_eq h

/-- `fifo_size` counts the bytes unless its sum overflows. -/
theorem Holds.fifoSize_iff (h : f.Holds l) :
    f.fifoSize = l.length ↔ SumFits f.size f.head l.length := by
  have hlen := Ring.Holds.len_lt h
  have hhead := Ring.Holds.head_lt h
  have hsize := f.size_lt
  unfold fifoSize SumFits
  rcases Ring.Holds.tail_cases h with ⟨hlt, htail⟩ | ⟨hge, htail⟩
  · rw [htail, sub64_of_le (Nat.le_add_right _ _) (by omega), Nat.add_sub_cancel_left]
    by_cases hfits : l.length + f.size < 18446744073709551616
    · rw [u64_of_lt hfits, Nat.add_mod_right, Nat.mod_eq_of_lt hlen]
      exact iff_of_true rfl fun _ => hfits
    · have hover : u64 (l.length + f.size) = l.length + f.size - 18446744073709551616 := by
        unfold u64
        rw [Nat.mod_eq_sub_mod (by omega), Nat.mod_eq_of_lt (by omega)]
      rw [hover, Nat.mod_eq_of_lt (by omega)]
      exact iff_of_false (by omega) fun hall => hfits (hall hlt)
  · have hsub : u64 (sub64 f.tail f.head + f.size) = l.length := by
      unfold sub64 u64
      omega
    rw [hsub, Nat.mod_eq_of_lt hlen]
    exact iff_of_true rfl fun hno => absurd hno (by omega)

theorem fifoSize_lt (hsize : 0 < f.size) : f.fifoSize < f.size := Nat.mod_lt _ hsize

theorem Holds.put (h : f.Holds l) (hroom : l.length + 1 < f.size) :
    (f.put c).Holds (l ++ [c]) ∧ (f.put c).size = f.size ∧ (f.put c).head = f.head := by
  have hne : ¬ f.head = (f.tail + 1) % f.size := by
    intro heq
    have hfull := (Ring.Holds.push_meets_iff h).mp heq.symm
    omega
  unfold Fifo.put
  rw [if_neg hne]
  exact ⟨Ring.Holds.push h hroom, rfl, rfl⟩

/-- A write for which there is room. -/
theorem Holds.ddWrite {n : Nat} (h : f.Holds l) (hroom : l.length + n < f.size) (buffer : Bytes) :
    (f.ddWrite n buffer).2.Holds (l ++ (List.range n).map buffer) ∧
      (f.ddWrite n buffer).2.size = f.size ∧ (f.ddWrite n buffer).2.head = f.head := by
  induction n with
  | zero =>
    rw [List.range_zero, List.map_nil, List.append_nil]
    exact ⟨h, rfl, rfl⟩
  | succ n ih =>
    obtain ⟨hheld, hsize, hhead⟩ := ih (by omega)
    have hlen : (l ++ (List.range n).map buffer).length = l.length + n := by simp
    have hput := hheld.put (c := buffer n) (by rw [hlen, hsize]; omega)
    have hnext : (f.ddWrite (n + 1) buffer).2 = (f.ddWrite n buffer).2.put (buffer n) := by
      unfold Fifo.ddWrite
      rw [List.range_succ, List.foldl_concat]
    rw [hnext, List.range_succ, List.map_append, List.map_singleton, ← List.append_assoc]
    exact ⟨hput.1, hput.2.1.trans hsize, hput.2.2.trans hhead⟩

theorem size_put : (f.put c).size = f.size := by
  unfold Fifo.put
  split <;> rfl

theorem size_ddWrite (n : Nat) (buffer : Bytes) : (f.ddWrite n buffer).2.size = f.size := by
  unfold Fifo.ddWrite
  induction List.range n generalizing f with
  | nil => rfl
  | cons i is ih => rw [List.foldl_cons, ih, size_put]

theorem Holds.get (h : f.Holds (c :: l)) :
    f.get.1 = c ∧ f.get.2.Holds l ∧ f.get.2.size = f.size ∧
      f.get.2.head = (f.head + 1) % f.size := by
  have hne : ¬ f.head = f.tail := fun heq =>
    absurd ((Ring.Holds.tail_eq_head_iff h).mp heq.symm) (List.cons_ne_nil c l)
  obtain ⟨hget, hrest⟩ := Ring.Holds.shift h
  unfold Fifo.get
  rw [if_neg hne]
  exact ⟨hget, hrest, rfl, rfl⟩

theorem map_range_update (buffer : Bytes) (i : Nat) :
    (List.range (i + 1)).map (Function.update buffer i c) = (List.range i).map buffer ++ [c] := by
  rw [List.range_succ, List.map_append, List.map_singleton, Function.update_self]
  congr 1
  apply List.map_congr_left
  intro j hj
  exact Function.update_of_ne (Nat.ne_of_lt (List.mem_range.mp hj)) _ _

/-- The loop of a read, from byte `i` of the buffer on. -/
theorem Holds.ddReadFrom {size i : Nat} (h : f.Holds l) (hi : i ≤ size) (buffer : Bytes) :
    ∃ buffer' f', ddReadFrom size l.length i 0 buffer f = (i + min (size - i) l.length, buffer', f') ∧
      (List.range (i + min (size - i) l.length)).map buffer' =
        (List.range i).map buffer ++ l.take (size - i) ∧
      f'.Holds (l.drop (size - i)) ∧ f'.size = f.size ∧
      f'.head = (f.head + min (size - i) l.length) % f.size := by
  induction l generalizing i buffer f with
  | nil =>
    refine ⟨buffer, f, ?_, ?_, ?_, rfl, ?_⟩
    · rw [List.length_nil, Nat.min_zero]
      rfl
    · simp
    · rw [List.drop_nil]
      exact h
    · rw [List.length_nil, Nat.min_zero, Nat.add_zero, Nat.mod_eq_of_lt (Ring.Holds.head_lt h)]
  | cons c l ih =>
    rw [List.length_cons, Fifo.ddReadFrom]
    rcases Nat.lt_or_ge i size with hlt | hge
    · obtain ⟨hget, hrest, hsize, hhead⟩ := h.get
      obtain ⟨buffer', f', hloop, hread, hheld, hsize', hhead'⟩ :=
        ih hrest hlt (Function.update buffer i c)
      have hleft : size - i = size - (i + 1) + 1 := by omega
      have hcount : i + min (size - i) (l.length + 1) = i + 1 + min (size - (i + 1)) l.length := by
        omega
      rw [if_pos hlt, if_neg (Nat.lt_irrefl 0), hget, hcount, hleft]
      refine ⟨buffer', f', hloop, ?_, hheld, hsize'.trans hsize, ?_⟩
      · rw [hread, map_range_update, List.append_assoc]
        rfl
      · rw [hhead', hsize, hhead, Nat.mod_add_mod, ← hleft]
        congr 1
        omega
    · rw [if_neg (by omega), Nat.sub_eq_zero_of_le hge, Nat.zero_min]
      refine ⟨buffer, f, rfl, ?_, h, rfl, ?_⟩
      · rw [List.take_zero, List.append_nil]
        rfl
      · rw [Nat.add_zero, Nat.mod_eq_of_lt (Ring.Holds.head_lt h)]

/-- A read with no bytes to skip takes the first bytes of the queue. -/
theorem Holds.ddRead (h : f.Holds l) (hsum : SumFits f.size f.head l.length) (size : Nat)
    (buffer : Bytes) :
    ∃ buffer' f', f.ddRead size 0 buffer = (min size l.length, buffer', f') ∧
      (List.range (min size l.length)).map buffer' = l.take size ∧ f'.Holds (l.drop size) ∧
      f'.size = f.size ∧ f'.head = (f.head + min size l.length) % f.size := by
  obtain ⟨buffer', f', hloop, hread, hheld, hsize, hhead⟩ :=
    h.ddReadFrom (Nat.zero_le size) buffer
  rw [Nat.zero_add, Nat.sub_zero] at hloop hread
  refine ⟨buffer', f', ?_, hread, hheld, hsize, hhead⟩
  unfold Fifo.ddRead
  rw [h.fifoSize_iff.mpr hsum, hloop]

end Fifo

/-! ## Runs -/

/-- A call on a queue. -/
inductive FifoCall where
  | write (size : Nat) (buffer : Bytes)
  | read (size : Nat) (buffer : Bytes)

/-- A queue, the bytes its writes have reported as written, and those its reads have given. -/
structure FifoTraffic where
  fifo : Fifo
  accepted : List Byte
  delivered : List Byte

namespace FifoTraffic
open Fifo

def step (s : FifoTraffic) : FifoCall → FifoTraffic
  | .write size buffer =>
    let (r, fifo) := s.fifo.ddWrite size buffer
    { s with fifo, accepted := s.accepted ++ (List.range r).map buffer }
  | .read size buffer =>
    let (r, buffer, fifo) := s.fifo.ddRead size 0 buffer
    { s with fifo, delivered := s.delivered ++ (List.range r).map buffer }

abbrev Next (s : FifoTraffic) (call : FifoCall) (t : FifoTraffic) : Prop := some (s.step call) = some t

/-- After a call what has been delivered is a prefix of what was accepted, and
`fifo_size` is the length of the rest. -/
def Served (s : FifoTraffic) (call : FifoCall) : Prop :=
  (s.step call).delivered <+: (s.step call).accepted ∧
    (s.step call).fifo.fifoSize + (s.step call).delivered.length = (s.step call).accepted.length

/-- When a call is served: a write finds room for its whole buffer, and the sum in
`fifo_size` stays below 64 bits, as it does in every queue of up to 2^63 cells. -/
def Meets (s : FifoTraffic) : FifoCall → Prop
  | .write size _ => s.fifo.unread + size < s.fifo.size ∧
      SumFits s.fifo.size s.fifo.head (s.fifo.unread + size)
  | .read size _ =>
      SumFits s.fifo.size ((s.fifo.head + min size s.fifo.unread) % s.fifo.size)
        (s.fifo.unread - min size s.fifo.unread)

instance (s : FifoTraffic) : (call : FifoCall) → Decidable (Meets s call)
  | .write _ _ => inferInstanceAs (Decidable (_ ∧ _))
  | .read _ _ => inferInstanceAs (Decidable (SumFits _ _ _))

/-- The queue holds what was accepted and not delivered. -/
structure Holds (s : FifoTraffic) (l : List Byte) : Prop where
  ring : s.fifo.Holds l
  sum : SumFits s.fifo.size s.fifo.head l.length
  accepted : s.accepted = s.delivered ++ l

variable {s t : FifoTraffic} {l : List Byte} {call : FifoCall}

theorem Holds.served (h : Holds s l) :
    s.delivered <+: s.accepted ∧ s.fifo.fifoSize + s.delivered.length = s.accepted.length := by
  rw [h.accepted, h.ring.fifoSize_iff.mpr h.sum, List.length_append, Nat.add_comm]
  exact ⟨List.prefix_append _ _, rfl⟩

theorem sumFits_of_sizes {fifo : Fifo} {accepted delivered : List Byte} (hring : fifo.Holds l)
    (haccepted : accepted = delivered ++ l)
    (hsize : fifo.fifoSize + delivered.length = accepted.length) :
    SumFits fifo.size fifo.head l.length := by
  rw [haccepted, List.length_append] at hsize
  exact hring.fifoSize_iff.mp (by omega)

/-- A call is served exactly when it meets the condition, and then the queue holds on. -/
theorem Holds.step (h : Holds s l) (call : FifoCall) :
    (Served s call ↔ Meets s call) ∧ (Meets s call → ∃ l', Holds (s.step call) l') := by
  have hunread := h.ring.unread_eq
  cases call with
  | write size buffer =>
    have hkeep (hmeets : Meets s (.write size buffer)) :
        Holds (s.step (.write size buffer)) (l ++ (List.range size).map buffer) := by
      obtain ⟨hroom, hsum⟩ := hmeets
      rw [hunread] at hroom hsum
      obtain ⟨hring, hsize, hhead⟩ := h.ring.ddWrite hroom buffer
      refine ⟨hring, ?_, ?_⟩
      · show SumFits (s.fifo.ddWrite size buffer).2.size (s.fifo.ddWrite size buffer).2.head _
        rw [hsize, hhead, List.length_append, List.length_map, List.length_range]
        exact hsum
      · show s.accepted ++ (List.range size).map buffer = s.delivered ++ _
        rw [h.accepted, List.append_assoc]
    refine ⟨⟨?_, fun hmeets => (hkeep hmeets).served⟩, fun hmeets => ⟨_, hkeep hmeets⟩⟩
    intro ⟨_, hcount⟩
    -- the size of a queue is below its number of cells, so what was reported fits
    have hcount' : (s.fifo.ddWrite size buffer).2.fifoSize + s.delivered.length =
        (s.accepted ++ (List.range size).map buffer).length := hcount
    have hlt := fifoSize_lt (f := (s.fifo.ddWrite size buffer).2)
      (by rw [size_ddWrite]; exact Nat.zero_lt_of_lt (Ring.Holds.head_lt h.ring))
    rw [size_ddWrite] at hlt
    rw [h.accepted, List.length_append, List.length_append, List.length_map, List.length_range]
      at hcount'
    have hroom : l.length + size < s.fifo.size := by omega
    obtain ⟨hring, hsize, hhead⟩ := h.ring.ddWrite hroom buffer
    have hsum := sumFits_of_sizes hring (rfl : s.delivered ++ _ = _) (by
      rw [List.length_append, List.length_append, List.length_map, List.length_range]
      omega)
    rw [hsize, hhead, List.length_append, List.length_map, List.length_range] at hsum
    exact ⟨hunread.symm ▸ hroom, hunread.symm ▸ hsum⟩
  | read size buffer =>
    obtain ⟨buffer', f', hread, hbytes, hring, hsize, hhead⟩ := h.ring.ddRead h.sum size buffer
    have hstep : s.step (.read size buffer) =
        { s with fifo := f', delivered := s.delivered ++ l.take size } := by
      unfold FifoTraffic.step
      simp only [hread, hbytes]
    have haccepted : s.accepted = s.delivered ++ l.take size ++ l.drop size := by
      rw [List.append_assoc, List.take_append_drop]
      exact h.accepted
    have hmeets : Meets s (.read size buffer) ↔ SumFits f'.size f'.head (l.drop size).length := by
      have hrest : l.length - min size l.length = l.length - size := by omega
      rw [hsize, hhead, List.length_drop, ← hrest, ← hunread]
      rfl
    unfold Served
    rw [hmeets, hstep]
    constructor
    · constructor
      · intro ⟨_, hcount⟩
        exact sumFits_of_sizes hring haccepted hcount
      · intro hsum
        exact Holds.served (s := { s with fifo := f', delivered := s.delivered ++ l.take size })
          ⟨hring, hsum, haccepted⟩
    · intro hsum
      exact ⟨l.drop size, hring, hsum, haccepted⟩

/-- An empty queue, as `fifo_alloc` and `fifo_flush` leave it. -/
def start (fifo : Fifo) : FifoTraffic := ⟨fifo.flush, [], []⟩

theorem holds_start {fifo : Fifo} (hsize : 2 ≤ fifo.size) : Holds (start fifo) [] where
  ring := Ring.Holds.nil (show 0 < fifo.size by omega)
  sum := fun _ => by
    have hlt := fifo.size_lt
    show 0 + fifo.size < _
    omega
  accepted := rfl

/-- A queue delivers exactly what its writes report as written if and only if every
write finds room for its whole buffer. -/
theorem fifo_served_iff {fifo : Fifo} (hsize : 2 ≤ fifo.size) (calls : List FifoCall) :
    Run.Throughout Next Served (start fifo) calls ↔ Run.Throughout Next Meets (start fifo) calls :=
  Run.throughout_iff (fun s => ∃ l, Holds s l) (fun _ call ⟨_, h⟩ => (h.step call).1)
    (fun s call t ⟨_, h⟩ hserved hnext => by
      rw [← Option.some.inj hnext]
      exact (h.step call).2 ((h.step call).1.mp hserved))
    ⟨[], holds_start hsize⟩ calls

/-- A queue of two cells, which has room for one byte. -/
def twoCells : Fifo := ⟨fun _ => 0, 0, 0, 2, by decide⟩

/-- One byte is written and read. -/
theorem fifo_served_two :
    Run.Throughout Next Served (start twoCells) [.write 1 fun _ => 0x61#8, .read 1 fun _ => 0] :=
  (fifo_served_iff (by decide) _).mpr (by decide)

/-- A write of two bytes reports both, and the queue keeps one. -/
theorem not_fifo_served :
    ¬ ∀ (fifo : Fifo) (calls : List FifoCall), 2 ≤ fifo.size →
      Run.Throughout Next Served (start fifo) calls := by
  intro h
  have hall := h twoCells [.write 2 fun _ => 0x61#8] (by decide)
  exact absurd hall.1.2 (by decide)

end FifoTraffic
end Vfs
