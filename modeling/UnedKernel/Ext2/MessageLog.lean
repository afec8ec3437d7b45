import UnedKernel.Ext2.Path
import UnedKernel.Lib.Run
import UnedKernel.Lib.Word

/-! # The message log

Every call into the file system logs messages through `ext2_add_error`. The list
grows at its head, and `ext2_make_space` is there to drop its last elements when
`error_count` reaches a bound; but nothing ever counts a message, so it never
runs. The strings of a message are copied into blocks that have no byte for the
terminator. -/

namespace UnedKernel.Ext2
open ByteMem CString Word

def EXT2_MAX_ERRORS : Nat := 1024
def EXT2_DELETE_CYCLE : Nat := 128
def ERROR_FUNC_SIZE : Nat := 64
def ERROR_FILE_SIZE : Nat := 64
def EXT2_ERROR_WARN : Nat := 2

/-- What is handed to `ext2_add_error`. -/
structure Report where
  error : List Byte
  function : List Byte
  file : List Byte
  line : Nat
  type : Nat

/-- A `kmalloc` of `size` bytes, of which 0 give no block, and a `strncpy` of `n` bytes of
`src` into it. -/
structure Copy where
  size : Nat
  src : List Byte
  n : Nat
  deriving DecidableEq

/-- What `strncpy` stores, with the index of each byte: the bytes of the string, and
the terminator behind the last of them. -/
def Copy.stores (c : Copy) : List (Nat × Byte) :=
  let n := if strlen STR_MAX_SIZE c.src < c.n then strlen STR_MAX_SIZE c.src else c.n
  (c.src.take n).zipIdx.map Prod.swap ++ [((c.src.take n).length, 0)]

/-- The copy of a whole string into a block of its length. -/
def copyOf (s : List Byte) : Copy := ⟨strlen STR_MAX_SIZE s, s, strlen STR_MAX_SIZE s⟩

/-- `struct error_message`, with the copies its strings were made by. `file` is null when
the path does not begin with the base path. -/
structure ErrorMessage where
  msg : Copy
  function : Copy
  file : Option Copy
  line : Nat
  type : Nat
  id : Nat

/-- The globals of `ext2_integrity.c`, the newest message first, and whether the kernel
heap serves requests: `_malloc` returns null when it does not. -/
structure Log where
  messages : List ErrorMessage
  errorCount : Nat
  deletionCounter : Nat
  errorId : Nat
  inhibited : Nat
  debugBasePath : List Byte
  heapReady : Bool

/-- The copy of the function's name. -/
def functionCopy (function : List Byte) : Copy :=
  if ERROR_FUNC_SIZE < strlen STR_MAX_SIZE function then copyOf (ascii "Function name too long")
  else copyOf function

/-- The copy of the file's path. The difference of the lengths is unsigned. -/
def fileCopy (base file : List Byte) : Option Copy :=
  let fileLen := strlen STR_MAX_SIZE file
  let baseLen := strlen STR_MAX_SIZE base
  if ERROR_FILE_SIZE < sub64 fileLen baseLen then some (copyOf (ascii "File name too long"))
  else if fileLen ≤ baseLen then
    if ERROR_FILE_SIZE < fileLen then some (copyOf (ascii "File name too long"))
    else some (copyOf file)
  else if strncmp file base baseLen = 0 then
    if ERROR_FILE_SIZE < sub64 fileLen baseLen then some (copyOf (ascii "File name too long"))
    else some ⟨sub64 fileLen baseLen, file.drop baseLen, sub64 fileLen baseLen⟩
  else none

namespace Log

/-- `ext2_clear_oldest_error`. -/
def clearOldest (log : Log) : Log := { log with messages := log.messages.dropLast }

/-- `ext2_clear_errors`, which leaves `error_count` as it is. -/
def clearErrors (log : Log) : Log := { log with messages := [] }

/-- `ext2_integrity_inhibit_errors`. -/
def inhibitErrors (log : Log) (t : Nat) : Log := { log with inhibited := t % 256 }

/-- The log after a message is stored, once there is room for it, and the copies made. -/
def store (log : Log) (r : Report) : Log × List Copy :=
  if log.heapReady then
    let message : ErrorMessage :=
      { msg := copyOf r.error
        function := functionCopy r.function
        file := fileCopy log.debugBasePath r.file
        line := r.line, type := r.type, id := log.errorId }
    ({ log with messages := message :: log.messages, errorId := u64 (log.errorId + 1) },
      message.msg :: message.function :: message.file.toList)
  else (log, [])

/-- The warnings of `ext2_make_space`, in the file `file`. Without a heap their text is
null, and nothing looks at it. -/
def spaceWarning (file : List Byte) (text : String) (line : Nat) : Report where
  error := ascii text
  function := ascii "ext2_make_space"
  file := file
  line := line
  type := EXT2_ERROR_WARN

section
variable (addError : Log → Report → Option (Log × List Copy)) (file : List Byte)

/-- `ext2_make_space`, which logs through `addError`. -/
def makeSpace (log : Log) : Option (Log × List Copy) :=
  let cleared := Nat.iterate clearOldest EXT2_DELETE_CYCLE log
  let counted := { cleared with
    errorCount := sub32 cleared.errorCount EXT2_DELETE_CYCLE
    deletionCounter := u64 (cleared.deletionCounter + 1) }
  (addError counted (spaceWarning file
    "Error count exceeded 1024, deleting oldest 128 errors" 92)).bind fun (log, copies) =>
    if 0xFFFFFFFFFFFFFFFF / EXT2_DELETE_CYCLE ≤ log.deletionCounter then
      (addError log (spaceWarning file
        "Error deletion counter overflowed, resetting to 0" 95)).map fun (log, more) =>
        ({ log with deletionCounter := 0 }, copies ++ more)
    else some (log, copies)

end

/-- `ext2_add_error`, as far as the fuel goes: making space logs in turn. -/
def addErrorFrom (file : List Byte) : Nat → Log → Report → Option (Log × List Copy)
  | 0, _, _ => none
  | fuel + 1, log, r =>
    if log.inhibited ≠ 0 then some (log, [])
    else
      (if EXT2_MAX_ERRORS ≤ log.errorCount then makeSpace (addErrorFrom file fuel) file log
        else some (log, [])).map fun (log, copies) =>
        ((log.store r).1, copies ++ (log.store r).2)

/-- `ext2_add_error`. Each call inside another finds a count smaller by a cycle. -/
def addError (file : List Byte) (log : Log) (r : Report) : Option (Log × List Copy) :=
  addErrorFrom file (log.errorCount + 1) log r

end Log

/-! ## One copy -/

/-- All bytes are stored inside the block. -/
def Copy.InBounds (c : Copy) : Prop := ∀ st ∈ c.stores, st.1 < c.size

instance (c : Copy) : Decidable c.InBounds := inferInstanceAs (Decidable (∀ st ∈ c.stores, _))

/-- The bytes of the string fill the block, and the terminator comes behind it. -/
def Copy.Overruns (c : Copy) : Prop := (c.size, 0) ∈ c.stores ∧ ∀ st ∈ c.stores, st.1 ≤ c.size

theorem Copy.Overruns.not_inBounds {c : Copy} (h : c.Overruns) : ¬ c.InBounds :=
  fun hin => Nat.lt_irrefl _ (hin _ h.1)

/-- A copy of as many bytes as the block has overruns it. -/
theorem overruns_of_le {src : List Byte} {n : Nat} (hlen : n ≤ strlen STR_MAX_SIZE src) :
    Copy.Overruns ⟨n, src, n⟩ := by
  have htake : (src.take n).length = n := by
    rw [List.length_take]
    exact Nat.min_eq_left (Nat.le_trans hlen (Nat.min_le_left _ _))
  unfold Copy.Overruns Copy.stores
  simp only [if_neg (Nat.not_lt.mpr hlen), htake]
  constructor
  · exact List.mem_append_right _ List.mem_cons_self
  · intro st hst
    rcases List.mem_append.mp hst with hbyte | hend
    · obtain ⟨⟨b, k⟩, hk, rfl⟩ := List.mem_map.mp hbyte
      have hlt := (List.mem_zipIdx hk).2.1
      rw [htake] at hlt
      exact Nat.le_of_lt (by simpa using hlt)
    · rw [List.mem_singleton.mp hend]

theorem overruns_copyOf (s : List Byte) : (copyOf s).Overruns := overruns_of_le (Nat.le_refl _)

theorem overruns_functionCopy (function : List Byte) : (functionCopy function).Overruns := by
  unfold functionCopy
  split
  · exact overruns_copyOf _
  · exact overruns_copyOf _

theorem overruns_fileCopy {base file : List Byte} {c : Copy} (h : fileCopy base file = some c) :
    c.Overruns := by
  have hcopy {s : List Byte} (hc : some (copyOf s) = some c) : c.Overruns :=
    Option.some.inj hc ▸ overruns_copyOf s
  unfold fileCopy at h
  simp only at h
  split at h
  · exact hcopy h
  · split at h
    · split at h
      · exact hcopy h
      · exact hcopy h
    · rename_i hlt
      split at h
      · rw [← Option.some.inj h]
        -- what stands behind the base path is as long as the difference says
        apply overruns_of_le
        unfold strlen at hlt ⊢
        rw [sub64_of_le (by omega) (by unfold STR_MAX_SIZE; omega), List.length_drop]
        omega
      · cases h

/-! ## One call -/

namespace Log

variable {log t u : Log} {copies more : List Copy} {r : Report} {file : List Byte} {fuel : Nat}

theorem iterate_clearOldest (k : Nat) (log : Log) : Nat.iterate clearOldest k log =
    { log with messages := log.messages.take (log.messages.length - k) } := by
  induction k generalizing log with
  | zero => simp
  | succ k ih =>
    rw [Function.iterate_succ_apply, ih]
    unfold clearOldest
    simp only [List.dropLast_eq_take, List.take_take, List.length_take]
    congr 2
    omega

/-- What a call leaves: the count does not grow, of the old messages the newest ones stay
behind the new ones, every copy overruns its block, and without a heap there is none. -/
structure Logs (log t : Log) (copies : List Copy) : Prop where
  count : t.errorCount ≤ log.errorCount
  ready : t.heapReady = log.heapReady
  kept : ∃ new kept, t.messages = new ++ kept ∧ kept <+: log.messages
  overruns : ∀ c ∈ copies, c.Overruns
  silent : log.heapReady = false → copies = []

theorem Logs.refl (log : Log) : Logs log log [] :=
  ⟨Nat.le_refl _, rfl, ⟨[], _, rfl, List.prefix_refl _⟩, nofun, fun _ => rfl⟩

theorem Logs.trans (h : Logs log t copies) (h' : Logs t u more) : Logs log u (copies ++ more) where
  count := Nat.le_trans h'.count h.count
  ready := h'.ready.trans h.ready
  kept := by
    obtain ⟨new, kept, hkept, hprefix⟩ := h.kept
    obtain ⟨new', kept', hkept', hprefix'⟩ := h'.kept
    rw [hkept] at hprefix'
    rcases List.prefix_or_prefix_of_prefix hprefix' (List.prefix_append new kept) with hshort | hlong
    · exact ⟨new' ++ kept', [], by rw [hkept', List.append_nil], List.nil_prefix⟩
    · obtain ⟨rest, rfl⟩ := hlong
      have hrest := (List.prefix_append_right_inj new).mp hprefix'
      exact ⟨new' ++ new, rest, by rw [hkept', List.append_assoc], hrest.trans hprefix⟩
  overruns := fun c hc => (List.mem_append.mp hc).elim (h.overruns c) (h'.overruns c)
  silent := fun hno => by rw [h.silent hno, h'.silent (h.ready.trans hno), List.append_nil]

theorem store_logs (log : Log) (r : Report) : Logs log (log.store r).1 (log.store r).2 := by
  unfold store
  split
  · rename_i hready
    refine ⟨Nat.le_refl _, rfl, ⟨[_], log.messages, rfl, List.prefix_refl _⟩, ?_, ?_⟩
    · intro c hc
      rcases List.mem_cons.mp hc with rfl | hc
      · exact overruns_copyOf _
      · rcases List.mem_cons.mp hc with rfl | hc
        · exact overruns_functionCopy _
        · exact overruns_fileCopy (Option.mem_toList.mp hc)
    · intro hno
      rw [hno] at hready
      cases hready
  · exact .refl log

theorem cleared_logs (k counter : Nat) {count : Nat} (hcount : count ≤ log.errorCount) :
    Logs log { log with
      messages := log.messages.take (log.messages.length - k)
      errorCount := count
      deletionCounter := counter } [] :=
  ⟨hcount, rfl, ⟨[], _, rfl, List.take_prefix _ _⟩, nofun, fun _ => rfl⟩

/-- Making room drops the oldest messages, whatever the calls inside it log. -/
theorem makeSpace_logs (file : List Byte) {add : Log → Report → Option (Log × List Copy)}
    (hadd : ∀ t r, t.errorCount < log.errorCount → ∃ u more, add t r = some (u, more) ∧ Logs t u more)
    (hcount : EXT2_MAX_ERRORS ≤ log.errorCount) :
    ∃ t copies, makeSpace add file log = some (t, copies) ∧ Logs log t copies := by
  have hlt : sub32 log.errorCount EXT2_DELETE_CYCLE < log.errorCount := by
    unfold sub32 u32 EXT2_DELETE_CYCLE
    unfold EXT2_MAX_ERRORS at hcount
    omega
  unfold makeSpace
  rw [iterate_clearOldest]
  simp only
  have hcleared := cleared_logs EXT2_DELETE_CYCLE (u64 (log.deletionCounter + 1)) hlt.le
  obtain ⟨t, copies, hwarn, hlogs⟩ := hadd
    { log with
      messages := log.messages.take (log.messages.length - EXT2_DELETE_CYCLE)
      errorCount := sub32 log.errorCount EXT2_DELETE_CYCLE
      deletionCounter := u64 (log.deletionCounter + 1) }
    (spaceWarning file "Error count exceeded 1024, deleting oldest 128 errors" 92) hlt
  have hfirst := hcleared.trans hlogs
  rw [List.nil_append] at hfirst
  rw [hwarn, Option.bind_some]
  simp only
  split
  · obtain ⟨u, more, hwarn', hlogs'⟩ := hadd t
      (spaceWarning file "Error deletion counter overflowed, resetting to 0" 95)
      (Nat.lt_of_le_of_lt hlogs.count hlt)
    rw [hwarn', Option.map_some]
    have hboth := hfirst.trans hlogs'
    exact ⟨_, _, rfl, hboth.count, hboth.ready, hboth.kept, hboth.overruns, hboth.silent⟩
  · exact ⟨t, copies, rfl, hfirst⟩

theorem addErrorFrom_inhibited (hfuel : 0 < fuel) (hinhibited : log.inhibited ≠ 0) (r : Report) :
    addErrorFrom file fuel log r = some (log, []) := by
  obtain ⟨fuel, rfl⟩ := Nat.exists_eq_succ_of_ne_zero (Nat.ne_of_gt hfuel)
  rw [addErrorFrom, if_pos hinhibited]

/-- A call that is not inhibited stores its message when room is made. -/
theorem addErrorFrom_active (file : List Byte) (hfuel : log.errorCount < fuel) (hinhibited : log.inhibited = 0)
    (r : Report) : ∃ t more, addErrorFrom file fuel log r =
      some ((t.store r).1, more ++ (t.store r).2) ∧ Logs log t more := by
  induction fuel generalizing log r with
  | zero => exact absurd hfuel (Nat.not_lt_zero _)
  | succ fuel ih =>
    rw [addErrorFrom, if_neg (not_not.mpr hinhibited)]
    by_cases hcount : EXT2_MAX_ERRORS ≤ log.errorCount
    · -- the calls inside find a smaller count
      have hinner (t : Log) (r : Report) (ht : t.errorCount < log.errorCount) :
          ∃ u more, addErrorFrom file fuel t r = some (u, more) ∧ Logs t u more := by
        by_cases hactive : t.inhibited = 0
        · obtain ⟨u, more, hadd, hlogs⟩ := ih (by omega) hactive r
          exact ⟨_, _, hadd, hlogs.trans (store_logs u r)⟩
        · exact ⟨t, [], addErrorFrom_inhibited (by omega) hactive r, .refl t⟩
      obtain ⟨t, copies, hspace, hlogs⟩ := makeSpace_logs file hinner hcount
      rw [if_pos hcount, hspace, Option.map_some]
      exact ⟨t, copies, rfl, hlogs⟩
    · rw [if_neg hcount, Option.map_some]
      exact ⟨log, [], rfl, .refl log⟩

theorem addError_logs (file : List Byte) (log : Log) (r : Report) :
    ∃ t copies, addError file log r = some (t, copies) ∧ Logs log t copies ∧
      (log.inhibited ≠ 0 → t = log ∧ copies = []) ∧
      (log.inhibited = 0 → log.heapReady = true → copyOf r.error ∈ copies) := by
  by_cases hactive : log.inhibited = 0
  · obtain ⟨t, more, hadd, hlogs⟩ :=
      addErrorFrom_active file (Nat.lt_succ_self log.errorCount) hactive r
    refine ⟨_, _, hadd, hlogs.trans (store_logs t r), fun hno => absurd hactive hno, ?_⟩
    intro _ hready
    unfold store
    rw [if_pos (hlogs.ready.trans hready)]
    exact List.mem_append_right _ List.mem_cons_self
  · exact ⟨log, [], addErrorFrom_inhibited (Nat.succ_pos _) hactive r, .refl log,
      fun _ => ⟨rfl, rfl⟩, fun hno => absurd hno hactive⟩

/-! ## The copies -/

/-- Whether a call may store outside its blocks: all it stores goes inside them. -/
def StoresInBounds (file : List Byte) (log : Log) (r : Report) : Prop :=
  ∃ t copies, addError file log r = some (t, copies) ∧ ∀ c ∈ copies, c.InBounds

/-- Every string that a call copies has its terminator stored behind the block, so a call
stays in bounds exactly when it copies none: while errors are inhibited, or the heap
serves no request. -/
theorem storesInBounds_iff (file : List Byte) (log : Log) (r : Report) :
    StoresInBounds file log r ↔ log.inhibited ≠ 0 ∨ log.heapReady = false := by
  obtain ⟨t, copies, hadd, hlogs, hquiet, hcopied⟩ := addError_logs file log r
  constructor
  · intro ⟨t', copies', hadd', hall⟩
    have hcopies : copies = copies' := congrArg Prod.snd (Option.some.inj (hadd.symm.trans hadd'))
    rw [← hcopies] at hall
    by_contra hactive
    rw [not_or, not_not, Bool.not_eq_false] at hactive
    exact (overruns_copyOf r.error).not_inBounds (hall _ (hcopied hactive.1 hactive.2))
  · intro hsilent
    have hnone : copies = [] := by
      rcases hsilent with hinhibited | hready
      · exact (hquiet hinhibited).2
      · exact hlogs.silent hready
    refine ⟨t, copies, hadd, ?_⟩
    rw [hnone]
    nofun

/-- The log at boot, with any base path. -/
def start (debugBasePath : List Byte) (inhibited : Nat) (heapReady : Bool) : Log :=
  ⟨[], 0, 0, 0, inhibited, debugBasePath, heapReady⟩

/-- An `a` logged at boot takes a block of one byte, and the terminator is its second. -/
theorem not_storesInBounds :
    ¬ ∀ (file : List Byte) (log : Log) (r : Report), StoresInBounds file log r := by
  intro h
  obtain ⟨t, copies, hadd, hall⟩ := h [] (start [] 0 true) ⟨ascii "a", ascii "f", ascii "x.c", 1, 0⟩
  have hcopies : _ = copies := congrArg Prod.snd (Option.some.inj hadd)
  rw [← hcopies] at hall
  exact absurd hall (by decide)

/-! ## Runs -/

/-- A call on the log. -/
inductive LogCall where
  | addError (r : Report)
  | clearErrors
  | inhibitErrors (t : Nat)

def step (file : List Byte) (log : Log) : LogCall → Option Log
  | .addError r => (log.addError file r).map Prod.fst
  | .clearErrors => some log.clearErrors
  | .inhibitErrors t => some (log.inhibitErrors t)

/-- At most `EXT2_MAX_ERRORS` messages are stored, and they are counted. -/
def Bounded (log : Log) : Prop :=
  log.messages.length ≤ EXT2_MAX_ERRORS ∧ log.errorCount = log.messages.length

/-- A call leaves a bounded log, and a call that makes room drops the oldest messages: of
the old ones it keeps the newest. -/
def Served (file : List Byte) (log : Log) (call : LogCall) : Prop :=
  ∃ t, log.step file call = some t ∧ t.Bounded ∧
    ∃ new kept, t.messages = new ++ kept ∧ kept <+: log.messages

/-- When a call is served: no message is stored. -/
def Meets (log : Log) : LogCall → Prop
  | .addError _ => log.inhibited ≠ 0 ∨ log.heapReady = false
  | .clearErrors => True
  | .inhibitErrors _ => True

/-- Nothing is stored, and nothing counted. -/
structure Empty (log : Log) : Prop where
  messages : log.messages = []
  errorCount : log.errorCount = 0

theorem Empty.bounded (h : Empty log) : log.Bounded := by
  unfold Bounded
  rw [h.messages, h.errorCount]
  exact ⟨Nat.zero_le _, rfl⟩

theorem addError_of_room (hroom : log.errorCount < EXT2_MAX_ERRORS) (hactive : log.inhibited = 0)
    (r : Report) : addError file log r = some (log.store r) := by
  rw [addError, addErrorFrom, if_neg (not_not.mpr hactive), if_neg (Nat.not_le.mpr hroom),
    Option.map_some]
  rfl

/-- A call that stores no message leaves an empty log, and one that stores a message does
not count it. -/
theorem Empty.step (file : List Byte) (h : Empty log) (call : LogCall) :
    ∃ t, log.step file call = some t ∧ (Meets log call → Empty t) ∧
      (¬ Meets log call → t.errorCount = 0 ∧ t.messages ≠ []) ∧
      ∃ new kept, t.messages = new ++ kept ∧ kept <+: log.messages := by
  cases call with
  | addError r =>
    obtain ⟨t, copies, hadd, hlogs, hquiet, -⟩ := addError_logs file log r
    refine ⟨t, by rw [Log.step, hadd, Option.map_some], ?_, ?_, hlogs.kept⟩
    · intro hmeets
      have hroom : log.errorCount < EXT2_MAX_ERRORS := by
        rw [h.errorCount]
        decide
      by_cases hactive : log.inhibited = 0
      · have hready : log.heapReady = false := hmeets.resolve_left (not_not.mpr hactive)
        rw [addError_of_room hroom hactive] at hadd
        have ht : (log.store r).1 = t := congrArg Prod.fst (Option.some.inj hadd)
        unfold store at ht
        rw [if_neg (ne_true_of_eq_false hready)] at ht
        exact ht ▸ h
      · exact (hquiet hactive).1 ▸ h
    · intro hmeets
      have hroom : log.errorCount < EXT2_MAX_ERRORS := by
        rw [h.errorCount]
        decide
      unfold Meets at hmeets
      rw [not_or, not_not, Bool.not_eq_false] at hmeets
      rw [addError_of_room hroom hmeets.1] at hadd
      have ht : (log.store r).1 = t := congrArg Prod.fst (Option.some.inj hadd)
      unfold store at ht
      rw [if_pos hmeets.2] at ht
      rw [← ht]
      exact ⟨h.errorCount, List.cons_ne_nil _ _⟩
  | clearErrors =>
    exact ⟨log.clearErrors, rfl, fun _ => ⟨rfl, h.errorCount⟩, fun hno => absurd trivial hno,
      [], [], rfl, List.nil_prefix⟩
  | inhibitErrors t =>
    exact ⟨log.inhibitErrors t, rfl, fun _ => ⟨h.messages, h.errorCount⟩,
      fun hno => absurd trivial hno, [], log.messages, rfl, List.prefix_refl _⟩

theorem Empty.served_iff (h : Empty log) (call : LogCall) :
    Served file log call ↔ Meets log call := by
  obtain ⟨t, hstep, hempty, hstored, hkept⟩ := h.step file call
  constructor
  · intro ⟨t', hstep', hbounded, _⟩
    rw [← Option.some.inj (hstep.symm.trans hstep')] at hbounded
    by_contra hmeets
    obtain ⟨hcount, hmessages⟩ := hstored hmeets
    rw [Bounded, hcount] at hbounded
    exact hmessages (List.length_eq_zero_iff.mp hbounded.2.symm)
  · intro hmeets
    exact ⟨t, hstep, (hempty hmeets).bounded, hkept⟩

/-- The log is bounded and counted throughout exactly when no message is stored. -/
theorem log_bounded_iff (file debugBasePath : List Byte) (inhibited : Nat) (heapReady : Bool)
    (calls : List LogCall) :
    Run.Throughout (fun log call t => log.step file call = some t) (Served file)
        (start debugBasePath inhibited heapReady) calls ↔
      Run.Throughout (fun log call t => log.step file call = some t) Meets
        (start debugBasePath inhibited heapReady) calls :=
  Run.throughout_iff Empty (fun _ call h => h.served_iff call)
    (fun log call t h hserved hnext => by
      obtain ⟨t', hstep, hempty, -⟩ := h.step file call
      rw [← Option.some.inj (hstep.symm.trans hnext)]
      exact hempty ((h.served_iff call).mp hserved))
    ⟨rfl, rfl⟩ calls

/-- The first message is stored and not counted. -/
theorem not_log_bounded :
    ¬ ∀ (file debugBasePath : List Byte) (inhibited : Nat) (heapReady : Bool) (calls : List LogCall),
      Run.Throughout (fun log call t => log.step file call = some t) (Served file)
        (start debugBasePath inhibited heapReady) calls := by
  intro h
  have hall := h [] [] 0 true [.addError ⟨ascii "a", ascii "f", ascii "x.c", 1, 0⟩]
  obtain ⟨t, hstep, hbounded, -⟩ := hall.1
  rw [← Option.some.inj hstep] at hbounded
  exact absurd hbounded.2 (by decide)

end Log
end UnedKernel.Ext2
