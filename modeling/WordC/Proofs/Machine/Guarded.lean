import WordC.Proofs.Machine.Calls

/-!
# Every access is in bounds

The machine proper reads zero where there is no memory and its sums have no end. Here is the same
machine on 64-bit addresses and a pool with ends: it overruns where a word or a slice is not in the
pool, where a sum of addresses needs more than 64 bits and where a difference would be negative.
From an intact machine both machines do the same, so that no step overruns.
-/

namespace WordC

namespace Machine

/-- An action that may overrun: what it fails with is missing then. -/
abbrev Guarded := EStateM (Option Error) Machine

namespace Guarded

variable {α β : Type}

def ofAction (action : Action α) : Guarded α := fun machine =>
  match action machine with
  | .ok value machine => .ok value machine
  | .error error machine => .error (some error) machine

/-! ## Accesses -/

def require (condition : Prop) [Decidable condition] : Guarded Unit :=
  if condition then return else throw none

def plus (left right : Nat) : Guarded Nat := do
  require (left + right < 2 ^ 64)
  return left + right

def minus (left right : Nat) : Guarded Nat := do
  require (right ≤ left)
  return left - right

def index (address : Nat) : Guarded Word := do
  let machine ← get
  require (address < machine.memory.size)
  return machine.wordAt address

def setIndex (address : Nat) (word : Word) : Guarded Unit := do
  let machine ← get
  require (address < machine.memory.size)
  set (machine.setWord address word)

def slice (extent : Extent) : Guarded (List Word) := do
  let machine ← get
  require (extent.start ≤ extent.stop ∧ extent.stop ≤ machine.memory.size)
  return machine.words extent

def fillSlice (extent : Extent) (word : Word) : Guarded Unit := do
  let machine ← get
  require (extent.start ≤ extent.stop ∧ extent.stop ≤ machine.memory.size)
  set (machine.fill extent word)

/-! ## Instructions -/

/-- The instruction is decoded from the rest of the text. A missing operand is reported at the
address behind the opcode, which is a word. -/
def fetch : Guarded Instruction := do
  let machine ← get
  let pc := machine.pc
  if pc < machine.layout.text.start ∨ machine.textEnd ≤ pc then
    throw (some (.invalidAccess (Word.ofCount pc) pc))
  let word ← index pc
  match Opcode.ofWord? word with
  | none => throw (some (.unknownOpcode word pc))
  | some opcode =>
      if opcode = .plac then throw (some (.pendingPatch pc))
      let words ← slice { start := pc, stop := machine.textEnd }
      match Instruction.decode? words with
      | some instruction => return instruction
      | none =>
          require (pc + 1 < 2 ^ 63)
          throw (some (.invalidAccess (Word.ofCount (pc + 1)) pc))

def push (word : Word) : Guarded Unit := do
  let machine ← get
  if machine.sp ≤ machine.layout.stack.start then
    throw (some (.stackOverflow machine.current))
  let sp ← minus machine.sp 1
  modify fun machine => { machine with sp }
  setIndex sp word

def pop : Guarded Word := do
  let machine ← get
  if machine.layout.stack.stop ≤ machine.sp then
    throw (some (machine.fault (Word.ofCount machine.sp)))
  let word ← index machine.sp
  let sp ← plus machine.sp 1
  modify fun machine => { machine with sp }
  return word

/-- Where the sum does not fit, the arguments do not fit either: that is a fault. -/
def popArguments (size : Word) : Guarded (List Word) := do
  let size ← ofAction (count size)
  let machine ← get
  let stop := machine.sp + size
  if machine.layout.stack.stop < stop then
    throw (some (machine.fault (Word.ofCount machine.sp)))
  let arguments ← slice { start := machine.sp, stop }
  modify fun machine => { machine with sp := stop }
  return arguments.reverse

def callTo (target : Word) : Guarded Unit := do
  let target ← ofAction (jumpTarget target)
  push (Word.ofCount (← get).pc)
  modify fun machine => { machine with pc := target }

def enterFrame (slots : Word) : Guarded Unit := do
  push (Word.ofCount (← get).bp)
  modify fun machine => { machine with bp := machine.sp }
  let slots ← ofAction (count slots)
  let machine ← get
  let room ← minus machine.sp machine.layout.stack.start
  if room < slots then throw (some (.stackOverflow machine.current))
  let sp ← minus machine.sp slots
  modify fun machine => { machine with sp }
  fillSlice { start := sp, stop := machine.bp } 0

def adjust (words : Word) : Guarded Unit := do
  let words ← ofAction (count words)
  let machine ← get
  let sp ← plus machine.sp words
  if machine.layout.stack.stop < sp then throw (some (machine.fault (Word.ofCount sp)))
  modify fun machine => { machine with sp }

def leaveFrame : Guarded Unit := do
  modify fun machine => { machine with sp := machine.bp }
  let saved ← pop
  let machine ← get
  match saved.count?.filter fun bp =>
      machine.layout.stack.start ≤ bp && bp ≤ machine.layout.stack.stop with
  | none => throw (some (machine.fault saved))
  | some bp =>
      modify fun machine => { machine with bp }
      ofAction (jump (← pop))

def loadIndirect : Guarded Unit := do
  let address ← ofAction (address (← get).acc)
  ofAction (load (← index address))

def storeIndirect : Guarded Unit := do
  let word ← pop
  let extent ← ofAction (writable (← get).acc 1)
  setIndex extent.start word
  ofAction (load word)

def combine (operator : Operator) : Guarded Unit := do
  let left ← pop
  let machine ← get
  match operator.apply? left machine.acc with
  | none => throw (some (.divisionByZero machine.current))
  | some word => ofAction (load word)

/-! ## Traps

What a trap accesses depends on nothing that it changes, so all of it is checked before the trap is
carried out. -/

/-- The words of a string lie in the pool. -/
def checkString (word : Word) : Guarded Unit := do
  let machine ← get
  match word.count?.filter (· < machine.memory.size) with
  | none => return
  | some start => let _ ← slice { start, stop := machine.memory.size }

def checkStrings : List Word → Guarded Unit
  | [] => return
  | word :: rest => do
      checkString word
      checkStrings rest

/-- The end of a block can be computed, and the block lies in the pool. -/
def checkBlock (address size : Nat) : Guarded Unit := do
  let stop ← plus address size
  let _ ← slice { start := address, stop }

/-- A span that passes the check for it lies in the pool. -/
def checkSpan (span : Action Extent) : Guarded Unit := do
  match span (← get) with
  | .ok extent _ => let _ ← slice extent
  | .error _ _ => return

def checkTrap (trap : Trap) (arguments : List Word) : Guarded Unit := do
  let argument (index : Nat) := arguments.getD index 0
  let heap := (← get).heap
  match trap with
  | .open => checkString (argument 0)
  | .read => checkSpan (writable (argument 1) (argument 2))
  | .close => return
  | .printf => checkStrings (0 :: arguments)
  | .malloc =>
      let size := (argument 0).count?.getD 0
      match heap.allocate? size with
      | none => return
      | some (address, _) => checkBlock address size
  | .free =>
      let address := (argument 0).count?.getD 0
      match heap.release? address with
      | none => return
      | some (size, _) => checkBlock address size
  | .memset => checkSpan (writable (argument 0) (argument 2))
  | .memcmp =>
      checkSpan (readable (argument 0) (argument 2))
      checkSpan (readable (argument 1) (argument 2))

def trap (trap : Trap) (size : Word) : Guarded Word := do
  let machine ← get
  let arguments ← popArguments size
  checkTrap trap arguments
  set machine
  ofAction (Machine.trap trap size)

/-- The instructions without a case of their own touch registers alone. -/
def execute (instruction : Instruction) : Guarded (Option Word) :=
  let operand := instruction.operand.getD 0
  let goesOn (action : Guarded Unit) : Guarded (Option Word) := do
    action
    return none
  match instruction.opcode with
  | .call => goesOn (callTo operand)
  | .ent => goesOn (enterFrame operand)
  | .adj => goesOn (adjust operand)
  | .lev => goesOn leaveFrame
  | .li => goesOn loadIndirect
  | .si => goesOn storeIndirect
  | .push => goesOn do push (← get).acc
  | .binary operator => goesOn (combine operator)
  | .trap request => do
      ofAction (load (← trap request operand))
      return none
  | _ => ofAction (Machine.execute instruction)

def step (tracing : Bool) : Guarded (Option Word) := do
  ofAction checkCycleLimit
  modify fun machine => { machine with current := machine.pc }
  let instruction ← fetch
  modify fun machine => { machine with cycles := machine.cycles + 1 }
  if tracing then
    modify fun machine =>
      machine.report (.executing machine.cycles machine.current instruction)
  let pc ← plus (← get).pc instruction.width
  modify fun machine => { machine with pc }
  execute instruction

/-! ## Agreement -/

/-- From this machine the guarded action does what the action does, and so does not overrun. -/
def Agrees (guarded : Guarded α) (action : Action α) (m : Machine) : Prop :=
  guarded m = ofAction action m

variable {m m' : Machine} {guarded : Guarded α} {action : Action α}

theorem get_bind (next : Machine → Guarded β) : (get >>= next) m = next m m := rfl

theorem modify_bind (change : Machine → Machine) (next : Unit → Guarded β) :
    (modify change >>= next) m = next () (change m) := rfl

theorem bind_of_ok {next : α → Guarded β} {value : α} (h : guarded m = .ok value m') :
    (guarded >>= next) m = next value m' := by
  change EStateM.bind guarded next m = _
  unfold EStateM.bind
  rw [h]

theorem bind_of_error {next : α → Guarded β} {error : Option Error}
    (h : guarded m = .error error m') : (guarded >>= next) m = .error error m' := by
  change EStateM.bind guarded next m = _
  unfold EStateM.bind
  rw [h]

theorem require_bind {condition : Prop} [Decidable condition] (h : condition)
    (next : Unit → Guarded β) : (require condition >>= next) m = next () m := by
  rw [require, if_pos h]
  rfl

theorem plus_eq {left right : Nat} (h : left + right < 2 ^ 64) :
    plus left right m = .ok (left + right) m :=
  require_bind h _

theorem minus_eq {left right : Nat} (h : right ≤ left) :
    minus left right m = .ok (left - right) m :=
  require_bind h _

theorem index_eq {address : Nat} (h : address < m.memory.size) :
    index address m = .ok (m.wordAt address) m :=
  require_bind h _

theorem setIndex_eq {address : Nat} {word : Word} (h : address < m.memory.size) :
    setIndex address word m = .ok () (m.setWord address word) :=
  require_bind h _

theorem slice_eq {extent : Extent} (hstart : extent.start ≤ extent.stop)
    (hstop : extent.stop ≤ m.memory.size) : slice extent m = .ok (m.words extent) m :=
  require_bind ⟨hstart, hstop⟩ _

theorem fillSlice_eq {extent : Extent} {word : Word} (hstart : extent.start ≤ extent.stop)
    (hstop : extent.stop ≤ m.memory.size) :
    fillSlice extent word m = .ok () (m.fill extent word) :=
  require_bind ⟨hstart, hstop⟩ _

namespace Agrees

theorem of_ok {value : α} (hguarded : guarded m = .ok value m')
    (haction : action m = .ok value m') :
    Agrees guarded action m := by
  rw [Agrees, ofAction, hguarded, haction]

theorem of_error {error : Error} (hguarded : guarded m = .error (some error) m')
    (haction : action m = .error error m') : Agrees guarded action m := by
  rw [Agrees, ofAction, hguarded, haction]

theorem bind {guardedNext : α → Guarded β} {next : α → Action β} (h : Agrees guarded action m)
    (hnext : ∀ value m', action m = .ok value m' → Agrees (guardedNext value) (next value) m') :
    Agrees (guarded >>= guardedNext) (action >>= next) m := by
  rw [Agrees, ofAction] at h
  cases haction : action m with
  | ok value m' =>
      rw [haction] at h
      rw [Agrees, bind_of_ok h, ofAction, Machine.bind_of_ok haction]
      exact hnext value m' haction
  | error error m' =>
      rw [haction] at h
      rw [Agrees, ofAction, Machine.bind_of_error haction, bind_of_error h]

end Agrees

/-- An action that only reads or checks is its own guarded action. -/
theorem agrees_ofAction (action : Action α) (m : Machine) : Agrees (ofAction action) action m := rfl

theorem count_eq_ok {word : Word} {n : Nat} (h : count word m = .ok n m') :
    word.count? = some n ∧ m' = m := by
  rcases count_cases word m with ⟨k, hcount, hok⟩ | herror
  · rw [hok] at h
    cases h
    exact ⟨hcount, rfl⟩
  · rw [herror] at h
    cases h

theorem address_eq_ok {word : Word} {n : Nat} (h : address word m = .ok n m') :
    n < m.memory.size ∧ m' = m := by
  rcases address_cases word m with ⟨k, -, hsize, hok⟩ | herror
  · rw [hok] at h
    cases h
    exact ⟨hsize, rfl⟩
  · rw [herror] at h
    cases h

theorem jumpTarget_eq_ok {word : Word} {n : Nat} (h : jumpTarget word m = .ok n m') : m' = m := by
  rcases jumpTarget_cases word m with ⟨k, -, -, hok⟩ | herror
  · rw [hok] at h
    cases h
    rfl
  · rw [herror] at h
    cases h

theorem readable_eq_ok {start size : Word} {extent : Extent}
    (h : readable start size m = .ok extent m') :
    extent.start ≤ extent.stop ∧ extent.stop ≤ m.memory.size ∧ m' = m := by
  rcases readable_cases start size m with ⟨found, -, hstart, hstop, hok⟩ | herror
  · rw [hok] at h
    cases h
    exact ⟨hstart, hstop, rfl⟩
  · rw [herror] at h
    cases h

/-- What may be written may be read. -/
theorem writable_eq_ok {start size : Word} {extent : Extent}
    (h : writable start size m = .ok extent m') : readable start size m = .ok extent m' := by
  unfold writable at h
  cases hread : readable start size m with
  | error error found =>
      rw [Machine.bind_of_error hread] at h
      cases h
  | ok found m'' =>
      obtain ⟨-, -, rfl⟩ := readable_eq_ok hread
      rw [Machine.bind_of_ok hread, Machine.get_bind] at h
      split at h
      · cases h
      · cases h
        rfl

theorem size_of_readable {start : Word} {extent : Extent} (h : readable start 1 m = .ok extent m') :
    extent.start < m.memory.size := by
  unfold readable at h
  split at h
  · next first count hfirst hcount =>
      split at h
      · next hsize =>
          cases h
          have hone : Word.count? 1 = some 1 := by decide
          cases hone.symm.trans hcount
          exact hsize
      · cases h
  · cases h

section Intact

variable (h : m.Intact) (hsmall : m.layout.poolSize < 2 ^ 63)

include h

theorem agrees_push (word : Word) : Agrees (push word) (Machine.push word) m := by
  have hsp := h.sp_bounds
  have hsize := h.size_eq
  rcases Nat.lt_or_ge m.layout.stack.start m.sp with hroom | hfull
  · refine .of_ok ?_ (push_eq hroom)
    rw [push, get_bind, if_neg (Nat.not_le.2 hroom)]
    refine (bind_of_ok (minus_eq (by omega))).trans ((modify_bind _ _).trans ?_)
    exact setIndex_eq (by simp only; omega)
  · refine .of_error ?_ (push_full hfull)
    rw [push, get_bind, if_pos hfull]
    rfl

include hsmall

theorem agrees_pop : Agrees pop Machine.pop m := by
  have hsize := h.size_eq
  rcases Nat.lt_or_ge m.sp m.layout.stack.stop with hlt | hge
  · refine .of_ok ?_ (pop_eq hlt)
    unfold Layout.poolSize at hsmall
    rw [pop, get_bind, if_neg (Nat.not_le.2 hlt)]
    exact (bind_of_ok (index_eq (by omega))).trans (bind_of_ok (plus_eq (by omega)))
  · refine .of_error ?_ (pop_empty hge)
    rw [pop, get_bind, if_pos hge]
    rfl

omit hsmall in
theorem intact_pop {word : Word} (hpop : Machine.pop m = .ok word m') :
    m'.Intact ∧ m'.layout = m.layout := by
  rcases h.pop_cases with ⟨-, hok, hconfined⟩ | herror
  · rw [hok] at hpop
    cases hpop
    exact ⟨(hconfined fun _ => False).intact, rfl⟩
  · rw [herror] at hpop
    cases hpop

omit hsmall in
theorem agrees_popArguments (size : Word) :
    Agrees (popArguments size) (Machine.popArguments size) m := by
  have hsize := h.size_eq
  refine (agrees_ofAction (count size) m).bind fun n m' hcount => ?_
  obtain ⟨-, rfl⟩ := count_eq_ok hcount
  rw [Agrees, get_bind, ofAction, Machine.get_bind]
  by_cases hstop : m'.layout.stack.stop < m'.sp + n
  · rw [if_pos hstop, if_pos hstop]
    rfl
  · rw [if_neg hstop, if_neg hstop]
    exact bind_of_ok (slice_eq (Nat.le_add_right _ _) (by simp only; omega))

omit hsmall in
theorem agrees_callTo (target : Word) : Agrees (callTo target) (Machine.callTo target) m := by
  refine (agrees_ofAction (jumpTarget target) m).bind fun pc m' hjump => ?_
  obtain rfl := jumpTarget_eq_ok hjump
  exact (agrees_push h (Word.ofCount m'.pc)).bind fun _ _ _ => rfl

theorem agrees_adjust (words : Word) : Agrees (adjust words) (Machine.adjust words) m := by
  unfold Layout.poolSize at hsmall
  have hsp := h.sp_bounds
  refine (agrees_ofAction (count words) m).bind fun n m' hcount => ?_
  obtain ⟨hn, rfl⟩ := count_eq_ok hcount
  have hlt := Word.count?_lt hn
  rw [Agrees, get_bind]
  refine (bind_of_ok (plus_eq (by omega))).trans ?_
  by_cases hstop : m'.layout.stack.stop < m'.sp + n
  · rw [if_pos hstop, ofAction, Machine.get_bind, if_pos hstop]
    rfl
  · rw [if_neg hstop, ofAction, Machine.get_bind, if_neg hstop]
    rfl

omit hsmall in
theorem agrees_enterFrame (slots : Word) :
    Agrees (enterFrame slots) (Machine.enterFrame slots) m := by
  have hpushed := h.after_push (Word.ofCount m.bp)
  refine (agrees_push h (Word.ofCount m.bp)).bind fun _ m' hpush => ?_
  rw [after_of_ok hpush] at hpushed
  have hintact := hpushed.intact
  have hsp := hintact.sp_bounds
  have hsize := hintact.size_eq
  refine (agrees_ofAction (count slots) { m' with bp := m'.sp }).bind fun n m'' hcount => ?_
  obtain ⟨-, rfl⟩ := count_eq_ok hcount
  rw [Agrees, get_bind]
  refine (bind_of_ok (minus_eq hsp.1)).trans ?_
  by_cases hover : m'.sp - m'.layout.stack.start < n
  · rw [if_pos hover, ofAction, Machine.get_bind, if_pos hover]
    rfl
  · rw [if_neg hover, ofAction, Machine.get_bind, if_neg hover]
    refine (bind_of_ok (minus_eq (by simp only; omega))).trans ?_
    refine (modify_bind _ _).trans (fillSlice_eq ?_ ?_)
    · exact Nat.sub_le _ _
    · simp only
      omega

theorem agrees_leaveFrame : Agrees leaveFrame Machine.leaveFrame m := by
  have hclosed : m.Confined (fun _ => False) { m with sp := m.bp } := h.move h.bp_bounds h.bp_bounds
  have hpop := agrees_pop hclosed.intact hsmall
  refine hpop.bind fun saved m' hpopped => ?_
  obtain ⟨hintact, hlayout⟩ := intact_pop hclosed.intact hpopped
  rw [Agrees, get_bind, ofAction, Machine.get_bind]
  cases hfilter : saved.count?.filter fun bp =>
      m'.layout.stack.start ≤ bp && bp ≤ m'.layout.stack.stop with
  | none => rfl
  | some bp =>
      have hbp : m'.layout.stack.start ≤ bp ∧ bp ≤ m'.layout.stack.stop := by
        simpa using (Option.filter_eq_some_iff.1 hfilter).2
      have hrestored : m'.Confined (fun _ => False) { m' with bp } :=
        hintact.move hintact.sp_bounds hbp
      exact (agrees_pop hrestored.intact (hlayout ▸ hsmall)).bind fun word _ _ => rfl

omit hsmall in
theorem agrees_loadIndirect : Agrees loadIndirect Machine.loadIndirect m := by
  refine (agrees_ofAction (address m.acc) m).bind fun n m' haddress => ?_
  obtain ⟨hsize, rfl⟩ := address_eq_ok haddress
  exact bind_of_ok (index_eq hsize)

theorem agrees_storeIndirect : Agrees storeIndirect Machine.storeIndirect m := by
  refine (agrees_pop h hsmall).bind fun word m' _ => ?_
  refine (agrees_ofAction (writable m'.acc 1) m').bind fun extent m'' hwritable => ?_
  have hread := writable_eq_ok hwritable
  obtain ⟨-, -, rfl⟩ := readable_eq_ok hread
  exact bind_of_ok (setIndex_eq (size_of_readable hread))

theorem agrees_combine (operator : Operator) :
    Agrees (combine operator) (Machine.combine operator) m := by
  refine (agrees_pop h hsmall).bind fun left m' _ => ?_
  rw [Agrees, get_bind, ofAction, Machine.get_bind]
  cases operator.apply? left m'.acc with
  | none => rfl
  | some word => rfl

omit h hsmall in
theorem checkString_eq (word : Word) : checkString word m = .ok () m := by
  rw [checkString, get_bind]
  cases hfilter : word.count?.filter (· < m.memory.size) with
  | none => rfl
  | some start =>
      have hstart : start < m.memory.size :=
        of_decide_eq_true (Option.filter_eq_some_iff.1 hfilter).2
      exact bind_of_ok (slice_eq (Nat.le_of_lt hstart) (Nat.le_refl _))

omit h hsmall in
theorem checkStrings_eq (words : List Word) : checkStrings words m = .ok () m := by
  induction words with
  | nil => rfl
  | cons word rest ih => exact (bind_of_ok (checkString_eq word)).trans ih

omit h hsmall in
theorem checkSpan_eq {span : Action Extent} (hspan : ∀ extent m', span m = .ok extent m' →
    extent.start ≤ extent.stop ∧ extent.stop ≤ m.memory.size) : checkSpan span m = .ok () m := by
  rw [checkSpan, get_bind]
  cases hresult : span m with
  | error error m' => rfl
  | ok extent m' =>
      obtain ⟨hstart, hstop⟩ := hspan extent m' hresult
      exact bind_of_ok (slice_eq hstart hstop)

omit h hsmall in
theorem checkSpan_readable (start size : Word) :
    checkSpan (readable start size) m = .ok () m :=
  checkSpan_eq fun _ _ hok => ⟨(readable_eq_ok hok).1, (readable_eq_ok hok).2.1⟩

omit h hsmall in
theorem checkSpan_writable (start size : Word) :
    checkSpan (writable start size) m = .ok () m :=
  checkSpan_eq fun _ _ hok =>
    ⟨(readable_eq_ok (writable_eq_ok hok)).1, (readable_eq_ok (writable_eq_ok hok)).2.1⟩

/-- Blocks of the heap lie in the pool. -/
theorem checkBlock_eq {address size : Nat} (hstop : address + size ≤ m.layout.heap.stop) :
    checkBlock address size m = .ok () m := by
  have hstack := h.sound.ordered.stack
  have hstackStop := h.sound.ordered.stackStop
  have hsize := h.size_eq
  unfold Layout.poolSize at hsmall
  refine (bind_of_ok (plus_eq (by omega))).trans ?_
  exact bind_of_ok (slice_eq (Nat.le_add_right _ _) (by simp only; omega))

theorem checkTrap_eq (request : Trap) (arguments : List Word) :
    checkTrap request arguments m = .ok () m := by
  rw [checkTrap, get_bind]
  cases request with
  | «open» => exact checkString_eq _
  | read => exact checkSpan_writable _ _
  | close => rfl
  | printf => exact checkStrings_eq _
  | malloc =>
      simp only
      cases hallocate : m.heap.allocate? ((arguments.getD 0 0).count?.getD 0) with
      | none => rfl
      | some found =>
          obtain ⟨address, heap⟩ := found
          have hlive := (Heap.allocate?_eq_some hallocate).2.2
          have hblock := (h.heap.allocate hallocate).inside
            (List.mem_append_right _ (hlive ▸ List.mem_cons_self))
          exact checkBlock_eq h hsmall hblock.2
  | free =>
      simp only
      cases hrelease : m.heap.release? ((arguments.getD 0 0).count?.getD 0) with
      | none => rfl
      | some found =>
          obtain ⟨size, heap⟩ := found
          obtain ⟨block, hlive, hstart, hsize, -⟩ := Heap.release?_eq_some hrelease
          have hblock := h.heap.inside (List.mem_append_right _ hlive)
          have hnonempty := h.heap.live block hlive
          refine checkBlock_eq h hsmall ?_
          unfold Extent.size at hsize
          omega
  | memset => exact checkSpan_writable _ _
  | memcmp =>
      exact (bind_of_ok (checkSpan_readable _ _)).trans (checkSpan_readable _ _)

theorem agrees_trap (request : Trap) (size : Word) :
    Agrees (trap request size) (Machine.trap request size) m := by
  have hpop := agrees_popArguments h size
  rw [Agrees, ofAction] at hpop
  rw [Agrees, trap, get_bind]
  rcases popArguments_cases size m with ⟨n, -, hstop, hok⟩ | ⟨error, herror⟩
  · rw [hok] at hpop
    have hsp := h.sp_bounds
    have hpopped : m.Confined (fun _ => False) { m with sp := m.sp + n } :=
      h.move (by omega) h.bp_bounds
    exact (bind_of_ok hpop).trans (bind_of_ok (checkTrap_eq hpopped.intact hsmall _ _))
  · rw [herror] at hpop
    have htrap : Machine.trap request size m = .error error m := by
      rw [Machine.trap, Machine.bind_of_error herror]
    rw [ofAction, htrap]
    exact bind_of_error hpop

theorem agrees_execute (instruction : Instruction) :
    Agrees (execute instruction) (Machine.execute instruction) m := by
  obtain ⟨opcode, operand⟩ := instruction
  have hdone {guarded : Guarded Unit} {action : Action Unit} (hagrees : Agrees guarded action m) :
      Agrees (guarded >>= fun _ => pure (none : Option Word)) (action >>= fun _ => pure none) m :=
    hagrees.bind fun _ _ _ => rfl
  cases opcode with
  | call => exact hdone (agrees_callTo h _)
  | ent => exact hdone (agrees_enterFrame h _)
  | adj => exact hdone (agrees_adjust h hsmall _)
  | lev => exact hdone (agrees_leaveFrame h hsmall)
  | li => exact hdone (agrees_loadIndirect h)
  | si => exact hdone (agrees_storeIndirect h hsmall)
  | push => exact hdone (agrees_push h m.acc)
  | binary operator => exact hdone (agrees_combine h hsmall operator)
  | trap request =>
      exact (agrees_trap h hsmall request (operand.getD 0)).bind fun _ _ _ => rfl
  | _ => rfl

omit hsmall in
/-- What the rest of the text decodes to. -/
theorem decode?_text (hstart : m.pc < m.textEnd) {opcode : Opcode}
    (hopcode : Opcode.ofWord? (m.wordAt m.pc) = some opcode) :
    Instruction.decode? (m.words { start := m.pc, stop := m.textEnd }) =
      if opcode.hasOperand then
        if m.pc + 1 < m.textEnd then some { opcode, operand := some (m.wordAt (m.pc + 1)) }
        else none
      else some { opcode, operand := none } := by
  have hpool := h.sound.textEnd_lt_size
  have hwords (index : Nat) := m.getElem?_words m.pc m.textEnd index
  generalize m.words { start := m.pc, stop := m.textEnd } = words at hwords
  have hfirst := hwords 0
  have hsecond := hwords 1
  rw [Nat.add_zero, if_pos hstart, Array.getElem?_eq_getElem (by omega)] at hfirst
  cases words with
  | nil => cases hfirst
  | cons word rest =>
      have hword : word = m.wordAt m.pc := by
        rw [wordAt, Array.getD_eq_getD_getElem?, Array.getElem?_eq_getElem (by omega)]
        exact Option.some.inj hfirst
      have hrest : rest.head? =
          if m.pc + 1 < m.textEnd then some (m.wordAt (m.pc + 1)) else none := by
        rw [List.head?_eq_getElem?]
        refine hsecond.trans ?_
        by_cases hnext : m.pc + 1 < m.textEnd
        · rw [if_pos hnext, if_pos hnext, wordAt, Array.getD_eq_getD_getElem?,
            Array.getElem?_eq_getElem (by omega)]
          rfl
        · rw [if_neg hnext, if_neg hnext]
      simp only [Instruction.decode?, hword, hopcode, hrest, Option.bind_eq_bind, Option.bind_some]
      by_cases hoperand : opcode.hasOperand
      · rw [if_pos hoperand, if_pos hoperand]
        by_cases hnext : m.pc + 1 < m.textEnd
        · rw [if_pos hnext, if_pos hnext]
          rfl
        · rw [if_neg hnext, if_neg hnext]
          rfl
      · rw [if_neg hoperand, if_neg hoperand]
        rfl

omit h hsmall in
theorem fetch_of_opcode (hpc : ¬(m.pc < m.layout.text.start ∨ m.textEnd ≤ m.pc)) {opcode : Opcode}
    (hopcode : Opcode.ofWord? (m.wordAt m.pc) = some opcode) (hplac : opcode ≠ .plac) :
    m.fetch =
      if opcode.hasOperand then
        if m.pc + 1 < m.textEnd then .ok { opcode, operand := some (m.wordAt (m.pc + 1)) }
        else .error (.invalidAccess (Word.ofCount m.pc + 1) m.pc)
      else .ok { opcode, operand := none } := by
  rw [Machine.fetch, if_neg hpc]
  simp only [hopcode]

theorem fetch_eq : fetch m =
    match m.fetch with
    | .ok instruction => .ok instruction m
    | .error error => .error (some error) m := by
  have htext := h.sound.textEnd_lt_size
  rw [fetch, get_bind]
  by_cases hpc : m.pc < m.layout.text.start ∨ m.textEnd ≤ m.pc
  · rw [Machine.fetch, if_pos hpc, if_pos hpc]
    rfl
  rw [if_neg hpc]
  refine (bind_of_ok (index_eq (by omega))).trans ?_
  cases hopcode : Opcode.ofWord? (m.wordAt m.pc) with
  | none =>
      rw [Machine.fetch, if_neg hpc]
      simp only [hopcode]
      rfl
  | some opcode =>
      by_cases hplac : opcode = .plac
      · subst hplac
        rw [Machine.fetch, if_neg hpc]
        simp only [hopcode]
        rfl
      have hslice := @slice_eq m { start := m.pc, stop := m.textEnd } (by simp only; omega)
        (by simp only; omega)
      simp only
      rw [fetch_of_opcode hpc hopcode hplac, if_neg hplac]
      refine (bind_of_ok hslice).trans ?_
      rw [decode?_text h (by omega) hopcode]
      by_cases hoperand : opcode.hasOperand
      · rw [if_pos hoperand, if_pos hoperand]
        by_cases hnext : m.pc + 1 < m.textEnd
        · rw [if_pos hnext, if_pos hnext]
          rfl
        · rw [if_neg hnext, if_neg hnext]
          have hsum : Word.ofCount m.pc + 1 = Word.ofCount (m.pc + 1) := (Int64.ofNat_add _ _).symm
          rw [hsum]
          refine require_bind ?_ _
          rw [h.sound.size] at htext
          omega
      · rw [if_neg hoperand, if_neg hoperand]
        rfl

omit h hsmall in
theorem pc_lt_of_fetch {instruction : Instruction} (hfetch : m.fetch = .ok instruction) :
    m.pc < m.textEnd := by
  unfold Machine.fetch at hfetch
  by_cases hpc : m.pc < m.layout.text.start ∨ m.textEnd ≤ m.pc
  · rw [if_pos hpc] at hfetch
    cases hfetch
  · omega

/-- A step accesses nothing but what is there. -/
theorem agrees_step (tracing : Bool) : Agrees (step tracing) (Machine.step tracing) m := by
  by_cases hlimit : ∀ limit, m.cycleLimit = some limit → m.cycles < limit
  · have hcheck : ofAction checkCycleLimit m = .ok () m := by
      rw [ofAction, checkCycleLimit_eq hlimit]
    have hstarted : m.Confined (fun _ => False) { m with current := m.pc } :=
      h.move h.sp_bounds h.bp_bounds
    have hfetch := fetch_eq hstarted.intact hsmall
    refine (bind_of_ok hcheck).trans ((modify_bind _ _).trans ?_)
    cases hfetched : m.fetch with
    | error error =>
        rw [show Machine.fetch { m with current := m.pc } = .error error from hfetched] at hfetch
        rw [ofAction, step_of_unfetched hlimit hfetched]
        exact bind_of_error hfetch
    | ok instruction =>
        rw [show Machine.fetch { m with current := m.pc } = .ok instruction from hfetched] at hfetch
        have hready : m.Confined (fun _ => False) (m.advance tracing instruction) :=
          h.move h.sp_bounds h.bp_bounds
        have hexecute := agrees_execute hready.intact hsmall instruction
        have hsum : m.pc + instruction.width < 2 ^ 64 := by
          have hpc := pc_lt_of_fetch hfetched
          have htext := h.sound.textEnd_lt_size
          have hwidth : instruction.width ≤ 2 := by
            unfold Instruction.width
            split <;> omega
          rw [h.sound.size] at htext
          omega
        rw [ofAction, step_of_fetch hlimit hfetched]
        refine (bind_of_ok hfetch).trans ((modify_bind _ _).trans ?_)
        cases tracing with
        | false => exact (bind_of_ok (plus_eq hsum)).trans hexecute
        | true => exact (modify_bind _ _).trans ((bind_of_ok (plus_eq hsum)).trans hexecute)
  · obtain ⟨limit, hsome, hover⟩ : ∃ limit, m.cycleLimit = some limit ∧ limit ≤ m.cycles := by
      simpa using hlimit
    have hcheck : ofAction checkCycleLimit m = .error (some (.cycleLimit limit)) m := by
      rw [ofAction, checkCycleLimit_of_limit hsome hover]
    rw [Agrees, ofAction, step_of_limit hsome hover]
    exact bind_of_error hcheck

end Intact

end Guarded

/-! ## Runs of arbitrary text -/

/-- What holds of a step, whether it succeeds or not: it does not overrun, the machine stays intact
with its text and data image as they are, and only the words that the instruction names may
change. -/
structure StepStays (m : Machine) (tracing : Bool) : Prop where
  inBounds : Guarded.step tracing m = Guarded.ofAction (step tracing) m
  confined : m.Confined (m.StepTouches (m.after (step tracing))) (m.after (step tracing))

/-- What holds of a run: however far it gets, it leaves an intact machine with the text it began
with, and each of its steps stays where it may. -/
structure RunStays (start : Machine) (entry : Nat) (tracing : Bool) : Prop where
  confined : ∀ steps,
    start.Confined (start.layout.text.stop ≤ ·) (start.after (runFrom entry tracing steps))
  step : ∀ steps m, runFrom entry tracing steps start = .ok none m → m.StepStays tracing

variable {m machine : Machine} {poolSize : Nat} {host : Host}

theorem Intact.stepStays (h : m.Intact) (hsmall : m.layout.poolSize < 2 ^ 63) (tracing : Bool) :
    m.StepStays tracing where
  inBounds := Guarded.agrees_step h hsmall tracing
  confined := h.after_step tracing

theorem Intact.runStays (h : m.Intact) (hsmall : m.layout.poolSize < 2 ^ 63) (entry : Nat)
    (tracing : Bool) : m.RunStays entry tracing where
  confined := h.after_runFrom entry tracing
  step := by
    intro steps m' hrun
    have hconfined := h.after_runFrom entry tracing steps
    rw [after_of_ok hrun] at hconfined
    exact hconfined.intact.stepStays (hconfined.keeps.layout ▸ hsmall) tracing

/-- Whatever has been written into a machine, compiled or not, and whatever has been run on it: from
any entry it runs within its bounds. -/
theorem runStays_performAll (hcreate : create poolSize host = .ok machine)
    (hsmall : poolSize < 2 ^ 63) (calls : List Call) (entry : Nat) (tracing : Bool) :
    (machine.performAll calls).RunStays entry tracing := by
  obtain ⟨hintact, hpool⟩ := intact_create hcreate
  have hcalls := (IntactWith.mk hintact rfl).performAll calls
  exact hcalls.intact.runStays (hcalls.layout ▸ hpool ▸ hsmall) entry tracing

/-- A text that is no program: its one instruction pushes and runs into a word without a meaning. -/
theorem runStays_small : create 256 {} = .ok small ∧ 256 < 2 ^ 63 ∧
    (small.performAll [.emit Opcode.push.word, .emit (-1), .allocate [7]]).status.isRunnable ∧
    (small.performAll [.emit Opcode.push.word, .emit (-1), .allocate [7]]).RunStays 0 false :=
  ⟨create_small, by decide, by decide +kernel,
    runStays_performAll create_small (by decide) _ 0 false⟩

end Machine

end WordC
