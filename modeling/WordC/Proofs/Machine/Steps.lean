import Mathlib.Algebra.Group.Nat.Defs
import WordC.Machine.Run
import WordC.Proofs.Machine.Decoding
import WordC.Proofs.Machine.Sound

/-!
# What instructions do

One lemma for each instruction says what it does where its operands are as compiled code has them:
the stack has the words that are popped, and addresses and targets are words of the pool.
-/

namespace WordC

/-! ## Words as addresses -/

namespace Word

theorem toInt_ofCount {n : Nat} (h : n < 2 ^ 63) : (ofCount n).toInt = n := by
  rw [ofCount, Int64.toInt_ofNat_of_lt h]

theorem count?_ofCount {n : Nat} (h : n < 2 ^ 63) : (ofCount n).count? = some n := by
  rw [count?, toInt_ofCount h, if_neg (by omega)]
  rfl

theorem ofCount_sub {n i : Nat} (h : i ≤ n) : ofCount n - ofCount i = ofCount (n - i) := by
  obtain ⟨k, rfl⟩ := Nat.exists_eq_add_of_le h
  rw [Nat.add_sub_cancel_left, ofCount, ofCount, ofCount, Int64.ofNat_add, Int64.add_comm,
    Int64.add_sub_cancel]

theorem ofCount_sub_neg (n i : Nat) : ofCount n - -ofCount i = ofCount (n + i) := by
  rw [ofCount, ofCount, ofCount, Int64.ofNat_add, Int64.sub_neg]

end Word

namespace Machine

variable {m m' : Machine} {α β : Type}

/-! ## Actions -/

theorem bind_of_ok {action : Action α} {next : α → Action β} {value : α}
    (h : action m = .ok value m') : (action >>= next) m = next value m' := by
  change EStateM.bind action next m = _
  unfold EStateM.bind
  rw [h]

theorem bind_of_error {action : Action α} {next : α → Action β} {error : Error}
    (h : action m = .error error m') : (action >>= next) m = .error error m' := by
  change EStateM.bind action next m = _
  unfold EStateM.bind
  rw [h]

theorem get_bind (next : Machine → Action β) : (get >>= next) m = next m m := rfl

theorem modify_bind (change : Machine → Machine) (next : Unit → Action β) :
    (modify change >>= next) m = next () (change m) := rfl

/-- Whether an address is one at which an instruction may be fetched. -/
structure IsTarget (m : Machine) (address : Nat) : Prop where
  start : m.layout.text.start ≤ address
  stop : address < m.textEnd
  small : address < 2 ^ 63

theorem jumpTarget_eq {address : Nat} (h : m.IsTarget address) :
    jumpTarget (Word.ofCount address) m = .ok address m := by
  have hfilter : (some address).filter (fun target =>
      m.layout.text.start ≤ target && target < m.textEnd) = some address := by
    simp [h.start, h.stop]
  rw [jumpTarget, Word.count?_ofCount h.small, hfilter]

theorem jump_eq {address : Nat} (h : m.IsTarget address) :
    jump (Word.ofCount address) m = .ok () { m with pc := address } := by
  rw [jump, bind_of_ok (jumpTarget_eq h)]
  rfl

theorem count_eq {n : Nat} (h : n < 2 ^ 63) : count (Word.ofCount n) m = .ok n m := by
  rw [count, Word.count?_ofCount h]

theorem push_eq {word : Word} (h : m.layout.stack.start < m.sp) :
    push word m = .ok () { m.setWord (m.sp - 1) word with sp := m.sp - 1 } := by
  rw [push, if_neg (by omega)]

theorem push_full {word : Word} (h : m.sp ≤ m.layout.stack.start) :
    push word m = .error (.stackOverflow m.current) m := by
  rw [push, if_pos h]

theorem pop_eq (h : m.sp < m.layout.stack.stop) :
    pop m = .ok (m.wordAt m.sp) { m with sp := m.sp + 1 } := by
  rw [pop, if_neg (by omega)]

theorem writable_eq {address : Nat} (hsmall : address < 2 ^ 63) (hsize : address < m.memory.size)
    (htext : m.layout.text.stop ≤ address) :
    writable (Word.ofCount address) 1 m = .ok { start := address, stop := address + 1 } m := by
  have hread : readable (Word.ofCount address) 1 m =
      .ok { start := address, stop := address + 1 } m := by
    have hone : Word.count? 1 = some 1 := by decide
    rw [readable, Word.count?_ofCount hsmall, hone]
    exact if_pos hsize
  rw [writable, bind_of_ok hread, get_bind]
  rw [if_neg (by simp only [not_and]; omega)]
  rfl

/-! ## Instructions -/

theorem execute_jmp {address : Nat} (h : m.IsTarget address) :
    execute { opcode := .jmp, operand := some (Word.ofCount address) } m =
      .ok none { m with pc := address } := by
  change (jump (Word.ofCount address) >>= fun _ => pure none) m = _
  rw [bind_of_ok (jump_eq h)]
  rfl

theorem execute_jz_of_eq {address : Nat} (h : m.IsTarget address) (hacc : m.acc = 0) :
    execute { opcode := .jz, operand := some (Word.ofCount address) } m =
      .ok none { m with pc := address } := by
  change (if m.acc = 0 then jump (Word.ofCount address) >>= fun _ => pure none
    else pure none : Action (Option Word)) m = _
  rw [if_pos hacc]
  exact execute_jmp h

theorem execute_jz_of_ne {address : Nat} (hacc : m.acc ≠ 0) :
    execute { opcode := .jz, operand := some (Word.ofCount address) } m = .ok none m := by
  change (if m.acc = 0 then jump (Word.ofCount address) >>= fun _ => pure none
    else pure none : Action (Option Word)) m = _
  rw [if_neg hacc]
  rfl

theorem execute_jnz_of_ne {address : Nat} (h : m.IsTarget address) (hacc : m.acc ≠ 0) :
    execute { opcode := .jnz, operand := some (Word.ofCount address) } m =
      .ok none { m with pc := address } := by
  change (if m.acc ≠ 0 then jump (Word.ofCount address) >>= fun _ => pure none
    else pure none : Action (Option Word)) m = _
  rw [if_pos hacc]
  exact execute_jmp h

theorem execute_jnz_of_eq {address : Nat} (hacc : m.acc = 0) :
    execute { opcode := .jnz, operand := some (Word.ofCount address) } m = .ok none m := by
  change (if m.acc ≠ 0 then jump (Word.ofCount address) >>= fun _ => pure none
    else pure none : Action (Option Word)) m = _
  rw [if_neg (not_not_intro hacc)]
  rfl

/-- A conditional jump is taken or not. -/
theorem execute_branch {opcode : Opcode} {isTaken : Bool} {address : Nat} (h : m.IsTarget address)
    (hopcode : opcode = .jz ∧ isTaken = decide (m.acc = 0) ∨
      opcode = .jnz ∧ isTaken = decide (m.acc ≠ 0)) :
    execute { opcode, operand := some (Word.ofCount address) } m =
      .ok none { m with pc := if isTaken then address else m.pc } := by
  by_cases hacc : m.acc = 0
  · rcases hopcode with ⟨rfl, rfl⟩ | ⟨rfl, rfl⟩
    · rw [execute_jz_of_eq h hacc, decide_eq_true hacc, if_pos rfl]
    · rw [execute_jnz_of_eq hacc, decide_eq_false (not_not_intro hacc),
        if_neg Bool.false_ne_true]
  · rcases hopcode with ⟨rfl, rfl⟩ | ⟨rfl, rfl⟩
    · rw [execute_jz_of_ne hacc, decide_eq_false hacc, if_neg Bool.false_ne_true]
    · rw [execute_jnz_of_ne h hacc, decide_eq_true hacc, if_pos rfl]

theorem execute_push (h : m.layout.stack.start < m.sp) :
    execute { opcode := .push, operand := none } m =
      .ok none { m.setWord (m.sp - 1) m.acc with sp := m.sp - 1 } := by
  change (push m.acc >>= fun _ => pure none) m = _
  rw [bind_of_ok (push_eq h)]
  rfl

theorem execute_push_full (h : m.sp ≤ m.layout.stack.start) :
    execute { opcode := .push, operand := none } m = .error (.stackOverflow m.current) m := by
  change (push m.acc >>= fun _ => pure none) m = _
  rw [bind_of_error (push_full h)]

theorem execute_call {address : Nat} (h : m.IsTarget address)
    (hroom : m.layout.stack.start < m.sp) :
    execute { opcode := .call, operand := some (Word.ofCount address) } m =
      .ok none
        { m.setWord (m.sp - 1) (Word.ofCount m.pc) with sp := m.sp - 1, pc := address } := by
  change (callTo (Word.ofCount address) >>= fun _ => pure none) m = _
  rw [callTo, bind_assoc, bind_of_ok (jumpTarget_eq h)]
  change ((push (Word.ofCount m.pc) >>= fun _ => _) >>= fun _ => pure none) m = _
  rw [bind_assoc, bind_of_ok (push_eq hroom)]
  rfl

theorem execute_call_full {address : Nat} (h : m.IsTarget address)
    (hfull : m.sp ≤ m.layout.stack.start) :
    execute { opcode := .call, operand := some (Word.ofCount address) } m =
      .error (.stackOverflow m.current) m := by
  change (callTo (Word.ofCount address) >>= fun _ => pure none) m = _
  rw [callTo, bind_assoc, bind_of_ok (jumpTarget_eq h)]
  change ((push (Word.ofCount m.pc) >>= fun _ => _) >>= fun _ => pure none) m = _
  rw [bind_assoc, bind_of_error (push_full hfull)]

theorem execute_adj {n : Nat} (hsmall : n < 2 ^ 63) (h : m.sp + n ≤ m.layout.stack.stop) :
    execute { opcode := .adj, operand := some (Word.ofCount n) } m =
      .ok none { m with sp := m.sp + n } := by
  change (adjust (Word.ofCount n) >>= fun _ => pure none) m = _
  rw [adjust, bind_assoc, bind_of_ok (count_eq hsmall)]
  rw [bind_assoc, get_bind]
  simp only
  rw [if_neg (by omega)]
  rfl

/-- The frame of a function is opened: the base pointer is saved and the slots are zero. -/
def entered (m : Machine) (slots : Nat) : Machine :=
  { ({ m.setWord (m.sp - 1) (Word.ofCount m.bp) with sp := m.sp - 1, bp := m.sp - 1 }).fill
      { start := m.sp - 1 - slots, stop := m.sp - 1 } 0 with sp := m.sp - 1 - slots }

theorem execute_ent {slots : Nat} (hsmall : slots < 2 ^ 63) (hroom : m.layout.stack.start < m.sp)
    (hslots : slots ≤ m.sp - 1 - m.layout.stack.start) :
    execute { opcode := .ent, operand := some (Word.ofCount slots) } m =
      .ok none (m.entered slots) := by
  change (enterFrame (Word.ofCount slots) >>= fun _ => pure none) m = _
  rw [enterFrame, bind_assoc, get_bind, bind_assoc, bind_of_ok (push_eq hroom), bind_assoc,
    modify_bind, bind_assoc, bind_of_ok (count_eq hsmall), bind_assoc, get_bind]
  simp only
  rw [if_neg (by simp only [setWord]; omega)]
  rfl

theorem execute_ent_full {slots : Nat} (hsmall : slots < 2 ^ 63)
    (h : m.sp ≤ m.layout.stack.start ∨ m.sp - 1 - m.layout.stack.start < slots) :
    ∃ m', execute { opcode := .ent, operand := some (Word.ofCount slots) } m =
      .error (.stackOverflow m.current) m' := by
  change ∃ m', (enterFrame (Word.ofCount slots) >>= fun _ => pure none) m = _
  rw [enterFrame, bind_assoc, get_bind, bind_assoc]
  by_cases hroom : m.sp ≤ m.layout.stack.start
  · exact ⟨m, bind_of_error (push_full hroom)⟩
  · refine ⟨{ m.setWord (m.sp - 1) (Word.ofCount m.bp) with sp := m.sp - 1, bp := m.sp - 1 }, ?_⟩
    rw [bind_of_ok (push_eq (by omega)), bind_assoc, modify_bind, bind_assoc,
      bind_of_ok (count_eq hsmall), bind_assoc, get_bind]
    simp only
    rw [if_pos (by simp only [setWord]; omega)]
    rfl

theorem execute_lev {saved target : Nat} (hbp : m.bp + 1 < m.layout.stack.stop)
    (hsaved : m.wordAt m.bp = Word.ofCount saved) (hsmall : saved < 2 ^ 63)
    (hstart : m.layout.stack.start ≤ saved) (hstop : saved ≤ m.layout.stack.stop)
    (hreturn : m.wordAt (m.bp + 1) = Word.ofCount target) (htarget : m.IsTarget target) :
    execute { opcode := .lev, operand := none } m =
      .ok none { m with sp := m.bp + 2, bp := saved, pc := target } := by
  change (leaveFrame >>= fun _ => pure none) m = _
  have hfirst : pop { m with sp := m.bp } = .ok (Word.ofCount saved) { m with sp := m.bp + 1 } := by
    rw [pop_eq (by simp only; omega), ← hsaved]
    rfl
  have hsecond : pop { m with sp := m.bp + 1, bp := saved } =
      .ok (Word.ofCount target) { m with sp := m.bp + 2, bp := saved } := by
    rw [pop_eq hbp, ← hreturn]
    rfl
  have hfilter : ((Word.ofCount saved).count?.filter fun bp =>
      m.layout.stack.start ≤ bp && bp ≤ m.layout.stack.stop) = some saved := by
    rw [Word.count?_ofCount hsmall]
    simp [hstart, hstop]
  have hjump : jump (Word.ofCount target) { m with sp := m.bp + 2, bp := saved } =
      .ok () { m with sp := m.bp + 2, bp := saved, pc := target } :=
    jump_eq ⟨htarget.start, htarget.stop, htarget.small⟩
  refine (@bind_of_ok m _ _ _ _ _ () ?_).trans rfl
  rw [leaveFrame, modify_bind, bind_of_ok hfirst, get_bind]
  simp only
  rw [hfilter]
  exact (modify_bind _ _).trans ((bind_of_ok hsecond).trans hjump)

theorem execute_li {address : Nat} (hcount : m.acc.count? = some address)
    (hsize : address < m.memory.size) :
    execute { opcode := .li, operand := none } m = .ok none { m with acc := m.wordAt address } := by
  change (loadIndirect >>= fun _ => pure none) m = _
  have haddress : Machine.address m.acc m = .ok address m := by
    have hfilter : (some address).filter (fun address => address < m.memory.size) =
        some address := by
      simp [hsize]
    rw [Machine.address, hcount, hfilter]
  rw [loadIndirect, bind_assoc, get_bind, bind_assoc, bind_of_ok haddress]
  rfl

theorem execute_li_fault
    (h : ∀ address, m.acc.count? = some address → m.memory.size ≤ address) :
    execute { opcode := .li, operand := none } m = .error (m.fault m.acc) m := by
  change (loadIndirect >>= fun _ => pure none) m = _
  have haddress : Machine.address m.acc m = .error (m.fault m.acc) m := by
    have hfilter : m.acc.count?.filter (fun address => address < m.memory.size) = none := by
      cases hcount : m.acc.count? with
      | none => rfl
      | some address => simp [h address hcount]
    rw [Machine.address, hfilter]
  rw [loadIndirect, bind_assoc, get_bind, bind_assoc, bind_of_error haddress]

theorem execute_si {address : Nat} (hpop : m.sp < m.layout.stack.stop)
    (hacc : m.acc = Word.ofCount address) (hsmall : address < 2 ^ 63)
    (hsize : address < m.memory.size) (htext : m.layout.text.stop ≤ address) :
    execute { opcode := .si, operand := none } m =
      .ok none
        { m.setWord address (m.wordAt m.sp) with sp := m.sp + 1, acc := m.wordAt m.sp } := by
  change (storeIndirect >>= fun _ => pure none) m = _
  have hwritable : writable m.acc 1 { m with sp := m.sp + 1 } =
      .ok { start := address, stop := address + 1 } { m with sp := m.sp + 1 } := by
    rw [hacc]
    exact writable_eq hsmall hsize htext
  rw [storeIndirect, bind_assoc, bind_of_ok (pop_eq hpop), bind_assoc, get_bind, bind_assoc,
    bind_of_ok hwritable]
  rfl

theorem execute_binary {operator : Operator} {word : Word} (hpop : m.sp < m.layout.stack.stop)
    (hword : operator.apply? (m.wordAt m.sp) m.acc = some word) :
    execute { opcode := .binary operator, operand := none } m =
      .ok none { m with sp := m.sp + 1, acc := word } := by
  change (combine operator >>= fun _ => pure none) m = _
  rw [combine, bind_assoc, bind_of_ok (pop_eq hpop), bind_assoc, get_bind]
  simp only
  rw [hword]
  rfl

theorem execute_binary_fault {operator : Operator} (hpop : m.sp < m.layout.stack.stop)
    (hnone : operator.apply? (m.wordAt m.sp) m.acc = none) :
    execute { opcode := .binary operator, operand := none } m =
      .error (.divisionByZero m.current) { m with sp := m.sp + 1 } := by
  change (combine operator >>= fun _ => pure none) m = _
  rw [combine, bind_assoc, bind_of_ok (pop_eq hpop), bind_assoc, get_bind]
  simp only
  rw [hnone]
  rfl

/-! ## Steps -/

variable {tracing : Bool} {instruction : Instruction}

/-- An instruction is fetched where all of its words are. -/
theorem fetch_eq (hstart : m.layout.text.start ≤ m.pc)
    (hstop : m.pc + instruction.width ≤ m.textEnd) (hcomplete : instruction.IsComplete)
    (hpatched : instruction.opcode ≠ .plac) (hopcode : m.wordAt m.pc = instruction.opcode.word)
    (hoperand : ∀ word, instruction.operand = some word → m.wordAt (m.pc + 1) = word) :
    m.fetch = .ok instruction := by
  obtain ⟨opcode, operand⟩ := instruction
  change opcode.hasOperand = operand.isSome at hcomplete
  have hpc : ¬(m.pc < m.layout.text.start ∨ m.textEnd ≤ m.pc) := by
    have hpos : 0 < Instruction.width { opcode, operand } := by
      cases operand <;> exact Nat.succ_pos _
    omega
  have hfetch : (if opcode.hasOperand then
      if m.pc + 1 < m.textEnd then
        (.ok { opcode, operand := some (m.wordAt (m.pc + 1)) } : Except Error Instruction)
      else .error (.invalidAccess (Word.ofCount m.pc + 1) m.pc)
      else .ok { opcode, operand := none }) = .ok { opcode, operand } := by
    cases operand with
    | none => rw [if_neg (by rw [hcomplete]; exact Bool.false_ne_true)]
    | some word =>
        have hlength : m.pc + 2 ≤ m.textEnd := hstop
        rw [if_pos (by rw [hcomplete]; rfl), if_pos (by omega), hoperand word rfl]
  unfold fetch
  simp only
  rw [if_neg hpc, hopcode, Opcode.ofWord?_word]
  cases opcode with
  | plac => exact absurd rfl hpatched
  | _ => exact hfetch

/-- The machine in which an instruction is carried out once it has been fetched. -/
def advance (m : Machine) (tracing : Bool) (instruction : Instruction) : Machine :=
  { m with
    current := m.pc
    cycles := m.cycles + 1
    pc := m.pc + instruction.width
    host :=
      if tracing then m.host.report (.executing (m.cycles + 1) m.pc instruction) else m.host }

theorem checkCycleLimit_of_limit {limit : Nat} (hlimit : m.cycleLimit = some limit)
    (h : limit ≤ m.cycles) : checkCycleLimit m = .error (.cycleLimit limit) m := by
  rw [checkCycleLimit, get_bind]
  simp only [hlimit]
  rw [if_pos h]
  rfl

theorem step_of_limit {limit : Nat} (hlimit : m.cycleLimit = some limit) (h : limit ≤ m.cycles) :
    step tracing m = .error (.cycleLimit limit) m := by
  rw [step, bind_of_error (checkCycleLimit_of_limit hlimit h)]

theorem checkCycleLimit_eq (hlimit : ∀ limit, m.cycleLimit = some limit → m.cycles < limit) :
    checkCycleLimit m = .ok () m := by
  rw [checkCycleLimit, get_bind]
  cases hlimited : m.cycleLimit with
  | none => rfl
  | some limit =>
      simp only
      rw [if_neg (Nat.not_le.2 (hlimit limit hlimited))]
      rfl

theorem step_of_fetch (hlimit : ∀ limit, m.cycleLimit = some limit → m.cycles < limit)
    (hfetch : m.fetch = .ok instruction) :
    step tracing m = execute instruction (m.advance tracing instruction) := by
  have hfetched : fetch { m with current := m.pc } = .ok instruction := hfetch
  rw [step, bind_of_ok (checkCycleLimit_eq hlimit), modify_bind, get_bind, hfetched]
  cases tracing <;> rfl

theorem step_of_unfetched {error : Error}
    (hlimit : ∀ limit, m.cycleLimit = some limit → m.cycles < limit)
    (hfetch : m.fetch = .error error) :
    step tracing m = .error error { m with current := m.pc } := by
  have hfetched : fetch { m with current := m.pc } = .error error := hfetch
  rw [step, bind_of_ok (checkCycleLimit_eq hlimit), modify_bind, get_bind, hfetched]
  rfl

/-- A step is refused, cannot fetch its instruction, or carries it out. -/
theorem step_cases (tracing : Bool) (m : Machine) :
    (∃ limit, step tracing m = .error (.cycleLimit limit) m) ∨
      (∃ error, m.fetch = .error error ∧
        step tracing m = .error error { m with current := m.pc }) ∨
      ∃ instruction, m.fetch = .ok instruction ∧
        step tracing m = execute instruction (m.advance tracing instruction) := by
  by_cases hlimit : ∀ limit, m.cycleLimit = some limit → m.cycles < limit
  · cases hfetch : m.fetch with
    | error error => exact .inr (.inl ⟨error, rfl, step_of_unfetched hlimit hfetch⟩)
    | ok instruction => exact .inr (.inr ⟨instruction, rfl, step_of_fetch hlimit hfetch⟩)
  · obtain ⟨limit, hsome, hover⟩ : ∃ limit, m.cycleLimit = some limit ∧ limit ≤ m.cycles := by
      simpa using hlimit
    exact .inl ⟨limit, step_of_limit hsome hover⟩

end Machine

end WordC
