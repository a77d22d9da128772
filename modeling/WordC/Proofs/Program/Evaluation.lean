import WordC.Proofs.Machine.Intact
import WordC.Proofs.Machine.Walks
import WordC.Proofs.Program.Stores
import WordC.Proofs.Target.Accounts

/-!
# Expressions in a running machine

The code of an expression without calls finds its variables through the base pointer and keeps what
it has computed so far on the stack. A machine that walks through it comes to the value of the
account, or to its fault, unless the stack is full or no more cycles are allowed on the way. Nothing
below the words that it found on the stack is used, so operands can be evaluated on top of any
others.
-/

namespace WordC

open WordC.Core (Context Instr Place)

namespace Machine

variable {tracing : Bool} {base origin m m' m'' : Machine} {start stop stop' : Nat}
  {instr : Instr} {front back rest code : List Instr} {context : Context}

/-! ## Code in the text -/

/-- Code stands in the text from an address on. -/
structure Hosts (m : Machine) (start : Nat) (code : List Instr) : Prop where
  above : m.layout.text.start ≤ start
  stop : start + Core.size code ≤ m.textEnd
  words : ∀ (index : Nat) (word : Word), (Core.cells code)[index]? = some (.known word) →
    m.memory[start + index]? = some word

theorem Hosts.left (h : m.Hosts start (front ++ back)) : m.Hosts start front where
  above := h.above
  stop := by
    have hstop := h.stop
    rw [Core.size_append] at hstop
    omega
  words := by
    intro index word hword
    refine h.words index word ?_
    obtain ⟨hindex, -⟩ := List.getElem?_eq_some_iff.1 hword
    rw [Core.cells_append, List.getElem?_append_left hindex, hword]

theorem Hosts.right (h : m.Hosts start (front ++ back)) :
    m.Hosts (start + Core.size front) back where
  above := Nat.le_add_right_of_le h.above
  stop := by
    have hstop := h.stop
    rw [Core.size_append] at hstop
    omega
  words := by
    intro index word hword
    rw [Nat.add_assoc]
    refine h.words _ word ?_
    rw [Core.cells_append, ← Core.length_cells, List.getElem?_append_right (Nat.le_add_right _ _),
      Nat.add_sub_cancel_left, hword]

theorem Hosts.tail (h : m.Hosts start (instr :: rest)) :
    m.Hosts (start + instr.cells.length) rest := by
  have hright := @Hosts.right m start [instr] rest h
  rw [Core.size_cons, Core.size_nil, Nat.add_zero] at hright
  exact hright

theorem Hosts.start_lt (h : m.Hosts start (instr :: rest)) : start < m.textEnd := by
  have hstop := h.stop
  have hpos : 0 < instr.cells.length := Nat.succ_pos _
  rw [Core.size_cons] at hstop
  omega

/-- An instruction whose words are all known. -/
structure IsKnown (instr : Instr) : Prop where
  complete : (instr.linked []).IsComplete
  patched : instr.opcode ≠ .plac
  known : ∀ name, instr.operand ≠ .entry name

theorem isKnown_plain {opcode : Opcode} (hpatched : opcode ≠ .plac)
    (hoperand : opcode.hasOperand = false) : IsKnown (.plain opcode) :=
  ⟨hoperand, hpatched, nofun⟩

theorem isKnown_withWord {opcode : Opcode} (hoperand : opcode.hasOperand = true) (word : Word) :
    IsKnown (.withWord opcode word) where
  complete := hoperand
  patched := by
    rintro rfl
    cases hoperand
  known := nofun

theorem isKnown_load : ∀ place : Place, IsKnown place.load
  | .global _ | .slot _ | .parameter _ => isKnown_withWord rfl _

theorem isKnown_branch (target : Nat) :
    ∀ connective : Syntax.Connective, IsKnown (.jump (Core.jumpOf connective) target)
  | .disjunction | .conjunction => isKnown_withWord rfl _

/-- An instruction is the next to be carried out. -/
structure Ready (base : Machine) (through : Nat → Prop) (start : Nat) (instr : Instr)
    (m : Machine) : Prop where
  atop : base.Atop m
  pc : m.pc = start
  fetch : m.fetch = .ok (instr.linked [])
  through : through m.pc

theorem Hosts.ready (h : base.Hosts start (instr :: rest)) (hbase : base.Intact)
    (hatop : base.Atop m) (hpc : m.pc = start) (hknown : IsKnown instr) {through : Nat → Prop}
    (hthrough : through start) : Ready base through start instr m := by
  subst hpc
  refine ⟨hatop, rfl, ?_, hthrough⟩
  have hstop := h.stop
  rw [Core.size_cons] at hstop
  have hword : ∀ index word, instr.cells[index]? = some (.known word) →
      m.wordAt (m.pc + index) = word := by
    intro index word hcell
    obtain ⟨hindex, -⟩ := List.getElem?_eq_some_iff.1 hcell
    have htext := hbase.textStop_le_stack
    have htextStop := hbase.sound.textStop
    refine wordAt_eq ?_
    rw [hatop.memory _ (by omega)]
    refine h.words index word ?_
    rw [Core.cells_cons, List.getElem?_append_left hindex, hcell]
  refine Machine.fetch_eq (hatop.layout ▸ h.above) ?_ hknown.complete hknown.patched
    (hword 0 _ rfl) fun word hoperand => ?_
  · rw [Instr.width_linked, hatop.textEnd]
    omega
  · obtain ⟨opcode, operand⟩ := instr
    cases operand with
    | none => cases hoperand
    | known known =>
        cases hoperand
        exact hword 1 _ rfl
    | entry name => exact absurd rfl (hknown.known name)

/-! ## Accounts -/

/-- What may end an evaluation early. -/
inductive Stops (base : Machine) (through : Nat → Prop) (outcome : Except Fault Word) :
    Error → Machine → Prop where
  /-- The fault of the account. -/
  | fault {fault : Fault} {pc : Nat} {m : Machine} (hpc : through pc)
      (houtcome : outcome = .error fault) : Stops base through outcome (fault.error pc) m
  /-- The stack is full. -/
  | overflow {pc : Nat} {m : Machine} (hpc : through pc)
      (hfull : m.sp ≤ base.layout.stack.start) :
      Stops base through outcome (.stackOverflow pc) m
  /-- No more cycles are allowed. -/
  | limit {limit : Nat} {m : Machine} (hlimit : base.cycleLimit = some limit)
      (hcycles : limit ≤ m.cycles) : Stops base through outcome (.cycleLimit limit) m

/-- The machine walks to where its accumulator is the value of an account, or comes to its fault. -/
def Evaluates (tracing : Bool) (base : Machine) (through : Nat → Prop)
    (good : Word → Machine → Prop) (account : Account) (m : Machine) : Prop :=
  Walks tracing through (fun m' => ∃ value, account.outcome = .ok value ∧ good value m')
    (Stops base through account.outcome) m

/-- The machine has come to an address with a word in the accumulator and the stack as before. -/
structure Arrives (m : Machine) (stop : Nat) (value : Word) (m' : Machine) : Prop where
  atop : m.Atop m'
  pc : m'.pc = stop
  sp : m'.sp = m.sp
  acc : m'.acc = value

theorem Arrives.trans {value value' : Word} (h : m.Arrives stop value m')
    (h' : m'.Arrives stop' value' m'') : m.Arrives stop' value' m'' where
  atop := h.atop.trans h'.atop
  pc := h'.pc
  sp := h'.sp.trans h.sp
  acc := h'.acc

section Evaluates

variable {through through' : Nat → Prop} {good good' : Word → Machine → Prop}
  {account first : Account} {next : Word → Account} {error : Error}

theorem Stops.mono {outcome outcome' : Except Fault Word} (h : Stops base through outcome error m)
    (hthrough : ∀ pc, through pc → through' pc)
    (houtcome : ∀ fault, outcome = .error fault → outcome' = .error fault) :
    Stops base through' outcome' error m := by
  cases h with
  | fault hpc hfault => exact .fault (hthrough _ hpc) (houtcome _ hfault)
  | overflow hpc hfull => exact .overflow (hthrough _ hpc) hfull
  | limit hlimit hcycles => exact .limit hlimit hcycles

theorem Evaluates.here {value : Word} (h : good value m) :
    Evaluates tracing base through good (.ofWord value) m :=
  Walks.here ⟨value, rfl, h⟩

theorem Evaluates.weaken (h : Evaluates tracing base through good account m)
    (hgood : ∀ value m', good value m' → good' value m') :
    Evaluates tracing base through good' account m :=
  Walks.weaken h fun m' ⟨value, hvalue, hm'⟩ => ⟨value, hvalue, hgood value m' hm'⟩

/-- The machine runs to an address with the value of an account in its accumulator, or into an error
that may end the evaluation. All the instructions on the way are at addresses that are passed. -/
def Computes (tracing : Bool) (passes : Nat → Prop) (stop : Nat) (account : Account) (m : Machine) :
    Prop :=
  ∃ steps, (∀ count < steps, ∃ passed, runSteps tracing count m = .ok none passed ∧
      passes passed.pc) ∧
    ((∃ m', runSteps tracing steps m = .ok none m' ∧
        ∃ word, account.outcome = .ok word ∧ m.Arrives stop word m') ∨
      ∃ error m', runSteps tracing steps m = .error error m' ∧
        m.Stops passes account.outcome error m')

theorem Evaluates.computes (h : Evaluates tracing m through (m.Arrives stop) account m) :
    m.Computes tracing through stop account :=
  Walks.exists_runSteps h

/-- The machine goes on with the value of a first evaluation. -/
theorem Evaluates.andThen (h : Evaluates tracing base through good first m)
    (hthrough : ∀ pc, through pc → through' pc)
    (hnext : ∀ value m', first.outcome = .ok value → good value m' →
      Evaluates tracing base through' good' (next value) m') :
    Evaluates tracing base through' good' (first.andThen next) m := by
  refine Walks.trans h hthrough (fun error m' hstops => hstops.mono hthrough fun fault hfault => ?_)
    fun m' ⟨value, hvalue, hm'⟩ => ?_
  · rw [Account.andThen_of_error hfault]
  · rw [Account.andThen_of_ok hvalue]
    exact hnext value m' hvalue hm'

namespace Ready

variable (h : Ready base through start instr m)

include h

theorem of_limit (hlimit : ¬∀ limit, m.cycleLimit = some limit → m.cycles < limit) :
    Evaluates tracing base through good account m := by
  obtain ⟨limit, hsome, hover⟩ : ∃ limit, m.cycleLimit = some limit ∧ limit ≤ m.cycles := by
    simpa using hlimit
  exact .error h.through (step_of_limit hsome hover) (.limit (h.atop.cycleLimit ▸ hsome) hover)

theorem of_ok (hexecute : execute (instr.linked []) (m.advance tracing (instr.linked [])) =
      .ok none m') (hnext : Evaluates tracing base through good account m') :
    Evaluates tracing base through good account m := by
  by_cases hlimit : ∀ limit, m.cycleLimit = some limit → m.cycles < limit
  · exact .step h.through ((step_of_fetch hlimit h.fetch).trans hexecute) hnext
  · exact h.of_limit hlimit

theorem of_error (hexecute : execute (instr.linked []) (m.advance tracing (instr.linked [])) =
      .error error m') (hstops : Stops base through account.outcome error m') :
    Evaluates tracing base through good account m := by
  by_cases hlimit : ∀ limit, m.cycleLimit = some limit → m.cycles < limit
  · exact .error h.through ((step_of_fetch hlimit h.fetch).trans hexecute) hstops
  · exact h.of_limit hlimit

/-- The stack pointer is where the code found it, and only the accumulator and the program counter
have changed. -/
theorem of_registers {pc : Nat} {value : Word}
    (hexecute : execute (instr.linked []) (m.advance tracing (instr.linked [])) =
      .ok none { m.advance tracing (instr.linked []) with pc, acc := value })
    (hnext : ∀ m', m.Arrives pc value m' → Evaluates tracing base through good account m') :
    Evaluates tracing base through good account m := by
  have hstart := h.atop.start
  rw [← h.atop.layout] at hstart
  exact h.of_ok hexecute (hnext _ ⟨(Atop.refl hstart).move hstart (Nat.le_refl _), rfl, rfl, rfl⟩)

end Ready

/-! ## Instructions -/

/-- The accumulator has been pushed. -/
structure Pushed (m m' : Machine) : Prop where
  atop : m.Atop m'
  pc : m'.pc = m.pc + 1
  sp : m'.sp + 1 = m.sp
  top : m'.memory[m'.sp]? = some m.acc

theorem Ready.push (h : Ready base through start (.plain .push) m) (hbase : base.Intact)
    (hnext : ∀ m', m.Pushed m' → Evaluates tracing base through good account m') :
    Evaluates tracing base through good account m := by
  have hstart := h.atop.start
  have hsp := h.atop.sp
  have hspStop := hbase.spStop
  have hsize := h.atop.size.trans hbase.size_eq
  have hlayout := h.atop.layout
  by_cases hroom : m.layout.stack.start < m.sp
  · have htop : m.sp - 1 < m.memory.size := by omega
    refine h.of_ok (execute_push hroom) (hnext _ ⟨?_, rfl, ?_, getElem?_setWord_self htop m.acc⟩)
    · exact (Atop.refl (Nat.le_of_lt hroom)).push hroom m.acc
    · exact Nat.sub_add_cancel (Nat.one_le_of_lt hroom)
  · refine h.of_error (execute_push_full (Nat.le_of_not_lt hroom)) (.overflow h.through ?_)
    rw [← hlayout]
    exact Nat.le_of_not_lt hroom

theorem Ready.imm {word : Word} (h : Ready base through start (.withWord .imm word) m) :
    Evaluates tracing base through (m.Arrives (start + 2)) (.ofWord word) m := by
  rw [← h.pc]
  exact h.of_registers rfl fun _ => .here

theorem Ready.load {place : Place} (h : Ready base through start place.load m)
    (hslot : ∀ index, place = .slot index → index ≤ base.bp) :
    Evaluates tracing base through (m.Arrives (start + 2))
      (.ofWord (Word.ofCount (place.address base.bp))) m := by
  rw [← h.atop.bp] at hslot ⊢
  rw [← h.pc]
  exact h.of_registers (place.execute_load (m := m.advance tracing (place.load.linked [])) hslot [])
    fun _ => .here

theorem Ready.li (h : Ready base through start (.plain .li) m) {address : Nat} {word : Word}
    (hcount : m.acc.count? = some address) (hword : m.memory[address]? = some word) :
    Evaluates tracing base through (m.Arrives (start + 1)) (.ofWord word) m := by
  obtain ⟨hsize, -⟩ := Array.getElem?_eq_some_iff.1 hword
  have hexecute := execute_li (m := m.advance tracing ((Instr.plain .li).linked [])) hcount hsize
  have hvalue : (m.advance tracing ((Instr.plain .li).linked [])).wordAt address = word :=
    wordAt_eq (m := m) hword
  rw [hvalue] at hexecute
  rw [← h.pc]
  exact h.of_registers hexecute fun _ => .here

theorem Ready.binary {operator : Operator}
    (h : Ready base through start (.plain (.binary operator)) m) (hbase : base.Intact)
    (horigin : base.Atop origin) (hatop : origin.Atop m) (hsp : m.sp + 1 = origin.sp) {left : Word}
    (htop : m.memory[m.sp]? = some left) :
    Evaluates tracing base through (origin.Arrives (start + 1)) (operator.account left m.acc) m := by
  have hspStop := hbase.spStop
  have hle := horigin.sp
  have hpop : m.sp < m.layout.stack.stop := by
    rw [h.atop.layout]
    omega
  have hleft : (m.advance tracing ((Instr.plain (.binary operator)).linked [])).wordAt m.sp = left :=
    wordAt_eq (m := m) htop
  rw [Operator.account]
  cases hvalue : operator.value? left m.acc with
  | some value =>
      rw [Operator.value?_eq] at hvalue
      refine h.of_ok (execute_binary hpop (hleft ▸ hvalue)) (.here ⟨?_, ?_, hsp, rfl⟩)
      · exact hatop.move (Nat.le_succ_of_le hatop.start) (Nat.le_of_eq hsp)
      · exact congrArg (· + 1) h.pc
  | none =>
      rw [Operator.value?_eq] at hvalue
      exact h.of_error (execute_binary_fault hpop (hleft ▸ hvalue)) (.fault h.through rfl)

theorem Ready.branch {connective : Syntax.Connective} {target : Nat}
    (h : Ready base through start (.jump (Core.jumpOf connective) target) m) (hbase : base.Intact)
    (hpool : base.layout.poolSize < 2 ^ 63) (htarget : base.Hosts target (instr :: rest))
    (hnext : ∀ m', m.Arrives (if connective.isDecided m.acc then target else start + 2) m.acc m' →
      Evaluates tracing base through good account m') :
    Evaluates tracing base through good account m := by
  have hstop := htarget.start_lt
  have htext := hbase.sound.textStop
  have hstack := hbase.textStop_le_stack
  have hstart := hbase.spStart
  have hspStop := hbase.spStop
  have hsize := hbase.sound.size
  rw [hbase.size_eq] at hsize
  rw [← h.pc] at hnext
  refine h.of_registers (execute_branch ?_ (Core.jumpOf_eq connective m.acc)) hnext
  exact ⟨h.atop.layout ▸ htarget.above, h.atop.textEnd ▸ hstop, by omega⟩

/-- No pointer that is followed leads into the unused part of the stack. -/
def Clears (m : Machine) (account : Account) : Prop :=
  ∀ pointer ∈ account.followed, ∀ address, pointer.count? = some address →
    ¬(m.layout.stack.start ≤ address ∧ address < m.sp)

theorem Clears.left (h : m.Clears (first.andThen next)) : m.Clears first :=
  fun pointer hmem => h pointer (Account.mem_followed_andThen hmem)

theorem Clears.right {value : Word} (h : m.Clears (first.andThen next))
    (hvalue : first.outcome = .ok value) : m.Clears (next value) := by
  rw [Account.andThen_of_ok hvalue] at h
  exact fun pointer hmem => h pointer (List.mem_append_right _ hmem)

theorem Ready.follow (h : Ready base through start (.plain .li) m)
    (hclears : base.Clears (Memory.follow base.memory m.acc)) :
    Evaluates tracing base through (m.Arrives (start + 1)) (Memory.follow base.memory m.acc) m := by
  by_cases hinside : 0 ≤ m.acc.toInt ∧ m.acc.toInt < base.memory.size
  · have hcount : m.acc.count? = some m.acc.toInt.toNat := if_neg (Int.not_lt.2 hinside.1)
    have hout := hclears _ List.mem_cons_self _ hcount
    have hword : m.memory[m.acc.toInt.toNat]? = some (base.memory.getD m.acc.toInt.toNat 0) := by
      have hsize : m.acc.toInt.toNat < base.memory.size := by omega
      rw [h.atop.memory _ hout, Array.getD_eq_getD_getElem?, Array.getElem?_eq_getElem hsize]
      rfl
    have houtcome : (Memory.follow base.memory m.acc).outcome =
        .ok (base.memory.getD m.acc.toInt.toNat 0) := if_pos hinside
    rw [Evaluates, houtcome]
    exact h.li hcount hword
  · have houtcome : (Memory.follow base.memory m.acc).outcome = .error (.outside m.acc) :=
      if_neg hinside
    have hsize := h.atop.size
    refine h.of_error (execute_li_fault fun address hcount => ?_) (.fault h.through houtcome)
    change m.acc.count? = some address at hcount
    change m.memory.size ≤ address
    rw [Word.count?] at hcount
    split at hcount
    · cases hcount
    · cases hcount
      omega

/-! ## Operands -/

/-- A second operand is evaluated on top of the first one. -/
theorem evaluates_operands {operator : Operator} {second : Account} (hbase : base.Intact)
    (hatop : base.Atop m) (hpc : m.pc = start)
    (hhosts : base.Hosts start (.plain .push :: (code ++ [.plain (.binary operator)])))
    (hpush : through start) (hcombine : through (start + 1 + Core.size code))
    (hthrough : ∀ pc, through' pc → through pc)
    (hsecond : ∀ m', m.Pushed m' →
      Evaluates tracing base through' (m'.Arrives (start + 1 + Core.size code)) second m') :
    Evaluates tracing base through (m.Arrives (start + 1 + Core.size code + 1))
      (second.andThen (operator.account m.acc)) m := by
  have hready := hhosts.ready hbase hatop hpc (isKnown_plain Opcode.noConfusion rfl) hpush
  refine hready.push hbase fun m' hpushed => ?_
  refine (hsecond m' hpushed).andThen hthrough fun value m'' _ harrives => ?_
  have hatop' := hpushed.atop.trans harrives.atop
  have hready' := hhosts.tail.right.ready hbase (hatop.trans hatop') harrives.pc
    (isKnown_plain Opcode.noConfusion rfl) hcombine
  have hsp : m''.sp + 1 = m.sp := by rw [harrives.sp, hpushed.sp]
  have htop : m''.memory[m''.sp]? = some m.acc := by
    rw [harrives.sp, harrives.atop.memory _ (fun h => Nat.lt_irrefl _ h.2), hpushed.top]
  rw [← harrives.acc]
  exact hready'.binary hbase hatop hatop' hsp htop

/-- The accumulator as a condition. -/
theorem evaluates_truth (hbase : base.Intact) (hatop : base.Atop m) (hpc : m.pc = start)
    (hhosts : base.Hosts start [.plain .push, .withWord .imm 0, .plain (.binary .ne)])
    (hthrough : ∀ pc, start ≤ pc → pc < start + 4 → through pc) :
    Evaluates tracing base through (m.Arrives (start + 4)) (.ofWord (Syntax.truth m.acc)) m := by
  have haccount : (Account.ofWord 0).andThen (Operator.ne.account m.acc) =
      .ofWord (Syntax.truth m.acc) := by
    rw [Account.ofWord_andThen, Operator.account, Operator.value?_eq, Operator.apply?_ne_zero]
  rw [← haccount]
  have hpush := hthrough start (Nat.le_refl _) (by omega)
  have himm := hthrough (start + 1) (by omega) (by omega)
  have hcombine := hthrough (start + 3) (by omega) (by omega)
  refine @evaluates_operands _ _ m start [.withWord .imm 0] _ through _ _ hbase hatop hpc hhosts
    hpush hcombine (fun _ => id) fun m' hpushed => ?_
  have hpc' : m'.pc = start + 1 := by rw [hpushed.pc, hpc]
  exact (hhosts.tail.ready hbase (hatop.trans hpushed.atop) hpc' (isKnown_withWord rfl 0) himm).imm

/-- A second operand is evaluated unless the first one decides. -/
theorem evaluates_decision {connective : Syntax.Connective} {second : Account}
    (hbase : base.Intact) (hpool : base.layout.poolSize < 2 ^ 63) (hatop : base.Atop m)
    (hpc : m.pc = start)
    (hhosts : base.Hosts start (.jump (Core.jumpOf connective) (start + 2 + Core.size code) ::
      (code ++ [.plain .push, .withWord .imm 0, .plain (.binary .ne)])))
    (hbranch : through start)
    (htail : ∀ pc, start + 2 + Core.size code ≤ pc → pc < start + 2 + Core.size code + 4 →
      through pc)
    (hthrough : connective.isDecided m.acc = false → ∀ pc, through' pc → through pc)
    (hsecond : connective.isDecided m.acc = false → ∀ m', m.Arrives (start + 2) m.acc m' →
      Evaluates tracing base through' (m'.Arrives (start + 2 + Core.size code)) second m') :
    Evaluates tracing base through (m.Arrives (start + 2 + Core.size code + 4))
      (if connective.isDecided m.acc then .ofWord (Syntax.truth m.acc)
        else second.andThen fun value => .ofWord (Syntax.truth value)) m := by
  have htruth := hhosts.tail.right
  -- Both ways end with the accumulator as a condition.
  have hcondition : ∀ {value : Word} {m' : Machine},
      m.Arrives (start + 2 + Core.size code) value m' → Evaluates tracing base through
        (m.Arrives (start + 2 + Core.size code + 4)) (.ofWord (Syntax.truth value)) m' := by
    intro value m' harrives
    rw [← harrives.acc]
    exact (evaluates_truth hbase (hatop.trans harrives.atop) harrives.pc htruth htail).weaken
      fun _ _ hlast => harrives.trans hlast
  refine (hhosts.ready hbase hatop hpc (isKnown_branch _ connective) hbranch).branch hbase hpool
    htruth fun m' harrives => ?_
  cases hdecided : connective.isDecided m.acc with
  | true =>
      rw [hdecided, if_pos rfl] at harrives
      exact hcondition harrives
  | false =>
      rw [hdecided, if_neg Bool.false_ne_true] at harrives
      exact (hsecond hdecided m' harrives).andThen (hthrough hdecided) fun value m'' _ hlast =>
        hcondition (harrives.trans hlast)

end Evaluates

end Machine

/-! ## Expressions -/

namespace Machine

open WordC.Core (Expr)

variable {tracing : Bool} {base m : Machine} {context : Context} {start : Nat} {rest : List Instr}
  {through : Nat → Prop}

/-- The base pointer is at the frame of a function with so many parameters and slots. -/
structure InFrame (m : Machine) (context : Context) : Prop where
  slots : m.sp + context.slots ≤ m.bp
  parameters : 0 < context.arity → m.bp + context.arity + 2 ≤ m.layout.stack.stop
  data : context.data.stop ≤ m.layout.data.stop

theorem InFrame.slots_le (h : m.InFrame context) : context.slots ≤ m.bp :=
  Nat.le_trans (Nat.le_add_left context.slots m.sp) h.slots

/-- Variables are in the pool, but not in the unused part of the stack. -/
theorem InFrame.address_bounds (h : m.InFrame context) (hintact : m.Intact) {place : Place}
    (hplace : place.Valid context) : place.address m.bp < m.memory.size ∧
      ¬(m.layout.stack.start ≤ place.address m.bp ∧ place.address m.bp < m.sp) := by
  have hslots := h.slots
  have hbpStop := hintact.bpStop
  have hsize := hintact.size_eq
  rcases hplace.address_cases h.slots_le with ⟨-, hlast⟩ | ⟨hfirst, hlast⟩ | ⟨hfirst, hlast⟩
  · have hdata := h.data
    have hheap := hintact.sound.ordered.heap
    have hheapStop := hintact.sound.ordered.heapStop
    have hstack := hintact.sound.ordered.stack
    have hstackStop := hintact.sound.ordered.stackStop
    omega
  · omega
  · have hparameters := h.parameters (by omega)
    omega

variable (hbase : base.Intact) (hframe : base.InFrame context)

include hbase hframe

theorem evaluates_address {place : Place} (hplace : place.Valid context)
    (hhosts : base.Hosts start (place.load :: rest)) (hatop : base.Atop m) (hpc : m.pc = start)
    (hthrough : through start) : Evaluates tracing base through (m.Arrives (start + 2))
      (.ofWord (Word.ofCount (place.address base.bp))) m :=
  (hhosts.ready hbase hatop hpc (isKnown_load place) hthrough).load
    fun _ => hplace.slot_le hframe.slots_le

theorem evaluates_place (hpool : base.layout.poolSize < 2 ^ 63) {place : Place}
    (hplace : place.Valid context) (hhosts : base.Hosts start [place.load, .plain .li])
    (hatop : base.Atop m) (hpc : m.pc = start) (hthrough : ∀ pc, start ≤ pc → pc < start + 3 →
      through pc) : Evaluates tracing base through (m.Arrives (start + 3))
        (.ofWord (place.wordIn base.bp base.memory)) m := by
  obtain ⟨hsize, hout⟩ := hframe.address_bounds hbase hplace
  have hsmall : place.address base.bp < 2 ^ 63 := by
    rw [hbase.sound.size] at hsize
    omega
  have hload : through start := hthrough start (Nat.le_refl _) (by omega)
  have haddress : Evaluates tracing base through _ _ m :=
    evaluates_address hbase hframe hplace hhosts hatop hpc hload
  have hli : through (start + 2) := hthrough (start + 2) (by omega) (by omega)
  have hword : Evaluates tracing base through (m.Arrives (start + 3))
      ((Account.ofWord (Word.ofCount (place.address base.bp))).andThen fun _ =>
        .ofWord (place.wordIn base.bp base.memory)) m := by
    refine haddress.andThen (fun _ => id) fun value first hvalue hfirst => ?_
    cases hvalue
    have hatop' := hatop.trans hfirst.atop
    have hcount : first.acc.count? = some (place.address base.bp) := by
      rw [hfirst.acc, Word.count?_ofCount hsmall]
    have hread : first.memory[place.address base.bp]? =
        some (place.wordIn base.bp base.memory) := by
      rw [hatop'.memory _ hout, Place.wordIn, Array.getD_eq_getD_getElem?,
        Array.getElem?_eq_getElem hsize]
      rfl
    have hready := hhosts.tail.ready hbase hatop' hfirst.pc
      (isKnown_plain Opcode.noConfusion rfl) hli
    exact (hready.li hcount hread).weaken fun _ _ hlast => hfirst.trans hlast
  exact hword

variable (hpool : base.layout.poolSize < 2 ^ 63)

include hpool

/-- Code does on top of any stack what its expression comes to. -/
theorem evaluates_expr : ∀ (e : Expr) {start : Nat} {m : Machine}, e.isCallFree →
    e.Valid context → base.Hosts start (e.code start) → base.Atop m → m.pc = start →
    base.Clears (e.account base.bp base.memory) →
    Evaluates tracing base (e.Passes base.bp base.memory start)
      (m.Arrives (start + Core.size (e.code start))) (e.account base.bp base.memory) m
  | .constant value, start, m, _, _, hhosts, hatop, hpc, _ =>
      (hhosts.ready hbase hatop hpc (isKnown_withWord rfl value)
        ⟨Nat.le_refl _, Nat.lt_add_of_pos_right (Nat.succ_pos _), id⟩).imm
  | .load place, start, m, _, hplace, hhosts, hatop, hpc, _ =>
      evaluates_place hbase hframe hpool hplace hhosts hatop hpc
        fun _ hstart hstop => ⟨hstart, hstop, id⟩
  | .address place, start, m, _, hplace, hhosts, hatop, hpc, _ =>
      evaluates_address hbase hframe hplace hhosts hatop hpc
        ⟨Nat.le_refl _, Nat.lt_add_of_pos_right (Nat.succ_pos _), id⟩
  | .follow pointer, start, m, hfree, hvalid, hhosts, hatop, hpc, hclears => by
      rw [Expr.code] at hhosts
      rw [Expr.account] at hclears
      rw [Expr.stop_follow, Expr.account]
      have hpointer := evaluates_expr pointer hfree hvalid hhosts.left hatop hpc hclears.left
      refine hpointer.andThen (fun pc h => Expr.passes_follow (.inl h))
        fun value first hvalue hfirst => ?_
      have hclears' := hclears.right hvalue
      rw [← hfirst.acc] at hclears' ⊢
      have hli : (Expr.follow pointer).Passes base.bp base.memory start
          (start + Core.size (pointer.code start)) := Expr.passes_follow (.inr rfl)
      have hready := hhosts.right.ready hbase (hatop.trans hfirst.atop) hfirst.pc
        (isKnown_plain Opcode.noConfusion rfl) hli
      exact (hready.follow hclears').weaken fun _ _ hlast => hfirst.trans hlast
  | .binary operator left right, start, m, hfree, hvalid, hhosts, hatop, hpc, hclears => by
      rw [Expr.code] at hhosts
      rw [Expr.account] at hclears
      rw [Expr.isCallFree, Bool.and_eq_true] at hfree
      rw [Expr.stop_binary, Expr.account]
      have hleft := evaluates_expr left hfree.1 hvalid.1 hhosts.left hatop hpc hclears.left
      refine hleft.andThen (fun pc h => Expr.passes_binary (.inl h))
        fun value first hvalue hfirst => ?_
      have hatop' := hatop.trans hfirst.atop
      have hright : ∀ m', first.Pushed m' → Evaluates tracing base
          (right.Passes base.bp base.memory (start + Core.size (left.code start) + 1))
          (m'.Arrives (start + Core.size (left.code start) + 1 +
            Core.size (right.code (start + Core.size (left.code start) + 1))))
          (right.account base.bp base.memory) m' := by
        intro m' hpushed
        have hpc' : m'.pc = start + Core.size (left.code start) + 1 := by
          rw [hpushed.pc, hfirst.pc]
        exact evaluates_expr right hfree.2 hvalid.2 hhosts.right.tail.left
          (hatop'.trans hpushed.atop) hpc' (hclears.right hvalue).left
      rw [← hfirst.acc]
      exact (evaluates_operands hbase hatop' hfirst.pc hhosts.right
        (Expr.passes_binary (.inr (.inl rfl))) (Expr.passes_binary (.inr (.inr (.inr rfl))))
        (fun pc h => Expr.passes_binary (.inr (.inr (.inl h)))) hright).weaken
          fun _ _ hlast => hfirst.trans hlast
  | .logical connective left right, start, m, hfree, hvalid, hhosts, hatop, hpc, hclears => by
      rw [Expr.code] at hhosts
      rw [Expr.account] at hclears
      rw [Expr.isCallFree, Bool.and_eq_true] at hfree
      rw [Expr.stop_logical, Expr.account]
      have hleft := evaluates_expr left hfree.1 hvalid.1 hhosts.left hatop hpc hclears.left
      refine hleft.andThen (fun pc h => Expr.passes_logical (.inl h))
        fun value first hvalue hfirst => ?_
      have hatop' := hatop.trans hfirst.atop
      have hright : connective.isDecided value = false → ∀ m', first.Arrives
          (start + Core.size (left.code start) + 2) value m' → Evaluates tracing base
            (right.Passes base.bp base.memory (start + Core.size (left.code start) + 2))
            (m'.Arrives (start + Core.size (left.code start) + 2 +
              Core.size (right.code (start + Core.size (left.code start) + 2))))
            (right.account base.bp base.memory) m' := by
        intro hopen m' harrives
        have hclears' := hclears.right hvalue
        rw [hopen, if_neg Bool.false_ne_true] at hclears'
        exact evaluates_expr right hfree.2 hvalid.2 hhosts.right.tail.left
          (hatop'.trans harrives.atop) harrives.pc hclears'.left
      have hpasses : connective.isDecided value = false → ∀ pc,
          right.Passes base.bp base.memory (start + Core.size (left.code start) + 2) pc →
            (Expr.logical connective left right).Passes base.bp base.memory start pc := by
        intro hopen pc hpc
        refine Expr.passes_logical (.inr (.inr (.inl ⟨fun other hother => ?_, hpc⟩)))
        cases hvalue.symm.trans hother
        exact hopen
      rw [← hfirst.acc] at hright hpasses ⊢
      exact (evaluates_decision hbase hpool hatop' hfirst.pc hhosts.right
        (Expr.passes_logical (.inr (.inl rfl)))
        (fun _ hstart hstop => Expr.passes_logical (.inr (.inr (.inr ⟨hstart, hstop⟩))))
        hpasses hright).weaken fun _ _ hlast => hfirst.trans hlast
  | .call _ _, _, _, hfree, _, _, _, _, _ | .trap _ _, _, _, hfree, _, _, _, _, _ => by
      cases hfree

end Machine

end WordC
