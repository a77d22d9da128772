import WordC.Proofs.Program.Frames
import WordC.Proofs.Program.Layout
import WordC.Proofs.Program.Meets

/-!
# Machines that show a store

While a function runs, each of its places has the word in memory that the store of the evaluation
has there. One lemma for each instruction says where a step takes such a machine. It is free to
overflow the stack, but there is no other way for it to stop.
-/

namespace WordC

open WordC.Core (Context Instr Place Section Store)
open Machine (Divides Leads Meets Steps)
open Syntax (Evaluation resultOf truth)

theorem Operator.apply?_ne_zero (word : Word) : Operator.ne.apply? word 0 = some (truth word) := by
  have hsame : (word != 0) = decide (word ≠ 0) := by
    rw [Bool.eq_iff_iff, bne_iff_ne, decide_eq_true_iff]
  rw [ Operator.apply?, truth, hsame]

namespace Image

variable {image : Image} {route : Route} {arity slots start pushed address : Nat}
  {store store' : Store} {m m' m'' : Machine}

/-! ## Places and their words -/

/-- Different places of a function have different addresses. -/
theorem Framed.address_ne (hloaded : image.Loaded) (h : image.Framed arity slots m)
    {place other : Place} (hplace : place.Valid (image.context.inside arity slots))
    (hother : other.Valid (image.context.inside arity slots)) (hne : other ≠ place) :
    other.address m.bp ≠ place.address m.bp := by
  have hstart := h.start
  have hslots := h.slots
  have hdata := hloaded.data_le_stack
  have hdataStop := hloaded.dataStop
  intro hsame
  cases place <;> cases other <;>
    simp only [Place.Valid, Place.address, Context.inside, ne_eq, Place.global.injEq,
      Place.slot.injEq, Place.parameter.injEq] at hplace hother hsame hne <;> omega

/-- The words of the globals are those of a store. -/
def ShowsGlobals (image : Image) (store : Store) (m : Machine) : Prop :=
  ∀ address, image.context.data.start ≤ address → address < image.context.data.stop →
    m.memory[address]? = some (store (.global address))

/-- The machine runs without a limit, and the words of all places of a function are those of a
store. -/
structure Shows (image : Image) (arity slots : Nat) (store : Store) (m : Machine) : Prop where
  framed : image.Framed arity slots m
  unlimited : m.cycleLimit = none
  words : ∀ place : Place, place.Valid (image.context.inside arity slots) →
    m.memory[place.address m.bp]? = some (store place)

theorem Shows.globals (h : image.Shows arity slots store m) : image.ShowsGlobals store m :=
  fun address hstart hstop => h.words (.global address) ⟨hstart, hstop⟩

/-- Code that comes back to the same frame leaves the local places alone. -/
theorem Shows.after (h : image.Shows arity slots store m) (hframed : image.Framed arity slots m')
    (hunlimited : m'.cycleLimit = none) (hbp : m'.bp = m.bp)
    (hstack : ∀ other, m.bp ≤ other + slots → m'.memory[other]? = m.memory[other]?)
    (hglobals : image.ShowsGlobals store' m')
    (hlocals : ∀ place : Place, place.isLocal → store' place = store place) :
    image.Shows arity slots store' m' where
  framed := hframed
  unlimited := hunlimited
  words := by
    intro place hplace
    have hword := h.words place hplace
    rw [hbp]
    cases place with
    | global address => exact hglobals address hplace.1 hplace.2
    | slot index =>
        obtain ⟨hfirst, hlast⟩ : 1 ≤ index ∧ index ≤ slots := hplace
        rw [Place.address] at hword ⊢
        rw [hstack _ (by omega), hword, hlocals _ rfl]
    | parameter distance =>
        rw [Place.address] at hword ⊢
        rw [hstack _ (by omega), hword, hlocals _ rfl]

/-- Registers other than the base pointer play no part. -/
theorem Shows.congr (h : image.Shows arity slots store m) (hframed : image.Framed arity slots m')
    (hunlimited : m'.cycleLimit = m.cycleLimit) (hmemory : m'.memory = m.memory)
    (hbp : m'.bp = m.bp) : image.Shows arity slots store m' where
  framed := hframed
  unlimited := hunlimited.trans h.unlimited
  words := by
    intro place hplace
    rw [hmemory, hbp, h.words place hplace]

/-- The machine has come to an address with some words more on its stack, and nothing below the
stack has changed. -/
structure Passed (image : Image) (m : Machine) (pushed address : Nat) (m' : Machine) : Prop where
  after : image.After m pushed address m'
  unlimited : m'.cycleLimit = m.cycleLimit
  below : ∀ other < image.stack.start, m'.memory[other]? = m.memory[other]?

theorem Passed.shows (h : image.Passed m pushed address m') (hloaded : image.Loaded)
    (hshows : image.Shows arity slots store m) : image.Shows arity slots store m' := by
  have hslots := hshows.framed.slots
  refine hshows.after (h.after.framed hshows.framed) (h.unlimited.trans hshows.unlimited)
    h.after.bp (fun other hother => h.after.stack other (by omega)) ?_ fun _ _ => rfl
  intro other hstart hstop
  have hdataStop := hloaded.dataStop
  have hdata := hloaded.data_le_stack
  rw [h.below other (by omega)]
  exact hshows.globals other hstart hstop

theorem Passed.of_registers (hframed : image.Framed arity slots m) (hlayout : m'.layout = m.layout)
    (htextEnd : m'.textEnd = m.textEnd) (hmemory : m'.memory = m.memory) (hheap : m'.heap = m.heap)
    (hunlimited : m'.cycleLimit = m.cycleLimit) (hpc : m'.pc = address) (hsp : m'.sp = m.sp)
    (hbp : m'.bp = m.bp) : image.Passed m 0 address m' where
  after := .of_registers hframed hlayout htextEnd hmemory hheap hpc hsp hbp
  unlimited := hunlimited
  below := fun other _ => by rw [hmemory]

/-- The machine has come to an address with a value in the accumulator and a store in memory. -/
structure Evaluated (image : Image) (arity slots : Nat) (m : Machine) (address : Nat) (value : Word)
    (store : Store) (m' : Machine) : Prop where
  after : image.After m 0 address m'
  acc : m'.acc = value
  shows : image.Shows arity slots store m'

/-- The machine has come to an address with values on its stack, the last one on top. -/
structure Pushed (image : Image) (arity slots : Nat) (m : Machine) (count address : Nat)
    (values : List Word) (store : Store) (m' : Machine) : Prop where
  after : image.After m count address m'
  length : values.length = count
  words : ∀ (index : Nat) (value : Word), values.reverse[index]? = some value →
    m'.memory[m'.sp + index]? = some value
  shows : image.Shows arity slots store m'

/-- A value that has been pushed before others is below them. -/
theorem Pushed.cons {count middle address : Nat} {value : Word} {values : List Word} {store : Store}
    (hpushed : image.After m 1 middle m') (htop : m'.memory[m'.sp]? = some value)
    (h : image.Pushed arity slots m' count address values store m'') :
    image.Pushed arity slots m (count + 1) address (value :: values) store m'' where
  after := by
    rw [Nat.add_comm count 1]
    exact hpushed.trans h.after
  length := congrArg (· + 1) h.length
  words := by
    intro index word hword
    rw [List.reverse_cons] at hword
    rcases Nat.lt_or_ge index values.reverse.length with hlt | hge
    · rw [List.getElem?_append_left hlt] at hword
      exact h.words index word hword
    · rw [List.getElem?_append_right hge, List.getElem?_singleton] at hword
      obtain ⟨hindex, hvalue⟩ := Option.ite_none_right_eq_some.1 hword
      cases hvalue
      have hsp := h.after.sp
      have hlength := h.length
      rw [List.length_reverse] at hge hindex
      have haddress : m''.sp + index = m'.sp := by omega
      rw [haddress, h.after.stack _ (Nat.le_refl _), htop]
  shows := h.shows

/-- The word of one place has been stored, and no other below the stack has changed. -/
structure Updated (image : Image) (m : Machine) (place : Place) (word : Word) (address : Nat)
    (m' : Machine) : Prop where
  stored : image.Stored m place word address m'
  unlimited : m'.cycleLimit = m.cycleLimit
  below : ∀ other < image.stack.start, other ≠ place.address m.bp →
    m'.memory[other]? = m.memory[other]?

theorem Updated.shows {place : Place} {word : Word} (h : image.Updated m place word address m')
    (hloaded : image.Loaded) (hshows : image.Shows arity slots store m)
    (hplace : place.Valid (image.context.inside arity slots)) :
    image.Shows arity slots (store.set place word) m' where
  framed := h.stored.framed hshows.framed
  unlimited := h.unlimited.trans hshows.unlimited
  words := by
    intro other hother
    have hslots := hshows.framed.slots
    have hdataStop := hloaded.dataStop
    have hdata := hloaded.data_le_stack
    rw [h.stored.bp]
    by_cases hsame : other = place
    · rw [hsame, h.stored.word, Store.set_self]
    · have hne := hshows.framed.address_ne hloaded hplace hother hsame
      rw [Store.set_of_ne hsame, ← hshows.words other hother]
      cases other with
      | global address =>
          obtain ⟨-, hlast⟩ : image.context.data.start ≤ address ∧
              address < image.context.data.stop := hother
          exact h.below _ (by rw [Place.address]; omega) hne
      | slot index =>
          obtain ⟨-, hlast⟩ : 1 ≤ index ∧ index ≤ slots := hother
          exact h.stored.stack _ (by rw [Place.address]; omega) hne
      | parameter distance => exact h.stored.stack _ (by rw [Place.address]; omega) hne

/-! ## Calls -/

/-- The machine is at the entry of a function with the values of its parameters on the stack. -/
structure Entering (image : Image) (arity target : Nat) (values : List Word) (store : Store)
    (m : Machine) : Prop where
  called : image.Called arity target m
  unlimited : m.cycleLimit = none
  length : values.length = arity
  words : ∀ (index : Nat) (value : Word), values.reverse[index]? = some value →
    m.memory[m.sp + 1 + index]? = some value
  globals : image.ShowsGlobals store m

/-- A function that was entered at the machine `m` has returned a value. -/
structure Answered (image : Image) (arity target : Nat) (m : Machine) (value : Word) (store : Store)
    (m' : Machine) : Prop where
  returned : image.Returned arity target m m'
  unlimited : m'.cycleLimit = none
  acc : m'.acc = value
  globals : image.ShowsGlobals store m'

/-- The frame of a function begins with the values of its parameters, and its slots are zero. -/
theorem Entering.shows (hloaded : image.Loaded) {target : Nat} {values : List Word}
    (h : image.Entering arity target values store m) (hroom : image.stack.start < m.sp)
    (hslots : slots ≤ m.sp - 1 - image.stack.start) (hframed : image.Framed arity slots m')
    (hunlimited : m'.cycleLimit = m.cycleLimit) (hmemory : m'.memory = (m.entered slots).memory)
    (hbp : m'.bp = m.sp - 1) : image.Shows arity slots (store.enter values) m' where
  framed := hframed
  unlimited := hunlimited.trans h.unlimited
  words := by
    intro place hplace
    have hstop := h.called.stop
    have hdataStop := hloaded.dataStop
    have hdata := hloaded.data_le_stack
    have hsize : m.memory.size = image.stack.stop := by
      rw [h.called.steady.size, hloaded.stackStop]
    have hfilled : ∀ other, m'.memory[other]? =
        if m.sp - 1 - slots ≤ other ∧ other < m.sp - 1 then some 0
        else (m.setWord (m.sp - 1) (Word.ofCount m.bp)).memory[other]? := by
      intro other
      rw [hmemory]
      change (Memory.fill _ _ _ (Extent.size _))[other]? = _
      rw [Memory.getElem?_fill]
      simp only [Extent.size]
      congr 1
      rw [Machine.size_setWord]
      apply propext
      omega
    have hkept : ∀ other, ¬(m.sp - 1 - slots ≤ other ∧ other < m.sp) →
        m'.memory[other]? = m.memory[other]? := by
      intro other hother
      rw [hfilled, if_neg (by omega), Machine.getElem?_setWord_of_ne (by omega)]
    cases place with
    | global address =>
        obtain ⟨hfirst, hlast⟩ : image.context.data.start ≤ address ∧
            address < image.context.data.stop := hplace
        rw [Place.address, hkept _ (by omega), h.globals address hfirst hlast]
        rfl
    | slot index =>
        obtain ⟨hfirst, hlast⟩ : 1 ≤ index ∧ index ≤ slots := hplace
        rw [Place.address, hbp, hfilled, if_pos (by omega)]
        rfl
    | parameter distance =>
        obtain ⟨hfirst, hlast⟩ : 2 ≤ distance ∧ distance < arity + 2 := hplace
        have hlength := h.length
        rw [Place.address, hbp, hkept _ (by omega)]
        have haddress : m.sp - 1 + distance = m.sp + 1 + (distance - 2) := by omega
        have hindex : values.length - 1 - (distance - 2) = values.length + 1 - distance := by omega
        rw [haddress]
        refine h.words _ _ ?_
        rw [List.getElem?_reverse (by omega), hindex, Store.enter, List.getD_eq_getElem?_getD,
          List.getElem?_eq_getElem (by omega)]
        rfl

/-! ## Single instructions -/

namespace Part

variable (hpart : image.Part route.text) {instr : Instr} {instruction : Instruction}
  {goal : Machine → Prop}

include hpart

theorem steps_of_execute (hsteady : image.Steady m) (hunlimited : m.cycleLimit = none)
    (hline : (start, instr) ∈ route.text) (hlinked : instr.linked image.entries = instruction)
    (hpc : m.pc = start)
    (hexecute : Machine.execute instruction (m.advance route.tracing instruction) = .ok none m')
    (hgoal : goal m') : Steps route goal m := by
  have hfetch := hpart.loaded.fetch_eq hsteady (hpart.lines _ hline) hpc
  rw [hlinked] at hfetch
  refine ⟨⟨instr, hpc ▸ hline⟩, .inr ⟨m', ?_, hgoal⟩⟩
  rw [Machine.step_of_fetch (by simp [hunlimited]) hfetch, hexecute]

theorem steps_of_overflow (hsteady : image.Steady m) (hunlimited : m.cycleLimit = none)
    (hline : (start, instr) ∈ route.text) (hlinked : instr.linked image.entries = instruction)
    (hpc : m.pc = start) {at' : Nat}
    (hexecute : Machine.execute instruction (m.advance route.tracing instruction) =
      .error (.stackOverflow at') m') : Steps route goal m := by
  have hfetch := hpart.loaded.fetch_eq hsteady (hpart.lines _ hline) hpc
  rw [hlinked] at hfetch
  refine ⟨⟨instr, hpc ▸ hline⟩, .inl ⟨at', m', ?_⟩⟩
  rw [Machine.step_of_fetch (by simp [hunlimited]) hfetch, hexecute]

section Instructions

variable (hshows : image.Shows arity slots store m) (hpc : m.pc = start)

include hshows hpc

theorem steps_push (hline : (start, .plain .push) ∈ route.text) :
    Steps route (fun m' => image.Passed m 1 (start + 1) m' ∧ m'.memory[m'.sp]? = some m.acc)
      m := by
  have hframed := hshows.framed
  by_cases hroom : image.stack.start < m.sp
  · obtain ⟨hexecute, hafter, htop⟩ := hframed.execute_push hpart.loaded hpc hroom rfl
    refine hpart.steps_of_execute hframed.steady hshows.unlimited hline rfl hpc hexecute ⟨?_, htop⟩
    exact
      { after := hafter
        unlimited := rfl
        below := fun other hother => Machine.getElem?_setWord_of_ne (by omega) m.acc }
  · have hexecute := Machine.execute_push_full
      (m := m.advance route.tracing (Instr.linked image.entries (.plain .push)))
      (hframed.steady.sp_le_start hroom)
    exact hpart.steps_of_overflow hframed.steady hshows.unlimited hline rfl hpc hexecute

theorem steps_imm {word : Word} (hline : (start, .withWord .imm word) ∈ route.text) :
    Steps route (fun m' => image.Passed m 0 (start + 2) m' ∧ m'.acc = word) m :=
  hpart.steps_of_execute hshows.framed.steady hshows.unlimited hline rfl hpc rfl
    ⟨.of_registers hshows.framed rfl rfl rfl rfl rfl (by rw [← hpc]; rfl) rfl rfl, rfl⟩

theorem steps_load {place : Place} (hplace : place.Valid (image.context.inside arity slots))
    (hline : (start, place.load) ∈ route.text) :
    Steps route (fun m' => image.Passed m 0 (start + 2) m' ∧
      m'.acc = Word.ofCount (place.address m.bp)) m :=
  hpart.steps_of_execute hshows.framed.steady hshows.unlimited hline rfl hpc
    (hshows.framed.execute_load hplace route.tracing)
    ⟨.of_registers hshows.framed rfl rfl rfl rfl rfl (by rw [← hpc]; rfl) rfl rfl, rfl⟩

theorem steps_li {place : Place} (hplace : place.Valid (image.context.inside arity slots))
    (hacc : m.acc = Word.ofCount (place.address m.bp))
    (hline : (start, .plain .li) ∈ route.text) :
    Steps route (fun m' => image.Passed m 0 (start + 1) m' ∧ m'.acc = store place) m := by
  have hbounds := hshows.framed.address_bounds hpart.loaded hplace
  let next := m.advance route.tracing (Instr.linked image.entries (.plain .li))
  have hcount : next.acc.count? = some (place.address m.bp) := by
    change m.acc.count? = _
    rw [hacc, Word.count?_ofCount (Nat.lt_trans hbounds.2 hpart.loaded.stack_lt)]
  have hsize : place.address m.bp < next.memory.size := by
    change _ < m.memory.size
    rw [hshows.framed.steady.size, hpart.loaded.stackStop]
    exact hbounds.2
  refine hpart.steps_of_execute hshows.framed.steady hshows.unlimited hline rfl hpc
    (Machine.execute_li hcount hsize) ⟨?_, ?_⟩
  · exact .of_registers hshows.framed rfl rfl rfl rfl rfl (by rw [← hpc]; rfl) rfl rfl
  · exact Machine.wordAt_eq (hshows.words place hplace)

theorem steps_jmp {target : Nat} (hline : (start, .jump .jmp target) ∈ route.text)
    (htarget : target < image.base.textEnd) :
    Steps route (image.Passed m 0 target) m := by
  have hinside := hpart.loaded.isTarget hshows.framed.steady htarget
  exact hpart.steps_of_execute hshows.framed.steady hshows.unlimited hline rfl hpc
    (Machine.execute_jmp ⟨hinside.start, hinside.stop, hinside.small⟩)
    (.of_registers hshows.framed rfl rfl rfl rfl rfl rfl rfl rfl)

/-- A conditional jump is taken if the accumulator says so. -/
theorem steps_branch {opcode : Opcode} {isTaken : Bool} {target : Nat}
    (hopcode : opcode = .jz ∧ isTaken = decide (m.acc = 0) ∨
      opcode = .jnz ∧ isTaken = decide (m.acc ≠ 0))
    (hline : (start, .jump opcode target) ∈ route.text) (htarget : target < image.base.textEnd) :
    Steps route (fun m' => image.Passed m 0 (if isTaken then target else start + 2) m' ∧
      m'.acc = m.acc) m := by
  have hinside := hpart.loaded.isTarget hshows.framed.steady htarget
  let next := m.advance route.tracing (Instr.linked image.entries (.jump opcode target))
  have hnext : next.IsTarget target := ⟨hinside.start, hinside.stop, hinside.small⟩
  refine hpart.steps_of_execute hshows.framed.steady hshows.unlimited hline rfl hpc
    (Machine.execute_branch (m := next) hnext hopcode) ⟨?_, rfl⟩
  have hbehind : next.pc = start + 2 := by
    rw [← hpc]
    rfl
  exact .of_registers hshows.framed rfl rfl rfl rfl rfl (by rw [hbehind]) rfl rfl

end Instructions

/-! ## Instructions that pop -/

/-- An operator takes its left operand from the stack. -/
theorem meets_binary (hframed : image.Framed arity slots m) (hafter : image.After m 1 start m')
    (hshows : image.Shows arity slots store m') {left right : Word}
    (hleft : m'.memory[m'.sp]? = some left) (hright : m'.acc = right) {operator : Operator}
    (hline : (start, .plain (.binary operator)) ∈ route.text) (least : Nat) :
    Meets route least (image.Evaluated arity slots m (start + 1)) m'
      ((resultOf .divisionByZero ( operator.apply? left right) : Evaluation Store Word) store) := by
  let next := m'.advance route.tracing (Instr.linked image.entries (.plain (.binary operator)))
  have hpop : next.sp < next.layout.stack.stop := by
    have hlt := hafter.sp_lt hframed
    change m'.sp < m'.layout.stack.stop
    rwa [hafter.steady.stack_eq]
  have hoperands : operator.apply? (next.wordAt next.sp) next.acc =
      operator.apply? left right := by
    rw [show next.wordAt next.sp = left from Machine.wordAt_eq (m := m') hleft,
      show next.acc = right from hright]
  cases hword : operator.apply? left right with
  | some word =>
      have hexecute := Machine.execute_binary hpop (hoperands.trans hword)
      refine Steps.leads (hpart.steps_of_execute hafter.steady hshows.unlimited hline rfl
        hafter.pc hexecute ?_)
      have hpopped : image.After m 0 (start + 1) { next with sp := next.sp + 1, acc := word } :=
        hafter.of_pop rfl rfl rfl rfl (by rw [← hafter.pc]; rfl) rfl rfl
      exact ⟨hpopped, rfl, hshows.congr (hpopped.framed hframed) rfl rfl rfl⟩
  | none =>
      have hexecute := Machine.execute_binary_fault hpop (hoperands.trans hword)
      have hfetch := hpart.loaded.fetch_eq hafter.steady (hpart.lines _ hline) hafter.pc
      refine .here ⟨next.current, { next with sp := next.sp + 1 }, ?_⟩
      rw [Machine.step_of_fetch (by simp [hshows.unlimited]) hfetch]
      exact hexecute

/-- Dropping what has been pushed. -/
theorem steps_adj {count : Nat} (hframed : image.Framed arity slots m)
    (hafter : image.After m count start m') (hshows : image.Shows arity slots store m')
    (hline : (start, .withWord .adj (Word.ofCount count)) ∈ route.text) :
    Steps route (image.Evaluated arity slots m (start + 2) m'.acc store) m' := by
  obtain ⟨hexecute, hdropped⟩ := hafter.execute_adj hpart.loaded hframed rfl
  exact hpart.steps_of_execute hafter.steady hshows.unlimited hline rfl hafter.pc hexecute
    ⟨hdropped, rfl, hshows.congr (hdropped.framed hframed) rfl rfl rfl⟩

/-- Calling a function whose arguments are on the stack. -/
theorem steps_call {name : String} {count target : Nat} {values : List Word}
    (hframed : image.Framed arity slots m)
    (hpushed : image.Pushed arity slots m count start values store m')
    (hline : (start, .call name) ∈ route.text)
    (hentry : image.entries.lookup name = some target) (htarget : target < image.base.textEnd)
    (hback : start + 2 < image.base.textEnd) :
    Steps route (fun entered => image.Entering count (start + 2) values store entered ∧
      entered.pc = target ∧ ∀ value store' m'',
        image.Answered count (start + 2) entered value store' m'' →
          image.After m count (start + 2) m'') m' := by
  have hafter := hpushed.after
  have hlinked := Core.Instr.linked_call hentry
  by_cases hroom : image.stack.start < m'.sp
  · let entered : Machine :=
      { (m'.advance route.tracing
          { opcode := .call, operand := some (Word.ofCount target) }).setWord
            (m'.sp - 1) (Word.ofCount (start + 2)) with sp := m'.sp - 1, pc := target }
    obtain ⟨hexecute, hcalled, hreturn⟩ := @After.execute_call _ _ _ entered _ _ _ _
      route.tracing hpart.loaded _ hframed hafter htarget hback hroom rfl
    have hkept : ∀ other, other ≠ m'.sp - 1 → entered.memory[other]? = m'.memory[other]? :=
      fun other hne => Machine.getElem?_setWord_of_ne (Ne.symm hne) _
    refine hpart.steps_of_execute hafter.steady hpushed.shows.unlimited hline hlinked hafter.pc
      hexecute ⟨?_, rfl, fun value store' m'' hanswered => hreturn m'' hanswered.returned⟩
    · have hdataStop := hpart.loaded.dataStop
      have hdata := hpart.loaded.data_le_stack
      exact
        { called := hcalled
          unlimited := hpushed.shows.unlimited
          length := hpushed.length
          words := by
            intro index value hvalue
            have hsp : entered.sp + 1 = m'.sp := by
              change m'.sp - 1 + 1 = m'.sp
              omega
            change entered.memory[entered.sp + 1 + index]? = _
            rw [hsp, hkept _ (by omega)]
            exact hpushed.words index value hvalue
          globals := by
            intro other hfirst hlast
            exact (hkept other (by omega)).trans (hpushed.shows.globals other hfirst hlast) }
  · have hinside := hpart.loaded.isTarget hafter.steady htarget
    have hexecute := Machine.execute_call_full
      (m := m'.advance route.tracing
        { opcode := .call, operand := some (Word.ofCount target) })
      ⟨hinside.start, hinside.stop, hinside.small⟩ (hafter.steady.sp_le_start hroom)
    exact hpart.steps_of_overflow hafter.steady hpushed.shows.unlimited hline hlinked hafter.pc
      hexecute

/-! ## Several instructions -/

section Sequences

variable (hshows : image.Shows arity slots store m) (hpc : m.pc = start)

include hshows hpc

/-- The accumulator becomes 0 or 1. -/
theorem leads_truth
    (hcode : route.Has start [.plain .push, .withWord .imm 0, .plain (.binary .ne)]) :
    Leads route (image.Evaluated arity slots m (start + 4) (truth m.acc) store) m := by
  obtain ⟨hpush, himm, hbinary⟩ := hcode.truth
  refine (hpart.steps_push hshows hpc hpush).leads.trans fun first ⟨hfirst, htop⟩ => ?_
  have hpushed := hfirst.shows hpart.loaded hshows
  refine (hpart.steps_imm hpushed hfirst.after.pc himm).leads.trans fun second ⟨hsecond, hacc⟩ => ?_
  have hkept : second.memory[second.sp]? = some m.acc := by
    have hsp : second.sp = first.sp := hsecond.after.sp
    rw [hsp, hsecond.after.stack _ (Nat.le_refl _), htop]
  have hmeets : Meets route 0 (image.Evaluated arity slots m (start + 4)) second
      ((resultOf .divisionByZero ( Operator.ne.apply? m.acc 0) : Evaluation Store Word) store) :=
    hpart.meets_binary hshows.framed (hfirst.after.trans hsecond.after)
      (hsecond.shows hpart.loaded hpushed) hkept hacc hbinary 0
  rw [Operator.apply?_ne_zero] at hmeets
  exact hmeets

/-- Storing the accumulator. -/
theorem leads_store {place : Place} (hplace : place.Valid (image.context.inside arity slots))
    (hcode : route.Has start place.store) :
    Leads route (image.Updated m place m.acc (start + 4)) m := by
  obtain ⟨hpush, hload, hstore⟩ := hcode.store
  refine (hpart.steps_push hshows hpc hpush).leads.trans fun first ⟨hfirst, htop⟩ => ?_
  have hpushed := hfirst.shows hpart.loaded hshows
  refine (hpart.steps_load hpushed hfirst.after.pc hplace hload).leads.trans
    fun second ⟨hsecond, hacc⟩ => ?_
  have hafter := hfirst.after.trans hsecond.after
  have hkept : second.memory[second.sp]? = some m.acc := by
    have hsp : second.sp = first.sp := hsecond.after.sp
    rw [hsp, hsecond.after.stack _ (Nat.le_refl _), htop]
  rw [hfirst.after.bp] at hacc
  obtain ⟨hexecute, hstored⟩ :=
    hafter.execute_si hpart.loaded hshows.framed hplace hkept hacc rfl
  refine Steps.leads (hpart.steps_of_execute hafter.steady
    (hsecond.shows hpart.loaded hpushed).unlimited hstore rfl hafter.pc hexecute ?_)
  exact
    { stored := hstored
      unlimited := hsecond.unlimited.trans hfirst.unlimited
      below := by
        intro other hother hne
        refine (Machine.getElem?_setWord_of_ne (Ne.symm hne) m.acc).trans ?_
        exact (hsecond.below other hother).trans (hfirst.below other hother) }

end Sequences

end Part

end Image

end WordC
