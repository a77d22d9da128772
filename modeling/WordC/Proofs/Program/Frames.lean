import WordC.Proofs.Program.Image

/-!
# Frames

A function keeps its slots below its base pointer and its parameters above the return address, and
pushes temporaries below the slots. The code of an expression pops what it pushes and changes no
word of the stack that was there before.
-/

namespace WordC

open WordC.Core (Context Instr Place Section)

namespace Machine

variable {m : Machine}

theorem getElem?_setWord_self {address : Nat} (h : address < m.memory.size) (word : Word) :
    (m.setWord address word).memory[address]? = some word :=
  Array.getElem?_setIfInBounds_self_of_lt h

theorem getElem?_setWord_of_ne {address other : Nat} (h : address ≠ other) (word : Word) :
    (m.setWord address word).memory[other]? = m.memory[other]? :=
  Array.getElem?_setIfInBounds_ne h

theorem size_setWord (address : Nat) (word : Word) :
    (m.setWord address word).memory.size = m.memory.size :=
  Array.size_setIfInBounds

theorem wordAt_eq {address : Nat} {word : Word} (h : m.memory[address]? = some word) :
    m.wordAt address = word := by
  rw [wordAt, Array.getD_eq_getD_getElem?, h]
  rfl

end Machine

namespace Core.Place

variable {context : Context} {place : Place} {bp : Nat}

theorem Valid.slot_le (h : place.Valid context) (hslots : context.slots ≤ bp) {index : Nat}
    (hslot : place = .slot index) : index ≤ bp := by
  subst hslot
  obtain ⟨-, hlast⟩ : 1 ≤ index ∧ index ≤ context.slots := h
  exact Nat.le_trans hlast hslots

/-- A place is a word of the data, a slot below the base pointer or a parameter above the return
address. -/
theorem Valid.address_cases (h : place.Valid context) (hslots : context.slots ≤ bp) :
    (context.data.start ≤ place.address bp ∧ place.address bp < context.data.stop) ∨
      (bp ≤ place.address bp + context.slots ∧ place.address bp < bp) ∨
      (bp + 2 ≤ place.address bp ∧ place.address bp < bp + context.arity + 2) := by
  cases place with
  | global address => exact .inl h
  | slot index =>
      have hlast := h.slot_le hslots rfl
      obtain ⟨hfirst, hslot⟩ : 1 ≤ index ∧ index ≤ context.slots := h
      rw [address]
      omega
  | parameter distance =>
      obtain ⟨hfirst, hlast⟩ : 2 ≤ distance ∧ distance < context.arity + 2 := h
      rw [address]
      omega

/-- Loading a place leaves its address in the accumulator. -/
theorem execute_load {m : Machine} (place : Place)
    (hslot : ∀ index, place = .slot index → index ≤ m.bp) (entries : List (String × Nat)) :
    Machine.execute (place.load.linked entries) m =
      .ok none { m with acc := Word.ofCount (place.address m.bp) } := by
  cases place with
  | global address => rfl
  | slot index =>
      rw [address, ← Word.ofCount_sub (hslot index rfl)]
      rfl
  | parameter distance =>
      rw [address, ← Word.ofCount_sub_neg]
      rfl

end Core.Place

namespace Image

variable {image : Image} {m m' m'' : Machine} {arity slots : Nat}

/-! ## Steady machines -/

namespace Steady

theorem setWord (h : image.Steady m) {address : Nat}
    (haddress : image.base.layout.text.stop ≤ address) (word : Word) :
    image.Steady (m.setWord address word) where
  layout := h.layout
  textEnd := h.textEnd
  size := (Machine.size_setWord address word).trans h.size
  text := by
    intro other hother
    rw [Machine.getElem?_setWord_of_ne (by omega)]
    exact h.text other hother
  heap := h.heap

/-- Registers and the host play no part. -/
theorem congr (h : image.Steady m) (hlayout : m'.layout = m.layout)
    (htextEnd : m'.textEnd = m.textEnd) (hmemory : m'.memory = m.memory)
    (hheap : m'.heap = m.heap) :
    image.Steady m' where
  layout := hlayout.trans h.layout
  textEnd := htextEnd.trans h.textEnd
  size := by rw [hmemory, h.size]
  text := fun address haddress => by rw [hmemory, h.text address haddress]
  heap := by
    rw [hheap, hlayout]
    exact h.heap

theorem spares (h : image.Steady m) (hspares : m.Spares m') : image.Steady m' where
  layout := hspares.layout.trans h.layout
  textEnd := hspares.textEnd.trans h.textEnd
  size := hspares.size.trans h.size
  text := by
    intro address haddress
    rw [hspares.text address (by rw [h.layout]; exact haddress)]
    exact h.text address haddress
  heap := hspares.heap h.heap

end Steady

/-- Where the stack of a program is. -/
def stack (image : Image) : Extent :=
  image.base.layout.stack

theorem Steady.stack_eq (h : image.Steady m) : m.layout.stack = image.stack := by
  rw [h.layout]
  rfl

/-- A stack without room is full. -/
theorem Steady.sp_le_start (h : image.Steady m) (hfull : ¬image.stack.start < m.sp) :
    m.sp ≤ m.layout.stack.start := by
  rw [h.stack_eq]
  exact Nat.le_of_not_lt hfull

theorem Loaded.stackStop (h : image.Loaded) : image.base.memory.size = image.stack.stop :=
  h.sound.size

theorem Loaded.stack_lt (h : image.Loaded) : image.stack.stop < 2 ^ 63 :=
  h.small

theorem Loaded.data_le_stack (h : image.Loaded) :
    image.base.layout.data.stop ≤ image.stack.start :=
  h.sound.ordered.data_le_stack

theorem Loaded.text_le_stack (h : image.Loaded) :
    image.base.layout.text.stop ≤ image.stack.start :=
  h.sound.ordered.text_le_stack

/-! ## Places -/

/-- The local places of a function are words of the stack. -/
structure Framed (image : Image) (arity slots : Nat) (m : Machine) : Prop where
  steady : image.Steady m
  start : image.stack.start ≤ m.sp
  slots : m.sp + slots ≤ m.bp
  stop : m.bp ≤ image.stack.stop
  parameters : 0 < arity → m.bp + arity + 2 ≤ image.stack.stop

theorem Framed.slots_le (h : image.Framed arity slots m) : slots ≤ m.bp :=
  Nat.le_trans (Nat.le_add_left slots m.sp) h.slots

theorem Framed.address_cases (h : image.Framed arity slots m) {place : Place}
    (hplace : place.Valid (image.context.inside arity slots)) :
    (image.context.data.start ≤ place.address m.bp ∧
        place.address m.bp < image.context.data.stop) ∨
      (m.bp ≤ place.address m.bp + slots ∧ place.address m.bp < m.bp) ∨
      (m.bp + 2 ≤ place.address m.bp ∧ place.address m.bp < m.bp + arity + 2) :=
  hplace.address_cases h.slots_le

/-- A place has its address outside of the text. -/
theorem Framed.address_bounds (h : image.Framed arity slots m) (hloaded : image.Loaded)
    {place : Place} (hplace : place.Valid (image.context.inside arity slots)) :
    image.base.layout.text.stop ≤ place.address m.bp ∧ place.address m.bp < image.stack.stop := by
  have hslots := h.slots
  have hstart := h.start
  have hstop := h.stop
  have htext := hloaded.text_le_stack
  rcases h.address_cases hplace with ⟨hfirst, hlast⟩ | ⟨hfirst, hlast⟩ | ⟨hfirst, hlast⟩
  · have hdataStart := hloaded.dataStart
    have hdataStop := hloaded.dataStop
    have hdata := hloaded.data_le_stack
    have hstack : image.stack.start < image.stack.stop := hloaded.sound.ordered.stackStop
    omega
  · omega
  · have hparameters := h.parameters (by omega)
    omega

theorem Framed.execute_load (h : image.Framed arity slots m) {place : Place}
    (hplace : place.Valid (image.context.inside arity slots)) (tracing : Bool) :
    Machine.execute (place.load.linked image.entries)
        (m.advance tracing (place.load.linked image.entries)) =
      .ok none { m.advance tracing (place.load.linked image.entries) with
        acc := Word.ofCount (place.address m.bp) } := by
  refine place.execute_load (fun index hslot => ?_) image.entries
  exact hplace.slot_le h.slots_le hslot

/-! ## What code leaves behind -/

/-- The machine has come to an address with some words more on its stack and is otherwise as
before. -/
structure After (image : Image) (m : Machine) (pushed address : Nat) (m' : Machine) : Prop where
  steady : image.Steady m'
  pc : m'.pc = address
  sp : m'.sp + pushed = m.sp
  start : image.stack.start ≤ m'.sp
  bp : m'.bp = m.bp
  stack : ∀ address, m.sp ≤ address → m'.memory[address]? = m.memory[address]?

variable {pushed pushed' address address' : Nat}

theorem After.trans (h : image.After m pushed address m')
    (h' : image.After m' pushed' address' m'') :
    image.After m (pushed + pushed') address' m'' where
  steady := h'.steady
  pc := h'.pc
  sp := by
    have hsp := h.sp
    have hsp' := h'.sp
    omega
  start := h'.start
  bp := h'.bp.trans h.bp
  stack := by
    intro other hother
    have hsp := h.sp
    rw [h'.stack other (by omega), h.stack other hother]

theorem After.framed (h : image.After m pushed address m') (hframed : image.Framed arity slots m) :
    image.Framed arity slots m' where
  steady := h.steady
  start := h.start
  slots := by
    have hsp := h.sp
    have hslots := hframed.slots
    rw [h.bp]
    omega
  stop := by
    rw [h.bp]
    exact hframed.stop
  parameters := by
    intro hpositive
    rw [h.bp]
    exact hframed.parameters hpositive

/-- Instructions that change nothing but registers. -/
theorem After.of_registers (hframed : image.Framed arity slots m) (hlayout : m'.layout = m.layout)
    (htextEnd : m'.textEnd = m.textEnd) (hmemory : m'.memory = m.memory) (hheap : m'.heap = m.heap)
    (hpc : m'.pc = address) (hsp : m'.sp = m.sp) (hbp : m'.bp = m.bp) :
    image.After m 0 address m' where
  steady := hframed.steady.congr hlayout htextEnd hmemory hheap
  pc := hpc
  sp := hsp
  start := by
    rw [hsp]
    exact hframed.start
  bp := hbp
  stack := fun other _ => by rw [hmemory]

/-- A word is pushed. -/
theorem After.of_push (hloaded : image.Loaded) (hframed : image.Framed arity slots m) {word : Word}
    (hroom : image.stack.start < m.sp) (hlayout : m'.layout = m.layout)
    (htextEnd : m'.textEnd = m.textEnd) (hmemory : m'.memory = (m.setWord (m.sp - 1) word).memory)
    (hheap : m'.heap = m.heap) (hpc : m'.pc = address) (hsp : m'.sp = m.sp - 1)
    (hbp : m'.bp = m.bp) : image.After m 1 address m' where
  steady := by
    have htext := hloaded.text_le_stack
    exact (hframed.steady.setWord (by omega) word).congr hlayout htextEnd
      hmemory hheap
  pc := hpc
  sp := by omega
  start := by omega
  bp := hbp
  stack := by
    intro other hother
    rw [hmemory]
    exact Machine.getElem?_setWord_of_ne (by omega) word

theorem Framed.sp_le (h : image.Framed arity slots m) : m.sp ≤ image.stack.stop := by
  have hslots := h.slots
  have hstop := h.stop
  omega

/-- The word on top is popped. -/
theorem After.of_pop (h : image.After m 1 address m') (hlayout : m''.layout = m'.layout)
    (htextEnd : m''.textEnd = m'.textEnd) (hmemory : m''.memory = m'.memory)
    (hheap : m''.heap = m'.heap) (hpc : m''.pc = address')
    (hsp : m''.sp = m'.sp + 1) (hbp : m''.bp = m'.bp) : image.After m 0 address' m'' where
  steady := h.steady.congr hlayout htextEnd hmemory hheap
  pc := hpc
  sp := by
    have hpushed := h.sp
    omega
  start := by
    have hstart := h.start
    omega
  bp := hbp.trans h.bp
  stack := by
    intro other hother
    rw [hmemory]
    exact h.stack other hother

theorem After.sp_lt (h : image.After m (pushed + 1) address m')
    (hframed : image.Framed arity slots m) : m'.sp + pushed < image.stack.stop := by
  have hsp := h.sp
  have hle := hframed.sp_le
  omega

/-- What has been pushed can be popped. -/
theorem After.sp_le_stop (h : image.After m pushed address m')
    (hframed : image.Framed arity slots m) : m'.sp + pushed ≤ m'.layout.stack.stop := by
  rw [h.steady.stack_eq, h.sp]
  exact hframed.sp_le

/-- What has been pushed is dropped, and the machine differs then in nothing that code relies on. -/
theorem After.spared (h : image.After m pushed address m') {dropped : Machine}
    (hspares : dropped.Spares m'') (hlayout : dropped.layout = m'.layout)
    (htextEnd : dropped.textEnd = m'.textEnd) (hmemory : dropped.memory = m'.memory)
    (hheap : dropped.heap = m'.heap) (hpc : dropped.pc = address')
    (hsp : dropped.sp = m'.sp + pushed) (hbp : dropped.bp = m'.bp) : image.After m 0 address' m'' where
  steady := (h.steady.congr hlayout htextEnd hmemory hheap).spares hspares
  pc := hspares.pc.trans hpc
  sp := by rw [hspares.sp, hsp, Nat.add_zero, h.sp]
  start := by
    rw [hspares.sp, hsp]
    exact Nat.le_add_right_of_le h.start
  bp := by rw [hspares.bp, hbp, h.bp]
  stack := by
    intro other hother
    have hstart := h.start
    have hsp' := h.sp
    rw [hspares.stack other (by rw [hlayout, h.steady.stack_eq]; omega), hmemory,
      h.stack other hother]

/-- The machine has come to an address and the word of one place has been stored. -/
structure Stored (image : Image) (m : Machine) (place : Place) (word : Word) (address : Nat)
    (m' : Machine) : Prop where
  steady : image.Steady m'
  pc : m'.pc = address
  sp : m'.sp = m.sp
  bp : m'.bp = m.bp
  word : m'.memory[place.address m.bp]? = some word
  stack : ∀ address, m.sp ≤ address → address ≠ place.address m.bp →
    m'.memory[address]? = m.memory[address]?

theorem Stored.framed {place : Place} {word : Word} (h : image.Stored m place word address m')
    (hframed : image.Framed arity slots m) : image.Framed arity slots m' where
  steady := h.steady
  start := by
    rw [h.sp]
    exact hframed.start
  slots := by
    rw [h.sp, h.bp]
    exact hframed.slots
  stop := by
    rw [h.bp]
    exact hframed.stop
  parameters := by
    intro hpositive
    rw [h.bp]
    exact hframed.parameters hpositive

/-! ## Calls -/

/-- The machine is at the entry of a function: its arguments and the return address are on the
stack. -/
structure Called (image : Image) (arity target : Nat) (m : Machine) : Prop where
  steady : image.Steady m
  start : image.stack.start ≤ m.sp
  back : m.memory[m.sp]? = some (Word.ofCount target)
  target : target < image.base.textEnd
  stop : m.sp + 1 + arity ≤ image.stack.stop
  bpStart : image.stack.start ≤ m.bp
  bpStop : m.bp ≤ image.stack.stop

/-- A function that was entered at the machine `m` has returned. Its parameters may have changed. -/
structure Returned (image : Image) (arity target : Nat) (m m' : Machine) : Prop where
  steady : image.Steady m'
  pc : m'.pc = target
  sp : m'.sp = m.sp + 1
  bp : m'.bp = m.bp
  stack : ∀ address, m.sp + 1 + arity ≤ address → m'.memory[address]? = m.memory[address]?

/-- A call with its arguments on the stack enters the function. -/
theorem After.called (h : image.After m arity address m') (hloaded : image.Loaded)
    {inner slots : Nat} (hframed : image.Framed inner slots m) {target : Nat}
    (htarget : target < image.base.textEnd) (hroom : image.stack.start < m'.sp)
    (hlayout : m''.layout = m'.layout) (htextEnd : m''.textEnd = m'.textEnd)
    (hmemory : m''.memory = (m'.setWord (m'.sp - 1) (Word.ofCount target)).memory)
    (hheap : m''.heap = m'.heap) (hsp : m''.sp = m'.sp - 1) (hbp : m''.bp = m'.bp) :
    image.Called arity target m'' where
  steady := by
    have htext := hloaded.text_le_stack
    exact (h.steady.setWord (by omega) (Word.ofCount target)).congr hlayout
      htextEnd hmemory hheap
  start := by omega
  back := by
    have hpushed := h.sp
    have hle := hframed.sp_le
    rw [hmemory, hsp]
    refine Machine.getElem?_setWord_self ?_ _
    rw [h.steady.size, hloaded.stackStop]
    omega
  target := htarget
  stop := by
    have hpushed := h.sp
    have hle := hframed.sp_le
    omega
  bpStart := by
    have hstart := hframed.start
    have hslots := hframed.slots
    rw [hbp, h.bp]
    omega
  bpStop := by
    rw [hbp, h.bp]
    exact hframed.stop

/-- Back from a call, the arguments are still on the stack. -/
theorem After.returned (h : image.After m arity address m') {target : Nat} {word : Word}
    (hroom : image.stack.start < m'.sp) {entered : Machine}
    (hmemory : entered.memory = (m'.setWord (m'.sp - 1) word).memory)
    (hsp : entered.sp = m'.sp - 1) (hbp : entered.bp = m'.bp)
    (hreturned : image.Returned arity target entered m'') : image.After m arity target m'' where
  steady := hreturned.steady
  pc := hreturned.pc
  sp := by
    have hpushed := h.sp
    have hback := hreturned.sp
    omega
  start := by
    have hback := hreturned.sp
    omega
  bp := by rw [hreturned.bp, hbp, h.bp]
  stack := by
    intro other hother
    have hpushed := h.sp
    rw [hreturned.stack other (by omega), hmemory,
      Machine.getElem?_setWord_of_ne (by omega), h.stack other hother]

/-! ## Bodies -/

/-- The machine is in the body of a function that was entered at the machine `entry`. -/
structure Body (image : Image) (entry : Machine) (arity slots target : Nat) (m : Machine) :
    Prop where
  framed : image.Framed arity slots m
  bp : m.bp + 1 = entry.sp
  saved : m.memory[m.bp]? = some (Word.ofCount entry.bp)
  back : m.memory[entry.sp]? = some (Word.ofCount target)
  kept : ∀ address, entry.sp + 1 + arity ≤ address →
    m.memory[address]? = entry.memory[address]?

variable {entry : Machine} {target : Nat} {tracing : Bool}

theorem Body.after (h : image.Body entry arity slots target m)
    (hafter : image.After m 0 address m') :
    image.Body entry arity slots target m' where
  framed := hafter.framed h.framed
  bp := by rw [hafter.bp, h.bp]
  saved := by
    have hslots := h.framed.slots
    rw [hafter.bp, hafter.stack _ (by omega), h.saved]
  back := by
    have hslots := h.framed.slots
    have hbp := h.bp
    rw [hafter.stack _ (by omega), h.back]
  kept := by
    intro other hother
    have hslots := h.framed.slots
    have hbp := h.bp
    rw [hafter.stack _ (by omega), h.kept other hother]

/-- Variables stand apart from what the function needs to return. -/
theorem Framed.address_apart (hloaded : image.Loaded) (h : image.Framed arity slots m)
    {place : Place} (hplace : place.Valid (image.context.inside arity slots)) {other : Nat}
    (hother : other = m.bp ∨ other = m.bp + 1 ∨ m.bp + arity + 2 ≤ other) :
    other ≠ place.address m.bp := by
  have hslots := h.slots
  have hstart := h.start
  rcases h.address_cases hplace with ⟨-, hlast⟩ | ⟨-, hlast⟩ | ⟨hfirst, hlast⟩
  · have hdata := hloaded.data_le_stack
    have hdataStop := hloaded.dataStop
    omega
  · omega
  · omega

theorem Body.stored (hloaded : image.Loaded) (h : image.Body entry arity slots target m)
    {place : Place} {word : Word} (hplace : place.Valid (image.context.inside arity slots))
    (hstored : image.Stored m place word address m') : image.Body entry arity slots target m' := by
  have hslots := h.framed.slots
  have hbp := h.bp
  refine
    { framed := hstored.framed h.framed
      bp := by rw [hstored.bp, h.bp]
      saved := ?_
      back := ?_
      kept := ?_ }
  · rw [hstored.bp, hstored.stack _ (by omega)
      (h.framed.address_apart hloaded hplace (.inl rfl)), h.saved]
  · rw [hstored.stack _ (by omega)
      (h.framed.address_apart hloaded hplace (.inr (.inl hbp.symm))), h.back]
  · intro other hother
    rw [hstored.stack _ (by omega)
      (h.framed.address_apart hloaded hplace (.inr (.inr (by omega)))), h.kept other hother]

/-- Opening the frame of a function. -/
theorem Called.entered (hloaded : image.Loaded) (h : image.Called arity target m)
    (hroom : image.stack.start < m.sp) (hslots : slots ≤ m.sp - 1 - image.stack.start)
    (hlayout : m'.layout = m.layout) (htextEnd : m'.textEnd = m.textEnd)
    (hmemory : m'.memory = (m.entered slots).memory) (hheap : m'.heap = m.heap)
    (hsp : m'.sp = m.sp - 1 - slots) (hbp : m'.bp = m.sp - 1) :
    image.Body m arity slots target m' := by
  have htext := hloaded.text_le_stack
  have hstop := h.stop
  have hsize : m.memory.size = image.stack.stop := by
    rw [h.steady.size, hloaded.stackStop]
  have hword : ∀ other, ¬(m.sp - 1 - slots ≤ other ∧ other < m.sp - 1) →
      m'.memory[other]? = (m.setWord (m.sp - 1) (Word.ofCount m.bp)).memory[other]? := by
    intro other hother
    rw [hmemory]
    change (Memory.fill _ _ _ (Extent.size _))[other]? = _
    rw [Memory.getElem?_fill, if_neg]
    simp only [Extent.size]
    omega
  have hkept : ∀ other, ¬(m.sp - 1 - slots ≤ other ∧ other < m.sp) →
      m'.memory[other]? = m.memory[other]? := by
    intro other hother
    rw [hword other (by omega), Machine.getElem?_setWord_of_ne (by omega)]
  have hsteady : image.Steady m' :=
    { layout := hlayout.trans h.steady.layout
      textEnd := htextEnd.trans h.steady.textEnd
      size := by
        rw [hmemory]
        change (Memory.fill _ _ _ _).size = _
        rw [Memory.size_fill]
        exact (Machine.size_setWord _ _).trans h.steady.size
      text := by
        intro other hother
        rw [hkept other (by omega), h.steady.text other hother]
      heap := by
        rw [hheap, hlayout]
        exact h.steady.heap }
  refine
    { framed :=
        { steady := hsteady
          start := by omega
          slots := by omega
          stop := by omega
          parameters := by omega }
      bp := by omega
      saved := ?_
      back := ?_
      kept := ?_ }
  · rw [hbp, hword _ (by omega)]
    exact Machine.getElem?_setWord_self (by omega) _
  · rw [hkept _ (by omega), h.back]
  · intro other hother
    rw [hkept _ (by omega)]

/-- Leaving a function. -/
theorem Body.execute_lev (hloaded : image.Loaded) (h : image.Body entry arity slots target m)
    (hcalled : image.Called arity target entry) {m' : Machine}
    (hm' : m' = { m.advance tracing { opcode := .lev, operand := none } with
      sp := m.bp + 2, bp := entry.bp, pc := target }) :
    Machine.execute { opcode := .lev, operand := none }
        (m.advance tracing { opcode := .lev, operand := none }) = .ok none m' ∧
      image.Returned arity target entry m' := by
  subst hm'
  have hbp := h.bp
  have hback := h.back
  have hstop := hcalled.stop
  have hlt := hloaded.stack_lt
  have hbpStop := hcalled.bpStop
  have hlayout := h.framed.steady.stack_eq
  have htarget := hloaded.isTarget h.framed.steady hcalled.target
  have hexecute := Machine.execute_lev
    (m := m.advance tracing { opcode := .lev, operand := none })
    (by
      change m.bp + 1 < m.layout.stack.stop
      rw [hlayout]
      omega)
    (Machine.wordAt_eq (m := m) h.saved) (by omega)
    (by
      change m.layout.stack.start ≤ entry.bp
      rw [hlayout]
      exact hcalled.bpStart)
    (by
      change entry.bp ≤ m.layout.stack.stop
      rw [hlayout]
      exact hbpStop)
    (Machine.wordAt_eq (m := m) (by rw [← hbp] at hback; exact hback))
    ⟨htarget.start, htarget.stop, htarget.small⟩
  refine ⟨hexecute, ?_⟩
  exact
    { steady := h.framed.steady.congr rfl rfl rfl rfl
      pc := rfl
      sp := by
        change m.bp + 2 = entry.sp + 1
        omega
      bp := rfl
      stack := h.kept }

/-! ## Single instructions -/

/-- Pushing the accumulator, where the stack has room for it. -/
theorem Framed.execute_push (hloaded : image.Loaded) (h : image.Framed arity slots m)
    (hpc : m.pc = address) (hroom : image.stack.start < m.sp) (hm' : m' =
      { (m.advance tracing { opcode := .push, operand := none }).setWord (m.sp - 1) m.acc with
        sp := m.sp - 1 }) :
    Machine.execute { opcode := .push, operand := none }
        (m.advance tracing { opcode := .push, operand := none }) = .ok none m' ∧
      image.After m 1 (address + 1) m' ∧ m'.memory[m'.sp]? = some m.acc := by
  subst hm' hpc
  have hle := h.sp_le
  have hsize : m.sp - 1 < m.memory.size := by
    rw [h.steady.size, hloaded.stackStop]
    omega
  refine ⟨Machine.execute_push ?_, .of_push hloaded h hroom rfl rfl rfl rfl rfl rfl rfl,
    Machine.getElem?_setWord_self hsize m.acc⟩
  change m.layout.stack.start < m.sp
  rwa [h.steady.stack_eq]

/-- Dropping what has been pushed. -/
theorem After.execute_adj (hloaded : image.Loaded) (hframed : image.Framed arity slots m)
    {count : Nat} (h : image.After m count address m') (hm'' : m'' =
      { m'.advance tracing { opcode := .adj, operand := some (Word.ofCount count) } with
        sp := m'.sp + count }) :
    Machine.execute { opcode := .adj, operand := some (Word.ofCount count) }
        (m'.advance tracing { opcode := .adj, operand := some (Word.ofCount count) }) =
          .ok none m'' ∧ image.After m 0 (address + 2) m'' := by
  subst hm''
  have hpushed := h.sp
  have hle := hframed.sp_le
  have hlt := hloaded.stack_lt
  refine ⟨Machine.execute_adj (by omega) (h.sp_le_stop hframed), ?_⟩
  exact
    { steady := h.steady.congr rfl rfl rfl rfl
      pc := congrArg (· + 2) h.pc
      sp := hpushed
      start := Nat.le_trans h.start (Nat.le_add_right _ _)
      bp := h.bp
      stack := h.stack }

/-- A trap fails for one of its arguments, or drops them and spares what code relies on, unless it
writes to the stack. -/
theorem After.execute_trap (tracing : Bool) (hloaded : image.Loaded)
    (hframed : image.Framed arity slots m) {request : Trap} {count : Nat}
    (h : image.After m count address m')
    (harity : request.arity?.all (· == count) = true) {instruction : Instruction}
    (hinstruction : instruction =
      { opcode := .trap request, operand := some (Word.ofCount count) }) :
    (∃ word ∈ m'.arguments count, ∃ stopped,
      Machine.execute instruction (m'.advance tracing instruction) =
        .error (.invalidAccess word m'.pc) stopped) ∨
    ∃ m'', Machine.execute instruction (m'.advance tracing instruction) = .ok none m'' ∧
      ((∀ extent, request.span? (m'.arguments count) = some extent →
        ¬extent.Meets m'.layout.stack) → image.After m 0 (address + 2) m'') := by
  have hpushed := h.sp
  have hle := hframed.sp_le
  have hlt := hloaded.stack_lt
  have hordered : m'.layout.Ordered := by
    rw [h.steady.layout]
    exact hloaded.sound.ordered
  have hsize : m'.memory.size = m'.layout.stack.stop := by
    rw [h.steady.size, hloaded.stackStop, h.steady.stack_eq]
  let next := m'.advance tracing instruction
  have hanswers := Machine.answers_trap (m := next) hordered hsize h.steady.heap
    (show count < 2 ^ 63 by omega) (h.sp_le_stop hframed) request harity
  have hexecute : Machine.execute instruction next = (Machine.trap request (Word.ofCount count) >>=
      fun word => Machine.load word >>= fun _ => pure none) next := by
    subst hinstruction
    rfl
  change (∃ word ∈ m'.arguments count, ∃ stopped, Machine.execute instruction next = _) ∨
    ∃ m'', Machine.execute instruction next = _ ∧ _
  rw [hexecute]
  cases htrap : Machine.trap request (Word.ofCount count) next with
  | error error stopped =>
      rw [htrap] at hanswers
      obtain ⟨word, hword, rfl⟩ := hanswers
      exact .inl ⟨word, hword, stopped, Machine.bind_of_error htrap⟩
  | ok word found =>
      rw [htrap] at hanswers
      refine .inr ⟨_, Machine.bind_of_ok htrap, fun hclear => ?_⟩
      have hpc : next.pc = address + 2 := by
        subst hinstruction
        exact congrArg (· + 2) h.pc
      have hspares : { next with sp := next.sp + count }.Spares { found with acc := word } :=
        { hanswers hclear with }
      exact h.spared hspares rfl rfl rfl rfl hpc rfl rfl

/-- Storing the accumulator at the address on top of the stack... -/
theorem After.execute_si (hloaded : image.Loaded) (hframed : image.Framed arity slots m)
    {place : Place} (hplace : place.Valid (image.context.inside arity slots)) {word : Word}
    (h : image.After m 1 address m') (htop : m'.memory[m'.sp]? = some word)
    (hacc : m'.acc = Word.ofCount (place.address m.bp)) (hm'' : m'' =
      { (m'.advance tracing { opcode := .si, operand := none }).setWord
          (place.address m.bp) word with sp := m'.sp + 1, acc := word }) :
    Machine.execute { opcode := .si, operand := none }
        (m'.advance tracing { opcode := .si, operand := none }) = .ok none m'' ∧
      image.Stored m place word (address + 1) m'' := by
  subst hm''
  have hbounds := hframed.address_bounds hloaded hplace
  have hsize : place.address m.bp < m'.memory.size := by
    rw [h.steady.size, hloaded.stackStop]
    exact hbounds.2
  have hexecute := Machine.execute_si (m := m'.advance tracing { opcode := .si, operand := none })
    (by
      change m'.sp < m'.layout.stack.stop
      rw [h.steady.stack_eq]
      exact h.sp_lt hframed)
    hacc (Nat.lt_trans hbounds.2 hloaded.stack_lt) hsize
    (by
      change m'.layout.text.stop ≤ _
      rw [h.steady.layout]
      exact hbounds.1)
  have hword : (m'.advance tracing { opcode := .si, operand := none }).wordAt m'.sp = word :=
    Machine.wordAt_eq (m := m') htop
  refine ⟨hword ▸ hexecute, ?_⟩
  exact
    { steady := (h.steady.setWord hbounds.1 word).congr rfl rfl rfl rfl
      pc := congrArg (· + 1) h.pc
      sp := h.sp
      bp := h.bp
      word := Machine.getElem?_setWord_self hsize word
      stack := fun other hother hne =>
        (Machine.getElem?_setWord_of_ne (Ne.symm hne) word).trans (h.stack other hother) }

/-- Calling a function whose arguments are on the stack, where the stack has room for the address
to return to. -/
theorem After.execute_call (hloaded : image.Loaded) {inner : Nat}
    (hframed : image.Framed inner slots m) (h : image.After m arity address m')
    (htarget : target < image.base.textEnd) (hback : address + 2 < image.base.textEnd)
    (hroom : image.stack.start < m'.sp) (hm'' : m'' =
      { (m'.advance tracing { opcode := .call, operand := some (Word.ofCount target) }).setWord
          (m'.sp - 1) (Word.ofCount (address + 2)) with sp := m'.sp - 1, pc := target }) :
    Machine.execute { opcode := .call, operand := some (Word.ofCount target) }
        (m'.advance tracing { opcode := .call, operand := some (Word.ofCount target) }) =
          .ok none m'' ∧
      image.Called arity (address + 2) m'' ∧
      ∀ back, image.Returned arity (address + 2) m'' back →
        image.After m arity (address + 2) back := by
  subst hm''
  have hinside := hloaded.isTarget h.steady htarget
  have hexecute := Machine.execute_call
    (m := m'.advance tracing { opcode := .call, operand := some (Word.ofCount target) })
    ⟨hinside.start, hinside.stop, hinside.small⟩
    (by
      change m'.layout.stack.start < m'.sp
      rwa [h.steady.stack_eq])
  have hpc : (m'.advance tracing
      { opcode := .call, operand := some (Word.ofCount target) }).pc = address + 2 :=
    congrArg (· + 2) h.pc
  rw [hpc] at hexecute
  refine ⟨hexecute, h.called hloaded hframed hback hroom rfl rfl rfl rfl rfl rfl,
    fun back hreturned => ?_⟩
  exact @After.returned _ _ _ _ _ _ h _ (Word.ofCount (address + 2)) hroom _ (by rfl) (by rfl)
    (by rfl) hreturned

/-- Opening the frame of a function, where the stack has room for it. -/
theorem Called.execute_ent (hloaded : image.Loaded) (h : image.Called arity target m)
    (hpc : m.pc = address) (hsmall : slots < 2 ^ 63) (hroom : image.stack.start < m.sp)
    (hslots : slots ≤ m.sp - 1 - image.stack.start) (hm' : m' =
      (m.advance tracing { opcode := .ent, operand := some (Word.ofCount slots) }).entered slots) :
    Machine.execute { opcode := .ent, operand := some (Word.ofCount slots) }
        (m.advance tracing { opcode := .ent, operand := some (Word.ofCount slots) }) =
          .ok none m' ∧
      image.Body m arity slots target m' ∧ m'.pc = address + 2 := by
  subst hm'
  have hstack : m.layout.stack.start = image.stack.start := congrArg Extent.start h.steady.stack_eq
  refine ⟨Machine.execute_ent hsmall ?_ ?_,
    h.entered hloaded hroom hslots rfl rfl rfl rfl rfl rfl, congrArg (· + 2) hpc⟩
  · exact hstack ▸ hroom
  · exact hstack ▸ hslots

/-- The frame of a function does not fit on the stack. -/
theorem Called.execute_ent_full (h : image.Called arity target m) (hsmall : slots < 2 ^ 63)
    (hfull : ¬(image.stack.start < m.sp ∧ slots ≤ m.sp - 1 - image.stack.start)) :
    ∃ stopped, Machine.execute { opcode := .ent, operand := some (Word.ofCount slots) }
        (m.advance tracing { opcode := .ent, operand := some (Word.ofCount slots) }) =
          .error (.stackOverflow m.pc) stopped := by
  refine Machine.execute_ent_full (m := m.advance tracing _) hsmall ?_
  change m.sp ≤ m.layout.stack.start ∨ m.sp - 1 - m.layout.stack.start < slots
  rw [h.steady.stack_eq]
  omega

end Image

end WordC
