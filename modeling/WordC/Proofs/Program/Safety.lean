import WordC.Proofs.Machine.Returns
import WordC.Proofs.Program.Frames
import WordC.Proofs.Program.Layout

/-!
# Compiled programs cannot go wrong

Whatever a program computes, it fetches an instruction of its own at every step and faults only
where a division, the size of the stack, the cycle limit or an address of its own making lets it.
The proof follows the code piece by piece: a piece is safe for some number of steps if what comes
behind it is.

Functions return to where they were called from, so the calls that are open are followed along.
-/

namespace WordC

open WordC.Core (Context Instr Place Section)

namespace Machine

/-- Whether the next instruction is a `memset` or `read` whose span overlaps the stack. -/
def OverwritesStack (m : Machine) : Prop :=
  ∃ request count extent,
    m.fetch = .ok { opcode := .trap request, operand := some (Word.ofCount count) } ∧
      request.span? (m.arguments count) = some extent ∧ extent.Meets m.layout.stack

/-- The faults that a compiled program may end with, and at which instructions. -/
inductive MayFault (m : Machine) : Error → Prop where
  | cycles {limit : Nat} (hlimit : m.cycleLimit = some limit) : MayFault m (.cycleLimit limit)
  | division {operator : Operator}
      (hfetch : m.fetch = .ok { opcode := .binary operator, operand := none })
      (hoperator : operator = .div ∨ operator = .mod) : MayFault m (.divisionByZero m.pc)
  | overflow {instruction : Instruction} (hfetch : m.fetch = .ok instruction)
      (hopcode : instruction.opcode = .push ∨ instruction.opcode = .call ∨
        instruction.opcode = .ent) : MayFault m (.stackOverflow m.pc)
  | load (hfetch : m.fetch = .ok { opcode := .li, operand := none }) :
      MayFault m (.invalidAccess m.acc m.pc)
  | trap {request : Trap} {count : Nat} {word : Word}
      (hfetch : m.fetch = .ok { opcode := .trap request, operand := some (Word.ofCount count) })
      (hpassed : m.sp + count ≤ m.layout.stack.stop) (hword : word ∈ m.arguments count) :
      MayFault m (.invalidAccess word m.pc)

/-- What a step of a compiled program may end with. -/
def MayEnd (m : Machine) (result : EStateM.Result Error Machine (Option Word)) : Prop :=
  match result with
  | .ok none _ => True
  | .ok (some _) m' => m.fetch = .ok { opcode := .exit, operand := none } ∧
      m'.sp = m'.layout.stack.stop ∧ m'.bp = m'.layout.stack.stop
  | .error error _ => m.MayFault error

/-- The machine is about to carry out one of the instructions, and nothing bad can come of it. -/
structure Harmless (listing : List (Nat × Instruction)) (tracing : Bool) (m : Machine) : Prop where
  located : ∃ instruction, (m.pc, instruction) ∈ listing ∧ m.fetch = .ok instruction
  outcome : m.MayEnd (step tracing m)

/-- Nothing bad happens within a number of steps from where these calls are open, unless a goal has
been reached before. -/
def Safe (listing : List (Nat × Instruction)) (goal : List Nat → Machine → Prop) (tracing : Bool) :
    List Nat → Nat → Machine → Prop
  | _, 0, _ => True
  | calls, steps + 1, m => goal calls m ∨ m.Harmless listing tracing ∧
      (¬m.OverwritesStack → ∀ m', step tracing m = .ok none m' →
        ∃ instruction, m.fetch = .ok instruction ∧ instruction.Moves m.pc calls m'.pc ∧
          Safe listing goal tracing (instruction.returns m.pc calls) steps m')

variable {listing : List (Nat × Instruction)} {goal : List Nat → Machine → Prop} {tracing : Bool}
  {calls : List Nat} {steps : Nat} {m m' : Machine} {instruction : Instruction}

theorem Safe.mono {fewer : Nat} (h : Safe listing goal tracing calls steps m)
    (hle : fewer ≤ steps) : Safe listing goal tracing calls fewer m := by
  induction fewer generalizing calls steps m with
  | zero => trivial
  | succ fewer ih =>
      cases steps with
      | zero => omega
      | succ steps =>
          refine h.imp_right fun ⟨hharmless, hsteps⟩ => ⟨hharmless, fun hstack m' hstep => ?_⟩
          obtain ⟨instruction, hfetch, hmoves, hnext⟩ := hsteps hstack m' hstep
          exact ⟨instruction, hfetch, hmoves, ih hnext (by omega)⟩

/-- An instruction is safe if it may end as it does and what follows is safe. -/
theorem safe_of_execute (hlisted : (m.pc, instruction) ∈ listing)
    (hfetch : m.fetch = .ok instruction)
    (hend : m.MayEnd (execute instruction (m.advance tracing instruction)))
    (hnext : ¬m.OverwritesStack → ∀ m',
      execute instruction (m.advance tracing instruction) = .ok none m' →
        instruction.Moves m.pc calls m'.pc ∧
          Safe listing goal tracing (instruction.returns m.pc calls) steps m') :
    Safe listing goal tracing calls (steps + 1) m := by
  by_cases hlimit : ∀ limit, m.cycleLimit = some limit → m.cycles < limit
  · have hstep := @step_of_fetch _ tracing _ hlimit hfetch
    refine .inr ⟨⟨⟨instruction, hlisted, hfetch⟩, ?_⟩, ?_⟩
    · rw [hstep]
      exact hend
    · rw [hstep]
      exact fun hstack m' hok => ⟨instruction, hfetch, hnext hstack m' hok⟩
  · obtain ⟨limit, hlimit⟩ := not_forall.1 hlimit
    obtain ⟨hlimited, hreached⟩ := Classical.not_imp.1 hlimit
    have hstep := @step_of_limit _ tracing _ hlimited (Nat.le_of_not_lt hreached)
    refine .inr ⟨⟨⟨instruction, hlisted, hfetch⟩, ?_⟩, ?_⟩
    · rw [hstep]
      exact .cycles hlimited
    · intro _ m' hok
      rw [hstep] at hok
      cases hok

end Machine

namespace Core

variable {entries : List (String × Nat)} {pc : Nat} {calls : List Nat}

theorem Instr.target?_jump {opcode : Opcode} {target : Nat} (h : target < 2 ^ 63) :
    ((Instr.jump opcode target).linked entries).target? = some target :=
  Word.count?_ofCount h

theorem Place.moves_load (place : Place) (entries : List (String × Nat)) (pc : Nat)
    (calls : List Nat) : (place.load.linked entries).Moves pc calls
      (pc + (place.load.linked entries).width) := by
  cases place <;> exact rfl

theorem Place.returns_load (place : Place) :
    (place.load.linked entries).returns pc calls = calls := by
  cases place <;> rfl

end Core

namespace Image

/-- Instructions at their addresses, with the entries of functions for operands. -/
def linked (image : Image) (text : List (Nat × Instr)) : List (Nat × Instruction) :=
  text.map fun (address, instr) => (address, instr.linked image.entries)

/-- The instructions of the program. -/
def listing (image : Image) : List (Nat × Instruction) :=
  image.linked image.lines

theorem mem_linked {image : Image} {text : List (Nat × Instr)} {line : Nat × Instruction} :
    line ∈ image.linked text ↔
      ∃ instr, (line.1, instr) ∈ text ∧ line.2 = instr.linked image.entries := by
  unfold linked
  constructor
  · intro hmem
    obtain ⟨⟨address, instr⟩, hline, rfl⟩ := List.mem_map.1 hmem
    exact ⟨instr, hline, rfl⟩
  · rintro ⟨instr, hline, heq⟩
    exact List.mem_map.2 ⟨_, hline, Prod.ext rfl heq.symm⟩

/-- A route, and the goal at which a run is followed no longer. -/
structure Stretch extends Route where
  goal : List Nat → Machine → Prop

variable {image : Image} {stretch : Stretch} {calls : List Nat} {steps arity slots start : Nat}
  {m m' : Machine} {instr : Instr} {instruction : Instruction}

/-- Nothing bad happens to a machine with the program within a number of steps on a stretch from
where these calls are open. -/
def Safe (image : Image) (stretch : Stretch) (calls : List Nat) (steps : Nat) (m : Machine) :
    Prop :=
  Machine.Safe (image.linked stretch.text) stretch.goal stretch.tracing calls steps m

theorem Safe.weaken (h : image.Safe stretch calls (steps + 1) m) :
    image.Safe stretch calls steps m :=
  Machine.Safe.mono h (Nat.le_succ steps)

/-- A goal is safe. -/
theorem Safe.of_goal (h : stretch.goal calls m) : image.Safe stretch calls steps m := by
  cases steps with
  | zero => trivial
  | succ steps => exact .inl h

/-- Functions are safe to call if it is safe to return from them. -/
def CallsSafe (image : Image) (stretch : Stretch) (steps : Nat) : Prop :=
  ∀ address name arity slots body,
    (address, .function name arity slots body) ∈ image.placed → ∀ m target calls, m.pc = address →
      image.Called arity target m →
      (∀ m', image.Returned arity target m m' → image.Safe stretch calls steps m') →
      image.Safe stretch (target :: calls) steps m

namespace Part

variable (hpart : image.Part stretch.text)

include hpart

/-! ## Single instructions -/

theorem safe_line (hsteady : image.Steady m) (hline : (start, instr) ∈ stretch.text)
    (hlinked : instr.linked image.entries = instruction) (hpc : m.pc = start)
    (hend : m.fetch = .ok instruction →
      m.MayEnd (Machine.execute instruction (m.advance stretch.tracing instruction)))
    (hnext : ¬m.OverwritesStack → ∀ m',
      Machine.execute instruction (m.advance stretch.tracing instruction) = .ok none m' →
        instruction.Moves m.pc calls m'.pc ∧
          image.Safe stretch (instruction.returns m.pc calls) steps m') :
    image.Safe stretch calls (steps + 1) m := by
  have hfetch := hpart.loaded.fetch_eq hsteady (hpart.lines _ hline) hpc
  rw [hlinked] at hfetch
  refine Machine.safe_of_execute ?_ hfetch (hend hfetch) hnext
  rw [hpc, ← hlinked]
  exact mem_linked.2 ⟨instr, hline, rfl⟩

/-- An instruction that does not fail. -/
theorem safe_ok (hsteady : image.Steady m) (hline : (start, instr) ∈ stretch.text)
    (hlinked : instr.linked image.entries = instruction) (hpc : m.pc = start)
    (hexecute : Machine.execute instruction (m.advance stretch.tracing instruction) = .ok none m')
    (hmoves : instruction.Moves m.pc calls m'.pc)
    (hnext : image.Safe stretch (instruction.returns m.pc calls) steps m') :
    image.Safe stretch calls (steps + 1) m := by
  refine hpart.safe_line hsteady hline hlinked hpc ?_ ?_
  · rw [hexecute]
    exact fun _ => trivial
  · rintro _ next hok
    rw [hexecute] at hok
    cases hok
    exact ⟨hmoves, hnext⟩

variable (hframed : image.Framed arity slots m) (hpc : m.pc = start)

include hframed hpc

theorem safe_push (hline : (start, .plain .push) ∈ stretch.text)
    (hnext : ∀ m', image.After m 1 (start + 1) m' → m'.memory[m'.sp]? = some m.acc →
      image.Safe stretch calls steps m') : image.Safe stretch calls steps m := by
  refine Safe.weaken ?_
  by_cases hroom : image.stack.start < m.sp
  · obtain ⟨hexecute, hafter, htop⟩ := hframed.execute_push hpart.loaded hpc hroom rfl
    exact hpart.safe_ok hframed.steady hline rfl hpc hexecute rfl (hnext _ hafter htop)
  · have hexecute := Machine.execute_push_full
      (m := m.advance stretch.tracing (Instr.linked image.entries (.plain .push)))
      (hframed.steady.sp_le_start hroom)
    refine hpart.safe_line hframed.steady hline rfl hpc ?_ ?_
    · intro hfetch
      exact hexecute ▸ .overflow hfetch (.inl rfl)
    · intro _ next hok
      cases hexecute.symm.trans hok

theorem safe_imm {word : Word} (hline : (start, .withWord .imm word) ∈ stretch.text)
    (hnext : ∀ m', image.After m 0 (start + 2) m' → image.Safe stretch calls steps m') :
    image.Safe stretch calls steps m := by
  refine Safe.weaken (hpart.safe_ok hframed.steady hline rfl hpc rfl rfl (hnext _ ?_))
  exact .of_registers hframed rfl rfl rfl rfl (by rw [← hpc]; rfl) rfl rfl

theorem safe_load {place : Place} (hplace : place.Valid (image.context.inside arity slots))
    (hline : (start, place.load) ∈ stretch.text)
    (hnext : ∀ m', image.After m 0 (start + 2) m' →
      m'.acc = Word.ofCount (place.address m.bp) → image.Safe stretch calls steps m') :
    image.Safe stretch calls steps m := by
  refine Safe.weaken (hpart.safe_ok hframed.steady hline rfl hpc
    (hframed.execute_load hplace stretch.tracing) (place.moves_load _ _ _) ?_)
  rw [place.returns_load]
  refine hnext _ ?_ rfl
  exact .of_registers hframed rfl rfl rfl rfl (by rw [← hpc]; rfl) rfl rfl

theorem safe_li (hline : (start, .plain .li) ∈ stretch.text)
    (hnext : ∀ m', image.After m 0 (start + 1) m' → image.Safe stretch calls steps m') :
    image.Safe stretch calls steps m := by
  refine Safe.weaken ?_
  let next := m.advance stretch.tracing (Instr.linked image.entries (.plain .li))
  by_cases hinside : ∃ address, next.acc.count? = some address ∧ address < next.memory.size
  · obtain ⟨address, hcount, hsize⟩ := hinside
    refine hpart.safe_ok hframed.steady hline rfl hpc (Machine.execute_li hcount hsize) rfl
      (hnext _ ?_)
    exact .of_registers hframed rfl rfl rfl rfl (by rw [← hpc]; rfl) rfl rfl
  · have hexecute := Machine.execute_li_fault (m := next) fun address hcount =>
      Nat.le_of_not_lt fun hsize => hinside ⟨address, hcount, hsize⟩
    refine hpart.safe_line hframed.steady hline rfl hpc ?_ ?_
    · intro hfetch
      exact hexecute ▸ .load hfetch
    · intro _ next hok
      cases hexecute.symm.trans hok

theorem safe_jmp {target : Nat} (hline : (start, .jump .jmp target) ∈ stretch.text)
    (htarget : target < image.base.textEnd)
    (hnext : ∀ m', image.After m 0 target m' → image.Safe stretch calls steps m') :
    image.Safe stretch calls steps m := by
  have hinside := hpart.loaded.isTarget hframed.steady htarget
  refine Safe.weaken (hpart.safe_ok hframed.steady hline rfl hpc (Machine.execute_jmp
    ⟨hinside.start, hinside.stop, hinside.small⟩) (Instr.target?_jump hinside.small) (hnext _ ?_))
  exact .of_registers hframed rfl rfl rfl rfl rfl rfl rfl

/-- A conditional jump takes a step. -/
theorem safe_branch {opcode : Opcode} (hopcode : opcode = .jz ∨ opcode = .jnz) {target : Nat}
    (hline : (start, .jump opcode target) ∈ stretch.text) (htarget : target < image.base.textEnd)
    (hjump : ∀ m', image.After m 0 target m' → image.Safe stretch calls steps m')
    (hfall : ∀ m', image.After m 0 (start + 2) m' → image.Safe stretch calls steps m') :
    image.Safe stretch calls (steps + 1) m := by
  let next := m.advance stretch.tracing (Instr.linked image.entries (.jump opcode target))
  have hinside := hpart.loaded.isTarget hframed.steady htarget
  have htaken : image.After m 0 target { next with pc := target } :=
    .of_registers hframed rfl rfl rfl rfl rfl rfl rfl
  have hpassed : image.After m 0 (start + 2) next :=
    .of_registers hframed rfl rfl rfl rfl (by rw [← hpc]; rfl) rfl rfl
  by_cases hacc : next.acc = 0
  · rcases hopcode with rfl | rfl
    · exact hpart.safe_ok hframed.steady hline rfl hpc (Machine.execute_jz_of_eq (m := next)
        ⟨hinside.start, hinside.stop, hinside.small⟩ hacc)
        (.inr (Instr.target?_jump hinside.small)) (hjump _ htaken)
    · exact hpart.safe_ok hframed.steady hline rfl hpc (Machine.execute_jnz_of_eq (m := next) hacc)
        (.inl rfl) (hfall _ hpassed)
  · rcases hopcode with rfl | rfl
    · exact hpart.safe_ok hframed.steady hline rfl hpc (Machine.execute_jz_of_ne (m := next) hacc)
        (.inl rfl) (hfall _ hpassed)
    · exact hpart.safe_ok hframed.steady hline rfl hpc (Machine.execute_jnz_of_ne (m := next)
        ⟨hinside.start, hinside.stop, hinside.small⟩ hacc)
        (.inr (Instr.target?_jump hinside.small)) (hjump _ htaken)

omit hpc in
theorem safe_binary {operator : Operator} (hafter : image.After m 1 start m')
    (hline : (start, .plain (.binary operator)) ∈ stretch.text)
    (hnext : ∀ m'', image.After m 0 (start + 1) m'' → image.Safe stretch calls steps m'') :
    image.Safe stretch calls steps m' := by
  refine Safe.weaken ?_
  let next := m'.advance stretch.tracing (Instr.linked image.entries (.plain (.binary operator)))
  have hpop : next.sp < next.layout.stack.stop := by
    have hlt := hafter.sp_lt hframed
    change m'.sp < m'.layout.stack.stop
    rwa [hafter.steady.stack_eq]
  cases hword : operator.apply? (next.wordAt next.sp) next.acc with
  | some word =>
      refine hpart.safe_ok hafter.steady hline rfl hafter.pc (Machine.execute_binary hpop hword)
        rfl (hnext _ ?_)
      exact hafter.of_pop rfl rfl rfl rfl (by rw [← hafter.pc]; rfl) rfl rfl
  | none =>
      have hexecute := Machine.execute_binary_fault hpop hword
      have hoperator : operator = .div ∨ operator = .mod := by
        cases operator with
        | div => exact .inl rfl
        | mod => exact .inr rfl
        | _ => cases hword
      refine hpart.safe_line hafter.steady hline rfl hafter.pc ?_ ?_
      · intro hfetch
        exact hexecute ▸ .division hfetch hoperator
      · intro _ next hok
        cases hexecute.symm.trans hok

/-- Storing the accumulator. -/
theorem safe_store {place : Place} (hplace : place.Valid (image.context.inside arity slots))
    (hcode : stretch.Has start place.store)
    (hnext : ∀ m', image.Stored m place m.acc (start + 4) m' → image.Safe stretch calls steps m') :
    image.Safe stretch calls steps m := by
  obtain ⟨hpush, hload, hstore⟩ := hcode.store
  refine hpart.safe_push hframed hpc hpush fun first hfirst htop => ?_
  refine hpart.safe_load (hfirst.framed hframed) hfirst.pc hplace hload
    fun second hsecond hacc => ?_
  have hafter := hfirst.trans hsecond
  have hkept : second.memory[second.sp]? = some m.acc := by
    have hsp : second.sp = first.sp := hsecond.sp
    rw [hsp, hsecond.stack _ (Nat.le_refl _), htop]
  rw [hfirst.bp] at hacc
  obtain ⟨hexecute, hstored⟩ := hafter.execute_si hpart.loaded hframed hplace hkept hacc rfl
  exact Safe.weaken
    (hpart.safe_ok hafter.steady hstore rfl hafter.pc hexecute rfl (hnext _ hstored))

omit hpc in
/-- A call takes a step. -/
theorem safe_call {name : String} {count : Nat} (hafter : image.After m count start m')
    (hline : (start, .call name) ∈ stretch.text)
    (hfunction : image.context.functions name = some count)
    (hback : start + 2 < image.base.textEnd) (hcalls : image.CallsSafe stretch steps)
    (hnext : ∀ m'', image.After m count (start + 2) m'' → image.Safe stretch calls steps m'') :
    image.Safe stretch calls (steps + 1) m' := by
  obtain ⟨address, slots, body, hplaced, hentry⟩ := hpart.loaded.functions name count hfunction
  have hlinked := Core.Instr.linked_call hentry
  have henter : (address, .withWord .ent (Word.ofCount slots)) ∈ stretch.text :=
    hpart.functions _ _ _ _ _ hplaced _ List.mem_cons_self
  have htarget := hpart.lt_textEnd henter
  have hinside := hpart.loaded.isTarget hafter.steady htarget
  by_cases hroom : image.stack.start < m'.sp
  · obtain ⟨hexecute, hcalled, hreturn⟩ :=
      hafter.execute_call hpart.loaded hframed htarget hback hroom rfl
    refine hpart.safe_ok hafter.steady hline hlinked hafter.pc hexecute
      (Word.count?_ofCount hinside.small) ?_
    change image.Safe stretch ((m'.pc + 2) :: calls) _ _
    rw [hafter.pc]
    exact hcalls address name count slots body hplaced _ (start + 2) calls rfl hcalled
      fun back hreturned => hnext back (hreturn back hreturned)
  · have hexecute := Machine.execute_call_full
      (m := m'.advance stretch.tracing
        { opcode := .call, operand := some (Word.ofCount address) })
      ⟨hinside.start, hinside.stop, hinside.small⟩ (hafter.steady.sp_le_start hroom)
    refine hpart.safe_line hafter.steady hline hlinked hafter.pc ?_ ?_
    · intro hfetch
      exact hexecute ▸ .overflow hfetch (.inr (.inl rfl))
    · intro _ _ hok
      cases hexecute.symm.trans hok

omit hpc in
/-- Dropping what has been pushed. -/
theorem safe_adj {count : Nat} (hafter : image.After m count start m')
    (hline : (start, .withWord .adj (Word.ofCount count)) ∈ stretch.text)
    (hnext : ∀ m'', image.After m 0 (start + 2) m'' → image.Safe stretch calls steps m'') :
    image.Safe stretch calls steps m' := by
  obtain ⟨hexecute, hdropped⟩ := hafter.execute_adj hpart.loaded hframed rfl
  exact Safe.weaken
    (hpart.safe_ok hafter.steady hline rfl hafter.pc hexecute rfl (hnext _ hdropped))

omit hpc in
theorem safe_trap {request : Trap} {count : Nat} (hafter : image.After m count start m')
    (harity : request.arity?.all (· == count) = true)
    (hline : (start, .withWord (.trap request) (Word.ofCount count)) ∈ stretch.text)
    (hnext : ∀ m'', image.After m 0 (start + 2) m'' → image.Safe stretch calls steps m'') :
    image.Safe stretch calls steps m' := by
  refine Safe.weaken ?_
  have hfetch := hpart.loaded.fetch_eq hafter.steady (hpart.lines _ hline) hafter.pc
  rcases hafter.execute_trap stretch.tracing hpart.loaded hframed harity rfl with
    ⟨word, hword, stopped, hexecute⟩ | ⟨last, hexecute, hlast⟩
  · refine hpart.safe_line hafter.steady hline rfl hafter.pc ?_ ?_
    · intro _
      exact hexecute ▸ .trap hfetch (hafter.sp_le_stop hframed) hword
    · intro _ _ hok
      cases hexecute.symm.trans hok
  · refine hpart.safe_line hafter.steady hline rfl hafter.pc ?_ ?_
    · intro _
      exact hexecute ▸ trivial
    · intro hclear _ hok
      cases hexecute.symm.trans hok
      have hbehind := hlast fun extent hextent hmeets =>
        hclear ⟨request, count, extent, hfetch, hextent, hmeets⟩
      exact ⟨by rw [hbehind.pc, hafter.pc]; rfl, hnext _ hbehind⟩

/-- The accumulator becomes 0 or 1. -/
theorem safe_truth
    (hcode : stretch.Has start [.plain .push, .withWord .imm 0, .plain (.binary .ne)])
    (hnext : ∀ m', image.After m 0 (start + 4) m' → image.Safe stretch calls steps m') :
    image.Safe stretch calls steps m := by
  obtain ⟨hpush, himm, hbinary⟩ := hcode.truth
  refine hpart.safe_push hframed hpc hpush fun first hfirst _ => ?_
  refine hpart.safe_imm (hfirst.framed hframed) hfirst.pc himm fun second hsecond => ?_
  exact hpart.safe_binary hframed (hfirst.trans hsecond) hbinary hnext

omit hframed hpc

/-! ## Expressions -/

mutual

theorem safe_expr : ∀ (e : Core.Expr) {start steps : Nat} {m : Machine},
    e.Valid (image.context.inside arity slots) → stretch.Has start (e.code start) →
    start + Core.size (e.code start) < image.base.textEnd → image.Framed arity slots m →
    m.pc = start → (∀ fewer < steps, image.CallsSafe stretch fewer) →
    (∀ m', image.After m 0 (start + Core.size (e.code start)) m' →
      image.Safe stretch calls steps m') →
    image.Safe stretch calls steps m
  | .constant value, start, steps, m, _, hcode, _, hframed, hpc, _, hnext =>
      hpart.safe_imm hframed hpc (has_cons.1 hcode).1 hnext
  | .load place, start, steps, m, hplace, hcode, _, hframed, hpc, _, hnext => by
      obtain ⟨hload, hrest⟩ := has_cons.1 hcode
      refine hpart.safe_load hframed hpc hplace hload fun first hfirst _ => ?_
      refine hpart.safe_li (hfirst.framed hframed) hfirst.pc (has_cons.1 hrest).1
        fun second hsecond => ?_
      exact hnext second (hfirst.trans hsecond)
  | .address place, start, steps, m, hplace, hcode, _, hframed, hpc, _, hnext =>
      hpart.safe_load hframed hpc hplace (has_cons.1 hcode).1 fun first hfirst _ =>
        hnext first hfirst
  | .follow pointer, start, steps, m, hpointer, hcode, hstop, hframed, hpc, hcalls, hnext => by
      obtain ⟨hfront, hli⟩ := hcode.follow
      rw [Core.Expr.stop_follow] at hnext
      refine safe_expr pointer hpointer hfront (hpart.lt_textEnd hli) hframed hpc hcalls
        fun first hfirst => ?_
      refine hpart.safe_li (hfirst.framed hframed) hfirst.pc hli fun second hsecond => ?_
      exact hnext second (hfirst.trans hsecond)
  | .binary operator left right, start, steps, m, hparts, hcode, hstop, hframed, hpc, hcalls,
    hnext => by
      obtain ⟨hleft, hpush, hright, hbinary⟩ := hcode.binary rfl
      rw [Core.Expr.stop_binary] at hnext
      refine safe_expr left hparts.1 hleft (hpart.lt_textEnd hpush) hframed hpc hcalls
        fun first hfirst => ?_
      refine hpart.safe_push (hfirst.framed hframed) hfirst.pc hpush fun second hsecond _ => ?_
      have hpushed := hfirst.trans hsecond
      refine safe_expr right hparts.2 hright (hpart.lt_textEnd hbinary)
        (hpushed.framed hframed) hpushed.pc hcalls fun third hthird => ?_
      exact hpart.safe_binary hframed (hpushed.trans hthird) hbinary hnext
  | .logical connective left right, start, steps, m, hparts, hcode, hstop, hframed, hpc, hcalls,
    hnext => by
      obtain ⟨hleft, hbranch, hright, htruth⟩ := hcode.logical rfl
      rw [Core.Expr.stop_logical] at hnext
      have htarget := hpart.lt_textEnd htruth.truth.1
      -- Both ways end with the accumulator as a condition.
      have htail : ∀ m', image.After m 0 (start + Core.size (left.code start) + 2 +
          Core.size (right.code (start + Core.size (left.code start) + 2))) m' →
          image.Safe stretch calls steps m' := fun m' hafter =>
        hpart.safe_truth (hafter.framed hframed) hafter.pc htruth fun last hlast =>
          hnext last (hafter.trans hlast)
      refine safe_expr left hparts.1 hleft (hpart.lt_textEnd hbranch) hframed hpc hcalls
        fun first hfirst => ?_
      refine Safe.weaken (hpart.safe_branch (hfirst.framed hframed) hfirst.pc
        (by cases connective; exacts [.inr rfl, .inl rfl]) hbranch htarget ?_ ?_)
      · exact fun second hsecond => htail second (hfirst.trans hsecond)
      · intro second hsecond
        have hpassed := hfirst.trans hsecond
        refine safe_expr right hparts.2 hright htarget (hpassed.framed hframed) hpassed.pc
          hcalls fun third hthird => ?_
        exact htail third (hpassed.trans hthird)
  | .call callee args, start, steps, m, hcall, hcode, hstop, hframed, hpc, hcalls, hnext => by
      obtain ⟨hargs, hline, hadj⟩ := hcode.call rfl
      rw [Core.Expr.stop_call] at hstop hnext
      refine safe_arguments args hcall.2 hargs (hpart.lt_textEnd hline) hframed hpc
        hcalls fun first hfirst => ?_
      cases steps with
      | zero => trivial
      | succ steps =>
          have hcalls' := hcalls steps (Nat.lt_succ_self _)
          by_cases hnone : args.length = 0
          · rw [if_pos hnone] at hstop hnext
            refine hpart.safe_call hframed hfirst hline hcall.1 hstop hcalls'
              fun second hsecond => Safe.weaken (hnext second ?_)
            rw [hnone] at hsecond
            exact hsecond
          · rw [if_neg hnone] at hnext
            have hdrop := hadj hnone
            refine hpart.safe_call hframed hfirst hline hcall.1 (hpart.lt_textEnd hdrop) hcalls'
              fun second hsecond => ?_
            exact hpart.safe_adj hframed hsecond hdrop fun last hlast =>
              Safe.weaken (hnext last hlast)
  | .trap request args, start, steps, m, htrap, hcode, hstop, hframed, hpc, hcalls, hnext => by
      obtain ⟨hargs, hline⟩ := hcode.trap
      rw [Core.Expr.stop_trap] at hnext
      refine safe_arguments args htrap.2 hargs (hpart.lt_textEnd hline) hframed hpc
        hcalls fun first hfirst => ?_
      exact hpart.safe_trap hframed hfirst htrap.1 hline hnext

theorem safe_arguments : ∀ (args : List Core.Expr) {start steps : Nat} {m : Machine},
    Core.Expr.AllValid (image.context.inside arity slots) args →
    stretch.Has start (Core.Expr.argumentCode start args) →
    start + Core.size (Core.Expr.argumentCode start args) < image.base.textEnd →
    image.Framed arity slots m → m.pc = start → (∀ fewer < steps, image.CallsSafe stretch fewer) →
    (∀ m', image.After m args.length (start + Core.size (Core.Expr.argumentCode start args)) m' →
      image.Safe stretch calls steps m') →
    image.Safe stretch calls steps m
  | [], start, steps, m, _, _, _, hframed, hpc, _, hnext =>
      hnext m (.of_registers hframed rfl rfl rfl rfl hpc rfl rfl)
  | argument :: rest, start, steps, m, hall, hcode, hstop, hframed, hpc, hcalls, hnext => by
      obtain ⟨hfront, hpush, hothers⟩ := hcode.arguments rfl
      rw [Core.Expr.stop_arguments] at hstop hnext
      rw [List.length_cons, Nat.add_comm rest.length 1] at hnext
      refine safe_expr argument hall.1 hfront (hpart.lt_textEnd hpush) hframed hpc hcalls
        fun first hfirst => ?_
      refine hpart.safe_push (hfirst.framed hframed) hfirst.pc hpush fun second hsecond _ => ?_
      have hpushed := hfirst.trans hsecond
      exact safe_arguments rest hall.2 hothers hstop (hpushed.framed hframed) hpushed.pc hcalls
        fun last hlast => hnext last (hpushed.trans hlast)

end

end Part

end Image

end WordC
