import WordC.Proofs.Machine.Pristine

/-!
# The traps of a run

A run is told by the traps that it has carried out, each with its arguments and what it returned.
Between two steps the host may change as it likes. Heap and descriptors belong to the traps: no other
instruction reaches them, so what they are at any point of a run follows from its traps.
-/

namespace WordC.Machine

variable {m m' : Machine} {α β γ : Type} {part : Machine → γ} {instruction : Instruction}

/-! ## Parts that are left alone -/

def Ignores (part : Machine → γ) (action : Action α) : Prop :=
  ∀ m, part (m.after action) = part m

/-- Whether words and registers have nothing to do with a part of the machine. -/
def IsApart (part : Machine → γ) : Prop :=
  ∀ m memory pc sp bp acc, part { m with memory, pc, sp, bp, acc } = part m

namespace Ignores

theorem pure (value : α) : Ignores part (pure value : Action α) :=
  fun _ => rfl

theorem throw (error : Error) : Ignores part (throw error : Action α) :=
  fun _ => rfl

theorem bind {action : Action α} {next : α → Action β} (haction : Ignores part action)
    (hnext : ∀ value, Ignores part (next value)) : Ignores part (action >>= next) := by
  intro m
  have hfirst := haction m
  cases h : action m with
  | error error m' =>
      rw [after_of_error h] at hfirst
      rw [after_bind_of_error h]
      exact hfirst
  | ok value m' =>
      rw [after_of_ok h] at hfirst
      rw [after_bind_of_ok h]
      exact (hnext value m').trans hfirst

theorem get_bind {next : Machine → Action β} (h : ∀ m : Machine, part (m.after (next m)) = part m) :
    Ignores part (get >>= next) :=
  h

theorem look {next : Machine → Action β} (h : ∀ m, Ignores part (next m)) :
    Ignores part (get >>= next) :=
  get_bind fun m => h m m

theorem modify {change : Machine → Machine} (h : ∀ m, part (change m) = part m) :
    Ignores part (modify change : Action Unit) :=
  h

theorem ite {condition : Prop} [Decidable condition] {first second : Action α}
    (hfirst : Ignores part first) (hsecond : Ignores part second) :
    Ignores part (if condition then first else second) := by
  by_cases h : condition
  · rwa [if_pos h]
  · rwa [if_neg h]

/-- What only reads the machine leaves all of it alone. -/
theorem of_reading {action : Action α}
    (h : ∀ m, (∃ value, action m = .ok value m) ∨ ∃ error, action m = .error error m) :
    Ignores part action := by
  intro m
  rcases h m with ⟨value, hok⟩ | ⟨error, herror⟩
  · rw [after_of_ok hok]
  · rw [after_of_error herror]

/-! ### Checks -/

theorem count (word : Word) : Ignores part (count word) :=
  of_reading fun m =>
    (count_cases word m).imp (fun ⟨n, _, hok⟩ => ⟨n, hok⟩) fun hfault => ⟨_, hfault⟩

theorem address (word : Word) : Ignores part (address word) :=
  of_reading fun m =>
    (address_cases word m).imp (fun ⟨n, _, _, hok⟩ => ⟨n, hok⟩) fun hfault => ⟨_, hfault⟩

theorem readable (start size : Word) : Ignores part (readable start size) :=
  of_reading fun m =>
    (readable_cases start size m).imp (fun ⟨extent, _, _, _, hok⟩ => ⟨extent, hok⟩) fun hfault =>
      ⟨_, hfault⟩

theorem writable (start size : Word) : Ignores part (writable start size) :=
  (readable start size).bind fun _ => look fun _ => ite ((throw _).bind fun _ => pure _) (pure _)

theorem bytesAt (word : Word) : Ignores part (bytesAt word) :=
  of_reading fun _ => (bytesAt_eq word).imp_right fun hfault => ⟨_, hfault⟩

/-! ### Instructions other than traps -/

variable (hpart : IsApart part)

include hpart

theorem push (word : Word) : Ignores part (push word) := by
  intro m
  rcases Nat.lt_or_ge m.layout.stack.start m.sp with hroom | hfull
  · rw [after_of_ok (push_eq hroom)]
    exact hpart m _ m.pc _ m.bp m.acc
  · rw [after_of_error (push_full hfull)]

theorem pop : Ignores part pop := by
  intro m
  rcases Nat.lt_or_ge m.sp m.layout.stack.stop with hlt | hge
  · rw [after_of_ok (pop_eq hlt)]
    exact hpart m m.memory m.pc _ m.bp m.acc
  · rw [after_of_error (pop_empty hge)]

theorem load (word : Word) : Ignores part (load word) :=
  modify fun m => hpart m m.memory m.pc m.sp m.bp word

theorem jump (target : Word) : Ignores part (jump target) := by
  intro m
  rcases jump_cases target m with ⟨pc, hok⟩ | hfault
  · rw [after_of_ok hok]
    exact hpart m m.memory pc m.sp m.bp m.acc
  · rw [after_of_error hfault]

theorem callTo (target : Word) : Ignores part (callTo target) := by
  have htarget : Ignores part (jumpTarget target) := of_reading fun m =>
    (jumpTarget_cases target m).imp (fun ⟨pc, _, _, hok⟩ => ⟨pc, hok⟩) fun hfault => ⟨_, hfault⟩
  refine htarget.bind fun _ => look fun _ => (push hpart _).bind fun _ => modify fun m => ?_
  exact hpart m m.memory _ m.sp m.bp m.acc

theorem enterFrame (slots : Word) : Ignores part (enterFrame slots) := by
  refine look fun _ => (push hpart _).bind fun _ => bind (modify fun m => ?_) fun _ =>
    (count slots).bind fun _ => look fun _ => ite ((throw _).bind fun _ => modify fun m => ?_)
      (modify fun m => ?_)
  · exact hpart m m.memory m.pc m.sp _ m.acc
  all_goals exact hpart m _ m.pc _ m.bp m.acc

theorem adjust (words : Word) : Ignores part (adjust words) := by
  refine (count words).bind fun _ => look fun _ => ite ((throw _).bind fun _ => modify fun m => ?_)
    (modify fun m => ?_)
  all_goals exact hpart m m.memory m.pc _ m.bp m.acc

theorem leaveFrame : Ignores part leaveFrame := by
  refine bind (modify fun m => hpart m m.memory m.pc _ m.bp m.acc) fun _ =>
    (pop hpart).bind fun saved => look fun m => ?_
  cases saved.count?.filter fun bp =>
      m.layout.stack.start ≤ bp && bp ≤ m.layout.stack.stop with
  | none => exact throw _
  | some bp =>
      exact bind (modify fun m => hpart m m.memory m.pc m.sp _ m.acc) fun _ =>
        (pop hpart).bind fun _ => jump hpart _

theorem loadIndirect : Ignores part loadIndirect :=
  look fun _ => (address _).bind fun _ => modify fun m => hpart m m.memory m.pc m.sp m.bp _

theorem storeIndirect : Ignores part storeIndirect :=
  (pop hpart).bind fun _ => look fun _ => (writable _ 1).bind fun _ =>
    modify fun m => hpart m _ m.pc m.sp m.bp _

theorem combine (operator : Operator) : Ignores part (combine operator) := by
  refine (pop hpart).bind fun left => look fun m => ?_
  cases operator.apply? left m.acc with
  | none => exact throw _
  | some word => exact load hpart word

theorem execute (hother : ∀ request, instruction.opcode ≠ .trap request) :
    Ignores part (execute instruction) := by
  obtain ⟨opcode, operand⟩ := instruction
  have hgo {action : Action Unit} (h : Ignores part action) :
      Ignores part (action >>= fun _ => (Pure.pure none : Action (Option Word))) :=
    h.bind fun _ => pure _
  cases opcode with
  | lea => exact look fun _ => hgo (load hpart _)
  | imm => exact hgo (load hpart _)
  | jmp => exact hgo (jump hpart _)
  | call => exact hgo (callTo hpart _)
  | jz => exact look fun _ => ite (hgo (jump hpart _)) (pure _)
  | jnz => exact look fun _ => ite (hgo (jump hpart _)) (pure _)
  | ent => exact hgo (enterFrame hpart _)
  | adj => exact hgo (adjust hpart _)
  | lev => exact hgo (leaveFrame hpart)
  | li => exact hgo (loadIndirect hpart)
  | si => exact hgo (storeIndirect hpart)
  | push => exact look fun _ => hgo (push hpart _)
  | binary operator => exact hgo (combine hpart operator)
  | plac => exact look fun _ => throw _
  | trap request => exact absurd rfl (hother request)
  | exit => exact look fun _ => pure _

end Ignores

/-! ## Requests -/

/-- What a trap does once its arguments are off the stack. -/
def answer (request : Trap) (arguments : List Word) : Action Word :=
  let argument (index : Nat) := arguments.getD index 0
  match request with
  | .open => openFile (argument 0) (argument 1)
  | .read => readInto (argument 0) (argument 1) (argument 2)
  | .close => closeFile (argument 0)
  | .printf => printf arguments
  | .malloc => malloc (argument 0)
  | .free => free (argument 0)
  | .memset => memset (argument 0) (argument 1) (argument 2)
  | .memcmp => memcmp (argument 0) (argument 1) (argument 2)

theorem trap_eq (request : Trap) (size : Word) :
    trap request size = popArguments size >>= answer request := rfl

/-- Only `malloc` and `free` reach the heap. -/
theorem heap_answer {request : Trap} (hmalloc : request ≠ .malloc) (hfree : request ≠ .free)
    (arguments : List Word) : Ignores Machine.heap (answer request arguments) := by
  cases request with
  | «open» =>
      refine (Ignores.bytesAt _).bind fun bytes => ?_
      cases openModeOf? (arguments.getD 1 0) with
      | none => exact .pure _
      | some mode =>
          refine .get_bind fun m => ?_
          simp only
          cases (m.host.openFile (Text.Utf8.decode bytes) mode).1 <;> rfl
  | read =>
      refine (Ignores.writable _ _).bind fun extent => .get_bind fun m => ?_
      cases m.descriptors.stream? (arguments.getD 0 0) with
      | none => rfl
      | some stream =>
          simp only
          cases (m.host.read stream extent.size).1 <;> rfl
  | close =>
      refine .get_bind fun m => ?_
      cases m.descriptors.close? (arguments.getD 0 0) <;> rfl
  | printf =>
      cases arguments with
      | nil => exact .pure _
      | cons template values =>
          refine (Ignores.bytesAt _).bind fun bytes => .get_bind fun m => ?_
          cases m.format bytes values <;> rfl
  | malloc => exact absurd rfl hmalloc
  | free => exact absurd rfl hfree
  | memset =>
      refine (Ignores.writable _ _).bind fun _ => Ignores.bind (.modify fun m => ?_) fun _ => .pure _
      rfl
  | memcmp =>
      exact (Ignores.readable _ _).bind fun _ => (Ignores.readable _ _).bind fun _ =>
        .look fun _ => .pure _

/-- Only `open`, `read` and `close` reach the descriptors. -/
theorem descriptors_answer {request : Trap} (hopen : request ≠ .open) (hread : request ≠ .read)
    (hclose : request ≠ .close) (arguments : List Word) :
    Ignores Machine.descriptors (answer request arguments) := by
  cases request with
  | «open» => exact absurd rfl hopen
  | read => exact absurd rfl hread
  | close => exact absurd rfl hclose
  | printf =>
      cases arguments with
      | nil => exact .pure _
      | cons template values =>
          refine (Ignores.bytesAt _).bind fun bytes => .get_bind fun m => ?_
          cases m.format bytes values <;> rfl
  | malloc =>
      refine .get_bind fun m => ?_
      cases (arguments.getD 0 0).count?.bind m.heap.allocate? <;> rfl
  | free =>
      refine .ite (.pure _) (.get_bind fun m => ?_)
      cases (arguments.getD 0 0).count? with
      | none => rfl
      | some address =>
          simp only
          cases m.heap.release? address <;> rfl
  | memset =>
      refine (Ignores.writable _ _).bind fun _ => Ignores.bind (.modify fun m => ?_) fun _ => .pure _
      rfl
  | memcmp =>
      exact (Ignores.readable _ _).bind fun _ => (Ignores.readable _ _).bind fun _ =>
        .look fun _ => .pure _

/-- The trap that the machine has come to, with the arguments that are on the stack. -/
def request? (m : Machine) : Option (Trap × List Word) :=
  match m.fetch with
  | .ok { opcode := .trap request, operand } =>
      match (operand.getD 0).count? with
      | some count =>
          if m.sp + count ≤ m.layout.stack.stop then some (request, m.arguments count) else none
      | none => none
  | _ => none

/-- The next step carries out a trap: the cycle limit allows a step, and the arguments are there. -/
structure Requests (m : Machine) (request : Trap) (arguments : List Word) : Prop where
  granted : ∀ limit, m.cycleLimit = some limit → m.cycles < limit
  request : m.request? = some (request, arguments)

variable {request : Trap} {arguments : List Word} {tracing : Bool}

theorem exists_of_request? (h : m.request? = some (request, arguments)) :
    ∃ operand count, m.fetch = .ok { opcode := .trap request, operand } ∧
      (operand.getD 0).count? = some count ∧ m.sp + count ≤ m.layout.stack.stop ∧
      arguments = m.arguments count := by
  unfold request? at h
  split at h
  · next request operand hfetch =>
      split at h
      · next count hcount =>
          split at h
          · next hstop =>
              cases h
              exact ⟨operand, count, hfetch, hcount, hstop, rfl⟩
          · cases h
      · cases h
  · cases h

/-- The machine on which a trap is carried out: only registers and journal are others than those of
the machine that has come to the trap. -/
structure Poised (m poised : Machine) : Prop where
  intact : poised.Intact
  layout : poised.layout = m.layout
  memory : poised.memory = m.memory
  heap : poised.heap = m.heap
  descriptors : poised.descriptors = m.descriptors
  current : poised.current = m.pc
  system : poised.host.system = m.host.system
  asked : poised.host.asked = m.host.asked

/-- What the step does that carries out a trap. -/
def serve (request : Trap) (arguments : List Word) : Action (Option Word) := do
  load (← answer request arguments)
  return none

theorem Requests.exists_poised (h : m.Requests request arguments) (hintact : m.Intact)
    (tracing : Bool) :
    ∃ poised, m.Poised poised ∧ step tracing m = serve request arguments poised := by
  obtain ⟨operand, count, hfetch, hcount, hstop, rfl⟩ := exists_of_request? h.request
  let fetched : Machine := m.advance tracing { opcode := .trap request, operand }
  have hpoised : fetched.sp + count ≤ fetched.layout.stack.stop := hstop
  have hsp : m.layout.stack.start ≤ m.sp + count := Nat.le_add_right_of_le hintact.spStart
  have hmoved : m.Confined (fun _ => False) { fetched with sp := m.sp + count } :=
    hintact.move ⟨hsp, hstop⟩ hintact.bp_bounds
  refine ⟨_, ⟨hmoved.intact, rfl, rfl, rfl, rfl, rfl, ?_, ?_⟩, ?_⟩
  · cases tracing <;> rfl
  · cases tracing <;> rfl
  · rw [step_of_fetch h.granted hfetch]
    change (trap request (operand.getD 0) >>= fun word =>
      load word >>= fun _ => pure none) fetched = _
    rw [trap_eq, bind_assoc, Word.eq_ofCount hcount,
      bind_of_ok (popArguments_eq (Word.count?_lt hcount) hpoised)]
    rfl

theorem serve_of_ok {word : Word} (h : answer request arguments m = .ok word m') :
    serve request arguments m = .ok none { m' with acc := word } := by
  rw [serve, bind_of_ok h]
  rfl

theorem serve_of_error {error : Error} (h : answer request arguments m = .error error m') :
    serve request arguments m = .error error m' := by
  rw [serve, bind_of_error h]

/-- A trap that is carried out to its end has an answer. -/
theorem exists_answer {result : Option Word} (h : serve request arguments m = .ok result m') :
    ∃ word served, answer request arguments m = .ok word served ∧
      m' = { served with acc := word } := by
  cases hanswer : answer request arguments m with
  | error error failed =>
      rw [serve_of_error hanswer] at h
      cases h
  | ok word served =>
      rw [serve_of_ok hanswer] at h
      cases h
      exact ⟨word, served, rfl, rfl⟩

/-- An instruction that is carried out to its end is a request or no trap at all. -/
theorem exists_request_of_step {result : Option Word} (hstep : step tracing m = .ok result m') :
    (∃ request arguments, m.Requests request arguments) ∨
      ∃ instruction, (∀ request, instruction.opcode ≠ .trap request) ∧
        m.request? = none ∧ execute instruction (m.advance tracing instruction) = .ok result m' := by
  by_cases hgranted : ∀ limit, m.cycleLimit = some limit → m.cycles < limit
  · cases hfetch : m.fetch with
    | error error =>
        rw [step_of_unfetched hgranted hfetch] at hstep
        cases hstep
    | ok instruction =>
        rw [step_of_fetch hgranted hfetch] at hstep
        obtain ⟨opcode, operand⟩ := instruction
        by_cases htrap : ∃ request, opcode = .trap request
        · obtain ⟨request, rfl⟩ := htrap
          left
          change (trap request (operand.getD 0) >>= fun word =>
            load word >>= fun _ => pure none) _ = _ at hstep
          rcases popArguments_cases (operand.getD 0)
              (m.advance tracing { opcode := .trap request, operand }) with
            ⟨count, hcount, hstop, -⟩ | ⟨error, hpop⟩
          · refine ⟨request, m.arguments count, hgranted, ?_⟩
            have hroom : m.sp + count ≤ m.layout.stack.stop := hstop
            simp only [request?, hfetch, hcount, if_pos hroom]
          · rw [trap_eq, bind_assoc, bind_of_error hpop] at hstep
            cases hstep
        · have hother : ∀ request, opcode ≠ .trap request := fun request h => htrap ⟨request, h⟩
          refine .inr ⟨_, hother, ?_, hstep⟩
          unfold request?
          rw [hfetch]
          split
          · next heq =>
              cases heq
              exact absurd rfl (hother _)
          · rfl
  · obtain ⟨limit, hsome, hover⟩ : ∃ limit, m.cycleLimit = some limit ∧ limit ≤ m.cycles := by
      simpa using hgranted
    rw [step_of_limit hsome hover] at hstep
    cases hstep

/-! ## Runs -/

/-- A trap that has been carried out. -/
structure Served where
  request : Trap
  arguments : List Word
  result : Word
deriving DecidableEq

/-- The trap that a step from one machine to another has carried out, if it has. -/
def served (m m' : Machine) : List Served :=
  match m.request? with
  | some (request, arguments) => [⟨request, arguments, m'.acc⟩]
  | none => []

theorem served_of_requests (h : m.Requests request arguments) (m' : Machine) :
    m.served m' = [⟨request, arguments, m'.acc⟩] := by
  simp only [served, h.request]

/-- A step carries out a trap or leaves heap and descriptors alone. -/
theorem served_cases (hstep : step tracing m = .ok none m') :
    (∃ request arguments, m.Requests request arguments) ∨
      m.served m' = [] ∧ m'.heap = m.heap ∧ m'.descriptors = m.descriptors := by
  rcases exists_request_of_step hstep with hrequest | ⟨instruction, hother, hnone, hexecute⟩
  · exact .inl hrequest
  · have hapart : IsApart fun m => (m.heap, m.descriptors) := fun _ _ _ _ _ _ => rfl
    have hsame := Ignores.execute hapart hother (m.advance tracing instruction)
    rw [after_of_ok hexecute] at hsame
    refine .inr ⟨?_, congrArg Prod.fst hsame, congrArg Prod.snd hsame⟩
    simp only [served, hnone]

/-- What a run can have come to, and the traps that it has carried out, the latest first. -/
inductive Underway (start : Machine) (entry : Nat) (tracing : Bool) : List Served → Machine → Prop
  | begin : Underway start entry tracing [] (start.started entry)
  | step {log : List Served} {m m' : Machine} (h : Underway start entry tracing log m)
      (hstep : m.step tracing = .ok none m') : Underway start entry tracing (m.served m' ++ log) m'
  | replace {log : List Served} {m : Machine} (h : Underway start entry tracing log m)
      (host : Host) : Underway start entry tracing log { m with host }

variable {start : Machine} {entry steps : Nat} {log : List Served}

/-- The traps of a run on a host that changes in no other way, the latest first. -/
def traps (entry : Nat) (tracing : Bool) (m : Machine) : Nat → List Served
  | 0 => []
  | steps + 1 =>
      (m.after (runFrom entry tracing steps)).served (m.after (runFrom entry tracing (steps + 1))) ++
        traps entry tracing m steps

theorem underway_runFrom (hrunnable : start.status.isRunnable)
    (hgoing : (start.after (runFrom entry tracing steps)).status = .running) :
    Underway start entry tracing (start.traps entry tracing steps)
      (start.after (runFrom entry tracing steps)) := by
  have hstatus := @status_of_runFrom start tracing entry steps hrunnable
  obtain ⟨m, hrun⟩ : ∃ m, runFrom entry tracing steps start = .ok none m := by
    unfold after at hgoing
    split at hstatus
    · next m hrun => exact ⟨m, hrun⟩
    · next hrun =>
        rw [hrun, hstatus] at hgoing
        cases hgoing
    · next hrun =>
        rw [hrun, hstatus] at hgoing
        cases hgoing
  clear hstatus hgoing
  induction steps generalizing m with
  | zero =>
      have hstarted := (runFrom_eq_ok_none hrunnable).1 hrun
      cases hstarted
      rw [after_of_ok hrun]
      exact .begin
  | succ steps ih =>
      obtain ⟨before, hbefore, hstep⟩ := (runFrom_succ_eq_ok_none hrunnable).1 hrun
      have hunderway := ih before hbefore
      rw [traps]
      rw [after_of_ok hbefore] at hunderway ⊢
      rw [after_of_ok hrun]
      exact hunderway.step hstep

namespace Underway

theorem intactWith (hstart : start.Intact) (h : Underway start entry tracing log m) :
    m.IntactWith start.layout := by
  induction h with
  | begin =>
      have hstarted : start.Confined (fun _ => False) (start.started entry) :=
        hstart.move hstart.sp_bounds hstart.bp_bounds
      exact ⟨hstarted.intact, rfl⟩
  | step _ hstep ih =>
      have hconfined := ih.intact.after_step tracing
      rw [after_of_ok hstep] at hconfined
      exact ⟨hconfined.intact, hconfined.keeps.layout.trans ih.layout⟩
  | @replace _ m _ host ih =>
      have hmoved : m.Confined (fun _ => False) { m with host } :=
        ih.intact.move ih.intact.sp_bounds ih.intact.bp_bounds
      exact ⟨hmoved.intact, ih.layout⟩

end Underway

end WordC.Machine
