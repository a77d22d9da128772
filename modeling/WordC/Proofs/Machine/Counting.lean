import WordC.Proofs.Machine.Intact
import WordC.Proofs.Machine.Runs
import WordC.Proofs.Machine.Twins

/-!
# Cycles and limits

Only fetched instructions are counted, and the limit is looked at before an instruction is fetched
and at no other time. So a run under a limit does as it would under a higher one, or under none, as
long as the limit is not used up.
-/

namespace WordC

/-- Hosts with one past that have done the same since. -/
theorem Host.Since.eq {base host host' : Host} (h : Since base base host host') : host' = host := by
  obtain ⟨system, asked, ⟨mode, written⟩, journal⟩ := host
  obtain ⟨system', asked', ⟨mode', written'⟩, journal'⟩ := host'
  obtain ⟨⟨hsystem, hsystem'⟩, ⟨requests, hasked, hasked'⟩, -, hmode,
    ⟨output, hwritten, hwritten'⟩, events, hjournal, hjournal'⟩ := h
  simp only at hsystem hsystem' hasked hasked' hmode hwritten hwritten' hjournal hjournal'
  rw [hsystem, hsystem', hasked, hasked', hmode, hwritten, hwritten', hjournal, hjournal']

namespace Machine

open Text.Utf8 (Bytes)

variable {m m' : Machine} {n steps : Nat} {more : Option Nat} {tracing : Bool} {α β : Type}

/-! ## Counting

Cycles are counted and compared with the limit by a step alone, outside of the instruction. -/

structure SameClock (m m' : Machine) : Prop where
  cycles : m'.cycles = m.cycles
  cycleLimit : m'.cycleLimit = m.cycleLimit
  status : m'.status = m.status

theorem SameClock.trans {m'' : Machine} (h : m.SameClock m') (h' : m'.SameClock m'') :
    m.SameClock m'' :=
  ⟨h'.cycles.trans h.cycles, h'.cycleLimit.trans h.cycleLimit, h'.status.trans h.status⟩

/-- Results of what neither counts nor looks at the count. -/
inductive Uncounted (m : Machine) : EStateM.Result Error Machine α → Prop
  | ok {value : α} {m' : Machine} (same : m.SameClock m') : Uncounted m (.ok value m')
  | error {error : Error} {m' : Machine} (same : m.SameClock m')
      (granted : ∀ limit, error ≠ .cycleLimit limit) : Uncounted m (.error error m')

def Timeless (action : Action α) : Prop :=
  ∀ m : Machine, m.Uncounted (action m)

theorem Uncounted.fault (m : Machine) (word : Word) :
    m.Uncounted (.error (m.fault word) m : EStateM.Result Error Machine α) :=
  .error ⟨rfl, rfl, rfl⟩ fun _ => Error.noConfusion

namespace Timeless

theorem pure (value : α) : Timeless (pure value : Action α) :=
  fun _ => .ok ⟨rfl, rfl, rfl⟩

theorem throw {error : Error} (h : ∀ limit, error ≠ .cycleLimit limit) :
    Timeless (throw error : Action α) :=
  fun _ => .error ⟨rfl, rfl, rfl⟩ h

theorem bind {action : Action α} {next : α → Action β} (haction : Timeless action)
    (hnext : ∀ value, Timeless (next value)) : Timeless (action >>= next) := by
  intro m
  have hfirst := haction m
  cases h : action m with
  | error error m' =>
      rw [bind_of_error h]
      rw [h] at hfirst
      cases hfirst with
      | error hsame hgranted => exact .error hsame hgranted
  | ok value m' =>
      rw [bind_of_ok h]
      rw [h] at hfirst
      cases hfirst with
      | ok hsame =>
          have hsecond := hnext value m'
          generalize next value m' = result at hsecond
          cases hsecond with
          | ok hsame' => exact .ok (hsame.trans hsame')
          | error hsame' hgranted => exact .error (hsame.trans hsame') hgranted

theorem get_bind {next : Machine → Action α} (h : ∀ m : Machine, m.Uncounted (next m m)) :
    Timeless (get >>= next) :=
  h

theorem look {next : Machine → Action α} (h : ∀ m, Timeless (next m)) : Timeless (get >>= next) :=
  get_bind fun m => h m m

theorem modify {change : Machine → Machine} (h : ∀ m : Machine, m.SameClock (change m)) :
    Timeless (modify change : Action Unit) :=
  fun m => .ok (h m)

theorem ite {condition : Prop} [Decidable condition] {first second : Action α}
    (hfirst : Timeless first) (hsecond : Timeless second) :
    Timeless (if condition then first else second) := by
  by_cases h : condition
  · rwa [if_pos h]
  · rwa [if_neg h]

/-! ### Checks -/

theorem count (word : Word) : Timeless (count word) := by
  intro m
  rcases count_cases word m with ⟨n, -, hok⟩ | hfault
  · exact hok ▸ .ok ⟨rfl, rfl, rfl⟩
  · exact hfault ▸ .fault m word

theorem address (word : Word) : Timeless (address word) := by
  intro m
  rcases address_cases word m with ⟨n, -, -, hok⟩ | hfault
  · exact hok ▸ .ok ⟨rfl, rfl, rfl⟩
  · exact hfault ▸ .fault m word

theorem readable (start size : Word) : Timeless (readable start size) := by
  intro m
  rcases readable_cases start size m with ⟨extent, -, -, -, hok⟩ | hfault
  · exact hok ▸ .ok ⟨rfl, rfl, rfl⟩
  · exact hfault ▸ .fault m start

theorem writable (start size : Word) : Timeless (writable start size) := by
  refine (readable start size).bind fun extent => look fun m => ?_
  exact ite (throw fun _ => Error.noConfusion) (pure extent)

theorem push (word : Word) : Timeless (push word) := by
  intro m
  rcases Nat.lt_or_ge m.layout.stack.start m.sp with hroom | hfull
  · exact push_eq hroom ▸ .ok ⟨rfl, rfl, rfl⟩
  · exact push_full hfull ▸ .error ⟨rfl, rfl, rfl⟩ fun _ => Error.noConfusion

theorem pop : Timeless pop := by
  intro m
  rcases Nat.lt_or_ge m.sp m.layout.stack.stop with hroom | hempty
  · exact pop_eq hroom ▸ .ok ⟨rfl, rfl, rfl⟩
  · exact pop_empty hempty ▸ .fault m _

theorem popArguments (size : Word) : Timeless (popArguments size) := by
  refine (count size).bind fun n => look fun m => ?_
  refine ite (throw fun _ => Error.noConfusion) (bind ?_ fun _ => pure _)
  exact modify fun _ => ⟨rfl, rfl, rfl⟩

theorem bytesAt (word : Word) : Timeless (bytesAt word) :=
  (address word).bind fun _ => look fun _ => pure _

/-! ### Instructions -/

theorem load (word : Word) : Timeless (load word) :=
  modify fun _ => ⟨rfl, rfl, rfl⟩

theorem jump (target : Word) : Timeless (jump target) := by
  intro m
  rcases jump_cases target m with ⟨pc, hok⟩ | hfault
  · exact hok ▸ .ok ⟨rfl, rfl, rfl⟩
  · exact hfault ▸ .fault m target

theorem callTo (target : Word) : Timeless (callTo target) := by
  have htarget : Timeless (jumpTarget target) := by
    intro m
    rcases jumpTarget_cases target m with ⟨pc, -, -, hok⟩ | hfault
    · exact hok ▸ .ok ⟨rfl, rfl, rfl⟩
    · exact hfault ▸ .fault m target
  exact htarget.bind fun pc => look fun m =>
    (push _).bind fun _ => modify fun _ => ⟨rfl, rfl, rfl⟩

theorem enterFrame (slots : Word) : Timeless (enterFrame slots) := by
  refine look fun m => (push _).bind fun _ => bind (modify fun _ => ⟨rfl, rfl, rfl⟩) fun _ =>
    (count slots).bind fun n => look fun m => ?_
  exact ite (throw fun _ => Error.noConfusion) (modify fun _ => ⟨rfl, rfl, rfl⟩)

theorem adjust (words : Word) : Timeless (adjust words) := by
  refine (count words).bind fun n => look fun m => ?_
  exact ite (throw fun _ => Error.noConfusion) (modify fun _ => ⟨rfl, rfl, rfl⟩)

theorem leaveFrame : Timeless leaveFrame := by
  refine bind (modify fun _ => ⟨rfl, rfl, rfl⟩) fun _ => pop.bind fun saved => look fun m => ?_
  cases saved.count?.filter fun bp =>
      m.layout.stack.start ≤ bp && bp ≤ m.layout.stack.stop with
  | none => exact throw fun _ => Error.noConfusion
  | some bp => exact bind (modify fun _ => ⟨rfl, rfl, rfl⟩) fun _ => pop.bind jump

theorem loadIndirect : Timeless loadIndirect :=
  look fun _ => (address _).bind fun _ => modify fun _ => ⟨rfl, rfl, rfl⟩

theorem storeIndirect : Timeless storeIndirect :=
  pop.bind fun _ => look fun _ => (writable _ 1).bind fun _ => modify fun _ => ⟨rfl, rfl, rfl⟩

theorem combine (operator : Operator) : Timeless (combine operator) := by
  refine pop.bind fun left => look fun m => ?_
  cases operator.apply? left m.acc with
  | none => exact throw fun _ => Error.noConfusion
  | some word => exact load word

/-! ### Traps -/

theorem announce (event : Event) : Timeless (announce event) :=
  modify fun _ => ⟨rfl, rfl, rfl⟩

theorem openFile (path flags : Word) : Timeless (openFile path flags) := by
  refine (bytesAt path).bind fun bytes => ?_
  cases openModeOf? flags with
  | none => exact pure _
  | some mode =>
      refine get_bind fun m => ?_
      simp only
      cases (m.host.openFile (Text.Utf8.decode bytes) mode).1 with
      | error error => exact .ok ⟨rfl, rfl, rfl⟩
      | ok handle => exact .ok ⟨rfl, rfl, rfl⟩

theorem readInto (descriptor buffer size : Word) : Timeless (readInto descriptor buffer size) := by
  refine (writable buffer size).bind fun extent => get_bind fun m => ?_
  cases m.descriptors.stream? descriptor with
  | none => exact .ok ⟨rfl, rfl, rfl⟩
  | some stream =>
      simp only
      cases (m.host.read stream extent.size).1 with
      | none => exact .ok ⟨rfl, rfl, rfl⟩
      | some bytes => exact .ok ⟨rfl, rfl, rfl⟩

theorem closeFile (descriptor : Word) : Timeless (closeFile descriptor) := by
  refine get_bind fun m => ?_
  cases m.descriptors.close? descriptor with
  | none => exact .ok ⟨rfl, rfl, rfl⟩
  | some descriptors => exact .ok ⟨rfl, rfl, rfl⟩

/-- A template fails only where a string cannot be read. -/
theorem format_granted {template : Bytes} {values : List Word} {error : Error}
    (h : m.format template values = .error error) (limit : Nat) : error ≠ .cycleLimit limit := by
  obtain ⟨word, -, hread⟩ := error_of_render h
  rcases bytesAt_eq (m := m) word with ⟨bytes, hbytes⟩ | hfault
  · rw [hbytes] at hread
    cases hread
  · rw [hfault] at hread
    cases hread
    exact Error.noConfusion

theorem printf (arguments : List Word) : Timeless (printf arguments) := by
  cases arguments with
  | nil => exact pure _
  | cons template values =>
      refine (bytesAt template).bind fun bytes => get_bind fun m => ?_
      cases hformat : m.format bytes values with
      | error error => exact .error ⟨rfl, rfl, rfl⟩ (format_granted hformat)
      | ok text => exact .ok ⟨rfl, rfl, rfl⟩

theorem malloc (size : Word) : Timeless (malloc size) := by
  refine get_bind fun m => ?_
  simp only
  cases size.count?.bind m.heap.allocate? with
  | none => exact .ok ⟨rfl, rfl, rfl⟩
  | some found => exact .ok ⟨rfl, rfl, rfl⟩

theorem free (pointer : Word) : Timeless (free pointer) := by
  refine ite (pure _) (get_bind fun m => ?_)
  cases pointer.count? with
  | none => exact .fault m pointer
  | some address =>
      simp only
      cases m.heap.release? address with
      | none => exact .fault m pointer
      | some found => exact .ok ⟨rfl, rfl, rfl⟩

theorem memset (pointer value size : Word) : Timeless (memset pointer value size) :=
  (writable pointer size).bind fun _ => bind (modify fun _ => ⟨rfl, rfl, rfl⟩) fun _ => pure _

theorem memcmp (left right size : Word) : Timeless (memcmp left right size) :=
  (readable left size).bind fun _ => (readable right size).bind fun _ => look fun _ => pure _

theorem trap (request : Trap) (size : Word) : Timeless (trap request size) := by
  refine (popArguments size).bind fun arguments => ?_
  cases request with
  | «open» => exact openFile _ _
  | read => exact readInto _ _ _
  | close => exact closeFile _
  | printf => exact printf _
  | malloc => exact malloc _
  | free => exact free _
  | memset => exact memset _ _ _
  | memcmp => exact memcmp _ _ _

theorem execute (instruction : Instruction) : Timeless (execute instruction) := by
  obtain ⟨opcode, operand⟩ := instruction
  have hgo {action : Action Unit} (h : Timeless action) :
      Timeless (action >>= fun _ => (Pure.pure none : Action (Option Word))) :=
    h.bind fun _ => pure _
  cases opcode with
  | lea => exact look fun _ => hgo (load _)
  | imm => exact hgo (load _)
  | jmp => exact hgo (jump _)
  | call => exact hgo (callTo _)
  | jz => exact look fun _ => ite (hgo (jump _)) (pure _)
  | jnz => exact look fun _ => ite (hgo (jump _)) (pure _)
  | ent => exact hgo (enterFrame _)
  | adj => exact hgo (adjust _)
  | lev => exact hgo leaveFrame
  | li => exact hgo loadIndirect
  | si => exact hgo storeIndirect
  | push => exact look fun _ => hgo (push _)
  | binary operator => exact hgo (combine operator)
  | plac => exact look fun _ => throw fun _ => Error.noConfusion
  | trap request => exact (trap request _).bind fun word => hgo (load word)
  | exit => exact look fun _ => pure _

end Timeless

/-! ## One step -/

theorem fetch_granted {error : Error} (h : m.fetch = .error error) (limit : Nat) :
    error ≠ .cycleLimit limit := by
  rintro rfl
  simp only [fetch] at h
  split at h
  · cases h
  · split at h
    · cases h
    · cases h
    · split at h
      · split at h
        · cases h
        · cases h
      · cases h

theorem step_of_granted (h : ∀ limit, m.cycleLimit = some limit → m.cycles < limit) :
    step tracing m = proceed tracing m := by
  rw [step_eq, bind_of_ok (checkCycleLimit_eq h)]

/-- What has been granted is not refused, and it takes one cycle. -/
theorem proceed_cases (tracing : Bool) (m : Machine) :
    (∃ error m', proceed tracing m = .error error m' ∧ ∀ limit, error ≠ .cycleLimit limit) ∨
      ∃ result m', proceed tracing m = .ok result m' ∧ m'.cycles = m.cycles + 1 ∧
        m'.cycleLimit = m.cycleLimit ∧ m'.status = m.status := by
  rw [proceed_eq]
  cases hfetch : m.fetch with
  | error error => exact .inl ⟨error, _, rfl, fetch_granted hfetch⟩
  | ok instruction =>
      have hexecute := Timeless.execute instruction (m.advance tracing instruction)
      simp only
      cases hresult : execute instruction (m.advance tracing instruction) with
      | error error m' =>
          rw [hresult] at hexecute
          cases hexecute with
          | error _ hgranted => exact .inl ⟨error, m', rfl, hgranted⟩
      | ok result m' =>
          rw [hresult] at hexecute
          cases hexecute with
          | ok hsame => exact .inr ⟨result, m', rfl, hsame.cycles, hsame.cycleLimit, hsame.status⟩

/-- Whatever the limit is, what has been granted is done in the same way. -/
theorem respects_setCycleLimit (more : Option Nat) (tracing : Bool) :
    Respects (fun m n => n = m.setCycleLimit more) (proceed tracing) := by
  rintro m _ rfl
  have hkin : Kin (fun _ => more) m.host m.host m (m.setCycleLimit more) :=
    ⟨m.host, rfl, .refl m.host⟩
  have heq {first second : Machine} (h : Kin (fun _ => more) m.host m.host first second) :
      second = first.setCycleLimit more := by
    obtain ⟨host, rfl, hsince⟩ := h
    rw [hsince.eq]
    rfl
  have hsame := respects_proceed tracing hkin
  revert hsame
  generalize proceed tracing m = first
  generalize proceed tracing (m.setCycleLimit more) = second
  intro hsame
  cases hsame with
  | ok h => exact .ok (heq h)
  | error h => exact .error (heq h)

/-- A step that does not end the run is the same without a limit. -/
theorem step_unlimited (hstep : step tracing m = .ok none m') :
    step tracing (m.setCycleLimit none) = .ok none (m'.setCycleLimit none) := by
  by_cases hgranted : ∀ limit, m.cycleLimit = some limit → m.cycles < limit
  · rw [step_of_granted hgranted] at hstep
    have hsame := respects_setCycleLimit none tracing (s := m) rfl
    rw [hstep] at hsame
    rw [step_of_granted fun _ hsome => by cases hsome]
    generalize proceed tracing (m.setCycleLimit none) = second at hsame
    cases hsame with
    | ok h => rw [h]
  · obtain ⟨limit, hsome, hspent⟩ : ∃ limit, m.cycleLimit = some limit ∧ limit ≤ m.cycles := by
      simpa using hgranted
    cases hstep.symm.trans (step_of_limit hsome hspent)

/-- A step that the limit grants is granted by a higher limit as well, and both do the same. -/
theorem step_setCycleLimit (hlimit : m.cycleLimit = some n) (hlt : m.cycles < n)
    (hmore : ∀ limit, more = some limit → n ≤ limit) (tracing : Bool) :
    (∃ error stopped, step tracing m = .error error stopped ∧
        step tracing (m.setCycleLimit more) = .error error (stopped.setCycleLimit more) ∧
        ∀ limit, error ≠ .cycleLimit limit) ∨
      ∃ result next, step tracing m = .ok result next ∧
        step tracing (m.setCycleLimit more) = .ok result (next.setCycleLimit more) ∧
        next.cycles = m.cycles + 1 ∧ next.cycleLimit = some n := by
  have hgranted : step tracing m = proceed tracing m := step_of_granted fun limit hsome => by
    rw [hlimit] at hsome
    cases hsome
    exact hlt
  have hraised : step tracing (m.setCycleLimit more) = proceed tracing (m.setCycleLimit more) :=
    step_of_granted fun limit hsome => Nat.lt_of_lt_of_le hlt (hmore limit hsome)
  have hsame := respects_setCycleLimit more tracing (s := m) rfl
  rw [hgranted, hraised]
  rcases proceed_cases tracing m with ⟨error, stopped, herror, hne⟩ |
    ⟨result, next, hok, hcycles, hkept, -⟩
  · refine .inl ⟨error, stopped, herror, ?_, hne⟩
    rw [herror] at hsame
    generalize proceed tracing (m.setCycleLimit more) = second at hsame
    cases hsame with
    | error h => rw [h]
  · refine .inr ⟨result, next, hok, ?_, hcycles, hkept.trans hlimit⟩
    rw [hok] at hsame
    generalize proceed tracing (m.setCycleLimit more) = second at hsame
    cases hsame with
    | ok h => rw [h]

/-! ## Runs -/

theorem runSteps_succ_of_error {error : Error} (h : step tracing m = .error error m') :
    runSteps tracing (steps + 1) m = .error error m' := by
  rw [runSteps, bind_of_error h]

theorem runSteps_succ_of_result {word : Word} (h : step tracing m = .ok (some word) m') :
    runSteps tracing (steps + 1) m = .ok (some word) m' := by
  rw [runSteps, bind_of_ok h]
  rfl

/-- A run that goes on is the same without a limit. -/
theorem runSteps_unlimited (hgoing : runSteps tracing steps m = .ok none m') :
    runSteps tracing steps (m.setCycleLimit none) = .ok none (m'.setCycleLimit none) := by
  induction steps generalizing m' with
  | zero =>
      cases hgoing
      rfl
  | succ steps ih =>
      obtain ⟨before, hbefore, hstep⟩ := runSteps_succ_eq_ok_none.1 hgoing
      exact runSteps_succ_eq_ok_none.2 ⟨_, ih hbefore, step_unlimited hstep⟩

/-- A run that goes on has taken a cycle for each step, all of them granted. -/
theorem cycles_of_going (hlimit : m.cycleLimit = some n) (hcycles : m.cycles ≤ n)
    (hgoing : runSteps tracing steps m = .ok none m') : m.cycles + steps ≤ n := by
  induction steps generalizing m with
  | zero => exact hcycles
  | succ steps ih =>
      rcases Nat.lt_or_ge m.cycles n with hlt | hspent
      · have hnone : ∀ limit, none = some limit → n ≤ limit := fun _ h => nomatch h
        rcases step_setCycleLimit hlimit hlt hnone tracing with
          ⟨error, stopped, herror, -⟩ | ⟨result, next, hok, -, hnext, hkept⟩
        · rw [runSteps_succ_of_error herror] at hgoing
          cases hgoing
        · cases result with
          | some word =>
              rw [runSteps_succ_of_result hok] at hgoing
              cases hgoing
          | none =>
              rw [runSteps_succ_of_step hok] at hgoing
              have := ih hkept (by omega) hgoing
              omega
      · rw [runSteps_succ_of_error (step_of_limit hlimit hspent)] at hgoing
        cases hgoing

theorem status_of_going (hgoing : runSteps tracing steps m = .ok none m') :
    m'.status = m.status := by
  induction steps generalizing m with
  | zero =>
      cases hgoing
      rfl
  | succ steps ih =>
      by_cases hgranted : ∀ limit, m.cycleLimit = some limit → m.cycles < limit
      · have hstep : step tracing m = proceed tracing m := step_of_granted hgranted
        rcases proceed_cases tracing m with
          ⟨error, stopped, herror, -⟩ | ⟨result, next, hok, -, -, hstatus⟩
        · rw [runSteps_succ_of_error (hstep.trans herror)] at hgoing
          cases hgoing
        · cases result with
          | some word =>
              rw [runSteps_succ_of_result (hstep.trans hok)] at hgoing
              cases hgoing
          | none =>
              rw [runSteps_succ_of_step (hstep.trans hok)] at hgoing
              exact (ih hgoing).trans hstatus
      · obtain ⟨limit, hsome, hspent⟩ : ∃ limit, m.cycleLimit = some limit ∧ limit ≤ m.cycles := by
          simpa using hgranted
        rw [runSteps_succ_of_error (step_of_limit hsome hspent)] at hgoing
        cases hgoing

/-- Under a limit a run either does as it would under a higher one or is stopped with its cycles
used up, at a point that it passes under the higher limit. -/
theorem runSteps_setCycleLimit (tracing : Bool) (steps : Nat) (hlimit : m.cycleLimit = some n)
    (hcycles : m.cycles ≤ n) (hmore : ∀ limit, more = some limit → n ≤ limit) :
    (Alike (fun m n => n = m.setCycleLimit more) (runSteps tracing steps m)
        (runSteps tracing steps (m.setCycleLimit more)) ∧
      ∀ limit stopped, runSteps tracing steps m ≠ .error (.cycleLimit limit) stopped) ∨
    ∃ stopped, runSteps tracing steps m = .error (.cycleLimit n) stopped ∧ stopped.cycles = n ∧
      stopped.cycleLimit = some n ∧
      runSteps tracing (n - m.cycles) (m.setCycleLimit more) =
        .ok none (stopped.setCycleLimit more) := by
  induction steps generalizing m with
  | zero => exact .inl ⟨.ok rfl, fun _ _ h => nomatch h⟩
  | succ steps ih =>
      rcases Nat.lt_or_ge m.cycles n with hlt | hspent
      · rcases step_setCycleLimit hlimit hlt hmore tracing with
          ⟨error, stopped, herror, herror', hne⟩ | ⟨result, next, hok, hok', hnext, hkept⟩
        · rw [runSteps_succ_of_error herror, runSteps_succ_of_error herror']
          refine .inl ⟨.error rfl, fun limit m' h => hne limit ?_⟩
          cases h
          rfl
        · cases result with
          | some word =>
              rw [runSteps_succ_of_result hok, runSteps_succ_of_result hok']
              exact .inl ⟨.ok rfl, fun _ _ h => nomatch h⟩
          | none =>
              have hleft : n - m.cycles = n - next.cycles + 1 := by omega
              rw [runSteps_succ_of_step hok, hleft, runSteps_succ_of_step hok',
                runSteps_succ_of_step hok']
              exact ih hkept (by omega)
      · have hnone : n - m.cycles = 0 := Nat.sub_eq_zero_of_le hspent
        rw [runSteps_succ_of_error (step_of_limit hlimit hspent), hnone]
        exact .inr ⟨m, rfl, Nat.le_antisymm hcycles hspent, hlimit, rfl⟩

theorem alike_settled {first second : EStateM.Result Error Machine (Option Word)}
    (h : Alike (fun m n => n = m.setCycleLimit more) first second) :
    Alike (fun m n => n = m.setCycleLimit more) (settled first) (settled second) := by
  cases h with
  | error h =>
      subst h
      exact .error rfl
  | @ok value _ _ h =>
      subst h
      cases value with
      | none => exact .ok rfl
      | some word => exact .ok rfl

end Machine

end WordC
