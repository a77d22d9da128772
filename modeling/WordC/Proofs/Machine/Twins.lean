import WordC.Proofs.Compile.Emission
import WordC.Proofs.Machine.Traps

/-!
# Two machines with different pasts

What has been asked, written and reported before is out of reach, but for the answers that follow: an
action that starts on two machines that differ in nothing else gives the same result on both, asks
for the same, writes the same bytes and reports the same events. The relation is respected by every
action on a machine.
-/

namespace WordC

open Text.Utf8 (Bytes)

/-- Hosts that answer alike and that have asked, written and reported the same since the one was
`base` and the other `base'`. -/
structure Host.Since (base base' host host' : Host) : Prop where
  system : host.system = base.system ∧ host'.system = base'.system
  asked : ∃ requests, host.asked = requests ++ base.asked ∧ host'.asked = requests ++ base'.asked
  answers : host'.answers = host.answers
  mode : host'.sink.mode = host.sink.mode
  written : ∃ output : Array UInt8, host.sink.written = base.sink.written ++ output ∧
    host'.sink.written = base'.sink.written ++ output
  journal : ∃ events : Array Event, host.journal = base.journal ++ events ∧
    host'.journal = base'.journal ++ events

namespace Host.Since

variable {base base' host host' : Host}

theorem refl (host : Host) : Since host host host host where
  system := ⟨rfl, rfl⟩
  asked := ⟨[], rfl, rfl⟩
  answers := rfl
  mode := rfl
  written := ⟨#[], Array.append_empty.symm, Array.append_empty.symm⟩
  journal := ⟨#[], Array.append_empty.symm, Array.append_empty.symm⟩

theorem report (h : Since base base' host host') (event : Event) :
    Since base base' (host.report event) (host'.report event) :=
  { h with
    journal := by
      obtain ⟨events, hjournal, hjournal'⟩ := h.journal
      refine ⟨events.push event, ?_, ?_⟩
      · rw [Array.append_push, ← hjournal]
        rfl
      · rw [Array.append_push, ← hjournal']
        rfl }

theorem write (h : Since base base' host host') (bytes : Bytes) :
    (host'.write bytes).1 = (host.write bytes).1 ∧
      Since base base' (host.write bytes).2 (host'.write bytes).2 := by
  obtain ⟨system, asked, ⟨mode, written⟩, journal⟩ := host
  obtain ⟨system', asked', ⟨mode', written'⟩, journal'⟩ := host'
  obtain ⟨hsystem, hasked, hanswers, hmode, ⟨output, hwritten, hwritten'⟩, hjournal⟩ := h
  simp only at hmode hwritten hwritten'
  subst hmode hwritten hwritten'
  have happended : Since base base'
      ⟨system, asked, ⟨mode', base.sink.written ++ output ++ bytes⟩, journal⟩
      ⟨system', asked', ⟨mode', base'.sink.written ++ output ++ bytes⟩, journal'⟩ :=
    { system := hsystem
      asked := hasked
      answers := hanswers
      mode := rfl
      written := ⟨output ++ bytes, Array.ext' (by simp), Array.ext' (by simp)⟩
      journal := hjournal }
  cases mode' with
  | accepts => exact ⟨rfl, happended⟩
  | refusesWrites => exact ⟨rfl, hsystem, hasked, hanswers, rfl, ⟨output, rfl, rfl⟩, hjournal⟩
  | refusesFlushes => exact ⟨rfl, happended⟩

/-- The same request on both sides. -/
theorem ask (h : Since base base' host host') (request : System.Request) :
    Since base base' { host with asked := request :: host.asked }
      { host' with asked := request :: host'.asked } :=
  { h with
    asked := by
      obtain ⟨requests, hasked, hasked'⟩ := h.asked
      exact ⟨request :: requests, congrArg _ hasked, congrArg _ hasked'⟩
    answers := by
      unfold Host.answers
      rw [System.after_cons, System.after_cons host.system]
      exact congrArg (·.after [request]) h.answers }

theorem openFile (h : Since base base' host host') (path : String) (mode : OpenMode) :
    (host'.openFile path mode).1 = (host.openFile path mode).1 ∧
      Since base base' (host.openFile path mode).2 (host'.openFile path mode).2 :=
  ⟨congrArg (fun system : System => system.opens [] path mode) h.answers, h.ask _⟩

theorem read (h : Since base base' host host') (stream : System.Stream) (count : Nat) :
    (host'.read stream count).1 = (host.read stream count).1 ∧
      Since base base' (host.read stream count).2 (host'.read stream count).2 :=
  ⟨congrArg (fun system : System => system.reads [] stream count) h.answers, h.ask _⟩

end Host.Since

namespace Machine

variable {limits : Option Nat → Option Nat} {base base' : Host} {α : Type}

/-- Machines that differ only in their cycle limits, where `limits` gives one for the other, and in
what their hosts have asked, written and reported before. -/
def Kin (limits : Option Nat → Option Nat) (base base' : Host) (m n : Machine) : Prop :=
  ∃ host, n = { m with host, cycleLimit := limits m.cycleLimit } ∧
    Host.Since base base' m.host host

/-- Machines that differ only in what their hosts have asked, written and reported before. -/
def Twins (base base' : Host) (m n : Machine) : Prop :=
  ∃ host, n = { m with host } ∧ Host.Since base base' m.host host

theorem Kin.report {m n : Machine} (h : Kin limits base base' m n) (event : Event) :
    Kin limits base base' (m.report event) (n.report event) := by
  obtain ⟨host, rfl, hsince⟩ := h
  exact ⟨_, rfl, hsince.report event⟩

/-! ## Checks

A check looks at what such machines have in common. -/

theorem respects_count (word : Word) : Respects (Kin limits base base') (count word) := by
  rintro m _ ⟨host, rfl, hsince⟩
  unfold count
  cases word.count? with
  | none => exact .error ⟨host, rfl, hsince⟩
  | some n => exact .ok ⟨host, rfl, hsince⟩

theorem respects_address (word : Word) : Respects (Kin limits base base') (address word) := by
  rintro m _ ⟨host, rfl, hsince⟩
  unfold address
  simp only
  cases word.count?.filter (· < m.memory.size) with
  | none => exact .error ⟨host, rfl, hsince⟩
  | some address => exact .ok ⟨host, rfl, hsince⟩

theorem respects_jumpTarget (word : Word) : Respects (Kin limits base base') (jumpTarget word) := by
  rintro m _ ⟨host, rfl, hsince⟩
  unfold jumpTarget
  simp only
  cases word.count?.filter fun target =>
      m.layout.text.start ≤ target && target < m.textEnd with
  | none => exact .error ⟨host, rfl, hsince⟩
  | some target => exact .ok ⟨host, rfl, hsince⟩

theorem respects_push (word : Word) : Respects (Kin limits base base') (push word) := by
  rintro m _ ⟨host, rfl, hsince⟩
  unfold push
  simp only
  by_cases hfull : m.sp ≤ m.layout.stack.start
  · rw [if_pos hfull, if_pos hfull]
    exact .error ⟨host, rfl, hsince⟩
  · rw [if_neg hfull, if_neg hfull]
    exact .ok ⟨host, rfl, hsince⟩

theorem respects_pop : Respects (Kin limits base base') pop := by
  rintro m _ ⟨host, rfl, hsince⟩
  unfold pop
  simp only
  by_cases hempty : m.layout.stack.stop ≤ m.sp
  · rw [if_pos hempty, if_pos hempty]
    exact .error ⟨host, rfl, hsince⟩
  · rw [if_neg hempty, if_neg hempty]
    exact .ok ⟨host, rfl, hsince⟩

theorem respects_readable (start size : Word) :
    Respects (Kin limits base base') (readable start size) := by
  rintro m _ ⟨host, rfl, hsince⟩
  unfold readable
  cases start.count? with
  | none => exact .error ⟨host, rfl, hsince⟩
  | some first =>
      cases size.count? with
      | none => exact .error ⟨host, rfl, hsince⟩
      | some size =>
          simp only
          by_cases hfits : first + size ≤ m.memory.size
          · rw [if_pos hfits, if_pos hfits]
            exact .ok ⟨host, rfl, hsince⟩
          · rw [if_neg hfits, if_neg hfits]
            exact .error ⟨host, rfl, hsince⟩

/-- A change that leaves the host alone. -/
theorem respects_modify {change : Machine → Machine}
    (hchange : ∀ m host, change { m with host, cycleLimit := limits m.cycleLimit } =
      { change m with host, cycleLimit := limits (change m).cycleLimit })
    (hhost : ∀ m, (change m).host = m.host) :
    Respects (Kin limits base base') (modify change : Action Unit) := by
  refine Respects.modify ?_
  rintro m _ ⟨host, rfl, hsince⟩
  exact ⟨host, hchange m host, (hhost m).symm ▸ hsince⟩

theorem respects_get {next : Machine → Action α}
    (hnext : ∀ m host, Host.Since base base' m.host host →
      Alike (Kin limits base base') (next m m)
        (next { m with host, cycleLimit := limits m.cycleLimit }
          { m with host, cycleLimit := limits m.cycleLimit })) :
    Respects (Kin limits base base') (get >>= next) := by
  refine Respects.get_bind ?_
  rintro m _ ⟨host, rfl, hsince⟩
  exact hnext m host hsince

/-- What is done may depend on all of the machine but its host. -/
theorem respects_look {next : Machine → Action α}
    (hnext : ∀ m host, next { m with host, cycleLimit := limits m.cycleLimit } = next m)
    (h : ∀ m, Respects (Kin limits base base') (next m)) :
    Respects (Kin limits base base') (get >>= next) := by
  refine respects_get fun m host hsince => ?_
  rw [hnext m host]
  exact h m ⟨host, rfl, hsince⟩

theorem respects_writable (start size : Word) :
    Respects (Kin limits base base') (writable start size) := by
  refine (respects_readable start size).bind fun extent =>
    respects_look (fun _ _ => rfl) fun m => ?_
  exact Respects.ite (fun _ => Respects.throw _) fun _ => Respects.pure _

theorem respects_popArguments (size : Word) :
    Respects (Kin limits base base') (popArguments size) := by
  refine (respects_count size).bind fun n => respects_look (fun _ _ => rfl) fun m => ?_
  refine Respects.ite (fun _ => Respects.throw _) fun _ => ?_
  exact Respects.bind (respects_modify (fun _ _ => rfl) fun _ => rfl) fun _ => Respects.pure _

theorem respects_bytesAt (word : Word) : Respects (Kin limits base base') (bytesAt word) :=
  (respects_address word).bind fun _ => respects_look (fun _ _ => rfl) fun _ => Respects.pure _

/-! ## Instructions -/

theorem respects_load (word : Word) : Respects (Kin limits base base') (load word) :=
  respects_modify (fun _ _ => rfl) fun _ => rfl

theorem respects_jump (target : Word) : Respects (Kin limits base base') (jump target) :=
  (respects_jumpTarget target).bind fun _ => respects_modify (fun _ _ => rfl) fun _ => rfl

theorem respects_callTo (target : Word) : Respects (Kin limits base base') (callTo target) := by
  refine (respects_jumpTarget target).bind fun pc => respects_look (fun _ _ => rfl) fun m => ?_
  exact Respects.bind (respects_push (Word.ofCount m.pc)) fun _ =>
    respects_modify (fun _ _ => rfl) fun _ => rfl

theorem respects_enterFrame (slots : Word) : Respects (Kin limits base base') (enterFrame slots) := by
  refine respects_look (fun _ _ => rfl) fun m => ?_
  refine Respects.bind (respects_push (Word.ofCount m.bp)) fun _ =>
    Respects.bind (respects_modify (fun _ _ => rfl) fun _ => rfl) fun _ =>
      Respects.bind (respects_count slots) fun n => respects_look (fun _ _ => rfl) fun m => ?_
  exact Respects.ite (fun _ => Respects.throw _) fun _ =>
    respects_modify (fun _ _ => rfl) fun _ => rfl

theorem respects_adjust (words : Word) : Respects (Kin limits base base') (adjust words) := by
  refine (respects_count words).bind fun n => respects_look (fun _ _ => rfl) fun m => ?_
  exact Respects.ite (fun _ => Respects.throw _) fun _ =>
    respects_modify (fun _ _ => rfl) fun _ => rfl

theorem respects_leaveFrame : Respects (Kin limits base base') leaveFrame := by
  refine Respects.bind (respects_modify (fun _ _ => rfl) fun _ => rfl) fun _ =>
    respects_pop.bind fun saved => respects_look (fun _ _ => rfl) fun m => ?_
  cases saved.count?.filter fun bp =>
      m.layout.stack.start ≤ bp && bp ≤ m.layout.stack.stop with
  | none => exact Respects.throw _
  | some bp =>
      exact Respects.bind (respects_modify (fun _ _ => rfl) fun _ => rfl) fun _ =>
        respects_pop.bind respects_jump

theorem respects_loadIndirect : Respects (Kin limits base base') loadIndirect := by
  refine respects_look (fun _ _ => rfl) fun m => ?_
  exact Respects.bind (respects_address m.acc) fun _ =>
    respects_modify (fun _ _ => rfl) fun _ => rfl

theorem respects_storeIndirect : Respects (Kin limits base base') storeIndirect := by
  refine respects_pop.bind fun word => respects_look (fun _ _ => rfl) fun m => ?_
  exact Respects.bind (respects_writable m.acc 1) fun _ =>
    respects_modify (fun _ _ => rfl) fun _ => rfl

theorem respects_combine (operator : Operator) :
    Respects (Kin limits base base') (combine operator) := by
  refine respects_pop.bind fun left => respects_look (fun _ _ => rfl) fun m => ?_
  cases operator.apply? left m.acc with
  | none => exact Respects.throw _
  | some word => exact respects_load word

/-! ## Traps -/

theorem respects_announce (event : Event) : Respects (Kin limits base base') (announce event) :=
  Respects.modify fun _ _ h => h.report event

theorem respects_openFile (path flags : Word) :
    Respects (Kin limits base base') (openFile path flags) := by
  refine (respects_bytesAt path).bind fun bytes => ?_
  cases openModeOf? flags with
  | none => exact Respects.pure _
  | some mode =>
      refine respects_get fun m host hsince => ?_
      obtain ⟨hanswer, hopened⟩ := hsince.openFile (Text.Utf8.decode bytes) mode
      simp only
      rw [hanswer]
      cases (m.host.openFile (Text.Utf8.decode bytes) mode).1 with
      | error error =>
          exact (respects_announce _).bind (fun _ => Respects.pure _) ⟨_, rfl, hopened⟩
      | ok handle => exact (respects_announce _).bind (fun _ => Respects.pure _) ⟨_, rfl, hopened⟩

theorem respects_storeBytes (extent : Extent) (bytes : Bytes) :
    Respects (Kin limits base base') (storeBytes extent bytes) :=
  respects_modify (fun _ _ => rfl) fun _ => rfl

theorem respects_readInto (descriptor buffer size : Word) :
    Respects (Kin limits base base') (readInto descriptor buffer size) := by
  refine (respects_writable buffer size).bind fun extent => respects_get fun m host hsince => ?_
  cases m.descriptors.stream? descriptor with
  | none => exact .ok ⟨host, rfl, hsince⟩
  | some stream =>
      obtain ⟨hanswer, hread⟩ := hsince.read stream extent.size
      simp only
      rw [hanswer]
      cases (m.host.read stream extent.size).1 with
      | none => exact .ok ⟨_, rfl, hread⟩
      | some bytes =>
          exact (respects_storeBytes extent bytes).bind (fun _ => Respects.pure _) ⟨_, rfl, hread⟩

theorem respects_closeFile (descriptor : Word) :
    Respects (Kin limits base base') (closeFile descriptor) := by
  refine respects_get fun m host hsince => ?_
  simp only
  cases m.descriptors.close? descriptor with
  | none => exact .ok ⟨host, rfl, hsince⟩
  | some descriptors => exact .ok ⟨host, rfl, hsince⟩

/-- The strings that a template refers to do not come from the host. -/
theorem Kin.format {m n : Machine} (h : Kin limits base base' m n) (template : Bytes)
    (values : List Word) : n.format template values = m.format template values := by
  unfold Machine.format
  congr 1
  funext word
  have hsame := respects_bytesAt word h
  generalize bytesAt word m = first at hsame
  generalize bytesAt word n = second at hsame
  cases hsame with
  | ok => rfl
  | error => rfl

theorem respects_printf (arguments : List Word) :
    Respects (Kin limits base base') (printf arguments) := by
  cases arguments with
  | nil => exact Respects.pure _
  | cons template values =>
      refine (respects_bytesAt template).bind fun bytes => respects_get fun m host hsince => ?_
      have hkin : Kin limits base base' m { m with host, cycleLimit := limits m.cycleLimit } :=
        ⟨host, rfl, hsince⟩
      rw [hkin.format]
      cases m.format bytes values with
      | error error => exact .error hkin
      | ok text =>
          obtain ⟨hsucceeded, hwritten⟩ := hsince.write text
          have hprinted : Kin limits base base' { m with host := (m.host.write text).2 }
              { m with
                host := (host.write text).2
                cycleLimit := limits m.cycleLimit } := ⟨_, rfl, hwritten⟩
          simp only
          rw [hsucceeded]
          exact .ok hprinted

theorem respects_malloc (size : Word) : Respects (Kin limits base base') (malloc size) := by
  refine respects_get fun m host hsince => ?_
  simp only
  cases size.count?.bind m.heap.allocate? with
  | none => exact .ok ⟨host, rfl, hsince⟩
  | some found => exact .ok ⟨host, rfl, hsince⟩

theorem respects_free (pointer : Word) : Respects (Kin limits base base') (free pointer) := by
  refine Respects.ite (fun _ => Respects.pure _) fun _ => respects_get fun m host hsince => ?_
  cases pointer.count? with
  | none => exact .error ⟨host, rfl, hsince⟩
  | some address =>
      simp only
      cases m.heap.release? address with
      | none => exact .error ⟨host, rfl, hsince⟩
      | some found =>
          exact (respects_announce _).bind (fun _ => Respects.pure _) ⟨host, rfl, hsince⟩

theorem respects_memset (pointer value size : Word) :
    Respects (Kin limits base base') (memset pointer value size) :=
  (respects_writable pointer size).bind fun _ =>
    Respects.bind (respects_modify (fun _ _ => rfl) fun _ => rfl) fun _ => Respects.pure _

theorem respects_memcmp (left right size : Word) :
    Respects (Kin limits base base') (memcmp left right size) :=
  (respects_readable left size).bind fun _ => (respects_readable right size).bind fun _ =>
    respects_look (fun _ _ => rfl) fun _ => Respects.pure _

theorem respects_trap (request : Trap) (size : Word) :
    Respects (Kin limits base base') (trap request size) := by
  refine (respects_popArguments size).bind fun arguments => ?_
  cases request with
  | «open» => exact respects_openFile _ _
  | read => exact respects_readInto _ _ _
  | close => exact respects_closeFile _
  | printf => exact respects_printf _
  | malloc => exact respects_malloc _
  | free => exact respects_free _
  | memset => exact respects_memset _ _ _
  | memcmp => exact respects_memcmp _ _ _

theorem respects_execute (instruction : Instruction) :
    Respects (Kin limits base base') (execute instruction) := by
  obtain ⟨opcode, operand⟩ := instruction
  have hgo (action : Action Unit) (h : Respects (Kin limits base base') action) :
      Respects (Kin limits base base') (action >>= fun _ => pure (none : Option Word)) :=
    h.bind fun _ => Respects.pure _
  cases opcode with
  | lea => exact respects_look (fun _ _ => rfl) fun m => hgo _ (respects_load _)
  | imm => exact hgo _ (respects_load _)
  | jmp => exact hgo _ (respects_jump _)
  | call => exact hgo _ (respects_callTo _)
  | jz =>
      refine respects_look (fun _ _ => rfl) fun m => ?_
      exact Respects.ite (fun _ => hgo _ (respects_jump _)) fun _ => Respects.pure _
  | jnz =>
      refine respects_look (fun _ _ => rfl) fun m => ?_
      exact Respects.ite (fun _ => hgo _ (respects_jump _)) fun _ => Respects.pure _
  | ent => exact hgo _ (respects_enterFrame _)
  | adj => exact hgo _ (respects_adjust _)
  | lev => exact hgo _ respects_leaveFrame
  | li => exact hgo _ respects_loadIndirect
  | si => exact hgo _ respects_storeIndirect
  | push => exact respects_look (fun _ _ => rfl) fun m => hgo _ (respects_push _)
  | binary operator => exact hgo _ (respects_combine operator)
  | plac => exact respects_look (fun _ _ => rfl) fun m => Respects.throw _
  | trap request =>
      exact (respects_trap request _).bind fun word => hgo _ (respects_load word)
  | exit => exact respects_look (fun _ _ => rfl) fun m => Respects.pure _

/-! ## Runs -/

/-- What a step does once its cycle is granted. -/
def proceed (tracing : Bool) : Action (Option Word) := do
  modify fun machine => { machine with current := machine.pc }
  match (← get).fetch with
  | .error error => throw error
  | .ok instruction =>
      modify fun machine => { machine with cycles := machine.cycles + 1 }
      if tracing then
        modify fun machine =>
          machine.report (.executing machine.cycles machine.current instruction)
      modify fun machine => { machine with pc := machine.pc + instruction.width }
      execute instruction

theorem step_eq (tracing : Bool) : step tracing = checkCycleLimit >>= fun _ => proceed tracing :=
  rfl

theorem proceed_eq (tracing : Bool) (m : Machine) :
    proceed tracing m =
      match m.fetch with
      | .error error => .error error { m with current := m.pc }
      | .ok instruction => execute instruction (m.advance tracing instruction) := by
  have hfetched : fetch { m with current := m.pc } = m.fetch := rfl
  rw [proceed, modify_bind, get_bind, hfetched]
  cases m.fetch with
  | error error => rfl
  | ok instruction => cases tracing <;> rfl

theorem respects_proceed (tracing : Bool) :
    Respects (Kin limits base base') (proceed tracing) := by
  refine Respects.bind (respects_modify (fun _ _ => rfl) fun _ => rfl) fun _ =>
    respects_look (fun _ _ => rfl) fun m => ?_
  cases m.fetch with
  | error error => exact Respects.throw _
  | ok instruction =>
      refine Respects.bind (respects_modify (fun _ _ => rfl) fun _ => rfl) fun _ => ?_
      have hrest : Respects (Kin limits base base') (do
          modify fun machine => { machine with pc := machine.pc + instruction.width }
          execute instruction) :=
        Respects.bind (respects_modify (fun _ _ => rfl) fun _ => rfl) fun _ =>
          respects_execute instruction
      refine Respects.ite (fun _ => ?_) fun _ => hrest
      refine Respects.bind (Respects.modify ?_) fun _ => hrest
      rintro m _ ⟨host, rfl, hsince⟩
      exact ⟨_, rfl, hsince.report _⟩

/-- Twins are machines of one limit. -/
theorem kin_id : Kin id base base' = Twins base base' := rfl

theorem respects_checkCycleLimit : Respects (Twins base base') checkCycleLimit := by
  rw [← kin_id]
  refine respects_look (fun _ _ => rfl) fun m => ?_
  cases m.cycleLimit with
  | none => exact Respects.pure _
  | some limit => exact Respects.ite (fun _ => Respects.throw _) fun _ => Respects.pure _

theorem respects_step (tracing : Bool) : Respects (Twins base base') (step tracing) := by
  rw [step_eq]
  exact respects_checkCycleLimit.bind fun _ => kin_id ▸ respects_proceed tracing

theorem respects_runSteps (tracing : Bool) (steps : Nat) :
    Respects (Twins base base') (runSteps tracing steps) := by
  induction steps with
  | zero => exact Respects.pure _
  | succ steps ih =>
      refine (respects_step tracing).bind fun result => ?_
      cases result with
      | none => exact ih
      | some result => exact Respects.pure _

theorem respects_run (tracing : Bool) (steps : Nat) :
    Respects (Twins base base') (run tracing steps) := by
  rintro m _ ⟨host, rfl, hsince⟩
  unfold run
  simp only
  by_cases hrunnable : m.status.isRunnable
  · rw [if_neg (not_not_intro hrunnable), if_neg (not_not_intro hrunnable)]
    have hstarted : Twins base base'
        { m.report (.started m.pc m.textEnd) with status := .running }
        { Machine.report { m with host } (.started m.pc m.textEnd) with status := .running } :=
      ⟨_, rfl, hsince.report _⟩
    have hran := respects_runSteps tracing steps hstarted
    revert hran
    generalize runSteps tracing steps _ = first
    generalize runSteps tracing steps _ = second
    intro hran
    cases hran with
    | error hstopped =>
        obtain ⟨host, rfl, hsince⟩ := hstopped
        exact .error ⟨_, rfl, hsince.report _⟩
    | @ok result s t hstopped =>
        obtain ⟨host, rfl, hsince⟩ := hstopped
        cases result with
        | none => exact .ok ⟨host, rfl, hsince⟩
        | some result => exact .ok ⟨_, rfl, hsince.report _⟩
  · rw [if_pos hrunnable, if_pos hrunnable]
    exact .error ⟨host, rfl, hsince⟩

theorem respects_runFrom (entry : Nat) (tracing : Bool) (steps : Nat) :
    Respects (Twins base base') (runFrom entry tracing steps) := by
  rintro m _ ⟨host, rfl, hsince⟩
  unfold runFrom
  simp only
  by_cases hrunnable : m.status.isRunnable
  · rw [if_neg (not_not_intro hrunnable), if_neg (not_not_intro hrunnable)]
    exact respects_run tracing steps ⟨host, rfl, hsince⟩
  · rw [if_pos hrunnable, if_pos hrunnable]
    exact .error ⟨host, rfl, hsince⟩

/-! ## Compiling -/

theorem emission_twins : Machine.Emission (Twins base base') where
  textEnd := by
    rintro m _ ⟨host, rfl, hsince⟩
    rfl
  dataLength := by
    rintro m _ ⟨host, rfl, hsince⟩
    rfl
  emitWord := by
    rintro word m _ ⟨host, rfl, hsince⟩
    unfold emitWord
    simp only
    by_cases hfull : m.layout.text.stop ≤ m.textEnd
    · rw [if_pos hfull, if_pos hfull]
      exact .error ⟨host, rfl, hsince⟩
    · rw [if_neg hfull, if_neg hfull]
      exact .ok ⟨host, rfl, hsince⟩
  patch := by
    rintro address word m _ ⟨host, rfl, hsince⟩
    unfold patch
    simp only
    by_cases hwritten : m.layout.text.start ≤ address ∧ address < m.textEnd
    · rw [if_pos hwritten, if_pos hwritten]
      exact .ok ⟨host, rfl, hsince⟩
    · rw [if_neg hwritten, if_neg hwritten]
      exact .error ⟨host, rfl, hsince⟩
  allocate := by
    rintro words m _ ⟨host, rfl, hsince⟩
    unfold allocate
    simp only
    by_cases hfull : m.layout.data.stop - m.dataEnd < words.length
    · rw [if_pos hfull, if_pos hfull]
      exact .error ⟨host, rfl, hsince⟩
    · rw [if_neg hfull, if_neg hfull]
      exact .ok ⟨host, rfl, hsince⟩
  report := by
    rw [← kin_id]
    exact fun _ _ event h => h.report event

end Machine

end WordC
