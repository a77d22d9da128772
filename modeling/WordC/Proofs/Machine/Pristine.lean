import WordC.Proofs.Machine.Calls
import WordC.Proofs.Machine.Counting

/-!
# A machine runs once

A machine that may run has its registers where a run begins, and nothing is on its stack, on its
heap or open. Text and data may be written into it, but a run uses it up: after that, only
rewinding or clearing makes it run again, and both leave nothing of the run behind.
-/

namespace WordC.Machine

variable {m m' : Machine} {layout : Layout} {tracing : Bool} {entry steps : Nat}

/-! ## Machines that are used -/

/-- A machine that has come about by calls alone. Between two calls the host may change. -/
inductive Reached : Machine → Prop
  | create {poolSize : Nat} {host : Host} {m : Machine} (hcreate : create poolSize host = .ok m) :
      Reached m
  | perform {m : Machine} (h : Reached m) (call : Call) : Reached (m.perform call)
  | replace {m : Machine} (h : Reached m) (host : Host) : Reached { m with host }

theorem Reached.performAll (h : m.Reached) (calls : List Call) : (m.performAll calls).Reached := by
  induction calls generalizing m with
  | nil => exact h
  | cons call rest ih => exact ih (h.perform call)

/-! ## Running from where the machine stands -/

theorem run_eq_runFrom (m : Machine) (tracing : Bool) (steps : Nat) :
    run tracing steps m = runFrom m.pc tracing steps m := by
  by_cases hrunnable : m.status.isRunnable
  · rw [runFrom, if_neg (not_not_intro hrunnable)]
  · rw [run, runFrom, if_pos hrunnable, if_pos hrunnable]

theorem runFrom_of_not_runnable (h : ¬m.status.isRunnable) :
    runFrom entry tracing steps m = .error (.notRunnable m.status) m := by
  rw [runFrom, if_pos h]

theorem run_of_not_runnable (h : ¬m.status.isRunnable) :
    run tracing steps m = .error (.notRunnable m.status) m := by
  rw [run, if_pos h]

/-- A run that is over has left its mark, and one that is cut short is still going. -/
theorem status_of_runFrom (h : m.status.isRunnable) :
    match runFrom entry tracing steps m with
    | .ok none m' => m'.status = .running
    | .ok (some _) m' => m'.status = .halted
    | .error _ m' => m'.status = .faulted := by
  rw [runFrom_eq h]
  cases hrun : runSteps tracing steps (m.started entry) with
  | error error stopped => rfl
  | ok result stopped =>
      cases result with
      | some word => rfl
      | none => exact status_of_going hrun

theorem not_runnable_of_runFrom : ¬(m.after (runFrom entry tracing steps)).status.isRunnable := by
  by_cases hrunnable : m.status.isRunnable
  · have hstatus := @status_of_runFrom m tracing entry steps hrunnable
    unfold after
    cases hrun : runFrom entry tracing steps m with
    | error error stopped =>
        rw [hrun] at hstatus
        exact fun h => by cases hstatus.symm ▸ h
    | ok result stopped =>
        rw [hrun] at hstatus
        cases result <;> exact fun h => by cases hstatus.symm ▸ h
  · rw [after, runFrom_of_not_runnable hrunnable]
    exact hrunnable

/-! ## Pristine machines -/

/-- Nothing is left of any run. -/
structure Pristine (m : Machine) : Prop where
  pc : m.pc = m.layout.text.start
  sp : m.sp = m.layout.stack.stop
  bp : m.bp = m.layout.stack.stop
  acc : m.acc = 0
  cycles : m.cycles = 0
  zeros : ∀ address, m.layout.heap.start ≤ address → address < m.layout.stack.stop →
    m.memory[address]? = some 0
  heap : m.heap = .ofRegion m.layout.heap
  handles : m.descriptors.handles = []
  next : m.descriptors.next = 3

/-- Writing text and data does not reach the heap. -/
theorem Pristine.write (h : m.Pristine) {memory : Array Word}
    (hmemory : ∀ address, m.layout.heap.start ≤ address → memory[address]? = m.memory[address]?)
    {textEnd dataEnd : Nat} {dataImage : List Word} {status : Status} :
    Pristine { m with memory, textEnd, dataEnd, dataImage, status } :=
  { h with
    zeros := fun address hstart hstop =>
      (hmemory address hstart).trans (h.zeros address hstart hstop) }

theorem pristine_blank (layout : Layout) (limit : Option Nat) (host : Host) :
    (blank layout limit host).Pristine where
  pc := rfl
  sp := rfl
  bp := rfl
  acc := rfl
  cycles := rfl
  zeros := by
    intro address _ hstop
    exact Array.getElem?_replicate.trans (if_pos hstop)
  heap := rfl
  handles := rfl
  next := rfl

theorem Intact.pristine_reset (h : m.Intact) : m.reset.Pristine where
  pc := rfl
  sp := rfl
  bp := rfl
  acc := rfl
  cycles := rfl
  zeros := by
    intro address hstart hstop
    have hsize := h.size_eq
    change m.layout.heap.start ≤ address at hstart
    change address < m.layout.stack.stop at hstop
    simp only [reset, Memory.getElem?_fill, Memory.size_copy]
    rw [if_pos (by omega)]
  heap := rfl
  handles := rfl
  next := rfl

/-- An intact machine that is pristine if it may run. -/
structure Unspent (layout : Layout) (m : Machine) : Prop where
  intact : m.IntactWith layout
  pristine : m.status.isRunnable → m.Pristine

namespace Unspent

theorem emitWord (h : m.Unspent layout) (word : Word) :
    (m.after (emitWord word)).Unspent layout := by
  refine ⟨h.intact.emitWord word, ?_⟩
  rcases after_emitWord m word with hfull | ⟨hroom, hwritten⟩
  · rw [hfull]
    exact h.pristine
  · rw [hwritten]
    intro hrunnable
    have hbefore : m.status.isRunnable := by
      simp only at hrunnable
      split at hrunnable
      · next hidle =>
          rw [hidle]
          rfl
      · exact hrunnable
    have hheap := h.intact.intact.sound.ordered.text_le_heap
    refine (h.pristine hbefore).write fun address hstart => ?_
    exact Array.getElem?_setIfInBounds_ne (by omega)

theorem patch (h : m.Unspent layout) (address : Nat) (word : Word) :
    (m.after (patch address word)).Unspent layout := by
  refine ⟨h.intact.patch address word, ?_⟩
  rcases after_patch m address word with hsame | ⟨hinside, hwritten⟩
  · rw [hsame]
    exact h.pristine
  · rw [hwritten]
    intro hrunnable
    have hstop := h.intact.intact.sound.textStop
    have hheap := h.intact.intact.sound.ordered.text_le_heap
    refine (h.pristine hrunnable).write fun other hstart => ?_
    exact Array.getElem?_setIfInBounds_ne (by omega)

theorem allocate (h : m.Unspent layout) (words : List Word) :
    (m.after (allocate words)).Unspent layout := by
  refine ⟨h.intact.allocate words, ?_⟩
  rcases after_allocate m words with hfull | ⟨hroom, hwritten⟩
  · rw [hfull]
    exact h.pristine
  · rw [hwritten]
    intro hrunnable
    have hdataStop := h.intact.intact.sound.dataStop
    have hheap := h.intact.intact.sound.ordered.heap
    refine (h.pristine hrunnable).write fun address hstart => ?_
    rw [Memory.getElem?_copy, if_neg (by omega)]

theorem report (h : m.Unspent layout) (event : Event) : (m.report event).Unspent layout :=
  ⟨h.intact.report event, fun hrunnable => { h.pristine hrunnable with }⟩

theorem compile (h : m.Unspent layout) (source : String) :
    (m.after (WordC.compile source)).Unspent layout :=
  after_compile (fun word _ hm => hm.emitWord word) (fun address word _ hm => hm.patch address word)
    (fun words _ hm => hm.allocate words) (fun event _ hm => hm.report event) h source

theorem perform (h : m.Unspent layout) (call : Call) : (m.perform call).Unspent layout := by
  cases call with
  | emit word => exact h.emitWord word
  | patch address word => exact h.patch address word
  | allocate words => exact h.allocate words
  | compile source => exact h.compile source
  | runFrom entry tracing steps =>
      exact ⟨h.intact.runFrom entry tracing steps,
        fun hrunnable => absurd hrunnable not_runnable_of_runFrom⟩
  | reset => exact ⟨h.intact.reset, fun _ => h.intact.intact.pristine_reset⟩
  | clear =>
      refine ⟨h.intact.clear, fun _ => ?_⟩
      rw [Machine.perform, clear_eq_blank h.intact.intact]
      exact pristine_blank ..
  | setCycleLimit limit =>
      exact ⟨h.intact.setCycleLimit limit, fun hrunnable => { h.pristine hrunnable with }⟩

end Unspent

theorem Reached.unspent (h : m.Reached) : ∃ layout, m.Unspent layout := by
  induction h with
  | @create _ _ m hcreate =>
      obtain ⟨hintact, -⟩ := intact_create hcreate
      refine ⟨m.layout, ⟨hintact, rfl⟩, fun _ => ?_⟩
      rw [eq_blank_of_create hcreate]
      exact pristine_blank ..
  | perform _ call ih =>
      obtain ⟨layout, hunspent⟩ := ih
      exact ⟨layout, hunspent.perform call⟩
  | @replace m _ host ih =>
      obtain ⟨layout, hunspent⟩ := ih
      have hmoved : m.Confined (fun _ => False) { m with host } :=
        hunspent.intact.intact.move hunspent.intact.intact.sp_bounds
          hunspent.intact.intact.bp_bounds
      exact ⟨layout, ⟨hmoved.intact, hunspent.intact.layout⟩,
        fun hrunnable => { hunspent.pristine hrunnable with }⟩

theorem Reached.pristine (h : m.Reached) (hrunnable : m.status.isRunnable) : m.Pristine := by
  obtain ⟨layout, hunspent⟩ := h.unspent
  exact hunspent.pristine hrunnable

/-! ## Machines that have run -/

/-- What may become of a machine that is neither rewound nor cleared. -/
inductive Follows (m : Machine) : Machine → Prop
  | refl : Follows m m
  | perform {n : Machine} (h : Follows m n) (call : Call) (hreset : call ≠ .reset)
      (hclear : call ≠ .clear) : Follows m (n.perform call)
  | run {n : Machine} (h : Follows m n) (tracing : Bool) (steps : Nat) :
      Follows m (n.after (run tracing steps))
  | replace {n : Machine} (h : Follows m n) (host : Host) : Follows m { n with host }

/-- Writing the first word makes an idle machine a loaded one. It changes no other status. -/
theorem status_emitWord (h : ¬m.status.isRunnable) (word : Word) :
    (m.after (emitWord word)).status = m.status := by
  have hidle : m.status ≠ .idle := fun hidle => h (hidle ▸ rfl)
  rcases after_emitWord m word with hfull | ⟨-, hwritten⟩
  · rw [hfull]
  · rw [hwritten]
    exact if_neg hidle

theorem status_patch (m : Machine) (address : Nat) (word : Word) :
    (m.after (patch address word)).status = m.status := by
  rcases after_patch m address word with hsame | ⟨-, hwritten⟩
  · rw [hsame]
  · rw [hwritten]
    rfl

theorem status_allocate (m : Machine) (words : List Word) :
    (m.after (allocate words)).status = m.status := by
  rcases after_allocate m words with hfull | ⟨-, hwritten⟩
  · rw [hfull]
  · rw [hwritten]

theorem status_compile (h : ¬m.status.isRunnable) (source : String) :
    (m.after (compile source)).status = m.status := by
  refine @after_compile m (fun m' => m'.status = m.status) ?_ ?_ ?_ (fun _ _ hsame => hsame) rfl
    source
  · intro word m' hsame
    exact (status_emitWord (hsame ▸ h) word).trans hsame
  · intro address word m' hsame
    exact (status_patch m' address word).trans hsame
  · intro words m' hsame
    exact (status_allocate m' words).trans hsame

/-- Only rewinding and clearing make a machine run again. -/
theorem status_perform (h : ¬m.status.isRunnable) {call : Call} (hreset : call ≠ .reset)
    (hclear : call ≠ .clear) : (m.perform call).status = m.status := by
  cases call with
  | emit word => exact status_emitWord h word
  | patch address word => exact status_patch m address word
  | allocate words => exact status_allocate m words
  | compile source => exact status_compile h source
  | runFrom entry tracing steps =>
      rw [perform, after, runFrom_of_not_runnable h]
  | reset => exact absurd rfl hreset
  | clear => exact absurd rfl hclear
  | setCycleLimit limit => rfl

theorem Follows.status (h : ¬m.status.isRunnable) {later : Machine} (hlater : m.Follows later) :
    later.status = m.status := by
  induction hlater with
  | refl => rfl
  | perform _ call hreset hclear ih => exact (status_perform (ih ▸ h) hreset hclear).trans ih
  | @run between _ tracing steps ih =>
      rw [after, run_of_not_runnable (ih ▸ h)]
      exact ih
  | replace _ host ih => exact ih

/-! ## One run -/

/-- What is known of a machine from its status alone. -/
structure RunsOnce (m : Machine) : Prop where
  pristine : m.status.isRunnable → m.Pristine
  /-- A run that is over leaves the machine halted if it gave a word, and faulted if it failed. -/
  halts : ∀ entry tracing steps word halted, m.status.isRunnable →
    (run tracing steps m = .ok (some word) halted ∨
      runFrom entry tracing steps m = .ok (some word) halted) → halted.status = .halted
  faults : ∀ entry tracing steps error faulted, m.status.isRunnable →
    (run tracing steps m = .error error faulted ∨
      runFrom entry tracing steps m = .error error faulted) → faulted.status = .faulted
  /-- Then it refuses to run and stays as it is, whatever is written into it in the meantime. -/
  refuses : m.status = .halted ∨ m.status = .faulted → ∀ later, m.Follows later →
    later.status = m.status ∧
    ∀ entry tracing steps, run tracing steps later = .error (.notRunnable m.status) later ∧
      runFrom entry tracing steps later = .error (.notRunnable m.status) later
  rewound : m.reset.status = .idle ∧ m.reset.Pristine
  cleared : m.clear.status = .idle ∧ m.clear.Pristine

/-- A machine that may run is as good as new, apart from its text and data, and it runs once. -/
theorem runsOnce_of_reached (h : m.Reached) : m.RunsOnce := by
  obtain ⟨layout, hunspent⟩ := h.unspent
  refine ⟨hunspent.pristine, ?_, ?_, ?_, ?_, ?_⟩
  · intro entry tracing steps word halted hrunnable hhalted
    rw [run_eq_runFrom] at hhalted
    rcases hhalted with hhalted | hhalted
    · have hstatus := @status_of_runFrom m tracing m.pc steps hrunnable
      rwa [hhalted] at hstatus
    · have hstatus := @status_of_runFrom m tracing entry steps hrunnable
      rwa [hhalted] at hstatus
  · intro entry tracing steps error faulted hrunnable hfaulted
    rw [run_eq_runFrom] at hfaulted
    rcases hfaulted with hfaulted | hfaulted
    · have hstatus := @status_of_runFrom m tracing m.pc steps hrunnable
      rwa [hfaulted] at hstatus
    · have hstatus := @status_of_runFrom m tracing entry steps hrunnable
      rwa [hfaulted] at hstatus
  · intro hover later hlater
    have hspent : ¬m.status.isRunnable := by
      rcases hover with hover | hover <;> exact hover ▸ Bool.false_ne_true
    have hsame := hlater.status hspent
    refine ⟨hsame, fun entry tracing steps => ?_⟩
    rw [← hsame]
    exact ⟨run_of_not_runnable (hsame ▸ hspent), runFrom_of_not_runnable (hsame ▸ hspent)⟩
  · exact ⟨rfl, (hunspent.perform .reset).pristine rfl⟩
  · exact ⟨rfl, (hunspent.perform .clear).pristine rfl⟩

/-- A machine with a program of two instructions: it loads a word and exits with it. -/
def exiting : Machine :=
  small.performAll [.emit Opcode.imm.word, .emit 7, .emit Opcode.exit.word]

/-- A machine that has run a program and got another instruction since. -/
theorem runsOnce_exiting :
    (exiting.performAll [.runFrom 0 false 2, .emit Opcode.exit.word]).status = .halted ∧
    (exiting.performAll [.runFrom 0 false 2, .emit Opcode.exit.word]).Reached ∧
    (exiting.performAll [.runFrom 0 false 2, .emit Opcode.exit.word]).RunsOnce := by
  have hreached : (exiting.performAll [.runFrom 0 false 2, .emit Opcode.exit.word]).Reached :=
    ((Reached.create create_small).performAll _).performAll _
  exact ⟨by decide +kernel, hreached, runsOnce_of_reached hreached⟩

end WordC.Machine
