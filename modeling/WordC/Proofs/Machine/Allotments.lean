import WordC.Proofs.Machine.Pristine
import WordC.Proofs.Machine.Rewinding

/-!
# Data is what it was allocated with

Each allocation writes its words twice, into the data and behind the words that rewinding restores
the data with. Nothing else writes to the second place and only clearing empties it. So whatever has
been allocated, compiled and run on a machine, in whatever order, rewinding has a word for each word
of the used data, and it is the word that was asked for when the data was allocated.
-/

namespace WordC

/-- Overwrites a part of memory, which has to have as many words as are given for it. -/
def Memory.overwrite? (memory : Array Word) (extent : Extent) (words : List Word) :
    Option (Array Word) :=
  if extent.start ≤ extent.stop ∧ extent.stop ≤ memory.size ∧ words.length = extent.size then
    some (copy memory extent.start words)
  else none

namespace Machine

variable {m m' m'' : Machine} {layout : Layout} {start : Nat}

/-! ## Rewinding with checks -/

/-- Rewinds the machine, unless one of the two parts of memory that are overwritten is not of the
right size. -/
def reset? (m : Machine) : Option Machine := do
  let cleared : Extent := { start := m.layout.heap.start, stop := m.layout.stack.stop }
  let data ← Memory.overwrite? m.memory { start := m.layout.data.start, stop := m.dataEnd }
    m.dataImage
  let memory ← Memory.overwrite? data cleared (List.replicate cleared.size 0)
  return { m.reset with memory }

theorem Intact.reset?_eq (h : m.Intact) : m.reset? = some m.reset := by
  have hused : m.dataEnd ≤ m.memory.size := Nat.le_trans h.dataEnd_le_heap h.heap_le_size
  have hcleared : m.layout.heap.start ≤ m.layout.stack.stop := h.size_eq ▸ h.heap_le_size
  have hpool : m.layout.stack.stop ≤
      (Memory.copy m.memory m.layout.data.start m.dataImage).size := by
    rw [Memory.size_copy]
    exact Nat.le_of_eq h.size_eq.symm
  rw [reset?, Memory.overwrite?, if_pos ⟨h.sound.dataStart, hused, h.image⟩, Option.bind_eq_bind,
    Option.bind_some, Memory.overwrite?, if_pos ⟨hcleared, hpool, List.length_replicate⟩,
    reset, Memory.fill_eq_copy]
  rfl

/-! ## Allotments -/

/-- Words that were allocated together and the address that was answered. -/
structure Allotment where
  address : Nat
  words : List Word
deriving DecidableEq

/-- The allotments behind an allocation: one more, unless there is no room. -/
def allot (m : Machine) (log : List Allotment) (words : List Word) : List Allotment :=
  match Machine.allocate words m with
  | .ok address _ => log ++ [{ address, words }]
  | .error _ _ => log

/-- A compiler writes text and allocates data, one step after the other. -/
inductive Writes (m : Machine) (log : List Allotment) : Machine → List Allotment → Prop
  | start : Writes m log m log
  | emit {m' : Machine} {log' : List Allotment} (h : Writes m log m' log') (word : Word) :
      Writes m log (m'.after (emitWord word)) log'
  | patch {m' : Machine} {log' : List Allotment} (h : Writes m log m' log') (address : Nat)
      (word : Word) : Writes m log (m'.after (Machine.patch address word)) log'
  | allocate {m' : Machine} {log' : List Allotment} (h : Writes m log m' log')
      (words : List Word) :
      Writes m log (m'.after (Machine.allocate words)) (m'.allot log' words)
  | report {m' : Machine} {log' : List Allotment} (h : Writes m log m' log') (event : Event) :
      Writes m log (m'.report event) log'

/-- The allotments behind a call. Clearing the machine takes all of them back. -/
def Call.Logs (m : Machine) (log : List Allotment) : Call → List Allotment → Prop
  | .allocate words, log' => log' = m.allot log words
  | .compile source, log' => Writes m log (m.after (WordC.compile source)) log'
  | .clear, log' => log' = []
  | _, log' => log' = log

/-- A machine that has come about by calls, with the allotments in its data. -/
inductive Logged : Machine → List Allotment → Prop
  | create {poolSize : Nat} {host : Host} {m : Machine} (hcreate : create poolSize host = .ok m) :
      Logged m []
  | perform {m : Machine} {log log' : List Allotment} (h : Logged m log) (call : Call)
      (hlogs : call.Logs m log log') : Logged (m.perform call) log'
  | replace {m : Machine} {log : List Allotment} (h : Logged m log) (host : Host) :
      Logged { m with host } log

variable {log log' : List Allotment}

/-- Calls that neither allocate nor compile nor clear keep the allotments. -/
theorem Logged.performAll {calls : List Call} (h : m.Logged log)
    (hcalls : ∀ call ∈ calls, ∀ m, call.Logs m log log) : (m.performAll calls).Logged log := by
  induction calls generalizing m with
  | nil => exact h
  | cons call rest ih =>
      obtain ⟨hcall, hrest⟩ := List.forall_mem_cons.1 hcalls
      exact ih (h.perform call (hcall m)) hrest

/-- Whatever a text is, compiling it comes down to writing and allocating. -/
theorem exists_writes (m : Machine) (log : List Allotment) (source : String) :
    ∃ log', Writes m log (m.after (WordC.compile source)) log' := by
  refine @after_compile m (fun m' => ∃ log', Writes m log m' log') ?_ ?_ ?_ ?_ ⟨log, .start⟩
    source
  · rintro word m' ⟨log', h⟩
    exact ⟨log', h.emit word⟩
  · rintro address word m' ⟨log', h⟩
    exact ⟨log', h.patch address word⟩
  · rintro words m' ⟨log', h⟩
    exact ⟨_, h.allocate words⟩
  · rintro event m' ⟨log', h⟩
    exact ⟨log', h.report event⟩

theorem Call.exists_logs (call : Call) (m : Machine) (log : List Allotment) :
    ∃ log', call.Logs m log log' := by
  cases call with
  | compile source => exact exists_writes m log source
  | _ => exact ⟨_, rfl⟩

theorem Reached.exists_logged (h : m.Reached) : ∃ log, m.Logged log := by
  induction h with
  | create hcreate => exact ⟨[], .create hcreate⟩
  | @perform m _ call ih =>
      obtain ⟨log, hlogged⟩ := ih
      obtain ⟨log', hlogs⟩ := call.exists_logs m log
      exact ⟨log', hlogged.perform call hlogs⟩
  | replace _ host ih =>
      obtain ⟨log, hlogged⟩ := ih
      exact ⟨log, hlogged.replace host⟩

/-- Allotments that lie one behind the other from an address on. -/
def Placed : Nat → List Allotment → Prop
  | _, [] => True
  | start, allotment :: rest =>
      allotment.address = start ∧ Placed (start + allotment.words.length) rest

theorem Placed.concat {words : List Word} (h : Placed start log) :
    Placed start (log ++ [{ address := start + (log.flatMap (·.words)).length, words }]) := by
  induction log generalizing start with
  | nil => exact ⟨rfl, trivial⟩
  | cons allotment rest ih =>
      refine ⟨h.1, ?_⟩
      have hrest := ih h.2
      rwa [Nat.add_assoc, ← List.length_append, ← List.flatMap_cons] at hrest

theorem Placed.getElem?_flatMap (h : Placed start log) {allotment : Allotment}
    (hmem : allotment ∈ log) {index : Nat} {word : Word}
    (hword : allotment.words[index]? = some word) :
    start ≤ allotment.address ∧
      (log.flatMap (·.words))[allotment.address + index - start]? = some word := by
  induction log generalizing start with
  | nil => cases hmem
  | cons first rest ih =>
      obtain ⟨hfirst, hrest⟩ := h
      rw [List.flatMap_cons]
      rcases List.mem_cons.1 hmem with rfl | hmem
      · have hindex := (List.getElem?_eq_some_iff.1 hword).1
        refine ⟨Nat.le_of_eq hfirst.symm, ?_⟩
        rw [hfirst, Nat.add_sub_cancel_left, List.getElem?_append_left hindex]
        exact hword
      · obtain ⟨hbehind, hget⟩ := ih hrest hmem
        refine ⟨by omega, ?_⟩
        rw [List.getElem?_append_right (by omega), ← hget]
        congr 1
        omega

/-! ## Allotments and the words to restore -/

/-- The allotments are what rewinding restores, from the beginning of the data on. -/
structure Accounts (layout : Layout) (m : Machine) (log : List Allotment) : Prop where
  intact : m.IntactWith layout
  image : m.dataImage = log.flatMap (·.words)
  placed : Placed m.layout.data.start log

namespace Accounts

/-- Whatever leaves the words to restore alone. -/
theorem of_image (h : m.Accounts layout log) (hintact : m'.IntactWith layout)
    (himage : m'.dataImage = m.dataImage) : m'.Accounts layout log := by
  refine ⟨hintact, himage.trans h.image, ?_⟩
  rw [hintact.layout, ← h.intact.layout]
  exact h.placed

theorem emitWord (h : m.Accounts layout log) (word : Word) :
    (m.after (emitWord word)).Accounts layout log := by
  refine h.of_image (h.intact.emitWord word) ?_
  rcases after_emitWord m word with hfull | ⟨-, hwritten⟩
  · rw [hfull]
  · rw [hwritten]
    rfl

theorem patch (h : m.Accounts layout log) (address : Nat) (word : Word) :
    (m.after (Machine.patch address word)).Accounts layout log := by
  refine h.of_image (h.intact.patch address word) ?_
  rcases after_patch m address word with hsame | ⟨-, hwritten⟩
  · rw [hsame]
  · rw [hwritten]
    rfl

/-- The used data ends behind the last allotment. -/
theorem dataEnd (h : m.Accounts layout log) :
    m.dataEnd = m.layout.data.start + (log.flatMap (·.words)).length := by
  have hstart := h.intact.intact.sound.dataStart
  have himage := h.intact.intact.image
  rw [h.image, dataLength] at himage
  omega

theorem allocate (h : m.Accounts layout log) (words : List Word) :
    (m.after (Machine.allocate words)).Accounts layout (m.allot log words) := by
  have hintact := h.intact.allocate words
  have hdataEnd := h.dataEnd
  rw [after, Machine.allocate] at hintact ⊢
  rw [allot, Machine.allocate]
  by_cases hfull : m.layout.data.stop - m.dataEnd < words.length
  · rw [if_pos hfull]
    exact h
  · rw [if_neg hfull] at hintact ⊢
    refine ⟨hintact, ?_, ?_⟩
    · simp only [List.flatMap_append, List.flatMap_singleton, h.image]
    · simp only [hdataEnd]
      exact h.placed.concat

theorem report (h : m.Accounts layout log) (event : Event) :
    (m.report event).Accounts layout log :=
  h.of_image (h.intact.report event) rfl

theorem writes (h : m.Accounts layout log) (hwrites : Writes m log m' log') :
    m'.Accounts layout log' := by
  induction hwrites with
  | start => exact h
  | emit _ word ih => exact ih.emitWord word
  | patch _ address word ih => exact ih.patch address word
  | allocate _ words ih => exact ih.allocate words
  | report _ event ih => exact ih.report event

theorem perform (h : m.Accounts layout log) {call : Call} (hlogs : call.Logs m log log') :
    (m.perform call).Accounts layout log' := by
  cases call with
  | emit word =>
      cases hlogs
      exact h.emitWord word
  | patch address word =>
      cases hlogs
      exact h.patch address word
  | allocate words =>
      cases hlogs
      exact h.allocate words
  | compile source => exact h.writes hlogs
  | runFrom entry tracing steps =>
      cases hlogs
      have hrun := h.intact.intact.after_runFrom entry tracing steps
      exact h.of_image (h.intact.runFrom entry tracing steps) hrun.keeps.dataImage
  | reset =>
      cases hlogs
      exact h.of_image h.intact.reset rfl
  | clear =>
      cases hlogs
      exact ⟨h.intact.clear, rfl, trivial⟩
  | setCycleLimit limit =>
      cases hlogs
      exact h.of_image (h.intact.setCycleLimit limit) rfl

end Accounts

theorem Logged.accounts (h : m.Logged log) : ∃ layout, m.Accounts layout log := by
  induction h with
  | @create _ _ m hcreate =>
      obtain ⟨hintact, -⟩ := intact_create hcreate
      refine ⟨m.layout, ⟨hintact, rfl⟩, ?_, trivial⟩
      rw [eq_blank_of_create hcreate]
      rfl
  | perform _ call hlogs ih =>
      obtain ⟨layout, haccounts⟩ := ih
      exact ⟨layout, haccounts.perform hlogs⟩
  | @replace m _ _ host ih =>
      obtain ⟨layout, haccounts⟩ := ih
      have hintact := haccounts.intact.intact
      have hmoved : m.Confined (fun _ => False) { m with host } :=
        hintact.move hintact.sp_bounds hintact.bp_bounds
      exact ⟨layout, haccounts.of_image ⟨hmoved.intact, haccounts.intact.layout⟩ rfl⟩

/-! ## Rewound machines -/

/-- Rewinding copies the words to restore into the used data. -/
theorem Intact.data_reset (h : m.Intact) : m.reset.data = m.dataImage := by
  have hbacked := IntactWith.backed_reset ⟨h, rfl⟩ (Nat.le_refl m.layout.data.start)
  have hstart := h.sound.dataStart
  have himage := h.image
  rw [dataLength] at himage
  refine List.ext_getElem? fun index => ?_
  rw [data, getElem?_words]
  change (if m.layout.data.start + index < m.dataEnd then
    m.reset.memory[m.layout.data.start + index]? else none) = m.dataImage[index]?
  by_cases hindex : m.layout.data.start + index < m.dataEnd
  · rw [if_pos hindex, hbacked.data _ (Nat.le_add_right _ _) hindex]
    exact congrArg (m.dataImage[·]?) (Nat.add_sub_cancel_left _ _)
  · rw [if_neg hindex, List.getElem?_eq_none]
    omega

/-- Every word of an allotment is where it was allocated. -/
theorem Accounts.word?_reset (h : m.Accounts layout log) {allotment : Allotment}
    (hmem : allotment ∈ log) {index : Nat} {word : Word}
    (hword : allotment.words[index]? = some word) :
    m.reset.word? (allotment.address + index) = some word := by
  obtain ⟨hstart, hget⟩ := h.placed.getElem?_flatMap hmem hword
  have hinside := (List.getElem?_eq_some_iff.1 hget).1
  have hdataEnd := h.dataEnd
  have hused : allotment.address + index < m.dataEnd := by omega
  have hbacked := h.intact.backed_reset (Nat.le_refl m.layout.data.start)
  calc m.reset.word? (allotment.address + index)
      = m.dataImage[allotment.address + index - m.layout.data.start]? :=
        hbacked.data _ (Nat.le_add_right_of_le hstart) hused
    _ = some word := by rw [h.image, hget]

/-- What the allotments of a machine are, and what rewinding does about them. -/
structure Restores (m : Machine) (log : List Allotment) : Prop where
  image : m.dataImage.length = m.dataLength
  rewinds : m.reset? = some m.reset
  /-- The used data is made of the allotments and of nothing else. -/
  data : m.reset.data = log.flatMap (·.words)
  holds : ∀ allotment ∈ log, ∀ index word, allotment.words[index]? = some word →
    m.reset.word? (allotment.address + index) = some word
  /-- A global variable is allotted its initial word. -/
  global : ∀ word address m', allocateGlobal word m = .ok address m' →
    m'.Logged (log ++ [{ address, words := [word] }])
  /-- A string is allotted its bytes and a zero. -/
  string : ∀ value address m', allocateString value m = .ok address m' →
    m'.Logged (log ++ [{ address, words := (Text.Utf8.encode value).map Word.ofByte ++ [0] }])
  /-- Without room there is no allotment, and nothing changes. -/
  full : ∀ words error m', allocate words m = .error error m' → m' = m

theorem Logged.allocate (h : m.Logged log) {words : List Word} {address : Nat}
    (hok : Machine.allocate words m = .ok address m') :
    m'.Logged (log ++ [{ address, words := words }]) := by
  have hafter := h.perform (.allocate words) rfl
  rwa [Machine.perform, after_of_ok hok, allot, hok] at hafter

theorem eq_of_allocate_error {words : List Word} {error : Error}
    (h : Machine.allocate words m = .error error m') : m' = m := by
  rw [Machine.allocate] at h
  by_cases hfull : m.layout.data.stop - m.dataEnd < words.length
  · rw [if_pos hfull] at h
    cases h
    rfl
  · rw [if_neg hfull] at h
    cases h

theorem Logged.restores (h : m.Logged log) : m.Restores log := by
  obtain ⟨layout, haccounts⟩ := h.accounts
  have hintact := haccounts.intact.intact
  exact
    { image := hintact.image
      rewinds := hintact.reset?_eq
      data := hintact.data_reset.trans haccounts.image
      holds := fun _ hmem _ _ hword => haccounts.word?_reset hmem hword
      global := fun _ _ _ hok => h.allocate hok
      string := fun _ _ _ hok => h.allocate hok
      full := fun _ _ _ herror => eq_of_allocate_error herror }

/-- On a machine with any past, rewinding succeeds and gives all of the used data the words that it
was allocated with. -/
theorem restores_of_reached (h : m.Reached) :
    (∃ log, m.Logged log) ∧ ∀ log, m.Logged log → m.Restores log :=
  ⟨h.exists_logged, fun _ hlogged => hlogged.restores⟩

/-- A global variable and a string, a program that stores into both, and its run. -/
def overwritten : Machine :=
  (small.performAll [.allocate [5], .allocate [97, 98, 0]]).performAll [
    .emit Opcode.imm.word, .emit 9, .emit Opcode.push.word, .emit Opcode.imm.word, .emit 64,
    .emit Opcode.si.word, .emit Opcode.push.word, .emit Opcode.imm.word, .emit 66,
    .emit Opcode.si.word, .emit Opcode.exit.word, .runFrom 0 false 8]

def overwrittenLog : List Allotment :=
  [{ address := 64, words := [5] }, { address := 65, words := [97, 98, 0] }]

theorem logged_overwritten : overwritten.Logged overwrittenLog := by
  have hglobal : small.allot [] [5] = [{ address := 64, words := [5] }] := by decide +kernel
  have hstring : (small.perform (.allocate [5])).allot [{ address := 64, words := [5] }]
      [97, 98, 0] = overwrittenLog := by decide +kernel
  have hfirst := (Logged.create create_small).perform (.allocate [5]) hglobal.symm
  have hsecond := hfirst.perform (.allocate [97, 98, 0]) hstring.symm
  exact hsecond.performAll (by simp [Call.Logs])

/-- Another word is allocated behind the run, and more words are asked for than there is room. -/
def refused : Machine :=
  (overwritten.perform (.allocate [3])).perform (.allocate (List.replicate 100 1))

theorem restores_of_reached_refused :
    refused.data = [9, 97, 9, 0, 3] ∧ refused.Reached ∧
      refused.Logged (overwrittenLog ++ [{ address := 68, words := [3] }]) ∧
      refused.Restores (overwrittenLog ++ [{ address := 68, words := [3] }]) := by
  have hreached : refused.Reached :=
    ((((Reached.create create_small).performAll _).performAll _).perform _).perform _
  have hword : overwritten.allot overwrittenLog [3] =
      overwrittenLog ++ [{ address := 68, words := [3] }] := by decide +kernel
  have hfull : (overwritten.perform (.allocate [3])).allot
      (overwrittenLog ++ [{ address := 68, words := [3] }]) (List.replicate 100 1) =
      overwrittenLog ++ [{ address := 68, words := [3] }] := by decide +kernel
  have hlogged : refused.Logged (overwrittenLog ++ [{ address := 68, words := [3] }]) :=
    (logged_overwritten.perform (.allocate [3]) hword.symm).perform _ hfull.symm
  exact ⟨by decide +kernel, hreached, hlogged, (restores_of_reached hreached).2 _ hlogged⟩

end Machine

end WordC
