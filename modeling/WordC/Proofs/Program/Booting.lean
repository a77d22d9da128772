import WordC.Proofs.Machine.Pristine
import WordC.Proofs.Program.Globals
import WordC.Proofs.Program.Snapshots

/-!
# Programs start up

Whatever declarations a source has, its program stores the initial values of its globals one after
the other when it is started, and then calls `main`.
-/

namespace WordC

open WordC.Core (Binding Place Section)
open Compiler (Leaves Reads)
open Syntax (Scope)

/-! ## Machines to start on -/

namespace Machine

variable {machine m : Machine} {layout : Layout} {first : Nat}

theorem Prepared.reached (hprepared : machine.Prepared m) (h : machine.Reached) : m.Reached := by
  induction hprepared with
  | compiled => exact h
  | limited _ limit ih => exact ih.perform (.setCycleLimit limit)
  | hosted _ host ih => exact ih.replace host
  | rewound _ entry tracing steps ih =>
      exact (ih.perform (.runFrom entry tracing steps)).perform .reset

/-- The words to restore the data with stay the same, and rewinding restores it. -/
theorem Prepared.backed (hprepared : machine.Prepared m) (h : machine.Backed layout first) :
    m.Backed layout first ∧ m.dataImage = machine.dataImage ∧ m.dataEnd = machine.dataEnd := by
  induction hprepared with
  | compiled => exact ⟨h, rfl, rfl⟩
  | limited _ limit ih =>
      obtain ⟨hbacked, hsame⟩ := ih
      exact ⟨⟨hbacked.intact.setCycleLimit limit, hbacked.start, hbacked.data⟩, hsame⟩
  | @hosted m _ host ih =>
      obtain ⟨hbacked, hsame⟩ := ih
      have hintact := hbacked.intact.intact
      have hmoved : m.Confined (fun _ => False) { m with host } :=
        hintact.move hintact.sp_bounds hintact.bp_bounds
      exact ⟨⟨⟨hmoved.intact, hbacked.intact.layout⟩, hbacked.start, hbacked.data⟩, hsame⟩
  | rewound _ entry tracing steps ih =>
      obtain ⟨hbacked, himage, hdataEnd⟩ := ih
      have hran := hbacked.intact.intact.after_runFrom entry tracing steps
      refine ⟨(hbacked.intact.runFrom entry tracing steps).backed_reset ?_,
        hran.keeps.dataImage.trans himage, hran.keeps.dataEnd.trans hdataEnd⟩
      rw [hran.keeps.layout]
      exact hbacked.start

end Machine

/-! ## Programs without `memset` and `read` -/

/-- Instructions that store to no other words than `SI` and the stack do. -/
def IsPlain (listing : List (Nat × Instruction)) : Prop :=
  ∀ line ∈ listing, line.2.opcode ≠ .trap .memset ∧ line.2.opcode ≠ .trap .read

theorem Decodes.isPlain {address : Nat} {words : List Word} {listing : List (Nat × Instruction)}
    (h : Decodes address words listing)
    (hwords : words.all fun word => Opcode.ofWord? word ≠ some (.trap .memset) ∧
      Opcode.ofWord? word ≠ some (.trap .read)) : IsPlain listing := by
  intro line hline
  obtain ⟨word, hmem, hword⟩ := h.exists_word line hline
  obtain ⟨hmemset, hread⟩ := of_decide_eq_true (List.all_eq_true.1 hwords word hmem)
  exact ⟨fun hopcode => hmemset (hopcode ▸ hword), fun hopcode => hread (hopcode ▸ hword)⟩

namespace Machine

variable {m : Machine} {listing : List (Nat × Instruction)} {entry : Nat} {tracing : Bool}

/-- Only `memset` and `read` could overwrite the stack. -/
theorem Harmless.not_overwritesStack (h : m.Harmless listing tracing) (hplain : IsPlain listing) :
    ¬m.OverwritesStack := by
  rintro ⟨request, count, extent, hfetch, hspan, -⟩
  obtain ⟨instruction, hmem, hfetched⟩ := h.located
  cases hfetch.symm.trans hfetched
  have hnot := hplain _ hmem
  cases request with
  | memset => exact hnot.1 rfl
  | read => exact hnot.2 rfl
  | _ => cases hspan

theorem RunsSafely.sparesStack {start : Machine} (h : start.RunsSafely listing entry tracing)
    (hplain : IsPlain listing) (steps : Nat) : start.SparesStack entry tracing steps := by
  induction steps with
  | zero => exact fun _ hlt => absurd hlt (Nat.not_lt_zero _)
  | succ steps ih =>
      intro fewer hlt m hrun
      have hspares : start.SparesStack entry tracing fewer := fun less hless =>
        ih less (Nat.lt_of_lt_of_le hless (Nat.le_of_lt_succ hlt))
      exact (h.step fewer m hspares hrun).not_overwritesStack hplain

end Machine

/-! ## Compiled programs -/

/-- A variable of the file has an initializer among the sections. -/
theorem Syntax.Initializes.exists_object {globals : Scope Binding} {objects : List Syntax.Object}
    {sections : List Section} (h : Syntax.Initializes globals objects sections) {address : Nat}
    {value : Core.Expr} (hmem : .initializer address value ∈ sections) :
    ∃ object ∈ objects, object.declarator.initial ≠ none ∧
      globals.lookup object.declarator.name = some (.object (.global address)) := by
  induction h with
  | nil => cases hmem
  | function _ ih =>
      rcases List.mem_cons.1 hmem with heq | hmem
      · cases heq
      · exact ih hmem
  | zero _ _ ih =>
      obtain ⟨object, hobject, hrest⟩ := ih hmem
      exact ⟨object, List.mem_cons_of_mem _ hobject, hrest⟩
  | @initial object _ _ _ _ _ _ _ hinitial hlookup _ _ _ ih =>
      rcases List.mem_cons.1 hmem with heq | hmem
      · cases heq
        exact ⟨object, List.mem_cons_self, hinitial ▸ Option.some_ne_none _, hlookup⟩
      · obtain ⟨object, hobject, hrest⟩ := ih hmem
        exact ⟨object, List.mem_cons_of_mem _ hobject, hrest⟩

namespace Compiler

variable {source : String} {machine machine' start : Machine} {program : Program}
  {file : Syntax.File} {outline : Syntax.Outline} {hsound : machine.Sound} {name : String}
  {address : Nat}

/-- A global has a symbol whose value is the address of its word. -/
theorem Leaves.exists_global (hleaves : Leaves machine hsound source outline program machine')
    (hlookup : outline.globals.lookup name = some (.object (.global address))) :
    ∃ symbol ∈ program.symbols, symbol.name = name ∧ symbol.cls = .object ∧
      symbol.isLocal = false ∧ symbol.value = Word.ofCount address := by
  obtain ⟨table, hsymbols, hmodels, -⟩ := hleaves.lists.table
  have hfind : outline.env.find? name = some (.object (.global address)) := by
    change List.findSome? _ [outline.globals, Core.builtins] = _
    rw [List.findSome?_cons, hlookup]
  obtain ⟨symbol, hfound, hcls, hlocal, hvalue⟩ := hmodels.lookup? hfind
  exact ⟨symbol, hsymbols ▸ Symbol.Table.mem_of_lookup? hfound,
    hmodels.indexed.name_of_lookup? hfound, hcls, hlocal, hvalue⟩

/-- A machine that may run has what has been compiled in its text, and nothing on its stack. -/
theorem ready_of_reached (hreached : machine.Reached)
    (hok : compile source machine = .ok program machine') (hprepared : machine'.Prepared start)
    (hrunnable : start.status.isRunnable) :
    (imageOf program machine' machine.dataEnd outline).Ready start := by
  have hcompiled : machine'.Reached := by
    have hafter := hreached.perform (.compile source)
    rwa [Machine.perform, Machine.after_of_ok hok] at hafter
  obtain ⟨layout, hunspent⟩ := hcompiled.unspent
  obtain ⟨hintact, hsteady⟩ := @Image.Steady.of_prepared
    (imageOf program machine' machine.dataEnd outline) _ hunspent.intact.intact hprepared
  have hpristine := (hprepared.reached hcompiled).pristine hrunnable
  have hlayout : start.layout = machine'.layout := hsteady.layout
  exact
    { intact := hintact
      starting :=
        { steady := hsteady
          sp := hpristine.sp.trans (congrArg (·.stack.stop) hlayout)
          bp := hpristine.bp.trans (congrArg (·.stack.stop) hlayout) }
      isRunnable := hrunnable }

/-- Whenever a program is started, its globals are zero. -/
theorem Leaves.zero_of_prepared (hleaves : Leaves machine hsound source outline program machine')
    (hintact : machine.Intact) (hok : compile source machine = .ok program machine')
    (hprepared : machine'.Prepared start)
    (hknown : Syntax.Known file.constants (file.objects []) machine.dataEnd outline.data
      outline.globals)
    (hlookup : outline.globals.lookup name = some (.object (.global address))) :
    start.memory[address]? = some 0 := by
  obtain ⟨hstart, hzero⟩ := hknown.zero name address hlookup
  obtain ⟨hlength, -⟩ := List.getElem?_eq_some_iff.1 hzero
  have hbacked := (Machine.IntactWith.backed ⟨hintact, rfl⟩).compile source
  rw [Machine.after_of_ok hok] at hbacked
  obtain ⟨hprepared, himage, hdataEnd⟩ := hprepared.backed hbacked
  have hstop : address < machine'.dataEnd := by
    rw [hleaves.dataEnd]
    omega
  obtain ⟨frame, compiler, hfits⟩ := hleaves.fits
  have hword : machine'.memory[machine.dataEnd + (address - machine.dataEnd)]? = some 0 :=
    hfits.data _ _ hzero
  rw [Nat.add_sub_cancel' hstart] at hword
  rw [hbacked.getElem?_eq hprepared himage hdataEnd hstart hstop, hword]

end Compiler

/-- What is known of the start of a program, if `file` is its tree and its names stand for
`globals`. -/
structure StartsUp (boot : Boot) (file : Syntax.File) (globals : Scope Binding) : Prop where
  /-- The sections have the initial values of the file in the order of the text. -/
  initials : Syntax.Initializes globals (file.objects []) boot.sections
  /-- Each global has a word of its own. -/
  own : ∀ name other place, globals.lookup name = some (.object place) →
    globals.lookup other = some (.object place) → name = other
  /-- The run comes to one initial value after the other, and then to the call of `main`. -/
  visits : boot.Visits 1 (boot.entry + 2) boot.sections ∨
    ∃ limit, boot.Fails 1 (.cycleLimit limit)
  /-- While no call is open, the run never goes back. -/
  grows : ∀ first last m m', first < last → boot.calls first = [] → boot.Reaches first m →
    boot.calls last = [] → boot.Reaches last m' → m.pc < m'.pc
  /-- A function is entered by a call, and otherwise only returned to. -/
  enters : ∀ n m m' place, boot.Reaches n m → boot.Reaches (n + 1) m' → place ∈ boot.placed →
    place.2.name?.isSome → ¬(Core.extent place).contains m.pc →
    (Core.extent place).contains m'.pc → ∃ instruction, m.fetch = .ok instruction ∧
      (instruction.opcode = .call ∧ m'.pc = place.1 ∨
        instruction.opcode = .lev ∧ boot.calls n = m'.pc :: boot.calls (n + 1))
  /-- A global without an initial value is zero until a function has assigned it. -/
  zero : ∀ n m name address, boot.Reaches n m →
    globals.lookup name = some (.object (.global address)) →
    (∀ object ∈ file.objects [], object.declarator.name = name →
      object.declarator.initial = none) →
    m.memory[address]? = some 0 ∨ boot.Assigned address n

/-- A program stores its initial values in the order of the text before it calls `main`, each in the
word of its global, and does so once. -/
theorem compile_startsUp {source : String} {machine machine' start : Machine} {program : Program}
    (hreached : machine.Reached) (hpool : machine.layout.poolSize < 2 ^ 63)
    (hsource : source.length < 2 ^ 63) (hok : compile source machine = .ok program machine')
    (hprepared : machine'.Prepared start) (hrunnable : start.status.isRunnable)
    (hplain : ∀ listing, Decodes program.entry
      (machine'.words { start := program.entry, stop := machine'.textEnd }) listing →
        IsPlain listing) (tracing : Bool) :
    ∃ tokens file outline, tokenize source = .ok tokens ∧
      tokens.map (·.kind) = Syntax.File.tokens file ∧ file.isGrammatical ∧
      file.resolve? machine.dataEnd .empty = some outline ∧
      Decodes program.entry
        (machine'.words { start := program.entry, stop := machine'.textEnd })
        (Core.listing program.entry outline.sections) ∧
      (∀ name address, outline.globals.lookup name = some (.object (.global address)) →
        ∃ symbol ∈ program.symbols, symbol.name = name ∧ symbol.cls = .object ∧
          symbol.isLocal = false ∧ symbol.value = Word.ofCount address) ∧
      StartsUp { start, entry := program.entry, sections := outline.sections, tracing } file
        outline.globals := by
  obtain ⟨layout, hunspent⟩ := hreached.unspent
  have hintact := hunspent.intact.intact
  obtain ⟨file, outline, hreads, hleaves⟩ := Compiler.reads_of_compile hintact.sound hok
  obtain ⟨tokens, htokenize, htokens⟩ := hreads.tokens
  have hloaded := Compiler.loaded_of_compile hsource hpool hreads hleaves
  have hready : (Compiler.imageOf program machine' machine.dataEnd outline).Ready start :=
    Compiler.ready_of_reached hreached hok hprepared hrunnable
  have hlinked : Syntax.Linked file.constants (file.objects []) (file.functions [])
      machine.dataEnd outline :=
    (Syntax.Linked.empty machine.dataEnd).file
      (fun _ hmem => absurd hmem List.not_mem_nil) hreads.resolves
  have hdecodes : Decodes program.entry
      (machine'.words { start := program.entry, stop := machine'.textEnd })
      (Core.listing program.entry outline.sections) := by
    rw [hleaves.words hreads.awaiting]
    refine Core.decodes_cells fun line hline => ?_
    obtain ⟨inner, -, hproper⟩ := hloaded.proper hline
    exact hproper.isComplete_linked _
  have hlisting := hplain _ hdecodes
  have htour : (Compiler.imageOf program machine' machine.dataEnd outline).Tour start tracing :=
    { loaded := hloaded
      ready := hready
      spares := (Machine.runsSafely_of_safe hready.isRunnable
        (hloaded.safe_started hready tracing)).sparesStack hlisting }
  refine ⟨tokens, file, outline, htokenize, htokens, hreads.grammatical, hreads.resolves, hdecodes,
    fun name address hlookup => hleaves.exists_global hlookup, ?_⟩
  exact
    { initials := hlinked.initials
      own := fun name other place => hlinked.known.names.apart name other place
      visits := htour.visits_program hreads.valid.nodup
      grows := fun first last m m' hlt hnone hrun hnone' hrun' =>
        htour.grows hlt hnone hrun hnone' hrun'
      enters := fun n m m' place hrun hnext hplaced hfunction houtside hinside =>
        htour.enters hrun hnext hplaced hfunction houtside hinside
      zero := fun n m name address hrun hlookup hnone => by
        obtain ⟨hstart, hzero⟩ := hlinked.known.zero name address hlookup
        obtain ⟨hlength, -⟩ := List.getElem?_eq_some_iff.1 hzero
        refine htour.zero_or_assigned hreads.valid.nodup hlisting ?_ (fun value hmem => ?_)
          (hleaves.zero_of_prepared hintact hok hprepared hlinked.known hlookup) hrun
        · change machine.dataEnd ≤ address ∧ address < machine.dataEnd + outline.data.length
          omega
        · obtain ⟨object, hobject, hinitial, hglobal⟩ := hlinked.initials.exists_object hmem
          have hsame := hlinked.known.names.apart _ _ _ hglobal hlookup
          exact hinitial (hnone object hobject hsame) }

/-- A program whose second initial value is computed by a function, which assigns a third global. -/
def initializing : String :=
  "int twice(int n); int first = 3; int third; int second = twice(first); " ++
    "int twice(int n) \x7b third = n; return n + n; \x7d " ++
    "int main() \x7b return second + third; \x7d"

theorem isCompiled_initializing : isCompiled initializing Machine.small = true := by
  decide +kernel

theorem words_initializing : ((Machine.small.after (compile initializing)).words
      { start := Machine.small.textEnd
        stop := (Machine.small.after (compile initializing)).textEnd }).all fun word =>
    Opcode.ofWord? word ≠ some (.trap .memset) ∧ Opcode.ofWord? word ≠ some (.trap .read) := by
  decide +kernel

theorem compile_startsUp_initializing :
    Machine.small.Reached ∧ Machine.small.layout.poolSize < 2 ^ 63 ∧
    initializing.length < 2 ^ 63 ∧
    ∃ program machine', compile initializing Machine.small = .ok program machine' ∧
      machine'.Prepared machine' ∧ machine'.status.isRunnable ∧
      (∀ listing, Decodes program.entry
        (machine'.words { start := program.entry, stop := machine'.textEnd }) listing →
          IsPlain listing) ∧
      ∃ tokens file outline, tokenize initializing = .ok tokens ∧
        tokens.map (·.kind) = Syntax.File.tokens file ∧ file.isGrammatical ∧
        file.resolve? Machine.small.dataEnd .empty = some outline ∧
        Decodes program.entry
          (machine'.words { start := program.entry, stop := machine'.textEnd })
          (Core.listing program.entry outline.sections) ∧
        (∀ name address, outline.globals.lookup name = some (.object (.global address)) →
          ∃ symbol ∈ program.symbols, symbol.name = name ∧ symbol.cls = .object ∧
            symbol.isLocal = false ∧ symbol.value = Word.ofCount address) ∧
        StartsUp
          { start := machine', entry := program.entry, sections := outline.sections,
            tracing := true } file outline.globals := by
  have hlength : initializing.length < 2 ^ 63 := by decide +kernel
  have hreached : Machine.small.Reached := .create Machine.create_small
  obtain ⟨program, machine', hok⟩ := isCompiled_iff.1 isCompiled_initializing
  obtain ⟨file, outline, -, hleaves⟩ := Compiler.reads_of_compile Machine.sound_small hok
  have hafter := Machine.after_of_ok hok
  obtain ⟨frame, compiler, hfits⟩ := hleaves.fits
  have hrunnable : machine'.status.isRunnable := hfits.machine.isRunnable.trans rfl
  have hplain : ∀ listing, Decodes program.entry
      (machine'.words { start := program.entry, stop := machine'.textEnd }) listing →
        IsPlain listing := by
    rw [hleaves.entry, ← hafter]
    exact fun listing hdecodes => hdecodes.isPlain words_initializing
  exact ⟨hreached, by decide, hlength, program, machine', hok, .compiled, hrunnable,
    hplain, compile_startsUp hreached (by decide) hlength hok .compiled hrunnable hplain true⟩

end WordC
