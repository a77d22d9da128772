import Mathlib.Data.List.Nodup
import WordC.Proofs.Compile.Offsets
import WordC.Proofs.Program.Invocations

/-!
# Slots never collide

A program lists the parameters and local variables of its functions with their scopes, and a point
of the source knows which scopes are open there. So the list says what is in scope at the point,
shadowed names included, and where in the frame it lies.
-/

namespace WordC

open WordC.Core (Section)
open Compiler (Leaves Reads)
open Symbol.Table (At)
open Syntax (Declaration File Heading Outline Point Stmt parameterOffsets)
open Syntax.Point (Precedes)

variable {source : String} {machine machine' : Machine} {program : Program}

/-- In the body of a function with `arity` parameters, the offset leads to the argument that was
pushed with this index. Below the arguments lie the return address and the saved base pointer. -/
def Machine.Locates (offset : Word) (arity index : Nat) : Prop :=
  ∀ (m : Machine) (arguments : List Word) (target slots : Nat), arguments.length = arity →
    m.CanInvoke arity target slots →
      ∃ m' above, invoke arguments (Word.ofCount target) (Word.ofCount slots) m = .ok () m' ∧
        execute { opcode := .lea, operand := some offset } m' =
          .ok none { m' with acc := Word.ofCount (m'.bp + 2 + above) } ∧
        m'.memory[m'.bp + 2 + above]? = arguments[index]? ∧ index + above + 1 = arity ∧
        m'.memory[m'.bp + 1]? = some (Word.ofCount m.pc) ∧
        m'.memory[m'.bp]? = some (Word.ofCount m.bp)

namespace Program

/-- The parameters and local variables of all functions, in the order of their declarations. -/
def locals (program : Program) : List Symbol :=
  program.symbols.filter Symbol.isLocal

/-- Those that have been declared at a point and whose scopes are open there. -/
def localsAt (program : Program) (p : Point) : List Symbol :=
  (program.locals.take p.declared.length).filter (·.scope ∈ p.scopes)

def parametersAt (program : Program) (arity : Nat) (p : Point) : List Symbol :=
  (program.localsAt p).take arity

/-- The local variables that are in scope behind the parameters. -/
def variablesAt (program : Program) (arity : Nat) (p : Point) : List Symbol :=
  (program.localsAt p).drop arity

/-- Whether the offsets of what is in scope at a point of a function are in order. -/
structure FrameAt (program : Program) (parameters : List String) (p : Point) : Prop where
  /-- The declarations in front of the point are the first symbols. -/
  declared : (program.locals.take p.declared.length).map
    (fun symbol => (symbol.name, symbol.scope)) = p.declared
  distinct : ((program.localsAt p).map (·.value)).Nodup
  names : (program.parametersAt parameters.length p).map (·.name) = parameters
  parameter : ∀ (index : Nat) (symbol : Symbol),
    (program.parametersAt parameters.length p)[index]? = some symbol →
      symbol.value.toInt = (index : Int) - (parameters.length + 1) ∧
        Machine.Locates symbol.value parameters.length index
  locals : (program.variablesAt parameters.length p).map (·.value.toInt) =
    (List.range' 1 (program.variablesAt parameters.length p).length).map Int.ofNat

/-- Whether a function of a program has a frame that fits what is in scope at the points of its
body. -/
structure HasFrame (program : Program) (machine : Machine) (heading : Heading)
    (points : List Point) (entry slots : Nat) : Prop where
  symbol : ∃ symbol ∈ program.symbols, symbol.name = heading.name ∧ symbol.cls = .function ∧
    symbol.value = Word.ofCount entry
  enter : machine.memory[entry]? = some Opcode.ent.word
  operand : machine.memory[entry + 1]? = some (Word.ofCount slots)
  slots : (points.map fun p => (program.variablesAt heading.arity p).length).max? = some slots
  points : ∀ p ∈ points, program.FrameAt heading.parameters.names p

end Program

/-! ## Offsets -/

/-- The offsets of parameters are negative. -/
theorem Word.toInt_parameter {index arity : Nat} (hindex : index < arity)
    (harity : arity + 1 < 2 ^ 63) :
    (ofCount index - (ofCount arity + 1)).toInt = (index : Int) - (arity + 1) := by
  obtain ⟨behind, rfl⟩ : ∃ behind, arity = index + (behind + 1) := ⟨arity - index - 1, by omega⟩
  rw [ofCount_parameter, Int64.toInt_neg, toInt_ofCount (by omega), Int.bmod_eq_of_le (by omega)
    (by omega)]
  omega

theorem Machine.locates_parameter {index arity : Nat} (hindex : index < arity) :
    Machine.Locates (Word.ofCount index - (Word.ofCount arity + 1)) arity index := by
  rintro m arguments target slots rfl hcan
  obtain ⟨m', hok, hinvoked⟩ := Machine.exists_invoked hcan
  have hargument := hinvoked.argument index _ (List.getElem?_eq_getElem hindex)
  have haddress : m'.bp + 1 + (arguments.length - index) =
      m'.bp + 2 + (arguments.length - 1 - index) := by omega
  have hlea := Machine.execute_lea_parameter hindex m'
  rw [haddress] at hargument hlea
  refine ⟨m', arguments.length - 1 - index, hok, hlea, ?_, by omega, hinvoked.back,
    hinvoked.saved⟩
  rw [hargument, List.getElem?_eq_getElem hindex]

theorem Syntax.toInt_slots {used : Nat} (hsmall : used < 2 ^ 63 - 1) :
    (Syntax.slots 0 used).map Int64.toInt = (List.range' 1 used).map Int.ofNat := by
  rw [Syntax.slots, List.map_map]
  refine List.map_congr_left fun slot hslot => ?_
  have hle := (List.mem_range'_1.1 hslot).2
  exact Word.toInt_ofCount (by omega)

/-- The offsets of a frame are different words. -/
theorem Syntax.nodup_offsets {arity used : Nat} (hsmall : arity + used + 1 < 2 ^ 63) :
    (parameterOffsets arity ++ Syntax.slots 0 used).Nodup := by
  have hparameters : (parameterOffsets arity).map Int64.toInt =
      (List.range arity).map fun index : Nat => (index : Int) - (arity + 1) := by
    rw [parameterOffsets, List.map_map]
    refine List.map_congr_left fun index hindex => ?_
    exact Word.toInt_parameter (List.mem_range.1 hindex) (by omega)
  refine List.Nodup.of_map Int64.toInt ?_
  rw [List.map_append, hparameters, toInt_slots (by omega), List.nodup_append]
  refine ⟨.map (fun first second heq => ?_) List.nodup_range,
    .map (fun _ _ => Int.ofNat.inj) (List.nodup_range' 1), ?_⟩
  · have hsame : (first : Int) - (arity + 1) = second - (arity + 1) := heq
    omega
  · rintro first hfirst second hsecond
    obtain ⟨index, hindex, rfl⟩ := List.mem_map.1 hfirst
    obtain ⟨slot, hslot, rfl⟩ := List.mem_map.1 hsecond
    have hlt := List.mem_range.1 hindex
    simp only [Int.ofNat_eq_natCast]
    omega

/-! ## Symbols -/

/-- Symbols with the names and scopes of a point have its entries. -/
theorem Syntax.Point.entries_eq {symbols : List Symbol} {p : Point} {offsets : List Word}
    (hdeclared : symbols.map (fun symbol => (symbol.name, symbol.scope)) = p.declared)
    (hoffsets : symbols.map (·.value) = offsets) :
    p.entries offsets =
      (symbols.filter (·.scope ∈ p.scopes)).map fun symbol => (symbol.name, symbol.value) := by
  rw [entries, ← hdeclared, ← hoffsets, List.zip_map', List.filter_map, List.map_map]
  rfl

namespace Program

theorem locals_eq {table : Symbol.Table} (h : table.symbols = program.symbols) :
    program.locals = table.locals := by
  rw [locals, ← h]
  rfl

variable {table : Symbol.Table} {parameters : List String} {used : Nat} {q r : Point}
  {offsets : List Word}

/-- What is in scope at a point, by the names and offsets of its frame. -/
theorem exists_localsAt (hsymbols : table.symbols = program.symbols) (hat : At r offsets table)
    (h : Precedes parameters used q r offsets) :
    (program.locals.take q.declared.length).map (fun symbol => (symbol.name, symbol.scope)) =
        q.declared ∧
      ∃ locals : List String, locals.length = used ∧
        (program.localsAt q).map (·.name) = parameters ++ locals ∧
        (program.localsAt q).map (·.value) =
          parameterOffsets parameters.length ++ Syntax.slots 0 used := by
  obtain ⟨first, hfirst, hframed⟩ := h.framed
  obtain ⟨locals, hlocals, hentries⟩ := hframed.entries
  have hdeclared : (program.locals.take q.declared.length).map
      (fun symbol => (symbol.name, symbol.scope)) = q.declared := by
    rw [List.map_take, locals_eq hsymbols, hat.declared]
    exact (List.prefix_iff_eq_take.1 h.declared).symm
  have hoffsets : (program.locals.take q.declared.length).map (·.value) = first := by
    rw [List.map_take, locals_eq hsymbols, hat.offsets, ← hframed.length]
    exact (List.prefix_iff_eq_take.1 hfirst).symm
  rw [Syntax.Point.entries_eq hdeclared hoffsets] at hentries
  have hlength : (parameters ++ locals).length =
      (parameterOffsets parameters.length ++ Syntax.slots 0 used).length := by
    rw [List.length_append, List.length_append, Syntax.length_parameterOffsets,
      Syntax.length_slots, hlocals]
  refine ⟨hdeclared, locals, hlocals, ?_, ?_⟩
  · have hnames := congrArg (List.map Prod.fst) hentries
    rw [List.map_map, List.map_fst_zip (Nat.le_of_eq hlength)] at hnames
    exact hnames
  · have hvalues := congrArg (List.map Prod.snd) hentries
    rw [List.map_map, List.map_snd_zip (Nat.le_of_eq hlength.symm)] at hvalues
    exact hvalues

theorem frameAt_of_precedes (hsymbols : table.symbols = program.symbols)
    (hat : At r offsets table) (h : Precedes parameters used q r offsets)
    (hsmall : parameters.length + used + 1 < 2 ^ 63) :
    program.FrameAt parameters q ∧ (program.variablesAt parameters.length q).length = used := by
  obtain ⟨hdeclared, locals, hlocals, hnames, hvalues⟩ := exists_localsAt hsymbols hat h
  have hlength : (program.localsAt q).length = parameters.length + used := by
    rw [← List.length_map (f := fun symbol : Symbol => symbol.name), hnames, List.length_append,
      hlocals]
  have hused : (program.variablesAt parameters.length q).length = used := by
    rw [variablesAt, List.length_drop, hlength, Nat.add_sub_cancel_left]
  refine ⟨{ declared := hdeclared, distinct := ?_, names := ?_, parameter := ?_, locals := ?_ },
    hused⟩
  · rw [hvalues]
    exact Syntax.nodup_offsets hsmall
  · rw [parametersAt, List.map_take, hnames, List.take_left]
  · intro index symbol hindex
    have hlt : index < parameters.length := by
      have hsome := (List.getElem?_eq_some_iff.1 hindex).1
      rw [parametersAt, List.length_take] at hsome
      omega
    rw [parametersAt, List.getElem?_take_of_lt hlt] at hindex
    have hvalue := congrArg (·[index]?) hvalues
    simp only [List.getElem?_map, hindex] at hvalue
    rw [List.getElem?_append_left (by rwa [Syntax.length_parameterOffsets]), parameterOffsets,
      List.getElem?_map, List.getElem?_range hlt] at hvalue
    rw [show symbol.value = Word.ofCount index - (Word.ofCount parameters.length + 1) from
      Option.some.inj hvalue]
    exact ⟨Word.toInt_parameter hlt (by omega), Machine.locates_parameter hlt⟩
  · have hslots : (program.variablesAt parameters.length q).map (·.value) =
        Syntax.slots 0 used := by
      rw [variablesAt, List.map_drop, hvalues]
      exact List.drop_left' (Syntax.length_parameterOffsets _)
    have hints := congrArg (List.map Int64.toInt) hslots
    rw [List.map_map, Syntax.toInt_slots (by omega)] at hints
    rw [hused]
    exact hints

end Program

/-! ## Functions -/

namespace Compiler

variable {file : File} {outline : Outline} {hsound : machine.Sound}

/-- The symbols of a program are those of the point behind its file. -/
theorem Reads.exists_table (hreads : Reads source machine file outline) (hsound : machine.Sound)
    (hok : compile source machine = .ok program machine') :
    ∃ table : Symbol.Table, table.symbols = program.symbols ∧
      At (file.behind .initial) file.offsets table := by
  obtain ⟨compiler, s, hfits, hsymbols, hrun, -⟩ := hreads.exists_run hsound hok
  exact @Compiler.exists_table (Origin.ofSource source machine hsound) _ _ _ _ _
    hreads.grammatical hreads.resolves hfits hsymbols hrun

/-- At the entry of a function stands the instruction that opens its frame. -/
theorem Leaves.exists_entry (hleaves : Leaves machine hsound source outline program machine')
    (hreads : Reads source machine file outline) {name : String} {arity slots : Nat}
    {body : Core.Stmt} (hmem : Section.function name arity slots body ∈ outline.sections) :
    ∃ entry, (∃ symbol ∈ program.symbols, symbol.name = name ∧ symbol.cls = .function ∧
        symbol.value = Word.ofCount entry) ∧
      machine'.memory[entry]? = some Opcode.ent.word ∧
      machine'.memory[entry + 1]? = some (Word.ofCount slots) := by
  obtain ⟨entry, hplaced⟩ := Core.exists_placed hmem (program.entry + 2)
  have hlookup := Core.lookup_entries hreads.valid.nodup hplaced
  obtain ⟨table, -, -, hfunctions⟩ := hleaves.lists.table
  obtain ⟨arity', hdeclared⟩ := hfunctions.declared name
    (.inr (by rw [← hleaves.entry, hlookup]; rfl))
  obtain ⟨symbol, hsymbol, hname, hcls, found, -, -, -, hfound, hvalue⟩ :=
    hleaves.exists_symbol hreads hdeclared
  obtain rfl := Option.some.inj (hlookup.symm.trans hfound)
  have hline : (entry, Core.Instr.withWord .ent (Word.ofCount slots)) ∈
      Core.lines program.entry (Core.programCode program.entry outline.sections) :=
    Core.mem_lines_programCode.2 (.inr (.inl ⟨_, hplaced, List.mem_cons_self⟩))
  obtain ⟨offset, rfl, -, hcells⟩ := Core.getElem?_of_mem_lines hline
  have hword (index : Nat) (word : Word)
      (hcell : (Core.Instr.withWord .ent (Word.ofCount slots)).cells[index]? =
        some (.known word)) : machine'.memory[program.entry + offset + index]? = some word := by
    have hindex := (List.getElem?_eq_some_iff.1 hcell).1
    rw [Nat.add_assoc]
    exact hleaves.getElem?_memory hreads.awaiting ((hcells index hindex).trans hcell)
  exact ⟨_, ⟨symbol, hsymbol, hname, hcls, hvalue⟩, hword 0 _ rfl, hword 1 _ rfl⟩

end Compiler

namespace Syntax

theorem Parameters.length_names_le (parameters : Parameters) :
    parameters.names.length ≤ parameters.tokens.length := by
  cases parameters with
  | void => exact Nat.zero_le _
  | list list =>
      rw [names, tokens, List.length_map]
      refine Nat.le_trans (Nat.le_of_eq (List.length_map _).symm)
        (length_le_separated ?_)
      intro part hmem
      obtain ⟨parameter, -, rfl⟩ := List.mem_map.1 hmem
      exact List.cons_ne_nil _ _

/-- A frame has fewer words than its function has tokens. -/
theorem length_frame_lt (heading : Heading) (declarations : List Declaration) (body : List Stmt) :
    heading.arity + (Stmt.block declarations body).peak 0 + 1 <
      (Item.function heading declarations body).tokens.length := by
  have hnames := heading.parameters.length_names_le
  have hpeak := Stmt.peak_le 0 (Stmt.block declarations body)
  simp only [Item.tokens, Heading.tokens, Heading.arity, List.length_append, List.length_cons]
  omega

end Syntax

/-- Frame slots never collide. A source is text in memory, so a word can count its characters. -/
theorem compile_frames (hsound : machine.Sound) (hsource : source.length < 2 ^ 63)
    (hok : compile source machine = .ok program machine') :
    ∃ tokens file, tokenize source = .ok tokens ∧ tokens.map (·.kind) = Syntax.File.tokens file ∧
      file.isGrammatical ∧
      ∀ (before : File) (heading : Heading) (declarations : List Declaration) (body : List Stmt)
        (after : File), file = before ++ .function heading declarations body :: after →
        ∃ entry slots, program.HasFrame machine' heading
          (heading.points declarations body (before.behind .initial)) entry slots := by
  obtain ⟨file, outline, hreads, hleaves⟩ := Compiler.reads_of_compile hsound hok
  obtain ⟨tokens, htokenize, htokens⟩ := hreads.tokens
  obtain ⟨table, hsymbols, hat⟩ := hreads.exists_table hsound hok
  refine ⟨tokens, file, htokenize, htokens, hreads.grammatical, ?_⟩
  rintro before heading declarations body after rfl
  obtain ⟨statements, hmem⟩ := Outline.exists_section_of_file hreads.resolves
  obtain ⟨entry, hsymbol, henter, hoperand⟩ := hleaves.exists_entry hreads hmem
  have hspans := Point.spans_function before after heading declarations body
  have hsmall : heading.arity + (Stmt.block declarations body).peak 0 + 1 < 2 ^ 63 := by
    have hframe := Syntax.length_frame_lt heading declarations body
    have hlength := length_tokenize_le htokenize
    rw [← List.length_map (f := (·.kind)), htokens, Syntax.File.tokens, List.flatMap_append,
      List.flatMap_cons, List.length_append, List.length_append] at hlength
    omega
  have hframe : ∀ {q used}, used ≤ (Stmt.block declarations body).peak 0 →
      Precedes heading.parameters.names used q _ _ →
      program.FrameAt heading.parameters.names q ∧
        (program.variablesAt heading.arity q).length = used := fun hused hprecedes =>
    Program.frameAt_of_precedes hsymbols hat hprecedes (by unfold Heading.arity at hsmall; omega)
  refine ⟨entry, (Stmt.block declarations body).peak 0,
    { symbol := hsymbol, enter := henter, operand := hoperand, slots := ?_, points := ?_ }⟩
  · obtain ⟨q, hq, hprecedes⟩ := hspans.some
    refine List.max?_eq_some_iff.2
      ⟨List.mem_map.2 ⟨q, hq, (hframe (Nat.le_refl _) hprecedes).2⟩, fun count hcount => ?_⟩
    obtain ⟨p, hp, rfl⟩ := List.mem_map.1 hcount
    obtain ⟨used, hused, hprecedes⟩ := hspans.all p hp
    rw [(hframe hused hprecedes).2]
    exact hused
  · intro p hp
    obtain ⟨used, hused, hprecedes⟩ := hspans.all p hp
    exact (hframe hused hprecedes).1

/-- A function whose parameter and local variable are shadowed in blocks of its body. -/
def nestedCountdown : String :=
  "int down(int n) \x7b int k; k = n; " ++
    "while (k) \x7b int n; n = k - 1; \x7b int k; k = n; \x7d k = n; \x7d return k; \x7d " ++
    "int main() \x7b return down(2); \x7d"

theorem isCompiled_nestedCountdown : isCompiled nestedCountdown Machine.small = true := by
  decide +kernel

theorem compile_frames_countdown : Machine.small.Sound ∧ nestedCountdown.length < 2 ^ 63 ∧
    ∃ program machine', compile nestedCountdown Machine.small = .ok program machine' ∧
      ∃ tokens file, tokenize nestedCountdown = .ok tokens ∧
        tokens.map (·.kind) = Syntax.File.tokens file ∧ file.isGrammatical ∧
        ∀ (before : File) (heading : Heading) (declarations : List Declaration) (body : List Stmt)
          (after : File), file = before ++ .function heading declarations body :: after →
          ∃ entry slots, program.HasFrame machine' heading
            (heading.points declarations body (before.behind .initial)) entry slots := by
  obtain ⟨program, machine', hok⟩ := isCompiled_iff.1 isCompiled_nestedCountdown
  have hlength : nestedCountdown.length < 2 ^ 63 := by decide +kernel
  exact ⟨Machine.sound_small, hlength, program, machine', hok,
    compile_frames Machine.sound_small hlength hok⟩

end WordC
