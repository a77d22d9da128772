import WordC.Proofs.Accept.Language
import WordC.Proofs.Target.Listing

/-!
# Nothing is left to patch

The text of a compiled program is the code of its resolved file, and every word of it is known:
jumps lead to instructions of their own section, calls to the entry of the function that was called,
and local addresses lie in the frame.
-/

namespace WordC

open WordC.Core (Context Instr Section)
open Compiler (Reads Leaves Lists)
open Syntax (Outline)

variable {source : String} {machine machine' : Machine} {program : Program} {file : Syntax.File}
  {outline : Outline} {hsound : machine.Sound}

namespace Compiler

theorem Reads.valid (h : Reads source machine file outline) : outline.Valid machine.dataEnd :=
  Syntax.File.valid_of_resolve? (Outline.valid_empty _) h.resolves

/-- Every function that a program calls has a section of its own, and its address is the entry. -/
theorem Reads.exists_section (h : Reads source machine file outline) {name : String} {arity : Nat}
    (hlookup : outline.globals.lookup name = some (.function arity)) (start : Nat) :
    ∃ address slots body,
      (address, .function name arity slots body) ∈ Core.placed start outline.sections ∧
        (Core.entries start outline.sections).lookup name = some address := by
  have hvalid := h.valid
  rcases hvalid.functions name arity hlookup with hawaiting | ⟨slots, body, hmem⟩
  · rw [h.awaiting] at hawaiting
    cases hawaiting
  · obtain ⟨address, hplaced⟩ := Core.exists_placed hmem start
    exact ⟨address, slots, body, hplaced, Core.lookup_entries hvalid.nodup hplaced⟩

/-- Every word of the text is the word of its cell. -/
theorem Leaves.getElem?_memory (h : Leaves machine hsound source outline program machine')
    (hawaiting : outline.awaiting = []) {index : Nat} {cell : Core.Cell}
    (hcell : (Core.cells (Core.programCode program.entry outline.sections))[index]? = some cell) :
    machine'.memory[program.entry + index]? =
      some (cell.word (Core.entries (program.entry + 2) outline.sections)) := by
  rw [h.entry] at hcell ⊢
  obtain ⟨frame, compiler, hfits⟩ := h.fits
  have hwritten := hfits.cells index cell hcell
  cases cell with
  | known word => exact hwritten
  | entry name =>
      rw [Core.Cell.word]
      cases hlookup : (Core.entries (machine.textEnd + 2) outline.sections).lookup name with
      | some target => exact (Core.Cell.writtenAt_of_some hlookup).1 hwritten
      | none =>
          have hpending := (hfits.pending _ ((Core.Cell.writtenAt_of_none hlookup).1 hwritten)).1
          change name ∈ outline.awaiting at hpending
          rw [hawaiting] at hpending
          cases hpending
  | hole =>
      have hmem := List.mem_of_getElem? hcell
      obtain ⟨instr, -, hinstr⟩ := List.mem_flatMap.1 hmem
      obtain ⟨opcode, operand⟩ := instr
      cases operand <;> simp [Instr.cells, Core.Operand.cells] at hinstr

theorem Leaves.textEnd (h : Leaves machine hsound source outline program machine') :
    machine'.textEnd =
      program.entry + Core.size (Core.programCode program.entry outline.sections) := by
  obtain ⟨frame, compiler, hfits⟩ := h.fits
  rw [h.entry]
  exact hfits.textEnd

theorem Leaves.sound (h : Leaves machine hsound source outline program machine') :
    machine'.Sound := by
  obtain ⟨frame, compiler, hfits⟩ := h.fits
  exact hfits.machine.sound

/-- The words of the text. -/
theorem Leaves.words (h : Leaves machine hsound source outline program machine')
    (hawaiting : outline.awaiting = []) :
    machine'.words { start := program.entry, stop := machine'.textEnd } =
      (Core.cells (Core.programCode program.entry outline.sections)).map
        (Core.Cell.word (Core.entries (program.entry + 2) outline.sections)) := by
  apply List.ext_getElem?
  intro index
  rw [Machine.getElem?_words, h.textEnd, ← Core.length_cells, List.getElem?_map]
  cases hcell : (Core.cells (Core.programCode program.entry outline.sections))[index]? with
  | some cell =>
      obtain ⟨hindex, -⟩ := List.getElem?_eq_some_iff.1 hcell
      rw [if_pos (by omega), h.getElem?_memory hawaiting hcell]
      rfl
  | none =>
      have hindex := List.getElem?_eq_none_iff.1 hcell
      rw [if_neg (by omega)]
      rfl

end Compiler

namespace Core

/-- The instructions of a section that begins at the address, without the jump behind an
initializer. -/
def Section.listing (entries : List (String × Nat)) (address : Nat) (part : Section) :
    List (Nat × Instruction) :=
  (lines address (part.body address)).map fun (address, instr) => (address, instr.linked entries)

/-- The jumps with which the start-up code goes on to the next initializer or to the call of
`main`. -/
def startup (start : Nat) (sections : List Section) : List (Nat × Instruction) :=
  ((start, Instr.jump .jmp (nextStart (start + 2) sections)) :: chain (start + 2) sections).map
    fun (address, instr) => (address, instr.linked (entries (start + 2) sections))

end Core

/-- Whether the text of a program has nothing left to patch: `sections` are its functions and
initializers, and `listing` its instructions. -/
structure Program.Patched (program : Program) (machine : Machine) (sections : List Section)
    (listing : List (Nat × Instruction)) : Prop where
  decodes : Decodes program.entry
    (machine.words { start := program.entry, stop := machine.textEnd }) listing
  complete : ∀ line ∈ listing, line.2.opcode ≠ .plac
  jumps : ∀ line ∈ listing, line.2.opcode.isJump = true →
    ∃ target ∈ listing, line.2.operand = some (Word.ofCount target.1)
  /-- Jumps outside of the start-up chain stay in their section. -/
  inside : ∀ line ∈ listing, line.2.opcode.isJump = true →
    line ∈ Core.startup program.entry sections ∨
      ∃ place ∈ Core.placed (program.entry + 2) sections,
        line ∈ place.2.listing (Core.entries (program.entry + 2) sections) place.1 ∧
        ∃ target ∈ place.2.listing (Core.entries (program.entry + 2) sections) place.1,
          target ∈ listing ∧ line.2.operand = some (Word.ofCount target.1)
  /-- The operand of a call is the value of the symbol of the function that the source calls. -/
  calls : ∀ line ∈ Core.lines program.entry (Core.programCode program.entry sections),
    line.2.opcode = .call → ∃ name, line.2 = .call name ∧
      ∃ symbol ∈ program.symbols, symbol.name = name ∧ symbol.cls = .function ∧
        (line.1, { opcode := .call, operand := some symbol.value }) ∈ listing ∧
        ∃ target ∈ listing, symbol.value = Word.ofCount target.1 ∧ target.2.opcode = .ent
  /-- Local addresses lie in the frame of their function. -/
  addresses : ∀ line ∈ listing, line.2.opcode = .lea →
    ∃ address name arity slots body,
      (address, .function name arity slots body) ∈ Core.placed (program.entry + 2) sections ∧
        line ∈ (Section.function name arity slots body).listing
          (Core.entries (program.entry + 2) sections) address ∧
        (address, { opcode := .ent, operand := some (Word.ofCount slots) }) ∈ listing ∧
        ((∃ index, 1 ≤ index ∧ index ≤ slots ∧ line.2.operand = some (Word.ofCount index)) ∨
          ∃ distance, 2 ≤ distance ∧ distance ≤ arity + 1 ∧
            line.2.operand = some (-Word.ofCount distance))
  defined : ∀ symbol ∈ program.symbols, symbol.cls = .function → symbol.defined = true

namespace Core

variable {start : Nat} {sections : List Section}

/-- Instructions of the program come from its code. -/
theorem mem_listing {line : Nat × Instruction} :
    line ∈ listing start sections ↔
      ∃ origin ∈ lines start (programCode start sections),
        line = (origin.1, origin.2.linked (entries (start + 2) sections)) := by
  rw [listing, List.mem_map]
  constructor
  · rintro ⟨origin, horigin, heq⟩
    exact ⟨origin, horigin, heq.symm⟩
  · rintro ⟨origin, horigin, heq⟩
    exact ⟨origin, horigin, heq.symm⟩

theorem mem_listing_of_section {place : Nat × Section} {line : Nat × Instruction}
    (hplaced : place ∈ placed (start + 2) sections)
    (hline : line ∈ place.2.listing (entries (start + 2) sections) place.1) :
    line ∈ listing start sections := by
  obtain ⟨origin, horigin, rfl⟩ := List.mem_map.1 hline
  exact mem_listing.2
    ⟨origin, mem_lines_programCode.2 (.inr (.inl ⟨place, hplaced, horigin⟩)), rfl⟩

theorem operand_linked_of_known {entries : List (String × Nat)} {instr : Instr} {word : Word}
    (h : instr.operand = .known word) : (instr.linked entries).operand = some word := by
  rw [Instr.linked, h]
  rfl

/-- A jump is one of the start-up code or stays in its section. -/
theorem jump_of_mem_listing {line : Nat × Instruction} (hline : line ∈ listing start sections)
    (hjump : line.2.opcode.isJump = true) :
    (line ∈ startup start sections ∧
        ∃ target ∈ listing start sections, line.2.operand = some (Word.ofCount target.1)) ∨
      ∃ place ∈ placed (start + 2) sections,
        line ∈ place.2.listing (entries (start + 2) sections) place.1 ∧
        ∃ target ∈ place.2.listing (entries (start + 2) sections) place.1,
          target ∈ listing start sections ∧
            line.2.operand = some (Word.ofCount target.1) := by
  obtain ⟨origin, horigin, rfl⟩ := mem_listing.1 hline
  rcases mem_lines_programCode.1 horigin with hstartup | ⟨place, hplaced, hbody⟩ | hfinale
  · refine .inl ⟨List.mem_map.2 ⟨origin, List.mem_cons.2 hstartup, rfl⟩, ?_⟩
    have htarget : ∃ target ∈ lines (start + 2) (sectionsCode (start + 2) sections),
        origin.2 = .jump .jmp target.1 := by
      rcases hstartup with rfl | hchain
      · obtain ⟨target, htarget, haddress⟩ := exists_line_nextStart (start + 2) sections
        exact ⟨target, htarget, by rw [haddress]⟩
      · exact exists_line_of_mem_chain hchain
    obtain ⟨target, htarget, heq⟩ := htarget
    refine ⟨(target.1, target.2.linked _), mem_listing.2 ⟨target, ?_, rfl⟩, ?_⟩
    · exact List.mem_cons_of_mem _ htarget
    · rw [heq]
      rfl
  · obtain ⟨target, htarget, hoperand⟩ := Section.exists_line_of_jump hbody hjump
    have hsection := List.mem_map_of_mem (f := fun line : Nat × Instr =>
      (line.1, line.2.linked (entries (start + 2) sections))) htarget
    exact .inr ⟨place, hplaced, List.mem_map_of_mem (f := fun line : Nat × Instr =>
      (line.1, line.2.linked (entries (start + 2) sections))) hbody, _, hsection,
      mem_listing_of_section hplaced hsection, operand_linked_of_known hoperand⟩
  · rcases List.mem_cons.1 hfinale with rfl | hmem
    · cases hjump
    · obtain rfl := List.mem_singleton.1 hmem
      cases hjump

/-- A function's section begins with the instruction that opens its frame. -/
theorem enter_mem_listing {address arity slots : Nat} {name : String} {body : Stmt}
    (hplaced : (address, .function name arity slots body) ∈ placed (start + 2) sections) :
    (address, { opcode := .ent, operand := some (Word.ofCount slots) }) ∈
      listing start sections :=
  mem_listing_of_section hplaced List.mem_cons_self

/-- A local address belongs to a function and to its frame. -/
theorem address_of_mem_listing {context : Context} {line : Nat × Instruction}
    (hsections : ∀ part ∈ sections, part.Valid context) (hline : line ∈ listing start sections)
    (hopcode : line.2.opcode = .lea) :
    ∃ address name arity slots body,
      (address, .function name arity slots body) ∈ placed (start + 2) sections ∧
        line ∈ (Section.function name arity slots body).listing
          (entries (start + 2) sections) address ∧
        (address, { opcode := .ent, operand := some (Word.ofCount slots) }) ∈
          listing start sections ∧
        ((∃ index, 1 ≤ index ∧ index ≤ slots ∧ line.2.operand = some (Word.ofCount index)) ∨
          ∃ distance, 2 ≤ distance ∧ distance ≤ arity + 1 ∧
            line.2.operand = some (-Word.ofCount distance)) := by
  obtain ⟨origin, horigin, rfl⟩ := mem_listing.1 hline
  rcases mem_lines_programCode.1 horigin with
    (rfl | hchain) | ⟨⟨address, part⟩, hplaced, hbody⟩ | hfinale
  · cases hopcode
  · obtain ⟨target, -, heq⟩ := exists_line_of_mem_chain hchain
    rw [heq] at hopcode
    cases hopcode
  · have hproper := Section.allProper_body (hsections part (mem_of_mem_placed hplaced)) origin.2
      (mem_of_mem_lines hbody)
    obtain ⟨place, hplace, hlocal, hoperand⟩ := hproper.address hopcode
    have hlinked := @operand_linked_of_known (entries (start + 2) sections) _ _ hoperand
    cases part with
    | initializer other value =>
        cases place with
        | global address => cases hlocal
        | slot index => exact absurd hplace.2 (Nat.not_le.2 hplace.1)
        | parameter distance => exact absurd hplace.2 (Nat.not_lt.2 hplace.1)
    | function name arity slots body =>
        refine ⟨address, name, arity, slots, body, hplaced, List.mem_map.2 ⟨origin, hbody, rfl⟩,
          enter_mem_listing hplaced, ?_⟩
        cases place with
        | global address => cases hlocal
        | slot index => exact .inl ⟨index, hplace.1, hplace.2, hlinked⟩
        | parameter distance =>
            exact .inr ⟨distance, hplace.1, Nat.lt_succ_iff.1 hplace.2, hlinked⟩
  · rcases List.mem_cons.1 hfinale with rfl | hmem
    · cases hopcode
    · obtain rfl := List.mem_singleton.1 hmem
      cases hopcode

end Core

namespace Compiler

theorem Reads.isSome_main (h : Reads source machine file outline) :
    ((outline.context machine.dataEnd).functions "main").isSome := by
  change (outline.arityOf? "main").isSome
  rw [Outline.arityOf?_eq_some.2 h.main]
  rfl

/-- A function of the file has one symbol, whose value is the address of its section. -/
theorem Leaves.exists_symbol (hleaves : Leaves machine hsound source outline program machine')
    (hreads : Reads source machine file outline) {name : String} {arity : Nat}
    (hlookup : outline.globals.lookup name = some (.function arity)) :
    ∃ symbol ∈ program.symbols, symbol.name = name ∧ symbol.cls = .function ∧
      ∃ address slots body, (address, .function name arity slots body) ∈
          Core.placed (program.entry + 2) outline.sections ∧
        (Core.entries (program.entry + 2) outline.sections).lookup name = some address ∧
        symbol.value = Word.ofCount address := by
  obtain ⟨table, hsymbols, hmodels, hfunctions⟩ := hleaves.lists.table
  have hfind : outline.env.find? name = some (.function arity) := by
    change List.findSome? _ [outline.globals, Core.builtins] = _
    rw [List.findSome?_cons, hlookup]
  obtain ⟨symbol, hfound, hrecords⟩ := hmodels.lookup? hfind
  have hmem := Symbol.Table.mem_of_lookup? hfound
  have hname := hmodels.indexed.name_of_lookup? hfound
  have hentry := hfunctions.entry symbol hmem hrecords.1
  rw [if_neg List.not_mem_nil, hname] at hentry
  obtain ⟨-, address, haddress, hvalue⟩ := hentry
  obtain ⟨found, slots, body, hplaced, hlookupFound⟩ :=
    hreads.exists_section hlookup (program.entry + 2)
  rw [hleaves.entry] at hplaced hlookupFound ⊢
  obtain rfl := Option.some.inj (haddress.symm.trans hlookupFound)
  exact ⟨symbol, hsymbols ▸ hmem, hname, hrecords.1, address, slots, body, hplaced, haddress,
    hvalue⟩

end Compiler

open Compiler

/-- The compiler patches every word of a program that it had to leave open, whatever the machine
holds already. -/
theorem compile_patches {source : String} {machine machine' : Machine} {program : Program}
    (hsound : machine.Sound) (hok : compile source machine = .ok program machine') :
    ∃ tokens file outline, tokenize source = .ok tokens ∧
      tokens.map (·.kind) = Syntax.File.tokens file ∧ file.isGrammatical ∧
      file.resolve? machine.dataEnd Outline.empty = some outline ∧
      program.Patched machine' outline.sections
        (Core.listing program.entry outline.sections) := by
  obtain ⟨file, outline, hreads, hleaves⟩ := reads_of_compile hsound hok
  obtain ⟨tokens, htokenize, htokens⟩ := hreads.tokens
  have hvalid := hreads.valid
  refine ⟨tokens, file, outline, htokenize, htokens, hreads.grammatical, hreads.resolves, ?_⟩
  have hproper := fun line hline =>
    @Core.exists_proper _ program.entry _ hvalid.sections hreads.isSome_main line hline
  refine
    { decodes := ?_
      complete := fun line hline => ?_
      jumps := fun line hline hjump => ?_
      inside := fun line hline hjump => ?_
      calls := fun line hline hopcode => ?_
      addresses := fun line hline hopcode =>
        Core.address_of_mem_listing hvalid.sections hline hopcode
      defined := fun symbol hmem hcls => ?_ }
  · rw [hleaves.words hreads.awaiting]
    refine Core.decodes_cells fun line hline => ?_
    obtain ⟨inner, -, hinstr⟩ := hproper line hline
    exact hinstr.isComplete_linked _
  · obtain ⟨origin, horigin, rfl⟩ := Core.mem_listing.1 hline
    obtain ⟨inner, -, hinstr⟩ := hproper origin horigin
    exact hinstr.patched
  · rcases Core.jump_of_mem_listing hline hjump with
      ⟨-, htarget⟩ | ⟨place, hplaced, -, target, -, htarget, hoperand⟩
    · exact htarget
    · exact ⟨target, htarget, hoperand⟩
  · exact (Core.jump_of_mem_listing hline hjump).imp_left And.left
  · obtain ⟨inner, hinner, hinstr⟩ := hproper line hline
    obtain ⟨name, hname⟩ := hinstr.call hopcode
    have hsome := (hinstr.callee name (by rw [hname]; rfl)).2
    rw [hinner] at hsome
    obtain ⟨arity, harity⟩ := Option.isSome_iff_exists.1 hsome
    obtain ⟨symbol, hmem, hsymbol, hcls, address, slots, body, hplaced, hentry, hvalue⟩ :=
      hleaves.exists_symbol hreads (Outline.arityOf?_eq_some.1 harity)
    refine ⟨name, hname, symbol, hmem, hsymbol, hcls, ?_, _, Core.enter_mem_listing hplaced, hvalue,
      rfl⟩
    refine Core.mem_listing.2 ⟨line, hline, ?_⟩
    rw [hname, hvalue]
    simp [Instr.linked, Instr.call, Core.Operand.word?, hentry]
  · obtain ⟨table, hsymbols, -, hfunctions⟩ := hleaves.lists.table
    have hentry := hfunctions.entry symbol (hsymbols ▸ hmem) hcls
    rw [if_neg List.not_mem_nil] at hentry
    exact hentry.1

theorem compile_patches_countdown :
    Machine.small.Sound ∧ ∃ program machine',
      compile countdown Machine.small = .ok program machine' ∧
        ∃ tokens file outline, tokenize countdown = .ok tokens ∧
          tokens.map (·.kind) = Syntax.File.tokens file ∧ file.isGrammatical ∧
          file.resolve? Machine.small.dataEnd Outline.empty = some outline ∧
          program.Patched machine' outline.sections
            (Core.listing program.entry outline.sections) := by
  obtain ⟨program, machine', hok⟩ := isCompiled_iff.1 isCompiled_countdown
  exact ⟨Machine.sound_small, program, machine', hok, compile_patches Machine.sound_small hok⟩

end WordC
