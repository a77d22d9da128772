import WordC.Proofs.Machine.Decoding
import WordC.Proofs.Target.Draft
import WordC.Proofs.Target.Lines

/-!
# The listing of a program

A program is its sections, one behind the other, and the start-up code that leads from initializer
to initializer and ends with the call of `main`. Once the entries of functions are known, calls get
them for operands.
-/

namespace WordC.Core

variable {context : Context} {start : Nat} {sections : List Section}

/-! ## Sections and their places -/

/-- Sections with the addresses at which they begin. -/
def placed (start : Nat) : List Section → List (Nat × Section)
  | [] => []
  | part :: rest => (start, part) :: placed (start + part.width start) rest

/-- The code of a section without the jump of the start-up code behind it. -/
def Section.body (start : Nat) : Section → List Instr
  | function _ _ slots body => functionCode start slots body
  | initializer address value => initializerCode start address value

/-- The jumps of the start-up code behind the initializers. -/
def chain (start : Nat) : List Section → List (Nat × Instr)
  | [] => []
  | .function name arity slots body :: rest =>
      chain (start + (Section.function name arity slots body).width start) rest
  | .initializer address value :: rest =>
      let stop := start + (Section.initializer address value).width start
      (start + size (Section.initializerCode start address value),
        .jump .jmp (nextStart stop rest)) :: chain stop rest

theorem Section.size_code (start next : Nat) (part : Section) :
    size (part.code start next) = part.width start := by
  cases part with
  | function name arity slots body => rfl
  | initializer address value => simp [width, code]

theorem mem_placed_iff {address : Nat} {part : Section} {rest : List Section}
    {place : Nat × Section} :
    place ∈ placed address (part :: rest) ↔
      place = (address, part) ∨ place ∈ placed (address + part.width address) rest :=
  List.mem_cons

/-- An instruction of the sections belongs to one of them, to the start-up chain or to its end. -/
theorem mem_lines_sectionsCode {line : Nat × Instr} :
    line ∈ lines start (sectionsCode start sections) ↔
      (∃ place ∈ placed start sections, line ∈ lines place.1 (place.2.body place.1)) ∨
        line ∈ chain start sections ∨ line ∈ lines (sectionsStop start sections) finale := by
  induction sections generalizing start with
  | nil => simp [sectionsCode, placed, chain, sectionsStop]
  | cons part rest ih =>
      have hplaced : (∃ place ∈ placed start (part :: rest),
          line ∈ lines place.1 (place.2.body place.1)) ↔
          line ∈ lines start (part.body start) ∨
            ∃ place ∈ placed (start + part.width start) rest,
              line ∈ lines place.1 (place.2.body place.1) := by
        simp [placed]
      rw [sectionsCode, lines_append, List.mem_append, Section.size_code, ih, hplaced]
      cases part with
      | function name arity slots body =>
          rw [chain, sectionsStop, or_assoc]
          rfl
      | initializer address value =>
          rw [chain, sectionsStop, Section.code, lines_append, List.mem_append, List.mem_cons]
          simp only [lines, List.mem_singleton, or_assoc]
          exact or_congr_right or_left_comm

theorem mem_of_mem_placed {place : Nat × Section} (h : place ∈ placed start sections) :
    place.2 ∈ sections := by
  induction sections generalizing start with
  | nil => cases h
  | cons first rest ih =>
      rcases mem_placed_iff.1 h with rfl | hmem
      · exact List.mem_cons_self
      · exact List.mem_cons_of_mem _ (ih hmem)

theorem mem_lines_programCode {line : Nat × Instr} :
    line ∈ lines start (programCode start sections) ↔
      (line = (start, .jump .jmp (nextStart (start + 2) sections)) ∨
          line ∈ chain (start + 2) sections) ∨
        (∃ place ∈ placed (start + 2) sections, line ∈ lines place.1 (place.2.body place.1)) ∨
        line ∈ lines (sectionsStop (start + 2) sections) finale := by
  rw [programCode, lines, List.mem_cons]
  change _ ∨ line ∈ lines (start + 2) _ ↔ _
  rw [mem_lines_sectionsCode, or_assoc]
  exact or_congr_right or_left_comm

/-! ## Entries -/

/-- The names of functions among sections. -/
def names (sections : List Section) : List String :=
  sections.filterMap Section.name?

/-- A function among sections with different names has the address of its section as its entry. -/
theorem lookup_entries (hnodup : (names sections).Nodup) {address arity slots : Nat} {name : String}
    {body : Stmt} (h : (address, .function name arity slots body) ∈ placed start sections) :
    (entries start sections).lookup name = some address := by
  induction sections generalizing start with
  | nil => cases h
  | cons part rest ih =>
      rcases mem_placed_iff.1 h with heq | hmem
      · cases heq
        rw [entries, List.lookup_cons_self]
      · have hrest := ih (hnodup.sublist ((List.sublist_cons_self part rest).filterMap _)) hmem
        cases part with
        | initializer other value => exact hrest
        | function other otherArity otherSlots otherBody =>
            have hname : name ∈ names rest := by
              exact List.mem_filterMap.2 ⟨_, mem_of_mem_placed hmem, rfl⟩
            have hne : (name == other) = false := by
              have := (List.nodup_cons.1 hnodup).1
              rw [beq_eq_false_iff_ne]
              rintro rfl
              exact this hname
            rw [entries, List.lookup_cons, hne]
            exact hrest

theorem exists_placed {part : Section} (h : part ∈ sections) (start : Nat) :
    ∃ address, (address, part) ∈ placed start sections := by
  induction sections generalizing start with
  | nil => cases h
  | cons first rest ih =>
      rcases List.mem_cons.1 h with rfl | hmem
      · exact ⟨start, List.mem_cons_self⟩
      · obtain ⟨address, hplaced⟩ := ih hmem (start + first.width start)
        exact ⟨address, List.mem_cons_of_mem _ hplaced⟩

/-! ## Jumps -/

/-- The start-up code goes on at an instruction. -/
theorem exists_line_nextStart (start : Nat) (sections : List Section) :
    ∃ line ∈ lines start (sectionsCode start sections), line.1 = nextStart start sections := by
  induction sections generalizing start with
  | nil => exact ⟨_, List.mem_cons_self, rfl⟩
  | cons part rest ih =>
      rw [sectionsCode, lines_append, Section.size_code]
      cases part with
      | function name arity slots body =>
          obtain ⟨line, hline, haddress⟩ :=
            ih (start + (Section.function name arity slots body).width start)
          exact ⟨line, List.mem_append_right _ hline, haddress⟩
      | initializer address value =>
          obtain ⟨line, hline, haddress⟩ := exists_line_of_mem_boundaries
            (start_mem_boundaries start (value.code start)) (.plain .push)
            [(Place.global address).load, .plain .si, .jump .jmp (nextStart
              (start + (Section.initializer address value).width start) rest)]
          refine ⟨line, List.mem_append_left _ ?_, haddress⟩
          rw [Section.code, Section.initializerCode, List.append_assoc]
          exact hline

/-- A jump of a section leads to an instruction of the section. -/
theorem Section.exists_line_of_jump {part : Section} {line : Nat × Instr}
    (hline : line ∈ lines start (part.body start)) (hjump : line.2.opcode.isJump = true) :
    ∃ target ∈ lines start (part.body start), line.2.operand = .known (Word.ofCount target.1) := by
  have hmem := mem_of_mem_lines hline
  cases part with
  | function name arity slots body =>
      rcases List.mem_cons.1 hmem with heq | hmem
      · rw [heq] at hjump
        cases hjump
      · have hleave : JumpTo (boundaries (start + 2) (body.code (start + 2))) [.plain .lev] :=
          jumpTo_cons.2 ⟨Instr.jumpsTo_of_not rfl, jumpTo_nil⟩
        obtain ⟨found, hfound, hoperand⟩ :=
          jumpTo_append.2 ⟨body.jumpTo_code (start + 2), hleave⟩ line.2 hmem hjump
        obtain ⟨target, htarget, haddress⟩ :=
          exists_line_of_mem_boundaries hfound (.plain .lev) []
        refine ⟨target, List.mem_cons_of_mem _ htarget, ?_⟩
        rw [haddress]
        exact hoperand
  | initializer address value =>
      obtain ⟨found, hfound, hoperand⟩ := jumpTo_append.2
        ⟨value.jumpTo_code start, jumpTo_store (.global address)⟩ line.2 hmem hjump
      obtain ⟨target, htarget, haddress⟩ := exists_line_of_mem_boundaries hfound (.plain .push)
        [(Place.global address).load, .plain .si]
      refine ⟨target, htarget, ?_⟩
      rw [haddress]
      exact hoperand

/-- A jump between initializers leads to an instruction of the program. -/
theorem exists_line_of_mem_chain {line : Nat × Instr} (h : line ∈ chain start sections) :
    ∃ target ∈ lines start (sectionsCode start sections),
      line.2 = .jump .jmp target.1 := by
  induction sections generalizing start with
  | nil => cases h
  | cons part rest ih =>
      rw [sectionsCode, lines_append, Section.size_code]
      cases part with
      | function name arity slots body =>
          obtain ⟨target, htarget, heq⟩ := ih h
          exact ⟨target, List.mem_append_right _ htarget, heq⟩
      | initializer address value =>
          rcases List.mem_cons.1 h with rfl | hmem
          · obtain ⟨target, htarget, haddress⟩ := exists_line_nextStart
              (start + (Section.initializer address value).width start) rest
            refine ⟨target, List.mem_append_right _ htarget, ?_⟩
            rw [haddress]
          · obtain ⟨target, htarget, heq⟩ := ih hmem
            exact ⟨target, List.mem_append_right _ htarget, heq⟩

/-! ## Valid sections -/

/-- The context of the code of a section. -/
def Section.inside (context : Context) : Section → Context
  | function _ arity slots _ => context.inside arity slots
  | initializer _ _ => context.inside 0 0

theorem Section.functions_inside (context : Context) (part : Section) :
    (part.inside context).functions = context.functions := by
  cases part <;> rfl

theorem Section.allProper_body {part : Section} (h : part.Valid context) :
    AllProper (part.inside context) (part.body start) := by
  cases part with
  | function name arity slots body =>
      refine allProper_cons.2 ⟨Instr.proper_withWord rfl Opcode.noConfusion Opcode.noConfusion, ?_⟩
      exact allProper_append.2 ⟨body.allProper_code _ h, allProper_singleton Instr.proper_leave⟩
  | initializer address value =>
      exact allProper_append.2 ⟨value.allProper_code _ h.2, Place.allProper_store h.1⟩

/-- Every instruction of a program whose sections are valid is proper. -/
theorem exists_proper (hsections : ∀ part ∈ sections, part.Valid context)
    (hmain : (context.functions "main").isSome) {line : Nat × Instr}
    (hline : line ∈ lines start (programCode start sections)) :
    ∃ inner : Context, inner.functions = context.functions ∧ line.2.Proper inner := by
  rcases mem_lines_programCode.1 hline with
    (rfl | hchain) | ⟨⟨address, part⟩, hplaced, hbody⟩ | hfinale
  · exact ⟨context, rfl, Instr.proper_jump rfl _⟩
  · obtain ⟨target, -, heq⟩ := exists_line_of_mem_chain hchain
    rw [heq]
    exact ⟨context, rfl, Instr.proper_jump rfl _⟩
  · have hvalid := hsections part (mem_of_mem_placed hplaced)
    exact ⟨part.inside context, part.functions_inside context,
      Section.allProper_body hvalid line.2 (mem_of_mem_lines hbody)⟩
  · rcases List.mem_cons.1 hfinale with rfl | hmem
    · exact ⟨context, rfl, Instr.proper_call hmain⟩
    · obtain rfl := List.mem_singleton.1 hmem
      exact ⟨context, rfl, Instr.proper_plain Opcode.noConfusion rfl⟩

/-! ## Linking -/

/-- The word of an operand, once the entries of functions are known. -/
def Operand.word? (entries : List (String × Nat)) : Operand → Option Word
  | none => .none
  | known word => some word
  | entry name => some (Word.ofCount ((entries.lookup name).getD 0))

def Instr.linked (entries : List (String × Nat)) (instr : Instr) : Instruction :=
  { opcode := instr.opcode, operand := instr.operand.word? entries }

theorem Instr.linked_call {entries : List (String × Nat)} {name : String} {address : Nat}
    (h : entries.lookup name = some address) :
    (Instr.call name).linked entries =
      { opcode := .call, operand := some (Word.ofCount address) } := by
  simp [Instr.linked, Instr.call, Operand.word?, h]

/-- The instructions of a program with their addresses. -/
def listing (start : Nat) (sections : List Section) : List (Nat × Instruction) :=
  (lines start (programCode start sections)).map fun (address, instr) =>
    (address, instr.linked (entries (start + 2) sections))

def Cell.word (entries : List (String × Nat)) : Cell → Word
  | known word => word
  | entry name => Word.ofCount ((entries.lookup name).getD 0)
  | hole => 0

theorem Instr.words_linked (entries : List (String × Nat)) (instr : Instr) :
    (instr.linked entries).words = instr.cells.map (Cell.word entries) := by
  obtain ⟨opcode, operand⟩ := instr
  cases operand <;> rfl

theorem Instr.Proper.isComplete_linked {instr : Instr} (h : instr.Proper context)
    (entries : List (String × Nat)) : (instr.linked entries).IsComplete := by
  obtain ⟨opcode, operand⟩ := instr
  have hoperand := h.operand
  cases operand with
  | none =>
      change opcode.hasOperand = false
      exact Bool.eq_false_iff.2 fun htrue => hoperand.1 htrue rfl
  | known word => exact hoperand.2 Operand.noConfusion
  | entry name => exact hoperand.2 Operand.noConfusion

theorem Instr.width_linked (entries : List (String × Nat)) (instr : Instr) :
    (instr.linked entries).width = instr.cells.length := by
  obtain ⟨opcode, operand⟩ := instr
  cases operand <;> rfl

/-- The words of proper code decode to its instructions. -/
theorem decodes_cells {entries : List (String × Nat)} {code : List Instr}
    (hcomplete : ∀ line ∈ lines start code, (line.2.linked entries).IsComplete) :
    Decodes start ((cells code).map (Cell.word entries))
      ((lines start code).map fun (address, instr) => (address, instr.linked entries)) := by
  induction code generalizing start with
  | nil => exact .nil start
  | cons instr rest ih =>
      have hrest := ih fun line hmem => hcomplete line (List.mem_cons_of_mem _ hmem)
      rw [cells_cons, List.map_append, ← Instr.words_linked]
      refine .of_words (hcomplete (start, instr) List.mem_cons_self) ?_
      rw [Instr.width_linked]
      exact hrest

end WordC.Core
