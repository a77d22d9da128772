import WordC.Proofs.Memory.Heap
import WordC.Proofs.Program.Image

/-!
# The areas of a program

The text of a program is the jump at its entry, its sections one behind the other, and the end of
the start-up code. The code of an initial value or of a function goes on within itself unless it
calls or returns, and nothing exits but the end of the start-up code.
-/

namespace WordC

open WordC.Core (Context Instr Place Section)

/-- Whether the code of expressions may contain the opcode: it stores nothing and leads nowhere
else for good. -/
def Opcode.evaluates : Opcode → Bool
  | jmp | ent | lev | si | plac | exit => false
  | _ => true

namespace Core

variable {start address : Nat} {code : List Instr} {instr : Instr} {sections : List Section}

/-! ## Addresses in code -/

theorem bounds_of_mem_lines {line : Nat × Instr} (h : line ∈ lines start code) :
    start ≤ line.1 ∧ line.1 + line.2.cells.length ≤ start + size code := by
  obtain ⟨offset, haddress, hsize, -⟩ := getElem?_of_mem_lines h
  omega

/-- An address has one instruction. -/
theorem eq_of_mem_lines {line other : Nat × Instr} (h : line ∈ lines start code)
    (hother : other ∈ lines start code) (haddress : other.1 = line.1) : other = line := by
  induction code generalizing start with
  | nil => cases h
  | cons first rest ih =>
      have hpos : 0 < first.cells.length := Nat.zero_lt_succ _
      rcases List.mem_cons.1 h with rfl | hrest <;> rcases List.mem_cons.1 hother with rfl | hrest'
      · rfl
      · have hbounds := bounds_of_mem_lines hrest'
        simp only at haddress
        omega
      · have hbounds := bounds_of_mem_lines hrest
        simp only at haddress
        omega
      · exact ih hrest hrest'

theorem behind_mem_boundaries {line : Nat × Instr} (h : line ∈ lines start code) :
    line.1 + line.2.cells.length ∈ boundaries start code := by
  induction code generalizing start with
  | nil => cases h
  | cons first rest ih =>
      rcases List.mem_cons.1 h with rfl | hrest
      · exact List.mem_cons_of_mem _ (start_mem_boundaries _ rest)
      · exact List.mem_cons_of_mem _ (ih hrest)

/-! ## What code is made of -/

namespace Expr

mutual

theorem evaluates_code : ∀ (e : Expr) (start : Nat),
    ∀ instr ∈ e.code start, instr.opcode.evaluates = true
  | constant value, start => List.forall_mem_singleton.2 rfl
  | load place, start =>
      List.forall_mem_cons.2 ⟨by cases place <;> rfl, List.forall_mem_singleton.2 rfl⟩
  | address place, start => List.forall_mem_singleton.2 (by cases place <;> rfl)
  | follow pointer, start =>
      List.forall_mem_append.2 ⟨evaluates_code pointer start, List.forall_mem_singleton.2 rfl⟩
  | binary operator left right, start =>
      List.forall_mem_append.2 ⟨evaluates_code left start, List.forall_mem_cons.2 ⟨rfl,
        List.forall_mem_append.2 ⟨evaluates_code right _, List.forall_mem_singleton.2 rfl⟩⟩⟩
  | logical connective left right, start =>
      List.forall_mem_append.2 ⟨evaluates_code left start, List.forall_mem_cons.2
        ⟨by cases connective <;> rfl, List.forall_mem_append.2 ⟨evaluates_code right _,
          List.forall_mem_cons.2 ⟨rfl, List.forall_mem_cons.2 ⟨rfl,
            List.forall_mem_singleton.2 rfl⟩⟩⟩⟩⟩
  | call callee arguments, start => by
      refine List.forall_mem_append.2
        ⟨evaluates_argumentCode arguments start, List.forall_mem_cons.2 ⟨rfl, ?_⟩⟩
      by_cases hnone : arguments.length = 0
      · rw [if_pos hnone]
        exact fun _ hmem => absurd hmem List.not_mem_nil
      · rw [if_neg hnone]
        exact List.forall_mem_singleton.2 rfl
  | trap request arguments, start =>
      List.forall_mem_append.2
        ⟨evaluates_argumentCode arguments start, List.forall_mem_singleton.2 rfl⟩

theorem evaluates_argumentCode : ∀ (arguments : List Expr) (start : Nat),
    ∀ instr ∈ argumentCode start arguments, instr.opcode.evaluates = true
  | [], _ => fun _ hmem => absurd hmem List.not_mem_nil
  | argument :: rest, start =>
      List.forall_mem_append.2 ⟨evaluates_code argument start,
        List.forall_mem_cons.2 ⟨rfl, evaluates_argumentCode rest _⟩⟩

end

theorem code_ne_exit (e : Expr) (start : Nat) : ∀ instr ∈ e.code start, instr.opcode ≠ .exit := by
  intro instr hmem hexit
  have hevaluates := e.evaluates_code start instr hmem
  rw [hexit] at hevaluates
  cases hevaluates

end Expr

theorem Place.store_ne_exit (place : Place) : ∀ instr ∈ place.store, instr.opcode ≠ .exit :=
  List.forall_mem_cons.2 ⟨nofun, List.forall_mem_cons.2
    ⟨by cases place <;> nofun, List.forall_mem_singleton.2 nofun⟩⟩

theorem Stmt.code_ne_exit (statement : Stmt) (start : Nat) :
    ∀ instr ∈ statement.code start, instr.opcode ≠ .exit := by
  induction statement generalizing start with
  | skip => exact fun _ hmem => absurd hmem List.not_mem_nil
  | seq first second ihFirst ihSecond =>
      exact List.forall_mem_append.2 ⟨ihFirst start, ihSecond _⟩
  | store place value =>
      exact List.forall_mem_append.2 ⟨value.code_ne_exit start, place.store_ne_exit⟩
  | evaluate value => exact value.code_ne_exit start
  | leave value =>
      cases value with
      | none => exact List.forall_mem_singleton.2 nofun
      | some value =>
          exact List.forall_mem_append.2
            ⟨value.code_ne_exit start, List.forall_mem_singleton.2 nofun⟩
  | ifThen condition consequence ih =>
      exact List.forall_mem_append.2
        ⟨condition.code_ne_exit start, List.forall_mem_cons.2 ⟨nofun, ih _⟩⟩
  | ifElse condition consequence alternative ihConsequence ihAlternative =>
      exact List.forall_mem_append.2 ⟨condition.code_ne_exit start, List.forall_mem_cons.2
        ⟨nofun, List.forall_mem_append.2 ⟨ihConsequence _,
          List.forall_mem_cons.2 ⟨nofun, ihAlternative _⟩⟩⟩⟩
  | whileLoop condition body ih =>
      exact List.forall_mem_append.2 ⟨condition.code_ne_exit start, List.forall_mem_cons.2
        ⟨nofun, List.forall_mem_append.2 ⟨ih _, List.forall_mem_singleton.2 nofun⟩⟩⟩

theorem Section.body_ne_exit (part : Section) (start : Nat) :
    ∀ instr ∈ part.body start, instr.opcode ≠ .exit := by
  cases part with
  | function name arity slots body =>
      exact List.forall_mem_cons.2 ⟨nofun, List.forall_mem_append.2
        ⟨body.code_ne_exit _, List.forall_mem_singleton.2 nofun⟩⟩
  | initializer address value =>
      exact List.forall_mem_append.2 ⟨value.code_ne_exit start, Place.store_ne_exit _⟩

/-- Only the end of the start-up code exits. -/
theorem exit_mem_lines {line : Nat × Instr} (h : line ∈ lines start (programCode start sections))
    (hexit : line.2.opcode = .exit) :
    line = (sectionsStop (start + 2) sections + 2, .plain .exit) := by
  rcases mem_lines_programCode.1 h with (rfl | hchain) | ⟨place, -, hbody⟩ | hfinale
  · cases hexit
  · obtain ⟨target, -, heq⟩ := exists_line_of_mem_chain hchain
    rw [heq] at hexit
    cases hexit
  · exact absurd hexit (place.2.body_ne_exit place.1 line.2 (mem_of_mem_lines hbody))
  · rcases List.mem_cons.1 hfinale with rfl | hmem
    · cases hexit
    · exact List.mem_singleton.1 hmem

/-! ## Sections -/

/-- The words that a section takes. -/
def extent (place : Nat × Section) : Extent where
  start := place.1
  stop := place.1 + place.2.width place.1

theorem le_sectionsStop (start : Nat) (sections : List Section) :
    start ≤ sectionsStop start sections := by
  induction sections generalizing start with
  | nil => exact Nat.le_refl _
  | cons part rest ih => exact Nat.le_trans (Nat.le_add_right _ _) (ih _)

theorem bounds_of_mem_placed {place : Nat × Section} (h : place ∈ placed start sections) :
    start ≤ (extent place).start ∧ (extent place).stop ≤ sectionsStop start sections := by
  induction sections generalizing start with
  | nil => cases h
  | cons part rest ih =>
      rcases mem_placed_iff.1 h with rfl | hrest
      · exact ⟨Nat.le_refl _, le_sectionsStop _ rest⟩
      · exact ⟨Nat.le_trans (Nat.le_add_right _ _) (ih hrest).1, (ih hrest).2⟩

/-- Sections do not overlap. -/
theorem eq_of_mem_placed {place other : Nat × Section} (h : place ∈ placed start sections)
    (hother : other ∈ placed start sections) (hcontains : (extent place).contains address)
    (hcontains' : (extent other).contains address) : other = place := by
  rw [Extent.contains_iff] at hcontains hcontains'
  induction sections generalizing start with
  | nil => cases h
  | cons part rest ih =>
      rcases mem_placed_iff.1 h with rfl | hrest <;>
        rcases mem_placed_iff.1 hother with rfl | hrest'
      · rfl
      · exact absurd (bounds_of_mem_placed hrest').1 (by simp only [extent] at *; omega)
      · exact absurd (bounds_of_mem_placed hrest).1 (by simp only [extent] at *; omega)
      · exact ih hrest hrest'

/-! ## Where the start-up code leads -/

/-- All jumps lead ahead, to these addresses. -/
def Ahead (targets : List Nat) (text : List (Nat × Instr)) : Prop :=
  ∀ line ∈ text, line.2.opcode.isJump = true →
    ∃ target ∈ targets, line.1 < target ∧ line.2.operand = .known (Word.ofCount target)

section Ahead

variable {targets targets' : List Nat} {front back : List Instr}

theorem Ahead.mono {text : List (Nat × Instr)} (h : Ahead targets text)
    (hsub : ∀ target ∈ targets, target ∈ targets') : Ahead targets' text := by
  intro line hline hjump
  obtain ⟨target, hmem, hahead⟩ := h line hline hjump
  exact ⟨target, hsub target hmem, hahead⟩

theorem ahead_append : Ahead targets (lines start (front ++ back)) ↔
    Ahead targets (lines start front) ∧ Ahead targets (lines (start + size front) back) := by
  rw [lines_append]
  exact List.forall_mem_append

theorem ahead_cons : Ahead targets (lines start (instr :: back)) ↔
    (instr.opcode.isJump = true →
      ∃ target ∈ targets, start < target ∧ instr.operand = .known (Word.ofCount target)) ∧
      Ahead targets (lines (start + instr.cells.length) back) :=
  List.forall_mem_cons

theorem ahead_of_not_jump (h : ∀ instr ∈ code, instr.opcode.isJump = false) :
    Ahead targets (lines start code) := by
  intro line hline hjump
  rw [h line.2 (mem_of_mem_lines hline)] at hjump
  cases hjump

end Ahead

theorem Place.not_isJump_load (place : Place) : place.load.opcode.isJump = false := by
  cases place <;> rfl

namespace Expr

mutual

theorem ahead_code : ∀ (e : Expr) (start : Nat),
    Ahead (boundaries start (e.code start)) (lines start (e.code start))
  | constant value, start => ahead_of_not_jump (List.forall_mem_singleton.2 rfl)
  | load place, start => ahead_of_not_jump
      (List.forall_mem_cons.2 ⟨place.not_isJump_load, List.forall_mem_singleton.2 rfl⟩)
  | address place, start => ahead_of_not_jump (List.forall_mem_singleton.2 place.not_isJump_load)
  | follow pointer, start => by
      rw [code]
      refine ahead_append.2 ⟨(ahead_code pointer start).mono ?_, ?_⟩
      · exact fun target hmem => mem_boundaries_append.2 (.inl hmem)
      · exact ahead_of_not_jump (List.forall_mem_singleton.2 rfl)
  | binary operator left right, start => by
      rw [code]
      refine ahead_append.2 ⟨(ahead_code left start).mono ?_, ahead_cons.2
        ⟨nofun, ahead_append.2 ⟨(ahead_code right _).mono ?_, ?_⟩⟩⟩
      · exact fun target hmem => mem_boundaries_append.2 (.inl hmem)
      · exact fun target hmem => mem_boundaries_append.2 (.inr
          (List.mem_cons_of_mem _ (mem_boundaries_append.2 (.inl hmem))))
      · exact ahead_of_not_jump (List.forall_mem_singleton.2 rfl)
  | logical connective left right, start => by
      rw [code]
      refine ahead_append.2 ⟨(ahead_code left start).mono ?_, ahead_cons.2
        ⟨fun _ => ⟨_, ?_, ?_, rfl⟩, ahead_append.2 ⟨(ahead_code right _).mono ?_, ?_⟩⟩⟩
      · exact fun target hmem => mem_boundaries_append.2 (.inl hmem)
      · exact mem_boundaries_append.2 (.inr (List.mem_cons_of_mem _ (mem_boundaries_append.2
          (.inr List.mem_cons_self))))
      · omega
      · exact fun target hmem => mem_boundaries_append.2 (.inr
          (List.mem_cons_of_mem _ (mem_boundaries_append.2 (.inl hmem))))
      · exact ahead_of_not_jump (List.forall_mem_cons.2 ⟨rfl, List.forall_mem_cons.2
          ⟨rfl, List.forall_mem_singleton.2 rfl⟩⟩)
  | call callee arguments, start => by
      rw [code]
      refine ahead_append.2 ⟨(ahead_argumentCode arguments start).mono ?_, ahead_cons.2
        ⟨nofun, ahead_of_not_jump ?_⟩⟩
      · exact fun target hmem => mem_boundaries_append.2 (.inl hmem)
      · by_cases hnone : arguments.length = 0
        · rw [if_pos hnone]
          exact fun _ hmem => absurd hmem List.not_mem_nil
        · rw [if_neg hnone]
          exact List.forall_mem_singleton.2 rfl
  | trap request arguments, start => by
      rw [code]
      refine ahead_append.2 ⟨(ahead_argumentCode arguments start).mono ?_, ?_⟩
      · exact fun target hmem => mem_boundaries_append.2 (.inl hmem)
      · exact ahead_of_not_jump (List.forall_mem_singleton.2 rfl)

theorem ahead_argumentCode : ∀ (arguments : List Expr) (start : Nat),
    Ahead (boundaries start (argumentCode start arguments))
      (lines start (argumentCode start arguments))
  | [], start => fun _ hmem => absurd hmem List.not_mem_nil
  | argument :: rest, start => by
      rw [argumentCode]
      refine ahead_append.2 ⟨(ahead_code argument start).mono ?_, ahead_cons.2
        ⟨nofun, (ahead_argumentCode rest _).mono ?_⟩⟩
      · exact fun target hmem => mem_boundaries_append.2 (.inl hmem)
      · exact fun target hmem => mem_boundaries_append.2 (.inr (List.mem_cons_of_mem _ hmem))

end

end Expr

/-- The instructions of the start-up code behind the first jump. -/
def startupLines (start : Nat) : List Section → List (Nat × Instr)
  | [] => lines start finale
  | .function name arity slots body :: rest =>
      startupLines (start + (Section.function name arity slots body).width start) rest
  | .initializer address value :: rest =>
      let stop := start + (Section.initializer address value).width start
      lines start ((Section.initializer address value).code start (nextStart stop rest)) ++
        startupLines stop rest

/-- Where an instruction of the start-up code leads: it stays in the start-up code and only goes
ahead, except that it may call a function in between. -/
structure Proceeds (text : List (Nat × Instr)) (line : Nat × Instr) : Prop where
  falls : line.2.opcode ≠ .jmp → line.2.opcode ≠ .exit →
    ∃ next, (line.1 + line.2.cells.length, next) ∈ text
  jumps : line.2.opcode.isJump = true → ∃ target next, line.1 < target ∧ (target, next) ∈ text ∧
    line.2.operand = .known (Word.ofCount target)

theorem Proceeds.mono {text text' : List (Nat × Instr)} {line : Nat × Instr}
    (h : Proceeds text line) (hsub : ∀ line ∈ text, line ∈ text') : Proceeds text' line where
  falls := fun hjmp hexit =>
    let ⟨next, hnext⟩ := h.falls hjmp hexit
    ⟨next, hsub _ hnext⟩
  jumps := fun hjump =>
    let ⟨target, next, hahead, hnext, hoperand⟩ := h.jumps hjump
    ⟨target, next, hahead, hsub _ hnext, hoperand⟩

section Startup

variable {line : Nat × Instr}

theorem mem_lines_of_startup (h : line ∈ startupLines start sections) :
    line ∈ lines start (sectionsCode start sections) := by
  induction sections generalizing start with
  | nil => exact h
  | cons part rest ih =>
      rw [sectionsCode, lines_append, Section.size_code]
      cases part with
      | function name arity slots body => exact List.mem_append_right _ (ih h)
      | initializer address value =>
          exact List.mem_append.2 ((List.mem_append.1 h).imp_right ih)

theorem le_nextStart (start : Nat) (sections : List Section) :
    start ≤ nextStart start sections := by
  induction sections generalizing start with
  | nil => exact Nat.le_refl _
  | cons part rest ih =>
      cases part with
      | function name arity slots body => exact Nat.le_trans (Nat.le_add_right _ _) (ih _)
      | initializer address value => exact Nat.le_refl _

theorem exists_startup_nextStart (start : Nat) (sections : List Section) :
    ∃ next, (nextStart start sections, next) ∈ startupLines start sections := by
  induction sections generalizing start with
  | nil => exact ⟨_, List.mem_cons_self⟩
  | cons part rest ih =>
      cases part with
      | function name arity slots body => exact ih _
      | initializer address value =>
          obtain ⟨⟨_, next⟩, hline, rfl⟩ := exists_line_of_mem_boundaries
            (start_mem_boundaries start (Section.initializerCode start address value))
            (.jump .jmp (nextStart (start + (Section.initializer address value).width start) rest))
            []
          exact ⟨next, List.mem_append_left _ hline⟩

/-- The start-up code is no part of a function. -/
theorem not_contains_of_startup (h : line ∈ startupLines start sections) {place : Nat × Section}
    (hplaced : place ∈ placed start sections) (hfunction : place.2.name?.isSome) :
    ¬(extent place).contains line.1 := by
  rw [Extent.contains_iff]
  induction sections generalizing start with
  | nil => cases hplaced
  | cons part rest ih =>
      cases part with
      | function name arity slots body =>
          have hlater : line ∈ startupLines
            (start + (Section.function name arity slots body).width start) rest := h
          rcases mem_placed_iff.1 hplaced with rfl | hrest
          · have hbounds := bounds_of_mem_lines (mem_lines_of_startup hlater)
            simp only [extent]
            omega
          · exact ih hlater hrest
      | initializer address value =>
          rcases mem_placed_iff.1 hplaced with rfl | hrest
          · cases hfunction
          · rcases List.mem_append.1 h with hhere | hlater
            · have hbounds := bounds_of_mem_lines hhere
              have hplace := (bounds_of_mem_placed hrest).1
              have hpos : 0 < line.2.cells.length := Nat.zero_lt_succ _
              rw [Section.size_code] at hbounds
              omega
            · exact ih hlater hrest

theorem proceeds_initializer {slot : Nat} {value : Expr} {next : Nat}
    (h : line ∈ lines start (Section.initializerCode start slot value)) :
    Proceeds (lines start (Section.initializerCode start slot value ++ [.jump .jmp next]))
      line := by
  refine
    { falls := fun _ _ => ?_
      jumps := fun hjump => ?_ }
  · obtain ⟨⟨_, instr⟩, hline, rfl⟩ :=
      exists_line_of_mem_boundaries (behind_mem_boundaries h) (.jump .jmp next) []
    exact ⟨instr, hline⟩
  · have hahead : Ahead (boundaries start (Section.initializerCode start slot value))
        (lines start (Section.initializerCode start slot value)) :=
      ahead_append.2 ⟨(value.ahead_code start).mono fun _ hmem =>
          mem_boundaries_append.2 (.inl hmem),
        ahead_of_not_jump (List.forall_mem_cons.2 ⟨rfl, List.forall_mem_cons.2
          ⟨rfl, List.forall_mem_singleton.2 rfl⟩⟩)⟩
    obtain ⟨target, htarget, hbefore, hoperand⟩ := hahead line h hjump
    obtain ⟨⟨_, instr⟩, hline, rfl⟩ :=
      exists_line_of_mem_boundaries htarget (.jump .jmp next) []
    exact ⟨_, instr, hbefore, hline, hoperand⟩

theorem proceeds_of_startup (h : line ∈ startupLines start sections) :
    Proceeds (startupLines start sections) line := by
  induction sections generalizing start with
  | nil =>
      rcases List.mem_cons.1 h with rfl | hmem
      · exact
          { falls := fun _ _ => ⟨_, List.mem_cons_of_mem _ List.mem_cons_self⟩
            jumps := fun hjump => by cases hjump }
      · obtain rfl := List.mem_singleton.1 hmem
        exact
          { falls := fun _ hexit => absurd rfl hexit
            jumps := fun hjump => by cases hjump }
  | cons part rest ih =>
      cases part with
      | function name arity slots body => exact ih h
      | initializer address value =>
          rcases List.mem_append.1 h with hhere | hlater
          · rw [Section.code, lines_append] at hhere
            rcases List.mem_append.1 hhere with hinitial | hjump
            · exact (proceeds_initializer hinitial).mono fun _ hmem => List.mem_append_left _ hmem
            · obtain rfl := List.mem_singleton.1 hjump
              obtain ⟨next, hnext⟩ := exists_startup_nextStart
                (start + (Section.initializer address value).width start) rest
              have hle := le_nextStart
                (start + (Section.initializer address value).width start) rest
              have hwidth : (Section.initializer address value).width start =
                  size (Section.initializerCode start address value) + 2 := by
                rw [← Section.size_code start 0, Section.code, size_append]
                rfl
              exact
                { falls := fun hjmp => absurd rfl hjmp
                  jumps := fun _ =>
                    ⟨_, next, by simp only; omega, List.mem_append_right _ hnext, rfl⟩ }
          · exact (ih hlater).mono fun _ hmem => List.mem_append_right _ hmem

end Startup

end Core

end WordC
