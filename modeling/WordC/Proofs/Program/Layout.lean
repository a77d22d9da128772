import WordC.Proofs.Program.Image

/-!
# Code and the code of its parts

The code of a tree is the code of its parts with instructions between them. Jumps go to where a part
begins or the whole ends, so every address is counted from the start of the whole. A proof that
follows the code through a run takes it apart by these lemmas, and does not depend on how the pieces
are concatenated.
-/

namespace WordC.Core.Has

open Image (has_append has_cons)

variable {text : List (Nat × Instr)} {start : Nat}

/-! ## Expressions -/

theorem follow {pointer : Expr} (h : Has text start ((Expr.follow pointer).code start)) :
    Has text start (pointer.code start) ∧
      (start + size (pointer.code start), .plain .li) ∈ text := by
  obtain ⟨hpointer, hrest⟩ := has_append.1 h
  exact ⟨hpointer, (has_cons.1 hrest).1⟩

/-- The left operand is pushed while the right one is computed. -/
theorem binary {operator : Operator} {left right : Expr} {middle : Nat}
    (h : Has text start ((Expr.binary operator left right).code start))
    (hmiddle : middle = start + size (left.code start) + 1) :
    Has text start (left.code start) ∧ (start + size (left.code start), .plain .push) ∈ text ∧
      Has text middle (right.code middle) ∧
      (middle + size (right.code middle), .plain (.binary operator)) ∈ text := by
  subst hmiddle
  obtain ⟨hleft, hrest⟩ := has_append.1 h
  obtain ⟨hpush, hrest⟩ := has_cons.1 hrest
  obtain ⟨hright, hrest⟩ := has_append.1 hrest
  exact ⟨hleft, hpush, hright, (has_cons.1 hrest).1⟩

/-- Making the accumulator 0 or 1. -/
theorem truth (h : Has text start [.plain .push, .withWord .imm 0, .plain (.binary .ne)]) :
    (start, .plain .push) ∈ text ∧ (start + 1, .withWord .imm 0) ∈ text ∧
      (start + 3, .plain (.binary .ne)) ∈ text := by
  obtain ⟨hpush, hrest⟩ := has_cons.1 h
  obtain ⟨himm, hrest⟩ := has_cons.1 hrest
  exact ⟨hpush, himm, (has_cons.1 hrest).1⟩

/-- A decided left operand jumps over the right one, to where either becomes 0 or 1. -/
theorem logical {connective : Syntax.Connective} {left right : Expr} {middle : Nat}
    (h : Has text start ((Expr.logical connective left right).code start))
    (hmiddle : middle = start + size (left.code start) + 2) :
    Has text start (left.code start) ∧
      (start + size (left.code start),
        .jump (jumpOf connective) (middle + size (right.code middle))) ∈ text ∧
      Has text middle (right.code middle) ∧
      Has text (middle + size (right.code middle))
        [.plain .push, .withWord .imm 0, .plain (.binary .ne)] := by
  subst hmiddle
  obtain ⟨hleft, hrest⟩ := has_append.1 h
  obtain ⟨hbranch, hrest⟩ := has_cons.1 hrest
  exact ⟨hleft, hbranch, has_append.1 hrest⟩

/-- Arguments are dropped after the call, if there are any. -/
theorem call {callee : String} {arguments : List Expr} {line : Nat}
    (h : Has text start ((Expr.call callee arguments).code start))
    (hline : line = start + size (Expr.argumentCode start arguments)) :
    Has text start (Expr.argumentCode start arguments) ∧ (line, .call callee) ∈ text ∧
      (arguments.length ≠ 0 →
        (line + 2, .withWord .adj (Word.ofCount arguments.length)) ∈ text) := by
  subst hline
  obtain ⟨harguments, hrest⟩ := has_append.1 h
  obtain ⟨hcall, hdrop⟩ := has_cons.1 hrest
  refine ⟨harguments, hcall, fun hsome => ?_⟩
  rw [if_neg hsome] at hdrop
  exact (has_cons.1 hdrop).1

theorem trap {request : Trap} {arguments : List Expr}
    (h : Has text start ((Expr.trap request arguments).code start)) :
    Has text start (Expr.argumentCode start arguments) ∧
      (start + size (Expr.argumentCode start arguments),
        .withWord (.trap request) (Word.ofCount arguments.length)) ∈ text := by
  obtain ⟨harguments, hrest⟩ := has_append.1 h
  exact ⟨harguments, (has_cons.1 hrest).1⟩

theorem arguments {argument : Expr} {rest : List Expr} {middle : Nat}
    (h : Has text start (Expr.argumentCode start (argument :: rest)))
    (hmiddle : middle = start + size (argument.code start) + 1) :
    Has text start (argument.code start) ∧
      (start + size (argument.code start), .plain .push) ∈ text ∧
      Has text middle (Expr.argumentCode middle rest) := by
  subst hmiddle
  obtain ⟨hargument, hrest⟩ := has_append.1 h
  exact ⟨hargument, has_cons.1 hrest⟩

/-! ## Statements -/

/-- Storing the accumulator. -/
theorem store {place : Place} (h : Has text start place.store) :
    (start, .plain .push) ∈ text ∧ (start + 1, place.load) ∈ text ∧
      (start + 3, .plain .si) ∈ text := by
  obtain ⟨hpush, hrest⟩ := has_cons.1 h
  obtain ⟨hload, hrest⟩ := has_cons.1 hrest
  exact ⟨hpush, hload, (has_cons.1 hrest).1⟩

theorem leave {value : Expr} (h : Has text start ((Stmt.leave (some value)).code start)) :
    Has text start (value.code start) ∧
      (start + size (value.code start), .plain .lev) ∈ text := by
  obtain ⟨hvalue, hrest⟩ := has_append.1 h
  exact ⟨hvalue, (has_cons.1 hrest).1⟩

theorem ifThen {condition : Expr} {consequence : Stmt} {inside : Nat}
    (h : Has text start ((Stmt.ifThen condition consequence).code start))
    (hinside : inside = start + size (condition.code start) + 2) :
    Has text start (condition.code start) ∧
      (start + size (condition.code start),
        .jump .jz (inside + size (consequence.code inside))) ∈ text ∧
      Has text inside (consequence.code inside) := by
  subst hinside
  obtain ⟨hcondition, hrest⟩ := has_append.1 h
  exact ⟨hcondition, has_cons.1 hrest⟩

theorem ifElse {condition : Expr} {consequence alternative : Stmt} {inside skipped : Nat}
    (h : Has text start ((Stmt.ifElse condition consequence alternative).code start))
    (hinside : inside = start + size (condition.code start) + 2)
    (hskipped : skipped = inside + size (consequence.code inside) + 2) :
    Has text start (condition.code start) ∧
      (start + size (condition.code start), .jump .jz skipped) ∈ text ∧
      Has text inside (consequence.code inside) ∧
      (inside + size (consequence.code inside),
        .jump .jmp (skipped + size (alternative.code skipped))) ∈ text ∧
      Has text skipped (alternative.code skipped) := by
  subst hskipped hinside
  obtain ⟨hcondition, hrest⟩ := has_append.1 h
  obtain ⟨hbranch, hrest⟩ := has_cons.1 hrest
  obtain ⟨hconsequence, hrest⟩ := has_append.1 hrest
  exact ⟨hcondition, hbranch, hconsequence, has_cons.1 hrest⟩

/-- The body ends with a jump back to the condition. -/
theorem whileLoop {condition : Expr} {body : Stmt} {inside : Nat}
    (h : Has text start ((Stmt.whileLoop condition body).code start))
    (hinside : inside = start + size (condition.code start) + 2) :
    Has text start (condition.code start) ∧
      (start + size (condition.code start), .jump .jz (inside + size (body.code inside) + 2)) ∈
        text ∧
      Has text inside (body.code inside) ∧
      (inside + size (body.code inside), .jump .jmp start) ∈ text := by
  subst hinside
  obtain ⟨hcondition, hrest⟩ := has_append.1 h
  obtain ⟨hbranch, hrest⟩ := has_cons.1 hrest
  obtain ⟨hbody, hrest⟩ := has_append.1 hrest
  exact ⟨hcondition, hbranch, hbody, (has_cons.1 hrest).1⟩

/-! ## Sections -/

theorem function {slots : Nat} {body : Stmt}
    (h : Has text start (Section.functionCode start slots body)) :
    (start, .withWord .ent (Word.ofCount slots)) ∈ text ∧
      Has text (start + 2) (body.code (start + 2)) ∧
      (start + 2 + size (body.code (start + 2)), .plain .lev) ∈ text := by
  obtain ⟨henter, hrest⟩ := has_cons.1 h
  obtain ⟨hbody, hlast⟩ := has_append.1 hrest
  exact ⟨henter, hbody, (has_cons.1 hlast).1⟩

/-- The value of a global is computed and stored before the start-up code goes on. -/
theorem initializer {address next : Nat} {value : Expr}
    (h : Has text start ((Section.initializer address value).code start next)) :
    Has text start (value.code start) ∧
      Has text (start + size (value.code start)) (Place.global address).store ∧
      (start + size (value.code start) + 4, .jump .jmp next) ∈ text := by
  obtain ⟨hinitial, hlast⟩ := has_append.1 h
  obtain ⟨hvalue, hstore⟩ := has_append.1 hinitial
  have hjump := (has_cons.1 hlast).1
  rw [Section.initializerCode, size_append, ← Nat.add_assoc] at hjump
  exact ⟨hvalue, hstore, hjump⟩

theorem finale (h : Has text start Core.finale) :
    (start, .call "main") ∈ text ∧ (start + 2, .plain .exit) ∈ text := by
  obtain ⟨hcall, hrest⟩ := has_cons.1 h
  exact ⟨hcall, (has_cons.1 hrest).1⟩

theorem sections {part : Section} {rest : List Section} {stop : Nat}
    (h : Has text start (sectionsCode start (part :: rest))) (hstop : stop = start + part.width start) :
    Has text start (part.code start (nextStart stop rest)) ∧
      Has text stop (sectionsCode stop rest) := by
  subst hstop
  obtain ⟨hpart, hrest⟩ := has_append.1 h
  rw [Section.size_code] at hrest
  exact ⟨hpart, hrest⟩

end WordC.Core.Has

namespace WordC.Image

/-- The start-up code goes on at an instruction of the program. -/
theorem Part.nextStart_lt {image : Image} {text : List (Nat × Core.Instr)} {start : Nat}
    {sections : List Core.Section} (hpart : image.Part text)
    (hcode : Core.Has text start (Core.sectionsCode start sections)) :
    Core.nextStart start sections < image.base.textEnd := by
  obtain ⟨line, hline, haddress⟩ := Core.exists_line_nextStart start sections
  rw [← haddress]
  exact hpart.lt_textEnd (hcode line hline)

end WordC.Image
