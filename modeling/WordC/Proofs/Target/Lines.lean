import WordC.Proofs.Target.Outlines

/-!
# The instructions of a program

The code of a tree jumps to its own instructions or behind its last one, whatever surrounds it. So
the jumps of a function stay in the function and those of an initial value in its start-up code, and
only the jumps between the initializers lead from one section to another.
-/

namespace WordC

open WordC.Core (Context Instr Place Section)

/-- Whether the operand is the address of an instruction to go on at. -/
def Opcode.isJump : Opcode → Bool
  | jmp | jz | jnz => true
  | _ => false

namespace Core

variable {context : Context}

/-- Instructions with their addresses. -/
def lines (start : Nat) : List Instr → List (Nat × Instr)
  | [] => []
  | instr :: rest => (start, instr) :: lines (start + instr.cells.length) rest

/-- The addresses of instructions and the address behind them. -/
def boundaries (start : Nat) : List Instr → List Nat
  | [] => [start]
  | instr :: rest => start :: boundaries (start + instr.cells.length) rest

theorem lines_append (start : Nat) (front back : List Instr) :
    lines start (front ++ back) = lines start front ++ lines (start + size front) back := by
  induction front generalizing start with
  | nil => rfl
  | cons instr front ih =>
      rw [List.cons_append, lines, lines, ih, size_cons, Nat.add_assoc, List.cons_append]

theorem mem_of_mem_lines {start : Nat} {code : List Instr} {line : Nat × Instr}
    (h : line ∈ lines start code) : line.2 ∈ code := by
  induction code generalizing start with
  | nil => cases h
  | cons instr rest ih =>
      rcases List.mem_cons.1 h with rfl | hmem
      · exact List.mem_cons_self
      · exact List.mem_cons_of_mem _ (ih hmem)

theorem mem_boundaries_append {start : Nat} {front back : List Instr} {address : Nat} :
    address ∈ boundaries start (front ++ back) ↔
      address ∈ boundaries start front ∨ address ∈ boundaries (start + size front) back := by
  induction front generalizing start with
  | nil =>
      cases back with
      | nil => simp [boundaries]
      | cons instr rest => simp [boundaries]
  | cons instr front ih =>
      rw [List.cons_append, boundaries, List.mem_cons, ih, boundaries, List.mem_cons, size_cons,
        ← Nat.add_assoc, or_assoc]

theorem start_mem_boundaries (start : Nat) (code : List Instr) : start ∈ boundaries start code := by
  cases code with
  | nil => exact List.mem_cons_self
  | cons instr rest => exact List.mem_cons_self

theorem stop_mem_boundaries (start : Nat) (code : List Instr) :
    start + size code ∈ boundaries start code := by
  induction code generalizing start with
  | nil => exact List.mem_cons_self
  | cons instr rest ih =>
      rw [size_cons, ← Nat.add_assoc]
      exact List.mem_cons_of_mem _ (ih _)

/-- Where more instructions follow, every boundary is the address of one. -/
theorem exists_line_of_mem_boundaries {start : Nat} {front : List Instr} {address : Nat}
    (h : address ∈ boundaries start front) (instr : Instr) (rest : List Instr) :
    ∃ line ∈ lines start (front ++ instr :: rest), line.1 = address := by
  induction front generalizing start with
  | nil =>
      obtain rfl := List.mem_singleton.1 h
      exact ⟨_, List.mem_cons_self, rfl⟩
  | cons first front ih =>
      rcases List.mem_cons.1 h with rfl | hmem
      · exact ⟨_, List.mem_cons_self, rfl⟩
      · obtain ⟨line, hline, haddress⟩ := ih hmem
        exact ⟨line, List.mem_cons_of_mem _ hline, haddress⟩

/-! ## Jumps -/

def Instr.JumpsTo (targets : List Nat) (instr : Instr) : Prop :=
  instr.opcode.isJump = true → ∃ target ∈ targets, instr.operand = .known (Word.ofCount target)

/-- All jumps of the code lead to these addresses. -/
def JumpTo (targets : List Nat) (code : List Instr) : Prop :=
  ∀ instr ∈ code, instr.JumpsTo targets

theorem JumpTo.mono {targets targets' : List Nat} {code : List Instr} (h : JumpTo targets code)
    (hsub : ∀ target ∈ targets, target ∈ targets') : JumpTo targets' code := by
  intro instr hmem hjump
  obtain ⟨target, htarget, hoperand⟩ := h instr hmem hjump
  exact ⟨target, hsub target htarget, hoperand⟩

theorem jumpTo_append {targets : List Nat} {front back : List Instr} :
    JumpTo targets (front ++ back) ↔ JumpTo targets front ∧ JumpTo targets back :=
  List.forall_mem_append

theorem jumpTo_cons {targets : List Nat} {instr : Instr} {rest : List Instr} :
    JumpTo targets (instr :: rest) ↔ instr.JumpsTo targets ∧ JumpTo targets rest :=
  List.forall_mem_cons

theorem jumpTo_nil {targets : List Nat} : JumpTo targets [] :=
  fun _ hmem => absurd hmem List.not_mem_nil

theorem Instr.jumpsTo_jump {targets : List Nat} {target : Nat} (opcode : Opcode)
    (h : target ∈ targets) : (Instr.jump opcode target).JumpsTo targets :=
  fun _ => ⟨target, h, rfl⟩

theorem Instr.jumpsTo_of_not {targets : List Nat} {instr : Instr}
    (h : instr.opcode.isJump = false) : instr.JumpsTo targets :=
  fun hjump => by rw [h] at hjump; cases hjump

theorem jumpTo_place_load {targets : List Nat} (place : Place) : place.load.JumpsTo targets := by
  cases place <;> exact Instr.jumpsTo_of_not rfl

theorem jumpTo_store {targets : List Nat} (place : Place) : JumpTo targets place.store :=
  jumpTo_cons.2 ⟨Instr.jumpsTo_of_not rfl,
    jumpTo_cons.2 ⟨jumpTo_place_load place, jumpTo_cons.2 ⟨Instr.jumpsTo_of_not rfl, jumpTo_nil⟩⟩⟩

namespace Expr

mutual

theorem jumpTo_code : ∀ (e : Expr) (start : Nat),
    JumpTo (boundaries start (e.code start)) (e.code start)
  | constant value, start => jumpTo_cons.2 ⟨Instr.jumpsTo_of_not rfl, jumpTo_nil⟩
  | load place, start =>
      jumpTo_cons.2 ⟨jumpTo_place_load place, jumpTo_cons.2 ⟨Instr.jumpsTo_of_not rfl, jumpTo_nil⟩⟩
  | address place, start => jumpTo_cons.2 ⟨jumpTo_place_load place, jumpTo_nil⟩
  | follow pointer, start => by
      rw [code]
      refine jumpTo_append.2 ⟨(jumpTo_code pointer start).mono ?_, ?_⟩
      · exact fun target hmem => mem_boundaries_append.2 (.inl hmem)
      · exact jumpTo_cons.2 ⟨Instr.jumpsTo_of_not rfl, jumpTo_nil⟩
  | binary operator left right, start => by
      rw [code]
      refine jumpTo_append.2 ⟨(jumpTo_code left start).mono ?_, jumpTo_cons.2
        ⟨Instr.jumpsTo_of_not rfl, jumpTo_append.2 ⟨(jumpTo_code right _).mono ?_, ?_⟩⟩⟩
      · exact fun target hmem => mem_boundaries_append.2 (.inl hmem)
      · exact fun target hmem => mem_boundaries_append.2 (.inr
          (List.mem_cons_of_mem _ (mem_boundaries_append.2 (.inl hmem))))
      · exact jumpTo_cons.2 ⟨Instr.jumpsTo_of_not rfl, jumpTo_nil⟩
  | logical connective left right, start => by
      rw [code]
      refine jumpTo_append.2 ⟨(jumpTo_code left start).mono ?_, jumpTo_cons.2
        ⟨?_, jumpTo_append.2 ⟨(jumpTo_code right _).mono ?_, ?_⟩⟩⟩
      · exact fun target hmem => mem_boundaries_append.2 (.inl hmem)
      · refine Instr.jumpsTo_jump _ (mem_boundaries_append.2 (.inr
          (List.mem_cons_of_mem _ (mem_boundaries_append.2 (.inr ?_)))))
        exact List.mem_cons_self
      · exact fun target hmem => mem_boundaries_append.2 (.inr
          (List.mem_cons_of_mem _ (mem_boundaries_append.2 (.inl hmem))))
      · exact jumpTo_cons.2 ⟨Instr.jumpsTo_of_not rfl, jumpTo_cons.2 ⟨Instr.jumpsTo_of_not rfl,
          jumpTo_cons.2 ⟨Instr.jumpsTo_of_not rfl, jumpTo_nil⟩⟩⟩
  | call callee arguments, start => by
      rw [code]
      refine jumpTo_append.2 ⟨(jumpTo_argumentCode arguments start).mono ?_, jumpTo_cons.2
        ⟨Instr.jumpsTo_of_not rfl, ?_⟩⟩
      · exact fun target hmem => mem_boundaries_append.2 (.inl hmem)
      · by_cases hnone : arguments.length = 0
        · rw [if_pos hnone]
          exact jumpTo_nil
        · rw [if_neg hnone]
          exact jumpTo_cons.2 ⟨Instr.jumpsTo_of_not rfl, jumpTo_nil⟩
  | trap request arguments, start => by
      rw [code]
      refine jumpTo_append.2 ⟨(jumpTo_argumentCode arguments start).mono ?_, ?_⟩
      · exact fun target hmem => mem_boundaries_append.2 (.inl hmem)
      · exact jumpTo_cons.2 ⟨Instr.jumpsTo_of_not rfl, jumpTo_nil⟩

theorem jumpTo_argumentCode : ∀ (arguments : List Expr) (start : Nat),
    JumpTo (boundaries start (argumentCode start arguments)) (argumentCode start arguments)
  | [], start => jumpTo_nil
  | argument :: rest, start => by
      rw [argumentCode]
      refine jumpTo_append.2 ⟨(jumpTo_code argument start).mono ?_, jumpTo_cons.2
        ⟨Instr.jumpsTo_of_not rfl, (jumpTo_argumentCode rest _).mono ?_⟩⟩
      · exact fun target hmem => mem_boundaries_append.2 (.inl hmem)
      · exact fun target hmem => mem_boundaries_append.2 (.inr (List.mem_cons_of_mem _ hmem))

end

end Expr

theorem Stmt.jumpTo_code (statement : Stmt) (start : Nat) :
    JumpTo (boundaries start (statement.code start)) (statement.code start) := by
  induction statement generalizing start with
  | skip => exact jumpTo_nil
  | seq first second ihFirst ihSecond =>
      rw [code]
      refine jumpTo_append.2 ⟨(ihFirst start).mono ?_, (ihSecond _).mono ?_⟩
      · exact fun target hmem => mem_boundaries_append.2 (.inl hmem)
      · exact fun target hmem => mem_boundaries_append.2 (.inr hmem)
  | store place value =>
      rw [code]
      refine jumpTo_append.2 ⟨(value.jumpTo_code start).mono ?_, jumpTo_store place⟩
      exact fun target hmem => mem_boundaries_append.2 (.inl hmem)
  | evaluate value => exact value.jumpTo_code start
  | leave value =>
      cases value with
      | none => exact jumpTo_cons.2 ⟨Instr.jumpsTo_of_not rfl, jumpTo_nil⟩
      | some value =>
          rw [code]
          refine jumpTo_append.2 ⟨(value.jumpTo_code start).mono ?_, jumpTo_cons.2
            ⟨Instr.jumpsTo_of_not rfl, jumpTo_nil⟩⟩
          exact fun target hmem => mem_boundaries_append.2 (.inl hmem)
  | ifThen condition consequence ih =>
      rw [code]
      refine jumpTo_append.2 ⟨(condition.jumpTo_code start).mono ?_, jumpTo_cons.2
        ⟨?_, (ih _).mono ?_⟩⟩
      · exact fun target hmem => mem_boundaries_append.2 (.inl hmem)
      · exact Instr.jumpsTo_jump _ (mem_boundaries_append.2 (.inr
          (List.mem_cons_of_mem _ (stop_mem_boundaries _ _))))
      · exact fun target hmem => mem_boundaries_append.2 (.inr (List.mem_cons_of_mem _ hmem))
  | ifElse condition consequence alternative ihConsequence ihAlternative =>
      rw [code]
      refine jumpTo_append.2 ⟨(condition.jumpTo_code start).mono ?_, jumpTo_cons.2
        ⟨?_, jumpTo_append.2 ⟨(ihConsequence _).mono ?_, jumpTo_cons.2
          ⟨?_, (ihAlternative _).mono ?_⟩⟩⟩⟩
      · exact fun target hmem => mem_boundaries_append.2 (.inl hmem)
      · exact Instr.jumpsTo_jump _ (mem_boundaries_append.2 (.inr (List.mem_cons_of_mem _
          (mem_boundaries_append.2 (.inr (List.mem_cons_of_mem _ (start_mem_boundaries _ _)))))))
      · exact fun target hmem => mem_boundaries_append.2 (.inr (List.mem_cons_of_mem _
          (mem_boundaries_append.2 (.inl hmem))))
      · exact Instr.jumpsTo_jump _ (mem_boundaries_append.2 (.inr (List.mem_cons_of_mem _
          (mem_boundaries_append.2 (.inr (List.mem_cons_of_mem _ (stop_mem_boundaries _ _)))))))
      · exact fun target hmem => mem_boundaries_append.2 (.inr (List.mem_cons_of_mem _
          (mem_boundaries_append.2 (.inr (List.mem_cons_of_mem _ hmem)))))
  | whileLoop condition body ih =>
      rw [code]
      refine jumpTo_append.2 ⟨(condition.jumpTo_code start).mono ?_, jumpTo_cons.2
        ⟨?_, jumpTo_append.2 ⟨(ih _).mono ?_, jumpTo_cons.2 ⟨?_, jumpTo_nil⟩⟩⟩⟩
      · exact fun target hmem => mem_boundaries_append.2 (.inl hmem)
      · exact Instr.jumpsTo_jump _ (mem_boundaries_append.2 (.inr (List.mem_cons_of_mem _
          (mem_boundaries_append.2 (.inr (List.mem_cons_of_mem _ List.mem_cons_self))))))
      · exact fun target hmem => mem_boundaries_append.2 (.inr (List.mem_cons_of_mem _
          (mem_boundaries_append.2 (.inl hmem))))
      · exact Instr.jumpsTo_jump _ (mem_boundaries_append.2 (.inl (start_mem_boundaries _ _)))

/-! ## Instructions of valid trees -/

/-- Whether an instruction is complete and refers to nothing that is not there. -/
structure Instr.Proper (context : Context) (instr : Instr) : Prop where
  patched : instr.opcode ≠ .plac
  operand : instr.opcode.hasOperand = true ↔ instr.operand ≠ .none
  address : instr.opcode = .lea → ∃ place : Place, place.Valid context ∧ place.isLocal = true ∧
    instr.operand = .known place.operand
  callee : ∀ name, instr.operand = .entry name → instr.opcode = .call ∧
    (context.functions name).isSome
  call : instr.opcode = .call → ∃ name, instr = .call name

theorem Instr.proper_plain {opcode : Opcode} (hpatched : opcode ≠ .plac)
    (hoperand : opcode.hasOperand = false) : (plain opcode).Proper context where
  patched := hpatched
  operand := by simp [plain, hoperand]
  address := by
    rintro rfl
    cases hoperand
  callee := fun name hentry => by cases hentry
  call := by
    rintro rfl
    cases hoperand

theorem Instr.proper_withWord {opcode : Opcode} {word : Word} (hoperand : opcode.hasOperand = true)
    (haddress : opcode ≠ .lea) (hcall : opcode ≠ .call) :
    (withWord opcode word).Proper context where
  patched := by
    rintro rfl
    cases hoperand
  operand := by simp [withWord, hoperand]
  address := fun hlea => absurd hlea haddress
  callee := fun name hentry => by cases hentry
  call := fun hopcode => absurd hopcode hcall

theorem Instr.proper_call {name : String} (h : (context.functions name).isSome) :
    (Instr.call name).Proper context where
  patched := Opcode.noConfusion
  operand := by simp [Instr.call, Opcode.hasOperand]
  address := fun hlea => Opcode.noConfusion hlea
  callee := by
    intro other hentry
    cases hentry
    exact ⟨rfl, h⟩
  call := fun _ => ⟨name, rfl⟩

theorem Place.proper_load {place : Place} (h : place.Valid context) :
    place.load.Proper context := by
  cases place with
  | global address => exact Instr.proper_withWord rfl Opcode.noConfusion Opcode.noConfusion
  | slot index =>
      exact
        { patched := Opcode.noConfusion
          operand := by simp [Place.load, Place.isLocal, Instr.withWord, Opcode.hasOperand]
          address := fun _ => ⟨_, h, rfl, rfl⟩
          callee := fun name hentry => by cases hentry
          call := fun hcall => by cases hcall }
  | parameter distance =>
      exact
        { patched := Opcode.noConfusion
          operand := by simp [Place.load, Place.isLocal, Instr.withWord, Opcode.hasOperand]
          address := fun _ => ⟨_, h, rfl, rfl⟩
          callee := fun name hentry => by cases hentry
          call := fun hcall => by cases hcall }

/-- All instructions of the code are proper. -/
def AllProper (context : Context) (code : List Instr) : Prop :=
  ∀ instr ∈ code, instr.Proper context

theorem allProper_append {front back : List Instr} :
    AllProper context (front ++ back) ↔ AllProper context front ∧ AllProper context back :=
  List.forall_mem_append

theorem allProper_cons {instr : Instr} {rest : List Instr} :
    AllProper context (instr :: rest) ↔ instr.Proper context ∧ AllProper context rest :=
  List.forall_mem_cons

theorem allProper_nil : AllProper context [] :=
  fun _ hmem => absurd hmem List.not_mem_nil

theorem allProper_singleton {instr : Instr} (h : instr.Proper context) :
    AllProper context [instr] :=
  allProper_cons.2 ⟨h, allProper_nil⟩

theorem Instr.proper_push : (Instr.plain .push).Proper context :=
  proper_plain Opcode.noConfusion rfl

theorem Instr.proper_leave : (Instr.plain .lev).Proper context :=
  proper_plain Opcode.noConfusion rfl

theorem Instr.proper_binary (operator : Operator) : (plain (.binary operator)).Proper context :=
  proper_plain Opcode.noConfusion rfl

theorem Instr.proper_jump {opcode : Opcode} (hjump : opcode.isJump = true) (target : Nat) :
    (jump opcode target).Proper context := by
  refine proper_withWord ?_ ?_ ?_
  · cases opcode <;> first | rfl | cases hjump
  · rintro rfl
    cases hjump
  · rintro rfl
    cases hjump

theorem isJump_jumpOf (connective : Syntax.Connective) : (jumpOf connective).isJump = true := by
  cases connective <;> rfl

theorem Place.allProper_store {place : Place} (h : place.Valid context) :
    AllProper context place.store :=
  allProper_cons.2 ⟨Instr.proper_push, allProper_cons.2 ⟨proper_load h,
    allProper_singleton (Instr.proper_plain Opcode.noConfusion rfl)⟩⟩

namespace Expr

mutual

theorem allProper_code : ∀ (e : Expr) (start : Nat), e.Valid context →
    AllProper context (e.code start)
  | constant value, start, _ =>
      allProper_singleton (Instr.proper_withWord rfl Opcode.noConfusion Opcode.noConfusion)
  | load place, start, hplace =>
      allProper_cons.2 ⟨Place.proper_load hplace,
        allProper_singleton (Instr.proper_plain Opcode.noConfusion rfl)⟩
  | address place, start, hplace => allProper_singleton (Place.proper_load hplace)
  | follow pointer, start, hpointer => by
      rw [code]
      exact allProper_append.2 ⟨allProper_code pointer start hpointer,
        allProper_singleton (Instr.proper_plain Opcode.noConfusion rfl)⟩
  | binary operator left right, start, hparts => by
      rw [code]
      exact allProper_append.2 ⟨allProper_code left start hparts.1, allProper_cons.2
        ⟨Instr.proper_push, allProper_append.2 ⟨allProper_code right _ hparts.2,
          allProper_singleton (Instr.proper_binary operator)⟩⟩⟩
  | logical connective left right, start, hparts => by
      rw [code]
      refine allProper_append.2 ⟨allProper_code left start hparts.1, allProper_cons.2
        ⟨Instr.proper_jump (isJump_jumpOf connective) _, allProper_append.2
          ⟨allProper_code right _ hparts.2, allProper_cons.2 ⟨Instr.proper_push,
            allProper_cons.2 ⟨?_, allProper_singleton (Instr.proper_binary .ne)⟩⟩⟩⟩⟩
      exact Instr.proper_withWord rfl Opcode.noConfusion Opcode.noConfusion
  | call callee arguments, start, hcall => by
      rw [code]
      refine allProper_append.2 ⟨allProper_argumentCode arguments start hcall.2, allProper_cons.2
        ⟨Instr.proper_call (by rw [hcall.1]; rfl), ?_⟩⟩
      by_cases hnone : arguments.length = 0
      · rw [if_pos hnone]
        exact allProper_nil
      · rw [if_neg hnone]
        exact allProper_singleton
          (Instr.proper_withWord rfl Opcode.noConfusion Opcode.noConfusion)
  | trap request arguments, start, htrap => by
      rw [code]
      exact allProper_append.2 ⟨allProper_argumentCode arguments start htrap.2,
        allProper_singleton (Instr.proper_withWord rfl Opcode.noConfusion Opcode.noConfusion)⟩

theorem allProper_argumentCode : ∀ (arguments : List Expr) (start : Nat),
    AllValid context arguments → AllProper context (argumentCode start arguments)
  | [], start, _ => allProper_nil
  | argument :: rest, start, hall => by
      rw [argumentCode]
      exact allProper_append.2 ⟨allProper_code argument start hall.1, allProper_cons.2
        ⟨Instr.proper_push, allProper_argumentCode rest _ hall.2⟩⟩

end

end Expr

theorem Stmt.allProper_code (statement : Stmt) (start : Nat) (h : statement.Valid context) :
    AllProper context (statement.code start) := by
  induction statement generalizing start with
  | skip => exact allProper_nil
  | seq first second ihFirst ihSecond =>
      exact allProper_append.2 ⟨ihFirst start h.1, ihSecond _ h.2⟩
  | store place value =>
      exact allProper_append.2 ⟨value.allProper_code start h.2, Place.allProper_store h.1⟩
  | evaluate value => exact value.allProper_code start h
  | leave value =>
      cases value with
      | none => exact allProper_singleton Instr.proper_leave
      | some value =>
          exact allProper_append.2 ⟨value.allProper_code start (h value rfl),
            allProper_singleton Instr.proper_leave⟩
  | ifThen condition consequence ih =>
      exact allProper_append.2 ⟨condition.allProper_code start h.1, allProper_cons.2
        ⟨Instr.proper_jump rfl _, ih _ h.2⟩⟩
  | ifElse condition consequence alternative ihConsequence ihAlternative =>
      exact allProper_append.2 ⟨condition.allProper_code start h.1, allProper_cons.2
        ⟨Instr.proper_jump rfl _, allProper_append.2 ⟨ihConsequence _ h.2.1, allProper_cons.2
          ⟨Instr.proper_jump rfl _, ihAlternative _ h.2.2⟩⟩⟩⟩
  | whileLoop condition body ih =>
      exact allProper_append.2 ⟨condition.allProper_code start h.1, allProper_cons.2
        ⟨Instr.proper_jump rfl _, allProper_append.2 ⟨ih _ h.2,
          allProper_singleton (Instr.proper_jump rfl _)⟩⟩⟩

end Core

end WordC
