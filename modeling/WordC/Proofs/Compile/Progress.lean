import WordC.Proofs.Compile.Courses

/-!
# The course of expressions and statements

An expression takes a token at least, and so does a statement. So whatever nests or repeats is left
with fewer tokens each time.
-/

namespace WordC.Compiler.Course

open Token (Landmark)

variable {α : Type} {course : Course} {a b : Mark} {n : Nat}
  {operand operand' argument argument' statement statement' : Compile Unit}

/-- Wherever fewer than `n` tokens are left, the two actions go on in the same way and take one at
least. -/
def Takes (course : Course) (n : Nat) (action other : Compile Unit) : Prop :=
  ∀ a : Mark, a.left < n → course.Goes a action other fun _ => a.Leads 1

/-! ## Expressions -/

theorem goes_emitAddress (symbol : Symbol) :
    course.GoesBoth a (emitAddress symbol) fun _ b => b = a :=
  goes_emitWith _ _

theorem goes_linkOperand (hoperand : course.Takes n operand operand') (hlt : a.left < n)
    (link : Link) :
    course.Goes a (linkOperand operand link) (linkOperand operand' link) fun _ => a.Leads 1 := by
  cases link with
  | combines operator =>
      exact (goes_emit _).stay fun _ => (hoperand a hlt).bind fun _ b hb =>
        (goes_emit _).rests hb (Nat.le_refl _)
  | decides jump =>
      refine (goes_emitPending jump).bind ?_
      rintro decided _ rfl
      refine (hoperand (a.withSite decided) hlt).bind fun _ b hb => ?_
      have hdecided : decided ∈ b.sites := hb.sites List.mem_cons_self
      have hleads : a.Leads 1 b :=
        (((Mark.Leads.refl a).withSite decided).trans hb).least (by omega)
      exact (goes_patchHere hdecided).stay fun _ => (goes_emit _).stay fun _ =>
        (goes_emitWith _ _).stay fun _ => (goes_emit _).rests hleads (Nat.le_refl _)

theorem goes_chain (level : Level) (hoperand : course.Takes n operand operand') (hle : a.left ≤ n)
    {rounds rounds' : Nat} (hrounds : a.left < rounds) (hrounds' : a.left < rounds') :
    course.Goes a (chain level operand rounds) (chain level operand' rounds') fun _ =>
      a.Leads 0 := by
  induction rounds generalizing a rounds' with
  | zero => exact absurd hrounds (Nat.not_lt_zero _)
  | succ rounds ih =>
      obtain ⟨rounds', rfl⟩ := Nat.exists_eq_add_one_of_ne_zero (Nat.ne_zero_of_lt hrounds')
      refine goes_peek.bind ?_
      rintro kind b ⟨rfl, hleft⟩
      cases hlink : level.link? kind with
      | none => exact .pure (.refl b)
      | some link =>
          have hne : b.left ≠ 0 := hleft fun hend => by
            rw [hend] at hlink
            cases hlink
          refine (goes_advance hne).bind fun _ c hc => ?_
          refine (goes_linkOperand hoperand (Nat.lt_of_lt_of_le hc.lt hle) link).on hc
            fun _ c hc => ?_
          have hlt := hc.lt
          exact (ih (by omega) (by omega) (by omega)).ends hc (Nat.zero_le _)

theorem goes_cascade {first first' : Compile Unit} {taken : Nat}
    (hfirst : course.Goes a first first' fun _ => a.Leads taken)
    (hoperand : course.Takes n operand operand') (hle : a.left ≤ n) (levels : List Level) :
    course.Goes a (cascade first operand levels) (cascade first' operand' levels) fun _ =>
      a.Leads taken := by
  induction levels generalizing a first first' taken with
  | nil => exact hfirst
  | cons level tighter ih =>
      refine (goes_openRule _).stay fun _ => (ih hfirst hle).bind fun _ b hb =>
        goes_bound fun rounds rounds' hrounds hrounds' => ?_
      have htighter : course.Takes n (cascade operand operand tighter)
          (cascade operand' operand' tighter) :=
        fun c hc => ih (hoperand c hc) (Nat.le_of_lt hc)
      exact (goes_chain level htighter (Nat.le_trans hb.le hle) hrounds hrounds').on hb
        fun _ c hc => goes_closeRule.rests hc (Nat.le_add_right _ _)

theorem goes_arguments (hargument : course.Takes n argument argument') (hlt : a.left < n)
    {rounds rounds' : Nat} (hrounds : a.left < rounds) (hrounds' : a.left < rounds') :
    course.Goes a (arguments argument rounds) (arguments argument' rounds') fun _ =>
      a.Leads 1 := by
  induction rounds generalizing a rounds' with
  | zero => exact absurd hrounds (Nat.not_lt_zero _)
  | succ rounds ih =>
      obtain ⟨rounds', rfl⟩ := Nat.exists_eq_add_one_of_ne_zero (Nat.ne_zero_of_lt hrounds')
      refine (hargument a hlt).bind fun _ b hb => (goes_emit _).stay fun _ =>
        (goes_atMark _).bind ?_
      rintro found c ⟨rfl, hleft⟩
      refine .ite (fun hfound => ?_) fun _ => .pure hb
      refine (goes_advance (hleft hfound)).on hb fun _ d hd => ?_
      have hless := hd.lt
      exact (ih (by omega) (by omega) (by omega)).bind fun _ e he =>
        .pure ((hd.trans he).least (by omega))

theorem goes_emitCall (callee : Symbol) (given : Nat) {position : Position}
    (hposition : position.IsLandmark course.source) :
    course.GoesBoth a (emitCall callee given position) fun _ =>
      a.Leads 0 := by
  have hadjust (b : Mark) (hb : a.Leads 0 b) : course.GoesBoth b
      (if 0 < given then emitWith .adj (Word.ofCount given) else Pure.pure ()) fun _ =>
        a.Leads 0 :=
    .ite (fun _ => (goes_emitWith _ _).rests hb (Nat.le_refl _)) fun _ => .pure hb
  refine .ite (fun _ => ?_) fun _ => .ite (fun _ => ?_) fun _ => ?_
  · cases (Opcode.ofWord? callee.value).filter (·.isTrap) with
    | some trap => exact (goes_emitWith _ _).rests (.refl a) (Nat.le_refl _)
    | none => exact .throw (.undefinedName hposition)
  · exact (goes_emitWith _ _).stay fun _ => hadjust a (.refl a)
  · refine (goes_emitPending _).bind ?_
    rintro site _ rfl
    refine (goes_update (b := a.withSite site) (fun _ _ => rfl) fun s hat => { hat with
      pending := fun call hcall => ?_ }).stay fun _ => hadjust _ ((Mark.Leads.refl a).withSite site)
    rcases List.mem_append.1 hcall with hold | hnew
    · exact hat.pending call hold
    · rw [List.mem_singleton.1 hnew]
      exact List.mem_cons_self

/-- What follows the arguments of a call. -/
theorem goes_called (callee : Symbol) (given : Nat) {position : Position}
    (hposition : position.IsLandmark course.source) (hb : a.Leads 1 b) :
    course.GoesBoth b
      (do
        expectMark .rightParen
        match callee.params with
        | some expected =>
            if expected ≠ given then throw (.argumentCount callee.name expected given position)
        | none => Pure.pure ()
        emitCall callee given position) fun _ => a.Leads 1 := by
  refine (goes_expectMark _).on hb fun _ c hc => ?_
  have hemit := (goes_emitCall callee given hposition).ends hc (Nat.le_add_right 1 _)
  cases callee.params with
  | some expected => exact .guard (.argumentCount hposition) fun _ => hemit
  | none => exact hemit

theorem goes_call (hargument : course.Takes a.left argument argument') (callee : Symbol)
    {position : Position} (hposition : position.IsLandmark course.source) :
    course.Goes a (call argument callee position) (call argument' callee position) fun _ =>
      a.Leads 1 := by
  refine (goes_expectMark _).bind fun _ b hb => (goes_atMark _).bind ?_
  rintro found c ⟨rfl, -⟩
  refine .ite (fun _ => goes_called callee 0 hposition hb) fun _ =>
    goes_bound fun _ _ hrounds hrounds' => ?_
  exact (goes_arguments hargument hb.lt hrounds hrounds').on hb fun given d hd =>
    goes_called callee given hposition (hd.least (by omega))

theorem goes_nameValue (hargument : course.Takes a.left argument argument') {token : Token}
    (htoken : Landmark course.source token.start) :
    course.Goes a (nameValue argument token) (nameValue argument' token) fun _ => a.Leads 0 := by
  refine (goes_locate htoken).bind ?_
  rintro position b ⟨rfl, hposition⟩
  cases token.kind with
  | identifier name =>
      refine (goes_resolve hposition).bind ?_
      rintro symbol b ⟨rfl, -⟩
      have hcall : course.Goes b
          (do
            openRule .call
            record token
            call argument symbol position
            closeRule)
          (do
            openRule .call
            record token
            call argument' symbol position
            closeRule) fun _ => b.Leads 0 :=
        (goes_openRule _).stay fun _ => (goes_record token).stay fun _ =>
          (goes_call hargument symbol hposition).bind fun _ c hc =>
          goes_closeRule.rests hc (Nat.zero_le _)
      cases symbol.cls with
      | object =>
          exact (goes_record token).stay fun _ => (goes_emitAddress symbol).stay fun _ =>
            (goes_emit _).rests (.refl b) (Nat.le_refl _)
      | constant =>
          exact (goes_record token).stay fun _ =>
            (goes_emitWith _ _).rests (.refl b) (Nat.le_refl _)
      | function => exact hcall
      | system => exact hcall
  | _ => exact goes_unexpected _

theorem goes_addressOf : course.GoesBoth a addressOf fun _ => a.Leads 1 := by
  refine goes_expectIdentifier.bind ?_
  rintro ⟨name, position⟩ b ⟨hb, hposition⟩
  refine (goes_resolve hposition).bind ?_
  rintro symbol c ⟨rfl, -⟩
  exact .guard (.unexpectedSymbol hposition) fun _ =>
    (goes_emitAddress symbol).rests hb (Nat.le_refl _)

theorem goes_primary {nested nested' : Compile Unit}
    (hnested : course.Takes a.left nested nested') :
    course.Goes a (primary nested) (primary nested') fun _ => a.Leads 1 := by
  refine goes_peek.bind ?_
  rintro kind b ⟨rfl, hleft⟩
  have hload (hne : b.left ≠ 0) (word : Word) : course.GoesBoth b
      (advance >>= fun _ => emitWith .imm word) fun _ => b.Leads 1 :=
    (goes_advance hne).bind fun _ c hc => (goes_emitWith _ _).rests hc (Nat.le_refl _)
  cases kind with
  | number value => exact hload (hleft nofun) value
  | character c => exact hload (hleft nofun) _
  | string text => exact (goes_allocate _).stay fun _ => hload (hleft nofun) _
  | identifier name =>
      refine (goes_take (hleft nofun)).bind ?_
      rintro token c ⟨hc, htoken⟩
      refine (goes_nameValue (fun d hd => hnested d (Nat.lt_trans hd hc.lt)) htoken).ends hc ?_
      exact Nat.le_refl _
  | punctuator mark =>
      cases mark with
      | leftParen =>
          exact (goes_advance (hleft nofun)).bind fun _ c hc => (hnested c hc.lt).on hc
            fun _ d hd => (goes_expectMark _).ends hd (by omega)
      | _ => exact goes_unexpected _
  | _ => exact goes_unexpected _

theorem goes_unary {depth depth' : Nat} (hdepth : a.left < depth) (hdepth' : a.left < depth') :
    course.Goes a (unary depth) (unary depth') fun _ => a.Leads 1 := by
  induction depth generalizing a depth' with
  | zero => exact absurd hdepth (Nat.not_lt_zero _)
  | succ depth ih =>
      obtain ⟨depth', rfl⟩ := Nat.exists_eq_add_one_of_ne_zero (Nat.ne_zero_of_lt hdepth')
      refine (goes_openRule _).stay fun _ => goes_peek.bind ?_
      rintro kind b ⟨rfl, hleft⟩
      have hnested : course.Takes b.left (unary depth) (unary depth') :=
        fun c hc => ih (by omega) (by omega)
      have hprimary : course.Goes b
          (do
            primary (cascade (unary depth) (unary depth) levels)
            closeRule)
          (do
            primary (cascade (unary depth') (unary depth') levels)
            closeRule) fun _ => b.Leads 1 := by
        refine (goes_primary fun c hc => ?_).bind fun _ c hc =>
          goes_closeRule.rests hc (Nat.le_refl _)
        exact goes_cascade (hnested c hc) hnested (Nat.le_of_lt hc) levels
      have hclose {c : Mark} {k : Nat} (hc : b.Leads (k + 1) c) (word : Word)
          (operator : Operator) : course.GoesBoth c
          (do
            emit .push
            emitWith .imm word
            emit (.binary operator)
            closeRule) fun _ => b.Leads 1 :=
        (goes_emit _).stay fun _ => (goes_emitWith _ _).stay fun _ => (goes_emit _).stay fun _ =>
          goes_closeRule.rests hc (by omega)
      cases kind with
      | punctuator mark =>
          have hadvance := @goes_advance course b (hleft nofun)
          cases mark with
          | minus =>
              exact hadvance.bind fun _ c hc => (goes_emitWith _ _).stay fun _ =>
                (goes_emit _).stay fun _ => (hnested c hc.lt).on hc fun _ d hd =>
                (goes_emit _).stay fun _ => goes_closeRule.rests hd (by omega)
          | plus =>
              exact hadvance.bind fun _ c hc => (hnested c hc.lt).on hc fun _ d hd =>
                goes_closeRule.rests hd (by omega)
          | bang =>
              exact hadvance.bind fun _ c hc => (hnested c hc.lt).on hc fun _ d hd =>
                hclose hd 0 .eq
          | tilde =>
              exact hadvance.bind fun _ c hc => (hnested c hc.lt).on hc fun _ d hd =>
                hclose hd (-1) .xor
          | star =>
              exact hadvance.bind fun _ c hc => (hnested c hc.lt).on hc fun _ d hd =>
                (goes_emit _).stay fun _ => goes_closeRule.rests hd (by omega)
          | amp =>
              exact hadvance.bind fun _ c hc => goes_addressOf.on hc fun _ d hd =>
                goes_closeRule.rests hd (by omega)
          | _ => exact hprimary
      | keyword word =>
          cases word with
          | sizeofKw =>
              exact (goes_advance (hleft nofun)).bind fun _ c hc => (goes_expectMark _).on hc
                fun _ d hd => goes_expectType.on hd fun _ e he => (goes_expectMark _).on he
                fun _ f hf => (goes_emitWith _ _).stay fun _ => goes_closeRule.rests hf (by omega)
          | _ => exact hprimary
      | _ => exact hprimary

theorem goes_expression : course.GoesBoth a expression fun _ => a.Leads 1 :=
  goes_bound fun _ _ hdepth hdepth' => goes_cascade (goes_unary hdepth hdepth')
    (fun _ hb => goes_unary (Nat.lt_trans hb hdepth) (Nat.lt_trans hb hdepth')) (Nat.le_refl _)
    levels

theorem goes_expressionFrom {head : Token} (hhead : Landmark course.source head.start) :
    course.GoesBoth a (expressionFrom head) fun _ => a.Leads 0 :=
  goes_bound fun _ _ hdepth hdepth' => goes_cascade
    (goes_nameValue (fun _ _ => goes_expression) hhead)
    (fun _ hb => goes_unary (Nat.lt_trans hb hdepth) (Nat.lt_trans hb hdepth')) (Nat.le_refl _)
    levels

/-! ## Statements -/

theorem goes_emitStore (symbol : Symbol) :
    course.GoesBoth a (emitStore symbol) fun _ b => b = a :=
  (goes_emit _).stay fun _ => (goes_emitAddress symbol).stay fun _ => goes_emit _

theorem goes_localVariables (type : TypeName) {rounds rounds' : Nat} (hrounds : a.left < rounds)
    (hrounds' : a.left < rounds') :
    course.Goes a (localVariables type rounds) (localVariables type rounds') fun _ =>
      a.Leads 1 := by
  induction rounds generalizing a rounds' with
  | zero => exact absurd hrounds (Nat.not_lt_zero _)
  | succ rounds ih =>
      obtain ⟨rounds', rfl⟩ := Nat.exists_eq_add_one_of_ne_zero (Nat.ne_zero_of_lt hrounds')
      refine goes_expectIdentifier.bind ?_
      rintro ⟨name, position⟩ b ⟨hb, hposition⟩
      refine (goes_frame _).stay fun _ => (goes_look fun _ _ => rfl).stay fun slot =>
        (goes_declare hposition).stay fun symbol => (goes_atMark _).bind ?_
      have hmore (c : Mark) (hc : a.Leads 1 c) : course.Goes c
          (atMark .comma >>= fun more =>
            if more then advance >>= fun _ => localVariables type rounds else Pure.pure ())
          (atMark .comma >>= fun more =>
            if more then advance >>= fun _ => localVariables type rounds' else Pure.pure ())
          fun _ => a.Leads 1 := by
        refine (goes_atMark _).bind ?_
        rintro more d ⟨rfl, hleft⟩
        refine .ite (fun hmore => (goes_advance (hleft hmore)).on hc fun _ e he => ?_)
          fun _ => .pure hc
        have hlt := he.lt
        exact (ih (by omega) (by omega)).ends he (by omega)
      rintro found c ⟨rfl, hleft⟩
      exact .ite (fun hfound => (goes_advance (hleft hfound)).on hb fun _ d hd =>
        goes_expression.on hd fun _ e he => (goes_emitStore symbol).stay fun _ =>
        hmore e (he.least (by omega))) fun _ => hmore _ hb

theorem goes_localDeclaration :
    course.GoesBoth a localDeclaration fun _ => a.Leads 1 :=
  (goes_openRule _).stay fun _ => goes_expectType.bind fun type _ hb =>
    goes_bound fun _ _ hrounds hrounds' => (goes_localVariables type hrounds hrounds').on hb
    fun _ _ hc => (goes_expectMark _).on hc fun _ _ hd => goes_closeRule.rests hd (by omega)

theorem goes_localDeclarations {rounds rounds' : Nat} (hrounds : a.left < rounds)
    (hrounds' : a.left < rounds') :
    course.Goes a (localDeclarations rounds) (localDeclarations rounds') fun _ => a.Leads 0 := by
  induction rounds generalizing a rounds' with
  | zero => exact absurd hrounds (Nat.not_lt_zero _)
  | succ rounds ih =>
      obtain ⟨rounds', rfl⟩ := Nat.exists_eq_add_one_of_ne_zero (Nat.ne_zero_of_lt hrounds')
      refine goes_peek.bind ?_
      rintro kind b ⟨rfl, -⟩
      refine .ite (fun _ => goes_localDeclaration.bind fun _ c hc => ?_) fun _ => .pure (.refl b)
      have hlt := hc.lt
      exact (ih (by omega) (by omega)).ends hc (Nat.zero_le _)

theorem goes_statements (hstatement : course.Takes n statement statement') (hlt : a.left < n)
    {rounds rounds' : Nat} (hrounds : a.left < rounds) (hrounds' : a.left < rounds') :
    course.Goes a (statements statement rounds) (statements statement' rounds') fun _ =>
      a.Leads 0 := by
  induction rounds generalizing a rounds' with
  | zero => exact absurd hrounds (Nat.not_lt_zero _)
  | succ rounds ih =>
      obtain ⟨rounds', rfl⟩ := Nat.exists_eq_add_one_of_ne_zero (Nat.ne_zero_of_lt hrounds')
      refine (goes_atMark _).bind ?_
      rintro found b ⟨rfl, -⟩
      refine .ite (fun _ => (hstatement b hlt).bind fun _ c hc => ?_) fun _ => .pure (.refl b)
      have hless := hc.lt
      exact (ih (by omega) (by omega) (by omega)).ends hc (Nat.zero_le _)

theorem goes_blockContents (hstatement : course.Takes n statement statement') (hlt : a.left < n) :
    course.Goes a (blockContents statement) (blockContents statement') fun _ => a.Leads 0 :=
  goes_bound fun _ _ hrounds hrounds' => (goes_localDeclarations hrounds hrounds').bind
    fun _ _ hb =>
      (goes_statements hstatement (Nat.lt_of_le_of_lt hb.le hlt) (Nat.lt_of_le_of_lt hb.le hrounds)
        (Nat.lt_of_le_of_lt hb.le hrounds')).ends hb (Nat.zero_le _)

theorem goes_block (hstatement : course.Takes a.left statement statement') :
    course.Goes a (block statement) (block statement') fun _ => a.Leads 1 := by
  refine (goes_openRule _).stay fun _ => (goes_expectMark _).bind fun _ b hb =>
    goes_enterScope.bind ?_
  rintro _ _ rfl
  refine (goes_look fun _ _ => rfl).stay fun used =>
    (goes_blockContents (a := b.enter) hstatement hb.lt).bind fun _ c hc =>
    (goes_expectMark _).on hc fun _ d hd => ?_
  have hlevel : d.level ≠ 0 := hd.level ▸ Nat.succ_ne_zero b.level
  have hleads : a.Leads 1 d.leave := (hb.trans hd.leave).least (by omega)
  refine (goes_leaveScope hlevel).bind ?_
  rintro _ _ rfl
  exact (goes_frame fun frame => { frame with used }).stay fun _ =>
    goes_closeRule.rests hleads (Nat.le_refl _)

theorem goes_ifStatement (hstatement : course.Takes a.left statement statement') :
    course.Goes a (ifStatement statement) (ifStatement statement') fun _ => a.Leads 1 := by
  refine (goes_openRule _).stay fun _ => (goes_expectWord _).bind fun _ b hb =>
    (goes_expectMark _).on hb fun _ c hc => goes_expression.on hc fun _ d hd =>
    (goes_expectMark _).on hd fun _ e he => (goes_emitPending _).bind ?_
  rintro skipThen _ rfl
  refine (hstatement (e.withSite skipThen) he.lt).bind fun _ f hf => (goes_atKind _).bind ?_
  have hthen : skipThen ∈ f.sites := hf.sites List.mem_cons_self
  have hbody : a.Leads 1 f := ((he.withSite skipThen).trans hf).least (by omega)
  rintro found g ⟨rfl, hleft⟩
  refine .ite (fun hfound => ?_) fun _ => (goes_patchHere hthen).stay fun _ =>
    goes_closeRule.rests hbody (Nat.le_refl _)
  refine (goes_advance (hleft hfound nofun)).bind fun _ g hg => (goes_emitPending _).bind ?_
  rintro skipElse _ rfl
  have hthen' : skipThen ∈ (g.withSite skipElse).sites := List.mem_cons_of_mem _ (hg.sites hthen)
  have hlt : (g.withSite skipElse).left < a.left := (hbody.trans (hg.withSite skipElse)).lt
  refine (goes_patchHere hthen').stay fun _ => (hstatement _ hlt).bind fun _ k hk => ?_
  have hleads := (hbody.trans (hg.withSite skipElse)).trans hk
  exact (goes_patchHere (hk.sites List.mem_cons_self)).stay fun _ =>
    goes_closeRule.rests hleads (by omega)

theorem goes_whileStatement (hstatement : course.Takes a.left statement statement') :
    course.Goes a (whileStatement statement) (whileStatement statement') fun _ => a.Leads 1 := by
  refine (goes_openRule _).stay fun _ => goes_here.stay fun start =>
    (goes_expectWord _).bind fun _ b hb => (goes_expectMark _).on hb fun _ c hc =>
    goes_expression.on hc fun _ d hd => (goes_expectMark _).on hd fun _ e he =>
    (goes_emitPending _).bind ?_
  rintro exit _ rfl
  refine (hstatement (e.withSite exit) he.lt).bind fun _ f hf => (goes_emitWith _ _).stay
    fun _ => (goes_patchHere (hf.sites List.mem_cons_self)).stay fun _ => ?_
  exact goes_closeRule.rests ((he.withSite exit).trans hf) (by omega)

theorem goes_returnStatement :
    course.GoesBoth a returnStatement fun _ => a.Leads 1 := by
  have hbehind (b : Mark) (hb : a.Leads 1 b) : course.GoesBoth b
      (do
        expectMark .semicolon
        emit .lev
        closeRule) fun _ => a.Leads 1 :=
    (goes_expectMark _).on hb fun _ _ hc => (goes_emit _).stay fun _ =>
      goes_closeRule.rests hc (by omega)
  refine (goes_openRule _).stay fun _ => (goes_expectWord _).bind fun _ b hb =>
    (goes_atMark _).bind ?_
  rintro found c ⟨rfl, -⟩
  exact .ite (fun _ => goes_expression.on hb fun _ d hd => hbehind d (hd.least (by omega)))
    fun _ => hbehind _ hb

theorem goes_assignment {target : Token} (htarget : Landmark course.source target.start) :
    course.GoesBoth a (assignment target) fun _ => a.Leads 0 := by
  refine (goes_openRule _).stay fun _ => (goes_record target).stay fun _ =>
    (goes_locate htarget).bind ?_
  rintro position b ⟨rfl, hposition⟩
  cases target.kind with
  | identifier name =>
      refine (goes_resolve hposition).bind ?_
      rintro symbol b ⟨rfl, -⟩
      exact .guard (.unexpectedSymbol hposition) fun _ => (goes_expectMark _).bind fun _ _ hc =>
        goes_expression.on hc fun _ _ hd => (goes_expectMark _).on hd fun _ _ he =>
        (goes_emitStore symbol).stay fun _ => goes_closeRule.rests he (Nat.zero_le _)
  | _ => exact goes_unexpected _

theorem goes_expressionStatement {value value' : Compile Unit} {taken : Nat}
    (hvalue : course.Goes a value value' fun _ => a.Leads taken) :
    course.Goes a (expressionStatement value) (expressionStatement value') fun _ =>
      a.Leads taken :=
  (goes_openRule _).stay fun _ => hvalue.bind fun _ _ hb => (goes_expectMark _).on hb fun _ _ hc =>
    goes_closeRule.rests hc (Nat.le_add_right _ _)

theorem goes_statementAt {depth depth' : Nat} (hdepth : a.left < depth)
    (hdepth' : a.left < depth') :
    course.Goes a (statementAt depth) (statementAt depth') fun _ => a.Leads 1 := by
  induction depth generalizing a depth' with
  | zero => exact absurd hdepth (Nat.not_lt_zero _)
  | succ depth ih =>
      obtain ⟨depth', rfl⟩ := Nat.exists_eq_add_one_of_ne_zero (Nat.ne_zero_of_lt hdepth')
      refine goes_peek.bind ?_
      rintro kind b ⟨rfl, hleft⟩
      have hnested : course.Takes b.left (statementAt depth) (statementAt depth') :=
        fun c hc => ih (by omega) (by omega)
      have hvalue : course.GoesBoth b (expressionStatement expression)
          fun _ => b.Leads 1 := goes_expressionStatement goes_expression
      cases kind with
      | punctuator mark =>
          cases mark with
          | leftBrace => exact goes_block hnested
          | semicolon => exact goes_advance (hleft nofun)
          | _ => exact hvalue
      | keyword word =>
          cases word with
          | ifKw => exact goes_ifStatement hnested
          | whileKw => exact goes_whileStatement hnested
          | returnKw => exact goes_returnStatement
          | _ => exact hvalue
      | identifier name =>
          refine (goes_take (hleft nofun)).bind ?_
          rintro head c ⟨hc, hhead⟩
          refine (goes_atMark _).bind ?_
          rintro found d ⟨rfl, -⟩
          exact .ite (fun _ => (goes_assignment hhead).ends hc (Nat.le_refl _)) fun _ =>
            (goes_expressionStatement (goes_expressionFrom hhead)).ends hc (Nat.le_refl _)
      | _ => exact hvalue

theorem goes_statement : course.Goes a Compiler.statement Compiler.statement fun _ => a.Leads 1 :=
  goes_bound fun _ _ hdepth hdepth' => goes_statementAt hdepth hdepth'

end WordC.Compiler.Course
