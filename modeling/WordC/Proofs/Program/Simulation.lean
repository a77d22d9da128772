import WordC.Proofs.Program.Stores

/-!
# Code does what its tree means

The machine meets the evaluation of a tree whenever it is at the code of that tree and shows the
store. The proof follows the tree; calls are followed as deep as they may be nested, and loops for
as many rounds as they may take. An evaluation that is cut short has been followed for that many
steps.
-/

namespace WordC

open WordC.Core (Context Instr Place Section Store)
open Machine (Leads Meets Steps)
open Syntax (Evaluation resultOf truth repeatWhile)

namespace Core

/-- A function among sections with different names has its own body. -/
theorem lookup_bodies {sections : List Section} (hnodup : (names sections).Nodup) {name : String}
    {arity slots : Nat} {body : Stmt} (h : Section.function name arity slots body ∈ sections) :
    (bodies sections).lookup name = some body := by
  induction sections with
  | nil => cases h
  | cons part rest ih =>
      rcases List.mem_cons.1 h with rfl | hmem
      · exact List.lookup_cons_self
      · have hrest := ih (hnodup.sublist ((List.sublist_cons_self part rest).filterMap _)) hmem
        cases part with
        | initializer address value => exact hrest
        | function other otherArity otherSlots otherBody =>
            have hname : name ∈ names rest := List.mem_filterMap.2 ⟨_, hmem, rfl⟩
            have hne : (name == other) = false := by
              rw [beq_eq_false_iff_ne]
              rintro rfl
              exact (List.nodup_cons.1 hnodup).1 hname
            rw [bodies, List.lookup_cons, hne]
            exact hrest

end Core

namespace Image

variable {image : Image} {route : Route} {arity slots start target depth : Nat} {store : Store}
  {m m' entry : Machine}

/-- The machine meets calls of functions that are nested no deeper than `depth`. -/
def InvokesMeet (image : Image) (route : Route) (depth : Nat) : Prop :=
  ∀ address name arity slots body,
    (address, .function name arity slots body) ∈ image.placed → ∀ m target values store,
      m.pc = address → image.Entering arity target values store m →
      Meets route depth (fun value store' m' => image.Answered arity target m value store' m' ∧
          ∀ place : Place, place.isLocal → store' place = store place) m
        (Core.invoke image.sections depth name values store)

/-- The machine is at an address in the body of a function and shows the store. -/
structure At (image : Image) (entry : Machine) (arity slots target address : Nat) (store : Store)
    (m : Machine) : Prop where
  body : image.Body entry arity slots target m
  pc : m.pc = address
  shows : image.Shows arity slots store m

/-- What a statement leaves behind: the machine is at the next address, or back from the function
once a value has been returned. -/
def Executed (image : Image) (entry : Machine) (arity slots target address : Nat) :
    Option Word → Store → Machine → Prop
  | none => image.At entry arity slots target address
  | some value => image.Answered arity target entry value

namespace Part

variable (hpart : image.Part route.text)

include hpart

/-! ## Expressions -/

theorem meets_call {name : String} {count : Nat} {values : List Word}
    (hinvokes : image.InvokesMeet route depth) (hframed : image.Framed arity slots m)
    (hpushed : image.Pushed arity slots m count start values store m')
    (hline : (start, .call name) ∈ route.text)
    (hfunction : image.context.functions name = some count)
    (hback : start + 2 < image.base.textEnd) :
    Meets route depth (fun value store' m'' => image.After m count (start + 2) m'' ∧
        m''.acc = value ∧ image.Shows arity slots store' m'') m'
      (Core.invoke image.sections depth name values store) := by
  obtain ⟨address, slots', body, hplaced, hentry⟩ := hpart.loaded.functions name count hfunction
  have henter : (address, .withWord .ent (Word.ofCount slots')) ∈ route.text :=
    hpart.functions address name count slots' body hplaced _ List.mem_cons_self
  refine Meets.of_leads (hpart.steps_call hframed hpushed hline hentry
    (hpart.lt_textEnd henter) hback).leads fun entered ⟨hentering, hpc, hreturn⟩ => ?_
  refine (hinvokes address name count slots' body hplaced entered (start + 2) values store hpc
    hentering).weaken fun value store' m'' ⟨hanswered, hlocals⟩ => ?_
  have hafter := hreturn value store' m'' hanswered
  have hslots := hframed.slots
  refine ⟨hafter, hanswered.acc, hpushed.shows.after (hafter.framed hframed) hanswered.unlimited
    (hafter.bp.trans hpushed.after.bp.symm) (fun other hother => ?_) hanswered.globals hlocals⟩
  rw [hpushed.after.bp] at hother
  rw [hafter.stack other (by omega), hpushed.after.stack other (by omega)]

mutual

theorem meets_expr (hinvokes : image.InvokesMeet route depth) :
    ∀ (e : Core.Expr) {start : Nat} {m : Machine} {store : Store},
    e.Valid (image.context.inside arity slots) → route.Has start (e.code start) →
    start + Core.size (e.code start) < image.base.textEnd → image.Shows arity slots store m →
    m.pc = start →
    Meets route depth (image.Evaluated arity slots m (start + Core.size (e.code start))) m
      (e.eval (Core.invoke image.sections depth) store)
  | .constant value, start, m, store, _, hcode, _, hshows, hpc =>
      Meets.of_leads (hpart.steps_imm hshows hpc (has_cons.1 hcode).1).leads
        fun first ⟨hfirst, hacc⟩ => Meets.pure ⟨hfirst.after, hacc, hfirst.shows hpart.loaded hshows⟩
  | .load place, start, m, store, hplace, hcode, _, hshows, hpc => by
      obtain ⟨hload, hrest⟩ := has_cons.1 hcode
      refine Meets.of_leads (hpart.steps_load hshows hpc hplace hload).leads
        fun first ⟨hfirst, hacc⟩ => ?_
      have hshown := hfirst.shows hpart.loaded hshows
      rw [← hfirst.after.bp] at hacc
      refine Meets.of_leads (hpart.steps_li hshown hfirst.after.pc hplace hacc
        (has_cons.1 hrest).1).leads fun second ⟨hsecond, hvalue⟩ => ?_
      exact Meets.pure
        ⟨hfirst.after.trans hsecond.after, hvalue, hsecond.shows hpart.loaded hshown⟩
  | .address _, _, _, _, _, _, _, _, _ => trivial
  | .follow pointer, start, m, store, hpointer, hcode, _, hshows, hpc => by
      obtain ⟨hfront, hli⟩ := hcode.follow
      exact (meets_expr hinvokes pointer hpointer hfront (hpart.lt_textEnd hli) hshows hpc).bind
        fun _ _ _ _ => trivial
  | .binary operator left right, start, m, store, hparts, hcode, _, hshows, hpc => by
      obtain ⟨hleft, hpush, hright, hbinary⟩ := hcode.binary rfl
      rw [Core.Expr.stop_binary]
      refine (meets_expr hinvokes left hparts.1 hleft (hpart.lt_textEnd hpush) hshows hpc).bind
        fun value inner first hfirst => ?_
      refine Meets.of_leads (hpart.steps_push hfirst.shows hfirst.after.pc hpush).leads
        fun second ⟨hsecond, htop⟩ => ?_
      have hpushed := hfirst.after.trans hsecond.after
      refine (meets_expr hinvokes right hparts.2 hright (hpart.lt_textEnd hbinary)
        (hsecond.shows hpart.loaded hfirst.shows) hsecond.after.pc).bind
        fun other outer third hthird => ?_
      have hkept : third.memory[third.sp]? = some value := by
        have hsp : third.sp = second.sp := hthird.after.sp
        rw [hsp, hthird.after.stack _ (Nat.le_refl _), htop, hfirst.acc]
      exact hpart.meets_binary hshows.framed (hpushed.trans hthird.after) hthird.shows hkept
        hthird.acc hbinary depth
  | .logical connective left right, start, m, store, hparts, hcode, _, hshows, hpc => by
      obtain ⟨hleft, hbranch, hright, htruth⟩ := hcode.logical rfl
      rw [Core.Expr.stop_logical]
      have htarget := hpart.lt_textEnd htruth.truth.1
      -- Both ways end with the accumulator as a condition.
      have htail : ∀ {m' : Machine} {value : Word} {inner : Store}, image.Evaluated arity slots m
          (start + Core.size (left.code start) + 2 +
            Core.size (right.code (start + Core.size (left.code start) + 2))) value inner m' →
          Meets route depth (image.Evaluated arity slots m
            (start + Core.size (left.code start) + 2 +
              Core.size (right.code (start + Core.size (left.code start) + 2)) + 4)) m'
            ((Pure.pure (truth value) : Evaluation Store Word) inner) := by
        rintro m' value inner ⟨hafter, rfl, hshown⟩
        refine Meets.of_leads (hpart.leads_truth hshown hafter.pc htruth) fun last hlast => ?_
        exact Meets.pure ⟨hafter.trans hlast.after, hlast.acc, hlast.shows⟩
      refine (meets_expr hinvokes left hparts.1 hleft (hpart.lt_textEnd hbranch) hshows hpc).bind
        fun value inner first hfirst => ?_
      obtain ⟨hfirst, rfl, hshown⟩ := hfirst
      refine Meets.of_leads (hpart.steps_branch hshown hfirst.pc
        (Core.jumpOf_eq connective first.acc) hbranch htarget).leads fun second ⟨hsecond, hacc⟩ => ?_
      have hshown' := hsecond.shows hpart.loaded hshown
      have hpassed := hfirst.trans hsecond.after
      cases hdecided : connective.isDecided first.acc with
      | true =>
          rw [hdecided, if_pos rfl] at hpassed
          exact htail ⟨hpassed, hacc, hshown'⟩
      | false =>
          rw [hdecided, if_neg Bool.false_ne_true] at hpassed
          refine (meets_expr hinvokes right hparts.2 hright htarget hshown' hpassed.pc).bind
            fun other outer third hthird => ?_
          exact htail ⟨hpassed.trans hthird.after, hthird.acc, hthird.shows⟩
  | .call callee args, start, m, store, hcall, hcode, hstop, hshows, hpc => by
      obtain ⟨hargs, hline, hadj⟩ := hcode.call rfl
      rw [Core.Expr.stop_call] at hstop ⊢
      refine (meets_arguments hinvokes args hcall.2 hargs (hpart.lt_textEnd hline) hshows hpc).bind
        fun values inner first hfirst => ?_
      by_cases hnone : args.length = 0
      · rw [if_pos hnone] at hstop ⊢
        refine (hpart.meets_call hinvokes hshows.framed hfirst hline hcall.1 hstop).weaken
          fun value outer second ⟨hafter, hacc, hshown⟩ => ⟨?_, hacc, hshown⟩
        rw [hnone] at hafter
        exact hafter
      · rw [if_neg hnone]
        have hdrop := hadj hnone
        refine (hpart.meets_call hinvokes hshows.framed hfirst hline hcall.1
          (hpart.lt_textEnd hdrop)).leads fun value outer second ⟨hafter, hacc, hshown⟩ => ?_
        rw [← hacc]
        exact (hpart.steps_adj hshows.framed hafter hshown hdrop).leads
  | .trap request args, start, m, store, htrap, hcode, _, hshows, hpc => by
      obtain ⟨hargs, hline⟩ := hcode.trap
      exact (meets_arguments hinvokes args htrap.2 hargs (hpart.lt_textEnd hline) hshows hpc).bind
        fun _ _ _ _ => trivial

theorem meets_arguments (hinvokes : image.InvokesMeet route depth) :
    ∀ (args : List Core.Expr) {start : Nat} {m : Machine} {store : Store},
    Core.Expr.AllValid (image.context.inside arity slots) args →
    route.Has start (Core.Expr.argumentCode start args) →
    start + Core.size (Core.Expr.argumentCode start args) < image.base.textEnd →
    image.Shows arity slots store m → m.pc = start →
    Meets route depth (image.Pushed arity slots m args.length
        (start + Core.size (Core.Expr.argumentCode start args))) m
      (Core.Expr.evalAll (Core.invoke image.sections depth) args store)
  | [], start, m, store, _, _, _, hshows, hpc =>
      Meets.pure
        { after := .of_registers hshows.framed rfl rfl rfl rfl hpc rfl rfl
          length := rfl
          words := fun _ _ hvalue => by cases hvalue
          shows := hshows }
  | argument :: rest, start, m, store, hall, hcode, hstop, hshows, hpc => by
      obtain ⟨hfront, hpush, hothers⟩ := hcode.arguments rfl
      rw [Core.Expr.stop_arguments] at hstop ⊢
      refine (meets_expr hinvokes argument hall.1 hfront (hpart.lt_textEnd hpush) hshows hpc).bind
        fun value inner first hfirst => ?_
      refine Meets.of_leads (hpart.steps_push hfirst.shows hfirst.after.pc hpush).leads
        fun second ⟨hsecond, htop⟩ => ?_
      have hpushed := hfirst.after.trans hsecond.after
      rw [hfirst.acc] at htop
      exact (meets_arguments hinvokes rest hall.2 hothers hstop
        (hsecond.shows hpart.loaded hfirst.shows) hsecond.after.pc).bind
          fun _ _ _ hlast => Meets.pure (.cons hpushed htop hlast)

end

/-! ## Entering and leaving a function -/

/-- Opening the frame of a function is a step of its own. -/
theorem steps_enter {values : List Word} (hsmall : slots < 2 ^ 63)
    (hentering : image.Entering arity target values store m)
    (hline : (start, .withWord .ent (Word.ofCount slots)) ∈ route.text) (hpc : m.pc = start) :
    Steps route (fun m' => image.Body m arity slots target m' ∧ m'.pc = start + 2 ∧
      image.Shows arity slots (store.enter values) m') m := by
  have hcalled := hentering.called
  by_cases hroom : image.stack.start < m.sp ∧ slots ≤ m.sp - 1 - image.stack.start
  · obtain ⟨hexecute, hbody, hbehind⟩ :=
      hcalled.execute_ent hpart.loaded hpc hsmall hroom.1 hroom.2 rfl
    exact hpart.steps_of_execute hcalled.steady hentering.unlimited hline rfl hpc hexecute
      ⟨hbody, hbehind, hentering.shows hpart.loaded hroom.1 hroom.2 hbody.framed rfl rfl rfl⟩
  · obtain ⟨stopped, hexecute⟩ := hcalled.execute_ent_full hsmall hroom
    exact hpart.steps_of_overflow hcalled.steady hentering.unlimited hline rfl hpc hexecute

theorem steps_leave (hcalled : image.Called arity target entry)
    (hbody : image.Body entry arity slots target m) (hshows : image.Shows arity slots store m)
    (hline : (start, .plain .lev) ∈ route.text) (hpc : m.pc = start) :
    Steps route (image.Answered arity target entry m.acc store) m := by
  obtain ⟨hexecute, hreturned⟩ := hbody.execute_lev hpart.loaded hcalled rfl
  exact hpart.steps_of_execute hbody.framed.steady hshows.unlimited hline rfl hpc hexecute
    ⟨hreturned, hshows.unlimited, rfl, hshows.globals⟩

/-! ## Statements -/

theorem meets_value (hinvokes : image.InvokesMeet route depth) (e : Core.Expr)
    (hvalid : e.Valid (image.context.inside arity slots)) (hcode : route.Has start (e.code start))
    (hstop : start + Core.size (e.code start) < image.base.textEnd)
    (hstate : image.At entry arity slots target start store m) :
    Meets route depth (fun value store' m' =>
        image.At entry arity slots target (start + Core.size (e.code start)) store' m' ∧
          m'.acc = value) m
      (e.eval (Core.invoke image.sections depth) store) :=
  (hpart.meets_expr hinvokes e hvalid hcode hstop hstate.shows hstate.pc).weaken
    fun _ _ _ ⟨hafter, hacc, hshows⟩ => ⟨⟨hstate.body.after hafter, hafter.pc, hshows⟩, hacc⟩

/-- A condition and the jump over what depends on it, which is a step of its own. -/
theorem steps_condition {behind : Nat} (hstate : image.At entry arity slots target start store m)
    (hline : (start, .jump .jz behind) ∈ route.text) (hbehind : behind < image.base.textEnd) :
    Steps route (image.At entry arity slots target
      (if m.acc ≠ 0 then start + 2 else behind) store) m := by
  refine (hpart.steps_branch hstate.shows hstate.pc (.inl ⟨rfl, rfl⟩) hline hbehind).weaken
    fun m' ⟨hpassed, _⟩ => ?_
  have hat : image.At entry arity slots target
      (if decide (m.acc = 0) = true then behind else start + 2) store m' :=
    ⟨hstate.body.after hpassed.after, hpassed.after.pc, hpassed.shows hpart.loaded hstate.shows⟩
  by_cases hzero : m.acc = 0 <;> simpa [hzero] using hat

/-- The jump over what does not follow. -/
theorem leads_jump {behind : Nat} {result : Option Word}
    (h : image.Executed entry arity slots target start result store m)
    (hline : (start, .jump .jmp behind) ∈ route.text) (hbehind : behind < image.base.textEnd) :
    Leads route (image.Executed entry arity slots target behind result store) m := by
  cases result with
  | some value => exact .here h
  | none =>
      exact ((hpart.steps_jmp h.shows h.pc hline hbehind).weaken fun m' hpassed =>
        ⟨h.body.after hpassed.after, hpassed.after.pc, hpassed.shows hpart.loaded h.shows⟩).leads

/-- A condition and the jump over what depends on it. The jump is one of the steps. -/
theorem meets_condition {α : Type} {least behind : Nat} {good : α → Store → Machine → Prop}
    {next : Word → Evaluation Store α} (hinvokes : image.InvokesMeet route depth) (e : Core.Expr)
    (hvalid : e.Valid (image.context.inside arity slots)) (hcode : route.Has start (e.code start))
    (hline : (start + Core.size (e.code start), .jump .jz behind) ∈ route.text)
    (hbehind : behind < image.base.textEnd)
    (hstate : image.At entry arity slots target start store m) (hle : least ≤ depth)
    (hnext : ∀ word inner m', image.At entry arity slots target
        (if word ≠ 0 then start + Core.size (e.code start) + 2 else behind) inner m' →
      Meets route (least - 1) good m' (next word inner)) :
    Meets route least good m ((e.eval (Core.invoke image.sections depth) >>= next) store) := by
  have hvalue :=
    (hpart.meets_value hinvokes e hvalid hcode (hpart.lt_textEnd hline) hstate).mono hle
  refine hvalue.bind fun word inner first hgood => ?_
  obtain ⟨hfirst, rfl⟩ := hgood
  have hsteps := hpart.steps_condition hfirst hline hbehind
  cases least with
  | zero => exact Meets.of_leads hsteps.leads fun m' hat => hnext _ inner m' hat
  | succ least => exact Meets.of_steps hsteps fun m' hat => hnext _ inner m' hat

/-- A loop does what its rounds do, as long as no more of them are allowed than steps. -/
theorem meets_repeatWhile {rounds inside : Nat} {condition : Core.Expr} {body : Core.Stmt}
    (hinside : inside = start + Core.size (condition.code start) + 2)
    (hinvokes : image.InvokesMeet route depth)
    (hvalid : condition.Valid (image.context.inside arity slots))
    (hcode : route.Has start ((Core.Stmt.whileLoop condition body).code start))
    (hstop : inside + Core.size (body.code inside) + 2 < image.base.textEnd)
    (hround : ∀ {m store}, image.At entry arity slots target inside store m →
      Meets route depth
        (image.Executed entry arity slots target (inside + Core.size (body.code inside))) m
        (body.exec (Core.invoke image.sections depth) depth store))
    (hstate : image.At entry arity slots target start store m) (hle : rounds ≤ depth) :
    Meets route rounds
      (image.Executed entry arity slots target (inside + Core.size (body.code inside) + 2)) m
      (repeatWhile (do return (← condition.eval (Core.invoke image.sections depth)) ≠ 0)
        (body.exec (Core.invoke image.sections depth) depth) rounds store) := by
  obtain ⟨htest, hbranch, -, hback⟩ := hcode.whileLoop hinside
  have hstart := hpart.lt_textEnd hbranch
  subst hinside
  induction rounds generalizing m store with
  | zero => exact .zero
  | succ rounds ih =>
      rw [repeatWhile, bind_assoc]
      refine hpart.meets_condition hinvokes condition hvalid htest hbranch hstop hstate hle
        fun word inner first hfirst => ?_
      rw [pure_bind]
      by_cases htrue : word ≠ 0
      · rw [if_pos htrue] at hfirst
        rw [decide_eq_true htrue]
        refine ((hround hfirst).mono (Nat.le_of_succ_le hle)).bind
          fun result outer second hsecond => ?_
        refine Meets.of_leads (hpart.leads_jump hsecond hback (by omega)) fun last hlast => ?_
        cases result with
        | some value => exact Meets.pure hlast
        | none => exact ih hlast (Nat.le_of_succ_le hle)
      · rw [if_neg htrue] at hfirst
        rw [decide_eq_false htrue]
        exact Meets.pure hfirst

theorem meets_stmt (hinvokes : image.InvokesMeet route depth)
    (hcalled : image.Called arity target entry) (statement : Core.Stmt)
    (hvalid : statement.Valid (image.context.inside arity slots))
    (hcode : route.Has start (statement.code start))
    (hstop : start + Core.size (statement.code start) < image.base.textEnd)
    (hstate : image.At entry arity slots target start store m) :
    Meets route depth
      (image.Executed entry arity slots target (start + Core.size (statement.code start))) m
      (statement.exec (Core.invoke image.sections depth) depth store) := by
  induction statement generalizing start m store with
  | skip => exact Meets.pure hstate
  | seq first second ihFirst ihSecond =>
      obtain ⟨hfirst, hsecond⟩ := has_append.1 hcode
      rw [Core.Stmt.stop_seq] at hstop ⊢
      refine (ihFirst hvalid.1 hfirst (by omega) hstate).bind fun result inner middle hresult => ?_
      cases result with
      | some value => exact Meets.pure hresult
      | none => exact ihSecond hvalid.2 hsecond hstop hresult
  | store place value =>
      obtain ⟨hvalue, hstore⟩ := has_append.1 hcode
      rw [Core.Stmt.stop_store] at hstop ⊢
      refine (hpart.meets_value hinvokes value hvalid.2 hvalue (by omega) hstate).bind
        fun word inner first hgood => ?_
      obtain ⟨hfirst, rfl⟩ := hgood
      refine Meets.of_leads (hpart.leads_store hfirst.shows hfirst.pc hvalid.1 hstore)
        fun second hsecond => Meets.pure ?_
      exact ⟨hfirst.body.stored hpart.loaded hvalid.1 hsecond.stored, hsecond.stored.pc,
        hsecond.shows hpart.loaded hfirst.shows hvalid.1⟩
  | evaluate value =>
      exact (hpart.meets_value hinvokes value hvalid hcode hstop hstate).bind
        fun _ _ _ hgood => Meets.pure hgood.1
  | leave value =>
      cases value with
      | none => trivial
      | some value =>
          obtain ⟨hvalue, hleave⟩ := hcode.leave
          refine (hpart.meets_value hinvokes value (hvalid value rfl) hvalue
            (hpart.lt_textEnd hleave) hstate).bind fun word inner first hgood => ?_
          obtain ⟨hfirst, rfl⟩ := hgood
          exact Meets.of_leads (hpart.steps_leave hcalled hfirst.body hfirst.shows hleave
            hfirst.pc).leads fun _ hanswered => Meets.pure hanswered
  | ifThen condition consequence ih =>
      obtain ⟨htest, hbranch, hinner⟩ := hcode.ifThen rfl
      rw [Core.Stmt.stop_ifThen] at hstop ⊢
      refine hpart.meets_condition hinvokes condition hvalid.1 htest hbranch hstop hstate
        (Nat.le_refl _) fun word inner first hfirst => ?_
      by_cases htrue : word ≠ 0
      · rw [if_pos htrue] at hfirst ⊢
        exact (ih hvalid.2 hinner hstop hfirst).mono (Nat.sub_le _ _)
      · rw [if_neg htrue] at hfirst ⊢
        exact Meets.pure hfirst
  | ifElse condition consequence alternative ihConsequence ihAlternative =>
      obtain ⟨htest, hbranch, hinner, hover, hother⟩ := hcode.ifElse rfl rfl
      rw [Core.Stmt.stop_ifElse rfl] at hstop ⊢
      refine hpart.meets_condition hinvokes condition hvalid.1 htest hbranch (by omega) hstate
        (Nat.le_refl _) fun word inner first hfirst => ?_
      by_cases htrue : word ≠ 0
      · rw [if_pos htrue] at hfirst ⊢
        have hthen := ihConsequence hvalid.2.1 hinner (hpart.lt_textEnd hover) hfirst
        exact (hthen.leads fun _ _ _ hlast => hpart.leads_jump hlast hover hstop).mono
          (Nat.sub_le _ _)
      · rw [if_neg htrue] at hfirst ⊢
        exact (ihAlternative hvalid.2.2 hother hstop hfirst).mono (Nat.sub_le _ _)
  | whileLoop condition body ih =>
      obtain ⟨-, -, hinner, hback⟩ := hcode.whileLoop rfl
      rw [Core.Stmt.stop_whileLoop] at hstop ⊢
      exact hpart.meets_repeatWhile rfl hinvokes hvalid.1 hcode hstop
        (fun hat => ih hvalid.2 hinner (hpart.lt_textEnd hback) hat) hstate (Nat.le_refl _)

/-! ## Functions -/

theorem invokesMeet (hnodup : (Core.names image.sections).Nodup) (depth : Nat) :
    image.InvokesMeet route depth := by
  induction depth with
  | zero => exact fun _ _ _ _ _ _ _ _ _ _ _ _ => .zero
  | succ depth ih =>
      intro address name arity slots body hplaced m target values store hpc hentering
      have hcode := hpart.functions address name arity slots body hplaced
      have hmem := Core.mem_of_mem_placed hplaced
      obtain ⟨henter, hinner, hleave⟩ := hcode.function
      rw [Core.invoke, Core.lookup_bodies hnodup hmem]
      have hsmall := hpart.loaded.slots name arity slots body hmem
      refine Meets.of_steps (hpart.steps_enter hsmall hentering henter hpc) fun inside hgood => ?_
      obtain ⟨hbody, hat, hshows⟩ := hgood
      refine (hpart.meets_stmt ih hentering.called body (hpart.loaded.sections _ hmem) hinner
        (hpart.lt_textEnd hleave) ⟨hbody, hat, hshows⟩).andThen
        fun result inner last hresult => ?_
      cases result with
      | none => trivial
      | some value =>
          refine Meets.pure ⟨⟨hresult.returned, hresult.unlimited, hresult.acc, ?_⟩, ?_⟩
          · exact fun other hstart hstop => hresult.globals other hstart hstop
          · intro place hlocal
            cases place with
            | global address => cases hlocal
            | slot index => rfl
            | parameter distance => rfl

end Part

end Image

end WordC
