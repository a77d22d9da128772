import WordC.Proofs.Program.Layout
import WordC.Proofs.Program.Safety

/-!
# Safe functions

A statement is safe if it is safe to go on behind it and to return from the function. A loop comes
back to its own condition, each time at least one step later, so its safety is proved along the
steps; and so is that of functions, which may call each other and themselves.
-/

namespace WordC

open WordC.Core (Context Instr Place Section)

namespace Image

/-- A function that is being carried out, and the calls that are open around it. -/
structure Activation where
  entry : Machine
  arity : Nat
  slots : Nat
  target : Nat
  calls : List Nat

variable {image : Image} {stretch : Stretch} {activation : Activation} {steps start address : Nat}

/-- It is safe to be at an address in the body of the function. -/
def SafeAt (image : Image) (stretch : Stretch) (activation : Activation) (address steps : Nat) :
    Prop :=
  ∀ m, image.Body activation.entry activation.arity activation.slots activation.target m →
    m.pc = address → image.Safe stretch (activation.target :: activation.calls) steps m

/-- It is safe to return from the function and to call others from it. -/
structure SafeAround (image : Image) (stretch : Stretch) (activation : Activation) (steps : Nat) :
    Prop where
  called : image.Called activation.arity activation.target activation.entry
  calls : ∀ fewer < steps, image.CallsSafe stretch fewer
  back : ∀ m', image.Returned activation.arity activation.target activation.entry m' →
    image.Safe stretch activation.calls steps m'

theorem SafeAt.weaken (h : image.SafeAt stretch activation address (steps + 1)) :
    image.SafeAt stretch activation address steps :=
  fun m hbody hpc => Safe.weaken (h m hbody hpc)

theorem SafeAround.weaken (h : image.SafeAround stretch activation (steps + 1)) :
    image.SafeAround stretch activation steps where
  called := h.called
  calls := fun fewer hlt => h.calls fewer (Nat.lt_succ_of_lt hlt)
  back := fun m' hreturned => Safe.weaken (h.back m' hreturned)

namespace Part

variable (hpart : image.Part stretch.text)

include hpart

/-! ## Entering and leaving a function -/

theorem safe_enter (haround : image.SafeAround stretch activation steps)
    (hsmall : activation.slots < 2 ^ 63)
    (hline : (start, .withWord .ent (Word.ofCount activation.slots)) ∈ stretch.text)
    (hpc : activation.entry.pc = start)
    (hnext : image.SafeAt stretch activation (start + 2) steps) :
    image.Safe stretch (activation.target :: activation.calls) steps activation.entry := by
  refine Safe.weaken ?_
  by_cases hroom : image.stack.start < activation.entry.sp ∧
      activation.slots ≤ activation.entry.sp - 1 - image.stack.start
  · obtain ⟨hexecute, hbody, hbehind⟩ :=
      haround.called.execute_ent hpart.loaded hpc hsmall hroom.1 hroom.2 rfl
    exact hpart.safe_ok haround.called.steady hline rfl hpc hexecute rfl (hnext _ hbody hbehind)
  · obtain ⟨stopped, hexecute⟩ := haround.called.execute_ent_full hsmall hroom
    refine hpart.safe_line haround.called.steady hline rfl hpc ?_ ?_
    · intro hfetch
      exact hexecute ▸ .overflow hfetch (.inr (.inr rfl))
    · intro _ m' hok
      cases hexecute.symm.trans hok

theorem safeAt_leave (haround : image.SafeAround stretch activation steps)
    (hline : (start, .plain .lev) ∈ stretch.text) : image.SafeAt stretch activation start steps := by
  intro m hbody hpc
  obtain ⟨hexecute, hreturned⟩ := hbody.execute_lev hpart.loaded haround.called rfl
  exact Safe.weaken
    (hpart.safe_ok hbody.framed.steady hline rfl hpc hexecute rfl (haround.back _ hreturned))

/-! ## Statements -/

theorem safeAt_value (e : Core.Expr)
    (hvalid : e.Valid (image.context.inside activation.arity activation.slots))
    (hcode : stretch.Has start (e.code start))
    (hstop : start + Core.size (e.code start) < image.base.textEnd)
    (haround : image.SafeAround stretch activation steps)
    (hnext : image.SafeAt stretch activation (start + Core.size (e.code start)) steps) :
    image.SafeAt stretch activation start steps :=
  fun _ hbody hpc => hpart.safe_expr e hvalid hcode hstop hbody.framed hpc haround.calls
    fun m' hafter => hnext m' (hbody.after hafter) hafter.pc

/-- A condition and the jump over what depends on it, which is a step of its own. -/
theorem safeAt_condition {behind : Nat} (e : Core.Expr)
    (hvalid : e.Valid (image.context.inside activation.arity activation.slots))
    (hcode : stretch.Has start (e.code start))
    (hline : (start + Core.size (e.code start), .jump .jz behind) ∈ stretch.text)
    (hbehind : behind < image.base.textEnd)
    (haround : image.SafeAround stretch activation (steps + 1))
    (hjump : image.SafeAt stretch activation behind steps)
    (hfall : image.SafeAt stretch activation (start + Core.size (e.code start) + 2) steps) :
    image.SafeAt stretch activation start (steps + 1) := by
  refine hpart.safeAt_value e hvalid hcode (hpart.lt_textEnd hline) haround fun m hbody hpc => ?_
  refine hpart.safe_branch hbody.framed hpc (.inl rfl) hline hbehind ?_ ?_
  · exact fun m' hafter => hjump m' (hbody.after hafter) hafter.pc
  · exact fun m' hafter => hfall m' (hbody.after hafter) hafter.pc

theorem safeAt_jmp {behind : Nat} (hline : (start, .jump .jmp behind) ∈ stretch.text)
    (hbehind : behind < image.base.textEnd)
    (hnext : image.SafeAt stretch activation behind steps) :
    image.SafeAt stretch activation start steps :=
  fun _ hbody hpc => hpart.safe_jmp hbody.framed hpc hline hbehind fun m' hafter =>
    hnext m' (hbody.after hafter) hafter.pc

/-- A loop is safe if its body is, however often it is carried out. -/
theorem safeAt_whileLoop {condition : Core.Expr} {body : Core.Stmt} {inside : Nat}
    (hinside : inside = start + Core.size (condition.code start) + 2)
    (hvalid : condition.Valid (image.context.inside activation.arity activation.slots))
    (hcode : stretch.Has start ((Core.Stmt.whileLoop condition body).code start))
    (hstop : inside + Core.size (body.code inside) + 2 < image.base.textEnd)
    (hround : ∀ {steps}, image.SafeAround stretch activation steps →
      image.SafeAt stretch activation (inside + Core.size (body.code inside)) steps →
      image.SafeAt stretch activation inside steps)
    (haround : image.SafeAround stretch activation steps)
    (hnext : image.SafeAt stretch activation (inside + Core.size (body.code inside) + 2) steps) :
    image.SafeAt stretch activation start steps := by
  obtain ⟨htest, hbranch, -, hback⟩ := hcode.whileLoop hinside
  have hstart := hpart.lt_textEnd hbranch
  subst hinside
  -- The jump of the condition is the step that each round takes.
  induction steps with
  | zero => exact fun _ _ _ => trivial
  | succ steps ih =>
      refine hpart.safeAt_condition condition hvalid htest hbranch hstop haround hnext.weaken ?_
      refine hround haround.weaken (hpart.safeAt_jmp hback (by omega) ?_)
      exact ih haround.weaken hnext.weaken

theorem safeAt_stmt (statement : Core.Stmt)
    (hvalid : statement.Valid (image.context.inside activation.arity activation.slots))
    (hcode : stretch.Has start (statement.code start))
    (hstop : start + Core.size (statement.code start) < image.base.textEnd)
    (haround : image.SafeAround stretch activation steps)
    (hnext : image.SafeAt stretch activation (start + Core.size (statement.code start)) steps) :
    image.SafeAt stretch activation start steps := by
  induction statement generalizing start steps with
  | skip => exact hnext
  | seq first second ihFirst ihSecond =>
      obtain ⟨hfirst, hsecond⟩ := has_append.1 hcode
      rw [Core.Stmt.stop_seq] at hstop hnext
      refine ihFirst hvalid.1 hfirst (by omega) haround ?_
      exact ihSecond hvalid.2 hsecond hstop haround hnext
  | store place value =>
      obtain ⟨hvalue, hstore⟩ := has_append.1 hcode
      rw [Core.Stmt.stop_store] at hstop hnext
      refine hpart.safeAt_value value hvalid.2 hvalue (by omega) haround fun m hbody hpc => ?_
      exact hpart.safe_store hbody.framed hpc hvalid.1 hstore fun m' hstored =>
        hnext m' (hbody.stored hpart.loaded hvalid.1 hstored) hstored.pc
  | evaluate value => exact hpart.safeAt_value value hvalid hcode hstop haround hnext
  | leave value =>
      cases value with
      | none => exact hpart.safeAt_leave haround (has_cons.1 hcode).1
      | some value =>
          obtain ⟨hvalue, hleave⟩ := hcode.leave
          exact hpart.safeAt_value value (hvalid value rfl) hvalue (hpart.lt_textEnd hleave) haround
            (hpart.safeAt_leave haround hleave)
  | ifThen condition consequence ih =>
      obtain ⟨htest, hbranch, hinner⟩ := hcode.ifThen rfl
      rw [Core.Stmt.stop_ifThen] at hstop hnext
      cases steps with
      | zero => exact fun _ _ _ => trivial
      | succ steps =>
          refine hpart.safeAt_condition condition hvalid.1 htest hbranch hstop haround
            hnext.weaken ?_
          exact ih hvalid.2 hinner hstop haround.weaken hnext.weaken
  | ifElse condition consequence alternative ihConsequence ihAlternative =>
      obtain ⟨htest, hbranch, hinner, hover, hother⟩ := hcode.ifElse rfl rfl
      rw [Core.Stmt.stop_ifElse rfl] at hstop hnext
      cases steps with
      | zero => exact fun _ _ _ => trivial
      | succ steps =>
          refine hpart.safeAt_condition condition hvalid.1 htest hbranch (by omega) haround ?_ ?_
          · exact ihAlternative hvalid.2.2 hother hstop haround.weaken hnext.weaken
          · refine ihConsequence hvalid.2.1 hinner (hpart.lt_textEnd hover) haround.weaken ?_
            exact hpart.safeAt_jmp hover hstop hnext.weaken
  | whileLoop condition body ih =>
      obtain ⟨-, -, hinner, hback⟩ := hcode.whileLoop rfl
      rw [Core.Stmt.stop_whileLoop] at hstop hnext
      exact hpart.safeAt_whileLoop rfl hvalid.1 hcode hstop
        (fun haround hend => ih hvalid.2 hinner (hpart.lt_textEnd hback) haround hend) haround hnext

/-! ## Functions -/

theorem callsSafe (steps : Nat) : image.CallsSafe stretch steps := by
  induction steps using Nat.strongRecOn with
  | ind steps ih =>
      intro address name arity slots body hplaced m target calls hpc hcalled hreturn
      have hcode := hpart.functions address name arity slots body hplaced
      have hmem := Core.mem_of_mem_placed hplaced
      obtain ⟨henter, hinner, hleave⟩ := hcode.function
      have haround : image.SafeAround stretch ⟨m, arity, slots, target, calls⟩ steps :=
        ⟨hcalled, ih, hreturn⟩
      refine hpart.safe_enter haround (hpart.loaded.slots name arity slots body hmem) henter hpc ?_
      exact hpart.safeAt_stmt body (hpart.loaded.sections _ hmem) hinner (hpart.lt_textEnd hleave)
        haround (hpart.safeAt_leave haround hleave)

end Part

end Image

end WordC
