import WordC.Token.Kind

/-!
# Matching brackets

Brackets are matched from left to right: an opening one waits for the one that closes it, and a
closing one has to be what the innermost waits for. Where all of them match, what is waited for
outside is left as it was, and between two that belong together there is always one that waits.
-/

namespace WordC

namespace Punctuator

/-- The bracket that closes an opening one. -/
def closedBy? : Punctuator → Option Punctuator
  | leftParen => some rightParen
  | leftBracket => some rightBracket
  | leftBrace => some rightBrace
  | _ => none

def closes : Punctuator → Bool
  | rightParen | rightBracket | rightBrace => true
  | _ => false

end Punctuator

namespace Token

/-- The brackets that are waited for behind one more token, the innermost first. There are none if
it is a closing bracket that the innermost does not wait for. -/
def Kind.meet? (waiting : List Punctuator) : Kind → Option (List Punctuator)
  | punctuator mark =>
      match mark.closedBy? with
      | some closing => some (closing :: waiting)
      | none =>
          if mark.closes then
            match waiting with
            | [] => none
            | closing :: outer => if mark = closing then some outer else none
          else some waiting
  | _ => some waiting

def Kind.isBracket : Kind → Bool
  | punctuator mark => mark.closedBy?.isSome || mark.closes
  | _ => false

/-- The brackets that are waited for behind some tokens, unless one does not match. -/
def meetAll? (waiting : List Punctuator) (kinds : List Kind) : Option (List Punctuator) :=
  kinds.foldlM Kind.meet? waiting

variable {kind : Kind} {kinds front back : List Kind} {waiting left : List Punctuator}
  {opening closing : Punctuator} {test test' : Kind → Prop}

theorem meetAll?_append (waiting : List Punctuator) (front back : List Kind) :
    meetAll? waiting (front ++ back) = (meetAll? waiting front).bind (meetAll? · back) :=
  List.foldlM_append

theorem meetAll?_cons (waiting : List Punctuator) (kind : Kind) (kinds : List Kind) :
    meetAll? waiting (kind :: kinds) = (kind.meet? waiting).bind (meetAll? · kinds) :=
  List.foldlM_cons

theorem Kind.meet?_of_not_isBracket (h : kind.isBracket = false) (waiting : List Punctuator) :
    kind.meet? waiting = some waiting := by
  cases kind with
  | punctuator mark =>
      simp only [isBracket, Bool.or_eq_false_iff, Option.isSome_eq_false_iff,
        Option.isNone_iff_eq_none] at h
      simp only [meet?, h.1, h.2, Bool.false_eq_true, if_false]
  | _ => rfl

theorem Kind.meet?_opening (h : opening.closedBy? = some closing) (waiting : List Punctuator) :
    (punctuator opening).meet? waiting = some (closing :: waiting) := by
  simp only [meet?, h]

theorem Kind.meet?_closing (h : opening.closedBy? = some closing) (waiting : List Punctuator) :
    (punctuator closing).meet? (closing :: waiting) = some waiting := by
  cases opening <;> cases h <;> rfl

/-- What is waited for on the outside does not matter as long as all brackets match. -/
theorem Kind.meet?_append (h : kind.meet? waiting = some left) (outer : List Punctuator) :
    kind.meet? (waiting ++ outer) = some (left ++ outer) := by
  cases kind with
  | punctuator mark =>
      unfold meet? at h ⊢
      cases hopening : mark.closedBy? with
      | some closing =>
          simp only [hopening] at h ⊢
          cases h
          rfl
      | none =>
          simp only [hopening] at h ⊢
          by_cases hcloses : mark.closes = true
          · rw [if_pos hcloses] at h ⊢
            cases waiting with
            | nil => cases h
            | cons closing rest =>
                dsimp only [List.cons_append] at h ⊢
                by_cases heq : mark = closing
                · rw [if_pos heq] at h ⊢
                  cases h
                  rfl
                · rw [if_neg heq] at h
                  cases h
          · rw [if_neg hcloses] at h ⊢
            cases h
            rfl
  | _ =>
      cases h
      rfl

theorem meetAll?_mono (h : meetAll? waiting kinds = some left) (outer : List Punctuator) :
    meetAll? (waiting ++ outer) kinds = some (left ++ outer) := by
  induction kinds generalizing waiting with
  | nil =>
      cases h
      rfl
  | cons kind kinds ih =>
      rw [meetAll?_cons] at h ⊢
      obtain ⟨middle, hkind, hkinds⟩ := Option.bind_eq_some_iff.1 h
      rw [Kind.meet?_append hkind outer]
      exact ih hkinds

/-! ## Matching brackets -/

/-- Tokens whose brackets match. Those outside of all brackets satisfy a test. -/
inductive Nested : (Kind → Prop) → List Kind → Prop
  | nil {test : Kind → Prop} : Nested test []
  | plain {test : Kind → Prop} {kind : Kind} {rest : List Kind} (hkind : kind.isBracket = false)
      (htest : test kind) (hrest : Nested test rest) : Nested test (kind :: rest)
  | pair {test : Kind → Prop} {opening closing : Punctuator} {inner rest : List Kind}
      (hclosing : opening.closedBy? = some closing) (hinner : Nested (fun _ => True) inner)
      (hrest : Nested test rest) :
      Nested test (.punctuator opening :: (inner ++ .punctuator closing :: rest))

namespace Nested

theorem append (hfront : Nested test front) (hback : Nested test back) :
    Nested test (front ++ back) := by
  induction hfront with
  | nil => exact hback
  | plain hkind htest _ ih => exact .plain hkind htest (ih hback)
  | pair hclosing hinner _ _ ih =>
      rw [List.cons_append, List.append_assoc, List.cons_append]
      exact .pair hclosing hinner (ih hback)

theorem weaken (h : Nested test kinds) (htest : ∀ kind, test kind → test' kind) :
    Nested test' kinds := by
  induction h with
  | nil => exact .nil
  | plain hkind h _ ih => exact .plain hkind (htest _ h) (ih htest)
  | pair hclosing hinner _ _ ih => exact .pair hclosing hinner (ih htest)

theorem any (h : Nested test kinds) : Nested (fun _ => True) kinds :=
  h.weaken fun _ _ => trivial

theorem enclosed (h : Nested test' kinds) (hclosing : opening.closedBy? = some closing) :
    Nested test (.punctuator opening :: (kinds ++ [.punctuator closing])) :=
  .pair hclosing h.any .nil

theorem flatMap {α : Type} {parts : List α} {tokens : α → List Kind}
    (h : ∀ part ∈ parts, Nested test (tokens part)) : Nested test (parts.flatMap tokens) := by
  induction parts with
  | nil => exact .nil
  | cons part parts ih =>
      obtain ⟨hpart, hparts⟩ := List.forall_mem_cons.1 h
      rw [List.flatMap_cons]
      exact hpart.append (ih hparts)

theorem meetAll? (h : Nested test kinds) (waiting : List Punctuator) :
    meetAll? waiting kinds = some waiting := by
  induction h generalizing waiting with
  | nil => rfl
  | plain hkind _ _ ih =>
      rw [meetAll?_cons, Kind.meet?_of_not_isBracket hkind]
      exact ih waiting
  | pair hclosing _ _ ihInner ih =>
      rw [meetAll?_cons, Kind.meet?_opening hclosing, Option.bind_some, meetAll?_append, ihInner,
        Option.bind_some, meetAll?_cons, Kind.meet?_closing hclosing]
      exact ih waiting

/-- In front of a token that fails the test some bracket waits. -/
theorem meetAll?_ne (h : Nested test kinds) (hkind : ¬test kind) (hplain : kind.isBracket = false)
    (hsplit : kinds = front ++ kind :: back) : Token.meetAll? [] front ≠ some [] := by
  induction h generalizing front with
  | nil => exact absurd hsplit.symm (by simp)
  | @plain test first rest hfirst htest _ ih =>
      cases front with
      | nil =>
          obtain ⟨rfl, -⟩ := List.cons.inj hsplit
          exact absurd htest hkind
      | cons other front =>
          obtain ⟨rfl, hrest⟩ := List.cons.inj hsplit
          rw [meetAll?_cons, Kind.meet?_of_not_isBracket hfirst]
          exact ih hkind hrest
  | @pair test opening closing inner rest hclosing hinner _ _ ih =>
      have hbracket : ∀ mark, opening = mark ∨ closing = mark →
          (Kind.punctuator mark).isBracket = true := by
        cases opening <;> cases hclosing <;> rintro mark (rfl | rfl) <;> rfl
      cases front with
      | nil =>
          obtain ⟨rfl, -⟩ := List.cons.inj hsplit
          rw [hbracket opening (.inl rfl)] at hplain
          cases hplain
      | cons other front =>
          obtain ⟨rfl, hrest⟩ := List.cons.inj hsplit
          rw [meetAll?_cons, Kind.meet?_opening hclosing, Option.bind_some]
          rcases List.append_eq_append_iff.1 hrest with
            ⟨middle, rfl, hmiddle⟩ | ⟨middle, rfl, -⟩
          · rw [meetAll?_append, hinner.meetAll?, Option.bind_some]
            cases middle with
            | nil =>
                obtain ⟨rfl, -⟩ := List.cons.inj hmiddle
                rw [hbracket closing (.inr rfl)] at hplain
                cases hplain
            | cons other front =>
                obtain ⟨rfl, hbehind⟩ := List.cons.inj hmiddle
                rw [meetAll?_cons, Kind.meet?_closing hclosing]
                exact ih hkind hbehind
          · -- The brackets inside match, so the one around them still waits.
            have hwhole := hinner.meetAll? []
            rw [meetAll?_append] at hwhole
            obtain ⟨left, hfront, -⟩ := Option.bind_eq_some_iff.1 hwhole
            have hshifted := meetAll?_mono hfront [closing]
            rw [List.nil_append] at hshifted
            rw [hshifted]
            simp

end Nested

end Token

end WordC
