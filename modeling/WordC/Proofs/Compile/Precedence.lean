import WordC.Proofs.Accept.Language
import WordC.Proofs.Language.Parentheses

/-!
# Precedence and associativity

An expression is read by a loop at every level, and where each of the loops stops decides which
operator gets which operands. From any text of a tree, with the fewest parentheses or with more, the
compiler reads all of the text and nothing behind it and writes the code of the tree.
-/

namespace WordC.Compiler

open WordC.Core (Instr)
open Syntax (Expr Prints)

variable {origin : Origin} {a : Sketch} {s s' : State} {tree : Expr} {value : Core.Expr}
  {text rest : List Token.Kind} {stop : Punctuator}

/-- The tokens that have not been consumed, up to the end of the input. -/
def kindsAhead (compiler : Compiler) : List Token.Kind :=
  compiler.current.kind :: compiler.upcoming.kinds

theorem Ahead.kindsAhead_eq {failure? : Option Error} {compiler : Compiler}
    {ahead : List Token.Kind} (h : Ahead failure? compiler ahead) (hne : ahead ≠ []) :
    kindsAhead compiler = ahead := by
  obtain ⟨kind, behind, rfl⟩ := List.exists_cons_of_ne_nil hne
  rw [kindsAhead, h.current, h.upcoming, List.headD_cons, List.tail_cons]

/-- Something is ahead unless it is the end of the input. -/
theorem Ahead.eq_of_kindsAhead {failure? : Option Error} {compiler : Compiler}
    {ahead : List Token.Kind} (h : Ahead failure? compiler ahead) {mark : Punctuator}
    (hkinds : kindsAhead compiler = text ++ .punctuator mark :: rest) :
    ahead = text ++ .punctuator mark :: rest := by
  have hne : ahead ≠ [] := by
    rintro rfl
    rw [kindsAhead, h.current, h.upcoming, List.headD_nil, List.tail_nil] at hkinds
    cases text with
    | nil => cases hkinds
    | cons kind others =>
        have hlength := congrArg List.length hkinds
        simp only [List.length_append, List.length_cons, List.length_nil] at hlength
        omega
  rw [← h.kindsAhead_eq hne, hkinds]

/-- The code and the data by which a machine has grown. -/
structure Emits (entries : List (String × Nat)) (code : List Instr) (data : List Word)
    (s s' : State) : Prop where
  textEnd : s'.machine.textEnd = s.machine.textEnd + Core.size code
  text : ∀ (index : Nat) (cell : Core.Cell), (Core.cells code)[index]? = some cell →
    cell.WrittenAt s'.machine.memory entries s'.compiler.pendingCalls (s.machine.textEnd + index)
  dataEnd : s'.machine.dataEnd = s.machine.dataEnd + data.length
  data : ∀ (index : Nat) (word : Word), data[index]? = some word →
    s'.machine.memory[s.machine.dataEnd + index]? = some word

theorem Sketch.Fits.emits {ahead : List Token.Kind} {code : List Instr} {data : List Word}
    (h : a.Fits origin s) (h' : (a.after ahead (Core.cells code) data).Fits origin s') :
    Emits a.entries code data s s' where
  textEnd := by
    rw [h'.textEnd, h.textEnd, here_after]
    rfl
  text := by
    intro index cell hcell
    have hwritten := h'.cells (a.cells.length + index) cell (by
      rw [after, List.getElem?_append_right (Nat.le_add_right _ _), Nat.add_sub_cancel_left]
      exact hcell)
    rw [h.textEnd, here, Nat.add_assoc]
    exact hwritten
  dataEnd := by rw [h'.dataEnd, h.dataEnd, dataHere_after]
  data := by
    intro index word hword
    have hwritten := h'.data (a.data.length + index) word (by
      rw [after, List.getElem?_append_right (Nat.le_add_right _ _), Nat.add_sub_cancel_left]
      exact hword)
    rw [h.dataEnd, dataHere, Nat.add_assoc]
    exact hwritten

/-- With room enough, an action that leads to a sketch leads there. -/
theorem Does.run {α : Type} {action : Compile α} {result : α} {b : Sketch}
    (h : Does origin a action result b) (hfits : a.Fits origin s) (hwithin : b.Within origin) :
    ∃ s', action s = .ok result s' ∧ b.Fits origin s' := by
  have hyields := h.yields s hfits
  unfold Yields at hyields
  cases haction : action s with
  | ok found s' =>
      rw [haction] at hyields
      obtain ⟨_, ⟨rfl, rfl⟩, hfits'⟩ := hyields
      exact ⟨s', rfl, hfits'⟩
  | error error s' =>
      rw [haction] at hyields
      obtain ⟨-, _, _, ⟨rfl, rfl⟩, -, hshort⟩ := hyields
      exact absurd hwithin hshort

/-- Such an action has nowhere else to go. -/
theorem Does.fits_of_ok {α : Type} {action : Compile α} {result found : α} {b : Sketch}
    (h : Does origin a action result b) (hfits : a.Fits origin s) (hok : action s = .ok found s') :
    b.Fits origin s' := by
  have hyields := h.yields s hfits
  unfold Yields at hyields
  rw [hok] at hyields
  obtain ⟨_, ⟨rfl, rfl⟩, hfits'⟩ := hyields
  exact hfits'

theorem does_of_prints (hfits : a.Fits origin s) (hprints : Prints 0 tree text)
    (hresolve : tree.resolve? a.env s.machine.dataEnd = some value)
    (hstop : stop ∈ [.semicolon, .rightParen, .comma])
    (hahead : kindsAhead s.compiler = text ++ .punctuator stop :: rest) :
    Does origin a expression () (a.value (.punctuator stop :: rest) value tree.data) := by
  obtain ⟨e, he⟩ := hprints.derives (Nat.zero_le _)
  have htokens : a.ahead = e.tokens ++ .punctuator stop :: rest := by
    rw [hfits.ahead.eq_of_kindsAhead hahead, he.tokens]
  have hcloses : Syntax.Closes 0 (.punctuator stop :: rest) := by
    refine Syntax.closes_mark ?_
    simp only [List.mem_cons, List.not_mem_nil, or_false] at hstop
    rcases hstop with rfl | rfl | rfl <;> decide
  have hresolve' : e.resolve? a.env a.dataHere = some value := by
    rw [he.resolve?, ← hfits.dataEnd, hresolve]
  rw [← he.data]
  exact does_expression he.isGrammatical htokens hcloses hresolve'

/-- However a tree is written down, its text is read to the last token and compiled to the code of
the tree. The text with the fewest parentheses is one of those. -/
theorem expression_of_prints (hfits : a.Fits origin s) (hprints : Prints 0 tree text)
    (hresolve : tree.resolve? a.env s.machine.dataEnd = some value)
    (hstop : stop ∈ [.semicolon, .rightParen, .comma])
    (hahead : kindsAhead s.compiler = text ++ .punctuator stop :: rest)
    (htext : s.machine.textEnd + Core.size (value.code s.machine.textEnd) ≤
      s.machine.layout.text.stop)
    (hdata : s.machine.dataEnd + tree.data.length ≤ s.machine.layout.data.stop) :
    (Prints 0 tree (tree.print 0) ∧ (tree.print 0).length ≤ text.length) ∧
    ∃ s', expression s = .ok () s' ∧ kindsAhead s'.compiler = .punctuator stop :: rest ∧
      Emits a.entries (value.code s.machine.textEnd) tree.data s s' ∧
      (a.value (.punctuator stop :: rest) value tree.data).Fits origin s' := by
  refine ⟨⟨tree.prints_print 0, hprints.length_print_le⟩, ?_⟩
  rw [hfits.textEnd, hfits.machine.layout] at htext
  rw [hfits.dataEnd, hfits.machine.layout] at hdata
  have hwithin : (a.value (.punctuator stop :: rest) value tree.data).Within origin := by
    refine ⟨?_, ?_, fun _ => List.cons_ne_nil _ _⟩
    · rw [Sketch.value, Sketch.here_after]
      exact htext
    · rw [Sketch.value, Sketch.dataHere_after]
      exact hdata
  obtain ⟨s', hrun, hfits'⟩ :=
    (does_of_prints hfits hprints hresolve hstop hahead).run hfits hwithin
  refine ⟨s', hrun, hfits'.ahead.kindsAhead_eq (List.cons_ne_nil _ _), ?_, hfits'⟩
  rw [hfits.textEnd]
  exact hfits.emits hfits'

/-- A compilation begins with all the tokens ahead. -/
theorem exists_fits_of_kinds {source : String} {machine : Machine} (hsound : machine.Sound)
    {kind : Token.Kind} {kinds : List Token.Kind}
    (hkinds : (Token.Stream.ofSource source).kinds = kind :: kinds) :
    ∃ origin s, s.machine = machine ∧ kindsAhead s.compiler = kind :: kinds ∧
      (initial machine (kind :: kinds)).Fits origin s := by
  cases hstream : Token.Stream.ofSource source with
  | done offset =>
      rw [hstream] at hkinds
      cases hkinds
  | failed error =>
      rw [hstream] at hkinds
      cases hkinds
  | cons token upcoming =>
      let origin := Origin.ofSource source machine hsound
      have hfits : (initial machine (Token.Stream.ofSource source).kinds).Fits origin
          ⟨machine, starting source token upcoming⟩ :=
        @fits_starting origin _ _ _ _ (ahead_starting_cons hstream)
      rw [hkinds] at hfits
      exact ⟨origin, _, rfl, hfits.ahead.kindsAhead_eq (List.cons_ne_nil _ _), hfits⟩

/-- A product of a difference and a negative number. -/
def product : Expr :=
  .binary (.word .mul)
    (.binary (.word .sub) (.literal (.number 1)) (.literal (.number 2)))
    (.unary .minus (.literal (.number 3)))

def productValue : Core.Expr :=
  .binary .mul (.binary .sub (.constant 1) (.constant 2)) (.binary .sub (.constant 0) (.constant 3))

/-- One of its texts, with a pair of parentheses that could be left out. -/
def productText : List Token.Kind :=
  [.punctuator .leftParen, .number 1, .punctuator .minus, .number 2, .punctuator .rightParen,
    .punctuator .star,
    .punctuator .leftParen, .punctuator .minus, .number 3, .punctuator .rightParen]

theorem prints_product : Prints 0 product productText :=
  .binary (.word .mul) (by decide)
    (.enclosed (.binary (.word .sub) (by decide) (.literal _) (.literal _)))
    (.enclosed (.unary .minus (.literal _)))

theorem expression_of_prints_product :
    ∃ (origin : Origin) (a : Sketch) (s : State), a.Fits origin s ∧ Prints 0 product productText ∧
      product.resolve? a.env s.machine.dataEnd = some productValue ∧
      Punctuator.semicolon ∈ [Punctuator.semicolon, .rightParen, .comma] ∧
      kindsAhead s.compiler = productText ++ [.punctuator .semicolon] ∧
      s.machine.textEnd + Core.size (productValue.code s.machine.textEnd) ≤
        s.machine.layout.text.stop ∧
      s.machine.dataEnd + product.data.length ≤ s.machine.layout.data.stop ∧
      (Prints 0 product (product.print 0) ∧ (product.print 0).length ≤ productText.length) ∧
      ∃ s', expression s = .ok () s' ∧ kindsAhead s'.compiler = [.punctuator .semicolon] ∧
        Emits a.entries (productValue.code s.machine.textEnd) product.data s s' ∧
        (a.value [.punctuator .semicolon] productValue product.data).Fits origin s' := by
  have hkinds : (Token.Stream.ofSource "(1 - 2) * (-3);").kinds =
      productText ++ [.punctuator .semicolon] := by
    decide +kernel
  obtain ⟨origin, s, hmachine, hahead, hfits⟩ := exists_fits_of_kinds Machine.sound_small hkinds
  have htext : s.machine.textEnd + Core.size (productValue.code s.machine.textEnd) ≤
      s.machine.layout.text.stop := by
    rw [hmachine]
    decide
  have hdata : s.machine.dataEnd + product.data.length ≤ s.machine.layout.data.stop := by
    rw [hmachine]
    decide
  exact ⟨origin, _, s, hfits, prints_product, rfl, by decide, hahead, htext, hdata,
    expression_of_prints hfits prints_product rfl (by decide) hahead htext hdata⟩

end WordC.Compiler
