import WordC.Proofs.Token.Lexemes
import WordC.Text.Slice

/-!
# The first match is the longest

The classes are tried in the order of their table, and the first that takes anything is not compared
with the others. It need not be: of the classes that take something from the same text none takes
more. Only two families have more than one class. A keyword takes exactly what an identifier would
take, and an operator takes two marks where a symbol takes one.
-/

namespace WordC.Token.Class

open Text (byteLength)

variable {cls other : Class} {input lexeme after : List Char} {text : String}
  {length less : Nat} {split : List Char × List Char}

/-! ## Two classes of one family -/

/-- A keyword is taken for an identifier just as well. -/
theorem identifier?_of_keyword? (h : keyword? input = some (lexeme, after)) :
    identifier? input = some (lexeme, after) := by
  obtain ⟨hinput, hrun, word, hmem, rfl⟩ := keyword?_eq_some.1 h
  have hstart : ∀ word ∈ Keyword.all, word.text.toList.head?.all isNameStart = true := by decide
  refine identifier?_eq_some.2 ⟨hinput, run_isNamePart_of_keyword? h, fun c hhead => ?_⟩
  have hfirst := hstart word hmem
  rwa [hhead] at hfirst

theorem byteLength_operator (h : operator.split? input = some (lexeme, after)) :
    byteLength lexeme = 2 := by
  obtain ⟨spelling, hmem, rfl⟩ := of_spelled? h
  have hpairs : ∀ spelling ∈ Punctuator.pairs.map (·.text), byteLength spelling.toList = 2 := by
    decide
  exact hpairs spelling hmem

theorem byteLength_symbol (h : symbol.split? input = some (lexeme, after)) :
    byteLength lexeme = 1 := by
  obtain ⟨spelling, hmem, rfl⟩ := of_spelled? h
  have hsingles : ∀ spelling ∈ Punctuator.singles.map (·.text), byteLength spelling.toList = 1 := by
    decide
  exact hsingles spelling hmem

/-- Two classes that take something from the same text are of one family. -/
theorem family_eq_of_split? {taken : List Char × List Char} (h : cls.split? input = some split)
    (hother : other.split? input = some taken) : other.family = cls.family := by
  obtain ⟨hinput, hne⟩ := splits_of_split? h
  obtain ⟨c, tail, hlexeme⟩ := List.exists_cons_of_ne_nil hne
  rw [hlexeme, List.cons_append] at hinput
  subst hinput
  exact family_eq_of_opens (opens_of_split? h) (opens_of_split? hother)

/-- The classes of one family. -/
theorem cases_of_family (h : other.family = cls.family) :
    other = cls ∨ (cls = keyword ∧ other = identifier) ∨ (cls = identifier ∧ other = keyword) ∨
      (cls = operator ∧ other = symbol) ∨ (cls = symbol ∧ other = operator) := by
  revert h
  cases cls <;> cases other <;> decide

/-! ## Lengths -/

/-- The number of bytes that a class takes from the start of a text. -/
def matchLength? (cls : Class) (text : String) : Option Nat :=
  (cls.split? text.toList).map fun split => byteLength split.1

theorem matchLength?_eq_some :
    cls.matchLength? text = some length ↔
      ∃ lexeme after, cls.split? text.toList = some (lexeme, after) ∧ byteLength lexeme = length := by
  rw [matchLength?, Option.map_eq_some_iff, Prod.exists]

theorem matchLength?_eq_none : cls.matchLength? text = none ↔ cls.split? text.toList = none :=
  Option.map_eq_none_iff

/-- What is taken is not empty and does not end inside a character. -/
theorem matchLength?_bounds (h : cls.matchLength? text = some length) :
    1 ≤ length ∧ String.Pos.Raw.IsValid text ⟨length⟩ := by
  obtain ⟨lexeme, after, hsplit, rfl⟩ := matchLength?_eq_some.1 h
  obtain ⟨htext, hne⟩ := splits_of_split? hsplit
  exact ⟨Text.byteLength_pos hne, Text.isValid_iff.2 ⟨lexeme, after, htext, rfl⟩⟩

/-- Another class that takes something takes as much if it is the other one of keyword and
identifier, and if not, the two are operator and symbol. -/
theorem matchLength?_cases (hcls : cls.matchLength? text = some length)
    (hother : other.matchLength? text = some less) (hne : cls ≠ other) :
    (((cls = keyword ∧ other = identifier) ∨ (cls = identifier ∧ other = keyword)) ∧
        less = length) ∨
      (cls = operator ∧ other = symbol ∧ less < length) ∨
      (cls = symbol ∧ other = operator ∧ length < less) := by
  obtain ⟨lexeme, after, hsplit, rfl⟩ := matchLength?_eq_some.1 hcls
  obtain ⟨taken, behind, htaken, rfl⟩ := matchLength?_eq_some.1 hother
  rcases cases_of_family (family_eq_of_split? hsplit htaken) with
    rfl | ⟨rfl, rfl⟩ | ⟨rfl, rfl⟩ | ⟨rfl, rfl⟩ | ⟨rfl, rfl⟩
  · exact absurd rfl hne
  · have hname : identifier? text.toList = some (taken, behind) := htaken
    cases (identifier?_of_keyword? hsplit).symm.trans hname
    exact .inl ⟨.inl ⟨rfl, rfl⟩, rfl⟩
  · have hname : identifier? text.toList = some (lexeme, after) := hsplit
    cases (identifier?_of_keyword? htaken).symm.trans hname
    exact .inl ⟨.inr ⟨rfl, rfl⟩, rfl⟩
  · refine .inr (.inl ⟨rfl, rfl, ?_⟩)
    rw [byteLength_operator hsplit, byteLength_symbol htaken]
    decide
  · refine .inr (.inr ⟨rfl, rfl, ?_⟩)
    rw [byteLength_operator htaken, byteLength_symbol hsplit]
    decide

/-! ## The first class -/

/-- A class is the first of the table that takes anything from a text. -/
def IsFirst (cls : Class) (text : String) (length : Nat) : Prop :=
  ∃ before after, all = before ++ cls :: after ∧
    (∀ other ∈ before, other.matchLength? text = none) ∧ cls.matchLength? text = some length

theorem IsFirst.takes (h : cls.IsFirst text length) : cls.matchLength? text = some length := by
  obtain ⟨before, after, -, -, hcls⟩ := h
  exact hcls

/-- The first class is the one whose text the scanner takes. -/
theorem isFirst_iff :
    cls.IsFirst text length ↔
      ∃ lexeme after, first? text.toList = some (cls, lexeme, after) ∧
        byteLength lexeme = length := by
  simp only [first?, List.findSome?_eq_some_iff, Option.map_eq_some_iff, Option.map_eq_none_iff,
    IsFirst, matchLength?_eq_none, matchLength?_eq_some]
  constructor
  · rintro ⟨before, after, htable, hbefore, lexeme, rest, hsplit, hlength⟩
    exact ⟨lexeme, rest, ⟨before, cls, after, htable, ⟨_, hsplit, rfl⟩, hbefore⟩, hlength⟩
  · rintro ⟨lexeme, rest, ⟨before, found, after, htable, ⟨taken, hsplit, heq⟩, hbefore⟩, hlength⟩
    cases heq
    exact ⟨before, after, htable, hbefore, lexeme, rest, hsplit, hlength⟩

/-- Operators come before symbols. -/
theorem not_isFirst_symbol (h : operator.matchLength? text = some less) :
    ¬symbol.IsFirst text length := by
  intro hsymbol
  obtain ⟨lexeme, after, hoperator, -⟩ := matchLength?_eq_some.1 h
  obtain ⟨taken, behind, hfirst, -⟩ := isFirst_iff.1 hsymbol
  cases hfirst.symm.trans (first?_of_split? hoperator nofun nofun)

theorem length_le_of_isFirst (hfirst : cls.IsFirst text length)
    (hother : other.matchLength? text = some less) : less ≤ length := by
  have hcls := hfirst.takes
  by_cases hsame : cls = other
  · subst hsame
    exact Nat.le_of_eq (Option.some.inj (hother.symm.trans hcls))
  rcases matchLength?_cases hcls hother hsame with
    ⟨-, hequal⟩ | ⟨-, -, hless⟩ | ⟨rfl, rfl, -⟩
  · exact Nat.le_of_eq hequal
  · exact Nat.le_of_lt hless
  · exact absurd hfirst (not_isFirst_symbol hother)

/-- What the order of the classes does for a text. -/
structure FirstIsLongest (text : String) : Prop where
  /-- If any class takes something, there is a first one. -/
  first : ∀ (cls : Class) length, cls.matchLength? text = some length →
    ∃ (first : Class) (most : Nat), first.IsFirst text most
  longest : ∀ (first : Class) most, first.IsFirst text most →
    ∀ (cls : Class) length, cls.matchLength? text = some length → length ≤ most
  ties : ∀ (cls other : Class) length, cls ≠ other → cls.matchLength? text = some length →
    other.matchLength? text = some length →
    (cls = keyword ∧ other = identifier) ∨ (cls = identifier ∧ other = keyword)
  bounds : ∀ (first : Class) most, first.IsFirst text most →
    1 ≤ most ∧ String.Pos.Raw.IsValid text ⟨most⟩
  /-- A token is made of what the first one takes. -/
  scanned : ∀ (cls : Class) length, cls.IsFirst text length ↔
    ∃ lexeme after, first? text.toList = some (cls, lexeme, after) ∧ byteLength lexeme = length

theorem exists_isFirst (h : cls.matchLength? text = some length) :
    ∃ (first : Class) (most : Nat), first.IsFirst text most := by
  obtain ⟨lexeme, after, hsplit, -⟩ := matchLength?_eq_some.1 h
  cases hfirst : first? text.toList with
  | some found =>
      obtain ⟨first, taken, behind⟩ := found
      exact ⟨first, byteLength taken, isFirst_iff.2 ⟨taken, behind, hfirst, rfl⟩⟩
  | none =>
      have hmem : cls ∈ all := by
        cases cls <;> decide
      have hnone := List.findSome?_eq_none_iff.1 hfirst cls hmem
      rw [hsplit] at hnone
      cases hnone

/-- On every text, the first class that takes anything takes the most, and as much as another class
only if the two are keyword and identifier. -/
theorem firstIsLongest (text : String) : FirstIsLongest text where
  first := fun _ _ h => exists_isFirst h
  longest := fun _ _ hfirst _ _ hother => length_le_of_isFirst hfirst hother
  ties := by
    intro cls other length hne hcls hother
    rcases matchLength?_cases hcls hother hne with ⟨hword, -⟩ | ⟨-, -, hless⟩ | ⟨-, -, hless⟩
    · exact hword
    · exact absurd hless (Nat.lt_irrefl _)
    · exact absurd hless (Nat.lt_irrefl _)
  bounds := fun _ _ hfirst => matchLength?_bounds hfirst.takes
  scanned := fun _ _ => isFirst_iff

/-- A keyword is as long as the same text taken for an identifier. Behind it an accent may stand,
which goes into a word but into no identifier, and then there is no keyword. -/
example : (all.map fun cls => cls.matchLength? "int x") =
    [none, none, none, some 3, some 3, none, none] := by decide +kernel

example : (all.map fun cls => cls.matchLength? "inté") =
    [none, none, none, none, some 3, none, none] := by decide +kernel

end WordC.Token.Class
