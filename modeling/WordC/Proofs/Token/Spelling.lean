import Mathlib.Data.List.Forall2
import Mathlib.Data.Nat.Digits.Defs
import Mathlib.Tactic.Ring
import WordC.Proofs.Token.Gaps
import WordC.Proofs.Token.Lexemes

/-!
# How tokens are written

A token may be written in several ways: a number with any digits that have its value, a literal with
escapes, all else in one way only. In front of a blank, each of them is taken whole and builds the
token it spells.
-/

namespace WordC.Token

open Text (isBlank)

variable {kind : Kind} {text after digits : List Char} {value : Nat}

/-- A digit of a base up to sixteen, of either case. -/
def IsDigitOf (base digit : Nat) (c : Char) : Prop :=
  digit < base ∧ (c = digit.digitChar ∨ c = digit.digitChar.toUpper)

/-- The digits of a number, with zeros in front or without. -/
inductive Numeral : List Char → Nat → Prop where
  | decimal {digits : List Nat} {text : List Char} (h : List.Forall₂ (IsDigitOf 10) digits text)
      (hne : text ≠ []) : Numeral text (Nat.ofDigits 10 digits.reverse)
  | hexadecimal {digits : List Nat} {mark : Char} {text : List Char} (hmark : mark = 'x' ∨ mark = 'X')
      (h : List.Forall₂ (IsDigitOf 16) digits text) (hne : text ≠ []) :
      Numeral ('0' :: mark :: text) (Nat.ofDigits 16 digits.reverse)

/-- A character between quotes. -/
def escape : Char → List Char
  | '\n' => ['\\', 'n']
  | '\t' => ['\\', 't']
  | '\r' => ['\\', 'r']
  | '\x00' => ['\\', '0']
  | '\\' => ['\\', '\\']
  | '\'' => ['\\', '\'']
  | '"' => ['\\', '"']
  | c => [c]

/-- A text that spells a token. -/
inductive Spells : List Char → Kind → Prop where
  | number {text : List Char} {word : Word} {value : Nat} (h : Numeral text value)
      (hvalue : word.toInt = value) : Spells text (.number word)
  | character (c : Char) : Spells ('\'' :: (escape c ++ ['\''])) (.character c)
  | string (value : String) : Spells ('"' :: (value.toList.flatMap escape ++ ['"'])) (.string value)
  | identifier {name : String} (hne : name ≠ "") (hall : ∀ c ∈ name.toList, c.isAlphanum ∨ c = '_')
      (hstart : ∀ c, name.toList.head? = some c → c.isDigit = false)
      (hkeyword : ∀ word : Keyword, word.text ≠ name) : Spells name.toList (.identifier name)
  | keyword (word : Keyword) : Spells word.text.toList (.keyword word)
  | punctuator (mark : Punctuator) : Spells mark.text.toList (.punctuator mark)

/-- Whether a character behind a token might be taken for a part of it. -/
def Kind.continues : Kind → Char → Bool
  | .number _, c => Class.isHexDigit c || Class.isHexMark c
  | .identifier _, c | .keyword _, c => Text.isWordChar c
  | .punctuator _, c => Class.seconds.contains c || c = '/' || c = '*'
  | .character _, _ | .string _, _ | .endOfInput, _ => false

/-- Whether a name may be given to a variable or a function. -/
def isName (name : String) : Bool :=
  name ≠ "" && name.toList.all (fun c => c.isAlphanum || c = '_') &&
    name.toList.head?.all (!·.isDigit) && Keyword.all.all (·.text ≠ name)

theorem spells_of_isName {name : String} (h : isName name = true) :
    Spells name.toList (.identifier name) := by
  simp only [isName, Bool.and_eq_true, decide_eq_true_eq, List.all_eq_true, Bool.or_eq_true,
    Option.all_eq_true, Bool.not_eq_true'] at h
  obtain ⟨⟨⟨hne, hall⟩, hstart⟩, hkeyword⟩ := h
  exact .identifier hne hall (fun c hc => hstart c hc)
    fun word => hkeyword word (Class.mem_keywords word)

namespace Class

/-! ## Numbers -/

theorem isHexDigit_of_isDigitOf {digit : Nat} {c : Char} (h : IsDigitOf 16 digit c) :
    isHexDigit c = true ∧ digitValue c = digit := by
  obtain ⟨hlt, hc⟩ := h
  have hall : ∀ digit < 16, (isHexDigit digit.digitChar = true ∧ digitValue digit.digitChar = digit) ∧
      isHexDigit digit.digitChar.toUpper = true ∧ digitValue digit.digitChar.toUpper = digit := by
    decide
  rcases hc with rfl | rfl
  · exact (hall digit hlt).1
  · exact (hall digit hlt).2

theorem digitValue_of_isDigitOf {base digit : Nat} {c : Char} (h : IsDigitOf base digit c)
    (hbase : base ≤ 16) : digitValue c = digit :=
  (isHexDigit_of_isDigitOf ⟨Nat.lt_of_lt_of_le h.1 hbase, h.2⟩).2

theorem isDigit_of_isDigitOf {digit : Nat} {c : Char} (h : IsDigitOf 10 digit c) :
    isDigit c = true := by
  obtain ⟨hlt, hc⟩ := h
  have hall : ∀ digit < 10,
      isDigit digit.digitChar = true ∧ isDigit digit.digitChar.toUpper = true := by decide
  rcases hc with rfl | rfl
  · exact (hall digit hlt).1
  · exact (hall digit hlt).2

/-- The digits read so far are worth a power of the base more. -/
theorem foldl_digits {base : Nat} {digits : List Nat}
    (h : List.Forall₂ (fun digit c => digitValue c = digit) digits text) (front : Nat) :
    text.foldl (fun value c => value * base + digitValue c) front =
      front * base ^ digits.length + Nat.ofDigits base digits.reverse := by
  induction h generalizing front with
  | nil => simp
  | @cons digit c digits text hdigit _ ih =>
      rw [List.foldl_cons, ih, hdigit, List.reverse_cons, Nat.ofDigits_append, List.length_cons,
        List.length_reverse, Nat.ofDigits_singleton]
      ring

theorem digitsValue_eq {base : Nat} {digits : List Nat}
    (h : List.Forall₂ (fun digit c => digitValue c = digit) digits text) :
    digitsValue base text = Nat.ofDigits base digits.reverse := by
  rw [digitsValue, foldl_digits h, Nat.zero_mul, Nat.zero_add]

theorem all_of_forall₂ {base : Nat} {test : Char → Bool} {digits : List Nat}
    (h : List.Forall₂ (IsDigitOf base) digits text)
    (htest : ∀ digit c, IsDigitOf base digit c → test c = true) : ∀ c ∈ text, test c = true := by
  induction h with
  | nil => exact fun _ hmem => absurd hmem List.not_mem_nil
  | cons hdigit _ ih => exact List.forall_mem_cons.2 ⟨htest _ _ hdigit, ih⟩

/-- The value of a numeral is the value of its token, unless it is too great for one. -/
theorem buildNumber?_of_numeral (h : Numeral text value) :
    buildNumber? text =
      if value ≤ Word.greatest then some (.number (Word.ofCount value)) else none := by
  cases h with
  | @decimal digits text hdigits hne =>
      have hvalue : digitsValue 10 text = Nat.ofDigits 10 digits.reverse :=
        digitsValue_eq (hdigits.imp fun digit c hc => digitValue_of_isDigitOf hc (by decide))
      have hall := all_of_forall₂ hdigits fun _ _ => isDigit_of_isDigitOf
      -- A zero in front of decimal digits is worth nothing.
      have hbuild : buildNumber? text =
          if digitsValue 10 text ≤ Word.greatest
          then some (.number (Word.ofCount (digitsValue 10 text))) else none := by
        unfold buildNumber?
        split
        · next x tail =>
            have hx : isHexMark x = false :=
              isHexMark_of_isDigit (hall x (by simp))
            simp only [hx, Bool.false_eq_true, if_false]
            rfl
        · rfl
      rw [hbuild, hvalue]
  | @hexadecimal digits mark text hmark hdigits hne =>
      have hvalue : digitsValue 16 text = Nat.ofDigits 16 digits.reverse :=
        digitsValue_eq (hdigits.imp fun digit c hc => digitValue_of_isDigitOf hc (Nat.le_refl 16))
      have hx : isHexMark mark = true := by
        rcases hmark with rfl | rfl <;> rfl
      rw [buildNumber?, ← hvalue]
      simp only [hx, if_true]

theorem numberKind_of_toInt {word : Word} (h : word.toInt = value) :
    value ≤ Word.greatest ∧ Word.ofCount value = word := by
  have hlt : word.toInt < 2 ^ 63 := word.toInt_lt
  have hvalue : value < 2 ^ 63 := by omega
  refine ⟨Nat.le_sub_one_of_lt hvalue, Int64.toInt_inj.1 ?_⟩
  rw [Word.ofCount, Int64.toInt_ofNat_of_lt hvalue, h]

/-! ## Literals -/

theorem isBody_append {quote : Char} {front back : List Char} (hfront : IsBody quote front)
    (hback : IsBody quote back) : IsBody quote (front ++ back) := by
  induction hfront with
  | nil => exact hback
  | plain hquote hescape hline _ ih => exact .plain hquote hescape hline ih
  | escape hline _ ih => exact .escape hline ih

theorem isBody_escape {quote : Char} (hquote : quote = '\'' ∨ quote = '"') (c : Char) :
    IsBody quote (escape c) := by
  fun_cases escape c with
  | case8 _ hline _ _ _ hbackslash hsingle hdouble =>
      refine .plain ?_ hbackslash hline .nil
      rcases hquote with rfl | rfl
      · exact hsingle
      · exact hdouble
  | _ => exact .escape (by decide) .nil

theorem isBody_flatMap_escape {quote : Char} (hquote : quote = '\'' ∨ quote = '"')
    (value : List Char) : IsBody quote (value.flatMap escape) := by
  induction value with
  | nil => exact .nil
  | cons c value ih => exact isBody_append (isBody_escape hquote c) ih

theorem unescape?_escape (c : Char) (rest : List Char) :
    unescape? (escape c ++ rest) = (unescape? rest).map (c :: ·) := by
  fun_cases escape c with
  | case8 _ _ _ _ _ hbackslash _ _ =>
      rw [List.singleton_append, unescape?]
      · exact fun h => absurd h hbackslash
      · exact fun _ _ h => absurd h hbackslash
  | _ =>
      cases h : unescape? rest with
      | none => simp [unescape?, escape?, h]
      | some value => simp [unescape?, escape?, h]

theorem unescape?_flatMap_escape (value : List Char) :
    unescape? (value.flatMap escape) = some value := by
  induction value with
  | nil => rfl
  | cons c value ih => rw [List.flatMap_cons, unescape?_escape, ih, Option.map_some]

theorem body_append (quote : Char) (text : List Char) :
    body (quote :: (text ++ [quote])) = text := by
  rw [body, List.tail_cons, List.dropLast_concat]

/-! ## In front of other text -/

/-- What follows a token is no part of it. -/
def Apart (kind : Kind) (after : List Char) : Prop :=
  ∀ c, after.head? = some c → kind.continues c = false

/-- Nothing follows, or white space does. -/
def Parted (after : List Char) : Prop :=
  ∀ c, after.head? = some c → isBlank c = true

theorem Apart.cons {c : Char} (h : kind.continues c = false) : Apart kind (c :: after) := by
  rintro d ⟨⟩
  exact h

theorem Parted.apart (h : Parted after) (kind : Kind) : Apart kind after := by
  intro c hc
  have hblank := h c hc
  cases kind with
  | number value =>
      have hall := of_isBlank (fun c => !isHexDigit c && !isHexMark c) (by decide +kernel) hblank
      simpa [Kind.continues] using hall
  | identifier name => exact (apart_of_isBlank hblank).1
  | keyword word => exact (apart_of_isBlank hblank).1
  | punctuator mark =>
      have hall := of_isBlank (fun c => !(seconds.contains c || c = '/' || c = '*'))
        (by decide +kernel) hblank
      simpa [Kind.continues] using hall
  | character c => rfl
  | string text => rfl
  | endOfInput => rfl

theorem Apart.run {test : Char → Bool} (h : Apart kind after) (hne : text ≠ [])
    (hall : ∀ c ∈ text, test c = true) (htest : ∀ c, kind.continues c = false → test c = false) :
    Run test text after :=
  ⟨hne, hall, fun c hc => htest c (h c hc)⟩

theorem Numeral.split? (h : Numeral text value) {word : Word}
    (hafter : Apart (.number word) after) : number.split? (text ++ after) = some (text, after) := by
  have hstops : ∀ c, (Kind.number word).continues c = false →
      isHexDigit c = false ∧ isHexMark c = false := fun c hc => Bool.or_eq_false_iff.1 hc
  cases h with
  | decimal hdigits hne =>
      refine number?_decimal (hafter.run hne ?_ fun c hc => ?_) fun c hc => ?_
      · exact all_of_forall₂ hdigits fun _ _ => isDigit_of_isDigitOf
      · exact (Bool.or_eq_false_iff.1 (Bool.or_eq_false_iff.1 (hstops c hc).1).1).1
      · exact (hstops c (hafter c hc)).2
  | hexadecimal hmark hdigits hne =>
      refine number?_hexadecimal ?_ (hafter.run hne ?_ fun c hc => (hstops c hc).1)
      · rcases hmark with rfl | rfl <;> rfl
      · exact all_of_forall₂ hdigits fun _ _ hc => (isHexDigit_of_isDigitOf hc).1

theorem isNamePart_iff (c : Char) : isNamePart c = true ↔ c.isAlphanum ∨ c = '_' := by
  have halphanum : c.isAlphanum =
      ((decide ('A'.val ≤ c.val ∧ c.val ≤ 'Z'.val) || ('a'.val ≤ c.val && c.val ≤ 'z'.val)) ||
        ('0'.val ≤ c.val && c.val ≤ '9'.val)) := rfl
  rw [halphanum]
  simp only [isNamePart, isNameStart, isDigit, Bool.or_eq_true, Bool.and_eq_true,
    decide_eq_true_eq, Char.le_def]
  grind

theorem isNameStart_of_isNamePart {c : Char} (h : isNamePart c = true)
    (hdigit : c.isDigit = false) :
    isNameStart c = true := by
  rw [isNamePart, show isDigit c = c.isDigit from rfl, hdigit, Bool.or_false] at h
  exact h

/-- The class that a spelling belongs to takes it and builds its token. -/
theorem exists_split?_of_spells (h : Spells text kind) (hafter : Apart kind after) :
    ∃ cls : Class, cls.split? (text ++ after) = some (text, after) ∧ cls.build? text = some kind ∧
      (cls = identifier → keyword? (text ++ after) = none) ∧
      (cls = symbol → operator.split? (text ++ after) = none) := by
  cases h with
  | number hnumeral hvalue =>
      obtain ⟨hle, hword⟩ := numberKind_of_toInt hvalue
      refine ⟨number, Numeral.split? hnumeral hafter, ?_, nofun, nofun⟩
      rw [build?, buildNumber?_of_numeral hnumeral, if_pos hle, hword]
  | character c =>
      refine ⟨character, ?_, ?_, nofun, nofun⟩
      · simpa [split?] using literal?_append (by decide) (isBody_escape (.inl rfl) c) after
      · have hvalue : unescape? (escape c) = some [c] := by
          simpa using unescape?_flatMap_escape [c]
        rw [build?, buildCharacter?, body_append, hvalue]
  | string value =>
      refine ⟨string, ?_, ?_, nofun, nofun⟩
      · simpa [split?] using literal?_append (by decide)
          (isBody_flatMap_escape (.inr rfl) value.toList) after
      · rw [build?, body_append, unescape?_flatMap_escape, Option.map_some, String.ofList_toList]
  | identifier hne hall hstart hkeyword =>
      have hparts : ∀ c ∈ _, isNamePart c = true := fun c hc => (isNamePart_iff c).2 (hall c hc)
      have hrun := hafter.run (by simpa using hne) hparts fun c hc =>
        Bool.eq_false_iff.2 fun hpart => Bool.eq_false_iff.1 hc (isWordChar_of_isNamePart hpart)
      refine ⟨identifier, identifier?_eq_some.2 ⟨rfl, hrun, fun c hc => ?_⟩, ?_, fun _ => ?_, nofun⟩
      · exact isNameStart_of_isNamePart (hparts c (List.mem_of_mem_head? hc)) (hstart c hc)
      · rw [build?, String.ofList_toList]
      · exact keyword?_eq_none hrun fun word _ heq => hkeyword word (String.toList_inj.1 heq)
  | keyword word =>
      have hmem := mem_keywords word
      have hnames : ∀ word ∈ Keyword.all, word.text.toList ≠ [] ∧
          Keyword.ofText? word.text = some word := by decide
      obtain ⟨hne, hword⟩ := hnames word hmem
      have hrun := hafter.run hne
        (fun c hc => isWordChar_of_isNamePart (isNamePart_of_mem_text hc)) fun c hc => hc
      refine ⟨keyword, keyword?_eq_some.2 ⟨rfl, hrun, word, hmem, rfl⟩, ?_, nofun, nofun⟩
      rw [build?, String.ofList_toList, hword, Option.map_some]
  | punctuator mark =>
      have hmark : Punctuator.ofText? mark.text = some mark := by cases mark <;> decide
      by_cases hpair : mark ∈ Punctuator.pairs
      · refine ⟨operator, operator?_append hpair after, ?_, nofun, nofun⟩
        rw [build?, String.ofList_toList, hmark, Option.map_some]
      · have hsingle : mark ∈ Punctuator.singles := by
          cases mark <;> first | decide | exact absurd (by decide) hpair
        have hchars : ∀ mark ∈ Punctuator.singles, ∃ c, mark.text.toList = [c] := by
          simp [Punctuator.singles, Punctuator.text]
        refine ⟨symbol, symbol?_append hsingle after, ?_, nofun, fun _ => ?_⟩
        · rw [build?, String.ofList_toList, hmark, Option.map_some]
        · obtain ⟨c, hc⟩ := hchars mark hsingle
          rw [hc, List.singleton_append]
          refine operator?_eq_none fun d hd hmem => ?_
          have hd := hafter d hd
          rw [Kind.continues, List.contains_iff_mem.2 hmem] at hd
          cases hd

theorem exists_first?_of_spells (h : Spells text kind) (hafter : Apart kind after) :
    ∃ cls : Class, first? (text ++ after) = some (cls, text, after) ∧
      cls.build? text = some kind := by
  obtain ⟨cls, hsplit, hbuild, hname, hmark⟩ := exists_split?_of_spells h hafter
  exact ⟨cls, first?_of_split? hsplit hname hmark, hbuild⟩

theorem first?_of_numeral (h : Numeral text value) (hafter : Parted after) :
    first? (text ++ after) = some (number, text, after) :=
  first?_of_split? (Numeral.split? h (hafter.apart (.number 0))) nofun nofun

/-- A class that takes a sign of division takes that alone. -/
theorem eq_slash_of_split? {cls : Class} {tail : List Char}
    (h : cls.split? ('/' :: tail ++ after) = some ('/' :: tail, after)) :
    cls = symbol ∧ tail = [] := by
  have hslash : symbol.opens '/' = true := by decide
  have hfamily := family_eq_of_opens hslash (opens_of_split? h)
  have hpairs : ∀ spelling ∈ Punctuator.pairs.map (·.text),
      spelling.toList.head? ≠ some '/' := by decide
  have hsingles : ∀ spelling ∈ Punctuator.singles.map (·.text),
      spelling.toList.tail = [] := by decide
  cases cls with
  | operator =>
      obtain ⟨spelling, hmem, heq⟩ := of_spelled? h
      exact absurd (congrArg List.head? heq) (hpairs spelling hmem)
  | symbol =>
      obtain ⟨spelling, hmem, heq⟩ := of_spelled? h
      exact ⟨rfl, by rw [← hsingles spelling hmem, heq, List.tail_cons]⟩
  | _ => cases hfamily

/-- No gap begins where a class takes something: only the sign of division begins like a comment. -/
theorem opensToken_of_first? {cls : Class} (h : first? (text ++ after) = some (cls, text, after))
    (hafter : cls = symbol → ∀ c, after.head? = some c → c ≠ '/' ∧ c ≠ '*') :
    Cursor.OpensToken (text ++ after) := by
  obtain ⟨hsplit, -⟩ := of_first? h
  obtain ⟨c, tail, rfl⟩ := List.exists_cons_of_ne_nil (splits_of_split? hsplit).2
  refine ⟨?_, ?_⟩
  · cases hblank : isBlank c with
    | false => rfl
    | true => rw [← opens_of_split? hsplit, (apart_of_isBlank hblank).2 cls]
  · rintro rfl
    obtain ⟨hcls, rfl⟩ := eq_slash_of_split? hsplit
    exact ⟨fun hc => (hafter hcls _ hc).1 rfl, fun hc => (hafter hcls _ hc).2 rfl⟩

/-- What follows a mark makes no comment of it. -/
theorem Apart.of_symbol (h : Apart kind after) (hbuild : symbol.build? text = some kind) :
    ∀ c, after.head? = some c → c ≠ '/' ∧ c ≠ '*' := by
  obtain ⟨mark, -, rfl⟩ := Option.map_eq_some_iff.1 hbuild
  intro c hc
  have hnone := h c hc
  simp only [Kind.continues, Bool.or_eq_false_iff, decide_eq_false_iff_not] at hnone
  exact ⟨hnone.1.2, hnone.2⟩

end Class

end WordC.Token
