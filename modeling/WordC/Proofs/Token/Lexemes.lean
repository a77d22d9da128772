import WordC.Text.Blank
import WordC.Token.Class

/-!
# What the classes take

The character that an input begins with tells which classes can take anything from it. Only keywords
and identifiers begin alike, and so do operators and symbols: among those the order of the classes
decides. What a class takes, it takes again when nothing follows.
-/

namespace WordC.Token.Class

variable {cls other : Class} {c quote : Char} {input lexeme after rest text : List Char}
  {split : List Char × List Char}

/-! ## Characters -/

/-- The characters that operators and symbols are made of. -/
def marks : List Char :=
  (Punctuator.pairs ++ Punctuator.singles).flatMap fun mark => mark.text.toList

/-- Whether a class may take a text that begins with the character. -/
def opens : Class → Char → Bool
  | number, c => isDigit c
  | character, c => c = '\''
  | string, c => c = '"'
  | keyword, c | identifier, c => isNameStart c
  | operator, c | symbol, c => marks.contains c

/-- Classes whose texts begin with the same characters. -/
def family : Class → Class
  | keyword => identifier
  | operator => symbol
  | cls => cls

/-- A fact about the ASCII characters holds of a character below 128. -/
theorem of_toNat_lt (p : Char → Bool) (hall : ∀ code < 128, p (Char.ofNat code) = true)
    (hc : c.toNat < 128) : p c = true := by
  have hcode := hall c.toNat hc
  rwa [Char.ofNat_toNat] at hcode

theorem toNat_lt_of_isNamePart (h : isNamePart c = true) : c.toNat < 128 := by
  simp only [isNamePart, isNameStart, isDigit, Bool.or_eq_true, Bool.and_eq_true,
    decide_eq_true_eq, Char.le_def, UInt32.le_iff_toNat_le] at h
  change c.val.toNat < 128
  rcases h with ((⟨-, h⟩ | ⟨-, h⟩) | rfl) | ⟨-, h⟩
  · exact Nat.lt_of_le_of_lt h (by decide)
  · exact Nat.lt_of_le_of_lt h (by decide)
  · decide
  · exact Nat.lt_of_le_of_lt h (by decide)

theorem toNat_lt_of_opens (h : cls.opens c = true) : c.toNat < 128 := by
  cases cls with
  | number => exact toNat_lt_of_isNamePart (Bool.or_eq_true_iff.2 (.inr h))
  | character | string =>
      rw [opens, decide_eq_true_eq] at h
      subst h
      decide
  | keyword | identifier => exact toNat_lt_of_isNamePart (Bool.or_eq_true_iff.2 (.inl h))
  | operator | symbol =>
      have hmarks : (marks.all fun mark => mark.toNat < 128) = true := by decide
      exact of_decide_eq_true (List.all_eq_true.1 hmarks c (List.contains_iff_mem.1 h))

/-- A character is at the beginning of one family only. -/
theorem family_eq_of_opens (h : cls.opens c = true) (hother : other.opens c = true) :
    other.family = cls.family := by
  have hall := of_toNat_lt (fun c => all.all fun cls => all.all fun other =>
    !cls.opens c || !other.opens c || other.family = cls.family) (by decide +kernel)
    (toNat_lt_of_opens h)
  have hmem : ∀ cls : Class, cls ∈ all := by
    intro cls
    cases cls <;> decide
  have hboth := List.all_eq_true.1 (List.all_eq_true.1 hall cls (hmem cls)) other (hmem other)
  simpa [h, hother] using hboth

theorem isWordChar_of_isNamePart (h : isNamePart c = true) : Text.isWordChar c = true := by
  have hall := of_toNat_lt (fun c => !isNamePart c || Text.isWordChar c) (by decide +kernel)
    (toNat_lt_of_isNamePart h)
  simpa [h] using hall

theorem exists_range_of_contains {ranges : CharRanges} (h : ranges.contains c = true) :
    ∃ range ∈ ranges, range.1 ≤ c.toNat ∧ c.toNat ≤ range.2 := by
  rw [CharRanges.contains] at h
  induction ranges with
  | nil => cases h
  | cons range ranges ih =>
      rw [CharRanges.containsCode, Bool.and_eq_true, Bool.or_eq_true, decide_eq_true_eq,
        decide_eq_true_eq] at h
      rcases h.2 with hstop | hrest
      · exact ⟨range, List.mem_cons_self, h.1, hstop⟩
      · obtain ⟨found, hmem, hfound⟩ := ih hrest
        exact ⟨found, List.mem_cons_of_mem _ hmem, hfound⟩

/-- A fact about the blanks, of which there are few, holds of each of them. -/
theorem of_isBlank (p : Char → Bool)
    (hall : ∀ range ∈ Text.blanks, ∀ index < range.2 + 1 - range.1,
      p (Char.ofNat (range.1 + index)) = true) (h : Text.isBlank c = true) : p c = true := by
  obtain ⟨range, hmem, hstart, hstop⟩ := exists_range_of_contains h
  have hc := hall range hmem (c.toNat - range.1) (by omega)
  rwa [Nat.add_sub_cancel' hstart, Char.ofNat_toNat] at hc

/-- A blank opens nothing and goes into no word. -/
theorem apart_of_isBlank (h : Text.isBlank c = true) :
    Text.isWordChar c = false ∧ ∀ cls : Class, cls.opens c = false := by
  have hc := of_isBlank (fun c => !Text.isWordChar c && all.all fun cls => !cls.opens c)
    (by decide +kernel) h
  rw [Bool.and_eq_true, Bool.not_eq_true'] at hc
  refine ⟨hc.1, fun cls => ?_⟩
  have hcls := List.all_eq_true.1 hc.2 cls (by cases cls <;> decide)
  simpa using hcls

/-! ## Runs -/

/-- A run of characters that satisfy a test, in front of one that does not. -/
structure Run (test : Char → Bool) (lexeme after : List Char) : Prop where
  ne_nil : lexeme ≠ []
  all : ∀ c ∈ lexeme, test c = true
  stops : ∀ c, after.head? = some c → test c = false

theorem Run.alone {test : Char → Bool} (h : Run test lexeme after) : Run test lexeme [] where
  ne_nil := h.ne_nil
  all := h.all
  stops := fun _ hnil => by cases hnil

theorem spanOf?_eq_some {test : Char → Bool} :
    spanOf? test input = some (lexeme, after) ↔ input = lexeme ++ after ∧ Run test lexeme after := by
  constructor
  · intro h
    obtain ⟨hinput, hne⟩ := splits_of_spanOf? h
    unfold spanOf? at h
    split at h
    · cases h
    · cases h
      refine ⟨hinput, hne, fun c hmem => List.all_eq_true.1 List.all_takeWhile c hmem,
        fun c hhead => ?_⟩
      have hnot := List.head?_dropWhile_not test input
      rw [hhead] at hnot
      simpa using hnot
  · rintro ⟨rfl, hrun⟩
    have hstops : after.takeWhile test = [] ∧ after.dropWhile test = after := by
      cases after with
      | nil => exact ⟨rfl, rfl⟩
      | cons c after => simp [hrun.stops c rfl]
    rw [spanOf?, List.takeWhile_append_of_pos hrun.all, List.dropWhile_append_of_pos hrun.all,
      hstops.1, hstops.2, List.append_nil, if_neg (by simpa using hrun.ne_nil)]

/-- A text has one run at its beginning. -/
theorem Run.unique {test : Char → Bool} {lexeme' after' : List Char} (h : Run test lexeme after)
    (h' : Run test lexeme' after') (heq : lexeme ++ after = lexeme' ++ after') :
    lexeme = lexeme' ∧ after = after' := by
  have hspan := spanOf?_eq_some.2 ⟨rfl, h⟩
  rw [spanOf?_eq_some.2 ⟨heq, h'⟩, Option.some.injEq, Prod.mk.injEq] at hspan
  exact ⟨hspan.1.symm, hspan.2.symm⟩

/-! ## Numbers -/

theorem number?_hexadecimal {x : Char} {digits : List Char} (hx : isHexMark x = true)
    (h : Run isHexDigit digits after) :
    number? ('0' :: x :: (digits ++ after)) = some ('0' :: x :: digits, after) := by
  rw [number?, if_pos hx, spanOf?_eq_some.2 ⟨rfl, h⟩]

theorem isHexMark_of_isDigit (h : isDigit c = true) : isHexMark c = false := by
  have hopens : number.opens c = true := h
  have hall := of_toNat_lt (fun c => !isDigit c || !isHexMark c) (by decide)
    (toNat_lt_of_opens hopens)
  simpa [h] using hall

theorem number?_decimal (h : Run isDigit lexeme after)
    (hmark : ∀ c, after.head? = some c → isHexMark c = false) :
    number? (lexeme ++ after) = some (lexeme, after) := by
  have hspan := spanOf?_eq_some.2 ⟨rfl, h⟩
  unfold number?
  split
  · next x rest hinput =>
      -- The second character is a digit or stands behind the number.
      have hx : isHexMark x = false := by
        obtain ⟨d, tail, rfl⟩ := List.exists_cons_of_ne_nil h.ne_nil
        obtain ⟨-, htail⟩ := List.cons.inj hinput
        cases tail with
        | nil => exact hmark x (by rw [show after = x :: rest from htail]; rfl)
        | cons e tail =>
            obtain ⟨rfl, -⟩ := List.cons.inj htail
            exact isHexMark_of_isDigit (h.all e (by simp))
      rw [hx]
      exact hspan
  · exact hspan

/-- A number is hexadecimal behind its mark, or decimal. -/
theorem of_number? (h : number? input = some (lexeme, after)) :
    (∃ x digits, isHexMark x = true ∧ lexeme = '0' :: x :: digits ∧ Run isHexDigit digits after) ∨
      Run isDigit lexeme after := by
  unfold number? at h
  split at h
  · next x rest =>
      cases hx : isHexMark x with
      | false =>
          rw [hx] at h
          exact .inr (spanOf?_eq_some.1 h).2
      | true =>
          rw [hx, if_pos rfl] at h
          cases hspan : spanOf? isHexDigit rest with
          | none =>
              rw [hspan] at h
              exact .inr (spanOf?_eq_some.1 h).2
          | some split =>
              obtain ⟨digits, behind⟩ := split
              rw [hspan] at h
              cases h
              exact .inl ⟨x, digits, hx, rfl, (spanOf?_eq_some.1 hspan).2⟩
  · exact .inr (spanOf?_eq_some.1 h).2

theorem number?_alone (h : number? input = some (lexeme, after)) :
    number? lexeme = some (lexeme, []) := by
  rcases of_number? h with ⟨x, digits, hx, rfl, hrun⟩ | hrun
  · simpa using number?_hexadecimal hx hrun.alone
  · simpa using number?_decimal hrun.alone fun _ hnil => by cases hnil

/-! ## Literals -/

/-- What may stand between quotes: a backslash takes the next character with it, and the line does
not end. -/
inductive IsBody (quote : Char) : List Char → Prop where
  | nil : IsBody quote []
  | plain {c : Char} {rest : List Char} (hquote : c ≠ quote) (hescape : c ≠ '\\')
      (hline : c ≠ '\n') (h : IsBody quote rest) : IsBody quote (c :: rest)
  | escape {c : Char} {rest : List Char} (hline : c ≠ '\n') (h : IsBody quote rest) :
      IsBody quote ('\\' :: c :: rest)

theorem closing?_append {body : List Char} (hquote : quote ≠ '\\') (h : IsBody quote body)
    (after : List Char) :
    closing? quote (body ++ quote :: after) = some (body ++ [quote], after) := by
  induction h with
  | nil =>
      rw [List.nil_append, closing?, if_pos rfl]
      · rfl
      · exact fun _ _ heq _ => hquote heq
  | plain hne hescape hline _ ih =>
      rw [List.cons_append, closing?, if_neg hne, if_neg (by simp [hescape, hline]), ih]
      · rfl
      · exact fun _ _ heq _ => hescape heq
  | escape hline _ ih =>
      rw [List.cons_append, List.cons_append, closing?, if_neg hline, ih]
      rfl

theorem of_closing? (h : closing? quote input = some (lexeme, after)) :
    ∃ body, IsBody quote body ∧ lexeme = body ++ [quote] := by
  fun_induction closing? quote input generalizing lexeme after with
  | case1 => cases h
  | case2 => cases h
  | case3 c rest hline ih =>
      obtain ⟨⟨tail, behind⟩, htail, heq⟩ := Option.map_eq_some_iff.1 h
      cases heq
      obtain ⟨body, hbody, rfl⟩ := ih htail
      exact ⟨'\\' :: c :: body, .escape hline hbody, rfl⟩
  | case4 =>
      cases h
      exact ⟨[], .nil, rfl⟩
  | case5 => cases h
  | case6 c rest _ hquote hline ih =>
      obtain ⟨⟨tail, behind⟩, htail, heq⟩ := Option.map_eq_some_iff.1 h
      cases heq
      obtain ⟨body, hbody, rfl⟩ := ih htail
      simp only [Bool.or_eq_true, decide_eq_true_eq, not_or] at hline
      exact ⟨c :: body, .plain hquote hline.1 hline.2 hbody, rfl⟩

theorem literal?_append {body : List Char} (hquote : quote ≠ '\\') (h : IsBody quote body)
    (after : List Char) :
    literal? quote (quote :: (body ++ quote :: after)) =
      some (quote :: (body ++ [quote]), after) := by
  rw [literal?, if_pos rfl, closing?_append hquote h]
  rfl

theorem of_literal? (h : literal? quote input = some (lexeme, after)) :
    ∃ body, IsBody quote body ∧ lexeme = quote :: (body ++ [quote]) := by
  unfold literal? at h
  split at h
  · cases h
  · next c rest =>
      by_cases hc : c = quote
      · rw [if_pos hc] at h
        obtain ⟨⟨tail, behind⟩, htail, heq⟩ := Option.map_eq_some_iff.1 h
        cases heq
        obtain ⟨body, hbody, rfl⟩ := of_closing? htail
        exact ⟨body, hbody, by rw [hc]⟩
      · rw [if_neg hc] at h
        cases h

theorem literal?_alone (hquote : quote ≠ '\\') (h : literal? quote input = some (lexeme, after)) :
    literal? quote lexeme = some (lexeme, []) := by
  obtain ⟨body, hbody, rfl⟩ := of_literal? h
  exact literal?_append hquote hbody []

/-! ## Words -/

theorem isPrefixOf?_append (spelling after : List Char) :
    spelling.isPrefixOf? (spelling ++ after) = some after := by
  induction spelling with
  | nil => rfl
  | cons c spelling ih =>
      have hcons : (c :: spelling).isPrefixOf? (c :: (spelling ++ after)) =
          if c == c then spelling.isPrefixOf? (spelling ++ after) else none := rfl
      rw [List.cons_append, hcons, if_pos (beq_self_eq_true c), ih]

theorem mem_keywords (word : Keyword) : word ∈ Keyword.all := by
  cases word with
  | type name => cases name <;> decide
  | _ => decide

theorem isNamePart_of_mem_text {word : Keyword} (h : c ∈ word.text.toList) :
    isNamePart c = true := by
  have hall : ∀ word ∈ Keyword.all, word.text.toList.all isNamePart = true := by decide
  exact List.all_eq_true.1 (hall word (mem_keywords word)) c h

theorem stops_iff {test : Char → Bool} :
    (∀ c, after.head? = some c → test c = false) ↔ after.head?.any test = false := by
  cases after.head? with
  | none => simp
  | some c => simp

/-- A keyword is a whole word: a run of word characters. -/
theorem keyword?_eq_some :
    keyword? input = some (lexeme, after) ↔
      input = lexeme ++ after ∧ Run Text.isWordChar lexeme after ∧
        ∃ word ∈ Keyword.all, word.text.toList = lexeme := by
  have hnames : ∀ word ∈ Keyword.all, word.text.toList ≠ [] := by decide
  have hof : ∀ {lexeme after}, keyword? input = some (lexeme, after) →
      input = lexeme ++ after ∧ Run Text.isWordChar lexeme after ∧
        ∃ word ∈ Keyword.all, word.text.toList = lexeme := by
    intro lexeme after h
    obtain ⟨word, hmem, hsplit⟩ := List.exists_of_findSome?_eq_some h
    split at hsplit
    · cases hsplit
    · next behind hbehind =>
        split at hsplit
        · cases hsplit
        · next hstops =>
            cases hsplit
            refine ⟨eq_append_of_isPrefixOf? hbehind, ⟨hnames word hmem, fun c hc => ?_, ?_⟩,
              word, hmem, rfl⟩
            · exact isWordChar_of_isNamePart (isNamePart_of_mem_text hc)
            · exact stops_iff.2 (by simpa using hstops)
  refine ⟨hof, ?_⟩
  rintro ⟨rfl, hrun, word, hmem, rfl⟩
  -- Some keyword is found, and it is the same run.
  have hsome : (keyword? (word.text.toList ++ after)).isSome := by
    rw [keyword?, List.findSome?_isSome_iff]
    refine ⟨word, hmem, ?_⟩
    simp [isPrefixOf?_append, stops_iff.1 hrun.stops]
  obtain ⟨⟨found, behind⟩, hfound⟩ := Option.isSome_iff_exists.1 hsome
  obtain ⟨heq, hrun', -⟩ := hof hfound
  obtain ⟨rfl, rfl⟩ := hrun.unique hrun' heq
  exact hfound

theorem identifier?_eq_some :
    identifier? input = some (lexeme, after) ↔
      input = lexeme ++ after ∧ Run isNamePart lexeme after ∧
        ∀ c, lexeme.head? = some c → isNameStart c = true := by
  constructor
  · intro h
    unfold identifier? at h
    split at h
    · cases h
    · next c rest =>
        split at h
        · next hstart =>
            obtain ⟨hinput, hrun⟩ := spanOf?_eq_some.1 h
            refine ⟨hinput, hrun, fun d hhead => ?_⟩
            obtain ⟨tail, rfl⟩ := List.head?_eq_some_iff.1 hhead
            obtain ⟨rfl, -⟩ := List.cons.inj hinput
            exact hstart
        · cases h
  · rintro ⟨rfl, hrun, hstart⟩
    have hspan := spanOf?_eq_some.2 ⟨rfl, hrun⟩
    obtain ⟨c, tail, rfl⟩ := List.exists_cons_of_ne_nil hrun.ne_nil
    rw [List.cons_append, identifier?, if_pos (hstart c rfl)]
    exact hspan

/-- A keyword is a run of the characters of names, too. -/
theorem run_isNamePart_of_keyword? (h : keyword? input = some (lexeme, after)) :
    Run isNamePart lexeme after := by
  obtain ⟨-, hrun, word, -, rfl⟩ := keyword?_eq_some.1 h
  refine ⟨hrun.ne_nil, fun c hc => isNamePart_of_mem_text hc, fun c hhead => ?_⟩
  cases hpart : isNamePart c with
  | false => rfl
  | true => rw [← isWordChar_of_isNamePart hpart, hrun.stops c hhead]

/-- A name that is no keyword is not taken for one. -/
theorem keyword?_eq_none (hrun : Run isNamePart lexeme after)
    (hname : ∀ word ∈ Keyword.all, word.text.toList ≠ lexeme) :
    keyword? (lexeme ++ after) = none := by
  cases h : keyword? (lexeme ++ after) with
  | none => rfl
  | some split =>
      obtain ⟨found, behind⟩ := split
      obtain ⟨heq, -, word, hmem, hfound⟩ := keyword?_eq_some.1 h
      obtain ⟨hlexeme, -⟩ := hrun.unique (run_isNamePart_of_keyword? h) heq
      exact absurd (hfound.trans hlexeme.symm) (hname word hmem)

/-! ## Marks -/

theorem of_spelled? {spellings : List String}
    (h : spelled? spellings input = some (lexeme, after)) :
    ∃ spelling ∈ spellings, spelling.toList = lexeme := by
  obtain ⟨spelling, hmem, hsplit⟩ := List.exists_of_findSome?_eq_some h
  obtain ⟨behind, -, heq⟩ := Option.map_eq_some_iff.1 hsplit
  cases heq
  exact ⟨spelling, hmem, rfl⟩

theorem operator?_append {mark : Punctuator} (h : mark ∈ Punctuator.pairs) (after : List Char) :
    operator.split? (mark.text.toList ++ after) = some (mark.text.toList, after) := by
  cases mark with
  | pipePipe | ampAmp | equalEqual | bangEqual | lessEqual | greaterEqual => rfl
  | _ => exact absurd h (by decide)

theorem symbol?_append {mark : Punctuator} (h : mark ∈ Punctuator.singles) (after : List Char) :
    symbol.split? (mark.text.toList ++ after) = some (mark.text.toList, after) := by
  cases mark with
  | pipePipe | ampAmp | equalEqual | bangEqual | lessEqual | greaterEqual =>
      exact absurd h (by decide)
  | _ => rfl

theorem exists_cons_of_tail {d : Char} {tail : List Char} (h : text.tail = d :: tail) :
    ∃ first, text = first :: d :: tail := by
  cases text with
  | nil => cases h
  | cons first rest => exact ⟨first, congrArg (first :: ·) h⟩

/-- The marks that may stand second in an operator. -/
def seconds : List Char := ['|', '&', '=']

/-- An operator is two marks. -/
theorem operator?_eq_none (h : ∀ d, rest.head? = some d → d ∉ seconds) :
    operator.split? (c :: rest) = none := by
  cases hsplit : operator.split? (c :: rest) with
  | none => rfl
  | some split =>
      obtain ⟨lexeme, after⟩ := split
      have hinput := (splits_of_split? hsplit).1
      obtain ⟨spelling, hmem, rfl⟩ := of_spelled? hsplit
      have hpairs : ∀ spelling ∈ Punctuator.pairs.map (·.text),
          spelling.toList.tail.head?.any seconds.contains = true := by decide
      obtain ⟨d, hd, hmark⟩ := (Option.any_eq_true _ _).1 (hpairs spelling hmem)
      obtain ⟨tail, htail⟩ := List.head?_eq_some_iff.1 hd
      obtain ⟨first, hspelling⟩ := exists_cons_of_tail htail
      rw [hspelling] at hinput
      obtain ⟨-, rfl⟩ := List.cons.inj hinput
      exact absurd (List.contains_iff_mem.1 hmark) (h d rfl)

/-! ## The first class -/

theorem opens_of_split? (h : cls.split? (c :: rest) = some split) : cls.opens c = true := by
  obtain ⟨lexeme, after⟩ := split
  obtain ⟨hinput, hne⟩ := splits_of_split? h
  obtain ⟨first, tail, hlexeme⟩ := List.exists_cons_of_ne_nil hne
  obtain rfl : lexeme = first :: tail := hlexeme
  obtain ⟨rfl, -⟩ := List.cons.inj hinput
  cases cls with
  | number =>
      rcases of_number? h with ⟨x, digits, -, heq, -⟩ | hrun
      · obtain ⟨rfl, -⟩ := List.cons.inj heq
        rfl
      · exact hrun.all c List.mem_cons_self
  | character =>
      have hliteral : literal? '\'' (c :: rest) = some (c :: tail, after) := h
      obtain ⟨body, -, heq⟩ := of_literal? hliteral
      exact decide_eq_true (List.cons.inj heq).1
  | string =>
      have hliteral : literal? '"' (c :: rest) = some (c :: tail, after) := h
      obtain ⟨body, -, heq⟩ := of_literal? hliteral
      exact decide_eq_true (List.cons.inj heq).1
  | keyword =>
      obtain ⟨-, -, word, hmem, heq⟩ := keyword?_eq_some.1 h
      have hall : ∀ word ∈ Keyword.all, word.text.toList.head?.any isNameStart = true := by decide
      have hstart := hall word hmem
      rw [heq] at hstart
      exact hstart
  | identifier =>
      have hname : identifier? (c :: rest) = some (c :: tail, after) := h
      exact (identifier?_eq_some.1 hname).2.2 c rfl
  | operator =>
      obtain ⟨spelling, hmem, heq⟩ := of_spelled? h
      have hall : ∀ spelling ∈ Punctuator.pairs.map (·.text),
          spelling.toList.all marks.contains = true := by decide
      exact List.all_eq_true.1 (hall spelling hmem) c (by rw [heq]; exact List.mem_cons_self)
  | symbol =>
      obtain ⟨spelling, hmem, heq⟩ := of_spelled? h
      have hall : ∀ spelling ∈ Punctuator.singles.map (·.text),
          spelling.toList.all marks.contains = true := by decide
      exact List.all_eq_true.1 (hall spelling hmem) c (by rw [heq]; exact List.mem_cons_self)

/-- The order of the classes matters only within a family. -/
theorem first?_of_split? (h : cls.split? input = some split)
    (hkeyword : cls = identifier → keyword? input = none)
    (hoperator : cls = symbol → operator.split? input = none) :
    first? input = some (cls, split) := by
  have hnone : ∀ other : Class, other.family ≠ cls.family → other.split? input = none := by
    intro other hfamily
    cases hother : other.split? input with
    | none => rfl
    | some taken =>
        obtain ⟨hinput, hne⟩ := splits_of_split? h
        obtain ⟨c, tail, hsplit⟩ := List.exists_cons_of_ne_nil hne
        rw [hsplit, List.cons_append] at hinput
        subst hinput
        exact absurd (family_eq_of_opens (opens_of_split? h) (opens_of_split? hother)) hfamily
  cases cls with
  | number => simp [first?, all, h]
  | character => simp [first?, all, h, hnone number (by decide)]
  | string => simp [first?, all, h, hnone number (by decide), hnone character (by decide)]
  | keyword =>
      simp [first?, all, h, hnone number (by decide), hnone character (by decide),
        hnone string (by decide)]
  | identifier =>
      have hword : keyword.split? input = none := hkeyword rfl
      simp [first?, all, h, hword, hnone number (by decide), hnone character (by decide),
        hnone string (by decide)]
  | operator =>
      simp [first?, all, h, hnone number (by decide), hnone character (by decide),
        hnone string (by decide), hnone keyword (by decide), hnone identifier (by decide)]
  | symbol =>
      simp [first?, all, h, hoperator rfl, hnone number (by decide), hnone character (by decide),
        hnone string (by decide), hnone keyword (by decide), hnone identifier (by decide)]

theorem of_first? (h : first? input = some (cls, split)) :
    cls.split? input = some split ∧ (cls = identifier → keyword? input = none) := by
  obtain ⟨found, -, hsplit⟩ := List.exists_of_findSome?_eq_some h
  obtain ⟨taken, htaken, heq⟩ := Option.map_eq_some_iff.1 hsplit
  cases heq
  refine ⟨htaken, ?_⟩
  rintro rfl
  cases hword : keyword? input with
  | none => rfl
  | some word =>
      have hsplit : keyword.split? input = some word := hword
      have hfirst := first?_of_split? hsplit nofun nofun
      rw [h] at hfirst
      cases hfirst

/-- A class takes its lexeme again when nothing follows. -/
theorem split?_alone (h : cls.split? input = some (lexeme, after)) :
    cls.split? lexeme = some (lexeme, []) := by
  cases cls with
  | number => exact number?_alone h
  | character => exact literal?_alone (by decide) h
  | string => exact literal?_alone (by decide) h
  | keyword =>
      obtain ⟨-, hrun, hword⟩ := keyword?_eq_some.1 h
      exact keyword?_eq_some.2 ⟨(List.append_nil _).symm, hrun.alone, hword⟩
  | identifier =>
      obtain ⟨-, hrun, hstart⟩ := identifier?_eq_some.1 h
      exact identifier?_eq_some.2 ⟨(List.append_nil _).symm, hrun.alone, hstart⟩
  | operator =>
      obtain ⟨spelling, hmem, rfl⟩ := of_spelled? h
      obtain ⟨mark, hmark, rfl⟩ := List.mem_map.1 hmem
      simpa using operator?_append hmark []
  | symbol =>
      obtain ⟨spelling, hmem, rfl⟩ := of_spelled? h
      obtain ⟨mark, hmark, rfl⟩ := List.mem_map.1 hmem
      simpa using symbol?_append hmark []

end WordC.Token.Class
