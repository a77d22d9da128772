import WordC.Proofs.Token.Lossless
import WordC.Proofs.Token.Spelling

/-!
# Reading printed tokens

Tokens may be printed with any separators between them. A separator begins with white space, so each
spelling is taken whole, and the reading behind it skips the separator. A number too great for a
word stops the reading where it stands.
-/

namespace WordC

/-- The position behind a front part of a text. -/
theorem Position.advance?_byteLength (position : Position) (front back : List Char) :
    position.advance? (front ++ back) (Text.byteLength front) =
      some (front.foldl Position.after position) := by
  induction front generalizing position with
  | nil => rw [Text.byteLength_nil, advance?, List.foldl_nil]
  | cons c front ih =>
      have hpos : c.utf8Size + Text.byteLength front ≠ 0 :=
        Nat.ne_of_gt (Nat.add_pos_left c.utf8Size_pos _)
      rw [List.cons_append, Text.byteLength_cons, advance?, if_neg (by omega),
        Nat.add_sub_cancel_left, ih, List.foldl_cons]
      exact fun h => hpos h

theorem Position.locate_ofList (front back : List Char) :
    locate (String.ofList (front ++ back)) (Text.byteLength front) =
      front.foldl Position.after start := by
  rw [locate, locate?, String.toList_ofList, advance?_byteLength, Option.getD_some]

namespace Token

open Text (byteLength isBlank)

variable {source : String} {kind : Kind} {kinds : List Kind} {text gap leading printed : List Char}
  {offset : Nat}

/-- White space, and any gap behind it. -/
inductive IsSeparator : List Char → Prop where
  | mk {c : Char} {gap : List Char} (hblank : isBlank c = true) (h : IsGap false gap) :
      IsSeparator (c :: gap)

/-- Tokens written in any spelling, with a separator behind each. -/
inductive Prints : List Kind → List Char → Prop where
  | nil : Prints [] []
  | cons {kind : Kind} {kinds : List Kind} {text separator rest : List Char} (h : Spells text kind)
      (hseparator : IsSeparator separator) (hrest : Prints kinds rest) :
      Prints (kind :: kinds) (text ++ (separator ++ rest))

theorem IsSeparator.isGap (h : IsSeparator gap) : IsGap false gap := by
  obtain ⟨hblank, hgap⟩ := h
  exact .blank hblank hgap

theorem IsSeparator.parted (h : IsSeparator gap) (rest : List Char) :
    Class.Parted (gap ++ rest) := by
  obtain ⟨hblank, -⟩ := h
  rintro c ⟨⟩
  exact hblank

/-- Tokens in any spelling with gaps between them, in front of another text. -/
inductive Writes (back : List Char) : List Kind → List Char → Prop where
  | nil : Writes back [] back
  | cons {kind : Kind} {kinds : List Kind} {text gap rest : List Char} (h : Spells text kind)
      (hgap : IsGap false gap) (hapart : Class.Apart kind (gap ++ rest))
      (hrest : Writes back kinds rest) :
      Writes back (kind :: kinds) (text ++ (gap ++ rest))

theorem Prints.writes (h : Prints kinds printed) (back : List Char) :
    Writes back kinds (printed ++ back) := by
  induction h with
  | nil => exact .nil
  | @cons kind kinds text separator rest h hseparator _ ih =>
      rw [List.append_assoc, List.append_assoc]
      exact .cons h hseparator.isGap ((hseparator.parted (rest ++ back)).apart kind) ih

/-- The reading of a spelling. -/
theorem exists_takes (h : Spells text kind) {after : List Char} (hafter : Class.Apart kind after)
    (hgap : IsGap false gap) (offset : Nat) :
    ∃ token cls, token.kind = kind ∧
      Takes ⟨gap ++ (text ++ after), offset⟩ ⟨after, offset + byteLength gap + byteLength text⟩
        token gap cls := by
  obtain ⟨cls, hfirst, hbuild⟩ := Class.exists_first?_of_spells h hafter
  refine ⟨{ kind, text := String.ofList text, start := offset + byteLength gap }, cls, rfl, ?_⟩
  exact
    { rest := by rw [String.toList_ofList]
      isGap := hgap
      opens := by
        rw [String.toList_ofList]
        exact Class.opensToken_of_first? hfirst fun hcls => hafter.of_symbol (hcls ▸ hbuild)
      start := rfl
      stop := by rw [Token.stop, Text.utf8ByteSize_ofList]
      first := by
        rw [String.toList_ofList]
        exact hfirst
      kind := by
        rw [String.toList_ofList]
        exact hbuild }

/-- By induction on the tokens: each is read behind the gap of the one before it, and the last gap
is left in front of what follows. -/
theorem exists_read {back written : List Char} (h : Writes back kinds written)
    (hgap : IsGap false gap) (offset : Nat) (source : String) :
    ∃ (tokens : List Token) (last : List Char) (stop : Nat),
      tokens.map (·.kind) = kinds ∧ IsGap false last ∧
      stop + byteLength (last ++ back) = offset + byteLength (gap ++ written) ∧
      Stream.read source ⟨gap ++ written, offset⟩ =
        tokens.foldr Stream.cons (Stream.read source ⟨last ++ back, stop⟩) := by
  induction h generalizing gap offset with
  | nil => exact ⟨[], gap, offset, rfl, hgap, rfl, rfl⟩
  | @cons kind kinds text behind rest h hbehind hapart _ ih =>
      obtain ⟨token, cls, hkind, htakes⟩ := exists_takes h hapart hgap offset
      obtain ⟨tokens, last, stop, hkinds, hlast, hstop, hread⟩ :=
        ih hbehind (offset + byteLength gap + byteLength text)
      refine ⟨token :: tokens, last, stop, ?_, hlast, ?_, ?_⟩
      · rw [List.map_cons, hkind, hkinds]
      · simp only [Text.byteLength_append] at hstop ⊢
        omega
      · rw [Stream.read_of_token (htakes.next_eq source) (Class.of_build? htakes.kind).1, hread,
          List.foldr_cons]

theorem Stream.toList?_foldr (tokens : List Token) (stream : Stream) :
    (tokens.foldr Stream.cons stream).toList? = stream.toList?.map (tokens ++ ·) := by
  induction tokens with
  | nil =>
      rw [List.foldr_nil]
      cases stream.toList? with
      | error error => rfl
      | ok others => rfl
  | cons token tokens ih =>
      rw [List.foldr_cons, toList?, ih]
      cases stream.toList? with
      | error error => rfl
      | ok others => rfl

/-- A number that no word holds is taken as far as its digits go, but builds no token. -/
theorem read_of_numeral {value : Nat} {digits after : List Char} (h : Numeral digits value)
    (hvalue : Word.greatest < value) (hafter : Class.Parted after) (hgap : IsGap false gap)
    (offset : Nat) (source : String) :
    Stream.read source ⟨gap ++ (digits ++ after), offset⟩ =
      .failed (.unexpectedSymbol (String.ofList digits) (.valid .number)
        (Position.locate source (offset + byteLength gap))) := by
  have hfirst := Class.first?_of_numeral h hafter
  have hskip : (Cursor.mk (gap ++ (digits ++ after)) offset).gap =
      .ends ⟨digits ++ after, offset + byteLength gap⟩ :=
    Cursor.gap_append hgap (Class.opensToken_of_first? hfirst nofun) rfl
  have hbuild : Class.build? .number digits = none := by
    rw [Class.build?, Class.buildNumber?_of_numeral h, if_neg (Nat.not_le_of_lt hvalue)]
  obtain ⟨c, tail, rfl⟩ := List.exists_cons_of_ne_nil (Class.splits_of_first? hfirst).2
  rw [List.cons_append] at hfirst hskip
  have hnext : Cursor.next source ⟨gap ++ (c :: tail ++ after), offset⟩ =
      (.error (.unexpectedSymbol (String.ofList (c :: tail)) (.valid .number)
        (Position.locate source (offset + byteLength gap))),
        ⟨c :: (tail ++ after), offset + byteLength gap⟩) := by
    rw [Cursor.next, List.cons_append, hskip]
    dsimp only
    rw [hfirst]
    dsimp only
    rw [hbuild]
  exact Stream.read_of_error hnext

end Token

/-- Written tokens are read back. The separator in front may be any gap. -/
theorem tokenize_written {kinds : List Token.Kind} {leading written : List Char}
    (hleading : Token.IsGap false leading) (h : Token.Writes [] kinds written) :
    ∃ tokens, tokenize (String.ofList (leading ++ written)) = .ok tokens ∧
      tokens.map (·.kind) = kinds := by
  obtain ⟨tokens, last, stop, hkinds, hlast, -, hread⟩ :=
    Token.exists_read h hleading 0 (String.ofList (leading ++ written))
  refine ⟨tokens, ?_, hkinds⟩
  rw [List.append_nil] at hread
  rw [tokenize, Token.Stream.ofSource, String.toList_ofList, hread, Token.Stream.toList?_foldr,
    Token.Stream.read_of_end (Token.Cursor.next_of_isGap hlast _) rfl]
  exact congrArg Except.ok (List.append_nil tokens)

/-- Printed tokens are read back, and a number too great for a word behind them is what the reading
fails at. The separator in front may be any gap. -/
theorem tokenize_printed {kinds : List Token.Kind} {leading printed : List Char}
    (hleading : Token.IsGap false leading) (h : Token.Prints kinds printed) :
    (∃ tokens, tokenize (String.ofList (leading ++ printed)) = .ok tokens ∧
      tokens.map (·.kind) = kinds) ∧
    ∀ digits value separator rest, Token.Numeral digits value → Word.greatest < value →
      Token.IsSeparator separator →
      tokenize (String.ofList (leading ++ printed ++ (digits ++ (separator ++ rest)))) =
        .error (.unexpectedSymbol (String.ofList digits) (.valid .number)
          ((leading ++ printed).foldl Position.after Position.start)) := by
  refine ⟨?_, fun digits value separator rest hdigits hvalue hseparator => ?_⟩
  · have hwrites := h.writes []
    rw [List.append_nil] at hwrites
    exact tokenize_written hleading hwrites
  · let back := digits ++ (separator ++ rest)
    obtain ⟨tokens, last, stop, hkinds, hlast, hstop, hread⟩ := Token.exists_read (h.writes back)
      hleading 0 (String.ofList (leading ++ printed ++ back))
    have hoffset : stop + Text.byteLength last = Text.byteLength (leading ++ printed) := by
      simp only [Text.byteLength_append] at hstop ⊢
      omega
    rw [Token.read_of_numeral hdigits hvalue (hseparator.parted rest) hlast, hoffset,
      Position.locate_ofList] at hread
    rw [← List.append_assoc leading printed] at hread
    rw [tokenize, Token.Stream.ofSource, String.toList_ofList, hread, Token.Stream.toList?_foldr]
    rfl

/-- A keyword, a number in hexadecimal and a string, with a comment behind the number. -/
def shownKinds : List Token.Kind := [.keyword .ifKw, .number 31, .string "é\n"]

def shown : List Char :=
  "if".toList ++ (['\t'] ++ (['0', 'X', '1', 'f'] ++ ([' ', '/', '/', '\n'] ++
    ('"' :: ("é\n".toList.flatMap Token.escape ++ ['"']) ++ ([' '] ++ [])))))

def tooGreat : List Char :=
  ['0', 'x', '8', '0', '0', '0', '0', '0', '0', '0', '0', '0', '0', '0', '0', '0', '0', '0']

theorem prints_shown : Token.Prints shownKinds shown := by
  have hnumeral : Token.Numeral ['0', 'X', '1', 'f'] (Nat.ofDigits 16 [1, 15].reverse) :=
    .hexadecimal (.inr rfl) (by simp [Token.IsDigitOf]) (List.cons_ne_nil _ _)
  refine .cons (.keyword .ifKw) (.mk (by decide) .nil) ?_
  refine .cons (.number hnumeral (by decide)) (.mk (by decide) ?_) ?_
  · exact .line List.not_mem_nil .nil
  · exact .cons (.string "é\n") (.mk (by decide) .nil) .nil

theorem numeral_tooGreat : Token.Numeral tooGreat (2 ^ 63) := by
  have hvalue : 2 ^ 63 =
      Nat.ofDigits 16 [8, 0, 0, 0, 0, 0, 0, 0, 0, 0, 0, 0, 0, 0, 0, 0].reverse := by decide
  rw [hvalue]
  exact .hexadecimal (.inl rfl) (by simp [Token.IsDigitOf]) (List.cons_ne_nil _ _)

theorem tokenize_printed_shown :
    (∃ tokens, tokenize (String.ofList ([' '] ++ shown)) = .ok tokens ∧
      tokens.map (·.kind) = shownKinds) ∧
    tokenize (String.ofList ([' '] ++ shown ++ (tooGreat ++ (['\n'] ++ [])))) =
      .error (.unexpectedSymbol (String.ofList tooGreat) (.valid .number) ⟨2, 7⟩) := by
  have hleading : Token.IsGap false [' '] := .blank (by decide) .nil
  have hprinted := tokenize_printed hleading prints_shown
  exact ⟨hprinted.1, hprinted.2 tooGreat (2 ^ 63) ['\n'] [] numeral_tooGreat (by decide)
    (.mk (by decide) .nil)⟩

end WordC
