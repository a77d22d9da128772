import WordC.Proofs.Token.Gaps
import WordC.Proofs.Token.Lexemes
import WordC.Token.Stream

/-!
# Reading tokens loses nothing

One reading skips a gap and takes one lexeme, and both stay next to each other in the source. From
one reading to the next the tokens of a source are laid out in it from its beginning to its end. A
name may only be a keyword where a letter beyond ASCII follows, and there the next reading fails.
-/

namespace WordC

theorem Except.exists_of_map_eq_ok {ε α β : Type} {f : α → β} {result : Except ε α} {value : β}
    (h : result.map f = .ok value) : ∃ a, result = .ok a ∧ f a = value := by
  cases result with
  | error error => cases h
  | ok a => exact ⟨a, rfl, Except.ok.inj h⟩

namespace Token

open Text (byteLength)

variable {source : String} {cursor after : Cursor} {token : Token} {gap lexeme rest : List Char}
  {cls : Class} {kind : Kind}

/-! ## One reading -/

/-- Reading a token leads from one place of the source to another. -/
structure Takes (cursor after : Cursor) (token : Token) (gap : List Char) (cls : Class) : Prop where
  rest : cursor.rest = gap ++ (token.text.toList ++ after.rest)
  isGap : IsGap false gap
  opens : Cursor.OpensToken (token.text.toList ++ after.rest)
  start : token.start = cursor.offset + byteLength gap
  stop : after.offset = token.stop
  first : Class.first? (token.text.toList ++ after.rest) =
    some (cls, token.text.toList, after.rest)
  kind : cls.build? token.text.toList = some token.kind

/-- No class builds the end of the input, and only one builds names. -/
theorem Class.of_build? (h : cls.build? lexeme = some kind) :
    kind ≠ .endOfInput ∧
      ∀ name, kind = .identifier name → cls = .identifier ∧ name = String.ofList lexeme := by
  cases cls with
  | number =>
      simp only [build?, buildNumber?, Option.ite_none_right_eq_some, Option.some.injEq] at h
      obtain ⟨-, rfl⟩ := h
      exact ⟨nofun, nofun⟩
  | character =>
      simp only [build?, buildCharacter?] at h
      split at h
      · cases h
        exact ⟨nofun, nofun⟩
      · cases h
  | string | keyword | operator | symbol =>
      obtain ⟨value, -, rfl⟩ := Option.map_eq_some_iff.1 h
      exact ⟨nofun, nofun⟩
  | identifier =>
      cases h
      exact ⟨nofun, fun name hname => ⟨rfl, (Kind.identifier.inj hname).symm⟩⟩

theorem Cursor.gap_append (h : IsGap false gap) (hrest : OpensToken rest)
    (hcursor : cursor.rest = gap ++ rest) :
    cursor.gap = .ends ⟨rest, cursor.offset + byteLength gap⟩ := by
  rw [Cursor.gap, hcursor, skipGap_append h, skipGap_of_opensToken hrest]

namespace Takes

theorem next_eq (h : Takes cursor after token gap cls) (source : String) :
    cursor.next source = (.ok token, after) := by
  have hgap := Cursor.gap_append h.isGap h.opens h.rest
  obtain ⟨c, tail, htext⟩ := List.exists_cons_of_ne_nil (Class.splits_of_first? h.first).2
  have hfirst := h.first
  have hkind := h.kind
  rw [show token.text.toList = c :: tail from htext, List.cons_append] at hgap hfirst
  rw [show token.text.toList = c :: tail from htext] at hkind
  rw [Cursor.next, hgap]
  dsimp only
  rw [hfirst]
  dsimp only
  rw [hkind]
  dsimp only
  have htoken : String.ofList (c :: tail) = token.text := by
    rw [← String.toList_inj, String.toList_ofList, ← htext]
  have hafter : after = { rest := after.rest, offset := token.stop } := by
    rw [← h.stop]
  rw [htoken, ← h.start, hafter]
  rfl

end Takes

/-- What a reading gives: a token, or the end of the source behind a last gap. -/
theorem Cursor.next_cases (h : cursor.next source = (.ok token, after)) :
    (token.kind ≠ .endOfInput ∧ ∃ gap cls, Takes cursor after token gap cls) ∨
      (token.kind = .endOfInput ∧ IsGap true cursor.rest) := by
  unfold next at h
  split at h
  · cases h
  · next here hgap =>
      obtain ⟨gap, hskipped⟩ := exists_skipped hgap
      have hisGap := hskipped.isGap
      split at h
      · next hrest =>
          cases h
          rw [hrest] at hisGap
          refine .inr ⟨rfl, ?_⟩
          rwa [hskipped.text, hrest, List.append_nil]
      · next c tail hrest =>
          rw [hrest] at hisGap
          split at h
          · cases h
          · next cls lexeme behind hfirst =>
              dsimp only at h
              split at h
              · cases h
              · next kind hkind =>
                  cases h
                  have hinput := (Class.splits_of_first? hfirst).1
                  refine .inl ⟨(Class.of_build? hkind).1, gap, cls, ?_⟩
                  exact
                    { rest := by rw [hskipped.text, String.toList_ofList, hinput]
                      isGap := hisGap
                      opens := by
                        rw [String.toList_ofList, ← hinput]
                        exact hskipped.opens
                      start := hskipped.offset
                      stop := rfl
                      first := by
                        rw [String.toList_ofList, ← hinput]
                        exact hfirst
                      kind := by
                        rw [String.toList_ofList]
                        exact hkind }

/-! ## Names -/

/-- Letters beyond ASCII are no tokens. -/
theorem Cursor.next_of_wordChar {c : Char} (hhead : cursor.rest.head? = some c)
    (hword : Text.isWordChar c = true) (hname : Class.isNamePart c = false) :
    ∃ error behind, cursor.next source = (.error error, behind) := by
  have hblank : Text.isBlank c = false := by
    cases hblank : Text.isBlank c with
    | false => rfl
    | true => rw [← hword, (Class.apart_of_isBlank hblank).1]
  have hopens : ∀ cls : Class, cls.opens c = false := by
    intro cls
    cases hopens : cls.opens c with
    | false => rfl
    | true =>
        have hall := Class.of_toNat_lt (fun c => Class.all.all fun cls =>
          !cls.opens c || !Text.isWordChar c || Class.isNamePart c) (by decide +kernel)
          (Class.toNat_lt_of_opens hopens)
        have hcls := List.all_eq_true.1 hall cls (by cases cls <;> decide)
        simp [hopens, hword, hname] at hcls
  obtain ⟨tail, hrest⟩ := List.head?_eq_some_iff.1 hhead
  have hslash : c ≠ '/' := by
    rintro rfl
    exact absurd hword (by decide +kernel)
  have hgap : cursor.gap = .ends ⟨c :: tail, cursor.offset⟩ := by
    rw [Cursor.gap, hrest]
    have hrest : OpensToken (c :: tail) := ⟨hblank, fun hc => absurd hc hslash⟩
    exact skipGap_of_opensToken hrest _
  have hfirst : Class.first? (c :: tail) = none := by
    cases hfirst : Class.first? (c :: tail) with
    | none => rfl
    | some found =>
        obtain ⟨cls, split⟩ := found
        have hc := Class.opens_of_split? (Class.of_first? hfirst).1
        rw [hopens cls] at hc
        cases hc
  unfold next
  rw [hgap]
  dsimp only
  rw [hfirst]
  exact ⟨_, _, rfl⟩

/-- A keyword is read as a name only in front of a text that cannot be read. -/
theorem Takes.name_of_next (h : Takes cursor after token gap .identifier)
    (hnext : ∃ next behind, after.next source = (.ok next, behind)) :
    ∀ word ∈ Keyword.all, word.text ≠ token.text := by
  rintro word hmem hword
  obtain ⟨hsplit, hkeyword⟩ := Class.of_first? h.first
  have hname : Class.identifier? _ = some (token.text.toList, after.rest) := hsplit
  obtain ⟨-, hrun, -⟩ := Class.identifier?_eq_some.1 hname
  by_cases hstops : ∀ c, after.rest.head? = some c → Text.isWordChar c = false
  · have hwordRun : Class.Run Text.isWordChar token.text.toList after.rest :=
      ⟨hrun.ne_nil, fun c hc => Class.isWordChar_of_isNamePart (hrun.all c hc), hstops⟩
    have hsome := Class.keyword?_eq_some.2 ⟨rfl, hwordRun, word, hmem, by rw [hword]⟩
    rw [hkeyword rfl] at hsome
    cases hsome
  · obtain ⟨c, hc⟩ := Classical.not_forall.1 hstops
    obtain ⟨hhead, hc⟩ := Classical.not_imp.1 hc
    obtain ⟨error, behind, herror⟩ :=
      Cursor.next_of_wordChar hhead (by simpa using hc) (hrun.stops c hhead)
    obtain ⟨next, behind', hok⟩ := hnext
    cases herror.symm.trans hok

/-! ## One token by itself -/

theorem Cursor.next_of_isGap (h : IsGap false cursor.rest) (source : String) :
    cursor.next source = (.ok (.endAt (cursor.offset + byteLength cursor.rest)),
      ⟨[], cursor.offset + byteLength cursor.rest⟩) := by
  have hgap : cursor.gap = .ends ⟨[], cursor.offset + byteLength cursor.rest⟩ :=
    Cursor.gap_append h trivial (List.append_nil _).symm
  rw [next, hgap]

theorem Cursor.OpensToken.alone (h : OpensToken (lexeme ++ rest)) (hne : lexeme ≠ []) :
    OpensToken lexeme := by
  obtain ⟨c, tail, rfl⟩ := List.exists_cons_of_ne_nil hne
  refine ⟨h.1, fun hc => ?_⟩
  have hmarks := h.2 hc
  cases tail with
  | nil => exact ⟨nofun, nofun⟩
  | cons d tail => exact hmarks

/-- Nothing in front and nothing behind is needed to read a token. -/
theorem Takes.alone (h : Takes cursor after token gap cls)
    (hname : cls = .identifier → ∀ word ∈ Keyword.all, word.text ≠ token.text) :
    Takes ⟨token.text.toList, 0⟩ ⟨[], token.text.utf8ByteSize⟩ { token with start := 0 } [] cls where
  rest := by simp
  isGap := .nil
  opens := by
    rw [List.append_nil]
    exact h.opens.alone (Class.splits_of_first? h.first).2
  start := rfl
  stop := (Nat.zero_add _).symm
  first := by
    obtain ⟨hsplit, -⟩ := Class.of_first? h.first
    rw [List.append_nil]
    refine Class.first?_of_split? (Class.split?_alone hsplit) ?_ ?_
    · rintro rfl
      have hname' : Class.identifier? _ = some (token.text.toList, after.rest) := hsplit
      obtain ⟨-, hrun, -⟩ := Class.identifier?_eq_some.1 hname'
      have hnone := Class.keyword?_eq_none hrun.alone fun word hmem hword =>
        hname rfl word hmem (String.toList_inj.1 hword)
      rwa [List.append_nil] at hnone
    · rintro rfl
      obtain ⟨spelling, hmem, hspelling⟩ := Class.of_spelled? hsplit
      have hall : ∀ spelling ∈ Punctuator.singles.map (·.text),
          Class.operator.split? spelling.toList = none := by decide
      rw [← hspelling]
      exact hall spelling hmem
  kind := h.kind

theorem Takes.tokenize_text (h : Takes cursor after token gap cls)
    (hname : cls = .identifier → ∀ word ∈ Keyword.all, word.text ≠ token.text) :
    tokenize token.text = .ok [{ token with start := 0 }] := by
  rw [tokenize, Stream.ofSource,
    Stream.read_of_token ((h.alone hname).next_eq _) (Class.of_build? h.kind).1,
    Stream.read_of_end (Cursor.next_of_isGap .nil _) rfl]
  rfl

/-! ## All tokens -/

/-- A token by itself is the same token, and a name is no keyword. -/
structure Faithful (token : Token) : Prop where
  alone : tokenize token.text = .ok [{ token with start := 0 }]
  name : ∀ name, token.kind = .identifier name → ∀ word ∈ Keyword.all, word.text ≠ name

theorem Takes.faithful (h : Takes cursor after token gap cls)
    (hnext : ∃ next behind, after.next source = (.ok next, behind)) : Faithful token where
  alone := h.tokenize_text fun hcls => (hcls ▸ h).name_of_next hnext
  name := by
    intro name hkind
    obtain ⟨rfl, hname⟩ := (Class.of_build? h.kind).2 name hkind
    rw [hname, String.ofList_toList]
    exact h.name_of_next hnext

/-- Tokens laid out in a text that begins at an offset: a gap, a token, a gap, and so on. -/
inductive Lays : Nat → List Char → List Token → Prop where
  | gap {offset : Nat} {text : List Char} (h : IsGap true text) : Lays offset text []
  | token {offset : Nat} {gap rest : List Char} {token : Token} {tokens : List Token}
      (hgap : IsGap false gap) (htext : token.text ≠ "")
      (hstart : token.start = offset + byteLength gap) (h : Lays token.stop rest tokens) :
      Lays offset (gap ++ (token.text.toList ++ rest)) (token :: tokens)

theorem Stream.toList?_cons {stream : Stream} {tokens : List Token}
    (h : (cons token stream).toList? = .ok tokens) :
    ∃ others, stream.toList? = .ok others ∧ tokens = token :: others := by
  rw [toList?] at h
  obtain ⟨others, hothers, rfl⟩ := Except.exists_of_map_eq_ok h
  exact ⟨others, hothers, rfl⟩

theorem Cursor.exists_next {tokens : List Token}
    (h : (Stream.read source cursor).toList? = .ok tokens) :
    ∃ next behind, cursor.next source = (.ok next, behind) := by
  cases hnext : cursor.next source with
  | mk result behind =>
      cases result with
      | ok next => exact ⟨next, behind, rfl⟩
      | error error =>
          rw [Stream.read_of_error hnext] at h
          cases h

/-- By induction on the readings: each one adds a gap and a token in front of the rest. -/
theorem lays_of_read {tokens : List Token} (h : (Stream.read source cursor).toList? = .ok tokens) :
    Lays cursor.offset cursor.rest tokens ∧ ∀ token ∈ tokens, Faithful token := by
  induction cursor using Stream.read.induct source generalizing tokens with
  | case1 cursor error after hnext =>
      rw [Stream.read_of_error hnext] at h
      cases h
  | case2 cursor token after hnext hkind =>
      rw [Stream.read_of_end hnext hkind] at h
      cases h
      rcases Cursor.next_cases hnext with ⟨hne, -⟩ | ⟨-, hgap⟩
      · exact absurd hkind hne
      · exact ⟨.gap hgap, fun _ hmem => absurd hmem List.not_mem_nil⟩
  | case3 cursor token after hnext hkind ih =>
      rw [Stream.read_of_token hnext hkind] at h
      obtain ⟨others, hothers, rfl⟩ := Stream.toList?_cons h
      obtain ⟨hlays, hfaithful⟩ := ih hothers
      rcases Cursor.next_cases hnext with ⟨-, gap, cls, htakes⟩ | ⟨hend, -⟩
      · rw [htakes.stop] at hlays
        have hne : token.text ≠ "" := fun hempty =>
          (Class.splits_of_first? htakes.first).2 (by rw [hempty]; rfl)
        rw [htakes.rest]
        exact ⟨.token htakes.isGap hne htakes.start hlays,
          List.forall_mem_cons.2 ⟨htakes.faithful (Cursor.exists_next hothers), hfaithful⟩⟩
      · exact absurd hend hkind

/-- Tokens taken one behind the other, up to a last gap. -/
inductive Takings : Cursor → List Token → Prop where
  | done {cursor : Cursor} (h : IsGap true cursor.rest) : Takings cursor []
  | token {cursor after : Cursor} {token : Token} {gap : List Char} {cls : Class}
      {tokens : List Token} (htakes : Takes cursor after token gap cls) (h : Takings after tokens) :
      Takings cursor (token :: tokens)

theorem takings_of_read {tokens : List Token}
    (h : (Stream.read source cursor).toList? = .ok tokens) : Takings cursor tokens := by
  induction cursor using Stream.read.induct source generalizing tokens with
  | case1 cursor error after hnext =>
      rw [Stream.read_of_error hnext] at h
      cases h
  | case2 cursor token after hnext hkind =>
      rw [Stream.read_of_end hnext hkind] at h
      cases h
      rcases Cursor.next_cases hnext with ⟨hne, -⟩ | ⟨-, hgap⟩
      · exact absurd hkind hne
      · exact .done hgap
  | case3 cursor token after hnext hkind ih =>
      rw [Stream.read_of_token hnext hkind] at h
      obtain ⟨others, hothers, rfl⟩ := Stream.toList?_cons h
      rcases Cursor.next_cases hnext with ⟨-, gap, cls, htakes⟩ | ⟨hend, -⟩
      · exact .token htakes (ih hothers)
      · exact absurd hend hkind

theorem Takings.exists_takes {tokens : List Token} (h : Takings cursor tokens) :
    ∀ token ∈ tokens, ∃ cursor after gap cls, Takes cursor after token gap cls := by
  induction h with
  | done => exact fun _ hmem => absurd hmem List.not_mem_nil
  | token htakes _ ih => exact List.forall_mem_cons.2 ⟨⟨_, _, _, _, htakes⟩, ih⟩

/-! ## Spans -/

/-- A token stands at its offset. -/
structure StandsIn (token : Token) (offset : Nat) (text : List Char) (front back : List Char) :
    Prop where
  text : text = front ++ (token.text.toList ++ back)
  ne_empty : token.text ≠ ""
  start : token.start = offset + byteLength front

theorem Lays.standsIn {offset : Nat} {text : List Char} {tokens : List Token}
    (h : Lays offset text tokens) :
    ∀ token ∈ tokens, ∃ front back, StandsIn token offset text front back := by
  induction h with
  | gap => exact fun _ hmem => absurd hmem List.not_mem_nil
  | @token offset gap rest token tokens hgap htext hstart h ih =>
      refine List.forall_mem_cons.2 ⟨⟨gap, rest, rfl, htext, hstart⟩, fun other hmem => ?_⟩
      obtain ⟨front, back, hother⟩ := ih other hmem
      refine ⟨gap ++ (token.text.toList ++ front), back, ?_, hother.ne_empty, ?_⟩
      · simp only [hother.text, List.append_assoc]
      · have hsize := Text.utf8ByteSize_ofList token.text.toList
        rw [String.ofList_toList] at hsize
        rw [hother.start, Token.stop, hstart, hsize, Text.byteLength_append,
          Text.byteLength_append]
        omega

theorem Lays.ascending {offset : Nat} {text : List Char} {tokens : List Token}
    (h : Lays offset text tokens) :
    tokens.Pairwise fun first second => first.stop ≤ second.start := by
  induction h with
  | gap => exact .nil
  | token hgap htext hstart h ih =>
      refine .cons (fun other hmem => ?_) ih
      obtain ⟨front, back, hother⟩ := h.standsIn other hmem
      rw [hother.start]
      exact Nat.le_add_right _ _

/-- The span of a token is not empty, its ends lie between characters, and what is between them is
the text of the token. -/
structure Spans (source : String) (token : Token) : Prop where
  lt : token.start < token.stop
  cut : ∃ front back,
    Text.splitAt? token.start source.toList = some (front, token.text.toList ++ back) ∧
    Text.splitAt? token.stop source.toList = some (front ++ token.text.toList, back)

theorem StandsIn.spans {front back : List Char} (h : StandsIn token 0 source.toList front back) :
    Spans source token := by
  have hsize := Text.utf8ByteSize_ofList token.text.toList
  rw [String.ofList_toList] at hsize
  have hstart : token.start = byteLength front := h.start.trans (Nat.zero_add _)
  have hstop : token.stop = byteLength (front ++ token.text.toList) := by
    rw [Token.stop, hstart, hsize, Text.byteLength_append]
  refine ⟨?_, front, back, ?_, ?_⟩
  · rw [hstart, hstop, Text.byteLength_append]
    exact Nat.lt_add_of_pos_right
      (Text.byteLength_pos fun hnil => h.ne_empty (String.toList_eq_nil_iff.1 hnil))
  · rw [h.text, hstart, Text.splitAt?_byteLength]
  · rw [h.text, hstop, ← List.append_assoc, Text.splitAt?_byteLength]

/-! ## Iteration -/

/-- The items that an iteration over the stream hands out. -/
def Stream.items : Stream → List (Except Error Token)
  | done _ => []
  | failed error => [.error error]
  | cons token rest => .ok token :: rest.items

theorem Stream.toList?_eq (stream : Stream) : stream.toList? = stream.items.mapM id := by
  induction stream with
  | done offset => rfl
  | failed error => rfl
  | cons token rest ih =>
      rw [toList?, ih, items, List.mapM_cons]
      cases rest.items.mapM id with
      | error error => rfl
      | ok tokens => rfl

end Token

/-- The items that a scanner's iteration hands out, if it is over within so many rounds. -/
def Scanner.items? (scanner : Scanner) : Nat → Option (List (Except Error Token))
  | 0 => none
  | rounds + 1 =>
      match scanner.iterate with
      | (none, _) => some []
      | (some item, after) => (after.items? rounds).map (item :: ·)

/-- Each round but the last two takes a character at least. -/
theorem Scanner.items?_eq (source : String) (cursor : Token.Cursor) (rounds : Nat)
    (hrounds : cursor.rest.length + 2 ≤ rounds) :
    Scanner.items? { source, cursor, finished := false } rounds =
      some (Token.Stream.read source cursor).items := by
  induction cursor using Token.Stream.read.induct source generalizing rounds with
  | case1 cursor error after hnext =>
      obtain ⟨rest, rfl⟩ := Nat.exists_eq_add_of_le' hrounds
      rw [Token.Stream.read_of_error hnext]
      simp [items?, iterate, next, hnext, Token.Stream.items]
  | case2 cursor token after hnext hkind =>
      obtain ⟨rest, rfl⟩ := Nat.exists_eq_add_of_le' hrounds
      rw [Token.Stream.read_of_end hnext hkind]
      simp [items?, iterate, next, hnext, hkind, Token.Stream.items]
  | case3 cursor token after hnext hkind ih =>
      have hlength := Token.Cursor.length_next_lt hnext hkind
      obtain ⟨rest, rfl⟩ : ∃ rest, rounds = rest + 1 := ⟨rounds - 1, by omega⟩
      rw [Token.Stream.read_of_token hnext hkind, items?]
      simp [iterate, next, hnext, hkind, Token.Stream.items, ih rest (by omega)]

/-- Scanning ends after at most one round for each character and two more, and `tokenize` collects
its items. The tokens are laid out in the source with nothing but gaps between them, each has its
own span, and each by itself is that token again. -/
theorem tokenize_lossless (source : String) :
    (∃ items, (Scanner.ofSource source).items? (source.length + 2) = some items ∧
      tokenize source = items.mapM id) ∧
    ∀ tokens, tokenize source = .ok tokens →
      Token.Lays 0 source.toList tokens ∧
      (∀ token ∈ tokens, Token.Spans source token ∧ Token.Faithful token) ∧
      tokens.Pairwise fun first second => first.stop ≤ second.start := by
  refine ⟨⟨(Token.Stream.ofSource source).items, ?_, Token.Stream.toList?_eq _⟩, ?_⟩
  · exact Scanner.items?_eq source _ _ (Nat.le_of_eq (by rw [String.length_toList]))
  · intro tokens htokens
    obtain ⟨hlays, hfaithful⟩ := Token.lays_of_read htokens
    refine ⟨hlays, fun token hmem => ⟨?_, hfaithful token hmem⟩, hlays.ascending⟩
    obtain ⟨front, back, hstands⟩ := hlays.standsIn token hmem
    exact hstands.spans

/-- Comments, a hexadecimal number and a character of two bytes. -/
def commented : String := "a=0x1f; /* é */ 'é' // \""

def commentedTokens : List Token := [
  { kind := .identifier "a", text := "a", start := 0 },
  { kind := .punctuator .equal, text := "=", start := 1 },
  { kind := .number 31, text := "0x1f", start := 2 },
  { kind := .punctuator .semicolon, text := ";", start := 6 },
  { kind := .character 'é', text := "'é'", start := 17 }]

theorem tokenize_eq_ok {source : String} {tokens : List Token}
    (h : (tokenize source).toOption = some tokens) : tokenize source = .ok tokens := by
  cases htokens : tokenize source with
  | error error =>
      rw [htokens] at h
      cases h
  | ok found =>
      rw [htokens] at h
      exact congrArg Except.ok (Option.some.inj h)

theorem tokenize_commented : tokenize commented = .ok commentedTokens :=
  tokenize_eq_ok (by decide +kernel)

theorem tokenize_lossless_commented :
    tokenize commented = .ok commentedTokens ∧
      Token.Lays 0 commented.toList commentedTokens ∧
      (∀ token ∈ commentedTokens, Token.Spans commented token ∧ Token.Faithful token) ∧
      commentedTokens.Pairwise fun first second => first.stop ≤ second.start :=
  ⟨tokenize_commented, (tokenize_lossless commented).2 _ tokenize_commented⟩

end WordC
