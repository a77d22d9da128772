import WordC.Prompt.Balance
import WordC.Proofs.Token.Brackets
import WordC.Proofs.Token.Lossless

/-!
# Brackets of a text and of its tokens

The prompt looks for open brackets and literals character by character and does not read tokens.
All the same it waits for the brackets that the tokens wait for, as long as no bracket and no quote
stands between the tokens: a bracket is a token by itself, a literal ends for both at the same
quote, and all other tokens are passed over.
-/

namespace WordC

namespace Token

/-- A text made of the given tokens, with nothing between them but characters that satisfy a test. -/
inductive LaysAmong (test : Char → Bool) : List Char → List Token → Prop where
  | gap {text : List Char} (h : ∀ c ∈ text, test c = true) : LaysAmong test text []
  | token {gap rest : List Char} {token : Token} {tokens : List Token}
      (hgap : ∀ c ∈ gap, test c = true) (h : LaysAmong test rest tokens) :
      LaysAmong test (gap ++ (token.text.toList ++ rest)) (token :: tokens)

theorem LaysAmong.mono {test test' : Char → Bool} {text : List Char} {tokens : List Token}
    (h : LaysAmong test text tokens) (htest : ∀ c, test c = true → test' c = true) :
    LaysAmong test' text tokens := by
  induction h with
  | gap hgap => exact .gap fun c hmem => htest c (hgap c hmem)
  | token hgap _ ih => exact .token (fun c hmem => htest c (hgap c hmem)) ih

/-- A mark is written in one way only. -/
theorem Class.text_of_build? {cls : Class} {lexeme : List Char} {mark : Punctuator}
    (h : cls.build? lexeme = some (.punctuator mark)) : mark.text.toList = lexeme := by
  have hmark (h : (Punctuator.ofText? (String.ofList lexeme)).map Kind.punctuator =
      some (.punctuator mark)) : mark.text.toList = lexeme := by
    obtain ⟨found, hfound, heq⟩ := Option.map_eq_some_iff.1 h
    cases heq
    rw [Punctuator.ofText?] at hfound
    have htext := List.find?_some hfound
    rw [beq_iff_eq.1 htext, String.toList_ofList]
  cases cls with
  | number =>
      simp only [build?, buildNumber?, Option.ite_none_right_eq_some, Option.some.injEq] at h
      cases h.2
  | character =>
      simp only [build?, buildCharacter?] at h
      split at h <;> cases h
  | string | keyword =>
      obtain ⟨value, -, heq⟩ := Option.map_eq_some_iff.1 h
      cases heq
  | identifier => cases h
  | operator | symbol => exact hmark h

end Token

namespace Prompt

open Token (Kind LaysAmong meetAll?)
open Token.Class (IsBody)

/-- Characters that neither open nor close anything. -/
def isQuiet (c : Char) : Bool :=
  c != '"' && c != '\'' && (closer? c).isNone && !isCloser c

theorem isQuiet_of_isBlank {c : Char} (h : Text.isBlank c = true) : isQuiet c = true :=
  Token.Class.of_isBlank isQuiet (by decide +kernel) h

theorem isQuiet_of_isNamePart {c : Char} (h : Token.Class.isNamePart c = true) :
    isQuiet c = true := by
  have hall := Token.Class.of_toNat_lt (fun c => !Token.Class.isNamePart c || isQuiet c)
    (by decide +kernel) (Token.Class.toNat_lt_of_isNamePart h)
  simpa [h] using hall

/-! ## What tokens look like -/

/-- The text of a token to a reader that knows of brackets and quotes only. -/
inductive Looks : List Char → Kind → Prop where
  | quiet {text : List Char} {kind : Kind} (htext : ∀ c ∈ text, isQuiet c = true)
      (hkind : kind.isBracket = false) : Looks text kind
  | literal {quote : Char} {body : List Char} {kind : Kind} (hquote : quote = '"' ∨ quote = '\'')
      (hbody : IsBody quote body) (hkind : kind.isBracket = false) :
      Looks (quote :: (body ++ [quote])) kind
  | bracket {mark : Punctuator} (hmark : (Kind.punctuator mark).isBracket = true) :
      Looks mark.text.toList (.punctuator mark)

variable {cls : Token.Class} {text rest after : List Char} {kind : Kind} {token : Token}
  {tokens : List Token} {quote : Char} {mark : Punctuator}

theorem looks_punctuator (mark : Punctuator) : Looks mark.text.toList (.punctuator mark) := by
  cases hmark : (Kind.punctuator mark).isBracket with
  | true => exact .bracket hmark
  | false =>
      have hquiet : mark.text.toList.all isQuiet = true := by
        revert hmark
        cases mark <;> decide
      exact .quiet (List.all_eq_true.1 hquiet) hmark

theorem isNamePart_of_number? (h : Token.Class.number? (text ++ after) = some (text, after)) :
    ∀ c ∈ text, Token.Class.isNamePart c = true := by
  have hpart : ∀ c, Token.Class.isHexDigit c = true ∨ Token.Class.isHexMark c = true →
      Token.Class.isNamePart c = true := by
    intro c hc
    simp only [Token.Class.isHexDigit, Token.Class.isHexMark, Token.Class.isNamePart,
      Token.Class.isNameStart, Bool.or_eq_true, Bool.and_eq_true, decide_eq_true_eq] at hc ⊢
    rcases hc with ((hdigit | ⟨hstart, hstop⟩) | ⟨hstart, hstop⟩) | rfl | rfl
    · exact .inr hdigit
    · exact .inl (.inl (.inl ⟨hstart, Char.le_trans hstop (by decide)⟩))
    · exact .inl (.inl (.inr ⟨hstart, Char.le_trans hstop (by decide)⟩))
    · decide
    · decide
  rcases Token.Class.of_number? h with ⟨x, digits, hx, rfl, hrun⟩ | hrun
  · refine List.forall_mem_cons.2 ⟨by decide, List.forall_mem_cons.2 ⟨hpart x (.inr hx), ?_⟩⟩
    exact fun c hc => hpart c (.inl (hrun.all c hc))
  · exact fun c hc => Bool.or_eq_true_iff.2 (.inr (hrun.all c hc))

/-- A class takes a bracket, a literal or something quiet. -/
theorem looks_of_split? (hsplit : cls.split? (text ++ after) = some (text, after))
    (hbuild : cls.build? text = some kind) : Looks text kind := by
  cases kind with
  | punctuator mark => exact Token.Class.text_of_build? hbuild ▸ looks_punctuator mark
  | number | character | string | identifier | keyword | endOfInput =>
      cases cls with
      | number =>
          exact .quiet (fun c hc => isQuiet_of_isNamePart (isNamePart_of_number? hsplit c hc)) rfl
      | character =>
          obtain ⟨body, hbody, rfl⟩ := Token.Class.of_literal? hsplit
          exact .literal (.inr rfl) hbody rfl
      | string =>
          obtain ⟨body, hbody, rfl⟩ := Token.Class.of_literal? hsplit
          exact .literal (.inl rfl) hbody rfl
      | keyword =>
          obtain ⟨-, -, word, -, rfl⟩ := Token.Class.keyword?_eq_some.1 hsplit
          exact .quiet (fun c hc => isQuiet_of_isNamePart (Token.Class.isNamePart_of_mem_text hc)) rfl
      | identifier =>
          obtain ⟨-, hrun, -⟩ := Token.Class.identifier?_eq_some.1 hsplit
          exact .quiet (fun c hc => isQuiet_of_isNamePart (hrun.all c hc)) rfl
      | operator | symbol =>
          obtain ⟨mark, -, heq⟩ := Option.map_eq_some_iff.1 hbuild
          cases heq

theorem looks_of_tokenize {source : String} (h : tokenize source = .ok tokens) :
    ∀ token ∈ tokens, Looks token.text.toList token.kind := by
  intro token hmem
  obtain ⟨cursor, after, gap, cls, htakes⟩ := (Token.takings_of_read h).exists_takes token hmem
  exact looks_of_split? (Token.Class.of_first? htakes.first).1 htakes.kind

/-! ## Walking through the text -/

variable {c : Char} {opening closing : Punctuator}

theorem isBalancedFrom_cons (hquote : ¬(c = '"' ∨ c = '\'')) (hopener : closer? c = none)
    (pending rest : List Char) :
    isBalancedFrom pending (c :: rest) =
      if isCloser c then
        pending.head?.all fun closer => c != closer || isBalancedFrom pending.tail rest
      else isBalancedFrom pending rest := by
  rw [isBalancedFrom.eq_def]
  dsimp only
  rw [if_neg hquote, hopener]
  cases pending with
  | nil => cases isCloser c <;> rfl
  | cons closer outer => rfl

theorem isBalancedFrom_quiet (htext : ∀ c ∈ text, isQuiet c = true) (pending rest : List Char) :
    isBalancedFrom pending (text ++ rest) = isBalancedFrom pending rest := by
  induction text with
  | nil => rfl
  | cons c text ih =>
      obtain ⟨hc, htext⟩ := List.forall_mem_cons.1 htext
      simp only [isQuiet, Bool.and_eq_true, bne_iff_ne, ne_eq, Option.isNone_iff_eq_none,
        Bool.not_eq_true'] at hc
      obtain ⟨⟨⟨hdouble, hsingle⟩, hopener⟩, hcloser⟩ := hc
      rw [List.cons_append, isBalancedFrom_cons (not_or.2 ⟨hdouble, hsingle⟩) hopener, hcloser,
        if_neg Bool.false_ne_true, ih htext]

theorem isBalancedFrom_opener {closer : Char} (h : closer? c = some closer)
    (pending rest : List Char) :
    isBalancedFrom pending (c :: rest) = isBalancedFrom (closer :: pending) rest := by
  have hquote : ¬(c = '"' ∨ c = '\'') := by
    rintro (rfl | rfl) <;> cases h
  rw [isBalancedFrom.eq_def]
  dsimp only
  rw [if_neg hquote, h]

theorem isBalancedFrom_quote (hquote : c = '"' ∨ c = '\'') (pending rest : List Char) :
    isBalancedFrom pending (c :: rest) = isClosedFrom pending c rest := by
  rw [isBalancedFrom.eq_def]
  dsimp only
  rw [if_pos hquote]

theorem isClosedFrom_body {body : List Char} (hquote : quote ≠ '\\') (h : IsBody quote body)
    (pending rest : List Char) :
    isClosedFrom pending quote (body ++ quote :: rest) = isBalancedFrom pending rest := by
  induction h with
  | nil =>
      rw [List.nil_append, isClosedFrom, if_pos rfl]
      · exact fun heq _ => hquote heq
      · exact fun _ _ heq _ => hquote heq
  | plain hne hescape _ _ ih =>
      rw [List.cons_append, isClosedFrom, if_neg hne, ih]
      · exact fun heq _ => hescape heq
      · exact fun _ _ heq _ => hescape heq
  | escape _ _ ih =>
      rw [List.cons_append, List.cons_append, isClosedFrom, ih]

/-- The characters that close what is waited for. -/
def closers (waiting : List Punctuator) : List Char :=
  waiting.flatMap fun mark => mark.text.toList

theorem closers_isEmpty (waiting : List Punctuator) :
    (closers waiting).isEmpty = waiting.isEmpty := by
  cases waiting with
  | nil => rfl
  | cons mark waiting => cases mark <;> rfl

theorem exists_opener (h : opening.closedBy? = some closing) :
    ∃ c closer, opening.text.toList = [c] ∧ closing.text.toList = [closer] ∧
      closer? c = some closer := by
  cases opening <;> cases h <;> exact ⟨_, _, rfl, rfl, rfl⟩

theorem exists_closer (h : mark.closes = true) :
    ∃ c, mark.text.toList = [c] ∧ isCloser c = true ∧ closer? c = none ∧
      ¬(c = '"' ∨ c = '\'') := by
  cases mark <;> cases h <;> exact ⟨_, rfl, rfl, rfl, by decide⟩

/-- Closing brackets are told apart by the character that a mark begins with. -/
theorem exists_text_cons (h : mark.closes = true) (hne : mark ≠ closing) :
    ∃ c tail, closing.text.toList = c :: tail ∧ mark.text.toList ≠ [c] := by
  cases mark <;> cases h <;> cases closing <;>
    first | exact ⟨_, _, rfl, by decide⟩ | exact absurd rfl hne

theorem isBalancedFrom_bracket (hmark : (Kind.punctuator mark).isBracket = true)
    (waiting : List Punctuator) (rest : List Char) :
    isBalancedFrom (closers waiting) (mark.text.toList ++ rest) =
      ((Kind.punctuator mark).meet? waiting).all fun left => isBalancedFrom (closers left) rest := by
  cases hopening : mark.closedBy? with
  | some closing =>
      obtain ⟨c, closer, hc, hcloser, hpair⟩ := exists_opener hopening
      rw [Kind.meet?_opening hopening, Option.all_some, hc, List.singleton_append,
        isBalancedFrom_opener hpair, closers, closers, List.flatMap_cons, hcloser,
        List.singleton_append]
  | none =>
      have hcloses : mark.closes = true := by
        rwa [Kind.isBracket, hopening, Option.isSome_none, Bool.false_or] at hmark
      obtain ⟨c, hc, hcloser, hopener, hquote⟩ := exists_closer hcloses
      rw [hc, List.singleton_append, isBalancedFrom_cons hquote hopener, if_pos hcloser]
      simp only [Kind.meet?, hopening, hcloses, if_true]
      cases waiting with
      | nil => rfl
      | cons closing outer =>
          dsimp only
          by_cases heq : mark = closing
          · subst heq
            rw [if_pos rfl, Option.all_some, closers, closers, List.flatMap_cons, hc,
              List.singleton_append, List.head?_cons, List.tail_cons, Option.all_some,
              bne_self_eq_false, Bool.false_or]
          · obtain ⟨first, tail, hfirst, hne⟩ := exists_text_cons hcloses heq
            have hc : (c != first) = true := bne_iff_ne.2 fun hsame => hne (hsame ▸ hc)
            rw [if_neg heq, Option.all_none, closers, List.flatMap_cons, hfirst, List.cons_append,
              List.head?_cons, Option.all_some, hc, Bool.true_or]

/-- The text of a token does to the characters what the token does to the marks. -/
theorem Looks.isBalancedFrom (h : Looks text kind) (waiting : List Punctuator) (rest : List Char) :
    Prompt.isBalancedFrom (closers waiting) (text ++ rest) =
      (kind.meet? waiting).all fun left => Prompt.isBalancedFrom (closers left) rest := by
  cases h with
  | quiet htext hkind =>
      rw [isBalancedFrom_quiet htext, Kind.meet?_of_not_isBracket hkind, Option.all_some]
  | @literal quote body _ hquote hbody hkind =>
      have hescape : quote ≠ '\\' := by
        rcases hquote with rfl | rfl <;> decide
      rw [Kind.meet?_of_not_isBracket hkind, Option.all_some, List.cons_append, List.append_assoc,
        isBalancedFrom_quote hquote]
      exact isClosedFrom_body hescape hbody _ rest
  | bracket hmark => exact isBalancedFrom_bracket hmark waiting rest

/-- By induction on the tokens: at each of them, both wait for the same brackets. -/
theorem isBalancedFrom_eq (h : LaysAmong isQuiet text tokens)
    (hlooks : ∀ token ∈ tokens, Looks token.text.toList token.kind) (waiting : List Punctuator) :
    isBalancedFrom (closers waiting) text =
      (meetAll? waiting (tokens.map (·.kind))).all List.isEmpty := by
  induction h generalizing waiting with
  | gap hgap =>
      have hquiet := isBalancedFrom_quiet hgap (closers waiting) []
      rw [List.append_nil] at hquiet
      rw [hquiet, isBalancedFrom, closers_isEmpty]
      rfl
  | token hgap _ ih =>
      obtain ⟨htoken, htokens⟩ := List.forall_mem_cons.1 hlooks
      rw [isBalancedFrom_quiet hgap, htoken.isBalancedFrom, List.map_cons, Token.meetAll?_cons]
      cases Kind.meet? waiting _ with
      | none => rfl
      | some left => exact ih htokens left

theorem isBalanced_eq {source : String} (htokens : tokenize source = .ok tokens)
    (hquiet : LaysAmong isQuiet source.toList tokens) :
    isBalanced source = (meetAll? [] (tokens.map (·.kind))).all List.isEmpty :=
  isBalancedFrom_eq hquiet (looks_of_tokenize htokens) []

/-- Where only blanks stand between the tokens, the prompt waits for more exactly if the brackets
among the tokens match as far as they go and one is still open. -/
theorem isBalanced_eq_false_iff {source : String} (htokens : tokenize source = .ok tokens)
    (hblank : LaysAmong Text.isBlank source.toList tokens) :
    isBalanced source = false ↔
      ∃ waiting, meetAll? [] (tokens.map (·.kind)) = some waiting ∧ waiting ≠ [] := by
  rw [isBalanced_eq htokens (hblank.mono fun _ => isQuiet_of_isBlank), Option.all_eq_false]
  simp [List.isEmpty_eq_false_iff]

/-- A call that is not closed, with a bracket and a quote in its arguments. -/
def openCall : String := "f(\x27]\x27, \"\x7d\\\"\""

def openCallTokens : List Token := [
  { kind := .identifier "f", text := "f", start := 0 },
  { kind := .punctuator .leftParen, text := "(", start := 1 },
  { kind := .character ']', text := "\x27]\x27", start := 2 },
  { kind := .punctuator .comma, text := ",", start := 5 },
  { kind := .string "\x7d\"", text := "\"\x7d\\\"\"", start := 7 }]

theorem tokenize_openCall : tokenize openCall = .ok openCallTokens :=
  tokenize_eq_ok (by decide +kernel)

theorem laysAmong_openCall : LaysAmong Text.isBlank openCall.toList openCallTokens := by
  have htext : openCall.toList = [] ++ (openCallTokens[0].text.toList ++ ([] ++
      (openCallTokens[1].text.toList ++ ([] ++ (openCallTokens[2].text.toList ++ ([] ++
      (openCallTokens[3].text.toList ++ ([' '] ++
      (openCallTokens[4].text.toList ++ []))))))))) := rfl
  rw [htext]
  refine .token ?_ (.token ?_ (.token ?_ (.token ?_ (.token ?_ (.gap ?_)))))
  all_goals exact List.all_eq_true.1 rfl

theorem isBalanced_eq_false_iff_openCall :
    tokenize openCall = .ok openCallTokens ∧
      LaysAmong Text.isBlank openCall.toList openCallTokens ∧ isBalanced openCall = false :=
  ⟨tokenize_openCall, laysAmong_openCall,
    (isBalanced_eq_false_iff tokenize_openCall laysAmong_openCall).2
      ⟨[.rightParen], rfl, List.cons_ne_nil _ _⟩⟩

end Prompt

end WordC
