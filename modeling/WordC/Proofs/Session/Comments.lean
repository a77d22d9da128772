import WordC.Proofs.Engine.Readings
import WordC.Proofs.Prompt.Completeness

/-!
# A comment behind an expression

An expression is evaluated in a program that has it on the same line as the end of `main`. A comment
to the end of the line behind the expression takes that end with it: the bracket of `main` stays
open, and the program does not compile, whatever the expression and whatever the comment. A comment
that is closed adds no token, so the answer is the one without it.
-/

namespace WordC

/-! ## Trimming -/

/-- Trimming at the end stops at a character that is kept. -/
theorem Text.rdropWhile_append_cons {test : Char → Bool} {c : Char} (hc : test c = false)
    (front back : List Char) :
    (front ++ c :: back).rdropWhile test = front ++ c :: back.rdropWhile test := by
  induction back using List.reverseRecOn with
  | nil => exact List.rdropWhile_concat_neg test front c (by simp [hc])
  | append_singleton back last ih =>
      have hassoc : front ++ c :: (back ++ [last]) = (front ++ c :: back) ++ [last] := by simp
      rw [hassoc, List.rdropWhile_concat, List.rdropWhile_concat]
      split
      · exact ih
      · rw [List.append_assoc, List.cons_append]

theorem Text.rdropWhile_cons {test : Char → Bool} {c : Char} (hc : test c = false)
    (back : List Char) : (c :: back).rdropWhile test = c :: back.rdropWhile test :=
  rdropWhile_append_cons hc [] back

namespace Token

open Text (isBlank)

variable {text : List Char} {tokens : List Token} {kinds : List Kind}

theorem LaysAmong.inked_eq (h : LaysAmong isBlank text tokens) :
    inked text = (tokens.map fun token => inked token.text.toList).sum := by
  induction h with
  | gap hgap => exact inked_eq_zero.2 hgap
  | token hgap _ ih =>
      rw [inked_append, inked_append, inked_eq_zero.2 hgap, Nat.zero_add, ih, List.map_cons,
        List.sum_cons]

theorem bare_of_tokenize {source : String} (htokens : tokenize source = .ok tokens)
    (hinked : inked source.toList = (tokens.map fun token => inked token.text.toList).sum) :
    Bare source.toList (tokens.map (·.kind)) :=
  (takings_of_read htokens).bare hinked.le

theorem isGap_space : IsGap false [' '] :=
  .blank (by decide) .nil

/-- A text without comments in front of a text that begins with a slash. Blanks in front of both are
left out. -/
theorem Bare.scans_trimmed {rest : List Char} {kinds' : List Kind} (h : Bare text kinds)
    (hrest : Scans ('/' :: rest) kinds') :
    Scans ((text ++ [' ']).dropWhile isBlank ++ '/' :: rest) (kinds ++ kinds') := by
  have htext : text.takeWhile isBlank ++ text.dropWhile isBlank = text :=
    List.takeWhile_append_dropWhile
  have hbare : Bare (text.dropWhile isBlank) kinds :=
    (htext.symm ▸ h).of_blank_append fun c hc => List.mem_takeWhile_imp hc
  rw [List.dropWhile_append]
  split
  · next hall =>
      rw [List.isEmpty_iff.1 hall] at hbare
      obtain rfl := hbare.eq_nil fun _ hc => absurd hc List.not_mem_nil
      exact hrest
  · rw [List.append_assoc]
    exact hbare.scans_append (stops_of_isBlank (by decide)) (hrest.gap_append isGap_space)

theorem isGap_block {body : List Char} (hbody : ¬['*', '/'] <:+: body) :
    IsGap false ('/' :: '*' :: (body ++ ['*', '/'])) :=
  .block hbody .nil

end Token

namespace Session

open Machine (IntactWith)
open Text (isBlank)
open Token (Bare Kind Scans meetAll?)

variable {poolSize : Nat} {limit : Option Nat} {layout : Layout} {session : Session}
  {expression : String} {kinds : List Kind} {α : Type}

/-! ## The text of the program -/

/-- What a session writes between `return` and the semicolon. -/
def spliced (expression : List Char) : List Char :=
  (Text.trimEnd (Text.trimStart expression)).rdropWhile (· = ';')

/-- What a session writes in front of an expression, on a line of its own. -/
def opening : String :=
  "int main() \x7b return"

theorem toList_sourceFor (session : Session) (expression : String) :
    (session.sourceFor expression).toList =
      session.declared.toList ++
        '\n' :: (opening.toList ++ ' ' :: (spliced expression.toList ++ [';', ' ', '}'])) := by
  have hopening : "\nint main() \x7b return ".toList = '\n' :: (opening.toList ++ [' ']) := by
    decide +kernel
  have hclosing : "; \x7d".toList = [';', ' ', '}'] := by decide +kernel
  rw [sourceFor, String.toList_append, String.toList_append, String.toList_append, hopening,
    hclosing, String.toList_ofList, Text.trim, String.toList_ofList]
  simp [spliced, List.rdropWhile]

/-- Only blanks and semicolons are left out. -/
theorem exists_spliced (expression : List Char) :
    ∃ gap back, expression = gap ++ (spliced expression ++ back) ∧
      (∀ c ∈ gap, isBlank c = true) ∧ ∀ c ∈ back, isBlank c = true ∨ c = ';' := by
  let trimmed := Text.trimEnd (Text.trimStart expression)
  refine ⟨expression.takeWhile isBlank,
    trimmed.rtakeWhile (· = ';') ++ (Text.trimStart expression).rtakeWhile isBlank, ?_, ?_, ?_⟩
  · have hsemicolons : spliced expression ++ trimmed.rtakeWhile (· = ';') = trimmed :=
      List.rdropWhile_append_rtakeWhile
    have hblanks : trimmed ++ (Text.trimStart expression).rtakeWhile isBlank =
        Text.trimStart expression := List.rdropWhile_append_rtakeWhile
    rw [← List.append_assoc (spliced expression), hsemicolons, hblanks]
    exact List.takeWhile_append_dropWhile.symm
  · exact fun c hc => List.mem_takeWhile_imp hc
  · intro c hc
    rcases List.mem_append.1 hc with hc | hc
    · exact .inr (by simpa using List.mem_rtakeWhile_imp hc)
    · exact .inl (List.mem_rtakeWhile_imp hc)

/-- What begins with a slash behind the expression is written too, up to blanks and semicolons at
its end. -/
theorem spliced_append_slash (expression rest : List Char) :
    spliced (expression ++ ' ' :: '/' :: rest) =
      (expression ++ [' ']).dropWhile isBlank ++
        '/' :: (rest.rdropWhile isBlank).rdropWhile (· = ';') := by
  have htrim : Text.trimStart (expression ++ ' ' :: '/' :: rest) =
      (expression ++ [' ']).dropWhile isBlank ++ '/' :: rest := by
    rw [Text.trimStart, List.append_cons, List.dropWhile_append]
    split
    · next hall =>
        rw [List.isEmpty_iff.1 hall]
        rfl
    · rfl
  rw [spliced, htrim]
  change ((_ ++ _ :: _).rdropWhile isBlank).rdropWhile _ = _
  rw [Text.rdropWhile_append_cons (by decide), Text.rdropWhile_append_cons (by decide)]

/-! ## Its tokens -/

def openingKinds : List Kind := [
  .keyword (.type .int), .identifier "main", .punctuator .leftParen, .punctuator .rightParen,
  .punctuator .leftBrace, .keyword .returnKw]

theorem bare_opening : Bare opening.toList openingKinds := by
  have hread : (tokenize opening).toOption.map (fun tokens =>
      (tokens.map (·.kind), (tokens.map fun token => Token.inked token.text.toList).sum)) =
        some (openingKinds, Token.inked opening.toList) := by decide +kernel
  obtain ⟨tokens, htokens, heq⟩ := Option.map_eq_some_iff.1 hread
  rw [Prod.mk.injEq] at heq
  obtain ⟨hkinds, hinked⟩ := heq
  have hbare := Token.bare_of_tokenize (tokenize_eq_ok htokens) hinked.symm
  rwa [hkinds] at hbare

theorem scans_closing :
    Scans [';', ' ', '}'] [.punctuator .semicolon, .punctuator .rightBrace] := by
  have hread : (tokenize (String.ofList [';', ' ', '}'])).toOption.map (List.map (·.kind)) =
      some [.punctuator .semicolon, .punctuator .rightBrace] := by decide +kernel
  obtain ⟨tokens, htokens, hkinds⟩ := Option.map_eq_some_iff.1 hread
  exact ⟨tokens, tokenize_eq_ok htokens, hkinds⟩

/-- The tokens of the program are those of the declarations, of the beginning of `main` and of what
is behind it. -/
theorem scans_sourceFor {front : List Kind} (hfront : Scans session.declared.toList front)
    (h : Scans (spliced expression.toList ++ [';', ' ', '}']) kinds) :
    Scans (session.sourceFor expression).toList (front ++ (openingKinds ++ kinds)) := by
  have hblank : Token.Stops ' ' := Token.stops_of_isBlank (by decide)
  have hbehind := h.gap_append Token.isGap_space
  rw [List.singleton_append] at hbehind
  rw [toList_sourceFor]
  exact hfront.lines (bare_opening.scans_append hblank hbehind)

/-- Behind an expression the program is closed. -/
theorem exists_scans_spliced (h : Bare expression.toList kinds) :
    ∃ inner outer, kinds = inner ++ outer ∧ (∀ kind ∈ outer, kind = .punctuator .semicolon) ∧
      Scans (spliced expression.toList ++ [';', ' ', '}'])
        (inner ++ [.punctuator .semicolon, .punctuator .rightBrace]) := by
  obtain ⟨gap, back, htext, hgap, hback⟩ := exists_spliced expression.toList
  rw [htext] at h
  obtain ⟨inner, outer, hkinds, hinner, houter⟩ := (h.of_blank_append hgap).of_append hback
  exact ⟨inner, outer, hkinds, houter, hinner.scans_append Token.stops_semicolon scans_closing⟩

/-- Nothing but semicolons at the end is lost. -/
theorem scans_spliced (h : Bare expression.toList kinds)
    (hlast : kinds.getLast? ≠ some (.punctuator .semicolon)) :
    Scans (spliced expression.toList ++ [';', ' ', '}'])
      (kinds ++ [.punctuator .semicolon, .punctuator .rightBrace]) := by
  obtain ⟨inner, outer, rfl, houter, hscans⟩ := exists_scans_spliced h
  obtain rfl : outer = [] := by
    refine (List.eq_nil_or_concat' outer).resolve_right ?_
    rintro ⟨front, kind, rfl⟩
    refine hlast ?_
    rw [← List.append_assoc, List.getLast?_concat, houter kind List.mem_concat_self]
  rwa [List.append_nil]

/-- Behind a comment to the end of the line it is not. -/
theorem scans_spliced_line {text comment : List Char} (h : Bare text kinds)
    (hline : '\n' ∉ comment) :
    Scans (spliced (text ++ ' ' :: '/' :: '/' :: comment) ++ [';', ' ', '}']) kinds := by
  have htrimmed : (('/' :: comment).rdropWhile isBlank).rdropWhile (· = ';') =
      '/' :: (comment.rdropWhile isBlank).rdropWhile (· = ';') := by
    rw [Text.rdropWhile_cons (by decide), Text.rdropWhile_cons (by decide)]
  have hbody : '\n' ∉ (comment.rdropWhile isBlank).rdropWhile (· = ';') ++ [';', ' ', '}'] := by
    intro hmem
    rcases List.mem_append.1 hmem with hmem | hmem
    · have hblanks := (List.rdropWhile_prefix (· = ';') _).subset hmem
      exact hline ((List.rdropWhile_prefix isBlank _).subset hblanks)
    · exact absurd hmem (by decide)
  have hscans := h.scans_trimmed (Token.scans_comment hbody)
  rw [spliced_append_slash, htrimmed, List.append_assoc]
  rwa [List.append_nil] at hscans

/-- Behind a comment that is closed the program is closed as well. -/
theorem scans_spliced_block {text comment : List Char} (h : Bare text kinds)
    (hclosed : ¬['*', '/'] <:+: comment) :
    Scans (spliced (text ++ ' ' :: '/' :: '*' :: (comment ++ ['*', '/'])) ++ [';', ' ', '}'])
      (kinds ++ [.punctuator .semicolon, .punctuator .rightBrace]) := by
  have htrimmed : (('*' :: (comment ++ ['*', '/'])).rdropWhile isBlank).rdropWhile (· = ';') =
      '*' :: (comment ++ ['*', '/']) := by
    rw [Text.rdropWhile_cons (by decide), Text.rdropWhile_cons (by decide),
      Text.rdropWhile_append_cons (by decide), Text.rdropWhile_append_cons (by decide)]
    rfl
  have hscans := h.scans_trimmed (scans_closing.gap_append (Token.isGap_block hclosed))
  rwa [spliced_append_slash, htrimmed, List.append_assoc]

/-! ## Its brackets -/

theorem Compilable.meets {source : String} (h : Compilable layout source)
    (hscans : Scans source.toList kinds) : meetAll? [] kinds = some [] := by
  obtain ⟨file, outline, hreads, -⟩ := h
  rw [hscans.unique (Token.scans_toList.2 hreads.tokens)]
  exact file.meetAll? []

theorem meetAll?_semicolons {waiting : List Punctuator}
    (h : ∀ kind ∈ kinds, kind = .punctuator .semicolon) :
    meetAll? waiting kinds = some waiting := by
  induction kinds with
  | nil => rfl
  | cons kind kinds ih =>
      obtain ⟨rfl, hkinds⟩ := List.forall_mem_cons.1 h
      rw [Token.meetAll?_cons]
      exact ih hkinds

/-- A comment behind an expression keeps `main` open. -/
theorem Compilable.not_commented {front : List Kind} {comment : String}
    (h : Compilable layout (session.sourceFor expression))
    (hfront : Scans session.declared.toList front) (hmatch : meetAll? [] front = some [])
    (hbare : Bare expression.toList kinds) (hline : '\n' ∉ comment.toList) :
    ¬Compilable layout (session.sourceFor (expression ++ " //" ++ comment)) := by
  intro hcommented
  obtain ⟨inner, outer, rfl, houter, hscans⟩ := exists_scans_spliced hbare
  have hopen := scans_spliced_line hbare hline
  have htext : (expression ++ " //" ++ comment).toList =
      expression.toList ++ ' ' :: '/' :: '/' :: comment.toList := by simp
  rw [← htext] at hopen
  have hclosed := h.meets (scans_sourceFor hfront hscans)
  have hleft := hcommented.meets (scans_sourceFor hfront hopen)
  rw [Token.meetAll?_append, hmatch, Option.bind_some, ← List.append_assoc,
    Token.meetAll?_append] at hclosed hleft
  -- With the comment nothing is waited for behind the expression, so nothing is left to close.
  obtain ⟨waiting, hwaiting, hnone⟩ := Option.bind_eq_some_iff.1 hleft
  rw [meetAll?_semicolons houter] at hnone
  cases hnone
  rw [hwaiting] at hclosed
  cases hclosed

/-! ## Its answer -/

/-- What does not compile is not run. -/
theorem runSource_of_not_compilable {source : String}
    (hintact : session.machine.IntactWith layout) (h : ¬Compilable layout source) (steps : Nat) :
    ∃ error machine, runSource source steps session = .error error { session with machine } ∧
      machine.host.sink = session.machine.host.sink := by
  rw [runSource_eq]
  cases hcompile : Engine.compile source session.machine with
  | ok program machine => exact absurd (compilable_of_compile hintact hcompile) h
  | error error machine =>
      have hsink := Machine.sink_compile session.machine.clear source
      change WordC.compile source session.machine.clear = _ at hcompile
      rw [Machine.after_of_error hcompile] at hsink
      exact ⟨error, machine, rfl, hsink⟩

/-- What a session answers depends on the tokens of the program alone. -/
theorem alike_runSource_of_scans {source source' : String}
    (hintact : session.machine.IntactWith layout) (hcompiles : Compilable layout source)
    (hscans : Scans source.toList kinds) (hscans' : Scans source'.toList kinds) (steps : Nat) :
    Alike (Echo session.machine.host.sink.written session.machine.host.sink.written)
      (runSource source steps session) (runSource source' steps session) := by
  obtain ⟨program, machine, hok⟩ := hcompiles.compile hintact
  obtain ⟨file, outline, hreads, hroom⟩ := hcompiles
  obtain rfl := hscans.unique (Token.scans_toList.2 hreads.tokens)
  have hreads' : Compiler.Reads source' (Machine.blank layout none {}) file outline :=
    { hreads with tokens := Token.scans_toList.1 hscans' }
  obtain ⟨program', machine', hok'⟩ := Compilable.compile ⟨file, outline, hreads', hroom⟩ hintact
  have hclear {text : String} (h : Compiler.Reads text (Machine.blank layout none {}) file outline) :
      Compiler.Reads text session.machine.clear file outline := by
    rw [Machine.clear_eq_blank hintact.intact, hintact.layout]
    exact ⟨h.tokens, h.grammatical, h.resolves, h.awaiting, h.main⟩
  rw [runSource_eq, runSource_eq, hok, hok']
  exact alike_onMachine
    (Engine.alike_run_of_reads hintact (hclear hreads) (hclear hreads') hok hok' _ steps)

/-- Behind an expression that can be evaluated, a comment to the end of the line keeps the program
from compiling, whatever it says: nothing is printed, and the session keeps what it has. A closed
comment that is not behind a semicolon changes nothing about the answer and the output. -/
theorem evaluate_commented {log : List (Step × Bool)} (h : Reached poolSize limit log session)
    {program : Program} {machine : Machine}
    (hcompiles : Engine.compile (session.sourceFor expression) session.machine =
      .ok program machine)
    {tokens : List Token} (htokens : tokenize expression = .ok tokens)
    (hblank : Token.LaysAmong isBlank expression.toList tokens) (comment : String) (steps : Nat) :
    ('\n' ∉ comment.toList → ∃ error machine',
      evaluate (expression ++ " //" ++ comment) steps session =
        .error error { session with machine := machine' } ∧
      machine'.host.sink = session.machine.host.sink) ∧
    (¬['*', '/'] <:+: comment.toList →
      tokens.getLast?.map (·.kind) ≠ some (.punctuator .semicolon) →
      Alike (Echo session.machine.host.sink.written session.machine.host.sink.written)
        (evaluate expression steps session)
        (evaluate (expression ++ " /*" ++ comment ++ "*/") steps session)) := by
  obtain ⟨layout, hstanding⟩ := h.standing
  have hintact := hstanding.serves.intact
  have hcompilable := compilable_of_compile hintact hcompiles
  obtain ⟨before, hbefore, hwhole⟩ := (hstanding.accepted.compilable hstanding.partition).whole
  have hdeclared : Scans session.declared.toList (before.map (·.kind)) :=
    Token.scans_toList.2 ⟨before, hbefore, rfl⟩
  have hbare := Token.bare_of_tokenize htokens hblank.inked_eq
  refine ⟨fun hline => ?_, fun hclosed hlast => ?_⟩
  · rw [evaluate_eq]
    exact runSource_of_not_compilable hintact
      (hcompilable.not_commented hdeclared hwhole.meetAll? hbare hline) steps
  · rw [← List.getLast?_map] at hlast
    have hscans := scans_spliced hbare hlast
    have htext : (expression ++ " /*" ++ comment ++ "*/").toList =
        expression.toList ++ ' ' :: '/' :: '*' :: (comment.toList ++ ['*', '/']) := by simp
    have hcommented := scans_spliced_block hbare hclosed
    rw [← htext] at hcommented
    rw [evaluate_eq, evaluate_eq]
    exact alike_runSource_of_scans hintact hcompilable (scans_sourceFor hdeclared hscans)
      (scans_sourceFor hdeclared hcommented) steps

def sum : String := "1 + 2"

def sumTokens : List Token := [
  { kind := .number 1, text := "1", start := 0 },
  { kind := .punctuator .plus, text := "+", start := 2 },
  { kind := .number 2, text := "2", start := 4 }]

theorem tokenize_sum : tokenize sum = .ok sumTokens :=
  tokenize_eq_ok (by decide +kernel)

theorem laysAmong_sum : Token.LaysAmong isBlank sum.toList sumTokens := by
  have htext : sum.toList = [] ++ (sumTokens[0].text.toList ++ ([' '] ++
      (sumTokens[1].text.toList ++ ([' '] ++ (sumTokens[2].text.toList ++ []))))) := rfl
  rw [htext]
  refine .token ?_ (.token ?_ (.token ?_ (.gap ?_)))
  all_goals exact List.all_eq_true.1 rfl

theorem evaluate_commented_sum :
    Reached 256 none [] Prompt.fresh ∧ tokenize sum = .ok sumTokens ∧
      Token.LaysAmong isBlank sum.toList sumTokens ∧
      (∃ error machine', evaluate (sum ++ " //" ++ " c") 100 Prompt.fresh =
        .error error { Prompt.fresh with machine := machine' }) ∧
      Alike (Echo #[] #[]) (evaluate sum 100 Prompt.fresh)
        (evaluate (sum ++ " /*" ++ " c " ++ "*/") 100 Prompt.fresh) := by
  have hcompiled : isCompiled (Prompt.fresh.sourceFor sum) Prompt.fresh.machine.clear = true := by
    decide +kernel
  obtain ⟨program, machine, hok⟩ := isCompiled_iff.1 hcompiled
  obtain ⟨hline, -⟩ :=
    evaluate_commented Prompt.reached_fresh hok tokenize_sum laysAmong_sum " c" 100
  obtain ⟨-, hblock⟩ :=
    evaluate_commented Prompt.reached_fresh hok tokenize_sum laysAmong_sum " c " 100
  obtain ⟨error, machine', hfails, -⟩ := hline (by decide)
  exact ⟨Prompt.reached_fresh, tokenize_sum, laysAmong_sum, ⟨error, machine', hfails⟩,
    hblock (by decide) (by decide)⟩

/-- What a turn answers, if it succeeds. -/
def answer? (turn : Turn α) (session : Session) : Option α :=
  match turn session with
  | .ok value _ => some value
  | .error _ _ => none

/-- The sum is answered without the comment and not with it. -/
theorem answer_commentedSum :
    Reached 256 none [] Prompt.fresh ∧ tokenize sum = .ok sumTokens ∧
      Token.LaysAmong isBlank sum.toList sumTokens ∧
      answer? (evaluate sum 100) Prompt.fresh = some (some 3) ∧
      answer? (evaluate (sum ++ " // c") 100) Prompt.fresh = none := by
  have hmachine : Prompt.fresh.machine = .small := rfl
  refine ⟨Prompt.reached_fresh, tokenize_sum, laysAmong_sum, ?_, ?_⟩
  all_goals
    rw [answer?, evaluate_eq, runSource_eq, hmachine, Engine.compile_small]
    decide +kernel

end Session

end WordC
