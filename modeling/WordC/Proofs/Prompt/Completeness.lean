import WordC.Proofs.Language.Brackets
import WordC.Proofs.Prompt.Balance
import WordC.Proofs.Session.Replay
import WordC.Proofs.Token.Lines

/-!
# Declarations are complete

What a session accepts as a declaration is a sequence of whole items: the brackets of its tokens
match, and the last of them ends an item. The prompt does not wait for more behind such an input if
there are no comments in it. It does not know what a comment is, though. It counts the brackets and
quotes inside, and takes a slash at the end for a division.
-/

namespace WordC

namespace Session

open Syntax (endings)
open Token (Kind)

variable {poolSize : Nat} {limit : Option Nat} {layout : Layout} {session : Session}
  {input text : String}

/-! ## Whole items -/

/-- Tokens whose brackets match and that end where an item ends. -/
structure Whole (kinds : List Kind) : Prop where
  meetAll? : Token.meetAll? [] kinds = some []
  last : ∀ last ∈ kinds.getLast?, last ∈ endings

/-- The text of `main` that a session writes behind the declarations, on a line of its own. -/
def idleMain : String :=
  "int main() \x7b return 0; \x7d"

theorem idle_eq : idle = "\n" ++ idleMain := by
  decide +kernel

theorem tokenize_idleMain :
    ∃ tokens, tokenize idleMain = .ok tokens ∧ tokens.map (·.kind) = idleFile.tokens := by
  obtain ⟨tokens, htokens, hkinds⟩ := tokenize_idle
  have hbreak : Token.IsGap false ['\n'] := .blank (by decide) .nil
  have hidle : idle = String.ofList (['\n'] ++ idleMain.toList) := by
    rw [idle_eq, String.ofList_append, String.ofList_toList]
  rw [hidle] at htokens
  obtain ⟨others, hothers, hsame⟩ := tokenize_of_gap hbreak htokens
  rw [String.ofList_toList] at hothers
  exact ⟨others, hothers, hsame.trans hkinds⟩

/-- What may stand in front of a `main` on the next line. -/
theorem Compilable.whole (h : Compilable layout (text ++ idle)) :
    ∃ tokens, tokenize text = .ok tokens ∧ Whole (tokens.map (·.kind)) := by
  obtain ⟨file, outline, hreads, -⟩ := h
  obtain ⟨all, hall, hfile⟩ := hreads.tokens
  rw [idle_eq, ← String.append_assoc] at hall
  obtain ⟨tokens, htokens⟩ := tokenize_of_lines hall (by decide +kernel)
  obtain ⟨others, hothers, hkinds⟩ := tokenize_lines htokens hall
  obtain ⟨mains, hmains, hmainKinds⟩ := tokenize_idleMain
  obtain rfl : mains = others := Except.ok.inj (hmains.symm.trans hothers)
  have hsplit : file.tokens = tokens.map (·.kind) ++ idleFile.tokens := by
    rw [← hfile, hkinds, hmainKinds]
  refine ⟨tokens, htokens, ?_⟩
  have hmatch := file.meetAll? []
  rw [hsplit, Token.meetAll?_append] at hmatch
  obtain ⟨left, hleft, hmain⟩ := Option.bind_eq_some_iff.1 hmatch
  obtain rfl : left = [] := Option.some.inj ((Syntax.File.meetAll? idleFile left).symm.trans hmain)
  exact ⟨hleft, Syntax.File.getLast?_mem hsplit hleft⟩

/-- A declaration that is accepted consists of whole items. -/
theorem Reached.whole {log : List (Step × Bool)} (h : Reached poolSize limit log session)
    (hkept : (session.perform (.declare input)).1 = true) :
    ∃ tokens, tokenize input = .ok tokens ∧ Whole (tokens.map (·.kind)) := by
  obtain ⟨layout, hstanding⟩ := h.standing
  obtain ⟨before, hbefore, hdeclared⟩ := (hstanding.accepted.compilable hstanding.partition).whole
  have hcandidate := compilable_of_declare hstanding.serves hkept
  rw [sourceWith_eq] at hcandidate
  obtain ⟨all, hall, hwhole⟩ := hcandidate.whole
  obtain ⟨tokens, htokens, hkinds⟩ := tokenize_lines hbefore hall
  have hmatch := hwhole.meetAll?
  rw [hkinds, Token.meetAll?_append, hdeclared.meetAll?, Option.bind_some] at hmatch
  refine ⟨tokens, htokens, hmatch, fun last hlast => hwhole.last last ?_⟩
  rw [hkinds]
  exact List.mem_getLast?_append_of_mem_getLast? hlast

end Session

/-! ## The last character -/

theorem Token.LaysAmong.exists_last {test : Char → Bool} {text : List Char} {tokens : List Token}
    {last : Token} (h : LaysAmong test text tokens) (hlast : tokens.getLast? = some last) :
    ∃ front gap, text = front ++ last.text.toList ++ gap ∧ ∀ c ∈ gap, test c = true := by
  induction h with
  | gap => cases hlast
  | @token gap rest token tokens _ h ih =>
      cases tokens with
      | nil =>
          cases hlast
          cases h with
          | gap hrest => exact ⟨gap, rest, (List.append_assoc ..).symm, hrest⟩
      | cons next tokens =>
          rw [List.getLast?_cons_cons] at hlast
          obtain ⟨front, behind, rfl, hbehind⟩ := ih hlast
          exact ⟨gap ++ (token.text.toList ++ front), behind, by simp, hbehind⟩

theorem Text.trimEnd_append {text gap : List Char} (hgap : ∀ c ∈ gap, isBlank c = true) :
    trimEnd (text ++ gap) = trimEnd text := by
  rw [trimEnd, List.reverse_append,
    List.dropWhile_append_of_pos fun c hc => hgap c (List.mem_reverse.1 hc), trimEnd]

theorem Text.trimEnd_concat {text : List Char} {c : Char} (hc : isBlank c = false) :
    trimEnd (text ++ [c]) = text ++ [c] := by
  rw [trimEnd, List.reverse_concat, List.dropWhile_cons_of_neg (by simp [hc]),
    ← List.reverse_concat, List.reverse_reverse]

namespace Prompt

open Session (Reached Step)
open Token (LaysAmong)

variable {poolSize : Nat} {limit : Option Nat} {session : Session} {input : String}
  {tokens : List Token}

theorem isComplete_iff (hbalanced : isBalanced input = true) :
    isComplete input = true ↔
      ∀ c ∈ (Text.trimEnd input.toList).getLast?, c ∉ continuations := by
  rw [isComplete, hbalanced, Bool.true_and]
  cases (Text.trimEnd input.toList).getLast? with
  | none => simp
  | some c => simp

/-- Where an item ends there is nothing to wait for. -/
theorem exists_mark_of_mem_endings {kind : Token.Kind} (h : kind ∈ Syntax.endings) :
    ∃ mark c, kind = .punctuator mark ∧ mark.text.toList = [c] ∧ Text.isBlank c = false ∧
      c ∉ continuations := by
  simp only [Syntax.endings, List.mem_cons, List.not_mem_nil, or_false] at h
  rcases h with rfl | rfl <;> exact ⟨_, _, rfl, rfl, by decide, by decide⟩

/-- The last character of whole items with blanks between them is the end of the last item. -/
theorem notMem_continuations (htokens : tokenize input = .ok tokens)
    (hwhole : Session.Whole (tokens.map (·.kind)))
    (hblank : LaysAmong Text.isBlank input.toList tokens) :
    ∀ c ∈ (Text.trimEnd input.toList).getLast?, c ∉ continuations := by
  cases hlast : tokens.getLast? with
  | none =>
      obtain rfl := List.getLast?_eq_none_iff.1 hlast
      generalize input.toList = text at hblank
      cases hblank with
      | gap hgap =>
          rw [← List.nil_append text, Text.trimEnd_append hgap]
          exact nofun
  | some last =>
      obtain ⟨front, gap, htext, hgap⟩ := hblank.exists_last hlast
      obtain ⟨cursor, after, behind, cls, htakes⟩ :=
        (Token.takings_of_read htokens).exists_takes last (List.mem_of_getLast? hlast)
      have hending := hwhole.last last.kind (by rw [List.getLast?_map, hlast]; rfl)
      obtain ⟨mark, c, hmark, hc, hnotBlank, hcontinues⟩ := exists_mark_of_mem_endings hending
      have hbuild := htakes.kind
      rw [hmark] at hbuild
      rw [Token.Class.text_of_build? hbuild] at hc
      rw [htext, Text.trimEnd_append hgap, hc, Text.trimEnd_concat hnotBlank,
        List.getLast?_concat]
      rintro d ⟨⟩
      exact hcontinues

/-- The prompt does not wait behind an accepted declaration without comments. With comments it does
not wait for a bracket or a quote unless there is one in them, but it waits where the last of them
ends in a character after which something has to follow. -/
theorem isComplete_of_declare {log : List (Step × Bool)} (h : Reached poolSize limit log session)
    (hkept : (session.perform (.declare input)).1 = true) :
    ∃ tokens, tokenize input = .ok tokens ∧
      (LaysAmong isQuiet input.toList tokens →
        isBalanced input = true ∧
          (isComplete input = true ↔
            ∀ c ∈ (Text.trimEnd input.toList).getLast?, c ∉ continuations)) ∧
      (LaysAmong Text.isBlank input.toList tokens → isComplete input = true) := by
  obtain ⟨tokens, htokens, hwhole⟩ := h.whole hkept
  have hbalanced (hquiet : LaysAmong isQuiet input.toList tokens) : isBalanced input = true := by
    rw [isBalanced_eq htokens hquiet, hwhole.meetAll?]
    rfl
  refine ⟨tokens, htokens, fun hquiet => ⟨hbalanced hquiet, isComplete_iff (hbalanced hquiet)⟩,
    fun hblank => ?_⟩
  exact (isComplete_iff (hbalanced (hblank.mono fun _ => isQuiet_of_isBlank))).2
    (notMem_continuations htokens hwhole hblank)

/-- A session in which nothing has been done yet. -/
def fresh : Session :=
  .start (Machine.small.setCycleLimit none) false

theorem reached_fresh : Reached 256 none [] fresh :=
  .start Machine.create_small false

def quotedBrace : String := "char c = \x27\x7b\x27;"

def quotedBraceTokens : List Token := [
  { kind := .keyword (.type .char), text := "char", start := 0 },
  { kind := .identifier "c", text := "c", start := 5 },
  { kind := .punctuator .equal, text := "=", start := 7 },
  { kind := .character '\x7b', text := "\x27\x7b\x27", start := 9 },
  { kind := .punctuator .semicolon, text := ";", start := 12 }]

theorem laysAmong_quotedBrace : LaysAmong Text.isBlank quotedBrace.toList quotedBraceTokens := by
  have htext : quotedBrace.toList = [] ++ (quotedBraceTokens[0].text.toList ++ ([' '] ++
      (quotedBraceTokens[1].text.toList ++ ([' '] ++ (quotedBraceTokens[2].text.toList ++ ([' '] ++
      (quotedBraceTokens[3].text.toList ++ ([] ++
      (quotedBraceTokens[4].text.toList ++ []))))))))) := rfl
  rw [htext]
  refine .token ?_ (.token ?_ (.token ?_ (.token ?_ (.token ?_ (.gap ?_)))))
  all_goals exact List.all_eq_true.1 rfl

theorem isComplete_of_declare_quotedBrace :
    Reached 256 none [] fresh ∧ (fresh.perform (.declare quotedBrace)).1 = true ∧
      isComplete quotedBrace = true := by
  have hkept : (fresh.perform (.declare quotedBrace)).1 = true := by decide +kernel
  obtain ⟨tokens, htokens, -, hcomplete⟩ := isComplete_of_declare reached_fresh hkept
  have hfound : tokenize quotedBrace = .ok quotedBraceTokens := tokenize_eq_ok (by decide +kernel)
  obtain rfl : quotedBraceTokens = tokens := Except.ok.inj (hfound.symm.trans htokens)
  exact ⟨reached_fresh, hkept, hcomplete laysAmong_quotedBrace⟩

/-- A bracket in a comment, and a comment at the end. -/
def commentedInputs : List String := ["int x; // (", "int x; /* done */"]

/-- Both are accepted, and the prompt waits for more behind both. -/
theorem isComplete_commentedInputs :
    Reached 256 none [] fresh ∧ ∀ input ∈ commentedInputs,
      (fresh.perform (.declare input)).1 = true ∧ isComplete input = false := by
  refine ⟨reached_fresh, ?_⟩
  decide +kernel

end Prompt

end WordC
