import Mathlib.Data.List.Induction
import WordC.Proofs.Token.Landmarks

/-!
# One stream for all calls

A scanner is asked for tokens by hand or as an iteration, in any order. Either way it reads the same
stream, the one that a new scanner gives when it is only asked by hand. What carries this is that a
reading without a token can be repeated: it leaves the gap behind, and there is no gap in front of
the place where it stops.
-/

namespace WordC

namespace Token

variable {source : String} {cursor cursor' after : Cursor} {result : Except Error Token}

/-- The token that a reading gives; neither the end of the input nor an error is one. -/
def token? : Except Error Token → Option Token
  | .ok token => if token.kind = .endOfInput then none else some token
  | .error _ => none

theorem eq_ok_of_token? {token : Token} (h : token? result = some token) : result = .ok token := by
  cases result with
  | error error => cases h
  | ok found =>
      rw [token?] at h
      split at h
      · cases h
      · cases h
        rfl

/-! ## Repeated readings -/

theorem Cursor.gap_gap (cursor : Cursor) : cursor.gap.cursor.gap = cursor.gap := by
  cases hgap : cursor.gap with
  | ends here =>
      obtain ⟨gap, hskipped⟩ := exists_skipped hgap
      exact skipGap_of_opensToken hskipped.opens here.offset
  | unterminated opening =>
      obtain ⟨gap, back, -, -, hopen, rfl⟩ := exists_unclosed hgap
      rw [Gap.cursor, Cursor.gap, skipGap]
      exact skipBlock_of_unclosed hopen _ _

theorem Cursor.next_of_gap_eq (h : cursor'.gap = cursor.gap) (source : String) :
    cursor'.next source = cursor.next source := by
  rw [next, next, h]

/-- Without a token only the gap is left behind. -/
theorem Cursor.eq_gap_of_next (h : cursor.next source = (result, after))
    (hnone : token? result = none) : after = cursor.gap.cursor := by
  unfold next at h
  split at h
  · next hgap =>
      cases h
      rw [hgap, Gap.cursor]
  · next hgap =>
      rw [hgap, Gap.cursor]
      split at h
      · cases h
        rfl
      · split at h
        · cases h
          rfl
        · dsimp only at h
          split at h
          · cases h
            rfl
          · next hbuild =>
              cases h
              rw [token?, if_neg (Class.of_build? hbuild).1] at hnone
              cases hnone

theorem Cursor.next_again (h : cursor.next source = (result, after))
    (hnone : token? result = none) : after.next source = (result, after) := by
  have hgap : after.gap = cursor.gap := by
    rw [eq_gap_of_next h hnone, cursor.gap_gap]
  exact (next_of_gap_eq hgap source).trans h

end Token

namespace Scanner

open Token (token? Cursor)

variable {source : String} {scanner : Scanner} {rounds : Nat}

/-! ## The stream of a new scanner -/

/-- A new scanner that has been asked by hand so many times. -/
def reached (source : String) : Nat → Scanner
  | 0 => .ofSource source
  | rounds + 1 => (reached source rounds).next.2

/-- What it answers next. -/
def reading (source : String) (rounds : Nat) : Except Error Token :=
  (reached source rounds).next.1

theorem source_reached (source : String) (rounds : Nat) :
    (reached source rounds).source = source := by
  induction rounds with
  | zero => rfl
  | succ rounds ih => exact ih

/-- A place from which a scanner reads on as a new one does after so many rounds. -/
def ReadsOn (source : String) (rounds : Nat) (cursor : Cursor) : Prop :=
  cursor.next source = (reached source rounds).cursor.next source

section ReadsOn

variable {cursor : Cursor}

theorem ReadsOn.result (h : ReadsOn source rounds cursor) :
    (cursor.next source).1 = reading source rounds := by
  rw [reading, next, source_reached, h]

theorem ReadsOn.advance (h : ReadsOn source rounds cursor) :
    ReadsOn source (rounds + 1) (cursor.next source).2 := by
  rw [ReadsOn, reached, next, source_reached, h]

theorem ReadsOn.stay (h : ReadsOn source rounds cursor)
    (hnone : token? (reading source rounds) = none) :
    ReadsOn source rounds (cursor.next source).2 := by
  have hnext : cursor.next source = ((cursor.next source).1, (cursor.next source).2) := rfl
  rw [← h.result] at hnone
  exact (Cursor.next_again hnext hnone).trans h

theorem reading_add (hnone : token? (reading source rounds) = none) (more : Nat) :
    reading source (rounds + more) = reading source rounds := by
  induction more with
  | zero => rfl
  | succ more ih =>
      have hnone' : token? (reading source (rounds + more)) = none := ih ▸ hnone
      have hstay : ReadsOn source (rounds + more) (reached source (rounds + more + 1)).cursor := by
        have hself : ReadsOn source (rounds + more) (reached source (rounds + more)).cursor := rfl
        rw [reached, next, source_reached]
        exact hself.stay hnone'
      rw [← ih, ← hstay.result, ← Nat.add_assoc, reading, next, source_reached]

end ReadsOn

/-! ## Calls -/

/-- The two ways to ask for a token. -/
inductive Call where
  | next
  | iterate
deriving DecidableEq

/-- What a call is answered. Only an iteration may have no item. -/
def serve (scanner : Scanner) : Call → Option (Except Error Token) × Scanner
  | .next => (some scanner.next.1, scanner.next.2)
  | .iterate => scanner.iterate

/-- The item that an iteration makes of a reading; the end of the input is none. -/
def item : Except Error Token → Option (Except Error Token)
  | .ok token => if token.kind = .endOfInput then none else some (.ok token)
  | .error error => some (.error error)

def afterAll (scanner : Scanner) (calls : List Call) : Scanner :=
  calls.foldl (fun scanner call => (scanner.serve call).2) scanner

/-- Calls with their answers. -/
abbrev Log := List (Call × Option (Except Error Token))

def log (scanner : Scanner) : List Call → Log
  | [] => []
  | call :: calls => (call, (scanner.serve call).1) :: (scanner.serve call).2.log calls

/-- The tokens that some calls have handed out. -/
def handed (log : Log) : List Token :=
  log.filterMap fun (_, answer) => answer.bind token?

/-- Whether one of the calls was an iteration that got no token. -/
def isOver (log : Log) : Bool :=
  log.any fun (call, answer) => call = .iterate && (answer.bind token?).isNone

variable {call : Call} {calls more : List Call} {log : Log}

theorem item_bind_token? (result : Except Error Token) :
    (item result).bind token? = token? result := by
  cases result with
  | error error => rfl
  | ok token =>
      by_cases hkind : token.kind = .endOfInput
      · simp [item, token?, hkind]
      · simp [item, hkind]

theorem iterate_eq (hopen : scanner.finished = false) :
    scanner.iterate = (item scanner.next.1,
      { scanner.next.2 with finished := (token? scanner.next.1).isNone }) := by
  have hfinished : scanner.next.2.finished = false := hopen
  rw [iterate, if_neg (by simp [hopen])]
  cases hnext : scanner.next with
  | mk result after =>
      rw [hnext] at hfinished
      cases result with
      | error error => rfl
      | ok token =>
          by_cases hkind : token.kind = .endOfInput
          · simp [item, token?, hkind]
          · simp [item, token?, hkind, ← hfinished]

theorem iterate_of_finished (hover : scanner.finished = true) :
    scanner.iterate = (none, scanner) := by
  rw [iterate, if_pos hover]

theorem log_append (scanner : Scanner) (calls more : List Call) :
    scanner.log (calls ++ more) = scanner.log calls ++ (scanner.afterAll calls).log more := by
  induction calls generalizing scanner with
  | nil => rfl
  | cons call calls ih =>
      rw [List.cons_append, Scanner.log, ih]
      rfl

theorem handed_concat (log : Log) (call : Call) (answer : Option (Except Error Token)) :
    handed (log ++ [(call, answer)]) = handed log ++ (answer.bind token?).toList := by
  rw [handed, List.filterMap_append]
  cases htoken : answer.bind token? with
  | none => simp [handed, htoken]
  | some token => simp [handed, htoken]

theorem isOver_concat (log : Log) (call : Call) (answer : Option (Except Error Token)) :
    isOver (log ++ [(call, answer)]) =
      (isOver log || (call = .iterate && (answer.bind token?).isNone)) := by
  simp [isOver]

/-- Where a scanner stands behind calls. -/
structure Stands (source : String) (log : Log) (scanner : Scanner) : Prop where
  text : scanner.source = source
  finished : scanner.finished = isOver log
  readsOn : ReadsOn source (handed log).length scanner.cursor
  tokens : (handed log).map .ok = (List.range (handed log).length).map (reading source)

namespace Stands

theorem next_eq (h : Stands source log scanner) :
    scanner.next.1 = reading source (handed log).length := by
  rw [← h.readsOn.result, ← h.text]
  rfl

/-- Behind a call without a token. -/
theorem stay (h : Stands source log scanner) {after : Scanner}
    {answer : Option (Except Error Token)} (hnone : answer.bind token? = none)
    (htext : after.source = source) (hfinished : after.finished = isOver (log ++ [(call, answer)]))
    (hcursor : ReadsOn source (handed log).length after.cursor) :
    Stands source (log ++ [(call, answer)]) after := by
  have hsame : handed (log ++ [(call, answer)]) = handed log := by
    rw [handed_concat, hnone]
    exact List.append_nil _
  exact ⟨htext, hfinished, hsame ▸ hcursor, hsame ▸ h.tokens⟩

/-- Behind a reading, whichever call it has been made for. -/
theorem read (h : Stands source log scanner) {answer : Option (Except Error Token)}
    (hanswer : answer.bind token? = token? scanner.next.1) {finished : Bool}
    (hfinished : finished = isOver (log ++ [(call, answer)])) :
    Stands source (log ++ [(call, answer)]) { scanner.next.2 with finished } := by
  have hcursor : scanner.next.2.cursor = (scanner.cursor.next source).2 := by
    rw [← h.text]
    rfl
  rw [h.next_eq] at hanswer
  cases htoken : token? (reading source (handed log).length) with
  | none =>
      exact h.stay (hanswer.trans htoken) h.text hfinished (hcursor ▸ h.readsOn.stay htoken)
  | some token =>
      have hmore : handed (log ++ [(call, answer)]) = handed log ++ [token] := by
        rw [handed_concat, hanswer, htoken]
        rfl
      refine ⟨h.text, hfinished, ?_, ?_⟩
      · rw [hmore, List.length_append, hcursor]
        exact h.readsOn.advance
      · rw [hmore, List.length_append, List.length_singleton, List.range_succ, List.map_append,
          List.map_append, h.tokens, List.map_singleton, List.map_singleton,
          Token.eq_ok_of_token? htoken]

/-- A call keeps the place. -/
theorem serve (h : Stands source log scanner) (call : Call) :
    Stands source (log ++ [(call, (scanner.serve call).1)]) (scanner.serve call).2 := by
  cases call with
  | next =>
      refine h.read rfl ?_
      rw [isOver_concat, ← h.finished]
      simp
  | iterate =>
      cases hfinished : scanner.finished with
      | true =>
          have hover := h.finished.symm.trans hfinished
          rw [Scanner.serve, iterate_of_finished hfinished]
          refine h.stay rfl h.text ?_ h.readsOn
          rw [hfinished, isOver_concat, hover, Bool.true_or]
      | false =>
          rw [Scanner.serve, iterate_eq hfinished]
          refine h.read (item_bind_token? _) ?_
          rw [isOver_concat, ← h.finished, hfinished, item_bind_token?]
          simp

theorem iterate_eq (h : Stands source log scanner) :
    scanner.iterate.1 =
      if isOver log then none else item (reading source (handed log).length) := by
  cases hfinished : scanner.finished with
  | true =>
      rw [iterate_of_finished hfinished, if_pos (h.finished.symm.trans hfinished)]
  | false =>
      have hopen : isOver log = false := h.finished.symm.trans hfinished
      rw [Scanner.iterate_eq hfinished, if_neg (by simp [hopen]), h.next_eq]

end Stands

/-! ## Calls in any order -/

/-- A scanner of a source behind some calls. -/
def used (source : String) (calls : List Call) : Scanner :=
  (ofSource source).afterAll calls

/-- The calls with what such a scanner has answered. -/
def answered (source : String) (calls : List Call) : Log :=
  (ofSource source).log calls

theorem used_append (source : String) (calls more : List Call) :
    used source (calls ++ more) = (used source calls).afterAll more :=
  List.foldl_append

theorem answered_append (source : String) (calls more : List Call) :
    answered source (calls ++ more) = answered source calls ++ (used source calls).log more :=
  log_append _ _ _

/-- By induction from the last call. -/
theorem stands_used (source : String) (calls : List Call) :
    Stands source (answered source calls) (used source calls) := by
  induction calls using List.reverseRecOn with
  | nil => exact ⟨rfl, rfl, rfl, rfl⟩
  | append_singleton calls call ih =>
      rw [answered_append, used_append]
      exact ih.serve call

/-- What calls get from a scanner, behind any others. -/
structure Follows (source : String) (calls : List Call) : Prop where
  /-- The tokens handed out so far are the first ones of the stream. -/
  tokens : (handed (answered source calls)).map .ok =
    (List.range (handed (answered source calls)).length).map (reading source)
  /-- By hand, the stream goes on behind them. -/
  next : (used source calls).next.1 = reading source (handed (answered source calls)).length
  /-- Where it has ended or failed, that is what every further reading by hand gives. -/
  sticks : token? (used source calls).next.1 = none →
    ∀ more, (used source (calls ++ more)).next.1 = (used source calls).next.1
  /-- An iteration gives the same until it is over, with nothing in place of the end. -/
  iterate : (used source calls).iterate.1 =
    if isOver (answered source calls) then none else item (used source calls).next.1
  /-- It is over with the first item that is no token. -/
  ends : (used source calls).iterate.1.bind token? = none →
    ∀ more, (used source (calls ++ .iterate :: more)).iterate.1 = none
  /-- To readings by hand an iteration makes the same difference as another of them, or none. -/
  aside : (used source (calls ++ [.iterate])).next.1 =
    if isOver (answered source calls) then (used source calls).next.1
    else (used source (calls ++ [.next])).next.1

theorem reading_of_append (hnone : token? (used source calls).next.1 = none) (more : List Call) :
    (used source (calls ++ more)).next.1 = (used source calls).next.1 := by
  have hlength : (handed (answered source (calls ++ more))).length =
      (handed (answered source calls)).length +
        (handed ((used source calls).log more)).length := by
    rw [answered_append, handed, List.filterMap_append, List.length_append]
    rfl
  rw [(stands_used source calls).next_eq] at hnone ⊢
  rw [(stands_used source _).next_eq, hlength, reading_add hnone]

theorem isOver_of_append (hnone : (used source calls).iterate.1.bind token? = none)
    (more : List Call) : isOver (answered source (calls ++ .iterate :: more)) = true := by
  rw [answered_append, Scanner.log, Scanner.serve, isOver, List.any_append, List.any_cons]
  simp [hnone]

/-- By hand and as an iteration, in any order, a scanner reads one stream. -/
theorem follows_used (source : String) (calls : List Call) : Follows source calls := by
  have hstands := stands_used source calls
  have hiterate := hstands.iterate_eq
  rw [← hstands.next_eq] at hiterate
  refine ⟨hstands.tokens, hstands.next_eq, reading_of_append, hiterate, fun hnone more => ?_, ?_⟩
  · rw [(stands_used source _).iterate_eq, if_pos (isOver_of_append hnone more)]
  · have hlast (call : Call) : handed (answered source (calls ++ [call])) =
        handed (answered source calls) ++
          (((used source calls).serve call).1.bind token?).toList := by
      rw [answered_append, Scanner.log, Scanner.log, handed_concat]
    rw [(stands_used source _).next_eq, (stands_used source (calls ++ [Call.next])).next_eq, hlast,
      hlast, Scanner.serve, Scanner.serve, hiterate, hstands.next_eq]
    split
    · rw [Option.bind_none, Option.toList_none, List.append_nil]
    · rw [item_bind_token?, Option.bind_some]

/-- The iteration is over with the error; by hand it is read again. -/
example : (answered "1 $" [.iterate, .next, .iterate, .iterate, .next]).map
    (fun (_, answer) => answer.map (·.isOk)) =
      [some true, some false, some false, none, some false] := by
  decide +kernel

end Scanner

end WordC
