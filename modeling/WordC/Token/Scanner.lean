import WordC.Error
import WordC.Token.Gap

/-!
# Reading tokens one at a time

A scanner hands out the tokens of a source text on demand. It only moves forward. Past the end it
answers with the end of the input, at a text that is no token with the same error, for ever.
-/

namespace WordC

namespace Token

/-- Reads one token. A failed reading stays in front of the text that failed. -/
def Cursor.next (source : String) (cursor : Cursor) : Except Error Token × Cursor :=
  match cursor.gap with
  | .unterminated here =>
      (.error (.unterminatedComment (Position.locate source here.offset)), here)
  | .ends here =>
      match here.rest with
      | [] => (.ok (endAt here.offset), here)
      | c :: _ =>
          match Class.first? here.rest with
          | none =>
              (.error (.unexpectedSymbol c.toString .token
                (Position.locate source here.offset)), here)
          | some (cls, lexeme, after) =>
              let text := String.ofList lexeme
              match cls.build? lexeme with
              | none =>
                  (.error (.unexpectedSymbol text (.valid cls)
                    (Position.locate source here.offset)), here)
              | some kind =>
                  (.ok { kind, text, start := here.offset },
                    { rest := after, offset := here.offset + text.utf8ByteSize })

/-- A token other than the end of the input takes something from what is left to read. -/
theorem Cursor.length_next_lt {source : String} {cursor after : Cursor} {token : Token}
    (h : cursor.next source = (.ok token, after)) (hkind : token.kind ≠ .endOfInput) :
    after.rest.length < cursor.rest.length := by
  have hgap := cursor.length_gap_le
  unfold next at h
  split at h
  · simp at h
  · rename_i here hhere
    rw [hhere] at hgap
    split at h
    · cases h
      simp [endAt] at hkind
    · split at h
      · simp at h
      · rename_i hfirst
        split at h
        · simp at h
        · cases h
          exact Nat.lt_of_lt_of_le (Class.splits_of_first? hfirst).length_lt hgap

end Token

structure Scanner where
  source : String
  cursor : Token.Cursor
  /-- Whether the iteration is over; reading on by hand is not affected. -/
  finished : Bool

namespace Scanner

def ofSource (source : String) : Scanner :=
  { source, cursor := { rest := source.toList, offset := 0 }, finished := false }

/-- The next token, which is the end of the input once everything has been read. -/
def next (scanner : Scanner) : Except Error Token × Scanner :=
  let (result, cursor) := scanner.cursor.next scanner.source
  (result, { scanner with cursor })

/-- One round of an iteration over the tokens, which ends at the end of the input or behind the
first error. -/
def iterate (scanner : Scanner) : Option (Except Error Token) × Scanner :=
  if scanner.finished then (none, scanner)
  else
    match scanner.next with
    | (.ok token, after) =>
        if token.kind = .endOfInput then (none, { after with finished := true })
        else (some (.ok token), after)
    | (.error error, after) => (some (.error error), { after with finished := true })

end Scanner

end WordC
