import WordC.Token.Scanner

/-!
# Token streams

All tokens of a source text in order, up to its end or to the first text that is no token.
-/

namespace WordC

namespace Token

inductive Stream where
  /-- The source ends at this byte offset. -/
  | done (offset : Nat)
  | failed (error : Error)
  | cons (token : Token) (rest : Stream)

namespace Stream

def read (source : String) (cursor : Cursor) : Stream :=
  match _h : cursor.next source with
  | (.error error, _) => .failed error
  | (.ok token, after) =>
      if _hkind : token.kind = .endOfInput then .done token.start
      else .cons token (read source after)
termination_by cursor.rest.length
decreasing_by exact Cursor.length_next_lt _h _hkind

section Read

variable {source : String} {cursor after : Cursor} {token : Token} {error : Error}

theorem read_of_error (h : cursor.next source = (.error error, after)) :
    read source cursor = .failed error := by
  unfold read
  split
  · next hfound =>
      cases h.symm.trans hfound
      rfl
  · next hfound => cases h.symm.trans hfound

theorem read_of_end (h : cursor.next source = (.ok token, after))
    (hkind : token.kind = .endOfInput) : read source cursor = .done token.start := by
  unfold read
  split
  · next hfound => cases h.symm.trans hfound
  · next hfound =>
      cases h.symm.trans hfound
      exact dif_pos hkind

theorem read_of_token (h : cursor.next source = (.ok token, after))
    (hkind : token.kind ≠ .endOfInput) :
    read source cursor = .cons token (read source after) := by
  conv => lhs; unfold read
  split
  · next hfound => cases h.symm.trans hfound
  · next hfound =>
      cases h.symm.trans hfound
      exact dif_neg hkind

end Read

def ofSource (source : String) : Stream :=
  read source { rest := source.toList, offset := 0 }

/-- The number of tokens before the stream ends. -/
def length : Stream → Nat
  | done _ => 0
  | failed _ => 0
  | cons _ rest => rest.length + 1

def toList? : Stream → Except Error (List Token)
  | done _ => .ok []
  | failed error => .error error
  | cons token rest => rest.toList?.map (token :: ·)

end Stream

end Token

/-- The tokens of a source text, without the end of the input. -/
def tokenize (source : String) : Except Error (List Token) :=
  (Token.Stream.ofSource source).toList?

end WordC
