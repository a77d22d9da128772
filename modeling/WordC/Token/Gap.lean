import WordC.Text.Blank

/-!
# Gaps between tokens

White space, comments to the end of the line and comments between `/*` and `*/` separate tokens. The
reader walks through them character by character.
-/

namespace WordC.Token

/-- A place in the source: what is still to be read and the byte offset at which it begins. -/
structure Cursor where
  rest : List Char
  offset : Nat

inductive Gap where
  /-- The gap ends here: a token begins, or the source is over. -/
  | ends (cursor : Cursor)
  /-- A comment begins here that is never closed. -/
  | unterminated (cursor : Cursor)

def Gap.cursor : Gap → Cursor
  | ends cursor => cursor
  | unterminated cursor => cursor

namespace Cursor

mutual

/-- Skips the gap at `offset`. -/
def skipGap (offset : Nat) : List Char → Gap
  | [] => .ends ⟨[], offset⟩
  | '/' :: '/' :: rest => skipLine (offset + 2) rest
  | '/' :: '*' :: rest => skipBlock ⟨'/' :: '*' :: rest, offset⟩ (offset + 2) rest
  | c :: rest =>
      if Text.isBlank c then skipGap (offset + c.utf8Size) rest else .ends ⟨c :: rest, offset⟩

/-- Skips to the end of the line. -/
def skipLine (offset : Nat) : List Char → Gap
  | [] => .ends ⟨[], offset⟩
  | '\n' :: rest => skipGap (offset + 1) rest
  | c :: rest => skipLine (offset + c.utf8Size) rest

/-- Skips behind the end of the comment that began at `opening`. -/
def skipBlock (opening : Cursor) (offset : Nat) : List Char → Gap
  | [] => .unterminated opening
  | '*' :: '/' :: rest => skipGap (offset + 2) rest
  | c :: rest => skipBlock opening (offset + c.utf8Size) rest

end

def gap (cursor : Cursor) : Gap :=
  skipGap cursor.offset cursor.rest

theorem length_skip_le :
    (∀ offset input, (skipGap offset input).cursor.rest.length ≤ input.length) ∧
    (∀ opening offset input, (skipBlock opening offset input).cursor.rest.length ≤
      max opening.rest.length input.length) ∧
    ∀ offset input, (skipLine offset input).cursor.rest.length ≤ input.length := by
  apply skipGap.mutual_induct
  all_goals
    intros
    simp_all only [skipGap, skipLine, skipBlock, Gap.cursor, List.length_cons, List.length_nil,
      if_true, Bool.false_eq_true, if_false]
    try omega

theorem length_gap_le (cursor : Cursor) :
    cursor.gap.cursor.rest.length ≤ cursor.rest.length :=
  length_skip_le.1 cursor.offset cursor.rest

end Cursor

end WordC.Token
