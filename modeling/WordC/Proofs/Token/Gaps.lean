import WordC.Text.Slice
import WordC.Token.Gap

/-!
# What gaps are made of

A gap is a sequence of white space, comments to the end of the line and closed comments. Whatever
the reader skips is one, and it skips every one of them: in front of a text that does not begin a
gap it ends exactly there.
-/

namespace WordC.Token

open Text (byteLength isBlank)

/-- The text of a gap. Only behind the last token of a source may a comment to the end of the line
do without its line feed. -/
inductive IsGap (last : Bool) : List Char → Prop where
  | nil : IsGap last []
  | blank {c : Char} {rest : List Char} (hblank : isBlank c = true) (h : IsGap last rest) :
      IsGap last (c :: rest)
  | line {body rest : List Char} (hbody : '\n' ∉ body) (h : IsGap last rest) :
      IsGap last ('/' :: '/' :: (body ++ '\n' :: rest))
  | lastLine {body : List Char} (hbody : '\n' ∉ body) (hlast : last = true) :
      IsGap last ('/' :: '/' :: body)
  | block {body rest : List Char} (hbody : ¬['*', '/'] <:+: body) (h : IsGap last rest) :
      IsGap last ('/' :: '*' :: (body ++ '*' :: '/' :: rest))

namespace Cursor

variable {offset : Nat} {gap body rest : List Char} {c : Char}

/-! ## Skipping a gap -/

theorem skipGap_cons_of_ne (hc : c ≠ '/') (offset : Nat) (rest : List Char) :
    skipGap offset (c :: rest) =
      if isBlank c then skipGap (offset + c.utf8Size) rest else .ends ⟨c :: rest, offset⟩ := by
  rw [skipGap]
  · exact fun _ h _ => hc h
  · exact fun _ h _ => hc h

theorem skipLine_cons_of_ne (hc : c ≠ '\n') (offset : Nat) (rest : List Char) :
    skipLine offset (c :: rest) = skipLine (offset + c.utf8Size) rest := by
  rw [skipLine]
  exact hc

theorem skipLine_append (hbody : '\n' ∉ body) (offset : Nat) (rest : List Char) :
    skipLine offset (body ++ '\n' :: rest) = skipGap (offset + byteLength body + 1) rest := by
  induction body generalizing offset with
  | nil => rw [List.nil_append, skipLine, Text.byteLength_nil, Nat.add_zero]
  | cons c body ih =>
      obtain ⟨hc, hbody⟩ := List.ne_and_not_mem_of_not_mem_cons hbody
      rw [List.cons_append, skipLine_cons_of_ne (Ne.symm hc), ih hbody, Text.byteLength_cons,
        Nat.add_assoc offset]

theorem skipBlock_cons_of_not_closes (hc : c = '*' → rest.head? ≠ some '/') (opening : Cursor)
    (offset : Nat) :
    skipBlock opening offset (c :: rest) = skipBlock opening (offset + c.utf8Size) rest := by
  rw [skipBlock]
  rintro tail rfl rfl
  exact hc rfl rfl

theorem skipBlock_append (hbody : ¬['*', '/'] <:+: body) (opening : Cursor) (offset : Nat)
    (rest : List Char) :
    skipBlock opening offset (body ++ '*' :: '/' :: rest) =
      skipGap (offset + byteLength body + 2) rest := by
  induction body generalizing offset with
  | nil => rw [List.nil_append, skipBlock, Text.byteLength_nil, Nat.add_zero]
  | cons c body ih =>
      rw [List.infix_cons_iff, not_or] at hbody
      have hcloses : c = '*' → (body ++ '*' :: '/' :: rest).head? ≠ some '/' := by
        rintro rfl hhead
        cases body with
        | nil => cases hhead
        | cons d body =>
            cases hhead
            exact hbody.1 ⟨body, rfl⟩
      rw [List.cons_append, skipBlock_cons_of_not_closes hcloses, ih hbody.2,
        Text.byteLength_cons, Nat.add_assoc offset]

theorem ne_slash_of_isBlank (h : isBlank c = true) : c ≠ '/' := by
  rintro rfl
  revert h
  decide

/-- A gap is skipped, whatever follows. -/
theorem skipGap_append (h : IsGap false gap) (offset : Nat) (rest : List Char) :
    skipGap offset (gap ++ rest) = skipGap (offset + byteLength gap) rest := by
  induction h generalizing offset with
  | nil => rfl
  | blank hblank _ ih =>
      rw [List.cons_append, skipGap_cons_of_ne (ne_slash_of_isBlank hblank), if_pos hblank, ih,
        Text.byteLength_cons, Nat.add_assoc]
  | @line body gap hbody _ ih =>
      have hsize : byteLength ('/' :: '/' :: (body ++ '\n' :: gap)) =
          2 + byteLength body + 1 + byteLength gap := by
        simp only [Text.byteLength_cons, Text.byteLength_append, show '/'.utf8Size = 1 from rfl,
          show '\n'.utf8Size = 1 from rfl]
        omega
      rw [List.cons_append, List.cons_append, List.append_assoc, List.cons_append, skipGap,
        skipLine_append hbody, ih, hsize]
      congr 1
      omega
  | lastLine _ hlast => cases hlast
  | @block body gap hbody _ ih =>
      have hsize : byteLength ('/' :: '*' :: (body ++ '*' :: '/' :: gap)) =
          2 + byteLength body + 2 + byteLength gap := by
        simp only [Text.byteLength_cons, Text.byteLength_append, show '/'.utf8Size = 1 from rfl,
          show '*'.utf8Size = 1 from rfl]
        omega
      rw [List.cons_append, List.cons_append, List.append_assoc, List.cons_append, List.cons_append,
        skipGap, skipBlock_append hbody, ih, hsize]
      congr 1
      omega

/-! ## What was skipped -/

/-- A text in front of which there is no gap. -/
def OpensToken : List Char → Prop
  | [] => True
  | c :: rest => isBlank c = false ∧ (c = '/' → rest.head? ≠ some '/' ∧ rest.head? ≠ some '*')

theorem skipGap_of_opensToken {text : List Char} (h : OpensToken text) (offset : Nat) :
    skipGap offset text = .ends ⟨text, offset⟩ := by
  cases text with
  | nil => rw [skipGap]
  | cons c rest =>
      rw [skipGap]
      · rw [if_neg (by rw [h.1]; exact Bool.false_ne_true)]
      · rintro tail rfl rfl
        exact (h.2 rfl).1 rfl
      · rintro tail rfl rfl
        exact (h.2 rfl).2 rfl

/-- What is in front of no token begins with a blank or with a comment. -/
theorem opensComment (hblank : ¬isBlank c = true) (h : ¬OpensToken (c :: rest)) :
    c = '/' ∧ ((∃ tail, rest = '/' :: tail) ∨ ∃ tail, rest = '*' :: tail) := by
  refine Classical.byContradiction fun hno => h ⟨by simpa using hblank, fun hc => ⟨?_, ?_⟩⟩
  · exact fun hhead => hno ⟨hc, .inl (List.head?_eq_some_iff.1 hhead)⟩
  · exact fun hhead => hno ⟨hc, .inr (List.head?_eq_some_iff.1 hhead)⟩

theorem skipLine_of_notMem (hbody : '\n' ∉ body) (offset : Nat) :
    skipLine offset body = .ends ⟨[], offset + byteLength body⟩ := by
  induction body generalizing offset with
  | nil => rw [skipLine, Text.byteLength_nil, Nat.add_zero]
  | cons c body ih =>
      obtain ⟨hc, hbody⟩ := List.ne_and_not_mem_of_not_mem_cons hbody
      rw [skipLine_cons_of_ne (Ne.symm hc), ih hbody, Text.byteLength_cons, Nat.add_assoc]

theorem skipBlock_of_unclosed (hbody : ¬['*', '/'] <:+: body) (opening : Cursor) (offset : Nat) :
    skipBlock opening offset body = .unterminated opening := by
  induction body generalizing offset with
  | nil => rw [skipBlock]
  | cons c body ih =>
      rw [List.infix_cons_iff, not_or] at hbody
      have hcloses : c = '*' → body.head? ≠ some '/' := by
        rintro rfl hhead
        obtain ⟨tail, rfl⟩ := List.head?_eq_some_iff.1 hhead
        exact hbody.1 ⟨tail, rfl⟩
      rw [skipBlock_cons_of_not_closes hcloses, ih hbody.2]

/-- The first end of a comment in a text. -/
theorem exists_append_of_closed {text : List Char} (h : ['*', '/'] <:+: text) :
    ∃ body rest, text = body ++ '*' :: '/' :: rest ∧ ¬['*', '/'] <:+: body := by
  induction text with
  | nil => exact absurd (List.infix_nil.1 h) (List.cons_ne_nil _ _)
  | cons c text ih =>
      by_cases hfront : ['*', '/'] <+: c :: text
      · obtain ⟨rest, hrest⟩ := hfront
        exact ⟨[], rest, hrest.symm, fun hnil => List.cons_ne_nil _ _ (List.infix_nil.1 hnil)⟩
      · obtain ⟨body, rest, rfl, hbody⟩ := ih ((List.infix_cons_iff.1 h).resolve_left hfront)
        refine ⟨c :: body, rest, rfl, fun hinfix => ?_⟩
        refine (List.infix_cons_iff.1 hinfix).elim (fun hprefix => hfront ?_) hbody
        exact hprefix.trans ⟨'*' :: '/' :: rest, rfl⟩

/-- A skipped text is a gap, behind which a token or the end of the source begins. -/
structure Skipped (offset : Nat) (text : List Char) (cursor : Cursor) (gap : List Char) : Prop where
  text : text = gap ++ cursor.rest
  isGap : IsGap cursor.rest.isEmpty gap
  offset : cursor.offset = offset + byteLength gap
  opens : OpensToken cursor.rest

variable {text : List Char} {cursor : Cursor}

theorem Skipped.line (h : Skipped (offset + 2 + byteLength body + 1) text cursor gap)
    (hbody : '\n' ∉ body) :
    Skipped offset ('/' :: '/' :: (body ++ '\n' :: text)) cursor
      ('/' :: '/' :: (body ++ '\n' :: gap)) where
  text := by simp [h.text]
  isGap := .line hbody h.isGap
  offset := by
    simp only [h.offset, Text.byteLength_cons, Text.byteLength_append,
      show '/'.utf8Size = 1 from rfl, show '\n'.utf8Size = 1 from rfl]
    omega
  opens := h.opens

theorem Skipped.block (h : Skipped (offset + 2 + byteLength body + 2) text cursor gap)
    (hbody : ¬['*', '/'] <:+: body) :
    Skipped offset ('/' :: '*' :: (body ++ '*' :: '/' :: text)) cursor
      ('/' :: '*' :: (body ++ '*' :: '/' :: gap)) where
  text := by simp [h.text]
  isGap := .block hbody h.isGap
  offset := by
    simp only [h.offset, Text.byteLength_cons, Text.byteLength_append,
      show '/'.utf8Size = 1 from rfl, show '*'.utf8Size = 1 from rfl]
    omega
  opens := h.opens

theorem skipped_lastLine (hbody : '\n' ∉ body) :
    Skipped offset ('/' :: '/' :: body) ⟨[], offset + 2 + byteLength body⟩ ('/' :: '/' :: body) where
  text := (List.append_nil _).symm
  isGap := .lastLine hbody rfl
  offset := by
    simp only [Text.byteLength_cons, show '/'.utf8Size = 1 from rfl]
    omega
  opens := trivial

/-- By induction on the length of the text, one blank or one comment at a time. -/
theorem exists_skipped (h : skipGap offset text = .ends cursor) :
    ∃ gap, Skipped offset text cursor gap := by
  induction hlength : text.length using Nat.strongRecOn generalizing offset text with
  | _ length ih =>
      subst hlength
      by_cases hopens : OpensToken text
      · rw [skipGap_of_opensToken hopens] at h
        cases h
        exact ⟨[], rfl, .nil, rfl, hopens⟩
      obtain ⟨c, rest, rfl⟩ : ∃ c rest, text = c :: rest :=
        List.exists_cons_of_ne_nil fun hnil => hopens (hnil ▸ trivial)
      by_cases hblank : isBlank c = true
      · rw [skipGap_cons_of_ne (ne_slash_of_isBlank hblank), if_pos hblank] at h
        obtain ⟨gap, hgap⟩ := ih rest.length (by simp) h rfl
        refine ⟨c :: gap, ?_, .blank hblank hgap.isGap, ?_, hgap.opens⟩
        · rw [List.cons_append, ← hgap.text]
        · rw [hgap.offset, Text.byteLength_cons, Nat.add_assoc]
      -- Otherwise a comment begins here.
      obtain ⟨rfl, ⟨tail, rfl⟩ | ⟨tail, rfl⟩⟩ := opensComment hblank hopens
      · rw [skipGap] at h
        by_cases hmem : '\n' ∈ tail
        · obtain ⟨body, after, rfl, hbody⟩ := List.eq_append_cons_of_mem hmem
          rw [skipLine_append hbody] at h
          obtain ⟨gap, hgap⟩ := ih after.length (by simp; omega) h rfl
          exact ⟨_, hgap.line hbody⟩
        · rw [skipLine_of_notMem hmem] at h
          cases h
          exact ⟨_, skipped_lastLine hmem⟩
      · rw [skipGap] at h
        by_cases hclosed : ['*', '/'] <:+: tail
        · obtain ⟨body, after, rfl, hbody⟩ := exists_append_of_closed hclosed
          rw [skipBlock_append hbody] at h
          obtain ⟨gap, hgap⟩ := ih after.length (by simp; omega) h rfl
          exact ⟨_, hgap.block hbody⟩
        · rw [skipBlock_of_unclosed hclosed] at h
          cases h

end Cursor

end WordC.Token
