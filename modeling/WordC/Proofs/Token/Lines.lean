import WordC.Proofs.Token.Joints

/-!
# Texts on lines of their own

No token goes over the end of a line, and a comment to the end of the line ends there. So a text is
read alike whether or not lines follow it, and the tokens of two texts, one on the lines behind the
other, are the tokens of the one and then those of the other. Only a comment that is left open in
the first text may be closed in the second.
-/

namespace WordC

namespace Token

open Text (byteLength)

namespace Class

variable {quote : Char}

/-! ## The classes -/

/-- What a class takes from a text, with a line break and another text left behind it. -/
def withLine (behind : List Char) (split : List Char × List Char) : List Char × List Char :=
  (split.1, split.2 ++ '\n' :: behind)

theorem closing?_line (hescape : quote ≠ '\\') (hline : quote ≠ '\n') (input behind : List Char) :
    closing? quote (input ++ '\n' :: behind) = (closing? quote input).map (withLine behind) := by
  fun_induction closing? quote input with
  | case1 =>
      rw [List.nil_append, closing?, if_neg (Ne.symm hline), if_pos (by simp)]
      · rfl
      · exact fun _ _ heq _ => absurd heq (by decide)
  | case2 => rw [List.cons_append, List.cons_append, closing?, if_pos rfl, Option.map_none]
  | case3 c rest hc ih =>
      rw [List.cons_append, List.cons_append, closing?, if_neg hc, ih]
      cases closing? quote rest <;> rfl
  | case4 =>
      rw [List.cons_append, closing?, if_pos rfl]
      · rfl
      · exact fun _ _ heq _ => hescape heq
  | case5 c rest hnot hc hstop =>
      rw [Option.map_none, List.cons_append]
      by_cases hbackslash : c = '\\'
      · -- Only the end of the text keeps a backslash from taking something with it.
        obtain rfl : rest = [] := by
          cases rest with
          | nil => rfl
          | cons d tail => exact (hnot d tail hbackslash rfl).elim
        rw [hbackslash, List.nil_append, closing?, if_pos rfl]
      · rw [closing?, if_neg hc, if_pos hstop]
        exact fun _ _ heq _ => hbackslash heq
  | case6 c rest _ hc hstop ih =>
      rw [List.cons_append, closing?, if_neg hc, if_neg hstop, ih]
      · cases closing? quote rest <;> rfl
      · rintro _ _ rfl -
        exact hstop (by simp)

theorem literal?_line (hescape : quote ≠ '\\') (hline : quote ≠ '\n') (input behind : List Char) :
    literal? quote (input ++ '\n' :: behind) = (literal? quote input).map (withLine behind) := by
  cases input with
  | nil => exact if_neg (Ne.symm hline)
  | cons c rest =>
      rw [List.cons_append, literal?, literal?, closing?_line hescape hline]
      split
      · cases closing? quote rest <;> rfl
      · rfl

theorem number?_line (input behind : List Char) :
    number? (input ++ '\n' :: behind) = (number? input).map (withLine behind) :=
  number?_behind (stops_of_isBlank (by decide)) input behind

theorem spelled?_line (marks : List Punctuator) (input behind : List Char) :
    spelled? (marks.map (·.text)) (input ++ '\n' :: behind) =
      (spelled? (marks.map (·.text)) input).map (withLine behind) := by
  rw [spelled?, spelled?, List.findSome?_map, List.findSome?_map, List.map_findSome?]
  congr 1
  funext mark
  have hmark : '\n' ∉ mark.text.toList := by cases mark <;> decide
  simp only [Function.comp_apply, isPrefixOf?_behind hmark, Option.map_map]
  rfl

theorem keyword?_line (input behind : List Char) :
    keyword? (input ++ '\n' :: behind) = (keyword? input).map (withLine behind) :=
  keyword?_behind (stops_of_isBlank (by decide)) input behind

theorem identifier?_line (input behind : List Char) :
    identifier? (input ++ '\n' :: behind) = (identifier? input).map (withLine behind) :=
  identifier?_behind (stops_of_isBlank (by decide)) input behind

/-- A line break stops every class. -/
theorem split?_line (cls : Class) (input behind : List Char) :
    cls.split? (input ++ '\n' :: behind) = (cls.split? input).map (withLine behind) := by
  cases cls with
  | number => exact number?_line input behind
  | character | string => exact literal?_line (by decide) (by decide) input behind
  | keyword => exact keyword?_line input behind
  | identifier => exact identifier?_line input behind
  | operator | symbol => exact spelled?_line _ input behind

theorem first?_line (input behind : List Char) :
    first? (input ++ '\n' :: behind) =
      (first? input).map fun found => (found.1, withLine behind found.2) := by
  rw [first?, first?, List.map_findSome?]
  congr 1
  funext cls
  rw [Function.comp_apply, split?_line, Option.map_map, Option.map_map]
  rfl

end Class

variable {source : String} {cursor after : Cursor} {token : Token} {gap text : List Char}
  {last : Bool} {cls : Class} {tokens whole : List Token}

/-! ## One reading -/

theorem IsGap.line_break (h : IsGap last gap) : IsGap false (gap ++ ['\n']) := by
  induction h with
  | nil => exact .blank (by decide) .nil
  | blank hblank _ ih => exact .blank hblank ih
  | @line body rest hbody _ ih =>
      have htext : '/' :: '/' :: (body ++ '\n' :: rest) ++ ['\n'] =
          '/' :: '/' :: (body ++ '\n' :: (rest ++ ['\n'])) := by simp
      exact htext ▸ .line hbody ih
  | lastLine hbody => exact .line hbody .nil
  | @block body rest hbody _ ih =>
      have htext : '/' :: '*' :: (body ++ '*' :: '/' :: rest) ++ ['\n'] =
          '/' :: '*' :: (body ++ '*' :: '/' :: (rest ++ ['\n'])) := by simp
      exact htext ▸ .block hbody ih

theorem Cursor.OpensToken.line (h : OpensToken text) (hne : text ≠ []) (behind : List Char) :
    OpensToken (text ++ '\n' :: behind) :=
  opensToken_append h hne (stops_of_isBlank (by decide)) behind

/-- A token is read alike when a line follows. -/
theorem Takes.line (h : Takes cursor after token gap cls) (offset : Nat) (behind : List Char) :
    ∃ token' stop, token'.kind = token.kind ∧
      Takes ⟨cursor.rest ++ '\n' :: behind, offset⟩ ⟨after.rest ++ '\n' :: behind, stop⟩ token' gap
        cls := by
  have hne : token.text.toList ++ after.rest ≠ [] := fun hnil =>
    (Class.splits_of_first? h.first).2 (List.append_eq_nil_iff.1 hnil).1
  let token' := { token with start := offset + byteLength gap }
  refine ⟨token', token'.stop, rfl, ?_⟩
  exact
    { rest := by rw [h.rest, List.append_assoc, List.append_assoc]
      isGap := h.isGap
      opens := by
        have hopens := h.opens.line hne behind
        rwa [List.append_assoc] at hopens
      start := rfl
      stop := rfl
      first := by
        have hfirst := Class.first?_line (token.text.toList ++ after.rest) behind
        rwa [h.first, List.append_assoc] at hfirst
      kind := h.kind }

/-- No end of a comment begins at the end of a line. -/
theorem not_closed_line {body behind : List Char} (hbody : ¬['*', '/'] <:+: body)
    (hbehind : ¬['*', '/'] <:+: behind) : ¬['*', '/'] <:+: body ++ '\n' :: behind := by
  induction body with
  | nil =>
      rw [List.nil_append, List.infix_cons_iff, not_or]
      exact ⟨by simp, hbehind⟩
  | cons c body ih =>
      rw [List.infix_cons_iff, not_or] at hbody
      rw [List.cons_append, List.infix_cons_iff, not_or]
      refine ⟨fun hprefix => hbody.1 ?_, ih hbody.2⟩
      cases body with
      | nil => simp at hprefix
      | cons d body => simpa using hprefix

/-- What cannot be read cannot be read either when a line follows that does not end a comment. -/
theorem Cursor.next_line_of_error {error : Error} {behind : List Char}
    (h : cursor.next source = (.error error, after)) (hbehind : ¬['*', '/'] <:+: behind)
    (source' : String) (offset : Nat) :
    ∃ error' after', next source' ⟨cursor.rest ++ '\n' :: behind, offset⟩ =
      (.error error', after') := by
  unfold next at h ⊢
  cases hgap : cursor.gap with
  | unterminated opening =>
      obtain ⟨gap, body, hrest, hisGap, hbody, -⟩ := exists_unclosed hgap
      have hopen : (Cursor.mk (cursor.rest ++ '\n' :: behind) offset).gap = .unterminated
          ⟨'/' :: '*' :: (body ++ '\n' :: behind), offset + byteLength gap⟩ := by
        rw [Cursor.gap, hrest, List.append_assoc, skipGap_append hisGap, List.cons_append,
          List.cons_append, skipGap, skipBlock_of_unclosed (not_closed_line hbody hbehind)]
      rw [hopen]
      exact ⟨_, _, rfl⟩
  | ends here =>
      obtain ⟨gap, hskipped⟩ := exists_skipped hgap
      rw [hgap] at h
      dsimp only at h
      cases hrest : here.rest with
      | nil =>
          rw [hrest] at h
          cases h
      | cons c tail =>
          have hopens := hskipped.opens
          have hisGap := hskipped.isGap
          rw [hrest] at h hopens hisGap
          have hline : (Cursor.mk (cursor.rest ++ '\n' :: behind) offset).gap =
              .ends ⟨c :: tail ++ '\n' :: behind, offset + byteLength gap⟩ :=
            gap_append hisGap (hopens.line (List.cons_ne_nil _ _) behind)
              (by rw [hskipped.text, hrest, List.append_assoc])
          rw [hline]
          have hfirst := Class.first?_line (c :: tail) behind
          dsimp only at h ⊢
          rw [List.cons_append] at hfirst ⊢
          dsimp only
          rw [hfirst]
          cases hfound : Class.first? (c :: tail) with
          | none => exact ⟨_, _, rfl⟩
          | some found =>
              obtain ⟨cls, lexeme, rest⟩ := found
              rw [hfound] at h
              dsimp only [Option.map_some, Class.withLine] at h ⊢
              cases hbuild : cls.build? lexeme with
              | none => exact ⟨_, _, rfl⟩
              | some kind =>
                  rw [hbuild] at h
                  cases h

/-! ## All readings -/

/-- The same tokens are read in front of the lines that follow, and then these are read. -/
theorem Takings.exists_read_line (h : Takings cursor tokens) (source : String) (offset : Nat)
    (behind : List Char) :
    ∃ (tokens' : List Token) (stop : Nat), tokens'.map (·.kind) = tokens.map (·.kind) ∧
      Stream.read source ⟨cursor.rest ++ '\n' :: behind, offset⟩ =
        tokens'.foldr Stream.cons (Stream.read source ⟨behind, stop⟩) := by
  induction h generalizing offset with
  | @done cursor hgap =>
      refine ⟨[], offset + byteLength (cursor.rest ++ ['\n']), rfl, Stream.read_of_next ?_⟩
      rw [← Cursor.next_of_gap hgap.line_break, List.append_assoc, List.singleton_append]
  | token htakes _ ih =>
      obtain ⟨token', middle, hsame, htakes'⟩ := htakes.line offset behind
      obtain ⟨tokens', stop, hkinds, hread⟩ := ih middle
      refine ⟨token' :: tokens', stop, by rw [List.map_cons, List.map_cons, hsame, hkinds], ?_⟩
      rw [Stream.read_of_token (htakes'.next_eq source) (Class.of_build? htakes'.kind).1, hread,
        List.foldr_cons]

theorem Scans.lines {front back : List Char} {kinds kinds' : List Kind} (hfront : Scans front kinds)
    (hback : Scans back kinds') : Scans (front ++ '\n' :: back) (kinds ++ kinds') := by
  obtain ⟨tokens, htokens, rfl⟩ := hfront.exists_read "" 0
  obtain ⟨tokens', stop, hkinds, hread⟩ :=
    (takings_of_read htokens).exists_read_line "" 0 back
  obtain ⟨others, hothers, rfl⟩ := hback.exists_read "" stop
  rw [← hkinds, ← List.map_append]
  refine @scans_of_read _ "" 0 _ ?_
  rw [hread, Stream.toList?_foldr, hothers]
  rfl

/-- By induction on the readings of the text: none of them can fail. -/
theorem exists_read_of_line {source' : String} {offset : Nat} {behind : List Char}
    (h : (Stream.read source' ⟨cursor.rest ++ '\n' :: behind, offset⟩).toList? = .ok whole)
    (hbehind : ¬['*', '/'] <:+: behind) (source : String) :
    ∃ tokens, (Stream.read source cursor).toList? = .ok tokens := by
  induction cursor using Stream.read.induct source generalizing offset whole with
  | case1 cursor error after hnext =>
      obtain ⟨error', after', hnext'⟩ := Cursor.next_line_of_error hnext hbehind source' offset
      rw [Stream.read_of_error hnext'] at h
      cases h
  | case2 cursor token after hnext hkind =>
      rw [Stream.read_of_end hnext hkind]
      exact ⟨[], rfl⟩
  | case3 cursor token after hnext hkind ih =>
      rcases Cursor.next_cases hnext with ⟨-, gap, cls, htakes⟩ | ⟨hend, -⟩
      · obtain ⟨token', middle, hsame, htakes'⟩ := htakes.line offset behind
        rw [Stream.read_of_token (htakes'.next_eq source') (hsame ▸ hkind)] at h
        obtain ⟨others, hothers, -⟩ := Stream.toList?_cons h
        obtain ⟨tokens, htokens⟩ := ih hothers
        refine ⟨token :: tokens, ?_⟩
        rw [Stream.read_of_token hnext hkind, Stream.toList?, htokens]
        rfl
      · exact absurd hend hkind

end Token

open Token

variable {front back : String} {tokens whole : List Token}

/-- The tokens of two texts, one on the lines behind the other. -/
theorem tokenize_lines (hfront : tokenize front = .ok tokens)
    (hwhole : tokenize (front ++ "\n" ++ back) = .ok whole) :
    ∃ others, tokenize back = .ok others ∧
      whole.map (·.kind) = tokens.map (·.kind) ++ others.map (·.kind) := by
  obtain ⟨tokens', stop, hkinds, hread⟩ :=
    (takings_of_read hfront).exists_read_line (front ++ "\n" ++ back) 0 back.toList
  have htext : (front ++ "\n" ++ back).toList = front.toList ++ '\n' :: back.toList := by
    simp
  rw [tokenize, Stream.ofSource, htext, hread, Stream.toList?_foldr] at hwhole
  obtain ⟨behind, hbehind, rfl⟩ := Except.exists_of_map_eq_ok hwhole
  have hstart : (Cursor.mk back.toList 0).rest = (Cursor.mk back.toList stop).rest := rfl
  obtain ⟨others, hothers, hsame⟩ := Stream.toList?_read_of_rest back hbehind hstart
  exact ⟨others, hothers, by rw [List.map_append, hkinds, hsame]⟩

theorem tokenize_of_lines (hwhole : tokenize (front ++ "\n" ++ back) = .ok whole)
    (hback : ¬['*', '/'] <:+: back.toList) : ∃ tokens, tokenize front = .ok tokens := by
  have htext : (front ++ "\n" ++ back).toList = front.toList ++ '\n' :: back.toList := by
    simp
  rw [tokenize, Stream.ofSource, htext] at hwhole
  exact exists_read_of_line hwhole hback front

end WordC
