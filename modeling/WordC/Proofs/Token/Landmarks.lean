import WordC.Proofs.Token.Printing

/-!
# Landmarks

A source is read token by token. Where a token begins, where the reading fails and where the source
ends are the places that errors point at. All of them lie between two characters.
-/

namespace WordC

theorem Position.locate?_byteLength {source : String} {front back : List Char}
    (h : source.toList = front ++ back) :
    locate? source (Text.byteLength front) = some (front.foldl after start) := by
  rw [locate?, h, advance?_byteLength]

namespace Token

open Text (byteLength)

variable {source : String} {cursor after opening here : Cursor} {token : Token} {error : Error}
  {offset : Nat} {text : List Char}

/-! ## Comments that are not closed -/

/-- By induction on the length of the text, one blank or one comment at a time. -/
theorem Cursor.exists_unclosed (h : skipGap offset text = .unterminated opening) :
    ∃ gap back, text = gap ++ '/' :: '*' :: back ∧ IsGap false gap ∧ ¬['*', '/'] <:+: back ∧
      opening = ⟨'/' :: '*' :: back, offset + byteLength gap⟩ := by
  induction hlength : text.length using Nat.strongRecOn generalizing offset text with
  | _ length ih =>
      subst hlength
      by_cases hopens : OpensToken text
      · rw [skipGap_of_opensToken hopens] at h
        cases h
      obtain ⟨c, rest, rfl⟩ : ∃ c rest, text = c :: rest :=
        List.exists_cons_of_ne_nil fun hnil => hopens (hnil ▸ trivial)
      by_cases hblank : Text.isBlank c = true
      · rw [skipGap_cons_of_ne (ne_slash_of_isBlank hblank), if_pos hblank] at h
        obtain ⟨gap, back, rfl, hgap, hopen, rfl⟩ := ih rest.length (by simp) h rfl
        refine ⟨c :: gap, back, rfl, .blank hblank hgap, hopen, ?_⟩
        rw [Text.byteLength_cons, Nat.add_assoc]
      obtain ⟨rfl, ⟨tail, rfl⟩ | ⟨tail, rfl⟩⟩ := opensComment hblank hopens
      · rw [skipGap] at h
        by_cases hmem : '\n' ∈ tail
        · obtain ⟨body, after, rfl, hbody⟩ := List.eq_append_cons_of_mem hmem
          rw [skipLine_append hbody] at h
          obtain ⟨gap, back, rfl, hgap, hopen, rfl⟩ := ih after.length (by simp; omega) h rfl
          refine ⟨'/' :: '/' :: (body ++ '\n' :: gap), back, by simp, .line hbody hgap, hopen, ?_⟩
          simp only [Text.byteLength_cons, Text.byteLength_append, show '/'.utf8Size = 1 from rfl,
            show '\n'.utf8Size = 1 from rfl, Cursor.mk.injEq, true_and]
          omega
        · rw [skipLine_of_notMem hmem] at h
          cases h
      · rw [skipGap] at h
        by_cases hclosed : ['*', '/'] <:+: tail
        · obtain ⟨body, after, rfl, hbody⟩ := exists_append_of_closed hclosed
          rw [skipBlock_append hbody] at h
          obtain ⟨gap, back, rfl, hgap, hopen, rfl⟩ := ih after.length (by simp; omega) h rfl
          refine ⟨'/' :: '*' :: (body ++ '*' :: '/' :: gap), back, by simp, .block hbody hgap, hopen,
            ?_⟩
          simp only [Text.byteLength_cons, Text.byteLength_append, show '/'.utf8Size = 1 from rfl,
            show '*'.utf8Size = 1 from rfl, Cursor.mk.injEq, true_and]
          omega
        · rw [skipBlock_of_unclosed hclosed] at h
          cases h
          exact ⟨[], tail, rfl, .nil, hclosed, rfl⟩

/-! ## Places that are read -/

/-- The reader gets to a place of the source, from its beginning token by token. -/
inductive Gets (source : String) : Cursor → Prop where
  | start : Gets source { rest := source.toList, offset := 0 }
  | next {cursor after : Cursor} {token : Token} (h : Gets source cursor)
      (hnext : cursor.next source = (.ok token, after)) (hkind : token.kind ≠ .endOfInput) :
      Gets source after

theorem Gets.split (h : Gets source cursor) :
    ∃ front, source.toList = front ++ cursor.rest ∧ cursor.offset = byteLength front := by
  induction h with
  | start => exact ⟨[], rfl, rfl⟩
  | @next cursor after token _ hnext hkind ih =>
      obtain ⟨front, hsource, hoffset⟩ := ih
      rcases Cursor.next_cases hnext with ⟨-, gap, cls, htakes⟩ | ⟨hend, -⟩
      · refine ⟨front ++ (gap ++ token.text.toList), ?_, ?_⟩
        · rw [hsource, htakes.rest]
          simp only [List.append_assoc]
        · rw [htakes.stop, Token.stop, htakes.start, hoffset, ← Text.byteLength_toList]
          simp only [Text.byteLength_append]
          omega
      · exact absurd hend hkind

/-- A gap behind a place that is read ends between two characters. -/
theorem Gets.split_gap (h : Gets source cursor) (hgap : cursor.gap = .ends here) :
    ∃ front, source.toList = front ++ here.rest ∧ here.offset = byteLength front := by
  obtain ⟨front, hsource, hoffset⟩ := h.split
  obtain ⟨gap, hskipped⟩ := Cursor.exists_skipped hgap
  refine ⟨front ++ gap, ?_, ?_⟩
  · rw [hsource, hskipped.text, List.append_assoc]
  · rw [hskipped.offset, hoffset, Text.byteLength_append]

/-! ## Landmarks -/

/-- The offsets that an error may point at. -/
inductive Landmark (source : String) : Nat → Prop where
  /-- A token begins. -/
  | token {cursor after : Cursor} {token : Token} (h : Gets source cursor)
      (hnext : cursor.next source = (.ok token, after)) (hkind : token.kind ≠ .endOfInput) :
      Landmark source token.start
  /-- A comment begins that is not closed. -/
  | comment {cursor : Cursor} {front back : List Char} (h : Gets source cursor)
      (hgap : cursor.gap = .unterminated ⟨'/' :: '*' :: back, byteLength front⟩)
      (hsource : source.toList = front ++ '/' :: '*' :: back) (hopen : ¬['*', '/'] <:+: back) :
      Landmark source (byteLength front)
  /-- A text begins that is no token. -/
  | unscannable {cursor : Cursor} {front back : List Char} (h : Gets source cursor)
      (hgap : cursor.gap = .ends ⟨back, byteLength front⟩)
      (hsource : source.toList = front ++ back) (hback : back ≠ [])
      (hnone : ∀ cls lexeme rest, Class.first? back = some (cls, lexeme, rest) →
        cls.build? lexeme = none) :
      Landmark source (byteLength front)
  /-- The source is over. -/
  | ending : Landmark source source.utf8ByteSize

/-- A landmark has a position: it does not lie inside a character. -/
theorem Landmark.exists_locate (h : Landmark source offset) :
    ∃ position, Position.locate? source offset = some position := by
  cases h with
  | @token cursor after token h hnext hkind =>
      obtain ⟨front, hsource, hoffset⟩ := h.split
      rcases Cursor.next_cases hnext with ⟨-, gap, cls, htakes⟩ | ⟨hend, -⟩
      · have hsplit : source.toList = (front ++ gap) ++ (token.text.toList ++ after.rest) := by
          rw [hsource, htakes.rest, List.append_assoc]
        rw [htakes.start, hoffset, ← Text.byteLength_append]
        exact ⟨_, Position.locate?_byteLength hsplit⟩
      · exact absurd hend hkind
  | comment _ _ hsource _ => exact ⟨_, Position.locate?_byteLength hsource⟩
  | unscannable _ _ hsource _ _ => exact ⟨_, Position.locate?_byteLength hsource⟩
  | ending =>
      rw [← Text.byteLength_toList]
      exact ⟨_, Position.locate?_byteLength (List.append_nil _).symm⟩

end Token

/-- The position of a landmark. -/
def Position.IsLandmark (source : String) (position : Position) : Prop :=
  ∃ offset, Token.Landmark source offset ∧ locate? source offset = some position

theorem Token.Landmark.position {source : String} {offset : Nat}
    (h : Token.Landmark source offset) :
    (Position.locate source offset).IsLandmark source := by
  obtain ⟨position, hlocate⟩ := h.exists_locate
  refine ⟨offset, h, ?_⟩
  rw [Position.locate, hlocate, Option.getD_some]

/-- The errors of the compiler: five point at a landmark of the source, one names a full segment. -/
inductive Error.Reports (source : String) : Error → Prop where
  | unterminatedComment {position : Position} (h : position.IsLandmark source) :
      Reports source (.unterminatedComment position)
  | unexpectedSymbol {found : String} {expected : Expected} {position : Position}
      (h : position.IsLandmark source) : Reports source (.unexpectedSymbol found expected position)
  | duplicateDeclaration {name : String} {position : Position} (h : position.IsLandmark source) :
      Reports source (.duplicateDeclaration name position)
  | undefinedName {name : String} {position : Position} (h : position.IsLandmark source) :
      Reports source (.undefinedName name position)
  | argumentCount {name : String} {expected found : Nat} {position : Position}
      (h : position.IsLandmark source) :
      Reports source (.argumentCount name expected found position)
  | segmentFull {segment : Segment} : Reports source (.segmentFull segment)

namespace Token

open Text (byteLength)

variable {source : String} {cursor : Cursor}

theorem Gets.reports {error : Error} {after : Cursor} (h : Gets source cursor)
    (hnext : cursor.next source = (.error error, after)) : error.Reports source := by
  unfold Cursor.next at hnext
  cases hgap : cursor.gap with
  | unterminated opening =>
      rw [hgap] at hnext
      cases hnext
      obtain ⟨front, hsource, hoffset⟩ := h.split
      obtain ⟨gap, back, hrest, -, hopen, rfl⟩ := Cursor.exists_unclosed hgap
      have hsplit : source.toList = (front ++ gap) ++ '/' :: '*' :: back := by
        rw [hsource, hrest, List.append_assoc]
      simp only [hoffset, ← Text.byteLength_append] at hgap ⊢
      exact .unterminatedComment (Landmark.comment h hgap hsplit hopen).position
  | ends here =>
      obtain ⟨front, hsource, hoffset⟩ := h.split_gap hgap
      have hhere : cursor.gap = .ends ⟨here.rest, byteLength front⟩ := by rw [hgap, ← hoffset]
      have hmark (hrest : here.rest ≠ []) (hnone : ∀ cls lexeme rest,
          Class.first? here.rest = some (cls, lexeme, rest) → cls.build? lexeme = none) :
          (Position.locate source here.offset).IsLandmark source := by
        rw [hoffset]
        exact (Landmark.unscannable h hhere hsource hrest hnone).position
      rw [hgap] at hnext
      dsimp only at hnext
      split at hnext
      · cases hnext
      · next c rest htext =>
          have hrest : here.rest ≠ [] := by
            rw [htext]
            exact List.cons_ne_nil _ _
          split at hnext
          · next hfirst =>
              cases hnext
              refine .unexpectedSymbol (hmark hrest fun cls lexeme rest hsome => ?_)
              cases hfirst.symm.trans hsome
          · next cls lexeme behind hfirst =>
              split at hnext
              · next hbuild =>
                  cases hnext
                  refine .unexpectedSymbol (hmark hrest fun cls' lexeme' rest' hsome => ?_)
                  cases hfirst.symm.trans hsome
                  exact hbuild
              · cases hnext

theorem Gets.ending {after : Cursor} {token : Token} (h : Gets source cursor)
    (hnext : cursor.next source = (.ok token, after)) (hkind : token.kind = .endOfInput) :
    token.start = source.utf8ByteSize := by
  unfold Cursor.next at hnext
  cases hgap : cursor.gap with
  | unterminated opening =>
      rw [hgap] at hnext
      cases hnext
  | ends here =>
      obtain ⟨front, hsource, hoffset⟩ := h.split_gap hgap
      rw [hgap] at hnext
      dsimp only at hnext
      split at hnext
      · next hrest =>
          cases hnext
          rw [← Text.byteLength_toList, hsource, hrest, List.append_nil]
          exact hoffset
      · split at hnext
        · cases hnext
        · split at hnext
          · cases hnext
          · next kind hbuild =>
              cases hnext
              exact absurd hkind (Class.of_build? hbuild).1

theorem Stream.read_cases (source : String) (cursor : Cursor) :
    (∃ error after, cursor.next source = (.error error, after) ∧
        read source cursor = .failed error) ∨
      (∃ token after, cursor.next source = (.ok token, after) ∧ token.kind = .endOfInput ∧
        read source cursor = .done token.start) ∨
      ∃ token after, cursor.next source = (.ok token, after) ∧ token.kind ≠ .endOfInput ∧
        read source cursor = .cons token (read source after) := by
  cases hnext : cursor.next source with
  | mk result after =>
      cases result with
      | error error => exact .inl ⟨error, after, rfl, read_of_error hnext⟩
      | ok token =>
          by_cases hkind : token.kind = .endOfInput
          · exact .inr (.inl ⟨token, after, rfl, hkind, read_of_end hnext hkind⟩)
          · exact .inr (.inr ⟨token, after, rfl, hkind, read_of_token hnext hkind⟩)

/-- The stream is what is read from some place of the source on. -/
def Stream.IsRest (source : String) (stream : Stream) : Prop :=
  ∃ cursor, Gets source cursor ∧ stream = read source cursor

namespace Stream.IsRest

theorem ofSource (source : String) : (Stream.ofSource source).IsRest source :=
  ⟨_, .start, rfl⟩

theorem done {offset : Nat} (h : (Stream.done offset).IsRest source) :
    Landmark source offset := by
  obtain ⟨cursor, hgets, hread⟩ := h
  rcases read_cases source cursor with
    ⟨error, after, -, hcase⟩ | ⟨token, after, hnext, hkind, hcase⟩ | ⟨token, after, -, -, hcase⟩
  · cases hread.trans hcase
  · cases hread.trans hcase
    rw [hgets.ending hnext hkind]
    exact .ending
  · cases hread.trans hcase

theorem failed {error : Error} (h : (Stream.failed error).IsRest source) :
    error.Reports source := by
  obtain ⟨cursor, hgets, hread⟩ := h
  rcases read_cases source cursor with
    ⟨error, after, hnext, hcase⟩ | ⟨token, after, -, -, hcase⟩ | ⟨token, after, -, -, hcase⟩
  · cases hread.trans hcase
    exact hgets.reports hnext
  · cases hread.trans hcase
  · cases hread.trans hcase

theorem cons {token : Token} {rest : Stream} (h : (Stream.cons token rest).IsRest source) :
    token.kind ≠ .endOfInput ∧ Landmark source token.start ∧ rest.IsRest source := by
  obtain ⟨cursor, hgets, hread⟩ := h
  rcases read_cases source cursor with
    ⟨error, after, -, hcase⟩ | ⟨token, after, -, -, hcase⟩ | ⟨token, after, hnext, hkind, hcase⟩
  · cases hread.trans hcase
  · cases hread.trans hcase
  · cases hread.trans hcase
    exact ⟨hkind, .token hgets hnext hkind, after, hgets.next hnext hkind, rfl⟩

end Stream.IsRest

end Token

end WordC
