import WordC.Proofs.Token.Landmarks
import WordC.Proofs.Token.Offsets

/-!
# Texts behind one another

Where a text is followed by a character that no token goes on with, its tokens are read as if nothing
followed, and what follows is read as if it stood alone. That is so unless the text ends in a comment
to the end of its line, which goes on.
-/

namespace WordC.Token

open Text (byteLength isBlank)

/-- A character that no token goes on with. -/
def Stops (stop : Char) : Prop :=
  ∀ kind : Kind, kind.continues stop = false

variable {stop : Char}

theorem Stops.isHexDigit (h : Stops stop) : Class.isHexDigit stop = false :=
  (Bool.or_eq_false_iff.1 (h (.number 0))).1

theorem Stops.isHexMark (h : Stops stop) : Class.isHexMark stop = false :=
  (Bool.or_eq_false_iff.1 (h (.number 0))).2

theorem Stops.isDigit (h : Stops stop) : Class.isDigit stop = false :=
  (Bool.or_eq_false_iff.1 (Bool.or_eq_false_iff.1 h.isHexDigit).1).1

theorem Stops.isWordChar (h : Stops stop) : Text.isWordChar stop = false :=
  h (.identifier "")

theorem Stops.isNamePart (h : Stops stop) : Class.isNamePart stop = false :=
  Bool.eq_false_iff.2 fun hpart =>
    Bool.eq_false_iff.1 h.isWordChar (Class.isWordChar_of_isNamePart hpart)

theorem Stops.marks (h : Stops stop) : stop ∉ Class.seconds ∧ stop ≠ '/' ∧ stop ≠ '*' := by
  have hmark := h (.punctuator .slash)
  simp only [Kind.continues, Bool.or_eq_false_iff, decide_eq_false_iff_not] at hmark
  exact ⟨fun hmem => by simp [hmem] at hmark, hmark.1.2, hmark.2⟩

theorem stops_of_isBlank (h : isBlank stop = true) : Stops stop := by
  have hparted : Class.Parted [stop] := by
    rintro c ⟨⟩
    exact h
  exact fun kind => hparted.apart kind stop rfl

theorem stops_semicolon : Stops ';' := by
  intro kind
  cases kind <;> rfl

namespace Class

variable {cls : Class} {test : Char → Bool} {quote : Char}
  {input spelling lexeme after behind : List Char} {split : List Char × List Char}

/-! ## The classes -/

/-- What a class takes from a text, with another text left behind it. -/
def leaving (behind : List Char) (split : List Char × List Char) : List Char × List Char :=
  (split.1, split.2 ++ behind)

theorem spanOf?_behind (htest : test stop = false) (input behind : List Char) :
    spanOf? test (input ++ stop :: behind) =
      (spanOf? test input).map (leaving (stop :: behind)) := by
  have hspan : (input ++ stop :: behind).takeWhile test = input.takeWhile test ∧
      (input ++ stop :: behind).dropWhile test = input.dropWhile test ++ stop :: behind := by
    induction input with
    | nil => simp [htest]
    | cons c input ih =>
        cases hc : test c with
        | true => simp [hc, ih]
        | false => simp [hc]
  rw [spanOf?, spanOf?, hspan.1, hspan.2]
  cases (input.takeWhile test).isEmpty <;> rfl

theorem number?_of_not_isHexMark
    (h : ∀ x rest, input = '0' :: x :: rest → isHexMark x = false) :
    number? input = spanOf? isDigit input := by
  unfold number?
  split
  · next x rest =>
      rw [h x rest rfl]
      rfl
  · rfl

theorem number?_behind (h : Stops stop) (input behind : List Char) :
    number? (input ++ stop :: behind) = (number? input).map (leaving (stop :: behind)) := by
  by_cases hhex : ∃ x rest, input = '0' :: x :: rest ∧ isHexMark x = true
  · obtain ⟨x, rest, rfl, hx⟩ := hhex
    rw [List.cons_append, List.cons_append, number?, number?, hx, if_pos rfl, if_pos rfl,
      spanOf?_behind h.isHexDigit, ← List.cons_append, ← List.cons_append,
      spanOf?_behind h.isDigit]
    cases spanOf? isHexDigit rest <;> rfl
  · have hinput : ∀ x rest, input = '0' :: x :: rest → isHexMark x = false := by
      intro x rest hsplit
      exact Bool.eq_false_iff.2 fun hx => hhex ⟨x, rest, hsplit, hx⟩
    have hwhole : ∀ x rest, input ++ stop :: behind = '0' :: x :: rest → isHexMark x = false := by
      intro x rest hsplit
      rcases input with _ | ⟨c, _ | ⟨d, tail⟩⟩
      · obtain ⟨rfl, -⟩ := List.cons.inj hsplit
        exact absurd h.isDigit (by decide)
      · obtain ⟨-, hrest⟩ := List.cons.inj hsplit
        obtain ⟨rfl, -⟩ := List.cons.inj hrest
        exact h.isHexMark
      · cases hsplit
        exact hinput x tail rfl
    rw [number?_of_not_isHexMark hinput, number?_of_not_isHexMark hwhole, spanOf?_behind h.isDigit]

/-- A spelling does not go over a character that is not in it. -/
theorem isPrefixOf?_behind (hspelling : stop ∉ spelling) (input behind : List Char) :
    spelling.isPrefixOf? (input ++ stop :: behind) =
      (spelling.isPrefixOf? input).map (· ++ stop :: behind) := by
  induction spelling generalizing input with
  | nil => rfl
  | cons c spelling ih =>
      obtain ⟨hc, hspelling⟩ := List.ne_and_not_mem_of_not_mem_cons hspelling
      cases input with
      | nil => exact if_neg (by simpa using Ne.symm hc)
      | cons d input =>
          have hcons (rest : List Char) : (c :: spelling).isPrefixOf? (d :: rest) =
              if c == d then spelling.isPrefixOf? rest else none := rfl
          rw [List.cons_append, hcons, hcons, ih hspelling]
          split <;> rfl

/-- Nor does it go over one that only begins it, unless it begins there. -/
theorem isPrefixOf?_tail_behind (hspelling : stop ∉ spelling.tail) (hne : input ≠ [])
    (behind : List Char) :
    spelling.isPrefixOf? (input ++ stop :: behind) =
      (spelling.isPrefixOf? input).map (· ++ stop :: behind) := by
  obtain ⟨d, input, rfl⟩ := List.exists_cons_of_ne_nil hne
  cases spelling with
  | nil => rfl
  | cons c spelling =>
      have hcons (rest : List Char) : (c :: spelling).isPrefixOf? (d :: rest) =
          if c == d then spelling.isPrefixOf? rest else none := rfl
      have htail : stop ∉ spelling := hspelling
      rw [List.cons_append, hcons, hcons, isPrefixOf?_behind htail]
      split <;> rfl

theorem spelled?_behind (h : Stops stop) (hne : input ≠ []) (marks : List Punctuator)
    (behind : List Char) :
    spelled? (marks.map (·.text)) (input ++ stop :: behind) =
      (spelled? (marks.map (·.text)) input).map (leaving (stop :: behind)) := by
  rw [spelled?, spelled?, List.findSome?_map, List.findSome?_map, List.map_findSome?]
  congr 1
  funext mark
  have hseconds : mark.text.toList.tail.all (· ∈ seconds) = true := by cases mark <;> decide
  have hmark : stop ∉ mark.text.toList.tail := fun hmem =>
    h.marks.1 (of_decide_eq_true (List.all_eq_true.1 hseconds stop hmem))
  simp only [Function.comp_apply, isPrefixOf?_tail_behind hmark hne, Option.map_map]
  rfl

theorem keyword?_behind (h : Stops stop) (input behind : List Char) :
    keyword? (input ++ stop :: behind) = (keyword? input).map (leaving (stop :: behind)) := by
  rw [keyword?, keyword?, List.map_findSome?]
  congr 1
  funext word
  have hword : stop ∉ word.text.toList := fun hmem =>
    Bool.eq_false_iff.1 h.isNamePart (isNamePart_of_mem_text hmem)
  rw [Function.comp_apply, isPrefixOf?_behind hword]
  cases word.text.toList.isPrefixOf? input with
  | none => rfl
  | some after =>
      have hstops : (after ++ stop :: behind).head?.any Text.isWordChar =
          after.head?.any Text.isWordChar := by
        cases after with
        | nil => exact h.isWordChar
        | cons c after => rfl
      dsimp only [Option.map_some]
      rw [hstops]
      split <;> rfl

theorem identifier?_behind (h : Stops stop) (input behind : List Char) :
    identifier? (input ++ stop :: behind) = (identifier? input).map (leaving (stop :: behind)) := by
  cases input with
  | nil =>
      have hstart : isNameStart stop = false := (Bool.or_eq_false_iff.1 h.isNamePart).1
      rw [List.nil_append]
      exact if_neg (Bool.eq_false_iff.1 hstart)
  | cons c rest =>
      rw [List.cons_append, identifier?, identifier?, ← List.cons_append,
        spanOf?_behind h.isNamePart]
      split <;> rfl

/-! ### Literals -/

theorem closing?_append_of_some (hescape : quote ≠ '\\') (h : closing? quote input = some split)
    (behind : List Char) : closing? quote (input ++ behind) = some (leaving behind split) := by
  fun_induction closing? quote input generalizing split with
  | case1 => cases h
  | case2 => cases h
  | case3 c rest hc ih =>
      obtain ⟨found, hfound, rfl⟩ := Option.map_eq_some_iff.1 h
      rw [List.cons_append, List.cons_append, closing?, if_neg hc, ih hfound]
      rfl
  | case4 rest hnot =>
      cases h
      rw [List.cons_append, closing?, if_pos rfl]
      · rfl
      · exact fun _ _ heq _ => hescape heq
  | case5 => cases h
  | case6 c rest _ hc hstop ih =>
      obtain ⟨found, hfound, rfl⟩ := Option.map_eq_some_iff.1 h
      rw [List.cons_append, closing?, if_neg hc, if_neg hstop, ih hfound]
      · rfl
      · rintro _ _ rfl -
        exact hstop (by simp)

theorem closing?_eq_none (hquote : quote ∉ input) : closing? quote input = none := by
  fun_induction closing? quote input with
  | case1 => rfl
  | case2 => rfl
  | case3 c rest hc ih => simp_all
  | case4 rest => simp at hquote
  | case5 => rfl
  | case6 c rest _ hc hstop ih => simp_all

/-- Where no quote follows, none closes what is open. -/
theorem closing?_append_of_none (hescape : quote ≠ '\\') (h : closing? quote input = none)
    (hquote : quote ∉ behind) : closing? quote (input ++ behind) = none := by
  fun_induction closing? quote input with
  | case1 => exact closing?_eq_none hquote
  | case2 => rw [List.cons_append, List.cons_append, closing?, if_pos rfl]
  | case3 c rest hc ih =>
      rw [List.cons_append, List.cons_append, closing?, if_neg hc, ih (Option.map_eq_none_iff.1 h)]
      rfl
  | case4 => cases h
  | case5 c rest hnot hc hstop =>
      by_cases hbackslash : c = '\\'
      · -- Only the end of the text keeps a backslash from taking something with it.
        obtain rfl : rest = [] := by
          cases rest with
          | nil => rfl
          | cons d tail => exact (hnot d tail hbackslash rfl).elim
        exact closing?_eq_none (by simp [hbackslash, hescape, hquote])
      · rw [List.cons_append, closing?, if_neg hc, if_pos hstop]
        exact fun _ _ heq _ => hbackslash heq
  | case6 c rest _ hc hstop ih =>
      rw [List.cons_append, closing?, if_neg hc, if_neg hstop, ih (Option.map_eq_none_iff.1 h)]
      · rfl
      · rintro _ _ rfl -
        exact hstop (by simp)

theorem literal?_append_of_some (hescape : quote ≠ '\\') (h : literal? quote input = some split)
    (behind : List Char) : literal? quote (input ++ behind) = some (leaving behind split) := by
  cases input with
  | nil => cases h
  | cons c rest =>
      rw [literal?] at h
      rw [List.cons_append, literal?]
      split at h
      · next hc =>
          obtain ⟨found, hfound, rfl⟩ := Option.map_eq_some_iff.1 h
          rw [if_pos hc, closing?_append_of_some hescape hfound]
          rfl
      · cases h

theorem literal?_append_of_none (hescape : quote ≠ '\\') (h : literal? quote input = none)
    (hne : input ≠ []) (hquote : quote ∉ behind) : literal? quote (input ++ behind) = none := by
  obtain ⟨c, rest, rfl⟩ := List.exists_cons_of_ne_nil hne
  rw [literal?] at h
  rw [List.cons_append, literal?]
  split at h
  · next hc =>
      rw [if_pos hc, closing?_append_of_none hescape (Option.map_eq_none_iff.1 h) hquote]
      rfl
  · next hc => rw [if_neg hc]

/-! ### All classes -/

theorem split?_append_of_some (hstop : Stops stop) (h : cls.split? input = some split)
    (behind : List Char) :
    cls.split? (input ++ stop :: behind) = some (leaving (stop :: behind) split) := by
  have hne : input ≠ [] := by
    rintro rfl
    obtain ⟨hinput, hlexeme⟩ := splits_of_split? h
    exact hlexeme (List.append_eq_nil_iff.1 hinput.symm).1
  have hmap {result : Option (List Char × List Char)} (hresult : result = some split) :
      result.map (leaving (stop :: behind)) = some (leaving (stop :: behind) split) := by
    rw [hresult]
    rfl
  cases cls with
  | number => exact (number?_behind hstop input behind).trans (hmap h)
  | character => exact literal?_append_of_some (by decide) h _
  | string => exact literal?_append_of_some (by decide) h _
  | keyword => exact (keyword?_behind hstop input behind).trans (hmap h)
  | identifier => exact (identifier?_behind hstop input behind).trans (hmap h)
  | operator | symbol => exact (spelled?_behind hstop hne _ behind).trans (hmap h)

theorem split?_append_of_none (hstop : Stops stop) (h : cls.split? input = none) (hne : input ≠ [])
    (hquotes : '\'' ∉ stop :: behind ∧ '"' ∉ stop :: behind) :
    cls.split? (input ++ stop :: behind) = none := by
  have hmap {result : Option (List Char × List Char)} (hresult : result = none) :
      result.map (leaving (stop :: behind)) = none := by
    rw [hresult]
    rfl
  cases cls with
  | number => exact (number?_behind hstop input behind).trans (hmap h)
  | character => exact literal?_append_of_none (by decide) h hne hquotes.1
  | string => exact literal?_append_of_none (by decide) h hne hquotes.2
  | keyword => exact (keyword?_behind hstop input behind).trans (hmap h)
  | identifier => exact (identifier?_behind hstop input behind).trans (hmap h)
  | operator | symbol => exact (spelled?_behind hstop hne _ behind).trans (hmap h)

/-- What is read first is read first again. -/
theorem first?_append_of_some (hstop : Stops stop) (h : first? input = some (cls, split))
    (behind : List Char) :
    first? (input ++ stop :: behind) = some (cls, leaving (stop :: behind) split) := by
  obtain ⟨hsplit, hname⟩ := of_first? h
  refine first?_of_split? (split?_append_of_some hstop hsplit behind) (fun hcls => ?_) fun hcls => ?_
  · rw [keyword?_behind hstop, hname hcls]
    rfl
  · have hnone : operator.split? input = none := by
      cases hoperator : operator.split? input with
      | none => rfl
      | some found =>
          have hfirst := first?_of_split? hoperator nofun nofun
          rw [h, hcls] at hfirst
          cases hfirst
    have hne : input ≠ [] := by
      rintro rfl
      cases h
    have hspelled : spelled? (Punctuator.pairs.map (·.text)) input = none := hnone
    have hbehind := spelled?_behind hstop hne Punctuator.pairs behind
    rw [hspelled] at hbehind
    exact hbehind

theorem first?_append_of_none (hstop : Stops stop) (h : first? input = none) (hne : input ≠ [])
    (hquotes : '\'' ∉ stop :: behind ∧ '"' ∉ stop :: behind) :
    first? (input ++ stop :: behind) = none := by
  rw [first?, List.findSome?_eq_none_iff] at h ⊢
  intro cls hmem
  rw [split?_append_of_none hstop (Option.map_eq_none_iff.1 (h cls hmem)) hne hquotes]
  rfl

/-- What is read first in front of a text without quotes is read first without it. -/
theorem exists_first?_of_append (hstop : Stops stop) (hne : input ≠ [])
    (hquotes : '\'' ∉ stop :: behind ∧ '"' ∉ stop :: behind)
    (h : first? (input ++ stop :: behind) = some (cls, lexeme, after)) :
    ∃ left, first? input = some (cls, lexeme, left) ∧ after = left ++ stop :: behind := by
  cases hfirst : first? input with
  | none =>
      rw [first?_append_of_none hstop hfirst hne hquotes] at h
      cases h
  | some found =>
      obtain ⟨cls', lexeme', left⟩ := found
      rw [first?_append_of_some hstop hfirst] at h
      cases h
      exact ⟨left, rfl, rfl⟩

end Class

variable {gap text lexeme rest behind front back : List Char} {cls : Class} {kind : Kind}
  {kinds kinds' : List Kind}

/-! ## Texts without comments -/

theorem opensToken_append (h : Cursor.OpensToken text) (hne : text ≠ []) (hstop : Stops stop)
    (behind : List Char) : Cursor.OpensToken (text ++ stop :: behind) := by
  obtain ⟨c, tail, rfl⟩ := List.exists_cons_of_ne_nil hne
  refine ⟨h.1, fun hc => ?_⟩
  have hmarks := h.2 hc
  cases tail with
  | nil => exact ⟨by simpa using hstop.marks.2.1, by simpa using hstop.marks.2.2⟩
  | cons d tail => exact hmarks

/-- The tokens of a text with nothing but blanks between them. -/
inductive Bare : List Char → List Kind → Prop
  | done {text : List Char} (h : ∀ c ∈ text, isBlank c = true) : Bare text []
  | token {gap lexeme rest : List Char} {cls : Class} {kind : Kind} {kinds : List Kind}
      (hgap : ∀ c ∈ gap, isBlank c = true) (hopens : Cursor.OpensToken (lexeme ++ rest))
      (hfirst : Class.first? (lexeme ++ rest) = some (cls, lexeme, rest))
      (hkind : cls.build? lexeme = some kind) (h : Bare rest kinds) :
      Bare (gap ++ (lexeme ++ rest)) (kind :: kinds)

theorem isGap_of_blank (h : ∀ c ∈ gap, isBlank c = true) : IsGap false gap := by
  induction gap with
  | nil => exact .nil
  | cons c gap ih =>
      obtain ⟨hc, hgap⟩ := List.forall_mem_cons.1 h
      exact .blank hc (ih hgap)

namespace Bare

/-- Reading on behind a text without comments. -/
theorem exists_read (h : Bare front kinds) (hstop : Stops stop) (behind : List Char)
    (source : String) (offset : Nat) :
    ∃ (tokens : List Token) (offset' : Nat), tokens.map (·.kind) = kinds ∧
      Stream.read source ⟨front ++ stop :: behind, offset⟩ =
        tokens.foldr Stream.cons (Stream.read source ⟨stop :: behind, offset'⟩) := by
  induction h generalizing offset with
  | @done front hblank =>
      exact ⟨[], _, rfl, Stream.read_of_next (Cursor.next_of_gap (isGap_of_blank hblank) offset)⟩
  | @token gap lexeme rest cls kind kinds hgap hopens hfirst hkind _ ih =>
      have hne : lexeme ++ rest ≠ [] := fun hnil =>
        (Class.splits_of_first? hfirst).2 (List.append_eq_nil_iff.1 hnil).1
      let token : Token :=
        { kind, text := String.ofList lexeme, start := offset + byteLength gap }
      have htext : token.text.toList = lexeme := String.toList_ofList
      have htakes : Takes ⟨gap ++ (lexeme ++ rest) ++ stop :: behind, offset⟩
          ⟨rest ++ stop :: behind, token.stop⟩ token gap cls :=
        { rest := by simp [htext]
          isGap := isGap_of_blank hgap
          opens := by
            have hbehind := opensToken_append hopens hne hstop behind
            rwa [List.append_assoc, ← htext] at hbehind
          start := rfl
          stop := rfl
          first := by
            have hbehind := Class.first?_append_of_some hstop hfirst behind
            rw [htext]
            rwa [List.append_assoc] at hbehind
          kind := by
            rw [htext]
            exact hkind }
      obtain ⟨tokens, offset', hkinds, hread⟩ := ih token.stop
      refine ⟨token :: tokens, offset', by rw [List.map_cons, hkinds], ?_⟩
      rw [Stream.read_of_token (htakes.next_eq source) (Class.of_build? htakes.kind).1, hread,
        List.foldr_cons]

/-- Blanks in front of a text are no part of its tokens. -/
theorem of_blank_append (h : Bare (gap ++ text) kinds) (hgap : ∀ c ∈ gap, isBlank c = true) :
    Bare text kinds := by
  generalize hwhole : gap ++ text = whole at h
  cases h with
  | done hblank =>
      subst hwhole
      exact .done fun c hc => hblank c (List.mem_append_right _ hc)
  | @token gap' lexeme rest cls kind kinds hgap' hopens hfirst hkind h =>
      rcases List.append_eq_append_iff.1 hwhole with ⟨more, rfl, rfl⟩ | ⟨more, rfl, hmore⟩
      · exact .token (fun c hc => hgap' c (List.mem_append_right _ hc)) hopens hfirst hkind h
      · cases more with
        | nil =>
            rw [List.nil_append] at hmore
            rw [← hmore]
            exact .token (fun _ hc => absurd hc List.not_mem_nil) hopens hfirst hkind h
        | cons c more =>
            -- A token does not begin with a blank.
            have hblank := hgap c (List.mem_append_right _ List.mem_cons_self)
            rw [hmore] at hopens
            cases hopens.1.symm.trans hblank

theorem eq_nil (h : Bare text kinds) (htext : ∀ c ∈ text, isBlank c = true) : kinds = [] := by
  cases h with
  | done => rfl
  | @token gap lexeme rest _ _ _ _ hopens hfirst =>
      obtain ⟨c, tail, rfl⟩ := List.exists_cons_of_ne_nil (Class.splits_of_first? hfirst).2
      have hc := htext c (List.mem_append_right _ (List.mem_append_left _ List.mem_cons_self))
      cases hopens.1.symm.trans hc

/-- What is made of blanks and semicolons has no other tokens. -/
theorem eq_semicolon (h : Bare text kinds) (htext : ∀ c ∈ text, isBlank c = true ∨ c = ';') :
    ∀ kind ∈ kinds, kind = .punctuator .semicolon := by
  induction h with
  | done => exact fun _ hmem => absurd hmem List.not_mem_nil
  | @token gap lexeme rest cls kind kinds hgap hopens hfirst hkind _ ih =>
      refine List.forall_mem_cons.2 ⟨?_, ih fun c hc =>
        htext c (List.mem_append_right _ (List.mem_append_right _ hc))⟩
      obtain ⟨c, tail, rfl⟩ := List.exists_cons_of_ne_nil (Class.splits_of_first? hfirst).2
      have hc := htext c (List.mem_append_right _ (List.mem_append_left _ List.mem_cons_self))
      obtain rfl : c = ';' := hc.resolve_left fun hblank => by cases hopens.1.symm.trans hblank
      have hmark : Class.first? (';' :: (tail ++ rest)) = some (.symbol, [';'], tail ++ rest) :=
        Class.first?_of_split? (Class.symbol?_append
          (by decide : Punctuator.semicolon ∈ Punctuator.singles) _) nofun fun _ => rfl
      cases hmark.symm.trans hfirst
      exact (Option.some.inj hkind).symm

/-- A text without comments that only blanks and semicolons follow. -/
theorem of_append (h : Bare (front ++ back) kinds)
    (hback : ∀ c ∈ back, isBlank c = true ∨ c = ';') :
    ∃ inner outer, kinds = inner ++ outer ∧ Bare front inner ∧
      ∀ kind ∈ outer, kind = .punctuator .semicolon := by
  generalize hwhole : front ++ back = whole at h
  induction h generalizing front with
  | done hblank =>
      subst hwhole
      exact ⟨[], [], rfl, .done fun c hc => hblank c (List.mem_append_left _ hc), nofun⟩
  | @token gap lexeme rest cls kind kinds hgap hopens hfirst hkind h ih =>
      have hall : Bare (gap ++ (lexeme ++ rest)) (kind :: kinds) :=
        .token hgap hopens hfirst hkind h
      rcases List.append_eq_append_iff.1 hwhole with ⟨more, rfl, rfl⟩ | ⟨more, rfl, hmore⟩
      · -- The token is behind the text.
        refine ⟨[], kind :: kinds, rfl, .done fun c hc => hgap c (List.mem_append_left _ hc), ?_⟩
        rw [List.append_assoc] at hall
        have hbehind := hall.of_blank_append fun c hc => hgap c (List.mem_append_left _ hc)
        exact hbehind.eq_semicolon hback
      · cases more with
        | nil =>
            rw [List.nil_append] at hmore
            rw [hmore] at hall
            refine ⟨[], kind :: kinds, rfl, .done ?_, ?_⟩
            · rwa [List.append_nil]
            · exact (hall.of_blank_append hgap).eq_semicolon hback
        | cons c more =>
            cases back with
            | nil =>
                rw [List.append_nil] at hmore
                rw [hmore] at hall
                exact ⟨kind :: kinds, [], (List.append_nil _).symm, hall, nofun⟩
            | cons stop behind =>
                have hstop : Stops stop := by
                  rcases hback stop List.mem_cons_self with hblank | rfl
                  · exact stops_of_isBlank hblank
                  · exact stops_semicolon
                have hquotes : '\'' ∉ stop :: behind ∧ '"' ∉ stop :: behind := by
                  constructor <;> exact fun hmem => absurd (hback _ hmem) (by decide)
                rw [hmore] at hfirst
                obtain ⟨left, hleft, rfl⟩ :=
                  Class.exists_first?_of_append hstop (List.cons_ne_nil _ _) hquotes hfirst
                obtain ⟨inner, outer, rfl, hinner, houter⟩ := ih rfl
                obtain ⟨hsplit, hne⟩ := Class.splits_of_first? hleft
                change c :: more = lexeme ++ left at hsplit
                refine ⟨kind :: inner, outer, rfl, ?_, houter⟩
                rw [hsplit] at hleft ⊢
                rw [← List.append_assoc] at hopens
                have halone := hopens.alone (List.append_ne_nil_of_left_ne_nil hne _)
                exact .token hgap halone hleft hkind hinner

end Bare

/-- The characters of a text that are not blank. -/
def inked (text : List Char) : Nat :=
  text.countP fun c => !isBlank c

theorem inked_append (front back : List Char) : inked (front ++ back) = inked front + inked back :=
  List.countP_append

theorem inked_eq_zero : inked gap = 0 ↔ ∀ c ∈ gap, isBlank c = true := by
  simp [inked]

theorem Takings.inked_le {cursor : Cursor} {tokens : List Token} (h : Takings cursor tokens) :
    (tokens.map fun token => inked token.text.toList).sum ≤ inked cursor.rest := by
  induction h with
  | done => exact Nat.zero_le _
  | token htakes _ ih =>
      rw [List.map_cons, List.sum_cons, htakes.rest, inked_append, inked_append]
      omega

/-- A reading that leaves nothing but blanks out. -/
theorem Takings.bare {cursor : Cursor} {tokens : List Token} (h : Takings cursor tokens)
    (hinked : inked cursor.rest ≤ (tokens.map fun token => inked token.text.toList).sum) :
    Bare cursor.rest (tokens.map (·.kind)) := by
  induction h with
  | done => exact .done (inked_eq_zero.1 (Nat.le_zero.1 hinked))
  | token htakes h ih =>
      have hle := h.inked_le
      rw [List.map_cons, List.sum_cons, htakes.rest, inked_append, inked_append] at hinked
      rw [htakes.rest, List.map_cons]
      exact .token (inked_eq_zero.1 (by omega)) htakes.opens htakes.first htakes.kind
        (ih (by omega))

/-! ## The tokens of a text -/

/-- The kinds of the tokens that a text is read as. -/
def Scans (text : List Char) (kinds : List Kind) : Prop :=
  ∃ tokens, tokenize (String.ofList text) = .ok tokens ∧ tokens.map (·.kind) = kinds

theorem scans_toList {source : String} :
    Scans source.toList kinds ↔
      ∃ tokens, tokenize source = .ok tokens ∧ tokens.map (·.kind) = kinds := by
  rw [Scans, String.ofList_toList]

theorem scans_of_read {source : String} {offset : Nat} {tokens : List Token}
    (h : (Stream.read source ⟨text, offset⟩).toList? = .ok tokens) :
    Scans text (tokens.map (·.kind)) := by
  have hrest : (Cursor.mk (String.ofList text).toList 0).rest = (Cursor.mk text offset).rest :=
    String.toList_ofList
  exact Stream.toList?_read_of_rest (String.ofList text) h hrest

theorem Scans.exists_read (h : Scans text kinds) (source : String) (offset : Nat) :
    ∃ tokens, (Stream.read source ⟨text, offset⟩).toList? = .ok tokens ∧
      tokens.map (·.kind) = kinds := by
  obtain ⟨tokens, htokens, rfl⟩ := h
  have hrest : (Cursor.mk text offset).rest = (Cursor.mk (String.ofList text).toList 0).rest :=
    String.toList_ofList.symm
  exact Stream.toList?_read_of_rest source htokens hrest

theorem Scans.unique (h : Scans text kinds) (h' : Scans text kinds') : kinds = kinds' := by
  obtain ⟨tokens, htokens, rfl⟩ := h
  obtain ⟨tokens', htokens', rfl⟩ := h'
  rw [Except.ok.inj (htokens.symm.trans htokens')]

/-- A gap in front of a text adds nothing to its tokens. -/
theorem Scans.gap_append (h : Scans text kinds) (hgap : IsGap false gap) :
    Scans (gap ++ text) kinds := by
  obtain ⟨tokens, htokens, rfl⟩ := h.exists_read "" (byteLength gap)
  rw [← Nat.zero_add (byteLength gap), ← Stream.read_of_next (Cursor.next_of_gap hgap 0)] at htokens
  exact scans_of_read htokens

theorem scans_comment (hbody : '\n' ∉ text) : Scans ('/' :: '/' :: text) [] := by
  have hgap : (Cursor.mk ('/' :: '/' :: text) 0).gap = .ends ⟨[], 0 + 2 + byteLength text⟩ := by
    rw [Cursor.gap, Cursor.skipGap, Cursor.skipLine_of_notMem hbody]
  have hnext : Cursor.next "" ⟨'/' :: '/' :: text, 0⟩ =
      (.ok (.endAt (0 + 2 + byteLength text)), ⟨[], 0 + 2 + byteLength text⟩) := by
    rw [Cursor.next, hgap]
  exact @scans_of_read _ "" 0 [] (by rw [Stream.read_of_end hnext rfl]; rfl)

/-- The tokens of a text without comments and of another text behind it. -/
theorem Bare.scans_append (h : Bare front kinds) (hstop : Stops stop)
    (hback : Scans (stop :: behind) kinds') :
    Scans (front ++ stop :: behind) (kinds ++ kinds') := by
  obtain ⟨tokens, offset, rfl, hread⟩ := h.exists_read hstop behind "" 0
  obtain ⟨others, hothers, rfl⟩ := hback.exists_read "" offset
  rw [← List.map_append]
  refine @scans_of_read _ "" 0 _ ?_
  rw [hread, Stream.toList?_foldr, hothers]
  rfl

end WordC.Token
