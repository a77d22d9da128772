import WordC.Proofs.Token.Gaps
import WordC.Token.Stream

/-!
# Where a text begins

The kinds of the tokens depend on the text alone: not on the offset at which it begins, nor on the
source in which positions are counted. So a gap in front of a text changes nothing about its tokens
but their places.
-/

namespace WordC

namespace Token

open Text (byteLength)

variable {source : String} {cursor cursor' : Cursor}

/-- What is left to read behind a gap that ends. -/
def Gap.left? : Gap → Option (List Char)
  | ends cursor => some cursor.rest
  | unterminated _ => none

namespace Cursor

theorem left?_skip :
    (∀ offset text offset', (skipGap offset' text).left? = (skipGap offset text).left?) ∧
    (∀ opening offset text opening' offset',
      (skipBlock opening' offset' text).left? = (skipBlock opening offset text).left?) ∧
    ∀ offset text offset', (skipLine offset' text).left? = (skipLine offset text).left? := by
  apply skipGap.mutual_induct
  all_goals
    intros
    simp_all only [skipGap, skipLine, skipBlock, Gap.left?, if_true, Bool.false_eq_true, if_false]

theorem left?_gap (h : cursor'.rest = cursor.rest) : cursor'.gap.left? = cursor.gap.left? := by
  rw [gap, gap, h]
  exact left?_skip.1 _ _ _

theorem next_of_rest {token : Token} {after : Cursor} (source' : String)
    (hrest : cursor'.rest = cursor.rest) (h : cursor.next source = (.ok token, after)) :
    ∃ token' after', cursor'.next source' = (.ok token', after') ∧ token'.kind = token.kind ∧
      after'.rest = after.rest := by
  have hleft := left?_gap hrest
  unfold next at h ⊢
  cases hgap : cursor.gap with
  | unterminated opening =>
      rw [hgap] at h
      cases h
  | ends here =>
      cases hgap' : cursor'.gap with
      | unterminated opening =>
          rw [hgap, hgap'] at hleft
          cases hleft
      | ends here' =>
          rw [hgap, hgap'] at hleft
          have hsame : here'.rest = here.rest := Option.some.inj hleft
          rw [hgap] at h
          simp only [hsame] at h ⊢
          cases htext : here.rest with
          | nil =>
              rw [htext] at h
              cases h
              exact ⟨_, _, rfl, rfl, hsame⟩
          | cons c text =>
              rw [htext] at h
              simp only at h ⊢
              cases hfirst : Class.first? (c :: text) with
              | none =>
                  rw [hfirst] at h
                  cases h
              | some found =>
                  obtain ⟨cls, lexeme, rest⟩ := found
                  rw [hfirst] at h
                  simp only at h ⊢
                  cases hbuild : cls.build? lexeme with
                  | none =>
                      rw [hbuild] at h
                      cases h
                  | some kind =>
                      rw [hbuild] at h
                      cases h
                      exact ⟨_, _, rfl, rfl, rfl⟩

/-- A gap in front of a text is skipped with the first token. -/
theorem next_of_gap {gap text : List Char} (h : IsGap false gap) (offset : Nat) :
    next source ⟨gap ++ text, offset⟩ = next source ⟨text, offset + byteLength gap⟩ := by
  unfold next Cursor.gap
  simp only [skipGap_append h]

end Cursor

namespace Stream

theorem read_of_next (h : cursor'.next source = cursor.next source) :
    read source cursor' = read source cursor := by
  cases hnext : cursor.next source with
  | mk result after =>
      cases result with
      | error error => rw [read_of_error hnext, read_of_error (h.trans hnext)]
      | ok token =>
          by_cases hkind : token.kind = .endOfInput
          · rw [read_of_end hnext hkind, read_of_end (h.trans hnext) hkind]
          · rw [read_of_token hnext hkind, read_of_token (h.trans hnext) hkind]

theorem toList?_read_of_rest {tokens : List Token} (source' : String)
    (h : (read source cursor).toList? = .ok tokens) (hrest : cursor'.rest = cursor.rest) :
    ∃ tokens', (read source' cursor').toList? = .ok tokens' ∧
      tokens'.map (·.kind) = tokens.map (·.kind) := by
  induction cursor using read.induct source generalizing cursor' tokens with
  | case1 cursor error after hnext =>
      rw [read_of_error hnext] at h
      cases h
  | case2 cursor token after hnext hkind =>
      obtain ⟨token', after', hnext', hsame, -⟩ := Cursor.next_of_rest source' hrest hnext
      rw [read_of_end hnext hkind] at h
      cases h
      exact ⟨[], by rw [read_of_end hnext' (hsame.trans hkind)]; rfl, rfl⟩
  | case3 cursor token after hnext hkind ih =>
      obtain ⟨token', after', hnext', hsame, hafter⟩ := Cursor.next_of_rest source' hrest hnext
      rw [read_of_token hnext hkind, toList?] at h
      cases htail : (read source after).toList? with
      | error error =>
          rw [htail] at h
          cases h
      | ok others =>
          rw [htail] at h
          cases h
          obtain ⟨others', hothers, hkinds⟩ := ih htail hafter
          have hkind' : token'.kind ≠ .endOfInput := hsame.symm ▸ hkind
          refine ⟨token' :: others', ?_, by rw [List.map_cons, List.map_cons, hsame, hkinds]⟩
          rw [read_of_token hnext' hkind', toList?, hothers]
          rfl

end Stream

end Token

open Token in
/-- Without a gap in front of it, a text has tokens of the same kinds. -/
theorem tokenize_of_gap {gap text : List Char} (hgap : IsGap false gap) {tokens : List Token}
    (h : tokenize (String.ofList (gap ++ text)) = .ok tokens) :
    ∃ tokens', tokenize (String.ofList text) = .ok tokens' ∧
      tokens'.map (·.kind) = tokens.map (·.kind) := by
  unfold tokenize Stream.ofSource at h ⊢
  rw [String.toList_ofList] at h ⊢
  rw [Stream.read_of_next (Cursor.next_of_gap hgap 0)] at h
  exact Stream.toList?_read_of_rest _ h rfl

end WordC
