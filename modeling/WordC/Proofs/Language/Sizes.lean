import WordC.Proofs.Language.Spine
import WordC.Token.Stream

/-!
# Sizes

A source has no more tokens than characters, and a function no more local slots than tokens. So
whatever a program counts is a word.
-/

namespace WordC

namespace Token.Stream

theorem length_read_le (source : String) (cursor : Cursor) :
    (read source cursor).length ≤ cursor.rest.length := by
  induction cursor using read.induct source with
  | case1 cursor error after hnext =>
      rw [read_of_error hnext]
      exact Nat.zero_le _
  | case2 cursor token after hnext hkind =>
      rw [read_of_end hnext hkind]
      exact Nat.zero_le _
  | case3 cursor token after hnext hkind ih =>
      rw [read_of_token hnext hkind, length]
      exact Nat.lt_of_le_of_lt ih (Cursor.length_next_lt hnext hkind)

end Token.Stream

theorem length_of_toList? {stream : Token.Stream} {tokens : List Token}
    (h : stream.toList? = .ok tokens) : tokens.length = stream.length := by
  induction stream generalizing tokens with
  | done offset =>
      cases h
      rfl
  | failed error => cases h
  | cons token rest ih =>
      rw [Token.Stream.toList?] at h
      cases hrest : rest.toList? with
      | error error =>
          rw [hrest] at h
          cases h
      | ok others =>
          rw [hrest] at h
          cases h
          rw [List.length_cons, Token.Stream.length, ih hrest]

/-- A source has no more tokens than characters. -/
theorem length_tokenize_le {source : String} {tokens : List Token}
    (h : tokenize source = .ok tokens) : tokens.length ≤ source.length := by
  rw [length_of_toList? h, ← String.length_toList]
  exact Token.Stream.length_read_le source _

namespace Syntax

theorem length_le_separated {parts : List (List Token.Kind)} (h : ∀ part ∈ parts, part ≠ []) :
    parts.length ≤ (separated parts).length := by
  have hfurther : ∀ rest : List (List Token.Kind), rest.length ≤ (further rest).length := by
    intro rest
    induction rest with
    | nil => exact Nat.le_refl _
    | cons part rest ih =>
        simp only [further, List.flatMap_cons, List.length_append, List.length_cons] at ih ⊢
        omega
  cases parts with
  | nil => exact Nat.le_refl _
  | cons part rest =>
      have hpart := List.length_pos_iff.2 (h part List.mem_cons_self)
      have hrest := hfurther rest
      rw [separated, List.length_append, List.length_cons]
      omega

theorem Declaration.length_declarators_le (declaration : Declaration) :
    declaration.declarators.length ≤ declaration.tokens.length := by
  have hparts := @length_le_separated (declaration.declarators.map Declarator.tokens) (by
    intro part hmem
    obtain ⟨declarator, -, rfl⟩ := List.mem_map.1 hmem
    exact List.cons_ne_nil _ _)
  rw [List.length_map] at hparts
  rw [tokens, List.length_cons, List.length_append]
  omega

theorem length_declarators_le (declarations : List Declaration) :
    (declarations.flatMap Declaration.declarators).length ≤
      (declarations.flatMap Declaration.tokens).length := by
  induction declarations with
  | nil => exact Nat.le_refl _
  | cons declaration rest ih =>
      have hfirst := declaration.length_declarators_le
      rw [List.flatMap_cons, List.flatMap_cons, List.length_append, List.length_append]
      omega

namespace Stmt

mutual

/-- A statement takes no more slots than it has tokens. -/
theorem peak_le (used : Nat) : ∀ statement : Stmt,
    statement.peak used ≤ used + statement.tokens.length
  | block declarations body => by
      have hdeclarations := length_declarators_le declarations
      have hbody := bodyPeak_le
        (used + (declarations.flatMap Declaration.declarators).length) body
      rw [peak, tokens, List.length_cons, List.length_append, List.length_append]
      omega
  | ifThen condition consequence => by
      have hconsequence := peak_le used consequence
      rw [peak, tokens, List.length_cons, List.length_cons, List.length_append, List.length_cons]
      omega
  | ifElse condition consequence alternative => by
      have hconsequence := peak_le used consequence
      have halternative := peak_le used alternative
      rw [peak, tokens, List.length_cons, List.length_cons, List.length_append, List.length_cons,
        List.length_append, List.length_cons]
      omega
  | whileLoop condition body => by
      have hbody := peak_le used body
      rw [peak, tokens, List.length_cons, List.length_cons, List.length_append, List.length_cons]
      omega
  | empty | leave _ | assign _ _ | evaluate _ => by
      rw [peak]
      · exact Nat.le_add_right _ _
      all_goals nofun

theorem bodyPeak_le (used : Nat) : ∀ body : List Stmt,
    bodyPeak used body ≤ used + (bodyTokens body).length
  | [] => Nat.le_add_right _ _
  | statement :: rest => by
      have hstatement := peak_le used statement
      have hrest := bodyPeak_le used rest
      rw [bodyPeak, bodyTokens, List.length_append]
      omega

end

end Stmt

end Syntax

end WordC
