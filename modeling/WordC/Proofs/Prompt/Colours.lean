import Mathlib.Tactic.SplitIfs
import WordC.Prompt.Highlight

/-!
# Colours show the line unchanged

An escape sequence is an escape character and a bracket, digits and an `m`. Without its sequences a
highlighted line is the line itself, whatever its characters are, as long as none of them is an
escape character: each word and each mark is shown by what it is painted as. Of the styles this takes
no more than that each of them puts escape sequences around a text.
-/

namespace WordC

namespace Text

/-! ## Deleting escape sequences -/

/-- What follows digits and an `m` at the start of a text. Digits are missing if none has been read
before. -/
def behindDigits? (started : Bool) : List Char → Option (List Char)
  | [] => none
  | c :: rest =>
      if c.isDigit then behindDigits? true rest
      else if started && c == 'm' then some rest
      else none

/-- What follows the escape sequence at the start of a text. -/
def behindSequence? : List Char → Option (List Char)
  | '\x1b' :: '[' :: rest => behindDigits? false rest
  | _ => none

theorem length_behindDigits? {started : Bool} {text after : List Char}
    (h : behindDigits? started text = some after) : after.length < text.length := by
  induction text generalizing started with
  | nil => cases h
  | cons c rest ih =>
      rw [behindDigits?] at h
      split at h
      · exact Nat.lt_succ_of_lt (ih h)
      · split at h
        · cases h
          exact Nat.lt_succ_self _
        · cases h

theorem length_behindSequence? {text after : List Char} (h : behindSequence? text = some after) :
    after.length < text.length := by
  unfold behindSequence? at h
  split at h
  · exact Nat.lt_add_right 2 (length_behindDigits? h)
  · cases h

/-- A text without its escape sequences. -/
def plain (text : List Char) : List Char :=
  match _h : behindSequence? text with
  | some after => plain after
  | none =>
      match text with
      | [] => []
      | c :: rest => c :: plain rest
termination_by text.length
decreasing_by
  · exact length_behindSequence? _h
  · exact Nat.lt_succ_self _

def unstyled (text : String) : String :=
  String.ofList (plain text.toList)

theorem plain_of_sequence {text after : List Char} (h : behindSequence? text = some after) :
    plain text = plain after := by
  conv => lhs; unfold plain
  split
  · next hfound =>
      cases h.symm.trans hfound
      rfl
  · next hnone => cases h.symm.trans hnone

theorem plain_cons {c : Char} (hc : c ≠ '\x1b') (rest : List Char) :
    plain (c :: rest) = c :: plain rest := by
  have hnone : behindSequence? (c :: rest) = none := by
    unfold behindSequence?
    split
    · next heq => exact absurd (List.cons.inj heq).1 hc
    · rfl
  conv => lhs; unfold plain
  split
  · next hfound => cases hnone.symm.trans hfound
  · rfl

theorem plain_nil : plain [] = [] := by
  unfold plain
  rfl

theorem behindDigits?_append {started : Bool} {digits : List Char}
    (hdigits : ∀ c ∈ digits, c.isDigit = true) (hstarted : digits = [] → started = true)
    (rest : List Char) : behindDigits? started (digits ++ 'm' :: rest) = some rest := by
  induction digits generalizing started with
  | nil =>
      rw [hstarted rfl]
      rfl
  | cons c digits ih =>
      rw [List.cons_append, behindDigits?, if_pos (hdigits c List.mem_cons_self)]
      exact ih (fun d hmem => hdigits d (List.mem_cons_of_mem c hmem)) fun _ => rfl

/-! ## What styled texts show -/

/-- A text behaves like another one when escape sequences are deleted, whatever follows. -/
def Shows (styled : String) (text : List Char) : Prop :=
  ∀ rest, plain (styled.toList ++ rest) = text ++ plain rest

variable {styled styled' : String} {text text' : List Char}

theorem Shows.append (h : Shows styled text) (h' : Shows styled' text') :
    Shows (styled ++ styled') (text ++ text') := by
  intro rest
  rw [String.toList_append, List.append_assoc, h, h', List.append_assoc]

theorem Shows.unstyled (h : Shows styled text) : unstyled styled = String.ofList text := by
  have hall := h []
  rw [List.append_nil, plain_nil, List.append_nil] at hall
  rw [Text.unstyled, hall]

theorem shows_ofList (htext : '\x1b' ∉ text) : Shows (String.ofList text) text := by
  intro rest
  rw [String.toList_ofList]
  induction text with
  | nil => rfl
  | cons c text ih =>
      obtain ⟨hc, htext⟩ := List.ne_and_not_mem_of_not_mem_cons htext
      rw [List.cons_append, plain_cons hc.symm, ih htext, List.cons_append]

theorem shows_sequences {added : List Char} (h : Sequences added) :
    Shows (String.ofList added) [] := by
  intro rest
  rw [String.toList_ofList]
  induction h with
  | nil => rfl
  | @cons digits added hne hdigits _ ih =>
      have hsequence : behindSequence? ('\x1b' :: '[' :: (digits ++ 'm' :: (added ++ rest))) =
          some (added ++ rest) :=
        behindDigits?_append hdigits (fun hnil => absurd hnil hne) (added ++ rest)
      rw [List.cons_append, List.cons_append, List.append_assoc, List.cons_append,
        plain_of_sequence hsequence]
      exact ih

/-- A style does not change what a text shows. -/
theorem Surrounds.shows {style : String → String} (h : Surrounds style)
    (hstyled : Shows styled text) : Shows (style styled) text := by
  obtain ⟨before, after, hbefore, hafter, heq⟩ := h styled
  have hall := ((shows_sequences hbefore).append hstyled).append (shows_sequences hafter)
  have hstyle : style styled = String.ofList before ++ styled ++ String.ofList after := by
    apply String.ext
    rw [heq]
    simp [String.toList_append]
  rwa [hstyle, ← List.append_nil text]

end Text

namespace Prompt

open Text (Colour Shows Styles shows_ofList unstyled)

variable {styles : Styles} {word text : List Char}

theorem shows_paintWord (hstyles : styles.Escaping) (hword : '\x1b' ∉ word) :
    Shows (paintWord styles word) word := by
  have htext := shows_ofList hword
  have hcoloured (colour : Colour) : Shows (styles.coloured colour (String.ofList word)) word :=
    (hstyles.coloured colour).shows htext
  simp only [paintWord]
  split_ifs
  · exact hstyles.bold.shows (hcoloured _)
  · exact hcoloured _
  · exact hcoloured _
  · exact htext

theorem shows_paintMark (hstyles : styles.Escaping) {c : Char} (hc : c ≠ '\x1b')
    (isCommand : Bool) : Shows (paintMark styles isCommand c) [c] := by
  have htext : Shows c.toString [c] := shows_ofList (by simpa using hc.symm)
  have hcoloured (colour : Colour) : Shows (styles.coloured colour c.toString) [c] :=
    (hstyles.coloured colour).shows htext
  simp only [paintMark]
  split_ifs
  · exact hcoloured _
  · exact hcoloured _
  · exact hcoloured _
  · exact hcoloured _
  · exact htext

/-- By induction on the line, with the characters of the word so far in front of it. -/
theorem shows_paint (hstyles : styles.Escaping) (htext : '\x1b' ∉ text) (hword : '\x1b' ∉ word)
    (isCommand : Bool) : Shows (paint styles isCommand word text) (word.reverse ++ text) := by
  induction text generalizing word with
  | nil =>
      rw [List.append_nil]
      exact shows_paintWord hstyles (by simpa using hword)
  | cons c text ih =>
      obtain ⟨hc, htext⟩ := List.ne_and_not_mem_of_not_mem_cons htext
      rw [paint]
      split
      · have hlonger : '\x1b' ∉ c :: word := fun hmem =>
          (List.mem_cons.1 hmem).elim hc hword
        have hrest := ih htext hlonger
        rwa [List.reverse_cons, List.append_assoc] at hrest
      · have hreverse : '\x1b' ∉ word.reverse := by simpa using hword
        have hfirst := shows_paintWord hstyles hreverse
        have hrest := ih htext List.not_mem_nil
        have hall := (hfirst.append (shows_paintMark hstyles hc.symm isCommand)).append hrest
        rwa [List.append_assoc] at hall

/-- Deleting the escape sequences from a highlighted line gives back the line, whatever sequences the
styles are made of. -/
theorem unstyled_highlight (hstyles : styles.Escaping) {line : String}
    (hline : '\x1b' ∉ line.toList) : unstyled (highlight styles line) = line := by
  have hshows := shows_paint hstyles hline List.not_mem_nil (line.toList.head? == some '.')
  rw [highlight, hshows.unstyled, List.reverse_nil, List.nil_append, String.ofList_toList]

/-- A command, a keyword, a numeral, brackets and a sign of two bytes. -/
def colourful : String := ".é if(0x1f) ×"

theorem sequences_escape (code : Nat) : Text.Sequences (Text.escape code).toList := by
  have hdigits (c : Char) (hmem : c ∈ Nat.toDigits 10 code) : c.isDigit = true :=
    Nat.isDigit_of_mem_toDigits (by decide) (by decide) hmem
  have htext : (Text.escape code).toList = '\x1b' :: '[' :: (Nat.toDigits 10 code ++ ['m']) := by
    simp [Text.escape]
  rw [htext]
  exact .cons Nat.toDigits_ne_nil hdigits .nil

theorem escaping_common : Text.Styles.common.Escaping where
  coloured colour _ :=
    ⟨_, _, sequences_escape colour.code, sequences_escape 39, by simp [Text.Styles.common]⟩
  bold _ := ⟨_, _, sequences_escape 1, sequences_escape 0, by simp [Text.Styles.common]⟩
  dimmed _ := ⟨_, _, sequences_escape 2, sequences_escape 0, by simp [Text.Styles.common]⟩

theorem unstyled_highlight_colourful :
    Text.Styles.common.Escaping ∧ '\x1b' ∉ colourful.toList ∧
      highlight .common colourful ≠ colourful ∧
      unstyled (highlight .common colourful) = colourful := by
  have hline : '\x1b' ∉ colourful.toList := by decide
  exact ⟨escaping_common, hline, by decide +kernel, unstyled_highlight escaping_common hline⟩

end Prompt

end WordC
