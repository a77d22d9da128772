import Mathlib.Data.List.DropRight
import WordC.Prompt.Completion

/-!
# The word in front of the cursor

What is completed is the longest run of word characters that ends at the cursor. Its start is taken
to be one byte behind the start of the character in front of it. If there is no such character, or
if it takes one byte, the word is found on every line, and what is offered for it completes it.
Behind a wider character the start lies inside that character: there is no text between it and the
cursor, and no answer.
-/

namespace WordC

namespace Text

theorem byteLength_reverse (text : List Char) : byteLength text.reverse = byteLength text := by
  induction text with
  | nil => rfl
  | cons c rest ih =>
      rw [List.reverse_cons, byteLength_append, ih, byteLength_cons, byteLength_cons,
        byteLength_nil, Nat.add_zero, Nat.add_comm]

/-- No text can be cut inside a character. -/
theorem splitAt?_inside {c : Char} {offset : Nat} (hpos : 0 < offset)
    (hinside : offset < c.utf8Size) (front back : List Char) :
    splitAt? (byteLength front + offset) (front ++ c :: back) = none := by
  induction front with
  | nil =>
      obtain ⟨offset, rfl⟩ := Nat.exists_eq_add_one_of_ne_zero (Nat.ne_of_gt hpos)
      rw [byteLength_nil, Nat.zero_add, List.nil_append, splitAt?, if_pos hinside]
  | cons d front ih =>
      obtain ⟨size, hsize⟩ := Nat.exists_eq_add_one_of_ne_zero (Nat.ne_of_gt d.utf8Size_pos)
      have hbehind : byteLength (d :: front) + offset =
          size + (byteLength front + offset) + 1 := by
        rw [byteLength_cons]
        omega
      have hrest : size + (byteLength front + offset) + 1 - d.utf8Size =
          byteLength front + offset := by
        omega
      rw [hbehind, List.cons_append, splitAt?, if_neg (by omega), hrest, ih]
      rfl

end Text

namespace Prompt

open Text (byteLength splitAt?)

variable {line : String} {before after front word : List Char} {separator : Char}

/-! ## Where it begins -/

/-- The longest run of word characters that ends where a text ends. -/
structure WordBefore (before word : List Char) : Prop where
  suffix : word <:+ before
  parts : ∀ c ∈ word, isWordPart c = true
  longest : ∀ other, other <:+ before → (∀ c ∈ other, isWordPart c = true) → other <:+ word

theorem WordBefore.unique {other : List Char} (h : WordBefore before word)
    (h' : WordBefore before other) : word = other :=
  (h'.longest word h.suffix h.parts).eq_of_length_le
    (h.longest other h'.suffix h'.parts).length_le

theorem wordBefore_self (hparts : ∀ c ∈ word, isWordPart c = true) : WordBefore word word where
  suffix := List.suffix_rfl
  parts := hparts
  longest _ hsuffix _ := hsuffix

theorem wordBefore_separator (hseparator : isWordPart separator = false)
    (hparts : ∀ c ∈ word, isWordPart c = true) (front : List Char) :
    WordBefore (front ++ separator :: word) word where
  suffix := (List.suffix_cons separator word).trans (List.suffix_append front _)
  parts := hparts
  longest other hsuffix hother := by
    have hnot : ¬separator :: word <:+ other := fun hinside =>
      absurd (hother separator (hinside.mem List.mem_cons_self)) (by simp [hseparator])
    rcases List.suffix_or_suffix_of_suffix hsuffix (List.suffix_append front _) with
      hbehind | hinside
    · rcases List.suffix_cons_iff.1 hbehind with rfl | hword
      · exact absurd List.suffix_rfl hnot
      · exact hword
    · exact absurd hinside hnot

/-- By induction from the end, where the last separator is looked for. -/
theorem separator_cases (before : List Char) :
    (∀ c ∈ before, isWordPart c = true) ∨
      ∃ front separator word, before = front ++ separator :: word ∧
        isWordPart separator = false ∧ ∀ c ∈ word, isWordPart c = true := by
  induction before using List.reverseRecOn with
  | nil => exact .inl nofun
  | append_singleton before c ih =>
      cases hc : isWordPart c with
      | false => exact .inr ⟨before, c, [], rfl, hc, nofun⟩
      | true =>
          have hlast {text : List Char} (htext : ∀ d ∈ text, isWordPart d = true) :
              ∀ d ∈ text ++ [c], isWordPart d = true := by
            intro d hmem
            rcases List.mem_append.1 hmem with hmem | hmem
            · exact htext d hmem
            · exact List.mem_singleton.1 hmem ▸ hc
          rcases ih with hparts | ⟨front, separator, word, rfl, hseparator, hparts⟩
          · exact .inl (hlast hparts)
          · exact .inr ⟨front, separator, word ++ [c], by simp, hseparator, hlast hparts⟩

theorem startOfWord_self (hparts : ∀ c ∈ word, isWordPart c = true) : startOfWord word = 0 := by
  have hnone : word.reverse.dropWhile isWordPart = [] :=
    List.dropWhile_eq_nil_iff.2 fun c hmem => hparts c (List.mem_reverse.1 hmem)
  rw [startOfWord, hnone]

/-- The start is counted from the start of the separator. -/
theorem startOfWord_separator (hseparator : isWordPart separator = false)
    (hparts : ∀ c ∈ word, isWordPart c = true) (front : List Char) :
    startOfWord (front ++ separator :: word) = byteLength front + 1 := by
  have hfound : (front ++ separator :: word).reverse.dropWhile isWordPart =
      separator :: front.reverse := by
    rw [List.reverse_append, List.reverse_cons, List.append_assoc,
      List.dropWhile_append_of_pos fun c hmem => hparts c (List.mem_reverse.1 hmem),
      List.singleton_append, List.dropWhile_cons_of_neg (by simp [hseparator])]
  rw [startOfWord, hfound]
  exact congrArg (· + 1) (Text.byteLength_reverse front)

/-! ## What is offered -/

theorem mem_candidates {candidate : Candidate} :
    candidate ∈ candidates word ↔ candidate.display ∈ vocabulary ∧
      candidate.display.toList = word ++ candidate.replacement.toList := by
  obtain ⟨display, replacement⟩ := candidate
  simp only [candidates, List.mem_filterMap, Option.map_eq_some_iff, Candidate.mk.injEq,
    List.isPrefixOf?_eq_some_iff_append_eq]
  constructor
  · rintro ⟨entry, hentry, rest, hrest, rfl, rfl⟩
    exact ⟨hentry, by rw [String.toList_ofList, hrest]⟩
  · rintro ⟨hentry, htext⟩
    exact ⟨display, hentry, replacement.toList, htext.symm, rfl, String.ofList_toList⟩

variable (styles : Text.Styles)

/-- What there is for a word that is found: every entry of the vocabulary that begins with the word
is offered and nothing else, and what is put behind the word makes it the entry. -/
structure Completes (line : String) (cursor : Nat) (front word : List Char) : Prop where
  start : wordStart? line cursor = some (byteLength front)
  complete : ∃ offered, complete? line cursor = some offered ∧
    ∀ candidate, candidate ∈ offered ↔ word ≠ [] ∧ candidate.display ∈ vocabulary ∧
      candidate.display.toList = word ++ candidate.replacement.toList
  hint : ∃ shown, hint? styles line cursor = some shown ∧
    ∀ text ∈ shown, ∃ entry ∈ vocabulary, ∃ rest, entry.toList = word ++ rest ∧ rest ≠ [] ∧
      text = styles.dimmed (String.ofList rest)

/-- The start lies inside the last character in front of the word. Then there is an answer only if
the start does not matter, to the request for a hint in front of the end of the line. -/
structure Breaks (line : String) (cursor : Nat) (front : List Char) : Prop where
  start : wordStart? line cursor = some (byteLength front.dropLast + 1)
  inside : splitAt? (byteLength front.dropLast + 1) line.toList = none
  complete : complete? line cursor = none
  hint : hint? styles line cursor = none ↔ cursor = line.utf8ByteSize

theorem wordStart?_eq (hline : line.toList = before ++ after) :
    wordStart? line (byteLength before) = some (startOfWord before) := by
  rw [wordStart?, hline, Text.splitAt?_byteLength]
  rfl

theorem word?_eq (hline : line.toList = before ++ after) :
    word? line (byteLength before) =
      (splitAt? (startOfWord before) before).map fun (_, word) => word := by
  rw [word?, hline, Text.splitAt?_byteLength]
  cases hsplit : splitAt? (startOfWord before) before with
  | none => simp [hsplit]
  | some split => simp [hsplit]

theorem utf8ByteSize_eq (hline : line.toList = before ++ after) :
    line.utf8ByteSize = byteLength before + byteLength after := by
  rw [← Text.byteLength_toList, hline, Text.byteLength_append]

theorem completes_of_startOfWord (hline : line.toList = front ++ word ++ after)
    (hstart : startOfWord (front ++ word) = byteLength front) :
    Completes styles line (byteLength (front ++ word)) front word := by
  have hword : word? line (byteLength (front ++ word)) = some word := by
    rw [word?_eq hline, hstart, Text.splitAt?_byteLength]
    rfl
  constructor
  · rw [wordStart?_eq hline, hstart]
  · refine ⟨if word.isEmpty then [] else candidates word, by rw [complete?, hword]; rfl, ?_⟩
    intro candidate
    cases word with
    | nil => simp
    | cons c rest => simp [mem_candidates]
  · unfold hint?
    split
    · exact ⟨none, rfl, nofun⟩
    · rw [hword]
      change ∃ shown, (if byteLength word < 2 then some none else some (Option.map _ _)) =
        some shown ∧ _
      split
      · exact ⟨none, rfl, nofun⟩
      · refine ⟨_, rfl, fun text htext => ?_⟩
        obtain ⟨candidate, hfound, rfl⟩ := Option.map_eq_some_iff.1 htext
        obtain ⟨hentry, hdisplay⟩ := mem_candidates.1 (List.mem_of_find?_eq_some hfound)
        refine ⟨_, hentry, _, hdisplay, ?_, by rw [String.ofList_toList]⟩
        have hlonger := List.find?_some hfound
        simpa using hlonger

theorem breaks_of_separator (hline : line.toList = front ++ separator :: word ++ after)
    (hseparator : isWordPart separator = false) (hparts : ∀ c ∈ word, isWordPart c = true)
    (hwide : separator.utf8Size ≠ 1) :
    Breaks styles line (byteLength (front ++ separator :: word)) (front ++ [separator]) := by
  have hinside : 1 < separator.utf8Size := by
    have hpos := separator.utf8Size_pos
    omega
  have hstart := startOfWord_separator hseparator hparts front
  have hword : word? line (byteLength (front ++ separator :: word)) = none := by
    rw [word?_eq hline, hstart, Text.splitAt?_inside Nat.one_pos hinside]
    rfl
  constructor
  · rw [wordStart?_eq hline, hstart, List.dropLast_concat]
  · rw [List.dropLast_concat, hline, List.append_assoc, List.cons_append]
    exact Text.splitAt?_inside Nat.one_pos hinside _ _
  · rw [complete?, hword]
    rfl
  · have hsize := utf8ByteSize_eq hline
    rw [hint?, hword]
    split
    · next hless => exact ⟨nofun, fun heq => absurd heq (Nat.ne_of_lt hless)⟩
    · exact ⟨fun _ => by omega, fun _ => rfl⟩

/-- At every place of a line the word in front of it is found and completed if the character before
the word takes one byte or if there is none, and otherwise neither. -/
theorem completes_or_breaks (hline : line.toList = before ++ after) :
    ∃ front word, before = front ++ word ∧ WordBefore before word ∧
      ((∀ separator ∈ front.getLast?, separator.utf8Size = 1) →
        Completes styles line (byteLength before) front word) ∧
      ∀ separator ∈ front.getLast?, separator.utf8Size ≠ 1 →
        Breaks styles line (byteLength before) front := by
  rcases separator_cases before with hparts | ⟨front, separator, word, rfl, hseparator, hparts⟩
  · refine ⟨[], before, rfl, wordBefore_self hparts, fun _ => ?_, nofun⟩
    have hstart : startOfWord ([] ++ before) = byteLength [] := startOfWord_self hparts
    exact completes_of_startOfWord styles hline hstart
  · have hsplit : front ++ separator :: word = front ++ [separator] ++ word := by simp
    have hword := wordBefore_separator hseparator hparts front
    refine ⟨front ++ [separator], word, hsplit, hword, ?_, ?_⟩
    · intro hnarrow
      have hone : separator.utf8Size = 1 := hnarrow separator (by simp)
      have hstart := startOfWord_separator hseparator hparts front
      rw [hsplit] at hline hstart ⊢
      refine completes_of_startOfWord styles hline (hstart.trans ?_)
      simp [hone]
    · intro last hlast hwide
      obtain rfl : separator = last := by simpa using hlast
      exact breaks_of_separator styles hline hseparator hparts hwide

/-- Characters of two bytes in a word and between words, with a blank in front of the last one. -/
def assigning : String := "é × = mem"

theorem completes_or_breaks_assigning :
    assigning.toList = "é × = mem".toList ++ [] ∧
      WordBefore "é × = mem".toList "mem".toList ∧
      Completes .common assigning 11 "é × = ".toList "mem".toList := by
  have hline : assigning.toList = "é × = mem".toList ++ [] := by decide
  have hblank : isWordPart ' ' = false := by decide +kernel
  have hparts : "mem".toList.all isWordPart = true := by decide +kernel
  have hmem : WordBefore "é × = mem".toList "mem".toList :=
    wordBefore_separator hblank (List.all_eq_true.1 hparts) "é × =".toList
  have hlast : "é × = ".toList.getLast? = some ' ' := by decide
  obtain ⟨front, word, hsplit, hword, hcompletes, -⟩ := completes_or_breaks .common hline
  obtain rfl := hword.unique hmem
  obtain rfl : "é × = ".toList = front := List.append_cancel_right hsplit
  refine ⟨hline, hmem, hcompletes ?_⟩
  rw [hlast]
  rintro _ ⟨⟩
  rfl

/-- The word behind a sign of two bytes begins at the third byte, its start is taken to be the
second one, and neither a completion nor a hint is answered. -/
theorem wordStart?_sign :
    "×p".utf8ByteSize = 3 ∧ WordBefore "×p".toList "p".toList ∧ byteLength "×".toList = 2 ∧
      wordStart? "×p" 3 = some 1 ∧ splitAt? 1 "×p".toList = none ∧
      complete? "×p" 3 = none ∧ hint? .common "×p" 3 = none := by
  have hsign : isWordPart '×' = false := by decide +kernel
  have hall : "p".toList.all isWordPart = true := by decide +kernel
  have hparts : ∀ c ∈ "p".toList, isWordPart c = true := List.all_eq_true.1 hall
  have hline : "×p".toList = [] ++ '×' :: "p".toList ++ [] := by decide
  have hbreaks : Breaks .common "×p" 3 ['×'] :=
    breaks_of_separator .common hline hsign hparts (by decide)
  have hword : WordBefore "×p".toList "p".toList := wordBefore_separator hsign hparts []
  exact ⟨by decide, hword, by decide, hbreaks.start, hbreaks.inside, hbreaks.complete,
    hbreaks.hint.2 (by decide)⟩

end Prompt

end WordC
