import WordC.Proofs.Accept.Language
import WordC.Proofs.Engine.Independence
import WordC.Proofs.Machine.Rewinding
import WordC.Proofs.Program.Snapshots
import WordC.Proofs.Token.Printing

/-!
# From a literal to the output

A string that is written as a literal, with escapes where it needs them, is printed as it is. On its
way it is a token, then data of a program with a zero behind its bytes, and in the end an argument
of `printf`: one program, for every string, is followed from its text to the bytes it writes.
-/

namespace WordC

open Compiler (Reads compile_of_reads imageOf leaves_of_reads loaded_of_slots)
open WordC.Core (Instr Section)
open Syntax (Outline stringWords)
open Text.Utf8 (encode)
open Token (Class IsGap Spells Writes escape)

/-! ## The text -/

/-- A program that prints a string. -/
def echo (text : String) : String :=
  "int main() \x7b return printf(\"%s\", \"" ++ String.ofList (text.toList.flatMap escape) ++
    "\"); \x7d"

def echoFile (text : String) : Syntax.File :=
  [.function ⟨.int, [], "main", .list []⟩ []
    [.leave (some (.call "printf" [.string "%s", .string text]))]]

theorem toList_between (front back : String) (body : List Char) :
    (front ++ String.ofList body ++ back).toList = front.toList ++ (body ++ back.toList) := by
  rw [String.toList_append, String.toList_append, String.toList_ofList, List.append_assoc]

theorem writes_echo (text : String) : Writes [] (echoFile text).tokens (echo text).toList := by
  have hblank : IsGap false [' '] := .blank (by decide) .nil
  have hcallee : Spells "printf".toList (.identifier "printf") :=
    Token.spells_of_isName (by decide)
  have hname : Spells "main".toList (.identifier "main") := Token.spells_of_isName (by decide)
  -- From the last token to the first; the two literals may have anything behind them.
  have htail : Writes [] [.punctuator .rightParen, .punctuator .semicolon, .punctuator .rightBrace]
      "); \x7d".toList :=
    .cons (.punctuator .rightParen) .nil (.cons (by decide))
      (.cons (.punctuator .semicolon) hblank (.cons (by decide))
        (.cons (.punctuator .rightBrace) .nil (fun _ hc => by cases hc) .nil))
  have hvalue := Writes.cons (.string text) .nil (fun _ _ => rfl) htail
  have hcomma := Writes.cons (.punctuator .comma) hblank (.cons (by decide)) hvalue
  have htemplate := Writes.cons (.string "%s") .nil (fun _ _ => rfl) hcomma
  have harguments := Writes.cons (.punctuator .leftParen) .nil (.cons (by decide)) htemplate
  have hcall := Writes.cons hcallee .nil (.cons (by decide)) harguments
  have hreturn := Writes.cons (.keyword .returnKw) hblank (.cons (by decide)) hcall
  have hbody := Writes.cons (.punctuator .leftBrace) hblank (.cons (by decide)) hreturn
  have hclosed := Writes.cons (.punctuator .rightParen) hblank (.cons (by decide)) hbody
  have hparameters := Writes.cons (.punctuator .leftParen) .nil (.cons (by decide)) hclosed
  have hmain := Writes.cons hname .nil (.cons (by decide)) hparameters
  have hfile := Writes.cons (.keyword (.type .int)) hblank (.cons (by decide)) hmain
  have hopen : "int main() \x7b return printf(\"%s\", \"".toList =
      "int main() \x7b return printf(\"%s\", ".toList ++ ['"'] := by decide
  have hclose : "\"); \x7d".toList = '"' :: "); \x7d".toList := by decide
  have hquoted : ∀ front body back : List Char, front ++ ['"'] ++ (body ++ '"' :: back) =
      front ++ ('"' :: (body ++ ['"']) ++ ([] ++ back)) := by
    intro front body back
    simp
  have hecho : (echo text).toList = _ :=
    calc (echo text).toList
      _ = _ := toList_between _ _ _
      _ = _ := congrArg₂ (fun front back => front ++ (text.toList.flatMap escape ++ back))
        hopen hclose
      _ = _ := hquoted _ _ _
  rw [hecho]
  exact hfile

theorem tokenize_echo (text : String) :
    ∃ tokens, tokenize (echo text) = .ok tokens ∧ tokens.map (·.kind) = (echoFile text).tokens := by
  have hread := tokenize_written (.nil : IsGap false []) (writes_echo text)
  rwa [List.nil_append, String.ofList_toList] at hread

/-! ## The program -/

/-- Both strings are data; the one that is printed stands behind the template. -/
def echoArguments (data : Nat) : List Core.Expr :=
  [.constant (Word.ofCount data),
    .constant (Word.ofCount (data + (stringWords "%s").length))]

def echoSections (data : Nat) : List Section :=
  [.function "main" 0 0 (.ofList [.leave (some (.trap .printf (echoArguments data)))])]

def echoOutline (text : String) (data : Nat) : Outline where
  globals := [("main", .function 0)]
  awaiting := []
  sections := echoSections data
  data := stringWords "%s" ++ stringWords text

theorem resolve_echo (text : String) (data : Nat) :
    (echoFile text).resolve? data Outline.empty = some (echoOutline text data) := by
  have hwords : (Syntax.Stmt.block []
      [.leave (some (.call "printf" [.string "%s", .string text]))]).data =
        stringWords "%s" ++ stringWords text := by
    simp only [Syntax.Stmt.data, Syntax.Stmt.bodyData, Syntax.Expr.data, Syntax.Expr.argumentData,
      Syntax.declaratorData, List.flatMap_nil, List.append_nil, List.nil_append]
  rw [echoOutline, ← hwords]
  rfl

theorem code_echo (start data : Nat) :
    Core.programCode start (echoSections data) =
      [.jump .jmp (start + 14),
        .withWord .ent 0,
        .withWord .imm (Word.ofCount data), .plain .push,
        .withWord .imm (Word.ofCount (data + (stringWords "%s").length)), .plain .push,
        .withWord (.trap .printf) (Word.ofCount 2),
        .plain .lev,
        .plain .lev,
        .call "main",
        .plain .exit] := rfl

/-! ## The run -/

section Run

variable {image : Image} {first : Machine} {text : String} {data : Nat}

/-- The run takes ten cycles and four words of the stack. -/
theorem runSteps_echo (hloaded : image.Loaded) (hsections : image.sections = echoSections data)
    (hstarting : image.Starting first) (hpc : first.pc = image.start) (hallows : first.Allows 10)
    (htext : '\x00' ∉ text.toList)
    (hwords : Memory.Holds first.memory data (stringWords "%s" ++ stringWords text))
    (hstop : data + (stringWords "%s" ++ stringWords text).length ≤ image.stack.start)
    (hroom : image.stack.start + 4 ≤ image.stack.stop) (hmode : first.host.sink.mode = .accepts)
    (tracing : Bool) (more : Nat) :
    ∃ m, Machine.runSteps tracing (10 + more) first =
        .ok (some (Word.ofCount (encode text).length)) m ∧
      m.host.sink.written = first.host.sink.written ++ encode text := by
  have hcode : image.Has image.start (Core.programCode image.start image.sections) :=
    fun _ hline => hline
  rw [hsections, code_echo] at hcode
  simp only [Image.has_cons] at hcode
  obtain ⟨hjump, henter, htemplate, hpush, hstring, hpush', hprint, hleave, -, hcall, hexit, -⟩ :=
    hcode
  have hmain : image.entries.lookup "main" = some (image.start + 2) := by
    rw [Image.entries, hsections]
    rfl
  rw [List.length_append] at hstop
  have hstack : ∀ used < 4, image.stack.start + used < image.stack.stop := by
    intro used hused
    omega
  let stop := image.stack.stop
  let template := Word.ofCount data
  let string := Word.ofCount (data + (stringWords "%s").length)
  let frame := [Word.ofCount stop, Word.ofCount (image.start + 16)]
  let sink := first.host.sink
  have hbegun : image.Reaches tracing first 0 ⟨image.start, stop, first.acc, [], sink⟩ :=
    hpc ▸ .start hstarting
  have hjumped : image.Reaches tracing first 1 ⟨image.start + 14, stop, first.acc, [], sink⟩ :=
    hbegun.jump hloaded (hallows.mono (by decide)) hjump (hloaded.lt_textEnd hcall)
  have hcalled : image.Reaches tracing first 2
      ⟨image.start + 2, stop, first.acc, frame.tail, sink⟩ :=
    hjumped.call hloaded (hallows.mono (by decide)) (hstack 0 (by decide)) hcall hmain
      (hloaded.lt_textEnd henter)
  have hentered : image.Reaches tracing first 3
      ⟨image.start + 4, stop - 2, first.acc, frame, sink⟩ :=
    hcalled.enter hloaded (hallows.mono (by decide)) (hstack 1 (by decide)) henter
  have htaken : image.Reaches tracing first 5
      ⟨image.start + 7, stop - 2, template, template :: frame, sink⟩ :=
    (hentered.imm hloaded (hallows.mono (by decide)) htemplate).push hloaded
      (hallows.mono (by decide)) (hstack 2 (by decide)) hpush
  have hboth : image.Reaches tracing first 7
      ⟨image.start + 10, stop - 2, string, string :: template :: frame, sink⟩ :=
    (htaken.imm hloaded (hallows.mono (by decide)) hstring).push hloaded
      (hallows.mono (by decide)) (hstack 3 (by decide)) hpush'
  have hprinted : image.Reaches tracing first 8
      ⟨image.start + 12, stop - 2, Word.ofCount (encode text).length, frame,
        { sink with written := sink.written ++ encode text }⟩ :=
    hboth.printf hloaded (hallows.mono (by decide)) htext hwords.left (by omega) hwords.right
      (by omega) hmode rfl hprint
  have hleft : image.Reaches tracing first 9
      ⟨image.start + 16, stop, Word.ofCount (encode text).length, [],
        { sink with written := sink.written ++ encode text }⟩ :=
    hprinted.leave hloaded (hallows.mono (by decide)) rfl
      (Nat.sub_add_cancel (Nat.le_trans (by omega) hroom)) ⟨by omega, Nat.le_refl _⟩ hleave
      (hloaded.lt_textEnd hexit)
  obtain ⟨m, hrun, hsink⟩ := hleft.exit hloaded hallows hexit more
  exact ⟨m, hrun, congrArg Sink.written hsink⟩

end Run

namespace Engine

variable {poolSize steps : Nat} {old : Machine} {text : String} {tracing : Bool}

/-- A string without the character zero, written as a literal, is printed as it is, and the bytes
are counted. -/
theorem eval_echo (hreached : Reachable poolSize old) (hpool : poolSize < 2 ^ 63)
    (htext : '\x00' ∉ text.toList)
    (hroom : ∀ segment m, Engine.compile (echo text) old ≠ .error (.segmentFull segment) m)
    (hmode : old.host.sink.mode = .accepts)
    (hlimit : ∀ limit, old.cycleLimit = some limit → 10 ≤ limit) (hsteps : 10 ≤ steps) :
    ∃ word m, Engine.eval (echo text) tracing steps old = .ok (some word) m ∧
      word.toInt = (encode text).length ∧
      m.host.sink.written = old.host.sink.written ++ encode text := by
  obtain ⟨host, new, calls, hcreate, hperformed⟩ := hreached
  obtain ⟨hintact, hsize⟩ := Machine.intact_create hcreate
  have hold : old.IntactWith new.layout :=
    hperformed ▸ intactWith_performAll ⟨hintact, rfl⟩ calls
  have hidle := Machine.idle_clear hold.intact
  have hsound := hidle.intact.sound
  have hreads : Reads (echo text) old.clear (echoFile text) (echoOutline text old.clear.dataEnd) :=
    ⟨tokenize_echo text, rfl, resolve_echo text _, rfl, rfl⟩
  have hcompile : Engine.compile (echo text) old = WordC.compile (echo text) old.clear := rfl
  rw [hcompile] at hroom
  obtain ⟨program, m, hok⟩ := (compile_of_reads hsound hreads).resolve_right
    fun ⟨segment, m, hfull⟩ => hroom segment m hfull
  have hleaves := leaves_of_reads hsound hreads hok
  have hloaded := loaded_of_slots (hold.layout ▸ hsize ▸ hpool) hreads hleaves (by
    intro name arity slots body hmem
    cases List.mem_singleton.1 hmem
    decide)
  have hready := ready_of_idle hidle hok hleaves
  have hrewound := hready.rewound hready.intact.self
  have hsink : m.host.sink = old.host.sink := by
    have hcompiled := Machine.sink_compile old.clear (echo text)
    rwa [Machine.after_of_ok hok] at hcompiled
  have hallows : (m.reset.started program.entry).Allows 10 := by
    obtain ⟨frame, compiler, hfits⟩ := hleaves.fits
    have hsame : m.cycleLimit = old.cycleLimit := hfits.machine.cycleLimit
    exact fun limit hlimited => hlimit limit (hsame.symm.trans hlimited)
  have hstack : m.layout.stack.start + 16 ≤ m.layout.stack.stop := by
    have hlayout : m.layout = old.layout := hleaves.layout
    rw [hlayout, hold.layout]
    exact Machine.stack_room_of_create hcreate
  obtain ⟨last, hrun, hwritten⟩ := runSteps_echo hloaded rfl (hrewound.started program.entry) rfl
    hallows htext (hleaves.holds_reset ⟨hidle.intact, rfl⟩ hok) hleaves.data_le_stack
    (Nat.le_trans (Nat.add_le_add_left (by decide) _) hstack) (hsink ▸ hmode) tracing (steps - 10)
  rw [Nat.add_sub_cancel' hsteps] at hrun
  have heval : Engine.eval (echo text) tracing steps old =
      Machine.settled (.ok (some (Word.ofCount (encode text).length)) last) := by
    rw [← hrun, Engine.eval, Machine.bind_of_ok (hcompile.trans hok), Engine.run,
      Machine.modify_bind, Machine.runFrom_eq rfl]
  have hlength : (encode text).length < 2 ^ 63 := by
    have hdata := hleaves.data_le_stack
    have hsmall := hloaded.stack_lt
    have hwords : (echoOutline text old.clear.dataEnd).data.length =
        (stringWords "%s").length + ((encode text).length + 1) := by
      simp only [echoOutline, stringWords, List.length_append, List.length_map,
        List.length_singleton]
    change m.layout.stack.stop < 2 ^ 63 at hsmall
    omega
  refine ⟨_, _, heval, Int64.toInt_ofNat_of_lt hlength, ?_⟩
  rw [← hsink]
  exact hwritten

/-! ## Two engines -/

/-- An evaluation that has ended stays as it is. -/
theorem eval_of_le {source : String} {more : Nat}
    (hended : ∀ m, Engine.eval source tracing steps old ≠ .ok none m) (hle : steps ≤ more) :
    Engine.eval source tracing more old = Engine.eval source tracing steps old := by
  unfold Engine.eval at hended ⊢
  cases hcompile : Engine.compile source old with
  | error error m => rw [Machine.bind_of_error hcompile, Machine.bind_of_error hcompile]
  | ok program m =>
      rw [Machine.bind_of_ok hcompile] at hended ⊢
      rw [Machine.bind_of_ok hcompile]
      unfold Engine.run at hended ⊢
      rw [Machine.modify_bind] at hended ⊢
      exact Machine.runFrom_of_le hended hle

theorem eval_echo_accented :
    Reachable 256 .small ∧ 256 < 2 ^ 63 ∧ '\x00' ∉ "é\n".toList ∧
    (∀ segment m, Engine.compile (echo "é\n") .small ≠ .error (.segmentFull segment) m) ∧
    Machine.small.host.sink.mode = .accepts ∧
    (∀ limit, Machine.small.cycleLimit = some limit → 10 ≤ limit) ∧ 10 ≤ 12 ∧
    ∃ word m, Engine.eval (echo "é\n") false 12 .small = .ok (some word) m ∧
      word.toInt = (encode "é\n").length ∧
      m.host.sink.written = Machine.small.host.sink.written ++ encode "é\n" := by
  have hreached : Reachable 256 .small := ⟨_, _, [], Machine.create_small, rfl⟩
  have hcompiled : isCompiled (echo "é\n") Machine.small.clear = true := by decide +kernel
  have hroom : ∀ segment m,
      Engine.compile (echo "é\n") .small ≠ .error (.segmentFull segment) m := by
    obtain ⟨program, m, hok⟩ := isCompiled_iff.1 hcompiled
    intro segment m' hfull
    cases hok.symm.trans hfull
  exact ⟨hreached, by decide, by decide, hroom, rfl, nofun, by decide,
    eval_echo hreached (by decide) (by decide) hroom rfl nofun (by decide)⟩

/-- An engine that lets a run print its output but not exit. -/
def limited : Machine :=
  performAll .small [.setCycleLimit (some 9)]

def isFault : EStateM.Result Error Machine (Option Word) → Bool
  | .error _ _ => true
  | .ok _ _ => false

/-- With fewer cycles the string is not counted, whatever there is room for. -/
theorem eval_echo_limited :
    Reachable 256 limited ∧ '\x00' ∉ "a".toList ∧
    (∀ segment m, Engine.compile (echo "a") limited ≠ .error (.segmentFull segment) m) ∧
    limited.host.sink.mode = .accepts ∧
    ∀ tracing steps word m, Engine.eval (echo "a") tracing steps limited ≠ .ok (some word) m := by
  have hcompiled : isCompiled (echo "a") limited.clear = true := by decide +kernel
  have hfault : ∀ tracing, isFault (Engine.eval (echo "a") tracing 10 limited) = true := by
    decide +kernel
  refine ⟨⟨_, _, _, Machine.create_small, rfl⟩, by decide, ?_, rfl, ?_⟩
  · obtain ⟨program, m, hok⟩ := isCompiled_iff.1 hcompiled
    intro segment m' hfull
    cases hok.symm.trans hfull
  · intro tracing steps word m hok
    -- The faulty run and the one that is said to exit have both ended.
    have hended : ∀ m', Engine.eval (echo "a") tracing steps limited ≠ .ok none m' :=
      fun m' hnone => by cases hok.symm.trans hnone
    have hended' : ∀ m', Engine.eval (echo "a") tracing 10 limited ≠ .ok none m' := by
      intro m' hnone
      have hcontra := hfault tracing
      rw [hnone] at hcontra
      cases hcontra
    have hsame := (eval_of_le hended (Nat.le_max_left steps 10)).symm.trans
      (eval_of_le hended' (Nat.le_max_right steps 10))
    have hcontra := hfault tracing
    rw [← hsame, hok] at hcontra
    cases hcontra

end Engine

end WordC
