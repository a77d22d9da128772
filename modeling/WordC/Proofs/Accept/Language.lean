import WordC.Proofs.Accept.Declarations
import WordC.Proofs.Target.Checks

/-!
# The language of the compiler

The compiler gives a result for a source if and only if the source is a sequence of tokens that a
file derives and the file passes the check, unless a segment has no room for the program.
-/

namespace WordC

namespace Token.Stream

/-- The end of the input is not one of the tokens. -/
theorem proper_read (source : String) (cursor : Cursor) :
    Kind.endOfInput ∉ (read source cursor).kinds := by
  induction cursor using read.induct source with
  | case1 cursor error after hnext =>
      rw [read_of_error hnext]
      exact List.not_mem_nil
  | case2 cursor token after hnext hkind =>
      rw [read_of_end hnext hkind]
      exact List.not_mem_nil
  | case3 cursor token after hnext hkind ih =>
      rw [read_of_token hnext hkind, kinds]
      exact List.not_mem_cons_of_ne_of_not_mem (Ne.symm hkind) ih

theorem toList?_eq_ok {stream : Stream} {tokens : List Token} (h : stream.toList? = .ok tokens) :
    stream.failure? = none ∧ stream.kinds = tokens.map (·.kind) := by
  induction stream generalizing tokens with
  | done offset =>
      cases h
      exact ⟨rfl, rfl⟩
  | failed error => cases h
  | cons token rest ih =>
      rw [toList?] at h
      cases hrest : rest.toList? with
      | error error =>
          rw [hrest] at h
          cases h
      | ok others =>
          rw [hrest] at h
          cases h
          obtain ⟨hfailure, hkinds⟩ := ih hrest
          exact ⟨hfailure, by rw [kinds, hkinds, List.map_cons]⟩

theorem exists_toList? {stream : Stream} (h : stream.failure? = none) :
    ∃ tokens, stream.toList? = .ok tokens := by
  induction stream with
  | done offset => exact ⟨[], rfl⟩
  | failed error => cases h
  | cons token rest ih =>
      obtain ⟨others, hothers⟩ := ih h
      exact ⟨token :: others, by rw [toList?, hothers]; rfl⟩

end Token.Stream

namespace Compiler

open Syntax (Outline)

/-! ## The beginning -/

/-- What the compilation of a source into a machine begins with. -/
def Origin.ofSource (source : String) (machine : Machine) (hsound : machine.Sound) : Origin where
  base := machine
  sound := hsound
  failure? := (Token.Stream.ofSource source).failure?

/-- A compiler that has read nothing but the first token. -/
def starting (source : String) (current : Token) (upcoming : Token.Stream) : Compiler where
  source
  current
  upcoming
  bound := upcoming.length + 2
  symbols := Program.initialSymbols
  tree := .initial
  frame := {}
  startup := 0
  pendingCalls := []

theorem fits_starting {origin : Origin} {source : String} {current : Token}
    {upcoming : Token.Stream} {ahead : List Token.Kind}
    (hahead : Ahead origin.failure? (starting source current upcoming) ahead) :
    (initial origin.base ahead).Fits origin ⟨origin.base, starting source current upcoming⟩ where
  ahead := hahead
  models := Symbol.Table.models_initialSymbols
  functions := Symbol.Table.functions_initialSymbols
  frame := rfl
  startup := rfl
  machine :=
    { sound := origin.sound
      layout := rfl
      sp := rfl
      bp := rfl
      cycles := rfl
      cycleLimit := rfl
      heap := rfl
      isRunnable := rfl }
  textStart := rfl
  dataStart := rfl
  textEnd := rfl
  dataEnd := rfl
  cells := by
    intro index cell hcell
    cases hcell
  pending := by
    intro call hcall
    cases hcall
  data := by
    intro index word hword
    cases hword

theorem ahead_starting_cons {source : String} {token : Token} {rest : Token.Stream}
    (hstream : Token.Stream.ofSource source = .cons token rest) :
    Ahead (Token.Stream.ofSource source).failure? (starting source token rest)
      (Token.Stream.ofSource source).kinds := by
  have hproper := Token.Stream.proper_read source { rest := source.toList, offset := 0 }
  change Token.Kind.endOfInput ∉ (Token.Stream.ofSource source).kinds at hproper
  rw [hstream] at hproper ⊢
  exact
    { current := rfl
      upcoming := rfl
      failure := rfl
      ended := fun hnil => by cases hnil
      proper := hproper
      bound := by
        rw [Token.Stream.kinds, List.length_cons, Token.Stream.length_kinds]
        exact Nat.lt_succ_self _ }

/-- A source whose first token can be read is compiled from a sketch in front of all its tokens. -/
theorem compile_eq (source : String) (machine : Machine) (hsound : machine.Sound) :
    (∃ error, Token.Stream.ofSource source = .failed error) ∨
      ∃ compiler, (initial machine (Token.Stream.ofSource source).kinds).Fits
          (Origin.ofSource source machine hsound) ⟨machine, compiler⟩ ∧
        compiler.symbols = Program.initialSymbols ∧
        compile source machine =
          match program ⟨machine, compiler⟩ with
          | .ok program ⟨machine, _⟩ => .ok program machine
          | .error error ⟨machine, _⟩ => .error error machine := by
  cases hstream : Token.Stream.ofSource source with
  | failed error => exact .inl ⟨error, rfl⟩
  | done offset =>
      refine .inr ⟨starting source (.endAt offset) (.done offset), ?_, rfl, ?_⟩
      · refine @fits_starting (Origin.ofSource source machine hsound) _ _ _ _ ?_
        exact
          { current := rfl
            upcoming := rfl
            failure := by
              rw [Origin.ofSource, hstream]
              rfl
            ended := fun _ => by
              rw [Origin.ofSource, hstream]
              rfl
            proper := List.not_mem_nil
            bound := Nat.zero_lt_succ _ }
      · rw [compile, hstream]
        rfl
  | cons token rest =>
      refine .inr ⟨starting source token rest, ?_, rfl, ?_⟩
      · refine @fits_starting (Origin.ofSource source machine hsound) _ _ _ _ ?_
        rw [← hstream]
        exact ahead_starting_cons hstream
      · rw [compile, hstream]
        rfl

/-! ## Acceptance -/

/-- A file that the tokens of a source derive and that resolves in front of a machine's free
data. -/
structure Reads (source : String) (machine : Machine) (file : Syntax.File) (outline : Outline) :
    Prop where
  tokens : ∃ tokens, tokenize source = .ok tokens ∧ tokens.map (·.kind) = file.tokens
  grammatical : file.isGrammatical
  resolves : file.resolve? machine.dataEnd Outline.empty = some outline
  awaiting : outline.awaiting = []
  main : outline.globals.lookup "main" = some (.function 0)

/-- What a compilation leaves behind. -/
structure Leaves (machine : Machine) (hsound : machine.Sound) (source : String) (outline : Outline)
    (program : Program) (machine' : Machine) : Prop where
  entry : program.entry = machine.textEnd
  lists : Lists outline (Core.entries (machine.textEnd + 2) outline.sections) program.symbols
  fits : ∃ frame compiler, (completed machine.textEnd machine.dataEnd frame outline).Fits
    (Origin.ofSource source machine hsound) ⟨machine', compiler⟩

theorem reads_of_compile {source : String} {machine machine' : Machine} {program : Program}
    (hsound : machine.Sound) (hok : compile source machine = .ok program machine') :
    ∃ file outline, Reads source machine file outline ∧
      Leaves machine hsound source outline program machine' := by
  rcases compile_eq source machine hsound with ⟨error, hfailed⟩ | ⟨compiler, hfits, -, heq⟩
  · rw [compile, hfailed] at hok
    cases hok
  · rw [heq] at hok
    cases hrun : Compiler.program ⟨machine, compiler⟩ with
    | error error s =>
        rw [hrun] at hok
        cases hok
    | ok found s =>
        rw [hrun] at hok
        cases hok
        obtain ⟨file, outline, hgrammatical, htokens, hresolve, hawaiting, hmain⟩ :=
          @needs_program (Origin.ofSource source machine hsound) _ _ hfits _ _ hrun
        rw [htokens] at hfits
        obtain ⟨b, ⟨hentry, hlists, frame, rfl⟩, hfits'⟩ :=
          (reaches_program hgrammatical hresolve hawaiting hmain).ends _ hfits _ _ hrun
        have hfailure := hfits'.ahead.ended rfl
        obtain ⟨tokens, hlist⟩ := Token.Stream.exists_toList? hfailure
        refine ⟨file, outline, ⟨⟨tokens, hlist, ?_⟩, hgrammatical, hresolve, hawaiting, hmain⟩,
          hentry, hlists, frame, _, hfits'⟩
        rw [← (Token.Stream.toList?_eq_ok hlist).2, htokens]

/-- Whether the program of an outline fits into what a machine has left of its segments. -/
structure HasRoom (machine : Machine) (outline : Outline) : Prop where
  text : machine.textEnd + Core.size (Core.programCode machine.textEnd outline.sections) ≤
    machine.layout.text.stop
  data : machine.dataEnd + outline.data.length ≤ machine.layout.data.stop

/-- A compilation leaves nothing out, so there was room. -/
theorem Leaves.hasRoom {source : String} {machine machine' : Machine} {hsound : machine.Sound}
    {outline : Outline} {program : Program}
    (h : Leaves machine hsound source outline program machine') : HasRoom machine outline := by
  obtain ⟨frame, compiler, hfits⟩ := h.fits
  exact ⟨hfits.within.text, hfits.within.data⟩

/-- A file that resolves is compiled, or a segment is full because the program does not fit. -/
theorem compile_of_reads_or_full {source : String} {machine : Machine} {file : Syntax.File}
    {outline : Outline} (hsound : machine.Sound) (hreads : Reads source machine file outline) :
    (∃ program machine', compile source machine = .ok program machine') ∨
      ∃ segment machine', compile source machine = .error (.segmentFull segment) machine' ∧
        ¬HasRoom machine outline := by
  obtain ⟨tokens, htokenize, htokens⟩ := hreads.tokens
  obtain ⟨hfailure, hkinds⟩ := Token.Stream.toList?_eq_ok htokenize
  rcases compile_eq source machine hsound with ⟨error, hfailed⟩ | ⟨compiler, hfits, -, heq⟩
  · rw [hfailed] at hfailure
    cases hfailure
  · rw [hkinds, htokens] at hfits
    have hnone : (Origin.ofSource source machine hsound).failure? = none := hfailure
    have hyields := (@reaches_program (Origin.ofSource source machine hsound) _ _
      hreads.grammatical hreads.resolves hreads.awaiting hreads.main).yields _ hfits
    unfold Yields at hyields
    rw [heq]
    cases hrun : Compiler.program ⟨machine, compiler⟩ with
    | ok found s => exact .inl ⟨found, s.machine, rfl⟩
    | error error s =>
        rw [hrun] at hyields
        obtain ⟨hexcused, program, _, ⟨-, -, frame, rfl⟩, -, hshort⟩ := hyields
        rcases hexcused with ⟨segment, rfl⟩ | hscan
        · refine .inr ⟨segment, s.machine, rfl, fun hroom => hshort ?_⟩
          exact ⟨hroom.text, hroom.data, fun hsome => absurd hnone hsome⟩
        · rw [hnone] at hscan
          cases hscan

theorem compile_of_reads {source : String} {machine : Machine} {file : Syntax.File}
    {outline : Outline} (hsound : machine.Sound) (hreads : Reads source machine file outline) :
    (∃ program machine', compile source machine = .ok program machine') ∨
      ∃ segment machine', compile source machine = .error (.segmentFull segment) machine' := by
  refine (compile_of_reads_or_full hsound hreads).imp_right ?_
  rintro ⟨segment, machine', hfull, -⟩
  exact ⟨segment, machine', hfull⟩

/-- With room enough a file that resolves is compiled. -/
theorem compile_of_hasRoom {source : String} {machine : Machine} {file : Syntax.File}
    {outline : Outline} (hsound : machine.Sound) (hreads : Reads source machine file outline)
    (hroom : HasRoom machine outline) :
    ∃ program machine', compile source machine = .ok program machine' := by
  refine (compile_of_reads_or_full hsound hreads).resolve_right ?_
  rintro ⟨segment, machine', -, hshort⟩
  exact hshort hroom

/-- A compilation that gives a program has read the tokens of the file, whichever file it is that
they derive. -/
theorem Reads.exists_run {source : String} {machine machine' : Machine} {program : Program}
    {file : Syntax.File} {outline : Outline} (hreads : Reads source machine file outline)
    (hsound : machine.Sound) (hok : compile source machine = .ok program machine') :
    ∃ compiler s, (initial machine file.tokens).Fits (Origin.ofSource source machine hsound)
        ⟨machine, compiler⟩ ∧
      compiler.symbols = Program.initialSymbols ∧
      Compiler.program ⟨machine, compiler⟩ = .ok program s ∧ s.machine = machine' := by
  obtain ⟨tokens, htokenize, htokens⟩ := hreads.tokens
  obtain ⟨hfailure, hkinds⟩ := Token.Stream.toList?_eq_ok htokenize
  rcases compile_eq source machine hsound with ⟨error, hfailed⟩ | ⟨compiler, hfits, hsymbols, heq⟩
  · rw [hfailed] at hfailure
    cases hfailure
  · rw [hkinds, htokens] at hfits
    rw [heq] at hok
    cases hrun : Compiler.program ⟨machine, compiler⟩ with
    | error error s =>
        rw [hrun] at hok
        cases hok
    | ok found s =>
        rw [hrun] at hok
        cases hok
        exact ⟨compiler, s, hfits, hsymbols, hrun, rfl⟩

/-- What a compilation leaves behind is what any reading of the source says. -/
theorem leaves_of_reads {source : String} {machine machine' : Machine} {program : Program}
    {file : Syntax.File} {outline : Outline} (hsound : machine.Sound)
    (hreads : Reads source machine file outline)
    (hok : compile source machine = .ok program machine') :
    Leaves machine hsound source outline program machine' := by
  obtain ⟨compiler, s, hfits, -, hrun, rfl⟩ := hreads.exists_run hsound hok
  have hends := (@reaches_program (Origin.ofSource source machine hsound) _ _
    hreads.grammatical hreads.resolves hreads.awaiting hreads.main).ends
  obtain ⟨b, ⟨hentry, hlists, frame, rfl⟩, hfits'⟩ := hends _ hfits _ _ hrun
  exact ⟨hentry, hlists, frame, _, hfits'⟩

end Compiler

open Compiler

/-- The compiler accepts its language: sources that are tokens of a grammatical file whose names are
in order. -/
theorem compile_accepts_iff {source : String} {machine : Machine} (hsound : machine.Sound)
    (hroom : ∀ segment machine', compile source machine ≠ .error (.segmentFull segment) machine') :
    (∃ program machine', compile source machine = .ok program machine') ↔
      ∃ tokens file, tokenize source = .ok tokens ∧
        tokens.map (·.kind) = Syntax.File.tokens file ∧ file.isGrammatical ∧ file.checks := by
  constructor
  · rintro ⟨program, machine', hok⟩
    obtain ⟨file, outline, hreads, -⟩ := reads_of_compile hsound hok
    obtain ⟨tokens, htokenize, htokens⟩ := hreads.tokens
    exact ⟨tokens, file, htokenize, htokens, hreads.grammatical,
      (file.checks_iff machine.dataEnd).2
        ⟨outline, hreads.resolves, hreads.awaiting, hreads.main⟩⟩
  · rintro ⟨tokens, file, htokenize, htokens, hgrammatical, hchecks⟩
    obtain ⟨outline, hresolve, hawaiting, hmain⟩ := (file.checks_iff machine.dataEnd).1 hchecks
    rcases compile_of_reads hsound
        ⟨⟨tokens, htokenize, htokens⟩, hgrammatical, hresolve, hawaiting, hmain⟩ with
      hok | ⟨segment, machine', hfull⟩
    · exact hok
    · exact absurd hfull (hroom segment machine')

/-- Whether the compiler gives a result. -/
def isCompiled (source : String) (machine : Machine) : Bool :=
  match compile source machine with
  | .ok _ _ => true
  | .error _ _ => false

theorem isCompiled_iff {source : String} {machine : Machine} :
    isCompiled source machine = true ↔
      ∃ program machine', compile source machine = .ok program machine' := by
  unfold isCompiled
  cases compile source machine with
  | ok program machine' => exact iff_of_true rfl ⟨program, machine', rfl⟩
  | error error machine' =>
      refine iff_of_false Bool.false_ne_true ?_
      rintro ⟨program, machine'', h⟩
      cases h

/-- A program with a prototype that is called before its body follows. -/
def countdown : String :=
  "int down(int n); int main() \x7b return down(3); \x7d " ++
    "int down(int n) \x7b while (n) n = n - 1; return n; \x7d"

theorem isCompiled_countdown : isCompiled countdown Machine.small = true := by
  decide +kernel

theorem compile_accepts_iff_countdown :
    Machine.small.Sound ∧
      (∀ segment machine', compile countdown Machine.small ≠
        .error (.segmentFull segment) machine') ∧
      ∃ tokens file, tokenize countdown = .ok tokens ∧
        tokens.map (·.kind) = Syntax.File.tokens file ∧ file.isGrammatical ∧ file.checks := by
  have hcompiled := isCompiled_iff.1 isCompiled_countdown
  have hroom : ∀ segment machine', compile countdown Machine.small ≠
      .error (.segmentFull segment) machine' := by
    obtain ⟨program, machine', hok⟩ := hcompiled
    intro segment machine'' hfull
    cases hok.symm.trans hfull
  exact ⟨Machine.sound_small, hroom,
    (compile_accepts_iff Machine.sound_small hroom).1 hcompiled⟩

end WordC
