import WordC.Program
import WordC.Proofs.Compile.Declarations

/-!
# Programs are compiled

Once every declaration has been read, the start-up code is closed: it calls `main` and halts. Then
no word of the text is open any more, and the text is the code of the resolved file.
-/

namespace WordC.Compiler

open WordC.Core (Binding Cell Draft Env)
open Syntax (Outline Scope)

variable {origin : Origin} {a : Sketch} {text data : Nat} {frame : Frame} {outline : Outline}

/-- The sketch of a compilation that is over. -/
def completed (text data : Nat) (frame : Frame) (outline : Outline) : Sketch :=
  { outlined text data frame outline [] with
    cells := Core.cells (Core.programCode text outline.sections) }

/-- The symbols of a program are those of its names. -/
structure Lists (outline : Outline) (entries : List (String × Nat)) (symbols : List Symbol) :
    Prop where
  table : ∃ table : Symbol.Table, table.symbols = symbols ∧ table.Models outline.env ∧
    table.Functions outline.globals [] entries

theorem find?_main (hmain : outline.globals.lookup "main" = some (.function 0)) :
    outline.env.find? "main" = some (.function 0) := by
  change List.findSome? _ [outline.globals, Core.builtins] = _
  rw [List.findSome?_cons, hmain]

theorem find?_prototype {table : Symbol.Table} {entries : List (String × Nat)}
    {globals : Scope Binding} (h : table.Functions globals [] entries) :
    (table.symbols.find? fun symbol => symbol.cls = .function && !symbol.defined) = none := by
  rw [List.find?_eq_none]
  intro symbol hmem htest
  simp only [Bool.and_eq_true, decide_eq_true_eq, Bool.not_eq_true'] at htest
  have hentry := h.entry symbol hmem htest.1
  rw [if_neg List.not_mem_nil, htest.2] at hentry
  cases hentry.1

/-- The start-up code ends with the call of `main`. -/
theorem reaches_finish {entry : Nat} (hawaiting : outline.awaiting = [])
    (hmain : outline.globals.lookup "main" = some (.function 0)) :
    Reaches origin (outlined text data frame outline []) (finish entry) fun program b =>
      program.entry = entry ∧
        Lists outline (Core.entries (text + 2) outline.sections) program.symbols ∧
        b = completed text data frame outline := by
  let draft := Draft.ofSections text outline.sections
  refine (reaches_view (fun table : Symbol.Table => table.Models outline.env ∧
    table.Functions outline.globals [] (Core.entries (text + 2) outline.sections))
    (fun htabled => hawaiting ▸ htabled)
    fun s hfits => hawaiting ▸ ⟨hfits.models, hfits.functions⟩).bind ?_
  rintro table _ ⟨rfl, hmodels, hfunctions⟩
  have hlists : Lists outline (Core.entries (text + 2) outline.sections) table.symbols :=
    ⟨table, rfl, hmodels, hfunctions⟩
  rw [find?_prototype hfunctions]
  refine (reaches_seen (.endAt 0)).bind ?_
  rintro token _ rfl
  refine reaches_locate.bind ?_
  rintro position _ rfl
  refine (reaches_resolve (find?_main hmain)).bind ?_
  rintro main _ ⟨rfl, hmeans⟩
  obtain ⟨hcls, hparams⟩ := hmeans.records
  rw [if_neg (not_not_intro hcls)]
  change Reaches origin _ (if main.params ≠ some 0 then _ else _) _
  rw [if_neg (not_not_intro hparams)]
  refine does_viewStartup.bind ?_
  refine does_patchStartup.bind ?_
  have hentry := hmeans.entry hcls
  change if "main" ∈ outline.awaiting then _ else _ at hentry
  rw [hawaiting, if_neg List.not_mem_nil] at hentry
  obtain ⟨-, target, htarget, hvalue⟩ := hentry
  rw [hvalue]
  refine (does_emitEntry (a := opened text data frame outline []) htarget).bind ?_
  refine does_emit.bind ?_
  refine does_report.bind ?_
  refine (reaches_seen .initial).bind ?_
  rintro tree _ rfl
  refine Reaches.pure ⟨rfl, hlists, ?_⟩
  apply Sketch.ext
  all_goals try rfl
  · change _ = Core.cells (Core.programCode text outline.sections)
    rw [← Draft.finished_ofSections]
    simp [opened, outlined, Sketch.after, Draft.finished, Core.finale]
  · simp [opened, outlined, completed, Sketch.after]

/-- The sketch of a compilation that has yet to begin. -/
def initial (machine : Machine) (ahead : List Token.Kind) : Sketch where
  textStart := machine.textEnd
  dataStart := machine.dataEnd
  ahead
  env := { locals := [], globals := [] }
  awaiting := []
  entries := []
  frame := {}
  cells := []
  data := []
  startup := 0

theorem does_textEnd :
    Does origin a (get >>= fun s => pure s.machine.textEnd : Compile Nat) a.here a :=
  .intro (.refl a) id fun _ hfits => ⟨hfits.textEnd, hfits⟩

/-- The start-up code begins with a jump to be patched. -/
theorem reaches_start {β : Type} {ahead : List Token.Kind} {next : Nat → Compile β}
    {post : β → Sketch → Prop}
    (hnext : Reaches origin
      (outlined origin.base.textEnd origin.base.dataEnd {} Outline.empty ahead)
      (next origin.base.textEnd) post) :
    Reaches origin (initial origin.base ahead)
      (get >>= fun s => emitPending .jmp >>= fun startup =>
        update (fun compiler => { compiler with startup }) >>= fun _ => next s.machine.textEnd)
      post := by
  change Reaches origin _ ((get >>= fun s => pure s.machine.textEnd : Compile Nat) >>= fun entry =>
    emitPending .jmp >>= fun startup =>
      update (fun compiler => { compiler with startup }) >>= fun _ => next entry) _
  refine does_textEnd.bind ?_
  refine does_emitPending.bind ?_
  refine does_startup.bind ?_
  exact hnext

theorem reaches_program {file : Syntax.File} (hgrammatical : file.isGrammatical)
    (hresolve : file.resolve? origin.base.dataEnd Outline.empty = some outline)
    (hawaiting : outline.awaiting = [])
    (hmain : outline.globals.lookup "main" = some (.function 0)) :
    Reaches origin (initial origin.base file.tokens) program fun program b =>
      program.entry = origin.base.textEnd ∧
        Lists outline (Core.entries (origin.base.textEnd + 2) outline.sections) program.symbols ∧
        ∃ frame, b = completed origin.base.textEnd origin.base.dataEnd frame outline := by
  refine @reaches_start _ _ _ (fun entry => view (·.bound) >>= fun rounds =>
    globalDeclarations rounds >>= fun _ => finish entry) _ ?_
  refine reaches_bound.bind ?_
  rintro rounds _ ⟨rfl, hrounds⟩
  refine (reaches_globalDeclarations file Outline.empty {} rounds hgrammatical hrounds
    hresolve).bind ?_
  rintro _ _ ⟨frame, rfl⟩
  refine (reaches_finish hawaiting hmain).weaken ?_
  rintro program _ ⟨hentry, hlists, rfl⟩
  exact ⟨hentry, hlists, frame, rfl⟩

end WordC.Compiler
