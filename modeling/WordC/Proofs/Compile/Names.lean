import WordC.Proofs.Compile.Actions
import WordC.Proofs.Machine.Decoding

/-!
# Names and calls

Declaring a name succeeds exactly if its scope does not have it yet, and resolving one finds what
the environment binds it to. A call is written with the entry of its function if that is known, and
is pending otherwise.
-/

namespace WordC

open WordC.Core (Binding Cell Env Instr Place)
open Syntax (Scope Scopes)

namespace Core.Env

/-- The scope in which the next name is declared. -/
def innermost (env : Env) : Scope Binding :=
  env.locals.headD env.globals

theorem declare?_of_innermost {env : Env} {name : String} {place : Place}
    (hinside : env.locals ≠ []) (h : env.innermost.lookup name = none) :
    ∃ env', env.declare? name place = some env' := by
  obtain ⟨locals, globals⟩ := env
  cases locals with
  | nil => exact absurd rfl hinside
  | cons scope outer =>
      have hscope : scope.declare? name (Binding.object place) = some ((name, _) :: scope) :=
        Scope.declare?_eq_some.2 ⟨h, rfl⟩
      exact ⟨_, by rw [declare?, Scopes.declare?, hscope]; rfl⟩

end Core.Env

theorem Symbol.Table.Models.innermost {table : Symbol.Table} {env : Env} (h : table.Models env) :
    table.Holds table.scope env.innermost := by
  obtain ⟨ids, hids, hlocals⟩ := h.locals
  obtain ⟨locals, globals⟩ := env
  cases hlocals with
  | nil =>
      have hscope : table.scope = 1 := by simp [Symbol.Table.scope, hids]
      rw [hscope]
      exact h.globals
  | @cons id scope ids scopes hhead _ =>
      have hscope : table.scope = id := by simp [Symbol.Table.scope, hids]
      rw [hscope]
      exact hhead

namespace Compiler

variable {α : Type} {origin : Origin} {a b : Sketch}

/-! ## Declarations -/

/-- Replaces the table of symbols, in which no function gets an entry. -/
theorem Sketch.Fits.withSymbols {s : State} {table : Symbol.Table} {env : Env}
    {awaiting : List String} (h : a.Fits origin s) (hmodels : table.Models env)
    (hfunctions : table.Functions env.globals awaiting a.entries)
    (hawaiting : ∀ name ∈ a.awaiting, name ∈ awaiting) :
    Sketch.Fits { a with env, awaiting } origin
      ⟨s.machine, { s.compiler with symbols := table }⟩ :=
  { h with
    ahead := { h.ahead with }
    models := hmodels
    functions := hfunctions
    cells := h.cells
    pending := fun call hcall => (h.pending call hcall).imp_left (hawaiting call.1) }

theorem declare_run {symbol : Symbol} (s : State) :
    declare symbol s =
      match s.compiler.symbols.declare symbol with
      | .ok (added, table) => .ok added ⟨s.machine, { s.compiler with symbols := table }⟩
      | .error error => .error error s := by
  obtain ⟨machine, compiler⟩ := s
  change EStateM.bind (ofExcept (compiler.symbols.declare symbol)) _ _ = _
  unfold EStateM.bind
  cases compiler.symbols.declare symbol with
  | error error => rfl
  | ok result => rfl

/-- A declaration gives the symbol its level and scope. -/
theorem declare_run_of_free {symbol : Symbol} {s : State}
    (hfree : s.compiler.symbols.slot? s.compiler.symbols.scope symbol.name = none) :
    declare symbol s =
      .ok { symbol with level := s.compiler.symbols.level, scope := s.compiler.symbols.scope }
        ⟨s.machine, { s.compiler with symbols := s.compiler.symbols.add symbol }⟩ := by
  rw [declare_run, Symbol.Table.declare_eq_ok.2 ⟨hfree, rfl, rfl⟩]

theorem needs_declare {symbol : Symbol} :
    Needs origin a (declare symbol) (a.env.innermost.lookup symbol.name = none) := by
  intro s hfits added s' hok
  have hinnermost := hfits.models.innermost
  cases hlookup : a.env.innermost.lookup symbol.name with
  | none => rfl
  | some binding =>
      obtain ⟨found, hfound, _⟩ := hinnermost.findIn?_of_lookup hlookup
      obtain ⟨slot, hslot, -⟩ := Option.bind_eq_some_iff.1 hfound
      rw [declare_run, Symbol.Table.declare, hslot] at hok
      cases hok

/-- A declaration is accepted if every table of the names has a place for it. -/
theorem reaches_declare {symbol : Symbol} (known : Symbol → Prop) (hprecedes : a.Precedes b)
    (htable : ∀ table : Symbol.Table, table.Models a.env →
      table.Functions a.env.globals a.awaiting a.entries →
      table.findIn? table.scope symbol.name = none ∧ (table.add symbol).Models b.env ∧
        (table.add symbol).Functions b.env.globals b.awaiting b.entries ∧
        known { symbol with level := table.level, scope := table.scope })
    (hfits : ∀ s, a.Fits origin s → (s.compiler.symbols.add symbol).Models b.env →
      (s.compiler.symbols.add symbol).Functions b.env.globals b.awaiting b.entries →
      b.Fits origin ⟨s.machine, { s.compiler with symbols := s.compiler.symbols.add symbol }⟩) :
    Reaches origin a (declare symbol) fun added c => c = b ∧ known added where
  attains := by
    rintro ⟨table, hmodels, hfunctions⟩
    obtain ⟨-, hmodels', hfunctions', hknown⟩ := htable table hmodels hfunctions
    exact ⟨_, b, ⟨rfl, hknown⟩, hprecedes, _, hmodels', hfunctions'⟩
  yields := by
    intro s hs
    obtain ⟨hfree, hmodels, hfunctions, hknown⟩ := htable _ hs.models hs.functions
    unfold Yields
    rw [declare_run_of_free (hs.models.indexed.slot?_eq_none.2 hfree)]
    exact ⟨b, ⟨rfl, hknown⟩, hfits s hs hmodels hfunctions⟩

theorem reaches_declareLocal {symbol : Symbol} {place : Place} {env : Env}
    (hdeclare : a.env.declare? symbol.name place = some env) (hplace : place.isLocal = true)
    (hcls : symbol.cls = .object) (hvalue : symbol.value = place.operand) :
    Reaches origin a (declare symbol) fun added b =>
      b = { a with env } ∧ added.Records (.object place) := by
  refine reaches_declare _ ⟨Nat.le_refl _, Nat.le_refl _, id⟩ (fun table hmodels hfunctions => ?_)
    fun _ hfits hmodels hfunctions => hfits.withSymbols hmodels hfunctions fun _ hname => hname
  obtain ⟨hfree, hmodels', hrecords⟩ := hmodels.declareLocal hdeclare hplace hcls hvalue
  have hglobals : env.globals = a.env.globals := by
    obtain ⟨locals, _, rfl⟩ := Option.map_eq_some_iff.1 hdeclare
    rfl
  have hfunctions' : (table.add symbol).Functions a.env.globals a.awaiting a.entries :=
    hfunctions.add_other (by rw [hcls]; exact Symbol.Class.noConfusion)
  rw [← hglobals] at hfunctions'
  exact ⟨hfree, hmodels', hfunctions', hrecords⟩

/-- Declares a variable or constant of the file. -/
theorem reaches_declareGlobal {symbol : Symbol} {binding : Binding} {globals : Scope Binding}
    (houtside : a.env.locals = [])
    (hdeclare : a.env.globals.declare? symbol.name binding = some globals)
    (hrecords : ({ symbol with level := Symbol.globalLevel, scope := 1 } : Symbol).Records binding)
    (hcls : symbol.cls ≠ .function) :
    Reaches origin a (declare symbol) fun _ b => b = { a with env := { a.env with globals } } := by
  refine (reaches_declare (a := a) (b := { a with env := { a.env with globals } })
    (fun _ => True) ⟨Nat.le_refl _, Nat.le_refl _, id⟩
    (fun table hmodels hfunctions => ?_) fun _ hfits hmodels hfunctions =>
      hfits.withSymbols hmodels hfunctions fun _ hname => hname).weaken fun _ _ h => h.1
  obtain ⟨hfree, hmodels', _, _⟩ := hmodels.declareGlobal houtside hdeclare hrecords
  exact ⟨hfree, hmodels', (hfunctions.add_other hcls).declare hdeclare, trivial⟩

theorem reaches_declarePrototype {symbol : Symbol} {arity : Nat} {globals : Scope Binding}
    (houtside : a.env.locals = [])
    (hdeclare : a.env.globals.declare? symbol.name (.function arity) = some globals)
    (hcls : symbol.cls = .function) (hparams : symbol.params = some arity)
    (hdefined : symbol.defined = false) :
    Reaches origin a (declare symbol) fun _ b =>
      b = { a with env := { a.env with globals }, awaiting := symbol.name :: a.awaiting } := by
  refine (reaches_declare (a := a)
    (b := { a with env := { a.env with globals }, awaiting := symbol.name :: a.awaiting })
    (fun _ => True) ⟨Nat.le_refl _, Nat.le_refl _, id⟩
    (fun table hmodels hfunctions => ?_) fun _ hfits hmodels hfunctions =>
      hfits.withSymbols hmodels hfunctions fun _ hname =>
        List.mem_cons_of_mem _ hname).weaken fun _ _ h => h.1
  obtain ⟨hfree, hmodels', hlevel, hscope⟩ :=
    hmodels.declareGlobal houtside hdeclare ⟨hcls, hparams⟩
  exact ⟨hfree, hmodels',
    hfunctions.add_prototype hmodels.indexed hdeclare (hscope ▸ hfree) hscope hlevel hdefined,
    trivial⟩

/-- Declares a function whose body follows. -/
theorem reaches_declareFunction {symbol : Symbol} {arity entry : Nat} {globals : Scope Binding}
    (houtside : a.env.locals = [])
    (hdeclare : a.env.globals.declare? symbol.name (.function arity) = some globals)
    (hcls : symbol.cls = .function) (hparams : symbol.params = some arity)
    (hdefined : symbol.defined = true) (hvalue : symbol.value = Word.ofCount entry) :
    Reaches origin a (declare symbol) fun _ b =>
      b = { a with
        env := { a.env with globals }
        entries := a.entries ++ [(symbol.name, entry)] } := by
  refine (reaches_declare (a := a)
    (b := { a with
      env := { a.env with globals }
      entries := a.entries ++ [(symbol.name, entry)] })
    (fun _ => True) ⟨Nat.le_refl _, Nat.le_refl _, id⟩
    (fun table hmodels hfunctions => ?_) fun s hfits hmodels hfunctions => ?_).weaken
      fun _ _ h => h.1
  · obtain ⟨hfree, hmodels', hlevel, hscope⟩ :=
      hmodels.declareGlobal houtside hdeclare ⟨hcls, hparams⟩
    exact ⟨hfree, hmodels',
      hfunctions.add_defined hmodels.indexed hdeclare (hscope ▸ hfree) hscope hlevel hdefined
        hvalue, trivial⟩
  have hlookup := (Scope.declare?_eq_some.1 hdeclare).1
  have hfresh : ¬ (symbol.name ∈ a.awaiting ∨ (a.entries.lookup symbol.name).isSome) := by
    intro hname
    obtain ⟨arity, hfound⟩ := hfits.functions.declared symbol.name hname
    rw [hlookup] at hfound
    cases hfound
  have hentries : a.entries.lookup symbol.name = none :=
    Option.not_isSome_iff_eq_none.1 fun hsome => hfresh (.inr hsome)
  refine
    { hfits with
      ahead := { hfits.ahead with }
      models := hmodels
      functions := hfunctions
      cells := ?_
      pending := hfits.pending }
  intro index cell hcell
  have hold := hfits.cells index cell hcell
  refine hold.addEntry hentries ?_
  rintro rfl
  exact hfresh (.inl (hfits.pending _ ((Cell.writtenAt_of_none hentries).1 hold)).1)

/-! ## Scopes -/

theorem does_enterScope : Does origin a enterScope () { a with env := a.env.enter } := by
  refine .intro ⟨Nat.le_refl _, Nat.le_refl _, id⟩ ?_ fun s hfits => ⟨rfl, ?_⟩
  · rintro ⟨table, hmodels, hfunctions⟩
    exact ⟨_, hmodels.enter, hfunctions.congr rfl⟩
  · exact hfits.withSymbols hfits.models.enter (hfits.functions.congr rfl) fun _ hname => hname

theorem leaveScope_of_leave? {s : State} {outside : Symbol.Table}
    (h : s.compiler.symbols.leave? = some outside) :
    leaveScope s = .ok () ⟨s.machine, { s.compiler with symbols := outside }⟩ := by
  rw [leaveScope, bind_run_of_ok (show view (·.symbols) s = .ok s.compiler.symbols s from rfl)]
  simp only [h]
  rfl

theorem does_leaveScope {inner : Scope Binding} {outer : Scopes Binding}
    (hlocals : a.env.locals = inner :: outer) :
    Does origin a leaveScope () { a with env := { a.env with locals := outer } } := by
  have hinside : a.env = { a.env with locals := inner :: outer } := by rw [← hlocals]
  refine .intro ⟨Nat.le_refl _, Nat.le_refl _, id⟩ ?_ fun s hfits => ?_
  · rintro ⟨table, hmodels, hfunctions⟩
    rw [hinside] at hmodels
    exact ⟨_, hmodels.leave.2, hfunctions.congr rfl⟩
  have hmodels := hfits.models
  rw [hinside] at hmodels
  obtain ⟨hleave, houter⟩ := hmodels.leave
  have hdrop := hfits.withSymbols houter (hfits.functions.congr rfl) fun _ hname => hname
  unfold Yields
  rw [leaveScope_of_leave? hleave]
  exact ⟨rfl, hdrop⟩

theorem does_frame (change : Frame → Frame) :
    Does origin a (update fun compiler => { compiler with frame := change compiler.frame }) ()
      { a with frame := change a.frame } := by
  refine .intro ⟨Nat.le_refl _, Nat.le_refl _, id⟩ id fun s hfits => ⟨rfl, ?_⟩
  exact
    { hfits with
      ahead := { hfits.ahead with }
      frame := congrArg change hfits.frame }

theorem does_viewFrame {field : Frame → α} :
    Does origin a (view fun compiler => field compiler.frame) (field a.frame) a :=
  does_view fun _ hfits => congrArg field hfits.frame

theorem does_startup {site : Nat} :
    Does origin a (update fun compiler => { compiler with startup := site }) ()
      { a with startup := site } := by
  refine .intro ⟨Nat.le_refl _, Nat.le_refl _, id⟩ id fun s hfits => ⟨rfl, ?_⟩
  exact
    { hfits with
      ahead := { hfits.ahead with }
      startup := rfl }

theorem does_viewStartup : Does origin a (view (·.startup)) a.startup a :=
  does_view fun _ hfits => hfits.startup

/-! ## Uses -/

/-- What a name in use is known to be. -/
structure Sketch.Means (a : Sketch) (name : String) (binding : Binding) (symbol : Symbol) :
    Prop where
  find : a.env.find? name = some binding
  named : symbol.name = name
  records : symbol.Records binding
  entry : symbol.cls = .function →
    if name ∈ a.awaiting then symbol.defined = false
    else symbol.defined = true ∧
      ∃ entry, a.entries.lookup name = some entry ∧ symbol.value = Word.ofCount entry

theorem resolve_run {name : String} {position : Position} (s : State) :
    resolve name position s =
      match s.compiler.symbols.lookup? name with
      | some symbol => .ok symbol s
      | none => .error (.undefinedName name position) s := by
  obtain ⟨machine, compiler⟩ := s
  change ofExcept (compiler.symbols.resolve name position) _ = _
  unfold Symbol.Table.resolve
  cases compiler.symbols.lookup? name with
  | none => rfl
  | some symbol => rfl

/-- A table finds what the name is bound to. -/
theorem Sketch.means_of_find? {table : Symbol.Table} {name : String} {binding : Binding}
    (hmodels : table.Models a.env)
    (hfunctions : table.Functions a.env.globals a.awaiting a.entries)
    (hfind : a.env.find? name = some binding) :
    ∃ symbol, table.lookup? name = some symbol ∧ a.Means name binding symbol := by
  obtain ⟨symbol, hlookup, hrecords⟩ := hmodels.lookup? hfind
  have hname := hmodels.indexed.name_of_lookup? hlookup
  have hmem := Symbol.Table.mem_of_lookup? hlookup
  refine ⟨symbol, hlookup, hfind, hname, hrecords, fun hcls => ?_⟩
  have hentry := hfunctions.entry symbol hmem hcls
  rw [hname] at hentry
  exact hentry

theorem reaches_resolve {name : String} {position : Position} {binding : Binding}
    (hfind : a.env.find? name = some binding) :
    Reaches origin a (resolve name position) fun symbol b =>
      b = a ∧ a.Means name binding symbol where
  attains := by
    rintro ⟨table, hmodels, hfunctions⟩
    obtain ⟨symbol, -, hmeans⟩ := Sketch.means_of_find? hmodels hfunctions hfind
    exact ⟨symbol, a, ⟨rfl, hmeans⟩, .refl a, table, hmodels, hfunctions⟩
  yields := by
    intro s hfits
    obtain ⟨symbol, hlookup, hmeans⟩ := Sketch.means_of_find? hfits.models hfits.functions hfind
    unfold Yields
    rw [resolve_run, hlookup]
    exact ⟨a, ⟨rfl, hmeans⟩, hfits⟩

theorem ends_resolve {name : String} {position : Position} :
    Ends origin a (resolve name position) fun symbol b =>
      b = a ∧ ∃ binding, a.Means name binding symbol := by
  intro s hfits symbol s' hok
  cases hfind : a.env.find? name with
  | none =>
      rw [resolve_run, hfits.models.lookup?_none hfind] at hok
      cases hok
  | some binding =>
      obtain ⟨b, ⟨rfl, hmeans⟩, hfits'⟩ := (reaches_resolve hfind).ends s hfits symbol s' hok
      exact ⟨b, ⟨rfl, binding, hmeans⟩, hfits'⟩

theorem does_emitAddress {symbol : Symbol} {place : Place}
    (hrecords : symbol.Records (.object place)) :
    Does origin a (emitAddress symbol) () (a.after a.ahead place.load.cells []) := by
  obtain ⟨_, hlocal, hvalue⟩ := hrecords
  unfold emitAddress
  rw [hlocal, hvalue]
  exact does_emitWith

/-! ## Calls -/

/-- The last word is the operand of a call of `name`. -/
theorem Sketch.Fits.nameLast {s : State} {name : String} {ahead : List Token.Kind}
    {front : List Cell} {old : Cell} {data : List Word} {pending : List (String × Nat)}
    (h : (a.after ahead (front ++ [old]) data).Fits origin s) (hold : ∀ other, old ≠ .entry other)
    (hmore : s.compiler.pendingCalls ⊆ pending)
    (hnew : ∀ call ∈ pending, call ∈ s.compiler.pendingCalls ∨
      call = (name, a.here + front.length) ∧ name ∈ a.awaiting)
    (hwritten : (Cell.entry name).WrittenAt s.machine.memory a.entries pending
      (a.here + front.length)) :
    (a.after ahead (front ++ [.entry name]) data).Fits origin
      ⟨s.machine, { s.compiler with pendingCalls := pending }⟩ := by
  have hlast : (a.cells ++ (front ++ [Cell.entry name]))[a.cells.length + front.length]? =
      some (.entry name) := by
    rw [List.getElem?_append_right (Nat.le_add_right _ _), Nat.add_sub_cancel_left]
    exact List.getElem?_concat_length
  have hlastOld : (a.cells ++ (front ++ [old]))[a.cells.length + front.length]? = some old := by
    rw [List.getElem?_append_right (Nat.le_add_right _ _), Nat.add_sub_cancel_left]
    exact List.getElem?_concat_length
  have hother : ∀ index, index ≠ a.cells.length + front.length →
      (a.cells ++ (front ++ [Cell.entry name]))[index]? = (a.cells ++ (front ++ [old]))[index]? := by
    intro index hne
    rw [← List.append_assoc, ← List.append_assoc]
    rcases Nat.lt_or_ge index (a.cells ++ front).length with hlt | hge
    · rw [List.getElem?_append_left hlt, List.getElem?_append_left hlt]
    · rw [List.getElem?_eq_none, List.getElem?_eq_none]
      all_goals
        simp only [List.length_append, List.length_singleton] at hge ⊢
        omega
  have haddress : a.textStart + (a.cells.length + front.length) = a.here + front.length := by
    rw [Sketch.here]
    omega
  refine
    { h with
      ahead := { h.ahead with }
      textEnd := ?_
      cells := ?_
      pending := ?_ }
  · rw [h.textEnd]
    simp
  · intro index cell hcell
    by_cases hindex : index = a.cells.length + front.length
    · subst hindex
      simp only [Sketch.after] at hcell ⊢
      rw [hlast] at hcell
      cases hcell
      rw [haddress]
      exact hwritten
    · simp only [Sketch.after] at hcell ⊢
      rw [hother index hindex] at hcell
      exact (h.cells index cell hcell).mono rfl fun _ _ hmem => hmore hmem
  · intro call hcall
    rcases hnew call hcall with hbefore | ⟨rfl, hname⟩
    · obtain ⟨hmem, index, hindex, hentry⟩ := h.pending call hbefore
      refine ⟨hmem, index, hindex, ?_⟩
      simp only [Sketch.after] at hentry ⊢
      rw [hother index ?_]
      · exact hentry
      · rintro rfl
        rw [hlastOld] at hentry
        exact hold call.1 (Option.some.inj hentry)
    · exact ⟨hname, _, haddress.symm, hlast⟩

/-- Puts a call on the list of those that await an entry. -/
theorem does_pendCall {name : String} (hawaiting : name ∈ a.awaiting) :
    Does origin (a.after a.ahead [.known Opcode.call.word, .hole] [])
      (update fun compiler =>
        { compiler with pendingCalls := compiler.pendingCalls ++ [(name, a.here + 1)] }) ()
      (a.after a.ahead (Instr.call name).cells []) := by
  refine .intro ⟨by simp, by simp, id⟩ id fun s hfits => ⟨rfl, ?_⟩
  have hentries : a.entries.lookup name = none := hfits.functions.apart name hawaiting
  refine @Sketch.Fits.nameLast _ _ _ _ _ [.known Opcode.call.word] _ _ _ hfits
    (fun _ => Cell.noConfusion) (List.subset_append_left _ _) ?_ ?_
  · intro call hcall
    rcases List.mem_append.1 hcall with hbefore | hnew
    · exact .inl hbefore
    · exact .inr ⟨List.mem_singleton.1 hnew, hawaiting⟩
  · rw [Cell.writtenAt_of_none hentries]
    exact List.mem_append_right _ (List.mem_singleton.2 rfl)

/-- Writes the call of a function that has its entry. -/
theorem does_emitEntry {name : String} {entry : Nat}
    (hlookup : a.entries.lookup name = some entry) :
    Does origin a (emitWith .call (Word.ofCount entry)) ()
      (a.after a.ahead (Instr.call name).cells []) := by
  refine does_emitWith.adjust ⟨by simp, by simp, id⟩ id fun s hfits => ?_
  refine @Sketch.Fits.nameLast _ _ _ _ _ [.known Opcode.call.word] _ _ _ hfits
    (fun _ => Cell.noConfusion) (List.Subset.refl _) (fun _ hcall => .inl hcall) ?_
  have hword := hfits.cells (a.cells.length + 1) (.known (Word.ofCount entry)) (by
    simp only [Sketch.after]
    rw [List.getElem?_append_right (Nat.le_add_right _ _), Nat.add_sub_cancel_left]
    rfl)
  rw [Cell.writtenAt_of_some hlookup]
  simp only [Cell.WrittenAt, Sketch.after] at hword
  rw [← hword, Sketch.here, Nat.add_assoc]
  rfl

theorem does_emitCall {name : String} {arity given : Nat} {symbol : Symbol} {position : Position}
    (hmeans : a.Means name (.function arity) symbol) :
    Does origin a (emitCall symbol given position) ()
      (a.after a.ahead
        (Core.cells (.call name ::
          if given = 0 then [] else [.withWord .adj (Word.ofCount given)])) []) := by
  obtain ⟨_, hname, ⟨hcls, _⟩, hentry⟩ := hmeans
  replace hentry := hentry hcls
  have hsystem : symbol.cls ≠ .system := by
    rw [hcls]
    exact Symbol.Class.noConfusion
  have hadjust : Does origin (a.after a.ahead (Instr.call name).cells [])
      (if 0 < given then emitWith .adj (Word.ofCount given) else pure ()) ()
      (a.after a.ahead
        (Core.cells (.call name ::
          if given = 0 then [] else [.withWord .adj (Word.ofCount given)])) []) := by
    by_cases hgiven : given = 0
    · rw [if_neg (by omega), if_pos hgiven]
      exact Does.pure
    · rw [if_pos (by omega), if_neg hgiven]
      refine does_emitWith.reaches ?_
      rw [Sketch.after_after]
      exact ⟨rfl, rfl⟩
  unfold emitCall
  rw [if_neg hsystem]
  by_cases hawaiting : name ∈ a.awaiting
  · rw [if_pos hawaiting] at hentry
    rw [hentry, if_neg Bool.false_ne_true, hname]
    exact does_emitPending.bind ((does_pendCall hawaiting).bind hadjust)
  · rw [if_neg hawaiting] at hentry
    obtain ⟨hdefined, entry, hlookup, hvalue⟩ := hentry
    rw [hdefined, if_pos rfl, hvalue]
    exact (does_emitEntry hlookup).bind hadjust

theorem does_emitTrap {name : String} {request : Trap} {given : Nat} {symbol : Symbol}
    {position : Position} (hmeans : a.Means name (.system request) symbol) :
    Does origin a (emitCall symbol given position) ()
      (a.after a.ahead (Core.cells [.withWord (.trap request) (Word.ofCount given)]) []) := by
  obtain ⟨hcls, hvalue, _⟩ := hmeans.records
  unfold emitCall
  rw [if_pos hcls, hvalue, Opcode.ofWord?_word]
  exact does_emitWith

end Compiler

end WordC
