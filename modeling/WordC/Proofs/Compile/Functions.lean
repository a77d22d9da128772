import WordC.Compiler.Declaration
import WordC.Proofs.Compile.Names

/-!
# Binding functions

A function with a body gets its entry. If it had a prototype, calls of it may be pending: their
operands are patched, and no other word of the text changes.
-/

namespace WordC.Compiler

open WordC.Core (Binding Cell Env)
open Syntax (Scope)

variable {origin : Origin} {a b : Sketch}

/-! ## Patching many words -/

/-- Memory with one word at many addresses. -/
def patched (memory : Array Word) (sites : List Nat) (word : Word) : Array Word :=
  sites.foldl (fun memory site => memory.setIfInBounds site word) memory

theorem size_patched (memory : Array Word) (sites : List Nat) (word : Word) :
    (patched memory sites word).size = memory.size := by
  induction sites generalizing memory with
  | nil => rfl
  | cons site rest ih => rw [patched, List.foldl_cons, ← patched, ih, Array.size_setIfInBounds]

theorem getElem?_patched (memory : Array Word) (sites : List Nat) (word : Word) (address : Nat) :
    (patched memory sites word)[address]? =
      if address ∈ sites ∧ address < memory.size then some word else memory[address]? := by
  induction sites generalizing memory with
  | nil => simp [patched]
  | cons site rest ih =>
      rw [patched, List.foldl_cons, ← patched, ih, Array.size_setIfInBounds]
      by_cases hrest : address ∈ rest ∧ address < memory.size
      · rw [if_pos hrest, if_pos ⟨List.mem_cons_of_mem _ hrest.1, hrest.2⟩]
      · rw [if_neg hrest]
        by_cases hsite : address = site
        · subst hsite
          by_cases hsize : address < memory.size
          · rw [if_pos ⟨List.mem_cons_self, hsize⟩]
            exact Array.getElem?_setIfInBounds_self_of_lt hsize
          · rw [if_neg fun h => hsize h.2, Array.getElem?_setIfInBounds]
            simp [hsize]
        · rw [Array.getElem?_setIfInBounds_ne (Ne.symm hsite), if_neg]
          rintro ⟨hmem, hsize⟩
          rcases List.mem_cons.1 hmem with heq | hmem
          · exact hsite heq
          · exact hrest ⟨hmem, hsize⟩

theorem patchAll_run (sites : List Nat) (word : Word) (machine : Machine) (compiler : Compiler)
    (hsites : ∀ site ∈ sites,
      machine.layout.text.start ≤ site ∧ site < machine.textEnd) :
    patchAll sites word ⟨machine, compiler⟩ =
      .ok () ⟨{ machine with memory := patched machine.memory sites word }, compiler⟩ := by
  induction sites generalizing machine with
  | nil => rfl
  | cons site rest ih =>
      have hrun : patch site word ⟨machine, compiler⟩ =
          .ok () ⟨machine.setWord site word, compiler⟩ := by
        simp only [patch, onMachine, Machine.patch, if_pos (hsites site List.mem_cons_self)]
      change EStateM.bind (patch site word) (fun _ => patchAll rest word) _ = _
      unfold EStateM.bind
      rw [hrun]
      exact ih _ fun other hother => hsites other (List.mem_cons_of_mem _ hother)

/-- The operands of the calls of a function. -/
def sitesOf (name : String) (pending : List (String × Nat)) : List Nat :=
  (pending.filter fun call => call.1 == name).map (·.2)

theorem mem_sitesOf {name : String} {pending : List (String × Nat)} {site : Nat} :
    site ∈ sitesOf name pending ↔ (name, site) ∈ pending := by
  simp only [sitesOf, List.mem_map, List.mem_filter, beq_iff_eq]
  constructor
  · rintro ⟨call, ⟨hmem, rfl⟩, rfl⟩
    exact hmem
  · exact fun hmem => ⟨_, ⟨hmem, rfl⟩, rfl⟩

/-! ## Prototypes -/

theorem prototype?_run (name : String) (s : State) :
    prototype? name s =
      .ok ((s.compiler.symbols.lookup? name).filter fun symbol =>
        symbol.level = Symbol.globalLevel && symbol.cls = .function && !symbol.defined) s :=
  rfl

/-- The symbol of a prototype that awaits its body. -/
theorem Sketch.prototype_of_awaiting {table : Symbol.Table} {name : String}
    (hmodels : table.Models a.env) (hfunctions : table.Functions a.env.globals a.awaiting a.entries)
    (houtside : a.env.locals = []) (hawaiting : name ∈ a.awaiting) :
    ∃ symbol arity, table.scope = 1 ∧ table.findIn? 1 name = some symbol ∧
      table.lookup? name = some symbol ∧ symbol.level = Symbol.globalLevel ∧
      a.env.globals.lookup name = some (.function arity) ∧ symbol.Records (.function arity) ∧
      symbol.defined = false := by
  obtain ⟨arity, hlookup⟩ := hfunctions.declared name (.inl hawaiting)
  obtain ⟨ids, hids, hlocals⟩ := hmodels.locals
  rw [houtside] at hlocals
  cases hlocals
  rw [List.nil_append] at hids
  obtain ⟨symbol, hfind, hrecords⟩ := hmodels.globals.findIn?_of_lookup hlookup
  have hmem := Symbol.Table.mem_of_findIn? hfind
  have hentry := hfunctions.entry symbol hmem hrecords.1
  rw [hmodels.indexed.name_of_findIn? hfind, if_pos hawaiting] at hentry
  refine ⟨symbol, arity, by simp [Symbol.Table.scope, hids], hfind, ?_,
    (hfunctions.place symbol hmem hrecords.1).2, hlookup, hrecords, hentry⟩
  rw [Symbol.Table.lookup?, hids, List.findSome?_cons, hfind]

/-- A name that awaits no body has no prototype. -/
theorem Sketch.Fits.no_prototype {s : State} {name : String} (h : a.Fits origin s)
    (hawaiting : name ∉ a.awaiting) :
    ((s.compiler.symbols.lookup? name).filter fun symbol =>
      symbol.level = Symbol.globalLevel && symbol.cls = .function && !symbol.defined) = none := by
  cases hlookup : s.compiler.symbols.lookup? name with
  | none => rfl
  | some symbol =>
      rw [Option.filter_eq_none_iff]
      intro found hfound htest
      cases hfound
      simp only [Bool.and_eq_true, decide_eq_true_eq, Bool.not_eq_true'] at htest
      obtain ⟨⟨_, hcls⟩, hdefined⟩ := htest
      have hentry := h.functions.entry symbol (Symbol.Table.mem_of_lookup? hlookup) hcls
      rw [h.models.indexed.name_of_lookup? hlookup, if_neg hawaiting, hdefined] at hentry
      cases hentry.1

/-! ## Functions that have a body -/

/-- A name without a prototype is declared. -/
theorem bindFunction_run_of_none {symbol : Symbol} {arity : Nat} {s : State}
    (hnone : prototype? symbol.name s = .ok none s) :
    bindFunction symbol arity s =
      (declare { symbol with params := some arity } >>= fun _ => pure ()) s := by
  unfold bindFunction
  rw [bind_run_of_ok hnone]

/-- A prototype gets its entry, and the calls of it are patched. -/
theorem bindFunction_run_of_some {symbol found : Symbol} {arity : Nat} {machine : Machine}
    {compiler : Compiler}
    (hsome : prototype? symbol.name ⟨machine, compiler⟩ = .ok (some found) ⟨machine, compiler⟩)
    (hparams : found.params = some arity) (hcls : found.cls = .function)
    (hindexed : compiler.symbols.Indexed)
    (hfound : compiler.symbols.findIn? compiler.symbols.scope symbol.name = some found)
    (hsites : ∀ site ∈ sitesOf symbol.name compiler.pendingCalls,
      machine.layout.text.start ≤ site ∧ site < machine.textEnd) :
    bindFunction symbol arity ⟨machine, compiler⟩ =
      .ok () ⟨{ machine with
          memory := patched machine.memory (sitesOf symbol.name compiler.pendingCalls) symbol.value },
        { compiler with
          symbols := compiler.symbols.bindEntry { found with value := symbol.value, defined := true }
          pendingCalls := compiler.pendingCalls.filter fun call => !(call.1 == symbol.name) }⟩ := by
  have hdefine : compiler.symbols.defineFunction? symbol.name symbol.value = _ :=
    hindexed.defineFunction?_eq hfound hcls
  have hview : view (·.symbols) ⟨machine, compiler⟩ = .ok compiler.symbols ⟨machine, compiler⟩ := rfl
  rw [← patchAll_run (sitesOf symbol.name compiler.pendingCalls) symbol.value machine _ hsites]
  unfold bindFunction
  rw [bind_run_of_ok hsome]
  simp only
  rw [if_neg (not_not_intro hparams), bind_run_of_ok hview, hdefine]
  have hpartition := List.partition_eq_filter_filter
    (p := fun call : String × Nat => call.1 == symbol.name) (l := compiler.pendingCalls)
  change patchAll ((compiler.pendingCalls.partition fun call => call.1 == symbol.name).1.map (·.2))
    symbol.value ⟨machine, { compiler with
      symbols := compiler.symbols.bindEntry { found with value := symbol.value, defined := true }
      pendingCalls := (compiler.pendingCalls.partition fun call => call.1 == symbol.name).2 }⟩ = _
  rw [hpartition]
  rfl

/-- A function with a body gets the next address for its entry. -/
def Sketch.defined (a : Sketch) (name : String) (globals : Scope Binding)
    (awaiting : List String) : Sketch :=
  { a with
    env := { a.env with globals }
    awaiting
    entries := a.entries ++ [(name, a.here)] }

/-- The table in which a prototype has got its entry. -/
theorem Sketch.tables_bindEntry {table : Symbol.Table} {name : String} {found : Symbol}
    {arity : Nat} (hmodels : table.Models a.env)
    (hfunctions : table.Functions a.env.globals a.awaiting a.entries) (hscope : table.scope = 1)
    (hfind : table.findIn? 1 name = some found) (hlevel : found.level = Symbol.globalLevel)
    (hlookup : a.env.globals.lookup name = some (.function arity))
    (hrecords : found.Records (.function arity)) (hawaiting : name ∈ a.awaiting) :
    let bound := table.bindEntry { found with value := Word.ofCount a.here, defined := true }
    bound.Models a.env ∧ bound.Functions a.env.globals (a.awaiting.filter (· ≠ name))
      (a.entries ++ [(name, a.here)]) := by
  have hname := hmodels.indexed.name_of_findIn? hfind
  have hplace := hmodels.indexed.scope_of_findIn? hfind
  subst hname
  refine ⟨hmodels.bindEntry (hscope ▸ hfind) (hplace.trans hscope.symm) hrecords rfl rfl, ?_⟩
  exact @Symbol.Table.Functions.bindEntry _ _ _ _
    { found with value := Word.ofCount a.here, defined := true } _ _ hfunctions hscope hplace hlevel
    hawaiting rfl rfl hlookup

/-! ## Calls that are pending -/

namespace Sketch.Fits

variable {s : State} {name : String} {site : Nat} (h : a.Fits origin s)

include h

/-- Pending calls are in the text. -/
theorem site_bounds (hsite : site ∈ sitesOf name s.compiler.pendingCalls) :
    s.machine.layout.text.start ≤ site ∧ site < s.machine.textEnd ∧
      site < s.machine.memory.size := by
  obtain ⟨index, hindex, hentry⟩ := (h.pending _ (mem_sitesOf.1 hsite)).2
  have hlength := (List.getElem?_eq_some_iff.1 hentry).1
  have htextEnd := h.textEnd_le
  have hpool := origin.sound.ordered.text_lt_poolSize
  rw [h.machine.layout, origin.sound.ordered.textStart, h.textEnd, h.size]
  simp only at hindex
  rw [Sketch.here] at htextEnd ⊢
  omega

/-- The operands of the calls of a function, and no other words of text, hold its entry. -/
theorem writtenAt_patched (hentries : a.entries.lookup name = none) {entry index : Nat} {cell : Cell}
    (hcell : a.cells[index]? = some cell) :
    cell.WrittenAt
      (patched s.machine.memory (sitesOf name s.compiler.pendingCalls) (Word.ofCount entry))
      (a.entries ++ [(name, entry)]) (s.compiler.pendingCalls.filter fun call => !(call.1 == name))
      (a.textStart + index) := by
  have hold := h.cells index cell hcell
  by_cases hsame : cell = .entry name
  · subst hsame
    have hsite := mem_sitesOf.2 ((Cell.writtenAt_of_none hentries).1 hold)
    have hlookup : (a.entries ++ [(name, entry)]).lookup name = some entry := by
      rw [Symbol.Table.lookup_entries_append hentries, if_pos rfl]
    rw [Cell.writtenAt_of_some hlookup, getElem?_patched, if_pos ⟨hsite, (h.site_bounds hsite).2.2⟩]
  · refine (hold.mono ?_ fun other hother hmem => ?_).addEntry hentries hsame
    · rw [getElem?_patched, if_neg]
      rintro ⟨hsite, -⟩
      obtain ⟨other, hother, hentry⟩ := (h.pending _ (mem_sitesOf.1 hsite)).2
      obtain rfl : index = other := Nat.add_left_cancel hother
      exact hsame (Option.some.inj (hcell.symm.trans hentry))
    · refine List.mem_filter.2 ⟨hmem, ?_⟩
      have hne : other ≠ name := fun heq => hsame (heq ▸ hother)
      simpa using hne

/-- Data is not patched. -/
theorem getElem?_patched_data {index : Nat} {word entry : Word}
    (hword : a.data[index]? = some word) :
    (patched s.machine.memory (sitesOf name s.compiler.pendingCalls) entry)[a.dataStart + index]? =
      some word := by
  rw [getElem?_patched, if_neg, h.data index word hword]
  rintro ⟨hsite, -⟩
  have hlt := (h.site_bounds hsite).2.1
  have htextEnd := h.textEnd_le
  have htextStop := h.textStop_le
  rw [h.textEnd] at hlt
  omega

end Sketch.Fits

/-! ## Entries -/

theorem reaches_bindFunction_of_prototype {symbol : Symbol} {arity : Nat}
    (houtside : a.env.locals = []) (hawaiting : symbol.name ∈ a.awaiting)
    (hlookup : a.env.globals.lookup symbol.name = some (.function arity))
    (hvalue : symbol.value = Word.ofCount a.here) :
    Does origin a (bindFunction symbol arity) ()
      (a.defined symbol.name a.env.globals (a.awaiting.filter (· ≠ symbol.name))) := by
  refine .intro ⟨Nat.le_refl a.here, Nat.le_refl a.dataHere, id⟩ ?_ fun s hfits => ?_
  · rintro ⟨table, hmodels, hfunctions⟩
    obtain ⟨found, arity', hscope, hfind, -, hlevel, harity, hrecords, -⟩ :=
      Sketch.prototype_of_awaiting hmodels hfunctions houtside hawaiting
    exact ⟨_, Sketch.tables_bindEntry hmodels hfunctions hscope hfind hlevel harity hrecords
      hawaiting⟩
  obtain ⟨found, arity', hscope, hfind, hlookup?, hlevel, harity, hrecords, hdefined⟩ :=
    Sketch.prototype_of_awaiting hfits.models hfits.functions houtside hawaiting
  rw [hlookup] at harity
  cases harity
  obtain ⟨hmodels, hfunctions⟩ := Sketch.tables_bindEntry hfits.models hfits.functions hscope hfind
    hlevel hlookup hrecords hawaiting
  have hentries : a.entries.lookup symbol.name = none := hfits.functions.apart _ hawaiting
  have hsome : prototype? symbol.name s = .ok (some found) s := by
    rw [prototype?_run, hlookup?]
    simp [Option.filter, hlevel, hrecords.1, hdefined]
  rw [← hscope] at hfind
  have hrun := bindFunction_run_of_some hsome hrecords.2 hrecords.1 hfits.models.indexed hfind
    fun site hsite => ⟨(hfits.site_bounds hsite).1, (hfits.site_bounds hsite).2.1⟩
  unfold Yields
  rw [hrun, hvalue]
  refine ⟨rfl, ?_⟩
  exact
    { hfits with
      ahead := { hfits.ahead with }
      models := hmodels
      functions := hfunctions
      machine :=
        { hfits.machine with
          sound :=
            { hfits.machine.sound with
              size := (size_patched _ _ _).trans hfits.machine.sound.size } }
      cells := fun index cell hcell => hfits.writtenAt_patched hentries hcell
      pending := by
        intro call hcall
        obtain ⟨hmem, hne⟩ := List.mem_filter.1 hcall
        obtain ⟨hcallAwaiting, hindex⟩ := hfits.pending call hmem
        exact ⟨List.mem_filter.2 ⟨hcallAwaiting, by simpa using hne⟩, hindex⟩
      data := fun index word hword => hfits.getElem?_patched_data hword }

/-- A function whose name is new. -/
theorem reaches_bindFunction_of_new {symbol : Symbol} {arity : Nat} {globals : Scope Binding}
    (houtside : a.env.locals = []) (hawaiting : symbol.name ∉ a.awaiting)
    (hdeclare : a.env.globals.declare? symbol.name (.function arity) = some globals)
    (hcls : symbol.cls = .function) (hdefined : symbol.defined = true)
    (hvalue : symbol.value = Word.ofCount a.here) :
    Does origin a (bindFunction symbol arity) () (a.defined symbol.name globals a.awaiting) := by
  have hreaches : Does origin a (declare { symbol with params := some arity } >>= fun _ => pure ())
      () (a.defined symbol.name globals a.awaiting) := by
    refine (@reaches_declareFunction _ _ { symbol with params := some arity } _ _ _ houtside hdeclare
      hcls rfl hdefined hvalue).bind ?_
    rintro _ _ rfl
    exact Does.pure
  refine ⟨hreaches.attains, fun s hfits => ?_⟩
  have hnone : prototype? symbol.name s = .ok none s := by
    rw [prototype?_run, hfits.no_prototype hawaiting]
  unfold Yields
  rw [bindFunction_run_of_none hnone]
  exact hreaches.yields s hfits

end WordC.Compiler
