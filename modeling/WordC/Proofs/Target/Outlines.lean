import WordC.Proofs.Language.Sizes
import WordC.Proofs.Target.Valid

/-!
# The sections of a resolved file

While a file is resolved, every function it has declared is one that waits for its body or has a
section of its own, and what the sections refer to stays there.
-/

namespace WordC

open WordC.Core (Binding Context Env Place Section)
open Syntax (Scope)

/-- The name of a section that is a function. -/
def Core.Section.name? : Section → Option String
  | function name _ _ _ => some name
  | initializer _ _ => none

namespace Syntax

theorem Scope.lookup_of_declare? {scope scope' : Scope Binding} {name : String} {binding : Binding}
    (h : scope.declare? name binding = some scope') (other : String) :
    scope'.lookup other = if other = name then some binding else scope.lookup other := by
  obtain ⟨-, rfl⟩ := Scope.declare?_eq_some.1 h
  rw [List.lookup_cons]
  by_cases hname : other = name
  · rw [if_pos hname, show (other == name) = true by simpa using hname]
  · rw [if_neg hname, show (other == name) = false by simpa using hname]

theorem Scope.ne_of_declare? {scope scope' : Scope Binding} {name other : String}
    {binding found : Binding} (h : scope.declare? name binding = some scope')
    (hlookup : scope.lookup other = some found) : other ≠ name := by
  rintro rfl
  rw [(Scope.declare?_eq_some.1 h).1] at hlookup
  cases hlookup

theorem Scope.lookup_self_of_declare? {scope scope' : Scope Binding} {name : String}
    {binding : Binding} (h : scope.declare? name binding = some scope') :
    scope'.lookup name = some binding := by
  rw [lookup_of_declare? h, if_pos rfl]

theorem Scope.lookup_kept_of_declare? {scope scope' : Scope Binding} {name other : String}
    {binding found : Binding} (h : scope.declare? name binding = some scope')
    (hlookup : scope.lookup other = some found) : scope'.lookup other = some found := by
  rw [lookup_of_declare? h, if_neg (ne_of_declare? h hlookup), hlookup]

/-- A name that stands for something behind a declaration is the new one, or did so before. -/
theorem Scope.lookup_cases_of_declare? {scope scope' : Scope Binding} {name other : String}
    {binding found : Binding} (h : scope.declare? name binding = some scope')
    (hlookup : scope'.lookup other = some found) :
    (other = name ∧ found = binding) ∨ scope.lookup other = some found := by
  rw [lookup_of_declare? h] at hlookup
  by_cases hname : other = name
  · rw [if_pos hname] at hlookup
    exact .inl ⟨hname, (Option.some.inj hlookup).symm⟩
  · rw [if_neg hname] at hlookup
    exact .inr hlookup

/-! ## Parameters -/

theorem parameterBindings_valid {context : Context} {names : List String}
    (harity : names.length ≤ context.arity) :
    ∀ entry ∈ parameterBindings names, entry.2.Valid context entry.1 := by
  induction names with
  | nil => exact fun entry hmem => absurd hmem List.not_mem_nil
  | cons name rest ih =>
      rw [List.length_cons] at harity
      refine List.forall_mem_cons.2 ⟨?_, ih (by omega)⟩
      exact ⟨by omega, by omega⟩

theorem parameterScope?_valid {context : Context} {entries : List (String × Binding)}
    {scope scope' : Scope Binding}
    (hscope : ∀ name binding, scope.lookup name = some binding → binding.Valid context name)
    (hentries : ∀ entry ∈ entries, entry.2.Valid context entry.1)
    (h : parameterScope? scope entries = some scope') :
    ∀ name binding, scope'.lookup name = some binding → binding.Valid context name := by
  induction entries generalizing scope with
  | nil =>
      cases h
      exact hscope
  | cons entry rest ih =>
      obtain ⟨name, binding⟩ := entry
      obtain ⟨next, hdeclare, hrest⟩ := Option.bind_eq_some_iff.1 h
      have hhead := hentries (name, binding) List.mem_cons_self
      refine ih (fun other found hlookup => ?_)
        (fun entry hmem => hentries entry (List.mem_cons_of_mem _ hmem)) hrest
      rcases Scope.lookup_cases_of_declare? hdeclare hlookup with ⟨rfl, rfl⟩ | hold
      · exact hhead
      · exact hscope other found hold

theorem valid_of_resolveFunction? {context : Context} {globals : Scope Binding} {start : Nat}
    {parameters : List String} {declarations : List Declaration} {body : List Stmt}
    {statements : List Core.Stmt} (hglobals : Env.Valid context { locals := [], globals })
    (harity : parameters.length ≤ context.arity)
    (hslots : (Stmt.block declarations body).peak 0 ≤ context.slots)
    (h : resolveFunction? globals start parameters declarations body = some statements) :
    ∀ statement ∈ statements, statement.Valid context := by
  obtain ⟨scope, inner, stores, others, hscope, hstores, hothers, rfl⟩ :=
    resolveFunction?_eq_some.1 h
  have henv : Env.Valid context { locals := [scope], globals } := by
    intro name binding hfind
    unfold Env.find? Env.scopes at hfind
    simp only [Scopes.find?, List.singleton_append, List.findSome?_cons] at hfind
    cases hlookup : scope.lookup name with
    | some found =>
        rw [hlookup] at hfind
        cases hfind
        exact parameterScope?_valid (fun name binding hnil => by cases hnil)
          (parameterBindings_valid harity) hscope name binding hlookup
    | none =>
        rw [hlookup] at hfind
        exact hglobals name binding hfind
  rw [Stmt.peak] at hslots
  have hbody := Stmt.le_bodyPeak (0 + (declarations.flatMap Declaration.declarators).length) body
  obtain ⟨hinner, hvalid⟩ := valid_of_resolveDeclarators? henv (by omega) hstores
  have hrest := Stmt.valid_of_resolveBody? hinner hslots hothers
  intro statement hmem
  rcases List.mem_append.1 hmem with hmem | hmem
  · exact hvalid statement hmem
  · exact hrest statement hmem

/-! ## Outlines -/

namespace Outline

/-- The functions of a file and their numbers of parameters. -/
def arityOf? (outline : Outline) (name : String) : Option Nat :=
  match outline.globals.lookup name with
  | some (.function arity) => some arity
  | _ => none

/-- What the initial values of a file may refer to. -/
def context (outline : Outline) (start : Nat) : Context where
  arity := 0
  slots := 0
  data := { start, stop := start + outline.data.length }
  functions := outline.arityOf?

/-- The names of the functions that have a body, in the order of the text. -/
def defined (outline : Outline) : List String :=
  outline.sections.filterMap Section.name?

structure Valid (outline : Outline) (start : Nat) : Prop where
  objects : ∀ name place, outline.globals.lookup name = some (.object place) →
    place.Valid (outline.context start)
  sections : ∀ part ∈ outline.sections, part.Valid (outline.context start)
  functions : ∀ name arity, outline.globals.lookup name = some (.function arity) →
    name ∈ outline.awaiting ∨
      ∃ slots body, Section.function name arity slots body ∈ outline.sections
  nodup : outline.defined.Nodup
  apart : ∀ name ∈ outline.defined, name ∉ outline.awaiting ∧
    (outline.globals.lookup name).isSome

variable {outline outline' : Outline} {start : Nat}

theorem arityOf?_eq_some {name : String} {arity : Nat} :
    outline.arityOf? name = some arity ↔
      outline.globals.lookup name = some (.function arity) := by
  unfold arityOf?
  split
  · next found hlookup => simp [hlookup]
  · next hother =>
      refine iff_of_false (fun hnone => by cases hnone) (hother arity)

theorem Valid.env (h : outline.Valid start) : outline.env.Valid (outline.context start) := by
  intro name binding hfind
  change List.findSome? _ [outline.globals, Core.builtins] = _ at hfind
  rw [List.findSome?_cons] at hfind
  cases hlookup : outline.globals.lookup name with
  | some found =>
      rw [hlookup] at hfind
      cases hfind
      cases binding with
      | system request => trivial
      | constant value => trivial
      | function arity => exact arityOf?_eq_some.2 hlookup
      | object place => exact h.objects name place hlookup
  | none =>
      rw [hlookup] at hfind
      obtain ⟨scope, hscope, hfound⟩ := List.exists_of_findSome?_eq_some hfind
      obtain rfl := List.mem_singleton.1 hscope
      obtain ⟨request, hrequest⟩ : ∃ request, binding = .system request := by
        rw [Core.lookup_builtins, Option.map_eq_some_iff] at hfound
        obtain ⟨request, -, rfl⟩ := hfound
        exact ⟨request, rfl⟩
      rw [hrequest]
      trivial

theorem within_context
    (hglobals : ∀ name binding, outline.globals.lookup name = some binding →
      outline'.globals.lookup name = some binding)
    (hdata : outline.data.length ≤ outline'.data.length) :
    (outline.context start).Within (outline'.context start) :=
  { arity := Nat.le_refl _
    slots := Nat.le_refl _
    dataStart := rfl
    dataStop := Nat.add_le_add_left hdata start
    functions := fun _ _ hfunction =>
      arityOf?_eq_some.2 (hglobals _ _ (arityOf?_eq_some.1 hfunction)) }

theorem within_inside (outline : Outline) (start arity slots : Nat) :
    (outline.context start).Within ((outline.context start).inside arity slots) :=
  { arity := Nat.zero_le _
    slots := Nat.zero_le _
    dataStart := rfl
    dataStop := Nat.le_refl _
    functions := fun _ _ hfunction => hfunction }

theorem valid_empty (start : Nat) : empty.Valid start where
  objects := fun name place hlookup => by cases hlookup
  sections := fun part hmem => absurd hmem List.not_mem_nil
  functions := fun name arity hlookup => by cases hlookup
  nodup := List.nodup_nil
  apart := fun name hmem => absurd hmem List.not_mem_nil

/-- A new name, which waits for its body if it is a function, and more data. -/
theorem Valid.declare {name : String} {binding : Binding} {globals : Scope Binding}
    {awaiting : List String} {words : List Word} (h : outline.Valid start)
    (hdeclare : outline.globals.declare? name binding = some globals)
    (hobject : ∀ place, binding = .object place → ∃ address, place = .global address ∧
      start ≤ address ∧ address < start + (outline.data ++ words).length)
    (hfunction : ∀ arity, binding = .function arity → name ∈ awaiting)
    (hkept : ∀ other ∈ outline.awaiting, other ∈ awaiting)
    (hnew : ∀ other ∈ awaiting, other = name ∨ other ∈ outline.awaiting) :
    Valid { outline with globals, awaiting, data := outline.data ++ words } start := by
  have hwithin : (outline.context start).Within
      (context { outline with globals, awaiting, data := outline.data ++ words } start) := by
    refine within_context (fun _ _ => Scope.lookup_kept_of_declare? hdeclare) ?_
    rw [List.length_append]
    exact Nat.le_add_right _ _
  refine
    { objects := fun other place hfound => ?_
      sections := fun part hmem => (h.sections part hmem).mono hwithin
      functions := fun other arity hfound => ?_
      nodup := h.nodup
      apart := fun other hmem => ?_ }
  · rcases Scope.lookup_cases_of_declare? hdeclare hfound with ⟨-, hbinding⟩ | hold
    · obtain ⟨address, rfl, hinside⟩ := hobject place hbinding.symm
      exact hinside
    · exact (h.objects other place hold).mono hwithin
  · rcases Scope.lookup_cases_of_declare? hdeclare hfound with ⟨rfl, hbinding⟩ | hold
    · exact .inl (hfunction arity hbinding.symm)
    · exact (h.functions other arity hold).imp_left (hkept other)
  · obtain ⟨hwaits, hsome⟩ := h.apart other hmem
    obtain ⟨found, hfound⟩ := Option.isSome_iff_exists.1 hsome
    have hname : other ≠ name := Scope.ne_of_declare? hdeclare hfound
    refine ⟨fun hother => (hnew other hother).elim hname hwaits, ?_⟩
    exact Option.isSome_of_eq_some (Scope.lookup_kept_of_declare? hdeclare hfound)

/-- A section with the start-up code of a variable, and the data of its strings. -/
theorem Valid.initialize {address : Nat} {value : Core.Expr} {words : List Word}
    (h : outline.Valid start) (hplace : (Place.global address).Valid (outline.context start))
    (hvalue : value.Valid (outline.context start)) :
    Valid { outline with
      sections := outline.sections ++ [.initializer address value]
      data := outline.data ++ words } start := by
  have hwithin : (outline.context start).Within
      (context { outline with
        sections := outline.sections ++ [.initializer address value]
        data := outline.data ++ words } start) := by
    refine within_context (fun other found hfound => hfound) ?_
    rw [List.length_append]
    exact Nat.le_add_right _ _
  have hdefined : defined { outline with
      sections := outline.sections ++ [.initializer address value]
      data := outline.data ++ words } = outline.defined := by
    simp [defined, Section.name?]
  refine
    { objects := fun name place hfound => (h.objects name place hfound).mono hwithin
      sections := fun part hmem => ?_
      functions := fun name arity hfound => ?_
      nodup := hdefined ▸ h.nodup
      apart := fun name hmem => h.apart name (hdefined ▸ hmem) }
  · rcases List.mem_append.1 hmem with hmem | hmem
    · exact (h.sections part hmem).mono hwithin
    · obtain rfl := List.mem_singleton.1 hmem
      exact ⟨hplace.mono hwithin, Core.Expr.Valid.mono hwithin hvalue⟩
  · refine (h.functions name arity hfound).imp_right ?_
    rintro ⟨slots, body, hmem⟩
    exact ⟨slots, body, List.mem_append_left _ hmem⟩

/-- The body of a function that waits for it. -/
theorem Valid.complete {name : String} {arity slots : Nat} {body : Core.Stmt} {words : List Word}
    (h : outline.Valid start) (hawaiting : name ∈ outline.awaiting)
    (hlookup : outline.globals.lookup name = some (.function arity))
    (hbody : body.Valid ((outline.context start).inside arity slots)) :
    Valid { outline with
      awaiting := outline.awaiting.filter (· ≠ name)
      sections := outline.sections ++ [.function name arity slots body]
      data := outline.data ++ words } start := by
  have hwithin : (outline.context start).Within
      (context { outline with
        awaiting := outline.awaiting.filter (· ≠ name)
        sections := outline.sections ++ [.function name arity slots body]
        data := outline.data ++ words } start) := by
    refine within_context (fun other found hfound => hfound) ?_
    rw [List.length_append]
    exact Nat.le_add_right _ _
  have hdefined : defined { outline with
      awaiting := outline.awaiting.filter (· ≠ name)
      sections := outline.sections ++ [.function name arity slots body]
      data := outline.data ++ words } = outline.defined ++ [name] := by
    simp [defined, Section.name?]
  have hfresh : name ∉ outline.defined := fun hmem => (h.apart name hmem).1 hawaiting
  refine
    { objects := fun other place hfound => (h.objects other place hfound).mono hwithin
      sections := fun part hmem => ?_
      functions := fun other otherArity hfound => ?_
      nodup := ?_
      apart := fun other hmem => ?_ }
  · rcases List.mem_append.1 hmem with hmem | hmem
    · exact (h.sections part hmem).mono hwithin
    · obtain rfl := List.mem_singleton.1 hmem
      exact Core.Stmt.Valid.mono (hwithin.inside arity slots) hbody
  · by_cases hname : other = name
    · rw [hname, hlookup] at hfound
      cases hfound
      rw [hname]
      exact .inr ⟨slots, body, List.mem_append_right _ List.mem_cons_self⟩
    · rcases h.functions other otherArity hfound with hmem | ⟨found, inner, hmem⟩
      · exact .inl (List.mem_filter.2 ⟨hmem, by simpa using hname⟩)
      · exact .inr ⟨found, inner, List.mem_append_left _ hmem⟩
  · rw [hdefined]
    refine List.nodup_append.2 ⟨h.nodup, List.pairwise_singleton _ _, ?_⟩
    rintro other hmem _ hsingle rfl
    exact hfresh (List.mem_singleton.1 hsingle ▸ hmem)
  · rw [hdefined] at hmem
    rcases List.mem_append.1 hmem with hmem | hmem
    · obtain ⟨hwaits, hsome⟩ := h.apart other hmem
      exact ⟨fun hother => hwaits (List.mem_filter.1 hother).1, hsome⟩
    · obtain rfl := List.mem_singleton.1 hmem
      refine ⟨fun hother => ?_, ?_⟩
      · simpa using (List.mem_filter.1 hother).2
      · change (outline.globals.lookup other).isSome
        rw [hlookup]
        rfl

theorem valid_of_addVariable? {declarator : Declarator} (h : outline.Valid start)
    (hvariable : outline.addVariable? start declarator = some outline') : outline'.Valid start := by
  obtain ⟨globals, hdeclare, hinitial⟩ := addVariable?_cases hvariable
  have hnext : Valid { outline with globals, data := outline.data ++ [0] } start := by
    refine h.declare hdeclare ?_ ?_ (fun _ hmem => hmem) (fun _ hmem => .inr hmem)
    · intro place hobject
      cases hobject
      refine ⟨start + outline.data.length, rfl, Nat.le_add_right _ _, ?_⟩
      rw [List.length_append, List.length_singleton]
      omega
    · intro arity hfunction
      cases hfunction
  rcases hinitial with ⟨-, rfl⟩ | ⟨value, resolved, -, hresolved, rfl⟩
  · exact hnext
  · refine hnext.initialize ⟨Nat.le_add_right _ _, ?_⟩
      (Expr.valid_of_resolve? hnext.env hresolved)
    change start + outline.data.length < start + (outline.data ++ [0]).length
    rw [List.length_append, List.length_singleton]
    omega

theorem valid_of_variables? {declarators : List Declarator} (h : outline.Valid start)
    (hvariables : outline.variables? start declarators = some outline') :
    outline'.Valid start := by
  induction declarators generalizing outline with
  | nil =>
      cases hvariables
      exact h
  | cons declarator rest ih =>
      obtain ⟨next, hnext, hrest⟩ := Option.bind_eq_some_iff.1 hvariables
      exact ih (valid_of_addVariable? h hnext) hrest

theorem valid_of_enumerators? {members : List Enumerator} {value : Word} (h : outline.Valid start)
    (henumerators : outline.enumerators? value members = some outline') :
    outline'.Valid start := by
  induction members generalizing outline value with
  | nil =>
      cases henumerators
      exact h
  | cons enumerator rest ih =>
      simp only [enumerators?, Option.bind_eq_bind, Option.bind_eq_some_iff] at henumerators
      obtain ⟨globals, hdeclare, hrest⟩ := henumerators
      refine ih ?_ hrest
      have hnext := @Valid.declare _ _ _ _ _ _ [] h hdeclare (fun place hobject => by cases hobject)
        (fun arity hfunction => by cases hfunction) (fun _ hmem => hmem) (fun _ hmem => .inr hmem)
      rw [List.append_nil] at hnext
      exact hnext

/-- A function without a body waits for it. -/
theorem Valid.await {name : String} {arity : Nat} {globals : Scope Binding}
    (h : outline.Valid start)
    (hdeclare : outline.globals.declare? name (.function arity) = some globals) :
    Valid { outline with globals, awaiting := name :: outline.awaiting } start := by
  have hnext := @Valid.declare _ _ _ _ _ _ [] h hdeclare
    (fun place hobject => by cases hobject) (fun _ _ => List.mem_cons_self)
    (fun _ hmem => List.mem_cons_of_mem _ hmem) (fun _ hmem => List.mem_cons.1 hmem)
  rw [List.append_nil] at hnext
  exact hnext

theorem valid_of_prototype? {name : String} {arity : Nat} (h : outline.Valid start)
    (hprototype : outline.prototype? name arity = some outline') : outline'.Valid start := by
  simp only [prototype?, Option.bind_eq_bind, Option.bind_eq_some_iff,
    Option.some.injEq] at hprototype
  obtain ⟨globals, hdeclare, rfl⟩ := hprototype
  exact h.await hdeclare

/-- In front of its body a function is as good as a prototype. -/
theorem valid_of_define? {name : String} {arity : Nat} (h : outline.Valid start)
    (hdefine : outline.define? name arity = some outline') :
    ∃ awaiting, Valid { outline' with awaiting } start ∧ name ∈ awaiting ∧
      outline'.awaiting = awaiting.filter (· ≠ name) ∧
      outline'.globals.lookup name = some (.function arity) ∧
      outline'.sections = outline.sections ∧ outline'.data = outline.data := by
  unfold define? at hdefine
  by_cases hawaiting : name ∈ outline.awaiting
  · rw [if_pos hawaiting] at hdefine
    by_cases hlookup : outline.globals.lookup name = some (.function arity)
    · rw [if_pos hlookup] at hdefine
      cases hdefine
      exact ⟨outline.awaiting, h, hawaiting, rfl, hlookup, rfl, rfl⟩
    · rw [if_neg hlookup] at hdefine
      cases hdefine
  · rw [if_neg hawaiting] at hdefine
    obtain ⟨globals, hdeclare, hsome⟩ := Option.bind_eq_some_iff.1 hdefine
    cases hsome
    refine ⟨name :: outline.awaiting, h.await hdeclare, List.mem_cons_self, ?_, ?_, rfl, rfl⟩
    · rw [List.filter_cons_of_neg (by simp), List.filter_eq_self.2]
      intro other hmem
      simp only [decide_eq_true_eq]
      rintro rfl
      exact hawaiting hmem
    · exact Scope.lookup_self_of_declare? hdeclare

end Outline

theorem Item.valid_of_resolve? {item : Item} {outline outline' : Outline} {start : Nat}
    (h : outline.Valid start) (hresolve : item.resolve? start outline = some outline') :
    outline'.Valid start := by
  cases item with
  | enumeration tag members trailing => exact Outline.valid_of_enumerators? h hresolve
  | objects declaration => exact Outline.valid_of_variables? h hresolve
  | prototype heading =>
      obtain ⟨before, hbefore, hprototype⟩ := Option.bind_eq_some_iff.1 hresolve
      exact Outline.valid_of_prototype? (Outline.valid_of_variables? h hbefore) hprototype
  | function heading declarations body =>
      simp only [resolve?, Option.bind_eq_bind, Option.bind_eq_some_iff,
        Option.some.injEq] at hresolve
      obtain ⟨before, hbefore, named, hdefine, statements, hbody, rfl⟩ := hresolve
      obtain ⟨awaiting, hnamed, hmem, hfilter, hlookup, -, -⟩ :=
        Outline.valid_of_define? (Outline.valid_of_variables? h hbefore) hdefine
      rw [hfilter]
      refine hnamed.complete hmem hlookup (Core.Stmt.valid_ofList.2 ?_)
      exact valid_of_resolveFunction? (hnamed.env.mono (Outline.within_inside _ start _ _))
        (Nat.le_refl _) (Nat.le_refl _) hbody

/-- What a file resolves to is valid. -/
theorem File.valid_of_resolve? {file : File} {outline outline' : Outline} {start : Nat}
    (h : outline.Valid start) (hresolve : file.resolve? start outline = some outline') :
    outline'.Valid start := by
  induction file generalizing outline with
  | nil =>
      cases hresolve
      exact h
  | cons item rest ih =>
      obtain ⟨next, hnext, hrest⟩ := Option.bind_eq_some_iff.1 hresolve
      exact ih (Item.valid_of_resolve? h hnext) hrest

/-! ## Slots -/

namespace Outline

/-- No function has more slots than the limit. -/
def SlotsWithin (limit : Nat) (outline : Outline) : Prop :=
  ∀ name arity slots body, Section.function name arity slots body ∈ outline.sections →
    slots ≤ limit

variable {outline outline' : Outline} {start limit : Nat}

theorem SlotsWithin.variable {declarator : Declarator} (h : outline.SlotsWithin limit)
    (hvariable : outline.addVariable? start declarator = some outline') :
    outline'.SlotsWithin limit := by
  obtain ⟨globals, -, ⟨-, rfl⟩ | ⟨value, resolved, -, -, rfl⟩⟩ := addVariable?_cases hvariable
  · exact h
  · intro name arity slots body hmem
    rcases List.mem_append.1 hmem with hmem | hmem
    · exact h name arity slots body hmem
    · cases List.mem_singleton.1 hmem

theorem SlotsWithin.variables {declarators : List Declarator} (h : outline.SlotsWithin limit)
    (hvariables : outline.variables? start declarators = some outline') :
    outline'.SlotsWithin limit := by
  induction declarators generalizing outline with
  | nil =>
      cases hvariables
      exact h
  | cons declarator rest ih =>
      obtain ⟨next, hnext, hrest⟩ := Option.bind_eq_some_iff.1 hvariables
      exact ih (h.variable hnext) hrest

theorem sections_of_enumerators? {members : List Enumerator} {value : Word}
    (henumerators : outline.enumerators? value members = some outline') :
    outline'.sections = outline.sections := by
  induction members generalizing outline value with
  | nil =>
      cases henumerators
      rfl
  | cons enumerator rest ih =>
      simp only [enumerators?, Option.bind_eq_bind, Option.bind_eq_some_iff] at henumerators
      obtain ⟨globals, -, hrest⟩ := henumerators
      exact @ih { outline with globals } _ hrest

theorem SlotsWithin.enumerators {members : List Enumerator} {value : Word}
    (h : outline.SlotsWithin limit)
    (henumerators : outline.enumerators? value members = some outline') :
    outline'.SlotsWithin limit := by
  unfold SlotsWithin
  rw [sections_of_enumerators? henumerators]
  exact h

theorem sections_of_define? {name : String} {arity : Nat}
    (h : outline.define? name arity = some outline') : outline'.sections = outline.sections := by
  unfold define? at h
  split at h
  · split at h
    · cases h
      rfl
    · cases h
  · obtain ⟨globals, -, hsome⟩ := Option.bind_eq_some_iff.1 h
    cases hsome
    rfl

theorem SlotsWithin.item {item : Item} (h : outline.SlotsWithin limit)
    (hlimit : item.tokens.length ≤ limit) (hresolve : item.resolve? start outline = some outline') :
    outline'.SlotsWithin limit := by
  cases item with
  | enumeration tag members trailing => exact h.enumerators hresolve
  | objects declaration => exact h.variables hresolve
  | prototype heading =>
      obtain ⟨before, hbefore, hprototype⟩ := Option.bind_eq_some_iff.1 hresolve
      obtain ⟨globals, -, hsome⟩ := Option.bind_eq_some_iff.1 hprototype
      cases hsome
      have hwithin := h.variables hbefore
      exact hwithin
  | function heading declarations body =>
      simp only [Item.resolve?, Option.bind_eq_bind, Option.bind_eq_some_iff,
        Option.some.injEq] at hresolve
      obtain ⟨before, hbefore, named, hdefine, statements, -, rfl⟩ := hresolve
      intro name arity slots inner hmem
      rcases List.mem_append.1 hmem with hmem | hmem
      · rw [sections_of_define? hdefine] at hmem
        exact h.variables hbefore name arity slots inner hmem
      · cases List.mem_singleton.1 hmem
        have hpeak := Stmt.peak_le 0 (Stmt.block declarations body)
        rw [Item.tokens, List.length_append] at hlimit
        omega

theorem SlotsWithin.file {file : File} (h : outline.SlotsWithin limit)
    (hlimit : file.tokens.length ≤ limit) (hresolve : file.resolve? start outline = some outline') :
    outline'.SlotsWithin limit := by
  induction file generalizing outline with
  | nil =>
      cases hresolve
      exact h
  | cons item rest ih =>
      obtain ⟨next, hnext, hrest⟩ := Option.bind_eq_some_iff.1 hresolve
      rw [File.tokens, List.flatMap_cons, List.length_append] at hlimit
      exact ih (h.item (by omega) hnext) (by rw [File.tokens]; omega) hrest

/-! ## Sections -/

variable {part : Section}

theorem mem_sections_of_addVariable? {declarator : Declarator} (h : part ∈ outline.sections)
    (hvariable : outline.addVariable? start declarator = some outline') :
    part ∈ outline'.sections := by
  obtain ⟨globals, -, ⟨-, rfl⟩ | ⟨value, resolved, -, -, rfl⟩⟩ := addVariable?_cases hvariable
  · exact h
  · exact List.mem_append_left _ h

theorem mem_sections_of_variables? {declarators : List Declarator} (h : part ∈ outline.sections)
    (hvariables : outline.variables? start declarators = some outline') :
    part ∈ outline'.sections := by
  induction declarators generalizing outline with
  | nil =>
      cases hvariables
      exact h
  | cons declarator rest ih =>
      obtain ⟨next, hnext, hrest⟩ := Option.bind_eq_some_iff.1 hvariables
      exact ih (mem_sections_of_addVariable? h hnext) hrest

/-- A section stays where it is. -/
theorem mem_sections_of_item {item : Item} (h : part ∈ outline.sections)
    (hresolve : item.resolve? start outline = some outline') : part ∈ outline'.sections := by
  cases item with
  | enumeration tag members trailing => exact sections_of_enumerators? hresolve ▸ h
  | objects declaration => exact mem_sections_of_variables? h hresolve
  | prototype heading =>
      obtain ⟨before, hbefore, hprototype⟩ := Option.bind_eq_some_iff.1 hresolve
      obtain ⟨globals, -, hsome⟩ := Option.bind_eq_some_iff.1 hprototype
      cases hsome
      have hbehind := mem_sections_of_variables? h hbefore
      exact hbehind
  | function heading declarations body =>
      simp only [Item.resolve?, Option.bind_eq_bind, Option.bind_eq_some_iff,
        Option.some.injEq] at hresolve
      obtain ⟨before, hbefore, named, hdefine, statements, -, rfl⟩ := hresolve
      refine List.mem_append_left _ ?_
      rw [sections_of_define? hdefine]
      exact mem_sections_of_variables? h hbefore

theorem mem_sections_of_file {file : File} (h : part ∈ outline.sections)
    (hresolve : file.resolve? start outline = some outline') : part ∈ outline'.sections := by
  induction file generalizing outline with
  | nil =>
      cases hresolve
      exact h
  | cons item rest ih =>
      obtain ⟨next, hnext, hrest⟩ := Option.bind_eq_some_iff.1 hresolve
      exact ih (mem_sections_of_item h hnext) hrest

/-- Every function of a file that resolves has a section, with the most slots that its body ever
needs. -/
theorem exists_section_of_file {before after : File} {heading : Heading}
    {declarations : List Declaration} {body : List Stmt}
    (hresolve : File.resolve? start outline
      (before ++ .function heading declarations body :: after) = some outline') :
    ∃ statements, Section.function heading.name heading.arity
      ((Stmt.block declarations body).peak 0) statements ∈ outline'.sections := by
  induction before generalizing outline with
  | nil =>
      obtain ⟨next, hitem, hafter⟩ := Option.bind_eq_some_iff.1 hresolve
      simp only [Item.resolve?, Option.bind_eq_bind, Option.bind_eq_some_iff,
        Option.some.injEq] at hitem
      obtain ⟨_, -, named, -, statements, -, rfl⟩ := hitem
      exact ⟨_, mem_sections_of_file (List.mem_append_right _ (List.mem_singleton.2 rfl)) hafter⟩
  | cons item before ih =>
      obtain ⟨next, -, hrest⟩ := Option.bind_eq_some_iff.1 hresolve
      exact ih hrest

end Outline

end Syntax

end WordC
