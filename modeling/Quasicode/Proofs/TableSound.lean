import Quasicode.Proofs.AnalysisOutcome
import Quasicode.Proofs.FreshProgram
import Quasicode.Proofs.TableTree

/-!
Tables in which everything that is referred to is there: what a scope holds under a name is a symbol declared there
under it, and what a symbol mentions are symbols and scopes of the table. The keys with which names cannot be confused
hold only what belongs there. Every declaration and every change that an analysis makes keeps a table so.
-/
namespace Quasicode

variable {name : String}

/-! ## What symbols mention -/

/-- The classes of the type are among the first `count` symbols. -/
def Ty.Below (count : Nat) : Ty → Prop
  | array element => element.Below count
  | ofClass _ id => id.index < count
  | _ => True

/-- A type that values have: neither an error nor nothing, and not an array of those. -/
def Ty.Proper : Ty → Prop
  | array element => element.Proper
  | void | error => False
  | _ => True

/-- A function takes at most as many arguments as it has parameters. -/
structure FunctionSymbol.Sound (count : Nat) (f : FunctionSymbol) : Prop where
  returns : f.returns.Below count
  params : ∀ p ∈ f.params, p.Below count
  counted : f.maxArgs = f.params.length

/-- Outside the walk along the globals no variable is being put in order. -/
structure VariableSymbol.Sound (count : Nat) (var : VariableSymbol) : Prop where
  type : ∀ ty, var.type = some ty → ty.Below count
  status : var.status ≠ .ordering

structure MethodSymbol.Sound (bound count : Nat) (m : MethodSymbol) : Prop where
  function : m.function.Sound count
  owner : m.owner.index < count
  overriders : ∀ id ∈ m.overriders, id.index < count
  nameSpan : m.nameSpan.Within bound
  staticSpan : ∀ span, m.staticSpan = some span → span.Within bound
  returnSpan : ∀ span, m.returnSpan = some span → span.Within bound

structure ClassSymbol.Sound (count scopes : Nat) (c : ClassSymbol) : Prop where
  scope : c.scope.index < scopes
  methods : ∀ id ∈ c.methods, id.index < count
  fields : ∀ id ∈ c.fields, id.index < count

/-- The symbols, scopes and places that a kind mentions are there. -/
def SymbolKind.Sound (bound count scopes : Nat) : SymbolKind → Prop
  | .variable var | globalVariable var _ => var.Sound count
  | function f => f.Sound count
  | method m => m.Sound bound count
  | overloads set => ∀ id ∈ set.functions, id.index < count
  | cls c => c.Sound count scopes
  | className _ => True

/-- A kind that can stand under a key: functions of a name under the key of the name, under the key of the object a
variable with a type, and under a signature a class. -/
structure SymbolKind.Suits (key : String) (kind : SymbolKind) : Prop where
  overloads : ∀ name, key = overloadKey name → ∃ set, kind = .overloads set
  object : key = instanceThisKey → ∃ var, kind = .variable var ∧ var.type.isSome
  signature : kind.class? = none → key.toList.getLast? ≠ some '>'

/-- What is neither a set of functions nor a variable can become another thing that is neither. -/
theorem SymbolKind.Suits.other {key : String} {kind kind' : SymbolKind} (suits : kind.Suits key)
    (noSet : ∀ set, kind ≠ .overloads set)
    (noVar : ∀ var, kind ≠ .variable var) (signature : kind'.class? = none → key.toList.getLast? ≠ some '>') :
    kind'.Suits key := by
  refine ⟨fun name same => ?_, fun same => ?_, signature⟩
  · obtain ⟨set, isSet⟩ := suits.overloads name same
    exact absurd isSet (noSet set)
  · obtain ⟨var, isVar, _⟩ := suits.object same
    exact absurd isVar (noVar var)

section Mono

variable {bound count count' scopes scopes' : Nat}

theorem Ty.Below.mono {ty : Ty} (le : count ≤ count') (below : ty.Below count) : ty.Below count' := by
  induction ty with
  | array element ih => exact ih below
  | ofClass name id => exact Nat.lt_of_lt_of_le below le
  | _ => trivial

theorem FunctionSymbol.Sound.mono {f : FunctionSymbol} (le : count ≤ count') (sound : f.Sound count) : f.Sound count' :=
  ⟨sound.returns.mono le, fun p inside => (sound.params p inside).mono le, sound.counted⟩

theorem VariableSymbol.Sound.mono {var : VariableSymbol} (le : count ≤ count') (sound : var.Sound count) :
    var.Sound count' :=
  ⟨fun ty same => (sound.type ty same).mono le, sound.status⟩

theorem SymbolKind.Sound.mono {kind : SymbolKind} (le : count ≤ count') (le' : scopes ≤ scopes')
    (sound : kind.Sound bound count scopes) : kind.Sound bound count' scopes' := by
  have more {ids : List SymbolId} (all : ∀ id ∈ ids, id.index < count) : ∀ id ∈ ids, id.index < count' :=
    fun id inside => Nat.lt_of_lt_of_le (all id inside) le
  cases kind with
  | «variable» var => exact VariableSymbol.Sound.mono le sound
  | globalVariable var site => exact VariableSymbol.Sound.mono le sound
  | function f => exact FunctionSymbol.Sound.mono le sound
  | method m =>
    have sound : m.Sound bound count := sound
    exact ⟨sound.function.mono le, Nat.lt_of_lt_of_le sound.owner le, more sound.overriders, sound.nameSpan,
      sound.staticSpan, sound.returnSpan⟩
  | overloads set => exact more sound
  | cls c =>
    have sound : c.Sound count scopes := sound
    exact ⟨Nat.lt_of_lt_of_le sound.scope le', more sound.methods, more sound.fields⟩
  | className builtin => trivial

end Mono

/-- Only names and the keys of classes and functions need nothing of what stands under them. -/
theorem SymbolKind.suits_name (isName : IsName name) (kind : SymbolKind) : kind.Suits name := by
  constructor
  · rintro other rfl
    exact absurd rfl (isName.ne_of_sign (c := '#') (by simp [overloadKey]) (by decide))
  · rintro rfl
    exact absurd isName (by decide)
  · intro _ last
    exact isName.plain (c := '>') (by decide) (List.mem_of_getLast? last)

theorem SymbolKind.suits_functionKey (isName : IsName name) (params : List Ty) (kind : SymbolKind) :
    kind.Suits (functionKey name params) := by
  constructor
  · intro other same
    exact absurd same.symm (overloadKey_ne isName params)
  · intro same
    obtain ⟨c, first, starts⟩ := isName.starts
    obtain ⟨rest, letters⟩ := List.head?_eq_some_iff.mp first
    have chars := congrArg String.toList same
    simp only [functionKey, String.toList_append, letters, List.cons_append] at chars
    have head : c = '$' := (List.cons.inj chars).1
    rw [head] at starts
    cases starts
  · intro _
    rw [functionKey, String.toList_append, List.getLast?_append_of_ne_nil _ (by decide)]
    decide

theorem SymbolKind.suits_overloadKey (isName : IsName name) (set : OverloadSet) :
    (SymbolKind.overloads set).Suits (overloadKey name) := by
  constructor
  · exact fun _ _ => ⟨set, rfl⟩
  · intro same
    have chars := congrArg String.toList same
    simp only [overloadKey, String.toList_append] at chars
    cases chars
  · intro _ last
    have nonempty : name.toList ≠ [] := fun empty => isName.nonempty (String.toList_eq_nil_iff.mp empty)
    simp only [overloadKey, String.toList_append, List.getLast?_append_of_ne_nil _ nonempty] at last
    exact isName.plain (c := '>') (by decide) (List.mem_of_getLast? last)

theorem SymbolKind.suits_classKey (isName : IsName name) (c : ClassSymbol) :
    (SymbolKind.cls c).Suits (classKey name) := by
  have first {key : String} (same : classKey name = key) : ∃ c, key.toList.head? = some c ∧ Scan.startsName c := by
    obtain ⟨c, first, starts⟩ := isName.starts
    obtain ⟨rest, letters⟩ := List.head?_eq_some_iff.mp first
    refine ⟨c, ?_, starts⟩
    simp [← same, classKey, TypeName.signature, letters]
  constructor
  · intro other same
    obtain ⟨c, head, starts⟩ := first same
    simp only [overloadKey, String.toList_append] at head
    cases head
    cases starts
  · intro same
    obtain ⟨c, head, starts⟩ := first same
    cases head
    cases starts
  · intro isNone
    cases isNone

namespace Table

/-! ## Sound tables -/

/-- Scopes and symbols of the table refer to nothing outside it. -/
structure Sound (bound : Nat) (t : Table) : Prop where
  root : t.parent? .root = some none
  numbered : ∀ {id s}, t.symbol? id = some s → s.id = id
  placed : ∀ {id s}, t.symbol? id = some s → s.scope.index < t.scopes.size
  located : ∀ {id s}, t.symbol? id = some s → s.span.Within bound
  named : ∀ {scope name id}, t.lookupLocal scope name = .ok (some id) →
    ∃ s, t.symbol? id = some s ∧ s.scope = scope ∧ s.name = name
  kinds : ∀ {id s}, t.symbol? id = some s → s.kind.Sound bound t.symbols.size t.scopes.size
  keyed : ∀ {id s}, t.symbol? id = some s → s.kind.Suits s.name

variable {bound : Nat} {t t' : Table} {id j : SymbolId} {scope : ScopeId} {name key : String} {span : Span}
  {kind : SymbolKind} {s : Symbol}

theorem symbol_exists (below : id.index < t.symbols.size) : ∃ s, t.symbol? id = some s :=
  ⟨t.symbols[id.index], Array.getElem?_eq_getElem below⟩

namespace Sound

variable (sound : t.Sound bound)
variable {f : VariableSymbol → VariableSymbol}
include sound

theorem rootInside : ScopeId.root.index < t.scopes.size := parent_bound sound.root

theorem found (held : t.lookupRoot name = some id) : ∃ s, t.symbol? id = some s ∧ s.scope = .root ∧ s.name = name := by
  have local_ : t.lookupLocal .root name = .ok (t.lookupRoot name) := lookupRoot_eq sound.rootInside
  rw [held] at local_
  exact sound.named local_

/-- The symbols stand in the order of their numbers. -/
theorem ids : t.symbols.toList.map Symbol.id = (List.range t.symbols.size).map SymbolId.mk := by
  apply List.ext_getElem
  · simp
  · intro n inside _
    have below : n < t.symbols.size := by simpa using inside
    have held : t.symbol? ⟨n⟩ = some t.symbols[n] := Array.getElem?_eq_getElem below
    simpa using sound.numbered held

theorem listed (inside : s ∈ t.symbols.toList) : t.symbol? s.id = some s := by
  obtain ⟨n, below, rfl⟩ := List.mem_iff_getElem.mp inside
  have below' : n < t.symbols.size := by simpa using below
  have held : t.symbol? ⟨n⟩ = some t.symbols[n] := Array.getElem?_eq_getElem below'
  rw [Array.getElem_toList, sound.numbered held]
  exact held

/-- The classes of the table, in the order of their declaration. -/
theorem mem_classes : id ∈ (t.symbols.toList.filter (·.class?.isSome)).map Symbol.id ↔ (t.class? id).isSome := by
  rw [List.mem_map]
  constructor
  · rintro ⟨s, inside, rfl⟩
    obtain ⟨listed, isClass⟩ := List.mem_filter.mp inside
    rwa [class?, sound.listed listed]
  · intro isClass
    obtain ⟨k, held⟩ := Option.isSome_iff_exists.mp isClass
    obtain ⟨s, found, isClass⟩ := class_symbol held
    have listed : s ∈ t.symbols.toList := Array.mem_toList_iff.mpr (Array.mem_of_getElem? found)
    exact ⟨s, List.mem_filter.mpr ⟨listed, by simp [isClass]⟩, sound.numbered found⟩

theorem variable_sound {var : VariableSymbol} (held : t.symbol? id = some s) (isVar : s.var? = some var) :
    var.Sound t.symbols.size := by
  have kinds := sound.kinds held
  unfold Symbol.var? at isVar
  cases kind : s.kind <;> simp_all [SymbolKind.var?, SymbolKind.Sound]

theorem method_sound {m : MethodSymbol} (held : t.symbol? id = some s) (isMethod : s.method? = some m) :
    m.Sound bound t.symbols.size := by
  have kinds := sound.kinds held
  unfold Symbol.method? at isMethod
  cases kind : s.kind <;> simp_all [SymbolKind.method?, SymbolKind.Sound]

theorem class_sound {c : ClassSymbol} (held : t.class? id = some c) : c.Sound t.symbols.size t.scopes.size := by
  obtain ⟨s, found, isClass⟩ := class_symbol held
  have kinds := sound.kinds found
  unfold Symbol.class? at isClass
  cases kind : s.kind <;> simp_all [SymbolKind.class?, SymbolKind.Sound]

theorem function_sound {f : FunctionSymbol} (held : t.symbol? id = some s) (isFunction : s.function? = some f) :
    f.Sound t.symbols.size := by
  have kinds := sound.kinds held
  unfold Symbol.function? at isFunction
  cases kind : s.kind with
  | function g =>
    simp_all [SymbolKind.function?, SymbolKind.Sound]
  | method m =>
    rw [kind] at kinds isFunction
    cases isFunction
    exact MethodSymbol.Sound.function kinds
  | _ => simp_all [SymbolKind.function?]

/-! ## Steps -/

/-- A symbol whose kind refers to nothing that is missing can be declared under a key that it suits. -/
theorem declare (adds : Adds scope name span kind t t') (inside : scope.index < t.scopes.size)
    (within : span.Within bound) (newKind : kind.Sound bound (t.symbols.size + 1) t.scopes.size)
    (suits : kind.Suits name) : t'.Sound bound := by
  have declares := adds.declares
  have numberedKind : (kind.mapClass fun c => { c with runtimeId := t'.classCount }).Sound bound (t.symbols.size + 1)
      t.scopes.size := by
    cases kind with
    | cls c => exact ⟨newKind.scope, newKind.methods, newKind.fields⟩
    | _ => exact newKind
  have numberedSuits : (kind.mapClass fun c => { c with runtimeId := t'.classCount }).Suits name := by
    cases kind with
    | cls c =>
      refine ⟨fun other same => ?_, fun same => ?_, nofun⟩
      · obtain ⟨set, impossible⟩ := suits.overloads other same
        cases impossible
      · obtain ⟨var, impossible, _⟩ := suits.object same
        cases impossible
    | _ => exact suits
  -- Of every symbol of the new table: it is the one declared here, or it has been there before.
  have cases_ {j : SymbolId} {s : Symbol} (held : t'.symbol? j = some s) :
      (j = ⟨t.symbols.size⟩ ∧ s = ⟨⟨t.symbols.size⟩,
      name, span, scope, kind.mapClass fun c => { c with runtimeId := t'.classCount }⟩) ∨ t.symbol? j = some s := by
    rw [declares.symbol] at held
    split at held
    next same => exact .inl ⟨same, (Option.some.inj held).symm⟩
    next => exact .inr held
  refine ⟨?_, ?_, ?_, ?_, ?_, ?_, ?_⟩
  · rw [adds.parents]
    exact sound.root
  · intro j s held
    rcases cases_ held with ⟨rfl, rfl⟩ | old
    · rfl
    · exact sound.numbered old
  · intro j s held
    rw [declares.scopes]
    rcases cases_ held with ⟨rfl, rfl⟩ | old
    · exact inside
    · exact sound.placed old
  · intro j s held
    rcases cases_ held with ⟨rfl, rfl⟩ | old
    · exact within
    · exact sound.located old
  · intro asked key j held
    rw [declares.lookup] at held
    split at held
    next here =>
      cases held
      exact ⟨_, by rw [declares.symbol, if_pos rfl], here.1.symm, here.2.symm⟩
    next =>
      obtain ⟨s, found, rest⟩ := sound.named held
      exact ⟨s, by rw [declares.symbol_old (by simp [found]), found], rest⟩
  · intro j s held
    rw [adds.size, declares.scopes]
    rcases cases_ held with ⟨rfl, rfl⟩ | old
    · exact numberedKind
    · exact (sound.kinds old).mono (Nat.le_succ _) (Nat.le_refl _)
  · intro j s held
    rcases cases_ held with ⟨rfl, rfl⟩ | old
    · exact numberedSuits
    · exact sound.keyed old

theorem createScope (parent : ScopeId) : (t.createScope parent).2.Sound bound := by
  have size : (t.createScope parent).2.scopes.size = t.scopes.size + 1 := by simp [Table.createScope]
  refine ⟨?_, sound.numbered, ?_, sound.located, ?_, ?_, sound.keyed⟩
  · rw [createScope_parent, if_neg]
    · exact sound.root
    · intro same
      have inside := sound.rootInside
      rw [same] at inside
      exact Nat.lt_irrefl _ inside
  · intro j s held
    rw [size]
    exact Nat.lt_succ_of_lt (sound.placed held)
  · intro asked key j held
    rw [createScope_lookup] at held
    split at held
    · cases held
    · exact sound.named held
  · intro j s held
    rw [size]
    exact (sound.kinds held).mono (Nat.le_refl _) (Nat.le_succ _)

/-- The kinds of symbols can be changed to others that are suited to their keys. -/
theorem remap {f : SymbolId → SymbolKind → SymbolKind} (scopes : t'.scopes = t.scopes)
    (size : t'.symbols.size = t.symbols.size)
    (symbols : ∀ id, t'.symbol? id = (t.symbol? id).map (Symbol.mapKind (f id)))
      (change : ∀ {id s}, t.symbol? id = some s →
      (f id s.kind).Sound bound t.symbols.size t.scopes.size ∧ (f id s.kind).Suits s.name) : t'.Sound bound := by
  have before {id : SymbolId} {s : Symbol} (held : t'.symbol? id = some s) :
      ∃ s', t.symbol? id = some s' ∧ s = s'.mapKind (f id) := by
    rw [symbols] at held
    obtain ⟨s', found, rfl⟩ := Option.map_eq_some_iff.mp held
    exact ⟨s', found, rfl⟩
  constructor
  · unfold parent?
    rw [scopes]
    exact sound.root
  · intro id s held
    obtain ⟨s', found, rfl⟩ := before held
    exact (sound.numbered found :)
  · intro id s held
    obtain ⟨s', found, rfl⟩ := before held
    rw [scopes]
    exact (sound.placed found :)
  · intro id s held
    obtain ⟨s', found, rfl⟩ := before held
    exact (sound.located found :)
  · intro asked key id held
    unfold lookupLocal Table.scope at held
    rw [scopes] at held
    obtain ⟨s, found, scope, name⟩ := sound.named held
    exact ⟨s.mapKind (f id), by rw [symbols, found]; rfl, scope, name⟩
  · intro id s held
    obtain ⟨s', found, rfl⟩ := before held
    rw [size, scopes]
    exact (change found).1
  · intro id s held
    obtain ⟨s', found, rfl⟩ := before held
    exact (change found).2

/-- A change of a kind that leaves it suited to its key. -/
theorem edit {f : SymbolKind → SymbolKind} (change : ∀ {s}, t.symbol? id = some s →
    (f s.kind).Sound bound t.symbols.size t.scopes.size ∧ (f s.kind).Suits s.name) : (t.edit id f).Sound bound := by
  apply sound.remap (f := fun j kind => if j = id then f kind else kind) edit_scopes edit_size
  · exact (Edited.edit t id f).symbols
  · intro j s held
    split
    next here =>
      subst here
      exact change held
    next => exact ⟨sound.kinds held, sound.keyed held⟩

/-- A variable that is changed suits its key as before. -/
theorem map_variable (held : t.symbol? id = some s)
    (change : ∀ {var : VariableSymbol}, s.var? = some var → var.Sound t.symbols.size → (f var).Sound t.symbols.size)
    (typed : ∀ {var : VariableSymbol}, var.type.isSome → (f var).type.isSome) :
    (s.kind.mapVariable f).Sound bound t.symbols.size t.scopes.size ∧ (s.kind.mapVariable f).Suits s.name := by
  have kinds := sound.kinds held
  have suits := sound.keyed held
  unfold Symbol.var? at change
  cases kind : s.kind with
  | «variable» var =>
    rw [kind] at kinds suits change
    refine ⟨change rfl kinds, fun other same => ?_, fun same => ?_, suits.signature⟩
    · obtain ⟨set, impossible⟩ := suits.overloads other same
      cases impossible
    · obtain ⟨_, rest, known⟩ := suits.object same
      cases rest
      exact ⟨_, rfl, typed known⟩
  | globalVariable var site =>
    rw [kind] at kinds suits change
    exact ⟨change rfl kinds, suits.other (by simp) (by simp) suits.signature⟩
  | _ =>
    rw [kind] at kinds suits
    exact ⟨kinds, suits⟩

/-- A variable can be given a status or a type. -/
theorem edit_variable (change : ∀ {var : VariableSymbol}, var.Sound t.symbols.size → (f var).Sound t.symbols.size)
    (typed : ∀ {var : VariableSymbol}, var.type.isSome → (f var).type.isSome) :
    (t.edit id (SymbolKind.mapVariable f)).Sound bound :=
  sound.edit fun held => sound.map_variable held (fun _ => change) typed

theorem map_method {f : MethodSymbol → MethodSymbol} (held : t.symbol? id = some s)
    (change : ∀ {m : MethodSymbol}, m.Sound bound t.symbols.size → (f m).Sound bound t.symbols.size) :
    (s.kind.mapMethod f).Sound bound t.symbols.size t.scopes.size ∧ (s.kind.mapMethod f).Suits s.name := by
  have kinds := sound.kinds held
  have suits := sound.keyed held
  cases kind : s.kind with
  | method m =>
    rw [kind] at kinds suits
    exact ⟨change kinds, suits.other (by simp) (by simp) suits.signature⟩
  | _ =>
    rw [kind] at kinds suits
    exact ⟨kinds, suits⟩

theorem map_class {f : ClassSymbol → ClassSymbol} (held : t.symbol? id = some s)
    (change : ∀ {c : ClassSymbol}, c.Sound t.symbols.size t.scopes.size → (f c).Sound t.symbols.size t.scopes.size) :
    (s.kind.mapClass f).Sound bound t.symbols.size t.scopes.size ∧ (s.kind.mapClass f).Suits s.name := by
  have kinds := sound.kinds held
  have suits := sound.keyed held
  cases kind : s.kind with
  | cls c =>
    rw [kind] at kinds suits
    exact ⟨change kinds, suits.other (by simp) (by simp) nofun⟩
  | _ =>
    rw [kind] at kinds suits
    exact ⟨kinds, suits⟩

/-- A function is added to the functions of a name. -/
theorem edit_overloads {added : SymbolId} (there : added.index < t.symbols.size) :
    (t.edit id (SymbolKind.mapOverloads fun set => { set with functions := set.functions ++ [added] })).Sound
      bound := by
  apply sound.edit
  intro s held
  have kinds := sound.kinds held
  have suits := sound.keyed held
  cases kind : s.kind with
  | overloads set =>
    rw [kind] at kinds suits
    refine ⟨?_, fun other same => ⟨_, rfl⟩, fun same => ?_, suits.signature⟩
    · intro f inside
      rcases List.mem_append.mp inside with old | new
      · exact kinds f old
      · rw [List.mem_singleton.mp new]
        exact there
    · obtain ⟨_, impossible, _⟩ := suits.object same
      cases impossible
  | _ =>
    rw [kind] at kinds suits
    exact ⟨kinds, suits⟩

/-! ## Looking up -/

theorem lookupChain (rooted : t.Rooted) (inside : scope.index < t.scopes.size) (key : String) :
    ∃ found, t.lookupChain scope key = .ok found ∧ ∀ id, found = some id →
      ∃ s, t.symbol? id = some s ∧ s.name = key := by
  obtain ⟨n, rises⟩ := rooted scope inside
  obtain ⟨found, ran, where_⟩ := lookupChain_total rises key
  refine ⟨found, ran, fun id same => ?_⟩
  obtain ⟨at_, _, _, _, held⟩ := where_ id same
  obtain ⟨s, there, _, names⟩ := sound.named held
  exact ⟨s, there, names⟩

theorem overloadsWithin {limit n : Nat} (found : Bool) (rises : t.Rises scope n) (enough : n < limit) :
    ∃ ids, t.overloadsWithin (overloadKey name) limit found scope = .ok ids ∧ ∀ id ∈ ids,
      id.index < t.symbols.size := by
  induction limit generalizing scope n found with
  | zero => omega
  | succ limit ih =>
    obtain ⟨held, ran, where_⟩ := lookupChain_total rises (overloadKey name)
    simp only [Table.overloadsWithin, ran, ok_bind]
    cases held with
    | none => exact ⟨[], rfl, by simp⟩
    | some setId =>
      obtain ⟨at_, m, rises', le, held⟩ := where_ setId rfl
      obtain ⟨s, there, rfl, names⟩ := sound.named held
      obtain ⟨set, kind⟩ := (sound.keyed there).overloads name names
      have functions : ∀ id ∈ set.functions, id.index < t.symbols.size := by
        have kinds := sound.kinds there
        rw [kind] at kinds
        exact kinds
      simp only [get_symbol there, ok_bind, kind]
      cases set.forMethods with
      | false =>
        simp only [Bool.false_eq_true, if_false]
        split
        · exact ⟨[], rfl, by simp⟩
        · exact ⟨_, rfl, functions⟩
      | true =>
        simp only [if_true]
        cases rises' with
        | top up =>
          rw [parent_total up]
          exact ⟨_, rfl, functions⟩
        | step up rest =>
          rw [parent_total up]
          obtain ⟨others, ran, all⟩ := ih (found || !set.functions.isEmpty) rest (by omega)
          simp only [ok_bind, ran]
          exact ⟨_, rfl, List.forall_mem_append.mpr ⟨functions, all⟩⟩

theorem overloads (rooted : t.Rooted) (inside : scope.index < t.scopes.size) (name : String) :
    ∃ ids, t.overloads scope name = .ok ids ∧ ∀ id ∈ ids, id.index < t.symbols.size := by
  obtain ⟨n, rises⟩ := rooted scope inside
  exact sound.overloadsWithin false rises (Nat.lt_succ_of_lt (rises_short rises))

end Sound

end Table

/-! ## Written types -/

theorem Table.classBySignature_iff {t : Table} {key : String} {id : SymbolId} :
    t.classBySignature key = some id ↔ t.lookupLocal .root key = .ok (some id) ∧ (t.class? id).isSome := by
  have found : t.lookupRoot key = some id ↔ t.lookupLocal .root key = .ok (some id) := by
    by_cases inside : 0 < t.scopes.size
    · simp [Table.lookupRoot_eq inside]
    · simp [Table.lookupRoot, Table.lookupLocal, Table.scope, ScopeId.root, inside, bind, Except.bind]
  rw [← found]
  simp only [Table.classBySignature, Option.bind_eq_bind, Option.bind_eq_some_iff, Option.pure_def]
  constructor
  · rintro ⟨other, held, s, symbol, c, isClass, same⟩
    cases same
    exact ⟨held, by simp [Table.class?, Table.symbol?, symbol, isClass]⟩
  · rintro ⟨held, isClass⟩
    obtain ⟨c, isClass⟩ := Option.isSome_iff_exists.mp isClass
    obtain ⟨s, symbol, isClass⟩ := Table.class_symbol isClass
    exact ⟨id, held, s, symbol, c, isClass, rfl⟩

/-- A diagnostic within the source that is not about the order of globals. -/
structure Diagnostic.Fine (bound : Nat) (d : Diagnostic) : Prop where
  within : d.span.Within bound
  acyclic : d.cause ≠ .circularReference

/-- The cause lies neither in the order of globals nor in the hierarchy of the classes. -/
def Cause.isPlain : Cause → Bool
  | .circularReference | .inheritsFromItself _ | .overrideStaticMismatch | .overrideReturnMismatch => false
  | _ => true

/-- A diagnostic of typing or of control flow, within the source. -/
structure Diagnostic.Plain (bound : Nat) (d : Diagnostic) : Prop where
  within : d.span.Within bound
  isPlain : d.cause.isPlain

theorem Diagnostic.Plain.fine {bound : Nat} {d : Diagnostic} (plain : d.Plain bound) : d.Fine bound := by
  refine ⟨plain.within, fun cause => ?_⟩
  have isPlain := plain.isPlain
  rw [cause] at isPlain
  cases isPlain

theorem Diagnostic.Plain.other {bound : Nat} {d : Diagnostic} (plain : d.Plain bound) :
    d.cause.ofHierarchy = false := by
  have isPlain := plain.isPlain
  cases cause : d.cause with
  | inheritsFromItself | overrideStaticMismatch | overrideReturnMismatch =>
    rw [cause] at isPlain
    cases isPlain
  | _ => rfl

/-- A type over the classes of a table. -/
structure Ty.Over (t : Table) (ty : Ty) : Prop where
  below : ty.Below t.symbols.size
  cls : ∀ id, ty.classId? = some id → (t.class? id).isSome

namespace TypeName

variable {bound : Nat} {t : Table} {type : TypeName}

theorem signature_last (name : String) (arguments : List TypeName) :
    (signature name arguments).toList.getLast? = some '>' := by
  rw [signature, String.toList_append, List.getLast?_append_of_ne_nil _ (by decide)]
  rfl

/-- Outside template classes a written type stands for a type, or its class is not known. -/
theorem resolve_cases : ∀ {type : TypeName}, type.Fit bound True →
      (∃ ty, type.resolve t.classes = .ok ty ∧ ty.Over t ∧ ty.Proper) ∨
      ∃ name span, type.resolve t.classes = .error (.unknownClass name span) ∧ span.Within bound
  | .int _, _ | .double _, _ | .boolean _, _ | .any _, _ => .inl ⟨_, rfl, ⟨trivial, nofun⟩, trivial⟩
  | .array element span, fit => by
    rcases resolve_cases fit.1 with ⟨ty, resolved, known, proper⟩ | ⟨name, place, unknown, within⟩
    · refine .inl ⟨.array ty, ?_, ⟨known.below, nofun⟩, proper⟩
      rw [resolve, resolved]
      rfl
    · refine .inr ⟨name, place, ?_, within⟩
      rw [resolve, unknown]
      rfl
  | .ofClass name arguments span, fit => by
    cases held : t.classes.bySignature (signature name arguments) with
    | none => exact .inr ⟨text (.ofClass name arguments span), span, by simp only [resolve, held], fit.2⟩
    | some id =>
      obtain ⟨c, isClass⟩ := Option.isSome_iff_exists.mp (Table.classBySignature_iff.mp held).2
      obtain ⟨s, found, _⟩ := Table.class_symbol isClass
      refine .inl ⟨.ofClass (text (.ofClass name arguments span)) id, ?_, ⟨Table.symbol_bound found, ?_⟩, trivial⟩
      · simp only [resolve, held]
      · rintro _ ⟨⟩
        simp [isClass]
  | .parameter _ _ _, fit => absurd trivial fit.1.2

theorem IsClass.resolve {type : TypeName} {classes : ClassView} {ty : Ty} (isClass : type.IsClass)
    (resolved : type.resolve classes = .ok ty) : ∃ id, ty.classId? = some id := by
  obtain ⟨name, arguments, span, rfl⟩ := isClass
  simp only [TypeName.resolve] at resolved
  split at resolved
  next id _ =>
    cases resolved
    exact ⟨id, rfl⟩
  · cases resolved

end TypeName

namespace Analysis

variable {bound : Nat} {F : Diagnostic → Prop} {t : Table} {scope : ScopeId} {key : String} {β : Type}
variable {A B : β → Table → Prop}

theorem Goes.askChain {f : Option SymbolId → Analysis β} (sound : t.Sound bound) (rooted : t.Rooted)
    (inside : scope.index < t.scopes.size) (rest : ∀ found, t.lookupChain scope key = .ok found →
      (∀ id, found = some id → ∃ s, t.symbol? id = some s ∧ s.name = key) → Goes F t (f found) A B) :
    Goes F t (Analysis.lookupChain scope key >>= f) A B := by
  obtain ⟨found, ran, there⟩ := sound.lookupChain rooted inside key
  exact .ask ran (rest found ran there)

theorem Goes.askLocal {f : Option SymbolId → Analysis β} (sound : t.Sound bound) (inside : scope.index < t.scopes.size)
    (rest : ∀ found, t.lookupLocal scope key = .ok found →
      (∀ id, found = some id → ∃ s, t.symbol? id = some s ∧ s.name = key) → Goes F t (f found) A B) :
    Goes F t (Analysis.lookupLocal scope key >>= f) A B := by
  obtain ⟨found, ran⟩ := Table.lookupLocal_total inside key
  apply Goes.ask ran (rest found ran _)
  rintro id rfl
  obtain ⟨s, there, _, names⟩ := sound.named ran
  exact ⟨s, there, names⟩

theorem Goes.askOverloads {f : List SymbolId → Analysis β} (sound : t.Sound bound) (rooted : t.Rooted)
    (inside : scope.index < t.scopes.size)
    (rest : ∀ ids, t.overloads scope key = .ok ids → (∀ id ∈ ids, id.index < t.symbols.size) → Goes F t (f ids) A B) :
    Goes F t (Analysis.overloads scope key >>= f) A B := by
  obtain ⟨ids, ran, below⟩ := sound.overloads rooted inside key
  exact .ask ran (rest ids ran below)

theorem Goes.askBelow {id : SymbolId} {f : Symbol → Analysis β} (below : id.index < t.symbols.size)
    (rest : ∀ s, t.symbol? id = some s → Goes F t (f s) A B) : Goes F t (Analysis.symbol id >>= f) A B := by
  obtain ⟨s, held⟩ := Table.symbol_exists below
  exact .askSymbol held (rest s held)

/-- On a quiet run a written type stands for what it resolves to. -/
theorem resolveType_answers {type : TypeName} (fit : type.Fit bound True) :
    Answers (Diagnostic.Plain bound) t (Analysis.resolveType type) (·.Over t)
      fun ty => type.resolve t.classes = .ok ty ∧ ty.Proper := by
  unfold Analysis.resolveType
  apply Goes.askTable
  rcases TypeName.resolve_cases (t := t) fit with ⟨ty, resolved, known, proper⟩ | ⟨name, span, unresolved, within⟩
  · simp only [resolved]
    exact .pure ⟨rfl, known⟩ ⟨rfl, proper⟩
  · simp only [unresolved]
    exact .reports ⟨within, rfl⟩ (.pure ⟨rfl, trivial, nofun⟩ trivial)

end Analysis

end Quasicode
