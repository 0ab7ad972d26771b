import Quasicode.Proofs.TypedExpr

/-!
Two runs of typing. The second one begins in a table in which some variables have been given types that they do not have
in the first. A step that never asks for those types runs alike from both tables: it answers and reports the same, and
the two tables still differ in nothing else. Most of what typing asks for has nothing to do with the types of variables.
-/
namespace Quasicode

/-! ## Tables that differ in types -/

/-- The variable with a type, unless it has one already. -/
def VariableSymbol.given (type : Option Ty) (v : VariableSymbol) : VariableSymbol := { v with type := v.type <|> type }

/-- The symbol with a type, if it is a variable that has none. -/
def Symbol.given (type : Option Ty) (s : Symbol) : Symbol :=
  s.mapKind (SymbolKind.mapVariable (VariableSymbol.given type))

namespace Symbol

variable {type : Option Ty} {s : Symbol}

theorem given_scope : (s.given type).scope = s.scope := rfl

@[simp] theorem given_class : (s.given type).class? = s.class? := by
  cases kind : s.kind <;> simp [Symbol.class?, given, Symbol.mapKind, kind, SymbolKind.mapVariable, SymbolKind.class?]

@[simp] theorem given_method : (s.given type).method? = s.method? := by
  cases kind : s.kind <;> simp [Symbol.method?, given, Symbol.mapKind, kind, SymbolKind.mapVariable, SymbolKind.method?]

@[simp] theorem given_function : (s.given type).function? = s.function? := by
  cases kind : s.kind <;> simp [Symbol.function?, given, Symbol.mapKind, kind,
    SymbolKind.mapVariable, SymbolKind.function?]

theorem given_global {v : VariableSymbol} {site : GlobalSite} (kind : s.kind = .globalVariable v site) :
    (s.given type).kind = .globalVariable (v.given type) site := by
  rw [given, Symbol.mapKind, kind]
  rfl

@[simp] theorem given_var : (s.given type).var? = s.var?.map (VariableSymbol.given type) := by
  cases kind : s.kind <;> simp [Symbol.var?, given, Symbol.mapKind, kind, SymbolKind.mapVariable, SymbolKind.var?]

/-- A variable that has a type keeps it. -/
theorem given_typed (typed : ∀ v, s.var? = some v → v.type.isSome) : s.given type = s := by
  have kept {v : VariableSymbol} (isSome : v.type.isSome) : v.given type = v := by
    obtain ⟨ty, same⟩ := Option.isSome_iff_exists.mp isSome
    cases v
    cases same
    rfl
  obtain ⟨id, name, span, scope, kind⟩ := s
  cases kind with
  | «variable» v | globalVariable v => simp [given, mapKind, SymbolKind.mapVariable, kept (typed v rfl)]
  | _ => rfl

end Symbol

namespace Table

variable {given : SymbolId → Option Ty} {t t' : Table} {id : SymbolId}

/-- Tables with the same scopes and classes are the same to the types that are written. -/
theorem classes_congr (scopes : t'.scopes = t.scopes) (size : t'.symbols.size = t.symbols.size)
    (classes : ∀ id, t'.class? id = t.class? id) : t'.classes = t.classes := by
  simp only [Table.classes, ClassView.mk.injEq]
  refine ⟨funext fun key => ?_, funext fun id => ?_, size⟩
  · unfold Table.classBySignature Table.lookupRoot
    rw [scopes]
    cases t.scopes[0]?.bind (·.lookup key) with
    | none => rfl
    | some id =>
      have here := congrArg (fun c => c.bind fun _ => some id) (classes id)
      simpa [class?, symbol?, Option.bind_assoc] using here
  · have here := congrArg (fun c => c.bind fun c : ClassSymbol => c.depth.map fun depth =>
      ({ name := c.displayName, depth, upper := c.upper } : ClassLink)) (classes id)
    simpa [class?, classLink, symbol?, Option.bind_assoc, Option.map_eq_bind, Function.comp_def] using here

/-- Between `t` and `t'` variables that had no type have been given some. -/
structure Retyped (given : SymbolId → Option Ty) (t t' : Table) : Prop
    extends Edited (fun id => SymbolKind.mapVariable (VariableSymbol.given (given id))) t t' where
  scopes : t'.scopes = t.scopes

namespace Retyped

variable {scope : ScopeId} {name : String} (retyped : t.Retyped given t')
include retyped

theorem given_symbol : t'.symbol? id = (t.symbol? id).map (Symbol.given (given id)) := retyped.symbols id

theorem get_eq : t'.get id = (t.get id).map (Symbol.given (given id)) := by
  have same : t'.symbols[id.index]? = (t.symbols[id.index]?).map (Symbol.given (given id)) := retyped.symbols id
  unfold Table.get
  rw [same]
  cases t.symbols[id.index]? <;> rfl

theorem var_eq : t'.var? id = (t.var? id).map (VariableSymbol.given (given id)) := by
  unfold var?
  rw [retyped.given_symbol]
  cases t.symbol? id <;> simp

theorem class_eq : t'.class? id = t.class? id := by
  unfold class?
  rw [retyped.given_symbol]
  cases t.symbol? id <;> simp

theorem method_eq : t'.method? id = t.method? id := by
  unfold method?
  rw [retyped.given_symbol]
  cases t.symbol? id <;> simp

theorem owner_eq : t'.owner? id = t.owner? id := by rw [owner?, owner?, retyped.method_eq]

theorem classes_eq : t'.classes = t.classes := classes_congr retyped.scopes retyped.size fun _ => retyped.class_eq

theorem lookupLocal_eq : t'.lookupLocal scope name = t.lookupLocal scope name := lookupLocal_congr retyped.scopes

theorem overloads_eq : t'.overloads scope name = t.overloads scope name :=
  overloads_congr retyped.scopes fun id => ⟨_, retyped.symbols id⟩

theorem ancestry_eq : t'.ancestry id = t.ancestry id := by
  have within (limit : Nat) (id : SymbolId) : t'.ancestryWithin limit id = t.ancestryWithin limit id := by
    induction limit generalizing id with
    | zero => rfl
    | succ limit ih =>
      simp only [Table.ancestryWithin, retyped.get_eq, ih]
      cases t.get id with
      | error => rfl
      | ok s => simp only [Except.map, ok_bind, Symbol.given_class]
  unfold Table.ancestry
  rw [within, retyped.size]

theorem leveled (leveled : t.Leveled) : t'.Leveled := by
  refine ⟨fun held depth => ?_⟩
  simp only [retyped.class_eq] at held ⊢
  exact leveled.above held depth

theorem hasType (typed : t.HasType id) : t'.HasType id := by
  intro v' isVar'
  rw [retyped.var_eq] at isVar'
  obtain ⟨v, isVar, rfl⟩ := Option.map_eq_some_iff.mp isVar'
  obtain ⟨ty, type⟩ := Option.isSome_iff_exists.mp (typed v isVar)
  simp [VariableSymbol.given, type]

end Retyped

end Table

/-! ## Steps that run alike -/

namespace Typing

open Analysis

variable {bound : Nat} {given : SymbolId → Option Ty} {t u : Table} {id : SymbolId} {ty : Ty}

/-- The variables of `t` that have no type are given types in `u`. -/
structure Twin (given : SymbolId → Option Ty) (t u : Table) : Prop extends t.Retyped given u where
  current : u.current = t.current

theorem Twin.set (twin : Twin given t u) :
    Twin given (t.edit id (·.mapVariable fun v => { v with type := some ty }))
      (u.edit id (·.mapVariable fun v => { v with type := some ty })) := by
  refine ⟨⟨⟨?_, twin.classCount, fun j => ?_⟩, twin.scopes⟩, twin.current⟩
  · rw [Table.edit_size, Table.edit_size, twin.size]
  · rw [Table.edit_symbol?, Table.edit_symbol?, twin.symbols]
    cases t.symbol? j with
    | none => rfl
    | some s =>
      simp only [Option.map_some, Option.some.injEq]
      split
      · cases kind : s.kind <;> simp [Symbol.mapKind, kind, SymbolKind.mapVariable, VariableSymbol.given]
      · rfl

/-- Where all variables have types, nothing is left to be given. -/
theorem Twin.eq (twin : Twin given t u) (typed : ∀ id, t.HasType id) : u = t := by
  have symbols : u.symbols = t.symbols := by
    refine Array.ext_getElem? fun i => ?_
    have same := twin.symbols ⟨i⟩
    cases held : t.symbol? ⟨i⟩ with
    | none => exact (same.trans (by rw [held]; rfl)).trans held.symm
    | some s =>
      rw [held, Option.map_some] at same
      refine Eq.trans (same.trans (congrArg some ?_)) held.symm
      exact Symbol.given_typed fun v isVar => typed ⟨i⟩ v (by rw [Table.var_of held, isVar])
  cases t
  cases u
  cases symbols
  cases twin.scopes
  cases twin.current
  cases twin.classCount
  rfl

/-- Types for variables that have none, and what it takes for nobody to notice them. -/
structure Guess where
  given : SymbolId → Option Ty
  sure : Prop

/-- What typing is watched for: its diagnostics are plain, and it does not notice the types that are guessed. -/
abbrev Unseen (bound : Nat) (g : Guess) : Watch := ⟨Diagnostic.Plain bound, fun t u => g.sure ∧ Twin g.given t u⟩

section Questions

variable {g : Guess} {α β : Type} {A B : β → Table → Prop}

theorem ask {q : Table → Except Fault α} {f : α → Analysis β} {a : α} (answer : q t = .ok a)
    (same : ∀ {given u}, t.Retyped given u → q u = q t) (rest : Goes (Unseen bound g) t (f a) A B) :
    Goes (Unseen bound g) t (query q >>= f) A B :=
  .after (run_query answer) (fun beside => ⟨a, rfl, run_query ((same beside.2.toRetyped).trans answer)⟩) rest

theorem askTable {f : Table → Analysis β} (same : ∀ {given u}, t.Retyped given u → f u = f t)
    (rest : Goes (Unseen bound g) t (f t) A B) : Goes (Unseen bound g) t (table >>= f) A B :=
  .after rfl (fun beside => ⟨_, same beside.2.toRetyped, rfl⟩) rest

/-- What is asked about a symbol has nothing to do with the type that is guessed. -/
theorem askSymbol {s : Symbol} {f : Symbol → Analysis β} (held : t.symbol? id = some s)
    (same : g.sure → f (s.given (g.given id)) = f s) (rest : Goes (Unseen bound g) t (f s) A B) :
    Goes (Unseen bound g) t (symbol id >>= f) A B :=
  .after (run_symbol held) (fun beside => ⟨_, same beside.1, run_symbol (beside.2.symbol held)⟩) rest

theorem askBelow {f : Symbol → Analysis β} (below : id.index < t.symbols.size) (same : ∀ s type, f (s.given type) = f s)
    (rest : ∀ s, t.symbol? id = some s → Goes (Unseen bound g) t (f s) A B) :
    Goes (Unseen bound g) t (symbol id >>= f) A B := by
  obtain ⟨s, held⟩ := Table.symbol_exists below
  exact askSymbol held (fun _ => same s _) (rest s held)

theorem askJoin {f : Ty → Analysis β} {a b : Ty} (intact : t.Intact bound) (belowA : a.Below t.symbols.size)
    (belowB : b.Below t.symbols.size) (rest : ∀ c, Ty.join t.classes a b = .ok c → c.Below t.symbols.size →
    Goes (Unseen bound g) t (f c) A B) :
    Goes (Unseen bound g) t (join a b >>= f) A B := by
  obtain ⟨c, joined, below, _⟩ := intact.leveled.join belowA belowB
  exact ask joined (fun retyped => by rw [retyped.classes_eq]) (rest c joined below)

end Questions

end Typing

end Quasicode
