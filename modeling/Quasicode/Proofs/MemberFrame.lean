import Quasicode.Proofs.AnalysisInvariants
import Quasicode.Proofs.DispatchTables
import Quasicode.Proofs.TableScopes

/-!
Classes and methods after the hierarchy is built. From then on no class changes, and a method only becomes ready, so
what is settled about overriding stays settled, and a function has the same target whenever a call asks for it.
-/
namespace Quasicode

open Relation Hierarchy Analysis

/-- A method that can be called. -/
def MethodSymbol.opened (m : MethodSymbol) : MethodSymbol := { m with ready := true }

/-- A class or a method with its key, no matter whether the method is ready. -/
def Symbol.member? (s : Symbol) : Option (String × SymbolKind) :=
  match s.kind with
  | .cls c => some (s.name, .cls c)
  | .method m => some (s.name, .method m.opened)
  | _ => none

namespace Table

variable {t t' : Table} {c d id m x : SymbolId} {method : MethodSymbol}

def member? (t : Table) (id : SymbolId) : Option (String × SymbolKind) := (t.symbol? id).bind Symbol.member?

/-- Both tables have the same classes and, up to being ready, the same methods. -/
def SameMembers (t t' : Table) : Prop := ∀ id, t'.member? id = t.member? id

theorem class_member : t.class? id = (t.member? id).bind fun entry => entry.2.class? := by
  unfold class? member?
  cases t.symbol? id with
  | none => rfl
  | some s => cases kind : s.kind <;> simp [Symbol.class?, Symbol.member?, kind, SymbolKind.class?]

theorem signature_member : t.signature? id = (t.member? id).bind fun entry =>
    entry.2.method?.bind fun m => if m.isConstructor then none else some entry.1 := by
  unfold signature? member?
  cases t.symbol? id with
  | none => rfl
  | some s =>
    cases kind : s.kind <;> simp [Symbol.method?, Symbol.member?, kind, SymbolKind.method?, MethodSymbol.opened]

theorem opened_member : (t.method? id).map MethodSymbol.opened = (t.member? id).bind fun entry => entry.2.method? := by
  unfold method? member?
  cases t.symbol? id with
  | none => rfl
  | some s => cases kind : s.kind <;> simp [Symbol.method?, Symbol.member?, kind, SymbolKind.method?]

namespace SameMembers

theorem refl (t : Table) : SameMembers t t := fun _ => rfl

theorem trans {t'' : Table} (first : SameMembers t t') (second : SameMembers t' t'') : SameMembers t t'' :=
  fun id => (second id).trans (first id)

section Transfer

variable (same : SameMembers t t')
include same

theorem symm : SameMembers t' t := fun id => (same id).symm

theorem class_same (id : SymbolId) : t'.class? id = t.class? id := by
  rw [class_member, class_member, same id]

theorem sameLinks : SameLinks t t' := fun id => by rw [same.class_same]

theorem sameMethods : SameMethods t t' := by
  refine ⟨fun c => by rw [methodsOf, methodsOf, same.class_same], fun m => ?_, fun m => ?_⟩
  · rw [signature_member, signature_member, same m]
  · have opened : (t'.method? m).map MethodSymbol.opened = (t.method? m).map MethodSymbol.opened := by
      rw [opened_member, opened_member, same m]
    have declared := congrArg (Option.map MethodSymbol.declaration) opened
    rwa [Option.map_map, Option.map_map] at declared

/-- The methods of both tables differ at most in being ready. -/
theorem method_ready (held : t'.method? m = some method) : ∃ ready, t.method? m = some { method with ready } := by
  have opened : (t.method? m).map MethodSymbol.opened = (t'.method? m).map MethodSymbol.opened := by
    rw [opened_member, opened_member, same m]
  rw [held] at opened
  obtain ⟨old, held', eq⟩ := Option.map_eq_some_iff.mp opened
  refine ⟨old.ready, held'.trans (congrArg some ?_)⟩
  cases old
  cases method
  simpa [MethodSymbol.opened] using eq

theorem under_iff : t'.Under c d ↔ t.Under c d := same.sameLinks.under_iff

theorem callable (callable : t.Callable m) : t'.Callable m := by
  intro method held
  obtain ⟨ready, held'⟩ := same.method_ready held
  exact (callable _ held' :)

theorem owner_same (m : SymbolId) : t'.owner? m = t.owner? m := by
  have declared := congrArg (Option.map MethodSymbol.owner) (same.sameMethods.method m)
  rwa [Option.map_map, Option.map_map] at declared

/-- A function has the same target in both tables. -/
theorem target_same (m : SymbolId) : t'.targetOf m = t.targetOf m := by
  have inserted (ids : List SymbolId) (methods : List (SymbolId × SymbolId)) :
      t'.insertOwned ids methods = t.insertOwned ids methods := by
    simp only [insertOwned, same.owner_same]
  unfold targetOf
  cases held : t'.method? m with
  | none =>
    cases old : t.method? m with
    | none => rfl
    | some method =>
      obtain ⟨_, held'⟩ := same.symm.method_ready old
      rw [held] at held'
      cases held'
  | some method =>
    obtain ⟨ready, held'⟩ := same.method_ready held
    simp only [held', inserted]

theorem overriding (overriding : Overriding t) : Overriding t' := by
  have methods := same.sameMethods
  have under : t'.Under = t.Under := funext fun c => funext fun d => propext same.under_iff
  refine ⟨same.sameLinks.forest overriding.forest, methods.owned overriding.owned,
    fun {m method key} held signed x => ?_⟩
  obtain ⟨ready, held'⟩ := same.method_ready held
  rw [methods.signature] at signed
  simpa only [under, methods.declares] using overriding.overriders held' signed x

theorem settled (settled : Settled t) : Settled t' := by
  refine ⟨same.overriding settled.toOverriding, fun {c d m m' a b key} strict upper lower upperHeld lowerHeld => ?_⟩
  obtain ⟨_, upperHeld'⟩ := same.method_ready upperHeld
  obtain ⟨_, lowerHeld'⟩ := same.method_ready lowerHeld
  rw [same.sameMethods.declares] at upper lower
  exact (settled.agree (TransGen.mono (fun _ _ => same.under_iff.mp) _ _ strict) upper lower upperHeld' lowerHeld' :)

end Transfer

end SameMembers

/-! ## Steps that leave classes and methods alone -/

theorem SameMembers.declare {kind : SymbolKind} {t'' : Table} {scope : ScopeId} {name : String} {span : Span}
    (same : SameMembers t t') (noClass : kind.class? = none) (noMethod : kind.method? = none)
    (ran : t'.declare scope name span kind = .ok (id, t'')) : SameMembers t t'' := by
  have declares := declare_declares ran
  intro j
  rw [← same j]
  unfold member?
  rw [declares.symbol]
  split
  next new =>
    subst new
    rw [declares.fresh]
    cases kind with
    | cls => cases noClass
    | method => cases noMethod
    | _ => rfl
  next => rfl

theorem SameMembers.edit {f : SymbolKind → SymbolKind} (kept : ∀ s : Symbol, (s.mapKind f).member? = s.member?) :
    SameMembers t (t.edit id f) := by
  intro j
  unfold member?
  rw [edit_symbol?]
  cases t.symbol? j with
  | none => rfl
  | some s =>
    by_cases here : j = id
    · simp [here, kept]
    · simp [here]

theorem SameMembers.modify {f : SymbolKind → SymbolKind} {t'' : Table} (same : SameMembers t t')
    (kept : ∀ s : Symbol, (s.mapKind f).member? = s.member?) (ran : t'.modify id f = .ok t'') : SameMembers t t'' := by
  obtain ⟨_, rfl⟩ := modify_ok_iff.mp ran
  exact same.trans (.edit kept)

end Table

theorem Symbol.member_variable (f : VariableSymbol → VariableSymbol) (s : Symbol) :
    (s.mapKind (SymbolKind.mapVariable f)).member? = s.member? := by
  cases kind : s.kind <;> simp [Symbol.member?, Symbol.mapKind, kind, SymbolKind.mapVariable]

theorem Symbol.member_overloads (f : OverloadSet → OverloadSet) (s : Symbol) :
    (s.mapKind (SymbolKind.mapOverloads f)).member? = s.member? := by
  cases kind : s.kind <;> simp [Symbol.member?, Symbol.mapKind, kind, SymbolKind.mapOverloads]

theorem Symbol.member_ready (s : Symbol) :
    (s.mapKind (SymbolKind.mapMethod fun m => { m with ready := true })).member? = s.member? := by
  cases kind : s.kind <;> simp [Symbol.member?, Symbol.mapKind, kind, SymbolKind.mapMethod, MethodSymbol.opened]

/-! ## The rest of an analysis -/

/-- What is left from a moment with the table `t` and the diagnostics `problems`: the same classes and methods, and
all diagnostics of before, behind which none comes from the hierarchy. -/
structure Since (t : Table) (problems : List Diagnostic) (s : AnalysisState) : Prop where
  members : t.SameMembers s.table
  problems : ∃ later, s.problems = problems ++ later ∧ ∀ d ∈ later, d.cause.ofHierarchy = false

namespace Since

variable {t : Table} {problems : List Diagnostic}

theorem refl (s : AnalysisState) : Since s.table s.problems s := ⟨.refl _, [], by simp, by simp⟩

theorem reportStable : ReportStable (Since t problems) := by
  refine ⟨fun {s} d other since => ⟨since.members, ?_⟩⟩
  obtain ⟨later, same, others⟩ := since.problems
  exact ⟨later ++ [d], by simp [same], List.forall_mem_append.mpr ⟨others, by simpa using other⟩⟩

/-- If nothing has been reported in the end, nothing was before. -/
theorem silent {s : AnalysisState} (since : Since t problems s) (nothing : s.problems = []) : problems = [] := by
  obtain ⟨later, same, _⟩ := since.problems
  exact (List.append_eq_nil_iff.mp (same.symm.trans nothing)).1

end Since

end Quasicode
