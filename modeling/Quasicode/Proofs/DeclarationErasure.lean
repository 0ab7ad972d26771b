import Quasicode.Binding.Program
import Quasicode.Proofs.AnalysisInvariants
import Quasicode.Proofs.BareProgram

/-!
Declaring only fills slots: the bare form of what is declared stays as it is, no value is
converted, and nothing is chosen for a call.
-/
namespace Quasicode

open Analysis

namespace Analysis

variable {α β γ : Type} {I : AnalysisState → Prop}

/-- Whatever a step does, it ends somewhere. -/
theorem Keeps.any {x : Analysis α} : Keeps (fun _ => True) x fun _ => True := ⟨fun _ _ => ⟨trivial, trivial⟩⟩

/-- A step that is taken without regard to what it does. -/
theorem Keeps.after {x : Analysis α} {f : α → Analysis β} {R : β → Prop} (rest : ∀ a, Keeps (fun _ => True) (f a) R) :
    Keeps (fun _ => True) (x >>= f) R :=
  Keeps.any.seq rest

/-- A loop over parts, each of which becomes another one. -/
theorem Keeps.mapM_dresses {xs : List γ} {f : γ → Analysis γ} {bare : γ → γ} {All : γ → Prop}
    (each : ∀ x ∈ xs, Keeps I (f x) (Dresses bare All x)) :
    Keeps I (xs.mapM f) fun ys => ys.map bare = xs.map bare ∧ ∀ y ∈ ys, All y := by
  induction xs with
  | nil => exact .pure ⟨rfl, by simp⟩
  | cons x xs ih =>
    rw [List.mapM_cons]
    refine (each x List.mem_cons_self).bind fun y here => ?_
    refine (ih fun z inside => each z (List.mem_cons_of_mem _ inside)).bind fun ys rest => .pure ⟨?_, ?_⟩
    · rw [List.map_cons, List.map_cons, here.same, rest.1]
    · exact List.forall_mem_cons.mpr ⟨here.all, rest.2⟩

end Analysis

namespace Binding

variable {scope : ScopeId} {c : Class} {item : Item} {items : List Item}

theorem declareFunction_dresses {owner : Option MethodOwner} {f : Function} (fresh : f.All Expr.Unset) :
    Keeps (fun _ => True) (declareFunction scope owner f) (f.Dresses Expr.Unset) := by
  unfold declareFunction
  refine Keeps.after fun params => ?_
  extract_lets name key rest
  have each (returns : Ty) : Keeps (fun _ => True) (rest returns) (f.Dresses Expr.Unset) := by
    refine Keeps.after fun found => .ite (fun _ => Keeps.after fun _ => .pure ⟨rfl, fresh⟩) fun _ => ?_
    refine Keeps.after fun className => .ite (fun _ => Keeps.after fun _ => .pure ⟨rfl, fresh⟩) fun _ => ?_
    exact Keeps.after fun id => Keeps.after fun set => Keeps.after fun _ => .pure ⟨rfl, fresh⟩
  cases f.returns with
  | none => exact each .void
  | some type => exact Keeps.after each

theorem declareClass_dresses (fresh : c.All Expr.Unset) :
    Keeps (fun _ => True) (declareClass c) (c.Dresses Expr.Unset) := by
  unfold declareClass
  refine .ite (fun _ => Keeps.after fun _ => .pure ⟨rfl, fresh⟩) fun _ => ?_
  refine Keeps.after fun known => Keeps.after fun taken => .ite (fun _ => Keeps.after fun _ => .pure ⟨rfl, fresh⟩)
    fun _ => ?_
  refine Keeps.after fun named => .ite (fun _ => Keeps.after fun _ => ?_) fun _ => ?_
  · exact Keeps.after fun scope => Keeps.after fun id => .pure ⟨rfl, fresh⟩
  · exact Keeps.after fun scope => Keeps.after fun id => .pure ⟨rfl, fresh⟩

theorem declareField_dresses {cls : SymbolId} {f : Field}
    (fresh : ∀ e, f.initializer = some e → e.All Expr.Unset) : Keeps (fun _ => True) (declareField cls scope f)
      (Dresses Field.bare (fun f => ∀ e, f.initializer = some e → e.All Expr.Unset) f) := by
  unfold declareField
  refine Keeps.after fun ty => Keeps.after fun known => .ite (fun _ => Keeps.after fun _ => .pure ⟨rfl, fresh⟩)
    fun _ => ?_
  exact Keeps.after fun id => Keeps.after fun _ => .pure ⟨rfl, fresh⟩

theorem declareMembers_dresses (fresh : c.All Expr.Unset) :
    Keeps (fun _ => True) (declareMembers c) (c.Dresses Expr.Unset) := by
  have method {id : SymbolId} {scope : ScopeId} (m : Method) (inside : m ∈ c.methods) :
      Keeps (fun _ => True) (declareMethod id c.name.name scope m)
        (Dresses Method.bare (·.function.All Expr.Unset) m) := by
    refine (declareFunction_dresses (fresh.2 m inside)).bind fun f done => .pure ⟨?_, done.all⟩
    simp only [Method.bare, done.same]
  unfold declareMembers
  split
  · refine (Keeps.mapM_dresses method).bind fun methods second => ?_
    refine (Keeps.mapM_dresses fun f inside => declareField_dresses (fresh.1 f inside)).bind
      fun fields first => .pure ⟨?_, first.2, second.2⟩
    simp only [Class.bare, first.1, second.1]
  · exact .pure ⟨rfl, fresh⟩

theorem mapClasses_dresses {f : Class → Analysis Class} (fresh : item.All Expr.Unset)
    (each : ∀ {c : Class}, c.All Expr.Unset → Keeps (fun _ => True) (f c) (c.Dresses Expr.Unset)) :
    Keeps (fun _ => True) (mapClasses f item) (item.Dresses Expr.Unset) := by
  cases item with
  | cls c => exact (each fresh).bind fun _ done => .pure ⟨congrArg Item.cls done.same, done.all⟩
  | function | stmt => exact .pure ⟨rfl, fresh⟩

theorem mapFunctions_dresses (fresh : item.All Expr.Unset) :
    Keeps (fun _ => True) (mapFunctions (declareFunction .root none) item) (item.Dresses Expr.Unset) := by
  cases item with
  | function f =>
    exact (declareFunction_dresses fresh).bind fun _ done => .pure ⟨congrArg Item.function done.same, done.all⟩
  | cls | stmt => exact .pure ⟨rfl, fresh⟩

/-! ## Programs -/

/-- The items have become what they are, and all of their nodes are unset. -/
def DressesItems (items items' : List Item) : Prop := items'.map Item.bare = items.map Item.bare ∧
  ∀ item ∈ items', item.All Expr.Unset

/-- A pass over the items of a program. -/
theorem items_dresses {f : Item → Analysis Item} {first : List Item} (before : DressesItems first items)
    (each : ∀ item : Item, item.All Expr.Unset → Keeps (fun _ => True) (f item) (item.Dresses Expr.Unset)) :
    Keeps (fun _ => True) (items.mapM f) (DressesItems first) := by
  refine (Keeps.mapM_dresses fun item inside => each item (before.2 item inside)).mono fun items' done => ⟨?_, done.2⟩
  rw [done.1, before.1]

theorem declareAll_dresses (fresh : ∀ item ∈ items, item.All Expr.Unset) :
    Keeps (fun _ => True) (declareAll items) (DressesItems items) := by
  refine (items_dresses ⟨rfl, fresh⟩ fun item here => mapClasses_dresses here declareClass_dresses).bind
    fun _ done => ?_
  refine (items_dresses done fun item here => mapClasses_dresses here declareMembers_dresses).bind fun _ done => ?_
  exact items_dresses done fun item here => mapFunctions_dresses here

theorem declareItems_dresses (fresh : ∀ item ∈ items, item.All Expr.Unset) :
    Keeps (fun _ => True) (declareItems items) (DressesItems items) :=
  (declareAll_dresses fresh).bind fun _ done => Keeps.after fun _ => Keeps.after
    fun _ => Keeps.after fun _ => .pure done

end Binding

end Quasicode
