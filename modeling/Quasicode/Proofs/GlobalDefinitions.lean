import Quasicode.Proofs.BindStatements
import Quasicode.Proofs.DeclareItems

/-!
The globals of a program and the assignments that define them. A global is declared by one assignment, at the place that
its symbol tells; the globals of a program are numbered in the order of those assignments. Every other assignment at the
top level is to something that is known.
-/
namespace Quasicode

open Analysis
open Table (Persists Advances)
open Diagnostic (Plain)

variable {id : SymbolId} {α β : Type} {i bound : Nat} {item : Item} {t : Table} {site : GlobalSite}
variable {e : Expr} {plain : Prop}
  {a : Assignment}

/-! ## Numbers in a row -/

/-- The symbols from `first` up to, and without, `last`. -/
def idsFrom (first last : Nat) : List SymbolId := (List.range' first (last - first)).map SymbolId.mk

theorem mem_idsFrom {first last : Nat} : id ∈ idsFrom first last ↔ first ≤ id.index ∧ id.index < last := by
  simp only [idsFrom, List.mem_map, List.mem_range'_1]
  constructor
  · rintro ⟨n, bounds, rfl⟩
    exact ⟨bounds.1, by simp only; omega⟩
  · rintro ⟨least, less⟩
    exact ⟨id.index, ⟨least, by omega⟩, rfl⟩

theorem idsFrom_nodup (first last : Nat) : (idsFrom first last).Nodup := by
  apply List.Nodup.map _ List.nodup_range'
  exact fun _ _ same => congrArg SymbolId.index same

/-- What is declared between two numbers, piece by piece, is declared in a row. -/
theorem threads_ids {f : α → List SymbolId} : ∀ {xs : List α} {first last : Nat},
    threads (fun first x last => first ≤ last ∧ f x = idsFrom first last) first xs last → first ≤ last ∧
    xs.flatMap f = idsFrom first last
  | [], first, _, rfl => ⟨Nat.le_refl _, by simp [idsFrom]⟩
  | x :: xs, first, last, ⟨middle, ⟨le, here⟩, rest⟩ => by
    obtain ⟨le', others⟩ := threads_ids rest
    refine ⟨Nat.le_trans le le', ?_⟩
    rw [List.flatMap_cons, here, others, idsFrom, idsFrom, idsFrom, ← List.map_append]
    congr 1
    have middleAt : middle = first + (middle - first) := by omega
    have whole : last - first = (middle - first) + (last - middle) := by omega
    rw [whole, ← List.range'_append_1, ← middleAt]

theorem forall₂_get {R : α → β → Prop} {xs : List α} {ys : List β} (all : List.Forall₂ R xs ys) {y : β}
    (here : ys[i]? = some y) : ∃ x, xs[i]? = some x ∧ R x y := by
  induction all generalizing i with
  | nil => simp at here
  | cons holds _ ih =>
    cases i with
    | zero =>
      cases here
      exact ⟨_, rfl, holds⟩
    | succ i => exact ih here

/-- What is known of a pair at equal places. -/
theorem forall₂_zipIdx {R : α × Nat → β → Prop} {xs : List α} {ys : List β} (all : List.Forall₂ R xs.zipIdx ys)
    {y : β} (here : ys[i]? = some y) : ∃ x, xs[i]? = some x ∧ R (x, i) y := by
  obtain ⟨⟨x, j⟩, found, holds⟩ := forall₂_get all here
  rw [List.getElem?_zipIdx, Option.map_eq_some_iff] at found
  obtain ⟨x', held, same⟩ := found
  cases same
  rw [Nat.zero_add] at holds
  exact ⟨x, held, holds⟩

theorem forall₂_of_zipIdx {R : α → β → Prop} {xs : List α} {ys : List β}
    (all : List.Forall₂ (fun x y => R x.1 y) xs.zipIdx ys) : List.Forall₂ R xs ys := by
  have fsts := (List.forall₂_map_left_iff (f := Prod.fst)).mpr all
  rwa [List.zipIdx_map_fst] at fsts

theorem forall₂_flatMap {γ : Type} {f : α → List γ} {g : β → List γ} {xs : List α} {ys : List β}
    (all : List.Forall₂ (fun x y => g y = f x) xs ys) : ys.flatMap g = xs.flatMap f := by
  induction all with
  | nil => rfl
  | cons same _ ih => rw [List.flatMap_cons, List.flatMap_cons, same, ih]

/-! ## Items and their assignments -/

/-- The items are the same but for the assignments of the second. -/
def Item.Like : Item → Item → Prop
  | .stmt (.assign _), .stmt (.assign _) => True
  | .stmt (.assignAll _ span), .stmt (.assignAll _ span') => span = span'
  | item, item' => item = item'

/-- What an item is but for its assignments. -/
theorem Item.Like.are {item' : Item} {classes : Class → Prop} {functions : Function → Prop} {c : Checks}
    (like : item.Like item') (are : item.Are classes functions fun s => (Item.stmt s).assignments = [] → s.Holds c) :
    item'.Are classes functions fun s => (Item.stmt s).assignments = [] → s.Holds c := by
  unfold Item.Like at like
  split at like
  · exact nofun
  · intro none
    simp [Item.assignments] at none
    simp [none, Stmt.Holds]
  · exact like ▸ are

theorem Item.Like.signed {item' : Item} (like : item.Like item') (signed : Binding.ItemSigned t item) :
    Binding.ItemSigned t item' := by
  unfold Item.Like at like
  split at like
  · trivial
  · trivial
  · exact like ▸ signed

/-- Changes of the assignments of an item, one after the other. -/
theorem mapAssignments_chain {f : Nat → Assignment → Analysis Assignment} {L : Table → Table → Prop}
    {P S : Table → Assignment × Nat → Assignment → Prop} {Q : Table → Nat → Assignment → Nat → Prop}
    (refl : ∀ {t₁ t₂}, L t₁ t₂ → L t₂ t₂) (trans : ∀ {t₁ t₂ t₃}, L t₁ t₂ → L t₂ t₃ → L t₁ t₃)
    (persists : ∀ {t₁ t₂}, L t₁ t₂ → Persists t₁ t₂) (mono : ∀ {t₁ t₂ x y}, L t₁ t₂ → P t₁ x y → P t₂ x y)
    (monoQuiet : ∀ {t₁ t₂ x y}, L t₁ t₂ → S t₁ x y → S t₂ x y)
    (each : ∀ part a, item.assignments[part]? = some a → ∀ t₁, L t t₁ → Goes (Plain bound) t₁ (f part a)
      (fun a' t' => L t₁ t' ∧ P t' (a, part) a' ∧ ∀ later, t'.Persists later →
      Q later t₁.symbols.size a' t'.symbols.size)
      fun a' t' => S t' (a, part) a') (start : L t t) : Goes (Plain bound) t (item.mapAssignments f)
      (fun item' t' => L t t' ∧ item.Like item' ∧ List.Forall₂ (P t') item.assignments.zipIdx item'.assignments ∧
        ∀ later, t'.Persists later → threads (Q later) t.symbols.size item'.assignments t'.symbols.size)
      fun item' t' => List.Forall₂ (S t') item.assignments.zipIdx item'.assignments := by
  have other (like : item.Like item) (none : item.assignments = []) : Goes (Plain bound) t
      (Pure.pure item : Analysis Item)
      (fun item' t' => L t t' ∧ item.Like item' ∧ List.Forall₂ (P t') item.assignments.zipIdx item'.assignments ∧
        ∀ later, t'.Persists later → threads (Q later) t.symbols.size item'.assignments t'.symbols.size)
      fun item' t' => List.Forall₂ (S t') item.assignments.zipIdx item'.assignments := by
    refine .pure ⟨start, like, ?_, fun _ _ => ?_⟩ ?_ <;> rw [none]
    · exact .nil
    · rfl
    · exact .nil
  unfold Item.mapAssignments
  split
  next part =>
    apply (each 0 part rfl t start).bind
    rintro a' t' ⟨step, here, between⟩
    exact .pure ⟨step, trivial, .cons here .nil, fun later kept => ⟨_, between later kept, rfl⟩⟩
      fun quiet => .cons quiet .nil
  next parts span =>
    have loop : Goes (Plain bound) t (parts.zipIdx.mapM fun x => f x.2 x.1)
        (fun parts' t' => L t t' ∧ List.Forall₂ (P t') parts.zipIdx parts' ∧
          ∀ later, t'.Persists later → threads (Q later) t.symbols.size parts' t'.symbols.size)
        fun parts' t' => List.Forall₂ (S t') parts.zipIdx parts' := by
      apply Binding.mapM_chain (L := L) (P := P) (S := S) (Q := Q) refl trans persists mono monoQuiet
      · rintro ⟨a, part⟩ inside t₁ reached
        exact each part a (List.mk_mem_zipIdx_iff_getElem?.mp inside) t₁ reached
      · exact start
    apply loop.bind
    rintro parts' t' ⟨step, all, chain⟩
    exact .pure ⟨step, rfl, all, chain⟩ fun quiet => quiet
  next notAssign notAssignAll =>
    apply other
    · unfold Item.Like
      split
      · trivial
      · simp_all
      · rfl
    · unfold Item.assignments
      split
      · exact (notAssign _ rfl).elim
      · exact (notAssignAll _ _ rfl).elim
      · rfl

/-! ## Assignments that define globals -/

/-- The left of an assignment that declares the global `id` at `site`. -/
structure Expr.Defining (bound : Nat) (t : Table) (site : GlobalSite) (id : SymbolId) (e : Expr) : Prop where
  assignee : ∃ info name typeName, e = .assignee info name typeName (some id) (some true) ∧ info.Fresh bound ∧
    ∀ type, typeName = some type → type.Fit bound True
  symbol : ∃ s, t.symbol? id = some s ∧ s.kind.core = .globalVariable { status := .ready, kind := .globalVar } site

/-- An assignment that defines a global, and whose other parts have `P`. -/
structure Assignment.Defines (bound : Nat) (t : Table) (P : Expr → Prop) (site : GlobalSite)
    (a : Assignment) : Prop where
  left : ∃ id, a.left.Defining bound t site id
  chained : ∀ e ∈ a.chained, P e
  value : P a.value

/-- The root scope holds the name, or functions of that name. -/
def Ident.Known (t : Table) (name : Ident) : Prop :=
  ∃ key id, (key = name.name ∨ key = overloadKey name.name) ∧ t.lookupLocal .root key = .ok (some id)

/-- An assignment as it is read that defines nothing: a variable on its left is known. -/
structure Assignment.Uses (bound : Nat) (t : Table) (a : Assignment) : Prop where
  fresh : a.Fresh bound True
  known : ∀ name, a.left.assigned? = some name → name.Known t

/-- An item whose assignments define what their places tell, or define nothing. -/
structure Item.Sited (bound count : Nat) (t : Table) (P : Expr → Prop) (index : Nat) (item : Item) : Prop where
  are : item.Are (·.Declared bound count t) (·.Declared bound t) fun s => (Item.stmt s).assignments = [] →
    s.Holds (.fresh bound True)
  sites : ∀ part (a : Assignment), item.assignments[part]? = some a → a.Uses bound t ∨ a.Defines bound t P ⟨index, part⟩

section Mono

variable {bound count : Nat} {t t' : Table} {P Q : Expr → Prop} (persists : t.Persists t')
include persists

theorem Ident.Known.mono {name : Ident} (known : name.Known t) : name.Known t' := by
  obtain ⟨key, id, which, held⟩ := known
  obtain ⟨id', held'⟩ := persists.names held
  exact ⟨key, id', which, held'⟩

theorem Expr.Defining.mono (defining : e.Defining bound t site id) : e.Defining bound t' site id := by
  obtain ⟨s, held, core⟩ := defining.symbol
  obtain ⟨kind, held', core'⟩ := persists.symbols held
  exact ⟨defining.assignee, _, held', core'.trans core⟩

theorem Assignment.Uses.mono (uses : a.Uses bound t) : a.Uses bound t' :=
  ⟨uses.fresh, fun name same => (uses.known name same).mono persists⟩

theorem Assignment.Defines.mono (defines : a.Defines bound t P site) (implies : ∀ e, P e → Q e) :
    a.Defines bound t' Q site := by
  obtain ⟨id, defining⟩ := defines.left
  exact ⟨⟨id, defining.mono persists⟩, fun e inside => implies e (defines.chained e inside), implies _ defines.value⟩

theorem Item.Sited.mono {index : Nat} (sited : item.Sited bound count t P index) (implies : ∀ e, P e → Q e) :
    item.Sited bound count t' Q index := by
  refine ⟨Item.Are.mono sited.are (fun _ declared => declared.mono persists) (fun _ declared => declared.mono persists)
    fun _ holds => holds, fun part a here => ?_⟩
  rcases sited.sites part a here with uses | defines
  · exact .inl (uses.mono persists)
  · exact .inr (defines.mono persists implies)

end Mono

theorem Item.All.assignment {P : Expr → Prop} {item : Item} {a : Assignment} (all : item.All P)
    (inside : a ∈ item.assignments) :
    (Checks.nodes P).assignment a := by
  unfold Item.assignments at inside
  split at inside
  · rw [List.mem_singleton.mp inside]
    exact all
  · exact all a inside
  · cases inside

/-- An item whose assignments have become others. -/
theorem Item.Like.dresses {item' : Item} (like : item.Like item') (unset : item.All Expr.Unset)
    (each : List.Forall₂ (Assignment.Dresses (.nodes Expr.Unset)) item.assignments item'.assignments) :
    item.Dresses Expr.Unset item' := by
  obtain ⟨same, all⟩ := Dresses.list each
  unfold Item.Like at like
  split at like
  next a a' =>
    have same : [a'].map Assignment.bare = [a].map Assignment.bare := same
    have same : a'.bare = a.bare := (List.cons.inj same).1
    exact ⟨by simp only [Item.bare, Stmt.bare, same], all a' List.mem_cons_self⟩
  next parts span parts' span' =>
    have same : parts'.map Assignment.bare = parts.map Assignment.bare := same
    exact ⟨by simp only [Item.bare, Stmt.bare, same, like], all⟩
  next => exact like ▸ ⟨rfl, unset⟩

/-- The definition of a global at the top level. -/
structure Assignment.Outside (a : Assignment) : Prop where
  value : a.value.All Expr.Outside
  chained : ∀ e ∈ a.chained, e.All Expr.Outside

/-- What stands on the left of a definition is a global. -/
theorem Expr.Defining.global (defining : e.Defining bound t site id) :
    ∃ s v, t.symbol? id = some s ∧ s.var? = some v ∧ v.kind = .globalVar := by
  obtain ⟨s, held, core⟩ := defining.symbol
  have isVar := congrArg SymbolKind.var? core
  rw [SymbolKind.var_core] at isVar
  obtain ⟨v, isVar, same⟩ := Option.map_eq_some_iff.mp isVar
  have kind := congrArg VariableSymbol.kind same
  exact ⟨s, v, held, isVar, kind⟩

theorem Expr.Fresh.undeclaring (fresh : e.Fresh bound plain) : e.declares = none := by
  cases e with
  | assignee => exact fresh.elim
  | _ => rfl

theorem Expr.FreshTarget.undeclaring (fresh : e.FreshTarget bound plain) : e.declares = none := by
  unfold Expr.FreshTarget at fresh
  split at fresh
  · obtain ⟨_, _, _, _, rfl⟩ := fresh
    rfl
  · exact fresh.here.undeclaring

theorem Assignment.declares_eq (chained : ∀ e ∈ a.chained, e.declares = none) :
    a.declares = a.left.declares.toList := by
  have none : a.chained.filterMap Expr.declares = [] := List.filterMap_eq_nil_iff.mpr chained
  rw [Assignment.declares, Assignment.targets, List.filterMap_cons, none]
  cases a.left.declares <;> rfl

theorem Assignment.Fresh.undeclaring (fresh : a.Fresh bound plain) : a.declares = [] := by
  rw [Assignment.declares_eq fun e inside => (fresh.chained e inside).here.undeclaring, fresh.left.undeclaring]
  rfl

theorem Assignment.Defines.declares {P : Expr → Prop} (defines : a.Defines bound t P site)
    (undeclaring : ∀ e, P e → e.declares = none) :
    ∃ id, a.left.Defining bound t site id ∧ a.declares = [id] := by
  obtain ⟨id, defining⟩ := defines.left
  refine ⟨id, defining, ?_⟩
  rw [Assignment.declares_eq fun e inside => undeclaring e (defines.chained e inside)]
  obtain ⟨_, _, _, same, _⟩ := defining.assignee
  rw [same]
  rfl

/-! ## Declaring globals -/

/-- Between `t` and `t'` nothing but globals is declared. -/
structure Table.Claims (bound : Nat) (t t' : Table) : Prop where
  intact : t'.Intact bound
  persists : t.Persists t'
  course : Table.Course (Table.Intact bound) t t'
  under : ∀ {c d}, t'.Under c d ↔ t.Under c d
  proper : t.Proper → t'.Proper
  old : ∀ {id}, id.index < t.symbols.size → t'.symbol? id = t.symbol? id
  new : ∀ {id s}, t.symbols.size ≤ id.index → t'.symbol? id = some s →
    ∃ site, s.kind = .globalVariable { status := .unset, kind := .globalVar } site ∧ s.scope = .root

namespace Table.Claims

variable {bound : Nat} {t t' t'' : Table}

theorem refl (intact : t.Intact bound) : Claims bound t t := by
  refine ⟨intact, .refl t, .refl, .rfl, id, fun _ => rfl, fun newer held => ?_⟩
  exact absurd (symbol_bound held) (Nat.not_lt.mpr newer)

theorem trans (first : Claims bound t t') (second : Claims bound t' t'') : Claims bound t t'' := by
  refine ⟨second.intact, first.persists.trans second.persists, first.course.trans second.course,
    second.under.trans first.under, second.proper ∘ first.proper,
    fun below => ?_, fun {id s} newer held => ?_⟩
  · rw [second.old (first.persists.below below), first.old below]
  · by_cases early : id.index < t'.symbols.size
    · rw [second.old early] at held
      exact first.new newer held
    · exact second.new (Nat.not_lt.mp early) held

end Table.Claims

namespace Binding

variable {bound : Nat} {t : Table}
variable {name : Ident} {count index : Nat} {items : List Item}

theorem free_iff (intact : t.Intact bound) (known : name.Known t) : ¬ Context.Free t .top name := by
  rintro ⟨noName, noFunction⟩
  obtain ⟨key, id, which, held⟩ := known
  obtain ⟨n, rises⟩ := intact.rooted .root intact.sound.rootInside
  obtain ⟨found, seen⟩ := Table.lookupChain_found rises .refl held
  rcases which with rfl | rfl
  · cases noName.symm.trans seen
  · cases noFunction.symm.trans seen

/-- What is no plain variable is not declared. -/
theorem declareGlobal_other (other : e.assigned? = none) : declareGlobal site e = pure e := by
  cases e with
  | assignee => cases other
  | _ => rfl

theorem assigned_of_fresh (fresh : e.All (Expr.Fresh bound plain)) : e.assigned? = none := by
  cases e with
  | assignee => exact fresh.elim
  | _ => rfl

theorem mapM_declareGlobal : ∀ {es : List Expr}, (∀ e ∈ es, e.assigned? = none) → es.mapM (declareGlobal site) = pure es
  | [], _ => rfl
  | e :: es, others => by
    rw [List.mapM_cons, declareGlobal_other (others e List.mem_cons_self),
      mapM_declareGlobal fun e inside => others e (List.mem_cons_of_mem _ inside)]
    rfl

theorem Claims.declare {t' : Table} (intact : t.Intact bound) (named : name.Fit bound)
    (adds : Table.Adds .root name.name name.span (.globalVariable { status := .unset, kind := .globalVar } site) t t') :
    Table.Claims bound t t' := by
  have sound : (SymbolKind.globalVariable { status := .unset, kind := .globalVar } site).Sound
      bound (t.symbols.size + 1) t.scopes.size := ⟨nofun, by simp⟩
  have suits := SymbolKind.suits_name named.named (.globalVariable { status := .unset, kind := .globalVar } site)
  have after := intact.declare adds ⟨intact.sound.rootInside, named.within, sound, suits, rfl⟩
  refine ⟨after, .declare adds suits nofun, .single (.declare adds.ran) after,
    (Table.SameClasses.declare adds rfl).shapes.links.under_iff, fun good => ?_, fun {id} below => ?_,
    fun {id s} newer held => ?_⟩
  · refine good.declare adds ⟨?_, nofun⟩
    rintro _ _ ⟨⟩ ⟨⟩
  · rw [adds.declares.symbol, if_neg]
    rintro rfl
    exact Nat.lt_irrefl _ below
  · have below := Table.symbol_bound held
    rw [adds.size] at below
    have same : id = ⟨t.symbols.size⟩ := congrArg SymbolId.mk (Nat.le_antisymm (Nat.le_of_lt_succ below) newer)
    rw [same, adds.held] at held
    cases held
    exact ⟨site, rfl, rfl⟩

/-- A plain variable whose name is not known becomes a global. -/
theorem declareGlobal_goes {info : NodeInfo} {typeName : Option TypeName} (intact : t.Intact bound)
    (fresh : info.Fresh bound) (named : name.Fit bound) (fit : ∀ type, typeName = some type → type.Fit bound True) :
    Goes (Plain bound) t (declareGlobal site (.assignee info name typeName none none))
      (fun e t' => Table.Claims bound t t' ∧ (Expr.assignee info name typeName none none).Dresses Expr.Unset e ∧
        (e = .assignee info name typeName none none ∧ t = t' ∧ name.Known t ∨
        e.declares = some ⟨t.symbols.size⟩ ∧ t'.symbols.size = t.symbols.size + 1 ∧
        e.Defining bound t' site ⟨t.symbols.size⟩)) := by
  unfold declareGlobal
  apply Goes.askRoot
  apply Goes.askRoot
  apply Goes.ite
  · intro held
    refine .pure ⟨.refl intact, ⟨rfl, trivial⟩, .inl ⟨rfl, rfl, ?_⟩⟩ trivial
    rw [Bool.or_eq_true, Option.isSome_iff_exists, Option.isSome_iff_exists] at held
    rcases held with ⟨id, held⟩ | ⟨id, held⟩
    · exact ⟨name.name, id, .inl rfl, by rw [Table.lookupRoot_eq intact.sound.rootInside, held]⟩
    · exact ⟨overloadKey name.name, id, .inr rfl, by rw [Table.lookupRoot_eq intact.sound.rootInside, held]⟩
  · intro _
    obtain ⟨t', ran, adds⟩ := Table.declare_total (t := t) intact.sound.rootInside name.name name.span
      (.globalVariable { status := .unset, kind := .globalVar } site)
    apply Goes.does ran
    refine .pure ⟨Claims.declare intact named adds, ⟨rfl, trivial⟩, .inr ⟨rfl, adds.size, ?_⟩⟩ trivial
    exact ⟨⟨info, name, typeName, rfl, fresh, fit⟩, _, adds.held, rfl⟩

/-- **Declaring the global of an assignment**, if it defines one. -/
theorem declareTargets_goes (intact : t.Intact bound) (fresh : a.Fresh bound True) :
    Goes (Plain bound) t (declareTargets site a)
      (fun a' t' => Table.Claims bound t t' ∧ (a.Dresses (.nodes Expr.Unset) a' ∧
          (a'.Uses bound t' ∨ a'.Defines bound t' (·.All (Expr.Fresh bound True)) site)) ∧
        t.symbols.size ≤ t'.symbols.size ∧ a'.declares = idsFrom t.symbols.size t'.symbols.size) := by
  have unset := Checks.fresh_unset.assignment a fresh
  have unchanged (known : ∀ name, a.left.assigned? = some name → name.Known t) : Goes (Plain bound) t
      (Pure.pure a : Analysis Assignment) (fun a' t' => Table.Claims bound t t' ∧ (a.Dresses (.nodes Expr.Unset) a' ∧
          (a'.Uses bound t' ∨ a'.Defines bound t' (·.All (Expr.Fresh bound True)) site)) ∧
        t.symbols.size ≤ t'.symbols.size ∧ a'.declares = idsFrom t.symbols.size t'.symbols.size) :=
    .pure ⟨.refl intact, ⟨⟨rfl, unset⟩, .inl ⟨fresh, known⟩⟩, Nat.le_refl _,
      by simp [fresh.undeclaring, idsFrom]⟩ trivial
  unfold declareTargets
  rw [mapM_declareGlobal fun e inside => assigned_of_fresh (fresh.chained e inside)]
  cases target : a.left.assigned? with
  | none =>
    rw [declareGlobal_other target]
    exact unchanged (by simp [target])
  | some name =>
    obtain ⟨info, typeName, slot, first, same⟩ : ∃ info typeName slot first,
      a.left = .assignee info name typeName slot first := by
      unfold Expr.assigned? at target
      split at target
      · cases target
        exact ⟨_, _, _, _, by assumption⟩
      · cases target
    have left := fresh.left
    rw [same] at left
    obtain ⟨freshInfo, named, fit, rfl, rfl⟩ := left
    rw [same]
    apply (declareGlobal_goes intact freshInfo named fit).seq
    rintro left t' ⟨claims, dressed, ⟨rfl, rfl, known⟩ | ⟨declares, size, defining⟩⟩
    · have stays : { a with left := Expr.assignee info name typeName none none } = a := by rw [← same]
      rw [pure_bind, stays]
      apply unchanged
      rintro _ found
      cases target.symm.trans found
      exact known
    · have became : a.Dresses (.nodes Expr.Unset) { a with left } :=
        ⟨by simp only [Assignment.bare, dressed.same, same], dressed.all, unset.2⟩
      refine .pure ⟨claims, ⟨became, .inr ⟨⟨_, defining⟩, fresh.chained, fresh.value⟩⟩, by omega, ?_⟩ trivial
      have only : Assignment.declares { a with left } = left.declares.toList :=
        Assignment.declares_eq fun e inside => (fresh.chained e inside).here.undeclaring
      rw [only, declares, size, idsFrom, Nat.add_sub_cancel_left]
      rfl

/-! ## All globals of a program -/

theorem ItemDeclared.fresh (declared : ItemDeclared bound count t item) :
    ∀ a ∈ item.assignments, a.Fresh bound True := by
  unfold Item.assignments
  split
  next part => exact List.forall_mem_singleton.mpr declared
  next parts span => exact declared
  next => simp

/-- The items of a program are as their places tell. -/
def ItemsSited (bound count : Nat) (t : Table) (P : Expr → Prop) (items : List Item) : Prop :=
  ∀ i (item : Item), items[i]? = some item → item.Sited bound count t P i

/-- The globals that the assignments of an item define are numbered in a row. -/
theorem declareItemGlobals_goes (intact : t.Intact bound) (declared : ItemDeclared bound count t item)
    (unset : item.All Expr.Unset) :
    Goes (Plain bound) t (item.mapAssignments fun part a => declareTargets ⟨index, part⟩ a)
        (fun item' t' => Table.Claims bound t t' ∧
        (item.Like item' ∧ item.Dresses Expr.Unset item' ∧
        item'.Sited bound count t' (·.All (Expr.Fresh bound True)) index) ∧
        t.symbols.size ≤ t'.symbols.size ∧
        item'.assignments.flatMap Assignment.declares = idsFrom t.symbols.size t'.symbols.size) := by
  have each : Goes (Plain bound) t (item.mapAssignments fun part a => declareTargets ⟨index, part⟩ a)
      (fun item' t' => Table.Claims bound t t' ∧ item.Like item' ∧
        List.Forall₂ (fun x a' => x.1.Dresses (.nodes Expr.Unset) a' ∧
            (a'.Uses bound t' ∨ a'.Defines bound t' (·.All (Expr.Fresh bound True)) ⟨index, x.2⟩))
          item.assignments.zipIdx item'.assignments ∧
        ∀ later, t'.Persists later →
          threads (fun first a' last => first ≤ last ∧ a'.declares = idsFrom first last) t.symbols.size
          item'.assignments t'.symbols.size)
      fun item' _ => List.Forall₂ (fun _ _ => True) item.assignments.zipIdx item'.assignments := by
    apply mapAssignments_chain (L := Table.Claims bound)
      (P := fun t' x a' => x.1.Dresses (.nodes Expr.Unset) a' ∧
        (a'.Uses bound t' ∨ a'.Defines bound t' (·.All (Expr.Fresh bound True)) ⟨index, x.2⟩))
      (S := fun _ _ _ => True) (Q := fun _ first a' last => first ≤ last ∧ a'.declares = idsFrom first last)
      (fun claims => .refl claims.intact) (fun first second => first.trans second) (fun claims => claims.persists)
    · intro t₁ t₂ x a' claims known
      exact ⟨known.1, known.2.imp (fun uses => uses.mono claims.persists) fun defines => defines.mono claims.persists
        fun _ fresh => fresh⟩
    · exact fun _ _ => trivial
    · intro part a here t₁ claims
      apply (declareTargets_goes claims.intact (declared.fresh a (List.mem_of_getElem? here))).imp
      exact fun _ _ holds => ⟨holds.1, holds.2.1, fun _ _ => holds.2.2⟩
    · exact .refl intact
  apply each.imp
  rintro item' t' ⟨claims, like, sites, chain⟩
  have dressed : List.Forall₂ (Assignment.Dresses (.nodes Expr.Unset)) item.assignments item'.assignments :=
    forall₂_of_zipIdx (sites.imp fun _ _ holds => holds.1)
  refine ⟨claims, ⟨like, like.dresses unset dressed, ?_, fun part a here => ?_⟩, threads_ids (chain t' (.refl t'))⟩
  · apply like.are
    exact Item.Are.mono declared (fun _ declared => declared.mono claims.persists)
      (fun _ declared => declared.mono claims.persists) fun _ fresh _ => fresh
  · obtain ⟨_, _, _, holds⟩ := forall₂_zipIdx sites here
    exact holds

/-- **Declaring the globals of a program.** They are numbered in a row, in the order of the assignments. -/
theorem declareGlobals_goes (intact : t.Intact bound) (declared : ∀ item ∈ items, ItemDeclared bound count t item)
    (unset : ∀ item ∈ items, item.All Expr.Unset) :
    Goes (Plain bound) t (declareGlobals items) (fun items' t' => Table.Claims bound t t' ∧
        List.Forall₂ Item.Like items items' ∧ List.Forall₂ (Item.Dresses Expr.Unset) items items' ∧
        ItemsSited bound count t' (·.All (Expr.Fresh bound True)) items' ∧
        (items'.flatMap Item.assignments).flatMap Assignment.declares = idsFrom t.symbols.size t'.symbols.size) := by
  have loop : Goes (Plain bound) t
      (items.zipIdx.mapM fun x => x.1.mapAssignments fun part a => declareTargets ⟨x.2, part⟩ a)
      (fun items' t' => Table.Claims bound t t' ∧
        List.Forall₂ (fun x item' => x.1.Like item' ∧ x.1.Dresses Expr.Unset item' ∧
            item'.Sited bound count t' (·.All (Expr.Fresh bound True)) x.2)
          items.zipIdx items' ∧
        ∀ later, t'.Persists later → threads (fun first item' last => first ≤ last ∧
          item'.assignments.flatMap Assignment.declares = idsFrom first last) t.symbols.size items' t'.symbols.size)
      fun items' _ => List.Forall₂ (fun _ _ => True) items.zipIdx items' := by
    apply mapM_chain (L := Table.Claims bound)
      (P := fun t' (x : Item × Nat) (item' : Item) => x.1.Like item' ∧ x.1.Dresses Expr.Unset item' ∧
        item'.Sited bound count t' (·.All (Expr.Fresh bound True)) x.2)
      (S := fun _ _ _ => True)
      (Q := fun _ first (item' : Item) last => first ≤ last ∧
      item'.assignments.flatMap Assignment.declares = idsFrom first last)
      (fun claims => .refl claims.intact) (fun first second => first.trans second) (fun claims => claims.persists)
    · exact fun claims holds => ⟨holds.1, holds.2.1, holds.2.2.mono claims.persists fun _ fresh => fresh⟩
    · exact fun _ _ => trivial
    · rintro ⟨item, i⟩ inside t₁ claims
      have held : items[i]? = some item := List.mk_mem_zipIdx_iff_getElem?.mp inside
      have among := List.mem_of_getElem? held
      apply (declareItemGlobals_goes claims.intact ((declared item among).mono claims.persists) (unset item among)).imp
      exact fun _ _ holds => ⟨holds.1, holds.2.1, fun _ _ => holds.2.2⟩
    · exact .refl intact
  apply loop.imp
  rintro items' t' ⟨claims, sites, chain⟩
  refine ⟨claims, forall₂_of_zipIdx (sites.imp fun _ _ holds => holds.1),
    forall₂_of_zipIdx (sites.imp fun _ _ holds => holds.2.1), fun i item here => ?_, ?_⟩
  · obtain ⟨_, _, _, _, holds⟩ := forall₂_zipIdx sites here
    exact holds
  · rw [List.flatMap_assoc]
    exact (threads_ids (chain t' (.refl t'))).2

/-! ## Binding definitions -/

/-- An assignment that defines a global, before and after it is bound; another one is left for later. -/
inductive Resolves (bound count : Nat) : Assignment → Assignment → Prop
  | later {a : Assignment} : a.declares = [] → Resolves bound count a a
  | now {a a' : Assignment} : a.declares ≠ [] → a'.left = a.left → (∀ e ∈ a'.chained, e.Inner bound count) →
    a'.value.Inner bound count → a'.declares = a.declares → a'.Outside → a.Dresses (.nodes Expr.Unset) a' →
    Resolves bound count a a'

theorem Resolves.declares {a' : Assignment} (resolves : Resolves bound count a a') : a'.declares = a.declares := by
  cases resolves with
  | later => rfl
  | now _ _ _ _ same => exact same

theorem Resolves.dresses {a' : Assignment} (resolves : Resolves bound count a a')
    (unset : (Checks.nodes Expr.Unset).assignment a) :
    a.Dresses (.nodes Expr.Unset) a' := by
  cases resolves with
  | later => exact ⟨rfl, unset⟩
  | now _ _ _ _ _ _ dressed => exact dressed

theorem Resolves.outside {a' : Assignment} (resolves : Resolves bound count a a') (declares : a'.declares ≠ []) :
    a'.Outside := by
  cases resolves with
  | later none => exact absurd none declares
  | now _ _ _ _ _ outside => exact outside

/-- The definition of a global is bound where nothing but what lies at the top level is in
sight; its left stays as it is. -/
theorem bindDefinition_answers (intact : t.Intact bound)
    (defines : a.Defines bound t (·.All (Expr.Fresh bound True)) site) :
    Answers (Plain bound) t (bindAssignment .top a) (Resolves bound t.symbols.size a)
      (Checks.met t (Context.Inherits .top) .outside).assignment := by
  have underway := underway_top intact
  obtain ⟨id, defining⟩ := defines.left
  obtain ⟨info, name, typeName, same, fresh, fit⟩ := defining.assignee
  have left : Answers (Plain bound) t (bindExpr .top a.left) (· = a.left)
      fun left => left.All (Expr.Met t (Context.Inherits .top) .outside) := by
    rw [same]
    unfold bindExpr
    apply (resolveOption_answers fit).bind
    intro _ _
    obtain ⟨s, v, held, isVar, kind⟩ := defining.global
    refine .pure rfl fun resolved => ⟨⟨resolved, rfl, id, rfl, by simp [Table.var_of held, isVar]⟩, trivial, ?_⟩
    rintro _ ⟨⟩
    exact ⟨⟨s, v, held, isVar, by simp [kind, VariableKind.IsField]⟩, s, v, held, isVar, by simp [kind]⟩
  have reversed : allOf (Expr.Fresh bound True) a.chained.reverse :=
    allOf_iff.mpr fun e inside => defines.chained e (List.mem_reverse.mp inside)
  unfold bindAssignment
  apply (bindExpr_answers underway defines.value).bind
  intro value done
  apply (bindExprs_answers underway reversed).bind
  intro chained doneChained
  apply left.bind
  rintro _ rfl
  have inner : ∀ e ∈ chained.reverse, e.Inner bound t.symbols.size :=
    fun e inside => doneChained.inner reversed e (List.mem_reverse.mp inside)
  have outside : Assignment.Outside { a with chained := chained.reverse, value } :=
    ⟨done.all.mono fun _ named => named.outside rfl, fun e inside =>
      (allOf_iff.mp doneChained.all e (List.mem_reverse.mp inside)).mono fun _ named => named.outside rfl⟩
  have unset : a.left.Dresses Expr.Unset a.left := ⟨rfl, same ▸ trivial⟩
  obtain ⟨_, _, one⟩ := defines.declares fun e fresh => fresh.here.undeclaring
  refine .pure (.now (by simp [one]) rfl inner (done.inner defines.value) ?_ outside
      (Assignment.dresses unset doneChained.unset.reverse done.unset))
    fun metLeft metChained metValue =>
    ⟨metLeft, fun e inside => allOf_iff.mp metChained e (List.mem_reverse.mp inside), metValue⟩
  rw [Assignment.declares_eq fun e inside => (inner e inside).undeclaring,
    Assignment.declares_eq fun e inside => (defines.chained e inside).here.undeclaring]

/-- The assignments of an item that define globals are bound. -/
theorem bindItemDefinitions_answers (intact : t.Intact bound)
    (sited : item.Sited bound count t (·.All (Expr.Fresh bound True)) index) :
    Answers (Plain bound) t
      (item.mapAssignments fun _ a => if a.declares.isEmpty then return a else bindAssignment .top a)
      (fun item' => item.Like item' ∧ List.Forall₂ (Resolves bound t.symbols.size) item.assignments item'.assignments)
      fun item' => ∀ a ∈ item'.assignments, a.declares ≠ [] →
      (Checks.met t (Context.Inherits .top) .outside).assignment a := by
  have each : Goes (Plain bound) t
      (item.mapAssignments fun _ a => if a.declares.isEmpty then return a else bindAssignment .top a)
      (fun item' t' => t = t' ∧ item.Like item' ∧
        List.Forall₂ (fun x => Resolves bound t.symbols.size x.1) item.assignments.zipIdx item'.assignments ∧
        ∀ later, t'.Persists later → threads (fun _ _ _ => True) t.symbols.size item'.assignments t'.symbols.size)
      fun item' _ => List.Forall₂ (fun _ a => a.declares ≠ [] →
        (Checks.met t (Context.Inherits .top) .outside).assignment a) item.assignments.zipIdx item'.assignments := by
    apply mapAssignments_chain (L := fun t₁ t₂ => t₁ = t₂) (P := fun _ x => Resolves bound t.symbols.size x.1)
      (S := fun _ _ a => a.declares ≠ [] → (Checks.met t (Context.Inherits .top) .outside).assignment a)
      (Q := fun _ _ _ _ => True) (fun _ => rfl) (fun first second => first.trans second) (fun same => same ▸ .refl _)
      (fun _ holds => holds) fun _ holds => holds
    · rintro part a here _ rfl
      apply Goes.ite
      · intro none
        rw [List.isEmpty_iff] at none
        exact .pure ⟨rfl, .later none, fun _ _ => trivial⟩ (absurd none)
      · intro some
        rcases sited.sites part a here with uses | defines
        · simp [uses.fresh.undeclaring] at some
        · apply Goes.mono (bindDefinition_answers intact defines)
          · exact fun a' t' holds => ⟨holds.1, holds.2, fun _ _ => trivial⟩
          · exact fun a' t' _ met _ => met
    · rfl
  apply each.mono
  · rintro item' t' ⟨same, like, resolves, _⟩
    exact ⟨same, like, forall₂_of_zipIdx resolves⟩
  · exact fun item' t' _ met => forall_right met fun _ _ met => met

theorem Sited.resolves {item' : Item} (sited : item.Sited bound count t (·.All (Expr.Fresh bound True)) index)
    (like : item.Like item')
    (resolves : List.Forall₂ (Resolves bound t.symbols.size) item.assignments item'.assignments) :
    item'.Sited bound count t (Expr.Inner bound t.symbols.size) index := by
  refine ⟨like.are sited.are, fun part a' here => ?_⟩
  obtain ⟨a, found, resolves⟩ := forall₂_get resolves here
  rcases sited.sites part a found with uses | defines
  · cases resolves with
    | later => exact .inl uses
    | now some => exact absurd uses.fresh.undeclaring some
  · cases resolves with
    | later none =>
      obtain ⟨_, _, one⟩ := defines.declares fun e fresh => fresh.here.undeclaring
      cases none.symm.trans one
    | now _ left chained value => exact .inr ⟨left ▸ defines.left, chained, value⟩

/-- **Binding the definitions of globals.** -/
theorem bindDefinitions_answers (intact : t.Intact bound)
    (sited : ItemsSited bound count t (·.All (Expr.Fresh bound True)) items)
    (unset : ∀ item ∈ items, item.All Expr.Unset) :
    Answers (Plain bound) t (bindDefinitions items)
      (fun items' => List.Forall₂ Item.Like items items' ∧ List.Forall₂ (Item.Dresses Expr.Unset) items items' ∧
        ItemsSited bound count t (Expr.Inner bound t.symbols.size) items' ∧
        (∀ item ∈ items', ∀ a ∈ item.assignments, a.declares ≠ [] → a.Outside) ∧
        (items'.flatMap Item.assignments).flatMap Assignment.declares = (items.flatMap Item.assignments).flatMap
        Assignment.declares)
      fun items' => ∀ item ∈ items', ∀ a ∈ item.assignments, a.declares ≠ [] →
      (Checks.met t (Context.Inherits .top) .outside).assignment a := by
  have loop : Answers (Plain bound) t (bindDefinitions items)
      (List.Forall₂ (fun item item' => item.Like item' ∧
        List.Forall₂ (Resolves bound t.symbols.size) item.assignments item'.assignments) items)
      (List.Forall₂ (fun _ item' => ∀ a ∈ item'.assignments, a.declares ≠ [] →
      (Checks.met t (Context.Inherits .top) .outside).assignment a) items) := by
    apply Answers.mapM
    intro item inside
    obtain ⟨i, found⟩ := List.getElem?_of_mem inside
    exact bindItemDefinitions_answers intact (sited i item found)
  apply loop.mono
  · intro items' all
    refine ⟨all.imp fun _ _ holds => holds.1, ?_, fun i item' here => ?_, ?_, ?_⟩
    · have both := (List.forall₂_and_left (p := Item.All Expr.Unset) _ _).mpr ⟨unset, all⟩
      refine both.imp fun item item' holds => holds.2.1.dresses holds.1 ?_
      have each := (List.forall₂_and_left (p := (Checks.nodes Expr.Unset).assignment) _ _).mpr
        ⟨fun a inside => holds.1.assignment inside, holds.2.2⟩
      exact each.imp fun _ _ holds => holds.2.dresses holds.1
    · obtain ⟨item, found, like, resolves⟩ := forall₂_get all here
      exact Sited.resolves (sited i item found) like resolves
    · exact forall_right all fun _ _ holds => forall_right holds.2 fun _ _ resolves => resolves.outside
    · rw [List.flatMap_assoc, List.flatMap_assoc]
      exact forall₂_flatMap (all.imp
        fun _ _ holds => forall₂_flatMap (holds.2.imp fun _ _ resolves => resolves.declares))
  · exact fun items' _ quiet => forall_right quiet fun _ _ complete => complete

end Binding

end Quasicode
