import Quasicode.Proofs.DeclareItems

/-!
The hierarchy built again over classes that are linked already. Without new classes no edge names a superclass, so every
class is a start of its own: the links stay, the depth of a class is counted from the class above it that was declared
last, a method is given overriders that it has, and a method that overrides wrongly is reported as before.
-/
namespace Quasicode

open Relation Analysis

/-- What a class is apart from its depth. -/
def ClassSymbol.undepth (k : ClassSymbol) : ClassSymbol := { k with depth := none }

namespace Hierarchy

open Table

variable {bound : Nat} {t t' : Table} {c id m : SymbolId} {edges : List Edge} {limit : Nat}
variable {top : String → Option SymbolId}

/-! ## Links -/

/-- Edges without a superclass leave everything as it is. -/
theorem attachAll_lone {sets : Partition} {problems : List Diagnostic} (intact : t.Intact bound) (sound : sets.Sound)
    (size : sets.parent.size = t.classCount + 2) (lone : ∀ e ∈ edges, e.superclass = none ∧ (t.class? e.cls).isSome) :
    (attachAll (t.classCount + 1) edges sets).run ⟨t, problems⟩ = .ok (edges.map Edge.cls, ⟨t, problems⟩) := by
  induction edges generalizing sets with
  | nil => rfl
  | cons edge edges ih =>
    obtain ⟨⟨alone, isClass⟩, others⟩ := List.forall_mem_cons.mp lone
    obtain ⟨k, held⟩ := Option.isSome_iff_exists.mp isClass
    obtain ⟨_, number⟩ := intact.arranged.numbered held
    have united : ∃ joined q, sets.unite (t.classCount + 1) k.runtimeId = .ok (joined, q) ∧ q.Sound ∧
        q.parent.size = t.classCount + 2 := by
      have boundTop : t.classCount + 1 < sets.parent.size := by omega
      have boundK : k.runtimeId < sets.parent.size := by omega
      rcases Partition.unite_spec sound boundTop boundK with ⟨_, q, united, same⟩ | ⟨_, q, united, merges⟩
      · exact ⟨false, q, united, same.sound sound, same.size.trans size⟩
      · exact ⟨true, q, united, merges.sound sound boundTop boundK, merges.1.trans size⟩
    obtain ⟨_, q, united, sound', size'⟩ := united
    unfold attachAll
    rw [run_seq (run_classSymbol (s := ⟨t, problems⟩) held)]
    simp only [alone]
    rw [run_seq (run_lift united), run_seq (ih sound' size' others)]
    rfl

/-! ## Methods that override -/

section Deep

variable {depths : SymbolId → Option Nat} (deep : Deep depths t t')
include deep

theorem Deep.sameMethods : SameMethods t t' := deep.edited.sameMethods fun _ _ => rfl

theorem Deep.overriding (overriding : Overriding t) : Overriding t' := by
  refine ⟨deep.sameLinks.forest overriding.forest, deep.sameMethods.owned overriding.owned,
    fun {m method key} held signed x => ?_⟩
  have under : t'.Under = t.Under := funext fun c => funext fun d => propext deep.sameLinks.under_iff
  rw [deep.edited.method_of_class_mapped] at held
  rw [deep.sameMethods.signature] at signed
  simpa only [under, deep.sameMethods.declares] using overriding.overriders held signed x

theorem Deep.settled (settled : Settled t) : Settled t' := by
  refine ⟨deep.overriding settled.toOverriding, fun {c d m m' a b key} strict upper lower upperHeld lowerHeld => ?_⟩
  rw [deep.edited.method_of_class_mapped] at upperHeld lowerHeld
  rw [deep.sameMethods.declares] at upper lower
  exact settled.agree (TransGen.mono (fun _ _ => deep.sameLinks.under_iff.mp) _ _ strict) upper
    lower upperHeld lowerHeld

end Deep

theorem overrideReports_agree {a b : MethodSymbol} (agree : Agree a b) : overrideReports a b = [] := by
  simp [overrideReports, agree.1, bne, agree.2]

/-- Where methods agree with those above them, a run reports nothing. -/
theorem reportsFrom_settled (settled : Settled t)
    (above : ∀ {key ancestor}, top key = some ancestor → ∃ c, TransGen t.Under id c ∧ ancestor ∈ t.declares key c) :
    reportsFrom t limit top id = [] := by
  induction limit generalizing id top with
  | zero => rfl
  | succ limit ih =>
    refine List.append_eq_nil_iff.mpr ⟨List.flatMap_eq_nil_iff.mpr fun m inside => ?_,
      List.flatMap_eq_nil_iff.mpr fun child inside => ?_⟩
    · cases signed : t.signature? m with
      | none => simp [methodReports, signed]
      | some key =>
        cases held : t.method? m with
        | none => simp [methodReports, signed, held]
        | some method =>
          rw [methodReports_eq signed held]
          cases found : top key with
          | none => rfl
          | some ancestor =>
            obtain ⟨c, strict, declared⟩ := above found
            obtain ⟨theirs, isTheirs, _⟩ := settled.owned.owner (mem_declares.mp declared).1
            have agree := settled.agree strict declared (mem_declares.mpr ⟨inside, signed⟩) isTheirs held
            simp [isTheirs, overrideReports_agree agree]
    · have under := settled.forest.mem_childrenOf.mp inside
      refine ih fun {key ancestor} found => ?_
      rcases Option.or_eq_some_iff.mp found with old | ⟨_, latest⟩
      · obtain ⟨c, strict, declared⟩ := above old
        exact ⟨c, .head under strict, declared⟩
      · exact ⟨id, .single under, settled.owned.latest_iff.mp latest⟩

/-! ## The build -/

/-- What the parts of a build without new classes do, one after the other. -/
theorem rebuild_run {problems : List Diagnostic} (intact : t.Intact bound)
    (all : edges.map Edge.cls = (t.symbols.toList.filter (·.class?.isSome)).map Symbol.id)
    (lone : ∀ e ∈ edges, e.superclass = none) :
    ∃ depths t₁ t', Deep depths t t₁ ∧
      Counts t 1 (edges.map Edge.cls) (fun x => (t.class? x).bind ClassSymbol.depth) depths ∧
      Overridden (fun m => (edges.map Edge.cls).flatMap fun root => gainFrom t₁ (t.symbols.size + 1) root m) t₁ t' ∧
      (build edges).run ⟨t, problems⟩ = .ok ((), ⟨t', problems ++
        (edges.map Edge.cls).flatMap (reportsFrom t₁ (t.symbols.size + 1) fun _ => none)⟩) := by
  have classes : ∀ c ∈ edges.map Edge.cls, (t.class? c).isSome :=
    fun c inside => intact.sound.mem_classes.mp (all ▸ inside)
  have attaches := @attachAll_lone _ _ _ _ problems intact (Partition.discrete_sound (t.classCount + 2))
    (by simp [Partition.discrete]) fun e inside => ⟨lone e inside, classes e.cls (List.mem_map_of_mem inside)⟩
  have forest := intact.arranged.forest
  have fills : ∀ c ∈ edges.map Edge.cls, FillsFrom t (t.symbols.size + 1) 1 c := fun c inside => by
    obtain ⟨level, depth⟩ := forest.depth_exists (classes c inside)
    exact fillDepth_run forest depth (by omega)
  obtain ⟨depths, t₁, ran₁, deep, counts⟩ := @fillAll_run _ _ _ _ fills ⟨t, problems⟩ _ (deep_refl t)
  have methods₁ : ∀ {id c}, t₁.class? id = some c → ∀ m ∈ c.methods, (t₁.symbol? m).isSome := fun held m inside =>
    Option.isSome_iff_exists.mpr (symbol_exists (((deep.sound intact.sound).class_sound held).methods m inside))
  have classes₁ : ∀ c ∈ edges.map Edge.cls, (t₁.class? c).isSome :=
    fun c inside => (deep.relinks.classes c).trans (classes c inside)
  have enough : t₁.symbols.size < t.symbols.size + 1 := Nat.lt_succ_of_le (Nat.le_of_eq deep.edited.size)
  obtain ⟨t', ran₂, gained⟩ := @overrideAll_run _ _ _ (t.symbols.size + 1) _ (fun _ _ => .refl _)
    (deep.sameLinks.forest forest) methods₁ classes₁ enough ⟨t₁, problems⟩ (overridden_refl t₁)
  refine ⟨depths, t₁, t', deep, counts, gained.congr fun m => List.nil_append _, ?_⟩
  unfold build buildIn
  rw [run_seq run_table, run_seq attaches, run_seq ran₁, ran₂]

/-- What a build without new classes makes of the classes and methods of `t`. -/
structure Rebuilt (t t' : Table) : Prop where
  /-- Nothing but the depth of a class changes. -/
  classes : ∀ c, (t'.class? c).map ClassSymbol.undepth = (t.class? c).map ClassSymbol.undepth
  /-- The depth of a class is counted from the class above it that was declared last. -/
  depth : ∀ {a c n}, (t.class? c).isSome → Descends t a c n → (∀ {x m}, Descends t x c m → x.index ≤ a.index) →
    (t'.class? c).bind ClassSymbol.depth = some (n + 1)
  methods : ∀ m, (t'.method? m).map MethodSymbol.declaration = (t.method? m).map MethodSymbol.declaration
  /-- Behind the overriders of a method stand some of them again. -/
  overriders : ∀ {m method method'}, t.method? m = some method → t'.method? m = some method' →
    ∃ again, method'.overriders = method.overriders ++ again ∧ ∀ x ∈ again, x ∈ method.overriders

/-- The classes of a table stand in the order of their declaration, so the last pass that meets a class is the one from
the class above it that was declared last. -/
theorem Counts.latest {depths depths' : SymbolId → Option Nat} {a : SymbolId} {n : Nat}
    (sound : t.Sound bound) (forest : t.Forest)
    (counts : Counts t 1 ((t.symbols.toList.filter (·.class?.isSome)).map Symbol.id) depths depths')
    (isClass : (t.class? c).isSome)
    (descends : Descends t a c n) (latest : ∀ {x m}, Descends t x c m → x.index ≤ a.index) :
    depths' c = some (n + 1) := by
  have isStart : (t.class? a).isSome := by
    induction descends with
    | here => exact isClass
    | step up rest ih => exact ih (forest.closed up) fun above => latest (.step up above)
  have ordered : ((t.symbols.toList.filter (·.class?.isSome)).map Symbol.id).Pairwise fun a b => a.index < b.index := by
    have ordered : (t.symbols.toList.map Symbol.id).Pairwise fun a b => a.index < b.index := by
      rw [sound.ids, List.pairwise_map]
      exact List.pairwise_lt_range
    exact ordered.sublist (List.filter_sublist.map Symbol.id)
  have inside := sound.mem_classes.mpr isStart
  obtain ⟨front, r, back, m, split, descends', unmet, counted⟩ := counts.below ⟨a, inside, n, descends⟩
  rw [split] at inside ordered
  have same : a = r := by
    rcases List.mem_append.mp inside with before | after
    · have later := (List.pairwise_append.mp ordered).2.2 a before r List.mem_cons_self
      exact absurd (latest descends') (Nat.not_le.mpr later)
    · rcases List.mem_cons.mp after with same | after
      · exact same
      · exact absurd ⟨a, after, n, descends⟩ unmet
  subst same
  obtain ⟨level, depth⟩ := forest.depth_exists isStart
  have length := depth_unique (descends.depth depth) (descends'.depth depth)
  rw [counted]
  congr 1
  omega

/-- A method that overrides nothing and cannot be overridden gains nothing. -/
theorem gainFrom_unsigned (unsigned : t.signature? m = none) : gainFrom t limit id m = [] := by
  induction limit generalizing id with
  | zero => rfl
  | succ limit ih => simp [gainFrom, ih, gainBelow, unsigned]

/-- **Building again.** If no class is new the build goes through. It reports nothing but methods that override wrongly,
and not even those if all methods agree. -/
theorem build_again {problems : List Diagnostic} (intact : t.Intact bound) (overriding : Overriding t)
    (all : edges.map Edge.cls = (t.symbols.toList.filter (·.class?.isSome)).map Symbol.id)
    (lone : ∀ e ∈ edges, e.superclass = none) :
    ∃ t' found, (build edges).run ⟨t, problems⟩ = .ok ((), ⟨t', problems ++ found⟩) ∧ Rebuilt t t' ∧
      (∀ d ∈ found, d.cause.ofOverriding) ∧ (Settled t → found = []) := by
  obtain ⟨depths, t₁, t', deep, counts, gained, ran⟩ := @rebuild_run _ _ _ problems intact all lone
  rw [all] at counts gained ran
  have overriding₁ := deep.overriding overriding
  refine ⟨t', _, ran, ⟨fun c => ?_, fun {a c n} isClass descends latest => ?_, fun m => ?_,
    fun {m method method'} held held' => ?_⟩, fun d reported => ?_, fun settled => ?_⟩
  · rw [gained.class_same, deep_class deep, Option.map_map]
    rfl
  · obtain ⟨k, held⟩ := Option.isSome_iff_exists.mp isClass
    rw [gained.class_same, deep_class deep, held]
    exact counts.latest intact.sound intact.arranged.forest isClass descends latest
  · exact (gained.sameMethods.method m).trans (deep.sameMethods.method m)
  · have held₁ : t₁.method? m = some method := (deep.edited.method_of_class_mapped m).trans held
    rw [gained.method, held₁] at held'
    cases held'
    refine ⟨_, rfl, fun x again => ?_⟩
    cases signed : t₁.signature? m with
    | none => simp [gainFrom_unsigned signed] at again
    | some key =>
      have enough : t₁.symbols.size < t.symbols.size + 1 := Nat.lt_succ_of_le (Nat.le_of_eq deep.edited.size)
      have forest := overriding₁.forest
      have mine := overriding₁.owned.owner_declares held₁ signed
      have latest := overriding₁.owned.latest_iff.mpr mine
      have alone (d : SymbolId) (inside : m ∈ t₁.methodsOf d) : d = method.owner :=
        (overriding₁.owned.declares_owner (mem_declares.mpr ⟨inside, signed⟩) held₁).symm
      obtain ⟨root, inside, found⟩ := List.mem_flatMap.mp again
      by_cases path : ReflTransGen t₁.Under method.owner root
      · obtain ⟨n, depth⟩ := forest.depth_exists
          ((deep.relinks.classes root).trans (intact.sound.mem_classes.mp inside))
        have positive := depth_positive depth
        rw [gainFrom_eq alone latest forest depth (by omega) path,
          forest.mem_declared_below (class_of_declares mine)] at found
        exact (overriding₁.overriders held₁ signed x).mpr found
      · simp [gainFrom_nil alone latest path forest] at found
  · obtain ⟨root, _, reported⟩ := List.mem_flatMap.mp reported
    exact reportsFrom_ofOverriding reported
  · exact List.flatMap_eq_nil_iff.mpr fun root _ => reportsFrom_settled (deep.settled settled) (by simp)

end Hierarchy

end Quasicode
