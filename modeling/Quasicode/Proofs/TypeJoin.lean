import Quasicode.Proofs.AnalysisRun
import Quasicode.Proofs.ClassAncestors
import Quasicode.Typing.Operator

/-!
The join of types is a least upper bound. Widening is stated by its rules: what widens to what. Over registered
classes it orders the types, the join of two types always exists and is the least type that both widen to, and so
it does not matter in which order a list of types is joined.
-/
namespace Quasicode.Ty

variable {view : ClassView} {a b c d x y : Ty}
variable {name name' : String} {element : Ty}

/-! ## Equality of types -/

theorem same_refl (a : Ty) : a == a := by
  change same a a
  induction a with
  | array element ih => exact ih
  | ofClass name id => simp [same]
  | _ => rfl

theorem same_symm (equal : a == b) : b == a := by
  change same b a
  replace equal : same a b := equal
  induction a generalizing b with
  | array element ih => cases b <;> simp_all [same]
  | _ => cases b <;> simp_all [same]

theorem same_trans (first : a == b) (second : b == c) : a == c := by
  change same a c
  replace first : same a b := first
  replace second : same b c := second
  induction a generalizing b c with
  | array element ih =>
    cases b <;> simp only [same, Bool.false_eq_true] at first
    cases c <;> simp only [same, Bool.false_eq_true] at second
    exact ih first second
  | _ => cases b <;> cases c <;> simp_all [same]

/-! ## Widening -/

/-- A type all of whose classes are registered. -/
def Known (view : ClassView) : Ty → Prop
  | .array element => element.Known view
  | .ofClass _ id => (view.link id).isSome
  | _ => True

/-- `Widens view a b`: a value of type `a` can be taken for one of type `b`. -/
inductive Widens (view : ClassView) : Ty → Ty → Prop where
  | refl (a : Ty) : Widens view a a
  | error (a : Ty) : Widens view a .error
  | void {a : Ty} : a.isError = false → Widens view a .void
  | any {a : Ty} : a.isError = false → a.isVoid = false → Widens view a .any
  | number : Widens view .int .double
  | array {a b : Ty} : Widens view a b → Widens view (.array a) (.array b)
  | ofClass {name name' : String} {x y : SymbolId} : view.Ancestor x y →
      Widens view (.ofClass name x) (.ofClass name' y)

/-- The types that everything but a void or an error widens to. -/
def Wide (a : Ty) : Prop := a = .any ∨ a = .void ∨ a = .error

/-- Any other type than those. -/
def Narrow (a : Ty) : Prop := a.isError = false ∧ a.isVoid = false ∧ a.isAny = false

theorem Narrow.widens (narrow : a.Narrow) (wide : d.Wide) : Widens view a d := by
  rcases wide with rfl | rfl | rfl
  · exact .any narrow.1 narrow.2.1
  · exact .void narrow.1
  · exact .error a

theorem widens_of_same (equal : a == b) : Widens view a b := by
  replace equal : same a b := equal
  induction a generalizing b with
  | array element ih =>
    cases b <;> simp only [same, Bool.false_eq_true] at equal
    exact .array (ih equal)
  | ofClass name id =>
    cases b <;> simp only [same, Bool.false_eq_true, beq_iff_eq] at equal
    exact .ofClass (equal ▸ .refl)
  | _ =>
    cases b <;> simp only [same, Bool.false_eq_true] at equal
    exact .refl _

theorem widens_error_iff : Widens view .error d ↔ d = .error := by
  constructor
  · intro widens
    cases widens <;> simp_all [isError]
  · rintro rfl
    exact .refl _

theorem widens_void_iff : Widens view .void d ↔ d = .void ∨ d = .error := by
  constructor
  · intro widens
    cases widens <;> simp_all [isVoid]
  · rintro (rfl | rfl)
    · exact .refl _
    · exact .error _

theorem widens_any_iff : Widens view .any d ↔ d.Wide := by
  constructor
  · intro widens
    cases widens <;> simp [Wide]
  · rintro (rfl | rfl | rfl)
    · exact .refl _
    · exact .void rfl
    · exact .error _

theorem widens_double_iff : Widens view .double d ↔ d = .double ∨ d.Wide := by
  constructor
  · intro widens
    cases widens <;> simp [Wide]
  · rintro (rfl | wide)
    · exact .refl _
    · exact Narrow.widens ⟨rfl, rfl, rfl⟩ wide

theorem widens_array_iff : Widens view (.array x) d ↔ (∃ y, d = .array y ∧ Widens view x y) ∨ d.Wide := by
  constructor
  · intro widens
    cases widens with
    | refl => exact .inl ⟨x, rfl, .refl x⟩
    | array element => exact .inl ⟨_, rfl, element⟩
    | _ => simp [Wide]
  · rintro (⟨y, rfl, element⟩ | wide)
    · exact .array element
    · exact Narrow.widens ⟨rfl, rfl, rfl⟩ wide

theorem widens_class_iff {id : SymbolId} :
    Widens view (.ofClass name id) d ↔
      (∃ name' ancestor, d = .ofClass name' ancestor ∧ view.Ancestor id ancestor) ∨ d.Wide := by
  constructor
  · intro widens
    cases widens with
    | refl => exact .inl ⟨name, id, rfl, .refl⟩
    | ofClass path => exact .inl ⟨_, _, rfl, path⟩
    | _ => simp [Wide]
  · rintro (⟨name', ancestor, rfl, path⟩ | wide)
    · exact .ofClass path
    · exact Narrow.widens ⟨rfl, rfl, rfl⟩ wide

theorem widens_trans (first : Widens view a b) (second : Widens view b c) : Widens view a c := by
  induction first generalizing c with
  | refl => exact second
  | error a => exact widens_error_iff.mp second ▸ .error a
  | void proper =>
    rcases widens_void_iff.mp second with rfl | rfl
    · exact .void proper
    · exact .error _
  | any proper filled =>
    rcases widens_any_iff.mp second with rfl | rfl | rfl
    · exact .any proper filled
    · exact .void proper
    · exact .error _
  | number =>
    rcases widens_double_iff.mp second with rfl | wide
    · exact .number
    · exact Narrow.widens ⟨rfl, rfl, rfl⟩ wide
  | array _ ih =>
    rcases widens_array_iff.mp second with ⟨y, rfl, element⟩ | wide
    · exact .array (ih element)
    · exact Narrow.widens ⟨rfl, rfl, rfl⟩ wide
  | ofClass path =>
    rcases widens_class_iff.mp second with ⟨name', ancestor, rfl, rest⟩ | wide
    · exact .ofClass (path.trans rest)
    · exact Narrow.widens ⟨rfl, rfl, rfl⟩ wide

theorem widens_antisymm (registered : view.Registered) (known : a.Known view) (up : Widens view a b)
    (down : Widens view b a) : a == b := by
  induction up with
  | refl a => exact same_refl a
  | error a => exact widens_error_iff.mp down ▸ same_refl _
  | void proper =>
    rcases widens_void_iff.mp down with rfl | rfl
    · rfl
    · cases proper
  | any proper filled =>
    rcases widens_any_iff.mp down with rfl | rfl | rfl
    · rfl
    · cases filled
    · cases proper
  | number => cases down
  | array _ ih =>
    cases down with
    | refl => exact same_refl _
    | array element => exact ih known element
  | ofClass path =>
    cases down with
    | refl => exact same_refl _
    | ofClass back =>
      obtain ⟨link, held⟩ := Option.isSome_iff_exists.mp known
      simp [BEq.beq, same, registered.ancestor_antisymm held path back]

/-- What the values of a type are like. -/
inductive Shape where
  | number
  | boolean
  | array
  | object
  | wide
deriving DecidableEq

def shape : Ty → Shape
  | .int | .double => .number
  | .boolean => .boolean
  | .array _ => .array
  | .ofClass _ _ => .object
  | .any | .void | .error => .wide

/-- Widening keeps the shape or loses it. -/
theorem widens_shape (widens : Widens view a b) : b.Wide ∨ b.shape = a.shape := by
  cases widens <;> simp [Wide, shape]

theorem same_shape (equal : a == b) : a.shape = b.shape := by
  replace equal : same a b := equal
  cases a <;> cases b <;> first | rfl | cases equal

theorem narrow_or_wide (a : Ty) : a.Narrow ∨ a.Wide := by
  cases a <;> simp [Narrow, Wide, isError, isVoid, isAny]

/-! ## Least upper bounds -/

/-- `c` is the least type that both `a` and `b` widen to. -/
structure IsJoin (view : ClassView) (a b c : Ty) : Prop where
  left : Widens view a c
  right : Widens view b c
  least : ∀ {d}, Widens view a d → Widens view b d → Widens view c d

theorem IsJoin.symm (isJoin : IsJoin view a b c) : IsJoin view b a c :=
  ⟨isJoin.right, isJoin.left, fun right left => isJoin.least left right⟩

/-- Of two types one of which widens to the other, that other is the join. -/
theorem isJoin_of_widens (widens : Widens view a b) : IsJoin view a b b :=
  ⟨widens, .refl b, fun _ right => right⟩

/-- Types that share nothing but wide types have the join `any`. -/
theorem isJoin_any (narrowA : a.Narrow) (narrowB : b.Narrow)
    (apart : ∀ {d}, Widens view a d → Widens view b d → d.Wide) : IsJoin view a b .any :=
  ⟨narrowA.widens (.inl rfl), narrowB.widens (.inl rfl), fun left right => widens_any_iff.mpr (apart left right)⟩

theorem isJoin_array (isJoin : IsJoin view x y element) :
    IsJoin view (.array x) (.array y) (.array element) := by
  refine ⟨.array isJoin.left, .array isJoin.right, fun left right => ?_⟩
  rcases widens_array_iff.mp left with ⟨d, rfl, fromX⟩ | wide
  · rcases widens_array_iff.mp right with ⟨d', same, fromY⟩ | wide
    · cases same
      exact .array (isJoin.least fromX fromY)
    · rcases wide with same | same | same <;> cases same
  · exact Narrow.widens ⟨rfl, rfl, rfl⟩ wide

theorem isJoin_class {name'' : String} {x y shared : SymbolId} (nearest : view.Nearest x y shared) :
    IsJoin view (.ofClass name x) (.ofClass name' y) (.ofClass name'' shared) := by
  refine ⟨.ofClass nearest.left, .ofClass nearest.right, fun left right => ?_⟩
  rcases widens_class_iff.mp left with ⟨_, ancestor, rfl, fromX⟩ | wide
  · rcases widens_class_iff.mp right with ⟨_, ancestor', same, fromY⟩ | wide
    · cases same
      exact .ofClass (nearest.below fromX fromY)
    · rcases wide with same | same | same <;> cases same
  · exact Narrow.widens ⟨rfl, rfl, rfl⟩ wide

theorem isJoin_unrelated {x y : SymbolId} (apart : ∀ z, view.Ancestor x z → ¬ view.Ancestor y z) :
    IsJoin view (.ofClass name x) (.ofClass name' y) .any := by
  refine isJoin_any ⟨rfl, rfl, rfl⟩ ⟨rfl, rfl, rfl⟩ fun left right => ?_
  rcases widens_class_iff.mp left with ⟨_, ancestor, rfl, fromX⟩ | wide
  · rcases widens_class_iff.mp right with ⟨_, ancestor', same, fromY⟩ | wide
    · cases same
      exact absurd fromY (apart ancestor fromX)
    · exact wide
  · exact wide

/-- What the classes of two types are worth to their join. -/
theorem join_class {x y : SymbolId} (registered : view.Registered)
    (knownX : (view.link x).isSome) (knownY : (view.link y).isSome) (different : x ≠ y) :
    (∃ shared link, join view (.ofClass name x) (.ofClass name' y) = .ok (.ofClass link.name shared) ∧
      view.link shared = some link ∧ view.Nearest x y shared) ∨
    join view (.ofClass name x) (.ofClass name' y) = .ok .any ∧ ∀ z, view.Ancestor x z → ¬ view.Ancestor y z := by
  obtain ⟨linkX, heldX⟩ := Option.isSome_iff_exists.mp knownX
  obtain ⟨linkY, heldY⟩ := Option.isSome_iff_exists.mp knownY
  have unequal : ((Ty.ofClass name x) == (.ofClass name' y)) = false := by
    simp [BEq.beq, same, different]
  rcases registered.meet_nearest heldX heldY with ⟨shared, link, meets, held, nearest⟩ | ⟨meets, apart⟩
  · exact .inl ⟨shared, link, by simp [join, isError, isVoid, isAny, unequal, meets], held, nearest⟩
  · exact .inr ⟨by simp [join, isError, isVoid, isAny, unequal, meets], apart⟩

/-- Types of different shape have the join `any`. -/
theorem join_mixed (narrowA : a.Narrow) (narrowB : b.Narrow) (apart : a.shape ≠ b.shape) :
    join view a b = .ok .any ∧ IsJoin view a b .any := by
  constructor
  · obtain ⟨properA, filledA, definiteA⟩ := narrowA
    obtain ⟨properB, filledB, definiteB⟩ := narrowB
    have unequal : (a == b) = false := by
      cases equal : a == b with
      | false => rfl
      | true => exact absurd (same_shape equal) apart
    unfold join
    simp only [properA, properB, filledA, filledB, definiteA, definiteB, unequal, Bool.or_self, Bool.false_eq_true,
      if_false]
    cases a <;> cases b <;> first | rfl | exact absurd rfl apart
  · refine isJoin_any narrowA narrowB fun left right => ?_
    rcases widens_shape left with wide | shapeA
    · exact wide
    · rcases widens_shape right with wide | shapeB
      · exact wide
      · exact absurd (shapeA.symm.trans shapeB) apart

/-- Where one of the types is wide, the wider one is the join. -/
theorem join_wide (wide : a.Wide ∨ b.Wide) :
    join view a b = .ok a ∧ Widens view b a ∨ join view a b = .ok b ∧ Widens view a b := by
  rcases wide with (rfl | rfl | rfl) | (rfl | rfl | rfl)
  · cases b with
    | error => exact .inr ⟨rfl, .error _⟩
    | void => exact .inr ⟨rfl, .void rfl⟩
    | _ => exact .inl ⟨rfl, .any rfl rfl⟩
  · cases b with
    | error => exact .inr ⟨rfl, .error _⟩
    | _ => exact .inl ⟨rfl, .void rfl⟩
  · exact .inl ⟨rfl, .error b⟩
  · cases a with
    | error => exact .inl ⟨rfl, .error _⟩
    | void => exact .inl ⟨rfl, .void rfl⟩
    | _ => exact .inr ⟨rfl, .any rfl rfl⟩
  · cases a with
    | error => exact .inl ⟨rfl, .error _⟩
    | _ => exact .inr ⟨rfl, .void rfl⟩
  · exact .inr ⟨by simp [join, isError], .error a⟩

theorem join_same (narrowA : a.Narrow) (narrowB : b.Narrow) (equal : a == b) : join view a b = .ok a := by
  obtain ⟨properA, filledA, _⟩ := narrowA
  obtain ⟨properB, filledB, _⟩ := narrowB
  unfold join
  simp [properA, properB, filledA, filledB, equal]

theorem join_array (joins : join view x y = .ok element) (unequal : (x == y) = false) :
    join view (.array x) (.array y) = .ok (.array element) := by
  have arrays : ((Ty.array x) == (.array y)) = false := unequal
  simp [join, isError, isVoid, isAny, arrays, joins]

/-- The join of types that are equal or of different shape needs nothing of the classes. -/
theorem join_settled (knownA : a.Known view) (knownB : b.Known view)
    (settled : (a.Wide ∨ b.Wide) ∨ a == b ∨ a.shape ≠ b.shape) :
    ∃ c, join view a b = .ok c ∧ c.Known view ∧ IsJoin view a b c := by
  by_cases wide : a.Wide ∨ b.Wide
  · rcases join_wide wide with ⟨joins, widens⟩ | ⟨joins, widens⟩
    · exact ⟨a, joins, knownA, (isJoin_of_widens widens).symm⟩
    · exact ⟨b, joins, knownB, isJoin_of_widens widens⟩
  · obtain ⟨notWideA, notWideB⟩ := not_or.mp wide
    have narrowA := (narrow_or_wide a).resolve_right notWideA
    have narrowB := (narrow_or_wide b).resolve_right notWideB
    rcases settled.resolve_left wide with equal | apart
    · exact ⟨a, join_same narrowA narrowB equal, knownA,
        (isJoin_of_widens (widens_of_same (same_symm equal))).symm⟩
    · obtain ⟨joins, isJoin⟩ := @join_mixed view a b narrowA narrowB apart
      exact ⟨.any, joins, trivial, isJoin⟩

/-- **Joining.** Known types have a join, and it is the least type that both widen to. -/
theorem join_least (registered : view.Registered) (knownA : a.Known view) (knownB : b.Known view) :
    ∃ c, join view a b = .ok c ∧ c.Known view ∧ IsJoin view a b c := by
  induction a generalizing b with
  | int =>
    cases b with
    | double => exact ⟨.double, rfl, trivial, isJoin_of_widens .number⟩
    | _ => exact join_settled knownA knownB (by simp [Wide, shape, BEq.beq, same])
  | double =>
    cases b with
    | int => exact ⟨.double, rfl, trivial, (isJoin_of_widens .number).symm⟩
    | _ => exact join_settled knownA knownB (by simp [Wide, shape, BEq.beq, same])
  | array x ih =>
    cases b with
    | array y =>
      cases equal : x == y with
      | true => exact join_settled knownA knownB (.inr (.inl equal))
      | false =>
        obtain ⟨element, joins, known, isJoin⟩ := ih (b := y) knownA knownB
        exact ⟨.array element, join_array joins equal, known, isJoin_array isJoin⟩
    | _ => exact join_settled knownA knownB (by simp [Wide, shape])
  | ofClass name x =>
    cases b with
    | ofClass name' y =>
      by_cases equal : x = y
      · exact join_settled knownA knownB (.inr (.inl (by simp [BEq.beq, same, equal])))
      · rcases join_class registered knownA knownB equal with ⟨shared, link, joins, held, nearest⟩ | ⟨joins, apart⟩
        · exact ⟨_, joins, by simp [Known, held], isJoin_class nearest⟩
        · exact ⟨.any, joins, trivial, isJoin_unrelated apart⟩
    | _ => exact join_settled knownA knownB (by simp [Wide, shape])
  | _ => cases b <;> exact join_settled knownA knownB (by simp [Wide, shape, BEq.beq, same])

/-! ## The laws -/

/-- `a` widens to `b` in the sense of the join: joining it with `b` gains nothing. -/
def JoinsInto (view : ClassView) (a b : Ty) : Prop := ∃ c, join view a b = .ok c ∧ c == b

theorem IsJoin.unique (registered : view.Registered) {c' : Ty} (known : c.Known view) (first : IsJoin view a b c)
    (second : IsJoin view a b c') : c == c' :=
  widens_antisymm registered known (first.least second.left second.right) (second.least first.left first.right)

/-- To widen by the rules and to be absorbed by the join are the same. -/
theorem joinsInto_iff (registered : view.Registered) (knownA : a.Known view) (knownB : b.Known view) :
    JoinsInto view a b ↔ Widens view a b := by
  obtain ⟨c, joins, known, isJoin⟩ := join_least registered knownA knownB
  constructor
  · rintro ⟨c', joins', equal⟩
    obtain rfl := Except.ok.inj (joins.symm.trans joins')
    exact widens_trans isJoin.left (widens_of_same equal)
  · intro widens
    exact ⟨c, joins, isJoin.unique registered known (isJoin_of_widens widens)⟩

/-- The laws of the join over the classes of a view. -/
structure JoinLaws (view : ClassView) : Prop where
  /-- Known types have a join, and it is known. -/
  total : ∀ {a b}, a.Known view → b.Known view → ∃ c, join view a b = .ok c ∧ c.Known view
  comm : ∀ {a b}, a.Known view → b.Known view →
    ∃ c c', join view a b = .ok c ∧ join view b a = .ok c' ∧ c == c'
  assoc : ∀ {a b c}, a.Known view → b.Known view → c.Known view →
    ∃ ab bc left right, join view a b = .ok ab ∧ join view ab c = .ok left ∧
      join view b c = .ok bc ∧ join view a bc = .ok right ∧ left == right
  /-- Joining a type with itself gains nothing; being absorbed by the join is thus a partial order. -/
  idem : ∀ {a}, a.Known view → JoinsInto view a a
  trans : ∀ {a b c}, a.Known view → b.Known view → c.Known view →
    JoinsInto view a b → JoinsInto view b c → JoinsInto view a c
  antisymm : ∀ {a b}, a.Known view → b.Known view → JoinsInto view a b → JoinsInto view b a → a == b
  /-- In this order the join is the least upper bound. -/
  least : ∀ {a b c}, a.Known view → b.Known view → join view a b = .ok c →
    JoinsInto view a c ∧ JoinsInto view b c ∧
      ∀ {d}, d.Known view → JoinsInto view a d → JoinsInto view b d → JoinsInto view c d
  /-- Two classes meet in their nearest common ancestor, and where they have none in `any`. -/
  classes : ∀ {x y name name'}, (view.link x).isSome → (view.link y).isSome →
    (∃ shared name'', view.Nearest x y shared ∧
      join view (.ofClass name x) (.ofClass name' y) = .ok (.ofClass name'' shared)) ∨
    (∀ z, view.Ancestor x z → ¬ view.Ancestor y z) ∧
      join view (.ofClass name x) (.ofClass name' y) = .ok .any

theorem joinLaws_of_registered (registered : view.Registered) : JoinLaws view := by
  have joins_into {a b : Ty} (knownA : a.Known view) (knownB : b.Known view) :
      JoinsInto view a b ↔ Widens view a b := joinsInto_iff registered knownA knownB
  have joinOf {a b : Ty} (knownA : a.Known view) (knownB : b.Known view) :
      ∃ c, join view a b = .ok c ∧ c.Known view ∧ IsJoin view a b c := join_least registered knownA knownB
  constructor
  case total =>
    intro a b knownA knownB
    obtain ⟨c, joins, known, _⟩ := joinOf knownA knownB
    exact ⟨c, joins, known⟩
  case comm =>
    intro a b knownA knownB
    obtain ⟨c, joins, known, isJoin⟩ := joinOf knownA knownB
    obtain ⟨c', joins', _, isJoin'⟩ := joinOf knownB knownA
    exact ⟨c, c', joins, joins', isJoin.unique registered known isJoin'.symm⟩
  case assoc =>
    intro a b c knownA knownB knownC
    obtain ⟨ab, joinsAB, knownAB, isAB⟩ := joinOf knownA knownB
    obtain ⟨bc, joinsBC, knownBC, isBC⟩ := joinOf knownB knownC
    obtain ⟨left, joinsL, knownL, isL⟩ := joinOf knownAB knownC
    obtain ⟨right, joinsR, knownR, isR⟩ := joinOf knownA knownBC
    refine ⟨ab, bc, left, right, joinsAB, joinsL, joinsBC, joinsR, widens_antisymm registered knownL ?_ ?_⟩
    · have fromB := widens_trans isBC.left isR.right
      have fromC := widens_trans isBC.right isR.right
      exact isL.least (isAB.least isR.left fromB) fromC
    · have fromA := widens_trans isAB.left isL.left
      have fromB := widens_trans isAB.right isL.left
      exact isR.least fromA (isBC.least fromB isL.right)
  case idem =>
    intro a known
    exact (joins_into known known).mpr (.refl a)
  case trans =>
    intro a b c knownA knownB knownC first second
    exact (joins_into knownA knownC).mpr
      (widens_trans ((joins_into knownA knownB).mp first) ((joins_into knownB knownC).mp second))
  case antisymm =>
    intro a b knownA knownB up down
    exact widens_antisymm registered knownA ((joins_into knownA knownB).mp up) ((joins_into knownB knownA).mp down)
  case least =>
    intro a b c knownA knownB joins
    obtain ⟨c', joins', known, isJoin⟩ := joinOf knownA knownB
    obtain rfl := Except.ok.inj (joins.symm.trans joins')
    refine ⟨(joins_into knownA known).mpr isJoin.left, (joins_into knownB known).mpr isJoin.right, ?_⟩
    intro d knownD left right
    exact (joins_into known knownD).mpr
      (isJoin.least ((joins_into knownA knownD).mp left) ((joins_into knownB knownD).mp right))
  case classes =>
    intro x y name name' knownX knownY
    by_cases equal : x = y
    · subst equal
      exact .inl ⟨x, name, ⟨.refl, .refl, fun path _ => path⟩,
        join_same ⟨rfl, rfl, rfl⟩ ⟨rfl, rfl, rfl⟩ (by simp [BEq.beq, same])⟩
    · rcases join_class registered knownX knownY equal with ⟨shared, link, joins, _, nearest⟩ | ⟨joins, apart⟩
      · exact .inl ⟨shared, link.name, nearest, joins⟩
      · exact .inr ⟨apart, joins⟩

end Quasicode.Ty

namespace Quasicode.Typing

open Analysis

variable {s : AnalysisState} {a c : Ty} {tys : List Ty}

/-- `c` is the least type that all of the types widen to. -/
structure IsJoinOf (view : ClassView) (tys : List Ty) (c : Ty) : Prop where
  upper : ∀ {ty}, ty ∈ tys → Ty.Widens view ty c
  least : ∀ {d}, (∀ ty ∈ tys, Ty.Widens view ty d) → Ty.Widens view c d

/-- Joining types one after the other yields the least type that all of them widen to. -/
theorem foldlM_join (registered : s.table.classes.Registered) (known : a.Known s.table.classes)
    (knownAll : ∀ ty ∈ tys, ty.Known s.table.classes) :
    ∃ c, (tys.foldlM join a).run s = .ok (c, s) ∧ c.Known s.table.classes ∧
      IsJoinOf s.table.classes (a :: tys) c := by
  induction tys generalizing a with
  | nil =>
    refine ⟨a, rfl, known, fun {ty} inside => ?_, fun upper => upper a (by simp)⟩
    obtain rfl := List.mem_singleton.mp inside
    exact .refl ty
  | cons b tys ih =>
    obtain ⟨ab, joins, knownAB, isJoin⟩ := Ty.join_least registered known (knownAll b (by simp))
    obtain ⟨c, ran, knownC, isJoinOf⟩ := ih knownAB fun ty inside => knownAll ty (List.mem_cons_of_mem _ inside)
    have above : Ty.Widens s.table.classes ab c := isJoinOf.upper (by simp)
    refine ⟨c, ?_, knownC, fun {ty} inside => ?_, fun upper => ?_⟩
    · rw [List.foldlM_cons, run_seq (run_join joins), ran]
    · rcases List.mem_cons.mp inside with rfl | inside
      · exact Ty.widens_trans isJoin.left above
      · rcases List.mem_cons.mp inside with rfl | inside
        · exact Ty.widens_trans isJoin.right above
        · exact isJoinOf.upper (List.mem_cons_of_mem _ inside)
    · refine isJoinOf.least fun ty inside => ?_
      rcases List.mem_cons.mp inside with rfl | inside
      · exact isJoin.least (upper a (by simp)) (upper b (by simp))
      · exact upper ty (by simp [inside])

/-- The order of the elements of an array literal does not matter for its type. -/
theorem elementType_perm (registered : s.table.classes.Registered) {tys' : List Ty} (reordered : tys.Perm tys')
    (known : ∀ ty ∈ tys, ty.Known s.table.classes) :
    ∃ c c', (elementType tys).run s = .ok (c, s) ∧ (elementType tys').run s = .ok (c', s) ∧ c == c' := by
  cases tys with
  | nil =>
    obtain rfl := reordered.nil_eq
    exact ⟨.any, .any, rfl, rfl, rfl⟩
  | cons a tys =>
    cases tys' with
    | nil => exact absurd reordered.symm (List.not_perm_nil_cons a tys)
    | cons b tys' =>
      have known' : ∀ ty ∈ b :: tys', ty.Known s.table.classes := fun ty inside =>
        known ty (reordered.mem_iff.mpr inside)
      obtain ⟨c, ran, knownC, isJoinOf⟩ := foldlM_join registered (known a (by simp)) fun ty inside =>
        known ty (List.mem_cons_of_mem _ inside)
      obtain ⟨c', ran', _, isJoinOf'⟩ := foldlM_join registered (known' b (by simp)) fun ty inside =>
        known' ty (List.mem_cons_of_mem _ inside)
      refine ⟨c, c', ran, ran', Ty.widens_antisymm registered knownC ?_ ?_⟩
      · exact isJoinOf.least fun ty inside => isJoinOf'.upper (reordered.mem_iff.mp inside)
      · exact isJoinOf'.least fun ty inside => isJoinOf.upper (reordered.mem_iff.mpr inside)

/-- **The join.** Over registered classes the join has the laws of a least upper bound. The classes of a table
need only be in their places for that, and then the element type of an array literal is the same whatever the
order of its elements. -/
theorem join_semilattice : (∀ {view : ClassView}, view.Registered → Ty.JoinLaws view) ∧
    ∀ {s : AnalysisState}, s.table.classes.Placed → Ty.JoinLaws s.table.classes ∧
      ∀ {tys tys' : List Ty}, tys.Perm tys' → (∀ ty ∈ tys, ty.Known s.table.classes) →
        ∃ c c', (elementType tys).run s = .ok (c, s) ∧ (elementType tys').run s = .ok (c', s) ∧ c == c' := by
  refine ⟨Ty.joinLaws_of_registered, fun {s} placed => ?_⟩
  have registered := ClassView.registered_classes placed
  exact ⟨Ty.joinLaws_of_registered registered, elementType_perm registered⟩

/-- A class at a depth, under another one or at the top. -/
def placedClass (place : Nat) (name : String) (upper : Option SymbolId) (depth : Nat) : Symbol where
  id := ⟨place⟩
  name := classKey name
  span := .none
  scope := .root
  kind := .cls {
    displayName := name, plainName := name, builtin := false, scope := ⟨place + 1⟩, upper, depth := some depth }

/-- A class with two classes below it. -/
def siblings : AnalysisState where
  table := {
    scopes := #[]
    symbols := #[placedClass 0 "A" none 1, placedClass 1 "B" (some ⟨0⟩) 2, placedClass 2 "C" (some ⟨0⟩) 2]
    current := .root
    classCount := 3 }

theorem siblings_join : siblings.table.classes.Placed ∧ Ty.JoinLaws siblings.table.classes ∧
    ∃ c c', (elementType [.ofClass "B" ⟨1⟩, .ofClass "C" ⟨2⟩, .int]).run siblings = .ok (c, siblings) ∧
      (elementType [.int, .ofClass "C" ⟨2⟩, .ofClass "B" ⟨1⟩]).run siblings = .ok (c', siblings) ∧ c == c' := by
  have placed : siblings.table.classes.Placed := by
    intro id link held
    obtain ⟨i⟩ := id
    match i with
    | 0 =>
      cases held
      exact .inl ⟨rfl, rfl⟩
    | 1 | 2 =>
      cases held
      exact .inr ⟨⟨0⟩, _, rfl, rfl, rfl⟩
    | i + 3 => cases held
  obtain ⟨laws, anyOrder⟩ := join_semilattice.2 placed
  have reordered : [Ty.ofClass "B" ⟨1⟩, .ofClass "C" ⟨2⟩, .int].Perm [.int, .ofClass "C" ⟨2⟩, .ofClass "B" ⟨1⟩] :=
    (List.reverse_perm _).symm
  exact ⟨placed, laws, anyOrder reordered (by simp [Ty.Known]; exact ⟨rfl, rfl⟩)⟩

/-- Siblings meet in the class above them. -/
example : Ty.join siblings.table.classes (.ofClass "B" ⟨1⟩) (.ofClass "C" ⟨2⟩) = .ok (.ofClass "A" ⟨0⟩) := by rfl

end Quasicode.Typing
