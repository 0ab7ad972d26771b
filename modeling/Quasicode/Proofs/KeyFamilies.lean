import Mathlib.Data.List.Forall2
import Quasicode.Proofs.MangledKeys

/-!
The keys that stand side by side in one scope. The first and the last sign of a key tell what it is the key of, so a
scope never confuses a variable with a class, a function, the functions of a name, or the object of a method. The key of
a function tells its name and the types of its parameters.
-/
namespace Quasicode

/-! ## Types -/

/-- A type whose classes are those in `classes`, each under the name that it is shown with. -/
def Ty.Shown (classes : SymbolId → Prop) (display : SymbolId → String) : Ty → Prop :=
  Spelled fun name id => classes id ∧ display id = name

section Shown

variable {classes : SymbolId → Prop} {display : SymbolId → String} {p q : Ty} {ps qs : List Ty}

/-- Types that are the same type are spelled alike, since a class is shown with one name. -/
theorem Ty.Shown.same (shown : p.Shown classes display) (shown' : q.Shown classes display) (same : p == q) : p = q := by
  induction p generalizing q with
  | array element ih =>
    cases q with
    | array other => rw [@ih other shown shown' same]
    | _ => cases same
  | ofClass name id =>
    cases q with
    | ofClass name' id' =>
      obtain rfl : id = id' := eq_of_beq same
      rw [← shown.2, ← shown'.2]
    | _ => cases same
  | _ =>
    cases q with
    | array | ofClass => cases same
    | _ => first | rfl | cases same

theorem Ty.same_self (p : Ty) : p == p := by
  induction p with
  | array element ih => exact ih
  | ofClass name id => exact beq_self_eq_true id
  | _ => rfl

theorem same_iff (shown : ∀ p ∈ ps, p.Shown classes display) (shown' : ∀ q ∈ qs, q.Shown classes display) :
    List.Forall₂ (fun p q => p == q) ps qs ↔ ps = qs := by
  constructor
  · intro pairs
    induction pairs with
    | nil => rfl
    | cons same _ ih =>
      rw [List.forall_mem_cons] at shown shown'
      rw [shown.1.same shown'.1 same, ih shown.2 shown'.2]
  · rintro rfl
    exact List.forall₂_same.mpr fun p _ => p.same_self

end Shown

/-! ## Keys -/

/-- What the keys of a scope stand for. -/
inductive KeyFamily where
  | name
  | cls
  | function
  | overloads
  | instanceThis
  | staticThis
deriving DecidableEq, Repr

/-- A key of a scope with what it is made of. -/
inductive Key where
  | name (x : String)
  | cls (x : String)
  | function (f : String) (params : List Ty)
  | overloads (f : String)
  | instanceThis
  | staticThis

namespace Key

def text : Key → String
  | name x => x
  | cls x => classKey x
  | function f params => functionKey f params
  | overloads f => overloadKey f
  | instanceThis => instanceThisKey
  | staticThis => staticThisKey

def family : Key → KeyFamily
  | name _ => .name
  | cls _ => .cls
  | function _ _ => .function
  | overloads _ => .overloads
  | instanceThis => .instanceThis
  | staticThis => .staticThis

/-- The names that a key is made of are names of a source. -/
def Named : Key → Prop
  | name x | cls x | function x _ | overloads x => IsName x
  | instanceThis | staticThis => True

end Key

/-- What a key stands for, told by its first sign and its last. -/
def KeyFamily.ofText (key : String) : KeyFamily :=
  if key.toList.head? = some '#' then overloads
  else if key.toList.head? = some '$' then if key = instanceThisKey then instanceThis else staticThis
  else if key.toList.getLast? = some ')' then function
  else if key.toList.getLast? = some '>' then cls
  else name

/-- A key that begins with a letter is told by its last sign. -/
theorem KeyFamily.ofText_letter {key : String} {c : Char} (first : key.toList.head? = some c)
    (letter : Scan.startsName c) :
    ofText key = if key.toList.getLast? = some ')' then function else if key.toList.getLast? = some '>'
      then cls else name := by
  have other {sign : Char} (isSign : Scan.startsName sign = false) : some c ≠ some sign := by
    rintro ⟨⟩
    cases letter.symm.trans isSign
  rw [ofText, first, if_neg (other (by decide)), if_neg (other (by decide))]

theorem Key.family_ofText {k : Key} (named : k.Named) : KeyFamily.ofText k.text = k.family := by
  cases k with
  | name x =>
    obtain ⟨c, first, letter⟩ := named.starts
    have last {sign : Char} (other : Scan.continuesName sign = false) : x.toList.getLast? ≠ some sign := fun same =>
      named.plain other (List.mem_of_getLast? same)
    rw [Key.text, KeyFamily.ofText_letter first letter, if_neg (last (by decide)), if_neg (last (by decide))]
    rfl
  | cls x =>
    obtain ⟨c, first, letter⟩ := named.starts
    have begins : (classKey x).toList.head? = some c := by simp [classKey, TypeName.signature, first]
    have ends : (classKey x).toList.getLast? = some '>' := by
      rw [classKey, TypeName.signature, String.toList_append]
      exact List.getLast?_concat
    rw [Key.text, KeyFamily.ofText_letter begins letter, ends]
    rfl
  | function f params =>
    obtain ⟨c, first, letter⟩ := named.starts
    have begins : (functionKey f params).toList.head? = some c := by simp [functionKey, first]
    have ends : (functionKey f params).toList.getLast? = some ')' := by
      rw [functionKey, String.toList_append]
      exact List.getLast?_concat
    rw [Key.text, KeyFamily.ofText_letter begins letter, ends]
    rfl
  | overloads f => simp [KeyFamily.ofText, Key.text, overloadKey, Key.family]
  | instanceThis | staticThis => decide

/-- **Keys do not collide.** Where classes are told apart by the names that they are shown with, two functions have one
key only if they have one name and the same parameters, and keys of two families are never the same. -/
theorem keys_apart (classes : SymbolId → Prop) (display : SymbolId → String)
    (names : ∀ c, classes c → IsName (display c))
    (distinct : ∀ c d, classes c → classes d → display c = display d → c = d) :
    (∀ f g ps qs, IsName f → IsName g → (∀ p ∈ ps, Ty.Shown classes display p) →
      (∀ q ∈ qs, Ty.Shown classes display q) →
      (functionKey f ps = functionKey g qs ↔ f = g ∧ List.Forall₂ (fun p q => p == q) ps qs)) ∧
    ∀ k k' : Key, k.Named → k'.Named → k.family ≠ k'.family → k.text ≠ k'.text := by
  refine ⟨fun f g ps qs isName isName' shown shown' => ?_, fun k k' named named' apart same => apart ?_⟩
  · rw [same_iff shown shown']
    constructor
    · apply functionKey_inj _ _ isName isName' shown shown'
      · rintro _ c ⟨isClass, rfl⟩
        exact names c isClass
      · rintro _ c d ⟨isClass, rfl⟩ ⟨isClass', same⟩
        exact distinct c d isClass isClass' same.symm
    · rintro ⟨rfl, rfl⟩
      rfl
  · rw [← Key.family_ofText named, ← Key.family_ofText named', same]

/-- Two classes, and functions whose parameters differ by where an array ends. -/
theorem nestedArrays_keys_apart :
    let display : SymbolId → String := fun c => if c = ⟨1⟩ then "A" else "AB"
    let classes : SymbolId → Prop := fun c => c = ⟨1⟩ ∨ c = ⟨2⟩
    let ps : List Ty := [.array (.ofClass "A" ⟨1⟩), .int]
    let qs : List Ty := [.array (.ofClass "AB" ⟨2⟩), .int]
    (∀ c, classes c → IsName (display c)) ∧ (∀ c d, classes c → classes d → display c = display d → c = d) ∧
      functionKey "f" ps ≠ functionKey "f" qs ∧ Key.text (.function "f" ps) ≠ Key.text (.overloads "f") := by
  intro display classes ps qs
  have names : ∀ c, classes c → IsName (display c) := by
    rintro c (rfl | rfl) <;> decide
  have distinct : ∀ c d, classes c → classes d → display c = display d → c = d := by
    rintro c d (rfl | rfl) (rfl | rfl) <;> decide
  obtain ⟨functions, families⟩ := keys_apart classes display names distinct
  have isName : IsName "f" := by decide
  refine ⟨names, distinct, fun same => ?_, families (.function "f" ps) (.overloads "f") isName isName (by decide)⟩
  have shown : ∀ p ∈ ps, Ty.Shown classes display p := by simp [ps, Ty.Shown, Ty.Spelled, classes, display]
  have shown' : ∀ q ∈ qs, Ty.Shown classes display q := by simp [qs, Ty.Shown, Ty.Spelled, classes, display]
  have pairs := ((functions "f" "f" ps qs isName isName shown shown').mp same).2
  rw [List.forall₂_cons] at pairs
  cases pairs.1

end Quasicode
