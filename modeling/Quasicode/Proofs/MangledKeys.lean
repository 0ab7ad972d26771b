import Quasicode.Symbol
import Quasicode.Token.Scan

/-!
The keys that spell out types. A name has none of the signs that a key puts around types, and no type is spelled
like a name unless it is a class of that name. So a key can be read back: the name, the types, and with it the classes,
as long as their names tell them apart.
-/
namespace Quasicode

/-- A name as scanning makes one: a letter, then letters, digits and underscores, and no keyword. -/
structure IsName (name : String) : Prop where
  starts : ∃ c, name.toList.head? = some c ∧ Scan.startsName c
  continues : ∀ c ∈ name.toList, Scan.continuesName c
  notKeyword : Keyword.ofString? name = none

theorem append_cons_inj {α : Type} {a : α} {xs ys xs' ys' : List α} (outside : a ∉ xs) (outside' : a ∉ ys)
    (same : xs ++ a :: xs' = ys ++ a :: ys') : xs = ys ∧ xs' = ys' := by
  induction xs generalizing ys with
  | nil =>
    cases ys with
    | nil => exact ⟨rfl, by simpa using same⟩
    | cons y ys =>
      obtain ⟨rfl, _⟩ := List.cons.inj same
      exact absurd List.mem_cons_self outside'
  | cons x xs ih =>
    cases ys with
    | nil =>
      obtain ⟨rfl, _⟩ := List.cons.inj same
      exact absurd List.mem_cons_self outside
    | cons y ys =>
      obtain ⟨rfl, rest⟩ := List.cons.inj same
      obtain ⟨rfl, rfl⟩ := ih (mt (List.mem_cons_of_mem _) outside) (mt (List.mem_cons_of_mem _) outside') rest
      exact ⟨rfl, rfl⟩

/-- Words without commas can be read back from between commas. -/
theorem intercalate_inj {xs ys : List (List Char)} (words : ∀ x ∈ xs, x ≠ [] ∧ ',' ∉ x)
    (words' : ∀ y ∈ ys, y ≠ [] ∧ ',' ∉ y) (same : [',', ' '].intercalate xs = [',', ' '].intercalate ys) : xs = ys := by
  have cons_ne_nil {x : List Char} {rest : List (List Char)} (word : x ≠ []) :
      [',', ' '].intercalate (x :: rest) ≠ [] := by
    cases rest <;> simp [List.intercalate_cons_cons, word]
  induction xs generalizing ys with
  | nil =>
    cases ys with
    | nil => rfl
    | cons y ys => exact absurd same.symm (cons_ne_nil (words' y List.mem_cons_self).1)
  | cons x xs ih =>
    obtain ⟨filled, whole⟩ := words x List.mem_cons_self
    cases ys with
    | nil => exact absurd same (cons_ne_nil filled)
    | cons y ys =>
      obtain ⟨_, whole'⟩ := words' y List.mem_cons_self
      have rest := fun z inside => words z (List.mem_cons_of_mem x inside)
      have rest' := fun z inside => words' z (List.mem_cons_of_mem y inside)
      cases xs with
      | nil =>
        cases ys with
        | nil => simpa using same
        | cons z zs =>
          rw [List.intercalate_cons_cons] at same
          simp only [List.intercalate_singleton] at same
          simp [same] at whole
      | cons x' xs =>
        cases ys with
        | nil =>
          rw [List.intercalate_cons_cons] at same
          simp only [List.intercalate_singleton] at same
          simp [← same] at whole'
        | cons y' ys =>
          simp only [List.intercalate_cons_cons, List.append_assoc, List.cons_append] at same
          obtain ⟨rfl, same⟩ := append_cons_inj whole whole' same
          rw [ih rest rest' (by simpa using same)]

namespace IsName

variable {name : String}

instance : Decidable (IsName name) :=
  decidable_of_iff (name.toList.head?.any Scan.startsName ∧ name.toList.all Scan.continuesName ∧
    Keyword.ofString? name = none) ⟨fun ⟨starts, continues, notKeyword⟩ =>
      ⟨(Option.any_eq_true _ _).mp starts, List.all_eq_true.mp continues, notKeyword⟩,
    fun isName =>
      ⟨(Option.any_eq_true _ _).mpr isName.starts, List.all_eq_true.mpr isName.continues, isName.notKeyword⟩⟩

theorem nonempty (isName : IsName name) : name ≠ "" := by
  rintro rfl
  obtain ⟨c, first, _⟩ := isName.starts
  cases first

theorem plain (isName : IsName name) {c : Char} (sign : Scan.continuesName c = false) : c ∉ name.toList := by
  intro inside
  simp [isName.continues c inside] at sign

theorem ne_of_sign (isName : IsName name) {word : String} {c : Char} (inside : c ∈ word.toList)
    (sign : Scan.continuesName c = false) : word ≠ name := by
  rintro rfl
  exact isName.plain sign inside

theorem ne_keyword (isName : IsName name) {word : String}
    (keyword : (Keyword.ofString? word).isSome) : word ≠ name := by
  rintro rfl
  simp [isName.notKeyword] at keyword

end IsName

/-! ## Types -/

namespace Ty

variable {known : String → SymbolId → Prop} {a b : Ty} {ps qs : List Ty}

/-- A type whose classes have the names that `known` gives them. -/
def Spelled (known : String → SymbolId → Prop) : Ty → Prop
  | array element => element.Spelled known
  | ofClass name id => known name id
  | _ => True

/-- No other type is spelled like a class. -/
theorem text_ne_name {name : String} (isName : IsName name) (other : a.classId? = none) : a.text ≠ name := by
  cases a with
  | int | double | boolean | any => exact isName.ne_keyword (by decide)
  | void | error => exact isName.ne_of_sign (c := '<') (by decide) (by decide)
  | array element => exact isName.ne_of_sign (c := '[') (by simp [text]) (by decide)
  | ofClass name id => cases other

theorem text_word (names : ∀ {name id}, known name id → IsName name) (spelled : a.Spelled known) :
    a.text.toList ≠ [] ∧ ',' ∉ a.text.toList := by
  induction a with
  | array element ih => simpa [text] using (ih spelled).2
  | ofClass name id =>
    exact ⟨mt String.toList_eq_nil_iff.mp (names spelled).nonempty, (names spelled).plain (by decide)⟩
  | _ => decide

/-- Where names tell classes apart, spellings tell types apart. -/
theorem text_inj (names : ∀ {name id}, known name id → IsName name)
    (unique : ∀ {name id id'}, known name id → known name id' → id = id') (spelled : a.Spelled known)
    (spelled' : b.Spelled known) (same : a.text = b.text) : a = b := by
  induction a generalizing b with
  | array element ih =>
    cases b with
    | array other =>
      have inner : element.text = other.text := by simpa [text] using same
      rw [@ih other spelled spelled' inner]
    | ofClass name id => exact absurd same (text_ne_name (names spelled') rfl)
    | _ => simp [text, ← String.toList_inj] at same
  | ofClass name id =>
    cases b with
    | ofClass name' id' =>
      obtain rfl : name = name' := same
      rw [unique spelled spelled']
    | _ => exact absurd same.symm (text_ne_name (names spelled) rfl)
  | _ =>
    cases b with
    | ofClass name id => exact absurd same (text_ne_name (names spelled') rfl)
    | array other => simp [text, ← String.toList_inj] at same
    | _ => first | rfl | simp [text] at same

theorem texts_inj (names : ∀ {name id}, known name id → IsName name)
    (unique : ∀ {name id id'}, known name id → known name id' → id = id') (spelled : ∀ p ∈ ps, p.Spelled known)
    (spelled' : ∀ q ∈ qs, q.Spelled known) (same : ps.map text = qs.map text) : ps = qs := by
  induction ps generalizing qs with
  | nil => exact (List.map_eq_nil_iff.mp same.symm).symm
  | cons p ps ih =>
    cases qs with
    | nil => cases same
    | cons q qs =>
      obtain ⟨first, rest⟩ := List.cons.inj same
      rw [text_inj names unique (spelled p List.mem_cons_self) (spelled' q List.mem_cons_self) first,
        ih (fun x inside => spelled x (List.mem_cons_of_mem _ inside))
          (fun x inside => spelled' x (List.mem_cons_of_mem _ inside)) rest]

end Ty

/-! ## Keys -/

/-- The key of a function tells its name and the types of its parameters. -/
theorem functionKey_inj {known : String → SymbolId → Prop} (names : ∀ {name id}, known name id → IsName name)
    (unique : ∀ {name id id'}, known name id → known name id' → id = id') {f g : String} (isName : IsName f)
    (isName' : IsName g) {ps qs : List Ty} (spelled : ∀ p ∈ ps, p.Spelled known)
    (spelled' : ∀ q ∈ qs, q.Spelled known) (same : functionKey f ps = functionKey g qs) : f = g ∧ ps = qs := by
  have words {ps : List Ty} (spelled : ∀ p ∈ ps, p.Spelled known) :
      ∀ x ∈ (ps.map Ty.text).map String.toList, x ≠ [] ∧ ',' ∉ x := by
    intro x inside
    rw [List.map_map] at inside
    obtain ⟨p, member, rfl⟩ := List.mem_map.mp inside
    exact Ty.text_word names (spelled p member)
  have chars := congrArg String.toList same
  simp only [functionKey, String.toList_append, String.toList_intercalate, List.append_assoc] at chars
  obtain ⟨nameSame, rest⟩ := append_cons_inj (a := '(') (isName.plain (by decide)) (isName'.plain (by decide)) chars
  have typesSame := intercalate_inj (words spelled) (words spelled') (List.append_cancel_right rest)
  refine ⟨String.toList_injective nameSame, Ty.texts_inj names unique spelled spelled' ?_⟩
  exact (List.map_inj_right fun _ _ => String.toList_injective).mp typesSame

/-- The functions of a name are not kept under the key of a function. -/
theorem overloadKey_ne {f name : String} (isName : IsName f) (ps : List Ty) : overloadKey name ≠ functionKey f ps := by
  intro same
  obtain ⟨c, first, starts⟩ := isName.starts
  obtain ⟨rest, letters⟩ := List.head?_eq_some_iff.mp first
  have chars := congrArg String.toList same
  simp only [overloadKey, functionKey, String.toList_append, letters, List.cons_append] at chars
  obtain ⟨rfl, _⟩ := List.cons.inj chars
  cases starts

theorem classKey_ne (name : String) : classKey name ≠ name := by
  intro same
  have longer := congrArg (fun s => s.toList.length) same
  simp [classKey, TypeName.signature] at longer

namespace TypeName

mutual

/-- A type name whose classes and template parameters have names. -/
def Written : TypeName → Prop
  | array element _ => element.Written
  | ofClass name arguments _ => IsName name ∧ WrittenAll arguments
  | parameter name _ _ => IsName name
  | _ => True

def WrittenAll : List TypeName → Prop
  | [] => True
  | first :: rest => first.Written ∧ WrittenAll rest

end

theorem text_nonempty {type : TypeName} (written : type.Written) : type.text ≠ "" := by
  cases type with
  | ofClass name arguments span =>
    cases arguments with
    | nil => exact written.1.nonempty
    | cons first rest => simp [text, written.1.nonempty]
  | parameter name owner span => exact IsName.nonempty written
  | array element span => simp [text]
  | _ => simp [text]

/-- A class without template arguments is declared under no other signature. -/
theorem signature_classKey {name display : String} {arguments : List TypeName} (isName : IsName name)
    (isName' : IsName display) (written : WrittenAll arguments) (same : signature name arguments = classKey display) :
    name = display ∧ arguments = [] := by
  have chars := congrArg String.toList same
  simp only [classKey, signature, String.toList_append, List.append_assoc] at chars
  obtain ⟨nameSame, rest⟩ := append_cons_inj (a := '<') (isName.plain (by decide)) (isName'.plain (by decide)) chars
  refine ⟨String.toList_injective nameSame, ?_⟩
  cases arguments with
  | nil => rfl
  | cons first others =>
    have empty := String.toList_injective (List.append_cancel_right rest)
    cases others <;> simp [texts, String.intercalate_cons_cons, text_nonempty written.1] at empty

end TypeName

end Quasicode
