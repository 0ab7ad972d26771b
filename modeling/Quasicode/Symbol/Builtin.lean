import Quasicode.Symbol.Table

/-! The classes that every program can use without declaring them. There is one, `String`. -/
namespace Quasicode.Builtin

def stringName : String := "String"

/-- The class names that are known before a program is read. -/
def classNames : List String := [stringName]

/-- The types that builtin methods take and give. -/
inductive BuiltinTy where
  | int
  | double
  | boolean
  | intArray
  | string
deriving DecidableEq, Repr

def BuiltinTy.toTy (string : Ty) : BuiltinTy → Ty
  | int => .int
  | double => .double
  | boolean => .boolean
  | intArray => .array .int
  | BuiltinTy.string => string

structure BuiltinMethod where
  name : String
  params : List BuiltinTy
  /-- The number of arguments before the first one that can be left out. -/
  required : Nat
  returns : BuiltinTy
  isStatic : Bool

/-- A method of an object, all of whose arguments are required. -/
def instanceMethod (name : String) (params : List BuiltinTy) (returns : BuiltinTy) : BuiltinMethod :=
  { name, params, required := params.length, returns, isStatic := false }

/-- A method of the class, all of whose arguments are required. -/
def staticMethod (name : String) (params : List BuiltinTy) (returns : BuiltinTy) : BuiltinMethod :=
  { name, params, required := params.length, returns, isStatic := true }

/-- The methods of `String`; the end of a substring can be left out. -/
def stringMethods : List BuiltinMethod :=
  [instanceMethod "charAt" [.int] .string,
   instanceMethod "codePointAt" [.int] .int,
   instanceMethod "length" [] .int,
   instanceMethod "contains" [.string] .boolean,
   instanceMethod "indexOf" [.string] .int,
   { name := "substring", params := [.int, .int], required := 1, returns := .string, isStatic := false },
   instanceMethod "toLowerCase" [] .string,
   instanceMethod "toUpperCase" [] .string,
   instanceMethod "replace" [.string, .string] .string,
   staticMethod "fromCharCode" [.int] .string,
   staticMethod "fromCharCodes" [.intArray] .string,
   staticMethod "valueOf" [.int] .string,
   staticMethod "valueOf" [.double] .string]

def declareMethod (cls : SymbolId) (scope : ScopeId) (t : Table) (method : BuiltinMethod) :
    Except Fault Table := do
  let string := Ty.ofClass stringName cls
  let params := method.params.map (BuiltinTy.toTy string)
  let symbol : MethodSymbol := {
    function := {
      returns := method.returns.toTy string
      params
      minArgs := method.required
      maxArgs := params.length }
    owner := cls
    isStatic := method.isStatic
    visibility := .exposed
    isConstructor := false
    ready := true }
  let (id, t) ← t.declare scope (functionKey method.name params) .none (.method symbol)
  let (set, t) ← t.overloadSet scope method.name .none true
  let t ← t.modify set (·.mapOverloads fun s => { s with functions := s.functions ++ [id] })
  t.modify cls (·.mapClass fun c => { c with methods := c.methods ++ [id] })

/-- Declares the builtin classes in the root scope; the id of `String`. -/
def declare (t : Table) : Except Fault (SymbolId × Table) := do
  let (_, t) ← t.declare .root stringName .none (.className true)
  let (scope, t) := t.createScope .root
  let (cls, t) ← t.declare .root (classKey stringName) .none
    (.cls { displayName := stringName, plainName := stringName, builtin := true, scope })
  let t ← stringMethods.foldlM (declareMethod cls scope) t
  return (cls, t)

end Quasicode.Builtin
