import Quasicode.Symbol.Table
import Quasicode.Text.Json

/-!
The JSON document of a table. Scopes and symbols stand in the order of their creation, the names of a scope
in alphabetical order. The fields of a variable follow the kind of its symbol in one object, so there the
name `kind` stands twice.
-/
namespace Quasicode

def SymbolId.toJson (id : SymbolId) : Json := .nat id.index

def ScopeId.toJson (id : ScopeId) : Json := .nat id.index

def Ty.toJson (ty : Ty) : Json := .string ty.text

def Status.text : Status → String
  | unset => "Uninit"
  | declaring => "Initing"
  | ordering => "GlobalIniting"
  | pending => "FieldIniting"
  | ready => "FinishedInit"

def VariableKind.text : VariableKind → String
  | globalVar => "Global"
  | localVar => "Local"
  | instanceField => "Instance"
  | staticField => "StaticVar"

def Visibility.text : Visibility → String
  | exposed => "Public"
  | hidden => "Private"

/-- The name of a kind of symbol. -/
def SymbolKind.text : SymbolKind → String
  | .variable _ => "Variable"
  | globalVariable _ _ => "GlobalVariable"
  | function _ => "Function"
  | method _ => "Method"
  | overloads _ => "FunctionName"
  | cls _ => "Class"
  | className _ => "ClassName"

/-! ## Symbols -/

def VariableSymbol.toFields (var : VariableSymbol) : List (String × Json) := [
  ("ty", .optional Ty.toJson var.type),
  ("status", .string var.status.text),
  ("kind", .string var.kind.text),
  ("visibility", .string var.visibility.text)]

def GlobalSite.toJson (site : GlobalSite) : Json := .object [
  ("stmt", .nat site.item),
  ("part", .nat site.part)]

def FunctionSymbol.toFields (f : FunctionSymbol) : List (String × Json) := [
  ("return_type", f.returns.toJson),
  ("param_types", .list Ty.toJson f.params),
  ("min_args", .nat f.minArgs),
  ("max_args", .nat f.maxArgs)]

def MethodSymbol.toFields (m : MethodSymbol) : List (String × Json) := [
  ("function", .object m.function.toFields),
  ("within_class", m.owner.toJson),
  ("is_static", .bool m.isStatic),
  ("visibility", .string m.visibility.text),
  ("is_constructor", .bool m.isConstructor),
  ("overrided_by", .list SymbolId.toJson m.overriders),
  ("finished_init", .bool m.ready)]

def OverloadSet.toFields (set : OverloadSet) : List (String × Json) := [
  ("is_for_methods", .bool set.forMethods),
  ("belonging_functions", .list SymbolId.toJson set.functions)]

def ClassSymbol.toFields (c : ClassSymbol) : List (String × Json) := [
  ("display_name", .string c.displayName),
  ("non_signature_name", .string c.plainName),
  ("builtin", .bool c.builtin),
  ("class_scope", c.scope.toJson),
  ("upper_class", .optional SymbolId.toJson c.upper),
  ("parent_of", .list SymbolId.toJson c.children),
  ("depth", .optional Json.nat c.depth),
  ("runtime_id", .nat c.runtimeId),
  ("methods", .list SymbolId.toJson c.methods),
  ("fields", .list SymbolId.toJson c.fields)]

def SymbolKind.toFields : SymbolKind → List (String × Json)
  | .variable var => var.toFields
  | globalVariable var site => [("variable", .object var.toFields), ("site", site.toJson)]
  | function f => f.toFields
  | method m => m.toFields
  | overloads set => set.toFields
  | cls c => c.toFields
  | className builtin => [("builtin", .bool builtin)]

def SymbolKind.toJson (kind : SymbolKind) : Json :=
  .object (("kind", .string kind.text) :: kind.toFields)

def Symbol.toJson (s : Symbol) : Json := .object [
  ("id", s.id.toJson),
  ("name", .string s.name),
  ("belongs_to", s.scope.toJson),
  ("kind", s.kind.toJson)]

/-! ## The table -/

/-- The names of a scope in alphabetical order, with their symbols. -/
def Scope.sorted (scope : Scope) : List (String × SymbolId) :=
  scope.names.mergeSort fun a b => !decide (b.1 < a.1)

def Scope.toJson (scope : Scope) : Json := .object [
  ("parent", .optional ScopeId.toJson scope.parent),
  ("symbols", .object (scope.sorted.map fun (name, id) => (name, id.toJson)))]

def Table.toJson (t : Table) : Json := .object [
  ("scopes", .list Scope.toJson t.scopes.toList),
  ("symbols", .list Symbol.toJson t.symbols.toList)]

end Quasicode
