/-! Symbols and scopes are named by their place in the order of declaration, which never changes. -/
namespace Quasicode

/-- The symbol that was declared after `index` others. -/
structure SymbolId where
  index : Nat
deriving DecidableEq, Repr, Inhabited

/-- The scope that was created after `index` others. -/
structure ScopeId where
  index : Nat
deriving DecidableEq, Repr, Inhabited

/-- The scope of top-level declarations. -/
def ScopeId.root : ScopeId := ⟨0⟩

end Quasicode
