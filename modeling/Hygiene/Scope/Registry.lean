import Hygiene.Scope.Store
import Hygiene.Value.Basic

/-!
# Compile-time bindings

What bindings mean at compile time: transformers, and values imported for compile-time code. Both are kept by binding,
so a transformer is visible exactly where its binding is.
-/

namespace Hygiene

/-- A transformer with what is known of its declaration. -/
structure Transformer where
  /-- The name it was declared under. -/
  name : String
  /-- The value of its initializer. -/
  value : Value
  /-- The module that declares it. -/
  module : String
  site : Site
  /-- The scope of the tokens that it introduces, from which its own binding is hidden. -/
  outputScope : Option ScopeId := none

/-- The transformers and the compile-time values of a run, by binding. -/
structure Registry where
  transformers : List (BindingId × Transformer) := []
  values : List (BindingId × Value) := []

namespace Registry

/-- Makes a binding mean a transformer. -/
def define (r : Registry) (id : BindingId) (t : Transformer) : Registry :=
  { r with transformers := Assoc.insert id t r.transformers }

/-- Makes a binding mean a value. -/
def defineValue (r : Registry) (id : BindingId) (value : Value) : Registry :=
  { r with values := Assoc.insert id value r.values }

/-- The transformer a binding means. -/
def transformer? (r : Registry) (id : BindingId) : Option Transformer := Assoc.get? id r.transformers

/-- The value a binding means. -/
def value? (r : Registry) (id : BindingId) : Option Value := Assoc.get? id r.values

/-- The transformer an identifier refers to. -/
def lookup (r : Registry) (store : Store) (ident : Token) : Option Transformer :=
  (store.resolveIdent ident).bind fun binding =>
    if binding.kind.isTransformer then r.transformer? binding.id else none

/-- How many bindings mean a transformer. -/
def count (r : Registry) : Nat := r.transformers.length

end Registry

end Hygiene
