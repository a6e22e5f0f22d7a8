import Errata.Correction
import Errata.NameMap

/-! The corrections of a sheet as a tree of nodes, each filed under its name: modules hold types and free
functions, plain types hold fields and nested types, interfaces hold methods, functions hold parameters.
A field or a parameter is its record and nothing else. A plain type tells a map that was never declared
from an empty one, and an interface has neither fields nor nested types by its form. -/
namespace Errata

structure FuncNode where
  record : FuncCorrection
  params : NameMap ParamCorrection

structure Interface where
  record : TypeCorrection
  methods : NameMap FuncNode

inductive TypeNode where
  | plain (record : TypeCorrection) (fields : Option (NameMap FieldCorrection))
      (nested : Option (NameMap TypeNode))
  | com (face : Interface)

structure ApiNode where
  name : String
  types : NameMap TypeNode := .empty
  funcs : NameMap FuncNode := .empty

/-- The modules, and the number of corrections below them. -/
structure Tree where
  apis : NameMap ApiNode := .empty
  size : Nat := 0

def TypeNode.record : TypeNode → TypeCorrection
  | .plain record _ _ => record
  | .com face => face.record

def ApiNode.isEmpty (a : ApiNode) : Bool := a.types.isEmpty && a.funcs.isEmpty
def Tree.isEmpty (t : Tree) : Bool := t.apis.isEmpty

end Errata
