import Errata.Correction
import Errata.Kind
import Errata.Place

/-! What a walk reports of one node: the names down to it, where it is filed, its kind and its record. -/
namespace Errata

structure Visit where
  path : List String
  place : Place
  kind : Kind
  record : Correction
  deriving DecidableEq

def Kind.shape : Kind → Shape
  | .type => .type
  | .comType => .com
  | .func => .func
  | .field => .field
  | .param => .param

namespace Visit

def display (v : Visit) : String := v.kind.shape.display v.record.name

/-- Whether a visit below a tree is of a type of some module, or of something inside such a type. -/
def ofType (v : Visit) : Bool := v.place[1]?.any (·.role = .type)

def under (name : String) (v : Visit) : Visit := { v with path := name :: v.path }

end Visit
end Errata
