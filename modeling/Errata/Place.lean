/-! Places: where in a tree a node is filed, as the steps from the root. Two nodes of one tree are the same
node exactly if their places are equal, whatever they record. What is not in the tree is one of the stand-ins
for what is missing. -/
namespace Errata

inductive Role where
  | api | type | func | field | nested | method | param
  deriving DecidableEq, Repr

/-- What a name can stand for; each shape has one empty stand-in for names that are not found. -/
inductive Shape where
  | api | type | com | func | field | param
  deriving DecidableEq, Repr

structure Step where
  role : Role
  name : String
  deriving DecidableEq, Repr

abbrev Place := List Step

/-- What two views share exactly if they are of one and the same thing. -/
inductive Identity where
  | placed (p : Place)
  | missing (shape : Shape)
  deriving DecidableEq

def Role.shape : Role → Shape
  | .api => .api
  | .type => .type
  | .func => .func
  | .field => .field
  | .nested => .type
  | .method => .func
  | .param => .param

namespace Shape

/-- The maps that a thing of this shape gives access to. An interface seen as such offers its methods under
either of their names. -/
def offers : Shape → Role → Bool
  | .api, .type | .api, .func => true
  | .type, .field | .type, .nested => true
  | .com, .field | .com, .nested | .com, .method | .com, .func => true
  | .func, .param => true
  | _, _ => false

def noun : Shape → String
  | .api => "Api"
  | .type | .com => "Type"
  | .func => "Function"
  | .field => "Field"
  | .param => "Parameter"

def display (s : Shape) (name : String) : String := s.noun ++ " '" ++ name ++ "'"

end Shape
end Errata
