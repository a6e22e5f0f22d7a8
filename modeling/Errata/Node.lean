import Errata.Place
import Errata.Tree

/-! A node of any kind, the maps it holds, and the node at a place below it. -/
namespace Errata

inductive Node where
  | tree (t : Tree)
  | api (a : ApiNode)
  | type (t : TypeNode)
  | func (f : FuncNode)
  | field (f : FieldCorrection)
  | param (p : ParamCorrection)

namespace Node

/-- The map that a role names, if the node has one: a map that was never declared is absent. -/
def held : Node → Role → Option (NameMap Node)
  | .tree t, .api => some (t.apis.map .api)
  | .api a, .type => some (a.types.map .type)
  | .api a, .func => some (a.funcs.map .func)
  | .type (.plain _ fields _), .field => fields.map (·.map .field)
  | .type (.plain _ _ nested), .nested => nested.map (·.map .type)
  | .type (.com face), .method => some (face.methods.map .func)
  | .func f, .param => some (f.params.map .param)
  | _, _ => none

def child? (n : Node) (s : Step) : Option Node := (n.held s.role).bind (·.find? s.name)
def at? (n : Node) (p : Place) : Option Node := p.foldlM child? n

def record? : Node → Option Correction
  | .tree _ | .api _ => none
  | .type t => some (.type t.record)
  | .func f => some (.func f.record)
  | .field f => some (.field f)
  | .param p => some (.param p)

/-- A tree has no shape of its own: nothing looks it up. -/
def shape? : Node → Option Shape
  | .tree _ => none
  | .api _ => some .api
  | .type _ => some .type
  | .func _ => some .func
  | .field _ => some .field
  | .param _ => some .param

def name : Node → String
  | .api a => a.name
  | n => (n.record?.map Correction.name).getD ""

def display (n : Node) : String := n.shape?.elim "" (·.display n.name)

def isInterface : Node → Bool
  | .type (.com _) => true
  | _ => false

end Node
end Errata
