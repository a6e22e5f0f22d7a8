import Errata.Sheet
import Errata.View
import Errata.Visit

/-! A type names its module, and so does a free function. What is inside a type belongs where the type belongs, and
the module that its own record names is struck out here, at all depths and wherever records are kept. What is left is
what may be told apart. -/
namespace Errata

/-- Whether a record under this role belongs to the module that it names. -/
def Role.isOuter : Role → Bool
  | .nested | .method => false
  | .api | .type | .func | .field | .param => true

def Place.isOuter (p : Place) : Bool := p.getLast?.all (·.role.isOuter)

def FuncCorrection.redact (outer : Bool) (f : FuncCorrection) : FuncCorrection :=
  { f with api := if outer then f.api else "" }

namespace TypeCorrection

mutual
def redact (outer : Bool) : TypeCorrection → TypeCorrection
  | ⟨api, name, remove, fields, none, methods⟩ =>
    ⟨if outer then api else "", name, remove, fields, none, methods.map (·.map (·.redact false))⟩
  | ⟨api, name, remove, fields, some ts, methods⟩ =>
    ⟨if outer then api else "", name, remove, fields, some (redactEach ts), methods.map (·.map (·.redact false))⟩
def redactEach : List TypeCorrection → List TypeCorrection
  | [] => []
  | t :: ts => t.redact false :: redactEach ts
end

end TypeCorrection

def Correction.redact (outer : Bool) : Correction → Correction
  | .type t => .type (t.redact outer)
  | .func f => .func (f.redact outer)
  | .field f => .field f
  | .param p => .param p

/-- The records at the top keep their modules. -/
def Sheet.redact (s : Sheet) : Sheet := { s with types := s.types.map (·.redact true) }

def Visit.redact (v : Visit) : Visit := { v with record := v.record.redact v.place.isOuter }

def FuncNode.redact (outer : Bool) (f : FuncNode) : FuncNode := { f with record := f.record.redact outer }

def Interface.redact (outer : Bool) (face : Interface) : Interface :=
  ⟨face.record.redact outer, face.methods.map (·.redact false)⟩

namespace TypeNode

mutual
def redact (outer : Bool) : TypeNode → TypeNode
  | .plain record fields none => .plain (record.redact outer) fields none
  | .plain record fields (some ⟨names, ⟨types⟩⟩) =>
    .plain (record.redact outer) fields (some ⟨names, ⟨redactEach types⟩⟩)
  | .com face => .com (face.redact outer)
def redactEach : List TypeNode → List TypeNode
  | [] => []
  | n :: ns => n.redact false :: redactEach ns
end

end TypeNode

def ApiNode.redact (a : ApiNode) : ApiNode := { a with types := a.types.map (·.redact true) }
def Tree.redact (t : Tree) : Tree := { t with apis := t.apis.map (·.redact) }

def Node.redact (outer : Bool) : Node → Node
  | .tree t => .tree t.redact
  | .api a => .api a.redact
  | .type t => .type (t.redact outer)
  | .func f => .func (f.redact outer)
  | .field f => .field f
  | .param p => .param p

def View.redact : View → View
  | .node p n => .node p (n.redact p.isOuter)
  | .com p face => .com p (face.redact p.isOuter)
  | .absent shape => .absent shape
  | .bare => .bare

def Halt.redact : Halt → Halt
  | .refused (.notInterface _ name) => .refused (.notInterface "" name)
  | halt => halt

/-- Two addresses, or one in two trees, that come to the same but for what is struck out. -/
def View.Alike (reached reached' : Except Halt View) : Prop :=
  (∃ v v', reached = .ok v ∧ reached' = .ok v' ∧ v.redact = v'.redact) ∨
    ∃ halt halt', reached = .error halt ∧ reached' = .error halt' ∧ halt.redact = halt'.redact

end Errata
