import Errata.Node

/-! What an address leads to. Besides a node at its place there is an interface seen as such, and the empty
stand-ins: one for each shape, and the plain type behind the empty interface. A name that is not found leads
to the stand-in of its shape, and from there every name leads to another one. -/
namespace Errata

inductive View where
  | node (place : Place) (n : Node)
  | com (place : Place) (face : Interface)
  | absent (shape : Shape)
  | bare

/-- A step of an address: into a map, to the interface form of a type and back, or to a stand-in. -/
inductive Hop where
  | into (role : Role) (name : String)
  | widen
  | plain
  | sentinel (shape : Shape)

/-- Why an address leads nowhere: a refusal, or a step that a thing of that shape does not have. -/
inductive Halt where
  | refused (fault : Fault)
  | unsupported
  deriving DecidableEq

namespace View

def root (n : Node) : View := .node [] n

def shape? : View → Option Shape
  | .node _ n => n.shape?
  | .com .. => some .com
  | .absent shape => some shape
  | .bare => some .type

def place? : View → Option Place
  | .node p _ | .com p _ => some p
  | _ => none

/-- An interface and its plain form are one thing, also where both are missing. -/
def identity : View → Identity
  | .node p _ | .com p _ => .placed p
  | .absent shape => .missing shape
  | .bare => .missing .com

def node? : View → Option Node
  | .node _ n => some n
  | .com _ face => some (.type (.com face))
  | _ => none

def offers (v : View) (role : Role) : Bool :=
  match v.shape? with
  | some shape => shape.offers role
  | none => role = .api

/-- The functions of an interface are its methods. -/
def proper (v : View) (role : Role) : Role :=
  if v.shape? = some .com ∧ role = .func then .method else role

/-- The map that a role names; it is absent on every stand-in. -/
def held (v : View) (role : Role) : Option (NameMap Node) :=
  v.node?.bind (·.held (v.proper role))

def map (v : View) (role : Role) : NameMap Node := (v.held role).getD .empty

def seek (v : View) (role : Role) (name : String) (default : View) : View :=
  match v.place?, (v.held role).bind (·.find? name) with
  | some p, some n => .node (p ++ [⟨v.proper role, name⟩]) n
  | _, _ => default

def find (holder : Option View) (role : Role) (name : String) (default : View) : View :=
  holder.elim default (·.seek role name default)

/-- The interface form of a type. What was never declared has the empty interface for its form, and a
declared plain type has none. -/
def widen : View → Except Halt View
  | .node _ (.type (.plain record _ _)) => .error (.refused (.notInterface record.api record.name))
  | .node p (.type (.com face)) | .com p face => .ok (.com p face)
  | .absent .type | .absent .com | .bare => .ok (.absent .com)
  | _ => .error .unsupported

def plain : View → Except Halt View
  | .com p face => .ok (.node p (.type (.com face)))
  | .absent .com => .ok .bare
  | _ => .error .unsupported

def follow (v : View) : Hop → Except Halt View
  | .into role name =>
    if v.offers role then .ok (v.seek role name (.absent role.shape)) else .error .unsupported
  | .widen => v.widen
  | .plain => v.plain
  | .sentinel shape => .ok (.absent shape)

def followAll (v : View) (hops : List Hop) : Except Halt View := hops.foldlM follow v

/-- What is recorded of the thing in view; a missing one reads as an empty record. -/
def record? : View → Option Correction
  | .node _ n => n.record?
  | .com _ face => some (.type face.record)
  | .absent .api => none
  | .absent .type | .absent .com | .bare => some (.type {})
  | .absent .func => some (.func {})
  | .absent .field => some (.field {})
  | .absent .param => some (.param {})

def name (v : View) : String :=
  match v.node? with
  | some n => n.name
  | none => ""

def isInterface (v : View) : Bool := v.node?.any Node.isInterface

/-- A tree or a module is empty if nothing is filed in it, anything else if nothing was declared. -/
def isEmpty : View → Bool
  | .node _ (.tree t) => t.isEmpty
  | .node _ (.api a) => a.isEmpty
  | .node .. | .com .. => false
  | .absent _ | .bare => true

def isSentinel : View → Bool
  | .absent _ => true
  | _ => false

/-- Whether a mark counts: a module ignores it only if it is the stand-in itself, anything else if it is empty. -/
def counts (v : View) : Bool :=
  match v.shape? with
  | some .api => !v.isSentinel
  | _ => !v.isEmpty

def display (v : View) : String := v.shape?.elim "" (·.display v.name)

end View
end Errata
