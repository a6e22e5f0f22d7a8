import Errata.View
import Errata.Visit

/-! Walking the nodes below a node, each before those below it, in the order of filing: of a module types
before functions, of a type fields, then nested types, then methods. The path of a visit is made of the
names in the records, not of the names under which the nodes are filed; the two agree in a compiled tree. -/
namespace Errata

/-- A walk under way: the names down to the current node, and the visits so far. -/
structure Trail where
  path : Array String := #[]
  visits : Array Visit := #[]

namespace Trail

def enter (t : Trail) (place : Place) (kind : Kind) (record : Correction) : Trail :=
  let path := t.path.push record.name
  ⟨path, t.visits.push ⟨path.toList, place, kind, record⟩⟩

def leave (t : Trail) : Trail := { t with path := t.path.pop }

def visit (t : Trail) (place : Place) (kind : Kind) (record : Correction) (below : Trail → Trail) : Trail :=
  (below (t.enter place kind record)).leave

end Trail

def FieldCorrection.walkEach (place : Place) (fields : Option (NameMap FieldCorrection)) (t : Trail) : Trail :=
  (fields.elim [] (·.entries)).foldl
    (fun t (key, f) => t.visit (place ++ [⟨.field, key⟩]) .field (.field f) id) t

def FuncNode.walk (f : FuncNode) (place : Place) (t : Trail) : Trail :=
  f.params.entries.foldl
    (fun t (key, p) => t.visit (place ++ [⟨.param, key⟩]) .param (.param p) id) t

def FuncNode.walkEach (role : Role) (place : Place) (funcs : NameMap FuncNode) (t : Trail) : Trail :=
  funcs.entries.foldl
    (fun t (key, f) =>
      let place := place ++ [⟨role, key⟩]
      t.visit place .func (.func f.record) (f.walk place)) t

namespace TypeNode

def kind : TypeNode → Kind
  | .plain .. => .type
  | .com _ => .comType

mutual
def walk : TypeNode → Place → Trail → Trail
  | .plain _ fields none, place, t => FieldCorrection.walkEach place fields t
  | .plain _ fields (some ⟨names, ⟨types⟩⟩), place, t =>
    walkEach names.toList types .nested place (FieldCorrection.walkEach place fields t)
  | .com face, place, t => FuncNode.walkEach .method place face.methods t
def walkEach : List String → List TypeNode → Role → Place → Trail → Trail
  | key :: keys, n :: types, role, place, t =>
    let inner := place ++ [⟨role, key⟩]
    walkEach keys types role place (t.visit inner n.kind (.type n.record) (n.walk inner))
  | _, _, _, _, t => t
end

end TypeNode

def ApiNode.walk (a : ApiNode) (place : Place) (t : Trail) : Trail :=
  FuncNode.walkEach .func place a.funcs
    (TypeNode.walkEach a.types.keys a.types.values.toList .type place t)

/-- A module is entered under the name it is filed under, without a visit. -/
def Tree.walk (tree : Tree) (place : Place) (t : Trail) : Trail :=
  tree.apis.entries.foldl
    (fun t (key, a) =>
      (a.walk (place ++ [⟨.api, key⟩]) { t with path := t.path.push key }).leave) t

def Node.walk : Node → Place → Trail → Trail
  | .tree t => t.walk
  | .api a => a.walk
  | .type t => t.walk
  | .func f => f.walk
  | .field _ | .param _ => fun _ t => t

/-- The visits of a walk whose paths start with the name of the root, if it has one. -/
def Node.visits (n : Node) (place : Place) : List Visit :=
  (n.walk place { path := if n.name.isEmpty then #[] else #[n.name] }).visits.toList

namespace View

/-- Nothing is below what is missing. -/
def walk (v : View) (start : List String) : Trail :=
  let t : Trail := { path := start.toArray }
  match v.node?, v.place? with
  | some n, some place => n.walk place t
  | _, _ => t

def visits (v : View) : List Visit :=
  match v.node?, v.place? with
  | some n, some place => n.visits place
  | _, _ => []

end View
end Errata
