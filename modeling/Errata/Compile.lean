import Errata.Event
import Errata.Sheet
import Errata.Tree

/-! From a sheet to its tree. Functions are filed before types and both in the order of the sheet; the
first violation met on the way is the answer. A record is compiled whole before its own name is filed, so
a violation inside a repeated record wins over the repetition. -/
namespace Errata

/-- A compilation that may be refused and counts the corrections it files. -/
abbrev Counting := StateT Nat (Except Fault)

namespace Counting

def tick : Counting Unit := modify (· + 1)

def ensureNamed (part : Part) (name : String) : Counting Unit :=
  if name.isEmpty then throw (.malformed (.unnamed part)) else pure ()

def fill {V : Type} (scope : String) :
    List (String × Counting V) → NameMap V → Counting (NameMap V)
  | [], m => pure m
  | (name, compile) :: rest, m => do
    let child ← compile
    let m ← m.insert scope name child
    fill scope rest m

end Counting

open Counting

def ParamCorrection.compile (p : ParamCorrection) : Counting ParamCorrection := do
  ensureNamed .param p.name
  tick
  return p

def FieldCorrection.compile (f : FieldCorrection) : Counting FieldCorrection := do
  ensureNamed .field f.name
  tick
  return f

def FuncCorrection.compile (scope : String) (f : FuncCorrection) : Counting FuncNode := do
  ensureNamed .func f.name
  let params ← fill (within scope f.name) (f.params.map fun p => (p.name, p.compile)) .empty
  tick
  return ⟨f, params⟩

namespace TypeCorrection

def assemble (t : TypeCorrection) (scope : String) (nested : Option (List (String × Counting TypeNode))) :
    Counting TypeNode := do
  ensureNamed .type t.name
  let inner := within scope t.name
  match t.methods with
  | some methods =>
    if t.fields.isSome || t.nested.isSome then
      throw (.malformed (.mixedInterface inner))
    let methods ← fill inner (methods.map fun m => (m.name, m.compile inner)) .empty
    tick
    return .com ⟨t, methods⟩
  | none =>
    let fields ← t.fields.mapM fun fields =>
      fill inner (fields.map fun f => (f.name, f.compile)) .empty
    let nested ← nested.mapM fun nested => fill inner nested .empty
    tick
    return .plain t fields nested

mutual
def compile (scope : String) : TypeCorrection → Counting TypeNode
  | ⟨api, name, remove, fields, none, methods⟩ =>
    assemble ⟨api, name, remove, fields, none, methods⟩ scope none
  | ⟨api, name, remove, fields, some ts, methods⟩ =>
    assemble ⟨api, name, remove, fields, some ts, methods⟩ scope
      (some (compileEach (within scope name) ts))
def compileEach (scope : String) : List TypeCorrection → List (String × Counting TypeNode)
  | [] => []
  | t :: ts => (t.name, t.compile scope) :: compileEach scope ts
end

end TypeCorrection

namespace Tree

/-- A module comes into being with the first correction that names it. -/
def api (t : Tree) (name : String) : ApiNode := (t.apis.find? name).getD { name }

def fileFunc (t : Tree) (f : FuncCorrection) : Except Fault Tree := do
  let (node, size) ← (ensureNamed .funcModule f.api *> f.compile f.api).run t.size
  let funcs ← (t.api f.api).funcs.insert f.api f.name node
  return ⟨t.apis.upsert f.api { name := f.api } ({ · with funcs }), size⟩

def fileType (t : Tree) (c : TypeCorrection) : Except Fault Tree := do
  let (node, size) ← (ensureNamed .typeModule c.api *> c.compile c.api).run t.size
  let types ← (t.api c.api).types.insert c.api c.name node
  return ⟨t.apis.upsert c.api { name := c.api } ({ · with types }), size⟩

end Tree

namespace Sheet

def toTree (s : Sheet) : Except Fault Tree := do
  let t ← s.funcs.foldlM Tree.fileFunc {}
  s.types.foldlM Tree.fileType t

/-- Only a sheet that compiles is reported. -/
def compile (s : Sheet) : Logged (Except Fault Tree) :=
  match s.toTree with
  | .ok t => ⟨.ok t, [.compiled t.apis.size t.size]⟩
  | .error fault => ⟨.error fault, []⟩

end Sheet
end Errata
