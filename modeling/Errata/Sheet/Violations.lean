import Errata.Fault
import Errata.Sheet

/-! Everything that is wrong with a sheet, in the order in which it is met: a sheet compiles if nothing is,
and the first of its violations is the refusal otherwise. A record comes with the violations inside it,
and a name that repeats one of an elder sibling comes after the violations inside the record that bears it. -/
namespace Errata

namespace Violations

def unnamed (part : Part) (name : String) : List Fault :=
  if name.isEmpty then [.malformed (.unnamed part)] else []

def repeated (scope : String) (elders : List String) (name : String) : List Fault :=
  if name ∈ elders then [.duplicate scope name] else []

/-- The violations among the children of one parent, each given by its name and the violations inside. -/
def among (scope : String) : List String → List (String × List Fault) → List Fault
  | _, [] => []
  | elders, (name, inside) :: rest =>
    inside ++ repeated scope elders name ++ among scope (elders ++ [name]) rest

end Violations

open Violations

def ParamCorrection.violations (p : ParamCorrection) : List Fault := unnamed .param p.name
def FieldCorrection.violations (f : FieldCorrection) : List Fault := unnamed .field f.name

def FuncCorrection.violations (scope : String) (f : FuncCorrection) : List Fault :=
  unnamed .func f.name ++ among (within scope f.name) [] (f.params.map fun p => (p.name, p.violations))

namespace TypeCorrection

/-- An interface that declares fields or nested types, if only as an empty list. -/
def isMixed (t : TypeCorrection) : Bool := t.isInterface && (t.fields.isSome || t.nested.isSome)

def violationsAround (t : TypeCorrection) (scope : String) (nested : List (String × List Fault)) :
    List Fault :=
  let inner := within scope t.name
  unnamed .type t.name ++ (if t.isMixed then [.malformed (.mixedInterface inner)] else [])
    ++ among inner [] ((t.methods.getD []).map fun m => (m.name, m.violations inner))
    ++ among inner [] ((t.fields.getD []).map fun f => (f.name, f.violations))
    ++ among inner [] nested

mutual
def violations (scope : String) : TypeCorrection → List Fault
  | ⟨api, name, remove, fields, none, methods⟩ =>
    violationsAround ⟨api, name, remove, fields, none, methods⟩ scope []
  | ⟨api, name, remove, fields, some ts, methods⟩ =>
    violationsAround ⟨api, name, remove, fields, some ts, methods⟩ scope
      (violationsEach (within scope name) ts)
def violationsEach (scope : String) : List TypeCorrection → List (String × List Fault)
  | [] => []
  | t :: ts => (t.name, t.violations scope) :: violationsEach scope ts
end

end TypeCorrection

namespace Violations

/-- The violations among the top-level records of one sort, each given by its module, its name and the
violations inside; siblings are those of one module. -/
def top : List (String × String) → List (String × String × List Fault) → List Fault
  | _, [] => []
  | elders, (api, name, inside) :: rest =>
    inside ++ (if (api, name) ∈ elders then [.duplicate api name] else [])
      ++ top (elders ++ [(api, name)]) rest

end Violations

namespace Sheet

def violations (s : Sheet) : List Fault :=
  top [] (s.funcs.map fun f => (f.api, f.name, unnamed .funcModule f.api ++ f.violations f.api))
    ++ top [] (s.types.map fun t => (t.api, t.name, unnamed .typeModule t.api ++ t.violations t.api))

end Sheet
end Errata
