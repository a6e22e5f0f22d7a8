/-! Corrections to the metadata of an API, one record for each kind of declared thing. A correction of a
type describes either a plain type (fields and nested types) or an interface (methods); a list that was
never declared is absent, which is not the same as empty. Nothing is validated here. -/
namespace Errata

structure ParamCorrection where
  name : String := ""
  optional : Bool := false
  constant : Bool := false
  deriving DecidableEq, Repr

structure FieldCorrection where
  name : String := ""
  typeName : Option String := none
  deriving DecidableEq, Repr

structure FuncCorrection where
  api : String := ""
  name : String := ""
  params : List ParamCorrection := []
  deriving DecidableEq, Repr

structure TypeCorrection where
  api : String := ""
  name : String := ""
  remove : Bool := false
  fields : Option (List FieldCorrection) := none
  nested : Option (List TypeCorrection) := none
  methods : Option (List FuncCorrection) := none

/-- An interface is a type whose methods are declared, if only as an empty list. -/
def TypeCorrection.isInterface (t : TypeCorrection) : Bool := t.methods.isSome

mutual
def TypeCorrection.decEq : (a b : TypeCorrection) → Decidable (a = b)
  | ⟨api, name, remove, fields, none, methods⟩, ⟨api', name', remove', fields', none, methods'⟩ =>
    decidable_of_iff
      (api = api' ∧ name = name' ∧ remove = remove' ∧ fields = fields' ∧ methods = methods') (by simp)
  | ⟨_, _, _, _, none, _⟩, ⟨_, _, _, _, some _, _⟩ => isFalse (by simp)
  | ⟨_, _, _, _, some _, _⟩, ⟨_, _, _, _, none, _⟩ => isFalse (by simp)
  | ⟨api, name, remove, fields, some ts, methods⟩,
    ⟨api', name', remove', fields', some ts', methods'⟩ =>
    haveI := TypeCorrection.decEqEach ts ts'
    decidable_of_iff
      (api = api' ∧ name = name' ∧ remove = remove' ∧ fields = fields' ∧ ts = ts' ∧
        methods = methods') (by simp)
def TypeCorrection.decEqEach : (as bs : List TypeCorrection) → Decidable (as = bs)
  | [], [] => isTrue rfl
  | [], _ :: _ => isFalse (by simp)
  | _ :: _, [] => isFalse (by simp)
  | a :: as, b :: bs =>
    haveI := TypeCorrection.decEq a b
    haveI := TypeCorrection.decEqEach as bs
    decidable_of_iff (a = b ∧ as = bs) (by simp)
end

instance : DecidableEq TypeCorrection := TypeCorrection.decEq

inductive Correction where
  | type (t : TypeCorrection)
  | func (f : FuncCorrection)
  | field (f : FieldCorrection)
  | param (p : ParamCorrection)
  deriving DecidableEq

namespace Correction

def name : Correction → String
  | .type t => t.name
  | .func f => f.name
  | .field f => f.name
  | .param p => p.name

end Correction
end Errata
