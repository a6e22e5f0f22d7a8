import Errata.Sheet

/-! What a chain of edits says of each slot of a record, read off the chain without making the record, and which
records such chains can make. A chain can declare a list only by adding to it, the methods of an interface apart. -/
namespace Errata

def FuncEdit.param? : FuncEdit → Option ParamCorrection
  | .param p => some p

namespace TypeEdit

def isRemove : TypeEdit → Bool
  | .remove => true
  | _ => false

def makesInterface : TypeEdit → Bool
  | .interface | .method _ => true
  | _ => false

def field? : TypeEdit → Option FieldCorrection
  | .field f => some f
  | _ => none

def nested? : TypeEdit → Option TypeCorrection
  | .nested n => some n
  | _ => none

def method? : TypeEdit → Option FuncCorrection
  | .method m => some m
  | _ => none

end TypeEdit

namespace SheetEdit

def func? : SheetEdit → Option FuncCorrection
  | .func f => some f
  | .type _ => none

def type? : SheetEdit → Option TypeCorrection
  | .type t => some t
  | .func _ => none

end SheetEdit

/-- What a record of a type says beside its module and its name, lists without elements and absent ones alike. -/
@[ext] structure TypeSlots where
  remove : Bool := false
  interface : Bool := false
  fields : List FieldCorrection := []
  nested : List TypeCorrection := []
  methods : List FuncCorrection := []
  deriving DecidableEq

def TypeSlots.ofEdits (edits : List TypeEdit) : TypeSlots where
  remove := edits.any (·.isRemove)
  interface := edits.any (·.makesInterface)
  fields := edits.filterMap TypeEdit.field?
  nested := edits.filterMap TypeEdit.nested?
  methods := edits.filterMap TypeEdit.method?

def TypeCorrection.slots (t : TypeCorrection) : TypeSlots where
  remove := t.remove
  interface := t.isInterface
  fields := t.fields.getD []
  nested := t.nested.getD []
  methods := t.methods.getD []

/-- What a record says after a chain of edits: a flag is set if it was asked for, and a list is absent if nothing asked
for it, else it has in order what was added to it. -/
structure TypeCorrection.Follows (t : TypeCorrection) (edits : List TypeEdit) : Prop where
  remove : t.remove = true ↔ .remove ∈ edits
  fields_absent : t.fields = none ↔ ∀ f, .field f ∉ edits
  fields_listed : ∀ fs ∈ t.fields, fs = edits.filterMap TypeEdit.field?
  nested_absent : t.nested = none ↔ ∀ n, .nested n ∉ edits
  nested_listed : ∀ ns ∈ t.nested, ns = edits.filterMap TypeEdit.nested?
  methods_absent : t.methods = none ↔ .interface ∉ edits ∧ ∀ m, .method m ∉ edits
  methods_listed : ∀ ms ∈ t.methods, ms = edits.filterMap TypeEdit.method?

/-! Records made by chains alone: the arguments of the chains are made by chains too. -/

inductive ParamCorrection.Authored : ParamCorrection → Prop where
  | author (name : String) (edits : List ParamEdit) : Authored (.author name edits)

inductive FieldCorrection.Authored : FieldCorrection → Prop where
  | author (name : String) (edits : List FieldEdit) : Authored (.author name edits)

inductive FuncCorrection.Authored : FuncCorrection → Prop where
  | author (api name : String) (edits : List FuncEdit) (params : ∀ p, .param p ∈ edits → p.Authored) :
    Authored (.author api name edits)

inductive TypeCorrection.Authored : TypeCorrection → Prop where
  | author (api name : String) (edits : List TypeEdit) (fields : ∀ f, .field f ∈ edits → f.Authored)
    (nested : ∀ n, .nested n ∈ edits → n.Authored) (methods : ∀ m, .method m ∈ edits → m.Authored) :
    Authored (.author api name edits)

namespace TypeCorrection

/-- Fields or nested types that are declared are not an empty list. -/
structure Filled (t : TypeCorrection) : Prop where
  fields : t.fields ≠ some []
  nested : t.nested ≠ some []

inductive FilledThroughout : TypeCorrection → Prop where
  | intro (t : TypeCorrection) (filled : t.Filled) (nested : ∀ n ∈ t.nested.getD [], n.FilledThroughout) :
    t.FilledThroughout

end TypeCorrection
end Errata
