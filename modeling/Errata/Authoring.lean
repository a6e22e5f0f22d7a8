import Errata.Correction

/-! Corrections written as a name followed by a chain of edits. Every edit sets a flag, replaces a text or
appends to one list, so the record at the end depends on each of these slots alone. -/
namespace Errata

inductive ParamEdit where
  | optional
  | constant

inductive FieldEdit where
  | retype (typeName : String)

inductive FuncEdit where
  | param (p : ParamCorrection)

inductive TypeEdit where
  | remove
  | interface
  | field (f : FieldCorrection)
  | nested (t : TypeCorrection)
  | method (m : FuncCorrection)

namespace ParamCorrection

def edit (p : ParamCorrection) : ParamEdit → ParamCorrection
  | .optional => { p with optional := true }
  | .constant => { p with constant := true }

def author (name : String) (edits : List ParamEdit) : ParamCorrection := edits.foldl edit { name }

end ParamCorrection

namespace FieldCorrection

def edit (f : FieldCorrection) : FieldEdit → FieldCorrection
  | .retype typeName => { f with typeName := some typeName }

def author (name : String) (edits : List FieldEdit) : FieldCorrection := edits.foldl edit { name }

end FieldCorrection

namespace FuncCorrection

def edit (f : FuncCorrection) : FuncEdit → FuncCorrection
  | .param p => { f with params := f.params ++ [p] }

def author (api name : String) (edits : List FuncEdit) : FuncCorrection := edits.foldl edit { api, name }

end FuncCorrection

namespace TypeCorrection

def declare {α : Type} (xs : Option (List α)) (x : α) : Option (List α) := some (xs.getD [] ++ [x])

/-- Marking a type as an interface declares its methods without adding one. -/
def edit (t : TypeCorrection) : TypeEdit → TypeCorrection
  | .remove => { t with remove := true }
  | .interface => { t with methods := some (t.methods.getD []) }
  | .field f => { t with fields := declare t.fields f }
  | .nested n => { t with nested := declare t.nested n }
  | .method m => { t with methods := declare t.methods m }

def author (api name : String) (edits : List TypeEdit) : TypeCorrection := edits.foldl edit { api, name }

end TypeCorrection
end Errata
