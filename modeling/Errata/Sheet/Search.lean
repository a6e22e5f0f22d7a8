import Errata.Place
import Errata.Sheet

/-! Searching a sheet for the record at a place, by going through the lists from the front. No tree and no
map is involved, so this says what the look-ups of a compiled tree have to find. -/
namespace Errata

/-- The record that a step leads to inside another record. -/
def Correction.child? : Correction → Step → Option Correction
  | .type t, ⟨.field, name⟩ => ((t.fields.getD []).find? (·.name = name)).map .field
  | .type t, ⟨.nested, name⟩ => ((t.nested.getD []).find? (·.name = name)).map .type
  | .type t, ⟨.method, name⟩ => ((t.methods.getD []).find? (·.name = name)).map .func
  | .func f, ⟨.param, name⟩ => (f.params.find? (·.name = name)).map .param
  | _, _ => none

namespace Sheet

def declared? (s : Sheet) (api : String) : Step → Option Correction
  | ⟨.type, name⟩ => (s.types.find? fun t => t.api = api ∧ t.name = name).map .type
  | ⟨.func, name⟩ => (s.funcs.find? fun f => f.api = api ∧ f.name = name).map .func
  | _ => none

/-- Only what is below a module has a record. -/
def search? (s : Sheet) : Place → Option Correction
  | ⟨.api, api⟩ :: step :: rest => (s.declared? api step).bind (rest.foldlM Correction.child?)
  | _ => none

end Sheet
end Errata
