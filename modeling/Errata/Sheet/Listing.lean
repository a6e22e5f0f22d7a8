import Errata.Sheet
import Errata.Visit

/-! The records of a sheet one by one, module by module: the types of a module before its functions, and
after each record what is declared inside it, in the order of declaration. -/
namespace Errata

def ParamCorrection.listed (path : List String) (place : Place) (p : ParamCorrection) : Visit :=
  ⟨path ++ [p.name], place ++ [⟨.param, p.name⟩], .param, .param p⟩

def FieldCorrection.listed (path : List String) (place : Place) (f : FieldCorrection) : Visit :=
  ⟨path ++ [f.name], place ++ [⟨.field, f.name⟩], .field, .field f⟩

def FuncCorrection.listing (role : Role) (path : List String) (place : Place) (f : FuncCorrection) :
    List Visit :=
  let path := path ++ [f.name]
  let place := place ++ [⟨role, f.name⟩]
  ⟨path, place, .func, .func f⟩ :: f.params.map (·.listed path place)

namespace TypeCorrection

def kind (t : TypeCorrection) : Kind := if t.isInterface then .comType else .type

def around (t : TypeCorrection) (path : List String) (place : Place) (nested : List Visit) : List Visit :=
  ⟨path, place, t.kind, .type t⟩ :: (t.fields.getD []).map (·.listed path place)
    ++ nested ++ (t.methods.getD []).flatMap (·.listing .method path place)

mutual
def listing (role : Role) (path : List String) (place : Place) : TypeCorrection → List Visit
  | ⟨api, name, remove, fields, none, methods⟩ =>
    around ⟨api, name, remove, fields, none, methods⟩ (path ++ [name]) (place ++ [⟨role, name⟩]) []
  | ⟨api, name, remove, fields, some ts, methods⟩ =>
    around ⟨api, name, remove, fields, some ts, methods⟩ (path ++ [name]) (place ++ [⟨role, name⟩])
      (listingEach .nested (path ++ [name]) (place ++ [⟨role, name⟩]) ts)
def listingEach (role : Role) (path : List String) (place : Place) : List TypeCorrection → List Visit
  | [] => []
  | t :: ts => t.listing role path place ++ listingEach role path place ts
end

end TypeCorrection

namespace SheetEdit

def step : SheetEdit → Step
  | .func f => ⟨.func, f.name⟩
  | .type t => ⟨.type, t.name⟩

def place (r : SheetEdit) : Place := [⟨.api, r.api⟩, r.step]

/-- A record at the top of a sheet, and after it what is declared inside it. -/
def listing : SheetEdit → List Visit
  | .func f => f.listing .func [f.api] [⟨.api, f.api⟩]
  | .type t => t.listing .type [t.api] [⟨.api, t.api⟩]

end SheetEdit

namespace Sheet

/-- The modules that a sheet names, in the order of first mention: functions are read before types. -/
def modules (s : Sheet) : List String := (s.funcs.map (·.api) ++ s.types.map (·.api)).eraseDups

def typesOf (s : Sheet) (api : String) : List TypeCorrection := s.types.filter (·.api = api)
def funcsOf (s : Sheet) (api : String) : List FuncCorrection := s.funcs.filter (·.api = api)

def listingOf (s : Sheet) (api : String) : List Visit :=
  (s.typesOf api).flatMap (·.listing .type [api] [⟨.api, api⟩])
    ++ (s.funcsOf api).flatMap (·.listing .func [api] [⟨.api, api⟩])

def listing (s : Sheet) : List Visit := s.modules.flatMap s.listingOf

end Sheet
end Errata
