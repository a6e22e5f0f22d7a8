/-! Why a sheet of corrections, a widening or a review is refused, and the text of each refusal.
Nothing here decides when a refusal arises. -/
namespace Errata

inductive Part where
  | funcModule | func | param | typeModule | type | field
  deriving DecidableEq, Repr

def Part.phrase : Part → String
  | .funcModule => "function module"
  | .func => "function"
  | .param => "parameter"
  | .typeModule => "type module"
  | .type => "type"
  | .field => "field"

/-- The scope of the children of a named thing, as refusals name it. -/
def within (scope name : String) : String := scope ++ "." ++ name

/-- What is wrong with the writing of a sheet; `other` carries a text of its own. -/
inductive Malformation where
  | unnamed (part : Part)
  | mixedInterface (qualified : String)
  | other (text : String)
  deriving DecidableEq, Repr

def Malformation.message : Malformation → String
  | .unnamed part => "Empty " ++ part.phrase ++ " name in patch table"
  | .mixedInterface qualified =>
    "Interface override '" ++ qualified ++ "' declares fields or nested types"
  | .other text => text

inductive Fault where
  | duplicate (scope name : String)
  | malformed (what : Malformation)
  | notInterface (api name : String)
  | unused (count : Nat)
  deriving DecidableEq, Repr

namespace Fault

def message : Fault → String
  | .duplicate scope name => "Duplicate patch '" ++ name ++ "' in '" ++ scope ++ "'"
  | .malformed what => what.message
  | .notInterface api name =>
    "A COM type is being patched as a non-COM type - " ++ api ++ "." ++ name
  | .unused count => toString count ++ " patch(es) were never applied"

structure Site where
  file : String
  line : Nat

/-- The text of a refusal as shown to people: only a malformation names the place of its report. -/
def display (site : Site) : Fault → String
  | .malformed what =>
    "Malformed - " ++ site.file ++ ":" ++ toString site.line ++ ": " ++ what.message
  | fault => fault.message

end Fault
end Errata
