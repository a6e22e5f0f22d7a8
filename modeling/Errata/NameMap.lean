import Errata.Fault
import Errata.Names

/-! Values filed under distinct names, in the order of filing. A look-up goes through the index of the
names; `entries` is the map as a list of pairs. -/
namespace Errata
universe u v

structure NameMap (V : Type u) where
  names : Names
  values : Array V

/-- What a look-up with a default came to. A stored value stays `stored` even if it equals the default. -/
inductive Answer (V : Type u) where
  | stored (value : V)
  | fallback (value : V)
  deriving DecidableEq

namespace Answer
variable {V : Type u}

def value : Answer V → V
  | .stored v => v
  | .fallback v => v
def isFallback : Answer V → Bool
  | .stored _ => false
  | .fallback _ => true

end Answer

namespace NameMap
variable {V : Type u} {W : Type v}

def empty : NameMap V := ⟨.empty, #[]⟩
def size (m : NameMap V) : Nat := m.values.size
def isEmpty (m : NameMap V) : Bool := m.values.isEmpty
def contains (m : NameMap V) (name : String) : Bool := m.names.contains name
def find? (m : NameMap V) (name : String) : Option V := (m.names.slot? name).bind (m.values[·]?)
def keys (m : NameMap V) : List String := m.names.toList
def entries (m : NameMap V) : List (String × V) := m.names.toList.zip m.values.toList
def map (f : V → W) (m : NameMap V) : NameMap W := ⟨m.names, m.values.map f⟩

/-- Files a value under a new name; the scope is only for the refusal of a name that is taken. -/
def insert (m : NameMap V) (scope name : String) (value : V) : Except Fault (NameMap V) :=
  if m.contains name then .error (.duplicate scope name)
  else .ok ⟨m.names.insert name, m.values.push value⟩

/-- Changes the value under a name in place; a new name is first filed with a fresh value. -/
def upsert (m : NameMap V) (name : String) (fresh : V) (f : V → V) : NameMap V :=
  match m.names.slot? name with
  | some i => { m with values := m.values.modify i f }
  | none => ⟨m.names.insert name, m.values.push (f fresh)⟩

def lookup (m : Option (NameMap V)) (name : String) (default : V) : Answer V :=
  match m.bind (·.find? name) with
  | some v => .stored v
  | none => .fallback default

def fetch (m : NameMap V) (name : String) (default : V) : Answer V := lookup (some m) name default

/-- Every name has its value and every value its name. -/
def Full (m : NameMap V) : Prop := m.names.size = m.values.size

end NameMap
end Errata
