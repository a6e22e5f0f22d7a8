import Errata.Sheet.Listing
import Errata.Sheet.Search
import Errata.View

/-! Addresses made of look-ups, told without a tree: which shapes they go through, which of them a sheet declares,
and which of them a path stands for. -/
namespace Errata

def Hop.isLookUp : Hop → Bool
  | .into .. | .widen => true
  | .plain | .sentinel _ => false

namespace Shape

def proper (σ : Shape) (role : Role) : Role := if σ = .com ∧ role = .func then .method else role

/-- The shape that a look-up leads to, if a thing of this shape offers it. -/
def after? (σ : Shape) : Hop → Option Shape
  | .into role _ => if σ.offers role then some role.shape else none
  | .widen => if σ = .type ∨ σ = .com then some .com else none
  | .plain | .sentinel _ => none

def afterAll? (σ : Shape) (hops : List Hop) : Option Shape := hops.foldlM after? σ

/-- The record that a missing thing reads as. -/
def blank? : Shape → Option Correction
  | .api => none
  | .type | .com => some (.type {})
  | .func => some (.func {})
  | .field => some (.field {})
  | .param => some (.param {})

end Shape

/-- Every name of an address is declared on the sheet, and the interface forms are those of interfaces. With the
address come the shape and the place of what it names. -/
inductive Sheet.Declares (s : Sheet) : List Hop → Shape → Place → Prop where
  | module {api : String} (h : api ∈ s.modules) : Declares s [.into .api api] .api [⟨.api, api⟩]
  | into {hops : List Hop} {σ : Shape} {p : Place} {role : Role} {name : String} {c : Correction}
    (outer : Declares s hops σ p) (offered : σ.offers role = true)
    (h : s.search? (p ++ [⟨σ.proper role, name⟩]) = some c) :
    Declares s (hops ++ [.into role name]) role.shape (p ++ [⟨σ.proper role, name⟩])
  | widen {hops : List Hop} {σ : Shape} {p : Place} {t : TypeCorrection} (form : Declares s hops σ p)
    (h : s.search? p = some (.type t)) (interface : t.isInterface = true) : Declares s (hops ++ [.widen]) .com p

namespace Kind

/-- An interface counts as the type that it is. -/
def plain : Kind → Kind
  | .comType => .type
  | kind => kind

def typeRoute : List String → List Hop
  | api :: name :: inner => .into .api api :: .into .type name :: inner.map (.into .nested)
  | path => path.map (.into .api)

def lastInto (route : List String → List Hop) (role : Role) (path : List String) : List Hop :=
  route path.dropLast ++ (path.getLast?.map (.into role)).toList

/-- Two names are a module and its function; more than two end in a method of an interface. -/
def funcRoute (path : List String) : List Hop :=
  if path.length = 2 then lastInto typeRoute .func path else lastInto (typeRoute · ++ [.widen]) .method path

/-- The address that the path of a visit of this kind stands for. -/
def route : Kind → List String → List Hop
  | .type | .comType => typeRoute
  | .func => funcRoute
  | .field => lastInto typeRoute .field
  | .param => lastInto funcRoute .param

end Kind
end Errata
