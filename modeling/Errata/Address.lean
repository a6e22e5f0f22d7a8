import Errata.Sheet.Search
import Errata.View

/-! Addresses made of names, by the shape of what they lead to: a type or a function of a module, types nested
in types, then a field, or a method of the interface form of a type, then a parameter. What such an address
has to lead to is said by a search of the sheet. -/
namespace Errata

inductive Address : Shape → Type where
  | type (api name : String) : Address .type
  | func (api name : String) : Address .func
  | nested (outer : Address .type) (name : String) : Address .type
  | field (owner : Address .type) (name : String) : Address .field
  | com (form : Address .type) : Address .com
  | method (face : Address .com) (name : String) : Address .func
  | param (owner : Address .func) (name : String) : Address .param

namespace Address

def hops : {σ : Shape} → Address σ → List Hop
  | _, .type api name => [.into .api api, .into .type name]
  | _, .func api name => [.into .api api, .into .func name]
  | _, .nested a name => a.hops ++ [.into .nested name]
  | _, .field a name => a.hops ++ [.into .field name]
  | _, .com a => a.hops ++ [.widen]
  | _, .method a name => a.hops ++ [.into .method name]
  | _, .param a name => a.hops ++ [.into .param name]

def place : {σ : Shape} → Address σ → Place
  | _, .type api name => [⟨.api, api⟩, ⟨.type, name⟩]
  | _, .func api name => [⟨.api, api⟩, ⟨.func, name⟩]
  | _, .nested a name => a.place ++ [⟨.nested, name⟩]
  | _, .field a name => a.place ++ [⟨.field, name⟩]
  | _, .com a => a.place
  | _, .method a name => a.place ++ [⟨.method, name⟩]
  | _, .param a name => a.place ++ [⟨.param, name⟩]

/-- The plain type whose interface form an address asks for: there is none, and the address ends there. -/
def refused (s : Sheet) : {σ : Shape} → Address σ → Option TypeCorrection
  | _, .com a =>
    match s.search? a.place with
    | some (.type t) => if t.isInterface then none else some t
    | _ => none
  | _, .method a _ => a.refused s
  | _, .param a _ => a.refused s
  | _, _ => none

end Address

/-- What is in view beside the record that was searched for: that record at its place, whole, or the stand-in
of its shape if there is none. -/
def View.Answers (v : View) (σ : Shape) (p : Place) : Option Correction → Prop
  | some c => v.isSentinel = false ∧ v.shape? = some σ ∧ v.place? = some p ∧ v.record? = some c
  | none => v = .absent σ

end Errata
