import Errata.Authoring

/-! A sheet lists corrections of free functions and of types, each for the module named in its record. -/
namespace Errata

structure Sheet where
  funcs : List FuncCorrection := []
  types : List TypeCorrection := []
  deriving DecidableEq

inductive SheetEdit where
  | func (f : FuncCorrection)
  | type (t : TypeCorrection)

def SheetEdit.api : SheetEdit → String
  | .func f => f.api
  | .type t => t.api

namespace Sheet

def isEmpty (s : Sheet) : Bool := s.funcs.isEmpty && s.types.isEmpty

def edit (s : Sheet) : SheetEdit → Sheet
  | .func f => { s with funcs := s.funcs ++ [f] }
  | .type t => { s with types := s.types ++ [t] }

def author (edits : List SheetEdit) : Sheet := edits.foldl edit {}

def records (s : Sheet) : List SheetEdit := s.types.map .type ++ s.funcs.map .func

def erase (s : Sheet) : SheetEdit → Sheet
  | .func f => { s with funcs := s.funcs.erase f }
  | .type t => { s with types := s.types.erase t }

/-- The corrections that are known to be needed: one type whose declaration has to go. -/
def known : Sheet :=
  author [.type (.author "WindowsAccessibility" "IUIAutomation6" [.remove])]

end Sheet
end Errata
