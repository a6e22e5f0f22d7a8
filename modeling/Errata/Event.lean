import Errata.Kind

/-! What compiling and reviewing report beside their results. -/
namespace Errata

inductive Level where
  | debug | info | warn | error
  deriving DecidableEq, Repr

def Level.label : Level → String
  | .debug => "DEBUG"
  | .info => "INFO"
  | .warn => "WARN"
  | .error => "ERROR"

structure Unused where
  api : String
  kind : Kind
  path : String
  deriving DecidableEq, Repr

def Unused.text (u : Unused) : String :=
  u.kind.label ++ " patch '" ++ u.path ++ "' was never applied"

inductive Event where
  | compiled (modules nodes : Nat)
  | unused (level : Level) (entry : Unused)
  | allApplied (visited : Nat)
  deriving DecidableEq, Repr

namespace Event

def level : Event → Level
  | .compiled .. => .debug
  | .unused level _ => level
  | .allApplied _ => .info

def message : Event → String
  | .compiled .. => "built patch tree"
  | .unused _ entry => entry.text
  | .allApplied _ => "all patches were applied"

theorem report_unused (level : Level) (entries : List Unused) :
    (entries.map (unused level)).map (fun e => (e.level, e.message)) = entries.map fun u => (level, u.text) := by
  rw [List.map_map]
  rfl

end Event

/-- A result together with the events on the way to it, in order. -/
structure Logged (α : Type) where
  result : α
  events : List Event

end Errata
