/-! The kinds that visits and reports tell apart, and a cursor that takes them from both ends. -/
namespace Errata

inductive Kind where
  | type | comType | func | field | param
  deriving DecidableEq, Repr

namespace Kind

def label : Kind → String
  | .type => "Type"
  | .comType => "ComType"
  | .func => "Func"
  | .field => "Field"
  | .param => "Param"

def all : List Kind := [.type, .comType, .func, .field, .param]

theorem mem_all (k : Kind) : k ∈ all := by cases k <;> decide

structure Cursor where
  left : List Kind := all

namespace Cursor

def next (c : Cursor) : Option Kind × Cursor := (c.left.head?, ⟨c.left.tail⟩)
def back (c : Cursor) : Option Kind × Cursor := (c.left.getLast?, ⟨c.left.dropLast⟩)

/-- Skips `n` kinds and takes the next; skipping past the end takes the rest away. -/
def nth (c : Cursor) (n : Nat) : Option Kind × Cursor := next ⟨c.left.drop n⟩

end Cursor
end Kind
end Errata
