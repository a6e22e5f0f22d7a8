import Errata.Place

/-! How often each correction was applied. The ledger is kept beside the tree: applying a correction changes one
count and leaves the tree alone. The stand-ins for what is missing have counts like anything else. Counts are
machine words and wrap. -/
namespace Errata

structure Tally where
  count : UInt32 := 0
  deriving DecidableEq

namespace Tally

def add (t : Tally) (n : Nat) : Tally := ⟨t.count + .ofNat n⟩
def isApplied (t : Tally) : Bool := t.count > 0

end Tally

@[ext] structure Ledger where
  tallyOf : Identity → Tally

namespace Ledger

def blank : Ledger := ⟨fun _ => {}⟩
def tally (l : Ledger) (p : Place) : Tally := l.tallyOf (.placed p)
def add (l : Ledger) (i : Identity) (n : Nat) : Ledger :=
  ⟨fun j => if j = i then (l.tallyOf i).add n else l.tallyOf j⟩

theorem tallyOf_add_self (l : Ledger) (i : Identity) (n : Nat) : (l.add i n).tallyOf i = (l.tallyOf i).add n := by
  simp [add]

theorem tallyOf_add_of_ne {l : Ledger} {i j : Identity} {n : Nat} (h : j ≠ i) :
    (l.add i n).tallyOf j = l.tallyOf j := by
  simp [add, h]

end Ledger
end Errata
