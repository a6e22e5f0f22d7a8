import Errata.Ledger
import Errata.Traversal

/-! Applying corrections. The reply to an action and the number of marks that it makes depend on the record alone,
and whether a mark counts depends on what is marked: a stand-in ignores every one of them. -/
namespace Errata

/-- What can be done with a correction: mark it by hand, or apply one of its parts to a given value. -/
inductive Action where
  | mark (times : Nat)
  | remove
  | retype (given : String)
  | optional (given : Bool)
  | constant (given : Bool)

inductive Reply where
  | done
  | flag (value : Bool)
  | text (value : String)
  deriving DecidableEq

/-- A reply, and how often the record is marked for it. -/
structure Outcome where
  reply : Reply
  marks : Nat

namespace Outcome

def flag (value : Bool) (marks : Nat) : Outcome := ⟨.flag value, marks⟩
def text (value : String) (marks : Nat) : Outcome := ⟨.text value, marks⟩

end Outcome

namespace TypeCorrection

def applyRemove (t : TypeCorrection) : Outcome := if t.remove then .flag true 1 else .flag false 0

end TypeCorrection

namespace FieldCorrection

/-- A replacement counts only if it differs from the given type. -/
def applyType (f : FieldCorrection) (given : String) : Outcome :=
  match f.typeName with
  | some typeName => if typeName ≠ given then .text typeName 1 else .text given 0
  | none => .text given 0

end FieldCorrection

namespace ParamCorrection

/-- A flag counts only if it was not given already. -/
def applyOptional (p : ParamCorrection) (given : Bool) : Outcome :=
  if p.optional && !given then .flag true 1 else .flag given 0

def applyConstant (p : ParamCorrection) (given : Bool) : Outcome :=
  if p.constant && !given then .flag true 1 else .flag given 0

end ParamCorrection

/-- Every action fits one kind of record, except that any can be marked. -/
def Correction.respond : Correction → Action → Option Outcome
  | _, .mark times => some ⟨.done, times⟩
  | .type t, .remove => some t.applyRemove
  | .field f, .retype given => some (f.applyType given)
  | .param p, .optional given => some (p.applyOptional given)
  | .param p, .constant given => some (p.applyConstant given)
  | _, _ => none

/-- A module has no record, but it can be marked. -/
def View.respond (v : View) (a : Action) : Option Outcome :=
  match v.record?, v.shape?, a with
  | some record, _, a => record.respond a
  | none, some _, .mark times => some ⟨.done, times⟩
  | _, _, _ => none

structure Marking where
  visited : Nat
  marked : Nat
  deriving DecidableEq

/-- A root, with the counts so far of what is below it and of the stand-ins. -/
structure Session where
  root : Node
  ledger : Ledger := .blank

namespace Session

def view (s : Session) : View := .root s.root

def tally (s : Session) (v : View) : Tally := s.ledger.tallyOf v.identity

def mark (s : Session) (v : View) (times : Nat) : Session :=
  if v.counts then { s with ledger := s.ledger.add v.identity times } else s

def perform (s : Session) (v : View) (a : Action) : Option (Reply × Session) :=
  (v.respond a).map fun o => (o.reply, s.mark v o.marks)

/-- What a visit at a place below the root marks. -/
def markAt (s : Session) (p : Place) : Session := (s.root.at? p).elim s fun n => s.mark (.node p n) 1

/-- Marks the visits below a view whose numbers are chosen, once each. -/
def markVisits (s : Session) (v : View) (chosen : Nat → Bool) : Marking × Session :=
  let visits := v.visits
  let marked := visits.zipIdx.filter (chosen ·.2)
  (⟨visits.length, marked.length⟩, marked.foldl (fun s (visit, _) => s.markAt visit.place) s)

end Session
end Errata
