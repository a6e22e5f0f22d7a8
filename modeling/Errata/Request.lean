import Errata.Session
import Mathlib.Algebra.GroupWithZero.Nat

/-! Requests: an action at the end of an address. A session serves them one after the other, and a request that
leads nowhere, or to something that its action does not fit, changes nothing. What was applied can be told from
outside, by the replies alone. -/
namespace Errata

structure Request where
  hops : List Hop
  action : Action

/-- The actions that a thing of this shape offers, be it there or missing. -/
def Shape.takes : Shape → Action → Bool
  | _, .mark _ => true
  | .type, .remove | .com, .remove => true
  | .field, .retype _ => true
  | .param, .optional _ | .param, .constant _ => true
  | _, _ => false

namespace Action

/-- The applications that a reply shows: all that were asked for by a mark, and one by any other action if the
reply is not what was given to it. -/
def shown : Action → Reply → Nat
  | .mark times, _ => times
  | .remove, reply => if reply = .flag true then 1 else 0
  | .retype given, reply => if reply = .text given then 0 else 1
  | .optional given, reply | .constant given, reply => if reply = .flag given then 0 else 1

/-- The reply of an action that leaves everything as it was given. -/
def idle : Action → Reply
  | .mark _ => .done
  | .remove => .flag false
  | .retype given => .text given
  | .optional given | .constant given => .flag given

end Action

namespace Request

def view (root : Node) (q : Request) : Except Halt View := (View.root root).followAll q.hops

def place? (root : Node) (q : Request) : Option Place := (q.view root).toOption.bind View.place?

def shownAt (root : Node) (p : Place) (q : Request) : Except Halt Reply → Nat
  | .ok reply => if q.place? root = some p then q.action.shown reply else 0
  | .error _ => 0

def markModule (api : String) (times : Nat) : Request := ⟨[.into .api api], .mark times⟩

end Request

namespace Session

def serve (s : Session) (q : Request) : Except Halt Reply × Session :=
  match q.view s.root with
  | .error halt => (.error halt, s)
  | .ok v =>
    match s.perform v q.action with
    | some (reply, s) => (.ok reply, s)
    | none => (.error .unsupported, s)

def serveAll (s : Session) : List Request → List (Except Halt Reply) × Session
  | [] => ([], s)
  | q :: qs =>
    let first := s.serve q
    let rest := first.2.serveAll qs
    (first.1 :: rest.1, rest.2)

/-- The applications at a place that the replies to a run show. -/
def applications (s : Session) (qs : List Request) (p : Place) : Nat :=
  (List.zipWith (Request.shownAt s.root p) qs (s.serveAll qs).1).sum

def tallied (s : Session) : List (Visit × Tally) := (s.root.visits []).map fun v => (v, s.ledger.tally v.place)

end Session
end Errata
