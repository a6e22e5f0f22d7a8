import Errata.Event
import Errata.Fault
import Errata.Ledger
import Errata.Traversal

/-! Reviewing a tree for corrections that were never applied. What is found depends on the tree, the ledger
and whether free functions are looked at; the policy decides what is reported and whether an unused
correction is a refusal. -/
namespace Errata

inductive Policy where
  | ignore | warn | fail
  deriving DecidableEq, Repr

def Policy.label : Policy → String
  | .ignore => "Ignore"
  | .warn => "Warn"
  | .fail => "Fail"

structure ReviewSettings where
  policy : Policy := .warn
  includeFuncs : Bool := true
  deriving DecidableEq, Repr

namespace ReviewSettings

def strict : ReviewSettings := { policy := .fail }
def disabled : ReviewSettings := { policy := .ignore }
def typesOnly : ReviewSettings := { includeFuncs := false }

end ReviewSettings

structure Report where
  visited : Nat := 0
  unused : List Unused := []
  deriving DecidableEq, Repr

namespace Report

def isClean (r : Report) : Bool := r.unused.isEmpty
def countByKind (r : Report) : List (Kind × Nat) :=
  Kind.all.map fun kind => (kind, r.unused.countP (·.kind = kind))

end Report

namespace ApiNode

/-- A type or a function of a module, then what is below it. -/
def inspect (key : String) (n : Node) (place : Place) (kind : Kind) (record : Correction) : List Visit :=
  ⟨[key, record.name], place, kind, record⟩ :: (n.visits place).map (·.under key)

def inspectTypes (a : ApiNode) (key : String) : List Visit :=
  a.types.entries.flatMap fun (name, t) =>
    inspect key (.type t) [⟨.api, key⟩, ⟨.type, name⟩] t.kind (.type t.record)

def inspectFuncs (a : ApiNode) (key : String) : List Visit :=
  a.funcs.entries.flatMap fun (name, f) =>
    inspect key (.func f) [⟨.api, key⟩, ⟨.func, name⟩] .func (.func f.record)

end ApiNode

def Visit.unused (api : String) (v : Visit) : Unused := ⟨api, v.kind, ".".intercalate v.path⟩

namespace Tree

/-- Every visit of a review, with the module it belongs to. -/
def inspected (t : Tree) (includeFuncs : Bool) : List (String × Visit) :=
  t.apis.entries.flatMap fun (key, a) =>
    (a.inspectTypes key ++ if includeFuncs then a.inspectFuncs key else []).map (key, ·)

def inspect (t : Tree) (l : Ledger) (includeFuncs : Bool) : Report :=
  let visits := t.inspected includeFuncs
  { visited := visits.length
    unused := (visits.filter fun (_, v) => !(l.tally v.place).isApplied).map fun (api, v) => v.unused api }

def review (t : Tree) (l : Ledger) (settings : ReviewSettings) : Logged (Except Fault Report) :=
  let r := t.inspect l settings.includeFuncs
  let clean : List Event := if r.isClean then [.allApplied r.visited] else []
  match settings.policy with
  | .ignore => ⟨.ok r, []⟩
  | .warn => ⟨.ok r, r.unused.map (.unused .warn) ++ clean⟩
  | .fail =>
    ⟨if r.isClean then .ok r else .error (.unused r.unused.length),
      r.unused.map (.unused .error) ++ clean⟩

end Tree
end Errata
