import Errata.NameMap

/-! Calls on a map, each with what it shows, and the same calls on a list of distinct names with their values. The
value of a new entry is made by a computation that may do something of its own, so that a run also tells whether it
was made, and when. -/
namespace Errata
universe u v

namespace NameMap
variable {V : Type u}

/-- The slot of a name. A new name enters the index before its value is made; of a making that gives no value nothing is
told, neither here nor by a run. -/
def reserve {M : Type u → Type v} [Monad M] (m : NameMap V) (name : String) (init : M V) : M (Nat × NameMap V) :=
  match m.names.slot? name with
  | some i => pure (i, m)
  | none => do
    let slot := m.size
    let names := m.names.insert name
    let value ← init
    pure (slot, ⟨names, m.values.push value⟩)

def change (m : NameMap V) (slot : Nat) (f : V → V) : NameMap V := { m with values := m.values.modify slot f }

/-- What can be asked of a map. A look-up with a default may go without the map. -/
inductive Call (M : Type u → Type v) (V : Type u) where
  | insert (scope name : String) (value : V)
  | entry (name : String) (init : M V) (update : V → V)
  | find (name : String)
  | fetch (name : String) (default : V)
  | lookup (present : Bool) (name : String) (default : V)
  | contains (name : String)
  | size
  | isEmpty
  | keys
  | values
  | entries

/-- What a call shows. Of an entry it shows what is in the slot before the update, if the slot is there. -/
inductive Shown (V : Type u) where
  | filed (refusal : Option Fault)
  | found (value : Option V)
  | answer (a : Answer V)
  | flag (b : Bool)
  | number (n : Nat)
  | names (ns : List String)
  | values (vs : List V)
  | entries (es : List (String × V))

variable {M : Type u → Type v} [Monad M]

def serve (m : NameMap V) : Call M V → M (Shown V × NameMap V)
  | .insert scope name value =>
    match m.insert scope name value with
    | .ok n => pure (.filed none, n)
    | .error fault => pure (.filed (some fault), m)
  | .entry name init update => do
    let reserved ← m.reserve name init
    pure (.found reserved.2.values[reserved.1]?, reserved.2.change reserved.1 update)
  | .find name => pure (.found (m.find? name), m)
  | .fetch name default => pure (.answer (m.fetch name default), m)
  | .lookup present name default => pure (.answer (lookup (if present then some m else none) name default), m)
  | .contains name => pure (.flag (m.contains name), m)
  | .size => pure (.number m.size, m)
  | .isEmpty => pure (.flag m.isEmpty, m)
  | .keys => pure (.names m.keys, m)
  | .values => pure (.values m.values.toList, m)
  | .entries => pure (.entries m.entries, m)

def serveAll (m : NameMap V) : List (Call M V) → M (List (Shown V) × NameMap V)
  | [] => pure ([], m)
  | call :: calls => do
    let first ← m.serve call
    let rest ← first.2.serveAll calls
    pure (first.1 :: rest.1, rest.2)

end NameMap

structure Listed (V : Type u) where
  entries : List (String × V)
  distinct : (entries.map Prod.fst).Nodup

namespace Listed
open NameMap (Call Shown)
variable {V : Type u}

def empty : Listed V := ⟨[], List.nodup_nil⟩
def names (x : Listed V) : List String := x.entries.map Prod.fst

def push (x : Listed V) (name : String) (value : V) (h : name ∉ x.names) : Listed V where
  entries := x.entries ++ [(name, value)]
  distinct := by
    rw [List.map_append, List.nodup_append]
    refine ⟨x.distinct, List.pairwise_singleton _ name, ?_⟩
    intro a ha b hb hab
    obtain rfl : b = name := List.mem_singleton.1 hb
    exact h (hab ▸ ha)

def update (x : Listed V) (name : String) (f : V → V) : Listed V where
  entries := x.entries.map fun e => if e.1 = name then (e.1, f e.2) else e
  distinct := by
    have hnames : (x.entries.map fun e => if e.1 = name then (e.1, f e.2) else e).map Prod.fst = x.names := by
      rw [List.map_map]
      refine List.map_congr_left fun e _ => ?_
      by_cases h : e.1 = name <;> simp [h]
    rw [hnames]
    exact x.distinct

def answer (x : Listed V) (name : String) (default : V) : Answer V :=
  match x.entries.lookup name with
  | some value => .stored value
  | none => .fallback default

variable {M : Type u → Type v} [Monad M]

def serve (x : Listed V) : Call M V → M (Shown V × Listed V)
  | .insert scope name value =>
    if h : name ∈ x.names then pure (.filed (some (.duplicate scope name)), x)
    else pure (.filed none, x.push name value h)
  | .entry name init update =>
    if h : name ∈ x.names then pure (.found (x.entries.lookup name), x.update name update)
    else do
      let value ← init
      pure (.found (some value), x.push name (update value) h)
  | .find name => pure (.found (x.entries.lookup name), x)
  | .fetch name default => pure (.answer (x.answer name default), x)
  | .lookup present name default => pure (.answer (if present then x.answer name default else .fallback default), x)
  | .contains name => pure (.flag (name ∈ x.names), x)
  | .size => pure (.number x.entries.length, x)
  | .isEmpty => pure (.flag x.entries.isEmpty, x)
  | .keys => pure (.names x.names, x)
  | .values => pure (.values (x.entries.map Prod.snd), x)
  | .entries => pure (.entries x.entries, x)

def serveAll (x : Listed V) : List (Call M V) → M (List (Shown V) × Listed V)
  | [] => pure ([], x)
  | call :: calls => do
    let first ← x.serve call
    let rest ← first.2.serveAll calls
    pure (first.1 :: rest.1, rest.2)

end Listed
end Errata
