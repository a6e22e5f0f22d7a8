import Errata.NameMap.Calls
import Errata.Proofs.Image

/-! A map is the list of its entries, whatever is asked of it: each call shows what the same call on the list shows and
leaves the map of the list that the call leaves. Main statements: `Listed.serve_toMap`, `NameMap.serveAll_refines`. -/
namespace Errata
universe u v

namespace NameMap
variable {V : Type u} {M : Type u → Type v} [Monad M] [LawfulMonad M]

theorem slot?_eq_some_iff {m : NameMap V} (h : m.Full) {name : String} {i : Nat} :
    m.names.slot? name = some i ↔ (m.entries[i]?).map Prod.fst = some name := by
  have hkeys : m.names.toList = m.entries.map Prod.fst := keys_eq h
  rw [Names.slot?_eq_some_iff, hkeys, List.getElem?_map]

theorem lt_of_slot? {m : NameMap V} (h : m.Full) {name : String} {i : Nat} (hi : m.names.slot? name = some i) :
    i < m.values.size := by
  obtain ⟨e, he, _⟩ := Option.map_eq_some_iff.1 ((slot?_eq_some_iff h).1 hi)
  have hsize : m.values.size = m.entries.length := size_eq h
  rw [hsize]
  exact (List.getElem?_eq_some_iff.1 he).1

theorem push_modify (values : Array V) (value : V) (f : V → V) :
    (values.push value).modify values.size f = values.push (f value) := by
  apply Array.ext
  · simp
  · intro i hi _
    rw [Array.getElem_modify, Array.getElem_push, Array.getElem_push]
    by_cases hlast : i = values.size
    · simp [hlast]
    · have hi : i < values.size := by
        rw [Array.size_modify, Array.size_push] at hi
        omega
      simp [Ne.symm hlast, hi]

/-- A slot that is reserved and then changed is a change in place. No value is made for a name that is there. -/
theorem reserve_change {m : NameMap V} (h : m.Full) (name : String) (init : M V) (f : V → V) :
    (fun r => (r.2.values[r.1]?, r.2.change r.1 f)) <$> m.reserve name init =
      match m.find? name with
      | some value => pure (some value, m.upsert name value f)
      | none => (fun value => (some value, m.upsert name value f)) <$> init := by
  unfold reserve find? upsert
  cases hs : m.names.slot? name with
  | some i => simp [change, lt_of_slot? h hs]
  | none => simp [change, size, push_modify]

theorem change_reserve (m : NameMap V) (name : String) (fresh : V) (f : V → V) :
    (fun r => r.2.change r.1 f) <$> m.reserve name (pure fresh : M V) = pure (m.upsert name fresh f) := by
  unfold reserve upsert
  cases hs : m.names.slot? name with
  | some i => simp [change]
  | none => simp [change, size, push_modify]

end NameMap

namespace Listed
open NameMap (Call Shown)
variable {V : Type u} {M : Type u → Type v} [Monad M] [LawfulMonad M] (x : Listed V)

def toMap : NameMap V := .ofList x.entries

theorem full_toMap : x.toMap.Full := NameMap.full_ofList x.distinct

theorem entries_toMap : x.toMap.entries = x.entries := NameMap.entries_ofList x.distinct

theorem keys_toMap : x.toMap.keys = x.names := by
  rw [NameMap.keys_eq x.full_toMap, entries_toMap]
  rfl

theorem find?_toMap (name : String) : x.toMap.find? name = x.entries.lookup name := by
  rw [NameMap.find?_eq_lookup, entries_toMap]

theorem contains_toMap (name : String) : x.toMap.contains name = decide (name ∈ x.names) := by
  rw [Bool.eq_iff_iff, NameMap.contains_iff, keys_toMap, decide_eq_true_iff]

theorem size_toMap : x.toMap.size = x.entries.length := by
  rw [NameMap.size_eq x.full_toMap, entries_toMap]

theorem values_toMap : x.toMap.values.toList = x.entries.map Prod.snd := by
  rw [NameMap.values_eq x.full_toMap, entries_toMap]

theorem isEmpty_toMap : x.toMap.isEmpty = x.entries.isEmpty := by
  rw [NameMap.isEmpty_eq x.full_toMap, entries_toMap]

theorem lookup_toMap (name : String) (default : V) :
    NameMap.lookup (some x.toMap) name default = x.answer name default := by
  cases h : x.entries.lookup name <;> simp [NameMap.lookup, answer, find?_toMap, h]

variable {x}

theorem eq_toMap {m : NameMap V} (h : m.Full) (he : m.entries = x.entries) : m = x.toMap :=
  NameMap.ext_entries h x.full_toMap (he.trans x.entries_toMap.symm)

theorem lookup_eq_none_iff {name : String} : x.entries.lookup name = none ↔ name ∉ x.names := by
  simp only [names, List.lookup_eq_none_iff, bne_iff_ne, List.mem_map, not_exists, not_and]
  exact forall₂_congr fun e he => ne_comm

theorem insert_toMap (scope name : String) (value : V) : x.toMap.insert scope name value =
    if h : name ∈ x.names then .error (.duplicate scope name) else .ok (x.push name value h).toMap := by
  by_cases h : name ∈ x.names
  · rw [dif_pos h, NameMap.insert, if_pos (by simpa [contains_toMap] using h)]
  · rw [dif_neg h, NameMap.insert, if_neg (by simpa [contains_toMap] using h)]
    have hn : x.toMap.contains name = false := by simpa [contains_toMap] using h
    refine congrArg Except.ok (eq_toMap (NameMap.full_push x.full_toMap hn value) ?_)
    rw [NameMap.entries_push x.full_toMap hn, entries_toMap]
    rfl

theorem upsert_toMap (name : String) (fresh : V) (f : V → V) : x.toMap.upsert name fresh f =
    if h : name ∈ x.names then (x.update name f).toMap else (x.push name (f fresh) h).toMap := by
  obtain ⟨hfull, hentries⟩ := NameMap.entries_upsert x.full_toMap name fresh f
  by_cases h : name ∈ x.names
  · rw [if_pos (by simpa [contains_toMap] using h), entries_toMap] at hentries
    rw [dif_pos h]
    exact eq_toMap hfull hentries
  · rw [if_neg (by simpa [contains_toMap] using h), entries_toMap] at hentries
    rw [dif_neg h]
    exact eq_toMap hfull hentries

theorem serve_toMap (x : Listed V) (call : Call M V) :
    x.toMap.serve call = (fun r => (r.1, r.2.toMap)) <$> x.serve call := by
  cases call with
  | insert scope name value =>
    rw [NameMap.serve, serve, insert_toMap]
    by_cases h : name ∈ x.names
    · simp [h]
    · simp [h]
  | entry name init update =>
    have hentry : x.toMap.serve (.entry name init update) = (fun p => (Shown.found p.1, p.2)) <$>
        ((fun r => (r.2.values[r.1]?, r.2.change r.1 update)) <$> x.toMap.reserve name init) := by
      simp [NameMap.serve]
    rw [hentry, NameMap.reserve_change x.full_toMap, find?_toMap, serve]
    by_cases h : name ∈ x.names
    · obtain ⟨value, hv⟩ := Option.ne_none_iff_exists'.1 (mt lookup_eq_none_iff.1 (not_not.2 h))
      simp [h, hv, upsert_toMap]
    · simp [h, lookup_eq_none_iff.2 h, upsert_toMap]
  | find name => simp [NameMap.serve, serve, find?_toMap]
  | fetch name default => simp [NameMap.serve, serve, NameMap.fetch, lookup_toMap]
  | lookup present name default =>
    cases present with
    | true => simp [NameMap.serve, serve, lookup_toMap]
    | false => simp [NameMap.serve, serve, NameMap.lookup]
  | contains name => simp [NameMap.serve, serve, contains_toMap]
  | size => simp [NameMap.serve, serve, size_toMap]
  | isEmpty => simp [NameMap.serve, serve, isEmpty_toMap]
  | keys => simp [NameMap.serve, serve, keys_toMap]
  | values => simp [NameMap.serve, serve, values_toMap]
  | entries => simp [NameMap.serve, serve, entries_toMap]

theorem serveAll_toMap (x : Listed V) (calls : List (Call M V)) :
    x.toMap.serveAll calls = (fun r => (r.1, r.2.toMap)) <$> x.serveAll calls := by
  induction calls generalizing x with
  | nil => simp [NameMap.serveAll, serveAll]
  | cons call calls ih => simp [NameMap.serveAll, serveAll, serve_toMap, ih]

end Listed

namespace NameMap
variable {V : Type u} {M : Type u → Type v} [Monad M] [LawfulMonad M]

/-- A map answers like the list of its entries, with the same effects. -/
theorem serveAll_refines (calls : List (Call M V)) :
    (empty : NameMap V).serveAll calls = (fun r => (r.1, r.2.toMap)) <$> Listed.empty.serveAll calls ∧
    ∀ x : Listed V, x.toMap.entries = x.entries ∧ x.toMap.names.size = x.toMap.values.size ∧
      (∀ (name : String) (i : Nat), x.toMap.names.slots[name]? = some i ↔ (x.entries[i]?).map Prod.fst = some name) ∧
      (∀ (name : String) (i : Nat), x.toMap.names.slots[name]? = some i → i < x.toMap.values.size) ∧
      ∀ name fresh f, (fun r => r.2.change r.1 f) <$> x.toMap.reserve name (pure fresh : M V) =
        pure (x.toMap.upsert name fresh f) := by
  refine ⟨Listed.empty.serveAll_toMap calls, fun x => ⟨x.entries_toMap, x.full_toMap, ?_, ?_, ?_⟩⟩
  · intro name i
    exact (slot?_eq_some_iff x.full_toMap).trans (by rw [Listed.entries_toMap])
  · exact fun name i hi => lt_of_slot? x.full_toMap hi
  · exact fun name fresh f => change_reserve x.toMap name fresh f

/-- A value that tells how many were made before it. -/
def numbered : StateM Nat Nat := modifyGet fun made => (made, made + 1)

def filings : List (Call (StateM Nat) Nat) := [.entry "x" numbered (· + 5), .entry "x" numbered (· + 5),
  .insert "A" "x" 9, .insert "A" "y" 7, .fetch "y" 7, .lookup false "y" 7, .find "z", .entries]

theorem serveAll_refines_filings : let run := ((empty : NameMap Nat).serveAll filings).run 0
    run.2 = 1 ∧ run.1.1 = [.found (some 0), .found (some 5), .filed (some (.duplicate "A" "x")), .filed none,
      .answer (.stored 7), .answer (.fallback 7), .found none, .entries [("x", 10), ("y", 7)]] := by
  rw [(serveAll_refines filings).1]
  exact ⟨rfl, rfl⟩

end NameMap
end Errata
