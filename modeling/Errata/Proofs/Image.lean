import Errata.NameMap.Lemmas
import Errata.Node
import Errata.Proofs.Nesting
import Mathlib.Algebra.GroupWithZero.Nat

/-! The tree that a sheet describes if nothing is wrong with it, built without a check and module by module,
and the number of records of a sheet. Main statements: `entries_ofList`, `find?_ofList`. -/
namespace Errata
universe u

namespace NameMap
variable {V : Type u}

/-- Files a value under a name that is taken to be new. -/
def push (m : NameMap V) (e : String × V) : NameMap V := ⟨m.names.insert e.1, m.values.push e.2⟩
def file (m : NameMap V) (es : List (String × V)) : NameMap V := es.foldl push m
def ofList (es : List (String × V)) : NameMap V := empty.file es

theorem mem_keys_push {m : NameMap V} {e : String × V} {n : String} :
    n ∈ (m.push e).keys ↔ n ∈ m.keys ∨ n = e.1 := by
  have hc : m.names.contains e.1 = true ↔ e.1 ∈ m.keys := Names.contains_iff
  simp only [keys, push, Names.toList_insert] at hc ⊢
  by_cases h : m.names.contains e.1 = true
  · rw [if_pos h]
    exact ⟨.inl, fun hn => hn.elim id fun hn => hn ▸ hc.1 h⟩
  · rw [if_neg h]
    simp

theorem mem_keys_file {es : List (String × V)} {m : NameMap V} {n : String} :
    n ∈ (m.file es).keys ↔ n ∈ m.keys ∨ n ∈ es.map Prod.fst := by
  induction es generalizing m with
  | nil => simp [file]
  | cons e es ih =>
    have hf : m.file (e :: es) = (m.push e).file es := rfl
    rw [hf, ih, mem_keys_push, List.map_cons, List.mem_cons, or_assoc]

theorem mem_keys_ofList {es : List (String × V)} {n : String} :
    n ∈ (ofList es).keys ↔ n ∈ es.map Prod.fst := by
  rw [ofList, mem_keys_file]
  simp [keys, empty]

theorem entries_file {es : List (String × V)} {m : NameMap V} (hm : m.Full)
    (h : (m.keys ++ es.map Prod.fst).Nodup) : (m.file es).Full ∧ (m.file es).entries = m.entries ++ es := by
  induction es generalizing m with
  | nil => simpa [file] using hm
  | cons e es ih =>
    have hn : m.contains e.1 = false := by
      rw [← Bool.not_eq_true, contains_iff]
      intro he
      exact (List.nodup_append.1 h).2.2 _ he _ (by simp) rfl
    have hk : (m.push e).keys = m.keys ++ [e.1] := by
      have hn : m.names.contains e.1 = false := hn
      simp [keys, push, Names.toList_insert, hn]
    have he : (m.push e).entries = m.entries ++ [e] := entries_push hm hn e.2
    have hp : (m.push e).Full := full_push hm hn e.2
    obtain ⟨hf, hes⟩ := ih hp (by rw [hk]; simpa using h)
    refine ⟨hf, ?_⟩
    calc
      ((m.push e).file es).entries = (m.push e).entries ++ es := hes
      _ = m.entries ++ e :: es := by rw [he, List.append_assoc]; rfl

theorem full_ofList {es : List (String × V)} (h : (es.map Prod.fst).Nodup) : (ofList es).Full :=
  (entries_file full_empty (by simpa [keys, empty] using h)).1

theorem entries_ofList {es : List (String × V)} (h : (es.map Prod.fst).Nodup) : (ofList es).entries = es :=
  (entries_file full_empty (by simpa [keys, empty] using h)).2

theorem entries_ofList_map {α : Type u} (xs : List α) (name : α → String) (value : α → V) (h : (xs.map name).Nodup) :
    (ofList (xs.map fun a => (name a, value a))).entries = xs.map fun a => (name a, value a) :=
  entries_ofList (by simpa [Function.comp_def] using h)

theorem keys_ofList_map {α : Type u} (xs : List α) (name : α → String) (value : α → V) (h : (xs.map name).Nodup) :
    (ofList (xs.map fun a => (name a, value a))).keys = xs.map name := by
  rw [keys_eq (full_ofList (by simpa [Function.comp_def] using h)), entries_ofList_map xs name value h, List.map_map]
  rfl

theorem values_ofList_map {α : Type u} (xs : List α) (name : α → String) (value : α → V) (h : (xs.map name).Nodup) :
    (ofList (xs.map fun a => (name a, value a))).values.toList = xs.map value := by
  rw [values_eq (full_ofList (by simpa [Function.comp_def] using h)), entries_ofList_map xs name value h, List.map_map]
  rfl

theorem find?_ofList {α : Type u} (xs : List α) (name : α → String) (value : α → V)
    (h : (xs.map name).Nodup) (n : String) :
    (ofList (xs.map fun a => (name a, value a))).find? n = (xs.find? (name · = n)).map value := by
  rw [find?_eq_lookup, entries_ofList_map xs name value h]
  clear h
  induction xs with
  | nil => rfl
  | cons a xs ih =>
    by_cases ha : name a = n
    · simp [ha]
    · have hb : (n == name a) = false := beq_eq_false_iff_ne.2 (Ne.symm ha)
      simp [List.lookup_cons, hb, ha, ih]

theorem map_ofList {W : Type u} (g : V → W) (es : List (String × V)) :
    (ofList es).map g = ofList (es.map fun e => (e.1, g e.2)) := by
  have hfile (m : NameMap V) : (m.file es).map g = (m.map g).file (es.map fun e => (e.1, g e.2)) := by
    induction es generalizing m with
    | nil => rfl
    | cons e es ih =>
      have hp : (m.push e).map g = (m.map g).push (e.1, g e.2) := by simp [push, map]
      simpa [file, hp] using ih (m.push e)
  simpa [ofList, map, empty] using hfile empty

end NameMap

namespace FuncCorrection

def node (f : FuncCorrection) : FuncNode := ⟨f, .ofList (f.params.map fun p => (p.name, p))⟩
def recordCount (f : FuncCorrection) : Nat := f.params.length + 1

end FuncCorrection

namespace TypeCorrection

def nodeAround (t : TypeCorrection) (nested : Option (List (String × TypeNode))) : TypeNode :=
  match t.methods with
  | some methods => .com ⟨t, .ofList (methods.map fun m => (m.name, m.node))⟩
  | none => .plain t (t.fields.map fun fields => .ofList (fields.map fun f => (f.name, f))) (nested.map .ofList)

def countAround (t : TypeCorrection) (nested : Nat) : Nat :=
  (t.fields.getD []).length + nested + ((t.methods.getD []).map (·.recordCount)).sum + 1

mutual
def node : TypeCorrection → TypeNode
  | ⟨api, name, remove, fields, none, methods⟩ => nodeAround ⟨api, name, remove, fields, none, methods⟩ none
  | ⟨api, name, remove, fields, some ts, methods⟩ =>
    nodeAround ⟨api, name, remove, fields, some ts, methods⟩ (some (nodeEach ts))
def nodeEach : List TypeCorrection → List (String × TypeNode)
  | [] => []
  | t :: ts => (t.name, t.node) :: nodeEach ts
end

mutual
/-- The type itself and everything that is declared inside it, at all depths. -/
def recordCount : TypeCorrection → Nat
  | ⟨api, name, remove, fields, none, methods⟩ => countAround ⟨api, name, remove, fields, none, methods⟩ 0
  | ⟨api, name, remove, fields, some ts, methods⟩ =>
    countAround ⟨api, name, remove, fields, some ts, methods⟩ (recordCountEach ts)
def recordCountEach : List TypeCorrection → Nat
  | [] => 0
  | t :: ts => t.recordCount + recordCountEach ts
end

theorem nodeEach_eq (ts : List TypeCorrection) : nodeEach ts = ts.map fun t => (t.name, t.node) := by
  induction ts with
  | nil => rfl
  | cons t ts ih => simp [nodeEach, ih]

theorem node_eq (t : TypeCorrection) :
    t.node = t.nodeAround (t.nested.map fun ts => ts.map fun n => (n.name, n.node)) := by
  obtain ⟨api, name, remove, fields, _ | ts, methods⟩ := t
  · simp [node]
  · simp [node, nodeEach_eq]

theorem recordCountEach_eq (ts : List TypeCorrection) : recordCountEach ts = (ts.map (·.recordCount)).sum := by
  induction ts with
  | nil => rfl
  | cons t ts ih => simp [recordCountEach, ih]

theorem recordCount_eq (t : TypeCorrection) :
    t.recordCount = t.countAround ((t.nested.getD []).map (·.recordCount)).sum := by
  obtain ⟨api, name, remove, fields, _ | ts, methods⟩ := t
  · simp [recordCount]
  · simp [recordCount, recordCountEach_eq]

end TypeCorrection

namespace Sheet

def apiOf (s : Sheet) (api : String) : ApiNode where
  name := api
  types := .ofList ((s.typesOf api).map fun t => (t.name, t.node))
  funcs := .ofList ((s.funcsOf api).map fun f => (f.name, f.node))

def recordCount (s : Sheet) : Nat := (s.funcs.map (·.recordCount)).sum + (s.types.map (·.recordCount)).sum

def image (s : Sheet) : Tree := ⟨.ofList (s.modules.map fun api => (api, s.apiOf api)), s.recordCount⟩

end Sheet
end Errata
