import Errata.NameMap

/-! The map as its list of entries: one law per operation. A change needs a full map and leaves a full one;
a look-up needs nothing. Main statements: `find?_eq_lookup`, `insert_eq`, `entries_upsert`. -/
namespace Errata.NameMap
universe u v
variable {V : Type u} {W : Type v}

theorem full_iff {m : NameMap V} : m.Full ↔ m.names.toList.length = m.values.toList.length := by
  simp [Full, Names.length_toList]

theorem keys_eq {m : NameMap V} (h : m.Full) : m.keys = m.entries.map Prod.fst := by
  rw [entries, List.map_fst_zip (Nat.le_of_eq (full_iff.1 h))]
  rfl

theorem values_eq {m : NameMap V} (h : m.Full) : m.values.toList = m.entries.map Prod.snd := by
  rw [entries, List.map_snd_zip (Nat.le_of_eq (full_iff.1 h).symm)]

theorem size_eq {m : NameMap V} (h : m.Full) : m.size = m.entries.length := by
  rw [← List.length_map (f := Prod.snd), ← values_eq h]
  rfl

theorem isEmpty_eq {m : NameMap V} (h : m.Full) : m.isEmpty = m.entries.isEmpty := by
  rw [isEmpty, ← Array.isEmpty_toList, values_eq h, List.isEmpty_map]

theorem nodup_keys (m : NameMap V) : m.keys.Nodup := m.names.nodup_toList

theorem contains_iff {m : NameMap V} {name : String} : m.contains name = true ↔ name ∈ m.keys :=
  Names.contains_iff

theorem ext_entries {m n : NameMap V} (hm : m.Full) (hn : n.Full) (h : m.entries = n.entries) :
    m = n := by
  obtain ⟨a, ⟨vs⟩⟩ := m
  obtain ⟨b, ⟨ws⟩⟩ := n
  have hk := keys_eq hm
  have hv := values_eq hm
  rw [h, ← keys_eq hn] at hk
  rw [h, ← values_eq hn] at hv
  obtain rfl : a = b := Names.ext_toList hk
  obtain rfl : vs = ws := hv
  rfl

theorem find?_eq_some_iff {m : NameMap V} {name : String} {v : V} :
    m.find? name = some v ↔ (name, v) ∈ m.entries := by
  simp only [find?, Option.bind_eq_some_iff, Names.slot?_eq_some_iff, entries, List.mem_iff_getElem?,
    List.getElem?_zip_eq_some, Array.getElem?_toList]

theorem map_fst_zip_sublist (ns : List String) (vs : List V) :
    ((ns.zip vs).map Prod.fst).Sublist ns := by
  induction ns generalizing vs with
  | nil => simp
  | cons n ns ih =>
    cases vs with
    | nil => simp
    | cons v vs => simpa using ih vs

theorem nodup_map_fst_entries (m : NameMap V) : (m.entries.map Prod.fst).Nodup :=
  (map_fst_zip_sublist ..).nodup m.nodup_keys

theorem lookup_eq_some_iff_mem {xs : List (String × V)} (h : (xs.map Prod.fst).Nodup) {name : String}
    {v : V} : xs.lookup name = some v ↔ (name, v) ∈ xs := by
  induction xs with
  | nil => simp
  | cons x xs ih =>
    obtain ⟨n, w⟩ := x
    have hn : n ∉ xs.map Prod.fst ∧ (xs.map Prod.fst).Nodup := by simpa using h
    by_cases he : name = n
    · subst he
      have : (name, v) ∉ xs := fun hm => hn.1 (List.mem_map.2 ⟨_, hm, rfl⟩)
      simp [this, eq_comm]
    · have : (name == n) = false := by simpa using he
      simp [List.lookup_cons, this, ih hn.2, he]

/-- A look-up through the index finds what a search of the entries from the front finds. -/
theorem find?_eq_lookup (m : NameMap V) (name : String) : m.find? name = m.entries.lookup name := by
  apply Option.ext
  intro v
  rw [find?_eq_some_iff, lookup_eq_some_iff_mem m.nodup_map_fst_entries]

theorem full_empty : (empty : NameMap V).Full := rfl

@[simp] theorem entries_empty : (empty : NameMap V).entries = [] := rfl

theorem entries_push {m : NameMap V} (h : m.Full) {name : String} (hn : m.contains name = false) (v : V) :
    (⟨m.names.insert name, m.values.push v⟩ : NameMap V).entries = m.entries ++ [(name, v)] := by
  have hn : m.names.contains name = false := hn
  simp only [entries, Names.toList_insert, hn, Array.toList_push]
  exact List.zip_append (full_iff.1 h)

theorem full_push {m : NameMap V} (h : m.Full) {name : String} (hn : m.contains name = false) (v : V) :
    (⟨m.names.insert name, m.values.push v⟩ : NameMap V).Full := by
  have hn : m.names.contains name = false := hn
  rw [full_iff] at h ⊢
  simp [Names.toList_insert, hn, h]

theorem insert_eq {m : NameMap V} (scope name : String) (v : V) :
    (m.contains name = true ∧ m.insert scope name v = .error (.duplicate scope name)) ∨
      (m.contains name = false ∧ m.insert scope name v = .ok ⟨m.names.insert name, m.values.push v⟩) := by
  cases h : m.contains name <;> simp [insert, h]

theorem zip_modify {ns : List String} (h : ns.Nodup) {i : Nat} {name : String} (hi : ns[i]? = some name)
    (vs : List V) (f : V → V) :
    ns.zip (vs.modify i f) = (ns.zip vs).map fun e => if e.1 = name then (e.1, f e.2) else e := by
  induction ns generalizing i vs with
  | nil => simp
  | cons n ns ih =>
    obtain ⟨hn, h⟩ := List.nodup_cons.1 h
    cases vs with
    | nil => simp
    | cons v vs =>
      cases i with
      | zero =>
        obtain rfl : n = name := by simpa using hi
        have : (ns.zip vs).map (fun e => if e.1 = n then (e.1, f e.2) else e) = ns.zip vs := by
          refine (List.map_congr_left fun e he => ?_).trans (List.map_id _)
          have : e.1 ≠ n := fun he' => hn (he' ▸ (List.of_mem_zip he).1)
          simp [this]
        simp [this]
      | succ i =>
        have hi : ns[i]? = some name := by simpa using hi
        have : n ≠ name := fun e => hn (e ▸ List.mem_of_getElem? hi)
        simp [this, ih h hi vs]

theorem entries_upsert {m : NameMap V} (h : m.Full) (name : String) (fresh : V) (f : V → V) :
    (m.upsert name fresh f).Full ∧ (m.upsert name fresh f).entries =
      if m.contains name then m.entries.map fun e => if e.1 = name then (e.1, f e.2) else e
      else m.entries ++ [(name, f fresh)] := by
  unfold upsert
  cases hs : m.names.slot? name with
  | none =>
    have hn : m.contains name = false := by simp [contains, Names.contains_eq_isSome, hs]
    exact ⟨full_push h hn _, by rw [if_neg (by simp [hn]), entries_push h hn]⟩
  | some i =>
    have hc : m.contains name = true := by simp [contains, Names.contains_eq_isSome, hs]
    refine ⟨by simpa [Full] using h, ?_⟩
    rw [if_pos hc, entries, Array.toList_modify]
    exact zip_modify m.names.nodup_toList (Names.slot?_eq_some_iff.1 hs) _ f

theorem entries_map (m : NameMap V) (f : V → W) :
    (m.map f).entries = m.entries.map fun e => (e.1, f e.2) := by
  simp [entries, map, List.zip_map_right]

theorem find?_map (m : NameMap V) (f : V → W) (name : String) :
    (m.map f).find? name = (m.find? name).map f := by
  rw [find?, find?, map, Option.map_bind]
  exact congrArg _ (funext fun _ => Array.getElem?_map)

end Errata.NameMap
