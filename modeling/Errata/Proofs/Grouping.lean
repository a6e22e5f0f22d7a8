import Errata.Proofs.Image
import Mathlib.Data.List.Nodup

/-! The records of a sheet grouped by module: what one more record does to the modules, and to the image.
Main statements: `image_edit_func`, `image_edit_type`, `flatMap_filter_perm`. -/
namespace Errata
universe u

theorem nodup_eraseDups (ns : List String) : ns.eraseDups.Nodup := by
  cases ns with
  | nil => simp
  | cons n ns =>
    rw [List.eraseDups_cons, List.nodup_cons, List.mem_eraseDups]
    exact ⟨by simp, nodup_eraseDups _⟩
termination_by ns.length
decreasing_by exact Nat.lt_succ_of_le (List.length_filter_le _ _)

theorem eraseDups_concat (ns : List String) (n : String) :
    (ns ++ [n]).eraseDups = if n ∈ ns then ns.eraseDups else ns.eraseDups ++ [n] := by
  rw [List.eraseDups_append]
  by_cases h : n ∈ ns
  · simp [h, List.removeAll]
  · simp [h, List.removeAll, List.eraseDups_cons]

theorem flatMap_filter_perm {α : Type u} (key : α → String) (ks : List String) (hk : ks.Nodup) (xs : List α)
    (hx : ∀ a ∈ xs, key a ∈ ks) : (ks.flatMap fun k => xs.filter (key · = k)).Perm xs := by
  induction ks generalizing xs with
  | nil =>
    have : xs = [] := List.eq_nil_iff_forall_not_mem.2 fun a ha => by simpa using hx a ha
    simp [this]
  | cons k ks ih =>
    obtain ⟨hn, hk⟩ := List.nodup_cons.1 hk
    have hrest : (ks.flatMap fun l => xs.filter (key · = l)) =
        ks.flatMap fun l => (xs.filter fun a => !decide (key a = k)).filter (key · = l) := by
      apply List.flatMap_congr
      intro l hl
      rw [List.filter_filter]
      apply List.filter_congr
      intro a _
      have hlk : l ≠ k := fun e => hn (e ▸ hl)
      by_cases h : key a = l <;> simp [h, hlk]
    have hkeys : ∀ a ∈ xs.filter fun a => !decide (key a = k), key a ∈ ks := by
      intro a ha
      obtain ⟨ha, hne⟩ := List.mem_filter.1 ha
      exact (List.mem_cons.1 (hx a ha)).resolve_left (by simpa using hne)
    rw [List.flatMap_cons, hrest]
    exact ((ih hk _ hkeys).append_left _).trans (List.filter_append_perm _ _)

namespace NameMap
variable {V : Type u}

theorem upsert_ofList {ks : List String} (hk : ks.Nodup) (value value' : String → V) (name : String) (fresh : V)
    (f : V → V) (hf : value' name = f (if name ∈ ks then value name else fresh))
    (ho : ∀ k, k ≠ name → value' k = value k) :
    (ofList (ks.map fun k => (k, value k))).upsert name fresh f =
      ofList ((if name ∈ ks then ks else ks ++ [name]).map fun k => (k, value' k)) := by
  have hfst (ks : List String) (g : String → V) : (ks.map fun k => (k, g k)).map Prod.fst = ks := by
    simp [Function.comp_def]
  have hk' : (if name ∈ ks then ks else ks ++ [name]).Nodup := by
    by_cases h : name ∈ ks
    · simpa [h] using hk
    · rw [if_neg h]
      have hother : ∀ k ∈ ks, k ≠ name := fun k hkm hkn => h (hkn ▸ hkm)
      simpa [List.nodup_append, hk] using hother
  have hm : (ofList (ks.map fun k => (k, value k))).Full := full_ofList (by rwa [hfst])
  obtain ⟨hfull, hes⟩ := entries_upsert hm name fresh f
  refine ext_entries hfull (full_ofList (by rwa [hfst])) ?_
  have hc : (ofList (ks.map fun k => (k, value k))).contains name = true ↔ name ∈ ks := by
    rw [contains_iff, mem_keys_ofList, hfst]
  rw [hes, entries_ofList (by rwa [hfst]), entries_ofList (by rwa [hfst])]
  by_cases h : name ∈ ks
  · rw [if_pos (hc.2 h), if_pos h, List.map_map]
    rw [if_pos h] at hf
    apply List.map_congr_left
    intro k _
    by_cases hkn : k = name
    · simp [hkn, hf]
    · simp [hkn, ho k hkn]
  · rw [if_neg (mt hc.1 h), if_neg h, List.map_append]
    rw [if_neg h] at hf
    have : ∀ k ∈ ks, value' k = value k := fun k hkm => ho k fun e => h (e ▸ hkm)
    simp [hf, List.map_congr_left fun k hkm => congrArg (Prod.mk k) (this k hkm)]

end NameMap

namespace Sheet

theorem mem_modules {s : Sheet} {api : String} :
    api ∈ s.modules ↔ (∃ f ∈ s.funcs, f.api = api) ∨ ∃ t ∈ s.types, t.api = api := by
  simp [modules]

theorem nodup_modules (s : Sheet) : s.modules.Nodup := nodup_eraseDups _

theorem api_mem_modules_of_func {s : Sheet} {f : FuncCorrection} (h : f ∈ s.funcs) : f.api ∈ s.modules :=
  mem_modules.2 (.inl ⟨f, h, rfl⟩)

theorem api_mem_modules_of_type {s : Sheet} {t : TypeCorrection} (h : t ∈ s.types) : t.api ∈ s.modules :=
  mem_modules.2 (.inr ⟨t, h, rfl⟩)

theorem flatMap_funcsOf_perm (s : Sheet) : (s.modules.flatMap s.funcsOf).Perm s.funcs :=
  flatMap_filter_perm FuncCorrection.api s.modules s.nodup_modules s.funcs fun _ => api_mem_modules_of_func

theorem flatMap_typesOf_perm (s : Sheet) : (s.modules.flatMap s.typesOf).Perm s.types :=
  flatMap_filter_perm TypeCorrection.api s.modules s.nodup_modules s.types fun _ => api_mem_modules_of_type

theorem modules_edit_type (s : Sheet) (t : TypeCorrection) :
    (s.edit (.type t)).modules = if t.api ∈ s.modules then s.modules else s.modules ++ [t.api] := by
  simp only [modules, edit, List.map_append, List.map_cons, List.map_nil, ← List.append_assoc,
    List.mem_eraseDups, eraseDups_concat]

/-- Functions are read first, so a function goes to the end only while there is no type. -/
theorem modules_edit_func {s : Sheet} (hs : s.types = []) (f : FuncCorrection) :
    (s.edit (.func f)).modules = if f.api ∈ s.modules then s.modules else s.modules ++ [f.api] := by
  simp only [modules, edit, hs, List.map_append, List.map_cons, List.map_nil, List.append_nil,
    List.mem_eraseDups, eraseDups_concat]

theorem apiOf_of_not_mem {s : Sheet} {api : String} (h : api ∉ s.modules) : s.apiOf api = { name := api } := by
  have hf : s.funcsOf api = [] := by
    simp only [funcsOf, List.filter_eq_nil_iff, decide_eq_true_eq]
    exact fun f hf he => h (mem_modules.2 (.inl ⟨f, hf, he⟩))
  have ht : s.typesOf api = [] := by
    simp only [typesOf, List.filter_eq_nil_iff, decide_eq_true_eq]
    exact fun t ht he => h (mem_modules.2 (.inr ⟨t, ht, he⟩))
  simp [apiOf, hf, ht, NameMap.ofList, NameMap.file]

theorem find?_apis_image (s : Sheet) (api : String) :
    s.image.apis.find? api = if api ∈ s.modules then some (s.apiOf api) else none := by
  have hfind : s.image.apis.find? api = (s.modules.find? (· = api)).map s.apiOf :=
    NameMap.find?_ofList s.modules id s.apiOf (by simpa using s.nodup_modules) api
  rw [hfind]
  by_cases ha : api ∈ s.modules
  · have hsome : (s.modules.find? (· = api)).isSome := List.find?_isSome.2 ⟨api, ha, by simp⟩
    obtain ⟨b, hb⟩ := Option.isSome_iff_exists.1 hsome
    have : b = api := by simpa using List.find?_some hb
    simp [hb, ha, this]
  · have : s.modules.find? (fun a => decide (a = api)) = none := by
      simp only [List.find?_eq_none, decide_eq_true_eq]
      intro a hm he
      subst he
      exact ha hm
    simp [this, ha]

theorem api_image (s : Sheet) (api : String) : s.image.api api = s.apiOf api := by
  rw [Tree.api, find?_apis_image]
  by_cases h : api ∈ s.modules
  · simp [h]
  · simp [h, apiOf_of_not_mem h]

theorem apiOf_edit_func (s : Sheet) (f : FuncCorrection) :
    (s.edit (.func f)).apiOf f.api =
      { s.apiOf f.api with funcs := (s.apiOf f.api).funcs.push (f.name, f.node) } := by
  simp [apiOf, edit, funcsOf, typesOf, NameMap.ofList, NameMap.file]

theorem apiOf_edit_type (s : Sheet) (t : TypeCorrection) :
    (s.edit (.type t)).apiOf t.api =
      { s.apiOf t.api with types := (s.apiOf t.api).types.push (t.name, t.node) } := by
  simp [apiOf, edit, funcsOf, typesOf, NameMap.ofList, NameMap.file]

theorem fresh_or_apiOf (s : Sheet) (api : String) :
    (if api ∈ s.modules then s.apiOf api else { name := api }) = s.apiOf api := by
  by_cases h : api ∈ s.modules
  · rw [if_pos h]
  · rw [if_neg h, apiOf_of_not_mem h]

theorem image_edit_func {s : Sheet} (hs : s.types = []) (f : FuncCorrection) :
    (s.edit (.func f)).image = ⟨s.image.apis.upsert f.api { name := f.api }
      ({ · with funcs := (s.apiOf f.api).funcs.push (f.name, f.node) }), s.recordCount + f.recordCount⟩ := by
  have hother : ∀ api, api ≠ f.api → (s.edit (.func f)).apiOf api = s.apiOf api := by
    intro api h
    simp [apiOf, edit, funcsOf, typesOf, h.symm]
  have hu := NameMap.upsert_ofList s.nodup_modules s.apiOf _ f.api { name := f.api }
    ({ · with funcs := (s.apiOf f.api).funcs.push (f.name, f.node) })
    (by rw [fresh_or_apiOf, apiOf_edit_func]) hother
  rw [image, modules_edit_func hs, ← hu]
  simp [image, recordCount, edit, hs]

theorem image_edit_type (s : Sheet) (t : TypeCorrection) :
    (s.edit (.type t)).image = ⟨s.image.apis.upsert t.api { name := t.api }
      ({ · with types := (s.apiOf t.api).types.push (t.name, t.node) }), s.recordCount + t.recordCount⟩ := by
  have hother : ∀ api, api ≠ t.api → (s.edit (.type t)).apiOf api = s.apiOf api := by
    intro api h
    simp [apiOf, edit, funcsOf, typesOf, h.symm]
  have hu := NameMap.upsert_ofList s.nodup_modules s.apiOf _ t.api { name := t.api }
    ({ · with types := (s.apiOf t.api).types.push (t.name, t.node) })
    (by rw [fresh_or_apiOf, apiOf_edit_type]) hother
  rw [image, modules_edit_type, ← hu]
  simp [image, recordCount, edit, Nat.add_assoc]

end Sheet
end Errata
