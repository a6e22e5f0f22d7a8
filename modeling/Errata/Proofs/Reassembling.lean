import Errata.Proofs.Records

/-! A tree read back as a sheet: the records of its nodes, module by module. That sheet may have its records in another
order, but it names the modules in the same one, and so it compiles to the same tree. And the children that a node keeps
in its record are the ones that it holds. Main statements: `Sheet.image_grouped`, `Sheet.held_record`,
`Sheet.compile_reassembled`. -/
namespace Errata
universe u

theorem eraseDups_flatMap_filter (ns : List String) {ks : List String} (hk : ks.Nodup) :
    (ks.flatMap fun k => ns.filter (· = k)).eraseDups = ks.filter (· ∈ ns) := by
  induction ks with
  | nil => rfl
  | cons k ks ih =>
    obtain ⟨hn, hk⟩ := List.nodup_cons.1 hk
    have hrest : (ks.flatMap fun l => ns.filter (· = l)).removeAll (ns.filter (· = k)) =
        ks.flatMap fun l => ns.filter (· = l) := by
      refine List.filter_eq_self.2 fun n hm => ?_
      obtain ⟨l, hl, hnl⟩ := List.mem_flatMap.1 hm
      have hnl : n = l := of_decide_eq_true (List.mem_filter.1 hnl).2
      have hnk : n ≠ k := fun e => hn (e ▸ hnl ▸ hl)
      simp [hnk]
    rw [List.flatMap_cons, List.eraseDups_append, hrest, ih hk, List.filter_eq]
    by_cases hm : k ∈ ns
    · obtain ⟨m, hcount⟩ := Nat.exists_eq_succ_of_ne_zero (mt List.count_eq_zero.1 (not_not_intro hm))
      simp [hm, hcount, List.replicate_succ, List.eraseDups_cons]
    · simp [hm, List.count_eq_zero_of_not_mem hm]

/-- Grouping two lists by the keys of both, in the order in which the one and then the other names them, keeps that
order. -/
theorem eraseDups_regroup (ms ns : List String) :
    (((ms ++ ns).eraseDups.flatMap fun k => ms.filter (· = k)) ++
      (ms ++ ns).eraseDups.flatMap fun k => ns.filter (· = k)).eraseDups = (ms ++ ns).eraseDups := by
  have hkeys := nodup_eraseDups (ms ++ ns)
  have hmem (n : String) : ((ms ++ ns).eraseDups.flatMap fun k => ms.filter (· = k)).elem n = ms.elem n := by
    have hiff : n ∈ ((ms ++ ns).eraseDups.flatMap fun k => ms.filter (· = k)) ↔ n ∈ ms := by
      simp +contextual [List.mem_flatMap]
    simpa [List.elem_eq_mem] using hiff
  have hnew : ((ms ++ ns).eraseDups.flatMap fun k => ns.filter (· = k)).removeAll
      ((ms ++ ns).eraseDups.flatMap fun k => ms.filter (· = k)) =
        (ms ++ ns).eraseDups.flatMap fun k => (ns.removeAll ms).filter (· = k) := by
    simp only [List.removeAll, hmem, List.filter_flatMap]
    exact List.flatMap_congr fun k _ => List.filter_comm ..
  have hold : ms.eraseDups.filter (· ∈ ns.removeAll ms) = [] := by
    simp +contextual [List.filter_eq_nil_iff, List.removeAll]
  have hlater : (ns.removeAll ms).eraseDups.filter (· ∈ ms) = [] := by
    simp [List.filter_eq_nil_iff, List.removeAll]
  have hfirst : ms.eraseDups.filter (· ∈ ms) = ms.eraseDups := by
    simp [List.filter_eq_self]
  have hsecond : (ns.removeAll ms).eraseDups.filter (· ∈ ns.removeAll ms) = (ns.removeAll ms).eraseDups := by
    simp [List.filter_eq_self]
  rw [List.eraseDups_append, hnew, eraseDups_flatMap_filter ms hkeys, eraseDups_flatMap_filter _ hkeys,
    List.eraseDups_append, List.filter_append, List.filter_append, hfirst, hlater, hold, hsecond, List.append_nil,
    List.nil_append]

theorem filter_flatMap_filter {α : Type u} (key : α → String) {ks : List String} (hk : ks.Nodup) (xs : List α)
    (hx : ∀ a ∈ xs, key a ∈ ks) (k : String) :
    (ks.flatMap fun k => xs.filter (key · = k)).filter (key · = k) = xs.filter (key · = k) := by
  have hgroup (l : String) :
      (xs.filter (key · = l)).filter (key · = k) = if l = k then xs.filter (key · = k) else [] := by
    rw [List.filter_filter]
    by_cases hl : l = k
    · simp [hl]
    · rw [if_neg hl, List.filter_eq_nil_iff]
      intro a _
      simpa using fun ha => ha ▸ Ne.symm hl
  have hall (ks : List String) (hk : ks.Nodup) : (ks.flatMap fun k => xs.filter (key · = k)).filter (key · = k) =
      if k ∈ ks then xs.filter (key · = k) else [] := by
    induction ks with
    | nil => rfl
    | cons l ks ih =>
      obtain ⟨hl, hk⟩ := List.nodup_cons.1 hk
      rw [List.flatMap_cons, List.filter_append, hgroup, ih hk]
      by_cases hlk : l = k
      · subst hlk
        simp [hl]
      · simp [hlk, Ne.symm hlk]
  rw [hall ks hk]
  by_cases hm : k ∈ ks
  · rw [if_pos hm]
  · rw [if_neg hm, eq_comm, List.filter_eq_nil_iff]
    intro a ha hka
    exact hm (of_decide_eq_true hka ▸ hx a ha)

/-- The records of the nodes at the top of a tree, module by module. -/
def Tree.sheet (t : Tree) : Sheet where
  funcs := t.apis.values.toList.flatMap fun a => a.funcs.values.toList.map (·.record)
  types := t.apis.values.toList.flatMap fun a => a.types.values.toList.map (·.record)

namespace Sheet
variable {s : Sheet}

def grouped (s : Sheet) : Sheet := ⟨s.modules.flatMap s.funcsOf, s.modules.flatMap s.typesOf⟩

theorem modules_grouped (s : Sheet) : s.grouped.modules = s.modules := by
  have hgroups {α : Type} (key : α → String) (xs : List α) :
      (s.modules.flatMap fun api => xs.filter (key · = api)).map key =
        s.modules.flatMap fun api => (xs.map key).filter (· = api) := by
    simp only [List.map_flatMap, List.filter_map, Function.comp_def]
  have hfuncs : s.grouped.funcs.map (·.api) = _ := hgroups (·.api) s.funcs
  have htypes : s.grouped.types.map (·.api) = _ := hgroups (·.api) s.types
  calc
    s.grouped.modules = (s.grouped.funcs.map (·.api) ++ s.grouped.types.map (·.api)).eraseDups := rfl
    _ = s.modules := by
      rw [hfuncs, htypes]
      exact eraseDups_regroup (s.funcs.map (·.api)) (s.types.map (·.api))

theorem apiOf_grouped (s : Sheet) (api : String) : s.grouped.apiOf api = s.apiOf api := by
  have hfuncs : s.grouped.funcsOf api = s.funcsOf api :=
    filter_flatMap_filter FuncCorrection.api s.nodup_modules s.funcs (fun _ => api_mem_modules_of_func) api
  have htypes : s.grouped.typesOf api = s.typesOf api :=
    filter_flatMap_filter TypeCorrection.api s.nodup_modules s.types (fun _ => api_mem_modules_of_type) api
  rw [apiOf, hfuncs, htypes, apiOf]

theorem image_grouped (s : Sheet) : s.grouped.image = s.image := by
  have hcount : s.grouped.recordCount = s.recordCount := by
    have hfuncs : (s.grouped.funcs.map (·.recordCount)).sum = _ := (s.flatMap_funcsOf_perm.map _).sum_nat
    have htypes : (s.grouped.types.map (·.recordCount)).sum = _ := (s.flatMap_typesOf_perm.map _).sum_nat
    rw [recordCount, hfuncs, htypes, recordCount]
  have hmodules : s.grouped.modules.map (fun api => (api, s.grouped.apiOf api)) =
      s.modules.map fun api => (api, s.apiOf api) := by
    simp only [modules_grouped, apiOf_grouped]
  rw [image, hmodules, hcount, image]

theorem sheet_image (hs : s.WellFormed) : s.image.sheet = s.grouped := by
  have hapis : s.image.apis.values.toList = s.modules.map s.apiOf :=
    NameMap.values_ofList_map s.modules id s.apiOf (by simpa using s.nodup_modules)
  have hfuncs (api : String) : (s.apiOf api).funcs.values.toList = (s.funcsOf api).map FuncCorrection.node :=
    NameMap.values_ofList_map _ _ _ (hs.funcs_distinct api)
  have htypes (api : String) : (s.apiOf api).types.values.toList = (s.typesOf api).map TypeCorrection.node :=
    NameMap.values_ofList_map _ _ _ (hs.types_distinct api)
  have hrecord (f : FuncCorrection) : f.node.record = f := rfl
  simp only [Tree.sheet, grouped, hapis, List.flatMap_map, hfuncs, htypes, List.map_map, Function.comp_def, hrecord,
    TypeCorrection.record_node, List.map_id_fun', id]

theorem held_record {c : Correction} (hc : c.WellFormed) (role : Role) :
    (c.node.held role).map NameMap.keys = (c.inside? role).map (·.map Correction.name) ∧
      (c.node.held role).map (fun m => m.values.toList.map Node.record?) = (c.inside? role).map (·.map some) := by
  have hd := hc.distinct role
  rw [Correction.held_node hc, Option.map_map, Option.map_map]
  unfold Correction.inside at hd
  cases h : c.inside? role with
  | none => exact ⟨rfl, rfl⟩
  | some ds =>
    rw [h, Option.getD_some] at hd
    have hkeys := NameMap.keys_ofList_map ds Correction.name Correction.node hd
    have hvalues := NameMap.values_ofList_map ds Correction.name Correction.node hd
    simp [hkeys, hvalues, Correction.record?_node]

/-- The records of a compiled tree, read module by module, compile to that tree again. -/
theorem compile_reassembled {t : Tree} (h : s.compile.result = .ok t) :
    t.sheet.compile.result = .ok t ∧
    ∀ p n c, (Node.tree t).at? p = some n → n.record? = some c → ∀ role,
      (n.held role).map NameMap.keys = (c.inside? role).map (·.map Correction.name) ∧
      (n.held role).map (fun m => m.values.toList.map Node.record?) = (c.inside? role).map (·.map some) := by
  obtain ⟨hs, rfl⟩ := compile_eq_ok.1 h
  refine ⟨?_, fun p n c hat hr role => ?_⟩
  · have hgrouped : s.grouped.WellFormed :=
      hs.of_subperm s.flatMap_funcsOf_perm.subperm s.flatMap_typesOf_perm.subperm
    rw [sheet_image hs]
    exact compile_eq_ok.2 ⟨hgrouped, s.image_grouped⟩
  · obtain ⟨_, hc, rfl⟩ := node_at_image hs hat hr
    exact held_record hc role

theorem compile_reassembled_alternating : ∃ t, alternating.compile.result = .ok t ∧
    t.sheet.types.map (·.name) = ["I", "T"] ∧ t.sheet ≠ alternating ∧ t.sheet.compile.result = .ok t ∧
    ∃ n, (Node.tree t).at? [⟨.api, "A"⟩, ⟨.type, "T"⟩] = some n ∧ (n.held .nested).map NameMap.keys = some ["N"] ∧
      (n.held .method).map NameMap.keys = none := by
  have hw : alternating.WellFormed := by decide
  have hc := compile_eq_ok.2 ⟨hw, rfl⟩
  obtain ⟨hagain, hheld⟩ := compile_reassembled hc
  let c : TypeCorrection :=
    { api := "A", name := "T", fields := some [{ name := "x" }], nested := some [{ name := "N" }] }
  have hat : (Node.tree alternating.image).at? [⟨.api, "A"⟩, ⟨.type, "T"⟩] = some (Correction.type c).node :=
    at?_image hw "A" ⟨.type, "T"⟩ []
  have hrecord := Correction.record?_node (.type c)
  refine ⟨_, hc, ?_, ?_, hagain, _, hat, (hheld _ _ _ hat hrecord .nested).1, (hheld _ _ _ hat hrecord .method).1⟩
  · rw [sheet_image hw]
    decide +kernel
  · rw [sheet_image hw]
    decide +kernel

end Sheet
end Errata
