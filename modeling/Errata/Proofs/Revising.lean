import Errata.Proofs.Records

/-! Two versions of one sheet: with and without one of its records, and in two orders. A change of the sheet shows in
the compiled tree where it was made and nowhere else, and a change of the order only in the order. Main statements:
`Sheet.erase_local`, `Sheet.order_immaterial`. -/
namespace Errata
namespace Sheet
variable {s s' : Sheet} {r : SheetEdit}

theorem records_erase (hr : r ∈ s.records) :
    ∃ before after, s.records = before ++ r :: after ∧ (s.erase r).records = before ++ after := by
  cases r with
  | func f =>
    obtain ⟨fs, gs, _, hfuncs, herase⟩ := List.exists_erase_eq (func_mem_records.1 hr)
    refine ⟨s.types.map .type ++ fs.map .func, gs.map .func, ?_, ?_⟩
    · simp [records, hfuncs]
    · simp [records, erase, herase]
  | type t =>
    obtain ⟨ts, us, _, htypes, herase⟩ := List.exists_erase_eq (type_mem_records.1 hr)
    refine ⟨ts.map .type, us.map .type ++ s.funcs.map .func, ?_, ?_⟩
    · simp [records, htypes]
    · simp [records, erase, herase]

theorem nodup_places (hs : s.WellFormed) : (s.records.map SheetEdit.place).Nodup := by
  have hsort {α : Type} (role : Role) (key : α → String × String) {xs : List α} (h : (xs.map key).Nodup) :
      (xs.map fun a => ([⟨.api, (key a).1⟩, ⟨role, (key a).2⟩] : Place)).Nodup := by
    have hmap := h.map (f := fun k : String × String => ([⟨.api, k.1⟩, ⟨role, k.2⟩] : Place)) fun a b hab => by
      simpa [Prod.ext_iff] using hab
    rwa [List.map_map] at hmap
  have htypes := hsort .type _ ((nodup_map_pair (·.api) (·.name) s.types).2 hs.types_distinct)
  have hfuncs := hsort .func _ ((nodup_map_pair (·.api) (·.name) s.funcs).2 hs.funcs_distinct)
  rw [records, List.map_append, List.map_map, List.map_map, List.nodup_append]
  refine ⟨htypes, hfuncs, ?_⟩
  intro p hp q hq hpq
  obtain ⟨t, _, rfl⟩ := List.mem_map.1 hp
  obtain ⟨f, _, rfl⟩ := List.mem_map.1 hq
  simp [SheetEdit.place, SheetEdit.step] at hpq

theorem WellFormed.erase (hs : s.WellFormed) (r : SheetEdit) : (s.erase r).WellFormed := by
  cases r with
  | func f => exact hs.of_subperm (List.erase_subperm f s.funcs) (.refl s.types)
  | type t => exact hs.of_subperm (.refl s.funcs) (List.erase_subperm t s.types)

theorem size_image (s : Sheet) : s.image.size = (s.records.map SheetEdit.recordCount).sum := by
  have hsize : s.image.size = (s.funcs.map (·.recordCount)).sum + (s.types.map (·.recordCount)).sum := rfl
  rw [hsize, records, List.map_append, List.sum_append_nat, List.map_map, List.map_map, Nat.add_comm]
  rfl

theorem apiView_erase {api : String} (hr : r ∈ s.records) (h : api ≠ r.api) :
    (s.erase r).apiView api = s.apiView api := by
  have hfilter {α : Type} [BEq α] [LawfulBEq α] (key : α → String) (a : α) (xs : List α) (ha : api ≠ key a) :
      (xs.erase a).filter (key · = api) = xs.filter (key · = api) := by
    rw [← List.erase_filter]
    exact List.erase_of_not_mem fun hm => ha (of_decide_eq_true (List.mem_filter.1 hm).2).symm
  have hapi : (s.erase r).apiOf api = s.apiOf api := by
    cases r with
    | func f =>
      have hfuncs : (s.erase (.func f)).funcsOf api = s.funcsOf api := hfilter FuncCorrection.api f s.funcs h
      simp only [apiOf, hfuncs]
      rfl
    | type t =>
      have htypes : (s.erase (.type t)).typesOf api = s.typesOf api := hfilter TypeCorrection.api t s.types h
      simp only [apiOf, htypes]
      rfl
  have hmem : api ∈ (s.erase r).modules ↔ api ∈ s.modules := by
    obtain ⟨before, after, hrecords, herase⟩ := records_erase hr
    rw [mem_modules_iff, mem_modules_iff, hrecords, herase]
    simp [or_and_right, exists_or, h.symm]
  simp only [apiView, hmem, hapi]

theorem listingOf_erase (hs : s.WellFormed) (hr : r ∈ s.records) : ∃ before after,
    s.listingOf r.api = before ++ r.listing ++ after ∧ (s.erase r).listingOf r.api = before ++ after ∧
      (∀ w ∈ r.listing, r.place <+: w.place) ∧ ∀ w ∈ before ++ after, ¬r.place <+: w.place := by
  obtain ⟨before, after, hrecords, herase⟩ := records_erase hr
  let found := fun rs : List SheetEdit => (rs.filter (·.api = r.api)).flatMap SheetEdit.listing
  refine ⟨found before, found after, ?_, ?_, ?_, ?_⟩
  · rw [listingOf_eq, hrecords]
    simp [found, List.filter_append]
  · rw [listingOf_eq, herase]
    simp [found, List.filter_append]
  · intro w hw
    exact SheetEdit.place_of_mem_listing (hs.record hr).2 hw
  · intro w hw hplace
    have hother : ∃ q ∈ before ++ after, w ∈ q.listing := by
      have hfound : found before ++ found after = found (before ++ after) := by
        simp [found]
      obtain ⟨q, hq, hwq⟩ := List.mem_flatMap.1 (hfound ▸ hw)
      exact ⟨q, List.mem_of_mem_filter hq, hwq⟩
    obtain ⟨q, hq, hwq⟩ := hother
    have hqs : q ∈ s.records := by
      rw [hrecords]
      exact List.mem_append.2 ((List.mem_append.1 hq).imp_right (List.mem_cons_of_mem r))
    have hqplace := SheetEdit.place_of_mem_listing (hs.record hqs).2 hwq
    -- Two places of one length that both lead to the visit are one place, which only one record has.
    have hsame : r.place = q.place := (List.prefix_of_prefix_length_le hplace hqplace (Nat.le_refl 2)).eq_of_length rfl
    have hnodup := nodup_places hs
    rw [hrecords, List.map_append, List.map_cons, List.nodup_middle, List.nodup_cons] at hnodup
    exact hnodup.1 (hsame ▸ List.map_append ▸ List.mem_map_of_mem hq)

/-- Look-ups that do not go through an erased record lead to what they led to before. -/
theorem followAll_erase (hs : s.WellFormed) (hr : r ∈ s.records) {hops : List Hop} (hlen : 2 ≤ hops.length)
    (h : ¬[.into .api r.api, .into r.step.role r.step.name] <+: hops) :
    (View.root (.tree (s.erase r).image)).followAll hops = (View.root (.tree s.image)).followAll hops := by
  obtain ⟨before, after, hrecords, herase⟩ := records_erase hr
  refine followAll_congr (hs.erase r) hs hlen fun api role name hprefix => ?_
  refine declared?_congr (hs.erase r) hs fun q hapi hstep => ?_
  have hne : q ≠ r := by
    intro hq
    subst hq
    rw [hapi, hstep] at h
    exact h hprefix
  simp [hrecords, herase, hne]

theorem keys_image (s : Sheet) : s.image.apis.keys = s.modules := by
  have hkeys := NameMap.keys_ofList_map s.modules id s.apiOf (by simpa using s.nodup_modules)
  exact hkeys.trans (List.map_id _)

/-- A sheet without one of its records compiles to the tree without what the record put there. -/
theorem erase_local {t : Tree} (h : s.compile.result = .ok t) (hr : r ∈ s.records) :
    ∃ t', (s.erase r).compile.result = .ok t' ∧
      t.size = t'.size + r.recordCount ∧ r.listing.length = r.recordCount ∧
      (∀ hops, 2 ≤ hops.length → ¬[.into .api r.api, .into r.step.role r.step.name] <+: hops →
        (View.root (.tree t')).followAll hops = (View.root (.tree t)).followAll hops) ∧
      ∀ api, ∃ v v', (View.root (.tree t)).followAll [.into .api api] = .ok v ∧
        (View.root (.tree t')).followAll [.into .api api] = .ok v' ∧ (api ≠ r.api → v' = v) ∧
        (api = r.api → ∃ before after, v.visits = before ++ r.listing ++ after ∧ v'.visits = before ++ after ∧
          (∀ w ∈ r.listing, r.place <+: w.place) ∧ ∀ w ∈ before ++ after, ¬r.place <+: w.place) ∧
        ((∀ q ∈ (s.erase r).records, q.api ≠ api) → v' = .absent .api) := by
  obtain ⟨hs, rfl⟩ := compile_eq_ok.1 h
  have hs' := hs.erase r
  have hview (s : Sheet) (api : String) :
      (View.root (.tree s.image)).followAll [.into .api api] = .ok (s.apiView api) := by
    simpa [View.followAll, apiView] using follow_api s api
  refine ⟨_, compile_eq_ok.2 ⟨hs', rfl⟩, ?_, r.length_listing, fun hops => followAll_erase hs hr, fun api =>
    ⟨_, _, hview s api, hview (s.erase r) api, apiView_erase hr, ?_, ?_⟩⟩
  · obtain ⟨before, after, hrecords, herase⟩ := records_erase hr
    rw [size_image, size_image, hrecords, herase]
    simp only [List.map_append, List.map_cons, List.sum_append_nat, List.sum_cons]
    omega
  · intro hapi
    subst hapi
    rw [visits_apiView hs, visits_apiView hs']
    exact listingOf_erase hs hr
  · intro hnone
    refine if_neg fun hmem => ?_
    obtain ⟨q, hq, hapi⟩ := mem_modules_iff.1 hmem
    exact hnone q hq hapi

theorem erase_local_alternating : ∃ t, alternating.compile.result = .ok t ∧
    let f : SheetEdit := .func { api := "B", name := "f", params := [{ name := "p" }] }
    let method : List Hop := [.into .api "B", .into .type "I", .widen, .into .method "m"]
    ∃ t', (alternating.erase f).compile.result = .ok t' ∧ t.apis.keys = ["B", "A"] ∧ t'.apis.keys = ["A", "B"] ∧
      t.size = t'.size + 2 ∧
      (View.root (.tree t')).followAll method = (View.root (.tree t)).followAll method ∧
      ∃ v v', (View.root (.tree t)).followAll [.into .api "B"] = .ok v ∧
        (View.root (.tree t')).followAll [.into .api "B"] = .ok v' ∧
        ∃ before after, v.visits = before ++ f.listing ++ after ∧ v'.visits = before ++ after := by
  have hw : alternating.WellFormed := by decide
  have hc := compile_eq_ok.2 ⟨hw, rfl⟩
  refine ⟨_, hc, ?_⟩
  intro f method
  have hf : f ∈ alternating.records := by simp [f, records, alternating]
  obtain ⟨t', hc', hsize, _, hlookup, happly⟩ := erase_local hc hf
  obtain ⟨v, v', hv, hv', _, hpiece, _⟩ := happly "B"
  obtain ⟨before, after, hbefore, hafter, _⟩ := hpiece rfl
  obtain ⟨_, ht'⟩ := compile_eq_ok.1 hc'
  refine ⟨t', hc', ?_, ?_, hsize, hlookup method (by decide) ?_, v, v', hv, hv', before, after, hbefore, hafter⟩
  · rw [keys_image]
    decide +kernel
  · rw [← ht', keys_image]
    decide +kernel
  · intro hprefix
    obtain ⟨more, hmore⟩ := hprefix
    simp [f, method, SheetEdit.step] at hmore

theorem modules_perm (h : s.records.Perm s'.records) : s.modules.Perm s'.modules := by
  rw [List.perm_ext_iff_of_nodup s.nodup_modules s'.nodup_modules]
  intro api
  rw [mem_modules_iff, mem_modules_iff]
  simp only [h.mem_iff]

theorem scope_perm (hs : s.WellFormed) (hs' : s'.WellFormed) (h : s.records.Perm s'.records) (includeFuncs : Bool) :
    (s.image.scope includeFuncs).Perm (s'.image.scope includeFuncs) := by
  rw [Tree.scope, Tree.scope, visits_image hs, visits_image hs']
  have hlisting : s.listing.Perm s'.listing :=
    s.listing_perm.trans ((h.flatMap_right SheetEdit.listing).trans s'.listing_perm.symm)
  exact hlisting.filter _

/-- The same records in another order compile to a tree that differs in the order only. -/
theorem order_immaterial (hfuncs : s.funcs.Perm s'.funcs) (htypes : s.types.Perm s'.types) :
    ((∃ t, s.compile.result = .ok t) ↔ ∃ t', s'.compile.result = .ok t') ∧
    ∀ t t', s.compile.result = .ok t → s'.compile.result = .ok t' →
      t.size = t'.size ∧ t.apis.keys.Perm t'.apis.keys ∧
      (∀ hops, 2 ≤ hops.length →
        (View.root (.tree t)).followAll hops = (View.root (.tree t')).followAll hops) ∧
      ∀ l settings, settings.policy ≠ .fail → ∃ r r', (t.review l settings).result = .ok r ∧
        (t'.review l settings).result = .ok r' ∧ r.visited = r'.visited ∧ r.unused.Perm r'.unused := by
  have hrecords : s.records.Perm s'.records := (htypes.map _).append (hfuncs.map _)
  have hwell : s.WellFormed ↔ s'.WellFormed :=
    ⟨fun hs => hs.of_subperm hfuncs.symm.subperm htypes.symm.subperm,
      fun hs => hs.of_subperm hfuncs.subperm htypes.subperm⟩
  refine ⟨?_, fun t t' h h' => ?_⟩
  · simp only [compile_eq_ok, exists_and_left, exists_eq', and_true, hwell]
  · obtain ⟨hs, rfl⟩ := compile_eq_ok.1 h
    obtain ⟨hs', rfl⟩ := compile_eq_ok.1 h'
    refine ⟨?_, ?_, fun hops hlen => ?_, fun l settings hp => ?_⟩
    · rw [size_image, size_image, (hrecords.map _).sum_nat]
    · rw [keys_image, keys_image]
      exact modules_perm hrecords
    · exact followAll_congr hs hs' hlen fun api role name _ =>
        declared?_congr hs hs' fun r _ _ => hrecords.mem_iff
    · have hscope := scope_perm hs hs' hrecords settings.includeFuncs
      exact ⟨_, _, review_scope hs l hp, review_scope hs' l hp, hscope.length_eq, (hscope.filter _).map _⟩

theorem order_immaterial_alternating :
    let reversed : Sheet := ⟨alternating.funcs.reverse, alternating.types.reverse⟩
    ∃ t t', alternating.compile.result = .ok t ∧ reversed.compile.result = .ok t' ∧ t.apis.keys = ["B", "A"] ∧
      t'.apis.keys = ["A", "B"] ∧ t.size = t'.size ∧ ∃ r r', (t.review .blank {}).result = .ok r ∧
        (t'.review .blank {}).result = .ok r' ∧ r.unused.Perm r'.unused := by
  intro reversed
  have hw : alternating.WellFormed := by decide
  have hc := compile_eq_ok.2 ⟨hw, rfl⟩
  have hfuncs : alternating.funcs.Perm reversed.funcs := (List.reverse_perm _).symm
  have htypes : alternating.types.Perm reversed.types := (List.reverse_perm _).symm
  obtain ⟨hiff, hsame⟩ := order_immaterial hfuncs htypes
  obtain ⟨t', hc'⟩ := hiff.1 ⟨_, hc⟩
  obtain ⟨hsize, _, _, hreview⟩ := hsame _ _ hc hc'
  obtain ⟨r, r', hr, hr', _, hperm⟩ := hreview .blank {} (by decide)
  obtain ⟨_, ht'⟩ := compile_eq_ok.1 hc'
  refine ⟨_, t', hc, hc', ?_, ?_, hsize, r, r', hr, hr', hperm⟩
  · rw [keys_image]
    decide +kernel
  · rw [← ht', keys_image]
    decide +kernel

end Sheet
end Errata
