import Errata.Proofs.Lookup
import Errata.Proofs.Walking
import Errata.Session

/-! A walk over a compiled sheet reports the records of the sheet in the order in which the sheet lists them.
Main statements: `Correction.found_node` for one record, `Sheet.visits_image` for a sheet. -/
namespace Errata
namespace Correction

def kind : Correction → Kind
  | .type t => t.kind
  | .func _ => .func
  | .field _ => .field
  | .param _ => .param

def listing (role : Role) (path : List String) (place : Place) : Correction → List Visit
  | .type t => t.listing role path place
  | .func f => f.listing role path place
  | .field f => [⟨path ++ [f.name], place ++ [⟨role, f.name⟩], .field, .field f⟩]
  | .param p => [⟨path ++ [p.name], place ++ [⟨role, p.name⟩], .param, .param p⟩]

theorem listing_eq (role : Role) (path : List String) (place : Place) (c : Correction) :
    c.listing role path place = ⟨path ++ [c.name], place ++ [⟨role, c.name⟩], c.kind, c⟩ ::
      Role.all.flatMap fun r =>
        (c.inside r).flatMap (·.listing r (path ++ [c.name]) (place ++ [⟨role, c.name⟩])) := by
  cases c with
  | type t =>
    have hfields (place : Place) (path : List String) : (t.fields.getD []).map (·.listed path place) =
        (inside (.type t) .field).flatMap (·.listing .field path place) := by
      rw [inside_field, List.flatMap_map, List.map_eq_flatMap]
      rfl
    have hnested (place : Place) (path : List String) : (t.nested.getD []).flatMap (·.listing .nested path place) =
        (inside (.type t) .nested).flatMap (·.listing .nested path place) := by
      rw [inside_nested, List.flatMap_map]
      rfl
    have hmethods (place : Place) (path : List String) : (t.methods.getD []).flatMap (·.listing .method path place) =
        (inside (.type t) .method).flatMap (·.listing .method path place) := by
      rw [inside_method, List.flatMap_map]
      rfl
    rw [listing, TypeCorrection.listing_eq, TypeCorrection.around, hfields, hnested, hmethods]
    simp [Role.all, inside, inside?, kind, name]
  | func f =>
    have hparams (place : Place) (path : List String) : f.params.map (·.listed path place) =
        (inside (.func f) .param).flatMap (·.listing .param path place) := by
      rw [inside_param, List.flatMap_map, List.map_eq_flatMap]
      rfl
    rw [listing, FuncCorrection.listing, hparams]
    simp [Role.all, inside, inside?, kind, name]
  | field f => rfl
  | param p => rfl

theorem kind?_node (c : Correction) : c.node.kind? = some c.kind := by
  cases c with
  | type t =>
    have : t.node.kind = t.kind := by
      rw [TypeCorrection.node_eq, TypeCorrection.nodeAround, TypeCorrection.kind, TypeCorrection.isInterface]
      cases t.methods <;> rfl
    simp [node, Node.kind?, kind, this]
  | func f => rfl
  | field f => rfl
  | param p => rfl

theorem filed_node {c : Correction} (hc : c.WellFormed) :
    c.node.filed = Role.all.flatMap fun role => (c.inside role).map fun d => (⟨role, d.name⟩, d.node) := by
  rw [Node.filed]
  apply List.flatMap_congr
  intro role _
  have hd := hc.distinct role
  rw [held_node hc]
  unfold inside at hd ⊢
  cases h : c.inside? role with
  | none => rfl
  | some ds =>
    rw [h, Option.getD_some] at hd
    simp only [Option.map_some, Option.elim_some, Option.getD_some,
      NameMap.entries_ofList_map ds Correction.name node hd, List.map_map]
    rfl

theorem own_node (c : Correction) (place : Place) (path : List String) :
    c.node.own place path = [⟨path, place, c.kind, c⟩] := by
  rw [Node.own, kind?_node, record?_node]

theorem found_node {c : Correction} (hc : c.WellFormed) (role : Role) (place : Place) (path : List String) :
    Node.found place (⟨role, c.name⟩, c.node) path = c.listing role path place := by
  induction c using nesting generalizing role place path with
  | inner c ih =>
    have hname : c.node.segment c.name = c.name := by
      rw [Node.segment, record?_node]
      rfl
    rw [Node.found, hname, own_node, Node.below_eq, filed_node hc, listing_eq, List.flatMap_assoc,
      List.singleton_append]
    refine congrArg (List.cons _) ?_
    apply List.flatMap_congr
    intro r _
    rw [List.flatMap_map]
    apply List.flatMap_congr
    intro d hd
    exact ih r d hd (hc.inside hd) r _ _

end Correction

theorem FuncCorrection.length_listing (f : FuncCorrection) (role : Role) (path : List String) (place : Place) :
    (f.listing role path place).length = f.recordCount := by
  simp [listing, recordCount]

theorem TypeCorrection.length_listing (t : TypeCorrection) (role : Role) (path : List String) (place : Place) :
    (t.listing role path place).length = t.recordCount := by
  induction t using nesting generalizing role path place with
  | inner t ih =>
    have hnested (path : List String) (place : Place) :
        ((t.nested.getD []).flatMap (·.listing .nested path place)).length =
          ((t.nested.getD []).map (·.recordCount)).sum := by
      rw [List.length_flatMap]
      exact congrArg List.sum (List.map_congr_left fun n hn => ih n hn _ _ _)
    rw [listing_eq, around, recordCount_eq, countAround, List.length_append, List.length_append, hnested]
    simp only [List.length_cons, List.length_map, List.length_flatMap, FuncCorrection.length_listing]
    omega

namespace Sheet
variable {s : Sheet}

theorem length_listing (s : Sheet) : s.listing.length = s.recordCount := by
  have htypes : ((s.modules.flatMap s.typesOf).map (·.recordCount)).sum = (s.types.map (·.recordCount)).sum :=
    (s.flatMap_typesOf_perm.map _).sum_nat
  have hfuncs : ((s.modules.flatMap s.funcsOf).map (·.recordCount)).sum = (s.funcs.map (·.recordCount)).sum :=
    (s.flatMap_funcsOf_perm.map _).sum_nat
  have hmodule (api : String) : (s.listingOf api).length =
      ((s.typesOf api).map (·.recordCount)).sum + ((s.funcsOf api).map (·.recordCount)).sum := by
    simp [listingOf, List.length_flatMap, TypeCorrection.length_listing, FuncCorrection.length_listing]
  rw [recordCount, ← hfuncs, ← htypes, listing, List.length_flatMap]
  simp only [hmodule]
  induction s.modules with
  | nil => rfl
  | cons api apis ih =>
    simp only [List.map_cons, List.sum_cons, List.flatMap_cons, List.map_append, List.sum_append, ih]
    omega

theorem types_apiOf (hs : s.WellFormed) (api : String) :
    (s.apiOf api).types.entries = (s.typesOf api).map fun t => (t.name, t.node) :=
  NameMap.entries_ofList_map _ _ _ (hs.types_distinct api)

theorem funcs_apiOf (hs : s.WellFormed) (api : String) :
    (s.apiOf api).funcs.entries = (s.funcsOf api).map fun f => (f.name, f.node) :=
  NameMap.entries_ofList_map _ _ _ (hs.funcs_distinct api)

theorem below_apiOf (hs : s.WellFormed) (api : String) (place : Place) (path : List String) :
    (Node.api (s.apiOf api)).below place path = (s.typesOf api).flatMap (·.listing .type path place) ++
      (s.funcsOf api).flatMap (·.listing .func path place) := by
  rw [Node.below_eq, Node.filed_api, Node.filedAs, Node.filedAs, types_apiOf hs, funcs_apiOf hs, List.map_map,
    List.map_map, List.flatMap_append, List.flatMap_map, List.flatMap_map]
  congr 1
  · apply List.flatMap_congr
    intro t ht
    exact Correction.found_node (c := .type t) (hs.types t (List.mem_of_mem_filter ht)) .type place path
  · apply List.flatMap_congr
    intro f hf
    exact Correction.found_node (c := .func f) (hs.funcs f (List.mem_of_mem_filter hf)) .func place path

theorem entries_image (s : Sheet) : s.image.apis.entries = s.modules.map fun api => (api, s.apiOf api) :=
  NameMap.entries_ofList_map s.modules id s.apiOf (by simpa using s.nodup_modules)

theorem visits_image (hs : s.WellFormed) : (Node.tree s.image).visits [] = s.listing := by
  rw [Node.visits_tree, Node.below_eq, Node.filed_tree, Node.filedAs, entries_image, List.map_map,
    List.flatMap_map, listing]
  apply List.flatMap_congr
  intro api _
  exact below_apiOf hs api [⟨.api, api⟩] [api]

theorem search?_wellFormed (hs : s.WellFormed) {p : Place} {c : Correction} (h : s.search? p = some c) :
    c.WellFormed := by
  obtain ⟨_, _, _, _, _, hd, hc⟩ := exists_of_search? h
  exact (declared?_wellFormed hs hd).1.descend hc

theorem at?_image (hs : s.WellFormed) (api : String) (step : Step) (rest : Place) :
    (Node.tree s.image).at? (⟨.api, api⟩ :: step :: rest) =
      (s.search? (⟨.api, api⟩ :: step :: rest)).map Correction.node := by
  rw [Node.at?_cons, child?_image]
  by_cases h : api ∈ s.modules
  · rw [if_pos h, Option.bind_some, Node.at?_cons, child?_apiOf hs, search?]
    cases hd : s.declared? api step with
    | none => rfl
    | some c =>
      have hc := (declared?_wellFormed hs hd).1
      rw [Option.map_some, Option.bind_some, Option.bind_some, Correction.at?_node hc]
  · rw [if_neg h, search?, declared?_of_not_mem hs h]
    rfl

theorem record_at_image (hs : s.WellFormed) (p : Place) :
    ((Node.tree s.image).at? p).bind Node.record? = s.search? p := by
  match p with
  | [] => rfl
  | [⟨.api, api⟩] =>
    rw [Node.at?_cons, child?_image]
    by_cases h : api ∈ s.modules
    · rw [if_pos h]
      rfl
    · rw [if_neg h]
      rfl
  | ⟨.api, api⟩ :: step :: rest =>
    rw [at?_image hs]
    cases s.search? (⟨.api, api⟩ :: step :: rest) with
    | none => rfl
    | some c => exact c.record?_node
  | ⟨.type, _⟩ :: _ | ⟨.func, _⟩ :: _ | ⟨.field, _⟩ :: _ | ⟨.nested, _⟩ :: _ | ⟨.method, _⟩ :: _
  | ⟨.param, _⟩ :: _ => rfl

theorem node_at_image (hs : s.WellFormed) {p : Place} {n : Node} {c : Correction}
    (hat : (Node.tree s.image).at? p = some n) (hr : n.record? = some c) :
    s.search? p = some c ∧ c.WellFormed ∧ n = c.node := by
  have hsearch : s.search? p = some c := by
    rw [← record_at_image hs, hat]
    exact hr
  obtain ⟨api, step, rest, _, rfl, _⟩ := exists_of_search? hsearch
  rw [at?_image hs, hsearch] at hat
  exact ⟨hsearch, search?_wellFormed hs hsearch, (Option.some.inj hat).symm⟩

theorem mem_visits_image (hs : s.WellFormed) (p : Place) (c : Correction) :
    s.search? p = some c ↔ ∃ v ∈ (Node.tree s.image).visits [], v.place = p ∧ v.record = c := by
  rw [← record_at_image hs, Option.bind_eq_some_iff]
  constructor
  · intro h
    obtain ⟨n, hat, hr⟩ := h
    obtain ⟨kind, hk⟩ := Node.exists_kind hr
    obtain ⟨v, hv, hplace, _, hrecord⟩ := Node.mem_visits_iff.2 ⟨n, hat, hk, hr⟩
    exact ⟨v, hv, hplace, hrecord⟩
  · intro h
    obtain ⟨v, hv, hp, hc⟩ := h
    obtain ⟨n, hat, _, hr⟩ := Node.mem_visits_iff.1 ⟨v, hv, hp, rfl, hc⟩
    exact ⟨n, hat, hr⟩

theorem visits_apiOf_ne_nil (hs : s.WellFormed) {api : String} (h : api ∈ s.modules) (place : Place) :
    (Node.api (s.apiOf api)).visits place ≠ [] := by
  rw [Node.visits_eq, below_apiOf hs]
  intro hn
  obtain ⟨ht, hf⟩ := List.append_eq_nil_iff.1 hn
  rw [List.flatMap_eq_nil_iff] at ht hf
  rcases mem_modules.1 h with ⟨f, hfs, hfa⟩ | ⟨t, hts, hta⟩
  · have hnone := hf f (List.mem_filter.2 ⟨hfs, by simpa using hfa⟩)
    cases hnone
  · have hnone := ht t (List.mem_filter.2 ⟨hts, by simpa using hta⟩)
    rw [TypeCorrection.listing_eq] at hnone
    cases hnone

/-- The walk over a compiled sheet is the list of its records, each at the place where a search finds it. -/
theorem visits_exact {t : Tree} (h : s.compile.result = .ok t) :
    (Node.tree t).visits [] = s.listing ∧
    (∀ v ∈ (Node.tree t).visits [], (({ root := .tree t } : Session).ledger.tally v.place).count = 0) ∧
    (((Node.tree t).visits []).map Visit.place).Nodup ∧
    (∀ p c, s.search? p = some c ↔ ∃ v ∈ (Node.tree t).visits [], v.place = p ∧ v.record = c) ∧
    ∀ e ∈ t.apis.entries, (Node.api e.2).visits [⟨.api, e.1⟩] ≠ [] := by
  obtain ⟨hs, rfl⟩ := compile_eq_ok.1 h
  refine ⟨visits_image hs, fun v _ => rfl, Node.nodup_visits _ _, mem_visits_image hs, ?_⟩
  intro e he
  rw [entries_image] at he
  obtain ⟨api, ha, rfl⟩ := List.mem_map.1 he
  exact visits_apiOf_ne_nil hs ha _

def alternating : Sheet where
  funcs := [{ api := "B", name := "f", params := [{ name := "p" }] }, { api := "A", name := "g" }]
  types := [{ api := "A", name := "T", fields := some [{ name := "x" }], nested := some [{ name := "N" }] },
    { api := "B", name := "I", methods := some [{ name := "m", params := [{ name := "q" }] }] }]

theorem visits_exact_alternating : ∃ t, alternating.compile.result = .ok t ∧
    ((Node.tree t).visits []).map Visit.path = [["B", "I"], ["B", "I", "m"], ["B", "I", "m", "q"], ["B", "f"],
      ["B", "f", "p"], ["A", "T"], ["A", "T", "x"], ["A", "T", "N"], ["A", "g"]] := by
  have hw : alternating.WellFormed := by decide
  have hc := compile_eq_ok.2 ⟨hw, rfl⟩
  refine ⟨_, hc, ?_⟩
  rw [(visits_exact hc).1]
  decide

end Sheet
end Errata
