import Errata.Address
import Errata.Proofs.Acceptance
import Errata.Proofs.Inside

/-! Looking things up in a compiled tree finds what a search of the sheet finds, hop by hop and at every depth.
Main statements: `Carries.into` and `Carries.widen` for one hop, `Sheet.leads_hops` for an address. -/
namespace Errata

theorem Address.refused_type (s : Sheet) (a : Address .type) : a.refused s = none := by
  cases a <;> rfl

namespace View

/-- What an answer of a compiled tree amounts to: the node of the record, so that more can be asked of it. -/
def Carries (v : View) (σ : Shape) (p : Place) : Option Correction → Prop
  | some c => c.WellFormed ∧ v.shape? = some σ ∧ v.place? = some p ∧ v.node? = some c.node
  | none => v = .absent σ

theorem Carries.answers {v : View} {σ : Shape} {p : Place} {found : Option Correction}
    (h : v.Carries σ p found) : v.Answers σ p found := by
  cases found with
  | none => exact h
  | some c =>
    obtain ⟨_, hs, hp, hn⟩ := h
    have hr : v.record? = some c := by
      rw [← Correction.record?_node c]
      cases v with
      | node q n =>
        cases hn
        rfl
      | com q face =>
        have hn : Node.type (.com face) = c.node := Option.some.inj hn
        rw [← hn]
        rfl
      | absent _ | bare => cases hp
    have hi : v.isSentinel = false := by
      cases v with
      | absent _ => cases hp
      | node _ _ | com _ _ | bare => rfl
    exact ⟨hi, hs, hp, hr⟩

/-- One hop into a map. Only the name `func` has two meanings, and addresses do not use it for methods. -/
theorem Carries.into {v : View} {σ : Shape} {p : Place} {found : Option Correction} (h : v.Carries σ p found)
    {role : Role} (ho : σ.offers role = true) (hr : ¬(σ = .com ∧ role = .func)) (name : String) :
    ∃ w, v.follow (.into role name) = .ok w ∧
      w.Carries role.shape (p ++ [⟨role, name⟩]) (found.bind (·.child? ⟨role, name⟩)) := by
  cases found with
  | none =>
    have hv : v = .absent σ := h
    subst hv
    have hf : (absent σ).follow (.into role name) = .ok (.absent role.shape) := by
      simp [follow, offers, shape?, ho, seek, place?]
    exact ⟨_, hf, rfl⟩
  | some c =>
    obtain ⟨hc, hs, hp, hn⟩ := h
    have hproper : v.proper role = role := by
      rw [proper, hs, if_neg (by simpa using hr)]
    have hfind : (v.held role).bind (·.find? name) = (c.child? ⟨role, name⟩).map Correction.node := by
      rw [← Correction.child?_node hc, held, hn, hproper]
      rfl
    have hf : v.follow (.into role name) = .ok (v.seek role name (.absent role.shape)) := by
      simp [follow, offers, hs, ho]
    refine ⟨_, hf, ?_⟩
    rw [seek, hp, hfind, hproper]
    cases hd : c.child? ⟨role, name⟩ with
    | none => simp [Carries, hd]
    | some d =>
      have hshape := Correction.shape?_inside (List.mem_of_find?_eq_some (c.child?_eq _ ▸ hd))
      simpa [Carries, hd, shape?, place?, node?] using ⟨hc.child hd, hshape⟩

theorem Carries.widen {v : View} {p : Place} {found : Option Correction} (h : v.Carries .type p found) :
    (∃ t, found = some (.type t) ∧ t.isInterface = false ∧
        v.follow .widen = .error (.refused (.notInterface t.api t.name))) ∨
      (∀ t, found = some (.type t) → t.isInterface = true) ∧
        ∃ w, v.follow .widen = .ok w ∧ w.Carries .com p found := by
  cases found with
  | none =>
    have hv : v = .absent .type := h
    subst hv
    exact .inr ⟨by simp, .absent .com, rfl, rfl⟩
  | some c =>
    obtain ⟨hc, hs, hp, hn⟩ := h
    cases v with
    | node q n =>
      have hnode : n = c.node := Option.some.inj hn
      subst hnode
      cases c with
      | type t =>
        cases hi : t.isInterface with
        | false =>
          obtain ⟨fields, nested, hnode⟩ := t.node_plain hi
          refine .inl ⟨t, rfl, hi, ?_⟩
          rw [Correction.node, hnode]
          rfl
        | true =>
          obtain ⟨methods, hnode⟩ := t.node_com hi
          refine .inr ⟨by simpa using hi, .com q ⟨t, methods⟩, ?_, hc, rfl, hp, ?_⟩
          · rw [Correction.node, hnode]
            rfl
          · rw [Correction.node, hnode]
            rfl
      | func f => cases hs
      | field f => cases hs
      | param p => cases hs
    | com q face => cases hs
    | absent _ => cases hp
    | bare => cases hp

theorem followAll_concat (v : View) (hops : List Hop) (hop : Hop) :
    v.followAll (hops ++ [hop]) = v.followAll hops >>= (·.follow hop) := by
  simp [followAll, List.foldlM_append]

end View

namespace Sheet
variable {s : Sheet}

theorem search?_concat {p : Place} (hp : 2 ≤ p.length) (step : Step) :
    s.search? (p ++ [step]) = (s.search? p).bind (·.child? step) := by
  match p, hp with
  | ⟨role, api⟩ :: top :: rest, _ =>
    cases role with
    | api => cases h : s.declared? api top <;> simp [search?, h, List.foldlM_append]
    | type | func | field | nested | method | param => rfl

theorem exists_of_search? {p : Place} {c : Correction} (h : s.search? p = some c) : ∃ api step rest d,
    p = ⟨.api, api⟩ :: step :: rest ∧ s.declared? api step = some d ∧ rest.foldlM Correction.child? d = some c := by
  match p with
  | ⟨.api, api⟩ :: step :: rest =>
    obtain ⟨d, hd, hc⟩ := Option.bind_eq_some_iff.1 h
    exact ⟨api, step, rest, d, rfl, hd, hc⟩
  | [] => cases h
  | [⟨role, _⟩] => cases role <;> cases h
  | ⟨.type, _⟩ :: _ :: _ | ⟨.func, _⟩ :: _ :: _ | ⟨.field, _⟩ :: _ :: _ | ⟨.nested, _⟩ :: _ :: _
  | ⟨.method, _⟩ :: _ :: _ | ⟨.param, _⟩ :: _ :: _ => cases h

theorem child?_apiOf (hs : s.WellFormed) (api : String) (step : Step) :
    (Node.api (s.apiOf api)).child? step = (s.declared? api step).map Correction.node := by
  obtain ⟨role, name⟩ := step
  cases role with
  | type =>
    have h := NameMap.find?_ofList (s.typesOf api) (·.name) TypeCorrection.node (hs.types_distinct api) name
    have hf : (s.typesOf api).find? (·.name = name) = s.types.find? fun t => t.api = api ∧ t.name = name := by
      simp [typesOf, List.find?_filter]
    simp only [Node.child?, Node.held, apiOf, Option.bind_some, NameMap.find?_map, h, hf, declared?,
      Option.map_map]
    rfl
  | func =>
    have h := NameMap.find?_ofList (s.funcsOf api) (·.name) FuncCorrection.node (hs.funcs_distinct api) name
    have hf : (s.funcsOf api).find? (·.name = name) = s.funcs.find? fun f => f.api = api ∧ f.name = name := by
      simp [funcsOf, List.find?_filter]
    simp only [Node.child?, Node.held, apiOf, Option.bind_some, NameMap.find?_map, h, hf, declared?,
      Option.map_map]
    rfl
  | api | field | nested | method | param => rfl

theorem declared?_of_not_mem (hs : s.WellFormed) {api : String} (h : api ∉ s.modules) (step : Step) :
    s.declared? api step = none := by
  have hc := child?_apiOf hs api step
  rw [apiOf_of_not_mem h] at hc
  have hn : (Node.api { name := api }).child? step = none := by
    obtain ⟨role, name⟩ := step
    cases role <;> simp [Node.child?, Node.held, NameMap.find?_eq_lookup, NameMap.entries_map]
  exact Option.map_eq_none_iff.1 (hc.symm.trans hn)

theorem declared?_wellFormed (hs : s.WellFormed) {api : String} {step : Step} {c : Correction}
    (h : s.declared? api step = some c) : c.WellFormed ∧ c.node.shape? = some step.role.shape := by
  obtain ⟨role, name⟩ := step
  cases role with
  | type =>
    obtain ⟨t, ht, rfl⟩ := Option.map_eq_some_iff.1 h
    exact ⟨hs.types t (List.mem_of_find?_eq_some ht), rfl⟩
  | func =>
    obtain ⟨f, hf, rfl⟩ := Option.map_eq_some_iff.1 h
    exact ⟨hs.funcs f (List.mem_of_find?_eq_some hf), rfl⟩
  | api | field | nested | method | param => cases h

theorem child?_image (s : Sheet) (api : String) : (Node.tree s.image).child? ⟨.api, api⟩ =
    if api ∈ s.modules then some (.api (s.apiOf api)) else none := by
  have hfind : (Node.tree s.image).child? ⟨.api, api⟩ = (s.image.apis.find? api).map Node.api :=
    NameMap.find?_map ..
  rw [hfind, find?_apis_image]
  by_cases h : api ∈ s.modules <;> simp [h]

theorem follow_api (s : Sheet) (api : String) :
    (View.root (.tree s.image)).follow (.into .api api) =
      .ok (if api ∈ s.modules then .node [⟨.api, api⟩] (.api (s.apiOf api)) else .absent .api) := by
  have hfind : ((View.root (.tree s.image)).held .api).bind (·.find? api) =
      if api ∈ s.modules then some (.api (s.apiOf api)) else none := child?_image s api
  have hf : (View.root (.tree s.image)).follow (.into .api api) =
      .ok ((View.root (.tree s.image)).seek .api api (.absent .api)) := rfl
  rw [hf, View.seek, hfind]
  by_cases h : api ∈ s.modules
  · rw [if_pos h, if_pos h]
    rfl
  · rw [if_neg h, if_neg h]
    rfl

/-- What is in view at a module. One that no record names is missing. -/
def apiView (s : Sheet) (api : String) : View :=
  if api ∈ s.modules then .node [⟨.api, api⟩] (.api (s.apiOf api)) else .absent .api

def topView (s : Sheet) (api : String) (step : Step) : View :=
  match s.declared? api step with
  | some c => .node [⟨.api, api⟩, step] c.node
  | none => .absent step.role.shape

theorem seek_apiView (hs : s.WellFormed) (api : String) (role : Role) (name : String) :
    (s.apiView api).seek role name (.absent role.shape) = s.topView api ⟨role, name⟩ := by
  unfold apiView topView
  by_cases h : api ∈ s.modules
  · rw [if_pos h]
    have hfind : ((View.node [⟨.api, api⟩] (.api (s.apiOf api))).held role).bind (·.find? name) =
        (s.declared? api ⟨role, name⟩).map Correction.node := child?_apiOf hs api ⟨role, name⟩
    have hproper : (View.node [⟨.api, api⟩] (.api (s.apiOf api))).proper role = role := by
      simp [View.proper, View.shape?, Node.shape?]
    rw [View.seek, hfind, hproper]
    cases s.declared? api ⟨role, name⟩ <;> rfl
  · rw [if_neg h, declared?_of_not_mem hs h]
    rfl

theorem follow_apiView (hs : s.WellFormed) (api : String) (hop : Hop) :
    (s.apiView api).follow hop = match hop with
      | .into role name => if Shape.api.offers role then .ok (s.topView api ⟨role, name⟩) else .error .unsupported
      | .sentinel σ => .ok (.absent σ)
      | .widen | .plain => .error .unsupported := by
  cases hop with
  | into role name =>
    have hoffers : (s.apiView api).offers role = Shape.api.offers role := by
      unfold apiView
      split <;> rfl
    simp only [View.follow, hoffers, seek_apiView hs]
  | widen | plain =>
    unfold apiView
    split <;> rfl
  | sentinel σ => rfl

theorem follow_declared (hs : s.WellFormed) (api : String) {role : Role} (hr : Shape.api.offers role = true)
    (name : String) :
    ∃ v, (View.root (.tree s.image)).followAll [.into .api api, .into role name] = .ok v ∧
      v.Carries role.shape [⟨.api, api⟩, ⟨role, name⟩] (s.search? [⟨.api, api⟩, ⟨role, name⟩]) := by
  have hsearch : s.search? [⟨.api, api⟩, ⟨role, name⟩] = s.declared? api ⟨role, name⟩ := by
    cases h : s.declared? api ⟨role, name⟩ <;> simp [search?, h]
  have hall : (View.root (.tree s.image)).followAll [.into .api api, .into role name] =
      (s.apiView api).follow (.into role name) := by
    have happ : (View.root (.tree s.image)).followAll [.into .api api, .into role name] =
        (View.root (.tree s.image)).follow (.into .api api) >>= (·.follow (.into role name)) := by
      simp [View.followAll]
    rw [happ, follow_api]
    rfl
  refine ⟨s.topView api ⟨role, name⟩, ?_, ?_⟩
  · rw [hall, follow_apiView hs]
    exact if_pos hr
  · rw [hsearch, topView]
    cases hd : s.declared? api ⟨role, name⟩ with
    | none => rfl
    | some c =>
      have hc := declared?_wellFormed hs hd
      exact ⟨hc.1, hc.2, rfl, rfl⟩

/-- Where hops lead in the compiled sheet: to a plain type that refuses, or to what a search finds. -/
def Leads (s : Sheet) (hops : List Hop) (σ : Shape) (p : Place) : Option TypeCorrection → Prop
  | some t => (View.root (.tree s.image)).followAll hops = .error (.refused (.notInterface t.api t.name))
  | none => ∃ v, (View.root (.tree s.image)).followAll hops = .ok v ∧ v.Carries σ p (s.search? p)

theorem Leads.into {hops : List Hop} {σ : Shape} {p : Place} {r : Option TypeCorrection} (h : s.Leads hops σ p r)
    (hp : 2 ≤ p.length) {role : Role} (ho : σ.offers role = true) (hr : ¬(σ = .com ∧ role = .func)) (name : String) :
    s.Leads (hops ++ [.into role name]) role.shape (p ++ [⟨role, name⟩]) r := by
  cases r with
  | some t =>
    have he : (View.root (.tree s.image)).followAll hops = _ := h
    rw [Leads, View.followAll_concat, he]
    rfl
  | none =>
    obtain ⟨v, he, hv⟩ := h
    rw [Leads, View.followAll_concat, he, search?_concat hp]
    exact hv.into ho hr name

theorem leads_hops (hs : s.WellFormed) {σ : Shape} (a : Address σ) :
    2 ≤ a.place.length ∧ s.Leads a.hops σ a.place (a.refused s) := by
  have hlen (p : Place) (hp : 2 ≤ p.length) (step : Step) : 2 ≤ (p ++ [step]).length := by
    rw [List.length_append]
    omega
  induction a with
  | type api name => exact ⟨Nat.le_refl _, follow_declared hs api rfl name⟩
  | func api name => exact ⟨Nat.le_refl _, follow_declared hs api rfl name⟩
  | nested a name ih =>
    have h := ih.2
    rw [Address.refused_type] at h
    exact ⟨hlen _ ih.1 _, h.into ih.1 rfl (by decide) name⟩
  | field a name ih =>
    have h := ih.2
    rw [Address.refused_type] at h
    exact ⟨hlen _ ih.1 _, h.into ih.1 rfl (by decide) name⟩
  | com a ih =>
    have h := ih.2
    rw [Address.refused_type] at h
    obtain ⟨v, he, hv⟩ := h
    refine ⟨ih.1, ?_⟩
    rcases hv.widen with ⟨t, hfound, hplain, hw⟩ | ⟨hface, w, hw, hc⟩
    · have hr : (Address.com a).refused s = some t := by
        simp [Address.refused, hfound, hplain]
      rw [hr, Leads, Address.hops, View.followAll_concat, he]
      exact hw
    · have hr : (Address.com a).refused s = none := by
        rw [Address.refused]
        cases hfound : s.search? a.place with
        | none => rfl
        | some c =>
          cases c with
          | type t => simp [hface t hfound]
          | func _ | field _ | param _ => rfl
      rw [hr]
      refine ⟨w, ?_, hc⟩
      rw [Address.hops, View.followAll_concat, he]
      exact hw
  | method a name ih => exact ⟨hlen _ ih.1 _, ih.2.into ih.1 rfl (by decide) name⟩
  | param a name ih => exact ⟨hlen _ ih.1 _, ih.2.into ih.1 rfl (by decide) name⟩

/-- Looking an address up in a compiled sheet finds what a search of the sheet for the same names finds: the
whole record, or the stand-in. Only the interface form of a plain type is refused. -/
theorem lookup_exact {t : Tree} (h : s.compile.result = .ok t) :
    (∀ api, ∃ v, (View.root (.tree t)).followAll [.into .api api] = .ok v ∧
      (api ∈ s.modules → v.isSentinel = false ∧ v.shape? = some .api ∧ v.place? = some [⟨.api, api⟩] ∧
        v.name = api) ∧
      (api ∉ s.modules → v = .absent .api)) ∧
    ∀ σ (a : Address σ), match a.refused s with
      | some r => (View.root (.tree t)).followAll a.hops = .error (.refused (.notInterface r.api r.name))
      | none => ∃ v, (View.root (.tree t)).followAll a.hops = .ok v ∧ v.Answers σ a.place (s.search? a.place) := by
  obtain ⟨hs, rfl⟩ := compile_eq_ok.1 h
  refine ⟨fun api => ⟨_, by simpa [View.followAll] using s.follow_api api, fun hm => ?_, fun hm => if_neg hm⟩, ?_⟩
  · rw [if_pos hm]
    exact ⟨rfl, rfl, rfl, rfl⟩
  · intro σ a
    have hl := (leads_hops hs a).2
    cases hr : a.refused s with
    | some r =>
      rw [hr] at hl
      exact hl
    | none =>
      rw [hr] at hl
      obtain ⟨v, he, hv⟩ := hl
      exact ⟨v, he, hv.answers⟩

/-- One module in which names stand for two things: types and functions, fields and nested types, and so on. -/
def twofold : Sheet where
  funcs := [{ api := "A", name := "N", params := [{ name := "n", optional := true }] }]
  types := [{ api := "A", name := "N", fields := some [{ name := "n" }], nested := some [{ name := "n" }] },
    { api := "A", name := "I", methods := some [{ name := "m", params := [{ name := "m", constant := true }] }] }]

theorem lookup_exact_twofold : ∃ t, twofold.compile.result = .ok t ∧
    (∃ v, (View.root (.tree t)).followAll [.into .api "A", .into .func "N"] = .ok v ∧
      v.record? = twofold.funcs.head?.map .func) ∧
    (∃ v, (View.root (.tree t)).followAll [.into .api "A", .into .type "N"] = .ok v ∧
      v.record? = twofold.types.head?.map .type) ∧
    (∃ v, (View.root (.tree t)).followAll [.into .api "A", .into .type "N", .into .nested "n"] = .ok v ∧
      v.record? = some (.type { name := "n" })) ∧
    (∃ v, (View.root (.tree t)).followAll
      [.into .api "A", .into .type "I", .widen, .into .method "m", .into .param "m"] = .ok v ∧
      v.record? = some (.param { name := "m", constant := true })) ∧
    (View.root (.tree t)).followAll [.into .api "A", .into .type "N", .into .field "m"] = .ok (.absent .field) ∧
    (View.root (.tree t)).followAll [.into .api "A", .into .type "N", .widen, .into .method "m"] =
      .error (.refused (.notInterface "A" "N")) := by
  have hw : twofold.WellFormed := by decide
  have hc := compile_eq_ok.2 ⟨hw, rfl⟩
  have hl := (lookup_exact hc).2
  refine ⟨_, hc, ?_, ?_, ?_, ?_, ?_, ?_⟩
  · obtain ⟨v, he, _, _, _, hr⟩ := hl _ (.func "A" "N")
    exact ⟨v, he, hr⟩
  · obtain ⟨v, he, _, _, _, hr⟩ := hl _ (.type "A" "N")
    exact ⟨v, he, hr⟩
  · obtain ⟨v, he, _, _, _, hr⟩ := hl _ (.nested (.type "A" "N") "n")
    exact ⟨v, he, hr⟩
  · obtain ⟨v, he, _, _, _, hr⟩ := hl _ (.param (.method (.com (.type "A" "I")) "m") "m")
    exact ⟨v, he, hr⟩
  · obtain ⟨v, he, hv⟩ := hl _ (.field (.type "A" "N") "m")
    have hv : v = .absent .field := hv
    rwa [hv] at he
  · exact hl _ (.method (.com (.type "A" "N")) "m")

/-- A method of a declared plain type is not a missing one: the address ends before it. -/
theorem lookup_of_plain_refused : ¬∀ (s : Sheet) (t : Tree), s.compile.result = .ok t → ∀ σ (a : Address σ),
    ∃ v, (View.root (.tree t)).followAll a.hops = .ok v ∧ v.Answers σ a.place (s.search? a.place) := by
  intro h
  let a : Address .func := .method (.com (.type "A" "N")) "m"
  have hw : twofold.WellFormed := by decide
  obtain ⟨v, he, _⟩ := h twofold _ (compile_eq_ok.2 ⟨hw, rfl⟩) _ a
  have hl : twofold.Leads a.hops .func a.place (a.refused twofold) := (leads_hops hw a).2
  have hr : a.refused twofold = twofold.types.head? := by decide
  rw [hr] at hl
  have hl : (View.root (.tree twofold.image)).followAll a.hops = .error _ := hl
  rw [hl] at he
  cases he

end Sheet
end Errata
