import Errata.Proofs.Missing
import Mathlib.Data.List.Flatten
import Mathlib.Data.List.Induction

/-! The path of a visit, taken as an address by the kind of the visit, leads back to what was visited. So paths
identify corrections, and the entries of a review do as long as no name has a dot in it. Main statements:
`Sheet.leads_route`, `Sheet.entry_injective`. -/
namespace Errata

namespace Kind

@[simp] theorem lastInto_concat (route : List String → List Hop) (role : Role) (path : List String) (name : String) :
    lastInto route role (path ++ [name]) = route path ++ [.into role name] := by
  simp [lastInto]

theorem typeRoute_concat {path : List String} (h : 2 ≤ path.length) (name : String) :
    typeRoute (path ++ [name]) = typeRoute path ++ [.into .nested name] := by
  match path, h with
  | api :: top :: inner, _ => simp [typeRoute]

theorem funcRoute_concat {path : List String} (h : 2 ≤ path.length) (name : String) :
    funcRoute (path ++ [name]) = typeRoute path ++ [.widen] ++ [.into .method name] := by
  have hlen : (path ++ [name]).length ≠ 2 := by
    rw [List.length_append, List.length_singleton]
    omega
  rw [funcRoute, if_neg hlen, lastInto_concat]

example : Kind.param.route ["A", "I", "m", "p"] =
    [.into .api "A", .into .type "I", .widen, .into .method "m", .into .param "p"] := rfl

theorem route_plain (kind : Kind) : kind.plain.route = kind.route := by
  cases kind <;> rfl

end Kind

namespace TypeCorrection
variable (t : TypeCorrection)

theorem route_kind : t.kind.route = Kind.typeRoute := by
  unfold kind
  split <;> rfl

theorem plain_kind : t.kind.plain = .type := by
  unfold kind
  split <;> rfl

end TypeCorrection

namespace Correction

theorem inside_of_child? {c d : Correction} {step : Step} (h : c.child? step = some d) : Inside c step.role d := by
  rw [child?_eq] at h
  exact inside_cases (List.mem_of_find?_eq_some h)

theorem path_of_mem_listing {c : Correction} {role : Role} {path : List String} {place : Place} {v : Visit}
    (hpath : path = place.map Step.name) (h : v ∈ c.listing role path place) :
    v.path = v.place.map Step.name ∧ v.kind = v.record.kind := by
  induction c using nesting generalizing role path place with
  | inner c ih =>
    rw [listing_eq] at h
    rcases List.mem_cons.1 h with rfl | h
    · exact ⟨by simp [hpath], rfl⟩
    · obtain ⟨r, _, h⟩ := List.mem_flatMap.1 h
      obtain ⟨d, hd, h⟩ := List.mem_flatMap.1 h
      exact ih r d hd (by simp [hpath]) h

theorem names_of_mem_listing {c : Correction} {role : Role} {path : List String} {place : Place} {v : Visit}
    (h : v ∈ c.listing role path place) : ∃ names, v.path = path ++ names ∧ names ≠ [] ∧
      ∀ n ∈ names, ∃ w ∈ c.listing role path place, w.record.name = n := by
  induction c using nesting generalizing role path place with
  | inner c ih =>
    rw [listing_eq] at h ⊢
    rcases List.mem_cons.1 h with rfl | h
    · refine ⟨[c.name], rfl, by simp, fun n hn => ?_⟩
      obtain rfl := List.mem_singleton.1 hn
      exact ⟨_, List.mem_cons_self, rfl⟩
    · obtain ⟨r, hr, h⟩ := List.mem_flatMap.1 h
      obtain ⟨d, hd, h⟩ := List.mem_flatMap.1 h
      obtain ⟨names, hnames, _, hall⟩ := ih r d hd h
      refine ⟨c.name :: names, by simp [hnames], by simp, fun n hn => ?_⟩
      rcases List.mem_cons.1 hn with rfl | hn
      · exact ⟨_, List.mem_cons_self, rfl⟩
      · obtain ⟨w, hw, hname⟩ := hall n hn
        exact ⟨w, List.mem_cons_of_mem _ (List.mem_flatMap.2 ⟨r, hr, List.mem_flatMap.2 ⟨d, hd, hw⟩⟩), hname⟩

end Correction

/-- A first part that is known and dots between parts without dots tell the parts. -/
theorem intercalate_cons_injective {first : String} {xs ys : List String} (hx : xs ≠ []) (hy : ys ≠ [])
    (hxs : ∀ x ∈ xs, '.' ∉ x.toList) (hys : ∀ y ∈ ys, '.' ∉ y.toList)
    (h : ".".intercalate (first :: xs) = ".".intercalate (first :: ys)) : xs = ys := by
  have hsplit {zs : List String} (hz : zs ≠ []) (hzs : ∀ z ∈ zs, '.' ∉ z.toList) :
      List.splitOn '.' (".".intercalate zs).toList = zs.map String.toList := by
    rw [String.toList_intercalate]
    exact List.splitOn_intercalate '.' (by simpa using hzs) (by simpa using hz)
  rw [String.intercalate_cons_of_ne_nil hx, String.intercalate_cons_of_ne_nil hy] at h
  have hrest : (".".intercalate xs).toList = (".".intercalate ys).toList := by
    have hlist := congrArg String.toList h
    simpa only [String.toList_append, List.append_cancel_left_eq] using hlist
  have hmap : xs.map String.toList = ys.map String.toList := by
    rw [← hsplit hx hxs, ← hsplit hy hys, hrest]
  exact List.map_injective_iff.2 (fun _ _ => String.toList_inj.1) hmap

theorem View.Settled.exists_record {v : View} (h : v.Settled) (hsentinel : v.isSentinel = false)
    (hapi : v.shape? ≠ some .api) :
    ∃ p n c, v.place? = some p ∧ v.node? = some n ∧ n.record? = some c ∧ v.record? = some c := by
  cases v with
  | node p n =>
    cases n with
    | tree t => cases h
    | api a => exact absurd rfl hapi
    | type t | func f | field f | param q => exact ⟨p, _, _, rfl, rfl, rfl, rfl⟩
  | com p face => exact ⟨p, _, _, rfl, rfl, rfl, rfl⟩
  | absent shape => cases hsentinel
  | bare => cases h

theorem Tree.unused_sublist {t : Tree} (ht : t.Named) (l : Ledger) (includeFuncs : Bool) :
    (t.inspect l includeFuncs).unused.Sublist (((Node.tree t).visits []).map Visit.entry) := by
  have hinspected : (t.inspected includeFuncs).Sublist (t.inspected true) :=
    t.inspected_eq_filter includeFuncs ▸ List.filter_sublist
  have hentries : (t.inspected true).map (fun x => x.2.unused x.1) = ((Node.tree t).visits []).map Visit.entry := by
    rw [inspected_eq ht, List.map_map]
    rfl
  rw [← hentries]
  exact (List.filter_sublist.trans hinspected).map _

namespace Sheet
variable {s : Sheet}

theorem top_of_search? {p : Place} {step : Step} {c : Correction} (hp : p.length < 2)
    (h : s.search? (p ++ [step]) = some c) : ∃ api, p = [⟨.api, api⟩] ∧ s.declared? api step = some c := by
  match p, hp with
  | [], _ =>
    have hlen := two_le_of_search? h
    simp at hlen
  | [⟨role, api⟩], _ =>
    cases role with
    | api =>
      refine ⟨api, rfl, ?_⟩
      simpa [search?] using h
    | type | func | field | nested | method | param => cases h

/-- The names down to a record, looked up as its kind says, lead to the node of the record. -/
theorem leads_route (hs : s.WellFormed) {p : Place} {c : Correction} (h : s.search? p = some c) :
    s.Leads (c.kind.route (p.map Step.name)) c.kind.plain.shape p none := by
  -- The last name extends the route of the record that it is declared in, so the induction is from the end.
  induction p using List.reverseRecOn generalizing c with
  | nil => cases h
  | append_singleton p step ih =>
    obtain ⟨role, name⟩ := step
    rw [List.map_append, List.map_singleton]
    by_cases hp : 2 ≤ p.length
    · have hlen : 2 ≤ (p.map Step.name).length := by rwa [List.length_map]
      rw [search?_concat hp] at h
      obtain ⟨d, hd, hc⟩ := Option.bind_eq_some_iff.1 h
      have houter := ih hd
      cases Correction.inside_of_child? hc with
      | @field t f hf =>
        rw [Correction.kind, t.route_kind, t.plain_kind] at houter
        rw [Correction.kind, Kind.route, Kind.lastInto_concat]
        exact houter.into hp rfl (by decide) name
      | @nested t n hn =>
        rw [Correction.kind, t.route_kind, t.plain_kind] at houter
        rw [Correction.kind, n.route_kind, n.plain_kind, Kind.typeRoute_concat hlen]
        exact houter.into hp rfl (by decide) name
      | @method t m hm =>
        rw [Correction.kind, t.route_kind, t.plain_kind] at houter
        have hi : t.isInterface = true := by
          cases hmethods : t.methods with
          | none => simp [hmethods] at hm
          | some _ => simp [TypeCorrection.isInterface, hmethods]
        rw [Correction.kind, Kind.route, Kind.funcRoute_concat hlen]
        exact (houter.widen_interface hd hi).into hp rfl (by decide) name
      | @param f q hq =>
        have houter : s.Leads (Kind.funcRoute (p.map Step.name)) .func p none := houter
        rw [Correction.kind, Kind.route, Kind.lastInto_concat]
        exact houter.into hp rfl (by decide) name
    · obtain ⟨api, rfl, hc⟩ := top_of_search? (Nat.lt_of_not_le hp) h
      cases role with
      | type =>
        obtain ⟨t, _, rfl⟩ := Option.map_eq_some_iff.1 hc
        rw [Correction.kind, t.route_kind, t.plain_kind]
        exact follow_declared hs api rfl name
      | func =>
        obtain ⟨f, _, rfl⟩ := Option.map_eq_some_iff.1 hc
        exact follow_declared hs api rfl name
      | api | field | nested | method | param => cases hc

theorem exists_of_mem_listing {v : Visit} (h : v ∈ s.listing) : ∃ (c : Correction) (role : Role) (api : String),
    v ∈ c.listing role [api] [⟨.api, api⟩] ∧ ∀ w ∈ c.listing role [api] [⟨.api, api⟩], w ∈ s.listing := by
  obtain ⟨api, hapi, h⟩ := List.mem_flatMap.1 h
  have hmem {w : Visit} (hw : w ∈ s.listingOf api) : w ∈ s.listing := List.mem_flatMap.2 ⟨api, hapi, hw⟩
  rcases List.mem_append.1 h with h | h
  · obtain ⟨t, ht, h⟩ := List.mem_flatMap.1 h
    exact ⟨.type t, .type, api, h, fun w hw => hmem (List.mem_append_left _ (List.mem_flatMap.2 ⟨t, ht, hw⟩))⟩
  · obtain ⟨f, hf, h⟩ := List.mem_flatMap.1 h
    exact ⟨.func f, .func, api, h, fun w hw => hmem (List.mem_append_right _ (List.mem_flatMap.2 ⟨f, hf, hw⟩))⟩

theorem path_of_mem_listing {v : Visit} (h : v ∈ s.listing) : v.path = v.place.map Step.name ∧
    v.kind = v.record.kind ∧ ∃ api names, v.path = api :: names ∧ names ≠ [] ∧
      ∀ n ∈ names, ∃ w ∈ s.listing, w.record.name = n := by
  obtain ⟨c, role, api, hv, hall⟩ := exists_of_mem_listing h
  have hmodule : [api] = ([⟨.api, api⟩] : Place).map Step.name := rfl
  obtain ⟨hpath, hkind⟩ := Correction.path_of_mem_listing hmodule hv
  obtain ⟨names, hnames, hne, hrecords⟩ := Correction.names_of_mem_listing hv
  refine ⟨hpath, hkind, api, names, hnames, hne, fun n hn => ?_⟩
  obtain ⟨w, hw, hname⟩ := hrecords n hn
  exact ⟨w, hall w hw, hname⟩

theorem leads_path (hs : s.WellFormed) {w : Visit} (h : w ∈ (Node.tree s.image).visits []) :
    ∃ v, (View.root (.tree s.image)).followAll (w.kind.route w.path) = .ok v ∧
      v.Carries w.kind.plain.shape w.place (some w.record) := by
  have hsearch := (mem_visits_image hs w.place w.record).2 ⟨w, h, rfl, rfl⟩
  obtain ⟨v, hv, hc⟩ := leads_route hs hsearch
  rw [visits_image hs] at h
  obtain ⟨hpath, hkind, _⟩ := path_of_mem_listing h
  rw [hpath, hkind]
  exact ⟨v, hv, hsearch ▸ hc⟩

theorem path_injective (hs : s.WellFormed) {v w : Visit} (hv : v ∈ (Node.tree s.image).visits [])
    (hw : w ∈ (Node.tree s.image).visits []) (hkind : v.kind.plain = w.kind.plain) (hpath : v.path = w.path) :
    v = w := by
  obtain ⟨view, hview, _, _, hplace, _⟩ := leads_path hs hv
  obtain ⟨view', hview', _, _, hplace', _⟩ := leads_path hs hw
  rw [← Kind.route_plain, hkind, hpath, Kind.route_plain, hview'] at hview
  cases hview
  have hsame : v.place = w.place := Option.some.inj (hplace.symm.trans hplace')
  exact List.inj_on_of_nodup_map (Node.nodup_visits _ _) hv hw hsame

theorem nodup_paths (hs : s.WellFormed) :
    (((Node.tree s.image).visits []).map fun w => (w.kind.plain, w.path)).Nodup := by
  refine List.Nodup.map_on ?_ (List.Nodup.of_map _ (Node.nodup_visits _ _))
  intro v hv w hw h
  exact path_injective hs hv hw (congrArg Prod.fst h) (congrArg Prod.snd h)

theorem visited_of_followAll (hs : s.WellFormed) {hops : List Hop} {v : View} (hne : hops ≠ [])
    (hl : hops.all Hop.isLookUp = true) (hf : (View.root (.tree s.image)).followAll hops = .ok v)
    (hsentinel : v.isSentinel = false) (hapi : v.shape? ≠ some .api) :
    ∃ w ∈ (Node.tree s.image).visits [], v.place? = some w.place ∧ v.record? = some w.record ∧
      v.node?.bind Node.kind? = some w.kind := by
  obtain ⟨p, n, c, hp, hn, hc, hr⟩ := (settled_followAll hs hne hl hf).exists_record hsentinel hapi
  have hat : (Node.tree s.image).at? p = some n := ((View.located_root _).followAll hf p hp).trans hn
  obtain ⟨kind, hk⟩ := Node.exists_kind hc
  obtain ⟨w, hw, hplace, hkind, hrecord⟩ := Node.mem_visits_iff.2 ⟨n, hat, hk, hc⟩
  refine ⟨w, hw, ?_, ?_, ?_⟩
  · rw [hp, hplace]
  · rw [hr, hrecord]
  · rw [hn, hkind]
    exact hk

/-- Without dots in names an entry tells the visit that it is for. -/
theorem entry_injective (hs : s.WellFormed) (hdots : ∀ w ∈ s.listing, '.' ∉ w.record.name.toList) {v w : Visit}
    (hv : v ∈ (Node.tree s.image).visits []) (hw : w ∈ (Node.tree s.image).visits []) (h : v.entry = w.entry) :
    v = w := by
  have hplain {n : String} (hn : ∃ x ∈ s.listing, x.record.name = n) : '.' ∉ n.toList := by
    obtain ⟨x, hx, rfl⟩ := hn
    exact hdots x hx
  have hlisted := hv
  have hlisted' := hw
  rw [visits_image hs] at hlisted hlisted'
  obtain ⟨_, _, api, xs, hxs, hne, hnames⟩ := path_of_mem_listing hlisted
  obtain ⟨_, _, api', ys, hys, hne', hnames'⟩ := path_of_mem_listing hlisted'
  have hapi : api = api' := by simpa [Visit.entry, Visit.unused, hxs, hys] using congrArg Unused.api h
  have hkind : v.kind = w.kind := congrArg Unused.kind h
  have hpath : ".".intercalate v.path = ".".intercalate w.path := congrArg Unused.path h
  -- The module is no record and may have dots, but it is in the entry by itself.
  rw [hxs, hys, ← hapi] at hpath
  have hrest : xs = ys := intercalate_cons_injective hne hne' (fun n hn => hplain (hnames n hn))
    (fun n hn => hplain (hnames' n hn)) hpath
  exact path_injective hs hv hw (congrArg Kind.plain hkind) (by rw [hxs, hys, hapi, hrest])

/-- A visit is told by its path and its kind, and these lead back to what was visited. -/
theorem paths_resolve {t : Tree} (h : s.compile.result = .ok t) :
    let root := View.root (.tree t)
    let visits := (Node.tree t).visits []
    (visits.map fun w => (w.kind.plain, w.path)).Nodup ∧
    (∀ w ∈ visits, ∃ v, root.followAll (w.kind.route w.path) = .ok v ∧
      v.Answers w.kind.plain.shape w.place (some w.record) ∧ v.node? = (Node.tree t).at? w.place) ∧
    (∀ hops v, hops ≠ [] → hops.all Hop.isLookUp = true → root.followAll hops = .ok v → v.isSentinel = false →
      v.shape? ≠ some .api → ∃ w ∈ visits, v.place? = some w.place ∧ v.record? = some w.record ∧
        v.node?.bind Node.kind? = some w.kind) ∧
    ∀ (l : Ledger) (includeFuncs : Bool) (i j : Nat) (u : Unused), i ≠ j →
      (t.inspect l includeFuncs).unused[i]? = some u → (t.inspect l includeFuncs).unused[j]? = some u →
        ∃ w ∈ s.listing, '.' ∈ w.record.name.toList := by
  obtain ⟨hs, rfl⟩ := compile_eq_ok.1 h
  intro root visits
  refine ⟨nodup_paths hs, ?_, ?_, ?_⟩
  · intro w hw
    obtain ⟨v, hv, hc⟩ := leads_path hs hw
    have hnode := (View.located_root _).followAll hv w.place hc.answers.2.2.1
    exact ⟨v, hv, hc.answers, hnode.symm⟩
  · intro hops v hne hl hv hsentinel hapi
    exact visited_of_followAll hs hne hl hv hsentinel hapi
  · intro l includeFuncs i j u hij hi hj
    by_contra hnone
    have hdots : ∀ w ∈ s.listing, '.' ∉ w.record.name.toList := fun w hw hdot => hnone ⟨w, hw, hdot⟩
    have hentries : (visits.map Visit.entry).Nodup :=
      List.Nodup.map_on (fun v hv w hw => entry_injective hs hdots hv hw) (List.Nodup.of_map _ (Node.nodup_visits _ _))
    have hunused := (Tree.unused_sublist (named_image hs) l includeFuncs).nodup hentries
    have hbound : i < (s.image.inspect l includeFuncs).unused.length := (List.getElem?_eq_some_iff.1 hi).1
    exact hij ((List.getElem?_inj hbound hunused).1 (hi.trans hj.symm))

/-- A field whose name has a dot, and the field of a nested type that reads the same. -/
def dotted : Sheet :=
  let inner : TypeCorrection := { name := "N", fields := some [{ name := "x" }] }
  { types := [{ api := "A", name := "T", fields := some [{ name := "N.x" }], nested := some [inner] }] }

theorem paths_resolve_dotted : ∃ t, dotted.compile.result = .ok t ∧
    (t.inspect .blank true).unused = [⟨"A", .type, "A.T"⟩, ⟨"A", .field, "A.T.N.x"⟩, ⟨"A", .type, "A.T.N"⟩,
      ⟨"A", .field, "A.T.N.x"⟩] ∧
    (∃ w ∈ dotted.listing, '.' ∈ w.record.name.toList) ∧
    ∃ v, (View.root (.tree t)).followAll (Kind.field.route ["A", "T", "N", "x"]) = .ok v ∧
      v.place? = some [⟨.api, "A"⟩, ⟨.type, "T"⟩, ⟨.nested, "N"⟩, ⟨.field, "x"⟩] := by
  have hw : dotted.WellFormed := by decide
  have hc := compile_eq_ok.2 ⟨hw, rfl⟩
  obtain ⟨_, hroutes, _, hequal⟩ := paths_resolve hc
  have hunused : (dotted.image.inspect .blank true).unused = [⟨"A", .type, "A.T"⟩, ⟨"A", .field, "A.T.N.x"⟩,
      ⟨"A", .type, "A.T.N"⟩, ⟨"A", .field, "A.T.N.x"⟩] := by
    decide +kernel
  refine ⟨_, hc, hunused, ?_, ?_⟩
  · exact hequal .blank true 1 3 _ (by decide) (by rw [hunused]; rfl) (by rw [hunused]; rfl)
  · let x : Visit := ⟨["A", "T", "N", "x"], [⟨.api, "A"⟩, ⟨.type, "T"⟩, ⟨.nested, "N"⟩, ⟨.field, "x"⟩], .field,
      .field { name := "x" }⟩
    have hx : x ∈ (Node.tree dotted.image).visits [] := by
      rw [visits_image hw]
      decide
    obtain ⟨v, hv, ⟨_, _, hplace, _⟩, _⟩ := hroutes x hx
    exact ⟨v, hv, hplace⟩

end Sheet
end Errata
