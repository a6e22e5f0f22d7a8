import Errata.Proofs.Records
import Errata.Proofs.Resolving

/-! Interfaces and plain types. What has a method map has no other, an interface form is the same thing seen as an
interface, and in a compiled sheet the record, the node, the kind of its visit and the interface form all say the same of
a type. A refusal names what is written in the record. Main statements: `Sheet.widen_consistent`,
`Sheet.mismatch_names_record`. -/
namespace Errata

namespace Node

/-- Only a tree and a module have no record, and neither is filed in something that has one. -/
theorem Holds.record?_ne_none {n c : Node} {role : Role} (h : n.Holds role c) (hn : n.record? ≠ none) :
    c.record? ≠ none := by
  cases h with
  | api | type | func => exact absurd rfl hn
  | field | nested | method | param => exact Option.some_ne_none _

theorem record?_ne_none_of_at? {n c : Node} {p : Place} (hn : n.record? ≠ none) (h : n.at? p = some c) :
    c.record? ≠ none := by
  induction p using List.reverseRecOn generalizing c with
  | nil =>
    cases h
    exact hn
  | append_singleton p st ih =>
    rw [at?_concat] at h
    obtain ⟨e, he, hc⟩ := Option.bind_eq_some_iff.1 h
    exact (holds_of_child? hc).record?_ne_none (ih he)

theorem nested_of_at? {n m : TypeNode} {p : Place} (h : (type n).at? p = some (.type m)) :
    ∀ st ∈ p, st.role = .nested := by
  have hn : (type n).record? ≠ none := Option.some_ne_none _
  induction p using List.reverseRecOn generalizing m with
  | nil => simp
  | append_singleton p st ih =>
    obtain ⟨role, name⟩ := st
    rw [at?_concat] at h
    obtain ⟨e, he, hc⟩ := Option.bind_eq_some_iff.1 h
    cases holds_of_child? hc with
    | type a => exact absurd rfl (record?_ne_none_of_at? hn he)
    | nested record fields nested =>
      intro st hst
      rcases List.mem_append.1 hst with hst | hst
      · exact ih he st hst
      · rw [List.mem_singleton.1 hst]

theorem method_of_at? {n : TypeNode} {p : Place} {f : FuncNode} (h : (type n).at? p = some (.func f)) :
    ∃ outer name face, p = outer ++ [⟨.method, name⟩] ∧ (∀ st ∈ outer, st.role = .nested) ∧
      (type n).at? outer = some (.type (.com face)) := by
  have hn : (type n).record? ≠ none := Option.some_ne_none _
  induction p using List.reverseRecOn with
  | nil => cases h
  | append_singleton p st ih =>
    obtain ⟨role, name⟩ := st
    rw [at?_concat] at h
    obtain ⟨e, he, hc⟩ := Option.bind_eq_some_iff.1 h
    cases holds_of_child? hc with
    | func a => exact absurd rfl (record?_ne_none_of_at? hn he)
    | method face => exact ⟨p, name, face, rfl, nested_of_at? he, he⟩

end Node

namespace View
variable {v w : View}

theorem type_cases (h : v.shape? = some .type) : (∃ p n, v = .node p (.type n)) ∨ v = .absent .type ∨ v = .bare := by
  cases v with
  | node p n =>
    cases n with
    | type n => exact .inl ⟨p, n, rfl⟩
    | tree _ | api _ | func _ | field _ | param _ => cases h
  | com p face => cases h
  | absent shape =>
    cases h
    exact .inr (.inl rfl)
  | bare => exact .inr (.inr rfl)

theorem com_cases (h : v.shape? = some .com) : (∃ p face, v = .com p face) ∨ v = .absent .com := by
  cases v with
  | node p n => cases n <;> cases h
  | com p face => exact .inl ⟨p, face, rfl⟩
  | absent shape =>
    cases h
    exact .inr rfl
  | bare => cases h

theorem held_of_method (h : v.shape? = some .type) (hm : (v.held .method).isSome = true) :
    v.held .field = none ∧ v.held .nested = none := by
  rcases type_cases h with ⟨p, n, rfl⟩ | rfl | rfl
  · cases n with
    | plain record fields nested => cases hm
    | com face => exact ⟨rfl, rfl⟩
  · cases hm
  · cases hm

theorem held_method_iff (h : v.shape? = some .type) : (v.held .method).isSome = true ↔ v.isInterface = true := by
  rcases type_cases h with ⟨p, n, rfl⟩ | rfl | rfl
  · cases n <;> exact Iff.rfl
  · exact Iff.rfl
  · exact Iff.rfl

theorem widen_of_isEmpty (h : v.shape? = some .type) (he : v.isEmpty = true) : v.widen = .ok (.absent .com) := by
  rcases type_cases h with ⟨p, n, rfl⟩ | rfl | rfl
  · cases he
  · rfl
  · rfl

theorem widen_of_plain (h : v.shape? = some .type) (he : v.isEmpty = false) (hi : v.isInterface = false) :
    ∃ c, v.record? = some (.type c) ∧ v.widen = .error (.refused (.notInterface c.api c.name)) := by
  rcases type_cases h with ⟨p, n, rfl⟩ | rfl | rfl
  · cases n with
    | plain record fields nested => exact ⟨record, rfl, rfl⟩
    | com face => cases hi
  · cases he
  · cases he

theorem widen_of_isInterface (h : v.shape? = some .type) (hi : v.isInterface = true) : ∃ w, v.widen = .ok w := by
  rcases type_cases h with ⟨p, n, rfl⟩ | rfl | rfl
  · cases n with
    | plain record fields nested => cases hi
    | com face => exact ⟨.com p face, rfl⟩
  · cases hi
  · cases hi

theorem exists_widen_iff (h : v.shape? = some .type) :
    (∃ w, v.widen = .ok w) ↔ v.isEmpty = true ∨ v.isInterface = true := by
  constructor
  · intro hw
    obtain ⟨w, hw⟩ := hw
    by_contra hnone
    obtain ⟨he, hi⟩ := not_or.1 hnone
    obtain ⟨c, _, hrefused⟩ := widen_of_plain h (by simpa using he) (by simpa using hi)
    rw [hw] at hrefused
    cases hrefused
  · intro hw
    rcases hw with he | hi
    · exact ⟨_, widen_of_isEmpty h he⟩
    · exact widen_of_isInterface h hi

theorem shape?_of_widen (h : v.shape? = some .type) (hw : v.widen = .ok w) : w.shape? = some .com := by
  rcases type_cases h with ⟨p, n, rfl⟩ | rfl | rfl
  · cases n with
    | plain record fields nested => cases hw
    | com face =>
      cases hw
      rfl
  · cases hw
    rfl
  · cases hw
    rfl

theorem held_of_com (h : v.shape? = some .com) : v.held .field = none ∧ v.held .nested = none := by
  rcases com_cases h with ⟨p, face, rfl⟩ | rfl <;> exact ⟨rfl, rfl⟩

theorem widen_of_com (h : v.shape? = some .com) : v.widen = .ok v ∧ ∃ u, v.plain = .ok u ∧ u.widen = .ok v := by
  rcases com_cases h with ⟨p, face, rfl⟩ | rfl <;> exact ⟨rfl, _, rfl, rfl⟩

end View

theorem Correction.name_of_child? {c d : Correction} {step : Step} (h : c.child? step = some d) :
    d.name = step.name := by
  rw [child?_eq] at h
  simpa using List.find?_some h

namespace Sheet
variable {s : Sheet}

theorem isInterface_at_image (hs : s.WellFormed) {p : Place} {n : TypeNode}
    (hat : (Node.tree s.image).at? p = some (.type n)) : n.record.isInterface = (Node.type n).isInterface := by
  obtain ⟨_, _, hnode⟩ := node_at_image hs hat rfl
  have hn : n = n.record.node := Node.type.inj hnode
  generalize n.record = c at hn
  subst hn
  cases hi : c.isInterface with
  | true =>
    obtain ⟨methods, hcom⟩ := c.node_com hi
    rw [hcom]
    rfl
  | false =>
    obtain ⟨fields, nested, hplain⟩ := c.node_plain hi
    rw [hplain]
    rfl

theorem visited_as_interface_iff {t : Tree} {p : Place} {n : TypeNode} (hat : (Node.tree t).at? p = some (.type n)) :
    (∃ v ∈ (Node.tree t).visits [], v.place = p ∧ v.kind = .comType) ↔ (Node.type n).isInterface = true := by
  have hkind : (Node.type n).kind? = some .comType ↔ (Node.type n).isInterface = true := by
    cases n <;> simp [Node.kind?, TypeNode.kind, Node.isInterface]
  rw [← hkind]
  constructor
  · intro h
    obtain ⟨v, hv, hplace, hcom⟩ := h
    obtain ⟨m, hm, hmkind, _⟩ := Node.mem_visits_iff.1 ⟨v, hv, hplace, hcom, rfl⟩
    obtain rfl : .type n = m := Option.some.inj (hat.symm.trans hm)
    exact hmkind
  · intro h
    obtain ⟨v, hv, hplace, hcom, _⟩ := Node.mem_visits_iff.2 ⟨_, hat, h, rfl⟩
    exact ⟨v, hv, hplace, hcom⟩

/-- Record, node, visit and interface form agree on what is an interface. -/
theorem widen_consistent :
    (∀ v : View, v.shape? = some .type →
      ((v.held .method).isSome = true ↔ v.isInterface = true) ∧
      ((v.held .method).isSome = true → v.held .field = none ∧ v.held .nested = none) ∧
      ((∃ w, v.widen = .ok w) ↔ v.isEmpty = true ∨ v.isInterface = true) ∧
      (v.isEmpty = false → v.isInterface = false → ∃ c, v.record? = some (.type c) ∧
        v.widen = .error (.refused (.notInterface c.api c.name))) ∧
      ∀ w, v.widen = .ok w → (v.isEmpty = true → w = .absent .com) ∧
        (v.isEmpty = false → w.shape? = some .com ∧ w.place? = v.place? ∧ w.node? = v.node?) ∧
        w.held .field = none ∧ w.held .nested = none ∧ w.widen = .ok w ∧ ∃ u, w.plain = .ok u ∧ u.widen = .ok w) ∧
    ∀ (s : Sheet) (t : Tree), s.compile.result = .ok t → ∀ p n, (Node.tree t).at? p = some (.type n) →
      (n.record.isInterface = true ↔ (Node.type n).isInterface = true) ∧
      (n.record.isInterface = true ↔ ∃ v ∈ (Node.tree t).visits [], v.place = p ∧ v.kind = .comType) ∧
      (n.record.isInterface = true ↔ ∃ w, (View.node p (.type n)).widen = .ok w) ∧
      (n.record.isInterface = false → ∀ q f, (Node.type n).at? q = some (.func f) → ∃ outer name face,
        q = outer ++ [⟨.method, name⟩] ∧ outer ≠ [] ∧ (∀ st ∈ outer, st.role = .nested) ∧
          (Node.type n).at? outer = some (.type (.com face))) := by
  constructor
  · intro v hv
    refine ⟨View.held_method_iff hv, View.held_of_method hv, View.exists_widen_iff hv, View.widen_of_plain hv, ?_⟩
    intro w hw
    have hshape := View.shape?_of_widen hv hw
    obtain ⟨hfield, hnested⟩ := View.held_of_com hshape
    refine ⟨?_, fun _ => ⟨hshape, View.same_of_widen hw⟩, hfield, hnested, View.widen_of_com hshape⟩
    intro he
    rw [View.widen_of_isEmpty hv he] at hw
    exact (Except.ok.inj hw).symm
  · intro s t h p n hat
    obtain ⟨hs, rfl⟩ := compile_eq_ok.1 h
    have hview : (∃ w, (View.node p (.type n)).widen = .ok w) ↔ (Node.type n).isInterface = true := by
      simpa [View.isEmpty, View.isInterface, View.node?] using
        View.exists_widen_iff (v := .node p (.type n)) rfl
    rw [isInterface_at_image hs hat, visited_as_interface_iff hat, hview]
    refine ⟨Iff.rfl, Iff.rfl, Iff.rfl, ?_⟩
    intro hplain q f hf
    obtain ⟨outer, name, face, hq, hroles, houter⟩ := Node.method_of_at? hf
    refine ⟨outer, name, face, hq, ?_, hroles, houter⟩
    -- Without a step of its own the interface would be the type itself, which is plain.
    rintro rfl
    cases houter
    cases hplain

/-- A plain type that holds another and an interface, both recorded for a module of their own. -/
def enclosing : TypeCorrection where
  api := "A"
  name := "T"
  nested := some [{ api := "B", name := "N" }, { api := "B", name := "I", methods := some [{ name := "m" }] }]

def strayed : Sheet where
  types := [enclosing]

theorem widen_consistent_strayed : ∃ t n, strayed.compile.result = .ok t ∧
    (Node.tree t).at? [⟨.api, "A"⟩, ⟨.type, "T"⟩] = some (.type n) ∧ n.record.isInterface = false ∧
    (View.node [⟨.api, "A"⟩, ⟨.type, "T"⟩] (.type n)).widen = .error (.refused (.notInterface "A" "T")) ∧
    (∃ f, (Node.type n).at? [⟨.nested, "I"⟩, ⟨.method, "m"⟩] = some (.func f)) ∧
    ∃ outer name face, [⟨.nested, "I"⟩, ⟨.method, "m"⟩] = outer ++ [⟨.method, name⟩] ∧ outer ≠ [] ∧
      (Node.type n).at? outer = some (.type (.com face)) := by
  have hw : strayed.WellFormed := by decide
  have hc := compile_eq_ok.2 ⟨hw, rfl⟩
  have hat : (Node.tree strayed.image).at? [⟨.api, "A"⟩, ⟨.type, "T"⟩] = some (.type enclosing.node) :=
    at?_image hw "A" ⟨.type, "T"⟩ []
  have hplain : enclosing.node.record.isInterface = false := by
    rw [TypeCorrection.record_node]
    rfl
  have hmethod : (Node.type enclosing.node).at? [⟨.nested, "I"⟩, ⟨.method, "m"⟩] =
      some (.func (FuncCorrection.node { name := "m" })) :=
    Correction.at?_node (c := .type enclosing) (hw.types _ List.mem_cons_self) _
  obtain ⟨hviews, hnodes⟩ := widen_consistent
  obtain ⟨hform, _, _, hfuncs⟩ := hnodes strayed _ hc _ _ hat
  obtain ⟨outer, name, face, hq, hne, _, houter⟩ := hfuncs hplain _ _ hmethod
  refine ⟨_, _, hc, hat, hplain, ?_, ⟨_, hmethod⟩, outer, name, face, hq, hne, houter⟩
  obtain ⟨_, _, _, hrefused, _⟩ := hviews (.node [⟨.api, "A"⟩, ⟨.type, "T"⟩] (.type enclosing.node)) rfl
  have hview : (Node.type enclosing.node).isInterface = false := by
    rw [← Bool.not_eq_true, ← hform, hplain]
    exact Bool.false_ne_true
  obtain ⟨c, hrecord, hwiden⟩ := hrefused rfl hview
  cases hrecord
  rw [hwiden, TypeCorrection.record_node]
  rfl

theorem leads_typeRoute (hs : s.WellFormed) (api name : String) (inner : List String) :
    s.Leads (Kind.typeRoute (api :: name :: inner)) .type
      (⟨.api, api⟩ :: ⟨.type, name⟩ :: inner.map (⟨.nested, ·⟩)) none := by
  induction inner using List.reverseRecOn with
  | nil => exact follow_declared hs api rfl name
  | append_singleton inner last ih =>
    have hlen : 2 ≤ (api :: name :: inner).length := by simp
    have hroute : Kind.typeRoute (api :: name :: (inner ++ [last])) =
        Kind.typeRoute (api :: name :: inner) ++ [.into .nested last] := Kind.typeRoute_concat hlen last
    rw [hroute, List.map_append]
    exact ih.into (by simp) rfl (by decide) last

theorem name_of_search? (hs : s.WellFormed) {api name : String} {inner : List String} {c : TypeCorrection}
    (h : s.search? (⟨.api, api⟩ :: ⟨.type, name⟩ :: inner.map (⟨.nested, ·⟩)) = some (.type c)) :
    c.name = (name :: inner).getLast (by simp) ∧ (inner = [] → c.api = api) := by
  rcases List.eq_nil_or_concat inner with rfl | ⟨outer, last, rfl⟩
  · obtain ⟨d, hd, hc⟩ := Option.bind_eq_some_iff.1 h
    cases hc
    obtain ⟨r, _, hapi, hstep, hrecord⟩ := (declared?_eq_some_iff hs).1 hd
    cases r with
    | func f => cases hrecord
    | type t =>
      cases hrecord
      exact ⟨congrArg Step.name hstep, fun _ => hapi⟩
  · have hplace : (⟨.api, api⟩ :: ⟨.type, name⟩ :: (outer ++ [last]).map (⟨.nested, ·⟩) : Place) =
        (⟨.api, api⟩ :: ⟨.type, name⟩ :: outer.map (⟨.nested, ·⟩)) ++ [⟨.nested, last⟩] := by
      simp
    rw [List.concat_eq_append, hplace, search?_concat (by simp)] at h
    obtain ⟨d, _, hc⟩ := Option.bind_eq_some_iff.1 h
    have hname : c.name = last := Correction.name_of_child? hc
    refine ⟨?_, fun hnil => absurd hnil (by simp)⟩
    simpa using hname

/-- A plain type that is found refuses to be an interface, and the refusal names the module of its record. -/
theorem mismatch_names_record {t : Tree} (h : s.compile.result = .ok t) {api name : String} {inner : List String}
    {v : View} (hv : (View.root (.tree t)).followAll (Kind.typeRoute (api :: name :: inner)) = .ok v)
    (hfound : v.isSentinel = false) (hplain : v.isInterface = false) :
    ∃ c, v.record? = some (.type c) ∧ c.name = (name :: inner).getLast (by simp) ∧
      v.follow .widen = .error (.refused (.notInterface c.api c.name)) ∧
      (v.follow .widen = .error (.refused (.notInterface api c.name)) ↔ c.api = api) ∧ (inner = [] → c.api = api) := by
  obtain ⟨hs, rfl⟩ := compile_eq_ok.1 h
  obtain ⟨w, hw, hc⟩ := leads_typeRoute hs api name inner
  obtain rfl : v = w := Except.ok.inj (hv.symm.trans hw)
  cases hfind : s.search? (⟨.api, api⟩ :: ⟨.type, name⟩ :: inner.map (⟨.nested, ·⟩)) with
  | none =>
    rw [hfind] at hc
    cases hc
    cases hfound
  | some d =>
    rw [hfind] at hc
    have hempty : v.isEmpty = false := by
      rcases View.type_cases hc.shape?_eq with ⟨p, n, rfl⟩ | rfl | rfl
      · rfl
      · cases hfound
      · cases hc.2.2.1
    obtain ⟨c, hrecord, hrefused⟩ := View.widen_of_plain hc.shape?_eq hempty hplain
    obtain rfl : d = .type c := Option.some.inj (hc.answers.2.2.2.symm.trans hrecord)
    obtain ⟨hname, hapi⟩ := name_of_search? hs hfind
    have hrefused : v.follow .widen = .error (.refused (.notInterface c.api c.name)) := hrefused
    refine ⟨c, hrecord, hname, hrefused, ?_, hapi⟩
    rw [hrefused]
    simp

theorem mismatch_names_record_strayed : ∃ t v, strayed.compile.result = .ok t ∧
    (View.root (.tree t)).followAll (Kind.typeRoute ["A", "T", "N"]) = .ok v ∧ v.isSentinel = false ∧
    v.isInterface = false ∧ v.follow .widen = .error (.refused (.notInterface "B" "N")) ∧
    v.follow .widen ≠ .error (.refused (.notInterface "A" "N")) := by
  have hw : strayed.WellFormed := by decide
  have hc := compile_eq_ok.2 ⟨hw, rfl⟩
  let stray : TypeCorrection := { api := "B", name := "N" }
  have hfind : strayed.search? [⟨.api, "A"⟩, ⟨.type, "T"⟩, ⟨.nested, "N"⟩] = some (.type stray) := by decide
  obtain ⟨v, hv, hcarries⟩ := leads_typeRoute hw "A" "T" ["N"]
  have hcarries : v.Carries .type _ (some (.type stray)) := hfind ▸ hcarries
  obtain ⟨hfound, _, _, hrecord⟩ := hcarries.answers
  have hplain : v.isInterface = false := by
    obtain ⟨fields, nested, hnode⟩ := stray.node_plain rfl
    rw [View.isInterface, hcarries.2.2.2, Correction.node, hnode]
    rfl
  obtain ⟨c, hc', _, hrefused, hiff, _⟩ := mismatch_names_record hc hv hfound hplain
  obtain rfl : stray = c := Correction.type.inj (Option.some.inj (hrecord.symm.trans hc'))
  refine ⟨_, v, hc, hv, hfound, hplain, hrefused, fun hsame => ?_⟩
  exact absurd (hiff.1 hsame) (by decide)

end Sheet
end Errata
