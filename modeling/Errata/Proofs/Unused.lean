import Errata.Proofs.Flattening
import Errata.Proofs.Running
import Errata.Review

/-! A review goes over the top of a tree by itself and walks only below that, but what it looks at is what a walk
over the whole tree visits, or of that what is of a type. Main statements: `Tree.inspected_eq`, `Tree.inspect_eq`,
`Sheet.review_image`. -/
namespace Errata

theorem Tally.not_isApplied (t : Tally) : (!t.isApplied) = decide (t.count = 0) := by
  rw [isApplied, ← decide_not]
  exact decide_eq_decide.2 (by rw [gt_iff_lt, UInt32.pos_iff_ne_zero, not_not])

/-- The entry that a visit gets if nothing was applied there. -/
def Visit.entry (v : Visit) : Unused := v.unused (v.path.headD "")

namespace Tree

/-- Types and functions at the top of a module have names, so that a walk from one of them starts with its name. -/
structure Named (t : Tree) : Prop where
  types : ∀ e ∈ t.apis.entries, ∀ x ∈ e.2.types.entries, x.2.record.name ≠ ""
  funcs : ∀ e ∈ t.apis.entries, ∀ x ∈ e.2.funcs.entries, x.2.record.name ≠ ""

end Tree

namespace ApiNode

theorem inspect_eq {n : Node} {kind : Kind} {record : Correction} (hk : n.kind? = some kind)
    (hr : n.record? = some record) (hname : record.name ≠ "") (key : String) (place : Place) (st : Step) :
    inspect key n (place ++ [st]) kind record = Node.found place (st, n) [key] := by
  have hn : n.name = record.name := by
    cases n <;> cases hr <;> rfl
  have hstart : (if n.name.isEmpty then [] else [n.name]) = [record.name] := by
    rw [hn, if_neg (by simpa using hname)]
  have hown : n.own (place ++ [st]) [key, record.name] = [⟨[key, record.name], place ++ [st], kind, record⟩] := by
    rw [Node.own, hk, hr]
  have hsegment : n.segment st.name = record.name := by
    rw [Node.segment, hr]
    rfl
  rw [inspect, Node.visits_eq, hstart, ← Node.below_under, Node.found, hsegment]
  simp only [List.singleton_append]
  rw [hown]
  rfl

theorem inspect_types_funcs (a : ApiNode) (key : String) (ht : ∀ x ∈ a.types.entries, x.2.record.name ≠ "")
    (hf : ∀ x ∈ a.funcs.entries, x.2.record.name ≠ "") :
    a.inspectTypes key ++ a.inspectFuncs key = (Node.api a).below [⟨.api, key⟩] [key] := by
  rw [Node.below_eq, Node.filed_api, Node.filedAs, Node.filedAs, List.flatMap_append, List.flatMap_map,
    List.flatMap_map, inspectTypes, inspectFuncs]
  congr 1
  · apply List.flatMap_congr
    intro x hx
    exact inspect_eq (n := .type x.2) rfl rfl (ht x hx) key [⟨.api, key⟩] ⟨.type, x.1⟩
  · apply List.flatMap_congr
    intro x hx
    exact inspect_eq (n := .func x.2) rfl rfl (hf x hx) key [⟨.api, key⟩] ⟨.func, x.1⟩

theorem place_of_mem_inspect {key : String} {n : Node} {place : Place} {kind : Kind} {record : Correction} {v : Visit}
    (h : v ∈ inspect key n place kind record) : place <+: v.place := by
  rcases List.mem_cons.1 h with rfl | h
  · exact List.prefix_rfl
  · obtain ⟨w, hw, rfl⟩ := List.mem_map.1 h
    rw [Node.visits_eq] at hw
    obtain ⟨st, p, _, hplace, _⟩ := Node.at?_of_mem_below hw
    exact ⟨st :: p, hplace.symm⟩

theorem ofType_of_mem_inspectTypes {a : ApiNode} {key : String} {v : Visit} (h : v ∈ a.inspectTypes key) :
    v.ofType = true := by
  obtain ⟨x, _, h⟩ := List.mem_flatMap.1 h
  obtain ⟨p, hp⟩ := place_of_mem_inspect h
  rw [Visit.ofType, ← hp]
  rfl

theorem ofType_of_mem_inspectFuncs {a : ApiNode} {key : String} {v : Visit} (h : v ∈ a.inspectFuncs key) :
    v.ofType = false := by
  obtain ⟨x, _, h⟩ := List.mem_flatMap.1 h
  obtain ⟨p, hp⟩ := place_of_mem_inspect h
  rw [Visit.ofType, ← hp]
  rfl

end ApiNode

theorem Node.head_of_mem_below {n : Node} {place : Place} {name : String} {v : Visit}
    (h : v ∈ n.below place [name]) : v.path.headD "" = name := by
  rw [below_under] at h
  obtain ⟨w, _, rfl⟩ := List.mem_map.1 h
  rfl

namespace Tree

/-- A review visits what a walk visits, in the same order, and the module of a visit is where its path starts. -/
theorem inspected_eq {t : Tree} (ht : t.Named) :
    t.inspected true = ((Node.tree t).visits []).map fun v => (v.path.headD "", v) := by
  rw [Node.visits_tree, Node.below_eq, Node.filed_tree, Node.filedAs, List.flatMap_map, List.map_flatMap, inspected]
  apply List.flatMap_congr
  intro e he
  obtain ⟨key, a⟩ := e
  have hfound : Node.found [] (⟨.api, key⟩, .api a) [] = (Node.api a).below [⟨.api, key⟩] [key] := rfl
  have hinspect : a.inspectTypes key ++ (if true = true then a.inspectFuncs key else []) =
      (Node.api a).below [⟨.api, key⟩] [key] := a.inspect_types_funcs key (ht.types _ he) (ht.funcs _ he)
  rw [hfound]
  refine (congrArg (List.map (key, ·)) hinspect).trans ?_
  apply List.map_congr_left
  intro v hv
  rw [Node.head_of_mem_below hv]

theorem inspected_eq_filter (t : Tree) (includeFuncs : Bool) :
    t.inspected includeFuncs = (t.inspected true).filter fun x => includeFuncs || x.2.ofType := by
  cases includeFuncs with
  | true => simp
  | false =>
    rw [inspected, inspected, List.filter_flatMap]
    apply List.flatMap_congr
    intro e _
    have htypes : (e.2.inspectTypes e.1).filter Visit.ofType = e.2.inspectTypes e.1 :=
      List.filter_eq_self.2 fun v hv => ApiNode.ofType_of_mem_inspectTypes hv
    have hfuncs : (e.2.inspectFuncs e.1).filter Visit.ofType = [] := by
      rw [List.filter_eq_nil_iff]
      intro v hv
      rw [ApiNode.ofType_of_mem_inspectFuncs hv]
      exact Bool.false_ne_true
    have hfilter : ((e.2.inspectTypes e.1 ++ e.2.inspectFuncs e.1).map (e.1, ·)).filter (fun x => x.2.ofType) =
        ((e.2.inspectTypes e.1 ++ e.2.inspectFuncs e.1).filter Visit.ofType).map (e.1, ·) := List.filter_map
    simp only [Bool.false_or, Bool.false_eq_true, if_false, if_true, hfilter, List.filter_append, htypes, hfuncs]

/-- The visits of a walk that a review looks at. -/
def scope (t : Tree) (includeFuncs : Bool) : List Visit :=
  ((Node.tree t).visits []).filter fun v => includeFuncs || v.ofType

theorem scope_true (t : Tree) : t.scope true = (Node.tree t).visits [] := by
  simp [scope]

theorem scope_false (t : Tree) : t.scope false = ((Node.tree t).visits []).filter Visit.ofType := by
  simp [scope]

theorem review_result (t : Tree) (l : Ledger) {settings : ReviewSettings} (h : settings.policy ≠ .fail) :
    (t.review l settings).result = .ok (t.inspect l settings.includeFuncs) := by
  rw [review]
  cases hp : settings.policy with
  | ignore => rfl
  | warn => rfl
  | fail => exact absurd hp h

theorem inspect_eq {t : Tree} (ht : t.Named) (l : Ledger) (includeFuncs : Bool) :
    t.inspect l includeFuncs = ⟨(t.scope includeFuncs).length,
      ((t.scope includeFuncs).filter fun v => (l.tally v.place).count = 0).map Visit.entry⟩ := by
  have hinspected : t.inspected includeFuncs = (t.scope includeFuncs).map fun v => (v.path.headD "", v) := by
    rw [inspected_eq_filter, inspected_eq ht, List.filter_map]
    rfl
  rw [inspect, hinspected]
  simp only [List.length_map, List.filter_map, List.map_map, Function.comp_def, Tally.not_isApplied]
  rfl

end Tree

namespace Sheet
variable {s : Sheet}

theorem named_image (hs : s.WellFormed) : s.image.Named := by
  constructor
  · intro e he x hx
    rw [entries_image] at he
    obtain ⟨api, _, rfl⟩ := List.mem_map.1 he
    rw [types_apiOf hs] at hx
    obtain ⟨t, ht, rfl⟩ := List.mem_map.1 hx
    rw [TypeCorrection.record_node]
    exact (hs.types t (List.mem_of_mem_filter ht)).sound.named
  · intro e he x hx
    rw [entries_image] at he
    obtain ⟨api, _, rfl⟩ := List.mem_map.1 he
    rw [funcs_apiOf hs] at hx
    obtain ⟨f, hf, rfl⟩ := List.mem_map.1 hx
    exact (hs.funcs f (List.mem_of_mem_filter hf)).named

theorem review_scope (hs : s.WellFormed) (l : Ledger) {settings : ReviewSettings} (hp : settings.policy ≠ .fail) :
    (s.image.review l settings).result = .ok ⟨(s.image.scope settings.includeFuncs).length,
      ((s.image.scope settings.includeFuncs).filter fun v => (l.tally v.place).count = 0).map Visit.entry⟩ := by
  rw [Tree.review_result s.image l hp, Tree.inspect_eq (named_image hs)]

theorem review_image (hs : s.WellFormed) (l : Ledger) {policy : Policy} (hp : policy ≠ .fail) :
    (s.image.review l ⟨policy, true⟩).result = .ok ⟨s.image.size,
      (((Node.tree s.image).visits []).filter fun v => (l.tally v.place).count = 0).map Visit.entry⟩ := by
  have hsize : ((Node.tree s.image).visits []).length = s.image.size := by
    rw [visits_image hs, length_listing]
    rfl
  rw [review_scope hs l hp, Tree.scope_true, hsize]

/-- A full review reports what a walk finds at zero, in the order of the walk, whatever was done before. -/
theorem review_complete {t : Tree} (h : s.compile.result = .ok t) {policy : Policy} (hp : policy ≠ .fail) :
    (∀ l qs, let done := (Session.serveAll ⟨.tree t, l⟩ qs).2
      done.root = .tree t ∧ (t.review done.ledger ⟨policy, true⟩).result = .ok ⟨t.size,
        ((done.root.visits []).filter fun v => (done.ledger.tally v.place).count = 0).map Visit.entry⟩) ∧
    ∀ chosen, let done := (({ root := .tree t } : Session).markVisits (.root (.tree t)) chosen).2
      (t.review done.ledger ⟨policy, true⟩).result = .ok ⟨t.size,
        (((Node.tree t).visits []).zipIdx.filter (!chosen ·.2)).map (·.1.entry)⟩ := by
  obtain ⟨hs, rfl⟩ := compile_eq_ok.1 h
  refine ⟨fun l qs => ?_, fun chosen => ?_⟩
  · have hroot := Session.root_serveAll ⟨.tree s.image, l⟩ qs
    refine ⟨hroot, ?_⟩
    rw [hroot]
    exact review_image hs _ hp
  · intro done
    have hleft : ((Node.tree s.image).visits []).filter (fun v => (done.ledger.tally v.place).count = 0) =
        (((Node.tree s.image).visits []).zipIdx.filter (!chosen ·.2)).map Prod.fst :=
      Session.filter_markVisits (s := { root := .tree s.image }) rfl chosen
    have hreview := review_image hs done.ledger hp
    rw [hleft, List.map_map] at hreview
    exact hreview

theorem review_complete_alternating : ∃ t, alternating.compile.result = .ok t ∧
    let marks : List Request := [⟨[.into .api "A", .into .type "T"], .mark 1⟩, ⟨[.into .api "A", .into .type "Z"], .mark 1⟩,
      ⟨[.into .api "B", .into .func "f", .into .param "p"], .mark 2⟩]
    (t.review (Session.serveAll { root := .tree t } marks).2.ledger ⟨.ignore, true⟩).result =
      .ok ⟨9, [⟨"B", .comType, "B.I"⟩, ⟨"B", .func, "B.I.m"⟩, ⟨"B", .param, "B.I.m.q"⟩, ⟨"B", .func, "B.f"⟩,
        ⟨"A", .field, "A.T.x"⟩, ⟨"A", .type, "A.T.N"⟩, ⟨"A", .func, "A.g"⟩]⟩ ∧
    (t.review (({ root := .tree t } : Session).markVisits (.root (.tree t)) (· % 2 = 0)).2.ledger
      ⟨.warn, true⟩).result = .ok ⟨9, [⟨"B", .func, "B.I.m"⟩, ⟨"B", .func, "B.f"⟩, ⟨"A", .type, "A.T"⟩,
        ⟨"A", .type, "A.T.N"⟩]⟩ := by
  have hw : alternating.WellFormed := by decide
  have hc := compile_eq_ok.2 ⟨hw, rfl⟩
  refine ⟨_, hc, ?_, ?_⟩
  · refine ((review_complete hc (by decide : Policy.ignore ≠ .fail)).1 .blank _).2.trans ?_
    decide +kernel
  · refine ((review_complete hc (by decide : Policy.warn ≠ .fail)).2 (· % 2 = 0)).trans ?_
    rw [visits_image hw]
    decide

end Sheet
end Errata
