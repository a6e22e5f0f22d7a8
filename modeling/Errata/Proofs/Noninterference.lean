import Errata.Proofs.Missing
import Errata.Proofs.Redacting

/-! The modules that inner records name are seen by nothing that does not print them: not by look-ups, actions or
reviews. So two sheets that are the same without them behave the same. Main statements: `View.followAll_redact`,
`Tree.review_redact`, `Sheet.inner_modules_unseen`. -/
namespace Errata

theorem Correction.respond_redact (outer : Bool) (c : Correction) (a : Action) :
    (c.redact outer).respond a = c.respond a := by
  cases c with
  | type t =>
    cases a with
    | remove => simp only [redact, respond, TypeCorrection.applyRemove, TypeCorrection.remove_redact]
    | mark | retype | optional | constant => rfl
  | func f => cases a <;> rfl
  | field f | param p => rfl

namespace View

section
variable (v : View)

theorem shape?_redact : v.redact.shape? = v.shape? := by
  cases v with
  | node p n => exact n.shape?_redact _
  | com p face | absent shape | bare => rfl

theorem place?_redact : v.redact.place? = v.place? := by cases v <;> rfl

theorem identity_redact : v.redact.identity = v.identity := by cases v <;> rfl

theorem counts_redact : v.redact.counts = v.counts := by
  cases v with
  | node p n =>
    cases n with
    | tree t =>
      have hempty : t.redact.isEmpty = t.isEmpty := by
        simp [Tree.isEmpty, Tree.redact, NameMap.isEmpty, NameMap.map, Array.isEmpty]
      exact congrArg (!·) hempty
    | _ => rfl
  | com p face | absent shape | bare => rfl

theorem proper_redact (role : Role) : v.redact.proper role = v.proper role := by
  rw [proper, proper, shape?_redact]

theorem held_redact (role : Role) :
    v.redact.held role = (v.held role).map (·.map (Node.redact (v.proper role).isOuter)) := by
  have hheld (outer : Bool) {n : Node} (h : v.node? = some n) (h' : v.redact.node? = some (n.redact outer)) :
      v.redact.held role = (v.held role).map (·.map (Node.redact (v.proper role).isOuter)) := by
    rw [held, held, h, h', proper_redact]
    exact n.held_redact outer _
  cases v with
  | node p n => exact hheld _ rfl rfl
  | com p face => exact hheld p.isOuter rfl (congrArg (some <| Node.type ·) (TypeNode.redact_com _ face).symm)
  | absent shape | bare => rfl

theorem seek_redact (role : Role) (name : String) (default : View) :
    v.redact.seek role name default.redact = (v.seek role name default).redact := by
  rw [seek, seek, place?_redact, held_redact, proper_redact]
  cases v.place? with
  | none => rfl
  | some p =>
    cases v.held role with
    | none => rfl
    | some m =>
      simp only [Option.map_some, Option.bind_some, NameMap.find?_map]
      cases m.find? name with
      | none => rfl
      | some n => simp only [Option.map_some, redact, Place.isOuter_concat]

theorem record?_redact : v.redact.record? = v.record?.map (·.redact (v.place?.all Place.isOuter)) := by
  cases v with
  | node p n => exact n.record?_redact _
  | com p face => rfl
  | absent shape => cases shape <;> rfl
  | bare => rfl

end

/-- What an address leads to where the modules that inner records name are struck out. -/
def Mirrored (reached reached' : Except Halt View) : Prop :=
  (∃ v, reached = .ok v ∧ reached' = .ok v.redact) ∨
    ∃ halt halt', reached = .error halt ∧ reached' = .error halt' ∧ halt.redact = halt'.redact

theorem widen_redact (v : View) : Mirrored v.widen v.redact.widen := by
  cases v with
  | node p n =>
    cases n with
    | type t =>
      cases t with
      | plain record fields nested =>
        rw [redact, Node.redact, TypeNode.redact_plain]
        refine .inr ⟨_, _, rfl, rfl, ?_⟩
        simp [Halt.redact]
      | com face =>
        rw [redact, Node.redact, TypeNode.redact_com]
        exact .inl ⟨.com p face, rfl, rfl⟩
    | tree _ | api _ | func _ | field _ | param _ => exact .inr ⟨_, _, rfl, rfl, rfl⟩
  | com p face => exact .inl ⟨.com p face, rfl, rfl⟩
  | absent shape =>
    cases shape with
    | type | com => exact .inl ⟨.absent .com, rfl, rfl⟩
    | api | func | field | param => exact .inr ⟨_, _, rfl, rfl, rfl⟩
  | bare => exact .inl ⟨.absent .com, rfl, rfl⟩

theorem plain_redact (v : View) : Mirrored v.plain v.redact.plain := by
  cases v with
  | com p face =>
    have hface : View.redact (.node p (.type (.com face))) = .node p (.type (.com (face.redact p.isOuter))) := by
      rw [redact, Node.redact, TypeNode.redact_com]
    exact .inl ⟨_, rfl, congrArg Except.ok hface.symm⟩
  | absent shape =>
    cases shape with
    | com => exact .inl ⟨.bare, rfl, rfl⟩
    | api | type | func | field | param => exact .inr ⟨_, _, rfl, rfl, rfl⟩
  | node _ _ | bare => exact .inr ⟨_, _, rfl, rfl, rfl⟩

theorem follow_redact (v : View) (hop : Hop) : Mirrored (v.follow hop) (v.redact.follow hop) := by
  cases hop with
  | into role name =>
    have hoffers : v.redact.offers role = v.offers role := by rw [offers, offers, shape?_redact]
    rw [follow, follow, hoffers]
    by_cases ho : v.offers role = true
    · rw [if_pos ho, if_pos ho]
      exact .inl ⟨_, rfl, congrArg Except.ok (v.seek_redact role name (.absent role.shape))⟩
    · rw [if_neg ho, if_neg ho]
      exact .inr ⟨_, _, rfl, rfl, rfl⟩
  | widen => exact v.widen_redact
  | plain => exact v.plain_redact
  | sentinel shape => exact .inl ⟨_, rfl, rfl⟩

theorem Mirrored.alike {reached reached' mirror : Except Halt View} (h : Mirrored reached mirror)
    (h' : Mirrored reached' mirror) : Alike reached reached' := by
  rcases h with ⟨v, hv, rfl⟩ | ⟨halt, seen, he, rfl, hsame⟩
  · rcases h' with ⟨v', hv', hmirror⟩ | ⟨_, _, _, hmirror, _⟩
    · exact .inl ⟨v, v', hv, hv', Except.ok.inj hmirror⟩
    · cases hmirror
  · rcases h' with ⟨_, _, hmirror⟩ | ⟨halt', seen', he', hmirror, hsame'⟩
    · cases hmirror
    · obtain rfl : seen = seen' := Except.error.inj hmirror
      exact .inr ⟨halt, halt', he, he', hsame.trans hsame'.symm⟩

theorem followAll_redact (v : View) (hops : List Hop) : Mirrored (v.followAll hops) (v.redact.followAll hops) := by
  induction hops generalizing v with
  | nil => exact .inl ⟨v, rfl, rfl⟩
  | cons hop hops ih =>
    rw [followAll_cons, followAll_cons]
    rcases v.follow_redact hop with ⟨w, hw, hw'⟩ | ⟨halt, halt', he, he', hsame⟩
    · rw [hw, hw']
      exact ih w
    · rw [he, he']
      exact .inr ⟨halt, halt', rfl, rfl, hsame⟩

theorem respond_redact (v : View) (a : Action) : v.redact.respond a = v.respond a := by
  unfold respond
  rw [record?_redact, shape?_redact]
  cases v.record? with
  | none => rfl
  | some c => exact c.respond_redact _ a

end View

namespace ApiNode

theorem inspect_redact (key : String) (n : Node) (place : Place) (hp : place.isOuter = true) (kind : Kind)
    (record : Correction) : inspect key (n.redact true) place kind (record.redact true) =
      (inspect key n place kind record).map Visit.redact := by
  have hown : Visit.redact ⟨[key, record.name], place, kind, record⟩ =
      ⟨[key, record.name], place, kind, record.redact true⟩ := by
    rw [Visit.redact, hp]
  rw [inspect, inspect, Correction.name_redact, Node.visits_redact, List.map_cons, hown, List.map_map, List.map_map]
  rfl

variable (a : ApiNode) (key : String)

theorem inspectTypes_redact : a.redact.inspectTypes key = (a.inspectTypes key).map Visit.redact := by
  rw [inspectTypes, inspectTypes, redact, NameMap.entries_map, List.flatMap_map, List.map_flatMap]
  apply List.flatMap_congr
  intro e _
  have hkind : (e.2.redact true).kind = e.2.kind := Option.some.inj (Node.kind?_redact true (.type e.2))
  have hrecord : (Correction.type e.2.record).redact true = .type (e.2.redact true).record :=
    congrArg Correction.type (e.2.record_redact true).symm
  have h := inspect_redact key (.type e.2) [⟨.api, key⟩, ⟨.type, e.1⟩] rfl e.2.kind (.type e.2.record)
  rw [hrecord] at h
  simp only [hkind]
  exact h

theorem inspectFuncs_redact : a.redact.inspectFuncs key = (a.inspectFuncs key).map Visit.redact := by
  rw [inspectFuncs, inspectFuncs, redact, List.map_flatMap]
  apply List.flatMap_congr
  intro e _
  exact inspect_redact key (.func e.2) [⟨.api, key⟩, ⟨.func, e.1⟩] rfl .func (.func e.2.record)

end ApiNode

namespace Tree
variable (t : Tree)

theorem view_redact (q : Request) : View.Mirrored (q.view (.tree t)) (q.view (.tree t.redact)) :=
  (View.root (.tree t)).followAll_redact q.hops

theorem postings_redact (q : Request) : q.postings (.tree t.redact) = q.postings (.tree t) := by
  unfold Request.postings
  rcases t.view_redact q with ⟨v, hv, hv'⟩ | ⟨halt, halt', he, he', _⟩
  · rw [hv, hv']
    simp only [View.identity_redact, View.counts_redact, View.respond_redact]
  · rw [he, he']

theorem ledger_serveAll_redact (l : Ledger) (qs : List Request) :
    (Session.serveAll ⟨.tree t.redact, l⟩ qs).2.ledger = (Session.serveAll ⟨.tree t, l⟩ qs).2.ledger := by
  rw [Session.serveAll_eq, Session.serveAll_eq]
  simp only [postings_redact]

theorem inspected_redact (includeFuncs : Bool) :
    t.redact.inspected includeFuncs = (t.inspected includeFuncs).map fun x => (x.1, x.2.redact) := by
  rw [inspected, inspected, redact, NameMap.entries_map, List.flatMap_map, List.map_flatMap]
  apply List.flatMap_congr
  intro e _
  simp only [ApiNode.inspectTypes_redact, ApiNode.inspectFuncs_redact]
  cases includeFuncs <;> simp [Function.comp_def]

theorem review_redact (l : Ledger) (settings : ReviewSettings) : t.redact.review l settings = t.review l settings := by
  have hinspect : t.redact.inspect l settings.includeFuncs = t.inspect l settings.includeFuncs := by
    rw [inspect, inspect, inspected_redact, List.length_map, List.filter_map, List.map_map]
    rfl
  rw [review, review, hinspect]

end Tree

namespace Sheet
variable {s s' : Sheet}

theorem compile_alike (h : s.redact = s'.redact) : s.compile.events = s'.compile.events ∧
    ((∃ fault, s.compile.result = .error fault ∧ s'.compile.result = .error fault) ∨
      ∃ t t', s.compile.result = .ok t ∧ s'.compile.result = .ok t' ∧ t.redact = t'.redact) := by
  obtain ⟨hresult, hevents⟩ := s.compile_redact
  obtain ⟨hresult', hevents'⟩ := s'.compile_redact
  rw [h] at hresult hevents
  have hsame : s.compile.result.map Tree.redact = s'.compile.result.map Tree.redact := hresult.symm.trans hresult'
  refine ⟨hevents.symm.trans hevents', ?_⟩
  cases hc : s.compile.result with
  | error fault =>
    cases hc' : s'.compile.result with
    | error fault' =>
      rw [hc, hc'] at hsame
      cases hsame
      exact .inl ⟨fault, rfl, rfl⟩
    | ok t' =>
      rw [hc, hc'] at hsame
      cases hsame
  | ok t =>
    cases hc' : s'.compile.result with
    | error fault' =>
      rw [hc, hc'] at hsame
      cases hsame
    | ok t' =>
      rw [hc, hc'] at hsame
      exact .inr ⟨t, t', rfl, rfl, Except.ok.inj hsame⟩

/-- The module that a nested type or a method names in its record is seen by nothing but that record. -/
theorem inner_modules_unseen (h : s.redact = s'.redact) :
    s.compile.events = s'.compile.events ∧
    ((∃ fault, s.compile.result = .error fault ∧ s'.compile.result = .error fault) ∨
      ∃ t t', s.compile.result = .ok t ∧ s'.compile.result = .ok t' ∧ t.size = t'.size ∧
        ((Node.tree t).visits []).map Visit.redact = ((Node.tree t').visits []).map Visit.redact ∧
        (∀ hops, View.Alike ((View.root (.tree t)).followAll hops) ((View.root (.tree t')).followAll hops)) ∧
        ∀ l qs, let done := (Session.serveAll ⟨.tree t, l⟩ qs).2
          let done' := (Session.serveAll ⟨.tree t', l⟩ qs).2
          done.ledger = done'.ledger ∧
            ∀ settings, t.review done.ledger settings = t'.review done'.ledger settings) := by
  obtain ⟨hevents, hresult⟩ := compile_alike h
  refine ⟨hevents, ?_⟩
  rcases hresult with hrefused | ⟨t, t', hc, hc', hredact⟩
  · exact .inl hrefused
  · refine .inr ⟨t, t', hc, hc', ?_, ?_, ?_, ?_⟩
    · have hsize : t.redact.size = t'.redact.size := congrArg Tree.size hredact
      exact hsize
    · have hvisits := Node.visits_redact true (.tree t) []
      rw [Node.redact, hredact] at hvisits
      exact hvisits.symm.trans (Node.visits_redact true (.tree t') [])
    · intro hops
      have hmirror := (View.root (.tree t)).followAll_redact hops
      have hroot : (View.root (.tree t)).redact = (View.root (.tree t')).redact :=
        congrArg (View.root <| Node.tree ·) hredact
      rw [hroot] at hmirror
      exact hmirror.alike ((View.root (.tree t')).followAll_redact hops)
    · intro l qs done done'
      have hledger : done.ledger = done'.ledger := by
        have hmirror := t.ledger_serveAll_redact l qs
        rw [hredact] at hmirror
        exact hmirror.symm.trans (t'.ledger_serveAll_redact l qs)
      refine ⟨hledger, fun settings => ?_⟩
      rw [hledger, ← t.review_redact, hredact, t'.review_redact]

/-- A nested type and a method of module A whose records name a module of their own. -/
def hearsay (api : String) : Sheet where
  types := [{ api := "A", name := "T", nested := some [{ api, name := "N" }] },
    { api := "A", name := "I", methods := some [{ api, name := "m" }] }]

theorem inner_modules_unseen_hearsay : hearsay "A" ≠ hearsay "B" ∧ (hearsay "A").redact = (hearsay "B").redact ∧
    ∃ t t', (hearsay "A").compile.result = .ok t ∧ (hearsay "B").compile.result = .ok t' ∧
      ((Node.tree t).visits []).map Visit.redact = ((Node.tree t').visits []).map Visit.redact ∧
      (∀ hops, View.Alike ((View.root (.tree t)).followAll hops) ((View.root (.tree t')).followAll hops)) ∧
      ∀ settings, t.review .blank settings = t'.review .blank settings := by
  have hdiffer : hearsay "A" ≠ hearsay "B" := by decide
  have hredact : (hearsay "A").redact = (hearsay "B").redact := by decide
  have hc := compile_eq_ok.2 ⟨(by decide : (hearsay "A").WellFormed), rfl⟩
  refine ⟨hdiffer, hredact, ?_⟩
  rcases (inner_modules_unseen hredact).2 with ⟨fault, he, _⟩ | ⟨t, t', ht, ht', _, hvisits, hlookups, hruns⟩
  · rw [hc] at he
    cases he
  · exact ⟨t, t', ht, ht', hvisits, hlookups, (hruns .blank []).2⟩

end Sheet
end Errata
