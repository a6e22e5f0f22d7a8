import Errata.Proofs.Walking
import Errata.Request
import Mathlib.Data.List.Nodup

/-! Many applications one after the other. What marks preserve, a run preserves; what it leaves in a count is what
was posted to it, and a walk that marks what it visits posts one to each. Main statements: `Ledger.tallyOf_post`,
`Session.serveAll_preserves`, `Session.perform_visit`, `Session.filter_markVisits`. -/
namespace Errata

theorem Tally.add_zero (t : Tally) : t.add 0 = t := by
  simp [add]

theorem Tally.add_add (t : Tally) (m n : Nat) : (t.add m).add n = t.add (m + n) := by
  simp [add, UInt32.add_assoc]

namespace Ledger

/-- Adds number after number, each to its count. -/
def post (l : Ledger) (xs : List (Identity × Nat)) : Ledger := xs.foldl (fun l x => l.add x.1 x.2) l

theorem tallyOf_post (l : Ledger) (xs : List (Identity × Nat)) (i : Identity) :
    (l.post xs).tallyOf i = (l.tallyOf i).add ((xs.filter (·.1 = i)).map (·.2)).sum := by
  induction xs generalizing l with
  | nil => exact (Tally.add_zero _).symm
  | cons x xs ih =>
    have hpost : l.post (x :: xs) = (l.add x.1 x.2).post xs := rfl
    rw [hpost, ih]
    by_cases hx : x.1 = i
    · subst hx
      simp [tallyOf_add_self, Tally.add_add]
    · rw [tallyOf_add_of_ne (Ne.symm hx), List.filter_cons_of_neg (by simpa using hx)]

theorem tally_post_once (l : Ledger) (ps : List Place) (p : Place) :
    (l.post (ps.map fun q => (.placed q, 1))).tally p = (l.tally p).add (ps.count p) := by
  have hsum : (((ps.map fun q => (Identity.placed q, 1)).filter (·.1 = .placed p)).map (·.2)).sum = ps.count p := by
    induction ps with
    | nil => rfl
    | cons q ps ih =>
      by_cases hq : q = p
      · simp [hq, ih, Nat.add_comm]
      · simpa [hq] using ih
  rw [tally, tallyOf_post, hsum]
  rfl

end Ledger

theorem View.respond_eq {v : View} {record : Correction} (h : v.record? = some record) (a : Action) :
    v.respond a = record.respond a := by
  rw [respond.eq_def, h]

theorem View.counts_node {n : Node} {kind : Kind} (h : n.kind? = some kind) (p : Place) :
    (View.node p n).counts = true := by
  cases n <;> first | rfl | cases h

/-- Where no place is visited twice, the place of a visit is among the chosen ones if the visit is. -/
theorem Visit.place_mem_chosen_iff {visits : List Visit} (hv : (visits.map place).Nodup) (chosen : Nat → Bool)
    {visit : Visit} {i : Nat} (hi : (visit, i) ∈ visits.zipIdx) :
    visit.place ∈ (visits.zipIdx.filter (chosen ·.2)).map (·.1.place) ↔ chosen i = true := by
  have hat : visits[i]? = some visit := List.mem_zipIdx_iff_getElem?.1 hi
  constructor
  · intro hm
    obtain ⟨⟨w, j⟩, hw, hplace⟩ := List.mem_map.1 hm
    have hj := (List.mem_filter.1 hw).2
    have hatw : visits[j]? = some w := List.mem_zipIdx_iff_getElem?.1 (List.mem_filter.1 hw).1
    have hsame : (visits.map place)[i]? = (visits.map place)[j]? := by
      rw [List.getElem?_map, List.getElem?_map, hat, hatw]
      exact congrArg some hplace.symm
    have hlt : i < (visits.map place).length := by
      rw [List.length_map]
      exact (List.getElem?_eq_some_iff.1 hat).1
    have hij : i = j := (List.getElem?_inj hlt hv).1 hsame
    subst hij
    exact hj
  · exact fun hc => List.mem_map.2 ⟨_, List.mem_filter.2 ⟨hi, hc⟩, rfl⟩

namespace Session

/-- A session changes by marks only, so that a run preserves what they preserve. -/
theorem serve_preserves {P : Session → Prop} (mark : ∀ s v times, P s → P (s.mark v times)) {s : Session} (h : P s)
    (q : Request) : P (s.serve q).2 := by
  unfold serve
  cases q.view s.root with
  | error halt => exact h
  | ok v =>
    cases hp : s.perform v q.action with
    | none => simpa only [hp] using h
    | some reply =>
      obtain ⟨o, _, rfl⟩ := Option.map_eq_some_iff.1 hp
      simpa only [hp] using mark s v o.marks h

theorem serveAll_preserves {P : Session → Prop} (mark : ∀ s v times, P s → P (s.mark v times)) {s : Session} (h : P s)
    (qs : List Request) : P (s.serveAll qs).2 := by
  induction qs generalizing s with
  | nil => exact h
  | cons q qs ih => exact ih (serve_preserves mark h q)

theorem root_mark (s : Session) (v : View) (times : Nat) : (s.mark v times).root = s.root := by
  unfold mark
  split <;> rfl

theorem root_serveAll (s : Session) (qs : List Request) : (s.serveAll qs).2.root = s.root :=
  serveAll_preserves (P := fun s' => s'.root = s.root) (fun s' v times h => (s'.root_mark v times).trans h) rfl qs

/-- To mark a visit is to mark the node at its place, and that counts. -/
theorem perform_visit {s : Session} {visit : Visit} (h : visit ∈ s.view.visits) :
    ∃ n, s.root.at? visit.place = some n ∧
      s.perform (.node visit.place n) (.mark 1) = some (.done, s.markAt visit.place) ∧
      s.markAt visit.place = { s with ledger := s.ledger.add (.placed visit.place) 1 } := by
  have hmem : visit ∈ s.root.visits [] := h
  rw [Node.visits_eq] at hmem
  obtain ⟨st, p, n, hplace, hat, hkind, hrecord⟩ := Node.at?_of_mem_below hmem
  rw [List.nil_append] at hplace
  rw [← hplace] at hat
  have hmark : s.markAt visit.place = s.mark (.node visit.place n) 1 := by rw [markAt, hat, Option.elim_some]
  have hcounts := View.counts_node hkind visit.place
  refine ⟨n, hat, ?_, ?_⟩
  · rw [perform, View.respond_eq (v := .node visit.place n) hrecord, hmark]
    cases visit.record <;> rfl
  · rw [hmark, mark, if_pos hcounts]
    rfl

theorem ledger_markVisits (s : Session) (chosen : Nat → Bool) : (s.markVisits s.view chosen).2.ledger =
    s.ledger.post (((s.view.visits.zipIdx.filter (chosen ·.2)).map (·.1.place)).map fun p => (.placed p, 1)) := by
  have hfold (xs : List (Visit × Nat)) (s : Session) (hxs : ∀ x ∈ xs, x.1 ∈ s.view.visits) :
      (xs.foldl (fun s x => s.markAt x.1.place) s).ledger =
        s.ledger.post ((xs.map (·.1.place)).map fun p => (.placed p, 1)) := by
    induction xs generalizing s with
    | nil => rfl
    | cons x xs ih =>
      obtain ⟨_, _, _, hmark⟩ := perform_visit (hxs x List.mem_cons_self)
      rw [List.foldl_cons, hmark]
      exact ih _ fun y hy => hxs y (List.mem_cons_of_mem _ hy)
  refine hfold _ s fun x hx => ?_
  exact List.fst_mem_of_mem_zipIdx (List.mem_of_mem_filter hx)

theorem tally_markVisits (s : Session) (chosen : Nat → Bool) {visit : Visit} {i : Nat}
    (hi : (visit, i) ∈ s.view.visits.zipIdx) :
    (s.markVisits s.view chosen).2.ledger.tally visit.place =
      (s.ledger.tally visit.place).add (if chosen i then 1 else 0) := by
  have hv : (s.view.visits.map Visit.place).Nodup := Node.nodup_visits s.root []
  have hall : s.view.visits.zipIdx.map (·.1.place) = s.view.visits.map Visit.place := by
    have h := congrArg (List.map Visit.place) (List.zipIdx_map_fst 0 s.view.visits)
    rwa [List.map_map] at h
  have hmarked : ((s.view.visits.zipIdx.filter (chosen ·.2)).map (·.1.place)).Nodup :=
    (List.filter_sublist.map _).nodup (hall ▸ hv)
  rw [ledger_markVisits, Ledger.tally_post_once, hmarked.count]
  simp only [Visit.place_mem_chosen_iff hv chosen hi]

theorem filter_markVisits {s : Session} (hs : s.ledger = .blank) (chosen : Nat → Bool) :
    s.view.visits.filter (fun visit => ((s.markVisits s.view chosen).2.ledger.tally visit.place).count = 0) =
      (s.view.visits.zipIdx.filter (!chosen ·.2)).map Prod.fst := by
  have hcount : ∀ x ∈ s.view.visits.zipIdx,
      decide (((s.markVisits s.view chosen).2.ledger.tally x.1.place).count = 0) = !chosen x.2 := by
    intro x hx
    rw [s.tally_markVisits chosen hx, hs]
    cases chosen x.2 <;> rfl
  have hfilter := List.filter_map (f := Prod.fst) (l := s.view.visits.zipIdx)
    (p := fun visit => decide (((s.markVisits s.view chosen).2.ledger.tally visit.place).count = 0))
  rw [List.zipIdx_map_fst] at hfilter
  rw [hfilter]
  exact congrArg _ (List.filter_congr hcount)

end Session
end Errata
