import Errata.Proofs.Locating
import Errata.Proofs.Unused
import Errata.Request

/-! What a run of requests leaves in the ledger. The root alone decides what is replied, the replies alone decide
what is counted, and a count that was posted to one place stays there. Main statements: `Session.serveAll_eq`,
`Session.tally_serveAll`, `Tree.review_congr`. -/
namespace Errata

theorem TypeCorrection.shown_applyRemove (t : TypeCorrection) :
    t.applyRemove.marks = Action.remove.shown t.applyRemove.reply := by
  cases h : t.remove <;> simp [applyRemove, h, Outcome.flag, Action.shown]

theorem FieldCorrection.shown_applyType (f : FieldCorrection) (given : String) :
    (f.applyType given).marks = (Action.retype given).shown (f.applyType given).reply := by
  cases h : f.typeName with
  | none => simp [applyType, h, Outcome.text, Action.shown]
  | some typeName => by_cases hg : typeName = given <;> simp [applyType, h, hg, Outcome.text, Action.shown]

theorem ParamCorrection.shown_applyOptional (p : ParamCorrection) (given : Bool) :
    (p.applyOptional given).marks = (Action.optional given).shown (p.applyOptional given).reply := by
  cases h : p.optional <;> cases given <;> simp [applyOptional, h, Outcome.flag, Action.shown]

theorem ParamCorrection.shown_applyConstant (p : ParamCorrection) (given : Bool) :
    (p.applyConstant given).marks = (Action.constant given).shown (p.applyConstant given).reply := by
  cases h : p.constant <;> cases given <;> simp [applyConstant, h, Outcome.flag, Action.shown]

namespace View

theorem marks_eq_shown {v : View} {a : Action} {o : Outcome} (h : v.respond a = some o) :
    o.marks = a.shown o.reply := by
  have hrecord {c : Correction} (h : c.respond a = some o) : o.marks = a.shown o.reply := by
    unfold Correction.respond at h
    split at h <;> cases h
    · rfl
    · exact TypeCorrection.shown_applyRemove _
    · exact FieldCorrection.shown_applyType _ _
    · exact ParamCorrection.shown_applyOptional _ _
    · exact ParamCorrection.shown_applyConstant _ _
  unfold respond at h
  split at h
  · exact hrecord h
  · cases h
    rfl
  · cases h

/-- What replies is counted at its place, and a stand-in is not counted at any. -/
theorem counted_iff {v : View} {a : Action} {o : Outcome} (h : v.respond a = some o) {p : Place} :
    v.counts = true ∧ v.identity = .placed p ↔ v.place? = some p := by
  cases v with
  | node q n =>
    have hcounts : (node q n).counts = true := by
      cases n with
      | tree t => cases h
      | _ => rfl
    simp [hcounts, identity, place?]
  | com q face => simp [counts, shape?, isEmpty, identity, place?]
  | absent shape => simp [identity, place?]
  | bare => simp [identity, place?]

theorem isSome_respond {v : View} {σ : Shape} (h : v.shape? = some σ) (a : Action) :
    (v.respond a).isSome = σ.takes a := by
  cases v with
  | node p n => cases n <;> cases h <;> cases a <;> rfl
  | com p face =>
    cases h
    cases a <;> rfl
  | absent shape =>
    cases h
    cases σ <;> cases a <;> rfl
  | bare =>
    cases h
    cases a <;> rfl

end View

theorem Tally.toNat_count_add (t : Tally) (n : Nat) : (t.add n).count.toNat = (t.count.toNat + n) % 2 ^ 32 := by
  simp [add, UInt32.toNat_add]

namespace Ledger

theorem post_append (l : Ledger) (xs ys : List (Identity × Nat)) : l.post (xs ++ ys) = (l.post xs).post ys :=
  List.foldl_append

theorem post_perm (l : Ledger) {xs ys : List (Identity × Nat)} (h : xs.Perm ys) : l.post xs = l.post ys := by
  ext i
  rw [tallyOf_post, tallyOf_post, ((h.filter _).map _).sum_nat]

end Ledger

namespace Request
variable (root : Node) (q : Request)

def reply : Except Halt Reply :=
  q.view root >>= fun v => ((v.respond q.action).map (·.reply)).elim (.error .unsupported) .ok

def postings : List (Identity × Nat) :=
  match q.view root with
  | .ok v => if v.counts then ((v.respond q.action).map fun o => (v.identity, o.marks)).toList else []
  | .error _ => []

theorem sum_postings (p : Place) :
    (((q.postings root).filter (·.1 = .placed p)).map (·.2)).sum = q.shownAt root p (q.reply root) := by
  unfold postings reply shownAt place?
  cases q.view root with
  | error halt => rfl
  | ok v =>
    cases ho : v.respond q.action with
    | none => cases v.place? <;> simp [bind, Except.bind, ho]
    | some o =>
      have hshown := View.marks_eq_shown ho
      have hcounted := View.counted_iff ho (p := p)
      cases hc : v.counts <;> by_cases hi : v.identity = .placed p <;>
        simp [bind, Except.bind, Except.toOption, ho, hi, ← hcounted, hc, hshown]

theorem place?_markModule {t : Tree} {api : String} {times : Nat} {p : Place}
    (h : (markModule api times).place? (.tree t) = some p) : p.length = 1 := by
  have hseek : ((View.root (.tree t)).seek .api api (.absent .api)).place? = some p := h
  unfold View.seek at hseek
  split at hseek
  · rename_i hroot _
    cases hroot
    cases hseek
    rfl
  · cases hseek

end Request

namespace Session

theorem serve_eq (s : Session) (q : Request) :
    s.serve q = (q.reply s.root, { s with ledger := s.ledger.post (q.postings s.root) }) := by
  unfold serve perform Request.reply Request.postings
  cases q.view s.root with
  | error halt => rfl
  | ok v =>
    cases ho : v.respond q.action with
    | none => simp [bind, Except.bind, ho, Ledger.post]
    | some o => cases hc : v.counts <;> simp [bind, Except.bind, ho, hc, mark, Ledger.post]

/-- A run replies to each request as if it were the first, and posts what each of them posts. -/
theorem serveAll_eq (s : Session) (qs : List Request) :
    s.serveAll qs = (qs.map (·.reply s.root),
      { s with ledger := s.ledger.post (qs.flatMap (·.postings s.root)) }) := by
  induction qs generalizing s with
  | nil => rfl
  | cons q qs ih => simp [serveAll, serve_eq, ih, Ledger.post_append]

theorem replies_serveAll (s : Session) (qs : List Request) : (s.serveAll qs).1 = qs.map (·.reply s.root) := by
  rw [serveAll_eq]

theorem applications_eq (s : Session) (qs : List Request) (p : Place) :
    s.applications qs p = (qs.map fun q => q.shownAt s.root p (q.reply s.root)).sum := by
  rw [applications, replies_serveAll]
  congr 1
  induction qs with
  | nil => rfl
  | cons q qs ih => simp [ih]

theorem tally_serveAll (s : Session) (qs : List Request) (p : Place) :
    (s.serveAll qs).2.ledger.tally p = (s.ledger.tally p).add (s.applications qs p) := by
  rw [applications_eq, serveAll_eq, Ledger.tally, Ledger.tallyOf_post]
  congr 1
  induction qs with
  | nil => rfl
  | cons q qs ih => simpa [← Request.sum_postings] using ih

theorem tally_serve_of_ne {s : Session} {q : Request} {p : Place} (h : q.place? s.root ≠ some p) :
    (s.serve q).2.ledger.tally p = s.ledger.tally p := by
  have hshown : q.shownAt s.root p (q.reply s.root) = 0 := by
    unfold Request.shownAt
    cases q.reply s.root <;> simp [h]
  rw [serve_eq, Ledger.tally, Ledger.tallyOf_post, Request.sum_postings, hshown, Tally.add_zero]
  rfl

theorem serveAll_perm (s : Session) {qs qs' : List Request} (h : qs.Perm qs') :
    (s.serveAll qs).2 = (s.serveAll qs').2 := by
  rw [serveAll_eq, serveAll_eq, s.ledger.post_perm (h.flatMap_right (·.postings s.root))]

theorem zip_replies (s : Session) (qs : List Request) :
    qs.zip (s.serveAll qs).1 = qs.map fun q => (q, q.reply s.root) := by
  rw [replies_serveAll, List.map_prod_left_eq_zip]

theorem tally_markModules (t : Tree) (l : Ledger) (marks : List (String × Nat)) {p : Place} (hp : 2 ≤ p.length) :
    (serveAll ⟨.tree t, l⟩ (marks.map fun m => .markModule m.1 m.2)).2.ledger.tally p = l.tally p := by
  induction marks generalizing l with
  | nil => rfl
  | cons m marks ih =>
    have hm : (Request.markModule m.1 m.2).place? (.tree t) ≠ some p := by
      intro h
      have := Request.place?_markModule h
      omega
    have hserve := tally_serve_of_ne (s := ⟨.tree t, l⟩) hm
    rw [serve_eq] at hserve
    rw [List.map_cons, serveAll, serve_eq]
    exact (ih _).trans hserve

end Session

namespace Tree

theorem two_le_of_mem_inspected {t : Tree} {includeFuncs : Bool} {x : String × Visit}
    (h : x ∈ t.inspected includeFuncs) : 2 ≤ x.2.place.length := by
  have hinspect {key : String} {n : Node} {place : Place} {kind : Kind} {record : Correction} {v : Visit}
      (hp : place.length = 2) (hv : v ∈ ApiNode.inspect key n place kind record) : 2 ≤ v.place.length :=
    hp ▸ (ApiNode.place_of_mem_inspect hv).length_le
  obtain ⟨⟨key, a⟩, _, hx⟩ := List.mem_flatMap.1 h
  obtain ⟨v, hv, rfl⟩ := List.mem_map.1 hx
  rcases List.mem_append.1 hv with hv | hv
  · obtain ⟨_, _, hv⟩ := List.mem_flatMap.1 hv
    exact hinspect rfl hv
  · cases includeFuncs with
    | false => cases hv
    | true =>
      obtain ⟨_, _, hv⟩ := List.mem_flatMap.1 hv
      exact hinspect rfl hv

theorem review_congr (t : Tree) {l l' : Ledger} (h : ∀ p : Place, 2 ≤ p.length → l.tally p = l'.tally p)
    (settings : ReviewSettings) : t.review l settings = t.review l' settings := by
  have hfilter : (t.inspected settings.includeFuncs).filter (fun x => !(l.tally x.2.place).isApplied) =
      (t.inspected settings.includeFuncs).filter fun x => !(l'.tally x.2.place).isApplied := by
    apply List.filter_congr
    intro x hx
    rw [h _ (two_le_of_mem_inspected hx)]
  have hinspect : t.inspect l settings.includeFuncs = t.inspect l' settings.includeFuncs :=
    congrArg (fun xs => (⟨_, xs.map fun x => x.2.unused x.1⟩ : Report)) hfilter
  rw [review, review, hinspect]

/-- A run leaves the tree alone, and the replies to it tell what was counted and where. -/
theorem serveAll_accounts (t : Tree) (l : Ledger) (qs : List Request) :
    let start : Session := ⟨.tree t, l⟩
    let replies := (start.serveAll qs).1
    let done := (start.serveAll qs).2
    done.root = .tree t ∧
    (∀ p, (done.ledger.tally p).count.toNat = ((l.tally p).count.toNat + start.applications qs p) % 2 ^ 32) ∧
    (∀ q p, q.place? (.tree t) ≠ some p → (start.serve q).2.ledger.tally p = l.tally p) ∧
    (∀ hops v, (View.root (.tree t)).followAll hops = .ok v →
      (∀ p, v.place? = some p → (Node.tree t).at? p = v.node?) ∧
      ∀ w, v.follow .widen = .ok w → w.place? = v.place? ∧ w.node? = v.node?) ∧
    (∀ q v σ, q.view (.tree t) = .ok v → v.shape? = some σ → σ.takes q.action = true →
      ∃ reply, (start.serve q).1 = .ok reply) ∧
    replies = qs.map (fun q => (Session.serve { root := .tree t } q).1) ∧
    (∀ qs', qs.Perm qs' → (start.serveAll qs').2 = done ∧
      (qs.zip replies).Perm (qs'.zip (start.serveAll qs').1)) ∧
    ∀ marks : List (String × Nat), let marked := (start.serveAll (marks.map fun m => .markModule m.1 m.2)).2
      marked.tallied = start.tallied ∧ ∀ settings, t.review marked.ledger settings = t.review l settings := by
  intro start replies done
  refine ⟨start.root_serveAll qs, ?_, ?_, ?_, ?_, ?_, ?_, ?_⟩
  · intro p
    have htally : done.ledger.tally p = (l.tally p).add (start.applications qs p) := start.tally_serveAll qs p
    rw [htally, Tally.toNat_count_add]
  · intro q p h
    exact Session.tally_serve_of_ne (s := start) h
  · intro hops v hv
    exact ⟨(View.located_root _).followAll hv, fun w hw => View.same_of_widen hw⟩
  · intro q v σ hv hσ ha
    rw [← View.isSome_respond hσ] at ha
    obtain ⟨o, ho⟩ := Option.isSome_iff_exists.1 ha
    refine ⟨o.reply, ?_⟩
    rw [Session.serve_eq, Request.reply, hv]
    simp [bind, Except.bind, ho]
  · have hserve (q : Request) : (Session.serve { root := .tree t } q).1 = q.reply (.tree t) := by
      rw [Session.serve_eq]
    simp only [hserve]
    exact start.replies_serveAll qs
  · intro qs' hqs
    refine ⟨start.serveAll_perm hqs.symm, ?_⟩
    have hzip : qs.zip replies = qs.map fun q => (q, q.reply (.tree t)) := start.zip_replies qs
    rw [hzip, start.zip_replies]
    exact hqs.map _
  · intro marks marked
    have htally {p : Place} (hp : 2 ≤ p.length) : marked.ledger.tally p = l.tally p :=
      Session.tally_markModules t l marks hp
    have hroot : marked.root = .tree t := start.root_serveAll _
    refine ⟨?_, fun settings => t.review_congr (fun p hp => htally hp) settings⟩
    rw [Session.tallied, hroot]
    apply List.map_congr_left
    intro v hv
    rw [htally (Node.two_le_of_mem_visits hv)]

end Tree

namespace Sheet

def assorted : Sheet where
  funcs := [{ api := "A", name := "f", params := [{ name := "p", optional := true }] }]
  types := [{ api := "A", name := "T", remove := true, fields := some [{ name := "x", typeName := some "u32" }] },
    { api := "A", name := "I", methods := some [{ name := "m", params := [{ name := "q", constant := true }] }] }]

def errands : List Request := [.markModule "A" 2, ⟨[.into .api "A", .into .type "T"], .remove⟩,
  ⟨[.into .api "A", .into .type "T", .into .field "x"], .retype "u8"⟩,
  ⟨[.into .api "A", .into .type "T", .into .field "x"], .retype "u32"⟩,
  ⟨[.into .api "A", .into .type "I", .widen], .mark 1⟩, ⟨[.into .api "A", .into .type "I"], .mark 3⟩,
  ⟨[.into .api "A", .into .type "I", .widen, .into .method "m", .into .param "q"], .constant false⟩,
  ⟨[.into .api "A", .into .func "f", .into .param "p"], .optional true⟩, ⟨[.into .api "A", .into .type "Z"], .mark 1⟩]

theorem serveAll_accounts_errands : ∃ t, assorted.compile.result = .ok t ∧
    let start : Session := { root := .tree t }
    (start.serveAll errands).2 = (start.serveAll errands.reverse).2 ∧
    [[⟨.api, "A"⟩], [⟨.api, "A"⟩, ⟨.type, "T"⟩], [⟨.api, "A"⟩, ⟨.type, "T"⟩, ⟨.field, "x"⟩],
      [⟨.api, "A"⟩, ⟨.type, "I"⟩], [⟨.api, "A"⟩, ⟨.type, "I"⟩, ⟨.method, "m"⟩, ⟨.param, "q"⟩],
      [⟨.api, "A"⟩, ⟨.func, "f"⟩, ⟨.param, "p"⟩]].map
        (fun p => ((start.serveAll errands).2.ledger.tally p).count.toNat) = [2, 1, 1, 4, 1, 0] := by
  have hw : assorted.WellFormed := by decide
  refine ⟨_, compile_eq_ok.2 ⟨hw, rfl⟩, ?_⟩
  obtain ⟨_, hcount, _, _, _, _, hperm, _⟩ := assorted.image.serveAll_accounts .blank errands
  refine ⟨(hperm _ (List.reverse_perm errands).symm).1.symm, ?_⟩
  simp only [List.map_cons, List.map_nil, hcount]
  decide +kernel

end Sheet
end Errata
