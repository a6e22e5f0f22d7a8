import Errata.Proofs.Accounting
import Errata.Route

/-! What is missing stays missing: every look-up from a stand-in leads to a stand-in, no request to one of them changes
anything, and no run changes what they count. Nothing that a sheet declares is missing. Main statements:
`View.followAll_absent`, `Session.serve_absent`, `Session.tally_serveAll_missing`, `Sheet.Declares.reaches`. -/
namespace Errata

namespace Shape

theorem proper_ne (σ : Shape) (role : Role) : ¬(σ = .com ∧ σ.proper role = .func) := by
  cases σ <;> cases role <;> decide

@[simp] theorem proper_proper (σ : Shape) (role : Role) : σ.proper (σ.proper role) = σ.proper role := by
  cases σ <;> cases role <;> rfl

@[simp] theorem offers_proper (σ : Shape) (role : Role) : σ.offers (σ.proper role) = σ.offers role := by
  cases σ <;> cases role <;> rfl

@[simp] theorem shape_proper (σ : Shape) (role : Role) : (σ.proper role).shape = role.shape := by
  cases σ <;> cases role <;> rfl

end Shape

namespace View
variable {v w : View}

theorem record?_absent (σ : Shape) : (absent σ).record? = σ.blank? := by
  cases σ <;> rfl

theorem follow_absent {σ τ : Shape} {hop : Hop} (h : σ.after? hop = some τ) :
    (absent σ).follow hop = .ok (.absent τ) := by
  cases hop with
  | into role name =>
    obtain ⟨ho, hτ⟩ : σ.offers role = true ∧ role.shape = τ := by simpa [Shape.after?] using h
    subst hτ
    exact follow_into_eq_ok.2 ⟨ho, rfl⟩
  | widen =>
    obtain ⟨hσ, hτ⟩ : (σ = .type ∨ σ = .com) ∧ .com = τ := by simpa [Shape.after?] using h
    subst hτ
    rcases hσ with rfl | rfl <;> rfl
  | plain => cases h
  | sentinel shape => cases h

/-- From what is missing every look-up leads to what is missing. -/
theorem followAll_absent {σ τ : Shape} {hops : List Hop} (h : σ.afterAll? hops = some τ) :
    (absent σ).followAll hops = .ok (.absent τ) := by
  induction hops generalizing σ with
  | nil =>
    cases h
    rfl
  | cons hop hops ih =>
    obtain ⟨ρ, hρ, hτ⟩ := Option.bind_eq_some_iff.1 h
    rw [followAll_cons, follow_absent hρ]
    exact ih hτ

theorem respond_absent (σ : Shape) (a : Action) :
    ((absent σ).respond a).map (·.reply) = if σ.takes a = true then some a.idle else none := by
  cases σ <;> cases a <;> rfl

theorem follow_missing {role : Role} {name : String} (ho : v.offers role = true)
    (hn : (v.map role).find? name = none) : v.follow (.into role name) = .ok (.absent role.shape) := by
  refine follow_into_eq_ok.2 ⟨ho, ?_⟩
  have hfind : (v.held role).bind (·.find? name) = none := by
    cases hh : v.held role with
    | none => rfl
    | some m => simpa [map, hh] using hn
  rw [seek, hfind]
  cases v.place? <;> rfl

theorem follow_proper {σ : Shape} (h : v.shape? = some σ) (role : Role) (name : String) :
    v.follow (.into (σ.proper role) name) = v.follow (.into role name) := by
  have hproper (role : Role) : v.proper role = σ.proper role := by
    simp [proper, Shape.proper, h]
  have hseek (default : View) : v.seek (σ.proper role) name default = v.seek role name default := by
    simp only [seek, held, hproper, Shape.proper_proper]
  simp only [follow, offers, h, Shape.offers_proper, Shape.shape_proper, hseek]

theorem Carries.shape?_eq {σ : Shape} {p : Place} {found : Option Correction} (h : v.Carries σ p found) :
    v.shape? = some σ := by
  cases found with
  | none =>
    have hv : v = .absent σ := h
    rw [hv]
    rfl
  | some c => exact h.2.1

theorem Carries.widen_interface {σ : Shape} {p : Place} {t : TypeCorrection} (h : v.Carries σ p (some (.type t)))
    (hi : t.isInterface = true) : ∃ w, v.follow .widen = .ok w ∧ w.Carries .com p (some (.type t)) := by
  obtain ⟨_, hs, hp, hn⟩ := id h
  cases v with
  | node q n =>
    cases hn
    cases hs
    rcases h.widen with ⟨_, ht, hplain, _⟩ | ⟨_, hw⟩
    · cases ht
      rw [hi] at hplain
      cases hplain
    · exact hw
  | com q face =>
    cases hs
    exact ⟨_, rfl, h⟩
  | absent _ | bare => cases hp

/-- Neither a tree, nor a module without a record, nor the plain form of the missing interface. -/
def Settled : View → Prop
  | .node _ (.tree _) | .bare => False
  | .node _ (.api a) => a.isEmpty = false
  | _ => True

theorem Settled.isEmpty_eq (h : v.Settled) : v.isEmpty = v.isSentinel := by
  cases v with
  | node p n =>
    cases n with
    | tree t => cases h
    | api a => exact h
    | type t | func f | field f | param p => rfl
  | com p face => rfl
  | absent shape => rfl
  | bare => cases h

theorem Settled.follow (h : v.Settled) {hop : Hop} (hl : hop.isLookUp = true) (hf : v.follow hop = .ok w) :
    w.Settled := by
  cases hop with
  | into role name =>
    obtain ⟨_, rfl⟩ := follow_into_eq_ok.1 hf
    rcases seek_cases v role name (absent role.shape) with he | ⟨p, m, n, _, hm, hc, he⟩
    · rw [he]
      trivial
    · rw [he]
      -- The role in the map is computed from the view, and what it can be decides what was filed.
      generalize v.proper role = filed at hc
      cases Node.holds_of_child? hc with
      | api t a =>
        cases v with
        | node q n =>
          cases hm
          cases h
        | com q face => cases hm
        | absent shape | bare => cases hm
      | type | func | field | nested | method | param => trivial
  | widen =>
    have hf : v.widen = .ok w := hf
    unfold widen at hf
    split at hf <;> cases hf <;> trivial
  | plain => cases hl
  | sentinel shape => cases hl

theorem Settled.followAll (h : v.Settled) {hops : List Hop} (hl : hops.all Hop.isLookUp = true)
    (hf : v.followAll hops = .ok w) : w.Settled :=
  followAll_preserves (fun hop hhop _ _ hu hw => hu.follow (List.all_eq_true.1 hl hop hhop) hw) h hf

end View

/-- A stand-in ignores every mark. -/
theorem View.counts_missing {v : View} (h : v.place? = none) : v.counts = false := by
  cases v with
  | node | com => cases h
  | absent shape => cases shape <;> rfl
  | bare => rfl

theorem View.identity_ne {v w : View} (hv : v.place? = none) (hw : w.counts = true) : v.identity ≠ w.identity := by
  have hplace : w.place? ≠ none := fun h => by
    rw [counts_missing h] at hw
    cases hw
  cases v <;> cases hv <;> cases w <;> first | exact absurd rfl hplace | nofun

namespace Session

theorem mark_missing {v : View} (h : v.place? = none) (s : Session) (times : Nat) : s.mark v times = s := by
  rw [mark, View.counts_missing h]
  rfl

theorem serve_absent {s : Session} {q : Request} {σ : Shape} (h : q.view s.root = .ok (.absent σ)) :
    s.serve q = (if σ.takes q.action then .ok q.action.idle else .error .unsupported, s) := by
  have hperform : s.perform (.absent σ) q.action = if σ.takes q.action then some (q.action.idle, s) else none := by
    calc
      s.perform (.absent σ) q.action = (((View.absent σ).respond q.action).map (·.reply)).map (·, s) := by
        simp only [perform, s.mark_missing (v := .absent σ) rfl, Option.map_map, Function.comp_def]
      _ = if σ.takes q.action then some (q.action.idle, s) else none := by
        rw [View.respond_absent]
        cases σ.takes q.action <;> rfl
  unfold serve
  rw [h]
  simp only [hperform]
  cases σ.takes q.action <;> rfl

theorem tally_mark_missing {v : View} (h : v.place? = none) (s : Session) (w : View) (times : Nat) :
    (s.mark w times).tally v = s.tally v := by
  cases hc : w.counts with
  | false => simp [mark, hc]
  | true =>
    rw [mark, if_pos hc]
    exact Ledger.tallyOf_add_of_ne (View.identity_ne h hc)

theorem tally_serve_missing {v : View} (h : v.place? = none) (s : Session) (q : Request) :
    (s.serve q).2.tally v = s.tally v :=
  serve_preserves (P := fun s' => s'.tally v = s.tally v)
    (fun s' w times hs => (tally_mark_missing h s' w times).trans hs) rfl q

theorem tally_serveAll_missing {v : View} (h : v.place? = none) (s : Session) (qs : List Request) :
    (s.serveAll qs).2.tally v = s.tally v := by
  induction qs generalizing s with
  | nil => rfl
  | cons q qs ih => exact (ih (s.serve q).2).trans (tally_serve_missing h s q)

end Session

theorem NameMap.entries_of_isEmpty {V : Type} {m : NameMap V} (h : m.isEmpty = true) : m.entries = [] := by
  have hvalues : m.values.toList = [] := by simpa [isEmpty] using h
  rw [entries, hvalues, List.zip_nil_right]

namespace Sheet
variable {s : Sheet}

theorem isEmpty_apiOf (hs : s.WellFormed) {api : String} (h : api ∈ s.modules) : (s.apiOf api).isEmpty = false := by
  rw [← Bool.not_eq_true]
  intro he
  obtain ⟨ht, hf⟩ := Bool.and_eq_true_iff.1 he
  apply visits_apiOf_ne_nil hs h []
  rw [Node.visits_eq, Node.below_eq, Node.filed_api, Node.filedAs, Node.filedAs, NameMap.entries_of_isEmpty ht,
    NameMap.entries_of_isEmpty hf]
  rfl

theorem settled_followAll (hs : s.WellFormed) {hops : List Hop} {v : View} (hne : hops ≠ [])
    (hl : hops.all Hop.isLookUp = true) (hf : (View.root (.tree s.image)).followAll hops = .ok v) : v.Settled := by
  cases hops with
  | nil => exact absurd rfl hne
  | cons hop hops =>
    obtain ⟨hhop, hhops⟩ := Bool.and_eq_true_iff.1 hl
    rw [View.followAll_cons] at hf
    cases hop with
    | into role name =>
      cases role with
      | api =>
        rw [follow_api] at hf
        have hapi : (if name ∈ s.modules then View.node [⟨.api, name⟩] (.api (s.apiOf name)) else
            .absent .api).Settled := by
          by_cases h : name ∈ s.modules
          · rw [if_pos h]
            exact isEmpty_apiOf hs h
          · rw [if_neg h]
            trivial
        exact hapi.followAll hhops hf
      | type | func | field | nested | method | param => cases hf
    | widen => cases hf
    | plain | sentinel _ => cases hhop

theorem two_le_of_search? {p : Place} {c : Correction} (h : s.search? p = some c) : 2 ≤ p.length := by
  obtain ⟨_, _, _, _, rfl, _⟩ := exists_of_search? h
  simp

theorem Leads.look_up {hops : List Hop} {σ : Shape} {p : Place} (h : s.Leads hops σ p none) (hp : 2 ≤ p.length)
    {role : Role} (ho : σ.offers role = true) (name : String) :
    s.Leads (hops ++ [.into role name]) role.shape (p ++ [⟨σ.proper role, name⟩]) none := by
  obtain ⟨v, hv, hc⟩ := id h
  have hsame : (View.root (.tree s.image)).followAll (hops ++ [.into (σ.proper role) name]) =
      (View.root (.tree s.image)).followAll (hops ++ [.into role name]) := by
    rw [View.followAll_concat, View.followAll_concat, hv]
    exact View.follow_proper hc.shape?_eq role name
  have hinto := h.into hp (σ.offers_proper role ▸ ho) (σ.proper_ne role) name
  rwa [Leads, hsame, σ.shape_proper role] at hinto

theorem Leads.widen_interface {hops : List Hop} {σ : Shape} {p : Place} {t : TypeCorrection}
    (h : s.Leads hops σ p none) (ht : s.search? p = some (.type t)) (hi : t.isInterface = true) :
    s.Leads (hops ++ [.widen]) .com p none := by
  obtain ⟨v, hv, hc⟩ := h
  rw [ht] at hc
  obtain ⟨w, hw, hcw⟩ := hc.widen_interface hi
  refine ⟨w, ?_, ht ▸ hcw⟩
  rw [View.followAll_concat, hv]
  exact hw

/-- What a declared address leads to: a module, or what a search finds. -/
def Reaches (s : Sheet) (hops : List Hop) (σ : Shape) (p : Place) : Prop :=
  (∃ api ∈ s.modules, hops = [.into .api api] ∧ σ = .api ∧ p = [⟨.api, api⟩]) ∨
    (∃ c, s.search? p = some c) ∧ s.Leads hops σ p none

theorem Declares.reaches (hs : s.WellFormed) {hops : List Hop} {σ : Shape} {p : Place} (h : s.Declares hops σ p) :
    s.Reaches hops σ p := by
  induction h with
  | module h => exact .inl ⟨_, h, rfl, rfl, rfl⟩
  | @into hops σ p role name c outer offered h ih =>
    refine .inr ⟨⟨c, h⟩, ?_⟩
    rcases ih with ⟨api, _, rfl, rfl, rfl⟩ | ⟨⟨d, hd⟩, hleads⟩
    · have hproper : Shape.api.proper role = role := by simp [Shape.proper]
      rw [hproper]
      exact follow_declared hs api offered name
    · exact hleads.look_up (two_le_of_search? hd) offered name
  | @widen hops σ p t form h interface ih =>
    refine .inr ⟨⟨_, h⟩, ?_⟩
    rcases ih with ⟨api, _, rfl, rfl, rfl⟩ | ⟨_, hleads⟩
    · cases h
    · exact hleads.widen_interface h interface

theorem Declares.exists_view (hs : s.WellFormed) {hops : List Hop} {σ : Shape} {p : Place} (h : s.Declares hops σ p) :
    ∃ v, (View.root (.tree s.image)).followAll hops = .ok v ∧ v.isSentinel = false ∧ v.shape? = some σ ∧
      v.place? = some p := by
  rcases h.reaches hs with ⟨api, hapi, rfl, rfl, rfl⟩ | ⟨⟨c, hfound⟩, v, hv, hc⟩
  · refine ⟨.node [⟨.api, api⟩] (.api (s.apiOf api)), ?_, rfl, rfl, rfl⟩
    rw [View.followAll_cons, follow_api, if_pos hapi]
    rfl
  · rw [hfound] at hc
    obtain ⟨hsentinel, hshape, hplace, _⟩ := hc.answers
    exact ⟨v, hv, hsentinel, hshape, hplace⟩

/-- Once a name is missing, the rest of an address leads to stand-ins, and no request changes what they count. -/
theorem miss_absorbs {t : Tree} (h : s.compile.result = .ok t) (l : Ledger) :
    let root := View.root (.tree t)
    let start : Session := ⟨.tree t, l⟩
    (∀ hops v role name more τ, root.followAll hops = .ok v → v.offers role = true →
      (v.map role).find? name = none → role.shape.afterAll? more = some τ →
      root.followAll (hops ++ .into role name :: more) = .ok (.absent τ) ∧
      ∀ a, start.serve ⟨hops ++ .into role name :: more, a⟩ =
        (if τ.takes a then .ok a.idle else .error .unsupported, start)) ∧
    (∀ σ, (View.absent σ).record? = σ.blank? ∧ ∀ role, (View.absent σ).held role = none) ∧
    (∀ v qs, v.place? = none → (start.serveAll qs).2.tally v = start.tally v ∧
      (Session.serveAll { root := .tree t } qs).2.tally v = {}) ∧
    (∀ hops σ p, s.Declares hops σ p →
      ∃ v, root.followAll hops = .ok v ∧ v.isSentinel = false ∧ v.shape? = some σ ∧ v.place? = some p) ∧
    ∀ hops v, hops ≠ [] → hops.all Hop.isLookUp = true → root.followAll hops = .ok v → v.isEmpty = v.isSentinel := by
  obtain ⟨hs, rfl⟩ := compile_eq_ok.1 h
  intro root start
  refine ⟨?_, ?_, ?_, ?_, ?_⟩
  · intro hops v role name more τ hv ho hn hτ
    have hmiss : root.followAll (hops ++ .into role name :: more) = .ok (.absent τ) := by
      calc
        root.followAll (hops ++ .into role name :: more) = v.followAll (.into role name :: more) := by
          rw [View.followAll_append, hv]
          rfl
        _ = (View.absent role.shape).followAll more := by
          rw [View.followAll_cons, View.follow_missing ho hn]
          rfl
        _ = .ok (.absent τ) := View.followAll_absent hτ
    exact ⟨hmiss, fun a => Session.serve_absent (s := start) hmiss⟩
  · intro σ
    exact ⟨View.record?_absent σ, fun _ => rfl⟩
  · intro v qs hp
    exact ⟨start.tally_serveAll_missing hp qs, Session.tally_serveAll_missing hp _ qs⟩
  · intro hops σ p hd
    exact hd.exists_view hs
  · intro hops v hne hl hv
    exact (settled_followAll hs hne hl hv).isEmpty_eq

theorem miss_absorbs_twofold : ∃ t, twofold.compile.result = .ok t ∧
    let root := View.root (.tree t)
    let start : Session := { root := .tree t }
    let missing : List Hop := [.into .api "A", .into .type "Z", .widen, .into .func "m", .into .param "p"]
    root.followAll missing = .ok (.absent .param) ∧
    start.serve ⟨missing, .optional true⟩ = (.ok (.flag true), start) ∧
    start.serve ⟨missing, .mark 3⟩ = (.ok .done, start) ∧
    (start.serveAll [⟨missing, .mark 3⟩, ⟨[.sentinel .com, .plain], .mark 1⟩]).2.tally .bare = {} ∧
    ∃ v, root.followAll [.into .api "A", .into .type "I", .widen, .into .func "m"] = .ok v ∧
      v.isSentinel = false ∧ v.isEmpty = false := by
  have hw : twofold.WellFormed := by decide
  have hc := compile_eq_ok.2 ⟨hw, rfl⟩
  refine ⟨_, hc, ?_⟩
  obtain ⟨hmiss, _, hcount, hdeclared, hempty⟩ := miss_absorbs hc .blank
  have hmodule : "A" ∈ twofold.modules := by decide
  have hroot : (View.root (.tree twofold.image)).followAll [.into .api "A"] =
      .ok (.node [⟨.api, "A"⟩] (.api (twofold.apiOf "A"))) := by
    rw [View.followAll_cons, follow_api, if_pos hmodule]
    rfl
  have hnone : ((View.node [⟨.api, "A"⟩] (.api (twofold.apiOf "A"))).map .type).find? "Z" = none := by
    decide +kernel
  obtain ⟨hview, hserve⟩ := hmiss _ _ .type "Z" [.widen, .into .func "m", .into .param "p"] .param hroot rfl hnone rfl
  have htype : twofold.Declares [.into .api "A", .into .type "I"] .type [⟨.api, "A"⟩, ⟨.type, "I"⟩] :=
    .into (.module hmodule) rfl rfl
  have hmethod : twofold.Declares [.into .api "A", .into .type "I", .widen, .into .func "m"] .func
      [⟨.api, "A"⟩, ⟨.type, "I"⟩, ⟨.method, "m"⟩] := .into (htype.widen rfl rfl) rfl rfl
  obtain ⟨v, hv, hsentinel, _⟩ := hdeclared _ _ _ hmethod
  refine ⟨hview, hserve _, hserve _, (hcount _ _ rfl).2, v, hv, hsentinel, ?_⟩
  rw [← hsentinel]
  exact hempty _ v (by decide) rfl hv

end Sheet
end Errata
