import Errata.Proofs.Missing
import Mathlib.Data.List.Perm.Subperm

/-! A sheet as the records at its top. What compiles, what a look-up below a module finds and what is listed depend
on which records there are; only the order of the list depends on theirs. Main statements: `declared?_eq_some_iff`,
`followAll_congr`, `listing_perm`. -/
namespace Errata
universe u

theorem find?_eq_some_iff_of_nodup {α κ : Type u} [DecidableEq κ] (key : α → κ) {xs : List α}
    (h : (xs.map key).Nodup) {k : κ} {a : α} : xs.find? (key · = k) = some a ↔ a ∈ xs ∧ key a = k := by
  induction xs with
  | nil => simp
  | cons x xs ih =>
    obtain ⟨hx, hxs⟩ := List.nodup_cons.1 h
    by_cases hk : key x = k
    · subst hk
      have hlater : a ∈ xs → key a ≠ key x := fun ha he => hx (he ▸ List.mem_map_of_mem ha)
      have hfound : (x :: xs).find? (key · = key x) = some x := List.find?_cons_of_pos (by simp)
      rw [hfound, List.mem_cons, Option.some.injEq]
      constructor
      · intro hxa
        subst hxa
        exact ⟨.inl rfl, rfl⟩
      · intro ha
        obtain ⟨ha, hkey⟩ := ha
        exact (ha.resolve_right fun hm => hlater hm hkey).symm
    · have hpassed : (x :: xs).find? (key · = k) = xs.find? (key · = k) := List.find?_cons_of_neg (by simpa using hk)
      have hother : key a = k → a ≠ x := fun ha hax => hk (hax ▸ ha)
      rw [hpassed, ih hxs, List.mem_cons]
      exact and_congr_left fun ha => (or_iff_right (hother ha)).symm

namespace SheetEdit

def record : SheetEdit → Correction
  | .func f => .func f
  | .type t => .type t

def recordCount : SheetEdit → Nat
  | .func f => f.recordCount
  | .type t => t.recordCount

theorem length_listing (r : SheetEdit) : r.listing.length = r.recordCount := by
  cases r with
  | func f => exact f.length_listing ..
  | type t => exact t.length_listing ..

theorem place_of_mem_listing {r : SheetEdit} (hr : r.record.WellFormed) {v : Visit} (h : v ∈ r.listing) :
    r.place <+: v.place := by
  have hfound : r.listing = Node.found [⟨.api, r.api⟩] (r.step, r.record.node) [r.api] := by
    cases r with
    | func f => exact (Correction.found_node hr .func _ _).symm
    | type t => exact (Correction.found_node hr .type _ _).symm
  obtain ⟨p, hp⟩ := Node.place_of_mem_found (hfound ▸ h)
  exact ⟨p, by rw [hp]; rfl⟩

end SheetEdit

namespace Sheet
variable {s s' : Sheet}

theorem type_mem_records {t : TypeCorrection} : .type t ∈ s.records ↔ t ∈ s.types := by
  simp [records]

theorem func_mem_records {f : FuncCorrection} : .func f ∈ s.records ↔ f ∈ s.funcs := by
  simp [records]

theorem exists_mem_records {P : SheetEdit → Prop} :
    (∃ r ∈ s.records, P r) ↔ (∃ f ∈ s.funcs, P (.func f)) ∨ ∃ t ∈ s.types, P (.type t) := by
  constructor
  · intro h
    obtain ⟨r, hr, hP⟩ := h
    cases r with
    | func f => exact .inl ⟨f, func_mem_records.1 hr, hP⟩
    | type t => exact .inr ⟨t, type_mem_records.1 hr, hP⟩
  · intro h
    rcases h with ⟨f, hf, hP⟩ | ⟨t, ht, hP⟩
    · exact ⟨.func f, func_mem_records.2 hf, hP⟩
    · exact ⟨.type t, type_mem_records.2 ht, hP⟩

theorem mem_modules_iff {api : String} : api ∈ s.modules ↔ ∃ r ∈ s.records, r.api = api :=
  mem_modules.trans (exists_mem_records (P := (·.api = api))).symm

theorem listingOf_eq (s : Sheet) (api : String) :
    s.listingOf api = (s.records.filter (·.api = api)).flatMap SheetEdit.listing := by
  have hsort {α : Type} (xs : List α) (make : α → SheetEdit) (listing : String → α → List Visit)
      (h : ∀ a, listing (make a).api a = (make a).listing) : (xs.filter fun a => (make a).api = api).flatMap (listing api) =
        ((xs.map make).filter (·.api = api)).flatMap SheetEdit.listing := by
    rw [List.filter_map, List.flatMap_map]
    apply List.flatMap_congr
    intro a ha
    have hapi : (make a).api = api := by simpa using (List.mem_filter.1 ha).2
    rw [← h, hapi]
  have htypes := hsort s.types .type (fun api t => t.listing .type [api] [⟨.api, api⟩]) fun _ => rfl
  have hfuncs := hsort s.funcs .func (fun api f => f.listing .func [api] [⟨.api, api⟩]) fun _ => rfl
  rw [records, List.filter_append, List.flatMap_append, ← htypes, ← hfuncs]
  rfl

theorem WellFormed.record (hs : s.WellFormed) {r : SheetEdit} (hr : r ∈ s.records) :
    r.api ≠ "" ∧ r.record.WellFormed := by
  cases r with
  | func f =>
    have hf := func_mem_records.1 hr
    exact ⟨hs.func_modules_named f hf, hs.funcs f hf⟩
  | type t =>
    have ht := type_mem_records.1 hr
    exact ⟨hs.type_modules_named t ht, hs.types t ht⟩

/-- Some of the records of a well-formed sheet, in whatever order, are a well-formed sheet. -/
theorem WellFormed.of_subperm (hs : s.WellFormed) (hf : s'.funcs.Subperm s.funcs) (ht : s'.types.Subperm s.types) :
    s'.WellFormed := by
  have hnames {α : Type} {as bs : List α} (name : α → String) (h : as.Subperm bs) (hbs : (bs.map name).Nodup) :
      (as.map name).Nodup := by
    obtain ⟨cs, hperm, hsub⟩ := h
    exact (hperm.map name).nodup_iff.1 ((hsub.map name).nodup hbs)
  refine ⟨fun f h => hs.func_modules_named f (hf.subset h), fun t h => hs.type_modules_named t (ht.subset h),
    fun f h => hs.funcs f (hf.subset h), fun t h => hs.types t (ht.subset h), fun api => ?_, fun api => ?_⟩
  · exact hnames _ (hf.filter _) (hs.funcs_distinct api)
  · exact hnames _ (ht.filter _) (hs.types_distinct api)

theorem declared?_eq_some_iff (hs : s.WellFormed) {api : String} {step : Step} {c : Correction} :
    s.declared? api step = some c ↔ ∃ r ∈ s.records, r.api = api ∧ r.step = step ∧ r.record = c := by
  obtain ⟨role, name⟩ := step
  have hfuncs (f : FuncCorrection) := find?_eq_some_iff_of_nodup (fun f : FuncCorrection => (f.api, f.name))
    ((nodup_map_pair (·.api) (·.name) s.funcs).2 hs.funcs_distinct) (k := (api, name)) (a := f)
  have htypes (t : TypeCorrection) := find?_eq_some_iff_of_nodup (fun t : TypeCorrection => (t.api, t.name))
    ((nodup_map_pair (·.api) (·.name) s.types).2 hs.types_distinct) (k := (api, name)) (a := t)
  simp only [Prod.mk.injEq] at hfuncs htypes
  rw [exists_mem_records]
  cases role with
  | func => simp [-Bool.decide_and, declared?, hfuncs, SheetEdit.api, SheetEdit.step, SheetEdit.record, and_assoc]
  | type => simp [-Bool.decide_and, declared?, htypes, SheetEdit.api, SheetEdit.step, SheetEdit.record, and_assoc]
  | api | field | nested | method | param => simp [declared?, SheetEdit.step]

theorem declared?_congr (hs : s.WellFormed) (hs' : s'.WellFormed) {api : String} {step : Step}
    (h : ∀ r : SheetEdit, r.api = api → r.step = step → (r ∈ s.records ↔ r ∈ s'.records)) :
    s.declared? api step = s'.declared? api step := by
  apply Option.ext
  intro c
  rw [declared?_eq_some_iff hs, declared?_eq_some_iff hs']
  constructor
  · intro hc
    obtain ⟨r, hr, hapi, hstep, hrecord⟩ := hc
    exact ⟨r, (h r hapi hstep).1 hr, hapi, hstep, hrecord⟩
  · intro hc
    obtain ⟨r, hr, hapi, hstep, hrecord⟩ := hc
    exact ⟨r, (h r hapi hstep).2 hr, hapi, hstep, hrecord⟩

/-- Where two sheets declare the same at the top, the same look-ups lead to the same things. -/
theorem followAll_congr (hs : s.WellFormed) (hs' : s'.WellFormed) {hops : List Hop} (hlen : 2 ≤ hops.length)
    (h : ∀ api role name, [.into .api api, .into role name] <+: hops →
      s.declared? api ⟨role, name⟩ = s'.declared? api ⟨role, name⟩) :
    (View.root (.tree s.image)).followAll hops = (View.root (.tree s'.image)).followAll hops := by
  match hops, hlen with
  | first :: second :: more, _ =>
    simp only [View.followAll_cons]
    cases first with
    | into role api =>
      cases role with
      | api =>
        have hsecond : (s.apiView api).follow second = (s'.apiView api).follow second := by
          rw [follow_apiView hs, follow_apiView hs']
          cases second with
          | into role name =>
            have hd := h api role name ⟨more, rfl⟩
            simp only [topView, hd]
          | widen | plain | sentinel _ => rfl
        have hview (s : Sheet) : (View.root (.tree s.image)).follow (.into .api api) = .ok (s.apiView api) :=
          follow_api s api
        rw [hview, hview]
        exact congrArg (· >>= (·.followAll more)) hsecond
      | type | func | field | nested | method | param => rfl
    | widen | plain | sentinel _ => rfl

theorem visits_apiView (hs : s.WellFormed) (api : String) : (s.apiView api).visits = s.listingOf api := by
  unfold apiView
  by_cases h : api ∈ s.modules
  · obtain ⟨r, hr, hapi⟩ := mem_modules_iff.1 h
    have hname : api ≠ "" := hapi ▸ (hs.record hr).1
    have hvisits : (View.node [⟨.api, api⟩] (.api (s.apiOf api))).visits =
        (Node.api (s.apiOf api)).below [⟨.api, api⟩] (if api.isEmpty then [] else [api]) := Node.visits_eq _ _
    rw [if_pos h, hvisits, if_neg (by simpa using hname), below_apiOf hs]
    rfl
  · rw [if_neg h, listingOf_eq]
    have hnone : s.records.filter (fun r => decide (r.api = api)) = [] := by
      simp only [List.filter_eq_nil_iff, decide_eq_true_eq]
      exact fun r hr hapi => h (mem_modules_iff.2 ⟨r, hr, hapi⟩)
    rw [hnone]
    rfl

theorem listing_perm (s : Sheet) : s.listing.Perm (s.records.flatMap SheetEdit.listing) := by
  have hgroups : s.listing = (s.modules.flatMap fun api => s.records.filter (·.api = api)).flatMap SheetEdit.listing := by
    rw [List.flatMap_assoc, listing]
    exact List.flatMap_congr fun api _ => s.listingOf_eq api
  rw [hgroups]
  exact (flatMap_filter_perm SheetEdit.api s.modules s.nodup_modules s.records
    fun r hr => mem_modules_iff.2 ⟨r, hr, rfl⟩).flatMap_right _

end Sheet
end Errata
