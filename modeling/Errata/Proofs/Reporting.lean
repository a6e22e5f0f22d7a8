import Errata.Proofs.Records
import Mathlib.Data.List.Flatten

/-! What a review reports under each of its settings. The policy has no say in what is found, and leaving functions
out leaves out what is at or below a free function, whatever its kind. Main statements: `Sheet.review_by_policy`,
`Sheet.review_without_funcs`. -/
namespace Errata

namespace Report
variable {r : Report}

theorem mem_countByKind {kind : Kind} {n : Nat} :
    (kind, n) ∈ r.countByKind ↔ n = r.unused.countP (·.kind = kind) := by
  have hkind := kind.mem_all
  simp only [countByKind, List.mem_map, Prod.mk.injEq]
  constructor
  · intro h
    obtain ⟨_, _, rfl, rfl⟩ := h
    rfl
  · intro h
    exact ⟨kind, hkind, rfl, h.symm⟩

theorem sum_countByKind (r : Report) : (r.countByKind.map Prod.snd).sum = r.unused.length := by
  simp only [countByKind, List.map_map, Function.comp_def]
  induction r.unused with
  | nil => rfl
  | cons u us ih =>
    rw [List.length_cons, ← ih]
    cases h : u.kind <;> simp [Kind.all, h] <;> omega

end Report

theorem Visit.countP_entry (vs : List Visit) (l : Ledger) (kind : Kind) :
    ((vs.filter fun v => (l.tally v.place).count = 0).map Visit.entry).countP (·.kind = kind) =
      vs.countP fun v => decide (v.kind = kind) && decide ((l.tally v.place).count = 0) := by
  rw [List.countP_map, List.countP_filter]
  rfl

namespace SheetEdit

theorem ofType_of_mem_listing {r : SheetEdit} (hr : r.record.WellFormed) {v : Visit} (h : v ∈ r.listing) :
    v.ofType = decide (r.step.role = .type) := by
  obtain ⟨p, hp⟩ := place_of_mem_listing hr h
  rw [Visit.ofType, ← hp]
  rfl

theorem filter_listing {rs : List SheetEdit} (h : ∀ r ∈ rs, r.record.WellFormed) :
    (rs.flatMap listing).filter (fun v => !v.ofType) = (rs.filter (·.step.role ≠ .type)).flatMap listing := by
  induction rs with
  | nil => rfl
  | cons r rs ih =>
    have hr := h r List.mem_cons_self
    have hrest := ih fun q hq => h q (List.mem_cons_of_mem r hq)
    rw [List.flatMap_cons, List.filter_append, hrest]
    by_cases hrole : r.step.role = .type
    · have hnone : r.listing.filter (fun v => !v.ofType) = [] :=
        List.filter_eq_nil_iff.2 fun v hv => by simp [ofType_of_mem_listing hr hv, hrole]
      simp [hnone, hrole]
    · have hall : r.listing.filter (fun v => !v.ofType) = r.listing :=
        List.filter_eq_self.2 fun v hv => by simp [ofType_of_mem_listing hr hv, hrole]
      simp [hall, hrole]

end SheetEdit

namespace Sheet
variable {s : Sheet}

/-- How many free functions, or parameters of free functions, have a count of zero. -/
def unusedFree (s : Sheet) (l : Ledger) : Kind → Nat
  | .func => s.funcs.countP fun f => (l.tally [⟨.api, f.api⟩, ⟨.func, f.name⟩]).count = 0
  | .param => (s.funcs.map fun f =>
      f.params.countP fun p => (l.tally [⟨.api, f.api⟩, ⟨.func, f.name⟩, ⟨.param, p.name⟩]).count = 0).sum
  | _ => 0

theorem free_perm (hs : s.WellFormed) :
    (s.listing.filter fun v => !v.ofType).Perm (s.funcs.flatMap fun f => (SheetEdit.func f).listing) := by
  have hfree : s.records.filter (·.step.role ≠ .type) = s.funcs.map .func := by
    simp [records, SheetEdit.step, List.filter_map, Function.comp_def]
  have hperm := s.listing_perm.filter fun v => !v.ofType
  rwa [SheetEdit.filter_listing fun r hr => (hs.record hr).2, hfree, List.flatMap_map] at hperm

theorem countP_listing (hs : s.WellFormed) (p : Visit → Bool) :
    s.listing.countP p = (s.listing.filter Visit.ofType).countP p +
      (s.funcs.map fun f => (SheetEdit.func f).listing.countP p).sum := by
  have hsplit := List.countP_eq_countP_filter_add s.listing p Visit.ofType
  have hfree := (free_perm hs).countP_eq p
  rw [List.countP_flatMap] at hfree
  rw [hsplit]
  exact congrArg _ hfree

theorem countP_unusedFree (s : Sheet) (l : Ledger) (kind : Kind) :
    (s.funcs.map fun f => (SheetEdit.func f).listing.countP fun v =>
      decide (v.kind = kind) && decide ((l.tally v.place).count = 0)).sum = s.unusedFree l kind := by
  have hlisting (f : FuncCorrection) : (SheetEdit.func f).listing =
      ⟨[f.api, f.name], [⟨.api, f.api⟩, ⟨.func, f.name⟩], .func, .func f⟩ ::
        f.params.map (·.listed [f.api, f.name] [⟨.api, f.api⟩, ⟨.func, f.name⟩]) := rfl
  simp only [hlisting, List.countP_cons, List.countP_map, Function.comp_def, ParamCorrection.listed]
  cases kind with
  | func =>
    rw [unusedFree]
    induction s.funcs with
    | nil => rfl
    | cons f fs ih => simpa [List.countP_cons, Nat.add_comm] using ih
  | param => simp [unusedFree]
  | type | comType | field => simp [unusedFree]

/-- Below a tree, what is of a type is what a sheet declares at or inside one of its types. -/
theorem ofType_iff (hs : s.WellFormed) {v : Visit} (h : v ∈ s.listing) :
    (v.ofType = true ↔ ∃ t ∈ s.types, v ∈ (SheetEdit.type t).listing) ∧
      (v.ofType = false ↔ ∃ f ∈ s.funcs, v ∈ (SheetEdit.func f).listing) := by
  obtain ⟨r, hr, hv⟩ := List.mem_flatMap.1 (s.listing_perm.mem_iff.1 h)
  have htype {t : TypeCorrection} (ht : t ∈ s.types) (hv : v ∈ (SheetEdit.type t).listing) : v.ofType = true :=
    SheetEdit.ofType_of_mem_listing (r := .type t) (hs.types t ht) hv
  have hfunc {f : FuncCorrection} (hf : f ∈ s.funcs) (hv : v ∈ (SheetEdit.func f).listing) : v.ofType = false :=
    SheetEdit.ofType_of_mem_listing (r := .func f) (hs.funcs f hf) hv
  have hsome : (∃ f ∈ s.funcs, v ∈ (SheetEdit.func f).listing) ∨ ∃ t ∈ s.types, v ∈ (SheetEdit.type t).listing :=
    exists_mem_records (P := fun r => v ∈ r.listing) |>.1 ⟨r, hr, hv⟩
  constructor
  · constructor
    · intro hof
      refine hsome.resolve_left fun hf => ?_
      obtain ⟨f, hf, hv⟩ := hf
      rw [hfunc hf hv] at hof
      cases hof
    · intro ht
      obtain ⟨t, ht, hv⟩ := ht
      exact htype ht hv
  · constructor
    · intro hof
      refine hsome.resolve_right fun ht => ?_
      obtain ⟨t, ht, hv⟩ := ht
      rw [htype ht hv] at hof
      cases hof
    · intro hf
      obtain ⟨f, hf, hv⟩ := hf
      exact hfunc hf hv

/-- The policy decides what is reported and whether a review fails, but not what it finds. -/
theorem review_by_policy {t : Tree} (h : s.compile.result = .ok t) (l : Ledger) (includeFuncs : Bool) :
    let found : Report := ⟨(t.scope includeFuncs).length,
      ((t.scope includeFuncs).filter fun v => (l.tally v.place).count = 0).map Visit.entry⟩
    let entries := fun level => found.unused.map (Event.unused level)
    t.review l ⟨.ignore, includeFuncs⟩ = ⟨.ok found, []⟩ ∧
    t.review l ⟨.warn, includeFuncs⟩ =
      ⟨.ok found, entries .warn ++ if found.unused = [] then [.allApplied found.visited] else []⟩ ∧
    t.review l ⟨.fail, includeFuncs⟩ =
      (if found.unused = [] then ⟨.ok found, [.allApplied found.visited]⟩
        else ⟨.error (.unused found.unused.length), entries .error⟩) ∧
    ∀ level, (entries level).map (fun e => (e.level, e.message)) = found.unused.map fun u => (level, u.text) := by
  obtain ⟨hs, rfl⟩ := compile_eq_ok.1 h
  intro found entries
  have hfound : s.image.inspect l includeFuncs = found := Tree.inspect_eq (named_image hs) l includeFuncs
  refine ⟨?_, ?_, ?_, fun level => Event.report_unused level found.unused⟩
  · simp only [Tree.review, hfound]
  · simp only [Tree.review, hfound, Report.isClean, List.isEmpty_iff]
    rfl
  · simp only [Tree.review, hfound, Report.isClean, List.isEmpty_iff]
    by_cases hnone : found.unused = []
    · simp [hnone]
    · simp [hnone, entries]

theorem review_by_policy_alternating : ∃ t, alternating.compile.result = .ok t ∧
    t.review .blank ⟨.fail, false⟩ = ⟨.error (.unused 6), [⟨"B", .comType, "B.I"⟩, ⟨"B", .func, "B.I.m"⟩,
      ⟨"B", .param, "B.I.m.q"⟩, ⟨"A", .type, "A.T"⟩, ⟨"A", .field, "A.T.x"⟩, ⟨"A", .type, "A.T.N"⟩].map (.unused .error)⟩ ∧
    t.review ⟨fun _ => ⟨1⟩⟩ ⟨.fail, true⟩ = ⟨.ok ⟨9, []⟩, [.allApplied 9]⟩ := by
  have hw : alternating.WellFormed := by decide
  have hc := compile_eq_ok.2 ⟨hw, rfl⟩
  refine ⟨_, hc, ?_, ?_⟩
  · rw [(review_by_policy hc .blank false).2.2.1, Tree.scope, visits_image hw]
    rfl
  · rw [(review_by_policy hc ⟨fun _ => ⟨1⟩⟩ true).2.2.1, Tree.scope, visits_image hw]
    rfl

/-- A review without functions leaves out the free functions and their parameters, and nothing else. -/
theorem review_without_funcs {t : Tree} (h : s.compile.result = .ok t) (l : Ledger) {policy : Policy}
    (hp : policy ≠ .fail) :
    let visits := (Node.tree t).visits []
    let left := visits.filter fun v => (l.tally v.place).count = 0
    ∃ full types : Report,
      (t.review l ⟨policy, true⟩).result = .ok full ∧ (t.review l ⟨policy, false⟩).result = .ok types ∧
      full.unused = left.map Visit.entry ∧ types.unused = (left.filter Visit.ofType).map Visit.entry ∧
      types.unused.Sublist full.unused ∧ (full.isClean = true → types.isClean = true) ∧
      (∀ v ∈ visits, (v.ofType = true ↔ ∃ c ∈ s.types, v ∈ (SheetEdit.type c).listing) ∧
        (v.ofType = false ↔ ∃ f ∈ s.funcs, v ∈ (SheetEdit.func f).listing)) ∧
      full.visited = types.visited + (s.funcs.map fun f => 1 + f.params.length).sum ∧
      (∀ r ∈ [full, types], r.countByKind.map Prod.fst = Kind.all ∧
        (∀ kind n, (kind, n) ∈ r.countByKind ↔ n = r.unused.countP (·.kind = kind)) ∧
        (r.countByKind.map Prod.snd).sum = r.unused.length) ∧
      ∀ kind, full.unused.countP (·.kind = kind) = types.unused.countP (·.kind = kind) + s.unusedFree l kind := by
  obtain ⟨hs, rfl⟩ := compile_eq_ok.1 h
  intro visits left
  have hvisits : visits = s.listing := visits_image hs
  have hunused : (visits.filter Visit.ofType).filter (fun v => (l.tally v.place).count = 0) =
      left.filter Visit.ofType := List.filter_comm ..
  have hsublist : ((left.filter Visit.ofType).map Visit.entry).Sublist (left.map Visit.entry) :=
    List.filter_sublist.map _
  refine ⟨⟨visits.length, left.map Visit.entry⟩, ⟨(visits.filter Visit.ofType).length,
    (left.filter Visit.ofType).map Visit.entry⟩, ?_, ?_, rfl, rfl, hsublist, ?_, ?_, ?_, ?_, ?_⟩
  · rw [review_scope hs l hp, Tree.scope_true]
  · rw [review_scope hs l hp, Tree.scope_false, hunused]
  · intro hclean
    have hnil : left.map Visit.entry = [] := List.isEmpty_iff.1 hclean
    exact List.isEmpty_iff.2 (List.sublist_nil.1 (hnil ▸ hsublist))
  · intro v hv
    exact ofType_iff hs (hvisits ▸ hv)
  · have hlength (f : FuncCorrection) : (SheetEdit.func f).listing.length = 1 + f.params.length := by
      rw [SheetEdit.length_listing, SheetEdit.recordCount, FuncCorrection.recordCount, Nat.add_comm]
    have hcount := countP_listing hs fun _ => true
    simp only [List.countP_true, hlength] at hcount
    rw [hvisits]
    exact hcount
  · intro r _
    refine ⟨?_, fun kind n => Report.mem_countByKind, r.sum_countByKind⟩
    simp [Report.countByKind, Function.comp_def]
  · intro kind
    rw [← hunused, Visit.countP_entry, Visit.countP_entry, hvisits, countP_listing hs, countP_unusedFree]

theorem review_without_funcs_alternating : ∃ t, alternating.compile.result = .ok t ∧
    let l := Ledger.blank.add (.placed [⟨.api, "B"⟩, ⟨.func, "f"⟩, ⟨.param, "p"⟩]) 1
    ∃ full types : Report, (t.review l ⟨.warn, true⟩).result = .ok full ∧ (t.review l ⟨.warn, false⟩).result = .ok types ∧
      full.visited = types.visited + 3 ∧ ⟨"B", .func, "B.I.m"⟩ ∈ types.unused ∧
      full.unused.countP (·.kind = .func) = types.unused.countP (·.kind = .func) + 2 ∧
      full.unused.countP (·.kind = .param) = types.unused.countP (·.kind = .param) := by
  have hw : alternating.WellFormed := by decide
  have hc := compile_eq_ok.2 ⟨hw, rfl⟩
  refine ⟨_, hc, ?_⟩
  intro l
  obtain ⟨full, types, hfull, htypes, _, hunused, _, _, _, hvisited, _, hcount⟩ :=
    review_without_funcs hc l (by decide : Policy.warn ≠ .fail)
  refine ⟨full, types, hfull, htypes, hvisited, ?_, ?_, ?_⟩
  · rw [hunused, visits_image hw]
    decide +kernel
  · have hfuncs : alternating.unusedFree l .func = 2 := by decide +kernel
    rw [hcount, hfuncs]
  · have hparams : alternating.unusedFree l .param = 0 := by decide +kernel
    rw [hcount, hparams, Nat.add_zero]

end Sheet
end Errata
