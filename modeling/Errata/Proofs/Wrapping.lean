import Errata.Proofs.Accounting

/-! A count is a machine word, so it comes round to zero: a correction that was applied a multiple of `2 ^ 32` times
is reported as unused, and no other that was applied at all. Main statements: `Tally.isApplied_add`,
`Tree.review_result_eq`. -/
namespace Errata

theorem Tally.isApplied_iff {t : Tally} : t.isApplied = true ↔ t.count.toNat ≠ 0 := by
  simp only [isApplied, gt_iff_lt, UInt32.lt_iff_toNat_lt, decide_eq_true_eq, UInt32.toNat_zero, Nat.pos_iff_ne_zero]

theorem Tally.isApplied_add {t : Tally} {n : Nat} : (t.add n).isApplied = true ↔ ¬2 ^ 32 ∣ t.count.toNat + n := by
  rw [isApplied_iff, toNat_count_add, ne_eq, ← Nat.dvd_iff_mod_eq_zero]

namespace Session

theorem applications_append (s : Session) (qs rest : List Request) (p : Place) :
    s.applications (qs ++ rest) p = s.applications qs p + s.applications rest p := by
  simp only [applications_eq, List.map_append, List.sum_append]

theorem applications_replicate (s : Session) (n : Nat) (q : Request) (p : Place) :
    s.applications (List.replicate n q) p = n * q.shownAt s.root p (q.reply s.root) := by
  rw [applications_eq, List.map_replicate, List.sum_replicate_nat]

end Session

namespace Tree

theorem review_result_eq (t : Tree) (l : Ledger) (settings : ReviewSettings) :
    (t.review l settings).result =
      if settings.policy = .fail ∧ (t.inspect l settings.includeFuncs).unused ≠ [] then
        .error (.unused (t.inspect l settings.includeFuncs).unused.length)
      else .ok (t.inspect l settings.includeFuncs) := by
  by_cases hp : settings.policy = .fail
  · rw [review, hp]
    cases h : (t.inspect l settings.includeFuncs).unused <;> simp [Report.isClean, h]
  · rw [review_result t l hp, if_neg fun h => hp h.1]

/-- Applied is what was applied, unless the number of times is a multiple of `2 ^ 32`. -/
theorem review_serveAll (t : Tree) (qs : List Request) :
    let start : Session := { root := .tree t }
    let done := (start.serveAll qs).2
    let due := fun includeFuncs => (t.inspected includeFuncs).filter fun x => 2 ^ 32 ∣ start.applications qs x.2.place
    (∀ p, (done.ledger.tally p).isApplied = true ↔ ¬2 ^ 32 ∣ start.applications qs p) ∧
    (∀ settings, (t.review done.ledger settings).result =
      if settings.policy = .fail ∧ due settings.includeFuncs ≠ [] then
        .error (.unused (due settings.includeFuncs).length)
      else .ok ⟨(t.inspected settings.includeFuncs).length,
        (due settings.includeFuncs).map fun x => x.2.unused x.1⟩) ∧
    ∀ early p, early <+: qs → 0 < start.applications early p → start.applications qs p < 2 ^ 32 →
      (done.ledger.tally p).isApplied = true ∧ ∀ includeFuncs, ∀ x ∈ due includeFuncs, x.2.place ≠ p := by
  intro start done due
  have happlied (p : Place) : (done.ledger.tally p).isApplied = true ↔ ¬2 ^ 32 ∣ start.applications qs p := by
    have htally : done.ledger.tally p = ({} : Tally).add (start.applications qs p) := start.tally_serveAll qs p
    have hzero : ({} : Tally).count.toNat = 0 := rfl
    rw [htally, Tally.isApplied_add, hzero, Nat.zero_add]
  have hinspect (includeFuncs : Bool) : t.inspect done.ledger includeFuncs =
      ⟨(t.inspected includeFuncs).length, (due includeFuncs).map fun x => x.2.unused x.1⟩ := by
    have hdue : (t.inspected includeFuncs).filter (fun x => !(done.ledger.tally x.2.place).isApplied) =
        due includeFuncs := by
      apply List.filter_congr
      intro x _
      have h := happlied x.2.place
      cases hx : (done.ledger.tally x.2.place).isApplied <;> simpa [hx] using h
    exact congrArg (fun xs => (⟨_, xs.map fun x => x.2.unused x.1⟩ : Report)) hdue
  refine ⟨happlied, fun settings => ?_, fun early p hearly hpos hlt => ?_⟩
  · simp only [review_result_eq, hinspect, ne_eq, List.map_eq_nil_iff, List.length_map]
  · obtain ⟨rest, rfl⟩ := hearly
    rw [Session.applications_append] at hlt
    have hnot : ¬2 ^ 32 ∣ start.applications (early ++ rest) p := by
      rw [Session.applications_append]
      exact Nat.not_dvd_of_pos_of_lt (by omega) hlt
    refine ⟨(happlied p).2 hnot, fun includeFuncs x hx hxp => ?_⟩
    have hdvd := of_decide_eq_true (List.mem_filter.1 hx).2
    exact hnot (hxp ▸ hdvd)

end Tree

namespace Sheet

/-- One mark of the known correction shows, and `2 ^ 32` marks look like none. -/
theorem review_serveAll_known : ∃ t, known.compile.result = .ok t ∧
    let mark : Request := ⟨[.into .api "WindowsAccessibility", .into .type "IUIAutomation6"], .mark 1⟩
    let place : Place := [⟨.api, "WindowsAccessibility"⟩, ⟨.type, "IUIAutomation6"⟩]
    let marked := fun n => (Session.serveAll { root := .tree t } (List.replicate n mark)).2
    ((marked 1).ledger.tally place).isApplied = true ∧
      (t.review (marked 1).ledger .strict).result = .ok ⟨1, []⟩ ∧
      ((marked (2 ^ 32)).ledger.tally place).isApplied = false ∧
      (t.review (marked (2 ^ 32)).ledger .strict).result = .error (.unused 1) := by
  have hw : known.WellFormed := by decide
  refine ⟨_, compile_eq_ok.2 ⟨hw, rfl⟩, ?_⟩
  intro mark place marked
  let start : Session := { root := .tree known.image }
  have hreview (n : Nat) := known.image.review_serveAll (List.replicate n mark)
  have hlength : (known.image.inspected true).length = 1 := by decide +kernel
  have haround {n : Nat} (hn : 2 ^ 32 ∣ n) : ((marked n).ledger.tally place).isApplied = false ∧
      (known.image.review (marked n).ledger .strict).result = .error (.unused 1) := by
    have hall (p : Place) : 2 ^ 32 ∣ start.applications (List.replicate n mark) p := by
      rw [Session.applications_replicate]
      exact Nat.dvd_mul_right_of_dvd hn _
    have hdue : (known.image.inspected true).filter
        (fun x => 2 ^ 32 ∣ start.applications (List.replicate n mark) x.2.place) = known.image.inspected true :=
      List.filter_eq_self.2 fun x _ => decide_eq_true (hall x.2.place)
    refine ⟨?_, ?_⟩
    · rw [← Bool.not_eq_true]
      exact fun h => ((hreview n).1 place).1 h (hall place)
    · have hresult := (hreview n).2.1 .strict
      have hfuncs : ReviewSettings.strict.includeFuncs = true := rfl
      simp only [hfuncs, start, hdue] at hresult
      have hne : known.image.inspected true ≠ [] := List.ne_nil_of_length_eq_add_one hlength
      rw [hresult, if_pos ⟨rfl, hne⟩, hlength]
  have hone : 0 < start.applications (List.replicate 1 mark) place ∧
      start.applications (List.replicate 1 mark) place < 2 ^ 32 := by decide +kernel
  have honce := ((hreview 1).2.2 _ place List.prefix_rfl hone.1 hone.2).1
  refine ⟨honce, ?_, (haround (Nat.dvd_refl _)).1, (haround (Nat.dvd_refl _)).2⟩
  decide +kernel

end Sheet
end Errata
