import Errata.Proofs.Preorder
import Errata.Proofs.Revising
import Mathlib.Data.Finset.Card
import Mathlib.Data.Finset.Dedup

/-! The size that is counted on the way to a tree is the size of the tree: what a walk visits, in the whole tree or
module by module, and what the sheet declares. Main statements: `Node.length_below_tree`, `Sheet.size_exact`. -/
namespace Errata

namespace Node

theorem length_below (n : Node) (place : Place) (path : List String) :
    (n.below place path).length = (n.below place []).length := by
  have h := n.below_append place path []
  rw [List.append_nil] at h
  rw [h, List.length_map]

theorem length_below_tree (t : Tree) : ((tree t).below [] []).length =
    (t.apis.entries.map fun e => ((api e.2).below [⟨.api, e.1⟩] []).length).sum := by
  rw [below_eq, filed_tree, filedAs, List.flatMap_map, List.length_flatMap]
  refine congrArg List.sum (List.map_congr_left fun e _ => ?_)
  exact length_below ..

end Node

namespace View

theorem size_walk (n : Node) (place : Place) :
    ((View.node place n).walk []).visits.size = (n.below place []).length := rfl

end View

namespace Sheet

theorem card_modules (s : Sheet) : (s.records.map SheetEdit.api).toFinset.card = s.modules.length := by
  rw [← List.toFinset_card_of_nodup s.nodup_modules]
  congr 1
  ext api
  rw [List.mem_toFinset, List.mem_toFinset, List.mem_map, mem_modules_iff]

theorem modules_eq_nil_iff {s : Sheet} : s.modules = [] ↔ s.funcs = [] ∧ s.types = [] := by
  constructor
  · intro h
    have hnone (api : String) : api ∉ s.modules := h ▸ List.not_mem_nil
    exact ⟨List.eq_nil_iff_forall_not_mem.2 fun f hf => hnone _ (api_mem_modules_of_func hf),
      List.eq_nil_iff_forall_not_mem.2 fun t ht => hnone _ (api_mem_modules_of_type ht)⟩
  · intro h
    rw [modules, h.1, h.2]
    rfl

theorem full_apis_image (s : Sheet) : s.image.apis.Full :=
  NameMap.full_ofList (by simpa [Function.comp_def] using s.nodup_modules)

theorem isEmpty_image (s : Sheet) : s.image.isEmpty = s.isEmpty := by
  rw [Tree.isEmpty, NameMap.isEmpty_eq s.full_apis_image, entries_image, List.isEmpty_map, Bool.eq_iff_iff, isEmpty,
    Bool.and_eq_true, List.isEmpty_iff, List.isEmpty_iff, List.isEmpty_iff, modules_eq_nil_iff]

theorem events_of_ok {s : Sheet} {t : Tree} (h : s.compile.result = .ok t) :
    s.compile.events = [.compiled t.apis.size t.size] := by
  unfold compile at h ⊢
  cases hs : s.toTree with
  | ok t' =>
    rw [hs] at h
    cases h
    rfl
  | error fault =>
    rw [hs] at h
    cases h

theorem events_of_error {s : Sheet} {fault : Fault} (h : s.compile.result = .error fault) : s.compile.events = [] := by
  unfold compile at h ⊢
  cases hs : s.toTree with
  | ok t =>
    rw [hs] at h
    cases h
  | error fault' => rfl

/-- The size of a compiled tree is the number of its visits and of the records of the sheet. -/
theorem size_exact (s : Sheet) :
    (∀ t, s.compile.result = .ok t →
      t.size = s.recordCount ∧
      ((View.root (.tree t)).walk []).visits.size = s.recordCount ∧
      (t.apis.entries.map fun e => ((View.node [⟨.api, e.1⟩] (.api e.2)).walk []).visits.size).sum = s.recordCount ∧
      s.compile.events.map (fun e => (e.level, e)) =
        [(.debug, .compiled (s.records.map SheetEdit.api).toFinset.card s.recordCount)] ∧
      (t.isEmpty = true ↔ s.isEmpty = true)) ∧
    ∀ fault, s.compile.result = .error fault → s.compile.events = [] := by
  constructor
  · intro t h
    have hevents := events_of_ok h
    obtain ⟨hs, rfl⟩ := compile_eq_ok.1 h
    have hvisits : ((View.root (.tree s.image)).walk []).visits.size = s.recordCount := by
      rw [View.root, View.size_walk, ← Node.visits_tree, visits_image hs, length_listing]
    have hmodules : s.image.apis.size = (s.records.map SheetEdit.api).toFinset.card := by
      rw [card_modules, NameMap.size_eq s.full_apis_image, entries_image, List.length_map]
    refine ⟨rfl, hvisits, ?_, ?_, by rw [isEmpty_image]⟩
    · simp only [View.size_walk]
      rw [← Node.length_below_tree]
      exact hvisits
    · rw [hevents, hmodules]
      rfl
  · exact fun fault h => events_of_error h

theorem size_exact_alternating : (∃ t, alternating.compile.result = .ok t ∧ t.size = 9 ∧
      ((View.root (.tree t)).walk []).visits.size = 9 ∧
      (t.apis.entries.map fun e => ((View.node [⟨.api, e.1⟩] (.api e.2)).walk []).visits.size).sum = 9 ∧
      alternating.compile.events.map (fun e => (e.level, e)) = [(.debug, .compiled 2 9)] ∧ t.isEmpty = false) ∧
    ∃ s fault, compile s = ⟨.error fault, []⟩ := by
  have hw : alternating.WellFormed := by decide
  have hc := compile_eq_ok.2 ⟨hw, rfl⟩
  have hcount : alternating.recordCount = 9 := by decide
  obtain ⟨hok, _⟩ := size_exact alternating
  obtain ⟨hsize, hvisits, hmodules, hevents, hempty⟩ := hok _ hc
  rw [hcount] at hsize hvisits hmodules hevents
  refine ⟨⟨_, hc, hsize, hvisits, hmodules, hevents, ?_⟩, ?_⟩
  · rw [← Bool.not_eq_true, hempty]
    decide
  · let nameless : Sheet := { funcs := [{ api := "A" }] }
    have hrefused : nameless.compile.result = .error (.malformed (.unnamed .func)) := rfl
    have hnone := (size_exact nameless).2 _ hrefused
    exact ⟨nameless, _, congrArg (Logged.mk _) hnone⟩

end Sheet
end Errata
