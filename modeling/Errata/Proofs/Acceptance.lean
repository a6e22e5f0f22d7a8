import Errata.Proofs.Settling
import Errata.Sheet.WellFormed

/-! Which sheets compile, and what the others are refused for. Main statements: `Sheet.violations_eq_nil`, and
that compiling accepts the well-formed sheets and refuses every other for its first violation. -/
namespace Errata
universe u
namespace Violations

theorem unnamed_eq_nil {part : Part} {name : String} : unnamed part name = [] ↔ name ≠ "" := by
  unfold unnamed
  by_cases h : name = "" <;> simp [h]

theorem repeated_eq_nil {scope name : String} {elders : List String} :
    repeated scope elders name = [] ↔ name ∉ elders := by
  simp [repeated]

theorem distinct_cons {α : Type u} {a : α} {elders rest : List α} :
    a ∉ elders ∧ rest.Nodup ∧ (∀ b ∈ rest, b ∉ elders ++ [a]) ↔
      (a :: rest).Nodup ∧ ∀ b ∈ a :: rest, b ∉ elders := by
  simp only [List.nodup_cons, List.forall_mem_cons, List.mem_append, List.mem_singleton, not_or]
  constructor
  · intro h
    have hb := h.2.2
    exact ⟨⟨fun hm => (hb a hm).2 rfl, h.2.1⟩, h.1, fun b hm => (hb b hm).1⟩
  · intro h
    have hm : a ∉ rest := h.1.1
    exact ⟨h.2.1, h.1.2, fun b hb => ⟨h.2.2 b hb, fun e => hm (e ▸ hb)⟩⟩

theorem among_eq_nil {scope : String} {elders : List String} {xs : List (String × List Fault)} :
    among scope elders xs = [] ↔
      (∀ x ∈ xs, x.2 = []) ∧ (xs.map Prod.fst).Nodup ∧ ∀ n ∈ xs.map Prod.fst, n ∉ elders := by
  induction xs generalizing elders with
  | nil => simp [among]
  | cons x xs ih =>
    rw [List.map_cons, ← distinct_cons, among, List.append_eq_nil_iff, List.append_eq_nil_iff, repeated_eq_nil, ih,
      List.forall_mem_cons]
    simp only [and_assoc, and_left_comm]

theorem among_map_eq_nil {α : Type u} {scope : String} {name : α → String} {faults : α → List Fault} {xs : List α} :
    among scope [] (xs.map fun a => (name a, faults a)) = [] ↔
      (∀ a ∈ xs, faults a = []) ∧ (xs.map name).Nodup := by
  simp [among_eq_nil, Function.comp_def]

theorem top_eq_nil {elders : List (String × String)} {xs : List (String × String × List Fault)} :
    top elders xs = [] ↔ (∀ x ∈ xs, x.2.2 = []) ∧ (xs.map fun x => (x.1, x.2.1)).Nodup ∧
      ∀ n ∈ xs.map fun x => (x.1, x.2.1), n ∉ elders := by
  induction xs generalizing elders with
  | nil => simp [top]
  | cons x xs ih =>
    have hr : (if (x.1, x.2.1) ∈ elders then [Fault.duplicate x.1 x.2.1] else []) = [] ↔ (x.1, x.2.1) ∉ elders := by
      simp
    rw [List.map_cons, ← distinct_cons, top, List.append_eq_nil_iff, List.append_eq_nil_iff, hr, ih,
      List.forall_mem_cons]
    simp only [and_assoc, and_left_comm]

end Violations
open Violations

theorem nodup_map_pair {α : Type u} (key name : α → String) (xs : List α) :
    (xs.map fun a => (key a, name a)).Nodup ↔ ∀ k, ((xs.filter (key · = k)).map name).Nodup := by
  induction xs with
  | nil => simp
  | cons a xs ih =>
    rw [List.map_cons, List.nodup_cons, ih]
    constructor
    · intro h k
      obtain ⟨ha, h⟩ := h
      by_cases hk : key a = k
      · subst hk
        have hn : name a ∉ (xs.filter (key · = key a)).map name := by
          intro hm
          obtain ⟨b, hb, he⟩ := List.mem_map.1 hm
          obtain ⟨hb, hkey⟩ := List.mem_filter.1 hb
          exact ha (List.mem_map.2 ⟨b, hb, by rw [he, of_decide_eq_true hkey]⟩)
        simpa using ⟨by simpa using hn, h (key a)⟩
      · simpa [hk] using h k
    · intro h
      refine ⟨fun hm => ?_, fun k => ?_⟩
      · obtain ⟨b, hb, he⟩ := List.mem_map.1 hm
        obtain ⟨hkey, hname⟩ := Prod.mk.inj he
        have hk := h (key a)
        rw [List.filter_cons_of_pos (by simp), List.map_cons, List.nodup_cons] at hk
        exact hk.1 (List.mem_map.2 ⟨b, List.mem_filter.2 ⟨hb, by simpa using hkey⟩, hname⟩)
      · exact ((List.sublist_cons_self a xs).filter _ |>.map name).nodup (h k)

theorem ParamCorrection.violations_eq_nil {p : ParamCorrection} : p.violations = [] ↔ p.name ≠ "" :=
  unnamed_eq_nil

theorem FieldCorrection.violations_eq_nil {f : FieldCorrection} : f.violations = [] ↔ f.name ≠ "" :=
  unnamed_eq_nil

theorem FuncCorrection.violations_eq_nil {scope : String} {f : FuncCorrection} :
    f.violations scope = [] ↔ f.WellFormed := by
  rw [violations, List.append_eq_nil_iff, unnamed_eq_nil, among_map_eq_nil]
  simp only [ParamCorrection.violations_eq_nil]
  constructor
  · intro h
    exact ⟨h.1, h.2.1, h.2.2⟩
  · intro h
    exact ⟨h.named, h.params_named, h.params_distinct⟩

namespace TypeCorrection

theorem isMixed_eq_false {t : TypeCorrection} :
    t.isMixed = false ↔ (t.isInterface = true → t.fields = none ∧ t.nested = none) := by
  unfold isMixed
  cases t.isInterface <;> simp

theorem violations_eq_nil {scope : String} {t : TypeCorrection} : t.violations scope = [] ↔ t.WellFormed := by
  induction t using nesting generalizing scope with
  | inner t ih =>
    have hnested : (∀ n ∈ t.nested.getD [], n.violations (within scope t.name) = []) ↔
        ∀ n ∈ t.nested.getD [], n.WellFormed :=
      forall₂_congr fun n hn => ih n hn
    have hmixed : (if t.isMixed = true then [Fault.malformed (.mixedInterface (within scope t.name))] else []) = [] ↔
        t.isMixed = false := by
      cases t.isMixed <;> simp
    rw [violations_eq, violationsAround]
    simp only [List.append_eq_nil_iff, unnamed_eq_nil, hmixed, isMixed_eq_false, among_map_eq_nil,
      FuncCorrection.violations_eq_nil, FieldCorrection.violations_eq_nil, hnested]
    constructor
    · intro h
      obtain ⟨⟨⟨⟨hn, hm⟩, hms, hmd⟩, hf, hfd⟩, ht, htd⟩ := h
      exact .intro t ⟨hn, hm, hf, hfd, hms, hmd, htd⟩ ht
    · intro h
      have hs := h.sound
      exact ⟨⟨⟨⟨hs.named, hs.unmixed⟩, hs.methods, hs.methods_distinct⟩, hs.fields_named, hs.fields_distinct⟩,
        h.nested, hs.nested_distinct⟩

end TypeCorrection

namespace Sheet

theorem violations_eq_nil {s : Sheet} : s.violations = [] ↔ s.WellFormed := by
  have hf := nodup_map_pair (·.api) (·.name) s.funcs
  have ht := nodup_map_pair (·.api) (·.name) s.types
  simp only [violations, List.append_eq_nil_iff, top_eq_nil, List.forall_mem_map, List.map_map, Function.comp_def,
    unnamed_eq_nil, FuncCorrection.violations_eq_nil, TypeCorrection.violations_eq_nil, hf, ht, List.not_mem_nil,
    not_false_eq_true, implies_true, and_true]
  constructor
  · intro h
    obtain ⟨⟨hfs, hfd⟩, hts, htd⟩ := h
    exact ⟨fun f h => (hfs f h).1, fun t h => (hts t h).1, fun f h => (hfs f h).2, fun t h => (hts t h).2, hfd, htd⟩
  · intro h
    exact ⟨⟨fun f hf => ⟨h.func_modules_named f hf, h.funcs f hf⟩, h.funcs_distinct⟩,
      fun t ht => ⟨h.type_modules_named t ht, h.types t ht⟩, h.types_distinct⟩

instance (s : Sheet) : Decidable s.WellFormed := decidable_of_iff _ violations_eq_nil

theorem compile_eq_ok {s : Sheet} {t : Tree} : s.compile.result = .ok t ↔ s.WellFormed ∧ s.image = t := by
  rw [result_compile, settle_eq_ok, violations_eq_nil]

/-- Exactly the well-formed sheets compile, and every other is refused for the first of its violations. -/
theorem compile_accepts_wellFormed (s : Sheet) :
    ((∃ t, s.compile.result = .ok t) ↔ s.WellFormed) ∧
      ∀ fault, s.compile.result = .error fault ↔ s.violations.head? = some fault := by
  refine ⟨?_, fun fault => ?_⟩
  · simp only [compile_eq_ok, exists_and_left, exists_eq', and_true]
  · rw [result_compile, settle_eq_error]

end Sheet
end Errata
