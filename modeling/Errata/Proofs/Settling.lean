import Errata.Proofs.Grouping

/-! Compiling, read as two things that do not depend on each other: the violations that are met, of which the
first is the refusal, and the image that is left if there are none. Main statement: `Sheet.toTree_eq`. -/
namespace Errata
open Violations

/-- The first violation, or the value if there is none. -/
def settle {α : Type} : List Fault → α → Except Fault α
  | [], value => .ok value
  | fault :: _, _ => .error fault

theorem settle_bind {α β : Type} {fs gs : List Fault} {a : α} {b : β} {k : α → Except Fault β}
    (h : k a = settle gs b) : settle fs a >>= k = settle (fs ++ gs) b := by
  cases fs with
  | nil => exact h
  | cons fault fs => rfl

theorem settle_bind_pure {α β : Type} (fs : List Fault) (a : α) (g : α → β) :
    (settle fs a >>= fun a => pure (g a)) = settle fs (g a) := by
  cases fs <;> rfl

theorem settle_eq_ok {α : Type} {fs : List Fault} {a b : α} : settle fs a = .ok b ↔ fs = [] ∧ a = b := by
  cases fs with
  | nil => simp [settle]
  | cons fault fs => simp [settle]

theorem settle_eq_error {α : Type} {fs : List Fault} {a : α} {fault : Fault} :
    settle fs a = .error fault ↔ fs.head? = some fault := by
  cases fs with
  | nil => simp [settle]
  | cons fault fs => simp [settle]

theorem settle_insert {V : Type} (m : NameMap V) (scope name : String) (v : V) :
    m.insert scope name v = settle (repeated scope m.keys name) (m.push (name, v)) := by
  unfold repeated
  rcases NameMap.insert_eq (m := m) scope name v with ⟨hc, he⟩ | ⟨hc, he⟩
  · rw [he, if_pos (NameMap.contains_iff.1 hc)]
    rfl
  · have hn : name ∉ m.keys := by
      rw [← NameMap.contains_iff, hc]
      simp
    rw [he, if_neg hn]
    rfl

namespace Counting
variable {V W : Type}

/-- Whatever was counted before, the compilation meets these violations, and without any it ends in the value
and counts so many records. -/
def Settles (c : Counting V) (faults : List Fault) (value : V) (count : Nat) : Prop :=
  ∀ n, c.run n = settle faults (value, n + count)

theorem Settles.congr {c : Counting V} {fs gs : List Fault} {v : V} {k l : Nat} (h : c.Settles fs v k)
    (hf : fs = gs) (hk : k = l) : c.Settles gs v l := hf ▸ hk ▸ h

theorem Settles.bind {c : Counting V} {d : V → Counting W} {fs gs : List Fault} {v : V} {w : W} {k l : Nat}
    (hc : c.Settles fs v k) (hd : (d v).Settles gs w l) : Settles (c >>= d) (fs ++ gs) w (k + l) := by
  intro n
  rw [StateT.run_bind, hc n]
  exact settle_bind (by simpa [Nat.add_assoc] using hd (n + k))

theorem Settles.seqRight {c : Counting V} {d : Counting W} {fs gs : List Fault} {v : V} {w : W} {k l : Nat}
    (hc : c.Settles fs v k) (hd : d.Settles gs w l) : Settles (c *> d) (fs ++ gs) w (k + l) := by
  rw [seqRight_eq_bind]
  exact .bind hc hd

theorem settles_pure (v : V) : Settles (pure v) [] v 0 := fun _ => rfl
theorem settles_tick : Settles tick [] () 1 := fun _ => rfl

theorem settles_ensureNamed (part : Part) (name : String) :
    Settles (ensureNamed part name) (unnamed part name) () 0 := by
  intro n
  unfold ensureNamed unnamed
  cases name.isEmpty <;> rfl

theorem settles_insert (m : NameMap V) (scope name : String) (v : V) :
    Settles (liftM (m.insert scope name v)) (repeated scope m.keys name) (m.push (name, v)) 0 := by
  intro n
  rw [settle_insert]
  cases repeated scope m.keys name <;> rfl

/-- Elder siblings count as a set, so the names filed so far stand for the list of elders, repetitions or not. -/
theorem settles_fill {α : Type} (scope : String) (name : α → String) {compile : α → Counting V}
    {faults : α → List Fault} {value : α → V} {count : α → Nat} (xs : List α)
    (h : ∀ a ∈ xs, (compile a).Settles (faults a) (value a) (count a)) (elders : List String) (m : NameMap V)
    (hm : ∀ n, n ∈ elders ↔ n ∈ m.keys) :
    (fill scope (xs.map fun a => (name a, compile a)) m).Settles
      (among scope elders (xs.map fun a => (name a, faults a)))
      (m.file (xs.map fun a => (name a, value a))) (xs.map count).sum := by
  induction xs generalizing elders m with
  | nil => exact settles_pure m
  | cons a xs ih =>
    have hr : repeated scope m.keys (name a) = repeated scope elders (name a) := by
      simp only [repeated, hm]
    have hk : ∀ n, n ∈ elders ++ [name a] ↔ n ∈ (m.push (name a, value a)).keys := by
      intro n
      rw [NameMap.mem_keys_push, ← hm]
      simp
    have hrest := ih (fun b hb => h b (by simp [hb])) _ _ hk
    have hins := settles_insert m scope (name a) (value a)
    rw [hr] at hins
    have hstep : (fill scope ((a :: xs).map fun a => (name a, compile a)) m).Settles _ _ _ :=
      .bind (h a (by simp)) (.bind hins hrest)
    exact hstep.congr (by simp [among]) (by simp)

theorem settles_fill_empty {α : Type} (scope : String) (name : α → String) {compile : α → Counting V}
    {faults : α → List Fault} {value : α → V} {count : α → Nat} (xs : List α)
    (h : ∀ a ∈ xs, (compile a).Settles (faults a) (value a) (count a)) :
    (fill scope (xs.map fun a => (name a, compile a)) .empty).Settles
      (among scope [] (xs.map fun a => (name a, faults a)))
      (.ofList (xs.map fun a => (name a, value a))) (xs.map count).sum :=
  settles_fill scope name xs h [] .empty (by simp [NameMap.keys, NameMap.empty])

theorem settles_mapM_fill {α : Type} (scope : String) (name : α → String) {compile : α → Counting V}
    {faults : α → List Fault} {value : α → V} {count : α → Nat} (xs : Option (List α))
    (h : ∀ a ∈ xs.getD [], (compile a).Settles (faults a) (value a) (count a)) :
    Settles (xs.mapM fun xs => fill scope (xs.map fun a => (name a, compile a)) .empty)
      (among scope [] ((xs.getD []).map fun a => (name a, faults a)))
      (xs.map fun xs => .ofList (xs.map fun a => (name a, value a))) ((xs.getD []).map count).sum := by
  cases xs with
  | none => exact settles_pure none
  | some xs =>
    rw [Option.mapM_some, map_eq_pure_bind]
    exact Settles.congr (.bind (settles_fill_empty scope name xs h) (settles_pure _)) (by simp) (by simp)

theorem mapM_map {α β : Type} (g : α → β) (c : β → Counting V) (o : Option α) :
    (o.map g).mapM c = o.mapM fun a => c (g a) := by
  cases o <;> rfl

end Counting
open Counting

theorem ParamCorrection.compile_settles (p : ParamCorrection) : p.compile.Settles p.violations p 1 := by
  have h : p.compile.Settles _ p _ :=
    .bind (settles_ensureNamed .param p.name) (.bind settles_tick (settles_pure p))
  exact h.congr (by simp [violations]) rfl

theorem FieldCorrection.compile_settles (f : FieldCorrection) : f.compile.Settles f.violations f 1 := by
  have h : f.compile.Settles _ f _ :=
    .bind (settles_ensureNamed .field f.name) (.bind settles_tick (settles_pure f))
  exact h.congr (by simp [violations]) rfl

theorem FuncCorrection.compile_settles (scope : String) (f : FuncCorrection) :
    (f.compile scope).Settles (f.violations scope) f.node f.recordCount := by
  have hp := settles_fill_empty (within scope f.name) (·.name) f.params fun p _ => p.compile_settles
  have h : (f.compile scope).Settles _ f.node _ :=
    .bind (settles_ensureNamed .func f.name) (.bind hp (.bind settles_tick (settles_pure _)))
  exact h.congr (by simp [violations]) (by simp only [recordCount, List.map_const', List.sum_replicate_nat]; omega)

namespace TypeCorrection

theorem compile_settles (t : TypeCorrection) (scope : String) :
    (t.compile scope).Settles (t.violations scope) t.node t.recordCount := by
  induction t using nesting generalizing scope with
  | inner t ih =>
    have hname := settles_ensureNamed .type t.name
    rw [compile_eq, violations_eq, node_eq, recordCount_eq]
    unfold assemble violationsAround nodeAround countAround isMixed isInterface
    cases hm : t.methods with
    | some methods =>
      cases hx : t.fields.isSome || t.nested.isSome with
      | true =>
        -- The children are never looked at, so their violations must not matter.
        intro n
        rw [StateT.run_bind, hname n]
        cases unnamed .type t.name <;> rfl
      | false =>
        obtain ⟨hf, hn⟩ : t.fields = none ∧ t.nested = none := by simpa using hx
        have hms := settles_fill_empty (within scope t.name) (·.name) methods fun m _ =>
          m.compile_settles (within scope t.name)
        refine Settles.congr (.bind hname (.bind hms (.bind settles_tick (settles_pure _)))) ?_ ?_
        · simp [hf, hn, among]
        · simp [hf, hn]
    | none =>
      have hf := settles_mapM_fill (within scope t.name) (·.name) t.fields fun f _ => f.compile_settles
      have hn := settles_mapM_fill (within scope t.name) (·.name) t.nested fun n hn =>
        ih n hn (within scope t.name)
      simp only [mapM_map, Option.map_map, Function.comp_def]
      refine Settles.congr (.bind hname (.bind hf (.bind hn (.bind settles_tick (settles_pure _))))) ?_ ?_
      · simp [among]
      · have hones (fs : List FieldCorrection) : (fs.map fun _ => 1).sum = fs.length := by
          rw [List.map_const', List.sum_replicate_nat, Nat.mul_one]
        rw [hones, Option.getD_none]
        simp [Nat.add_assoc]

end TypeCorrection

namespace Sheet

theorem mem_keys_funcs {s : Sheet} {api name : String} :
    name ∈ (s.apiOf api).funcs.keys ↔ (api, name) ∈ s.funcs.map fun f => (f.api, f.name) := by
  simp [apiOf, funcsOf, NameMap.mem_keys_ofList, and_assoc]

theorem mem_keys_types {s : Sheet} {api name : String} :
    name ∈ (s.apiOf api).types.keys ↔ (api, name) ∈ s.types.map fun t => (t.api, t.name) := by
  simp [apiOf, typesOf, NameMap.mem_keys_ofList, and_assoc]

theorem fileFunc_image {s : Sheet} (hs : s.types = []) (f : FuncCorrection) :
    s.image.fileFunc f = settle (unnamed .funcModule f.api ++ f.violations f.api ++
      if (f.api, f.name) ∈ s.funcs.map (fun f => (f.api, f.name)) then [.duplicate f.api f.name] else [])
      (s.edit (.func f)).image := by
  have hc := (settles_ensureNamed .funcModule f.api).seqRight (f.compile_settles f.api)
  have hr : repeated f.api (s.apiOf f.api).funcs.keys f.name =
      if (f.api, f.name) ∈ s.funcs.map (fun f => (f.api, f.name)) then [.duplicate f.api f.name] else [] := by
    simp only [repeated, mem_keys_funcs]
  rw [Tree.fileFunc, hc, List.append_assoc, ← hr, ← List.append_assoc]
  apply settle_bind
  simp only [api_image, settle_insert, settle_bind_pure, Nat.zero_add, image_edit_func hs]
  rfl

theorem fileType_image (s : Sheet) (t : TypeCorrection) :
    s.image.fileType t = settle (unnamed .typeModule t.api ++ t.violations t.api ++
      if (t.api, t.name) ∈ s.types.map (fun t => (t.api, t.name)) then [.duplicate t.api t.name] else [])
      (s.edit (.type t)).image := by
  have hc := (settles_ensureNamed .typeModule t.api).seqRight (t.compile_settles t.api)
  have hr : repeated t.api (s.apiOf t.api).types.keys t.name =
      if (t.api, t.name) ∈ s.types.map (fun t => (t.api, t.name)) then [.duplicate t.api t.name] else [] := by
    simp only [repeated, mem_keys_types]
  rw [Tree.fileType, hc, List.append_assoc, ← hr, ← List.append_assoc]
  apply settle_bind
  simp only [api_image, settle_insert, settle_bind_pure, Nat.zero_add, image_edit_type]
  rfl

theorem foldlM_settle {α : Type} {file : Tree → α → Except Fault Tree} {api name : α → String}
    {faults : α → List Fault} {images : List α → Tree}
    (h : ∀ done a, file (images done) a = settle (faults a ++
      if (api a, name a) ∈ done.map (fun a => (api a, name a)) then [.duplicate (api a) (name a)] else [])
      (images (done ++ [a]))) (done xs : List α) :
    xs.foldlM file (images done) = settle (top (done.map fun a => (api a, name a))
      (xs.map fun a => (api a, name a, faults a))) (images (done ++ xs)) := by
  induction xs generalizing done with
  | nil => simp [top, settle, pure, Except.pure]
  | cons a xs ih =>
    have hrest := ih (done ++ [a])
    simp only [List.map_append, List.map_cons, List.map_nil, List.append_assoc, List.singleton_append] at hrest
    rw [List.foldlM_cons, h]
    exact settle_bind hrest

/-- A sheet compiles to its image, unless something is wrong with it: then the first violation is the refusal. -/
theorem toTree_eq (s : Sheet) : s.toTree = settle s.violations s.image := by
  have hf := foldlM_settle (fun done => fileFunc_image (s := ⟨done, []⟩) rfl) [] s.funcs
  have ht := foldlM_settle (fun done => fileType_image ⟨s.funcs, done⟩) [] s.types
  have hempty : ({} : Tree) = ({} : Sheet).image := rfl
  rw [toTree, hempty]
  exact hf ▸ settle_bind ht

theorem result_compile (s : Sheet) : s.compile.result = settle s.violations s.image := by
  rw [← toTree_eq, compile]
  cases s.toTree <;> rfl

end Sheet
end Errata
