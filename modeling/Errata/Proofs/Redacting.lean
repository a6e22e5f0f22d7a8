import Errata.Proofs.Flattening
import Errata.Redaction

/-! Striking out the modules that inner records name goes through compiling and walking: a sheet without them is refused
for the same, or compiles to the tree without them, and a walk visits the same. Main statements: `Sheet.compile_redact`,
`Node.visits_redact`. -/
namespace Errata

theorem NameMap.map_map {U V W : Type} (f : U → V) (g : V → W) (m : NameMap U) :
    (m.map f).map g = m.map (g ∘ f) := by
  simp [map]

theorem map_getD_map {α β γ : Type} (xs : Option (List α)) (g : α → β) (f : β → γ) :
    ((xs.map (·.map g)).getD []).map f = (xs.getD []).map fun a => f (g a) := by
  cases xs <;> simp

theorem Place.isOuter_concat (p : Place) (st : Step) : Place.isOuter (p ++ [st]) = st.role.isOuter := by
  simp [isOuter]

theorem FuncNode.redact_true (f : FuncNode) : f.redact true = f := rfl

namespace TypeCorrection

theorem redactEach_eq (ts : List TypeCorrection) : redactEach ts = ts.map (·.redact false) := by
  induction ts with
  | nil => rfl
  | cons t ts ih => simp [redactEach, ih]

theorem redact_eq (outer : Bool) (t : TypeCorrection) : t.redact outer =
    { t with
      api := if outer then t.api else ""
      nested := t.nested.map (·.map (·.redact false))
      methods := t.methods.map (·.map (·.redact false)) } := by
  obtain ⟨api, name, remove, fields, _ | ts, methods⟩ := t
  · simp [redact]
  · simp [redact, redactEach_eq]

section
variable (outer : Bool) (t : TypeCorrection)

@[simp] theorem api_redact : (t.redact outer).api = if outer then t.api else "" := by rw [redact_eq]
@[simp] theorem name_redact : (t.redact outer).name = t.name := by rw [redact_eq]
@[simp] theorem remove_redact : (t.redact outer).remove = t.remove := by rw [redact_eq]
@[simp] theorem fields_redact : (t.redact outer).fields = t.fields := by rw [redact_eq]
@[simp] theorem nested_redact : (t.redact outer).nested = t.nested.map (·.map (·.redact false)) := by rw [redact_eq]
@[simp] theorem methods_redact : (t.redact outer).methods = t.methods.map (·.map (·.redact false)) := by rw [redact_eq]

end

theorem violations_redact (outer : Bool) (t : TypeCorrection) (scope : String) :
    (t.redact outer).violations scope = t.violations scope := by
  induction t using nesting generalizing outer scope with
  | inner t ih =>
    have hnested : ((t.redact outer).nested.getD []).map (fun n => (n.name, n.violations (within scope t.name))) =
        (t.nested.getD []).map fun n => (n.name, n.violations (within scope t.name)) := by
      rw [nested_redact, map_getD_map]
      apply List.map_congr_left
      intro n hn
      rw [name_redact, ih n hn]
    rw [violations_eq, violations_eq, name_redact, hnested]
    simp only [violationsAround, isMixed, isInterface, name_redact, fields_redact, nested_redact, methods_redact,
      map_getD_map, Option.isSome_map]
    rfl

theorem recordCount_redact (outer : Bool) (t : TypeCorrection) : (t.redact outer).recordCount = t.recordCount := by
  induction t using nesting generalizing outer with
  | inner t ih =>
    have hnested : ((t.redact outer).nested.getD []).map (·.recordCount) = (t.nested.getD []).map (·.recordCount) := by
      rw [nested_redact, map_getD_map]
      exact List.map_congr_left fun n hn => ih n hn false
    rw [recordCount_eq, recordCount_eq, hnested]
    simp only [countAround, fields_redact, methods_redact, map_getD_map]
    rfl

end TypeCorrection

namespace TypeNode

theorem redactEach_eq (ns : List TypeNode) : redactEach ns = ns.map (·.redact false) := by
  induction ns with
  | nil => rfl
  | cons n ns ih => simp [redactEach, ih]

theorem redact_plain (outer : Bool) (record : TypeCorrection) (fields : Option (NameMap FieldCorrection))
    (nested : Option (NameMap TypeNode)) : (plain record fields nested).redact outer =
      .plain (record.redact outer) fields (nested.map (·.map (·.redact false))) := by
  obtain _ | ⟨names, ⟨types⟩⟩ := nested
  · simp [redact]
  · simp [redact, redactEach_eq, NameMap.map]

theorem redact_com (outer : Bool) (face : Interface) : (com face).redact outer = .com (face.redact outer) := by
  simp [redact]

theorem record_redact (outer : Bool) (n : TypeNode) : (n.redact outer).record = n.record.redact outer := by
  cases n with
  | plain record fields nested =>
    rw [redact_plain]
    rfl
  | com face =>
    rw [redact_com]
    rfl

end TypeNode

theorem TypeCorrection.node_redact (outer : Bool) (t : TypeCorrection) :
    (t.redact outer).node = t.node.redact outer := by
  induction t using nesting generalizing outer with
  | inner t ih =>
    rw [node_eq, node_eq, nodeAround, nodeAround, methods_redact]
    cases t.methods with
    | some methods =>
      simp only [Option.map_some, TypeNode.redact_com, Interface.redact, NameMap.map_ofList, List.map_map]
      rfl
    | none =>
      have hnested : ((t.redact outer).nested.map fun ts => ts.map fun n => (n.name, n.node)) =
          t.nested.map fun ts => ts.map fun n => (n.name, n.node.redact false) := by
        rw [nested_redact, Option.map_map]
        apply Option.map_congr
        intro ts hts
        rw [Function.comp_apply, List.map_map]
        apply List.map_congr_left
        intro n hn
        have hn : n ∈ t.nested.getD [] := by rwa [hts]
        rw [Function.comp_apply, name_redact, ih n hn]
      rw [hnested]
      simp only [Option.map_none, TypeNode.redact_plain, fields_redact, Option.map_map, Function.comp_def,
        NameMap.map_ofList, List.map_map]

namespace Sheet
variable (s : Sheet)

theorem violations_redact : s.redact.violations = s.violations := by
  have htypes : (s.types.map (·.redact true)).map
      (fun t => (t.api, t.name, Violations.unnamed .typeModule t.api ++ t.violations t.api)) =
        s.types.map fun t => (t.api, t.name, Violations.unnamed .typeModule t.api ++ t.violations t.api) := by
    rw [List.map_map]
    apply List.map_congr_left
    intro t _
    simp only [Function.comp_apply, TypeCorrection.api_redact, TypeCorrection.name_redact,
      TypeCorrection.violations_redact, if_true]
  rw [violations, violations, redact, htypes]

theorem modules_redact : s.redact.modules = s.modules := by
  simp [modules, redact, Function.comp_def]

theorem apiOf_redact (api : String) : s.redact.apiOf api = (s.apiOf api).redact := by
  have htypes : s.redact.typesOf api = (s.typesOf api).map (·.redact true) := by
    simp [typesOf, redact, List.filter_map, Function.comp_def]
  rw [apiOf, htypes, List.map_map, ApiNode.redact, apiOf, NameMap.map_ofList, List.map_map]
  simp only [Function.comp_def, TypeCorrection.name_redact, TypeCorrection.node_redact]
  rfl

theorem recordCount_redact : s.redact.recordCount = s.recordCount := by
  simp [recordCount, redact, Function.comp_def, TypeCorrection.recordCount_redact]

theorem image_redact : s.redact.image = s.image.redact := by
  rw [image, image, Tree.redact, modules_redact, recordCount_redact, NameMap.map_ofList, List.map_map]
  simp only [Function.comp_def, apiOf_redact]

/-- What is compiled, refused and reported is the same but for the records that are kept. -/
theorem compile_redact : s.redact.compile.result = s.compile.result.map Tree.redact ∧
    s.redact.compile.events = s.compile.events := by
  have htree : s.redact.toTree = s.toTree.map Tree.redact := by
    rw [toTree_eq, toTree_eq, violations_redact, image_redact]
    cases s.violations <;> rfl
  rw [compile, compile, htree]
  cases s.toTree with
  | error fault => exact ⟨rfl, rfl⟩
  | ok t =>
    have hsize : t.redact.apis.size = t.apis.size := by simp [Tree.redact, NameMap.size, NameMap.map]
    exact ⟨rfl, congrArg (fun n => [Event.compiled n t.size]) hsize⟩

end Sheet

theorem Correction.name_redact (outer : Bool) (c : Correction) : (c.redact outer).name = c.name := by
  cases c with
  | type t => exact t.name_redact outer
  | func f | field f | param p => rfl

namespace Node

theorem held_redact (outer : Bool) (n : Node) (role : Role) :
    (n.redact outer).held role = (n.held role).map (·.map (redact role.isOuter)) := by
  cases n with
  | type t =>
    cases t with
    | plain record fields nested =>
      rw [redact, TypeNode.redact_plain]
      cases role <;> simp [held, NameMap.map_map, Function.comp_def, redact, Role.isOuter]
    | com face =>
      rw [redact, TypeNode.redact_com]
      cases role <;> simp [held, NameMap.map_map, Function.comp_def, redact, Role.isOuter, Interface.redact]
  | tree t => cases role <;> simp [held, NameMap.map_map, Function.comp_def, redact, Tree.redact]
  | api a =>
    cases role <;>
      simp [held, NameMap.map_map, Function.comp_def, redact, ApiNode.redact, Role.isOuter, FuncNode.redact_true]
  | func f =>
    cases role <;> simp [held, NameMap.map_map, Function.comp_def, redact, FuncNode.redact]
  | field f => cases role <;> rfl
  | param p => cases role <;> rfl

section
variable (outer : Bool) (n : Node)

theorem record?_redact : (n.redact outer).record? = n.record?.map (·.redact outer) := by
  cases n with
  | type t => exact congrArg (some <| Correction.type ·) (t.record_redact outer)
  | tree _ | api _ | func _ | field _ | param _ => rfl

theorem shape?_redact : (n.redact outer).shape? = n.shape? := by cases n <;> rfl

theorem kind?_redact : (n.redact outer).kind? = n.kind? := by
  cases n with
  | type t =>
    cases t with
    | plain record fields nested => rw [redact, TypeNode.redact_plain]; rfl
    | com face => rw [redact, TypeNode.redact_com]; rfl
  | tree _ | api _ | func _ | field _ | param _ => rfl

theorem name_redact : (n.redact outer).name = n.name := by
  cases n with
  | type t =>
    have hname : (t.redact outer).record.name = t.record.name := by
      rw [TypeNode.record_redact, TypeCorrection.name_redact]
    exact hname
  | tree _ | api _ | func _ | field _ | param _ => rfl

end

theorem filed_redact (outer : Bool) (n : Node) :
    (n.redact outer).filed = n.filed.map fun e => (e.1, e.2.redact e.1.role.isOuter) := by
  rw [filed, filed, List.map_flatMap]
  apply List.flatMap_congr
  intro role _
  rw [held_redact]
  cases n.held role with
  | none => rfl
  | some m => simp [NameMap.entries_map]

theorem own_redact (n : Node) (place : Place) (path : List String) :
    (n.redact place.isOuter).own place path = (n.own place path).map Visit.redact := by
  rw [own, own, kind?_redact, record?_redact]
  cases n.kind? <;> cases n.record? <;> rfl

theorem segment_redact (outer : Bool) (n : Node) (key : String) : (n.redact outer).segment key = n.segment key := by
  rw [segment, segment, record?_redact, Option.map_map]
  simp only [Function.comp_def, Correction.name_redact]

theorem below_redact (outer : Bool) (n : Node) (place : Place) (path : List String) :
    (n.redact outer).below place path = (n.below place path).map Visit.redact := by
  induction n using filing generalizing outer place path with
  | inner n ih =>
    rw [below_eq, below_eq, filed_redact, List.flatMap_map, List.map_flatMap]
    apply List.flatMap_congr
    intro e he
    obtain ⟨st, c⟩ := e
    have hown : (c.redact st.role.isOuter).own (place ++ [st]) (path ++ [c.segment st.name]) =
        (c.own (place ++ [st]) (path ++ [c.segment st.name])).map Visit.redact := by
      rw [← Place.isOuter_concat place]
      exact c.own_redact ..
    simp only [found, segment_redact, List.map_append, hown, ih st c he]

theorem visits_redact (outer : Bool) (n : Node) (place : Place) :
    (n.redact outer).visits place = (n.visits place).map Visit.redact := by
  rw [visits_eq, visits_eq, name_redact, below_redact]

end Node

end Errata
