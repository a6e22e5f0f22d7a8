import Errata.Proofs.Image
import Errata.Sheet.Search
import Errata.Sheet.WellFormed

/-! Records of any kind, each with what is declared inside it by role. The node of a well-formed record holds,
role by role, the nodes of what is inside. Main statements: `held_node`, `child?_node`. -/
namespace Errata

theorem TypeCorrection.record_node (t : TypeCorrection) : t.node.record = t := by
  rw [node_eq, nodeAround]
  cases t.methods <;> rfl

theorem TypeCorrection.node_plain {t : TypeCorrection} (h : t.isInterface = false) :
    ∃ fields nested, t.node = .plain t fields nested := by
  have hm : t.methods = none := by simpa [isInterface] using h
  rw [node_eq, nodeAround, hm]
  exact ⟨_, _, rfl⟩

theorem TypeCorrection.node_com {t : TypeCorrection} (h : t.isInterface = true) :
    ∃ methods, t.node = .com ⟨t, methods⟩ := by
  obtain ⟨methods, hm⟩ := Option.isSome_iff_exists.1 h
  rw [node_eq, nodeAround, hm]
  exact ⟨_, rfl⟩

namespace Correction

/-- What a record declares under a role, if it declares such a list at all. -/
def inside? : Correction → Role → Option (List Correction)
  | .type t, .field => t.fields.map (·.map .field)
  | .type t, .nested => t.nested.map (·.map .type)
  | .type t, .method => t.methods.map (·.map .func)
  | .func f, .param => some (f.params.map .param)
  | _, _ => none

def inside (c : Correction) (role : Role) : List Correction := (c.inside? role).getD []

def WellFormed : Correction → Prop
  | .type t => t.WellFormed
  | .func f => f.WellFormed
  | .field f => f.name ≠ ""
  | .param p => p.name ≠ ""

def node : Correction → Node
  | .type t => .type t.node
  | .func f => .func f.node
  | .field f => .field f
  | .param p => .param p

section
variable (t : TypeCorrection) (f : FuncCorrection)

theorem inside_field : inside (.type t) .field = (t.fields.getD []).map .field := by
  cases h : t.fields <;> simp [inside, inside?, h]

theorem inside_nested : inside (.type t) .nested = (t.nested.getD []).map .type := by
  cases h : t.nested <;> simp [inside, inside?, h]

theorem inside_method : inside (.type t) .method = (t.methods.getD []).map .func := by
  cases h : t.methods <;> simp [inside, inside?, h]

theorem inside_param : inside (.func f) .param = f.params.map .param := rfl

end

/-- All that can be inside a record, and under which role. -/
inductive Inside : Correction → Role → Correction → Prop where
  | field {t : TypeCorrection} {f : FieldCorrection} (h : f ∈ t.fields.getD []) :
    Inside (.type t) .field (.field f)
  | nested {t n : TypeCorrection} (h : n ∈ t.nested.getD []) : Inside (.type t) .nested (.type n)
  | method {t : TypeCorrection} {m : FuncCorrection} (h : m ∈ t.methods.getD []) :
    Inside (.type t) .method (.func m)
  | param {f : FuncCorrection} {p : ParamCorrection} (h : p ∈ f.params) : Inside (.func f) .param (.param p)

theorem inside_cases {c d : Correction} {role : Role} (h : d ∈ c.inside role) : Inside c role d := by
  cases c with
  | type t =>
    cases role with
    | field =>
      obtain ⟨f, hf, rfl⟩ := List.mem_map.1 (inside_field t ▸ h)
      exact .field hf
    | nested =>
      obtain ⟨n, hn, rfl⟩ := List.mem_map.1 (inside_nested t ▸ h)
      exact .nested hn
    | method =>
      obtain ⟨m, hm, rfl⟩ := List.mem_map.1 (inside_method t ▸ h)
      exact .method hm
    | api | type | func | param => cases h
  | func f =>
    cases role with
    | param =>
      obtain ⟨p, hp, rfl⟩ := List.mem_map.1 (inside_param f ▸ h)
      exact .param hp
    | api | type | func | field | nested | method => cases h
  | field f => cases h
  | param p => cases h

/-- What holds of a record if it holds of everything inside it holds of every record. -/
@[elab_as_elim]
theorem nesting {P : Correction → Prop} (inner : ∀ c, (∀ role, ∀ d ∈ c.inside role, P d) → P c) (c : Correction) :
    P c := by
  have hfield (f : FieldCorrection) : P (.field f) := inner _ fun _ _ h => by cases h
  have hparam (p : ParamCorrection) : P (.param p) := inner _ fun _ _ h => by cases h
  have hfunc (f : FuncCorrection) : P (.func f) := by
    refine inner _ fun role d h => ?_
    cases inside_cases h with
    | param hp => exact hparam _
  cases c with
  | type t =>
    induction t using TypeCorrection.nesting with
    | inner t ih =>
      refine inner _ fun role d h => ?_
      cases inside_cases h with
      | field hf => exact hfield _
      | nested hn => exact ih _ hn
      | method hm => exact hfunc _
  | func f => exact hfunc f
  | field f => exact hfield f
  | param p => exact hparam p

theorem shape?_inside {c d : Correction} {role : Role} (h : d ∈ c.inside role) :
    d.node.shape? = some role.shape := by
  cases inside_cases h <;> rfl

namespace WellFormed
variable {c : Correction}

theorem inside (h : c.WellFormed) {role : Role} {d : Correction} (hd : d ∈ c.inside role) : d.WellFormed := by
  cases inside_cases hd with
  | field hf => exact (TypeCorrection.WellFormed.sound h).fields_named _ hf
  | nested hn => exact TypeCorrection.WellFormed.nested h _ hn
  | method hm => exact (TypeCorrection.WellFormed.sound h).methods _ hm
  | param hp => exact FuncCorrection.WellFormed.params_named h _ hp

theorem distinct (h : c.WellFormed) (role : Role) : ((c.inside role).map Correction.name).Nodup := by
  cases c with
  | type t =>
    have hs := TypeCorrection.WellFormed.sound h
    cases role with
    | field => simpa [inside_field, Function.comp_def, Correction.name] using hs.fields_distinct
    | nested => simpa [inside_nested, Function.comp_def, Correction.name] using hs.nested_distinct
    | method => simpa [inside_method, Function.comp_def, Correction.name] using hs.methods_distinct
    | api | type | func | param => simp [Correction.inside, inside?]
  | func f =>
    cases role with
    | param =>
      have hp := FuncCorrection.WellFormed.params_distinct h
      simpa [inside_param, Function.comp_def, Correction.name] using hp
    | api | type | func | field | nested | method => simp [Correction.inside, inside?]
  | field f => simp [Correction.inside, inside?]
  | param p => simp [Correction.inside, inside?]

end WellFormed

theorem record?_node (c : Correction) : c.node.record? = some c := by
  cases c with
  | type t => simp [node, Node.record?, TypeCorrection.record_node]
  | func f => rfl
  | field f => rfl
  | param p => rfl

theorem held_node {c : Correction} (hc : c.WellFormed) (role : Role) :
    c.node.held role = (c.inside? role).map fun ds => .ofList (ds.map fun d => (d.name, d.node)) := by
  cases c with
  | type t =>
    have hu := (TypeCorrection.WellFormed.sound hc).unmixed
    rw [node, TypeCorrection.node_eq, TypeCorrection.nodeAround]
    cases hm : t.methods with
    | none => cases role <;> simp [Node.held, inside?, hm, Function.comp_def, NameMap.map_ofList, name, node]
    | some methods =>
      obtain ⟨hf, hn⟩ := hu (by simp [TypeCorrection.isInterface, hm])
      cases role <;> simp [Node.held, inside?, hm, hf, hn, Function.comp_def, NameMap.map_ofList, name, node]
  | func f =>
    cases role <;> simp [Node.held, inside?, Function.comp_def, NameMap.map_ofList, name, node, FuncCorrection.node]
  | field f => cases role <;> rfl
  | param p => cases role <;> rfl

theorem child?_eq (c : Correction) (step : Step) :
    c.child? step = (c.inside step.role).find? (·.name = step.name) := by
  obtain ⟨role, n⟩ := step
  cases c with
  | type t =>
    cases role with
    | field =>
      rw [child?, inside_field, List.find?_map]
      rfl
    | nested =>
      rw [child?, inside_nested, List.find?_map]
      rfl
    | method =>
      rw [child?, inside_method, List.find?_map]
      rfl
    | api | type | func | param => rfl
  | func f =>
    cases role with
    | param =>
      rw [child?, inside_param, List.find?_map]
      rfl
    | api | type | func | field | nested | method => rfl
  | field f => rfl
  | param p => rfl

theorem child?_node {c : Correction} (hc : c.WellFormed) (step : Step) :
    c.node.child? step = (c.child? step).map node := by
  rw [Node.child?, held_node hc, child?_eq]
  have hd := hc.distinct step.role
  unfold inside at hd ⊢
  cases h : c.inside? step.role with
  | none => rfl
  | some ds =>
    rw [h] at hd
    exact NameMap.find?_ofList ds name node hd step.name

theorem WellFormed.child {c d : Correction} (hc : c.WellFormed) {step : Step} (h : c.child? step = some d) :
    d.WellFormed := by
  rw [child?_eq] at h
  exact hc.inside (List.mem_of_find?_eq_some h)

theorem WellFormed.descend {c d : Correction} (hc : c.WellFormed) {p : Place} (h : p.foldlM Correction.child? c = some d) :
    d.WellFormed := by
  induction p generalizing c with
  | nil =>
    cases h
    exact hc
  | cons st p ih =>
    obtain ⟨e, he, h⟩ := Option.bind_eq_some_iff.1 h
    exact ih (hc.child he) h

theorem at?_node {c : Correction} (hc : c.WellFormed) (p : Place) :
    c.node.at? p = (p.foldlM Correction.child? c).map node := by
  induction p generalizing c with
  | nil => rfl
  | cons st p ih =>
    have hat : c.node.at? (st :: p) = (c.node.child? st).bind (·.at? p) := rfl
    have hfold : (st :: p).foldlM Correction.child? c = (c.child? st).bind (p.foldlM Correction.child?) := rfl
    rw [hat, hfold, child?_node hc]
    cases hd : c.child? st with
    | none => rfl
    | some d => exact ih (hc.child hd)

end Correction
end Errata
