import Errata.NameMap.Lemmas
import Errata.Node
import Mathlib.Data.List.Nodup

/-! What is filed in a node, in the order of a walk, and induction over everything that is filed below it.
Main statements: `Node.filing`, `mem_filed`, `nodup_filed`. -/
namespace Errata

def Role.all : List Role := [.api, .type, .func, .field, .nested, .method, .param]

theorem Role.mem_all (role : Role) : role ∈ all := by
  cases role <;> decide

namespace Node

/-- The nodes that a node holds, each with the step that leads to it. -/
def filed (n : Node) : List (Step × Node) :=
  Role.all.flatMap fun role => ((n.held role).elim [] (·.entries)).map fun e => (⟨role, e.1⟩, e.2)

theorem mem_filed {n c : Node} {st : Step} : (st, c) ∈ n.filed ↔ n.child? st = some c := by
  obtain ⟨role, name⟩ := st
  have hin : ((⟨role, name⟩, c) : Step × Node) ∈ n.filed ↔ (name, c) ∈ (n.held role).elim [] (·.entries) := by
    simp only [filed, List.mem_flatMap, List.mem_map, Prod.exists, Prod.mk.injEq, Step.mk.injEq]
    constructor
    · intro h
      obtain ⟨_, _, _, _, he, ⟨hrole, hname⟩, hc⟩ := h
      subst hrole hname hc
      exact he
    · intro he
      exact ⟨role, role.mem_all, name, c, he, ⟨rfl, rfl⟩, rfl⟩
  rw [hin, child?]
  cases n.held role with
  | none => simp
  | some m => exact NameMap.find?_eq_some_iff.symm

theorem nodup_filed (n : Node) : (n.filed.map Prod.fst).Nodup := by
  have hsteps : n.filed.map Prod.fst =
      Role.all.flatMap fun role => (((n.held role).elim [] (·.entries)).map Prod.fst).map (Step.mk role) := by
    simp [filed, List.map_flatMap, Function.comp_def]
  rw [hsteps, List.nodup_flatMap]
  constructor
  · intro role _
    have hnames : (((n.held role).elim [] (·.entries)).map Prod.fst).Nodup := by
      cases n.held role with
      | none => simp
      | some m => exact m.nodup_map_fst_entries
    exact hnames.map fun a b h => congrArg Step.name h
  · have hall : Role.all.Nodup := by decide
    refine hall.imp fun {a b} hab => ?_
    intro st ha hb
    obtain ⟨_, _, rfl⟩ := List.mem_map.1 ha
    obtain ⟨_, _, he⟩ := List.mem_map.1 hb
    exact hab (congrArg Step.role he).symm

def filedAs {V : Type} (role : Role) (f : V → Node) (m : NameMap V) : List (Step × Node) :=
  m.entries.map fun e => (⟨role, e.1⟩, f e.2)

theorem mem_filedAs {V : Type} {role : Role} {f : V → Node} {m : NameMap V} {st : Step} {c : Node} :
    (st, c) ∈ filedAs role f m ↔ ∃ v, (st.name, v) ∈ m.entries ∧ st.role = role ∧ c = f v := by
  obtain ⟨r, name⟩ := st
  simp only [filedAs, List.mem_map, Prod.exists, Prod.mk.injEq, Step.mk.injEq]
  constructor
  · intro h
    obtain ⟨key, v, he, ⟨hr, hn⟩, hc⟩ := h
    subst hr hn hc
    exact ⟨v, he, rfl, rfl⟩
  · intro h
    obtain ⟨v, he, hr, hc⟩ := h
    exact ⟨name, v, he, ⟨hr.symm, rfl⟩, hc.symm⟩

section
variable (t : Tree) (a : ApiNode) (face : Interface) (f : FuncNode)

theorem filed_tree : (tree t).filed = filedAs .api .api t.apis := by
  simp [filed, Role.all, held, filedAs, NameMap.entries_map, Function.comp_def]

theorem filed_api : (api a).filed = filedAs .type .type a.types ++ filedAs .func .func a.funcs := by
  simp [filed, Role.all, held, filedAs, NameMap.entries_map, Function.comp_def]

theorem filed_plain (record : TypeCorrection) (fields : Option (NameMap FieldCorrection))
    (nested : Option (NameMap TypeNode)) : (type (.plain record fields nested)).filed =
      fields.elim [] (filedAs .field .field) ++ nested.elim [] (filedAs .nested .type) := by
  cases fields <;> cases nested <;>
    simp [filed, Role.all, held, filedAs, NameMap.entries_map, Function.comp_def]

theorem filed_com : (type (.com face)).filed = filedAs .method .func face.methods := by
  simp [filed, Role.all, held, filedAs, NameMap.entries_map, Function.comp_def]

theorem filed_func : (func f).filed = filedAs .param .param f.params := by
  simp [filed, Role.all, held, filedAs, NameMap.entries_map, Function.comp_def]

end

end Node

@[elab_as_elim]
theorem TypeNode.nesting {P : TypeNode → Prop}
    (plain : ∀ record fields nested, (∀ m, nested = some m → ∀ e ∈ m.entries, P e.2) →
      P (.plain record fields nested))
    (com : ∀ face, P (.com face)) (t : TypeNode) : P t := by
  apply TypeNode.rec (motive_1 := P) (motive_2 := fun nested => ∀ m, nested = some m → ∀ e ∈ m.entries, P e.2)
    (motive_3 := fun m => ∀ e ∈ m.entries, P e.2) (motive_4 := fun ts => ∀ t ∈ ts.toList, P t)
    (motive_5 := fun ts => ∀ t ∈ ts, P t)
  · exact plain
  · exact com
  · simp
  · intro m ih _ h
    cases h
    exact ih
  · intro names values ih e he
    exact ih _ (List.of_mem_zip he).2
  · exact fun ts ih => ih
  · simp
  · intro t ts ht hts n hn
    rcases List.mem_cons.1 hn with rfl | hn
    · exact ht
    · exact hts n hn

namespace Node

/-- What holds of a node if it holds of everything filed in it holds of every node. -/
@[elab_as_elim]
theorem filing {P : Node → Prop} (inner : ∀ n, (∀ st c, (st, c) ∈ n.filed → P c) → P n) (n : Node) : P n := by
  have hfield (f : FieldCorrection) : P (.field f) := inner _ fun st c h => by cases h
  have hparam (p : ParamCorrection) : P (.param p) := inner _ fun st c h => by cases h
  have hfunc (f : FuncNode) : P (.func f) := by
    refine inner _ fun st c h => ?_
    rw [filed_func] at h
    obtain ⟨p, _, _, rfl⟩ := mem_filedAs.1 h
    exact hparam p
  have htype (t : TypeNode) : P (.type t) := by
    induction t using TypeNode.nesting with
    | plain record fields nested ih =>
      refine inner _ fun st c h => ?_
      rw [filed_plain, List.mem_append] at h
      cases h with
      | inl h =>
        cases fields with
        | none => cases h
        | some fs =>
          obtain ⟨f, _, _, rfl⟩ := mem_filedAs.1 h
          exact hfield f
      | inr h =>
        cases nested with
        | none => cases h
        | some ts =>
          obtain ⟨t, ht, _, rfl⟩ := mem_filedAs.1 h
          exact ih ts rfl _ ht
    | com face =>
      refine inner _ fun st c h => ?_
      rw [filed_com] at h
      obtain ⟨m, _, _, rfl⟩ := mem_filedAs.1 h
      exact hfunc m
  have hapi (a : ApiNode) : P (.api a) := by
    refine inner _ fun st c h => ?_
    rw [filed_api, List.mem_append] at h
    cases h with
    | inl h =>
      obtain ⟨t, _, _, rfl⟩ := mem_filedAs.1 h
      exact htype t
    | inr h =>
      obtain ⟨f, _, _, rfl⟩ := mem_filedAs.1 h
      exact hfunc f
  cases n with
  | tree t =>
    refine inner _ fun st c h => ?_
    rw [filed_tree] at h
    obtain ⟨a, _, _, rfl⟩ := mem_filedAs.1 h
    exact hapi a
  | api a => exact hapi a
  | type t => exact htype t
  | func f => exact hfunc f
  | field f => exact hfield f
  | param p => exact hparam p

end Node
end Errata
