import Errata.Proofs.Reassembling
import Errata.Proofs.Widening

/-! Maps of one's own, and the empty map that all share who have none. A compiled type has a map for each list that its
record declares, be it an empty one, and shares every other; a compiled function always has one, also without parameters.
Main statements: `Sheet.shares_at_image`, `Sheet.shares_exact`. -/
namespace Errata

/-- What is handed out under a role is no map of one's own, but the empty map of the kind that everyone shares. -/
def View.Shares (v : View) (role : Role) : Prop := v.held role = none

namespace View

theorem held_node (p : Place) (n : Node) (role : Role) : (node p n).held role = n.held role := by
  have hshape : (node p n).shape? ≠ some .com := by
    cases n <;> simp [shape?, Node.shape?]
  have hproper : (node p n).proper role = role := if_neg fun h => hshape h.1
  rw [held, hproper]
  rfl

theorem shares_of_widen {p : Place} {n : TypeNode} {w : View} (h : (node p (.type n)).widen = .ok w) :
    w.Shares .field ∧ w.Shares .nested ∧ ¬w.Shares .method ∧ ¬(node p (.type n)).Shares .method := by
  obtain ⟨hfield, hnested⟩ := held_of_com (shape?_of_widen rfl h)
  cases n with
  | plain record fields nested => cases h
  | com face =>
    cases h
    exact ⟨hfield, hnested, Option.some_ne_none _, Option.some_ne_none _⟩

end View

namespace Sheet
variable {s : Sheet}

theorem shares_at_image (hs : s.WellFormed) {p : Place} {n : Node} {c : Correction}
    (hat : (Node.tree s.image).at? p = some n) (hr : n.record? = some c) (role : Role) :
    (View.node p n).Shares role ↔ c.inside? role = none := by
  obtain ⟨_, hc, rfl⟩ := node_at_image hs hat hr
  rw [View.Shares, View.held_node, Correction.held_node hc]
  exact Option.map_eq_none_iff

theorem keys_at_image (hs : s.WellFormed) {p : Place} {n : Node} {c : Correction}
    (hat : (Node.tree s.image).at? p = some n) (hr : n.record? = some c) (role : Role) :
    ((View.node p n).held role).map NameMap.keys = (c.inside? role).map (·.map Correction.name) := by
  obtain ⟨_, hc, rfl⟩ := node_at_image hs hat hr
  rw [View.held_node]
  exact (held_record hc role).1

/-- A type shares the maps that its record does not declare, and a function shares none. -/
theorem shares_exact {t : Tree} (h : s.compile.result = .ok t) :
    (∀ p n, (Node.tree t).at? p = some (.type n) →
      let v := View.node p (.type n)
      (v.Shares .field ↔ n.record.fields = none) ∧ (v.Shares .nested ↔ n.record.nested = none) ∧
      (v.Shares .method ↔ n.record.methods = none) ∧
      ∀ w, v.widen = .ok w →
        n.record.methods ≠ none ∧ ¬w.Shares .method ∧ w.Shares .field ∧ w.Shares .nested) ∧
    ∀ p f, (Node.tree t).at? p = some (.func f) →
      let v := View.node p (.func f)
      ¬v.Shares .param ∧ (v.map .param).keys = f.record.params.map (·.name) := by
  obtain ⟨hs, rfl⟩ := compile_eq_ok.1 h
  constructor
  · intro p n hat v
    have hshares := shares_at_image hs hat rfl
    have hmethod : v.Shares .method ↔ n.record.methods = none := (hshares .method).trans Option.map_eq_none_iff
    refine ⟨(hshares .field).trans Option.map_eq_none_iff, (hshares .nested).trans Option.map_eq_none_iff, hmethod, ?_⟩
    intro w hw
    obtain ⟨hfield, hnested, hown, hdeclared⟩ := View.shares_of_widen hw
    exact ⟨fun hm => hdeclared (hmethod.2 hm), hown, hfield, hnested⟩
  · intro p f hat v
    have hkeys : (v.held .param).map NameMap.keys = some (f.record.params.map (·.name)) := by
      simpa [Correction.inside?, Function.comp_def, Correction.name] using keys_at_image hs hat rfl .param
    obtain ⟨m, hm, hnames⟩ := Option.map_eq_some_iff.1 hkeys
    refine ⟨?_, ?_⟩
    · rw [View.Shares, hm]
      exact Option.some_ne_none m
    · rw [View.map, hm]
      exact hnames

def sparse : Sheet where
  funcs := [{ api := "A", name := "f" }]
  types := [{ api := "A", name := "T", fields := some [] }, { api := "A", name := "I", methods := some [{ name := "m" }] }]

theorem shares_exact_sparse : ∃ t n f m, sparse.compile.result = .ok t ∧
    (Node.tree t).at? [⟨.api, "A"⟩, ⟨.type, "T"⟩] = some (.type n) ∧
    ¬(View.node [⟨.api, "A"⟩, ⟨.type, "T"⟩] (.type n)).Shares .field ∧
    (View.node [⟨.api, "A"⟩, ⟨.type, "T"⟩] (.type n)).Shares .nested ∧
    (Node.tree t).at? [⟨.api, "A"⟩, ⟨.func, "f"⟩] = some (.func f) ∧
    ¬(View.node [⟨.api, "A"⟩, ⟨.func, "f"⟩] (.func f)).Shares .param ∧ f.record.params = [] ∧
    (Node.tree t).at? [⟨.api, "A"⟩, ⟨.type, "I"⟩, ⟨.method, "m"⟩] = some (.func m) ∧
    ¬(View.node [⟨.api, "A"⟩, ⟨.type, "I"⟩, ⟨.method, "m"⟩] (.func m)).Shares .param ∧ m.record.params = [] := by
  have hw : sparse.WellFormed := by decide
  have hc := compile_eq_ok.2 ⟨hw, rfl⟩
  obtain ⟨htypes, hfuncs⟩ := shares_exact hc
  let plain : TypeCorrection := { api := "A", name := "T", fields := some [] }
  let free : FuncCorrection := { api := "A", name := "f" }
  let method : FuncCorrection := { name := "m" }
  have hplain : (Node.tree sparse.image).at? [⟨.api, "A"⟩, ⟨.type, "T"⟩] = some (.type plain.node) :=
    at?_image hw "A" ⟨.type, "T"⟩ []
  have hfree : (Node.tree sparse.image).at? [⟨.api, "A"⟩, ⟨.func, "f"⟩] = some (.func free.node) :=
    at?_image hw "A" ⟨.func, "f"⟩ []
  have hmethod : (Node.tree sparse.image).at? [⟨.api, "A"⟩, ⟨.type, "I"⟩, ⟨.method, "m"⟩] = some (.func method.node) :=
    at?_image hw "A" ⟨.type, "I"⟩ [⟨.method, "m"⟩]
  obtain ⟨hfield, hnested, _, _⟩ := htypes _ _ hplain
  rw [plain.record_node] at hfield hnested
  refine ⟨_, _, _, _, hc, hplain, fun hshared => ?_, hnested.2 rfl, hfree, (hfuncs _ _ hfree).1, rfl, hmethod,
    (hfuncs _ _ hmethod).1, rfl⟩
  cases hfield.1 hshared

end Sheet
end Errata
