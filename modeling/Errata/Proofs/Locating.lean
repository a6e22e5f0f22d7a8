import Errata.Proofs.Walking
import Errata.View

/-! What an address leads to is where the address says: the place of a view is the place in the root of what is
in view, whatever the hops. Main statements: `Node.holds_of_child?`, `View.Located.followAll`. -/
namespace Errata

namespace Node

theorem at?_concat (n : Node) (p : Place) (st : Step) : n.at? (p ++ [st]) = (n.at? p).bind (·.child? st) := by
  simp [at?, List.foldlM_append]

/-- What can be filed in what, and under which role. -/
inductive Holds : Node → Role → Node → Prop where
  | api (t : Tree) (a : ApiNode) : Holds (.tree t) .api (.api a)
  | type (a : ApiNode) (t : TypeNode) : Holds (.api a) .type (.type t)
  | func (a : ApiNode) (f : FuncNode) : Holds (.api a) .func (.func f)
  | field (record : TypeCorrection) (fields : Option (NameMap FieldCorrection)) (nested : Option (NameMap TypeNode))
    (f : FieldCorrection) : Holds (.type (.plain record fields nested)) .field (.field f)
  | nested (record : TypeCorrection) (fields : Option (NameMap FieldCorrection)) (nested : Option (NameMap TypeNode))
    (t : TypeNode) : Holds (.type (.plain record fields nested)) .nested (.type t)
  | method (face : Interface) (m : FuncNode) : Holds (.type (.com face)) .method (.func m)
  | param (f : FuncNode) (p : ParamCorrection) : Holds (.func f) .param (.param p)

theorem holds_of_child? {n c : Node} {role : Role} {name : String} (h : n.child? ⟨role, name⟩ = some c) :
    n.Holds role c := by
  have hfiled {V : Type} {r : Role} {f : V → Node} {m : NameMap V} (hv : ∀ v, n.Holds r (f v))
      (hm : (⟨role, name⟩, c) ∈ filedAs r f m) : n.Holds role c := by
    obtain ⟨v, _, hrole, rfl⟩ := mem_filedAs.1 hm
    cases hrole
    exact hv v
  have hmem := mem_filed.2 h
  cases n with
  | tree t =>
    rw [filed_tree] at hmem
    exact hfiled (.api t) hmem
  | api a =>
    rw [filed_api, List.mem_append] at hmem
    exact hmem.elim (hfiled (.type a)) (hfiled (.func a))
  | type t =>
    cases t with
    | plain record fields nested =>
      rw [filed_plain, List.mem_append] at hmem
      cases hmem with
      | inl hmem =>
        cases fields with
        | none => cases hmem
        | some fs => exact hfiled (.field record (some fs) nested) hmem
      | inr hmem =>
        cases nested with
        | none => cases hmem
        | some ts => exact hfiled (.nested record fields (some ts)) hmem
    | com face =>
      rw [filed_com] at hmem
      exact hfiled (.method face) hmem
  | func f =>
    rw [filed_func] at hmem
    exact hfiled (.param f) hmem
  | field f => cases hmem
  | param p => cases hmem

theorem two_le_of_mem_visits {t : Tree} {v : Visit} (h : v ∈ (tree t).visits []) : 2 ≤ v.place.length := by
  rw [visits_tree] at h
  obtain ⟨⟨role, name⟩, p, c, hplace, hat, hkind, _⟩ := at?_of_mem_below h
  cases p with
  | nil =>
    have hchild : (tree t).child? ⟨role, name⟩ = some c := by simpa [at?] using hat
    cases holds_of_child? hchild
    cases hkind
  | cons st' p => simp [hplace]

end Node

namespace View
variable {root : Node} {v w : View}

theorem followAll_cons (v : View) (hop : Hop) (hops : List Hop) :
    v.followAll (hop :: hops) = v.follow hop >>= (·.followAll hops) := List.foldlM_cons

theorem followAll_append (v : View) (hops more : List Hop) :
    v.followAll (hops ++ more) = v.followAll hops >>= (·.followAll more) := by
  simp [followAll, List.foldlM_append]

/-- What every hop preserves, an address preserves. -/
theorem followAll_preserves {P : View → Prop} {hops : List Hop}
    (step : ∀ hop ∈ hops, ∀ v w, P v → v.follow hop = .ok w → P w) (h : P v) (hf : v.followAll hops = .ok w) : P w := by
  induction hops generalizing v with
  | nil =>
    cases hf
    exact h
  | cons hop hops ih =>
    rw [followAll_cons] at hf
    cases hv : v.follow hop with
    | error halt =>
      rw [hv] at hf
      cases hf
    | ok u =>
      rw [hv] at hf
      have hu : P u := step hop List.mem_cons_self v u h hv
      exact ih (fun hop hhop => step hop (List.mem_cons_of_mem _ hhop)) hu hf

theorem follow_into_eq_ok {role : Role} {name : String} : v.follow (.into role name) = .ok w ↔
    v.offers role = true ∧ v.seek role name (.absent role.shape) = w := by
  cases ho : v.offers role <;> simp [follow, ho]

theorem seek_cases (v : View) (role : Role) (name : String) (default : View) : v.seek role name default = default ∨
    ∃ p m n, v.place? = some p ∧ v.node? = some m ∧ m.child? ⟨v.proper role, name⟩ = some n ∧
      v.seek role name default = .node (p ++ [⟨v.proper role, name⟩]) n := by
  cases hp : v.place? with
  | none => exact .inl (by rw [seek, hp])
  | some p =>
    cases hn : (v.held role).bind (·.find? name) with
    | none => exact .inl (by rw [seek, hp, hn])
    | some n =>
      have hchild : v.node?.bind (·.child? ⟨v.proper role, name⟩) = some n := by
        rw [← hn, held, Option.bind_assoc]
        rfl
      obtain ⟨m, hm, hc⟩ := Option.bind_eq_some_iff.1 hchild
      exact .inr ⟨p, m, n, rfl, hm, hc, by rw [seek, hp, hn]⟩

theorem same_of_widen (h : v.widen = .ok w) : w.place? = v.place? ∧ w.node? = v.node? := by
  unfold widen at h
  split at h <;> cases h
  all_goals exact ⟨rfl, rfl⟩

theorem same_of_plain (h : v.plain = .ok w) : w.place? = v.place? ∧ w.node? = v.node? := by
  unfold plain at h
  split at h <;> cases h
  all_goals exact ⟨rfl, rfl⟩

def Located (root : Node) (v : View) : Prop := ∀ p, v.place? = some p → root.at? p = v.node?

theorem located_root (root : Node) : (View.root root).Located root := by
  intro p hp
  cases hp
  rfl

theorem located_absent (root : Node) (shape : Shape) : (absent shape).Located root := by
  intro p hp
  cases hp

namespace Located

theorem of_same (h : v.Located root) (hw : w.place? = v.place? ∧ w.node? = v.node?) : w.Located root := by
  intro p hp
  rw [hw.2]
  exact h p (hw.1 ▸ hp)

theorem seek (h : v.Located root) (role : Role) (name : String) {default : View} (hd : default.Located root) :
    (v.seek role name default).Located root := by
  rcases seek_cases v role name default with he | ⟨p, m, n, hp, hm, hc, he⟩
  · rw [he]
    exact hd
  · rw [he]
    intro q hq
    cases hq
    rw [Node.at?_concat, h p hp, hm]
    exact hc

theorem follow (h : v.Located root) {hop : Hop} (hf : v.follow hop = .ok w) : w.Located root := by
  cases hop with
  | into role name =>
    obtain ⟨_, rfl⟩ := follow_into_eq_ok.1 hf
    exact h.seek role name (located_absent root role.shape)
  | widen => exact h.of_same (same_of_widen hf)
  | plain => exact h.of_same (same_of_plain hf)
  | sentinel shape =>
    cases hf
    exact located_absent root shape

theorem followAll (h : v.Located root) {hops : List Hop} (hf : v.followAll hops = .ok w) : w.Located root :=
  followAll_preserves (fun _ _ _ _ hu hw => Located.follow hu hw) h hf

end Located
end View
end Errata
