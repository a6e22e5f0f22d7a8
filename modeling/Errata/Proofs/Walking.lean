import Errata.Proofs.Filing
import Errata.Traversal

/-! What a walk reports: the visits below a node, whatever was visited before. Main statements: `Node.walk_eq`,
`below_eq`, `below_under`. -/
namespace Errata
namespace Trail

def add (t : Trail) (vs : List Visit) : Trail := { t with visits := t.visits ++ vs.toArray }

@[simp] theorem path_add (t : Trail) (vs : List Visit) : (t.add vs).path = t.path := rfl

@[simp] theorem add_nil (t : Trail) : t.add [] = t := by
  simp [add]

@[simp] theorem add_add (t : Trail) (vs ws : List Visit) : (t.add vs).add ws = t.add (vs ++ ws) := by
  simp [add]

theorem leave_add (t : Trail) (vs : List Visit) : (t.add vs).leave = t.leave.add vs := rfl

theorem leave_enter (t : Trail) (place : Place) (kind : Kind) (record : Correction) :
    (t.enter place kind record).leave = t.add [⟨t.path.toList ++ [record.name], place, kind, record⟩] := by
  simp [enter, leave, add]

/-- Steps that only add visits, told by the path alone, add up. -/
theorem foldl_add {α : Type} (xs : List α) (f : Trail → α → Trail) (found : α → List String → List Visit) (t : Trail)
    (h : ∀ x ∈ xs, ∀ t, f t x = t.add (found x t.path.toList)) :
    xs.foldl f t = t.add (xs.flatMap (found · t.path.toList)) := by
  induction xs generalizing t with
  | nil => simp
  | cons x xs ih =>
    have hx := h x List.mem_cons_self t
    have hxs := ih (t.add (found x t.path.toList)) fun y hy => h y (List.mem_cons_of_mem x hy)
    rw [List.foldl_cons, hx, hxs]
    simp

end Trail

namespace Node

/-- The kind of a node that is visited: everything but a tree and a module. -/
def kind? : Node → Option Kind
  | .tree _ | .api _ => none
  | .type t => some t.kind
  | .func _ => some .func
  | .field _ => some .field
  | .param _ => some .param

theorem exists_kind {n : Node} {record : Correction} (h : n.record? = some record) : ∃ kind, n.kind? = some kind := by
  cases n with
  | tree t => cases h
  | api a => cases h
  | type t => exact ⟨_, rfl⟩
  | func f => exact ⟨_, rfl⟩
  | field f => exact ⟨_, rfl⟩
  | param p => exact ⟨_, rfl⟩

/-- What a walk does about one node that is filed under a key. -/
def enter (c : Node) (place : Place) (key : String) (t : Trail) : Trail :=
  match c.kind?, c.record? with
  | some kind, some record => t.visit place kind record (c.walk place)
  | _, _ => (c.walk place { t with path := t.path.push key }).leave

def enterAll (place : Place) (es : List (Step × Node)) (t : Trail) : Trail :=
  es.foldl (fun t e => e.2.enter (place ++ [e.1]) e.1.name t) t

theorem enterAll_append (place : Place) (es fs : List (Step × Node)) (t : Trail) :
    enterAll place (es ++ fs) t = enterAll place fs (enterAll place es t) := List.foldl_append

theorem walkEach_types (m : NameMap TypeNode) (role : Role) (place : Place) (t : Trail) :
    TypeNode.walkEach m.keys m.values.toList role place t = enterAll place (filedAs role .type m) t := by
  have hlists (keys : List String) (ts : List TypeNode) : TypeNode.walkEach keys ts role place t =
      enterAll place ((keys.zip ts).map fun e => (⟨role, e.1⟩, .type e.2)) t := by
    induction keys generalizing ts t with
    | nil => cases ts <;> rfl
    | cons key keys ih =>
      cases ts with
      | nil => rfl
      | cons n ts =>
        rw [TypeNode.walkEach, ih]
        rfl
  exact hlists m.keys m.values.toList

theorem walkEach_funcs (m : NameMap FuncNode) (role : Role) (place : Place) (t : Trail) :
    FuncNode.walkEach role place m t = enterAll place (filedAs role .func m) t := by
  rw [enterAll, filedAs, List.foldl_map]
  rfl

theorem walkEach_fields (fields : Option (NameMap FieldCorrection)) (place : Place) (t : Trail) :
    FieldCorrection.walkEach place fields t = enterAll place (fields.elim [] (filedAs .field .field)) t := by
  cases fields with
  | none => rfl
  | some m =>
    simp only [Option.elim_some, enterAll, filedAs, List.foldl_map]
    rfl

theorem walk_eq_enterAll (n : Node) (place : Place) (t : Trail) : n.walk place t = enterAll place n.filed t := by
  cases n with
  | tree tree =>
    rw [filed_tree, enterAll, filedAs, List.foldl_map]
    rfl
  | api a =>
    rw [filed_api, enterAll_append, ← walkEach_types, ← walkEach_funcs]
    rfl
  | type n =>
    cases n with
    | plain record fields nested =>
      rw [filed_plain, enterAll_append, ← walkEach_fields]
      cases nested with
      | none => rfl
      | some m =>
        rw [Option.elim_some, ← walkEach_types]
        rfl
    | com face =>
      rw [filed_com, ← walkEach_funcs]
      rfl
  | func f =>
    rw [filed_func, enterAll, filedAs, List.foldl_map]
    rfl
  | field f => rfl
  | param p => rfl

/-- The visits of a walk that starts with nothing visited. `below_eq` says what they are without a walk. -/
def below (n : Node) (place : Place) (path : List String) : List Visit :=
  (n.walk place { path := path.toArray }).visits.toList

def own (n : Node) (place : Place) (path : List String) : List Visit :=
  match n.kind?, n.record? with
  | some kind, some record => [⟨path, place, kind, record⟩]
  | _, _ => []

/-- The name that a node adds to the path. A module adds the key that it is filed under. -/
def segment (n : Node) (key : String) : String := (n.record?.map Correction.name).getD key

def found (place : Place) (e : Step × Node) (path : List String) : List Visit :=
  let place := place ++ [e.1]
  let path := path ++ [e.2.segment e.1.name]
  e.2.own place path ++ e.2.below place path

theorem enter_eq {c : Node} (hc : ∀ place t, c.walk place t = t.add (c.below place t.path.toList)) (place : Place)
    (st : Step) (t : Trail) : c.enter (place ++ [st]) st.name t = t.add (found place (st, c) t.path.toList) := by
  have hvisit (kind : Kind) (record : Correction) (hk : c.kind? = some kind) (hr : c.record? = some record) :
      c.enter (place ++ [st]) st.name t = t.add (found place (st, c) t.path.toList) := by
    have hpath : (t.enter (place ++ [st]) kind record).path.toList = t.path.toList ++ [record.name] := by
      simp [Trail.enter]
    simp only [enter, found, own, segment, hk, hr, Trail.visit, hc, hpath, Trail.leave_add, Trail.leave_enter,
      Trail.add_add, Option.map_some, Option.getD_some]
  have hpass (hr : c.record? = none) :
      c.enter (place ++ [st]) st.name t = t.add (found place (st, c) t.path.toList) := by
    have hleave : ({ t with path := t.path.push st.name } : Trail).leave = t := by
      simp [Trail.leave]
    have henter : c.enter (place ++ [st]) st.name t =
        (c.walk (place ++ [st]) { t with path := t.path.push st.name }).leave := by
      cases hk : c.kind? <;> simp [enter, hk, hr]
    have hfound : found place (st, c) t.path.toList = c.below (place ++ [st]) (t.path.toList ++ [st.name]) := by
      cases hk : c.kind? <;> simp [found, own, segment, hk, hr]
    rw [henter, hfound, hc, Trail.leave_add, hleave, Array.toList_push]
  cases c with
  | tree tree => exact hpass rfl
  | api a => exact hpass rfl
  | type n => exact hvisit _ _ rfl rfl
  | func f => exact hvisit _ _ rfl rfl
  | field f => exact hvisit _ _ rfl rfl
  | param p => exact hvisit _ _ rfl rfl

theorem walk_eq_found {n : Node}
    (hn : ∀ e ∈ n.filed, ∀ place t, e.2.walk place t = t.add (e.2.below place t.path.toList)) (place : Place)
    (t : Trail) : n.walk place t = t.add (n.filed.flatMap (found place · t.path.toList)) := by
  rw [walk_eq_enterAll, enterAll]
  exact Trail.foldl_add n.filed _ (found place) t fun e he t => enter_eq (hn e he) place e.1 t

/-- A walk leaves the path as it was, and adds the same visits whatever was visited before. -/
theorem walk_eq (n : Node) (place : Place) (t : Trail) : n.walk place t = t.add (n.below place t.path.toList) := by
  induction n using filing generalizing place t with
  | inner n ih =>
    have hwalk := walk_eq_found (n := n) fun e he => ih e.1 e.2 he
    rw [below, hwalk, hwalk]
    simp [Trail.add]

theorem below_eq (n : Node) (place : Place) (path : List String) :
    n.below place path = n.filed.flatMap (found place · path) := by
  rw [below, walk_eq_found fun e _ => e.2.walk_eq]
  simp [Trail.add]

theorem below_under (n : Node) (place : Place) (name : String) (path : List String) :
    n.below place (name :: path) = (n.below place path).map (·.under name) := by
  induction n using filing generalizing place path with
  | inner n ih =>
    rw [below_eq, below_eq, List.map_flatMap]
    apply List.flatMap_congr
    intro e hc
    obtain ⟨st, c⟩ := e
    have hown : c.own (place ++ [st]) (name :: (path ++ [c.segment st.name])) =
        (c.own (place ++ [st]) (path ++ [c.segment st.name])).map (·.under name) := by
      cases c <;> rfl
    rw [found, found, List.map_append, List.cons_append, ih st c hc, hown]

theorem visits_eq (n : Node) (place : Place) :
    n.visits place = n.below place (if n.name.isEmpty then [] else [n.name]) := by
  rw [visits, below]
  cases n.name.isEmpty <;> rfl

theorem visits_tree (t : Tree) : (tree t).visits [] = (tree t).below [] [] := visits_eq _ _

theorem at?_cons (n : Node) (st : Step) (p : Place) : n.at? (st :: p) = (n.child? st).bind (·.at? p) := rfl

theorem mem_own {n : Node} {place : Place} {path : List String} {v : Visit} :
    v ∈ n.own place path ↔ v.path = path ∧ v.place = place ∧ n.kind? = some v.kind ∧ n.record? = some v.record := by
  obtain ⟨path', place', kind, record⟩ := v
  unfold own
  cases n.kind? <;> cases n.record? <;> simp [eq_comm]

theorem at?_of_mem_below {n : Node} {place : Place} {path : List String} {v : Visit} (h : v ∈ n.below place path) :
    ∃ st p c, v.place = place ++ st :: p ∧ n.at? (st :: p) = some c ∧ c.kind? = some v.kind ∧
      c.record? = some v.record := by
  induction n using filing generalizing place path with
  | inner n ih =>
    rw [below_eq] at h
    obtain ⟨⟨st, c⟩, hc, hv⟩ := List.mem_flatMap.1 h
    have hchild : n.child? st = some c := mem_filed.1 hc
    cases List.mem_append.1 hv with
    | inl hv =>
      obtain ⟨_, hplace, hkind, hrecord⟩ := mem_own.1 hv
      exact ⟨st, [], c, hplace, by rw [at?_cons, hchild]; rfl, hkind, hrecord⟩
    | inr hv =>
      obtain ⟨st', p, d, hplace, hat, hd⟩ := ih st c hc hv
      refine ⟨st, st' :: p, d, by simpa using hplace, ?_, hd⟩
      rw [at?_cons, hchild]
      exact hat

theorem exists_mem_below {n c : Node} {st : Step} {p : Place} {kind : Kind} {record : Correction}
    (hat : n.at? (st :: p) = some c) (hk : c.kind? = some kind) (hr : c.record? = some record) (place : Place)
    (path : List String) :
    ∃ v ∈ n.below place path, v.place = place ++ st :: p ∧ v.kind = kind ∧ v.record = record := by
  induction p generalizing n st place path with
  | nil =>
    obtain ⟨d, hd, hdc⟩ := Option.bind_eq_some_iff.1 hat
    have hsame : d = c := Option.some.inj hdc
    subst hsame
    let v : Visit := ⟨path ++ [d.segment st.name], place ++ [st], kind, record⟩
    have hv : v ∈ found place (st, d) path := List.mem_append_left _ (mem_own.2 ⟨rfl, rfl, hk, hr⟩)
    refine ⟨v, ?_, rfl, rfl, rfl⟩
    rw [below_eq]
    exact List.mem_flatMap.2 ⟨(st, d), mem_filed.2 hd, hv⟩
  | cons st' p ih =>
    obtain ⟨d, hd, hat⟩ := Option.bind_eq_some_iff.1 hat
    obtain ⟨v, hv, hplace, hrest⟩ := ih hat (place ++ [st]) (path ++ [d.segment st.name])
    refine ⟨v, ?_, by simpa using hplace, hrest⟩
    rw [below_eq]
    exact List.mem_flatMap.2 ⟨(st, d), mem_filed.2 hd, List.mem_append_right _ hv⟩

theorem place_of_mem_found {place : Place} {e : Step × Node} {path : List String} {v : Visit}
    (h : v ∈ found place e path) : ∃ p, v.place = place ++ e.1 :: p := by
  cases List.mem_append.1 h with
  | inl hv => exact ⟨[], (mem_own.1 hv).2.1⟩
  | inr hv =>
    obtain ⟨st, p, _, hplace, _⟩ := at?_of_mem_below hv
    exact ⟨st :: p, by simpa using hplace⟩

theorem nodup_below (n : Node) (place : Place) (path : List String) :
    ((n.below place path).map Visit.place).Nodup := by
  induction n using filing generalizing place path with
  | inner n ih =>
    rw [below_eq, List.map_flatMap, List.nodup_flatMap]
    constructor
    · intro e hc
      obtain ⟨st, c⟩ := e
      have hown : ((c.own (place ++ [st]) (path ++ [c.segment st.name])).map Visit.place).Nodup := by
        cases c <;> simp [own, kind?, record?]
      rw [found, List.map_append, List.nodup_append]
      refine ⟨hown, ih st c hc _ _, ?_⟩
      intro a ha b hb hab
      obtain ⟨v, hv, rfl⟩ := List.mem_map.1 ha
      obtain ⟨w, hw, rfl⟩ := List.mem_map.1 hb
      obtain ⟨_, _, _, hplace, _⟩ := at?_of_mem_below hw
      rw [(mem_own.1 hv).2.1, hplace] at hab
      simp at hab
    · have hsteps : n.filed.Pairwise fun a b => a.1 ≠ b.1 := List.pairwise_map.1 n.nodup_filed
      refine hsteps.imp fun {a b} hab => ?_
      intro q ha hb
      obtain ⟨v, hv, rfl⟩ := List.mem_map.1 ha
      obtain ⟨w, hw, hwv⟩ := List.mem_map.1 hb
      obtain ⟨p, hp⟩ := place_of_mem_found hv
      obtain ⟨q, hq⟩ := place_of_mem_found hw
      rw [hp, hq] at hwv
      simp at hwv
      exact hab hwv.1.symm

theorem nodup_visits (n : Node) (place : Place) : ((n.visits place).map Visit.place).Nodup := by
  rw [visits_eq]
  exact nodup_below ..

theorem mem_visits_iff {t : Tree} {p : Place} {kind : Kind} {record : Correction} :
    (∃ v ∈ (tree t).visits [], v.place = p ∧ v.kind = kind ∧ v.record = record) ↔
      ∃ n, (tree t).at? p = some n ∧ n.kind? = some kind ∧ n.record? = some record := by
  rw [visits_tree]
  constructor
  · intro h
    obtain ⟨v, hv, rfl, rfl, rfl⟩ := h
    obtain ⟨st, q, n, hplace, hat, hkind, hrecord⟩ := at?_of_mem_below hv
    rw [hplace]
    exact ⟨n, hat, hkind, hrecord⟩
  · intro h
    obtain ⟨n, hat, hkind, hrecord⟩ := h
    cases p with
    | nil =>
      cases hat
      cases hkind
    | cons st p => exact exists_mem_below hat hkind hrecord [] []

end Node
end Errata
