import Errata.Proofs.Image
import Errata.Proofs.Widening

/-! The order of a walk over nodes of any make: a node may be filed under a key that is not its name, and a name may be
empty. What a walk visits, in which order and under which path is told by the places alone. Main statements:
`Node.pairwise_below`, `Node.mem_below_iff`, `Node.walk_exact`. -/
namespace Errata
universe u

theorem not_sublist_swap {α : Type u} {xs : List α} (hxs : xs.Nodup) {a b : α} (h : [a, b].Sublist xs) :
    ¬[b, a].Sublist xs := by
  induction xs with
  | nil => cases h
  | cons x xs ih =>
    obtain ⟨hx, hxs⟩ := List.nodup_cons.1 hxs
    intro hswap
    cases h with
    | cons _ h =>
      cases hswap with
      | cons _ hswap => exact ih hxs h hswap
      | cons_cons _ hswap => exact hx (h.subset (by simp))
    | cons_cons _ h =>
      cases hswap with
      | cons _ hswap => exact hx (hswap.subset (by simp))
      | cons_cons _ hswap => exact hx (h.subset (by simp))

theorem lt_iff_of_pairwise {α : Type u} {R : α → α → Prop} {xs : List α} (hxs : xs.Pairwise R)
    (hR : ∀ a b, R a b → ¬R b a) {i j : Nat} {a b : α} (hi : xs[i]? = some a) (hj : xs[j]? = some b) :
    i < j ↔ R a b := by
  have hlt {i j : Nat} {a b : α} (hi : xs[i]? = some a) (hj : xs[j]? = some b) (hij : i < j) : R a b := by
    obtain ⟨hilt, rfl⟩ := List.getElem?_eq_some_iff.1 hi
    obtain ⟨hjlt, rfl⟩ := List.getElem?_eq_some_iff.1 hj
    exact List.pairwise_iff_getElem.1 hxs i j hilt hjlt hij
  refine ⟨hlt hi hj, fun hab => ?_⟩
  obtain hij | rfl | hji := Nat.lt_trichotomy i j
  · exact hij
  · obtain rfl : a = b := Option.some.inj (hi.symm.trans hj)
    exact absurd hab (hR a a hab)
  · exact absurd (hlt hj hi hji) (hR a b hab)

namespace Node

/-- The names down to a place, as the records say them. A module has no record and goes by the key it is filed under. -/
def namesTo (n : Node) : Place → List String
  | [] => []
  | st :: p => (n.child? st).elim [] fun c => c.segment st.name :: c.namesTo p

/-- What stands before what below a node: everything before what is below it, and where two places part, the one that
is filed first goes first with all that is below it. -/
inductive Precedes : Node → Place → Place → Prop where
  | above (n : Node) (st : Step) (p : Place) : Precedes n [] (st :: p)
  | aside {n : Node} {a b : Step} (h : [a, b].Sublist (n.filed.map Prod.fst)) (p q : Place) :
    Precedes n (a :: p) (b :: q)
  | within {n c : Node} {st : Step} {p q : Place} (hc : n.child? st = some c) (h : Precedes c p q) :
    Precedes n (st :: p) (st :: q)

theorem Precedes.asymm {n : Node} {p q : Place} (h : n.Precedes p q) : ¬n.Precedes q p := by
  induction h with
  | above n st p =>
    intro hback
    cases hback
  | aside h p q =>
    intro hback
    cases hback with
    | aside hswap => exact not_sublist_swap (nodup_filed _) h hswap
    | within => exact not_sublist_swap (nodup_filed _) h h
  | within hc h ih =>
    intro hback
    cases hback with
    | aside hswap => exact not_sublist_swap (nodup_filed _) hswap hswap
    | within hd hback =>
      obtain rfl := Option.some.inj (hc.symm.trans hd)
      exact ih hback

theorem pairwise_below (n : Node) (place : Place) (path : List String) :
    ((n.below place path).map Visit.place).Pairwise fun a b =>
      ∃ p q, a = place ++ p ∧ b = place ++ q ∧ n.Precedes p q := by
  induction n using filing generalizing place path with
  | inner n ih =>
    rw [below_eq, List.map_flatMap, List.pairwise_flatMap]
    constructor
    · intro e he
      obtain ⟨st, c⟩ := e
      have hc : n.child? st = some c := mem_filed.1 he
      rw [found, List.map_append, List.pairwise_append]
      refine ⟨?_, ?_, ?_⟩
      · cases c <;> simp [own, kind?, record?]
      · refine (ih st c he _ _).imp fun hab => ?_
        obtain ⟨p, q, rfl, rfl, hpq⟩ := hab
        exact ⟨st :: p, st :: q, by simp, by simp, .within hc hpq⟩
      · intro a ha b hb
        obtain ⟨v, hv, rfl⟩ := List.mem_map.1 ha
        obtain ⟨w, hw, rfl⟩ := List.mem_map.1 hb
        obtain ⟨st', p, _, hplace, _⟩ := at?_of_mem_below hw
        exact ⟨[st], st :: st' :: p, (mem_own.1 hv).2.1, by simpa using hplace, .within hc (.above c st' p)⟩
    · refine List.pairwise_iff_forall_sublist.2 fun {a b} hab x hx y hy => ?_
      obtain ⟨v, hv, rfl⟩ := List.mem_map.1 hx
      obtain ⟨w, hw, rfl⟩ := List.mem_map.1 hy
      obtain ⟨p, hp⟩ := place_of_mem_found hv
      obtain ⟨q, hq⟩ := place_of_mem_found hw
      exact ⟨_, _, hp, hq, .aside (hab.map Prod.fst) p q⟩

theorem path_of_mem_below {n : Node} {place p : Place} {path : List String} {v : Visit} (h : v ∈ n.below place path)
    (hp : v.place = place ++ p) : v.path = path ++ n.namesTo p := by
  induction n using filing generalizing place path p with
  | inner n ih =>
    rw [below_eq] at h
    obtain ⟨⟨st, c⟩, he, hv⟩ := List.mem_flatMap.1 h
    have hc : n.child? st = some c := mem_filed.1 he
    cases List.mem_append.1 hv with
    | inl hv =>
      obtain ⟨hpath, hplace, _⟩ := mem_own.1 hv
      obtain rfl : p = [st] := List.append_cancel_left (hp.symm.trans hplace)
      simp [hpath, namesTo, hc]
    | inr hv =>
      obtain ⟨st', q, _, hplace, _⟩ := at?_of_mem_below hv
      obtain rfl : p = st :: st' :: q := List.append_cancel_left (hp.symm.trans (by simpa using hplace))
      have hnames : n.namesTo (st :: st' :: q) = c.segment st.name :: c.namesTo (st' :: q) := by
        rw [namesTo, hc, Option.elim_some]
      rw [ih st c he hv hplace, hnames, List.append_assoc, List.singleton_append]

theorem mem_below_iff {n : Node} {place : Place} {path : List String} {v : Visit} :
    v ∈ n.below place path ↔ ∃ st p c, n.at? (st :: p) = some c ∧ c.kind? = some v.kind ∧ c.record? = some v.record ∧
      v.place = place ++ st :: p ∧ v.path = path ++ n.namesTo (st :: p) := by
  constructor
  · intro h
    obtain ⟨st, p, c, hplace, hat, hkind, hrecord⟩ := at?_of_mem_below h
    exact ⟨st, p, c, hat, hkind, hrecord, hplace, path_of_mem_below h hplace⟩
  · intro h
    obtain ⟨st, p, c, hat, hkind, hrecord, hplace, hpath⟩ := h
    obtain ⟨w, hw, hwplace, hwkind, hwrecord⟩ := exists_mem_below hat hkind hrecord place path
    have hwpath := path_of_mem_below hw hwplace
    obtain rfl : v = w := by
      cases v
      cases w
      simp_all
    exact hw

theorem visited_of_at? {n c : Node} {st : Step} {p : Place} (hn : n.shape? ≠ none) (hat : n.at? (st :: p) = some c)
    (place : Place) (path : List String) : ∃ v ∈ n.below place path, v.place = place ++ st :: p := by
  obtain ⟨role, name⟩ := st
  obtain ⟨d, hd, hat'⟩ := Option.bind_eq_some_iff.1 hat
  have hrecord : d.record? ≠ none := by
    cases holds_of_child? hd with
    | api t a => exact absurd rfl hn
    | type | func | field | nested | method | param => exact Option.some_ne_none _
  obtain ⟨record, hr⟩ := Option.ne_none_iff_exists'.1 (record?_ne_none_of_at? hrecord hat')
  obtain ⟨kind, hk⟩ := exists_kind hr
  obtain ⟨v, hv, hplace, _⟩ := exists_mem_below hat hk hr place path
  exact ⟨v, hv, hplace⟩

theorem below_append (n : Node) (place : Place) (start path : List String) :
    n.below place (start ++ path) = (n.below place path).map fun v => { v with path := start ++ v.path } := by
  induction start with
  | nil => simp
  | cons name start ih =>
    rw [List.cons_append, below_under, ih, List.map_map]
    rfl

/-- A walk comes back to the path that it started with, and visits what is below the node once and in order. -/
theorem walk_exact (n : Node) (place : Place) (start : List String) :
    let walk := (View.node place n).walk
    let visits := (walk start).visits.toList
    (walk start).path.toList = start ∧
    (∀ v, v ∈ visits ↔ ∃ st p c, n.at? (st :: p) = some c ∧ c.kind? = some v.kind ∧ c.record? = some v.record ∧
      v.place = place ++ st :: p ∧ v.path = start ++ n.namesTo (st :: p)) ∧
    (n.shape? ≠ none → ∀ st p c, n.at? (st :: p) = some c → ∃ v ∈ visits, v.place = place ++ st :: p) ∧
    (visits.map Visit.place).Nodup ∧
    (∀ (i j : Nat) (p q : Place), (visits.map Visit.place)[i]? = some (place ++ p) →
      (visits.map Visit.place)[j]? = some (place ++ q) → (i < j ↔ n.Precedes p q)) ∧
    visits = (walk []).visits.toList.map (fun v => { v with path := start ++ v.path }) ∧
    (View.node place n).visits = (walk (if n.name.isEmpty then [] else [n.name])).visits.toList := by
  intro walk visits
  have hvisits : visits = n.below place start := rfl
  have hpath : (walk start).path = start.toArray := congrArg Trail.path (n.walk_eq place { path := start.toArray })
  have hstart : n.below place start = (n.below place []).map fun v => { v with path := start ++ v.path } := by
    simpa using n.below_append place start []
  refine ⟨by rw [hpath], fun v => mem_below_iff, ?_, n.nodup_below place start, ?_, hstart, n.visits_eq place⟩
  · intro hn st p c hat
    exact visited_of_at? hn hat place start
  · intro i j p q hi hj
    have hasymm (a b : Place) : (∃ p q, a = place ++ p ∧ b = place ++ q ∧ n.Precedes p q) →
        ¬∃ p q, b = place ++ p ∧ a = place ++ q ∧ n.Precedes p q := by
      intro hab hba
      obtain ⟨p, q, rfl, rfl, h⟩ := hab
      obtain ⟨q', p', hq, hp, hback⟩ := hba
      obtain rfl := List.append_cancel_left hq
      obtain rfl := List.append_cancel_left hp
      exact h.asymm hback
    rw [lt_iff_of_pairwise (n.pairwise_below place start) hasymm hi hj]
    constructor
    · intro hpq
      obtain ⟨p', q', hp, hq, h⟩ := hpq
      obtain rfl := List.append_cancel_left hp
      obtain rfl := List.append_cancel_left hq
      exact h
    · exact fun h => ⟨p, q, rfl, rfl, h⟩

/-- A type without a name, whose fields, nested type and method are filed under keys of their own. -/
def misfiled : Node :=
  .type (.plain {} (some (.ofList [("x", { name := "X" }), ("y", {})]))
    (some (.ofList [("x", .com ⟨{ name := "I" }, .ofList [("m", ⟨{ name := "M" }, .empty⟩)]⟩)])))

theorem walk_exact_misfiled :
    let walk := (View.node [] misfiled).walk
    (walk ["s"]).path.toList = ["s"] ∧
    (walk ["s"]).visits.toList.map Visit.path = [["s", "X"], ["s", ""], ["s", "I"], ["s", "I", "M"]] ∧
    (∃ v ∈ (walk ["s"]).visits.toList, v.place = [⟨.nested, "x"⟩, ⟨.method, "m"⟩]) ∧
    misfiled.Precedes [⟨.field, "y"⟩] [⟨.nested, "x"⟩, ⟨.method, "m"⟩] ∧
    (View.node [] misfiled).visits = (walk []).visits.toList := by
  intro walk
  obtain ⟨hpath, _, hall, _, horder, hstart, hnamed⟩ := misfiled.walk_exact [] ["s"]
  have hplaces : (walk ["s"]).visits.toList.map Visit.place =
      [[⟨.field, "x"⟩], [⟨.field, "y"⟩], [⟨.nested, "x"⟩], [⟨.nested, "x"⟩, ⟨.method, "m"⟩]] := by decide +kernel
  refine ⟨hpath, by decide +kernel, ?_, ?_, hnamed⟩
  · have hat : (misfiled.at? [⟨.nested, "x"⟩, ⟨.method, "m"⟩]).isSome = true := by decide +kernel
    obtain ⟨c, hc⟩ := Option.isSome_iff_exists.1 hat
    exact hall (by decide) _ _ c hc
  · exact (horder 1 3 _ _ (by rw [hplaces]; rfl) (by rw [hplaces]; rfl)).1 (by decide)

end Node
end Errata
