import Errata.Compile
import Errata.Sheet.Listing
import Errata.Sheet.Violations

/-! Types nested in types: one induction principle, and one equation for each function that recurses through
the nested list. Nothing after this module looks into these recursions. -/
namespace Errata
namespace TypeCorrection

/-- What holds of a type if it holds of the types nested in it holds of every type. -/
@[elab_as_elim]
theorem nesting {P : TypeCorrection → Prop} (inner : ∀ t : TypeCorrection, (∀ n ∈ t.nested.getD [], P n) → P t)
    (t : TypeCorrection) : P t := by
  apply TypeCorrection.rec (motive_1 := P) (motive_2 := fun ts => ∀ n ∈ ts.getD [], P n)
    (motive_3 := fun ts => ∀ n ∈ ts, P n)
  · exact fun api name remove fields nested methods ih => inner ⟨api, name, remove, fields, nested, methods⟩ ih
  · simp
  · exact fun ts ih => ih
  · simp
  · intro t ts ht hts n hn
    rcases List.mem_cons.1 hn with rfl | hn
    · exact ht
    · exact hts n hn

theorem compileEach_eq (scope : String) (ts : List TypeCorrection) :
    compileEach scope ts = ts.map fun t => (t.name, t.compile scope) := by
  induction ts with
  | nil => rfl
  | cons t ts ih => simp [compileEach, ih]

theorem compile_eq (scope : String) (t : TypeCorrection) :
    t.compile scope = t.assemble scope
      (t.nested.map fun ts => ts.map fun n => (n.name, n.compile (within scope t.name))) := by
  obtain ⟨api, name, remove, fields, _ | ts, methods⟩ := t
  · simp [compile]
  · simp [compile, compileEach_eq]

theorem violationsEach_eq (scope : String) (ts : List TypeCorrection) :
    violationsEach scope ts = ts.map fun t => (t.name, t.violations scope) := by
  induction ts with
  | nil => rfl
  | cons t ts ih => simp [violationsEach, ih]

theorem violations_eq (scope : String) (t : TypeCorrection) :
    t.violations scope = t.violationsAround scope
      ((t.nested.getD []).map fun n => (n.name, n.violations (within scope t.name))) := by
  obtain ⟨api, name, remove, fields, _ | ts, methods⟩ := t
  · simp [violations]
  · simp [violations, violationsEach_eq]

theorem listingEach_eq (role : Role) (path : List String) (place : Place) (ts : List TypeCorrection) :
    listingEach role path place ts = ts.flatMap (·.listing role path place) := by
  induction ts with
  | nil => rfl
  | cons t ts ih => simp [listingEach, ih]

theorem listing_eq (role : Role) (path : List String) (place : Place) (t : TypeCorrection) :
    t.listing role path place = t.around (path ++ [t.name]) (place ++ [⟨role, t.name⟩])
      ((t.nested.getD []).flatMap (·.listing .nested (path ++ [t.name]) (place ++ [⟨role, t.name⟩]))) := by
  obtain ⟨api, name, remove, fields, _ | ts, methods⟩ := t
  · simp [listing]
  · simp [listing, listingEach_eq]

end TypeCorrection
end Errata
