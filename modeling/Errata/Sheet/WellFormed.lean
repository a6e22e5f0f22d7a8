import Errata.Sheet.Listing

/-! Well-formed sheets, said without an order: what has to hold of every record at every depth, and of the
names that stand side by side. -/
namespace Errata

structure FuncCorrection.WellFormed (f : FuncCorrection) : Prop where
  named : f.name ≠ ""
  params_named : ∀ p ∈ f.params, p.name ≠ ""
  params_distinct : (f.params.map (·.name)).Nodup

/-- What has to hold of a type, the types nested in it apart. -/
structure TypeCorrection.Sound (t : TypeCorrection) : Prop where
  named : t.name ≠ ""
  unmixed : t.isInterface = true → t.fields = none ∧ t.nested = none
  fields_named : ∀ f ∈ t.fields.getD [], f.name ≠ ""
  fields_distinct : ((t.fields.getD []).map (·.name)).Nodup
  methods : ∀ m ∈ t.methods.getD [], m.WellFormed
  methods_distinct : ((t.methods.getD []).map (·.name)).Nodup
  nested_distinct : ((t.nested.getD []).map (·.name)).Nodup

inductive TypeCorrection.WellFormed : TypeCorrection → Prop where
  | intro (t : TypeCorrection) (sound : t.Sound) (nested : ∀ n ∈ t.nested.getD [], n.WellFormed) :
    t.WellFormed

namespace TypeCorrection.WellFormed
variable {t : TypeCorrection}

theorem sound (h : t.WellFormed) : t.Sound := by
  cases h with
  | intro t sound nested => exact sound

theorem nested (h : t.WellFormed) : ∀ n ∈ t.nested.getD [], n.WellFormed := by
  cases h with
  | intro t sound nested => exact nested

end TypeCorrection.WellFormed

/-- The functions of a module have different names, and so do its types; a function and a type need not. -/
structure Sheet.WellFormed (s : Sheet) : Prop where
  func_modules_named : ∀ f ∈ s.funcs, f.api ≠ ""
  type_modules_named : ∀ t ∈ s.types, t.api ≠ ""
  funcs : ∀ f ∈ s.funcs, f.WellFormed
  types : ∀ t ∈ s.types, t.WellFormed
  funcs_distinct : ∀ api, ((s.funcsOf api).map (·.name)).Nodup
  types_distinct : ∀ api, ((s.typesOf api).map (·.name)).Nodup

end Errata
