import Errata.Authoring.Slots
import Errata.Proofs.Acceptance

/-! What chains of edits can say. A chain fills the slots of its record one by one and independently, and a record can
be written by chains exactly if it declares no empty list of fields or of nested types, at any depth. Main statements:
`TypeCorrection.slots_foldl`, `TypeCorrection.authored_iff`, `TypeCorrection.author_exact`. -/
namespace Errata

section
variable {σ ε α : Type} (step : σ → ε → σ)

theorem foldl_slot (slot : σ → List α) (part : ε → Option α)
    (h : ∀ s e, slot (step s e) = slot s ++ (part e).toList) (es : List ε) (s : σ) :
    slot (es.foldl step s) = slot s ++ es.filterMap part := by
  induction es generalizing s with
  | nil => simp
  | cons e es ih => cases he : part e <;> simp [ih, h, he]

theorem foldl_kept (P : σ → Prop) (h : ∀ s e, P s → P (step s e)) (es : List ε) {s : σ} (hs : P s) :
    P (es.foldl step s) := by
  induction es generalizing s with
  | nil => exact hs
  | cons e es ih => exact ih (h s e hs)

end

namespace TypeEdit
variable {e : TypeEdit}

theorem isRemove_iff : e.isRemove = true ↔ e = .remove := by
  cases e <;> simp [isRemove]

theorem makesInterface_iff : e.makesInterface = true ↔ e = .interface ∨ ∃ m, e = .method m := by
  cases e <;> simp [makesInterface]

theorem field?_eq_some {f : FieldCorrection} : e.field? = some f ↔ e = .field f := by
  cases e <;> simp [field?]

theorem nested?_eq_some {n : TypeCorrection} : e.nested? = some n ↔ e = .nested n := by
  cases e <;> simp [nested?]

end TypeEdit

theorem eq_of_getD_nil {α : Type} {xs ys : Option (List α)} (hx : xs ≠ some []) (hy : ys ≠ some [])
    (h : xs.getD [] = ys.getD []) : xs = ys := by
  cases xs <;> cases ys <;> simp_all

theorem eq_none_iff_getD_nil {α : Type} {xs : Option (List α)} (hx : xs ≠ some []) : xs = none ↔ xs.getD [] = [] := by
  cases xs <;> simp_all

theorem ParamCorrection.authored (p : ParamCorrection) : p.Authored := by
  obtain ⟨name, optional, constant⟩ := p
  cases optional <;> cases constant
  · exact .author name []
  · exact .author name [.constant]
  · exact .author name [.optional]
  · exact .author name [.optional, .constant]

theorem FieldCorrection.authored (f : FieldCorrection) : f.Authored := by
  obtain ⟨name, _ | typeName⟩ := f
  · exact .author name []
  · exact .author name [.retype typeName]

namespace FuncCorrection

theorem author_eq (api name : String) (edits : List FuncEdit) :
    author api name edits = ⟨api, name, edits.filterMap FuncEdit.param?⟩ := by
  obtain ⟨hapi, hname⟩ : (author api name edits).api = api ∧ (author api name edits).name = name :=
    foldl_kept edit (fun f => f.api = api ∧ f.name = name) (fun _ _ h => h) edits ⟨rfl, rfl⟩
  have hparams : (author api name edits).params = edits.filterMap FuncEdit.param? :=
    foldl_slot edit params _ (fun _ _ => rfl) edits { api, name }
  calc
    author api name edits =
        ⟨(author api name edits).api, (author api name edits).name, (author api name edits).params⟩ := rfl
    _ = ⟨api, name, edits.filterMap FuncEdit.param?⟩ := by rw [hapi, hname, hparams]

theorem authored (f : FuncCorrection) : f.Authored := by
  have hf : author f.api f.name (f.params.map .param) = f := by
    simp [author_eq, List.filterMap_map, Function.comp_def, FuncEdit.param?]
  rw [← hf]
  exact .author f.api f.name _ fun p _ => p.authored

end FuncCorrection

theorem Sheet.author_eq (edits : List SheetEdit) :
    author edits = ⟨edits.filterMap SheetEdit.func?, edits.filterMap SheetEdit.type?⟩ := by
  have hfuncs : (author edits).funcs = edits.filterMap SheetEdit.func? :=
    foldl_slot edit funcs _ (by rintro s (f | t) <;> simp [edit, SheetEdit.func?]) edits {}
  have htypes : (author edits).types = edits.filterMap SheetEdit.type? :=
    foldl_slot edit types _ (by rintro s (f | t) <;> simp [edit, SheetEdit.type?]) edits {}
  rw [← hfuncs, ← htypes]

namespace TypeSlots

/-- First one chain, then another. -/
instance : Append TypeSlots where
  append a b := ⟨a.remove || b.remove, a.interface || b.interface, a.fields ++ b.fields, a.nested ++ b.nested,
    a.methods ++ b.methods⟩

theorem append_eq (a b : TypeSlots) : a ++ b = ⟨a.remove || b.remove, a.interface || b.interface, a.fields ++ b.fields,
    a.nested ++ b.nested, a.methods ++ b.methods⟩ := rfl

theorem append_assoc (a b c : TypeSlots) : a ++ b ++ c = a ++ (b ++ c) := by
  simp [append_eq, Bool.or_assoc]

theorem append_blank (a : TypeSlots) : a ++ {} = a := by
  simp [append_eq]

theorem ofEdits_append (es es' : List TypeEdit) : ofEdits (es ++ es') = ofEdits es ++ ofEdits es' := by
  simp [ofEdits, append_eq]

theorem ofEdits_cons (e : TypeEdit) (es : List TypeEdit) : ofEdits (e :: es) = ofEdits [e] ++ ofEdits es :=
  ofEdits_append [e] es

theorem ofEdits_map {α : Type} (make : α → TypeEdit) (said : List α → TypeSlots) (hnil : said [] = {})
    (hcons : ∀ a as, said (a :: as) = ofEdits [make a] ++ said as) (as : List α) : ofEdits (as.map make) = said as := by
  induction as with
  | nil => exact hnil.symm
  | cons a as ih => rw [List.map_cons, ofEdits_cons, ih, hcons]

theorem mem_nested {edits : List TypeEdit} {n : TypeCorrection} : n ∈ (ofEdits edits).nested ↔ .nested n ∈ edits := by
  simp [ofEdits, TypeEdit.nested?_eq_some]

end TypeSlots

namespace TypeCorrection
variable {t t' : TypeCorrection}

theorem named_author (api name : String) (edits : List TypeEdit) :
    (author api name edits).api = api ∧ (author api name edits).name = name :=
  foldl_kept edit (fun t => t.api = api ∧ t.name = name) (fun _ e h => by cases e <;> exact h) edits ⟨rfl, rfl⟩

theorem Filled.edit (h : t.Filled) (e : TypeEdit) : (t.edit e).Filled := by
  cases e with
  | remove | interface | method m => exact ⟨h.fields, h.nested⟩
  | field f => exact ⟨by simp [TypeCorrection.edit, declare], h.nested⟩
  | nested n => exact ⟨h.fields, by simp [TypeCorrection.edit, declare]⟩

theorem filled_author (api name : String) (edits : List TypeEdit) : (author api name edits).Filled :=
  foldl_kept TypeCorrection.edit Filled (fun _ e h => h.edit e) edits ⟨nofun, nofun⟩

theorem slots_edit (t : TypeCorrection) (e : TypeEdit) : (t.edit e).slots = t.slots ++ .ofEdits [e] := by
  cases e <;> simp [edit, declare, slots, isInterface, TypeSlots.ofEdits, TypeSlots.append_eq, TypeEdit.isRemove,
    TypeEdit.makesInterface, TypeEdit.field?, TypeEdit.nested?, TypeEdit.method?]

theorem slots_foldl (edits : List TypeEdit) (t : TypeCorrection) :
    (edits.foldl edit t).slots = t.slots ++ .ofEdits edits := by
  induction edits generalizing t with
  | nil => exact t.slots.append_blank.symm
  | cons e edits ih => rw [List.foldl_cons, ih, slots_edit, TypeSlots.append_assoc, ← TypeSlots.ofEdits_cons]

theorem slots_author (api name : String) (edits : List TypeEdit) : (author api name edits).slots = .ofEdits edits :=
  slots_foldl edits { api, name }

theorem Filled.ext_slots (h : t.Filled) (h' : t'.Filled) (hapi : t.api = t'.api) (hname : t.name = t'.name)
    (hslots : t.slots = t'.slots) : t = t' := by
  obtain ⟨api, name, remove, fields, nested, methods⟩ := t
  obtain ⟨api', name', remove', fields', nested', methods'⟩ := t'
  obtain ⟨hremove, hinterface, hfs, hns, hms⟩ := TypeSlots.mk.inj hslots
  have hfields : fields = fields' := eq_of_getD_nil h.fields h'.fields hfs
  have hnested : nested = nested' := eq_of_getD_nil h.nested h'.nested hns
  have hmethods : methods = methods' := by
    cases methods <;> cases methods' <;> simp_all [isInterface]
  cases hapi
  cases hname
  cases hremove
  rw [hfields, hnested, hmethods]

/-- A chain that writes a record, slot after slot. -/
def edits (t : TypeCorrection) : List TypeEdit :=
  (if t.remove then [.remove] else []) ++ (if t.isInterface then [.interface] else [])
    ++ (t.fields.getD []).map .field ++ (t.nested.getD []).map .nested ++ (t.methods.getD []).map .method

theorem ofEdits_edits (t : TypeCorrection) : .ofEdits t.edits = t.slots := by
  have hremove : TypeSlots.ofEdits (if t.remove then [.remove] else []) = { remove := t.remove } := by
    cases t.remove <;> rfl
  have hinterface : TypeSlots.ofEdits (if t.isInterface then [.interface] else []) = { interface := t.isInterface } := by
    cases t.isInterface <;> rfl
  have hfields := TypeSlots.ofEdits_map .field (fun fs => { fields := fs }) rfl (fun _ _ => rfl) (t.fields.getD [])
  have hnested := TypeSlots.ofEdits_map .nested (fun ns => { nested := ns }) rfl (fun _ _ => rfl) (t.nested.getD [])
  have hmethods := TypeSlots.ofEdits_map .method (fun ms => { interface := !ms.isEmpty, methods := ms }) rfl
    (fun _ _ => rfl) (t.methods.getD [])
  -- The methods make an interface again, which they can only have been in to begin with.
  have hagain : (t.isInterface || !(t.methods.getD []).isEmpty) = t.isInterface := by
    cases h : t.methods <;> simp [isInterface, h]
  simp only [edits, TypeSlots.ofEdits_append, hremove, hinterface, hfields, hnested, hmethods]
  simp [TypeSlots.append_eq, slots, hagain]

theorem author_edits (h : t.Filled) : author t.api t.name t.edits = t := by
  obtain ⟨hapi, hname⟩ := named_author t.api t.name t.edits
  exact (filled_author _ _ _).ext_slots h hapi hname ((slots_author _ _ _).trans t.ofEdits_edits)

theorem authored_iff : t.Authored ↔ t.FilledThroughout := by
  constructor
  · intro h
    induction h with
    | author api name edits fields nested methods ih =>
      refine .intro _ (filled_author api name edits) fun n hn => ih n ?_
      have hn : n ∈ (author api name edits).slots.nested := hn
      rw [slots_author] at hn
      exact TypeSlots.mem_nested.1 hn
  · intro h
    induction h with
    | intro t filled nested ih =>
      rw [← author_edits filled]
      refine .author t.api t.name t.edits (fun f _ => f.authored) (fun n hn => ih n ?_) fun m _ => m.authored
      have hn : n ∈ (TypeSlots.ofEdits t.edits).nested := TypeSlots.mem_nested.2 hn
      rw [ofEdits_edits] at hn
      exact hn

theorem absent_iff {α : Type} {xs : Option (List α)} (hne : xs ≠ some []) {part : TypeEdit → Option α}
    {make : α → TypeEdit} (hpart : ∀ {e a}, part e = some a ↔ e = make a) {edits : List TypeEdit}
    (h : xs.getD [] = edits.filterMap part) : xs = none ↔ ∀ a, make a ∉ edits := by
  rw [eq_none_iff_getD_nil hne, h, List.eq_nil_iff_forall_not_mem]
  simp [hpart]

theorem listed_of_getD {α : Type} {xs : Option (List α)} {ys : List α} (h : xs.getD [] = ys) : ∀ zs ∈ xs, zs = ys := by
  rintro zs rfl
  exact h

theorem isInterface_author {api name : String} {edits : List TypeEdit} :
    (author api name edits).isInterface = true ↔ .interface ∈ edits ∨ ∃ m, .method m ∈ edits := by
  have hslot : (author api name edits).isInterface = edits.any (·.makesInterface) :=
    congrArg TypeSlots.interface (slots_author api name edits)
  rw [hslot, List.any_eq_true]
  simp only [TypeEdit.makesInterface_iff]
  constructor
  · rintro ⟨e, he, rfl | ⟨m, rfl⟩⟩
    · exact .inl he
    · exact .inr ⟨m, he⟩
  · rintro (he | ⟨m, he⟩)
    · exact ⟨_, he, .inl rfl⟩
    · exact ⟨_, he, .inr ⟨m, rfl⟩⟩

theorem follows_author (api name : String) (edits : List TypeEdit) : (author api name edits).Follows edits := by
  have hfilled := filled_author api name edits
  obtain ⟨hremove, _, hfields, hnested, hmethods⟩ := TypeSlots.mk.inj (slots_author api name edits)
  refine ⟨?_, absent_iff hfilled.fields TypeEdit.field?_eq_some hfields, listed_of_getD hfields,
    absent_iff hfilled.nested TypeEdit.nested?_eq_some hnested, listed_of_getD hnested, ?_, listed_of_getD hmethods⟩
  · rw [hremove, List.any_eq_true]
    simp [TypeEdit.isRemove_iff]
  · rw [← Option.not_isSome_iff_eq_none, ← isInterface, isInterface_author, not_or, not_exists]

theorem author_congr {api name : String} {edits edits' : List TypeEdit} :
    author api name edits = author api name edits' ↔ TypeSlots.ofEdits edits = .ofEdits edits' := by
  rw [← slots_author api name edits, ← slots_author api name edits']
  constructor
  · exact congrArg slots
  · intro h
    obtain ⟨hapi, hname⟩ := named_author api name edits
    obtain ⟨hapi', hname'⟩ := named_author api name edits'
    exact (filled_author _ _ _).ext_slots (filled_author _ _ _) (hapi.trans hapi'.symm) (hname.trans hname'.symm) h

theorem refused_of_mixed {s : Sheet} {api name : String} {edits : List TypeEdit} (ht : author api name edits ∈ s.types)
    (hi : .interface ∈ edits ∨ ∃ m, .method m ∈ edits) (hp : (∃ f, .field f ∈ edits) ∨ ∃ n, .nested n ∈ edits) :
    ∃ fault, s.compile.result = .error fault := by
  have hf := follows_author api name edits
  have hnot : ¬s.WellFormed := by
    intro hs
    obtain ⟨hfields, hnested⟩ := (hs.types _ ht).sound.unmixed (isInterface_author.2 hi)
    cases hp with
    | inl hp =>
      obtain ⟨f, hp⟩ := hp
      exact hf.fields_absent.1 hfields f hp
    | inr hp =>
      obtain ⟨n, hp⟩ := hp
      exact hf.nested_absent.1 hnested n hp
  cases hr : s.compile.result with
  | error fault => exact ⟨fault, rfl⟩
  | ok t => exact absurd (Sheet.compile_eq_ok.1 hr).1 hnot

/-- A chain fills each slot by itself, and can write every record that declares no empty list of fields or nested
types. -/
theorem author_exact :
    (∀ api name edits, (author api name edits).api = api ∧ (author api name edits).name = name ∧
      (author api name edits).Follows edits) ∧
    (∀ api name edits edits', author api name edits = author api name edits' ↔
      TypeSlots.ofEdits edits = .ofEdits edits') ∧
    (∀ edits, Sheet.author edits = ⟨edits.filterMap SheetEdit.func?, edits.filterMap SheetEdit.type?⟩) ∧
    (∀ t : TypeCorrection, t.Authored ↔ t.FilledThroughout) ∧
    ∀ (s : Sheet) (api name : String) (edits : List TypeEdit), author api name edits ∈ s.types →
      (.interface ∈ edits ∨ ∃ m, .method m ∈ edits) → ((∃ f, .field f ∈ edits) ∨ ∃ n, .nested n ∈ edits) →
      ∃ fault, s.compile.result = .error fault := by
  refine ⟨fun api name edits => ?_, fun _ _ _ _ => author_congr, Sheet.author_eq, fun _ => authored_iff, ?_⟩
  · obtain ⟨hapi, hname⟩ := named_author api name edits
    exact ⟨hapi, hname, follows_author api name edits⟩
  · intro s api name edits ht hi hp
    exact refused_of_mixed ht hi hp

theorem author_exact_interleaved :
    let field : TypeEdit := .field { name := "x" }
    let nested : TypeEdit := .nested { name := "N", fields := some [{ name := "y" }] }
    let method : TypeEdit := .method { name := "m" }
    let t := author "A" "T" [field, method, .remove, nested]
    t = author "A" "T" [method, nested, .interface, field, .remove, .remove] ∧ t.remove = true ∧
    t.fields = some [{ name := "x" }] ∧ t.Authored ∧ ¬TypeCorrection.Authored { t with fields := some [] } ∧
    ∃ fault, (Sheet.author [.func { api := "A", name := "f" }, .type t]).compile.result = .error fault := by
  intro field nested method t
  obtain ⟨hrecord, hcongr, hsheet, hauthored, hrefused⟩ := author_exact
  obtain ⟨_, _, hfollows⟩ := hrecord "A" "T" [field, method, .remove, nested]
  refine ⟨(hcongr _ _ _ _).2 (by decide), hfollows.remove.2 (by simp), rfl, ?_, ?_, ?_⟩
  · refine (hauthored t).2 (.intro t (filled_author "A" "T" _) fun n hn => ?_)
    have hn : n = { name := "N", fields := some [{ name := "y" }] } := List.mem_singleton.1 hn
    subst hn
    exact .intro _ ⟨nofun, nofun⟩ nofun
  · intro h
    cases (hauthored _).1 h with
    | intro _ filled _ => exact filled.fields rfl
  · rw [hsheet]
    exact hrefused _ "A" "T" _ (List.mem_singleton.2 rfl) (.inr ⟨{ name := "m" }, by simp [method]⟩)
      (.inl ⟨{ name := "x" }, by simp [field]⟩)

end TypeCorrection
end Errata
