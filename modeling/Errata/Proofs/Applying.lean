import Errata.Proofs.Accounting
import Errata.Proofs.Widening

/-! Applying a correction to one value after another. The count goes up where what comes out is not what was given,
and what came out once goes through the next time. Main statements: `Session.performAll_eq`, `View.apply_exact`. -/
namespace Errata

/-- The flags of a parameter. They share its count. -/
inductive Flag where
  | optional
  | constant
  deriving DecidableEq

namespace Flag

def action : Flag → Bool → Action
  | .optional, given => .optional given
  | .constant, given => .constant given

def declared (p : ParamCorrection) : Flag → Bool
  | .optional => p.optional
  | .constant => p.constant

end Flag

theorem TypeCorrection.applyRemove_eq (t : TypeCorrection) :
    t.applyRemove = .flag t.remove (if t.remove then 1 else 0) := by
  cases h : t.remove <;> simp [applyRemove, h]

theorem FieldCorrection.applyType_eq (f : FieldCorrection) (given : String) :
    f.applyType given = .text (f.typeName.getD given) (if f.typeName.getD given = given then 0 else 1) := by
  cases h : f.typeName with
  | none => simp [applyType, h]
  | some typeName => by_cases hg : typeName = given <;> simp [applyType, h, hg]

theorem ParamCorrection.respond_flag (p : ParamCorrection) (flag : Flag) (given : Bool) :
    (Correction.param p).respond (flag.action given) =
      some (.flag (given || flag.declared p) (if (given || flag.declared p) = given then 0 else 1)) := by
  cases flag with
  | optional => cases h : p.optional <;> cases given <;>
      simp [Flag.action, Flag.declared, Correction.respond, applyOptional, h]
  | constant => cases h : p.constant <;> cases given <;>
      simp [Flag.action, Flag.declared, Correction.respond, applyConstant, h]

namespace Ledger

theorem add_zero (l : Ledger) (i : Identity) : l.add i 0 = l := by
  ext j
  by_cases h : j = i <;> simp [add, h, Tally.add_zero]

theorem add_add (l : Ledger) (i : Identity) (m n : Nat) : (l.add i m).add i n = l.add i (m + n) := by
  ext j
  by_cases h : j = i <;> simp [add, h, Tally.add_add]

end Ledger

namespace Session
variable (s : Session)

def performAll (s : Session) (v : View) : List Action → Option (List Reply × Session)
  | [] => some ([], s)
  | a :: as => do
    let first ← s.perform v a
    let rest ← first.2.performAll v as
    pure (first.1 :: rest.1, rest.2)

theorem perform_eq {v : View} {a : Action} {o : Outcome} (h : v.respond a = some o) :
    s.perform v a = some (o.reply, s.mark v o.marks) := by
  rw [perform, h]
  rfl

theorem mark_zero (v : View) : s.mark v 0 = s := by
  cases hc : v.counts <;> simp [mark, hc, Ledger.add_zero]

theorem mark_mark (v : View) (m n : Nat) : (s.mark v m).mark v n = s.mark v (m + n) := by
  cases hc : v.counts <;> simp [mark, hc, Ledger.add_add]

theorem count_mark {v : View} {n : Nat} (h : v.counts = false → n = 0) :
    ((s.mark v n).tally v).count.toNat = ((s.tally v).count.toNat + n) % 2 ^ 32 := by
  cases hc : v.counts with
  | false =>
    rw [h hc, mark_zero, Nat.add_zero, Nat.mod_eq_of_lt (UInt32.toNat_lt _)]
  | true => rw [mark, if_pos hc, tally, tally, Ledger.tallyOf_add_self, Tally.toNat_count_add]

variable {κ : Type} [DecidableEq κ] {v : View} {action : κ → Action} {reply : κ → Reply} {result : κ → κ}

theorem performAll_eq (h : ∀ c, v.respond (action c) = some ⟨reply (result c), if result c = c then 0 else 1⟩)
    (calls : List κ) : s.performAll v (calls.map action) =
      some (calls.map fun c => reply (result c), s.mark v (calls.countP fun c => result c ≠ c)) := by
  induction calls generalizing s with
  | nil => simp [performAll, mark_zero]
  | cons c calls ih =>
    by_cases hc : result c = c
    · simp [performAll, s.perform_eq (h c), ih, mark_mark, hc]
    · simp [performAll, s.perform_eq (h c), ih, mark_mark, hc, Nat.add_comm]

end Session

namespace View

/-- What a helper does on a view. The result of a call is the same call with what comes out in place of what was
given. -/
structure Applies {κ : Type} [DecidableEq κ] (v : View) (action : κ → Action) (reply : κ → Reply) (result : κ → κ) :
    Prop where
  once (s : Session) (c : κ) : ∃ done, s.perform v (action c) = some (reply (result c), done) ∧
    (done.tally v).count.toNat = ((s.tally v).count.toNat + if result c = c then 0 else 1) % 2 ^ 32
  again (s : Session) (c : κ) : s.perform v (action (result c)) = some (reply (result c), s)
  all (s : Session) (calls : List κ) : ∃ done,
    s.performAll v (calls.map action) = some (calls.map fun c => reply (result c), done) ∧
    (done.tally v).count.toNat = ((s.tally v).count.toNat + calls.countP fun c => result c ≠ c) % 2 ^ 32
  fresh (root : Node) (calls : List κ) : ∃ done,
    Session.performAll { root } v (calls.map action) = some (calls.map fun c => reply (result c), done) ∧
    (done.tally v).count.toNat = (calls.countP fun c => result c ≠ c) % 2 ^ 32
  missing (s : Session) (calls : List κ) (h : v.isEmpty = true) :
    s.performAll v (calls.map action) = some (calls.map reply, s)

theorem isEmpty_of_counts {v : View} (h : v.counts = false) : v.isEmpty = true := by
  cases v with
  | node p n =>
    cases n with
    | tree t => simpa [counts, shape?, Node.shape?] using h
    | _ => cases h
  | com => cases h
  | absent | bare => rfl

theorem applies {κ : Type} [DecidableEq κ] {v : View} {action : κ → Action} {reply : κ → Reply} {result : κ → κ}
    (hrespond : ∀ c, v.respond (action c) = some ⟨reply (result c), if result c = c then 0 else 1⟩)
    (hagain : ∀ c, result (result c) = result c) (hmissing : v.isEmpty = true → ∀ c, result c = c) :
    v.Applies action reply result := by
  have hstay (hp : v.counts = false) (c : κ) : result c = c := hmissing (isEmpty_of_counts hp) c
  have hall (s : Session) (calls : List κ) : ∃ done,
      s.performAll v (calls.map action) = some (calls.map fun c => reply (result c), done) ∧
      (done.tally v).count.toNat = ((s.tally v).count.toNat + calls.countP fun c => result c ≠ c) % 2 ^ 32 :=
    ⟨_, s.performAll_eq hrespond calls, s.count_mark fun hp => by simp [hstay hp]⟩
  refine { once := ?_, again := ?_, all := hall, fresh := ?_, missing := ?_ }
  · intro s c
    exact ⟨_, s.perform_eq (hrespond c), s.count_mark fun hp => if_pos (hstay hp c)⟩
  · intro s c
    rw [s.perform_eq (hrespond (result c)), hagain, if_pos rfl, s.mark_zero]
  · intro root calls
    obtain ⟨done, hdone, hcount⟩ := hall { root } calls
    have hstart : (Session.tally { root } v).count.toNat = 0 := rfl
    exact ⟨done, hdone, by rw [hcount, hstart, Nat.zero_add]⟩
  · intro s calls h
    have hcount : (calls.countP fun c => result c ≠ c) = 0 := by simp [hmissing h]
    rw [s.performAll_eq hrespond, hcount, s.mark_zero]
    simp [hmissing h]

theorem leaf_cases {v : View} {σ : Shape} (h : v.shape? = some σ) (hσ : σ = .field ∨ σ = .param) :
    (∃ p n, v = .node p n ∧ n.shape? = some σ) ∨ v = .absent σ := by
  cases v with
  | node p n => exact .inl ⟨p, n, rfl, h⟩
  | absent shape =>
    cases h
    exact .inr rfl
  | com | bare =>
    cases h
    simp at hσ

variable {v : View}

theorem applies_retype (h : v.shape? = some .field) : ∃ f, v.record? = some (.field f) ∧
    v.Applies .retype .text fun given => f.typeName.getD given := by
  obtain ⟨f, hf, hmissing⟩ : ∃ f, v.record? = some (.field f) ∧ (v.isEmpty = true → f = {}) := by
    obtain ⟨place, n, rfl, hn⟩ | rfl := leaf_cases h (.inl rfl)
    · cases n <;> cases hn
      exact ⟨_, rfl, Bool.noConfusion⟩
    · exact ⟨{}, rfl, fun _ => rfl⟩
  refine ⟨f, hf, applies ?_ ?_ ?_⟩
  · intro given
    rw [respond_eq hf]
    exact congrArg some (f.applyType_eq given)
  · intro given
    cases f.typeName <;> rfl
  · intro hv given
    rw [hmissing hv]
    rfl

theorem applies_flag (h : v.shape? = some .param) : ∃ p, v.record? = some (.param p) ∧
    v.Applies (fun c : Flag × Bool => c.1.action c.2) (fun c => .flag c.2) fun c => (c.1, c.2 || c.1.declared p) := by
  obtain ⟨p, hp, hmissing⟩ : ∃ p, v.record? = some (.param p) ∧ (v.isEmpty = true → p = {}) := by
    obtain ⟨place, n, rfl, hn⟩ | rfl := leaf_cases h (.inr rfl)
    · cases n <;> cases hn
      exact ⟨_, rfl, Bool.noConfusion⟩
    · exact ⟨{}, rfl, fun _ => rfl⟩
  refine ⟨p, hp, applies ?_ ?_ ?_⟩
  · rintro ⟨flag, given⟩
    rw [respond_eq hp, p.respond_flag]
    simp [Outcome.flag]
  · rintro ⟨flag, given⟩
    simp
  · rintro hv ⟨flag, given⟩
    cases flag <;> simp [hmissing hv, Flag.declared]

theorem perform_remove (h : v.shape? = some .type ∨ v.shape? = some .com) : ∃ t, v.record? = some (.type t) ∧
    ∀ s : Session, ∃ done, s.perform v .remove = some (.flag t.remove, done) ∧
      (done.tally v).count.toNat = ((s.tally v).count.toNat + if t.remove then 1 else 0) % 2 ^ 32 := by
  obtain ⟨t, ht, hmissing⟩ : ∃ t, v.record? = some (.type t) ∧ (v.counts = false → t = {}) := by
    obtain h | h := h
    · obtain ⟨place, n, rfl⟩ | rfl | rfl := type_cases h
      · exact ⟨n.record, rfl, nofun⟩
      · exact ⟨{}, rfl, fun _ => rfl⟩
      · exact ⟨{}, rfl, fun _ => rfl⟩
    · obtain ⟨place, face, rfl⟩ | rfl := com_cases h
      · exact ⟨face.record, rfl, nofun⟩
      · exact ⟨{}, rfl, fun _ => rfl⟩
  have hrespond : v.respond .remove = some (.flag t.remove (if t.remove then 1 else 0)) :=
    (respond_eq ht .remove).trans (congrArg some t.applyRemove_eq)
  refine ⟨t, ht, fun s => ⟨_, s.perform_eq hrespond, s.count_mark fun hp => ?_⟩⟩
  rw [hmissing hp]
  rfl

/-- The helpers of fields and parameters reply with what is declared, or with what was given, and count where it
differs. -/
theorem apply_exact (v : View) :
    (v.shape? = some .field → ∃ f, v.record? = some (.field f) ∧
      v.Applies .retype .text fun given => f.typeName.getD given) ∧
    (v.shape? = some .param → ∃ p, v.record? = some (.param p) ∧
      v.Applies (fun c : Flag × Bool => c.1.action c.2) (fun c => .flag c.2) fun c => (c.1, c.2 || c.1.declared p)) ∧
    (v.shape? = some .type ∨ v.shape? = some .com → ∃ t, v.record? = some (.type t) ∧
      ∀ s : Session, ∃ done, s.perform v .remove = some (.flag t.remove, done) ∧
        (done.tally v).count.toNat = ((s.tally v).count.toNat + if t.remove then 1 else 0) % 2 ^ 32) :=
  ⟨applies_retype, applies_flag, perform_remove⟩

theorem apply_exact_emptied :
    let field : Session := { root := .field { name := "x", typeName := some "" } }
    let param : Session := { root := .param { name := "p", optional := true, constant := true } }
    let type : Session := { root := .type (.plain { remove := true } none none) }
    (∃ done, field.performAll field.view (["u8", "", "u16"].map .retype) = some ([.text "", .text "", .text ""], done) ∧
      (done.tally field.view).count = 2) ∧
    (∃ done, param.performAll param.view [.optional false, .constant true, .constant false, .optional true] =
      some ([.flag true, .flag true, .flag true, .flag true], done) ∧ (done.tally param.view).count = 2) ∧
    param.performAll (.absent .param) [.optional false, .constant true] = some ([.flag false, .flag true], param) ∧
    ∃ done, type.perform type.view .remove = some (.flag true, done) ∧ (done.tally type.view).count = 1 := by
  intro field param type
  refine ⟨?_, ?_, ?_, ?_⟩
  · obtain ⟨f, hf, h⟩ := (apply_exact field.view).1 rfl
    cases hf
    obtain ⟨done, hdone, hcount⟩ := h.fresh _ ["u8", "", "u16"]
    exact ⟨done, hdone, UInt32.toNat_inj.1 hcount⟩
  · obtain ⟨p, hp, h⟩ := (apply_exact param.view).2.1 rfl
    cases hp
    obtain ⟨done, hdone, hcount⟩ :=
      h.fresh _ [(.optional, false), (.constant, true), (.constant, false), (.optional, true)]
    exact ⟨done, hdone, UInt32.toNat_inj.1 hcount⟩
  · obtain ⟨p, _, h⟩ := (apply_exact (.absent .param)).2.1 rfl
    exact h.missing param [(.optional, false), (.constant, true)] rfl
  · obtain ⟨t, ht, h⟩ := (apply_exact type.view).2.2 (.inl rfl)
    cases ht
    obtain ⟨done, hdone, hcount⟩ := h type
    exact ⟨done, hdone, UInt32.toNat_inj.1 hcount⟩

end View
end Errata
