import Std.Data.ExtTreeMap

/-! Distinct names in the order of their first mention, with an index from a name to its slot. The
index is carried by the type, so no operation can let it disagree with the order. -/
namespace Errata

structure Names where
  toArray : Array String
  slots : Std.ExtTreeMap String Nat
  slots_eq : ∀ (n : String) (i : Nat), slots[n]? = some i ↔ toArray[i]? = some n

namespace Names

def empty : Names := ⟨#[], ∅, by simp⟩
def slot? (s : Names) (n : String) : Option Nat := s.slots[n]?
def contains (s : Names) (n : String) : Bool := s.slots.contains n
def size (s : Names) : Nat := s.toArray.size
def toList (s : Names) : List String := s.toArray.toList

/-- A name that is already there keeps its slot; a new one takes the next. -/
def insert (s : Names) (n : String) : Names :=
  if h : n ∈ s.slots then s else
    { toArray := s.toArray.push n
      slots := s.slots.insert n s.toArray.size
      slots_eq := by
        intro m i
        have hn : s.slots[n]? = none := by simp [h]
        have hs := s.slots_eq
        rw [Std.ExtTreeMap.getElem?_insert, Array.getElem?_push]
        grind }

theorem slot?_eq_some_iff {s : Names} {n : String} {i : Nat} :
    s.slot? n = some i ↔ s.toList[i]? = some n := by
  simpa [slot?, toList] using s.slots_eq n i

theorem contains_eq_isSome (s : Names) (n : String) : s.contains n = (s.slot? n).isSome := by
  simp [contains, slot?]

theorem contains_iff {s : Names} {n : String} : s.contains n = true ↔ n ∈ s.toList := by
  rw [contains_eq_isSome, Option.isSome_iff_exists, List.mem_iff_getElem?]
  simp only [slot?_eq_some_iff]

@[simp] theorem toList_empty : empty.toList = [] := rfl

theorem toList_insert (s : Names) (n : String) :
    (s.insert n).toList = if s.contains n then s.toList else s.toList ++ [n] := by
  unfold insert contains
  by_cases h : n ∈ s.slots
  · simp [h]
  · simp [h, toList]

theorem length_toList (s : Names) : s.toList.length = s.size := rfl

theorem nodup_toList (s : Names) : s.toList.Nodup := by
  rw [List.nodup_iff_pairwise_ne, List.pairwise_iff_getElem]
  intro i j hi hj hij heq
  have h₁ : s.slot? s.toList[i] = some i := slot?_eq_some_iff.2 (by simp)
  have h₂ : s.slot? s.toList[j] = some j := slot?_eq_some_iff.2 (by simp)
  rw [heq, h₂] at h₁
  grind

theorem ext_toList {s t : Names} (h : s.toList = t.toList) : s = t := by
  obtain ⟨a, u, hu⟩ := s
  obtain ⟨b, v, hv⟩ := t
  obtain rfl : a = b := Array.toList_inj.1 h
  have : u = v := by
    apply Std.ExtTreeMap.ext_getElem?
    intro n
    apply Option.ext
    intro i
    rw [hu, hv]
  subst this
  rfl

end Names
end Errata
