-- A change of at most one element of a list: none, a new value in the place of
-- an old one, or one more element at the end.
import Ltl.Counts

open counts

namespace slots

variable {α : Type}

inductive Slot (α : Type) where
  | keep
  | set (i : Nat) (old new : α)
  | add (new : α)

namespace Slot

def apply : Slot α → List α → List α
  | .keep, l => l
  | .set i _ new, l => l.set i new
  | .add new, l => l ++ [new]

/-- The old value is the one in the list. -/
def Fits : Slot α → List α → Prop
  | .keep, _ => True
  | .set i old _, l => l[i]? = some old
  | .add _, _ => True

/-- The weight that the change takes away. -/
def gone (f : α → Nat) : Slot α → Nat
  | .set _ old _ => f old
  | _ => 0

/-- The weight that the change brings. -/
def come (f : α → Nat) : Slot α → Nat
  | .keep => 0
  | .set _ _ new => f new
  | .add new => f new

@[simp] theorem apply_keep (l : List α) : (keep : Slot α).apply l = l := rfl

@[simp] theorem apply_set (i : Nat) (old new : α) (l : List α) :
    (set i old new).apply l = l.set i new := rfl

@[simp] theorem apply_add (new : α) (l : List α) : (add new).apply l = l ++ [new] := rfl

theorem total_apply (f : α → Nat) {s : Slot α} {l : List α} (h : s.Fits l) :
    total f (s.apply l) + s.gone f = total f l + s.come f := by
  cases s with
  | keep => rfl
  | set i old new => exact total_set f l i old new h
  | add new => simp [gone, come]

theorem length_le (s : Slot α) (l : List α) : l.length ≤ (s.apply l).length := by
  cases s with
  | keep => exact Nat.le_refl _
  | set i old new =>
    exact Nat.le_of_eq (by rw [apply_set, List.length_set])
  | add new =>
    rw [apply_add, List.length_append]
    exact Nat.le_add_right _ _

/-- An element after the change is one from before, or the new one. -/
theorem mem_apply {s : Slot α} {l : List α} {a : α} (h : a ∈ s.apply l) :
    a ∈ l ∨ (∃ i old, s = .set i old a) ∨ s = .add a := by
  cases s with
  | keep => exact Or.inl h
  | set i old new =>
    rcases List.mem_or_eq_of_mem_set h with h | rfl
    · exact Or.inl h
    · exact Or.inr (Or.inl ⟨i, old, rfl⟩)
  | add new =>
    rcases List.mem_append.mp h with h | h
    · exact Or.inl h
    · rw [List.mem_singleton] at h
      exact Or.inr (Or.inr (by rw [h]))

/-- Where an element after the change comes from. -/
theorem getElem?_apply {s : Slot α} {l : List α} {j : Nat} {a : α}
    (h : (s.apply l)[j]? = some a) : (l[j]? = some a ∧ ∀ old new, s ≠ .set j old new) ∨
      (∃ old, s = .set j old a) ∨ (s = .add a ∧ j = l.length) := by
  cases s with
  | keep => exact Or.inl ⟨h, by simp⟩
  | set i old new =>
    by_cases hi : i = j
    · subst hi
      have hlt := (List.getElem?_eq_some_iff.mp h).1
      simp only [apply_set, List.length_set] at hlt h
      rw [List.getElem?_set_self hlt] at h
      cases h
      exact Or.inr (Or.inl ⟨old, rfl⟩)
    · simp only [apply_set] at h
      rw [List.getElem?_set_ne hi] at h
      refine Or.inl ⟨h, fun old' new' he => ?_⟩
      cases he
      exact hi rfl
  | add new =>
    simp only [apply_add, List.getElem?_append] at h
    split at h
    · exact Or.inl ⟨h, by simp⟩
    · rename_i hge
      rw [List.getElem?_singleton] at h
      split at h
      · cases h
        exact Or.inr (Or.inr ⟨rfl, by omega⟩)
      · cases h

/-- An element stays where it is, unless it is the old one. -/
theorem apply_getElem? {s : Slot α} {l : List α} {j : Nat} {a : α} (hs : s.Fits l)
    (h : l[j]? = some a) : (s.apply l)[j]? = some a ∨ ∃ new, s = .set j a new ∧
      (s.apply l)[j]? = some new := by
  cases s with
  | keep => exact Or.inl h
  | set i old new =>
    by_cases hi : i = j
    · subst hi
      have hold : l[i]? = some old := hs
      rw [h] at hold
      cases hold
      refine Or.inr ⟨new, rfl, ?_⟩
      simp only [apply_set]
      rw [List.getElem?_set_self (List.getElem?_eq_some_iff.mp h).1]
    · refine Or.inl ?_
      simp only [apply_set]
      rw [List.getElem?_set_ne hi, h]
  | add new =>
    refine Or.inl ?_
    simp only [apply_add]
    rw [List.getElem?_append_left (List.getElem?_eq_some_iff.mp h).1, h]

/-- The change adds nothing, and the new value is `r`-related to the old one. -/
def Keeps (r : α → α → Prop) : Slot α → Prop
  | .keep => True
  | .set _ old new => r old new
  | .add _ => False

/-- An element after such a change is related to the one before it in the same place. -/
theorem getElem?_keeps {r : α → α → Prop} (hr : ∀ a, r a a) {s : Slot α} {l : List α} {j : Nat}
    {a : α} (hk : s.Keeps r) (hs : s.Fits l) (h : (s.apply l)[j]? = some a) :
    ∃ b, l[j]? = some b ∧ r b a := by
  rcases getElem?_apply h with ⟨h, -⟩ | ⟨old, rfl⟩ | ⟨rfl, -⟩
  · exact ⟨a, h, hr a⟩
  · exact ⟨old, hs, hk⟩
  · exact absurd hk id

theorem keeps_getElem? {r : α → α → Prop} (hr : ∀ a, r a a) {s : Slot α} {l : List α} {j : Nat}
    {b : α} (hk : s.Keeps r) (hs : s.Fits l) (h : l[j]? = some b) :
    ∃ a, (s.apply l)[j]? = some a ∧ r b a := by
  rcases apply_getElem? hs h with h | ⟨new, rfl, h⟩
  · exact ⟨b, h, hr b⟩
  · exact ⟨new, h, hk⟩

theorem total_keeps (f : α → Nat) {s : Slot α} {l : List α} (hs : s.Fits l)
    (hk : s.Keeps (fun a b => f b = f a)) : total f (s.apply l) = total f l := by
  have h := total_apply f hs
  cases s with
  | keep => rfl
  | set i old new =>
    have hk : f new = f old := hk
    simp only [gone, come, hk] at h
    omega
  | add new => exact absurd hk id

/-! ## The weight of the element at one place -/

def here (f : α → Nat) (l : List α) (j : Nat) : Nat :=
  match l[j]? with
  | some a => f a
  | none => 0

theorem here_eq (f : α → Nat) {l : List α} {j : Nat} {a : α} (h : l[j]? = some a) :
    here f l j = f a := by
  unfold here
  rw [h]

theorem here_length (f : α → Nat) (l : List α) : here f l l.length = 0 := by
  unfold here
  rw [List.getElem?_eq_none (Nat.le_refl _)]

theorem here_set (f : α → Nat) {l : List α} {i j : Nat} {old new : α} (h : l[i]? = some old) :
    here f (l.set i new) j = if j = i then f new else here f l j := by
  unfold here
  split
  · rename_i a ha
    by_cases hij : j = i
    · subst hij
      rw [List.getElem?_set_self (List.getElem?_eq_some_iff.mp h).1] at ha
      cases ha
      rw [if_pos rfl]
    · rw [List.getElem?_set_ne (Ne.symm hij)] at ha
      rw [if_neg hij, ha]
  · rename_i ha
    by_cases hij : j = i
    · subst hij
      rw [List.getElem?_set_self (List.getElem?_eq_some_iff.mp h).1] at ha
      cases ha
    · rw [List.getElem?_set_ne (Ne.symm hij)] at ha
      rw [if_neg hij, ha]

theorem here_append (f : α → Nat) (l : List α) (j : Nat) (new : α) :
    here f (l ++ [new]) j = if j = l.length then f new else here f l j := by
  unfold here
  by_cases hj : j = l.length
  · subst hj
    rw [if_pos rfl, List.getElem?_append_right (Nat.le_refl _), Nat.sub_self]
    rfl
  · rw [if_neg hj]
    by_cases hlt : j < l.length
    · rw [List.getElem?_append_left hlt]
    · rw [List.getElem?_eq_none (by simp only [List.length_append, List.length_singleton]; omega),
        List.getElem?_eq_none (by omega)]

end Slot

end slots
