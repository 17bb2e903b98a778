-- Counting over a list: the sum of a weight over its elements, and what a
-- change of one element does to it.

namespace counts

variable {α : Type}

/-- The sum of the weights of the elements. -/
def total (f : α → Nat) : List α → Nat
  | [] => 0
  | a :: l => f a + total f l

@[simp] theorem total_nil (f : α → Nat) : total f [] = 0 := rfl

@[simp] theorem total_cons (f : α → Nat) (a : α) (l : List α) :
    total f (a :: l) = f a + total f l := rfl

@[simp] theorem total_append (f : α → Nat) (l l' : List α) :
    total f (l ++ l') = total f l + total f l' := by
  induction l with
  | nil => simp
  | cons a l ih => simp only [List.cons_append, total_cons, ih, Nat.add_assoc]

/-- A new element at `i` takes the place of the weight of the old one. -/
theorem total_set (f : α → Nat) (l : List α) (i : Nat) (a x : α) (h : l[i]? = some a) :
    total f (l.set i x) + f a = total f l + f x := by
  induction l generalizing i with
  | nil => simp at h
  | cons b l ih =>
    cases i with
    | zero =>
      simp only [List.getElem?_cons_zero, Option.some.injEq] at h
      subst h
      simp only [List.set_cons_zero, total_cons]
      omega
    | succ i =>
      simp only [List.getElem?_cons_succ] at h
      have := ih i h
      simp only [List.set_cons_succ, total_cons]
      omega

theorem le_total (f : α → Nat) (l : List α) (a : α) (h : a ∈ l) : f a ≤ total f l := by
  induction l with
  | nil => simp at h
  | cons b l ih =>
    rcases List.mem_cons.mp h with rfl | h
    · simp
    · have := ih h
      simp only [total_cons]
      omega

theorem total_eq_zero_iff (f : α → Nat) (l : List α) : total f l = 0 ↔ ∀ a ∈ l, f a = 0 := by
  induction l with
  | nil => simp
  | cons b l ih => simp [ih]

/-- A total of at most one is the weight of at most one element. -/
theorem eq_of_total_le_one (f : α → Nat) (l : List α) (h : total f l ≤ 1) {a b : α} (ha : a ∈ l)
    (hb : b ∈ l) (hfa : 0 < f a) (hfb : 0 < f b) : a = b := by
  induction l with
  | nil => cases ha
  | cons x l ih =>
    rw [total_cons] at h
    rcases List.mem_cons.mp ha with rfl | ha'
    · rcases List.mem_cons.mp hb with rfl | hb'
      · rfl
      · have := le_total f l b hb'
        omega
    · rcases List.mem_cons.mp hb with rfl | hb'
      · have := le_total f l a ha'
        omega
      · exact ih (by omega) ha' hb'

theorem exists_of_total_ne_zero {f : α → Nat} {l : List α} (h : total f l ≠ 0) :
    ∃ (j : Nat) (a : α), l[j]? = some a ∧ f a ≠ 0 := by
  have hne : ¬ ∀ a ∈ l, f a = 0 := fun hall => h ((total_eq_zero_iff f l).mpr hall)
  obtain ⟨a, ha⟩ := Classical.not_forall.mp hne
  obtain ⟨hmem, hf⟩ := Classical.not_imp.mp ha
  obtain ⟨j, hj⟩ := List.getElem?_of_mem hmem
  exact ⟨j, a, hj, hf⟩

theorem total_mono {f g : α → Nat} (h : ∀ a, f a ≤ g a) (l : List α) : total f l ≤ total g l := by
  induction l with
  | nil => exact Nat.le_refl 0
  | cons a l ih => exact Nat.add_le_add (h a) ih

@[simp] theorem total_zero (l : List α) : total (fun _ => 0) l = 0 := by
  rw [total_eq_zero_iff]
  intro a _
  rfl

theorem total_replicate (f : α → Nat) (n : Nat) (a : α) (h : f a = 0) :
    total f (List.replicate n a) = 0 := by
  rw [total_eq_zero_iff]
  intro b hb
  rw [List.eq_of_mem_replicate hb, h]

end counts
