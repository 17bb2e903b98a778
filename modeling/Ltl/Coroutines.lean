-- Coroutines on threads: a thread resumes a coroutine from its main stack, and
-- the coroutine gives the thread back when it yields.
import Ltl.Simulation
import Mathlib.Logic.Function.Basic

open runs

namespace coroutines

/-- `μ` is what a main stack goes on with, and `κ` what the stack of a coroutine goes on with. A
coroutine belongs to the thread that made it, and `active` is the coroutine that a thread is in. -/
structure State (μ κ : Type) where
  main : Nat → μ
  own : Nat → Option (Nat × κ)
  active : Nat → Option Nat

/-- Thread `t` goes on with `m` or `k` on the stack that it is on, makes coroutine `i`, resumes it
or leaves the one that it is in. -/
inductive Event (μ κ : Type) where
  | main (t : Nat) (m : μ)
  | own (t : Nat) (k : κ)
  | create (t i : Nat) (k : κ)
  | resume (t i : Nat)
  | yield (t : Nat)

variable {μ κ : Type}

/-- No coroutine yet. -/
def start (main : Nat → μ) : State μ κ := ⟨main, fun _ => none, fun _ => none⟩

def step (s : State μ κ) : Event μ κ → Option (State μ κ)
  | .main t m =>
    match s.active t with
    | none => some { s with main := Function.update s.main t m }
    | some _ => none
  | .own t k =>
    match s.active t with
    | none => none
    | some i => some { s with own := Function.update s.own i (some (t, k)) }
  | .create t i k =>
    match s.own i with
    | none => some { s with own := Function.update s.own i (some (t, k)) }
    | some _ => none
  | .resume t i =>
    match s.active t, s.own i with
    | none, some (h, _) =>
      if h = t then some { s with active := Function.update s.active t (some i) } else none
    | _, _ => none
  | .yield t =>
    match s.active t with
    | none => none
    | some _ => some { s with active := Function.update s.active t none }

/-! ## Steps -/

/-- What each event finds, and what it changes. -/
inductive Steps (s : State μ κ) : Event μ κ → State μ κ → Prop where
  | main {t : Nat} {m : μ} (ha : s.active t = none) :
      Steps s (.main t m) { s with main := Function.update s.main t m }
  | own {t i : Nat} {k : κ} (ha : s.active t = some i) :
      Steps s (.own t k) { s with own := Function.update s.own i (some (t, k)) }
  | create {t i : Nat} {k : κ} (ho : s.own i = none) :
      Steps s (.create t i k) { s with own := Function.update s.own i (some (t, k)) }
  | resume {t i : Nat} {k : κ} (ha : s.active t = none) (ho : s.own i = some (t, k)) :
      Steps s (.resume t i) { s with active := Function.update s.active t (some i) }
  | yield {t i : Nat} (ha : s.active t = some i) :
      Steps s (.yield t) { s with active := Function.update s.active t none }

theorem step_steps {s s' : State μ κ} {e : Event μ κ} (h : step s e = some s') : Steps s e s' := by
  unfold step at h
  cases e with
  | main t m =>
    dsimp only at h
    split at h
    · rename_i ha
      cases h
      exact .main ha
    · cases h
  | own t k =>
    dsimp only at h
    split at h
    · cases h
    · rename_i ha
      cases h
      exact .own ha
  | create t i k =>
    dsimp only at h
    split at h
    · rename_i ho
      cases h
      exact .create ho
    · cases h
  | resume t i =>
    dsimp only at h
    split at h
    · rename_i hd k ha ho
      split at h
      · rename_i ht
        cases h
        subst ht
        exact .resume ha ho
      · cases h
    · cases h
  | yield t =>
    dsimp only at h
    split at h
    · cases h
    · rename_i ha
      cases h
      exact .yield ha

theorem Steps.step {s s' : State μ κ} {e : Event μ κ} (h : Steps s e s') :
    coroutines.step s e = some s' := by
  cases h with
  | main ha => simp [coroutines.step, ha]
  | own ha => simp [coroutines.step, ha]
  | create ho => simp [coroutines.step, ho]
  | resume ha ho => simp [coroutines.step, ha, ho]
  | yield ha => simp [coroutines.step, ha]

/-! ## Every coroutine runs on the thread that made it -/

/-- The coroutine that a thread is in is one of its own. -/
def Sound (s : State μ κ) : Prop :=
  ∀ t i, s.active t = some i → ∃ k, s.own i = some (t, k)

theorem start_sound (main : Nat → μ) : Sound (start main : State μ κ) := by
  intro t i h
  cases h

/-- A coroutine is on one thread at most. -/
theorem Sound.unique {s : State μ κ} (hs : Sound s) {t u i : Nat} (ht : s.active t = some i)
    (hu : s.active u = some i) : t = u := by
  obtain ⟨k, hk⟩ := hs t i ht
  obtain ⟨k', hk'⟩ := hs u i hu
  rw [hk] at hk'
  cases hk'
  rfl

theorem Sound.steps {s s' : State μ κ} (hs : Sound s) {e : Event μ κ} (h : Steps s e s') :
    Sound s' := by
  intro u j hj
  cases h with
  | main ha => exact hs u j hj
  | @own t i k ha =>
    by_cases hij : j = i
    · subst hij
      have htu := hs.unique ha hj
      subst htu
      exact ⟨k, by simp⟩
    · obtain ⟨k', hk'⟩ := hs u j hj
      exact ⟨k', by simp [hij, hk']⟩
  | @create t i k ho =>
    obtain ⟨k', hk'⟩ := hs u j hj
    have hij : j ≠ i := by
      intro he
      rw [he, ho] at hk'
      cases hk'
    exact ⟨k', by simp [hij, hk']⟩
  | @resume t i k ha ho =>
    by_cases hut : u = t
    · subst hut
      simp only [Function.update_self, Option.some.injEq] at hj
      exact ⟨k, hj ▸ ho⟩
    · simp [hut] at hj
      exact hs u j hj
  | @yield t i ha =>
    by_cases hut : u = t
    · subst hut
      simp at hj
    · simp [hut] at hj
      exact hs u j hj

end coroutines
