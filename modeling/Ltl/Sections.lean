-- Sections under a mutex: threads that take small steps inside of a lock do the
-- same as threads whose sections are one step each, as long as no step outside
-- of the lock sees a section half done.
import Ltl.Simulation
import Mathlib.Logic.Function.Basic

open runs

namespace sections

/-- The code of a thread. `σ` is what the mutex protects and `τ` what it does not, `ι` a place in a
section, `κ` a place outside, and `ℓ` a choice that the step does not make itself. A step outside of
the lock may read what the mutex protects; it goes on or comes to the lock before a section. -/
structure Code (σ τ ι κ ℓ : Type) where
  inner : ι → σ → ℓ → σ × (ι ⊕ κ)
  outer : κ → σ → τ → ℓ → Option (τ × (ι ⊕ κ))

/-- Where a thread is: outside, before the lock of a section, inside of it or before its unlock. -/
inductive Place (ι κ : Type) where
  | out (k : κ)
  | lock (i : ι)
  | inside (i : ι)
  | unlock (k : κ)
  deriving DecidableEq, Repr

/-- `owner` is the thread that has the mutex, with its section and what it found at the lock, which
no step reads. -/
structure State (σ τ ι κ : Type) where
  shared : σ
  other : τ
  owner : Option (Nat × ι × σ)
  place : Nat → Place ι κ

inductive Event (ℓ : Type) where
  | outer (t : Nat) (l : ℓ)
  | lock (t : Nat)
  | inner (t : Nat) (l : ℓ)
  | unlock (t : Nat)
  deriving DecidableEq, Repr

variable {σ τ ι κ ℓ : Type}

/-- Where a step outside of the lock leads to. -/
def Place.outside : ι ⊕ κ → Place ι κ
  | .inl i => .lock i
  | .inr k => .out k

/-- Where a step inside of the lock leads to. -/
def Place.within : ι ⊕ κ → Place ι κ
  | .inl i => .inside i
  | .inr k => .unlock k

def step (c : Code σ τ ι κ ℓ) (s : State σ τ ι κ) : Event ℓ → Option (State σ τ ι κ)
  | .outer t l =>
    match s.place t with
    | .out k => (c.outer k s.shared s.other l).map fun r =>
      { s with other := r.1, place := Function.update s.place t (.outside r.2) }
    | _ => none
  | .lock t =>
    match s.place t, s.owner with
    | .lock i, none => some { s with
        owner := some (t, i, s.shared)
        place := Function.update s.place t (.inside i) }
    | _, _ => none
  | .inner t l =>
    match s.place t with
    | .inside i => some { s with
        shared := (c.inner i s.shared l).1
        place := Function.update s.place t (.within (c.inner i s.shared l).2) }
    | _ => none
  | .unlock t =>
    match s.place t with
    | .unlock k => some { s with owner := none, place := Function.update s.place t (.out k) }
    | _ => none

/-! ## Sections of one step -/

/-- The small steps from a place of a section, with the choices `ls`. -/
def walk (c : Code σ τ ι κ ℓ) (i : ι) (s : σ) : List ℓ → σ × (ι ⊕ κ)
  | [] => (s, .inl i)
  | l :: ls =>
    match c.inner i s l with
    | (s', .inl i') => walk c i' s' ls
    | (s', .inr k) => (s', .inr k)

/-- The threads, with each section in one step. A thread is outside or before a section. -/
structure Atomic (σ τ ι κ : Type) where
  shared : σ
  other : τ
  place : Nat → ι ⊕ κ

inductive AtomicEvent (ℓ : Type) where
  | outer (t : Nat) (l : ℓ)
  | whole (t : Nat) (ls : List ℓ)
  deriving DecidableEq, Repr

def atomicStep (c : Code σ τ ι κ ℓ) (a : Atomic σ τ ι κ) :
    AtomicEvent ℓ → Option (Atomic σ τ ι κ)
  | .outer t l =>
    match a.place t with
    | .inr k => (c.outer k a.shared a.other l).map fun r =>
      { a with other := r.1, place := Function.update a.place t r.2 }
    | .inl _ => none
  | .whole t ls =>
    match a.place t with
    | .inl i =>
      match walk c i a.shared ls with
      | (s, .inr k) => some { a with shared := s, place := Function.update a.place t (.inr k) }
      | _ => none
    | .inr _ => none

/-- The choices are allowed ones. -/
def Allowed (ok : ℓ → Prop) (_ : State σ τ ι κ) : Event ℓ → Prop
  | .outer _ l => ok l
  | .inner _ l => ok l
  | _ => True

def AtomicAllowed (ok : ℓ → Prop) (_ : Atomic σ τ ι κ) : AtomicEvent ℓ → Prop
  | .outer _ l => ok l
  | .whole _ ls => ∀ l ∈ ls, ok l

/-- What each event finds, and what it changes. -/
inductive Steps (c : Code σ τ ι κ ℓ) (s : State σ τ ι κ) : Event ℓ → State σ τ ι κ → Prop where
  | outer {t l k y p} (hp : s.place t = .out k) (ho : c.outer k s.shared s.other l = some (y, p)) :
      Steps c s (.outer t l)
        { s with other := y, place := Function.update s.place t (.outside p) }
  | lock {t i} (hp : s.place t = .lock i) (ho : s.owner = none) :
      Steps c s (.lock t) { s with
        owner := some (t, i, s.shared)
        place := Function.update s.place t (.inside i) }
  | inner {t l i x p} (hp : s.place t = .inside i) (hi : c.inner i s.shared l = (x, p)) :
      Steps c s (.inner t l)
        { s with shared := x, place := Function.update s.place t (.within p) }
  | unlock {t k} (hp : s.place t = .unlock k) :
      Steps c s (.unlock t)
        { s with owner := none, place := Function.update s.place t (.out k) }

theorem step_steps {c : Code σ τ ι κ ℓ} {s s' : State σ τ ι κ} {e : Event ℓ}
    (h : step c s e = some s') : Steps c s e s' := by
  unfold step at h
  cases e with
  | outer t l =>
    dsimp only at h
    split at h
    · rename_i k hp
      obtain ⟨⟨y, p⟩, ho, rfl⟩ := Option.map_eq_some_iff.mp h
      exact .outer hp ho
    · cases h
  | lock t =>
    dsimp only at h
    split at h
    · rename_i i hp ho
      cases h
      exact .lock hp ho
    · cases h
  | inner t l =>
    dsimp only at h
    split at h
    · rename_i i hp
      cases h
      exact .inner hp rfl
    · cases h
  | unlock t =>
    dsimp only at h
    split at h
    · rename_i k hp
      cases h
      exact .unlock hp
    · cases h

/-! ## A walk is one step -/

theorem walk_snoc {c : Code σ τ ι κ ℓ} {i j : ι} {x y : σ} {ls : List ℓ} {l : ℓ}
    (h : walk c i x ls = (y, .inl j)) : walk c i x (ls ++ [l]) = c.inner j y l := by
  induction ls generalizing i x with
  | nil =>
    cases h
    simp only [List.nil_append, walk]
    split <;> simp_all
  | cons l' ls ih =>
    simp only [List.cons_append, walk] at h ⊢
    split at h
    · exact ih h
    · cases h

/-- The start of the threads, which are all outside. -/
def State.start (x : σ) (y : τ) (p : Nat → κ) : State σ τ ι κ := ⟨x, y, none, fun t => .out (p t)⟩

def Atomic.start (x : σ) (y : τ) (p : Nat → κ) : Atomic σ τ ι κ := ⟨x, y, fun t => .inr (p t)⟩

/-- The thread that has the mutex is still before its section, and what it found is what the mutex
protects. -/
structure Answers (c : Code σ τ ι κ ℓ) (ok : ℓ → Prop) (s : State σ τ ι κ) (a : Atomic σ τ ι κ) :
    Prop where
  other : a.other = s.other
  free : s.owner = none → a.shared = s.shared
  held : ∀ t i x, s.owner = some (t, i, x) → a.shared = x ∧ a.place t = .inl i ∧
    ∃ ls p, (∀ l ∈ ls, ok l) ∧ walk c i x ls = (s.shared, p) ∧ s.place t = .within p
  places : ∀ t, (∀ i x, s.owner ≠ some (t, i, x)) → s.place t = .outside (a.place t)

/-- No section that is half done changes what a step of another thread outside of the lock does. -/
def Undisturbed (c : Code σ τ ι κ ℓ) (ok : ℓ → Prop) (a : Atomic σ τ ι κ) : Prop :=
  ∀ t i ls x p, a.place t = .inl i → (∀ l ∈ ls, ok l) → walk c i a.shared ls = (x, p) →
    ∀ u k l, a.place u = .inr k → ok l → c.outer k x a.other l = c.outer k a.shared a.other l

variable {c : Code σ τ ι κ ℓ} {ok : ℓ → Prop} {s s' : State σ τ ι κ} {a : Atomic σ τ ι κ}

theorem Answers.start (x : σ) (y : τ) (p : Nat → κ) :
    Answers c ok (State.start x y p) (Atomic.start x y p) := by
  refine ⟨rfl, fun _ => rfl, ?_, fun _ _ => rfl⟩
  intro t i z ho
  simp [State.start] at ho

/-- Who is inside has the mutex. -/
theorem Answers.owner (h : Answers c ok s a) {t : Nat} {p : ι ⊕ κ} (hp : s.place t = .within p) :
    ∃ i x, s.owner = some (t, i, x) := by
  apply Classical.byContradiction
  intro hno
  have ho : s.place t = .outside (a.place t) := by
    apply h.places
    intro i x hi
    exact hno ⟨i, x, hi⟩
  rw [hp] at ho
  cases p <;> cases hq : a.place t <;> simp [hq, Place.within, Place.outside] at ho

/-- One thread at a time is inside. -/
theorem Answers.alone (h : Answers c ok s a) {t u : Nat} {p q : ι ⊕ κ}
    (ht : s.place t = .within p) (hu : s.place u = .within q) : t = u := by
  obtain ⟨i, x, hi⟩ := h.owner ht
  obtain ⟨j, y, hj⟩ := h.owner hu
  rw [hi] at hj
  cases hj
  rfl

/-- Who is inside has walked there from the state of the other machine. -/
theorem Answers.walked (h : Answers c ok s a) {t : Nat} {p : ι ⊕ κ} (hp : s.place t = .within p) :
    ∃ i ls, a.place t = .inl i ∧ (∀ l ∈ ls, ok l) ∧ walk c i a.shared ls = (s.shared, p) := by
  obtain ⟨i, x, ho⟩ := h.owner hp
  obtain ⟨hx, hat, ls, q, hls, hw, hq⟩ := h.held t i x ho
  have hpq : p = q := by
    rw [hp] at hq
    cases p <;> cases q <;> simp_all [Place.within]
  subst hx hpq
  exact ⟨i, ls, hat, hls, hw⟩

/-- Who is outside or before the lock does not have the mutex, and is at the same place in the
other machine. -/
theorem Answers.away (h : Answers c ok s a) {t : Nat} {p : ι ⊕ κ} (hp : s.place t = .outside p) :
    a.place t = p ∧ ∀ i x, s.owner ≠ some (t, i, x) := by
  have hno : ∀ i x, s.owner ≠ some (t, i, x) := by
    intro i x hi
    obtain ⟨-, -, ls, q, -, -, hq⟩ := h.held t i x hi
    rw [hp] at hq
    cases p <;> cases q <;> simp [Place.within, Place.outside] at hq
  refine ⟨?_, hno⟩
  have ho := h.places t hno
  rw [hp] at ho
  cases p <;> cases hq : a.place t <;> simp_all [Place.outside]

theorem Answers.outer (h : Answers c ok s a) (hu : Undisturbed c ok a) {t l k y p}
    (hp : s.place t = .out k) (ho : c.outer k s.shared s.other l = some (y, p)) (hl : ok l) :
    ∃ a', atomicStep c a (.outer t l) = some a' ∧
      Answers c ok { s with other := y, place := Function.update s.place t (.outside p) } a' := by
  obtain ⟨hat, hno⟩ := h.away (p := .inr k) hp
  have hsame : c.outer k a.shared a.other l = some (y, p) := by
    rw [← ho, ← h.other]
    cases hw : s.owner with
    | none => rw [h.free hw]
    | some w =>
      obtain ⟨u, i, x⟩ := w
      obtain ⟨hx, hi, ls, q, hls, hwalk, -⟩ := h.held u i x hw
      exact (hu u i ls s.shared q hi hls (hx ▸ hwalk) t k l hat hl).symm
  refine ⟨{ a with other := y, place := Function.update a.place t p }, ?_, rfl, h.free, ?_, ?_⟩
  · simp [atomicStep, hat, hsame]
  · intro u i x hw
    have hut : u ≠ t := by
      rintro rfl
      exact hno i x hw
    simpa [Function.update_of_ne hut] using h.held u i x hw
  · intro u hun
    by_cases hut : u = t
    · subst hut
      simp
    · simpa [Function.update_of_ne hut] using h.places u hun

theorem Answers.lock (h : Answers c ok s a) {t i} (hp : s.place t = .lock i)
    (ho : s.owner = none) :
    Answers c ok { s with
      owner := some (t, i, s.shared)
      place := Function.update s.place t (.inside i) } a := by
  obtain ⟨hat, -⟩ := h.away (p := .inl i) hp
  refine ⟨h.other, by simp, ?_, ?_⟩
  · intro u j x hw
    obtain ⟨rfl, rfl, rfl⟩ : t = u ∧ i = j ∧ s.shared = x := by simpa using hw
    exact ⟨h.free ho, hat, [], .inl i, by simp, rfl, by simp [Place.within]⟩
  · intro u hun
    have hut : u ≠ t := by
      rintro rfl
      exact hun i s.shared rfl
    simpa [Function.update_of_ne hut] using h.places u (by simp [ho])

theorem Answers.inner (h : Answers c ok s a) {t l i x p} (hp : s.place t = .inside i)
    (hi : c.inner i s.shared l = (x, p)) (hl : ok l) :
    Answers c ok { s with shared := x, place := Function.update s.place t (.within p) } a := by
  obtain ⟨i₀, x₀, hw⟩ := h.owner (p := .inl i) hp
  obtain ⟨hx, hat, ls, q, hls, hwalk, hq⟩ := h.held t i₀ x₀ hw
  have hqi : q = .inl i := by
    rw [hp] at hq
    cases q <;> simp_all [Place.within]
  subst hqi
  refine ⟨h.other, by simp [hw], ?_, ?_⟩
  · intro u j z hu
    obtain ⟨rfl, rfl, rfl⟩ : t = u ∧ i₀ = j ∧ x₀ = z := by simpa [hw] using hu
    refine ⟨hx, hat, ls ++ [l], p, ?_, ?_, by simp⟩
    · simpa [or_imp, forall_and] using ⟨hls, hl⟩
    · rw [walk_snoc hwalk, hi]
  · intro u hun
    have hut : u ≠ t := by
      rintro rfl
      exact hun i₀ x₀ hw
    simpa [Function.update_of_ne hut] using h.places u hun

theorem Answers.unlock (h : Answers c ok s a) {t k} (hp : s.place t = .unlock k) :
    ∃ ls a', (∀ l ∈ ls, ok l) ∧ atomicStep c a (.whole t ls) = some a' ∧
      Answers c ok { s with owner := none, place := Function.update s.place t (.out k) } a' := by
  obtain ⟨i, x, hw⟩ := h.owner (p := .inr k) hp
  obtain ⟨hx, hat, ls, q, hls, hwalk, hq⟩ := h.held t i x hw
  have hqk : q = .inr k := by
    rw [hp] at hq
    cases q <;> simp_all [Place.within]
  subst hqk
  refine ⟨ls, { a with shared := s.shared, place := Function.update a.place t (.inr k) }, hls, ?_,
    h.other, fun _ => rfl, by simp, ?_⟩
  · simp [atomicStep, hat, hx, hwalk]
  · intro u _
    by_cases hut : u = t
    · subst hut
      simp [Place.outside]
    · have hun : ∀ j z, s.owner ≠ some (u, j, z) := by
        intro j z hu
        rw [hw] at hu
        cases hu
        exact hut rfl
      simpa [Function.update_of_ne hut] using h.places u hun

/-- Each small step is answered: by a step outside, by the whole section at its unlock, or by
nothing. -/
theorem Answers.step (h : Answers c ok s a) (hu : Undisturbed c ok a) {e : Event ℓ}
    (hok : Allowed ok s e) (hs : step c s e = some s') :
    ∃ a', Reach (atomicStep c) (AtomicAllowed ok) a a' ∧ Answers c ok s' a' := by
  cases step_steps hs with
  | outer hp ho =>
    obtain ⟨a', ha, h'⟩ := h.outer hu hp ho hok
    exact ⟨a', (Reach.start a).next (e := .outer _ _) hok ha, h'⟩
  | lock hp ho => exact ⟨a, Reach.start a, h.lock hp ho⟩
  | inner hp hi => exact ⟨a, Reach.start a, h.inner hp hi hok⟩
  | unlock hp =>
    obtain ⟨ls, a', hls, ha, h'⟩ := h.unlock hp
    exact ⟨a', (Reach.start a).next (e := .whole _ ls) hls ha, h'⟩

/-- The rule of sections: where no section that is half done is seen from outside, each run in
small steps is answered by a run whose sections are one step each. -/
theorem reduce {x : σ} {y : τ} {p : Nat → κ}
    (hu : ∀ a, Reach (atomicStep c) (AtomicAllowed ok) (Atomic.start x y p) a → Undisturbed c ok a)
    (hr : Reach (step c) (Allowed ok) (State.start x y p) s) :
    ∃ a, Reach (atomicStep c) (AtomicAllowed ok) (Atomic.start x y p) a ∧ Answers c ok s a := by
  have hsim : Simulates (step c) (Allowed ok) (atomicStep c) (AtomicAllowed ok)
      (fun s a => Reach (atomicStep c) (AtomicAllowed ok) (Atomic.start x y p) a ∧
        Answers c ok s a) := by
    rintro s a e s' ⟨ha, h⟩ hok hs
    obtain ⟨a', haa, h'⟩ := h.step (hu a ha) hok hs
    exact ⟨a', haa, ha.trans haa, h'⟩
  obtain ⟨a, -, ha, h⟩ := hsim.reach ⟨Reach.start _, Answers.start x y p⟩ hr
  exact ⟨a, ha, h⟩

end sections
