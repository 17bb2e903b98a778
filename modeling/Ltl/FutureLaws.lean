-- The laws of all futures: a state that has an outcome keeps it, and what is
-- stored on a state, runs from it or reads it is in step with that state.
import Ltl.FutureMoves

open ltl.future_state runs

namespace ltl.futures

variable {α ε : Type}

/-! ## The locked parts as changes of a configuration -/

/-- The state `s` of `st` has an outcome now, and the setter of `st` loops over what it held. -/
def settle (c : Config α ε) (t : Nat) (st : StateId) (allow : Bool) (s s' : State α ε)
    (k : List (Frame α ε)) : Config α ε :=
  ((c.note [.set st allow (.stored (s.continuations_.map Prod.fst))]).update st
    { s' with continuations_ := [] }).put t (.drain st s.continuations_ :: k)

/-- The ends of a setter of `st` that is called on top of `k`. A null `exception_ptr` can only
come from the client. -/
inductive SetMove (c : Config α ε) (t : Nat) (a : Action α ε) (st : StateId) (allow : Bool)
    (k : List (Frame α ε)) : Config α ε → Prop where
  | value (s) (w) (hs : c.states[st]? = some s) (hr : ready s = false) :
      SetMove c t a st allow k (settle c t st allow s { s with value_ := some w } k)
  | exception (s) (x) (hs : c.states[st]? = some s) (hr : ready s = false)
      (hx : x = none → a = .set_exception st none) :
      SetMove c t a st allow k (settle c t st allow s { s with exception_ := x } k)
  | ignored (s) (hs : c.states[st]? = some s) (hr : ready s = true) (ha : allow = false) :
      SetMove c t a st allow k ((c.note [.set st allow .ignored]).put t k)
  | already (s) (hs : c.states[st]? = some s) (hr : ready s = true) (ha : allow = true) :
      SetMove c t a st allow k
        (throwTo (c.note [.set st allow .already]) t .promise_already_satisfied k)
  | built (s) (x) (hs : c.states[st]? = some s) (hr : ready s = false) :
      SetMove c t a st allow k (throwTo (c.note [.set st allow (.built x)]) t x k)

theorem set_value_impl_move {c c' : Config α ε} {t : Nat} {a : Action α ε} {st : StateId}
    {allow : Bool} {v : Except (Exception ε) (Value α)} {k : List (Frame α ε)}
    (h : lockedSet c t st allow (set_value_impl · v allow) k = some c') :
    SetMove c t a st allow k c' := by
  unfold lockedSet at h
  split at h
  · cases h
  · rename_i s hs
    cases hf : set_value_impl s v allow with
    | mk r s' =>
      simp only [hf] at h
      rcases set_value_impl.spec s s' v allow r hf with
        ⟨hr, ha, rfl⟩ | ⟨hr, ha, rfl⟩ | ⟨hr, x, -, rfl⟩ | ⟨hr, w, -, rfl, rfl⟩
      · cases h
        exact .already s hs hr ha
      · cases h
        exact .ignored s hs hr ha
      · cases h
        exact .built s x hs hr
      · cases h
        exact .value s w hs hr

theorem set_exception_move {c c' : Config α ε} {t : Nat} {a : Action α ε} {st : StateId}
    {x : Option (Exception ε)} {k : List (Frame α ε)}
    (hx : x = none → a = .set_exception st none)
    (h : lockedSet c t st true (set_exception · x) k = some c') :
    SetMove c t a st true k c' := by
  unfold lockedSet at h
  split at h
  · cases h
  · rename_i s hs
    cases hf : set_exception s x with
    | mk r s' =>
      simp only [hf] at h
      rcases set_exception.spec s s' x r hf with ⟨hr, rfl⟩ | ⟨hr, rfl, rfl⟩
      · cases h
        exact .already s hs hr rfl
      · cases h
        exact .exception s x hs hr hx

theorem Sets.move {c c' : Config α ε} {t : Nat} {a : Action α ε} {k k' : List (Frame α ε)}
    {st : StateId} {allow : Bool} {f : Setter α ε} (h : Sets c a k st allow f k')
    (hs : lockedSet c t st allow f k' = some c') : SetMove c t a st allow k' c' := by
  cases h with
  | set_value => exact set_value_impl_move hs
  | set_exception => exact set_exception_move (fun hx => by rw [hx]) hs
  | try_set => exact set_value_impl_move hs
  | handler => exact set_exception_move (fun hx => by cases hx) hs
  | set_prm => exact set_value_impl_move hs

theorem lockedAdd.spec {c c' : Config α ε} {t : Nat} {st : StateId} {kont : Cont}
    {k : List (Frame α ε)} (h : lockedAdd c t st kont k = some c') :
    ∃ s, c.states[st]? = some s ∧
      ((ready s = true ∧ c' = ((c.enroll st).note [.invoked c.sources.length]).put t
          (.exec kont :: .invoking c.sources.length :: k)) ∨
      (ready s = false ∧ c' = ((c.enroll st).update st
        { s with continuations_ := s.continuations_ ++ [(c.sources.length, kont)] }).put t k)) := by
  unfold lockedAdd at h
  split at h
  · cases h
  · rename_i s hs
    refine ⟨s, hs, ?_⟩
    rcases add_continuation.spec s (c.sources.length, kont) with ⟨hr, ha⟩ | ⟨hr, ha⟩
    · simp only [ha, Option.some.injEq] at h
      exact Or.inl ⟨hr, h.symm⟩
    · simp only [ha, Option.some.injEq] at h
      exact Or.inr ⟨hr, h.symm⟩

theorem lockedWait.spec {c c' : Config α ε} {t : Nat} {st : StateId} {g : Bool}
    {k : List (Frame α ε)} (h : lockedWait c t st g k = some c') :
    ∃ s, c.states[st]? = some s ∧
      ((ready s = true ∧ c' = c.put t (waited st g k)) ∨
      (ready s = false ∧ s.block_ = none ∧ c' = ((c.enroll st).update st
        { s with block_ := some false,
                 continuations_ := s.continuations_ ++ [(c.sources.length, .signal st)] }).put t
          (.waiting st g :: k)) ∨
      (ready s = false ∧ (∃ b, s.block_ = some b) ∧ c' = c.put t (.waiting st g :: k))) := by
  unfold lockedWait at h
  split at h
  · cases h
  · rename_i s hs
    refine ⟨s, hs, ?_⟩
    rcases wait.spec s (c.sources.length, Cont.signal st) with ⟨hr, hw⟩ | ⟨hr, hb, hw⟩ | ⟨hr, ⟨b, hb⟩, hw⟩
    · simp only [hw, Option.some.injEq] at h
      exact Or.inl ⟨hr, h.symm⟩
    · simp only [hw, hb, Option.isNone_none, if_true, Option.some.injEq] at h
      exact Or.inr (Or.inl ⟨hr, hb, h.symm⟩)
    · simp only [hw, hb, Option.isNone_some, Bool.false_eq_true, if_false, Option.some.injEq] at h
      have hsame : c.update st s = c := by
        have hset : c.states.set st s = c.states := by
          apply List.ext_getElem?
          intro i
          by_cases hi : st = i
          · subst hi
            rw [List.getElem?_set_self (List.getElem?_eq_some_iff.mp hs).1, hs]
          · rw [List.getElem?_set_ne hi]
        unfold Config.update
        rw [hset]
      exact Or.inr (Or.inr ⟨hr, ⟨b, hb⟩, by rw [← h, hsame]⟩)

/-! ## A state keeps its outcome -/

/-- `c'` has the states and continuations of `c`, and each state that is ready in `c` has the same
value and the same exception in `c'`. -/
structure Grows (c c' : Config α ε) : Prop where
  states : ∀ (st : StateId) s, c.states[st]? = some s → ∃ s', c'.states[st]? = some s' ∧
    (ready s = true → s'.value_ = s.value_ ∧ s'.exception_ = s.exception_)
  sources : ∀ (i : Id) st, c.sources[i]? = some st → c'.sources[i]? = some st

theorem Grows.refl (c : Config α ε) : Grows c c :=
  ⟨fun _ s hs => ⟨s, hs, fun _ => ⟨rfl, rfl⟩⟩, fun _ _ h => h⟩

theorem ready_congr {s s' : State α ε} (hv : s'.value_ = s.value_)
    (hx : s'.exception_ = s.exception_) : ready s' = ready s := by
  unfold ready
  rw [hv, hx]

theorem get_congr {s s' : State α ε} (hv : s'.value_ = s.value_)
    (hx : s'.exception_ = s.exception_) : get s' = get s := by
  unfold future_state.get
  rw [hv, hx]

theorem Grows.trans {c c' c'' : Config α ε} (h : Grows c c') (h' : Grows c' c'') :
    Grows c c'' := by
  refine ⟨?_, fun i st hi => h'.sources i st (h.sources i st hi)⟩
  intro st s hs
  obtain ⟨s', hs', hk⟩ := h.states st s hs
  obtain ⟨s'', hs'', hk'⟩ := h'.states st s' hs'
  refine ⟨s'', hs'', fun hr => ?_⟩
  obtain ⟨hv, hx⟩ := hk hr
  obtain ⟨hv', hx'⟩ := hk' (by rw [ready_congr hv hx, hr])
  exact ⟨hv'.trans hv, hx'.trans hx⟩

theorem Grows.of_eq {c c' : Config α ε} (hs : c'.states = c.states)
    (hi : c'.sources = c.sources) : Grows c c' := by
  refine ⟨fun st s h => ⟨s, by rw [hs, h], fun _ => ⟨rfl, rfl⟩⟩, fun i st h => by rw [hi, h]⟩

theorem grows_enroll (c : Config α ε) (st : StateId) : Grows c (c.enroll st) := by
  refine ⟨fun st s h => ⟨s, h, fun _ => ⟨rfl, rfl⟩⟩, fun i st' h => ?_⟩
  simp only [Config.enroll]
  rw [List.getElem?_append_left (List.getElem?_eq_some_iff.mp h).1, h]

theorem grows_alloc (c : Config α ε) (s : State α ε) : Grows c (c.alloc s) := by
  refine ⟨fun st s' h => ⟨s', ?_, fun _ => ⟨rfl, rfl⟩⟩, fun i st h => h⟩
  simp only [Config.alloc]
  rw [List.getElem?_append_left (List.getElem?_eq_some_iff.mp h).1, h]

theorem update_self {c : Config α ε} {st : StateId} {s : State α ε} (s' : State α ε)
    (hs : c.states[st]? = some s) : (c.update st s').states[st]? = some s' := by
  simp only [Config.update]
  rw [List.getElem?_set_self (List.getElem?_eq_some_iff.mp hs).1]

theorem update_ne {c : Config α ε} {st st' : StateId} (s' : State α ε) (h : st ≠ st') :
    (c.update st s').states[st']? = c.states[st']? := by
  simp only [Config.update]
  rw [List.getElem?_set_ne h]

theorem grows_update {c : Config α ε} {st : StateId} {s u : State α ε}
    (hs : c.states[st]? = some s)
    (hk : ready s = true → u.value_ = s.value_ ∧ u.exception_ = s.exception_) :
    Grows c (c.update st u) := by
  refine ⟨fun st' t ht => ?_, fun i st h => h⟩
  by_cases hst : st = st'
  · subst hst
    rw [hs] at ht
    cases ht
    exact ⟨u, update_self u hs, hk⟩
  · exact ⟨t, by rw [update_ne u hst, ht], fun _ => ⟨rfl, rfl⟩⟩

theorem Adds.grows {c c₁ : Config α ε} {a : Action α ε} {k k' : List (Frame α ε)}
    {st : StateId} {kont : Cont} (h : Adds c a k c₁ st kont k') : Grows c c₁ := by
  cases h with
  | then_ => exact grows_alloc c _
  | continue_with => exact Grows.refl c
  | unwrap => exact ((grows_alloc c _).trans (grows_alloc _ _)).trans (Grows.of_eq rfl rfl)
  | unwrap_outer => exact Grows.refl c
  | register => exact Grows.refl c
  | when_all => exact grows_alloc c _

theorem lockedAdd_grows {c c' : Config α ε} {t : Nat} {st : StateId} {kont : Cont}
    {k : List (Frame α ε)} (h : lockedAdd c t st kont k = some c') : Grows c c' := by
  obtain ⟨s, hs, ⟨hr, rfl⟩ | ⟨hr, rfl⟩⟩ := lockedAdd.spec h
  · exact (grows_enroll c st).trans (Grows.of_eq rfl rfl)
  · exact ((grows_enroll c st).trans
      (grows_update (c := c.enroll st) hs (fun h => by simp [hr] at h))).trans
      (Grows.of_eq rfl rfl)

theorem lockedWait_grows {c c' : Config α ε} {t : Nat} {st : StateId} {g : Bool}
    {k : List (Frame α ε)} (h : lockedWait c t st g k = some c') : Grows c c' := by
  obtain ⟨s, hs, ⟨-, rfl⟩ | ⟨hr, -, rfl⟩ | ⟨-, -, rfl⟩⟩ := lockedWait.spec h
  · exact Grows.of_eq rfl rfl
  · exact ((grows_enroll c st).trans
      (grows_update (c := c.enroll st) hs (fun h => by simp [hr] at h))).trans
      (Grows.of_eq rfl rfl)
  · exact Grows.of_eq rfl rfl

theorem SetMove.grows {c c' : Config α ε} {t : Nat} {a : Action α ε} {st : StateId}
    {allow : Bool} {k : List (Frame α ε)} (h : SetMove c t a st allow k c') : Grows c c' := by
  cases h with
  | value s w hs hr =>
    exact (grows_update hs (fun h => by simp [hr] at h)).trans (Grows.of_eq rfl rfl)
  | exception s x hs hr =>
    exact (grows_update hs (fun h => by simp [hr] at h)).trans (Grows.of_eq rfl rfl)
  | ignored => exact Grows.of_eq rfl rfl
  | already => exact Grows.of_eq rfl rfl
  | built => exact Grows.of_eq rfl rfl

theorem execDec_grows {c c' : Config α ε} {t : Nat} {n : CounterId} {k : List (Frame α ε)}
    (h : execDec c t n k = some c') : Grows c c' := by
  unfold execDec at h
  split at h
  · cases h
  · dsimp only at h
    split at h
    · cases h
      exact Grows.of_eq rfl rfl
    · cases h
      exact Grows.of_eq rfl rfl

/-- No step takes away an outcome or changes it. -/
theorem step_grows {c c' : Config α ε} {e : Nat × Action α ε} (h : step c e = some c') :
    Grows c c' := by
  obtain ⟨t, a⟩ := e
  obtain ⟨-, k, -, hm⟩ := step_moves h
  cases hm with
  | local_ => exact Grows.of_eq rfl rfl
  | promise => exact (grows_alloc c _).trans (Grows.of_eq rfl rfl)
  | made_ready => exact (grows_alloc c _).trans (Grows.of_eq rfl rfl)
  | when_all_ready => exact (grows_alloc c _).trans (Grows.of_eq rfl rfl)
  | add h hs => exact h.grows.trans (lockedAdd_grows hs)
  | set h hs => exact (h.move hs).grows
  | wait hs => exact lockedWait_grows hs
  | get hs => exact lockedWait_grows hs
  | dec hs => exact execDec_grows hs
  | signal hs =>
    rename_i st s k
    exact (grows_update (u := signal s) hs (fun _ => ⟨rfl, rfl⟩)).trans (Grows.of_eq rfl rfl)
  | run => exact Grows.of_eq rfl rfl
  | throw_ => exact Grows.of_eq rfl rfl
  | fault => exact Grows.of_eq rfl rfl

/-- So a run takes away no outcome and changes none. -/
theorem reach_grows {ok : Config α ε → Nat × Action α ε → Prop} {c c' : Config α ε}
    (h : Reach step ok c c') : Grows c c' :=
  h.invariant (P := Grows c) (Grows.refl c) (fun _ _ _ hg _ hs => hg.trans (step_grows hs))

theorem Grows.ready {c c' : Config α ε} (h : Grows c c') {st : StateId} (hr : Ready c st) :
    Ready c' st := by
  obtain ⟨s, hs, hr⟩ := hr
  obtain ⟨s', hs', hk⟩ := h.states st s hs
  obtain ⟨hv, hx⟩ := hk hr
  exact ⟨s', hs', by rw [ready_congr hv hx, hr]⟩

theorem ready_iff_outcome {c : Config α ε} {st : StateId} :
    Ready c st ↔ ∃ r, outcome c st = some r := by
  unfold Ready outcome
  cases hs : c.states[st]? with
  | none => simp
  | some s =>
    simp only [Option.some.injEq, exists_eq_left', Option.bind_some]
    rw [← get_isSome, Option.isSome_iff_exists]

theorem Grows.outcome {c c' : Config α ε} (h : Grows c c') {st : StateId}
    {r : Except (Exception ε) (Value α)} (ho : outcome c st = some r) :
    outcome c' st = some r := by
  obtain ⟨s, hs, hr⟩ := ready_iff_outcome.mpr ⟨r, ho⟩
  obtain ⟨s', hs', hk⟩ := h.states st s hs
  obtain ⟨hv, hx⟩ := hk hr
  rw [outcome_eq hs'] at *
  rw [outcome_eq hs] at ho
  rw [get_congr hv hx, ho]

end ltl.futures
