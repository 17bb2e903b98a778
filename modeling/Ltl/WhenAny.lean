-- `when_any_ready` (when_any.hpp): its loop gives each index to the first future
-- of the list, so the result says when the first entry is ready, and nothing of
-- the others. The futures are fulfilled one after the other, after the call.
import Ltl.Futures

open ltl.future_state ltl.futures

namespace ltl.when_any

/-! ## The call -/

/-- `std::size_t(-1)` -/
def size_t_max : Nat := UInt64.size - 1

/-- A continuation of a listed future: the setter of the promise with an index, or code of the
client. -/
inductive Cont where
  | report (i : Nat)
  | other (k : Nat)
  deriving DecidableEq, Repr

/-- The states of the listed futures, the promise of the call, and how its setters have ended. -/
structure Config (ν χ : Type) where
  states : List (FutureState Cont ν χ Nat)
  prm : FutureState Cont Nat χ Nat := {}
  log : List (Locked Cont χ) := []

section
variable {ν χ : Type}

def report (c : Config ν χ) (i : Nat) (allow_exception : Bool) : Config ν χ :=
  { c with
    prm := (set_value_impl c.prm (.ok i) allow_exception).2
    log := c.log ++ [(set_value_impl c.prm (.ok i) allow_exception).1] }

/-- Client code is no code of this call: what it fulfils, it fulfils later. -/
def run (c : Config ν χ) : Cont → Config ν χ
  | .report i => report c i false
  | .other _ => c

def continue_with (c : Config ν χ) (st : StateId) (k : Cont) : Config ν χ :=
  match c.states[st]? with
  | none => c
  | some s =>
    match add_continuation s k with
    | some s' => { c with states := c.states.set st s' }
    | none => run c k

/-- The loop over the iterators `it`. Its body reads `*first`. It gives `at_least_one_valid`. -/
def loop (first : Future) (i : Nat) (at_least_one_valid : Bool) (c : Config ν χ) :
    List Future → Bool × Config ν χ
  | [] => (at_least_one_valid, c)
  | _ :: its =>
    match first with
    | none => loop first (i + 1) at_least_one_valid c its
    | some st => loop first (i + 1) true (continue_with c st (.report i)) its

/-- The call, and its result as the promise of the configuration. -/
def when_any_ready (states : List (FutureState Cont ν χ Nat)) : List Future → Config ν χ
  | [] => { states := states, prm := { value_ := some size_t_max } }
  | first :: rest =>
    match loop first 0 false { states := states } (first :: rest) with
    | (true, c) => c
    | (false, c) => report c size_t_max true

/-- A setter of the client that is called on a listed future. -/
structure Fulfilment (ν χ : Type) where
  st : StateId
  r : Except χ ν

def Fulfilment.setter (s : FutureState Cont ν χ Nat) :
    Except χ ν → Locked Cont χ × FutureState Cont ν χ Nat
  | .ok v => set_value s (.ok v)
  | .error x => set_exception s (some x)

/-- A setter that throws to its caller changes nothing. -/
def fulfil (c : Config ν χ) (e : Fulfilment ν χ) : Config ν χ :=
  match c.states[e.st]? with
  | none => c
  | some s =>
    match Fulfilment.setter s e.r with
    | (.stored cs, s') => cs.foldl run { c with states := c.states.set e.st s' }
    | _ => c

/-! ## What is asked of it -/

/-- What the call is given: the states with the continuations that others have stored, and the
list. A valid future has a state, and `std::distance` gives the length. -/
structure Listed (ν χ : Type) where
  states : List (FutureState Nat ν χ Nat)
  fs : List Future
  has_state : ∀ st, some st ∈ fs → st < states.length
  fits : fs.length < UInt64.size / 2

def others (s : FutureState Nat ν χ Nat) : FutureState Cont ν χ Nat :=
  ⟨s.value_, s.continuations_.map .other, s.await_queue_, s.block_, s.exception_⟩

/-- The configuration after the call and the fulfilments `es`. -/
def Listed.after (l : Listed ν χ) (es : List (Fulfilment ν χ)) : Config ν χ :=
  es.foldl fulfil (when_any_ready (l.states.map others) l.fs)

/-- The future `st` is ready after the fulfilments `es`: it was ready before, or one of these is
for it. -/
def ready_after (now : StateId → Bool) (es : List (Fulfilment ν χ)) (st : StateId) : Bool :=
  now st || es.any (·.st == st)

def valid_and (p : StateId → Bool) : Future → Bool
  | none => false
  | some st => p st

/-- The index of the first of the futures that is ready: the smallest one of those that are ready
`now`, else the one that is fulfilled first. -/
def first_index (now : StateId → Bool) (fs : List Future) : List (Fulfilment ν χ) → Option Nat
  | [] => fs.findIdx? (valid_and now)
  | e :: es => (fs.findIdx? (valid_and now)).or (first_index (ready_after now [e]) fs es)

/-- The future is ready at the call. -/
def Listed.now (l : Listed ν χ) (st : StateId) : Bool :=
  match l.states[st]? with
  | none => false
  | some s => ready s

/-- What the call promises, at the moment at which `es` have happened. -/
structure Reports (l : Listed ν χ) (es : List (Fulfilment ν χ)) : Prop where
  none_valid : (∀ f ∈ l.fs, f = none) → get (l.after es).prm = some (.ok size_t_max)
  first : (∃ st, some st ∈ l.fs) →
    get (l.after es).prm = (first_index l.now l.fs es).map .ok
  stays : ∀ more, es <+: more → ∀ r, get (l.after es).prm = some r →
    get (l.after more).prm = some r
  no_throw : ∀ r ∈ (l.after es).log, r = .ignored ∨ ∃ cs, r = .stored cs

/-- The first entry is ready whenever a valid one is. -/
def FirstLeads (l : Listed ν χ) (es : List (Fulfilment ν χ)) : Prop :=
  ∃ st, l.fs.head? = some (some st) ∧ ∀ pre, pre <+: es → ∀ st', some st' ∈ l.fs →
    ready_after l.now pre st' = true → ready_after l.now pre st = true

/-! ## The order of the readiness -/

theorem ready_after_nil (now : StateId → Bool) (st : StateId) :
    ready_after now ([] : List (Fulfilment ν χ)) st = now st := by simp [ready_after]

theorem ready_after_append (now : StateId → Bool) (es es' : List (Fulfilment ν χ))
    (st : StateId) : ready_after now (es ++ es') st = ready_after (ready_after now es) es' st := by
  simp [ready_after, Bool.or_assoc]

/-- An index that is given is one of the list, and it is given when a valid future is ready. -/
theorem first_index_lt {now : StateId → Bool} {fs : List Future} {es : List (Fulfilment ν χ)}
    {i : Nat} (h : first_index now fs es = some i) : i < fs.length := by
  induction es generalizing now with
  | nil =>
    obtain ⟨hlt, -⟩ := List.findIdx?_eq_some_iff_getElem.mp h
    exact hlt
  | cons e es ih =>
    rcases Option.or_eq_some_iff.mp h with h | ⟨-, h⟩
    · obtain ⟨hlt, -⟩ := List.findIdx?_eq_some_iff_getElem.mp h
      exact hlt
    · exact ih h

theorem first_index_none {now : StateId → Bool} {fs : List Future}
    {es : List (Fulfilment ν χ)} {st : StateId} (h : first_index now fs es = none)
    (hst : some st ∈ fs) : ready_after now es st = false := by
  induction es generalizing now with
  | nil =>
    rw [ready_after_nil]
    exact List.findIdx?_eq_none_iff.mp h _ hst
  | cons e es ih =>
    have hrest := ih (Option.or_eq_none_iff.mp h).2
    rw [← ready_after_append] at hrest
    exact hrest

/-- Where the first entry leads, the index that is given is its own. -/
theorem first_index_leads {now : StateId → Bool} {fs : List Future} {es : List (Fulfilment ν χ)}
    {st : StateId} (hhead : fs.head? = some (some st))
    (hlead : ∀ pre, pre <+: es → ∀ st', some st' ∈ fs → ready_after now pre st' = true →
      ready_after now pre st = true) :
    first_index now fs es = if ready_after now es st then some 0 else none := by
  obtain ⟨rest, rfl⟩ : ∃ rest, fs = some st :: rest := by
    cases fs with
    | nil => cases hhead
    | cons f rest =>
      cases hhead
      exact ⟨rest, rfl⟩
  have now_index : ∀ now : StateId → Bool,
      (∀ st', some st' ∈ some st :: rest → now st' = true → now st = true) →
      (some st :: rest).findIdx? (valid_and now) = if now st then some 0 else none := by
    intro now hnow
    cases hst : now st with
    | true => simp [List.findIdx?_cons, valid_and, hst]
    | false =>
      simp only [Bool.false_eq_true, if_false]
      refine List.findIdx?_eq_none_iff.mpr (fun f hf => ?_)
      cases f with
      | none => rfl
      | some st' =>
        cases hst' : now st' with
        | false => exact hst'
        | true =>
          have := hnow st' hf hst'
          rw [hst] at this
          cases this
  induction es generalizing now with
  | nil =>
    rw [ready_after_nil]
    refine now_index now (fun st' hst' h => ?_)
    have := hlead [] (List.prefix_refl _) st' hst' (by rwa [ready_after_nil])
    rwa [ready_after_nil] at this
  | cons e es ih =>
    have hnow := now_index now (fun st' hst' h => by
      have := hlead [] List.nil_prefix st' hst' (by rwa [ready_after_nil])
      rwa [ready_after_nil] at this)
    have hrest := @ih (ready_after now [e]) (fun pre hpre st' hst' h => by
      have := hlead (e :: pre) (List.cons_prefix_cons.mpr ⟨rfl, hpre⟩) st' hst' (by
        rw [← ready_after_append] at h
        exact h)
      rw [← ready_after_append]
      exact this)
    rw [← ready_after_append, List.singleton_append] at hrest
    unfold first_index
    rw [hnow, hrest]
    cases hst : now st with
    | true =>
      have hall : ready_after now (e :: es) st = true := by simp [ready_after, hst]
      simp [hall]
    | false => simp

/-! ## The promise of the call -/

theorem report_settled {c : Config ν χ} {r : Except χ Nat} (h : get c.prm = some r) (i : Nat)
    (allow : Bool) : get (report c i allow).prm = some r := by
  have hr : ready c.prm = true := by rw [← get_isSome, h]; rfl
  cases allow <;> simpa [report, set_value_impl, hr] using h

theorem report_pending {c : Config ν χ} (h : get c.prm = none) (i : Nat) (allow : Bool) :
    get (report c i allow).prm = some (.ok i) ∧
      (report c i allow).log = c.log ++ [.stored c.prm.continuations_] := by
  have hr : ready c.prm = false := by rw [← get_isSome, h]; rfl
  have hx : c.prm.exception_ = none := by
    unfold ready at hr
    simp only [Bool.or_eq_false_iff, Option.isSome_eq_false_iff, Option.isNone_iff_eq_none] at hr
    exact hr.2
  simp [report, set_value_impl, hr, future_state.get, hx]

theorem run_states (c : Config ν χ) (k : Cont) : (run c k).states = c.states := by
  cases k <;> rfl

theorem run_settled {c : Config ν χ} {r : Except χ Nat} (h : get c.prm = some r) (k : Cont) :
    get (run c k).prm = some r := by
  cases k with
  | report i => exact report_settled h i false
  | other k => exact h

theorem drain_states (c : Config ν χ) (cs : List Cont) : (cs.foldl run c).states = c.states := by
  induction cs generalizing c with
  | nil => rfl
  | cons k cs ih => exact (ih _).trans (run_states c k)

theorem drain_settled {c : Config ν χ} {r : Except χ Nat} (h : get c.prm = some r)
    (cs : List Cont) : get (cs.foldl run c).prm = some r := by
  induction cs generalizing c with
  | nil => exact h
  | cons k cs ih => exact ih (run_settled h k)

/-- The indices that are stored. -/
def indices (cs : List Cont) : List Nat :=
  cs.filterMap fun k => match k with
    | .report i => some i
    | .other _ => none

theorem indices_append (cs cs' : List Cont) : indices (cs ++ cs') = indices cs ++ indices cs' := by
  simp [indices]

/-- The loop over the continuations gives the promise the first index that they hold. -/
theorem drain_pending {c : Config ν χ} (h : get c.prm = none) (cs : List Cont) :
    get (cs.foldl run c).prm = (indices cs).head?.map .ok := by
  induction cs generalizing c with
  | nil => exact h
  | cons k cs ih =>
    cases k with
    | report i => exact drain_settled (report_pending h i false).1 cs
    | other k => exact ih h

/-- The call waits for `st`, which holds the index 0 first, and no other state holds an index. -/
structure Awaits (c : Config ν χ) (st : StateId) : Prop where
  pending : get c.prm = none
  entry : ∃ s rest, c.states[st]? = some s ∧ ready s = false ∧ indices s.continuations_ = 0 :: rest
  others : ∀ st' s, st' ≠ st → c.states[st']? = some s → indices s.continuations_ = []

/-- A registration on the state that the call waits for. -/
theorem continue_with_entry {c : Config ν χ} {st : StateId} {s : FutureState Cont ν χ Nat}
    (hs : c.states[st]? = some s) (hr : ready s = false) (k : Cont) :
    continue_with c st k = { c with
      states := c.states.set st { s with continuations_ := s.continuations_ ++ [k] } } := by
  simp [continue_with, hs, add_continuation, hr]

theorem continue_with_awaits {c : Config ν χ} {st : StateId} (h : Awaits c st) (i : Nat) :
    Awaits (continue_with c st (.report i)) st := by
  obtain ⟨s, rest, hs, hr, hidx⟩ := h.entry
  rw [continue_with_entry hs hr]
  refine ⟨h.pending, ⟨_, rest ++ [i], List.getElem?_set_self
    (List.getElem?_eq_some_iff.mp hs).1, hr, ?_⟩, fun st' s' hne hs' => ?_⟩
  · rw [indices_append, hidx]
    rfl
  · rw [List.getElem?_set_ne (Ne.symm hne)] at hs'
    exact h.others st' s' hne hs'

theorem loop_awaits {c : Config ν χ} {st : StateId} (h : Awaits c st) (i : Nat) (b : Bool)
    (its : List Future) : Awaits (loop (some st) i b c its).2 st := by
  induction its generalizing c i b with
  | nil => exact h
  | cons f its ih => exact ih (continue_with_awaits h i) (i + 1) true

theorem continue_with_settled {c : Config ν χ} {r : Except χ Nat} (h : get c.prm = some r)
    (st : StateId) (k : Cont) : get (continue_with c st k).prm = some r := by
  unfold continue_with
  split
  · exact h
  · split
    · exact h
    · exact run_settled h k

theorem loop_settled {c : Config ν χ} {r : Except χ Nat} (h : get c.prm = some r)
    (first : Future) (i : Nat) (b : Bool) (its : List Future) :
    get (loop first i b c its).2.prm = some r := by
  induction its generalizing c i b with
  | nil => exact h
  | cons f its ih =>
    cases first with
    | none => exact ih h (i + 1) b
    | some st => exact ih (continue_with_settled h st _) (i + 1) true

theorem loop_valid (st : StateId) (i : Nat) (c : Config ν χ) (its : List Future) :
    (loop (some st) i true c its).1 = true := by
  induction its generalizing c i with
  | nil => rfl
  | cons f its ih => exact ih (i + 1) _

theorem loop_invalid (i : Nat) (b : Bool) (c : Config ν χ) (its : List Future) :
    loop none i b c its = (b, c) := by
  induction its generalizing i with
  | nil => rfl
  | cons f its ih => exact ih (i + 1)

theorem fulfil_settled {c : Config ν χ} {r : Except χ Nat} (h : get c.prm = some r)
    (e : Fulfilment ν χ) : get (fulfil c e).prm = some r := by
  unfold fulfil
  split
  · exact h
  · rename_i s hs
    split
    · rename_i cs s' hset
      exact drain_settled (c := { c with states := c.states.set e.st s' }) h cs
    · exact h

theorem fulfils_settled {c : Config ν χ} {r : Except χ Nat} (h : get c.prm = some r)
    (es : List (Fulfilment ν χ)) : get (es.foldl fulfil c).prm = some r := by
  induction es generalizing c with
  | nil => exact h
  | cons e es ih => exact ih (fulfil_settled h e)

/-- The setters of a listed future. One that stores leaves no continuation. -/
theorem setter_spec (s : FutureState Cont ν χ Nat) (r : Except χ ν) :
    (ready s = true ∧ Fulfilment.setter s r = (.already, s)) ∨
    (ready s = false ∧ ∃ s', Fulfilment.setter s r = (.stored s.continuations_, s') ∧
      s'.continuations_ = []) := by
  cases hr : ready s with
  | true =>
    cases r <;> simp [Fulfilment.setter, set_value, set_value_impl, set_exception, hr]
  | false =>
    cases r <;> simp [Fulfilment.setter, set_value, set_value_impl, set_exception, hr]

theorem fulfil_entry {c : Config ν χ} {st : StateId} (h : Awaits c st) {e : Fulfilment ν χ}
    (he : e.st = st) : get (fulfil c e).prm = some (.ok 0) := by
  obtain ⟨s, rest, hs, hr, hidx⟩ := h.entry
  rcases setter_spec s e.r with ⟨hr', -⟩ | ⟨-, s', hset, -⟩
  · rw [hr] at hr'
    cases hr'
  · unfold fulfil
    simp only [he, hs, hset]
    rw [drain_pending (c := { c with states := c.states.set st s' }) h.pending, hidx]
    rfl

theorem fulfil_awaits {c : Config ν χ} {st : StateId} (h : Awaits c st) {e : Fulfilment ν χ}
    (he : e.st ≠ st) : Awaits (fulfil c e) st := by
  cases hs : c.states[e.st]? with
  | none =>
    unfold fulfil
    simpa only [hs] using h
  | some s =>
    rcases setter_spec s e.r with ⟨-, hset⟩ | ⟨-, s', hset, hnil⟩
    · unfold fulfil
      simpa only [hs, hset] using h
    · have hidx := h.others e.st s he hs
      obtain ⟨s₀, rest, hs₀, hr₀, hidx₀⟩ := h.entry
      unfold fulfil
      simp only [hs, hset]
      refine ⟨?_, ⟨s₀, rest, ?_, hr₀, hidx₀⟩, fun st' s₁ hne hs₁ => ?_⟩
      · rw [drain_pending (c := { c with states := c.states.set e.st s' }) h.pending, hidx]
        rfl
      · rw [drain_states, List.getElem?_set_ne he]
        exact hs₀
      · rw [drain_states] at hs₁
        by_cases hst : e.st = st'
        · subst hst
          rw [List.getElem?_set_self (List.getElem?_eq_some_iff.mp hs).1] at hs₁
          cases hs₁
          rw [hnil]
          rfl
        · rw [List.getElem?_set_ne hst] at hs₁
          exact h.others st' s₁ hne hs₁

theorem fulfils_awaits {c : Config ν χ} {st : StateId} (h : Awaits c st)
    (es : List (Fulfilment ν χ)) :
    get (es.foldl fulfil c).prm = if es.any (·.st == st) then some (.ok 0) else none := by
  induction es generalizing c with
  | nil => exact h.pending
  | cons e es ih =>
    rw [List.foldl_cons, List.any_cons]
    by_cases he : e.st = st
    · rw [fulfils_settled (fulfil_entry h he)]
      simp [he]
    · rw [ih (fulfil_awaits h he)]
      simp [he]

/-! ## No setter throws -/

/-- No setter of the promise has thrown. -/
def Quiet (c : Config ν χ) : Prop := ∀ r ∈ c.log, r = .ignored ∨ ∃ cs, r = .stored cs

theorem run_quiet {c : Config ν χ} (h : Quiet c) (k : Cont) : Quiet (run c k) := by
  cases k with
  | other k => exact h
  | report i =>
    intro r hr
    rcases List.mem_append.mp hr with hr | hr
    · exact h r hr
    · rw [List.mem_singleton] at hr
      subst hr
      unfold set_value_impl
      cases ready c.prm with
      | true => exact Or.inl rfl
      | false => exact Or.inr ⟨_, rfl⟩

theorem drain_quiet {c : Config ν χ} (h : Quiet c) (cs : List Cont) : Quiet (cs.foldl run c) := by
  induction cs generalizing c with
  | nil => exact h
  | cons k cs ih => exact ih (run_quiet h k)

theorem continue_with_quiet {c : Config ν χ} (h : Quiet c) (st : StateId) (k : Cont) :
    Quiet (continue_with c st k) := by
  unfold continue_with
  split
  · exact h
  · split
    · exact h
    · exact run_quiet h k

theorem loop_quiet {c : Config ν χ} (h : Quiet c) (first : Future) (i : Nat) (b : Bool)
    (its : List Future) : Quiet (loop first i b c its).2 := by
  induction its generalizing c i b with
  | nil => exact h
  | cons f its ih =>
    cases first with
    | none => exact ih h (i + 1) b
    | some st => exact ih (continue_with_quiet h st _) (i + 1) true

theorem fulfil_quiet {c : Config ν χ} (h : Quiet c) (e : Fulfilment ν χ) : Quiet (fulfil c e) := by
  unfold fulfil
  split
  · exact h
  · rename_i s hs
    split
    · rename_i cs s' hset
      exact drain_quiet (c := { c with states := c.states.set e.st s' }) h cs
    · exact h

/-! ## The law -/

theorem when_any_ready_some (states : List (FutureState Cont ν χ Nat)) (st : StateId)
    (rest : List Future) : when_any_ready states (some st :: rest) =
      (loop (some st) 1 true (continue_with { states := states } st (.report 0)) rest).2 := by
  have hvalid := loop_valid st 1 (continue_with { states := states } st (.report 0)) rest
  have hloop : loop (some st) 0 false { states := states } (some st :: rest) =
      loop (some st) 1 true (continue_with { states := states } st (.report 0)) rest := rfl
  simp only [when_any_ready, hloop]
  split
  · rename_i c hc
    rw [hc]
  · rename_i c hc
    rw [hc] at hvalid
    cases hvalid

theorem when_any_ready_none (states : List (FutureState Cont ν χ Nat)) (rest : List Future) :
    when_any_ready states (none :: rest) = report { states := states } size_t_max true := by
  simp only [when_any_ready, loop_invalid]

theorem when_any_ready_quiet (states : List (FutureState Cont ν χ Nat)) (fs : List Future) :
    Quiet (when_any_ready states fs) := by
  have fresh : Quiet ({ states := states } : Config ν χ) := fun r hr => absurd hr List.not_mem_nil
  cases fs with
  | nil => exact fun r hr => absurd hr List.not_mem_nil
  | cons f rest =>
    cases f with
    | none =>
      rw [when_any_ready_none]
      intro r hr
      rw [(report_pending (c := { states := states }) rfl size_t_max true).2] at hr
      exact Or.inr ⟨_, List.mem_singleton.mp hr⟩
    | some st =>
      rw [when_any_ready_some]
      exact loop_quiet (continue_with_quiet fresh st _) _ _ _ _

theorem others_indices (s : FutureState Nat ν χ Nat) : indices (others s).continuations_ = [] := by
  simp [others, indices]

/-- A valid first entry decides the result. -/
theorem Listed.after_some {l : Listed ν χ} {st : StateId} {rest : List Future}
    (hfs : l.fs = some st :: rest) (es : List (Fulfilment ν χ)) :
    get (l.after es).prm = if ready_after l.now es st then some (.ok 0) else none := by
  have hlt : st < l.states.length := l.has_state st (by simp [hfs])
  have hst : (l.states.map others)[st]? = some (others l.states[st]) := by simp [hlt]
  have hnow : l.now st = ready (others l.states[st]) := by
    simp only [Listed.now, List.getElem?_eq_getElem hlt]
    rfl
  unfold Listed.after
  rw [hfs, when_any_ready_some]
  cases hr : ready (others l.states[st]) with
  | true =>
    have hfirst : get (continue_with { states := l.states.map others } st
        (.report 0)).prm = some (.ok 0) := by
      simp only [continue_with, hst, add_continuation, hr, if_true]
      exact (report_pending (c := { states := l.states.map others }) rfl 0 false).1
    rw [fulfils_settled (loop_settled hfirst _ _ _ _)]
    simp [ready_after, hnow, hr]
  | false =>
    have haw : Awaits (continue_with { states := l.states.map others } st (.report 0)) st := by
      rw [continue_with_entry (c := { states := l.states.map others }) hst hr]
      refine ⟨rfl, ⟨_, [], List.getElem?_set_self (by simpa using hlt), hr, ?_⟩,
        fun st' s hne hs => ?_⟩
      · rw [indices_append, others_indices]
        rfl
      · rw [List.getElem?_set_ne (Ne.symm hne), List.getElem?_map] at hs
        obtain ⟨s₀, -, rfl⟩ := Option.map_eq_some_iff.mp hs
        exact others_indices s₀
    rw [fulfils_awaits (loop_awaits haw _ _ _)]
    simp [ready_after, hnow, hr]

/-- An invalid first entry ends the call at once. -/
theorem Listed.after_none {l : Listed ν χ} (hfs : ∀ st, l.fs.head? ≠ some (some st))
    (es : List (Fulfilment ν χ)) : get (l.after es).prm = some (.ok size_t_max) := by
  unfold Listed.after
  refine fulfils_settled ?_ es
  cases hl : l.fs with
  | nil => rfl
  | cons f rest =>
    cases f with
    | none =>
      rw [when_any_ready_none]
      exact (report_pending (c := { states := _ }) rfl size_t_max true).1
    | some st =>
      rw [hl] at hfs
      exact absurd rfl (hfs st)

/-- What holds of every call. -/
theorem Listed.stays (l : Listed ν χ) {es more : List (Fulfilment ν χ)} (h : es <+: more)
    {r : Except χ Nat} (hr : get (l.after es).prm = some r) :
    get (l.after more).prm = some r := by
  obtain ⟨rest, rfl⟩ := h
  unfold Listed.after
  rw [List.foldl_append]
  exact fulfils_settled hr rest

theorem Listed.quiet (l : Listed ν χ) (es : List (Fulfilment ν χ)) : Quiet (l.after es) := by
  unfold Listed.after
  have h := when_any_ready_quiet (l.states.map others) l.fs
  generalize when_any_ready (l.states.map others) l.fs = c at h
  induction es generalizing c with
  | nil => exact h
  | cons e es ih => exact ih _ (fulfil_quiet h e)

/-- The call keeps its promise in every order of the fulfilments in which the first entry leads,
and in no other one when an entry is valid. -/
theorem when_any_ready_follows_the_first_entry (l : Listed ν χ) (es : List (Fulfilment ν χ)) :
    (∀ pre, pre <+: es → Reports l pre) ↔ (∀ f ∈ l.fs, f = none) ∨ FirstLeads l es := by
  constructor
  · intro h
    by_cases hall : ∀ f ∈ l.fs, f = none
    · exact Or.inl hall
    · right
      have hvalid : ∃ st, some st ∈ l.fs := by
        obtain ⟨f, hf⟩ := Classical.not_forall.mp hall
        obtain ⟨hf, hne⟩ := Classical.not_imp.mp hf
        obtain ⟨st, rfl⟩ := Option.ne_none_iff_exists'.mp hne
        exact ⟨st, hf⟩
      by_cases hhead : ∃ st, l.fs.head? = some (some st)
      · obtain ⟨st, hhead⟩ := hhead
        refine ⟨st, hhead, fun pre hpre st' hst' hready => ?_⟩
        obtain ⟨rest, hfs⟩ : ∃ rest, l.fs = some st :: rest := List.head?_eq_some_iff.mp hhead
        have hfirst := (h pre hpre).first hvalid
        rw [Listed.after_some hfs] at hfirst
        cases hr : ready_after l.now pre st with
        | true => rfl
        | false =>
          simp only [hr, Bool.false_eq_true, if_false] at hfirst
          have hnone : first_index l.now l.fs pre = none := by
            cases hi : first_index l.now l.fs pre with
            | none => rfl
            | some i =>
              rw [hi] at hfirst
              cases hfirst
          rw [first_index_none hnone hst'] at hready
          cases hready
      · have hfirst := (h [] List.nil_prefix).first hvalid
        rw [Listed.after_none (fun st hst => hhead ⟨st, hst⟩)] at hfirst
        obtain ⟨i, hi, hmax⟩ := Option.map_eq_some_iff.mp hfirst.symm
        cases hmax
        -- an index of the list is smaller than `size_t(-1)`
        have hlt := first_index_lt hi
        have := l.fits
        unfold size_t_max at hlt
        simp only [UInt64.size] at hlt this
        omega
  · rintro (hall | ⟨st, hhead, hlead⟩) pre hpre
    · have hhead : ∀ st, l.fs.head? ≠ some (some st) := by
        intro st hst
        have := hall _ (List.mem_of_head? hst)
        cases this
      refine ⟨fun _ => Listed.after_none hhead pre, fun ⟨st, hst⟩ => ?_,
        fun more hmore r hr => l.stays hmore hr, l.quiet pre⟩
      cases hall _ hst
    · obtain ⟨rest, hfs⟩ : ∃ rest, l.fs = some st :: rest := List.head?_eq_some_iff.mp hhead
      refine ⟨fun hall => ?_, fun _ => ?_, fun more hmore r hr => l.stays hmore hr, l.quiet pre⟩
      · cases hall _ (List.mem_of_head? hhead)
      · rw [Listed.after_some hfs, first_index_leads hhead
          (fun pre' hpre' => hlead pre' (hpre'.trans hpre))]
        cases ready_after l.now pre st <;> rfl

/-- Two pending futures. The second one is fulfilled, and the result stays pending. -/
def twoPending : Listed Unit Unit where
  states := [{}, {}]
  fs := [some 0, some 1]
  has_state st h := by
    simp only [List.mem_cons, Option.some.injEq, List.not_mem_nil, or_false] at h
    rcases h with rfl | rfl <;> decide
  fits := by decide

theorem the_second_of_two_is_not_reported :
    get (twoPending.after [⟨1, .ok ()⟩]).prm = none ∧
      first_index twoPending.now twoPending.fs [(⟨1, .ok ()⟩ : Fulfilment Unit Unit)] = some 1 ∧
      ¬ Reports twoPending [⟨1, .ok ()⟩] := by
  refine ⟨rfl, rfl, fun h => ?_⟩
  have := h.first ⟨0, by simp [twoPending]⟩
  cases this

end

end ltl.when_any
