-- The law of `when_all_ready` (when_all.hpp): its promise is set once, by the
-- last decrement of its counter, when every valid future of the list is ready.
import Ltl.Edges
import Ltl.Tokens
import Ltl.TupleMeta

open ltl.future_state runs counts

namespace ltl.futures

variable {α ε : Type}

/-! ## The calls of the setters in the log -/

theorem raise_no_set {x : Exception ε} {k : List (Frame α ε)} {st : StateId} {allow : Bool}
    {r : Locked Id (Exception ε)} : .set st allow r ∉ (raise x k).1 := by
  induction k with
  | nil => simp [raise]
  | cons f k ih =>
    cases f with
    | user b => simp [raise]
    | catch_ rs => simp [raise]
    | try_set rs r => simp [raise]
    | unwrap_try rs s => simp [raise]
    | drain st' cs => simpa [raise] using ih
    | invoking i => simpa [raise] using ih
    | _ => exact ih

theorem SetMove.set_entry {c c' : Config α ε} {t : Nat} {a : Action α ε} {st₀ st : StateId}
    {allow₀ allow : Bool} {k : List (Frame α ε)} {r : Locked Id (Exception ε)}
    (h : SetMove c t a st₀ allow₀ k c') (hm : .set st allow r ∈ c'.log) :
    .set st allow r ∈ c.log ∨ st = st₀ := by
  have noted : ∀ {r'}, .set st allow r ∈ (c.note [.set st₀ allow₀ r']).log →
      .set st allow r ∈ c.log ∨ st = st₀ := by
    intro r' hm
    rcases List.mem_append.mp hm with hm | hm
    · exact Or.inl hm
    · simp only [List.mem_singleton, Entry.set.injEq] at hm
      exact Or.inr hm.1
  cases h with
  | value s v hs hr => exact noted hm
  | exception s x hs hr hx => exact noted hm
  | ignored s hs hr ha => exact noted hm
  | already s hs hr ha =>
    exact noted ((List.mem_append.mp hm).resolve_right raise_no_set)
  | built s x hs hr => exact noted ((List.mem_append.mp hm).resolve_right raise_no_set)

theorem Adds.set_entry {c c₁ : Config α ε} {a : Action α ε} {k k' : List (Frame α ε)}
    {st₀ st : StateId} {kont : Cont} {allow : Bool} {r : Locked Id (Exception ε)}
    (h : Adds c a k c₁ st₀ kont k') (hm : .set st allow r ∈ c₁.log) : .set st allow r ∈ c.log := by
  cases h with
  | unwrap => simpa [Config.note, Config.alloc] using hm
  | _ => exact hm

/-- A setter of `st` that is called stores, or a client calls it, or it is the `set_value` of a
result. -/
theorem step_set_entry {c c' : Config α ε} {t : Nat} {a : Action α ε} {st : StateId}
    {allow : Bool} {r : Locked Id (Exception ε)} (ho : Owned c) (hn : Orderly c (t, a))
    (hs : step c (t, a) = some c') (hm : .set st allow r ∈ c'.log) :
    .set st allow r ∈ c.log ∨ (∃ cs, r = .stored cs) ∨ st ∈ c.promises ∨
      ∃ v k, c.threads[t]? = some (.try_set st (.ok v) :: k) := by
  obtain ⟨-, k, hk, hmove⟩ := step_moves hs
  obtain ⟨k₂, hk₂, hc⟩ := step_calm ho hn hs
  rw [hk] at hk₂
  cases hk₂
  have settled : ∀ {i s s' allow₀} {k' : List (Frame α ε)}, c' = settle c t i allow₀ s s' k' →
      .set st allow r ∈ c.log ∨ ∃ cs, r = .stored cs := by
    intro i s s' allow₀ k' hc
    subst hc
    rcases List.mem_append.mp hm with hm | hm
    · exact Or.inl hm
    · simp only [List.mem_singleton, Entry.set.injEq] at hm
      exact Or.inr ⟨_, hm.2.2⟩
  cases hmove with
  | add h hs =>
    obtain ⟨s, hst, ⟨-, rfl⟩ | ⟨-, rfl⟩⟩ := lockedAdd.spec hs
    · exact Or.inl (h.set_entry (by simpa [Config.put, Config.note, Config.enroll] using hm))
    · exact Or.inl (h.set_entry (by simpa [Config.put, Config.update, Config.enroll] using hm))
  | set h hset =>
    rcases (h.move hset).set_entry hm with hm' | rfl
    · exact Or.inl hm'
    · cases h with
      | set_value hp => exact Or.inr (Or.inr (Or.inl hp))
      | set_exception hp => exact Or.inr (Or.inr (Or.inl hp))
      | try_set built => exact Or.inr (Or.inr (Or.inr ⟨_, _, hk⟩))
      | handler =>
        cases hc with
        | local_ hl =>
          cases hl
          exact Or.inl hm
        | set_exception hs' hr => exact (settled rfl).imp_right Or.inl
        | stored h => cases h
        | run_now h => cases h
        | waited h => cases h
        | first_wait h => cases h
        | wait h => cases h
        | fault h => cases h
      | set_prm =>
        cases hc with
        | local_ hl =>
          cases hl
          exact Or.inl hm
        | set_prm hs' hr => exact (settled rfl).imp_right Or.inl
        | stored h => cases h
        | run_now h => cases h
        | waited h => cases h
        | first_wait h => cases h
        | wait h => cases h
        | fault h => cases h
  | wait hw =>
    obtain ⟨s, hst, ⟨-, rfl⟩ | ⟨-, -, rfl⟩ | ⟨-, -, rfl⟩⟩ := lockedWait.spec hw <;>
      exact Or.inl hm
  | get hw =>
    obtain ⟨s, hst, ⟨-, rfl⟩ | ⟨-, -, rfl⟩ | ⟨-, -, rfl⟩⟩ := lockedWait.spec hw <;>
      exact Or.inl hm
  | dec hd =>
    unfold execDec at hd
    split at hd
    · cases hd
    · dsimp only at hd
      split at hd
      · cases hd
        exact Or.inl hm
      · cases hd
        exact Or.inl hm
  | run => exact Or.inl (by simpa [Config.put, Config.note] using hm)
  | throw_ => exact Or.inl ((List.mem_append.mp hm).resolve_right raise_no_set)
  | _ => exact Or.inl hm

/-! ## The promise -/

/-- A counter that has not come down to zero owns its promise, beside the stacks. -/
theorem owners_of_counter {c : Config α ε} {n : CounterId} {ctr : Counter}
    (hn : c.counters[n]? = some ctr) (hpos : 0 < ctr.count) :
    total (stackOwns ctr.prm) c.threads + 1 ≤ owners c ctr.prm := by
  have hctr := le_total (Counter.owns ctr.prm) c.counters ctr (List.mem_of_getElem? hn)
  have hone : ctr.owns ctr.prm = 1 := by simp [Counter.owns, hpos]
  have hw : owners c ctr.prm = weigh (ownersOf ctr.prm) c := rfl
  have hf : total (total (ownersOf ctr.prm : Weights α ε).frame) c.threads =
    total (stackOwns ctr.prm) c.threads := rfl
  have hc : total (ownersOf ctr.prm : Weights α ε).counter c.counters =
    total (Counter.owns ctr.prm) c.counters := rfl
  unfold weigh at hw
  omega

/-- A state that a counter is to set has no owner in a stack. -/
theorem Owned.counter_frame {c : Config α ε} (ho : Owned c) {n : CounterId} {ctr : Counter}
    (hn : c.counters[n]? = some ctr) (hpos : 0 < ctr.count) {f : Frame α ε}
    (hin : InStack c f) : f.owns ctr.prm = 0 := by
  obtain ⟨k, hk, hfk⟩ := hin
  have hone := ho.one_owner ctr.prm
  have hframe := le_total (Frame.owns ctr.prm) k f hfk
  have hstack := le_total (stackOwns ctr.prm) c.threads k hk
  have hcounter := owners_of_counter hn hpos
  unfold stackOwns at hstack hcounter
  omega

/-- The promise of counter `n`: the counter is to set it, or it is being set, or it is ready. It
never holds an exception, and no setter of it throws. -/
structure Promised (c : Config α ε) (n : CounterId) (prm : StateId) : Prop where
  made : prm < c.states.length
  own : prm ∉ c.promises
  place : (∃ ctr, c.counters[n]? = some ctr ∧ ctr.prm = prm ∧ 0 < ctr.count) ∨
    InStack c (.set_prm prm) ∨ Ready c prm
  value : ∀ r, outcome c prm = some r → r = .ok .unit
  stores : ∀ allow r, .set prm allow r ∈ c.log → ∃ cs, r = .stored cs

/-- The only call that sets the promise is the one of the last decrement. -/
theorem Promised.sole {c : Config α ε} (ho : Owned c) {n : CounterId} {prm : StateId}
    (h : Promised c n prm) {f : Frame α ε} (hin : InStack c f) (hf : f.owns prm = 1) :
    f = .set_prm prm := by
  rcases h.place with ⟨ctr, hn, rfl, hpos⟩ | hset | hr
  · have := ho.counter_frame hn hpos hin
    omega
  · exact ho.same_frame prm hin hset (by omega) (by simp [Frame.owns])
  · have hpos := owners_of_frame hin prm
    exact absurd hr (ho.not_ready (by omega))

theorem set_prm_step {c c' : Config α ε} {t : Nat} {prm : StateId} {k : List (Frame α ε)}
    (hk : c.threads[t]? = some (.set_prm prm :: k)) (h : Calm c t (.set_prm prm :: k) c') :
    c' = c ∨ outcome c' prm = some (.ok .unit) := by
  cases h with
  | local_ hl =>
    cases hl
    exact Or.inl (put_self hk)
  | set_prm hs hr =>
    rename_i s
    refine Or.inr ((outcome_settle_self (u := { s with value_ := some .unit }) hs).trans ?_)
    simp [future_state.get, (pending_absent hr).2]
  | stored h => cases h
  | run_now h => cases h
  | waited h => cases h
  | first_wait h => cases h
  | wait h => cases h
  | fault h => cases h

/-- A counter that is above zero stays so until its last decrement, which sets the promise. -/
theorem counter_step {c c' : Config α ε} {t : Nat} {k : List (Frame α ε)} {n : CounterId}
    {ctr : Counter} (hk : c.threads[t]? = some k) (h : Calm c t k c')
    (hn : c.counters[n]? = some ctr) (hpos : 0 < ctr.count) :
    (∃ ctr', c'.counters[n]? = some ctr' ∧ ctr'.prm = ctr.prm ∧ 0 < ctr'.count) ∨
      InStack c' (.set_prm ctr.prm) := by
  cases calm_tokens (only_dec n) hk h with
  | same he hb hc => exact Or.inl ⟨ctr, by rw [hc, hn], rfl, hpos⟩
  | waited st he hb hb' hne hc hs => exact Or.inl ⟨ctr, by rw [hc, hn], rfl, hpos⟩
  | signalled st he hb' hne hc => exact Or.inl ⟨ctr, by rw [hc, hn], rfl, hpos⟩
  | started fs he hb hc =>
    refine Or.inl ⟨ctr, ?_, rfl, hpos⟩
    rw [hc, List.getElem?_append_left (List.getElem?_eq_some_iff.mp hn).1, hn]
  | counted n' ctr' hn' he hb hc hset =>
    by_cases hne : n' = n
    · subst hne
      rw [hn] at hn'
      cases hn'
      by_cases h1 : ctr.count = 1
      · exact Or.inr (hset h1)
      · refine Or.inl ⟨{ ctr with count := ctr.count - 1 }, ?_, rfl, ?_⟩
        · rw [hc, List.getElem?_set_self (List.getElem?_eq_some_iff.mp hn).1]
        · dsimp only
          omega
    · exact Or.inl ⟨ctr, by rw [hc, List.getElem?_set_ne hne, hn], rfl, hpos⟩

theorem step_promised {c c' : Config α ε} {ev : Nat × Action α ε} {n : CounterId}
    {prm : StateId} (ho : Owned c) (hn : Orderly c ev) (hs : step c ev = some c')
    (h : Promised c n prm) : Promised c' n prm := by
  obtain ⟨t, a⟩ := ev
  obtain ⟨k, hk, hc⟩ := step_calm ho hn hs
  have hgrow := step_grows hs
  have sole : ∀ {f k₀}, k = f :: k₀ → f.owns prm = 1 → f = .set_prm prm := by
    intro f k₀ hk' hf
    subst hk'
    exact h.sole ho (inStack_top hk) hf
  refine ⟨hgrow.lt h.made, ?_, ?_, fun r hr => ?_, fun allow r hm => ?_⟩
  · rcases calm_promises hc with hp | ⟨hp, -, -⟩
    · rw [hp]
      exact h.own
    · rw [hp]
      intro hmem
      rcases List.mem_append.mp hmem with hmem | hmem
      · exact h.own hmem
      · rw [List.mem_singleton] at hmem
        exact absurd h.made (hmem ▸ Nat.lt_irrefl _)
  · rcases h.place with ⟨ctr, hctr, rfl, hpos⟩ | hset | hr
    · rcases counter_step hk hc hctr hpos with hctr' | hset
      · exact Or.inl hctr'
      · exact Or.inr (Or.inl hset)
    · rcases calm_keeps hk hc rfl hset with hset | ⟨k₀, rfl⟩
      · exact Or.inr (Or.inl hset)
      · rcases set_prm_step hk hc with rfl | hout
        · exact Or.inr (Or.inl hset)
        · exact Or.inr (Or.inr (ready_iff_outcome.mpr ⟨_, hout⟩))
    · exact Or.inr (Or.inr (hgrow.ready hr))
  · rcases calm_outcome hc h.made with he | hp | ⟨f, k₀, hk', hf⟩
    · exact h.value r (he ▸ hr)
    · exact absurd hp h.own
    · rcases hf with rfl | ⟨v, rfl, -⟩ | ⟨x, rfl, -⟩
      · subst hk'
        rcases set_prm_step hk hc with rfl | hout
        · exact h.value r hr
        · rw [hout] at hr
          exact (Option.some.inj hr).symm
      · cases sole hk' (by simp [Frame.owns])
      · cases sole hk' (by simp [Frame.owns])
  · rcases step_set_entry ho hn hs hm with hm | hst | hp | ⟨v, k₀, hk'⟩
    · exact h.stores allow r hm
    · exact hst
    · exact absurd hp h.own
    · rw [hk] at hk'
      cases sole (Option.some.inj hk') (by simp [Frame.owns])

/-! ## The counter -/

/-- The decrements of counter `n` that are still to run. -/
def decTokens (c : Config α ε) (n : CounterId) : Nat := tokens (only (.dec n)) c

/-- No decrement of a counter is there before the counter is. -/
def FreshCounters (c : Config α ε) : Prop := ∀ n, c.counters.length ≤ n → decTokens c n = 0

theorem calm_fresh {c c' : Config α ε} {t : Nat} {k : List (Frame α ε)} (hf : FreshCounters c)
    (hk : c.threads[t]? = some k) (h : Calm c t k c') : FreshCounters c' := by
  intro n hn
  cases calm_tokens (only_dec n) hk h with
  | same he hb hc => exact he.trans (hf n (by rwa [hc] at hn))
  | waited st he hb hb' hne hc hs =>
    rw [only_ne (by simp), Nat.add_zero] at he
    exact he.trans (hf n (by rwa [hc] at hn))
  | started fs he hb hc =>
    rw [hc, List.length_append, List.length_singleton] at hn
    have hne : Cont.dec c.counters.length ≠ .dec n := by
      intro heq
      cases heq
      exact absurd hn (Nat.not_succ_le_self _)
    rw [only_ne hne, Nat.mul_zero, Nat.add_zero] at he
    exact he.trans (hf n (Nat.le_of_succ_le hn))
  | counted n' ctr hn' he hb hc hset =>
    rw [hc, List.length_set] at hn
    have := hf n hn
    unfold decTokens at this ⊢
    omega
  | signalled st he hb' hne hc =>
    rw [only_ne (by simp), Nat.add_zero] at he
    exact he.trans (hf n (by rwa [hc] at hn))

theorem reach_fresh {n : Nat} {c : Config α ε} (h : Reach step Orderly (init α ε n) c) :
    FreshCounters c := by
  refine h.invariant_on (Q := Ordered) (fun _ hr => reach_ordered hr) (fun i _ => ?_) ?_
  · have := total_replicate (total (Frame.tokens (only (.dec i)))) n
      [(.user .main : Frame α ε)] rfl
    simpa [decTokens, tokens, weigh, tokensOf, init] using this
  · intro c₁ ev c₂ ho hf hn hs
    obtain ⟨k, hk, hc⟩ := step_calm ho.owned hn hs
    exact calm_fresh hf hk hc

/-- A counter goes on to count the decrements that are still to run. -/
theorem calm_counter {c c' : Config α ε} {t : Nat} {k : List (Frame α ε)}
    (hk : c.threads[t]? = some k) (hc : Calm c t k c') {n : CounterId} {ctr : Counter}
    (hctr : c.counters[n]? = some ctr) (hcount : ctr.count = decTokens c n) :
    ∃ ctr', c'.counters[n]? = some ctr' ∧ ctr'.prm = ctr.prm ∧ ctr'.count = decTokens c' n := by
  have hlt := (List.getElem?_eq_some_iff.mp hctr).1
  unfold decTokens at hcount ⊢
  cases calm_tokens (only_dec n) hk hc with
  | same he hb hc' => exact ⟨ctr, by rw [hc', hctr], rfl, by rw [hcount, he]⟩
  | waited st he hb hb' hne hc' hs =>
    rw [only_ne (by simp), Nat.add_zero] at he
    exact ⟨ctr, by rw [hc', hctr], rfl, by rw [hcount, he]⟩
  | started fs' he hb hc' =>
    have hne : Cont.dec c.counters.length ≠ .dec n := by
      intro heq
      cases heq
      exact absurd hlt (Nat.lt_irrefl _)
    rw [only_ne hne, Nat.mul_zero, Nat.add_zero] at he
    exact ⟨ctr, by rw [hc', List.getElem?_append_left hlt, hctr], rfl, by rw [hcount, he]⟩
  | counted n' ctr' hn' he hb hc' hset =>
    by_cases hne : n' = n
    · subst hne
      rw [hctr] at hn'
      cases hn'
      rw [only_self] at he
      refine ⟨{ ctr with count := ctr.count - 1 }, ?_, rfl, ?_⟩
      · rw [hc', List.getElem?_set_self hlt]
      · dsimp only
        omega
    · rw [only_ne (by simpa using hne), Nat.add_zero] at he
      exact ⟨ctr, by rw [hc', List.getElem?_set_ne hne, hctr], rfl, by rw [hcount, he]⟩
  | signalled st he hb' hne hc' =>
    rw [only_ne (by simp), Nat.add_zero] at he
    exact ⟨ctr, by rw [hc', hctr], rfl, by rw [hcount, he]⟩

/-- Each counter counts the decrements that are still to run. -/
def CountersKept (c : Config α ε) : Prop :=
  ∀ (n : CounterId) (ctr : Counter), c.counters[n]? = some ctr → ctr.count = decTokens c n

theorem calm_countersKept {c c' : Config α ε} {t : Nat} {k : List (Frame α ε)}
    (h : CountersKept c) (hf : FreshCounters c) (hk : c.threads[t]? = some k)
    (hc : Calm c t k c') : CountersKept c' := by
  intro n ctr' hctr'
  by_cases hlt : n < c.counters.length
  · have hctr := List.getElem?_eq_getElem hlt
    obtain ⟨ctr, hn, -, hcount⟩ := calm_counter hk hc hctr (h n _ hctr)
    rw [hctr'] at hn
    cases hn
    exact hcount
  -- only the start of `when_all_ready` makes a counter
  · have hle := Nat.le_of_not_lt hlt
    have hlt' := (List.getElem?_eq_some_iff.mp hctr').1
    cases calm_tokens (only_dec n) hk hc with
    | same he hb hc' => exact absurd (hc' ▸ hlt') hlt
    | waited st he hb hb' hne hc' hs => exact absurd (hc' ▸ hlt') hlt
    | signalled st he hb' hne hc' => exact absurd (hc' ▸ hlt') hlt
    | counted n' ctr hn' he hb hc' hset =>
      rw [hc', List.length_set] at hlt'
      exact absurd hlt' hlt
    | started fs he hb hc' =>
      rw [hc', List.length_append, List.length_singleton] at hlt'
      obtain rfl : n = c.counters.length := Nat.le_antisymm (Nat.le_of_lt_succ hlt') hle
      rw [hc', List.getElem?_concat_length] at hctr'
      cases hctr'
      have hzero := hf _ hle
      unfold decTokens at hzero ⊢
      rw [only_self, Nat.mul_one, hzero, Nat.zero_add] at he
      rw [he]

theorem reach_countersKept {n : Nat} {c : Config α ε} (h : Reach step Orderly (init α ε n) c) :
    CountersKept c := by
  refine h.invariant_on (Q := fun c => Owned c ∧ FreshCounters c)
    (fun _ hr => ⟨reach_owned hr, reach_fresh hr⟩) (fun _ _ hm => nomatch hm) ?_
  intro c₁ ev c₂ ⟨ho, hf⟩ hcount hn hs
  obtain ⟨k, hk, hc⟩ := step_calm ho hn hs
  exact calm_countersKept hcount hf hk hc

/-- A decrement that is stored is one of a counter that is to set its promise. -/
theorem CountersKept.owners_of_dec {c : Config α ε} (h : CountersKept c) {st : StateId} {i : Id}
    {n : CounterId} {ctr : Counter} (hd : Stored c st (i, .dec n))
    (hn : c.counters[n]? = some ctr) : 0 < owners c ctr.prm := by
  have htok := tokens_of_stored (g := only (.dec n)) hd
  rw [only_self] at htok
  have hcount := h n ctr hn
  unfold decTokens at hcount
  have howners := owners_of_counter hn (by omega)
  omega

/-- A valid future of the list is ready, or the loop has not come to it, or it holds the decrement
that the loop registered. -/
inductive Covered (c : Config α ε) (n : CounterId) (st : StateId) : Prop where
  | ready (h : Ready c st)
  | listed (fs) (h : InStack c (.register n fs)) (hst : some st ∈ fs)
  | stored (i : Id) (h : Stored c st (i, .dec n))

/-- The counter of a call of `when_all_ready` on `fs` counts the decrements that are still to
run, and these are for futures of the list. -/
structure Counting (c : Config α ε) (n : CounterId) (prm : StateId) (fs : List Future) :
    Prop where
  counter : ∃ ctr, c.counters[n]? = some ctr ∧ ctr.prm = prm ∧ ctr.count = decTokens c n
  covered : ∀ st, some st ∈ fs → Covered c n st
  loop : ∀ fs', InStack c (.register n fs') → ∀ f ∈ fs', f ∈ fs
  stored : ∀ st i, Stored c st (i, .dec n) → some st ∈ fs
  draining : ∀ st i, Draining c st (i, .dec n) → some st ∈ fs

theorem counting_start {c : Config α ε} {t : Nat} {fs : List Future} {q : Option Nat} {b : Body}
    {k k' : List (Frame α ε)} (hf : FreshCounters c) (hk : c.threads[t]? = some (.user b :: k))
    (hk' : k' = .user b :: k ∨ ∃ prm, k' = .when_all_then prm fs :: .user b :: k) :
    Counting (startWhenAllReady c t fs q k') c.counters.length c.states.length fs := by
  have hzero := hf c.counters.length (Nat.le_refl _)
  unfold decTokens at hzero
  have htok := startWhenAllReady_tokens (g := only (.dec c.counters.length)) fs q k' hk
  have hstack : stackTokens (only (.dec c.counters.length)) k' =
      stackTokens (only (.dec c.counters.length)) (.user b :: k) := by
    rcases hk' with rfl | ⟨prm, rfl⟩ <;> simp [Frame.tokens]
  rw [only_self, Nat.mul_one] at htok
  have hold : ∀ f : Frame α ε, f ≠ .register c.counters.length fs →
      (∀ prm, f ≠ .when_all_then prm fs) →
      InStack (startWhenAllReady c t fs q k') f → InStack c f := by
    intro f hne hne' hin
    rcases inStack_of_set (c := c) (l := .register c.counters.length fs :: k') rfl hin with
      hin | hin
    · have hmem : f ∈ .user b :: k := by
        rcases hk' with rfl | ⟨prm, rfl⟩
        · exact (List.mem_cons.mp hin).resolve_left hne
        · have := (List.mem_cons.mp hin).resolve_left hne
          exact (List.mem_cons.mp this).resolve_left (hne' prm)
      exact ⟨_, List.mem_of_getElem? hk, hmem⟩
    · exact hin
  have no_stored : ∀ st i, ¬ Stored c st (i, .dec c.counters.length) := by
    intro st i h
    have := tokens_of_stored (g := only (.dec c.counters.length)) h
    simp only [only_self] at this
    omega
  refine ⟨⟨⟨fs.length, c.states.length⟩, ?_, rfl, ?_⟩, fun st hst => ?_, fun fs' hin f hf' => ?_,
    fun st i h => ?_, fun st i h => ?_⟩
  · simp [startWhenAllReady, Config.put, Config.alloc]
  · unfold decTokens
    dsimp only
    omega
  · exact .listed fs (inStack_put (c := { c.alloc { await_queue_ := q } with
      counters := c.counters ++ [⟨fs.length, c.states.length⟩] }) hk (by simp)) hst
  · by_cases hfs : fs' = fs
    · exact hfs ▸ hf'
    · have hin' := hold (.register c.counters.length fs') (by simpa using hfs) (by simp) hin
      have := tokens_of_frame (g := only (.dec c.counters.length)) hin'
      simp only [Frame.tokens, only_self, Nat.mul_one] at this
      have hlen : fs'.length = 0 := by omega
      rw [List.length_eq_zero_iff] at hlen
      rw [hlen] at hf'
      cases hf'
  · exact absurd (stored_of_append (l := [_]) rfl (by simp) h) (no_stored st i)
  · obtain ⟨cs, hin, hp⟩ := h
    have := tokens_of_draining (g := only (.dec c.counters.length))
      ⟨cs, hold _ (by simp) (by simp) hin, hp⟩
    simp only [only_self] at this
    omega

/-- The loop of `when_all_ready` goes to the next future. -/
theorem register_step {c c' : Config α ε} {t : Nat} {n : CounterId} {fs : List Future}
    {k : List (Frame α ε)} {st : StateId} (hk : c.threads[t]? = some (.register n fs :: k))
    (h : Calm c t (.register n fs :: k) c') (hst : some st ∈ fs) : Covered c' n st := by
  cases h with
  | local_ hl =>
    cases hl with
    | stay => exact .listed fs (inStack_put hk (by simp)) hst
    | registered => cases hst
    | counted =>
      rename_i fs'
      exact .listed fs' (inStack_put hk (by simp)) (by simpa using hst)
  | stored h hs hr =>
    rename_i a c₁ st' s kont k'
    cases h with
    | register =>
      rename_i fs'
      rcases List.mem_cons.mp hst with he | hst
      · cases he
        exact .stored c.sources.length ⟨_, update_self (c := c.enroll st) _ hs, by simp⟩
      · exact .listed fs' (inStack_put (c := (c.enroll st').update st' _) hk (by simp)) hst
  | run_now h hs hr =>
    rename_i a c₁ st' s kont k'
    cases h with
    | register =>
      rename_i fs'
      rcases List.mem_cons.mp hst with he | hst
      · cases he
        exact .ready ⟨s, hs, hr⟩
      · exact .listed fs' (inStack_put (c := (c.enroll st').note _) hk (by simp)) hst
  | waited h => cases h
  | first_wait h => cases h
  | wait h => cases h
  | fault h => cases h

theorem step_counting {c c' : Config α ε} {ev : Nat × Action α ε} {n : CounterId}
    {prm : StateId} {fs : List Future} (ho : Ordered c) (hn : Orderly c ev)
    (hs : step c ev = some c') (h : Counting c n prm fs) : Counting c' n prm fs := by
  obtain ⟨t, a⟩ := ev
  obtain ⟨k, hk, hc⟩ := step_calm ho.owned hn hs
  have hgood := step_good ho.good hn.1 hs
  obtain ⟨ctr, hctr, hprm, hcount⟩ := h.counter
  have hlt := (List.getElem?_eq_some_iff.mp hctr).1
  refine ⟨?_, fun st hst => ?_, fun fs' hin => ?_, fun st i hstored => ?_, fun st i hd => ?_⟩
  · obtain ⟨ctr', hctr', hprm', hcount'⟩ := calm_counter hk hc hctr hcount
    exact ⟨ctr', hctr', hprm'.trans hprm, hcount'⟩
  · cases h.covered st hst with
    | ready hr => exact .ready ((step_grows hs).ready hr)
    | listed fs' hin hst' =>
      rcases calm_keeps hk hc rfl hin with hin | ⟨k₀, rfl⟩
      · exact .listed fs' hin hst'
      · exact register_step hk hc hst'
    | stored i hstored =>
      rcases calm_moved hk hc _ _ hstored with hstored | ⟨cs, ⟨k₁, hk₁, hf⟩, -⟩
      · exact .stored i hstored
      · exact .ready (hgood.threads k₁ hk₁ _ hf).1
  · rcases calm_loops hk hc rfl hin with hin | hl
    · exact h.loop fs' hin
    · cases hl with
      | next n f fs' k₀ hk' =>
        subst hk'
        exact fun f' hf' => h.loop _ (inStack_top hk) f' (List.mem_cons_of_mem _ hf')
      | started => exact absurd hlt (Nat.lt_irrefl _)
  · rcases calm_stored hc hstored with hstored | ⟨-, hreg⟩
    · exact h.stored st i hstored
    · cases hreg with
      | add hadd hst hr hc' =>
        cases hadd with
        | register => exact h.loop _ (inStack_top hk) _ List.mem_cons_self
  · rcases calm_drained hk hc hd with hd | hstored
    · exact h.draining st i hd
    · exact h.stored st i hstored

/-! ## The law of a list -/

/-- What is still to be done for the promise of a call of `when_all_ready` on `fs`: its loop runs,
or a valid future of the list is not ready, or the setter of one is still to call the decrement,
or the decrement or the `set_value` of the promise runs. -/
inductive Unfinished (c : Config α ε) (n : CounterId) (prm : StateId) (fs : List Future) :
    Prop where
  | looping (fs') (h : InStack c (.register n fs'))
  | pending (st) (h : some st ∈ fs) (hr : ¬ Ready c st)
  | draining (st) (i : Id) (h : some st ∈ fs) (hd : Draining c st (i, .dec n))
  | running (h : InStack c (.exec (.dec n)) ∨ InStack c (.set_prm prm))

/-- The promise `prm` of a call of `when_all_ready` on `fs`. -/
structure AllReady (c : Config α ε) (n : CounterId) (prm : StateId) (fs : List Future) :
    Prop where
  once : stores prm c ≤ 1
  after_all : Ready c prm → ∀ st, some st ∈ fs → Ready c st
  no_throw : ∀ allow r, .set prm allow r ∈ c.log → ∃ cs, r = .stored cs
  value : ∀ r, outcome c prm = some r → r = .ok .unit
  completes : Ready c prm ∨ Unfinished c n prm fs

/-- A call of `when_all_ready` on `fs` that has started. -/
structure Started (c : Config α ε) (n : CounterId) (prm : StateId) (fs : List Future) :
    Prop where
  promised : Promised c n prm
  counting : (fs = [] ∧ Ready c prm) ∨ Counting c n prm fs

/-- Where the promise is ready, the counter has come down to zero. -/
theorem Counting.zero {c : Config α ε} {n : CounterId} {prm : StateId} {fs : List Future}
    (ho : Owned c) (h : Counting c n prm fs) (hr : Ready c prm) : decTokens c n = 0 := by
  obtain ⟨ctr, hn, rfl, hcount⟩ := h.counter
  by_cases hpos : 0 < ctr.count
  · have hcounter := owners_of_counter hn hpos
    exact absurd hr (ho.not_ready (by omega))
  · omega

theorem Counting.after_all {c : Config α ε} {n : CounterId} {prm : StateId} {fs : List Future}
    (ho : Owned c) (h : Counting c n prm fs) (hr : Ready c prm) (st : StateId)
    (hst : some st ∈ fs) : Ready c st := by
  have hzero := h.zero ho hr
  unfold decTokens at hzero
  cases h.covered st hst with
  | ready hr => exact hr
  | listed fs' hin hst' =>
    have := tokens_of_frame (g := only (.dec n)) hin
    simp only [Frame.tokens, only_self, Nat.mul_one] at this
    have := List.length_pos_of_mem hst'
    omega
  | stored i hstored =>
    have := tokens_of_stored (g := only (.dec n)) hstored
    simp only [only_self] at this
    omega

/-- A promise that is not set has something to wait for. -/
theorem Counting.unfinished {c : Config α ε} {n : CounterId} {prm : StateId} {fs : List Future}
    (hg : Good c) (h : Counting c n prm fs) (hp : Promised c n prm) :
    Ready c prm ∨ Unfinished c n prm fs := by
  obtain ⟨ctr, hn, hprm, hcount⟩ := h.counter
  rcases hp.place with ⟨ctr', hn', -, hpos⟩ | hset | hr
  · rw [hn] at hn'
    cases hn'
    have htok : tokens (only (.dec n)) c ≠ 0 := by
      unfold decTokens at hcount
      omega
    cases waiting_of_tokens htok with
    | stored st i hst =>
      exact Or.inr (.pending st (h.stored st i hst) (hst.not_ready hg))
    | draining st i hd => exact Or.inr (.draining st i (h.draining st i hd) hd)
    | called hin => exact Or.inr (.running (Or.inl hin))
    | listed n' fs' hin hn' =>
      cases hn'
      exact Or.inr (.looping fs' hin)
  · exact Or.inr (.running (Or.inr hset))
  · exact Or.inl hr

theorem Started.allReady {c : Config α ε} {n : CounterId} {prm : StateId} {fs : List Future}
    (ho : Ordered c) (hone : StoredOnce c) (h : Started c n prm fs) : AllReady c n prm fs := by
  have honce : stores prm c ≤ 1 := by
    rcases hone prm with h0 | ⟨h1, -⟩ <;> omega
  rcases h.counting with ⟨rfl, hr⟩ | hc
  · exact ⟨honce, by simp, h.promised.stores, h.promised.value, Or.inl hr⟩
  · exact ⟨honce, hc.after_all ho.owned, h.promised.stores, h.promised.value,
      hc.unfinished ho.good h.promised⟩

theorem step_started {c c' : Config α ε} {ev : Nat × Action α ε} {n : CounterId}
    {prm : StateId} {fs : List Future} (ho : Ordered c) (hn : Orderly c ev)
    (hs : step c ev = some c') (h : Started c n prm fs) : Started c' n prm fs := by
  refine ⟨step_promised ho.owned hn hs h.promised, ?_⟩
  rcases h.counting with ⟨hfs, hr⟩ | hc
  · exact Or.inl ⟨hfs, (step_grows hs).ready hr⟩
  · exact Or.inr (step_counting ho hn hs hc)

/-! ## The start -/

/-- Every state that a setter was called on exists. -/
def SetKnown (c : Config α ε) : Prop :=
  ∀ st allow r, .set st allow r ∈ c.log → st < c.states.length

theorem Ready.lt {c : Config α ε} {st : StateId} (h : Ready c st) : st < c.states.length := by
  obtain ⟨s, hs, -⟩ := h
  exact (List.getElem?_eq_some_iff.mp hs).1

theorem step_setKnown {c c' : Config α ε} {ev : Nat × Action α ε} (ho : Ordered c)
    (hn : Orderly c ev) (hs : step c ev = some c') (h : SetKnown c) : SetKnown c' := by
  obtain ⟨t, a⟩ := ev
  have hgrow := step_grows hs
  have hgood := step_good ho.good hn.1 hs
  intro st allow r hm
  rcases step_set_entry ho.owned hn hs hm with hm' | ⟨cs, rfl⟩ | hp | ⟨v, k, hk⟩
  · exact hgrow.lt (h st allow r hm')
  · exact Ready.lt (hgood.log _ hm)
  · exact hgrow.lt (ho.owned.promised st hp).1
  · have hpos := owners_of_frame (inStack_top hk) st
    simp only [Frame.owns, one_self] at hpos
    obtain ⟨s, hs', -⟩ := ho.owned.pending st hpos
    exact hgrow.lt (List.getElem?_eq_some_iff.mp hs').1

theorem reach_setKnown {n : Nat} {c : Config α ε} (h : Reach step Orderly (init α ε n) c) :
    SetKnown c :=
  h.invariant_on (fun _ hr => reach_ordered hr) (by simp [SetKnown, init])
    (fun _ _ _ ho hk hn hs => step_setKnown ho hn hs hk)

/-- A state that is made by a call of `when_all_ready`. -/
theorem promised_new {c c' : Config α ε} {n : CounterId} {s : State α ε} (ho : Owned c)
    (hk : SetKnown c) (hstates : c'.states = c.states ++ [s]) (hlog : c'.log = c.log)
    (hprm : c'.promises = c.promises) (hval : ∀ r, get s = some r → r = .ok .unit)
    (hplace : (∃ ctr, c'.counters[n]? = some ctr ∧ ctr.prm = c.states.length ∧ 0 < ctr.count) ∨
      InStack c' (.set_prm c.states.length) ∨ Ready c' c.states.length) :
    Promised c' n c.states.length := by
  refine ⟨by simp [hstates], fun hm => ?_, hplace, fun r hr => hval r ?_, fun allow r hm => ?_⟩
  · rw [hprm] at hm
    exact absurd (ho.promised _ hm).1 (Nat.lt_irrefl _)
  · rw [← hr]
    simp [outcome, hstates]
  · rw [hlog] at hm
    exact absurd (hk _ _ _ hm) (Nat.lt_irrefl _)

theorem started_loop {n : Nat} {c : Config α ε} {t : Nat} {fs : List Future} {q : Option Nat}
    {b : Body} {k k' : List (Frame α ε)} (h : Reach step Orderly (init α ε n) c) (hfs : fs ≠ [])
    (hk : c.threads[t]? = some (.user b :: k))
    (hk' : k' = .user b :: k ∨ ∃ prm, k' = .when_all_then prm fs :: .user b :: k) :
    Started (startWhenAllReady c t fs q k') c.counters.length c.states.length fs := by
  refine ⟨promised_new (reach_ordered h).owned (reach_setKnown h) (s := { await_queue_ := q })
    rfl rfl rfl (by simp [future_state.get]) (Or.inl ⟨⟨fs.length, c.states.length⟩, ?_, rfl, ?_⟩),
    Or.inr (counting_start (reach_fresh h) hk hk')⟩
  · simp [startWhenAllReady, Config.put, Config.alloc]
  · have := List.length_pos_iff.mpr hfs
    dsimp only
    omega

/-- A call of `when_all_ready` starts. -/
theorem started_call {n : Nat} {c c' : Config α ε} {t : Nat} {fs : List Future} {q : Option Nat}
    (h : Reach step Orderly (init α ε n) c)
    (hs : step c (t, .when_all_ready fs q) = some c') :
    Started c' c.counters.length c.states.length fs := by
  obtain ⟨-, k, hk, -⟩ := step_moves hs
  cases k with
  | nil => simp [step, hk] at hs
  | cons f k =>
    cases f with
    | user b =>
      have hcall := step_call hk hs
      cases fs with
      | nil =>
        cases hcall
        have hready : Ready (c.alloc { value_ := some .unit }) c.states.length :=
          ⟨{ value_ := some .unit }, by simp [Config.alloc], rfl⟩
        exact ⟨promised_new (reach_ordered h).owned (reach_setKnown h)
          (s := { value_ := some .unit }) rfl rfl rfl (by simp [future_state.get])
          (Or.inr (Or.inr hready)), Or.inl ⟨rfl, hready⟩⟩
      | cons f fs =>
        cases hcall
        exact started_loop h (by simp) hk (Or.inl rfl)
    | _ =>
      obtain ⟨b, hb, -⟩ := step_tick hk (by simp) hs
      cases hb

/-! ## The tuple overload -/

/-- A piece of the code of one thread: what it gives back and the configuration after it. -/
def Code (α ε β : Type) : Type := Config α ε → β → Config α ε → Prop

instance : Monad (Code α ε) where
  pure b := fun c b' c' => b' = b ∧ c' = c
  bind x f := fun c b c' => ∃ a c₁, x c a c₁ ∧ f a c₁ b c'

theorem Code.ext {β : Type} {x y : Code α ε β} (h : ∀ c b c', x c b c' ↔ y c b c') : x = y :=
  funext fun c => funext fun b => funext fun c' => propext (h c b c')

instance : LawfulMonad (Code α ε) := LawfulMonad.mk' (Code α ε)
  (fun x => Code.ext fun c b c' => by
    constructor
    · rintro ⟨a, c₁, hx, rfl, rfl⟩
      exact hx
    · exact fun hx => ⟨b, c', hx, rfl, rfl⟩)
  (fun a f => Code.ext fun c b c' => by
    constructor
    · rintro ⟨a', c₁, ⟨rfl, rfl⟩, hf⟩
      exact hf
    · exact fun hf => ⟨a, c, ⟨rfl, rfl⟩, hf⟩)
  (fun x f g => Code.ext fun c b c' => by
    constructor
    · rintro ⟨a, c₁, ⟨a', c₂, hx, hf⟩, hg⟩
      exact ⟨a', c₂, hx, a, c₁, hf, hg⟩
    · rintro ⟨a', c₂, hx, a, c₁, hf, hg⟩
      exact ⟨a, c₁, ⟨a', c₂, hx, hf⟩, hg⟩)

section
variable (ok : Config α ε → Nat × Action α ε → Prop) (t : Nat)

/-- Thread `t` makes a call, after any steps of any threads. It gives back the configuration in
which the call is made. -/
def makes (a : Action α ε) : Code α ε (Config α ε) :=
  fun c c₁ c' => Reach step ok c c₁ ∧ ok c₁ (t, a) ∧ step c₁ (t, a) = some c'

/-- `to_future_void` of the tuple overload. The function of `then` ignores everything, and
`make_ready_future()` does what `when_all_ready` does for no futures. -/
def to_future_void : Future → Code α ε Future
  | some st => do
    let c ← makes ok t (.then_ (some st) .ignore)
    pure (some c.states.length)
  | none => do
    let c ← makes ok t (.when_all_ready [] none)
    pure (some c.states.length)

/-- `when_all_ready` of a tuple. It gives back the list `vf` and the configuration in which its
last call is made. -/
def when_all_ready_tuple (fs : List Future) (q : Option Nat) :
    Code α ε (List Future × Config α ε) := do
  let vf ← tuple_meta.tuple_transform fs (to_future_void ok t) [] 0
  let c ← makes ok t (.when_all_ready vf q)
  pure (vf, c)

end

/-- The future `g` that `to_future_void` made of `f`. -/
def Voided (w : Contract α ε) (c : Config α ε) (f g : Future) : Prop :=
  ∃ rs, g = some rs ∧ match f with
    | some src => EdgeAt w c ⟨src, rs, .ignore⟩
    | none => Ready c rs

section
variable {ok : Config α ε → Nat × Action α ε → Prop} {w : Contract α ε}

/-- The runs that `ok` allows are orderly and keep to the contract. -/
structure Within (ok : Config α ε → Nat × Action α ε → Prop) (w : Contract α ε) : Prop where
  stable : w.Stable
  orderly : ∀ c ev, ok c ev → Orderly c ev
  allows : ∀ c ev, ok c ev → w.Allows c ev

theorem Within.reach (hok : Within ok w) {c c' : Config α ε} (h : Reach step ok c c') :
    Reach step Orderly c c' := h.mono hok.orderly

/-- An edge lives on in every run. -/
theorem reach_edge (hok : Within ok w) {c c' : Config α ε} {e : Edge} (ho : Ordered c)
    (hsim : e.func.simple = true) (h : Reach step ok c c') (he : EdgeAt w c e) :
    EdgeAt w c' e := by
  refine (h.invariant (P := fun c => Ordered c ∧ EdgeAt w c e) ⟨ho, he⟩ ?_).2
  intro c₁ ev c₂ ⟨ho, he⟩ hn hs
  exact ⟨step_ordered ho (hok.orderly _ _ hn) hs, step_edge hok.stable ho.good ho.owned
    (hok.orderly _ _ hn) (hok.allows _ _ hn) hsim hs he⟩

theorem Voided.reach (hok : Within ok w) {c c' : Config α ε} {f g : Future} (ho : Ordered c)
    (h : Reach step ok c c') (hv : Voided w c f g) : Voided w c' f g := by
  obtain ⟨rs, rfl, hv⟩ := hv
  refine ⟨rs, rfl, ?_⟩
  cases f with
  | some src => exact reach_edge hok ho rfl h hv
  | none => exact (reach_grows h).ready hv

theorem voids_reach (hok : Within ok w) {c c' : Config α ε} {fs vf : List Future}
    (ho : Ordered c) (h : Reach step ok c c') (hv : List.Forall₂ (Voided w c) fs vf) :
    List.Forall₂ (Voided w c') fs vf := List.Forall₂.imp (fun _ _ hv => hv.reach hok ho h) hv

/-- The top of a stack from which client code makes a call. -/
theorem call_top {c c' : Config α ε} {t : Nat} {a : Action α ε} (ha : ∀ b, a ≠ .tick b)
    (hs : step c (t, a) = some c') : ∃ b k, c.threads[t]? = some (.user b :: k) := by
  obtain ⟨-, k, hk, -⟩ := step_moves hs
  cases k with
  | nil => simp [step, hk] at hs
  | cons f k =>
    cases f with
    | user b => exact ⟨b, k, hk⟩
    | _ =>
      obtain ⟨b, hb, -⟩ := step_tick hk (by simp) hs
      exact absurd hb (ha b)

/-- `to_future_void` gives back a future that is ready when the given one is. -/
theorem to_future_void_spec {t : Nat} {c c' : Config α ε} {f g : Future}
    (hc : to_future_void ok t f c g c') : Reach step ok c c' ∧ Voided w c' f g := by
  cases f with
  | some src =>
    obtain ⟨c₁, c₂, ⟨hr, hn, hs⟩, rfl, rfl⟩ := hc
    obtain ⟨b, k, hk⟩ := call_top (by simp) hs
    exact ⟨hr.next hn hs, _, rfl, then_edge hk hs⟩
  | none =>
    obtain ⟨c₁, c₂, ⟨hr, hn, hs⟩, rfl, rfl⟩ := hc
    obtain ⟨b, k, hk⟩ := call_top (by simp) hs
    cases step_call hk hs
    exact ⟨hr.next hn hs, _, rfl, ⟨{ value_ := some .unit }, by simp [Config.alloc], rfl⟩⟩

theorem transform_spec (hok : Within ok w) {n t : Nat} {c c' : Config α ε} {fs vf : List Future}
    (h : Reach step ok (init α ε n) c) (hc : fs.mapM (to_future_void ok t) c vf c') :
    Reach step ok c c' ∧ List.Forall₂ (Voided w c') fs vf := by
  induction fs generalizing c vf with
  | nil =>
    obtain ⟨rfl, rfl⟩ := hc
    exact ⟨Reach.start _, .nil⟩
  | cons f fs ih =>
    rw [List.mapM_cons] at hc
    obtain ⟨g, c₁, hf, gs, c₂, hrest, rfl, rfl⟩ := hc
    obtain ⟨hr, hv⟩ := to_future_void_spec (w := w) hf
    obtain ⟨hr', hvs⟩ := ih (h.trans hr) hrest
    have ho := reach_ordered (hok.reach (h.trans hr))
    exact ⟨hr.trans hr', .cons (hv.reach hok ho hr') hvs⟩

/-- The tuple overload is `when_all_ready` on the list that `to_future_void` made. -/
theorem tuple_spec (hok : Within ok w) {n t : Nat} {c c₁ c' : Config α ε} {fs vf : List Future}
    {q : Option Nat} (h : Reach step ok (init α ε n) c)
    (hc : when_all_ready_tuple ok t fs q c (vf, c₁) c') :
    Reach step ok (init α ε n) c₁ ∧ ok c₁ (t, .when_all_ready vf q) ∧
      step c₁ (t, .when_all_ready vf q) = some c' ∧ List.Forall₂ (Voided w c') fs vf := by
  unfold when_all_ready_tuple at hc
  rw [tuple_meta.tuple_transform_eq_mapM] at hc
  obtain ⟨vf', c₂, htr, c₃, c₄, ⟨hr, hn, hs⟩, heq, rfl⟩ := hc
  cases heq
  obtain ⟨hr', hv⟩ := transform_spec hok h htr
  have hreach := (h.trans hr').trans hr
  have ho := reach_ordered (hok.reach (h.trans hr'))
  exact ⟨hreach, hn, hs, voids_reach hok ho (hr.next hn hs) hv⟩

end

/-- What is still to be done for the promise of the tuple overload on `fs`: as in `Unfinished`, and
a continuation that ignores the outcome of a future of the tuple may still run. -/
inductive TupleUnfinished (c : Config α ε) (n : CounterId) (prm : StateId)
    (fs vf : List Future) : Prop where
  | looping (fs') (h : InStack c (.register n fs'))
  | pending (st) (h : some st ∈ fs) (hr : ¬ Ready c st)
  | ignoring (rs k) (h : some rs ∈ vf) (hk : k ∈ c.threads) (hrs : stackOwns rs k ≠ 0)
  | draining (rs) (i : Id) (h : some rs ∈ vf) (hd : Draining c rs (i, .dec n))
  | running (h : InStack c (.exec (.dec n)) ∨ InStack c (.set_prm prm))

/-- The promise `prm` of a call of the tuple overload on `fs`, with the futures `vf` that
`to_future_void` made. -/
structure TupleReady (c : Config α ε) (n : CounterId) (prm : StateId) (fs vf : List Future) :
    Prop where
  once : stores prm c ≤ 1
  after_all : Ready c prm → ∀ st, some st ∈ fs → Ready c st
  no_throw : ∀ allow r, .set prm allow r ∈ c.log → ∃ cs, r = .stored cs
  value : ∀ r, outcome c prm = some r → r = .ok .unit
  completes : Ready c prm ∨ TupleUnfinished c n prm fs vf

theorem exists_of_forall₂ {β γ : Type} {R : β → γ → Prop} {l : List β} {l' : List γ}
    (h : List.Forall₂ R l l') : (∀ a ∈ l, ∃ b ∈ l', R a b) ∧ ∀ b ∈ l', ∃ a ∈ l, R a b := by
  induction h with
  | nil => simp
  | cons hab hrest ih =>
    obtain ⟨ih1, ih2⟩ := ih
    refine ⟨fun a ha => ?_, fun b hb => ?_⟩
    · rcases List.mem_cons.mp ha with rfl | ha
      · exact ⟨_, List.mem_cons_self, hab⟩
      · obtain ⟨b, hb, hr⟩ := ih1 a ha
        exact ⟨b, List.mem_cons_of_mem _ hb, hr⟩
    · rcases List.mem_cons.mp hb with rfl | hb
      · exact ⟨_, List.mem_cons_self, hab⟩
      · obtain ⟨a, ha, hr⟩ := ih2 b hb
        exact ⟨a, List.mem_cons_of_mem _ ha, hr⟩

theorem AllReady.tuple {w : Contract α ε} {c : Config α ε} {n : CounterId} {prm : StateId}
    {fs vf : List Future} (ho : Ordered c) (hv : List.Forall₂ (Voided w c) fs vf)
    (h : AllReady c n prm vf) : TupleReady c n prm fs vf := by
  obtain ⟨hfs, hvf⟩ := exists_of_forall₂ hv
  refine ⟨h.once, fun hr st hst => ?_, h.no_throw, h.value, ?_⟩
  · obtain ⟨g, hg, rs, rfl, hat⟩ := hfs _ hst
    obtain ⟨r, hr⟩ := ready_iff_outcome.mp (h.after_all hr rs hg)
    obtain ⟨r₀, hright, -⟩ := hat.outcome ho.owned hr
    exact hright.ready
  · rcases h.completes with hr | hun
    · exact Or.inl hr
    · right
      cases hun with
      | looping fs' hin => exact .looping fs' hin
      | draining rs i hrs hd => exact .draining rs i hrs hd
      | running hin => exact .running hin
      | pending rs hrs hnot =>
        obtain ⟨f, hf, rs', heq, hat⟩ := hvf _ hrs
        cases heq
        cases f with
        | none => exact absurd hat hnot
        | some src =>
          by_cases hidle : ∀ k ∈ c.threads, stackOwns rs k = 0
          · refine .pending src hf (fun hsrc => hnot ?_)
            exact (hat.ready_iff ho.good ho.owned hidle).mpr hsrc
          · obtain ⟨k, hk⟩ := Classical.not_forall.mp hidle
            obtain ⟨hk, hne⟩ := Classical.not_imp.mp hk
            exact .ignoring rs k hrs hk hne

/-- The contract of client code that may do anything. -/
def anything : Contract α ε where
  ends _ _ _ := True
  stores _ _ := True

theorem within_anything : Within (α := α) (ε := ε) Orderly anything := by
  refine ⟨?_, fun _ _ h => h, fun _ _ _ => ?_⟩
  · exact fun _ _ _ _ _ _ => trivial
  · exact ⟨fun _ _ _ _ _ => trivial, fun _ _ _ _ _ => trivial, fun _ _ _ _ _ _ => trivial⟩

theorem Started.reach {n : Nat} {c c' : Config α ε} {i : CounterId} {prm : StateId}
    {fs : List Future} (h₀ : Reach step Orderly (init α ε n) c) (h : Reach step Orderly c c')
    (hs : Started c i prm fs) : AllReady c' i prm fs := by
  have hreach := h₀.trans h
  have hst : Started c' i prm fs := by
    refine (h.invariant (P := fun c => Ordered c ∧ Started c i prm fs) ⟨reach_ordered h₀, hs⟩ ?_).2
    intro c₁ ev c₂ ⟨ho, hs⟩ hn hstep
    exact ⟨step_ordered ho hn hstep, step_started ho hn hstep hs⟩
  exact hst.allReady (reach_ordered hreach) (reach_storedOnce (Reach.mono (fun _ _ he => he.1) hreach))

/-- In every orderly run, for every list of futures: the promise of `when_all_ready` is set at most
once, with a value, not before every valid future is ready, and it is set when nothing is left to
do for it. The tuple overload does the same. -/
theorem when_all_ready_completes (n t : Nat) (fs : List Future) (q : Option Nat)
    (c₀ c₁ c : Config α ε) (h₀ : Reach step Orderly (init α ε n) c₀)
    (h : Reach step Orderly c₁ c) :
    (step c₀ (t, .when_all_ready fs q) = some c₁ →
      AllReady c c₀.counters.length c₀.states.length fs) ∧
    ∀ vf c₂, fs ≠ [] → when_all_ready_tuple Orderly t fs q c₀ (vf, c₂) c₁ →
      TupleReady c c₂.counters.length c₂.states.length fs vf := by
  refine ⟨fun hs => ?_, fun vf c₂ _ hc => ?_⟩
  · exact (started_call h₀ hs).reach (h₀.next (plain_orderly c₀ rfl) hs) h
  · obtain ⟨hreach, hn, hs, hv⟩ := tuple_spec within_anything h₀ hc
    have h₁ := hreach.next hn hs
    have hall := (started_call hreach hs).reach h₁ h
    exact hall.tuple (reach_ordered (h₁.trans h))
      (voids_reach within_anything (reach_ordered h₁) h hv)

/-- The list, or tuple, has a promise twice and an invalid future between. -/
def threeFutures : List Future := [some 0, none, some 0]

theorem when_all_ready_completes_here :
    ∃ c₀ c₁ c c₄ c₅ : Config Unit Unit, Reach step Orderly (init Unit Unit 1) c₀ ∧
      step c₀ (0, .when_all_ready threeFutures none) = some c₁ ∧ Reach step Orderly c₁ c ∧
      outcome c 1 = some (.ok .unit) ∧ AllReady c 0 1 threeFutures ∧
      when_all_ready_tuple Orderly 0 threeFutures none c₀ ([some 1, some 2, some 3], c₄) c₅ ∧
      TupleReady c₅ 0 4 threeFutures [some 1, some 2, some 3] := by
  have hruns : ∃ c₀ c₁ c c₂ c₃ c₄ c₅ : Config Unit Unit,
      run step (init Unit Unit 1) [(0, .promise none)] = some c₀ ∧
      step c₀ (0, .when_all_ready threeFutures none) = some c₁ ∧
      run step c₁ (List.replicate 5 (0, .tick none) ++ [(0, .set_value 0 .unit none true)] ++
        List.replicate 6 (0, .tick none)) = some c ∧
      outcome c 1 = some (.ok .unit) ∧ c₀.counters.length = 0 ∧ c₀.states.length = 1 ∧
      step c₀ (0, .then_ (some 0) .ignore) = some c₂ ∧ c₂.states.length = 2 ∧
      step c₂ (0, .when_all_ready [] none) = some c₃ ∧ c₃.states.length = 3 ∧
      step c₃ (0, .then_ (some 0) .ignore) = some c₄ ∧
      step c₄ (0, .when_all_ready [some 1, some 2, some 3] none) = some c₅ ∧
      c₄.counters.length = 0 ∧ c₄.states.length = 4 :=
    ⟨_, _, _, _, _, _, _, rfl, rfl, rfl, rfl, rfl, rfl, rfl, rfl, rfl, rfl, rfl, rfl, rfl, rfl⟩
  obtain ⟨c₀, c₁, c, c₂, c₃, c₄, c₅, h0, h1, hrun, ho, hctr0, hlen0, h2, hlen2, h3, hlen3, h4, h5,
    hctr4, hlen4⟩ := hruns
  have plain : ∀ (evs : List (Nat × Action Unit Unit)) s s',
      (∀ ev ∈ evs, ev.2.plain = true) → run step s evs = some s' → Reach step Orderly s s' :=
    fun evs s s' hall hrun => reach_of_run _ _ _ (fun t ev hev => plain_orderly t (hall ev hev)) hrun
  have hr0 := plain _ _ _ (by decide) h0
  have hr := plain _ _ _ (by decide) hrun
  -- a call that the thread makes at once
  have made : ∀ {a : Action Unit Unit} {s s'}, a.plain = true → step s (0, a) = some s' →
      makes Orderly 0 a s s s' := fun ha hs => ⟨Reach.start _, plain_orderly _ ha, hs⟩
  have hcall : when_all_ready_tuple Orderly 0 threeFutures none c₀
      ([some 1, some 2, some 3], c₄) c₅ := by
    have v1 : to_future_void Orderly 0 (some 0) c₀ (some 1) c₂ :=
      ⟨c₀, c₂, made rfl h2, by rw [hlen0], rfl⟩
    have v2 : to_future_void Orderly 0 none c₂ (some 2) c₃ :=
      ⟨c₂, c₃, made rfl h3, by rw [hlen2], rfl⟩
    have v3 : to_future_void Orderly 0 (some 0) c₃ (some 3) c₄ :=
      ⟨c₃, c₄, made rfl h4, by rw [hlen3], rfl⟩
    unfold when_all_ready_tuple threeFutures
    rw [tuple_meta.tuple_transform_eq_mapM]
    simp only [List.mapM_cons, List.mapM_nil]
    refine ⟨[some 1, some 2, some 3], c₄, ⟨some 1, c₂, v1, [some 2, some 3], c₄, ?_, rfl, rfl⟩,
      c₄, c₅, made rfl h5, rfl, rfl⟩
    exact ⟨some 2, c₃, v2, [some 3], c₄, ⟨some 3, c₄, v3, [], c₄, ⟨rfl, rfl⟩, rfl, rfl⟩, rfl, rfl⟩
  refine ⟨c₀, c₁, c, c₄, c₅, hr0, h1, hr, ho, ?_, hcall, ?_⟩
  · have := (when_all_ready_completes 1 0 threeFutures none c₀ c₁ c hr0 hr).1 h1
    rwa [hctr0, hlen0] at this
  · have := (when_all_ready_completes 1 0 threeFutures none c₀ c₅ c₅ hr0 (Reach.start _)).2
      [some 1, some 2, some 3] c₄ (by simp [threeFutures]) hcall
    rwa [hctr4, hlen4] at this

end ltl.futures
