-- The law of the waiters of a state: one block is made for all of them, one
-- continuation signals it, and a waiter goes on only when the state is ready.
import Ltl.Tokens

open ltl.future_state runs counts

namespace ltl.futures

variable {α ε : Type}

/-! ## The record of the blocks -/

/-- How many blocks of a state have been made, and how many continuations that signal its block
have been registered. -/
structure BlockRecord where
  blocks : Nat := 0
  signals : Nat := 0

/-- This step makes the block of `st`. -/
def makesBlock (st : StateId) (c c' : Config α ε) : Bool :=
  (block c st).isNone && (block c' st).isSome

/-- This step registers a continuation that signals the block of `st`. It has the next number. -/
def registersSignal (st : StateId) (c c' : Config α ε) : Bool :=
  c'.states.any (fun s => decide ((c.sources.length, .signal st) ∈ s.continuations_))

def recordBlocks (st : StateId) (c : Config α ε) (_ : Nat × Action α ε) (c' : Config α ε)
    (r : BlockRecord) : BlockRecord :=
  { blocks := r.blocks + if makesBlock st c c' then 1 else 0
    signals := r.signals + if registersSignal st c c' then 1 else 0 }

/-- The signals of `st` that are still to run. -/
def signalTokens (c : Config α ε) (st : StateId) : Nat := tokens (only (.signal st)) c

/-- A block has one signal, which is still to run until the block is signalled. -/
structure OneSignal (st : StateId) (c : Config α ε) (r : BlockRecord) : Prop where
  tokens : signalTokens c st = if block c st = some false then 1 else 0
  blocks : r.blocks = if (block c st).isSome then 1 else 0
  signals : r.signals = r.blocks

theorem registersSignal_of_stored {c c' : Config α ε} {st i : StateId}
    (h : Stored c' i (c.sources.length, .signal st)) : registersSignal st c c' = true := by
  obtain ⟨s, hs, hp⟩ := h
  unfold registersSignal
  rw [List.any_eq_true]
  exact ⟨s, List.mem_of_getElem? hs, by simpa using hp⟩

/-- A signal is registered together with the block that it signals. -/
theorem registersSignal_makes {c c' : Config α ε} {t : Nat} {k : List (Frame α ε)}
    {st : StateId} (hn : Numbered c) (h : Calm c t k c') (hr : registersSignal st c c' = true) :
    block c st = none ∧ block c' st = some false := by
  unfold registersSignal at hr
  obtain ⟨s, hs, hp⟩ := List.any_eq_true.mp hr
  obtain ⟨i, hi⟩ := List.mem_iff_getElem?.mp hs
  rcases calm_stored h ⟨s, hi, by simpa using hp⟩ with ⟨s₀, hs₀, hp₀⟩ | ⟨-, hreg⟩
  · -- the number is new
    have := (hn.states s₀ (List.mem_of_getElem? hs₀)).2 c.sources.length
      (List.mem_map_of_mem (f := Prod.fst) hp₀)
    exact absurd this (Nat.lt_irrefl _)
  · cases hreg with
    | add h => cases h
    | wait h hs hr hb hc =>
      refine ⟨by rw [block_eq hs, hb], ?_⟩
      rw [hc]
      exact block_eq (update_self (c := c.enroll st) _ hs)

theorem step_oneSignal {c c' : Config α ε} {t : Nat} {k : List (Frame α ε)} {st : StateId}
    {r : BlockRecord} {a : Action α ε} (hn : Numbered c) (hk : c.threads[t]? = some k)
    (h : Calm c t k c') (hone : OneSignal st c r) :
    OneSignal st c' (recordBlocks st c (t, a) c' r) := by
  -- a step that leaves the block alone registers no signal
  have rest : signalTokens c' st = signalTokens c st → block c' st = block c st →
      OneSignal st c' (recordBlocks st c (t, a) c' r) := by
    intro htok hb
    have hreg : registersSignal st c c' = false := by
      rw [Bool.eq_false_iff]
      intro hreg
      obtain ⟨hnone, hsome⟩ := registersSignal_makes hn h hreg
      rw [hb, hnone] at hsome
      cases hsome
    have hmade : makesBlock st c c' = false := by
      unfold makesBlock
      rw [hb]
      cases block c st <;> rfl
    refine ⟨by rw [htok, hb, hone.tokens], ?_, ?_⟩
    · simp only [recordBlocks, hmade, Bool.false_eq_true, if_false, Nat.add_zero, hb, hone.blocks]
    · simp only [recordBlocks, hmade, hreg, Bool.false_eq_true, if_false, Nat.add_zero,
        hone.signals]
  have hg := only_signal st
  cases calm_tokens hg hk h with
  | same he hb hc => exact rest he (hb st)
  | started fs he hb hc =>
    rw [only_ne (by simp), Nat.mul_zero, Nat.add_zero] at he
    exact rest he (hb st)
  | counted n ctr hn' he hb hc hset =>
    rw [only_ne (by simp), Nat.add_zero] at he
    exact rest he (hb st)
  | waited st' he hb hb' hne hc hs =>
    by_cases hst : st' = st
    · subst hst
      have hmade : makesBlock st' c c' = true := by simp [makesBlock, hb, hb']
      have htok := hone.tokens
      have hblocks := hone.blocks
      simp only [hb, reduceCtorEq, if_false, Option.isSome_none, Bool.false_eq_true] at htok hblocks
      rw [only_self] at he
      refine ⟨?_, ?_, ?_⟩
      · simp only [signalTokens, hb', if_true] at htok ⊢
        omega
      · simp [recordBlocks, hmade, hblocks, hb']
      · simp only [recordBlocks, hmade, registersSignal_of_stored hs, if_true, hone.signals]
    · rw [only_ne (by simpa using hst), Nat.add_zero] at he
      exact rest he (hne st (Ne.symm hst))
  | signalled st' he hb' hne hc =>
    by_cases hst : st' = st
    · subst hst
      rw [only_self] at he
      have htok := hone.tokens
      have hbefore : block c st' = some false := by
        by_cases hb : block c st' = some false
        · exact hb
        · rw [if_neg hb] at htok
          unfold signalTokens at htok
          omega
      have hmade : makesBlock st' c c' = false := by simp [makesBlock, hbefore]
      have hreg : registersSignal st' c c' = false := by
        rw [Bool.eq_false_iff]
        intro hreg
        rw [(registersSignal_makes hn h hreg).1] at hbefore
        cases hbefore
      refine ⟨?_, ?_, ?_⟩
      · simp only [signalTokens, hbefore, if_true, hb'] at htok ⊢
        simp only [Option.some.injEq, Bool.true_eq_false, if_false]
        omega
      · simp [recordBlocks, hmade, hone.blocks, hb', hbefore]
      · simp only [recordBlocks, hmade, hreg, Bool.false_eq_true, if_false, Nat.add_zero,
          hone.signals]
    · rw [only_ne (by simpa using hst), Nat.add_zero] at he
      exact rest he (hne st (Ne.symm hst))

/-! ## The calls of the signals -/

/-- A signal that is called now is called by the loop of a setter of its state. -/
def SignalsRun : List (Frame α ε) → Prop
  | [] => True
  | f :: k => (∀ st, f = .exec (.signal st) → ∃ i cs k₀, k = .invoking i :: .drain st cs :: k₀) ∧
      SignalsRun k

theorem signalsRun_cons {f : Frame α ε} {k : List (Frame α ε)} (hf : ∀ st, f ≠ .exec (.signal st)) :
    SignalsRun (f :: k) ↔ SignalsRun k :=
  ⟨fun h => h.2, fun h => ⟨fun st he => absurd he (hf st), h⟩⟩

theorem deliver_signalsRun (r : Except (Exception ε) (Value α)) {k : List (Frame α ε)}
    (h : SignalsRun k) : SignalsRun (deliver r k) := by
  unfold deliver
  split
  · split <;> exact (signalsRun_cons (by simp)).mpr h.2
  · exact (signalsRun_cons (by simp)).mpr h.2
  · exact h

theorem waited_signalsRun {st : StateId} {g : Bool} {k : List (Frame α ε)} (h : SignalsRun k) :
    SignalsRun (waited st g k) := by
  unfold waited
  split
  · exact (signalsRun_cons (by simp)).mpr h
  · exact h

theorem Local.signalsRun {c : Config α ε} {k k' : List (Frame α ε)} (h : Local c k k')
    (hk : SignalsRun k) : SignalsRun k' := by
  cases h with
  | stay => exact hk
  | woken s hs hb => exact waited_signalsRun hk.2
  | read => exact deliver_signalsRun _ hk.2
  | _ => simp_all [SignalsRun]

theorem Adds.signalsRun {c c₁ : Config α ε} {a : Action α ε} {k k' : List (Frame α ε)}
    {st : StateId} {kont : Cont} (h : Adds c a k c₁ st kont k') (hk : SignalsRun k) :
    SignalsRun k' ∧ ∀ st, kont ≠ .signal st := by
  cases h <;> simp_all [SignalsRun]

theorem Waits.signalsRun {k k' : List (Frame α ε)} {st : StateId} {g : Bool}
    (h : Waits k st g k') (hk : SignalsRun k) : SignalsRun k' := by
  cases h with
  | wait => exact hk
  | get => exact hk.2

/-- The stacks of the threads after a step of one of them. -/
theorem forall_stacks {c c' : Config α ε} {P : List (Frame α ε) → Prop} {t : Nat}
    {k' : List (Frame α ε)} (ht : c'.threads = c.threads.set t k') (hP : ∀ k ∈ c.threads, P k)
    (hk' : P k') : ∀ k ∈ c'.threads, P k := by
  intro k hk
  rw [ht] at hk
  rcases List.mem_or_eq_of_mem_set hk with hk | rfl
  · exact hP k hk
  · exact hk'

theorem calm_signalsRun {c c' : Config α ε} {t : Nat} {k : List (Frame α ε)} (hg : Good c)
    (hk : c.threads[t]? = some k) (h : Calm c t k c') (hall : ∀ k ∈ c.threads, SignalsRun k) :
    ∀ k ∈ c'.threads, SignalsRun k := by
  have hmem := List.mem_of_getElem? hk
  have hrun := hall k hmem
  have put : ∀ {k' : List (Frame α ε)}, c'.threads = c.threads.set t k' → SignalsRun k' →
      ∀ k ∈ c'.threads, SignalsRun k := fun ht hk' => forall_stacks ht hall hk'
  cases h with
  | local_ hl => exact put rfl (hl.signalsRun hrun)
  | promise => exact hall
  | made_ready hk' => exact put rfl (by rcases hk' with rfl | rfl <;> simpa [SignalsRun] using hrun)
  | when_all_ready hfs hk' =>
    exact put rfl (by rcases hk' with rfl | rfl <;> simpa [SignalsRun] using hrun)
  | stored h hs hr => exact put (by rw [← (h.left 0).1]; rfl) (h.signalsRun hrun).1
  | run_now h hs hr =>
    obtain ⟨hk', hkont⟩ := h.signalsRun hrun
    refine put (by rw [← (h.left 0).1]; rfl) ((signalsRun_cons ?_).mpr ?_)
    · intro st he
      cases he
      exact hkont st rfl
    · exact (signalsRun_cons (by simp)).mpr hk'
  | waited h hs hr => exact put rfl (waited_signalsRun (h.signalsRun hrun))
  | first_wait h hs hr hb =>
    exact put rfl ((signalsRun_cons (by simp)).mpr (h.signalsRun hrun))
  | wait h => exact put rfl ((signalsRun_cons (by simp)).mpr (h.signalsRun hrun))
  | dec hn hk' =>
    exact put rfl (by rcases hk' with ⟨-, rfl⟩ | ⟨-, rfl⟩ <;> simpa [SignalsRun] using hrun.2)
  | run =>
    rename_i st i kont cs k
    -- the loop of `st` holds the signals of `st` only
    obtain ⟨-, hon⟩ := (hg.threads _ hmem _ List.mem_cons_self).2 (i, kont) List.mem_cons_self
    refine put rfl ⟨fun st' he => ?_, ?_⟩
    · cases he
      obtain rfl : st' = st := hon
      exact ⟨i, cs, k, rfl⟩
    · simpa [SignalsRun] using hrun.2
  | signal hs => exact put rfl hrun.2
  | fault => exact hall
  | _ => exact put rfl (by simpa [SignalsRun] using hrun)

/-! ## The waiters -/

/-- Thread `t` is in a `wait` or a `get` that waits for the block of `st`. -/
def Blocked (c : Config α ε) (t : Nat) (st : StateId) : Prop :=
  ∃ k g, c.threads[t]? = some k ∧ .waiting st g ∈ k

theorem blocked_of_set {c c' : Config α ε} {t j : Nat} {k k' : List (Frame α ε)} {st : StateId}
    (hk : c.threads[t]? = some k) (ht : c'.threads = c.threads.set t k') (h : Blocked c' j st) :
    (j = t ∧ ∃ g, .waiting st g ∈ k') ∨ Blocked c j st := by
  obtain ⟨k₁, g, hk₁, hf⟩ := h
  rw [ht] at hk₁
  by_cases hj : t = j
  · subst hj
    rw [List.getElem?_set_self (List.getElem?_eq_some_iff.mp hk).1] at hk₁
    cases hk₁
    exact Or.inl ⟨rfl, g, hf⟩
  · rw [List.getElem?_set_ne hj] at hk₁
    exact Or.inr ⟨k₁, g, hk₁, hf⟩

theorem raise_waiting {x : Exception ε} {k : List (Frame α ε)} {st : StateId} {g : Bool}
    (h : .waiting st g ∈ (raise x k).2) : .waiting st g ∈ k := by
  induction k with
  | nil => simp [raise] at h
  | cons f k ih =>
    cases f with
    | user b => exact h
    | catch_ rs => simpa [raise] using h
    | try_set rs r => simpa [raise] using h
    | unwrap_try rs s => simpa [raise] using h
    | _ => exact List.mem_cons_of_mem _ (ih (by simpa [raise] using h))

theorem deliver_waiting {r : Except (Exception ε) (Value α)} {k : List (Frame α ε)} {st : StateId}
    {g : Bool} (h : .waiting st g ∈ deliver r k) : .waiting st g ∈ k := by
  unfold deliver at h
  split at h
  · split at h <;> simpa using h
  · simpa using h
  · exact h

theorem waited_waiting {st st' : StateId} {g g' : Bool} {k : List (Frame α ε)}
    (h : .waiting st g ∈ waited st' g' k) : .waiting st g ∈ k := by
  unfold waited at h
  split at h
  · simpa using h
  · exact h

theorem Local.waiting {c : Config α ε} {k k' : List (Frame α ε)} {st : StateId} {g : Bool}
    (h : Local c k k') (hin : .waiting st g ∈ k') : .waiting st g ∈ k := by
  cases h with
  | woken s hs hb => exact List.mem_cons_of_mem _ (waited_waiting hin)
  | read => exact List.mem_cons_of_mem _ (deliver_waiting hin)
  | _ => simp_all

theorem Adds.waiting {c c₁ : Config α ε} {a : Action α ε} {k k' : List (Frame α ε)}
    {st₀ st : StateId} {kont : Cont} {g : Bool} (h : Adds c a k c₁ st₀ kont k')
    (hin : .waiting st g ∈ k') : .waiting st g ∈ k := by
  cases h <;> simpa using hin

theorem Sets.waiting {c : Config α ε} {a : Action α ε} {k k' : List (Frame α ε)}
    {st₀ st : StateId} {allow g : Bool} {f : Setter α ε} (h : Sets c a k st₀ allow f k')
    (hin : .waiting st g ∈ k') : .waiting st g ∈ k := by
  cases h <;> simp_all

theorem lockedWait_blocked {c c' : Config α ε} {t j : Nat} {st st' : StateId} {g' : Bool}
    {k k' : List (Frame α ε)} (hk : c.threads[t]? = some k) (hkeep : ∀ f ∈ k', f ∈ k)
    (h : lockedWait c t st' g' k' = some c') (hin : Blocked c' j st) :
    Blocked c j st ∨ (Pending c st ∧ (block c' st).isSome = true) := by
  have old : ∀ g, .waiting st g ∈ k' → Blocked c t st := fun g hin => ⟨k, g, hk, hkeep _ hin⟩
  obtain ⟨s, hs, ⟨hr, rfl⟩ | ⟨hr, hb, rfl⟩ | ⟨hr, ⟨b, hb⟩, rfl⟩⟩ := lockedWait.spec h
  · rcases blocked_of_set hk rfl hin with ⟨rfl, g, hin⟩ | hin
    · exact Or.inl (old g (waited_waiting hin))
    · exact Or.inl hin
  · rcases blocked_of_set (c := c) hk rfl hin with ⟨rfl, g, hin⟩ | hin
    · rcases List.mem_cons.mp hin with he | hin
      · cases he
        refine Or.inr ⟨⟨s, hs, hr⟩, ?_⟩
        rw [block_put, block_eq (update_self (c := c.enroll st) _ hs)]
        rfl
      · exact Or.inl (old g hin)
    · exact Or.inl hin
  · rcases blocked_of_set hk rfl hin with ⟨rfl, g, hin⟩ | hin
    · rcases List.mem_cons.mp hin with he | hin
      · cases he
        refine Or.inr ⟨⟨s, hs, hr⟩, ?_⟩
        rw [block_put, block_eq hs, hb]
        rfl
      · exact Or.inl (old g hin)
    · exact Or.inl hin

/-- A thread starts to wait only for a state that is not ready, and then there is a block. -/
theorem step_blocked {c c' : Config α ε} {e : Nat × Action α ε} {j : Nat} {st : StateId}
    (h : step c e = some c') (hin : Blocked c' j st) :
    Blocked c j st ∨ (Pending c st ∧ (block c' st).isSome = true) := by
  obtain ⟨t, a⟩ := e
  obtain ⟨-, k, hk, hm⟩ := step_moves h
  have kept : ∀ {k' : List (Frame α ε)}, c'.threads = c.threads.set t k' →
      (∀ g, .waiting st g ∈ k' → .waiting st g ∈ k) → Blocked c j st := by
    intro k' ht hkeep
    rcases blocked_of_set hk ht hin with ⟨rfl, g, hin⟩ | hin
    · exact ⟨k, g, hk, hkeep g hin⟩
    · exact hin
  cases hm with
  | local_ hl => exact Or.inl (kept rfl (fun _ => hl.waiting))
  | promise => exact Or.inl hin
  | made_ready hk' =>
    exact Or.inl (kept rfl (fun _ hin => by rcases hk' with rfl | rfl <;> simpa using hin))
  | when_all_ready hfs hk' =>
    exact Or.inl (kept rfl (fun _ hin => by rcases hk' with rfl | rfl <;> simpa using hin))
  | add hadd hs =>
    have ht := (hadd.left 0).1
    obtain ⟨s, hst, ⟨-, rfl⟩ | ⟨-, rfl⟩⟩ := lockedAdd.spec hs
    · exact Or.inl (kept (by rw [← ht]; rfl) (fun _ hin => hadd.waiting (by simpa using hin)))
    · exact Or.inl (kept (by rw [← ht]; rfl) (fun _ => hadd.waiting))
  | set hset hs =>
    cases hset.move hs with
    | value => exact Or.inl (kept rfl (fun _ hin => hset.waiting (by simpa using hin)))
    | exception => exact Or.inl (kept rfl (fun _ hin => hset.waiting (by simpa using hin)))
    | ignored => exact Or.inl (kept rfl (fun _ => hset.waiting))
    | already => exact Or.inl (kept rfl (fun _ hin => hset.waiting (raise_waiting hin)))
    | built => exact Or.inl (kept rfl (fun _ hin => hset.waiting (raise_waiting hin)))
  | wait hs => exact lockedWait_blocked hk (fun _ h => h) hs hin
  | get hs => exact lockedWait_blocked hk (fun _ h => List.mem_cons_of_mem _ h) hs hin
  | dec hs =>
    unfold execDec at hs
    split at hs
    · cases hs
    · dsimp only at hs
      split at hs
      · cases hs
        exact Or.inl (kept rfl (fun _ hin => by simpa using hin))
      · cases hs
        exact Or.inl (kept rfl (fun _ hin => List.mem_cons_of_mem _ hin))
  | signal hs => exact Or.inl (kept rfl (fun _ hin => List.mem_cons_of_mem _ hin))
  | run => exact Or.inl (kept rfl (fun _ hin => by simpa using hin))
  | throw_ => exact Or.inl (kept rfl (fun _ hin => List.mem_cons_of_mem _ (raise_waiting hin)))
  | fault => exact Or.inl hin

/-- No step takes a block away. -/
theorem calm_block {c c' : Config α ε} {t : Nat} {k : List (Frame α ε)} {st : StateId}
    (hk : c.threads[t]? = some k) (h : Calm c t k c') (hb : (block c st).isSome = true) :
    (block c' st).isSome = true := by
  cases calm_tokens (only_signal st) hk h with
  | same he hb' hc => rw [hb', hb]
  | started fs he hb' hc => rw [hb', hb]
  | counted n ctr hn he hb' hc hset => rw [hb', hb]
  | waited st' he hb₀ hb' hne hc hs =>
    by_cases hst : st = st'
    · subst hst
      rw [hb']
      rfl
    · rw [hne st hst, hb]
  | signalled st' he hb' hne hc =>
    by_cases hst : st = st'
    · subst hst
      rw [hb']
      rfl
    · rw [hne st hst, hb]

/-! ## The returns -/

/-- A `wait` for `st`, or the one in a `get`, returns in this step of thread `t`. -/
inductive Returns (c c' : Config α ε) (t : Nat) (a : Action α ε) (st : StateId) : Prop where
  | woken {g k} (h : c.threads[t]? = some (.waiting st g :: k))
      (h' : c'.threads[t]? = some (waited st g k))
  | get_at_once {k} (h : c.threads[t]? = some (.future_get st :: k))
      (h' : c'.threads[t]? = some (.reading st :: k))
  | wait_at_once {b k} (h : c.threads[t]? = some (.user b :: k)) (ha : a = .wait (some st))
      (h' : c'.threads[t]? = some (.user b :: k))

theorem lockedWait_returns {c c' : Config α ε} {t : Nat} {st : StateId} {g : Bool}
    {k k₀ : List (Frame α ε)} (hk : c.threads[t]? = some k₀)
    (h : lockedWait c t st g k = some c') (h' : c'.threads[t]? = some (waited st g k)) :
    Ready c st := by
  have hlt := (List.getElem?_eq_some_iff.mp hk).1
  have hne : waited st g k ≠ .waiting st g :: k := by
    unfold waited
    split
    · simp
    · exact fun he => absurd (congrArg List.length he) (by simp)
  obtain ⟨s, hs, ⟨hr, -⟩ | ⟨-, -, rfl⟩ | ⟨-, -, rfl⟩⟩ := lockedWait.spec h
  · exact ⟨s, hs, hr⟩
  · simp only [Config.put, Config.update, Config.enroll] at h'
    rw [List.getElem?_set_self hlt, Option.some.injEq] at h'
    exact absurd h'.symm hne
  · simp only [Config.put] at h'
    rw [List.getElem?_set_self hlt, Option.some.injEq] at h'
    exact absurd h'.symm hne

/-- A `wait` returns only when the state is ready. -/
theorem step_returns {c c' : Config α ε} {t : Nat} {a : Action α ε} {st : StateId}
    (hg : Good c) (hs : step c (t, a) = some c') (hr : Returns c c' t a st) : Ready c st := by
  unfold step at hs
  split at hs
  · cases hs
  · cases hr with
    | woken h h' =>
      simp only [h] at hs
      split at hs
      · simp only [tick] at hs
        split at hs
        · cases hs
        · rename_i s hst
          split at hs
          · rename_i hb
            exact ⟨s, hst, (hg.states st s hst).signalled hb⟩
          · cases hs
      · cases hs
    | get_at_once h h' =>
      simp only [h] at hs
      split at hs
      · exact lockedWait_returns (g := true) h hs h'
      · cases hs
    | wait_at_once h ha h' =>
      subst ha
      simp only [h] at hs
      exact lockedWait_returns (g := false) h hs h'

/-! ## The law -/

/-- The continuation that signals the block of `st` is still to run: the state holds it, or a
setter has it in its list and has not called it yet, or calls it now. -/
inductive SignalPending (c : Config α ε) (st : StateId) : Prop where
  | stored (i) (h : Stored c st (i, .signal st))
  | draining (i) (h : Draining c st (i, .signal st))
  | called (k i cs k₀) (hk : k ∈ c.threads)
      (h : .exec (.signal st) :: .invoking i :: .drain st cs :: k₀ <:+ k)

theorem SignalsRun.suffix {k : List (Frame α ε)} {st : StateId} (h : SignalsRun k)
    (hin : .exec (.signal st) ∈ k) :
    ∃ i cs k₀, .exec (.signal st) :: .invoking i :: .drain st cs :: k₀ <:+ k := by
  induction k with
  | nil => cases hin
  | cons f k ih =>
    rcases List.mem_cons.mp hin with rfl | hin
    · obtain ⟨i, cs, k₀, rfl⟩ := h.1 st rfl
      exact ⟨i, cs, k₀, List.suffix_refl _⟩
    · obtain ⟨i, cs, k₀, hsuf⟩ := ih h.2 hin
      exact ⟨i, cs, k₀, hsuf.trans (List.suffix_cons f k)⟩

/-- What holds of the waiters of `st` in every orderly run. -/
structure WaitersOk (st : StateId) (c : Config α ε) (r : BlockRecord) : Prop where
  ordered : Ordered c
  one : OneSignal st c r
  calls : ∀ k ∈ c.threads, SignalsRun k
  blocked : ∀ t, Blocked c t st → (block c st).isSome = true

theorem step_waitersOk {st : StateId} {c c' : Config α ε} {r : BlockRecord}
    {e : Nat × Action α ε} (h : WaitersOk st c r) (hn : Orderly c e) (hs : step c e = some c') :
    WaitersOk st c' (recordBlocks st c e c' r) := by
  obtain ⟨k, hk, hc⟩ := step_calm h.ordered.owned hn hs
  refine ⟨step_ordered h.ordered hn hs, step_oneSignal h.ordered.numbered hk hc h.one,
    calm_signalsRun h.ordered.good hk hc h.calls, fun t hb => ?_⟩
  rcases step_blocked hs hb with hb | ⟨-, hb⟩
  · exact calm_block hk hc (h.blocked t hb)
  · exact hb

theorem waitersOk_init (n : Nat) (st : StateId) : WaitersOk st (init α ε n) {} := by
  refine ⟨ordered_init n, ⟨?_, by simp [block, init], rfl⟩, fun k hk => ?_, ?_⟩
  · have := total_replicate (total (Frame.tokens (only (.signal st)))) n
      [(.user .main : Frame α ε)] rfl
    simpa [signalTokens, tokens, weigh, tokensOf, init, block] using this
  · rw [List.eq_of_mem_replicate hk]
    exact ⟨by simp, trivial⟩
  · rintro t ⟨k, g, hk, hf⟩
    rw [List.eq_of_mem_replicate (List.mem_of_getElem? hk)] at hf
    simp at hf

theorem reach_waitersOk {n : Nat} {st : StateId} {c : Config α ε} {r : BlockRecord}
    (h : Reach (recorded step (recordBlocks st)) (fun s e => Orderly s.1 e)
      (init α ε n, {}) (c, r)) : WaitersOk st c r := by
  refine h.invariant (P := fun s => WaitersOk st s.1 s.2) (waitersOk_init n st) ?_
  intro s e s' hok hn hs
  obtain ⟨hs, hr⟩ := recorded_eq hs
  rw [hr]
  exact step_waitersOk hok hn hs

/-- A block that is not signalled has its signal in one of three places. -/
theorem WaitersOk.pending {st : StateId} {c : Config α ε} {r : BlockRecord}
    (h : WaitersOk st c r) (hb : block c st = some false) : SignalPending c st := by
  have htok : tokens (only (.signal st)) c ≠ 0 := by
    have := h.one.tokens
    simp only [signalTokens, hb, if_true] at this
    omega
  cases waiting_of_tokens htok with
  | stored st' i hst =>
    obtain ⟨s, hs, hp⟩ := hst
    obtain rfl : st = st' := ((h.ordered.good.states st' s hs).conts _ hp).2
    exact .stored i ⟨s, hs, hp⟩
  | draining st' i hd =>
    obtain ⟨cs, ⟨k, hk, hf⟩, hp⟩ := hd
    obtain rfl : st = st' := ((h.ordered.good.threads k hk _ hf).2 _ hp).2
    exact .draining i ⟨cs, ⟨k, hk, hf⟩, hp⟩
  | called hin =>
    obtain ⟨k, hk, hf⟩ := hin
    obtain ⟨i, cs, k₀, hsuf⟩ := (h.calls k hk).suffix hf
    exact .called k i cs k₀ hk hsuf
  | listed n fs hin hn => cases hn

/-- One block and one signal for all the waiters of `st`, and none of them is lost: where a thread
is blocked, the signal is still to run or the block is signalled. -/
structure NoLostSignal (st : StateId) (c : Config α ε) (r : BlockRecord) : Prop where
  one_block : r.blocks ≤ 1
  one_signal : r.signals = r.blocks
  blocked : ∀ t, Blocked c t st →
    (block c st = some false ∧ SignalPending c st) ∨ block c st = some true

/-- Every waiter of `st` can go on, and from here on no thread blocks on `st` again. -/
structure Freed (st : StateId) (c : Config α ε) : Prop where
  signalled : ∀ t, Blocked c t st → block c st = some true
  goes_on : ∀ t g k, c.threads[t]? = some (.waiting st g :: k) → c.fault = none →
    step c (t, .tick none) = some (c.put t (waited st g k))
  none_later : ∀ c₁ e c₂, Reach step Orderly c c₁ → step c₁ e = some c₂ →
    ∀ t, Blocked c₂ t st → Blocked c₁ t st

/-- Where the state is ready and no setter loops over its continuations, no signal is to run. -/
theorem WaitersOk.signalled {st : StateId} {c : Config α ε} {r : BlockRecord}
    (h : WaitersOk st c r) (hr : Ready c st) (hd : ∀ cs, ¬ InStack c (.drain st cs)) {t : Nat}
    (hb : Blocked c t st) : block c st = some true := by
  have hsome := h.blocked t hb
  cases hblk : block c st with
  | none =>
    rw [hblk] at hsome
    cases hsome
  | some b =>
    cases b with
    | true => rfl
    | false =>
      cases h.pending hblk with
      | stored i hst =>
        obtain ⟨s, hs, hp⟩ := hst
        obtain ⟨s', hs', hr'⟩ := hr
        rw [hs] at hs'
        cases hs'
        rw [(h.ordered.good.states st s hs).drained hr'] at hp
        cases hp
      | draining i hst =>
        obtain ⟨cs, hin, -⟩ := hst
        exact absurd hin (hd cs)
      | called k i cs k₀ hk hsuf =>
        exact absurd ⟨k, hk, hsuf.subset (by simp)⟩ (hd cs)

theorem WaitersOk.freed {st : StateId} {c : Config α ε} {r : BlockRecord}
    (h : WaitersOk st c r) (hr : Ready c st) (hd : ∀ cs, ¬ InStack c (.drain st cs)) :
    Freed st c := by
  refine ⟨fun t hb => h.signalled hr hd hb, fun t g k hk hf => ?_, ?_⟩
  · have hb := h.signalled hr hd ⟨_, g, hk, List.mem_cons_self⟩
    obtain ⟨s, hs, -⟩ := hr
    rw [block_eq hs] at hb
    simp [step, hf, hk, tick, hs, hb]
  · intro c₁ e c₂ hreach hs t hb
    rcases step_blocked hs hb with hb | ⟨⟨s, hst, hpend⟩, -⟩
    · exact hb
    · obtain ⟨s', hst', hr'⟩ := (reach_grows hreach).ready hr
      rw [hst] at hst'
      cases hst'
      rw [hpend] at hr'
      cases hr'

/-- For any number of threads and any orderly run: a `wait` on `st` returns only when `st` is
ready, one block with one signal serves all its waiters, and once a setter of `st` has returned
every waiter can go on and none blocks again. -/
theorem every_waiter_is_released (n : Nat) (st : StateId) (c : Config α ε) (r : BlockRecord)
    (h : Reach (recorded step (recordBlocks st)) (fun s e => Orderly s.1 e)
      (init α ε n, {}) (c, r)) :
    NoLostSignal st c r ∧
      (∀ t a c', step c (t, a) = some c' → Returns c c' t a st → Ready c st) ∧
      (Ready c st → (∀ cs, ¬ InStack c (.drain st cs)) → Freed st c) := by
  have hok := reach_waitersOk h
  refine ⟨⟨?_, hok.one.signals, fun t hb => ?_⟩, fun t a c' hs hr => ?_, hok.freed⟩
  · rw [hok.one.blocks]
    split <;> omega
  · have hsome := hok.blocked t hb
    cases hblk : block c st with
    | none =>
      rw [hblk] at hsome
      cases hsome
    | some b =>
      cases b with
      | false => exact Or.inl ⟨rfl, hok.pending hblk⟩
      | true => exact Or.inr rfl
  · exact step_returns hok.ordered.good hs hr

/-- Two threads wait for a promise, and a third one fulfils it and has signalled the block. -/
def twoWaiters : List (Nat × Action Unit Unit) :=
  [(0, .promise none), (1, .wait (some 0)), (2, .get (some 0)), (2, .tick none),
    (0, .set_value 0 .unit none true), (0, .tick none), (0, .tick none), (0, .tick none),
    (0, .tick none)]

theorem every_waiter_is_released_here :
    ∃ (c : Config Unit Unit) (r : BlockRecord),
      Reach (recorded step (recordBlocks 0)) (fun s e => Orderly s.1 e)
        (init Unit Unit 3, {}) (c, r) ∧
      r.blocks = 1 ∧ Blocked c 1 0 ∧ Blocked c 2 0 ∧ NoLostSignal 0 c r ∧ Freed 0 c := by
  have hrun : ∃ s, run (recorded step (recordBlocks 0)) (init Unit Unit 3, {}) twoWaiters = some s ∧
      s.2.blocks = 1 ∧ s.1.threads = [[.user .main], [.waiting 0 false, .user .main],
        [.waiting 0 true, .user .main]] ∧ outcome s.1 0 = some (.ok .unit) :=
    ⟨_, rfl, rfl, rfl, rfl⟩
  obtain ⟨⟨c, r⟩, hrun, hblocks, hthreads, ho⟩ := hrun
  have hr : Reach (recorded step (recordBlocks 0)) (fun s e => Orderly s.1 e)
      (init Unit Unit 3, {}) (c, r) :=
    reach_of_run _ _ _ (fun t e he => plain_orderly t.1 (by revert e; decide)) hrun
  obtain ⟨hlost, -, hfreed⟩ := every_waiter_is_released 3 0 c r hr
  simp only at hthreads
  refine ⟨c, r, hr, hblocks, ⟨_, false, by rw [hthreads]; rfl, by simp⟩,
    ⟨_, true, by rw [hthreads]; rfl, by simp⟩, hlost,
    hfreed (ready_iff_outcome.mpr ⟨_, ho⟩) (fun cs hin => ?_)⟩
  obtain ⟨k, hk, hf⟩ := hin
  rw [hthreads] at hk
  simp only [List.mem_cons, List.not_mem_nil, or_false] at hk
  rcases hk with rfl | rfl | rfl <;> simp at hf

end ltl.futures
