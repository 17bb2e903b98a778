-- Who sets a state: the result of each continuation has one owner, which is
-- the only one that sets it. So the setters that library code calls find
-- their state not ready, and no exception leaves a continuation.
import Ltl.SingleAssignment
import Ltl.Weights

open ltl.future_state runs counts

namespace ltl.futures

variable {α ε : Type}

/-- The functions given to `continue_with` do not throw. In the library they are the resume of an
await and the functions of `when_all_ready` and `unwrap`. -/
def NoThrow (c : Config α ε) (e : Nat × Action α ε) : Prop :=
  ∀ x f k, e.2 = .throw_ x → c.threads[e.1]? ≠ some (.user (.fn f) :: k)

/-- What the contract asks of the client. Functions given to `then` and `next` may throw. -/
def Orderly (c : Config α ε) (e : Nat × Action α ε) : Prop := NonNull c e ∧ NoThrow c e

/-- An action that is orderly wherever it happens. -/
def Action.plain : Action α ε → Bool
  | .set_exception _ none => false
  | .throw_ _ => false
  | _ => true

theorem plain_orderly (c : Config α ε) {e : Nat × Action α ε} (h : e.2.plain = true) :
    Orderly c e := by
  obtain ⟨t, a⟩ := e
  refine ⟨fun p hp => ?_, fun x f k hx => ?_⟩
  · simp only at hp
    subst hp
    cases h
  · simp only at hx
    subst hx
    cases h

/-! ## The owners of a state -/

/-- One for `rs` itself. -/
def one (rs st : StateId) : Nat := if rs = st then 1 else 0

@[simp] theorem one_self (st : StateId) : one st st = 1 := by simp [one]

theorem one_ne {rs st : StateId} (h : rs ≠ st) : one rs st = 0 := by simp [one, h]

def Func.owns (st : StateId) : Func → Nat
  | .unwrap s => one s st
  | _ => 0

def Cont.owns (st : StateId) : Cont → Nat
  | .invoke_and_set_value _ rs func => one rs st + func.owns st
  | .get_and_set_value s _ => one s st
  | _ => 0

def contsOwn (st : StateId) (cs : List (Id × Cont)) : Nat := total (fun p => p.2.owns st) cs

/-- How often a call is to set `st` later. -/
def Frame.owns (st : StateId) : Frame α ε → Nat
  | .user (.callback _ rs _) => one rs st
  | .try_set rs _ => one rs st
  | .handler rs _ => one rs st
  | .drain _ cs => contsOwn st cs
  | .exec kont => kont.owns st
  | .set_prm prm => one prm st
  | .get_all rs _ _ => one rs st
  | .set_got rs => one rs st
  | .unwrap_try rs _ => one rs st
  | _ => 0

def stackOwns (st : StateId) (k : List (Frame α ε)) : Nat := total (Frame.owns st) k

/-- A counter that has not come down to zero is to set its promise. -/
def Counter.owns (st : StateId) (ctr : Counter) : Nat := if 0 < ctr.count then one ctr.prm st else 0

def ownersOf (st : StateId) : Weights α ε where
  state s := contsOwn st s.continuations_
  frame := Frame.owns st
  counter := Counter.owns st
  entry _ := 0

/-- How many places are to set `st` later. -/
def owners (c : Config α ε) (st : StateId) : Nat := weigh (ownersOf st) c

@[simp] theorem stackOwns_cons (st : StateId) (f : Frame α ε) (k : List (Frame α ε)) :
    stackOwns st (f :: k) = f.owns st + stackOwns st k := by simp [stackOwns]

@[simp] theorem contsOwn_nil (st : StateId) : contsOwn st [] = 0 := rfl

@[simp] theorem contsOwn_cons (st : StateId) (p : Id × Cont) (cs : List (Id × Cont)) :
    contsOwn st (p :: cs) = p.2.owns st + contsOwn st cs := by simp [contsOwn]

@[simp] theorem contsOwn_append (st : StateId) (cs cs' : List (Id × Cont)) :
    contsOwn st (cs ++ cs') = contsOwn st cs + contsOwn st cs' := by simp [contsOwn]

theorem owners_note (c : Config α ε) (es : List (Entry ε)) (st : StateId) :
    owners (c.note es) st = owners c st := by
  have : total (ownersOf st : Weights α ε).entry es = 0 := by
    rw [total_eq_zero_iff]
    exact fun _ _ => rfl
  simp only [owners, weigh_note, this, Nat.add_zero]

theorem owners_put {c : Config α ε} {t : Nat} {k : List (Frame α ε)} (k' : List (Frame α ε))
    (st : StateId) (hk : c.threads[t]? = some k) :
    owners (c.put t k') st + stackOwns st k = owners c st + stackOwns st k' :=
  weigh_put (ownersOf st) k' hk

theorem owners_alloc (c : Config α ε) {s : State α ε} (st : StateId)
    (hs : s.continuations_ = []) : owners (c.alloc s) st = owners c st := by
  simp [owners, weigh_alloc, ownersOf, hs]

theorem owners_update {c : Config α ε} {i : StateId} {s : State α ε} (s' : State α ε)
    (st : StateId) (hs : c.states[i]? = some s) :
    owners (c.update i s') st + contsOwn st s.continuations_ =
      owners c st + contsOwn st s'.continuations_ := weigh_update (ownersOf st) s' hs

theorem owners_recount {c : Config α ε} {n : CounterId} {ctr : Counter} (ctr' : Counter)
    (st : StateId) (hn : c.counters[n]? = some ctr) :
    owners { c with counters := c.counters.set n ctr' } st + ctr.owns st =
      owners c st + ctr'.owns st := weigh_recount (ownersOf st) ctr' hn

/-- Each state has at most one owner. It has none once it is ready, or when it belongs to a
promise of the client. -/
structure Owned (c : Config α ε) : Prop where
  one_owner : ∀ st, owners c st ≤ 1
  pending : ∀ st, 0 < owners c st → ∃ s, c.states[st]? = some s ∧ ready s = false
  promised : ∀ p ∈ c.promises, p < c.states.length ∧ owners c p = 0

theorem Owned.fresh {c : Config α ε} (h : Owned c) {st : StateId} (hst : c.states.length ≤ st) :
    owners c st = 0 := by
  rcases Nat.eq_zero_or_pos (owners c st) with h0 | hpos
  · exact h0
  · obtain ⟨s, hs, -⟩ := h.pending st hpos
    rw [List.getElem?_eq_none hst] at hs
    cases hs

/-- What a stack is to set has an owner. -/
theorem stackOwns_le {c : Config α ε} {t : Nat} {k : List (Frame α ε)} (st : StateId)
    (hk : c.threads[t]? = some k) : stackOwns st k ≤ owners c st := by
  have := le_total (stackOwns st) c.threads k (List.mem_of_getElem? hk)
  have hw : owners c st = weigh (ownersOf st) c := rfl
  have hf : total (total (ownersOf st : Weights α ε).frame) c.threads =
    total (stackOwns st) c.threads := rfl
  unfold weigh at hw
  omega

/-! ## The steps of orderly runs -/

/-- The waits: `Waits k st g k'` when the call on top of `k` waits for `st` and goes on with
`k'`. -/
inductive Waits : List (Frame α ε) → StateId → Bool → List (Frame α ε) → Prop where
  | wait {st b k} : Waits (.user b :: k) st false (.user b :: k)
  | get {st k} : Waits (.future_get st :: k) st true k

/-- What a step of thread `t` with the stack `k` leads to in an orderly run: no exception passes
a call of library code. -/
inductive Calm (c : Config α ε) (t : Nat) : List (Frame α ε) → Config α ε → Prop where
  | local_ {k k'} (h : Local c k k') : Calm c t k (c.put t k')
  | promise {q b k} : Calm c t (.user b :: k)
      { c.alloc { await_queue_ := q } with promises := c.promises ++ [c.states.length] }
  | made_ready {b k k'}
      (hk : k' = .user b :: k ∨ k' = .when_all_then c.states.length [] :: .user b :: k) :
      Calm c t (.user b :: k) ((c.alloc { value_ := some .unit }).put t k')
  | when_all_ready {b fs q k k'} (hfs : fs ≠ [])
      (hk : k' = .user b :: k ∨ k' = .when_all_then c.states.length fs :: .user b :: k) :
      Calm c t (.user b :: k) (startWhenAllReady c t fs q k')
  | stored {a k c₁ st s kont k'} (h : Adds c a k c₁ st kont k') (hs : c₁.states[st]? = some s)
      (hr : ready s = false) : Calm c t k (registered c₁ t st s kont k')
  | run_now {a k c₁ st s kont k'} (h : Adds c a k c₁ st kont k') (hs : c₁.states[st]? = some s)
      (hr : ready s = true) :
      Calm c t k (((c₁.enroll st).note [.invoked c₁.sources.length]).put t
        (.exec kont :: .invoking c₁.sources.length :: k'))
  | fulfilled {b k st allow s s'} (hp : st ∈ c.promises) (hs : c.states[st]? = some s)
      (hr : ready s = false)
      (hs' : (∃ w, s' = { s with value_ := some w }) ∨ ∃ x : Exception ε, s' = { s with exception_ := some x }) :
      Calm c t (.user b :: k) (settle c t st allow s s' (.user b :: k))
  | refused {b k st allow r} (hr : ∀ cs, r ≠ .stored cs) :
      Calm c t (.user b :: k) ((c.note [.set st allow r]).put t (.user b :: k))
  | set_value {rs v k s} (hs : c.states[rs]? = some s) (hr : ready s = false) :
      Calm c t (.try_set rs (.ok v) :: k)
        (settle c t rs true s { s with value_ := some v } (.catch_ rs :: k))
  | built {rs v x k} : Calm c t (.try_set rs (.ok v) :: k)
      ((c.note [.set rs true (.built x)]).put t (.handler rs x :: k))
  | set_exception {rs x k s} (hs : c.states[rs]? = some s) (hr : ready s = false) :
      Calm c t (.handler rs x :: k) (settle c t rs true s { s with exception_ := some x } k)
  | set_prm {prm k s} (hs : c.states[prm]? = some s) (hr : ready s = false) :
      Calm c t (.set_prm prm :: k) (settle c t prm true s { s with value_ := some .unit } k)
  | waited {k st g k' s} (h : Waits k st g k') (hs : c.states[st]? = some s)
      (hr : ready s = true) : Calm c t k (c.put t (waited st g k'))
  | first_wait {k st g k' s} (h : Waits k st g k') (hs : c.states[st]? = some s)
      (hr : ready s = false) (hb : s.block_ = none) :
      Calm c t k (registered c t st { s with block_ := some false } (.signal st)
        (.waiting st g :: k'))
  | wait {k st g k'} (h : Waits k st g k') : Calm c t k (c.put t (.waiting st g :: k'))
  | dec {n ctr k k'} (hn : c.counters[n]? = some ctr)
      (hk : (ctr.count = 1 ∧ k' = .set_prm ctr.prm :: k) ∨ (ctr.count ≠ 1 ∧ k' = k)) :
      Calm c t (.exec (.dec n) :: k)
        ({ c with counters := c.counters.set n { ctr with count := ctr.count - 1 } }.put t k')
  | signal {st s k} (hs : c.states[st]? = some s) :
      Calm c t (.exec (.signal st) :: k) ((c.update st (signal s)).put t k)
  | run {st i kont cs k} : Calm c t (.drain st ((i, kont) :: cs) :: k)
      ((c.note [.invoked i]).put t (.exec kont :: .invoking i :: .drain st cs :: k))
  | fault {k f} (h : Faults c k f) : Calm c t k (c.fail f)

@[simp] theorem throwTo_user (c : Config α ε) (t : Nat) (x : Exception ε) (b : Body)
    (k : List (Frame α ε)) : throwTo c t x (.user b :: k) = c.put t (.user b :: k) := by
  simp [throwTo, raise, Config.note]

@[simp] theorem throwTo_catch (c : Config α ε) (t : Nat) (x : Exception ε) (rs : StateId)
    (k : List (Frame α ε)) : throwTo c t x (.catch_ rs :: k) = c.put t (.handler rs x :: k) := by
  simp [throwTo, raise, Config.note]

/-- The setter of client code throws to the client code that called it. -/
theorem client_set_calm {c c' : Config α ε} {t : Nat} {a : Action α ε} {st : StateId}
    {allow : Bool} {b : Body} {k : List (Frame α ε)} (hp : st ∈ c.promises)
    (hn : a = .set_exception st none → Ready c st) (h : SetMove c t a st allow (.user b :: k) c') :
    Calm c t (.user b :: k) c' := by
  cases h with
  | value s w hs hr => exact .fulfilled hp hs hr (Or.inl ⟨w, rfl⟩)
  | exception s x hs hr hx =>
    obtain ⟨y, rfl⟩ := exists_of_unready hs hr (fun h => hn (hx h))
    exact .fulfilled hp hs hr (Or.inr ⟨y, rfl⟩)
  | ignored => exact .refused (r := .ignored) (by simp)
  | already =>
    rw [throwTo_user]
    exact .refused (by simp)
  | built s x =>
    rw [throwTo_user]
    exact .refused (by simp)

/-- The setter of an owner finds its state not ready. -/
theorem Sets.calm {c c' : Config α ε} {t : Nat} {a : Action α ε} {k k' : List (Frame α ε)}
    {st : StateId} {allow : Bool} {f : Setter α ε} (ho : Owned c) (hk : c.threads[t]? = some k)
    (hn : ∀ p, a = .set_exception p none → Ready c p) (h : Sets c a k st allow f k')
    (hs : lockedSet c t st allow f k' = some c') : Calm c t k c' := by
  have hm := h.move hs
  have hown := stackOwns_le st hk
  unfold lockedSet at hs
  cases hst : c.states[st]? with
  | none => simp [hst] at hs
  | some s =>
    simp only [hst] at hs
    have hpend : 0 < stackOwns st k → ready s = false := fun hpos => by
      obtain ⟨s', hs', hr⟩ := ho.pending st (by omega)
      rw [hst] at hs'
      cases hs'
      exact hr
    cases h with
    | set_value hp => exact client_set_calm hp (hn _) hm
    | set_exception hp => exact client_set_calm hp (hn _) hm
    | try_set built =>
      have hr := hpend (by simp only [stackOwns_cons, Frame.owns, one_self]; omega)
      cases built with
      | none =>
        simp only [storedAs, future_state.set_value, set_value_impl, hr, Bool.false_eq_true, if_false,
          Option.some.injEq] at hs
        subst hs
        exact .set_value hst hr
      | some x =>
        simp only [storedAs, future_state.set_value, set_value_impl, hr, Bool.false_eq_true,
          if_false, throwTo_catch, Option.some.injEq] at hs
        subst hs
        exact .built
    | handler =>
      have hr := hpend (by simp only [stackOwns_cons, Frame.owns, one_self]; omega)
      simp only [future_state.set_exception, hr, Bool.false_eq_true, if_false,
        Option.some.injEq] at hs
      subst hs
      exact .set_exception hst hr
    | set_prm =>
      have hr := hpend (by simp only [stackOwns_cons, Frame.owns, one_self]; omega)
      simp only [future_state.set_value, set_value_impl, hr, Bool.false_eq_true, if_false,
          Option.some.injEq] at hs
      subst hs
      exact .set_prm hst hr

theorem lockedAdd_calm {c c₁ c' : Config α ε} {t : Nat} {a : Action α ε}
    {k k' : List (Frame α ε)} {st : StateId} {kont : Cont} (h : Adds c a k c₁ st kont k')
    (hs : lockedAdd c₁ t st kont k' = some c') : Calm c t k c' := by
  obtain ⟨s, hst, ⟨hr, rfl⟩ | ⟨hr, rfl⟩⟩ := lockedAdd.spec hs
  · exact .run_now h hst hr
  · exact .stored h hst hr

theorem lockedWait_calm {c c' : Config α ε} {t : Nat} {k k' : List (Frame α ε)} {st : StateId}
    {g : Bool} (h : Waits k st g k') (hs : lockedWait c t st g k' = some c') : Calm c t k c' := by
  obtain ⟨s, hst, ⟨hr, rfl⟩ | ⟨hr, hb, rfl⟩ | ⟨hr, -, rfl⟩⟩ := lockedWait.spec hs
  · exact .waited h hst hr
  · exact .first_wait h hst hr hb
  · exact .wait h

theorem execDec_calm {c c' : Config α ε} {t : Nat} {n : CounterId} {k : List (Frame α ε)}
    (hs : execDec c t n k = some c') : Calm c t (.exec (.dec n) :: k) c' := by
  unfold execDec at hs
  split at hs
  · cases hs
  · rename_i ctr hn
    dsimp only at hs
    split at hs
    · rename_i h1
      cases hs
      exact .dec hn (Or.inl ⟨h1, rfl⟩)
    · rename_i h1
      cases hs
      exact .dec hn (Or.inr ⟨h1, rfl⟩)

/-- Where each state has one owner, a step of an orderly run is calm. -/
theorem step_calm {c c' : Config α ε} {e : Nat × Action α ε} (ho : Owned c) (hn : Orderly c e)
    (h : step c e = some c') : ∃ k, c.threads[e.1]? = some k ∧ Calm c e.1 k c' := by
  obtain ⟨t, a⟩ := e
  obtain ⟨-, k, hk, hm⟩ := step_moves h
  refine ⟨k, hk, ?_⟩
  cases hm with
  | local_ hl => exact .local_ hl
  | promise => exact .promise
  | made_ready hk' => exact .made_ready hk'
  | when_all_ready hfs hk' => exact .when_all_ready hfs hk'
  | add h hs => exact lockedAdd_calm h hs
  | set h hs => exact h.calm ho hk hn.1 hs
  | wait hs => exact lockedWait_calm .wait hs
  | get hs => exact lockedWait_calm .get hs
  | dec hs => exact execDec_calm hs
  | signal hs => exact .signal hs
  | run => exact .run
  | throw_ => exact absurd hk (hn.2 _ _ _ rfl)
  | fault hf => exact .fault hf

/-! ## What a calm step does to the owners -/

/-- The state is there and has no outcome yet. -/
def Pending (c : Config α ε) (st : StateId) : Prop :=
  ∃ s, c.states[st]? = some s ∧ ready s = false

theorem Pending.alloc {c : Config α ε} {st : StateId} (h : Pending c st) (s : State α ε) :
    Pending (c.alloc s) st := by
  obtain ⟨s', hs', hr⟩ := h
  refine ⟨s', ?_, hr⟩
  simp only [Config.alloc]
  rw [List.getElem?_append_left (List.getElem?_eq_some_iff.mp hs').1, hs']

theorem pending_new (c : Config α ε) {s : State α ε} (hr : ready s = false) :
    Pending (c.alloc s) c.states.length := ⟨s, by simp [Config.alloc], hr⟩

theorem Pending.update {c : Config α ε} {i st : StateId} {s u : State α ε} (h : Pending c st)
    (hs : c.states[i]? = some s) (hr : ready u = ready s) : Pending (c.update i u) st := by
  obtain ⟨t, ht, htr⟩ := h
  by_cases hi : i = st
  · subst hi
    rw [hs] at ht
    cases ht
    exact ⟨u, update_self u hs, hr.trans htr⟩
  · exact ⟨t, by rw [update_ne u hi, ht], htr⟩

theorem Pending.update_ne {c : Config α ε} {i st : StateId} (s' : State α ε) (h : Pending c st)
    (hi : i ≠ st) : Pending (c.update i s') st := by
  obtain ⟨t, ht, htr⟩ := h
  exact ⟨t, by rw [futures.update_ne s' hi, ht], htr⟩

theorem Func.client_owns {func : Func} (h : func.client = true) (st : StateId) :
    func.owns st = 0 := by
  cases func <;> first | rfl | cases h

theorem deliver_owns (st : StateId) (r : Except (Exception ε) (Value α))
    (k : List (Frame α ε)) : stackOwns st (deliver r k) = stackOwns st k := by
  unfold deliver
  split
  · split <;> simp [Frame.owns]
  · simp [Frame.owns]
  · rfl

@[simp] theorem waited_owns (st st' : StateId) (g : Bool) (k : List (Frame α ε)) :
    stackOwns st (waited st' g k) = stackOwns st k := by
  unfold waited
  split <;> simp [Frame.owns]

/-- The outer function of `unwrap` for the state `st` is called on a future that has failed. -/
def OuterFailed (c : Config α ε) (st : StateId) (k : List (Frame α ε)) : Prop :=
  ∃ src rs x k', k = .exec (.invoke_and_set_value src rs (.unwrap st)) :: k' ∧
    outcome c src = some (.error x)

theorem Local.owns {c : Config α ε} {k k' : List (Frame α ε)} (h : Local c k k')
    (st : StateId) : stackOwns st k' = stackOwns st k ∨
      (OuterFailed c st k ∧ stackOwns st k' ≤ stackOwns st k) := by
  cases h with
  | passed ho =>
    rename_i src rs func x k
    by_cases hf : func = .unwrap st
    · subst hf
      exact Or.inr ⟨⟨src, rs, x, k, rfl, ho⟩, by simp [Frame.owns, Cont.owns]⟩
    · left
      have : func.owns st = 0 := by
        cases func with
        | unwrap s => exact one_ne (fun h => hf (by rw [h]))
        | _ => rfl
      simp [Frame.owns, Cont.owns, this]
  | called hf => simp [Frame.owns, Cont.owns, Func.client_owns hf]
  | read => exact Or.inl (by simp [deliver_owns, Frame.owns])
  | _ => simp [Frame.owns, Cont.owns, Func.owns]

/-- What a registration adds to the owners: the new state of a `then` or an `unwrap`. -/
theorem Adds.owns {c c₁ : Config α ε} {a : Action α ε} {k k' : List (Frame α ε)}
    {st₀ : StateId} {kont : Cont} (h : Adds c a k c₁ st₀ kont k') (st : StateId) :
    c₁.threads = c.threads ∧ c₁.promises = c.promises ∧ owners c₁ st = owners c st ∧
      (Pending c st → Pending c₁ st) ∧
      (kont.owns st + stackOwns st k' = stackOwns st k ∨
        (c.states.length ≤ st ∧ Pending c₁ st ∧
          kont.owns st + stackOwns st k' = stackOwns st k + 1)) := by
  cases h with
  | then_ hf =>
    refine ⟨rfl, rfl, owners_alloc c st rfl, fun h => h.alloc _, ?_⟩
    simp only [Cont.owns, Func.client_owns hf]
    by_cases hst : c.states.length = st
    · subst hst
      exact Or.inr ⟨Nat.le_refl _, pending_new c rfl, by simp [Nat.add_comm]⟩
    · exact Or.inl (by simp [one_ne hst])
  | continue_with => exact ⟨rfl, rfl, rfl, id, by simp [Cont.owns]⟩
  | unwrap ho =>
    rename_i o b k
    refine ⟨rfl, rfl, ?_, fun h => (h.alloc { await_queue_ := o.await_queue_ }).alloc {}, ?_⟩
    · rw [owners_note, owners_alloc _ _ rfl, owners_alloc _ _ rfl]
    · simp only [Cont.owns, Func.owns]
      have hnew : Pending ((c.alloc { await_queue_ := o.await_queue_ }).alloc {})
          (c.states.length + 1) := by
        have := pending_new (c.alloc { await_queue_ := o.await_queue_ })
          (s := ({} : State α ε)) rfl
        simpa [Config.alloc] using this
      have hne : c.states.length + 1 ≠ c.states.length := by omega
      by_cases hst : c.states.length = st
      · subst hst
        refine Or.inr ⟨Nat.le_refl _, (pending_new c rfl).alloc _, ?_⟩
        rw [one_ne hne, one_self]
        omega
      · by_cases hst' : c.states.length + 1 = st
        · subst hst'
          refine Or.inr ⟨by omega, hnew, ?_⟩
          rw [one_ne hne.symm, one_self]
          omega
        · exact Or.inl (by simp [one_ne hst, one_ne hst'])
  | unwrap_outer =>
    refine ⟨rfl, rfl, rfl, id, Or.inl ?_⟩
    simp only [Cont.owns, Func.owns, stackOwns_cons, Frame.owns]
    omega
  | register => exact ⟨rfl, rfl, rfl, id, by simp [Cont.owns, Frame.owns]⟩
  | when_all =>
    refine ⟨rfl, rfl, owners_alloc c st rfl, fun h => h.alloc _, ?_⟩
    simp only [Cont.owns, Func.owns, stackOwns_cons, Frame.owns]
    by_cases hst : c.states.length = st
    · subst hst
      exact Or.inr ⟨Nat.le_refl _, pending_new c rfl, by simp; omega⟩
    · exact Or.inl (by simp [one_ne hst])

theorem settle_owns {c : Config α ε} {t : Nat} {st₀ : StateId} (allow : Bool)
    {s : State α ε} (s' : State α ε) {k : List (Frame α ε)} (k' : List (Frame α ε))
    (st : StateId) (hk : c.threads[t]? = some k) (hs : c.states[st₀]? = some s) :
    owners (settle c t st₀ allow s s' k') st + stackOwns st k = owners c st + stackOwns st k' := by
  have := weigh_settle (ownersOf st) allow s' k' hk hs
  simp only [ownersOf, Frame.owns, contsOwn_nil] at this
  simp only [owners, ownersOf, stackOwns]
  omega

theorem registered_owns {c : Config α ε} {t : Nat} {st₀ : StateId} {s u : State α ε}
    (kont : Cont) {k : List (Frame α ε)} (k' : List (Frame α ε)) (st : StateId)
    (hk : c.threads[t]? = some k) (hs : c.states[st₀]? = some s)
    (hu : u.continuations_ = s.continuations_) :
    owners (registered c t st₀ u kont k') st + stackOwns st k =
      owners c st + kont.owns st + stackOwns st k' := by
  have := weigh_registered (ownersOf st) u kont k' hk hs
  simp only [ownersOf, hu, contsOwn_append, contsOwn_cons, contsOwn_nil] at this
  simp only [owners, ownersOf, stackOwns]
  omega

theorem registered_pending {c : Config α ε} {t : Nat} {st₀ st : StateId} {s u : State α ε}
    {kont : Cont} {k : List (Frame α ε)} (hs : c.states[st₀]? = some s)
    (hu : ready u = ready s) (h : Pending c st) : Pending (registered c t st₀ u kont k) st :=
  Pending.update (c := c.enroll st₀) (u := { u with
    continuations_ := u.continuations_ ++ [(c.sources.length, kont)] }) h hs hu

theorem settle_ready {c : Config α ε} {t : Nat} {st : StateId} {allow : Bool} {s s' : State α ε}
    {k : List (Frame α ε)} (hs : c.states[st]? = some s) (hr : ready s' = true) :
    Ready (settle c t st allow s s' k) st :=
  ⟨{ s' with continuations_ := [] }, update_self _ hs, hr⟩

theorem settle_pending {c : Config α ε} {t : Nat} {st₀ st : StateId} {allow : Bool}
    {s s' : State α ε} {k : List (Frame α ε)} (hst : st₀ ≠ st) (h : Pending c st) :
    Pending (settle c t st₀ allow s s' k) st :=
  Pending.update_ne { s' with continuations_ := [] } (c := c) h hst

theorem startWhenAllReady_owns {c : Config α ε} {t : Nat} (fs : List Future) (q : Option Nat)
    {k : List (Frame α ε)} (k' : List (Frame α ε)) (st : StateId) (hk : c.threads[t]? = some k) :
    owners (startWhenAllReady c t fs q k') st + stackOwns st k =
      owners c st + Counter.owns st ⟨fs.length, c.states.length⟩ + stackOwns st k' :=
  weigh_startWhenAllReady (ownersOf st) fs q k' hk

/-- What a step can do to the owners of `st`: nothing, or the owner is lost in a failed `unwrap`,
or `st` is new, or its owner has set it. -/
inductive OwnersMove (c c' : Config α ε) (k : List (Frame α ε)) (st : StateId) : Prop where
  | same (he : owners c' st = owners c st) (hp : Pending c st → Pending c' st)
  | lost (hf : OuterFailed c st k) (he : owners c' st ≤ owners c st)
      (hp : Pending c st → Pending c' st)
  | new (hst : c.states.length ≤ st) (hp : Pending c' st) (he : owners c' st = owners c st + 1)
      (hc : c'.promises = c.promises)
  | set (hr : Ready c' st) (he : owners c' st = 0)

theorem settle_move {c : Config α ε} {t : Nat} {st₀ : StateId} {allow : Bool}
    {s s' : State α ε} {f : Frame α ε} {k k' : List (Frame α ε)} (ho : Owned c)
    (hk : c.threads[t]? = some (f :: k)) (hs : c.states[st₀]? = some s) (hr : ready s' = true)
    (hf : ∀ st, f.owns st = one st₀ st) (hk' : ∀ st, stackOwns st k' = stackOwns st k)
    (st : StateId) : OwnersMove c (settle c t st₀ allow s s' k') (f :: k) st := by
  have hown := settle_owns allow s' k' st hk hs
  simp only [stackOwns_cons, hf, hk'] at hown
  by_cases hst : st₀ = st
  · subst hst
    have := ho.one_owner st₀
    simp only [one_self] at hown
    exact .set (settle_ready hs hr) (by omega)
  · rw [one_ne hst] at hown
    exact .same (by omega) (settle_pending hst)

/-- The owners of `st` in a calm step. -/
theorem calm_owners {c c' : Config α ε} {t : Nat} {k : List (Frame α ε)} (ho : Owned c)
    (hk : c.threads[t]? = some k) (h : Calm c t k c') (st : StateId) :
    OwnersMove c c' k st := by
  cases h with
  | local_ hl =>
    rename_i k'
    have hput := owners_put k' st hk
    rcases hl.owns st with he | ⟨hf, he⟩
    · exact .same (by omega) id
    · exact .lost hf (by omega) id
  | promise => exact .same (owners_alloc c st rfl) (fun h => h.alloc _)
  | made_ready hk' =>
    rename_i b k k'
    have hput := owners_put (c := c.alloc { value_ := some .unit }) k' st hk
    rw [owners_alloc c st rfl] at hput
    have : stackOwns st k' = stackOwns st (.user b :: k) := by
      rcases hk' with rfl | rfl <;> simp [Frame.owns]
    exact .same (by omega) (fun h => h.alloc _)
  | when_all_ready hfs hk' =>
    rename_i b fs q k k'
    have hpos : 0 < (fs.length : Int) := by
      have := List.length_pos_iff.mpr hfs
      omega
    have hown := startWhenAllReady_owns fs q k' st hk
    have hk'' : stackOwns st k' = stackOwns st (.user b :: k) := by
      rcases hk' with rfl | rfl <;> simp [Frame.owns]
    simp only [Counter.owns, hpos, if_true] at hown
    by_cases hst : c.states.length = st
    · subst hst
      rw [one_self] at hown
      exact .new (Nat.le_refl _) (pending_new c rfl) (by omega) rfl
    · rw [one_ne hst] at hown
      exact .same (by omega) (fun h => h.alloc _)
  | stored h hs hr =>
    rename_i a c₁ st₀ s kont k'
    obtain ⟨h1, h2, h3, h4, h5⟩ := h.owns st
    have hreg := registered_owns kont k' st (by rw [h1]; exact hk) hs rfl
    rcases h5 with h5 | ⟨hst, hp, h5⟩
    · exact .same (by omega) (fun h => registered_pending hs rfl (h4 h))
    · exact .new hst (registered_pending hs rfl hp) (by omega) h2
  | run_now h hs hr =>
    rename_i a c₁ st₀ s kont k'
    obtain ⟨h1, h2, h3, h4, h5⟩ := h.owns st
    have hput := owners_put (c := (c₁.enroll st₀).note [.invoked c₁.sources.length])
      (.exec kont :: .invoking c₁.sources.length :: k') st (by rw [← h1] at hk; exact hk)
    simp only [owners_note, stackOwns_cons, Frame.owns] at hput
    have henroll : owners (c₁.enroll st₀) st = owners c₁ st := rfl
    rcases h5 with h5 | ⟨hst, hp, h5⟩
    · exact .same (by omega) h4
    · exact .new hst hp (by omega) h2
  | fulfilled hp hs hr hs' =>
    rename_i b k st₀ allow s s'
    have hown := settle_owns allow s' (.user b :: k) st hk hs
    by_cases hst : st₀ = st
    · subst hst
      have hready : ready s' = true := by
        rcases hs' with ⟨w, rfl⟩ | ⟨x, rfl⟩ <;> simp [ready]
      exact .set (settle_ready hs hready) (by have := (ho.promised _ hp).2; omega)
    · exact .same (by omega) (settle_pending hst)
  | refused =>
    rename_i b k st₀ allow r hr
    have hput := owners_put (c := c.note [.set st₀ allow r]) (.user b :: k) st hk
    rw [owners_note] at hput
    exact .same (by omega) id
  | set_value hs hr =>
    exact settle_move ho hk hs (by simp [ready]) (fun st => rfl) (fun st => by simp [Frame.owns]) st
  | built =>
    rename_i rs v x k
    have hput := owners_put (c := c.note [.set rs true (.built x)]) (.handler rs x :: k) st hk
    simp only [owners_note, stackOwns_cons, Frame.owns] at hput
    exact .same (by omega) id
  | set_exception hs hr =>
    exact settle_move ho hk hs (by simp [ready]) (fun st => rfl) (fun st => rfl) st
  | set_prm hs hr =>
    exact settle_move ho hk hs (by simp [ready]) (fun st => rfl) (fun st => rfl) st
  | waited h hs hr =>
    rename_i st₀ g k' s
    have hput := owners_put (waited st₀ g k') st hk
    have : stackOwns st k' = stackOwns st k := by cases h <;> simp [Frame.owns]
    rw [waited_owns] at hput
    exact .same (by omega) id
  | first_wait h hs hr hb =>
    rename_i st₀ g k' s
    have hreg := registered_owns (u := { s with block_ := some false }) (.signal st₀)
      (.waiting st₀ g :: k') st hk hs rfl
    have : stackOwns st k' = stackOwns st k := by cases h <;> simp [Frame.owns]
    simp only [Cont.owns, stackOwns_cons, Frame.owns] at hreg
    exact .same (by omega) (registered_pending hs rfl)
  | wait h =>
    rename_i st₀ g k'
    have hput := owners_put (.waiting st₀ g :: k') st hk
    have : stackOwns st k' = stackOwns st k := by cases h <;> simp [Frame.owns]
    simp only [stackOwns_cons, Frame.owns] at hput
    exact .same (by omega) id
  | dec hn hk' =>
    rename_i n ctr k k'
    have hcount := owners_recount { ctr with count := ctr.count - 1 } st hn
    have hput := owners_put (c := { c with
      counters := c.counters.set n { ctr with count := ctr.count - 1 } }) k' st hk
    rcases hk' with ⟨h1, rfl⟩ | ⟨h1, rfl⟩
    · have hold : ctr.owns st = one ctr.prm st := by simp [Counter.owns, h1]
      have hnew : Counter.owns st { ctr with count := ctr.count - 1 } = 0 := by
        simp [Counter.owns, h1]
      simp only [stackOwns_cons, Frame.owns, Cont.owns] at hput
      exact .same (by omega) id
    · have heq : Counter.owns st { ctr with count := ctr.count - 1 } = ctr.owns st := by
        unfold Counter.owns
        dsimp only
        split <;> split <;> omega
      simp only [stackOwns_cons, Frame.owns, Cont.owns] at hput
      exact .same (by omega) id
  | signal hs =>
    rename_i st₀ s k
    have hput := owners_put (c := c.update st₀ (signal s)) k st hk
    have hup := owners_update (signal s) st hs
    simp only [signal, stackOwns_cons, Frame.owns, Cont.owns] at hput hup
    exact .same (by simp only [signal]; omega) (fun h => Pending.update h hs rfl)
  | run =>
    rename_i st₀ i kont cs k
    have hput := owners_put (c := c.note [.invoked i])
      (.exec kont :: .invoking i :: .drain st₀ cs :: k) st hk
    simp only [owners_note, stackOwns_cons, Frame.owns, contsOwn_cons] at hput
    exact .same (by omega) id
  | fault => exact .same rfl id

/-- Only a new promise gives the client a state to set. -/
theorem calm_promises {c c' : Config α ε} {t : Nat} {k : List (Frame α ε)}
    (h : Calm c t k c') : c'.promises = c.promises ∨
      (c'.promises = c.promises ++ [c.states.length] ∧ c.states.length < c'.states.length ∧
        ∀ st, owners c' st = owners c st) := by
  cases h with
  | promise => exact Or.inr ⟨rfl, by simp [Config.alloc], fun st => owners_alloc c st rfl⟩
  | stored h => exact Or.inl (h.owns 0).2.1
  | run_now h => exact Or.inl (h.owns 0).2.1
  | _ => exact Or.inl rfl

theorem Grows.lt {c c' : Config α ε} (h : Grows c c') {st : StateId}
    (hst : st < c.states.length) : st < c'.states.length := by
  obtain ⟨s', hs', -⟩ := h.states st _ (List.getElem?_eq_getElem hst)
  exact (List.getElem?_eq_some_iff.mp hs').1

/-- An orderly step leaves each state with at most one owner. -/
theorem step_owned {c c' : Config α ε} {e : Nat × Action α ε} (ho : Owned c)
    (hn : Orderly c e) (hs : step c e = some c') : Owned c' := by
  obtain ⟨k, hk, hc⟩ := step_calm ho hn hs
  have hmove := calm_owners ho hk hc
  have hg := step_grows hs
  have kept : ∀ p ∈ c.promises, p < c'.states.length ∧ owners c' p = 0 := by
    intro p hp
    obtain ⟨hlt, h0⟩ := ho.promised p hp
    refine ⟨hg.lt hlt, ?_⟩
    rcases hmove p with ⟨he, -⟩ | ⟨-, he, -⟩ | ⟨hst, -, -, -⟩ | ⟨-, he⟩
    · omega
    · omega
    · exact absurd hst (Nat.not_le_of_lt hlt)
    · exact he
  refine ⟨fun st => ?_, fun st hpos => ?_, fun p hp => ?_⟩
  · have := ho.one_owner st
    rcases hmove st with ⟨he, -⟩ | ⟨-, he, -⟩ | ⟨hst, -, he, -⟩ | ⟨-, he⟩
    · omega
    · omega
    · have := ho.fresh hst
      omega
    · omega
  · rcases hmove st with ⟨he, hp⟩ | ⟨-, he, hp⟩ | ⟨-, hp, -, -⟩ | ⟨-, he⟩
    · exact hp (ho.pending st (by omega))
    · exact hp (ho.pending st (by omega))
    · exact hp
    · omega
  · rcases calm_promises hc with hp' | ⟨hp', hlt, hown⟩
    · rw [hp'] at hp
      exact kept p hp
    · rw [hp'] at hp
      rcases List.mem_append.mp hp with hp | hp
      · exact kept p hp
      · rw [List.mem_singleton] at hp
        subst hp
        exact ⟨hlt, by rw [hown, ho.fresh (Nat.le_refl _)]⟩

theorem owned_init (n : Nat) : Owned (init α ε n) := by
  have h0 : ∀ st, owners (init α ε n) st = 0 := fun st => by
    have := total_replicate (total (Frame.owns st)) n [(.user .main : Frame α ε)] rfl
    simpa [owners, weigh, ownersOf, init] using this
  exact ⟨fun st => by rw [h0]; omega, fun st h => by rw [h0] at h; omega, by simp [init]⟩

theorem reach_owned {n : Nat} {c : Config α ε} (h : Reach step Orderly (init α ε n) c) :
    Owned c :=
  h.invariant (owned_init n) (fun _ _ _ ho hn hs => step_owned ho hn hs)

end ltl.futures
