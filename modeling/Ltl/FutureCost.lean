-- What is left to do in the threads of futures, as a number: as long as client
-- code makes no new call, each step lowers it.
import Ltl.Ownership
import Ltl.Weights

open ltl.future_state counts runs

namespace ltl.futures

variable {α ε : Type}

/-- Client code makes no new call: library code goes on, and functions of the client end. -/
def Settling (_ : Config α ε) (e : Nat × Action α ε) : Prop :=
  match e.2 with
  | .tick _ => True
  | .ret _ => True
  | .throw_ _ => True
  | _ => False

instance (c : Config α ε) (e : Nat × Action α ε) : Decidable (Settling c e) :=
  match e with
  | (_, .tick _) | (_, .ret _) | (_, .throw_ _) => isTrue trivial
  | (_, .promise _) | (_, .set_value _ _ _ _) | (_, .set_exception _ _) | (_, .then_ _ _)
  | (_, .continue_with _ _) | (_, .wait _) | (_, .get _) | (_, .when_all_ready _ _)
  | (_, .when_all _ _) | (_, .unwrap _) => isFalse id

/-! ## The work that is left -/

/-- A function of `then` costs its call and the setter of its result. -/
def Func.cost : Func → Nat
  | .then_ _ => 6
  | .next_ _ => 6
  | .ignore => 5
  | .get_all fs => 6 + 7 * fs.length
  | .unwrap _ => 20

def Cont.cost : Cont → Nat
  | .invoke_and_set_value _ _ func => func.cost
  | .call _ => 2
  | .dec _ => 3
  | .get_and_set_value _ _ => 11
  | .signal _ => 1

/-- What is stored costs the turn of a loop and the return from the call too. -/
def storedCost (p : Id × Cont) : Nat := p.2.cost + 2

def Frame.cost : Frame α ε → Nat
  | .user .main => 0
  | .user (.callback _ _ _) => 5
  | .user (.fn _) => 1
  | .try_set _ _ => 4
  | .catch_ _ => 2
  | .handler _ _ => 2
  | .drain _ cs => 1 + total storedCost cs
  | .exec kont => kont.cost
  | .invoking _ => 1
  | .set_prm _ => 2
  | .register _ fs => 1 + 6 * fs.length
  | .when_all_then _ fs => 9 + 7 * fs.length
  | .get_all _ fs _ => 5 + 7 * fs.length
  | .set_got _ => 4
  | .unwrap_try _ _ => 6
  | .future_get _ => 6
  | .waiting _ _ => 2
  | .reading _ => 1

def stackCost (k : List (Frame α ε)) : Nat := total Frame.cost k

def costOf : Weights α ε where
  state s := total storedCost s.continuations_
  frame := Frame.cost
  counter _ := 0
  entry _ := 0

/-- The steps to come, those that end in a fault apart. -/
def work (c : Config α ε) : Nat := weigh costOf c

/-- A bound on the steps to come. -/
def cost (c : Config α ε) : Nat := work c + if c.fault.isNone then 1 else 0

@[simp] theorem stackCost_cons (f : Frame α ε) (k : List (Frame α ε)) :
    stackCost (f :: k) = f.cost + stackCost k := by simp [stackCost]

theorem work_put {c : Config α ε} {t : Nat} {k : List (Frame α ε)} (k' : List (Frame α ε))
    (hk : c.threads[t]? = some k) : work (c.put t k') + stackCost k = work c + stackCost k' :=
  weigh_put costOf k' hk

@[simp] theorem work_note (c : Config α ε) (es : List (Entry ε)) : work (c.note es) = work c := by
  have h : total (costOf : Weights α ε).entry es = 0 := total_zero es
  simp only [work, weigh_note, h, Nat.add_zero]

theorem work_alloc (c : Config α ε) {s : State α ε} (hs : s.continuations_ = []) :
    work (c.alloc s) = work c := by
  simp [work, weigh_alloc, costOf, hs]

theorem deliver_cost (r : Except (Exception ε) (Value α)) (k : List (Frame α ε)) :
    stackCost (deliver r k) ≤ stackCost k := by
  unfold deliver
  split
  · split
    · simp [Frame.cost]
    · simp only [stackCost_cons, Frame.cost]
      omega
  · simp [Frame.cost]
  · exact Nat.le_refl _

/-- An exception leaves calls and turns some into their handlers, at no cost. -/
theorem raise_cost (x : Exception ε) (k : List (Frame α ε)) :
    stackCost (raise x k).2 ≤ stackCost k := by
  induction k with
  | nil => simp [raise]
  | cons f k ih =>
    have hle : stackCost k ≤ stackCost (f :: k) := by simp
    cases f with
    | user b => simp [raise]
    | catch_ rs => simp [raise, Frame.cost]
    | try_set rs r => simp [raise, Frame.cost]
    | unwrap_try rs s =>
      simp only [raise, stackCost_cons, Frame.cost]
      omega
    | _ => exact Nat.le_trans ih hle

theorem waited_cost (st : StateId) (g : Bool) (k : List (Frame α ε)) :
    stackCost (waited st g k) ≤ 1 + stackCost k := by
  unfold waited
  split
  · simp [Frame.cost]
  · omega

/-! ## What a step costs -/

theorem throwTo_work {c : Config α ε} {t : Nat} {k₀ : List (Frame α ε)} (x : Exception ε)
    (k : List (Frame α ε)) (hk : c.threads[t]? = some k₀) :
    work (throwTo c t x k) + stackCost k₀ ≤ work c + stackCost k := by
  have hput := work_put (c := c.note (raise x k).1) (raise x k).2 hk
  have hraise := raise_cost x k
  rw [work_note] at hput
  unfold throwTo
  omega

/-- The loop of a setter pays with what the state held. -/
theorem setMove_work {c c' : Config α ε} {t : Nat} {a : Action α ε} {st : StateId} {allow : Bool}
    {k₀ k : List (Frame α ε)} (hk : c.threads[t]? = some k₀)
    (h : SetMove c t a st allow k c') : work c' + stackCost k₀ ≤ work c + 1 + stackCost k := by
  have settled : ∀ s s', c.states[st]? = some s →
      work (settle c t st allow s s' k) + stackCost k₀ ≤ work c + 1 + stackCost k := by
    intro s s' hs
    have hsettle := weigh_settle costOf allow s' k hk hs
    simp only [costOf, total_nil, Frame.cost] at hsettle
    unfold work stackCost
    simp only [costOf]
    omega
  have thrown : ∀ x es, work (throwTo (c.note es) t x k) + stackCost k₀ ≤
      work c + 1 + stackCost k := by
    intro x es
    have hthrow := throwTo_work (c := c.note es) x k hk
    rw [work_note] at hthrow
    omega
  cases h with
  | value s w hs hr => exact settled s _ hs
  | exception s x hs hr hx => exact settled s _ hs
  | ignored s hs hr ha =>
    have hput := work_put (c := c.note [.set st allow .ignored]) k hk
    rw [work_note] at hput
    omega
  | already s hs hr ha => exact thrown _ _
  | built s x hs hr => exact thrown _ _

theorem lockedAdd_work {c d c' : Config α ε} {t : Nat} {st : StateId} {kont : Cont}
    {k₀ k : List (Frame α ε)} (hk : c.threads[t]? = some k₀) (ht : d.threads = c.threads)
    (hd : work d = work c) (h : lockedAdd d t st kont k = some c') :
    work c' + stackCost k₀ ≤ work c + (kont.cost + 2) + stackCost k := by
  rw [← ht] at hk
  obtain ⟨s, hs, ⟨-, rfl⟩ | ⟨-, rfl⟩⟩ := lockedAdd.spec h
  · have hput := work_put (c := (d.enroll st).note [.invoked d.sources.length])
      (.exec kont :: .invoking d.sources.length :: k) hk
    have henroll : work (d.enroll st) = work d := weigh_enroll costOf d st
    simp only [work_note, henroll, stackCost_cons, Frame.cost] at hput
    omega
  · have hreg := weigh_registered costOf s kont k hk hs
    simp only [costOf, total_append, total_cons, total_nil, storedCost] at hreg
    unfold work at hd ⊢
    unfold stackCost
    simp only [registered] at hreg
    simp only [costOf] at hd ⊢
    omega

theorem lockedWait_work {c c' : Config α ε} {t : Nat} {st : StateId} {g : Bool}
    {k₀ k : List (Frame α ε)} (hk : c.threads[t]? = some k₀)
    (h : lockedWait c t st g k = some c') : work c' + stackCost k₀ ≤ work c + 5 + stackCost k := by
  obtain ⟨s, hs, ⟨-, rfl⟩ | ⟨-, -, rfl⟩ | ⟨-, -, rfl⟩⟩ := lockedWait.spec h
  · have hput := work_put (waited st g k) hk
    have hwaited := waited_cost st g k
    omega
  · have hreg := weigh_registered costOf { s with block_ := some false } (.signal st)
      (.waiting st g :: k) hk hs
    simp only [costOf, total_append, total_cons, total_nil, storedCost, Cont.cost, Frame.cost]
      at hreg
    unfold work stackCost
    simp only [registered] at hreg
    simp only [costOf]
    omega
  · have hput := work_put (.waiting st g :: k) hk
    simp only [stackCost_cons, Frame.cost] at hput
    omega

theorem execDec_work {c c' : Config α ε} {t : Nat} {n : CounterId} {k₀ k : List (Frame α ε)}
    (hk : c.threads[t]? = some k₀) (h : execDec c t n k = some c') :
    work c' + stackCost k₀ ≤ work c + 2 + stackCost k := by
  have counted : ∀ ctr ctr' k', c.counters[n]? = some ctr →
      work ({ c with counters := c.counters.set n ctr' }.put t k') + stackCost k₀ =
        work c + stackCost k' := by
    intro ctr ctr' k' hn
    have hrec := weigh_recount costOf ctr' hn
    have hput := work_put (c := { c with counters := c.counters.set n ctr' }) k' hk
    simp only [costOf, Nat.add_zero] at hrec
    unfold work at hput ⊢
    simp only [costOf] at hput ⊢
    omega
  unfold execDec at h
  split at h
  · cases h
  · rename_i ctr hn
    split at h
    · cases h
      have hc := counted ctr { ctr with count := ctr.count - 1 } (.set_prm ctr.prm :: k) hn
      simp only [stackCost_cons, Frame.cost] at hc
      omega
    · cases h
      have hc := counted ctr { ctr with count := ctr.count - 1 } k hn
      omega

/-- The step costs something, or it is the last one. -/
def Pays (c c' : Config α ε) : Prop := work c' < work c ∨ ∃ f, c' = c.fail f

theorem pays_put {c : Config α ε} {t : Nat} {k k' : List (Frame α ε)}
    (hk : c.threads[t]? = some k) (h : stackCost k' < stackCost k) : Pays c (c.put t k') := by
  have hput := work_put k' hk
  exact Or.inl (by omega)

theorem readState_pays {c c' : Config α ε} {st : StateId}
    {g : Except (Exception ε) (Value α) → Option (Config α ε)} (h : readState c st g = some c')
    (hg : ∀ r, outcome c st = some r → g r = some c' → Pays c c') : Pays c c' := by
  rcases readState_some h with ⟨-, -, rfl⟩ | ⟨r, hr, hgr⟩
  · exact Or.inr ⟨_, rfl⟩
  · exact hg r hr hgr

theorem execFunc_pays {c c' : Config α ε} {t : Nat} {src rs : StateId} {func : Func}
    {k : List (Frame α ε)}
    (hk : c.threads[t]? = some (.exec (.invoke_and_set_value src rs func) :: k))
    (h : execFunc c t src rs func k = some c') : Pays c c' := by
  have put : ∀ k', some (c.put t k') = some c' →
      stackCost k' < stackCost (.exec (.invoke_and_set_value src rs func) :: k) → Pays c c' := by
    intro k' hc hlt
    cases hc
    exact pays_put hk hlt
  cases func with
  | then_ f => exact put _ h (by simp [Frame.cost, Cont.cost, Func.cost])
  | next_ f =>
    apply readState_pays h
    intro r _ hr
    cases r with
    | ok v => exact put _ hr (by simp [Frame.cost, Cont.cost, Func.cost])
    | error x => exact put _ hr (by simp [Frame.cost, Cont.cost, Func.cost])
  | ignore => exact put _ h (by simp [Frame.cost, Cont.cost, Func.cost])
  | get_all fs =>
    apply put _ h
    simp only [stackCost_cons, Frame.cost, Cont.cost, Func.cost]
    omega
  | unwrap s =>
    apply readState_pays h
    intro r _ hr
    cases r with
    | error x => exact put _ hr (by simp [Frame.cost, Cont.cost, Func.cost])
    | ok v =>
      cases v with
      | future f =>
        cases f with
        | none =>
          cases hr
          exact Or.inr ⟨_, rfl⟩
        | some f =>
          have hadd := lockedAdd_work hk rfl rfl hr
          simp only [stackCost_cons, Frame.cost, Cont.cost, Func.cost] at hadd
          exact Or.inl (by omega)
      | unit =>
        cases hr
        exact Or.inr ⟨_, rfl⟩
      | val a =>
        cases hr
        exact Or.inr ⟨_, rfl⟩
      | vec vs =>
        cases hr
        exact Or.inr ⟨_, rfl⟩

theorem exec_pays {c c' : Config α ε} {t : Nat} {kont : Cont} {k : List (Frame α ε)}
    (hk : c.threads[t]? = some (.exec kont :: k)) (h : exec c t kont k = some c') :
    Pays c c' := by
  cases kont with
  | invoke_and_set_value src rs func => exact execFunc_pays hk h
  | call f =>
    cases h
    exact pays_put hk (by simp [Frame.cost, Cont.cost])
  | dec n =>
    have hdec := execDec_work hk h
    simp only [stackCost_cons, Frame.cost, Cont.cost] at hdec
    exact Or.inl (by omega)
  | get_and_set_value s f =>
    cases h
    apply pays_put hk
    simp only [stackCost_cons, Frame.cost, Cont.cost]
    omega
  | signal st =>
    simp only [exec] at h
    split at h
    · cases h
    · rename_i s hs
      cases h
      have hup := weigh_update costOf (signal s) hs
      have hput := work_put (c := c.update st (signal s)) k hk
      simp only [costOf, signal, Nat.add_right_cancel_iff] at hup
      simp only [stackCost_cons, Frame.cost, Cont.cost] at hput
      unfold work at hput
      simp only [costOf, signal] at hput
      refine Or.inl ?_
      unfold work
      simp only [costOf, signal]
      omega

/-- Every step of library code pays. -/
theorem tick_pays {c c' : Config α ε} {t : Nat} {f : Frame α ε} {k : List (Frame α ε)}
    {built : Option (Exception ε)} (hk : c.threads[t]? = some (f :: k))
    (h : tick c t f k built = some c') : Pays c c' := by
  have put : ∀ k', some (c.put t k') = some c' → stackCost k' < stackCost (f :: k) →
      Pays c c' := by
    intro k' hc hlt
    cases hc
    exact pays_put hk hlt
  cases f with
  | user b => cases h
  | try_set rs r =>
    cases r with
    | ok v =>
      have hset := setMove_work (a := .tick built) hk
        ((Sets.try_set (a := .tick built) built).move h)
      simp only [stackCost_cons, Frame.cost] at hset
      exact Or.inl (by omega)
    | error x => exact put _ h (by simp [Frame.cost])
  | catch_ rs => exact put _ h (by simp [Frame.cost])
  | handler rs x =>
    have hset := setMove_work (a := .tick built) hk ((Sets.handler (a := .tick built)).move h)
    simp only [stackCost_cons, Frame.cost] at hset
    exact Or.inl (by omega)
  | drain st cs =>
    cases cs with
    | nil => exact put _ h (by simp [Frame.cost])
    | cons p cs =>
      obtain ⟨i, kont⟩ := p
      cases h
      have hput := work_put (c := c.note [.invoked i])
        (.exec kont :: .invoking i :: .drain st cs :: k) hk
      simp only [work_note, stackCost_cons, Frame.cost, total_cons, storedCost] at hput
      exact Or.inl (by omega)
  | exec kont => exact exec_pays hk h
  | invoking i => exact put _ h (by simp [Frame.cost])
  | set_prm prm =>
    have hset := setMove_work (a := .tick built) hk ((Sets.set_prm (a := .tick built)).move h)
    simp only [stackCost_cons, Frame.cost] at hset
    exact Or.inl (by omega)
  | register n fs =>
    cases fs with
    | nil => exact put _ h (by simp [Frame.cost])
    | cons f fs =>
      cases f with
      | none =>
        apply put _ h
        simp only [stackCost_cons, Frame.cost, Cont.cost, List.length_cons]
        omega
      | some st =>
        have hadd := lockedAdd_work hk rfl rfl h
        simp only [stackCost_cons, Frame.cost, Cont.cost, List.length_cons] at hadd
        exact Or.inl (by omega)
  | when_all_then prm fs =>
    have hadd := lockedAdd_work (d := c.alloc {}) hk rfl (work_alloc c rfl) h
    simp only [stackCost_cons, Frame.cost, Cont.cost, Func.cost] at hadd
    exact Or.inl (by omega)
  | get_all rs fs vs =>
    cases fs with
    | nil => exact put _ h (by simp [Frame.cost])
    | cons f fs =>
      cases f with
      | none =>
        apply put _ h
        simp only [stackCost_cons, Frame.cost]
        omega
      | some st =>
        apply put _ h
        simp only [stackCost_cons, Frame.cost, List.length_cons]
        omega
  | set_got rs => cases h
  | unwrap_try rs s => exact put _ h (by simp [Frame.cost])
  | future_get st =>
    have hwait := lockedWait_work hk h
    simp only [stackCost_cons, Frame.cost] at hwait
    exact Or.inl (by omega)
  | waiting st g =>
    simp only [tick] at h
    split at h
    · cases h
    · split at h
      · apply put _ h
        have hwaited := waited_cost st g k
        simp only [stackCost_cons, Frame.cost]
        omega
      · cases h
  | reading st =>
    apply readState_pays h
    intro r _ hr
    apply put _ hr
    have hdeliver := deliver_cost r k
    simp only [stackCost_cons, Frame.cost]
    omega

/-- Each step without a new call pays. -/
theorem settling_pays {c c' : Config α ε} {e : Nat × Action α ε} (hs : Settling c e)
    (h : step c e = some c') : cost c' < cost c := by
  obtain ⟨t, a⟩ := e
  have hf := (step_moves h).1
  have hpays : Pays c c' := by
    unfold step at h
    rw [hf] at h
    simp only [Option.isSome_none, Bool.false_eq_true, if_false] at h
    split at h
    · rename_i b k hk
      cases a with
      | tick built => cases h
      | ret v =>
        cases b with
        | main => cases h
        | callback src rs func =>
          cases h
          exact pays_put hk (by simp [Frame.cost])
        | fn f =>
          cases h
          exact pays_put hk (by simp [Frame.cost])
      | throw_ x =>
        cases b with
        | main => cases h
        | callback src rs func =>
          cases h
          exact pays_put hk (by simp [Frame.cost])
        | fn f =>
          cases h
          have hthrow := throwTo_work x k hk
          simp only [stackCost_cons, Frame.cost] at hthrow
          exact Or.inl (by omega)
      | _ => exact absurd hs id
    · rename_i f k _ hk
      cases a with
      | tick built => exact tick_pays hk h
      | _ => cases h
    · cases h
  unfold cost
  rw [hf]
  rcases hpays with hlt | ⟨f, rfl⟩
  · simp only [Option.isNone_none, if_true]
    split <;> omega
  · have hw : work (c.fail f) = work c := rfl
    have hfail : (c.fail f).fault = some f := rfl
    simp [hw, hfail]

end ltl.futures
