-- The states that futures, continuations and calls name. As long as client
-- code names states that have been made, every name is of one of these.
import Mathlib.Data.List.ReduceOption
import Ltl.FutureLaws

open ltl.future_state runs

namespace ltl.futures

variable {α ε : Type}

/-! ## The names in each part -/

mutual

def Value.names : Value α → List StateId
  | .unit => []
  | .val _ => []
  | .future f => f.toList
  | .vec vs => valueNames vs

def valueNames : List (Value α) → List StateId
  | [] => []
  | v :: vs => v.names ++ valueNames vs

end

def resultNames : Except (Exception ε) (Value α) → List StateId
  | .ok v => v.names
  | .error _ => []

def Func.names : Func → List StateId
  | .get_all fs => fs.reduceOption
  | .unwrap s => [s]
  | _ => []

def Cont.names : Cont → List StateId
  | .invoke_and_set_value src rs func => src :: rs :: func.names
  | .call _ => []
  | .dec _ => []
  | .get_and_set_value s f => [s, f]
  | .signal st => [st]

def contNames (cs : List (Id × Cont)) : List StateId := cs.flatMap (fun p => p.2.names)

def Frame.names : Frame α ε → List StateId
  | .user (.callback src rs _) => [src, rs]
  | .user _ => []
  | .try_set rs r => rs :: resultNames r
  | .catch_ rs => [rs]
  | .handler rs _ => [rs]
  | .drain st cs => st :: contNames cs
  | .exec kont => kont.names
  | .invoking _ => []
  | .set_prm prm => [prm]
  | .register _ fs => fs.reduceOption
  | .when_all_then prm fs => prm :: fs.reduceOption
  | .get_all rs fs vs => rs :: (fs.reduceOption ++ valueNames vs)
  | .set_got rs => [rs]
  | .unwrap_try rs s => [rs, s]
  | .future_get st => [st]
  | .waiting st _ => [st]
  | .reading st => [st]

def stackNames (k : List (Frame α ε)) : List StateId := k.flatMap Frame.names

def stateNames (s : State α ε) : List StateId :=
  s.value_.elim [] Value.names ++ contNames s.continuations_

/-- The names that client code hands in with a call or a result. -/
def Action.names : Action α ε → List StateId
  | .set_value _ v _ _ => v.names
  | .then_ f _ => f.toList
  | .continue_with st _ => [st]
  | .wait f => f.toList
  | .get f => f.toList
  | .when_all_ready fs _ => fs.reduceOption
  | .when_all fs _ => fs.reduceOption
  | .unwrap f => f.toList
  | .ret v => v.names
  | _ => []

/-- All of these are of the first `n` states. -/
def Below (n : Nat) (l : List StateId) : Prop := ∀ st ∈ l, st < n

instance (n : Nat) (l : List StateId) : Decidable (Below n l) :=
  inferInstanceAs (Decidable (∀ st ∈ l, st < n))

/-- Client code names states that have been made. -/
def Named (c : Config α ε) (e : Nat × Action α ε) : Prop := Below c.states.length e.2.names

instance (c : Config α ε) (e : Nat × Action α ε) : Decidable (Named c e) :=
  inferInstanceAs (Decidable (Below c.states.length e.2.names))

/-- Every name in the configuration is of a state that has been made. -/
structure Closed (c : Config α ε) : Prop where
  states : ∀ s ∈ c.states, Below c.states.length (stateNames s)
  threads : ∀ k ∈ c.threads, Below c.states.length (stackNames k)
  counters : ∀ ctr ∈ c.counters, ctr.prm < c.states.length

@[simp] theorem below_nil (n : Nat) : Below n [] := by simp [Below]

@[simp] theorem below_cons (n : Nat) (st : StateId) (l : List StateId) :
    Below n (st :: l) ↔ st < n ∧ Below n l := by simp [Below]

@[simp] theorem below_append (n : Nat) (l l' : List StateId) :
    Below n (l ++ l') ↔ Below n l ∧ Below n l' := by
  simp [Below, or_imp, forall_and]

theorem Below.mono {n n' : Nat} {l : List StateId} (h : Below n l) (hn : n ≤ n') : Below n' l :=
  fun st hst => Nat.lt_of_lt_of_le (h st hst) hn

@[simp] theorem valueNames_append (vs vs' : List (Value α)) :
    valueNames (vs ++ vs') = valueNames vs ++ valueNames vs' := by
  induction vs with
  | nil => rfl
  | cons v vs ih => simp [valueNames, ih]

@[simp] theorem contNames_nil : contNames [] = [] := rfl

@[simp] theorem contNames_cons (p : Id × Cont) (cs : List (Id × Cont)) :
    contNames (p :: cs) = p.2.names ++ contNames cs := by simp [contNames]

@[simp] theorem contNames_append (cs cs' : List (Id × Cont)) :
    contNames (cs ++ cs') = contNames cs ++ contNames cs' := by simp [contNames]

@[simp] theorem stackNames_nil : stackNames ([] : List (Frame α ε)) = [] := rfl

@[simp] theorem stackNames_cons (f : Frame α ε) (k : List (Frame α ε)) :
    stackNames (f :: k) = f.names ++ stackNames k := by simp [stackNames]

@[simp] theorem length_note (c : Config α ε) (es : List (Entry ε)) :
    (c.note es).states.length = c.states.length := rfl

@[simp] theorem length_enroll (c : Config α ε) (st : StateId) :
    (c.enroll st).states.length = c.states.length := rfl

@[simp] theorem length_update (c : Config α ε) (st : StateId) (s : State α ε) :
    (c.update st s).states.length = c.states.length := by simp [Config.update]

@[simp] theorem length_alloc (c : Config α ε) (s : State α ε) :
    (c.alloc s).states.length = c.states.length + 1 := by simp [Config.alloc]

/-! ## The parts of a step -/

theorem Closed.stack {c : Config α ε} (h : Closed c) {t : Nat} {k : List (Frame α ε)}
    (hk : c.threads[t]? = some k) : Below c.states.length (stackNames k) :=
  h.threads k (List.mem_of_getElem? hk)

theorem Closed.state {c : Config α ε} (h : Closed c) {st : StateId} {s : State α ε}
    (hs : c.states[st]? = some s) : Below c.states.length (stateNames s) :=
  h.states s (List.mem_of_getElem? hs)

/-- What is read from a state names states that have been made. -/
theorem Closed.outcome {c : Config α ε} (h : Closed c) {st : StateId}
    {r : Except (Exception ε) (Value α)} (ho : outcome c st = some r) :
    Below c.states.length (resultNames r) := by
  obtain ⟨s, hs, hg⟩ := Option.bind_eq_some_iff.mp ho
  have hnames := h.state hs
  cases r with
  | error x => simp [resultNames]
  | ok v =>
    have hv : s.value_ = some v := by
      unfold future_state.get at hg
      split at hg
      · cases hg
      · obtain ⟨w, hw, he⟩ := Option.map_eq_some_iff.mp hg
        cases he
        exact hw
    rw [stateNames, hv] at hnames
    exact ((below_append _ _ _).mp hnames).1

theorem Closed.put {c : Config α ε} (h : Closed c) {t : Nat} {k : List (Frame α ε)}
    (hk : Below c.states.length (stackNames k)) : Closed (c.put t k) := by
  refine ⟨h.states, fun k' hk' => ?_, h.counters⟩
  rcases List.mem_or_eq_of_mem_set hk' with hk' | rfl
  · exact h.threads k' hk'
  · exact hk

theorem Closed.note {c : Config α ε} (h : Closed c) (es : List (Entry ε)) : Closed (c.note es) :=
  ⟨h.states, h.threads, h.counters⟩

theorem Closed.enroll {c : Config α ε} (h : Closed c) (st : StateId) : Closed (c.enroll st) :=
  ⟨h.states, h.threads, h.counters⟩

theorem Closed.alloc {c : Config α ε} (h : Closed c) {s : State α ε}
    (hs : Below c.states.length (stateNames s)) : Closed (c.alloc s) := by
  have hn : c.states.length ≤ (c.alloc s).states.length := by simp
  refine ⟨fun s' hs' => ?_, fun k hk => (h.threads k hk).mono hn,
    fun ctr hctr => Nat.lt_of_lt_of_le (h.counters ctr hctr) hn⟩
  rcases List.mem_append.mp hs' with hs' | hs'
  · exact (h.states s' hs').mono hn
  · rw [List.mem_singleton.mp hs']
    exact hs.mono hn

theorem Closed.update {c : Config α ε} (h : Closed c) (st : StateId) {s : State α ε}
    (hs : Below c.states.length (stateNames s)) : Closed (c.update st s) := by
  have hn : c.states.length ≤ (c.update st s).states.length := by simp
  refine ⟨fun s' hs' => ?_, fun k hk => (h.threads k hk).mono hn,
    fun ctr hctr => Nat.lt_of_lt_of_le (h.counters ctr hctr) hn⟩
  rcases List.mem_or_eq_of_mem_set hs' with hs' | rfl
  · exact (h.states s' hs').mono hn
  · exact hs.mono hn

theorem raise_names {n : Nat} (x : Exception ε) {k : List (Frame α ε)}
    (h : Below n (stackNames k)) : Below n (stackNames (raise x k).2) := by
  induction k with
  | nil => exact h
  | cons f k ih =>
    have hk := h
    rw [stackNames_cons, below_append] at hk
    cases f with
    | user b => exact h
    | catch_ rs => simpa [raise, Frame.names] using h
    | try_set rs r =>
      simp only [Frame.names, below_cons] at hk
      simp [raise, Frame.names, hk]
    | unwrap_try rs s =>
      simp only [Frame.names, below_cons] at hk
      simp [raise, Frame.names, resultNames, Value.names, hk]
    | _ => exact ih hk.2

theorem Closed.throwTo {c : Config α ε} (h : Closed c) {t : Nat} (x : Exception ε)
    {k : List (Frame α ε)} (hk : Below c.states.length (stackNames k)) :
    Closed (throwTo c t x k) := (h.note _).put (raise_names x hk)

theorem deliver_names {n : Nat} {r : Except (Exception ε) (Value α)} {k : List (Frame α ε)}
    (hr : Below n (resultNames r)) (hk : Below n (stackNames k)) :
    Below n (stackNames (deliver r k)) := by
  unfold deliver
  split
  · simp only [stackNames_cons, Frame.names, List.cons_append, below_cons, below_append] at hk
    split
    · simp_all [Frame.names, resultNames, valueNames]
    · simp_all [Frame.names, resultNames]
  · simp_all [Frame.names]
  · exact hk

theorem waited_names {n : Nat} {st : StateId} (g : Bool) {k : List (Frame α ε)} (hst : st < n)
    (hk : Below n (stackNames k)) : Below n (stackNames (waited st g k)) := by
  unfold waited
  split
  · simpa [Frame.names, hst] using hk
  · exact hk

theorem lockedAdd_closed {c c' : Config α ε} {t : Nat} {st : StateId} {kont : Cont}
    {k : List (Frame α ε)} (h : Closed c) (hkont : Below c.states.length kont.names)
    (hk : Below c.states.length (stackNames k)) (hl : lockedAdd c t st kont k = some c') :
    Closed c' := by
  obtain ⟨s, hs, ⟨-, rfl⟩ | ⟨-, rfl⟩⟩ := lockedAdd.spec hl
  · refine ((h.enroll st).note _).put ?_
    simpa [Frame.names] using ⟨hkont, hk⟩
  · have hnames := h.state hs
    refine ((h.enroll st).update st ?_).put (by simpa using hk)
    simp only [stateNames, below_append] at hnames
    simpa [stateNames, hnames] using hkont

theorem lockedWait_closed {c c' : Config α ε} {t : Nat} {st : StateId} {g : Bool}
    {k : List (Frame α ε)} (h : Closed c) (hk : Below c.states.length (stackNames k))
    (hl : lockedWait c t st g k = some c') : Closed c' := by
  obtain ⟨s, hs, hcases⟩ := lockedWait.spec hl
  have hst : st < c.states.length := (List.getElem?_eq_some_iff.mp hs).1
  have hwait : Below c.states.length (stackNames (.waiting st g :: k)) := by
    simpa [Frame.names, hst] using hk
  rcases hcases with ⟨-, rfl⟩ | ⟨-, -, rfl⟩ | ⟨-, -, rfl⟩
  · exact h.put (waited_names g hst hk)
  · have hnames := h.state hs
    refine ((h.enroll st).update st ?_).put (by simpa using hwait)
    simp only [stateNames, below_append] at hnames
    simp [stateNames, Cont.names, hnames, hst]
  · exact h.put hwait

/-- A setter stores what it is given, and its loop takes what the state held. -/
theorem settle_closed {c : Config α ε} {t : Nat} {st : StateId} {allow : Bool} {s u : State α ε}
    {k : List (Frame α ε)} (h : Closed c) (hs : c.states[st]? = some s)
    (hv : Below c.states.length (u.value_.elim [] Value.names))
    (hk : Below c.states.length (stackNames k)) : Closed (settle c t st allow s u k) := by
  have hst : st < c.states.length := (List.getElem?_eq_some_iff.mp hs).1
  have hnames := h.state hs
  simp only [stateNames, below_append] at hnames
  refine ((h.note _).update st ?_).put ?_
  · simpa [stateNames] using hv
  · simpa [Frame.names, hst, hnames] using hk

theorem set_value_impl_closed {c c' : Config α ε} {t : Nat} {st : StateId} {allow : Bool}
    {v : Except (Exception ε) (Value α)} {k : List (Frame α ε)} (h : Closed c)
    (hv : Below c.states.length (resultNames v)) (hk : Below c.states.length (stackNames k))
    (hl : lockedSet c t st allow (set_value_impl · v allow) k = some c') : Closed c' := by
  unfold lockedSet at hl
  split at hl
  · cases hl
  · rename_i s hs
    cases hf : set_value_impl s v allow with
    | mk r s' =>
      simp only [hf] at hl
      rcases set_value_impl.spec s s' v allow r hf with
        ⟨-, -, rfl⟩ | ⟨-, -, rfl⟩ | ⟨-, x, -, rfl⟩ | ⟨-, w, rfl, rfl, rfl⟩
      · cases hl
        exact (h.note _).throwTo _ hk
      · cases hl
        exact (h.note _).put hk
      · cases hl
        exact (h.note _).throwTo _ hk
      · cases hl
        exact settle_closed (u := { s with value_ := some w }) h hs hv hk

theorem set_exception_closed {c c' : Config α ε} {t : Nat} {st : StateId}
    {x : Option (Exception ε)} {k : List (Frame α ε)} (h : Closed c)
    (hk : Below c.states.length (stackNames k))
    (hl : lockedSet c t st true (set_exception · x) k = some c') : Closed c' := by
  unfold lockedSet at hl
  split at hl
  · cases hl
  · rename_i s hs
    cases hf : set_exception s x with
    | mk r s' =>
      simp only [hf] at hl
      rcases set_exception.spec s s' x r hf with ⟨-, rfl⟩ | ⟨-, rfl, rfl⟩
      · cases hl
        exact (h.note _).throwTo _ hk
      · cases hl
        have hnames := h.state hs
        simp only [stateNames, below_append] at hnames
        exact settle_closed (u := { s with exception_ := x }) h hs hnames.1 hk

theorem storedAs_names {n : Nat} {v : Value α} (built : Option (Exception ε))
    (h : Below n v.names) : Below n (resultNames (storedAs v built)) := by
  unfold storedAs
  split
  · simp [resultNames]
  · exact h

theorem execDec_closed {c c' : Config α ε} {t : Nat} {n : CounterId} {k : List (Frame α ε)}
    (h : Closed c) (hk : Below c.states.length (stackNames k))
    (hs : execDec c t n k = some c') : Closed c' := by
  unfold execDec at hs
  split at hs
  · cases hs
  · rename_i ctr hn
    have hprm := h.counters ctr (List.mem_of_getElem? hn)
    have hcount : Closed { c with
        counters := c.counters.set n { ctr with count := ctr.count - 1 } } := by
      refine ⟨h.states, h.threads, fun ctr' hctr' => ?_⟩
      rcases List.mem_or_eq_of_mem_set hctr' with hctr' | rfl
      · exact h.counters ctr' hctr'
      · exact hprm
    split at hs
    · cases hs
      exact hcount.put (by simpa [Frame.names] using ⟨hprm, hk⟩)
    · cases hs
      exact hcount.put hk

/-- Library code names what its stack named, or what it has read. -/
theorem Local.names {c : Config α ε} (h : Closed c) {k k' : List (Frame α ε)} (hl : Local c k k')
    (hlib : ∀ b k₀, k ≠ .user b :: k₀) (hk : Below c.states.length (stackNames k)) :
    Below c.states.length (stackNames k') := by
  cases hl with
  | stay => exact hk
  | ended r => exact absurd rfl (hlib _ _)
  | fn_ended => exact absurd rfl (hlib _ _)
  | get_called st => exact absurd rfl (hlib _ _)
  | woken s hs hb =>
    rw [stackNames_cons, below_append] at hk
    exact waited_names _ (List.getElem?_eq_some_iff.mp hs).1 hk.2
  | read ho =>
    rw [stackNames_cons, below_append] at hk
    exact deliver_names (h.outcome ho) hk.2
  | _ => simp_all [Frame.names, Cont.names, Func.names, resultNames, Value.names, valueNames]

theorem tick_closed {c c' : Config α ε} {t : Nat} {f : Frame α ε} {k : List (Frame α ε)}
    {built : Option (Exception ε)} (h : Closed c) (hk : c.threads[t]? = some (f :: k))
    (hs : tick c t f k built = some c') : Closed c' := by
  have hlib : ∀ b k₀, f :: k ≠ .user b :: k₀ := by
    intro b k₀ he
    cases he
    cases hs
  have hstack := h.stack hk
  cases tick_moves (a := .tick built) hs with
  | local_ hl => exact h.put (hl.names h hlib hstack)
  | made_ready => exact absurd rfl (hlib _ _)
  | when_all_ready => exact absurd rfl (hlib _ _)
  | add hadd hlock =>
    cases hadd with
    | unwrap_outer ho =>
      have hf := h.outcome ho
      simp only [resultNames, Value.names, Option.toList_some, below_cons] at hf
      simp only [stackNames_cons, Frame.names, Cont.names, Func.names, List.cons_append,
        below_cons, below_append] at hstack
      exact lockedAdd_closed h (by simp [Cont.names, hf, hstack])
        (by simp [Frame.names, hstack]) hlock
    | register =>
      refine lockedAdd_closed h (by simp [Cont.names]) ?_ hlock
      simp_all [Frame.names]
    | when_all =>
      have hstack := hstack.mono (Nat.le_succ _)
      simp only [stackNames_cons, Frame.names, List.cons_append, below_cons, below_append]
        at hstack
      exact lockedAdd_closed (h.alloc (s := {}) (by simp [stateNames]))
        (by simp [Cont.names, Func.names, hstack]) (by simp [hstack]) hlock
  | set hset hlock =>
    simp only [stackNames_cons, below_append] at hstack
    cases hset with
    | try_set built =>
      simp only [Frame.names, resultNames, below_cons] at hstack
      exact set_value_impl_closed h (storedAs_names built hstack.1.2)
        (by simp [Frame.names, hstack]) hlock
    | handler => exact set_exception_closed h hstack.2 hlock
    | set_prm => exact set_value_impl_closed h (by simp [resultNames, Value.names]) hstack.2 hlock
  | get hw => exact lockedWait_closed h (by simp_all [Frame.names]) hw
  | dec hd => exact execDec_closed h (by simpa [Frame.names, Cont.names] using hstack) hd
  | @signal _ st s k hst =>
    have hnames := h.state hst
    simp only [stackNames_cons, below_append] at hstack
    exact (h.update st (s := signal s) hnames).put (by simpa using hstack.2)
  | run =>
    refine (h.note _).put ?_
    simp only [stackNames_cons, Frame.names, contNames_cons, List.cons_append, below_cons,
      below_append] at hstack
    simp [Frame.names, hstack]
  | fault => exact ⟨h.states, h.threads, h.counters⟩

/-- A new call names what client code hands in. -/
theorem call_closed {c c' : Config α ε} {t : Nat} {b : Body} {k : List (Frame α ε)}
    {a : Action α ε} (h : Closed c) (hk : c.threads[t]? = some (.user b :: k))
    (hn : Named c (t, a)) (hs : call c t b k a = some c') : Closed c' := by
  have hstack := h.stack hk
  -- the stack beside a new state
  have hmore := hstack.mono (Nat.le_succ _)
  have fresh : ∀ q : Option Nat, Closed (c.alloc { await_queue_ := q }) :=
    fun q => h.alloc (by simp [stateNames])
  have made : Closed (c.alloc { value_ := some .unit }) :=
    h.alloc (by simp [stateNames, Value.names])
  have started : ∀ fs q k', Below c.states.length fs.reduceOption →
      Below (c.states.length + 1) (stackNames k') → Closed (startWhenAllReady c t fs q k') := by
    intro fs q k' hfs hk'
    have hcount : Closed { c.alloc { await_queue_ := q } with
        counters := c.counters ++ [⟨fs.length, c.states.length⟩] } := by
      refine ⟨(fresh q).states, (fresh q).threads, fun ctr hctr => ?_⟩
      rcases List.mem_append.mp hctr with hctr | hctr
      · exact (fresh q).counters ctr hctr
      · rw [List.mem_singleton.mp hctr]
        simp
    have hall := hfs.mono (Nat.le_succ _)
    exact hcount.put (by simp [Frame.names, hall, hk'])
  cases a with
  | tick built => cases hs
  | promise q =>
    cases hs
    exact ⟨(fresh q).states, (fresh q).threads, (fresh q).counters⟩
  | set_value p v built allow =>
    simp only [call] at hs
    split at hs
    · exact set_value_impl_closed h (storedAs_names built hn) hstack hs
    · cases hs
  | set_exception p x =>
    simp only [call] at hs
    split at hs
    · exact set_exception_closed h hstack hs
    · cases hs
  | then_ f func =>
    cases f with
    | none =>
      cases hs
      exact h
    | some st =>
      simp only [call] at hs
      split at hs
      · rename_i hfunc
        have hst : st < c.states.length := by simpa [Named, Action.names] using hn
        have hnames : func.names = [] := by
          cases func with
          | get_all fs => cases hfunc
          | unwrap s => cases hfunc
          | _ => rfl
        exact lockedAdd_closed (fresh none) (by simp [Cont.names, hnames, Nat.lt_succ_of_lt hst])
          (by simpa using hmore) hs
      · cases hs
  | continue_with st f => exact lockedAdd_closed h (by simp [Cont.names]) hstack hs
  | wait f =>
    cases f with
    | none =>
      cases hs
      exact h
    | some st => exact lockedWait_closed h hstack hs
  | get f =>
    cases f with
    | none =>
      cases hs
      exact h
    | some st =>
      cases hs
      simp only [Named, Action.names, Option.toList_some, below_cons] at hn
      exact h.put (by simp_all [Frame.names])
  | when_all_ready fs q =>
    cases fs with
    | nil =>
      cases hs
      exact made
    | cons f fs =>
      cases hs
      exact started _ q _ hn hmore
  | when_all fs q =>
    cases fs with
    | nil =>
      cases hs
      exact made.put (by simpa [Frame.names] using hmore)
    | cons f fs =>
      cases hs
      refine started _ q _ hn ?_
      have hall : Below (c.states.length + 1) (f :: fs).reduceOption := hn.mono (Nat.le_succ _)
      rw [stackNames_cons, below_append]
      exact ⟨by simpa [Frame.names] using hall, hmore⟩
  | unwrap f =>
    cases f with
    | none =>
      cases hs
      exact h
    | some st =>
      simp only [call] at hs
      split at hs
      · cases hs
      · rename_i o ho
        have hst : st < c.states.length := (List.getElem?_eq_some_iff.mp ho).1
        have htwo := ((fresh o.await_queue_).alloc (s := {}) (by simp [stateNames])).note
          [.unwrapped st c.states.length]
        have hst' := Nat.lt_succ_of_lt (Nat.lt_succ_of_lt hst)
        have hs' := Nat.lt_succ_of_lt (Nat.lt_succ_self c.states.length)
        refine lockedAdd_closed htwo ?_ (by simpa using hmore.mono (Nat.le_succ _)) hs
        simp [Cont.names, Func.names, hst', hs']
  | ret v =>
    cases b with
    | main => cases hs
    | callback src rs func =>
      cases hs
      simp only [stackNames_cons, Frame.names, List.cons_append, List.nil_append, below_cons]
        at hstack
      have hv : Below c.states.length v.names := hn
      exact h.put (by simp [Frame.names, resultNames, hstack, hv])
    | fn f =>
      cases hs
      exact h.put hstack
  | throw_ x =>
    cases b with
    | main => cases hs
    | callback src rs func =>
      cases hs
      simp only [stackNames_cons, Frame.names, List.cons_append, List.nil_append, below_cons]
        at hstack
      exact h.put (by simp [Frame.names, resultNames, hstack])
    | fn f =>
      cases hs
      exact h.throwTo x hstack

theorem step_closed {c c' : Config α ε} {e : Nat × Action α ε} (h : Closed c) (hn : Named c e)
    (hs : step c e = some c') : Closed c' := by
  obtain ⟨t, a⟩ := e
  unfold step at hs
  split at hs
  · cases hs
  · split at hs
    · exact call_closed h ‹_› hn hs
    · split at hs
      · exact tick_closed h ‹_› hs
      · cases hs
    · cases hs

theorem closed_init (n : Nat) : Closed (init α ε n) := by
  refine ⟨by simp [init], fun k hk => ?_, by simp [init]⟩
  rw [List.eq_of_mem_replicate hk]
  simp [Frame.names]

theorem reach_closed {ok : Config α ε → Nat × Action α ε → Prop} {n : Nat} {c : Config α ε}
    (hok : ∀ c e, ok c e → Named c e) (h : Reach step ok (init α ε n) c) : Closed c :=
  h.invariant (closed_init n) (fun c e _ hc hn hs => step_closed hc (hok c e hn) hs)

end ltl.futures
