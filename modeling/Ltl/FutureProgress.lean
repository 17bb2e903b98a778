-- Threads of futures that are left alone: as long as client code makes no new
-- call, the calls under way come to an end. Then each thread is back in its
-- main program, or it waits, and the waits lead to a state that no setter set.
import Ltl.FutureCost
import Ltl.Names
import Ltl.SetOrder
import Ltl.Waiters
import Ltl.WhenAllReady

open ltl.future_state counts runs

namespace ltl.futures

variable {α ε : Type}

/-! ## The shape of a stack -/

/-- The call goes on with what a `get` above it gives. -/
def Frame.takes : Frame α ε → Bool
  | .set_got _ => true
  | _ => false

def Frame.gives : Frame α ε → Bool
  | .future_get _ => true
  | .waiting _ g => g
  | .reading _ => true
  | _ => false

/-- Calls on top of a main program, where a `get` is above each call that takes its result. -/
inductive Shaped : List (Frame α ε) → Prop where
  | main : Shaped [.user .main]
  | call {f g : Frame α ε} {k : List (Frame α ε)} (hmain : f ≠ .user .main)
      (hgives : g.takes = true → f.gives = true) (hk : Shaped (g :: k)) : Shaped (f :: g :: k)

/-- The call on top can go on. -/
structure Open (k : List (Frame α ε)) : Prop where
  shaped : Shaped k
  top : ∀ f k', k = f :: k' → f.takes = false

theorem Shaped.tail {f : Frame α ε} {k : List (Frame α ε)} (h : Shaped (f :: k))
    (hmain : f ≠ .user .main) : Shaped k ∧ ∀ g k', k = g :: k' → g.takes = true → f.gives := by
  cases h with
  | main => exact absurd rfl hmain
  | call hmain hgives hk =>
    refine ⟨hk, ?_⟩
    rintro g k' he
    cases he
    exact hgives

/-- A call that gives nothing is left. -/
theorem Shaped.pop {f : Frame α ε} {k : List (Frame α ε)} (h : Shaped (f :: k))
    (hmain : f ≠ .user .main) (hgives : f.gives = false) : Open k := by
  obtain ⟨hk, htakes⟩ := h.tail hmain
  refine ⟨hk, fun g k' he => ?_⟩
  cases ht : g.takes with
  | false => rfl
  | true =>
    have hg := htakes g k' he ht
    rw [hgives] at hg
    cases hg

theorem Shaped.push {f : Frame α ε} {k : List (Frame α ε)} (h : Shaped k)
    (hmain : f ≠ .user .main) (htakes : f.takes = false)
    (hgives : ∀ g k', k = g :: k' → g.takes = true → f.gives = true) : Open (f :: k) := by
  refine ⟨?_, ?_⟩
  · cases k with
    | nil => cases h
    | cons g k => exact .call hmain (hgives g k rfl) h
  · rintro g k' he
    cases he
    exact htakes

theorem Open.push {f : Frame α ε} {k : List (Frame α ε)} (h : Open k)
    (hmain : f ≠ .user .main) (htakes : f.takes = false) :
    Open (f :: k) := by
  apply h.shaped.push hmain htakes
  intro g k' he ht
  rw [h.top g k' he] at ht
  cases ht

/-- A `get` on top of a call that takes its result. -/
theorem Open.push_get {f : Frame α ε} {k : List (Frame α ε)} (st : StateId)
    (h : Open k) (hmain : f ≠ .user .main) : Open (.future_get st :: f :: k) := by
  have hf : Shaped (f :: k) := by
    cases k with
    | nil => cases h.shaped
    | cons g k =>
      refine .call hmain (fun ht => ?_) h.shaped
      rw [h.top g k rfl] at ht
      cases ht
  exact hf.push (by simp) rfl (fun _ _ _ _ => rfl)

theorem deliver_open {r : Except (Exception ε) (Value α)} {k : List (Frame α ε)}
    (h : Shaped k) : Open (deliver r k) := by
  unfold deliver
  split
  · -- `get_all` goes on, or it ends with the exception
    have hk := h.pop (by simp) rfl
    split
    · exact hk.push (by simp) rfl
    · exact hk.push (by simp) rfl
  · exact (h.pop (by simp) rfl).push (by simp) rfl
  · rename_i hgot
    refine ⟨h, fun f k' he => ?_⟩
    cases f with
    | set_got rs => exact absurd he (hgot rs k')
    | _ => rfl

theorem raise_open {x : Exception ε} {k : List (Frame α ε)} (h : Shaped k) :
    Open (raise x k).2 := by
  induction k with
  | nil => cases h
  | cons f k ih =>
    cases f with
    | user b =>
      refine ⟨h, fun f k' he => ?_⟩
      simp only [raise, List.cons.injEq] at he
      rw [← he.1]
      rfl
    | catch_ rs => exact (h.pop (by simp) rfl).push (by simp) rfl
    | try_set rs r => exact (h.pop (by simp) rfl).push (by simp) rfl
    | unwrap_try rs s =>
      have htry := (h.pop (by simp) rfl).push (f := .try_set rs (.ok .unit)) (by simp) rfl
      exact htry.push (by simp) rfl
    | _ => exact ih (h.tail (by simp)).1

theorem waited_open {st : StateId} {g : Bool} {k : List (Frame α ε)} (h : Shaped k)
    (hplain : g = false → ∀ f k', k = f :: k' → f.takes = false) : Open (waited st g k) := by
  unfold waited
  split
  · exact h.push (by simp) rfl (fun _ _ _ _ => rfl)
  · rename_i hg
    exact ⟨h, hplain (by simpa using hg)⟩

theorem Local.open {c : Config α ε} {k k' : List (Frame α ε)} (h : Local c k k')
    (ho : Open k) : Open k' := by
  -- a call ends, and another one may take its place
  have pop : ∀ {f k₀}, k = f :: k₀ → f ≠ .user .main → f.gives = false → Open k₀ := by
    intro f k₀ hk hmain hgives
    subst hk
    exact ho.shaped.pop hmain hgives
  cases h with
  | stay => exact ho
  | ended r => exact (pop rfl (by simp) rfl).push (by simp) rfl
  | fn_ended => exact pop rfl (by simp) rfl
  | get_called st => exact ho.push (by simp) rfl
  | failed => exact (pop rfl (by simp) rfl).push (by simp) rfl
  | tried => exact pop rfl (by simp) rfl
  | drained => exact pop rfl (by simp) rfl
  | returned => exact pop rfl (by simp) rfl
  | called hf => exact (pop rfl (by simp) rfl).push (by simp) rfl
  | passed ho' => exact (pop rfl (by simp) rfl).push (by simp) rfl
  | ignored => exact (pop rfl (by simp) rfl).push (by simp) rfl
  | collecting => exact (pop rfl (by simp) rfl).push (by simp) rfl
  | fn_called => exact (pop rfl (by simp) rfl).push (by simp) rfl
  | inner => exact (pop rfl (by simp) rfl).push_get _ (by simp)
  | registered => exact pop rfl (by simp) rfl
  | @counted m fs k =>
    have hk := (pop rfl (by simp) rfl).push (f := .register m fs) (by simp) rfl
    exact hk.push (by simp) rfl
  | collected => exact (pop rfl (by simp) rfl).push (by simp) rfl
  | missing => exact (pop rfl (by simp) rfl).push (by simp) rfl
  | collect => exact (pop rfl (by simp) rfl).push_get _ (by simp)
  | unwrap_ended => exact (pop rfl (by simp) rfl).push (by simp) rfl
  | @woken st g k s hs hb =>
    obtain ⟨hk, htakes⟩ := ho.shaped.tail (by simp)
    apply waited_open hk
    intro hg f k' he
    cases ht : f.takes with
    | false => rfl
    | true =>
      have hgives := htakes f k' he ht
      simp [Frame.gives, hg] at hgives
  | read ho' => exact deliver_open (ho.shaped.tail (by simp)).1

theorem Adds.open {c c₁ : Config α ε} {a : Action α ε} {k k' : List (Frame α ε)}
    {st : StateId} {kont : Cont} (h : Adds c a k c₁ st kont k') (ho : Open k) : Open k' := by
  cases h with
  | then_ => exact ho
  | continue_with => exact ho
  | unwrap => exact ho
  | unwrap_outer => exact (ho.shaped.pop (by simp) rfl).push (by simp) rfl
  | register => exact (ho.shaped.pop (by simp) rfl).push (by simp) rfl
  | when_all => exact ho.shaped.pop (by simp) rfl

theorem Sets.open {c : Config α ε} {a : Action α ε} {k k' : List (Frame α ε)}
    {st : StateId} {allow : Bool} {f : Setter α ε} (h : Sets c a k st allow f k')
    (ho : Open k) : Open k' := by
  cases h with
  | set_value => exact ho
  | set_exception => exact ho
  | try_set => exact (ho.shaped.pop (by simp) rfl).push (by simp) rfl
  | handler => exact ho.shaped.pop (by simp) rfl
  | set_prm => exact ho.shaped.pop (by simp) rfl

theorem lockedWait_open {c c' : Config α ε} {t : Nat} {st : StateId} {g : Bool}
    {k : List (Frame α ε)} (h : lockedWait c t st g k = some c') (hk : Shaped k)
    (hplain : g = false → ∀ f k', k = f :: k' → f.takes = false) :
    ∃ k', c'.threads = c.threads.set t k' ∧ Open k' := by
  have hwait : Open (.waiting st g :: k) := by
    apply hk.push (f := .waiting st g) (by simp) rfl
    intro f k' he ht
    cases g with
    | true => rfl
    | false =>
      rw [hplain rfl f k' he] at ht
      cases ht
  obtain ⟨s, hs, ⟨-, rfl⟩ | ⟨-, -, rfl⟩ | ⟨-, -, rfl⟩⟩ := lockedWait.spec h
  · exact ⟨_, rfl, waited_open hk hplain⟩
  · exact ⟨_, rfl, hwait⟩
  · exact ⟨_, rfl, hwait⟩

/-- Every step leaves its thread a stack that can go on. -/
theorem moves_open {c c' : Config α ε} {t : Nat} {a : Action α ε} {k : List (Frame α ε)}
    (hk : c.threads[t]? = some k) (h : Moves c t a k c') (ho : Open k) :
    ∃ k', c'.threads = c.threads.set t k' ∧ Open k' := by
  have stay : c.threads.set t k = c.threads := congrArg Config.threads (put_self hk)
  -- a continuation is called at once
  have invoked : ∀ {k' : List (Frame α ε)} i kont, Open k' →
      Open (.exec kont :: .invoking i :: k') := by
    intro k' i kont hk'
    exact (hk'.push (f := .invoking i) (by simp) rfl).push (by simp) rfl
  cases h with
  | local_ h => exact ⟨_, rfl, h.open ho⟩
  | promise => exact ⟨_, stay.symm, ho⟩
  | made_ready hk' =>
    refine ⟨_, rfl, ?_⟩
    rcases hk' with rfl | rfl
    · exact ho
    · exact ho.push (by simp) rfl
  | when_all_ready hfs hk' =>
    refine ⟨_, rfl, ?_⟩
    rcases hk' with rfl | rfl
    · exact ho.push (by simp) rfl
    · exact (ho.push (f := .when_all_then _ _) (by simp) rfl).push (by simp) rfl
  | add hadd hlock =>
    have hk' := hadd.open ho
    have hthreads := (hadd.left 0).1
    obtain ⟨s, hs, ⟨-, rfl⟩ | ⟨-, rfl⟩⟩ := lockedAdd.spec hlock
    · exact ⟨_, by rw [← hthreads]; rfl, invoked _ _ hk'⟩
    · exact ⟨_, by rw [← hthreads]; rfl, hk'⟩
  | set hset hlock =>
    have hk' := hset.open ho
    cases hset.move hlock with
    | value => exact ⟨_, rfl, hk'.push (by simp) rfl⟩
    | exception => exact ⟨_, rfl, hk'.push (by simp) rfl⟩
    | ignored => exact ⟨_, rfl, hk'⟩
    | already => exact ⟨_, rfl, raise_open hk'.shaped⟩
    | built => exact ⟨_, rfl, raise_open hk'.shaped⟩
  | wait hw => exact lockedWait_open hw ho.shaped (fun _ => ho.top)
  | get hw => exact lockedWait_open hw (ho.shaped.tail (by simp)).1 (fun hg => by cases hg)
  | dec hd =>
    have hk' := ho.shaped.pop (by simp) rfl
    unfold execDec at hd
    split at hd
    · cases hd
    · split at hd
      · cases hd
        exact ⟨_, rfl, hk'.push (by simp) rfl⟩
      · cases hd
        exact ⟨_, rfl, hk'⟩
  | signal => exact ⟨_, rfl, ho.shaped.pop (by simp) rfl⟩
  | @run _ st i kont cs k =>
    have hk' := (ho.shaped.pop (by simp) rfl).push (f := .drain st cs) (by simp) rfl
    exact ⟨_, rfl, invoked i kont hk'⟩
  | throw_ => exact ⟨_, rfl, raise_open (ho.shaped.tail (by simp)).1⟩
  | fault => exact ⟨k, stay.symm, ho⟩

theorem step_open {c c' : Config α ε} {e : Nat × Action α ε} (h : ∀ k ∈ c.threads, Open k)
    (hs : step c e = some c') : ∀ k ∈ c'.threads, Open k := by
  obtain ⟨-, k, hk, hm⟩ := step_moves hs
  obtain ⟨k', ht, hk'⟩ := moves_open hk hm (h k (List.mem_of_getElem? hk))
  intro k₁ hk₁
  rw [ht] at hk₁
  rcases List.mem_or_eq_of_mem_set hk₁ with hk₁ | rfl
  · exact h k₁ hk₁
  · exact hk'

theorem reach_open {ok : Config α ε → Nat × Action α ε → Prop} {n : Nat} {c : Config α ε}
    (h : Reach step ok (init α ε n) c) : ∀ k ∈ c.threads, Open k := by
  refine h.invariant (P := fun c => ∀ k ∈ c.threads, Open k) ?_
    (fun _ _ _ hc _ hs => step_open hc hs)
  intro k hk
  rw [List.eq_of_mem_replicate hk]
  exact ⟨.main, by simp [Frame.takes]⟩

/-! ## What can go on -/

theorem lockedSet_enabled {c : Config α ε} {st : StateId} (t : Nat) (allow : Bool)
    (f : Setter α ε) (k : List (Frame α ε)) (h : st < c.states.length) :
    ∃ c', lockedSet c t st allow f k = some c' := by
  unfold lockedSet
  rw [List.getElem?_eq_getElem h]
  dsimp only
  split <;> exact ⟨_, rfl⟩

theorem lockedAdd_enabled {c : Config α ε} {st : StateId} (t : Nat) (kont : Cont)
    (k : List (Frame α ε)) (h : st < c.states.length) :
    ∃ c', lockedAdd c t st kont k = some c' := by
  unfold lockedAdd
  rw [List.getElem?_eq_getElem h]
  dsimp only
  split <;> exact ⟨_, rfl⟩

theorem lockedWait_enabled {c : Config α ε} {st : StateId} (t : Nat) (g : Bool)
    (k : List (Frame α ε)) (h : st < c.states.length) :
    ∃ c', lockedWait c t st g k = some c' := by
  unfold lockedWait
  rw [List.getElem?_eq_getElem h]
  dsimp only
  split <;> exact ⟨_, rfl⟩

theorem readState_enabled {c : Config α ε} {st : StateId}
    {g : Except (Exception ε) (Value α) → Option (Config α ε)} (h : st < c.states.length)
    (hg : ∀ r, outcome c st = some r → ∃ c', g r = some c') :
    ∃ c', readState c st g = some c' := by
  have hs := List.getElem?_eq_getElem h
  have ho := outcome_eq hs
  unfold readState
  rw [hs]
  dsimp only
  split
  · exact ⟨_, rfl⟩
  · exact hg _ (by rw [ho]; assumption)

theorem execFunc_enabled {c : Config α ε} {t : Nat} {src rs : StateId} {func : Func}
    {k : List (Frame α ε)} (hc : Closed c) (hsrc : src < c.states.length) :
    ∃ c', execFunc c t src rs func k = some c' := by
  cases func with
  | then_ f => exact ⟨_, rfl⟩
  | next_ f =>
    apply readState_enabled hsrc
    intro r _
    cases r with
    | ok v => exact ⟨_, rfl⟩
    | error x => exact ⟨_, rfl⟩
  | ignore => exact ⟨_, rfl⟩
  | get_all fs => exact ⟨_, rfl⟩
  | unwrap s =>
    apply readState_enabled hsrc
    intro r ho
    have hnames := hc.outcome ho
    cases r with
    | error x => exact ⟨_, rfl⟩
    | ok v =>
      cases v with
      | future f =>
        cases f with
        | none => exact ⟨_, rfl⟩
        | some f =>
          -- the inner future was stored, so it has been made
          simp only [resultNames, Value.names, Option.toList_some, below_cons] at hnames
          exact lockedAdd_enabled t _ _ hnames.1
      | unit => exact ⟨_, rfl⟩
      | val a => exact ⟨_, rfl⟩
      | vec vs => exact ⟨_, rfl⟩

/-- Library code can go on, unless it waits. -/
theorem tick_enabled {c : Config α ε} {t : Nat} {f : Frame α ε} {k : List (Frame α ε)}
    (hc : Closed c) (hctr : ∀ n, InStack c (.exec (.dec n)) → n < c.counters.length)
    (hk : c.threads[t]? = some (f :: k)) (htakes : f.takes = false) (hu : ∀ b, f ≠ .user b)
    (hw : ∀ st g, f ≠ .waiting st g) : ∃ c', tick c t f k none = some c' := by
  have hnames := hc.stack hk
  rw [stackNames_cons, below_append] at hnames
  have hf := hnames.1
  cases f with
  | user b => exact absurd rfl (hu b)
  | try_set rs r =>
    cases r with
    | ok v =>
      simp only [Frame.names, below_cons] at hf
      exact lockedSet_enabled t _ _ _ hf.1
    | error x => exact ⟨_, rfl⟩
  | catch_ rs => exact ⟨_, rfl⟩
  | handler rs x => exact lockedSet_enabled t _ _ _ (hf rs (by simp [Frame.names]))
  | drain st cs =>
    cases cs with
    | nil => exact ⟨_, rfl⟩
    | cons p cs => exact ⟨_, rfl⟩
  | exec kont =>
    cases kont with
    | invoke_and_set_value src rs func =>
      exact execFunc_enabled hc (hf src (by simp [Frame.names, Cont.names]))
    | call f => exact ⟨_, rfl⟩
    | dec n =>
      have hn := hctr n ⟨_, List.mem_of_getElem? hk, by simp⟩
      simp only [tick, exec, execDec]
      rw [List.getElem?_eq_getElem hn]
      dsimp only
      split <;> exact ⟨_, rfl⟩
    | get_and_set_value s f => exact ⟨_, rfl⟩
    | signal st =>
      have hst := hf st (by simp [Frame.names, Cont.names])
      simp only [tick, exec]
      rw [List.getElem?_eq_getElem hst]
      exact ⟨_, rfl⟩
  | invoking i => exact ⟨_, rfl⟩
  | set_prm prm => exact lockedSet_enabled t _ _ _ (hf prm (by simp [Frame.names]))
  | register n fs =>
    cases fs with
    | nil => exact ⟨_, rfl⟩
    | cons f fs =>
      cases f with
      | none => exact ⟨_, rfl⟩
      | some st => exact lockedAdd_enabled t _ _ (hf st (by simp [Frame.names]))
  | when_all_then prm fs =>
    have hprm := hf prm (by simp [Frame.names])
    exact lockedAdd_enabled (c := c.alloc {}) t _ _ (by simpa using Nat.lt_succ_of_lt hprm)
  | get_all rs fs vs =>
    cases fs with
    | nil => exact ⟨_, rfl⟩
    | cons f fs =>
      cases f with
      | none => exact ⟨_, rfl⟩
      | some st => exact ⟨_, rfl⟩
  | set_got rs => cases htakes
  | unwrap_try rs s => exact ⟨_, rfl⟩
  | future_get st => exact lockedWait_enabled t _ _ (hf st (by simp [Frame.names]))
  | waiting st g => exact absurd rfl (hw st g)
  | reading st =>
    exact readState_enabled (hf st (by simp [Frame.names])) (fun r _ => ⟨_, rfl⟩)

/-! ## Where threads come to rest -/

/-- What is asked of the client: the contract, and futures whose states have been made. -/
def Sound (c : Config α ε) (e : Nat × Action α ε) : Prop := Orderly c e ∧ Named c e

/-- A step of a client that makes no new call. -/
def LeftAlone (c : Config α ε) (e : Nat × Action α ε) : Prop := Settling c e ∧ Sound c e

/-- No call can go on. Each thread is back in its main program or waits, each wait leads through
setters that wait to a state that no setter has set, and setters do not wait in a circle. When no
thread waits, each continuation of a ready state was called. -/
structure Rested (c : Config α ε) : Prop where
  threads : ∀ k ∈ c.threads, k = [.user .main] ∨
    ∃ st g k', k = .waiting st g :: k' ∧ WaitsFor c st
  pending : ∀ st, WaitsFor c st →
    ∃ st', Relation.ReflTransGen (HeldBy c) st st' ∧ WaitsFor c st' ∧ ¬ Ready c st'
  no_circle : ∀ st, ¬ Relation.TransGen (HeldBy c) st st
  called : (∀ k ∈ c.threads, k = [.user .main]) →
    ∀ i st, c.sources[i]? = some st → Ready c st → invocations c i = 1

/-- A waiter whose state is ready goes on once no setter loops. -/
theorem waitsFor_of_stuck {n t : Nat} {c : Config α ε} {st : StateId} {g : Bool}
    {k : List (Frame α ε)} (h : Reach step Orderly (init α ε n) c) (hf : c.fault = none)
    (hk : c.threads[t]? = some (.waiting st g :: k)) (hend : step c (t, .tick none) = none) :
    WaitsFor c st := by
  refine ⟨g, k, List.mem_of_getElem? hk, fun hr => ?_⟩
  apply Classical.byContradiction
  intro hno
  obtain ⟨r, hrec⟩ := h.with_record (recordBlocks st) {}
  have hb := (reach_waitersOk hrec).signalled hr (fun cs hin => hno ⟨cs, hin⟩)
    ⟨_, g, hk, List.mem_cons_self⟩
  obtain ⟨s, hs, -⟩ := hr
  rw [block_eq hs] at hb
  simp [step, hf, hk, tick, hs, hb] at hend

theorem rest_of_stuck {n : Nat} {c : Config α ε} (h : Reach step Sound (init α ε n) c)
    (hf : c.fault = none) (hend : ∀ e, LeftAlone c e → step c e = none) : Rested c := by
  have ho : Reach step Orderly (init α ε n) c := h.mono (fun _ _ hok => hok.1)
  have hordered := reach_ordered ho
  have hclosed := reach_closed (fun _ _ hok => hok.2) h
  have hctr : ∀ m, InStack c (.exec (.dec m)) → m < c.counters.length := by
    intro m hin
    apply Nat.lt_of_not_le
    intro hle
    have hzero := reach_fresh ho m hle
    have htok := tokens_of_frame (g := only (.dec m)) hin
    simp only [decTokens] at hzero
    simp [hzero, Frame.tokens] at htok
  have hthreads : ∀ k ∈ c.threads, k = [.user .main] ∨
      ∃ st g k', k = .waiting st g :: k' ∧ WaitsFor c st := by
    intro k hmem
    obtain ⟨t, hk⟩ := List.mem_iff_getElem?.mp hmem
    have hopen := reach_open h k hmem
    have hret : step c (t, .ret .unit) = none :=
      hend _ ⟨trivial, plain_orderly c rfl, below_nil _⟩
    have htick : step c (t, .tick none) = none :=
      hend _ ⟨trivial, plain_orderly c rfl, below_nil _⟩
    cases k with
    | nil => cases hopen.shaped
    | cons f k =>
      by_cases hu : ∃ b, f = .user b
      · obtain ⟨b, rfl⟩ := hu
        cases b with
        | main =>
          cases hopen.shaped with
          | main => exact Or.inl rfl
          | call hmain => exact absurd rfl hmain
        | callback src rs func => simp [step, hf, hk, call] at hret
        | fn f => simp [step, hf, hk, call] at hret
      · by_cases hw : ∃ st g, f = .waiting st g
        · obtain ⟨st, g, rfl⟩ := hw
          exact Or.inr ⟨st, g, k, rfl, waitsFor_of_stuck ho hf hk htick⟩
        · have hu : ∀ b, f ≠ .user b := fun b hb => hu ⟨b, hb⟩
          obtain ⟨c', hc'⟩ := tick_enabled hclosed hctr hk (hopen.top f k rfl) hu
            (fun st g hfw => hw ⟨st, g, hfw⟩)
          rw [step_library hf hk hu, hc'] at htick
          cases htick
  have hsetOrder := reach_setOrder (fun _ _ hok => hok.1.1) h
  refine ⟨hthreads, fun st hw => ?_, no_circle_of_waits hsetOrder, fun hmain i st hi hr => ?_⟩
  · refine wait_leads_to_pending hsetOrder ?_ hw
    intro k hk st' cs hd
    rcases hthreads k hk with rfl | hwait
    · simp at hd
    · exact hwait
  · refine hordered.called hi hr ?_
    rintro cs ⟨k, hk, hd⟩
    rw [hmain k hk] at hd
    simp at hd

/-- From any state of a sound run, when the client makes no new call, every run ends within a bound
that the state gives, and where it can not go on the threads have come to rest. Some run ends
there, unless it reads a null or ill-typed future that client code put into another one. -/
theorem futures_left_alone_come_to_rest (n : Nat) (c : Config α ε)
    (h : Reach step Sound (init α ε n) c) :
    (∀ es c', runOk step Settling c es = some c' → es.length ≤ cost c) ∧
      (∀ c', Reach step LeftAlone c c' → c'.fault = none →
        (∀ e, LeftAlone c' e → step c' e = none) → Rested c') ∧
      ∃ c', Reach step LeftAlone c c' ∧
        (c'.fault = some .null_state ∨ c'.fault = some .ill_typed ∨ Rested c') := by
  have hsound : ∀ c', Reach step LeftAlone c c' → Reach step Sound (init α ε n) c' :=
    fun c' hr => h.trans (hr.mono (fun _ _ hok => hok.2))
  refine ⟨fun es c' hrun => ?_, fun c' hr hf hend => rest_of_stuck (hsound c' hr) hf hend, ?_⟩
  · have hle := length_le_of_decreases (I := fun _ => True)
      (fun _ _ _ _ hs he => ⟨trivial, settling_pays hs he⟩) es trivial hrun
    omega
  · have hstep : ∀ (s : Config α ε) e s', True → LeftAlone s e → step s e = some s' →
        True ∧ cost s' < cost s := fun _ _ _ _ hs he => ⟨trivial, settling_pays hs.1 he⟩
    obtain ⟨c', hr, hend⟩ := reach_end_of_decreases hstep c trivial
    refine ⟨c', hr, ?_⟩
    cases hf : c'.fault with
    | none => exact Or.inr (Or.inr (rest_of_stuck (hsound c' hr) hf hend))
    | some f =>
      have hgood := reach_good (fun _ _ hok => hok.1.1) (hsound c' hr)
      cases f with
      | absent_value => exact absurd hf hgood.fault
      | null_state => exact Or.inl rfl
      | ill_typed => exact Or.inr (Or.inl rfl)

/-- Thread 2 waits for promise 0, whose setter has called a function that gets promise 1. -/
def setterWaits : List (Nat × Action Unit Unit) :=
  [(0, .promise none), (0, .promise none), (1, .then_ (some 0) (.then_ 7)), (2, .wait (some 0)),
    (0, .set_value 0 .unit none true), (0, .tick none), (0, .tick none), (0, .get (some 1))]

/-- One more step, and all threads rest: promise 0 is set, its setter waits for promise 1, and
promise 1 is not set. -/
theorem futures_left_alone_come_to_rest_here :
    ∃ c c' : Config Unit Unit, Reach step Sound (init Unit Unit 3) c ∧
      (∀ es c', runOk step Settling c es = some c' → es.length ≤ 19) ∧
      step c (0, .tick none) = some c' ∧ Rested c' ∧ Ready c' 0 ∧ WaitsFor c' 0 ∧
      HeldBy c' 0 1 ∧ ¬ Ready c' 1 ∧ WaitsFor c' 1 := by
  have hrun : ∃ c c', runOk step (fun c e => e.2.plain = true ∧ Named c e) (init Unit Unit 3)
      setterWaits = some c ∧ cost c = 19 ∧ step c (0, .tick none) = some c' ∧ c'.fault = none ∧
      (∀ t built, step c' (t, .tick built) = none) ∧ (∀ t v, step c' (t, .ret v) = none) ∧
      (∀ t x, step c' (t, .throw_ x) = none) ∧ c'.states.map ready = [true, false, false] ∧
      c'.threads = [[.waiting 1 true, .user (.callback 0 2 (.then_ 7)), .invoking 0,
        .drain 0 [(1, .signal 0)], .user .main], [.user .main],
        [.waiting 0 false, .user .main]] := by
    refine ⟨_, _, rfl, rfl, rfl, rfl, ?_, ?_, ?_, rfl, rfl⟩
    · intro t built
      match t with
      | 0 | 1 | 2 | n + 3 => rfl
    · intro t v
      match t with
      | 0 | 1 | 2 | n + 3 => rfl
    · intro t x
      match t with
      | 0 | 1 | 2 | n + 3 => rfl
  obtain ⟨c, c', hrun, hcost, hs, hf, htick, hret, hthrow, hready, hthreads⟩ := hrun
  have hr : Reach step Sound (init Unit Unit 3) c :=
    (reach_of_runOk _ _ _ hrun).mono (fun c e hok => ⟨plain_orderly c hok.1, hok.2⟩)
  obtain ⟨hbound, hrest, -⟩ := futures_left_alone_come_to_rest 3 c hr
  have hnext : LeftAlone c (0, .tick none) := ⟨trivial, plain_orderly c rfl, below_nil _⟩
  have hend : ∀ e, LeftAlone c' e → step c' e = none := by
    rintro ⟨t, a⟩ ⟨hsettle, -⟩
    cases a with
    | tick built => exact htick t built
    | ret v => exact hret t v
    | throw_ x => exact hthrow t x
    | _ => exact absurd hsettle id
  have ready_iff : ∀ (st : Nat), Ready c' st ↔ (c'.states.map ready)[st]? = some true := by
    intro st
    simp [Ready, List.getElem?_map]
  refine ⟨c, c', hr, fun es c₁ hes => hcost ▸ hbound es c₁ hes, hs,
    hrest c' (Reach.start c |>.next hnext hs) hf hend, ?_, ?_, ?_, ?_, ?_⟩
  · rw [ready_iff, hready]
    rfl
  · exact ⟨false, [.user .main], by simp [hthreads], fun _ => ⟨[(1, .signal 0)], _,
      by rw [hthreads]; exact List.mem_cons_self, by simp⟩⟩
  · exact ⟨true, _, _, by rw [hthreads]; exact List.mem_cons_self,
      List.mem_cons_of_mem _ (List.mem_cons_of_mem _ List.mem_cons_self)⟩
  · rw [ready_iff, hready]
    simp
  · refine ⟨true, _, by rw [hthreads]; exact List.mem_cons_self, fun h1 => ?_⟩
    rw [ready_iff, hready] at h1
    cases h1

end ltl.futures
