-- The law of unwrap: what is carried to the state that `unwrap` returns is
-- the outcome of the inner future. An outer future that failed, or that holds
-- a null future, is where it goes wrong.
import Ltl.ExactlyOnce

open ltl.future_state runs counts

namespace ltl.futures

variable {α ε : Type}

/-! ## What the calls carry -/

/-- `rs` was not returned by a call of `unwrap`. -/
def NoJoin (c : Config α ε) (rs : StateId) : Prop :=
  rs < c.states.length ∧ ∀ o, .unwrapped o rs ∉ c.log

/-- The state `f` is the inner future for the state `s` that `unwrap` returned. -/
def InnerOf (c : Config α ε) (s f : StateId) : Prop :=
  ∃ o, .unwrapped o s ∈ c.log ∧ outcome c o = some (.ok (.future (some f)))

/-- `r` is the outcome of the inner future for `s`, or what copying its value threw. -/
def Joins (c : Config α ε) (s : StateId) (r : Except (Exception ε) (Value α)) : Prop :=
  ∃ f, InnerOf c s f ∧ (outcome c f = some r ∨
    (∃ x, r = .error x ∧ Ready c f ∧ .set s true (.built x) ∈ c.log))

def Cont.Carries (c : Config α ε) : Cont → Prop
  | .invoke_and_set_value src rs func =>
    NoJoin c rs ∧ ∀ s, func = .unwrap s → .unwrapped src s ∈ c.log
  | .get_and_set_value s f => InnerOf c s f
  | _ => True

def Frame.Carries (c : Config α ε) : Frame α ε → Prop
  | .user (.callback _ rs _) => NoJoin c rs
  | .try_set rs r => NoJoin c rs ∨ Joins c rs r
  | .handler rs x => NoJoin c rs ∨ Joins c rs (.error x)
  | .drain _ cs => ∀ p ∈ cs, p.2.Carries c
  | .exec kont => kont.Carries c
  | .set_prm prm => NoJoin c prm
  | .get_all rs _ _ => NoJoin c rs
  | .unwrap_try rs _ => NoJoin c rs
  | _ => True

/-- The state that a call reads for the call below it. -/
def Frame.gets : Frame α ε → Option StateId
  | .future_get st => some st
  | .waiting st true => some st
  | .reading st => some st
  | _ => none

/-- Above a `return f.get()` for `rs` stands the read of a state that is right for `rs`. -/
def Above (c : Config α ε) (f : Frame α ε) (k : List (Frame α ε)) : Prop :=
  ∀ rs, k.head? = some (.set_got rs) → ∃ st, f.gets = some st ∧ (NoJoin c rs ∨ InnerOf c rs st)

def StackCarries (c : Config α ε) : List (Frame α ε) → Prop
  | [] => True
  | f :: k => Above c f k ∧ f.Carries c ∧ StackCarries c k

/-- Every result on its way to a state that `unwrap` returned is the right one. -/
structure Carried (c : Config α ε) : Prop where
  states : ∀ s ∈ c.states, ∀ p ∈ s.continuations_, p.2.Carries c
  threads : ∀ k ∈ c.threads, StackCarries c k
  counters : ∀ ctr ∈ c.counters, NoJoin c ctr.prm
  promises : ∀ p ∈ c.promises, NoJoin c p

/-! ## What stays true -/

/-- `c'` comes after `c`. A state that `unwrap` returns is new. -/
structure Extends (c c' : Config α ε) : Prop where
  grows : Grows c c'
  log : ∀ e ∈ c.log, e ∈ c'.log
  fresh : ∀ o s, .unwrapped o s ∈ c'.log → .unwrapped o s ∈ c.log ∨ c.states.length ≤ s

variable {c c' : Config α ε}

theorem NoJoin.extends (h : Extends c c') {rs : StateId} (hr : NoJoin c rs) : NoJoin c' rs := by
  refine ⟨h.grows.lt hr.1, fun o hm => ?_⟩
  rcases h.fresh o rs hm with hm | hle
  · exact hr.2 o hm
  · exact absurd hr.1 (Nat.not_lt_of_le hle)

theorem InnerOf.extends (h : Extends c c') {s f : StateId} (hf : InnerOf c s f) :
    InnerOf c' s f := by
  obtain ⟨o, hm, ho⟩ := hf
  exact ⟨o, h.log _ hm, h.grows.outcome ho⟩

theorem Joins.extends (h : Extends c c') {s : StateId} {r : Except (Exception ε) (Value α)}
    (hj : Joins c s r) : Joins c' s r := by
  obtain ⟨f, hf, ho | ⟨x, rfl, hr, hm⟩⟩ := hj
  · exact ⟨f, hf.extends h, Or.inl (h.grows.outcome ho)⟩
  · exact ⟨f, hf.extends h, Or.inr ⟨x, rfl, h.grows.ready hr, h.log _ hm⟩⟩

theorem Cont.Carries.extends (h : Extends c c') {kont : Cont} (hk : kont.Carries c) :
    kont.Carries c' := by
  cases kont with
  | invoke_and_set_value src rs func =>
    exact ⟨hk.1.extends h, fun s hs => h.log _ (hk.2 s hs)⟩
  | get_and_set_value s f => exact InnerOf.extends h hk
  | _ => trivial

theorem Frame.Carries.extends (h : Extends c c') {f : Frame α ε} (hf : f.Carries c) :
    f.Carries c' := by
  cases f with
  | user b =>
    cases b with
    | callback src rs func => exact NoJoin.extends h hf
    | _ => trivial
  | try_set rs r => exact hf.imp (.extends h) (.extends h)
  | handler rs x => exact hf.imp (.extends h) (.extends h)
  | drain st cs => exact fun p hp => (hf p hp).extends h
  | exec kont => exact Cont.Carries.extends h hf
  | set_prm prm => exact NoJoin.extends h hf
  | get_all rs fs vs => exact NoJoin.extends h hf
  | unwrap_try rs s => exact NoJoin.extends h hf
  | _ => trivial

theorem Above.extends (h : Extends c c') {f : Frame α ε} {k : List (Frame α ε)}
    (ha : Above c f k) : Above c' f k := by
  intro rs hk
  obtain ⟨st, hst, hr⟩ := ha rs hk
  exact ⟨st, hst, hr.imp (.extends h) (.extends h)⟩

theorem StackCarries.extends (h : Extends c c') {k : List (Frame α ε)} (hk : StackCarries c k) :
    StackCarries c' k := by
  induction k with
  | nil => trivial
  | cons f k ih => exact ⟨hk.1.extends h, hk.2.1.extends h, ih hk.2.2⟩

/-- The rule for a step: what is new carries the right results. -/
theorem Carried.extends (hc : Carried c) (h : Extends c c')
    (hstates : ∀ s ∈ c'.states, ∀ p ∈ s.continuations_,
      (∃ s₀ ∈ c.states, p ∈ s₀.continuations_) ∨ p.2.Carries c')
    (hthreads : ∀ k ∈ c'.threads, k ∈ c.threads ∨ StackCarries c' k)
    (hcounters : ∀ ctr ∈ c'.counters, (∃ ctr₀ ∈ c.counters, ctr₀.prm = ctr.prm) ∨
      NoJoin c' ctr.prm)
    (hpromises : ∀ p ∈ c'.promises, p ∈ c.promises ∨ NoJoin c' p) : Carried c' := by
  refine ⟨fun s hs p hp => ?_, fun k hk => ?_, fun ctr hctr => ?_, fun p hp => ?_⟩
  · rcases hstates s hs p hp with ⟨s₀, hs₀, hp₀⟩ | hok
    · exact (hc.states s₀ hs₀ p hp₀).extends h
    · exact hok
  · exact (hthreads k hk).elim (fun hk => (hc.threads k hk).extends h) id
  · rcases hcounters ctr hctr with ⟨ctr₀, hctr₀, he⟩ | hok
    · exact he ▸ (hc.counters ctr₀ hctr₀).extends h
    · exact hok
  · exact (hpromises p hp).elim (fun hp => (hc.promises p hp).extends h) id

/-- A call that reads nothing stands above no `return f.get()`. -/
theorem Above.swap {f f' : Frame α ε} {k : List (Frame α ε)} (h : Above c f k)
    (hf : f.gets = none) : Above c f' k := by
  intro rs hk
  obtain ⟨st, hst, -⟩ := h rs hk
  rw [hf] at hst
  cases hst

theorem above_cons {f f' : Frame α ε} {k : List (Frame α ε)} (hf : ∀ rs, f' ≠ .set_got rs) :
    Above c f (f' :: k) := by
  intro rs hk
  simp only [List.head?_cons, Option.some.injEq] at hk
  exact absurd hk (hf rs)

theorem deliver_carries {st : StateId} {r : Except (Exception ε) (Value α)}
    {k : List (Frame α ε)} (ho : outcome c st = some r)
    (hk : StackCarries c (.reading st :: k)) : StackCarries c (deliver r k) := by
  obtain ⟨ha, -, hk⟩ := hk
  unfold deliver
  split
  · obtain ⟨ha', hf, hk⟩ := hk
    split
    · exact ⟨ha', hf, hk⟩
    · exact ⟨ha'.swap rfl, Or.inl hf, hk⟩
  · rename_i rs k
    obtain ⟨ha', -, hk⟩ := hk
    refine ⟨ha'.swap rfl, ?_, hk⟩
    obtain ⟨st', hst', hr⟩ := ha rs rfl
    cases hst'
    exact hr.imp id (fun hf => ⟨st, hf, Or.inl ho⟩)
  · exact hk

theorem waited_carries {st : StateId} {g : Bool} {k : List (Frame α ε)}
    (hk : StackCarries c (.waiting st g :: k)) : StackCarries c (waited st g k) := by
  obtain ⟨ha, -, hk⟩ := hk
  cases g with
  | false => exact hk
  | true => exact ⟨ha, trivial, hk⟩

theorem Local.carries {k k' : List (Frame α ε)} (h : Local c k k') (hk : StackCarries c k) :
    StackCarries c k' := by
  cases h with
  | stay => exact hk
  | ended r => exact ⟨hk.1.swap rfl, Or.inl hk.2.1, hk.2.2⟩
  | fn_ended => exact hk.2.2
  | get_called st => exact ⟨above_cons (by simp), trivial, hk⟩
  | failed => exact ⟨hk.1.swap rfl, hk.2.1, hk.2.2⟩
  | tried => exact hk.2.2
  | drained => exact hk.2.2
  | returned => exact hk.2.2
  | called hf => exact ⟨hk.1.swap rfl, hk.2.1.1, hk.2.2⟩
  | passed ho => exact ⟨hk.1.swap rfl, Or.inl hk.2.1.1, hk.2.2⟩
  | ignored => exact ⟨hk.1.swap rfl, Or.inl hk.2.1.1, hk.2.2⟩
  | collecting => exact ⟨hk.1.swap rfl, hk.2.1.1, hk.2.2⟩
  | fn_called => exact ⟨hk.1.swap rfl, trivial, hk.2.2⟩
  | inner =>
    rename_i s f k
    refine ⟨fun rs hrs => ?_, trivial, hk.1.swap rfl, trivial, hk.2.2⟩
    cases hrs
    exact ⟨f, rfl, Or.inr hk.2.1⟩
  | registered => exact hk.2.2
  | counted => exact ⟨above_cons (by simp), trivial, hk.1.swap rfl, trivial, hk.2.2⟩
  | collected => exact ⟨hk.1.swap rfl, Or.inl hk.2.1, hk.2.2⟩
  | missing => exact ⟨hk.1.swap rfl, Or.inl hk.2.1, hk.2.2⟩
  | collect => exact ⟨above_cons (by simp), trivial, hk.1.swap rfl, hk.2.1, hk.2.2⟩
  | unwrap_ended => exact ⟨hk.1.swap rfl, Or.inl hk.2.1, hk.2.2⟩
  | woken s hs hb => exact waited_carries hk
  | read ho => exact deliver_carries ho hk

/-! ## The unwraps of a step -/

/-- The calls of `unwrap` in a step: none, or one, which returns the first new state. -/
inductive Unwraps (c c' : Config α ε) : Prop where
  | none (h : ∀ o s, .unwrapped o s ∈ c'.log → .unwrapped o s ∈ c.log)
  | one (st) (h : ∀ o s, .unwrapped o s ∈ c'.log → .unwrapped o s ∈ c.log ∨
      (o = st ∧ s = c.states.length)) (hlt : c.states.length < c'.states.length)
      (ho : owners c' c.states.length = 1)

theorem log_extends (ht : Turns c c') : ∀ e ∈ c.log, e ∈ c'.log := by
  intro e he
  cases ht with
  | quiet es hlog => simp [hlog, he]
  | called es hlog => simp [hlog, he]
  | settled st allow s hs hlog => simp [hlog, he]
  | run st i kont cs hlog => simp [hlog, he]

theorem Adds.unwraps {a : Action α ε} {k k' : List (Frame α ε)} {st₀ : StateId} {kont : Cont}
    {c₁ : Config α ε} (ho : Owned c) (h : Adds c a k c₁ st₀ kont k') :
    (∀ o s, .unwrapped o s ∈ c₁.log → .unwrapped o s ∈ c.log) ∨
      ∃ st, (∀ o s, .unwrapped o s ∈ c₁.log → .unwrapped o s ∈ c.log ∨
        (o = st ∧ s = c.states.length)) ∧ c.states.length < c₁.states.length ∧
        owners c₁ c.states.length + kont.owns c.states.length +
          stackOwns c.states.length k' = 1 + stackOwns c.states.length k := by
  cases h with
  | unwrap hst =>
    rename_i o b k
    refine Or.inr ⟨st₀, fun o' s hm => ?_, by simp [Config.alloc, Config.note], ?_⟩
    · rcases List.mem_append.mp hm with hm | hm
      · exact Or.inl hm
      · simp only [List.mem_singleton, Entry.unwrapped.injEq] at hm
        exact Or.inr hm
    · have hne : c.states.length + 1 ≠ c.states.length := by omega
      rw [owners_note, owners_alloc _ _ rfl, owners_alloc _ _ rfl, ho.fresh (Nat.le_refl _)]
      simp only [Cont.owns, Func.owns, one_self, one_ne hne, Nat.zero_add]
  | _ => exact Or.inl (fun _ _ h => h)

theorem calm_unwraps {t : Nat} {k : List (Frame α ε)} (ho : Owned c)
    (hk : c.threads[t]? = some k) (h : Calm c t k c') : Unwraps c c' := by
  cases h with
  | stored h hs hr =>
    rename_i a c₁ st s kont k'
    rcases h.unwraps ho with hnone | ⟨o, hone, hlt, hown⟩
    · exact .none hnone
    · have hreg := registered_owns (u := s) kont k' c.states.length
        (by rw [(h.owns 0).1]; exact hk) hs rfl
      refine .one o hone ?_ (by omega)
      simpa [registered, Config.put, Config.update, Config.enroll] using hlt
  | run_now h hs hr =>
    rename_i a c₁ st s kont k'
    rcases h.unwraps ho with hnone | ⟨o, hone, hlt, hown⟩
    · refine .none (fun o s hm => hnone o s ?_)
      simpa [Config.put, Config.note, Config.enroll] using hm
    · refine .one o (fun o s hm => hone o s ?_) hlt ?_
      · simpa [Config.put, Config.note, Config.enroll] using hm
      · have hput := owners_put (c := (c₁.enroll st).note [.invoked c₁.sources.length])
          (.exec kont :: .invoking c₁.sources.length :: k') c.states.length
          (by rw [← (h.owns 0).1] at hk; exact hk)
        have henroll : owners (c₁.enroll st) c.states.length = owners c₁ c.states.length := rfl
        simp only [owners_note, stackOwns_cons, Frame.owns] at hput
        omega
  | fulfilled => exact .none (fun o s hm => by simpa [settle, Config.put, Config.note, Config.update] using hm)
  | refused hr =>
    exact .none (fun o s hm => by simpa [Config.put, Config.note] using hm)
  | set_value => exact .none (fun o s hm => by simpa [settle, Config.put, Config.note, Config.update] using hm)
  | built => exact .none (fun o s hm => by simpa [Config.put, Config.note] using hm)
  | set_exception => exact .none (fun o s hm => by simpa [settle, Config.put, Config.note, Config.update] using hm)
  | set_prm => exact .none (fun o s hm => by simpa [settle, Config.put, Config.note, Config.update] using hm)
  | run => exact .none (fun o s hm => by simpa [Config.put, Config.note] using hm)
  | _ => exact .none (fun _ _ h => h)

theorem calm_extends {t : Nat} {k : List (Frame α ε)} (hg : Grows c c') (ho : Owned c)
    (hk : c.threads[t]? = some k) (h : Calm c t k c') : Extends c c' := by
  refine ⟨hg, log_extends (calm_turns hk h), fun o s hm => ?_⟩
  cases calm_unwraps ho hk h with
  | none h => exact Or.inl (h o s hm)
  | one st h =>
    rcases h o s hm with hm | ⟨-, rfl⟩
    · exact Or.inl hm
    · exact Or.inr (Nat.le_refl _)

/-! ## The steps carry the right results -/

theorem Extends.of_log (hg : Grows c c') (es : List (Entry ε)) (hlog : c'.log = c.log ++ es)
    (hes : ∀ o s, .unwrapped o s ∉ es) : Extends c c' := by
  refine ⟨hg, fun e he => by simp [hlog, he], fun o s hm => ?_⟩
  rw [hlog] at hm
  exact Or.inl ((List.mem_append.mp hm).resolve_right (hes o s))

/-- The states that `unwrap` returned exist. -/
def Known (c : Config α ε) : Prop := ∀ o s, .unwrapped o s ∈ c.log → s < c.states.length

/-- A new state that no call of `unwrap` returned. -/
theorem Known.noJoin (hu : Known c) (hlog : c'.log = c.log)
    (hlt : c.states.length < c'.states.length) : NoJoin c' c.states.length :=
  ⟨hlt, fun o hm => Nat.lt_irrefl _ (hu o _ (hlog ▸ hm))⟩

/-- What a registration makes and registers carries the right results. -/
theorem Adds.carries {a : Action α ε} {k k' : List (Frame α ε)} {st₀ : StateId} {kont : Cont}
    {c₁ : Config α ε} (hu : Known c) (hk : StackCarries c k) (h : Adds c a k c₁ st₀ kont k') :
    Extends c c₁ ∧ kont.Carries c₁ ∧ StackCarries c₁ k' ∧
      (∀ f, f.gets = none → Above c₁ f k') ∧
      (∀ s ∈ c₁.states, s ∈ c.states ∨ s.continuations_ = []) ∧
      c₁.counters = c.counters ∧ c₁.promises = c.promises := by
  have hsame : Extends c c :=
    .of_log (.refl c) [] (List.append_nil _).symm (by simp)
  have hx : Extends c (c.alloc {}) :=
    .of_log (grows_alloc c _) [] (List.append_nil _).symm (by simp)
  have hnew : NoJoin (c.alloc {}) c.states.length := hu.noJoin rfl (by simp [Config.alloc])
  have hmade : ∀ s ∈ (c.alloc {}).states, s ∈ c.states ∨ s.continuations_ = [] := by
    intro s hs
    rcases List.mem_append.mp hs with hs | hs
    · exact Or.inl hs
    · rw [List.mem_singleton] at hs
      exact Or.inr (by rw [hs])
  cases h with
  | then_ hf =>
    rename_i func b k
    refine ⟨hx, ⟨hnew, fun s hs => ?_⟩, hk.extends hx, fun f _ => above_cons (by simp), hmade,
      rfl, rfl⟩
    subst hs
    cases hf
  | continue_with =>
    exact ⟨hsame, trivial, hk, fun f _ => above_cons (by simp), fun s hs => Or.inl hs, rfl, rfl⟩
  | unwrap ho =>
    rename_i o b k
    generalize hc₁ : ((c.alloc { await_queue_ := o.await_queue_ }).alloc {}).note
      [.unwrapped st₀ c.states.length] = c₁
    have hlen : c₁.states.length = c.states.length + 2 := by
      subst hc₁
      simp [Config.alloc, Config.note]
    have hlog : c₁.log = c.log ++ [.unwrapped st₀ c.states.length] := by
      subst hc₁
      rfl
    have hx₁ : Extends c c₁ := by
      refine ⟨?_, fun e he => by simp [hlog, he], fun o s hm => ?_⟩
      · subst hc₁
        exact ((grows_alloc c _).trans (grows_alloc _ _)).trans (Grows.of_eq rfl rfl)
      · rw [hlog] at hm
        rcases List.mem_append.mp hm with hm | hm
        · exact Or.inl hm
        · simp only [List.mem_singleton, Entry.unwrapped.injEq] at hm
          exact Or.inr (Nat.le_of_eq hm.2.symm)
    refine ⟨hx₁, ⟨⟨by rw [hlen]; exact Nat.lt_succ_self _, fun o hm => ?_⟩, fun s hs => ?_⟩, hk.extends hx₁,
      fun f _ => above_cons (by simp), fun s hs => ?_, by subst hc₁; rfl, by subst hc₁; rfl⟩
    · rw [hlog] at hm
      rcases List.mem_append.mp hm with hm | hm
      · exact absurd (hu o _ hm) (Nat.not_lt_of_le (Nat.le_succ _))
      · simp only [List.mem_singleton, Entry.unwrapped.injEq] at hm
        exact absurd hm.2 (Nat.succ_ne_self _)
    · cases hs
      simp [hlog]
    · subst hc₁
      simp only [Config.alloc, Config.note, List.mem_append, List.mem_singleton] at hs
      rcases hs with (hs | rfl) | rfl
      · exact Or.inl hs
      · exact Or.inr rfl
      · exact Or.inr rfl
  | unwrap_outer ho =>
    rename_i src rs s k
    exact ⟨hsame, ⟨src, hk.2.1.2 s rfl, ho⟩, ⟨hk.1.swap rfl, hk.2.1.1, hk.2.2⟩,
      fun f _ => above_cons (by simp), fun s hs => Or.inl hs, rfl, rfl⟩
  | register =>
    exact ⟨hsame, trivial, ⟨hk.1.swap rfl, trivial, hk.2.2⟩, fun f _ => above_cons (by simp),
      fun s hs => Or.inl hs, rfl, rfl⟩
  | when_all =>
    exact ⟨hx, ⟨hnew, fun s hs => by cases hs⟩, hk.2.2.extends hx,
      fun f _ => (hk.1.swap rfl).extends hx, hmade, rfl, rfl⟩

/-- The rule for a step that changes one stack, and neither the counters nor the promises. -/
theorem Carried.put (hc : Carried c) (hx : Extends c c') {t : Nat} {k' : List (Frame α ε)}
    (hs : ∀ s ∈ c'.states, ∀ p ∈ s.continuations_,
      (∃ s₀ ∈ c.states, p ∈ s₀.continuations_) ∨ p.2.Carries c')
    (ht : c'.threads = c.threads.set t k') (hk' : StackCarries c' k')
    (hctr : c'.counters = c.counters) (hp : c'.promises = c.promises) : Carried c' := by
  refine hc.extends hx hs (fun k hk => ?_) (fun ctr hm => ?_) (fun p hm => ?_)
  · rw [ht] at hk
    rcases List.mem_or_eq_of_mem_set hk with hk | rfl
    · exact Or.inl hk
    · exact Or.inr hk'
  · exact Or.inl ⟨ctr, hctr ▸ hm, rfl⟩
  · exact Or.inl (hp ▸ hm)

theorem settle_carried {t : Nat} {st : StateId} {allow : Bool} {s s' : State α ε}
    {k' : List (Frame α ε)} (hc : Carried c) (hx : Extends c (settle c t st allow s s' k'))
    (hs : c.states[st]? = some s) (hk' : StackCarries c k')
    (ha : ∀ f, f.gets = none → Above c f k') : Carried (settle c t st allow s s' k') := by
  refine hc.put hx (fun s₁ hs₁ p hp => ?_) rfl
    ⟨(ha _ rfl).extends hx, fun p hp => ?_, hk'.extends hx⟩ rfl rfl
  · rcases List.mem_or_eq_of_mem_set hs₁ with hs₁ | rfl
    · exact Or.inl ⟨s₁, hs₁, hp⟩
    · simp at hp
  · exact (hc.states s (List.mem_of_getElem? hs) p hp).extends hx

theorem registered_carried {c₁ : Config α ε} {t : Nat} {st : StateId} {s u : State α ε}
    {kont : Cont} {k' : List (Frame α ε)} (hc : Carried c)
    (hx : Extends c (registered c₁ t st u kont k')) (hs : c₁.states[st]? = some s)
    (hu : u.continuations_ = s.continuations_)
    (hold : ∀ s ∈ c₁.states, s ∈ c.states ∨ s.continuations_ = [])
    (ht : c₁.threads = c.threads) (hctr : c₁.counters = c.counters)
    (hp : c₁.promises = c.promises) (hkont : kont.Carries (registered c₁ t st u kont k'))
    (hk' : StackCarries (registered c₁ t st u kont k') k') :
    Carried (registered c₁ t st u kont k') := by
  have found : ∀ s ∈ c₁.states, ∀ p ∈ s.continuations_, ∃ s₀ ∈ c.states, p ∈ s₀.continuations_ := by
    intro s hs p hp
    rcases hold s hs with hs | he
    · exact ⟨s, hs, hp⟩
    · rw [he] at hp
      cases hp
  refine hc.put hx (fun s₁ hs₁ p hp => ?_) (by rw [← ht]; rfl) hk' hctr hp
  rcases List.mem_or_eq_of_mem_set hs₁ with hs₁ | rfl
  · exact Or.inl (found s₁ hs₁ p hp)
  · rcases List.mem_append.mp hp with hp | hp
    · rw [hu] at hp
      exact Or.inl (found s (List.mem_of_getElem? hs) p hp)
    · rw [List.mem_singleton] at hp
      exact Or.inr (hp ▸ hkont)

theorem Waits.carries {k k' : List (Frame α ε)} {st : StateId} {g : Bool} (h : Waits k st g k')
    (hk : StackCarries c k) : StackCarries c (.waiting st g :: k') := by
  cases h with
  | wait => exact ⟨above_cons (by simp), trivial, hk⟩
  | get => exact ⟨hk.1, trivial, hk.2.2⟩

theorem calm_carried {t : Nat} {k : List (Frame α ε)} (hc : Carried c) (hu : Known c)
    (hx : Extends c c') (hk : c.threads[t]? = some k) (h : Calm c t k c') : Carried c' := by
  have hkc : StackCarries c k := hc.threads k (List.mem_of_getElem? hk)
  have same : ∀ s ∈ c.states, ∀ p ∈ s.continuations_,
      (∃ s₀ ∈ c.states, p ∈ s₀.continuations_) ∨ p.2.Carries c' :=
    fun s hs p hp => Or.inl ⟨s, hs, hp⟩
  have made : ∀ (s₁ : State α ε), s₁.continuations_ = [] → ∀ s ∈ (c.alloc s₁).states,
      ∀ p ∈ s.continuations_, (∃ s₀ ∈ c.states, p ∈ s₀.continuations_) ∨ p.2.Carries c' := by
    intro s₁ h₁ s hs p hp
    rcases List.mem_append.mp hs with hs | hs
    · exact Or.inl ⟨s, hs, hp⟩
    · rw [List.mem_singleton] at hs
      subst hs
      rw [h₁] at hp
      cases hp
  cases h with
  | local_ hl => exact hc.put hx same rfl ((hl.carries hkc).extends hx) rfl rfl
  | promise =>
    refine hc.extends hx (made _ rfl) (fun k hk => Or.inl hk) (fun ctr hm => Or.inl ⟨ctr, hm, rfl⟩)
      (fun p hm => ?_)
    rcases List.mem_append.mp hm with hm | hm
    · exact Or.inl hm
    · rw [List.mem_singleton] at hm
      subst hm
      exact Or.inr (hu.noJoin rfl (by simp [Config.alloc]))
  | made_ready hk' =>
    refine hc.put hx (made _ rfl) rfl (StackCarries.extends hx ?_) rfl rfl
    rcases hk' with rfl | rfl
    · exact hkc
    · exact ⟨above_cons (by simp), trivial, hkc⟩
  | when_all_ready hfs hk' =>
    rename_i b fs q k k'
    have hk'' : StackCarries c (.register c.counters.length fs :: k') := by
      rcases hk' with rfl | rfl
      · exact ⟨above_cons (by simp), trivial, hkc⟩
      · exact ⟨above_cons (by simp), trivial, above_cons (by simp), trivial, hkc⟩
    refine hc.extends hx (made _ rfl) (fun k₁ hk₁ => ?_) (fun ctr hm => ?_) (fun p hm => Or.inl hm)
    · rcases List.mem_or_eq_of_mem_set hk₁ with hk₁ | rfl
      · exact Or.inl hk₁
      · exact Or.inr (hk''.extends hx)
    · rcases List.mem_append.mp hm with hm | hm
      · exact Or.inl ⟨ctr, hm, rfl⟩
      · rw [List.mem_singleton] at hm
        subst hm
        exact Or.inr (hu.noJoin rfl (by simp [startWhenAllReady, Config.put, Config.alloc]))
  | stored h hs hr =>
    rename_i a c₁ st s kont k'
    obtain ⟨hx₁, hkont, hk', -, hold, hctr, hp⟩ := h.carries hu hkc
    have hx₂ : Extends c₁ (registered c₁ t st s kont k') :=
      .of_log (((grows_enroll c₁ st).trans (grows_update (c := c₁.enroll st) hs
        (pending_elim hr))).trans (Grows.of_eq rfl rfl)) [] (List.append_nil _).symm (by simp)
    exact registered_carried hc hx hs rfl hold (h.owns 0).1 hctr hp (hkont.extends hx₂)
      (hk'.extends hx₂)
  | run_now h hs hr =>
    rename_i a c₁ st s kont k'
    obtain ⟨hx₁, hkont, hk', ha, hold, hctr, hp⟩ := h.carries hu hkc
    have hx₂ : Extends c₁ (((c₁.enroll st).note [.invoked c₁.sources.length]).put t
        (.exec kont :: .invoking c₁.sources.length :: k')) :=
      .of_log ((grows_enroll c₁ st).trans (Grows.of_eq rfl rfl)) [_] rfl (by simp)
    have hstk : StackCarries (((c₁.enroll st).note [.invoked c₁.sources.length]).put t
        (.exec kont :: .invoking c₁.sources.length :: k'))
        (.exec kont :: .invoking c₁.sources.length :: k') :=
      ⟨above_cons (by simp), hkont.extends hx₂, (ha _ rfl).extends hx₂, trivial, hk'.extends hx₂⟩
    refine hc.put hx (fun s hs p hp => ?_) (by rw [← (h.owns 0).1]; rfl) hstk hctr hp
    rcases hold s hs with hs | he
    · exact Or.inl ⟨s, hs, hp⟩
    · rw [he] at hp
      cases hp
  | fulfilled hp hs hr hs' => exact settle_carried hc hx hs hkc (fun f _ => above_cons (by simp))
  | refused => exact hc.put hx same rfl (hkc.extends hx) rfl rfl
  | set_value hs hr =>
    exact settle_carried hc hx hs ⟨hkc.1.swap rfl, trivial, hkc.2.2⟩
      (fun f _ => above_cons (by simp))
  | built =>
    rename_i rs v x k
    refine hc.put hx same rfl ⟨(hkc.1.swap rfl).extends hx, ?_, hkc.2.2.extends hx⟩ rfl rfl
    rcases hkc.2.1 with hno | ⟨f, hf, ho | ⟨y, hy, -⟩⟩
    · exact Or.inl (hno.extends hx)
    · have hr : Ready c f := ready_iff_outcome.mpr ⟨_, ho⟩
      refine Or.inr ⟨f, hf.extends hx, Or.inr ⟨x, rfl, hx.grows.ready hr, ?_⟩⟩
      simp [Config.put, Config.note]
    · cases hy
  | set_exception hs hr =>
    exact settle_carried hc hx hs hkc.2.2 (fun f _ => hkc.1.swap rfl)
  | set_prm hs hr =>
    exact settle_carried hc hx hs hkc.2.2 (fun f _ => hkc.1.swap rfl)
  | waited h hs hr =>
    exact hc.put hx same rfl (waited_carries ((h.carries hkc).extends hx)) rfl rfl
  | first_wait h hs hr hb =>
    exact registered_carried hc hx hs rfl (fun s hs => Or.inl hs) rfl rfl rfl trivial
      ((h.carries hkc).extends hx)
  | wait h => exact hc.put hx same rfl ((h.carries hkc).extends hx) rfl rfl
  | dec hn hk' =>
    rename_i n ctr k k'
    have hprm := hc.counters ctr (List.mem_of_getElem? hn)
    have hk'' : StackCarries c k' := by
      rcases hk' with ⟨-, rfl⟩ | ⟨-, rfl⟩
      · exact ⟨hkc.1.swap rfl, hprm, hkc.2.2⟩
      · exact hkc.2.2
    refine hc.extends hx same (fun k₁ hk₁ => ?_) (fun ctr' hm => ?_) (fun p hm => Or.inl hm)
    · rcases List.mem_or_eq_of_mem_set hk₁ with hk₁ | rfl
      · exact Or.inl hk₁
      · exact Or.inr (hk''.extends hx)
    · rcases List.mem_or_eq_of_mem_set hm with hm | rfl
      · exact Or.inl ⟨ctr', hm, rfl⟩
      · exact Or.inl ⟨ctr, List.mem_of_getElem? hn, rfl⟩
  | signal hs =>
    rename_i st s k
    refine hc.put hx (fun s₁ hs₁ p hp => ?_) rfl (hkc.2.2.extends hx) rfl rfl
    rcases List.mem_or_eq_of_mem_set hs₁ with hs₁ | rfl
    · exact Or.inl ⟨s₁, hs₁, hp⟩
    · exact Or.inl ⟨s, List.mem_of_getElem? hs, hp⟩
  | run =>
    rename_i st i kont cs k
    have hall := hkc.2.1
    refine hc.put hx same rfl (StackCarries.extends hx ?_) rfl rfl
    exact ⟨above_cons (by simp), hall (i, kont) (by simp), above_cons (by simp), trivial,
      hkc.1.swap rfl, fun p hp => hall p (by simp [hp]), hkc.2.2⟩
  | fault =>
    exact hc.extends hx same (fun k hk => Or.inl hk) (fun ctr hm => Or.inl ⟨ctr, hm, rfl⟩)
      (fun p hm => Or.inl hm)

/-! ## How a state gets its outcome -/

theorem outcome_of_states {d : Config α ε} {s : StateId} (h : d.states[s]? = c.states[s]?) :
    outcome d s = outcome c s := by
  unfold outcome
  rw [h]

theorem outcome_alloc (c : Config α ε) (s₁ : State α ε) {s : StateId}
    (hlt : s < c.states.length) : outcome (c.alloc s₁) s = outcome c s :=
  outcome_of_states (by simp only [Config.alloc]; rw [List.getElem?_append_left hlt])

theorem outcome_update {i s : StateId} {s₀ u : State α ε} (hs : c.states[i]? = some s₀)
    (hu : get u = get s₀) : outcome (c.update i u) s = outcome c s := by
  by_cases hi : i = s
  · subst hi
    rw [outcome_eq (update_self u hs), outcome_eq hs, hu]
  · exact outcome_of_states (update_ne u hi)

theorem outcome_registered {t : Nat} {i s : StateId} {s₀ u : State α ε} {kont : Cont}
    {k : List (Frame α ε)} (hs : c.states[i]? = some s₀) (hu : get u = get s₀) :
    outcome (registered c t i u kont k) s = outcome c s :=
  outcome_update (c := c.enroll i)
    (u := { u with continuations_ := u.continuations_ ++ [(c.sources.length, kont)] }) hs
    ((get_congr rfl rfl).trans hu)

theorem Adds.outcome {a : Action α ε} {k k' : List (Frame α ε)} {st₀ : StateId} {kont : Cont}
    {c₁ : Config α ε} (h : Adds c a k c₁ st₀ kont k') {s : StateId}
    (hlt : s < c.states.length) : futures.outcome c₁ s = futures.outcome c s := by
  cases h with
  | then_ => exact outcome_alloc c _ hlt
  | unwrap ho =>
    rename_i o b k
    have hlt' := (grows_alloc c { await_queue_ := o.await_queue_ }).lt hlt
    exact (outcome_alloc (c.alloc { await_queue_ := o.await_queue_ }) {} hlt').trans
      (outcome_alloc c _ hlt)
  | when_all => exact outcome_alloc c _ hlt
  | _ => rfl

theorem pending_absent {s : State α ε} (hr : ready s = false) :
    s.value_ = none ∧ s.exception_ = none := by
  simpa [ready] using hr

theorem outcome_settle {t : Nat} {i s : StateId} {allow : Bool} {s₀ s' : State α ε}
    {k : List (Frame α ε)} (hi : i ≠ s) :
    outcome (settle c t i allow s₀ s' k) s = outcome c s :=
  outcome_of_states (update_ne (c := c) { s' with continuations_ := [] } hi)

theorem outcome_settle_self {t : Nat} {s : StateId} {allow : Bool} {s₀ u : State α ε}
    {k : List (Frame α ε)} (hs : c.states[s]? = some s₀) :
    outcome (settle c t s allow s₀ u k) s = get u :=
  (outcome_eq (c := settle c t s allow s₀ u k)
    (update_self (c := c) { u with continuations_ := [] } hs)).trans (get_congr rfl rfl)

/-- A state gets its outcome from the client, from `when_all_ready`, or from the call that
carries it. -/
theorem calm_outcome {t : Nat} {k : List (Frame α ε)} (h : Calm c t k c') {s : StateId}
    (hlt : s < c.states.length) : outcome c' s = outcome c s ∨ s ∈ c.promises ∨
      ∃ f k', k = f :: k' ∧ (f = .set_prm s ∨
        (∃ v, f = .try_set s (.ok v) ∧ outcome c' s = some (.ok v)) ∨
        ∃ x, f = .handler s x ∧ outcome c' s = some (.error x)) := by
  cases h with
  | promise => exact Or.inl (outcome_alloc c _ hlt)
  | made_ready => exact Or.inl (outcome_alloc c _ hlt)
  | when_all_ready => exact Or.inl (outcome_alloc c _ hlt)
  | stored h hs hr => exact Or.inl ((outcome_registered hs rfl).trans (h.outcome hlt))
  | run_now h => exact Or.inl (h.outcome hlt)
  | fulfilled hp hs hr hs' =>
    rename_i b k st allow s₀ s'
    by_cases hst : st = s
    · subst hst
      exact Or.inr (Or.inl hp)
    · exact Or.inl (outcome_settle hst)
  | set_value hs hr =>
    rename_i rs v k s₀
    by_cases hst : rs = s
    · subst hst
      refine Or.inr (Or.inr ⟨_, _, rfl, Or.inr (Or.inl ⟨v, rfl, ?_⟩)⟩)
      rw [outcome_settle_self hs]
      simp [future_state.get, (pending_absent hr).2]
    · exact Or.inl (outcome_settle hst)
  | set_exception hs hr =>
    rename_i rs x k s₀
    by_cases hst : rs = s
    · subst hst
      refine Or.inr (Or.inr ⟨_, _, rfl, Or.inr (Or.inr ⟨x, rfl, ?_⟩)⟩)
      rw [outcome_settle_self hs]
      simp [future_state.get]
    · exact Or.inl (outcome_settle hst)
  | set_prm hs hr =>
    rename_i prm k s₀
    by_cases hst : prm = s
    · subst hst
      exact Or.inr (Or.inr ⟨_, _, rfl, Or.inl rfl⟩)
    · exact Or.inl (outcome_settle hst)
  | first_wait h hs => exact Or.inl (outcome_registered hs rfl)
  | signal hs => exact Or.inl (outcome_update hs rfl)
  | _ => exact Or.inl rfl

/-! ## The law -/

/-- What holds of the calls of `unwrap` in every orderly run. -/
structure Unwrapped (c : Config α ε) : Prop where
  carried : Carried c
  known : Known c
  unique : ∀ o o' s, .unwrapped o s ∈ c.log → .unwrapped o' s ∈ c.log → o = o'
  result : ∀ o s r, .unwrapped o s ∈ c.log → outcome c s = some r → Joins c s r
  held : ∀ o s, .unwrapped o s ∈ c.log →
    owners c s = 1 ∨ Ready c s ∨ ∃ x, outcome c o = some (.error x)

theorem unwraps_known (hu : Known c) (hg : Grows c c') (hw : Unwraps c c') : Known c' := by
  intro o s hm
  cases hw with
  | none h => exact hg.lt (hu o s (h o s hm))
  | one st h hlt =>
    rcases h o s hm with hm | ⟨-, rfl⟩
    · exact hg.lt (hu o s hm)
    · exact hlt

theorem unwraps_unique (hu : Known c)
    (h : ∀ o o' s, .unwrapped o s ∈ c.log → .unwrapped o' s ∈ c.log → o = o')
    (hw : Unwraps c c') (o o' s : StateId) (hm : .unwrapped o s ∈ c'.log)
    (hm' : .unwrapped o' s ∈ c'.log) : o = o' := by
  cases hw with
  | none hold => exact h o o' s (hold o s hm) (hold o' s hm')
  | one st hold =>
    rcases hold o s hm with hm | ⟨rfl, rfl⟩
    · rcases hold o' s hm' with hm' | ⟨-, rfl⟩
      · exact h o o' s hm hm'
      · exact absurd (hu o _ hm) (Nat.lt_irrefl _)
    · rcases hold o' _ hm' with hm' | ⟨rfl, -⟩
      · exact absurd (hu o' _ hm') (Nat.lt_irrefl _)
      · rfl

/-- A new state that has an owner has no outcome. -/
theorem Owned.no_outcome {s : StateId} (ho : Owned c) (h1 : owners c s = 1) :
    outcome c s = none := by
  obtain ⟨s₀, hs, hr⟩ := ho.pending s (by omega)
  rw [outcome_eq hs]
  have := get_isSome s₀
  rw [hr] at this
  simpa using this

theorem step_result {t : Nat} {k : List (Frame α ε)} (hw : Unwrapped c) (ho' : Owned c')
    (hx : Extends c c') (hk : c.threads[t]? = some k) (h : Calm c t k c')
    (hun : Unwraps c c') (o s : StateId) (r : Except (Exception ε) (Value α))
    (hm : .unwrapped o s ∈ c'.log) (hr : outcome c' s = some r) : Joins c' s r := by
  have old : .unwrapped o s ∈ c.log → Joins c' s r := by
    intro hm
    have hkc : StackCarries c k := hw.carried.threads k (List.mem_of_getElem? hk)
    rcases calm_outcome h (hw.known o s hm) with he | hp | ⟨f, k', rfl, hf⟩
    · exact (hw.result o s r hm (he ▸ hr)).extends hx
    · exact absurd hm ((hw.carried.promises s hp).2 o)
    · rcases hf with rfl | ⟨v, rfl, hv⟩ | ⟨x, rfl, hv⟩
      · exact absurd hm (hkc.2.1.2 o)
      · rw [hr] at hv
        cases hv
        exact (hkc.2.1.resolve_left (fun hno => hno.2 o hm)).extends hx
      · rw [hr] at hv
        cases hv
        exact (hkc.2.1.resolve_left (fun hno => hno.2 o hm)).extends hx
  cases hun with
  | none hold => exact old (hold o s hm)
  | one st hold hlt h1 =>
    rcases hold o s hm with hm | ⟨-, rfl⟩
    · exact old hm
    · rw [ho'.no_outcome h1] at hr
      cases hr

theorem step_held {t : Nat} {k : List (Frame α ε)} (hw : Unwrapped c) (ho : Owned c)
    (hx : Extends c c') (hk : c.threads[t]? = some k) (h : Calm c t k c')
    (hun : Unwraps c c') (o s : StateId) (hm : .unwrapped o s ∈ c'.log) :
    owners c' s = 1 ∨ Ready c' s ∨ ∃ x, outcome c' o = some (.error x) := by
  have old : .unwrapped o s ∈ c.log →
      owners c' s = 1 ∨ Ready c' s ∨ ∃ x, outcome c' o = some (.error x) := by
    intro hm
    rcases hw.held o s hm with h1 | hr | ⟨x, hx'⟩
    · rcases calm_owners ho hk h s with ⟨he, -⟩ | ⟨⟨src, rs, x, k', rfl, hfail⟩, -, -⟩ |
        ⟨hle, -, -, -⟩ | ⟨hr, -⟩
      · exact Or.inl (he.trans h1)
      · -- the outer function ran on a failed future and left the state alone
        have hkc := hw.carried.threads _ (List.mem_of_getElem? hk)
        have hsrc := hw.unique o src s hm (hkc.2.1.2 s rfl)
        subst hsrc
        exact Or.inr (Or.inr ⟨x, hx.grows.outcome hfail⟩)
      · exact absurd (hw.known o s hm) (Nat.not_lt_of_le hle)
      · exact Or.inr (Or.inl hr)
    · exact Or.inr (Or.inl (hx.grows.ready hr))
    · exact Or.inr (Or.inr ⟨x, hx.grows.outcome hx'⟩)
  cases hun with
  | none hold => exact old (hold o s hm)
  | one st hold hlt h1 =>
    rcases hold o s hm with hm | ⟨-, rfl⟩
    · exact old hm
    · exact Or.inl h1

theorem step_unwrapped {e : Nat × Action α ε} (ho : Owned c) (hw : Unwrapped c)
    (hn : Orderly c e) (hs : step c e = some c') : Unwrapped c' := by
  obtain ⟨k, hk, h⟩ := step_calm ho hn hs
  have hg := step_grows hs
  have hx := calm_extends hg ho hk h
  have hun := calm_unwraps ho hk h
  exact ⟨calm_carried hw.carried hw.known hx hk h, unwraps_known hw.known hg hun,
    unwraps_unique hw.known hw.unique hun, step_result hw (step_owned ho hn hs) hx hk h hun,
    step_held hw ho hx hk h hun⟩

theorem unwrapped_init (n : Nat) : Unwrapped (init α ε n) := by
  refine ⟨⟨by simp [init], fun k hk => ?_, by simp [init], by simp [init]⟩, ?_, ?_, ?_, ?_⟩
  · rw [List.eq_of_mem_replicate hk]
    exact ⟨fun rs h => by simp at h, trivial, trivial⟩
  all_goals simp [init, Known]

theorem reach_unwrapped {n : Nat} {c : Config α ε} (h : Reach step Orderly (init α ε n) c) :
    Unwrapped c :=
  h.invariant_on (fun _ hr => reach_owned hr) (unwrapped_init n)
    (fun _ _ _ ho hw hn hs => step_unwrapped ho hw hn hs)

/-- The outcome of the future that `unwrap` returned is the one that the outer future `o` and its
inner future ask for. An invalid inner future asks for an exception. -/
def Joined (c : Config α ε) (o s : StateId) : Prop :=
  match outcome c o with
  | none => outcome c s = none
  | some (.error x) => outcome c s = some (.error x)
  | some (.ok (.future none)) => ∃ x, outcome c s = some (.error x)
  | some (.ok (.future (some f))) => outcome c s = outcome c f ∨
      ∃ x, outcome c s = some (.error x) ∧ Ready c f ∧ .set s true (.built x) ∈ c.log
  | some (.ok _) => False

/-- The outer function of `unwrap` has read a null future and goes on to use it. -/
def Crashed (c : Config α ε) (o s : StateId) : Prop :=
  c.fault = some .null_state ∧ outcome c o = some (.ok (.future none)) ∧
    ∃ k ∈ c.threads, ∃ rs k', k = .exec (.invoke_and_set_value o rs (.unwrap s)) :: k'

/-- Nothing that runs is to set `s` any more. -/
def Over (c : Config α ε) (o s : StateId) : Prop :=
  (∀ k ∈ c.threads, stackOwns s k = 0) ∨ Crashed c o s

/-- The outer future holds no exception and no invalid future. -/
def HoldsValid (c : Config α ε) (o : StateId) : Prop :=
  ∀ r, outcome c o = some r → ∃ f, r = .ok (.future (some f))

/-- An outcome of `s` is the one of the inner future. -/
theorem Unwrapped.joined (hw : Unwrapped c) {o s : StateId} (hm : .unwrapped o s ∈ c.log)
    {r : Except (Exception ε) (Value α)} (hr : outcome c s = some r) :
    ∃ f, outcome c o = some (.ok (.future (some f))) ∧ (outcome c s = outcome c f ∨
      ∃ x, outcome c s = some (.error x) ∧ Ready c f ∧ .set s true (.built x) ∈ c.log) := by
  obtain ⟨f, ⟨o', hm', ho⟩, hf⟩ := hw.result o s r hm hr
  have := hw.unique o o' s hm hm'
  subst this
  refine ⟨f, ho, ?_⟩
  rcases hf with hf | ⟨x, rfl, hready, hb⟩
  · exact Or.inl (hr.trans hf.symm)
  · exact Or.inr ⟨x, hr, hready, hb⟩

/-- Where nothing that runs is to set `s`, its owner waits for the outer or the inner future. -/
theorem Unwrapped.waiting (hw : Unwrapped c) (hg : Good c) {o s : StateId}
    (hm : .unwrapped o s ∈ c.log) (h1 : owners c s = 1)
    (hover : ∀ k ∈ c.threads, stackOwns s k = 0) :
    outcome c o = none ∨
      ∃ f, outcome c o = some (.ok (.future (some f))) ∧ outcome c f = none := by
  have hstk : total (total (ownersOf s : Weights α ε).frame) c.threads = 0 :=
    (total_eq_zero_iff _ _).mpr hover
  have hctr : total (ownersOf s : Weights α ε).counter c.counters = 0 := by
    rw [total_eq_zero_iff]
    intro ctr hctr
    have hne : ctr.prm ≠ s := fun he => (hw.carried.counters ctr hctr).2 o (he ▸ hm)
    simp only [ownersOf, Counter.owns, one_ne hne]
    split <;> rfl
  have hlog : total (ownersOf s : Weights α ε).entry c.log = 0 :=
    (total_eq_zero_iff _ _).mpr (fun _ _ => rfl)
  have hpos : total (ownersOf s : Weights α ε).state c.states ≠ 0 := by
    unfold owners weigh at h1
    omega
  rw [Ne, total_eq_zero_iff] at hpos
  simp only [Classical.not_forall] at hpos
  obtain ⟨st, hst, hne⟩ := hpos
  simp only [ownersOf, contsOwn, total_eq_zero_iff, Classical.not_forall] at hne
  obtain ⟨p, hp, hown⟩ := hne
  obtain ⟨i, hi⟩ := List.mem_iff_getElem?.mp hst
  have hok := hg.states i st hi
  have hon := (hok.conts p hp).2
  have hcar := hw.carried.states st hst p hp
  have hnone : outcome c i = none := by
    have : ready st = false := by
      cases hr : ready st
      · rfl
      · rw [hok.drained hr] at hp
        cases hp
    rw [outcome_eq hi]
    have hget := get_isSome st
    rw [this] at hget
    simpa using hget
  obtain ⟨j, kont⟩ := p
  cases kont with
  | invoke_and_set_value src rs func =>
    have hrs : rs ≠ s := fun he => hcar.1.2 o (he ▸ hm)
    simp only [Cont.owns, one_ne hrs, Nat.zero_add] at hown
    cases func with
    | unwrap s' =>
      have hs' : s' = s := by
        by_cases he : s' = s
        · exact he
        · exact absurd (one_ne he) hown
      subst hs'
      have hsrc := hw.unique o src s' hm (hcar.2 s' rfl)
      have hon' : src = i := hon
      subst hsrc hon'
      exact Or.inl hnone
    | _ => exact absurd rfl hown
  | get_and_set_value s' f =>
    have hs' : s' = s := by
      by_cases he : s' = s
      · exact he
      · exact absurd (one_ne he) hown
    subst hs'
    obtain ⟨o', hm', ho⟩ := hcar
    have := hw.unique o o' s' hm hm'
    have hon' : f = i := hon
    subst this hon'
    exact Or.inr ⟨f, ho, hnone⟩
  | _ => exact absurd rfl hown

/-- In every orderly run, an outcome of the future that `unwrap` returned is the right one. It is
set at most once, and once nothing that runs is to set it, it is as it should be exactly when the
outer future holds no exception and no invalid future. -/
theorem unwrap_joins_unless_the_outer_fails (n : Nat) (c : Config α ε) (o s : StateId)
    (h : Reach step Orderly (init α ε n) c) (hm : .unwrapped o s ∈ c.log) :
    stores s c ≤ 1 ∧ (∀ r, outcome c s = some r → Joined c o s) ∧
      (Over c o s → (Joined c o s ↔ HoldsValid c o)) := by
  have hord := reach_ordered h
  have hw := reach_unwrapped h
  have hone := reach_storedOnce (h.mono (fun _ _ he => he.1)) s
  have right : ∀ r, outcome c s = some r → Joined c o s := by
    intro r hr
    obtain ⟨f, ho, hf⟩ := hw.joined hm hr
    simp only [Joined, ho]
    exact hf
  refine ⟨by omega, right, fun hover => ⟨fun hj r ho => ?_, fun hv => ?_⟩⟩
  · cases hs : outcome c s with
    | some r' =>
      -- an outcome that is there came from an inner future
      obtain ⟨f, ho', -⟩ := hw.joined hm hs
      rw [ho] at ho'
      exact ⟨f, Option.some.inj ho'⟩
    | none =>
      unfold Joined at hj
      rw [ho, hs] at hj
      split at hj
      · rename_i heq
        cases heq
      · cases hj
      · obtain ⟨x, hx⟩ := hj
        cases hx
      · rename_i f heq
        exact ⟨f, Option.some.inj heq⟩
      · exact hj.elim
  · rcases hover with hover | ⟨-, ho, -⟩
    · rcases hw.held o s hm with h1 | hr | ⟨x, hx⟩
      · have hs := hord.owned.no_outcome h1
        rcases hw.waiting hord.good hm h1 hover with ho | ⟨f, ho, hf⟩
        · simp only [Joined, ho]
          exact hs
        · simp only [Joined, ho]
          exact Or.inl (hs.trans hf.symm)
      · obtain ⟨r, hr⟩ := ready_iff_outcome.mp hr
        exact right r hr
      · obtain ⟨f, hf⟩ := hv _ hx
        cases hf
    · obtain ⟨f, hf⟩ := hv _ ho
      cases hf

/-- A promise that fails, and its `unwrap`. The exception goes to the future of `then`, and the
future that `unwrap` returned is left alone. -/
def outerFails : List (Nat × Action Unit Unit) :=
  [(0, .promise none), (0, .unwrap (some 0)), (0, .set_exception 0 (some (.user ())))] ++
  List.replicate 7 (0, .tick none)

/-- An outer future that failed is not joined. -/
theorem a_failed_outer_future_is_lost :
    ¬ ∀ n (c : Config Unit Unit) o s, Reach step Orderly (init Unit Unit n) c →
      .unwrapped o s ∈ c.log → Over c o s → Joined c o s := by
  intro hall
  have hrun : ∃ c, run step (init Unit Unit 1) outerFails = some c ∧
      .unwrapped 0 1 ∈ c.log ∧ c.threads = [[.user .main]] ∧
      outcome c 0 = some (.error (.user ())) ∧ outcome c 1 = none :=
    ⟨_, rfl, by decide, rfl, rfl, rfl⟩
  obtain ⟨c, hrun, hm, hthreads, ho, hs⟩ := hrun
  have hr : Reach step Orderly (init Unit Unit 1) c :=
    reach_of_run _ _ _ (fun t e he => plain_orderly t (by revert e; decide)) hrun
  have hj := hall 1 c 0 1 hr hm (Or.inl (by rw [hthreads]; simp [stackOwns, Frame.owns]))
  simp only [Joined, ho, hs] at hj
  cases hj

/-- Two promises: the first is fulfilled with the future of the second, and the second with a
value. -/
def innerSucceeds : List (Nat × Action Unit Unit) :=
  [(0, .promise none), (0, .promise none), (0, .unwrap (some 0)),
    (0, .set_value 0 (.future (some 1)) none true)] ++ List.replicate 8 (0, .tick none) ++
  [(0, .set_value 1 (.val ()) none true)] ++ List.replicate 9 (0, .tick none)

theorem unwrap_joins_unless_the_outer_fails_here :
    ∃ c : Config Unit Unit, Reach step Orderly (init Unit Unit 1) c ∧
      outcome c 2 = some (.ok (.val ())) ∧ stores 2 c ≤ 1 ∧ (Joined c 0 2 ↔ HoldsValid c 0) ∧
      Joined c 0 2 := by
  have hrun : ∃ c, run step (init Unit Unit 1) innerSucceeds = some c ∧
      .unwrapped 0 2 ∈ c.log ∧ c.threads = [[.user .main]] ∧
      outcome c 2 = some (.ok (.val ())) := ⟨_, rfl, by decide, rfl, rfl⟩
  obtain ⟨c, hrun, hm, hthreads, hs⟩ := hrun
  have hr : Reach step Orderly (init Unit Unit 1) c :=
    reach_of_run _ _ _ (fun t e he => plain_orderly t (by revert e; decide)) hrun
  obtain ⟨h1, h2, h3⟩ := unwrap_joins_unless_the_outer_fails 1 c 0 2 hr hm
  exact ⟨c, hr, hs, h1, h3 (Or.inl (by rw [hthreads]; simp [stackOwns, Frame.owns])), h2 _ hs⟩

end ltl.futures
