-- The states below a promise: the results of its continuations, of their
-- continuations and so on. Each has one parent, so a setter finds a forest
-- below its state, in every orderly run.
import Ltl.SetterRuns

open ltl.future_state runs counts

namespace ltl.futures

variable {α ε : Type}

/-! ## Parents -/

/-- A continuation of `st` is to set `rs`. -/
def Child (c : Config α ε) (st rs : StateId) : Prop :=
  ∃ i src func, Stored c st (i, .invoke_and_set_value src rs func)

/-- The path from `st` down to `rs`. -/
abbrev Under (c : Config α ε) : StateId → StateId → Prop := Relation.ReflTransGen (Child c)

/-- A state is made no later than the results of its continuations. -/
def Upward (c : Config α ε) : Prop := ∀ st rs, Child c st rs → st ≤ rs

theorem lt_of_some {c : Config α ε} {st : StateId} {s : State α ε} (h : c.states[st]? = some s) :
    st < c.states.length := (List.getElem?_eq_some_iff.mp h).1

/-- A new result comes after the state that its continuation waits for. -/
theorem Registers.upward {c c' : Config α ε} {t : Nat} {k : List (Frame α ε)}
    {st src rs : StateId} {func : Func}
    (h : Registers c t k c' st (.invoke_and_set_value src rs func)) : st ≤ rs := by
  cases h with
  | add h hs hr hc =>
    have hlt := lt_of_some hs
    cases h with
    | then_ hf =>
      simp only [Config.alloc, List.length_append, List.length_singleton] at hlt
      exact Nat.le_of_lt_succ hlt
    | unwrap ho =>
      simp only [Config.alloc, Config.note, List.length_append, List.length_singleton] at hlt
      exact Nat.le_of_lt_succ hlt
    | when_all =>
      simp only [Config.alloc, List.length_append, List.length_singleton] at hlt
      exact Nat.le_of_lt_succ hlt

theorem step_upward {c c' : Config α ε} {e : Nat × Action α ε} (h : Upward c) (ho : Owned c)
    (hn : Orderly c e) (hs : step c e = some c') : Upward c' := by
  obtain ⟨k, -, hc⟩ := step_calm ho hn hs
  rintro st rs ⟨i, src, func, hst⟩
  rcases calm_stored hc hst with hst | ⟨-, hreg⟩
  · exact h st rs ⟨i, src, func, hst⟩
  · exact hreg.upward

theorem reach_upward {n : Nat} {c : Config α ε} (h : Reach step Orderly (init α ε n) c) :
    Upward c := by
  have hinit : Upward (init α ε n) := by
    rintro st rs ⟨i, src, func, s, hs, -⟩
    simp [init] at hs
  refine (h.invariant (P := fun c => Upward c ∧ Owned c) ⟨hinit, owned_init n⟩ ?_).1
  rintro c e c' ⟨hup, ho⟩ hn hs
  exact ⟨step_upward hup ho hn hs, step_owned ho hn hs⟩

/-- The setter of a result is a continuation of one state. -/
theorem child_unique {c : Config α ε} (hg : Good c) (ho : Owned c) {st st' rs : StateId}
    (h : Child c st rs) (h' : Child c st' rs) : st = st' := by
  obtain ⟨i, src, func, s, hs, hp⟩ := h
  obtain ⟨i', src', func', s', hs', hp'⟩ := h'
  have hone := ho.one_owner rs
  have htotal : total (fun s : State α ε => contsOwn rs s.continuations_) c.states ≤ 1 := by
    unfold owners weigh at hone
    simp only [ownersOf] at hone
    omega
  have hown : ∀ {s : State α ε} {i src func},
      (i, .invoke_and_set_value src rs func) ∈ s.continuations_ →
      0 < contsOwn rs s.continuations_ := by
    intro s i src func hmem
    have hle := le_total (fun p : Id × Cont => p.2.owns rs) s.continuations_ _ hmem
    have hpos : 0 < (Cont.invoke_and_set_value src rs func).owns rs := by
      simp only [Cont.owns, one_self]
      omega
    exact Nat.lt_of_lt_of_le hpos hle
  have heq := eq_of_total_le_one _ _ htotal (List.mem_of_getElem? hs) (List.mem_of_getElem? hs')
    (hown hp) (hown hp')
  subst heq
  -- the continuation knows where it was registered
  have hok := ((hg.states st s hs).conts _ hp).1
  have hok' := ((hg.states st' s hs').conts _ hp).1
  exact Option.some.inj (hok.symm.trans hok')

theorem Under.le {c : Config α ε} (hup : Upward c) {st rs : StateId} (h : Under c st rs) :
    st ≤ rs := by
  induction h with
  | refl => exact Nat.le_refl st
  | tail _ hc ih => exact Nat.le_trans ih (hup _ _ hc)

/-- A child is set by a continuation of its parent only, so it is not its own parent. -/
theorem Child.lt {c : Config α ε} (hg : Good c) (ho : Owned c) (hup : Upward c) {st rs : StateId}
    (h : Child c st rs) (hst : ¬ Child c st st) : st < rs ∧ ¬ Child c rs rs := by
  have hne : st ≠ rs := by
    rintro rfl
    exact hst h
  refine ⟨Nat.lt_of_le_of_ne (hup st rs h) hne, fun hself => ?_⟩
  exact hne (child_unique hg ho h hself)

/-- Nothing is under two children of one state. -/
theorem siblings_apart {c : Config α ε} (hg : Good c) (ho : Owned c) (hup : Upward c)
    {st rs rs' x : StateId} (hst : ¬ Child c st st) (h : Child c st rs) (h' : Child c st rs')
    (hne : rs ≠ rs') (hx : Under c rs x) : ¬ Under c rs' x := by
  have hlt := (h.lt hg ho hup hst).1
  have hlt' := (h'.lt hg ho hup hst).1
  induction hx with
  | refl =>
    intro hx'
    rcases Relation.ReflTransGen.cases_tail hx' with he | ⟨y, hy, hc⟩
    · exact hne he
    · -- the parent of `rs` is `st`, which is above `rs'`
      obtain rfl := child_unique hg ho h hc
      exact Nat.not_le_of_lt hlt' (Under.le hup hy)
  | tail hy hc ih =>
    intro hx'
    rcases Relation.ReflTransGen.cases_tail hx' with rfl | ⟨y, hy', hc'⟩
    · obtain rfl := child_unique hg ho h' hc
      exact Nat.not_le_of_lt hlt (Under.le hup hy)
    · obtain rfl := child_unique hg ho hc hc'
      exact ih hy'

/-! ## The forest -/

/-- The trees of the continuations of `st`, whose outcome is `r`: the states of the results are
apart, and all are under `st`. -/
def GrownOn (a : Answers α ε) (c : Config α ε) (st : StateId)
    (r : Except (Exception ε) (Value α)) (trees : List (Tree α ε)) : Prop :=
  ShownAll a c st r trees ∧ (st :: statesAll trees).Nodup ∧ ∀ x ∈ statesAll trees, Under c st x

/-- The trees of a part of the continuations of `st`, when each child of `st` has its trees. -/
theorem trees_of_children {c : Config α ε} (a : Answers α ε) (hg : Good c) (ho : Owned c)
    (hup : Upward c) {st : StateId} {r : Except (Exception ε) (Value α)} (hst : ¬ Child c st st)
    (children : ∀ rs, Child c st rs → ∀ r, ∃ trees s, c.states[rs]? = some s ∧
      ready s = false ∧ s.continuations_ = trees.map Tree.entry ∧ GrownOn a c rs r trees)
    (cs : List (Id × Cont)) (hcs : ∀ p ∈ cs, Stored c st p ∧ p.2.plain = true)
    (hone : ∀ rs, contsOwn rs cs ≤ 1) :
    ∃ trees, cs = trees.map Tree.entry ∧ ShownAll a c st r trees ∧ (statesAll trees).Nodup ∧
      ∀ x ∈ statesAll trees, ∃ rs, 0 < contsOwn rs cs ∧ Child c st rs ∧ Under c rs x := by
  induction cs with
  | nil => exact ⟨[], by simp [ShownAll, statesAll]⟩
  | cons p cs ih =>
    simp only [List.forall_mem_cons] at hcs
    obtain ⟨⟨hp, hplain⟩, hcs⟩ := hcs
    obtain ⟨trees, rfl, hshown, hnd, hunder⟩ := ih hcs (fun rs => by
      have := hone rs
      simp only [contsOwn_cons] at this
      omega)
    have hok : p.2.on st := by
      obtain ⟨s, hs, hmem⟩ := hp
      exact ((hg.states st s hs).conts p hmem).2
    -- a continuation without a result
    have leaf : ∀ tree : Tree α ε, tree.entry = p → tree.Shown a c st r → tree.states = [] →
        ∃ trees', p :: trees.map Tree.entry = trees'.map Tree.entry ∧ ShownAll a c st r trees' ∧
          (statesAll trees').Nodup ∧ ∀ x ∈ statesAll trees', ∃ rs,
            0 < contsOwn rs (p :: trees.map Tree.entry) ∧ Child c st rs ∧ Under c rs x := by
      intro tree he ht hs
      refine ⟨tree :: trees, by simp [he], by simp [ShownAll, ht, hshown],
        by simpa [statesAll, hs] using hnd, ?_⟩
      intro x hx
      simp only [statesAll, hs, List.nil_append] at hx
      obtain ⟨rs, hrs, hchild, hxr⟩ := hunder x hx
      exact ⟨rs, by simp only [contsOwn_cons]; omega, hchild, hxr⟩
    obtain ⟨i, kont⟩ := p
    cases kont with
    | signal st' => exact leaf (.signal i st') rfl (by simpa [Cont.on, Tree.Shown] using hok) rfl
    | call f => exact leaf (.call i f (a.throws i)) rfl rfl rfl
    | dec n => simp [Cont.plain] at hplain
    | get_and_set_value s f => simp [Cont.plain] at hplain
    | invoke_and_set_value src rs func =>
      obtain rfl : src = st := hok
      have hchild : Child c src rs := ⟨i, src, func, hp⟩
      obtain ⟨deps, s, hs, hready, hsc, hdeps, hdnd, hdunder⟩ :=
        children rs hchild (settled (func.result a i r) (a.built i))
      have hown : 0 < (Cont.invoke_and_set_value src rs func).owns rs := by
        simp only [Cont.owns, one_self]
        omega
      have hunder' : ∀ x ∈ rs :: statesAll deps, Under c rs x := by
        simpa using ⟨Relation.ReflTransGen.refl, hdunder⟩
      refine ⟨.then_ i src rs func (func.result a i r) (a.built i) deps :: trees,
        by simp [Tree.entry], ?_, ?_, ?_⟩
      · simp only [ShownAll, Tree.Shown]
        exact ⟨⟨trivial, hplain, trivial, trivial, ⟨s, hs, hready, hsc⟩, hdeps⟩, hshown⟩
      · simp only [statesAll, Tree.states]
        rw [List.nodup_append]
        refine ⟨hdnd, hnd, fun x hx y hy he => ?_⟩
        subst he
        obtain ⟨rs', hrs', hchild', hxr'⟩ := hunder x hy
        have hne : rs ≠ rs' := by
          rintro rfl
          have := hone rs
          simp only [contsOwn_cons] at this
          omega
        exact siblings_apart hg ho hup hst hchild hchild' hne (hunder' x hx) hxr'
      · intro x hx
        simp only [statesAll, Tree.states, List.mem_append] at hx
        rcases hx with hx | hx
        · exact ⟨rs, by simp only [contsOwn_cons]; omega, hchild, hunder' x hx⟩
        · obtain ⟨rs', hrs', hchild', hxr'⟩ := hunder x hx
          exact ⟨rs', by simp only [contsOwn_cons]; omega, hchild', hxr'⟩

/-- The states below one that does not set itself make a forest. -/
theorem forest_grows {c : Config α ε} (a : Answers α ε) (hg : Good c) (ho : Owned c)
    (hup : Upward c) {st : StateId} {s : State α ε} (hs : c.states[st]? = some s)
    (hst : ¬ Child c st st) (hplain : ∀ x p, Under c st x → Stored c x p → p.2.plain = true)
    (r : Except (Exception ε) (Value α)) :
    ∃ trees, s.continuations_ = trees.map Tree.entry ∧ GrownOn a c st r trees := by
  -- the induction is on the number of the states that come after `st`
  induction hn : c.states.length - st using Nat.strongRecOn generalizing st s r with
  | ind n ih =>
    have children : ∀ rs, Child c st rs → ∀ r, ∃ trees s, c.states[rs]? = some s ∧
        ready s = false ∧ s.continuations_ = trees.map Tree.entry ∧ GrownOn a c rs r trees := by
      intro rs hchild r
      obtain ⟨hlt, hself⟩ := hchild.lt hg ho hup hst
      obtain ⟨i, src, func, hstored⟩ := hchild
      have hown := owners_of_stored hstored rs
      simp only [Cont.owns, one_self] at hown
      obtain ⟨s', hs', hready⟩ := ho.pending rs (by omega)
      have hbound := lt_of_some hs'
      have hless := Nat.sub_lt_sub_left (Nat.lt_trans hlt hbound) hlt
      obtain ⟨trees, hcs, hgrown⟩ := ih (c.states.length - rs) (hn ▸ hless) hs' hself
        (fun x p hx => hplain x p (hx.head ⟨i, src, func, hstored⟩)) r rfl
      exact ⟨trees, s', hs', hready, hcs, hgrown⟩
    have hone : ∀ rs, contsOwn rs s.continuations_ ≤ 1 := by
      intro rs
      have hle := le_total (fun s : State α ε => contsOwn rs s.continuations_) c.states s
        (List.mem_of_getElem? hs)
      have howners := ho.one_owner rs
      unfold owners weigh at howners
      simp only [ownersOf] at howners
      omega
    obtain ⟨trees, hcs, hshown, hnd, hunder⟩ := trees_of_children a hg ho hup hst children
      s.continuations_ (fun p hp => ⟨⟨s, hs, hp⟩, hplain st p .refl ⟨s, hs, hp⟩⟩) hone
    refine ⟨trees, hcs, hshown, List.nodup_cons.mpr ⟨?_, hnd⟩, ?_⟩
    · intro hmem
      obtain ⟨rs, -, hchild, hxr⟩ := hunder st hmem
      exact Nat.not_le_of_lt (hchild.lt hg ho hup hst).1 (Under.le hup hxr)
    · intro x hx
      obtain ⟨rs, -, hchild, hxr⟩ := hunder x hx
      exact hxr.head hchild

/-- A promise of the client has no continuation that sets it. -/
theorem Owned.no_parent {c : Config α ε} (ho : Owned c) {p st : StateId} (hp : p ∈ c.promises) :
    ¬ Child c st p := by
  rintro ⟨i, src, func, hstored⟩
  have hown := owners_of_stored hstored p
  simp only [Cont.owns, one_self, (ho.promised p hp).2] at hown
  omega

/-- In every configuration of an orderly run, client code that calls a setter of a promise, and
is then left alone, gets what `Ltl.Setters` says of the forest below the promise, whatever the
functions in it answer. The continuations there are those of `then`, `next`, `continue_with` and
`wait`. Each result has one parent, and no state is in the forest twice. -/
theorem a_setter_runs_its_forest (n : Nat) (c : Config α ε)
    (h : Reach step Orderly (init α ε n) c) (hf : c.fault = none) (t : Nat) (b : Body)
    (k : List (Frame α ε)) (hk : c.threads[t]? = some (.user b :: k)) (p : StateId)
    (hp : p ∈ c.promises)
    (hplain : ∀ st q, Under c p st → Stored c st q → q.2.plain = true) (a : Answers α ε)
    (m : setters.Setter (Value α) ε) :
    ∃ s trees c₁ c₂, c.states[p]? = some s ∧ s.continuations_ = trees.map Tree.entry ∧
      GrownOn a c p (setterOutcome m) trees ∧
      (∀ x st st', Child c st x → Child c st' x → st = st') ∧
      step c (t, setterAction p m) = some c₁ ∧ Reach step (Alone a t) c₁ c₂ ∧
      Agrees c c₂ p trees (setters.run (view s trees) m) := by
  have hg : Good c := (reach_ordered h).good
  have ho := reach_owned h
  have hs := List.getElem?_eq_getElem (ho.promised p hp).1
  obtain ⟨trees, hcs, hgrown⟩ := forest_grows a hg ho (reach_upward h) hs
    (ho.no_parent hp) hplain (setterOutcome m)
  obtain ⟨c₁, c₂, hstep, hreach, hagrees⟩ :=
    setter_agrees a m hf hk hp hs hcs hgrown.1 hgrown.2.1
  exact ⟨_, trees, c₁, c₂, hs, hcs, hgrown, fun _ _ _ hx hx' => child_unique hg ho hx hx', hstep,
    hreach, hagrees⟩

/-- A `then` whose result has a function that throws, and a function after it. -/
def throwsBelow : List (Nat × Action Unit Unit) :=
  [(0, .promise none), (0, .then_ (some 0) (.then_ 0)), (0, .continue_with 1 1),
    (0, .continue_with 0 2)]

/-- The function of continuation 1 throws. -/
def throwsSecond : Answers Unit Unit :=
  { ends := fun _ => .ok .unit, throws := fun i => if i = 1 then some (.user ()) else none,
    built := fun _ => none }

/-- The exception ends the loop of the setter, which throws. -/
theorem a_setter_runs_its_forest_here :
    ∃ (c : Config Unit Unit) (s : State Unit Unit) (trees : List (Tree Unit Unit))
      (c₁ c₂ : Config Unit Unit), Reach step Orderly (init Unit Unit 1) c ∧
      s.continuations_ = trees.map Tree.entry ∧ (0 :: statesAll trees).Nodup ∧
      step c (0, .set_value 0 .unit none true) = some c₁ ∧ Reach step (Alone throwsSecond 0) c₁ c₂ ∧
      Agrees c c₂ 0 trees (setters.run (view s trees) (.value .unit none true)) := by
  have hrun : ∃ c, run step (init Unit Unit 1) throwsBelow = some c ∧ c.fault = none ∧
      c.threads[0]? = some [.user .main] ∧ 0 ∈ c.promises ∧
      ∀ s ∈ c.states, ∀ q ∈ s.continuations_, q.2.plain = true :=
    ⟨_, rfl, rfl, rfl, by decide, by decide⟩
  obtain ⟨c, hrun, hf, hk, hp, hplain⟩ := hrun
  have hr : Reach step Orderly (init Unit Unit 1) c :=
    reach_of_run _ _ _ (fun t e he => plain_orderly t (by revert e; decide)) hrun
  obtain ⟨s, trees, c₁, c₂, -, hcs, ⟨-, hnd, -⟩, -, hstep, hreach, hagrees⟩ :=
    a_setter_runs_its_forest 1 c hr hf 0 .main [] hk 0 hp
      (fun st q _ ⟨s, hs, hq⟩ => hplain s (List.mem_of_getElem? hs) q hq)
      throwsSecond (.value .unit none true)
  exact ⟨c, s, trees, c₁, c₂, hr, hcs, hnd, hstep, hreach, hagrees⟩

end ltl.futures
