-- The order in which states are set. A call that waits for a state is above loops
-- of setters that began before that state was set. So setters on different threads
-- that wait for each other do not form a circle, and each wait leads to a state that
-- no setter has set.
import Ltl.ExactlyOnce

open ltl.future_state runs

namespace ltl.futures

variable {α ε : Type}

/-- A setter of `st` has stored a value or an exception. -/
def WasSet (l : List (Entry ε)) (st : StateId) : Prop := ∃ e ∈ l, isStore st e = true

/-- Each store of `st'` comes after a store of `st`. -/
def SetBefore (l : List (Entry ε)) (st st' : StateId) : Prop :=
  ∀ l₁ e l₂, l = l₁ ++ e :: l₂ → isStore st' e = true → WasSet l₁ st

/-- What the log says of a call on top of `k`. -/
def Frame.since (l : List (Entry ε)) (k : List (Frame α ε)) : Frame α ε → Prop
  | .drain st _ => WasSet l st
  | .waiting st' _ => ∀ st cs, .drain st cs ∈ k → SetBefore l st st'
  | _ => True

/-- Each loop is of a state that was set, and above it threads wait for states set later. -/
def SetOrder (l : List (Entry ε)) : List (Frame α ε) → Prop
  | [] => True
  | f :: k => f.since l k ∧ SetOrder l k

theorem WasSet.append {l : List (Entry ε)} {st : StateId} (h : WasSet l st)
    (es : List (Entry ε)) : WasSet (l ++ es) st := by
  obtain ⟨e, he, hst⟩ := h
  exact ⟨e, List.mem_append_left es he, hst⟩

theorem SetBefore.append {l : List (Entry ε)} {st st' : StateId} (h : SetBefore l st st')
    (hst : WasSet l st) (es : List (Entry ε)) : SetBefore (l ++ es) st st' := by
  intro l₁ e l₂ heq he
  rcases List.append_eq_append_iff.mp heq with ⟨as, rfl, -⟩ | ⟨bs, rfl, hbs⟩
  · exact hst.append as
  · cases bs with
    | nil => simpa using hst
    | cons b bs =>
      cases hbs
      exact h l₁ e bs rfl he

theorem setBefore_of_unset {l : List (Entry ε)} {st' : StateId} (h : ¬ WasSet l st')
    (st : StateId) : SetBefore l st st' := by
  rintro l₁ e l₂ rfl he
  exact absurd ⟨e, by simp, he⟩ h

/-- The first store of `st` is before the first one of `st'`. -/
theorem SetBefore.findIdx_lt {l : List (Entry ε)} {st st' : StateId} (h : SetBefore l st st')
    (hst' : WasSet l st') : l.findIdx (isStore st) < l.findIdx (isStore st') := by
  have hlt : l.findIdx (isStore st') < l.length := List.findIdx_lt_length_of_exists hst'
  generalize hi : l.findIdx (isStore st') = i at hlt ⊢
  have hstore : isStore st' l[i] = true := by
    subst hi
    exact List.findIdx_getElem
  have hsplit : l = l.take i ++ l[i] :: l.drop (i + 1) := by
    rw [List.getElem_cons_drop hlt, List.take_append_drop]
  obtain ⟨e, he, hst⟩ := h _ _ _ hsplit hstore
  obtain ⟨j, hj, rfl⟩ := List.mem_take_iff_getElem.mp he
  apply Nat.lt_of_le_of_lt (m := j) ?_ (by omega)
  apply Nat.le_of_not_lt
  intro hlt'
  rw [List.not_of_lt_findIdx hlt'] at hst
  cases hst

theorem SetOrder.was_set {l : List (Entry ε)} {k : List (Frame α ε)} (h : SetOrder l k)
    {st : StateId} {cs : List (Id × Cont)} (hd : .drain st cs ∈ k) : WasSet l st := by
  induction k with
  | nil => cases hd
  | cons f k ih =>
    rcases List.mem_cons.mp hd with rfl | hd
    · exact h.1
    · exact ih h.2 hd

theorem SetOrder.append {l : List (Entry ε)} {k : List (Frame α ε)} (h : SetOrder l k)
    (es : List (Entry ε)) : SetOrder (l ++ es) k := by
  induction k with
  | nil => trivial
  | cons f k ih =>
    refine ⟨?_, ih h.2⟩
    have hf := h.1
    cases f with
    | drain st cs => exact WasSet.append hf es
    | waiting st' g => exact fun st cs hd => (hf st cs hd).append (h.2.was_set hd) es
    | _ => trivial

theorem SetOrder.run {l : List (Entry ε)} {k : List (Frame α ε)} (h : SetOrder l k) (i : Id)
    (kont : Cont) : SetOrder l (.exec kont :: .invoking i :: k) := ⟨trivial, trivial, h⟩

/-- The loop of a setter begins when its state is set. -/
theorem settle_setOrder {c : Config α ε} {t : Nat} {st : StateId} {allow : Bool} {s s' : State α ε}
    {k : List (Frame α ε)} (h : SetOrder c.log k) :
    SetOrder (settle c t st allow s s' k).log (.drain st s.continuations_ :: k) := by
  refine ⟨⟨.set st allow (.stored (s.continuations_.map Prod.fst)), ?_, by simp [isStore]⟩,
    h.append _⟩
  exact List.mem_append_right _ (List.mem_singleton_self _)

theorem raise_setOrder {l : List (Entry ε)} (x : Exception ε) {k : List (Frame α ε)}
    (h : SetOrder l k) : SetOrder l (raise x k).2 := by
  induction k with
  | nil => exact h
  | cons f k ih =>
    cases f with
    | user b => exact h
    | catch_ rs => exact ⟨trivial, h.2⟩
    | try_set rs r => exact ⟨trivial, h.2⟩
    | unwrap_try rs s => exact ⟨trivial, trivial, h.2⟩
    | _ => exact ih h.2

theorem deliver_setOrder {l : List (Entry ε)} (r : Except (Exception ε) (Value α))
    {k : List (Frame α ε)} (h : SetOrder l k) : SetOrder l (deliver r k) := by
  unfold deliver
  split
  · split
    · exact ⟨trivial, h.2⟩
    · exact ⟨trivial, h.2⟩
  · exact ⟨trivial, h.2⟩
  · exact h

theorem waited_setOrder {l : List (Entry ε)} (st : StateId) (g : Bool) {k : List (Frame α ε)}
    (h : SetOrder l k) : SetOrder l (waited st g k) := by
  unfold waited
  split
  · exact ⟨trivial, h⟩
  · exact h

theorem Local.setOrder {c : Config α ε} {l : List (Entry ε)} {k k' : List (Frame α ε)}
    (hl : Local c k k') (h : SetOrder l k) : SetOrder l k' := by
  cases hl with
  | stay => exact h
  | woken s hs hb => exact waited_setOrder _ _ h.2
  | read => exact deliver_setOrder _ h.2
  | _ => simp_all [SetOrder, Frame.since]

theorem Adds.setOrder {c c₁ : Config α ε} {a : Action α ε} {l : List (Entry ε)}
    {k k' : List (Frame α ε)} {st : StateId} {kont : Cont} (hl : Adds c a k c₁ st kont k')
    (h : SetOrder l k) : SetOrder l k' := by
  cases hl with
  | unwrap_outer => exact ⟨trivial, h.2⟩
  | register => exact ⟨trivial, h.2⟩
  | when_all => exact h.2
  | _ => exact h

theorem Sets.setOrder {c : Config α ε} {a : Action α ε} {l : List (Entry ε)}
    {k k' : List (Frame α ε)} {st : StateId} {allow : Bool} {f : Setter α ε}
    (hl : Sets c a k st allow f k') (h : SetOrder l k) : SetOrder l k' := by
  cases hl with
  | try_set => exact ⟨trivial, h.2⟩
  | handler => exact h.2
  | set_prm => exact h.2
  | _ => exact h

/-- A state that is not ready was not set. -/
theorem unset_of_pending {c : Config α ε} (hg : Good c) {st : StateId} {s : State α ε}
    (hs : c.states[st]? = some s) (hr : ready s = false) : ¬ WasSet c.log st := by
  rintro ⟨e, he, hst⟩
  have hok := hg.log e he
  unfold isStore at hst
  split at hst
  · obtain ⟨s', hs', hr'⟩ := hok
    obtain rfl := of_decide_eq_true hst
    rw [hs] at hs'
    cases hs'
    rw [hr] at hr'
    cases hr'
  · cases hst

/-- One step keeps the order on the stack of its thread. -/
theorem moves_setOrder {c c' : Config α ε} {t : Nat} {a : Action α ε} {k : List (Frame α ε)}
    (hg : Good c) (hk : c.threads[t]? = some k) (h : Moves c t a k c') (ho : SetOrder c.log k) :
    ∃ es k', c'.log = c.log ++ es ∧ c'.threads = c.threads.set t k' ∧ SetOrder c'.log k' := by
  have stay : c.threads.set t k = c.threads := congrArg Config.threads (put_self hk)
  have none : c.log = c.log ++ [] := (List.append_nil _).symm
  -- a wait begins for a state that was not set
  have waits : ∀ {st s g} {k₀ : List (Frame α ε)}, c.states[st]? = some s → ready s = false →
      SetOrder c.log k₀ → SetOrder c.log (.waiting st g :: k₀) := by
    intro st s k₀ g hs hr h₀
    exact ⟨fun st' _ _ => setBefore_of_unset (unset_of_pending hg hs hr) st', h₀⟩
  have waited : ∀ {st g k₀}, lockedWait c t st g k₀ = some c' → SetOrder c.log k₀ →
      ∃ es k', c'.log = c.log ++ es ∧ c'.threads = c.threads.set t k' ∧ SetOrder c'.log k' := by
    intro st g k₀ hw h₀
    obtain ⟨s, hs, ⟨-, rfl⟩ | ⟨hr, -, rfl⟩ | ⟨hr, -, rfl⟩⟩ := lockedWait.spec hw
    · exact ⟨[], _, none, rfl, waited_setOrder st g h₀⟩
    · exact ⟨[], _, none, rfl, waits hs hr h₀⟩
    · exact ⟨[], _, none, rfl, waits hs hr h₀⟩
  cases h with
  | local_ h => exact ⟨[], _, none, rfl, h.setOrder ho⟩
  | promise => exact ⟨[], _, none, stay.symm, ho⟩
  | made_ready hk' =>
    refine ⟨[], _, none, rfl, ?_⟩
    rcases hk' with rfl | rfl
    · exact ho
    · exact ⟨trivial, ho⟩
  | when_all_ready hfs hk' =>
    refine ⟨[], _, none, rfl, ?_⟩
    rcases hk' with rfl | rfl
    · exact ⟨trivial, ho⟩
    · exact ⟨trivial, trivial, ho⟩
  | @add _ _ c₁ _ kont _ _ hadd hlock =>
    obtain ⟨⟨es, hlog, -⟩, -⟩ := hadd.quiet
    have hk' := (hadd.setOrder ho).append es
    rw [← hlog] at hk'
    have hthreads := (hadd.left 0).1
    obtain ⟨s, hs, ⟨-, rfl⟩ | ⟨-, rfl⟩⟩ := lockedAdd.spec hlock
    · have hrun := SetOrder.run (hk'.append [.invoked c₁.sources.length]) c₁.sources.length kont
      exact ⟨es ++ [.invoked c₁.sources.length], _, by rw [← List.append_assoc, ← hlog]; rfl,
        by rw [← hthreads]; rfl, hrun⟩
    · exact ⟨es, _, hlog, by rw [← hthreads]; rfl, hk'⟩
  | set hset hlock =>
    have hk' := hset.setOrder ho
    cases hset.move hlock with
    | value => exact ⟨_, _, rfl, rfl, settle_setOrder hk'⟩
    | exception => exact ⟨_, _, rfl, rfl, settle_setOrder hk'⟩
    | ignored => exact ⟨_, _, rfl, rfl, hk'.append _⟩
    | already =>
      exact ⟨_, _, List.append_assoc .., rfl, raise_setOrder _ ((hk'.append _).append _)⟩
    | built => exact ⟨_, _, List.append_assoc .., rfl, raise_setOrder _ ((hk'.append _).append _)⟩
  | wait hw => exact waited hw ho
  | get hw => exact waited hw ho.2
  | dec hd =>
    unfold execDec at hd
    split at hd
    · cases hd
    · split at hd
      · cases hd
        exact ⟨[], _, none, rfl, trivial, ho.2⟩
      · cases hd
        exact ⟨[], _, none, rfl, ho.2⟩
  | signal => exact ⟨[], _, none, rfl, ho.2⟩
  | @run _ st i kont cs k =>
    have hloop : SetOrder (c.log ++ [.invoked i]) (.drain st cs :: k) :=
      ⟨WasSet.append ho.1 _, ho.2.append _⟩
    exact ⟨_, _, rfl, rfl, hloop.run i kont⟩
  | throw_ => exact ⟨_, _, rfl, rfl, raise_setOrder _ (ho.2.append _)⟩
  | fault => exact ⟨[], k, none, stay.symm, ho⟩

theorem step_setOrder {c c' : Config α ε} {e : Nat × Action α ε} (hg : Good c)
    (h : ∀ k ∈ c.threads, SetOrder c.log k) (hs : step c e = some c') :
    ∀ k ∈ c'.threads, SetOrder c'.log k := by
  obtain ⟨-, k, hk, hm⟩ := step_moves hs
  obtain ⟨es, k', hlog, ht, hk'⟩ := moves_setOrder hg hk hm (h k (List.mem_of_getElem? hk))
  intro k₁ hk₁
  rw [ht] at hk₁
  rcases List.mem_or_eq_of_mem_set hk₁ with hk₁ | rfl
  · rw [hlog]
    exact (h k₁ hk₁).append es
  · exact hk'

theorem reach_setOrder {ok : Config α ε → Nat × Action α ε → Prop} {n : Nat} {c : Config α ε}
    (hok : ∀ c e, ok c e → NonNull c e) (h : Reach step ok (init α ε n) c) :
    ∀ k ∈ c.threads, SetOrder c.log k := by
  refine h.invariant_on (P := fun c => ∀ k ∈ c.threads, SetOrder c.log k)
    (fun _ hr => reach_good hok hr) ?_ (fun _ _ _ hg hc _ hs => step_setOrder hg hc hs)
  intro k hk
  rw [List.eq_of_mem_replicate hk]
  exact ⟨trivial, trivial⟩

/-! ## No circle of waiting threads -/

/-- The thread waits for a state that is not ready, or whose setter still loops. -/
def WaitsFor (c : Config α ε) (st : StateId) : Prop :=
  ∃ g k, .waiting st g :: k ∈ c.threads ∧ (Ready c st → ∃ cs, InStack c (.drain st cs))

/-- The thread in which the setter of `st` loops waits for `st'`. -/
def HeldBy (c : Config α ε) (st st' : StateId) : Prop :=
  ∃ g k cs, .waiting st' g :: k ∈ c.threads ∧ .drain st cs ∈ k

theorem HeldBy.was_set {c : Config α ε} (ho : ∀ k ∈ c.threads, SetOrder c.log k)
    {st st' : StateId} (h : HeldBy c st st') : WasSet c.log st := by
  obtain ⟨g, k, cs, hk, hd⟩ := h
  exact (ho _ hk).was_set (List.mem_cons_of_mem _ hd)

/-- A setter that waits for a state that was set is older than that state. -/
theorem HeldBy.findIdx_lt {c : Config α ε} (ho : ∀ k ∈ c.threads, SetOrder c.log k)
    {st st' : StateId} (h : HeldBy c st st') (hset : WasSet c.log st') :
    c.log.findIdx (isStore st) < c.log.findIdx (isStore st') := by
  obtain ⟨g, k, cs, hk, hd⟩ := h
  exact ((ho _ hk).1 st cs hd).findIdx_lt hset

/-- Along a chain of waiting setters the states were set later and later. -/
theorem findIdx_lt_of_chain {c : Config α ε} (ho : ∀ k ∈ c.threads, SetOrder c.log k)
    {st st' : StateId} (h : Relation.TransGen (HeldBy c) st st') (hset : WasSet c.log st') :
    c.log.findIdx (isStore st) < c.log.findIdx (isStore st') := by
  induction h with
  | single h => exact h.findIdx_lt ho hset
  | tail _ hlast ih =>
    have hfirst := ih (hlast.was_set ho)
    exact Nat.lt_trans hfirst (hlast.findIdx_lt ho hset)

/-- No setter waits, through any number of setters that wait, for itself. -/
theorem no_circle_of_waits {c : Config α ε} (ho : ∀ k ∈ c.threads, SetOrder c.log k)
    (st : StateId) : ¬ Relation.TransGen (HeldBy c) st st := by
  intro h
  obtain ⟨st', hfirst, -⟩ := Relation.TransGen.head'_iff.mp h
  exact Nat.lt_irrefl _ (findIdx_lt_of_chain ho h (hfirst.was_set ho))

/-- When every thread whose setter still loops waits too, a chain of waiting setters leads from
each state that is waited for to one that no setter has set. -/
theorem wait_leads_to_pending {c : Config α ε} (ho : ∀ k ∈ c.threads, SetOrder c.log k)
    (hloop : ∀ k ∈ c.threads, ∀ st cs, .drain st cs ∈ k →
      ∃ st' g k', k = .waiting st' g :: k' ∧ WaitsFor c st') {st : StateId}
    (hw : WaitsFor c st) :
    ∃ st', Relation.ReflTransGen (HeldBy c) st st' ∧ WaitsFor c st' ∧ ¬ Ready c st' := by
  by_cases hr : Ready c st
  · obtain ⟨g, k, hk, hdrain⟩ := hw
    obtain ⟨cs, k₁, hk₁, hd⟩ := hdrain hr
    obtain ⟨st₁, g₁, k₁', rfl, hw₁⟩ := hloop k₁ hk₁ st cs hd
    have hheld : HeldBy c st st₁ := ⟨g₁, k₁', cs, hk₁, by simpa using hd⟩
    by_cases hr₁ : Ready c st₁
    · have hset : WasSet c.log st₁ := by
        obtain ⟨_, _, -, hdrain₁⟩ := hw₁
        obtain ⟨cs₁, k₂, hk₂, hd₂⟩ := hdrain₁ hr₁
        exact (ho _ hk₂).was_set hd₂
      have hlt := hheld.findIdx_lt ho hset
      have hlen := List.findIdx_lt_length_of_exists hset
      obtain ⟨st', hchain, hpending⟩ := wait_leads_to_pending ho hloop hw₁
      exact ⟨st', hchain.head hheld, hpending⟩
    · exact ⟨st₁, .single hheld, hw₁, hr₁⟩
  · exact ⟨st, .refl, hw, hr⟩
termination_by c.log.length - c.log.findIdx (isStore st)

end ltl.futures
