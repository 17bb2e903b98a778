-- What a step leaves where it is: it changes the top of one stack, and a
-- continuation that a state holds goes to the loop of a setter and from there
-- to a call. So work that is somewhere can be followed from step to step.
import Ltl.ExactlyOnce

open ltl.future_state runs

namespace ltl.futures

variable {α ε : Type}

/-! ## The stacks -/

/-- Only a step that finds the call on top of its stack changes it. The others take what a `get`
above them delivers. -/
def Frame.rests : Frame α ε → Bool
  | .get_all _ _ _ => false
  | .set_got _ => false
  | _ => true

/-- What is under the top of `k` is in `k'` too. -/
def Keeps (k k' : List (Frame α ε)) : Prop := ∀ f, f.rests = true → f ∈ k.tail → f ∈ k'

theorem deliver_keeps {r : Except (Exception ε) (Value α)} {k : List (Frame α ε)} {f : Frame α ε}
    (hf : f.rests = true) (hin : f ∈ k) : f ∈ deliver r k := by
  unfold deliver
  split
  · rcases List.mem_cons.mp hin with rfl | hin
    · simp [Frame.rests] at hf
    · split <;> simp [hin]
  · rcases List.mem_cons.mp hin with rfl | hin
    · simp [Frame.rests] at hf
    · simp [hin]
  · exact hin

theorem waited_keeps {st : StateId} {g : Bool} {k : List (Frame α ε)} {f : Frame α ε}
    (hin : f ∈ k) : f ∈ waited st g k := by
  unfold waited
  split
  · exact List.mem_cons_of_mem _ hin
  · exact hin

theorem keeps_of_mem {k k' : List (Frame α ε)} (h : ∀ f ∈ k, f ∈ k') : Keeps k k' :=
  fun f _ hin => h f (List.mem_of_mem_tail hin)

theorem keeps_of_tail {f : Frame α ε} {k k' : List (Frame α ε)} (h : ∀ f ∈ k, f ∈ k') :
    Keeps (f :: k) k' := fun f _ hin => h f hin

theorem Local.keeps {c : Config α ε} {k k' : List (Frame α ε)} (h : Local c k k') :
    Keeps k k' := by
  cases h with
  | stay => exact keeps_of_mem (fun _ h => h)
  | woken s hs hb => exact keeps_of_tail (fun f hin => waited_keeps hin)
  | read => exact fun f hf hin => deliver_keeps hf hin
  | _ => exact keeps_of_tail (fun f hin => by simp [hin])

theorem Adds.keeps {c c₁ : Config α ε} {a : Action α ε} {k k' : List (Frame α ε)} {st : StateId}
    {kont : Cont} (h : Adds c a k c₁ st kont k') : Keeps k k' := by
  cases h <;> exact keeps_of_tail (fun f hin => by simp [hin])

theorem Waits.keeps {k k' : List (Frame α ε)} {st : StateId} {g : Bool} (h : Waits k st g k') :
    ∀ f ∈ k.tail, f ∈ k' := by
  cases h with
  | wait => exact fun f hin => List.mem_cons_of_mem _ hin
  | get => exact fun f hin => hin

/-- The stacks after a step of thread `t`. -/
structure StackMove (c c' : Config α ε) (t : Nat) (k k' : List (Frame α ε)) : Prop where
  top : c'.threads[t]? = some k'
  others : ∀ j, j ≠ t → c'.threads[j]? = c.threads[j]?
  keeps : Keeps k k'

theorem StackMove.of_set {c c' : Config α ε} {t : Nat} {k k' : List (Frame α ε)}
    (hk : c.threads[t]? = some k) (ht : c'.threads = c.threads.set t k') (hkeep : Keeps k k') :
    StackMove c c' t k k' := by
  refine ⟨?_, fun j hj => ?_, hkeep⟩
  · rw [ht, List.getElem?_set_self (List.getElem?_eq_some_iff.mp hk).1]
  · rw [ht, List.getElem?_set_ne (Ne.symm hj)]

theorem StackMove.of_eq {c c' : Config α ε} {t : Nat} {k : List (Frame α ε)}
    (hk : c.threads[t]? = some k) (ht : c'.threads = c.threads) : StackMove c c' t k k :=
  ⟨by rw [ht, hk], fun j _ => by rw [ht], keeps_of_mem (fun _ h => h)⟩

/-- A step changes the top of the stack of its thread and no other stack. -/
theorem calm_stack {c c' : Config α ε} {t : Nat} {k : List (Frame α ε)}
    (hk : c.threads[t]? = some k) (h : Calm c t k c') : ∃ k', StackMove c c' t k k' := by
  cases h with
  | local_ hl => exact ⟨_, .of_set hk rfl hl.keeps⟩
  | promise => exact ⟨_, .of_eq hk rfl⟩
  | made_ready hk' =>
    refine ⟨_, .of_set hk rfl (keeps_of_mem (fun f hin => ?_))⟩
    rcases hk' with rfl | rfl
    · exact hin
    · exact List.mem_cons_of_mem _ hin
  | when_all_ready hfs hk' =>
    refine ⟨_, .of_set hk rfl (keeps_of_mem (fun f hin => List.mem_cons_of_mem _ ?_))⟩
    rcases hk' with rfl | rfl
    · exact hin
    · exact List.mem_cons_of_mem _ hin
  | stored h hs hr => exact ⟨_, .of_set hk (by rw [← (h.left 0).1]; rfl) h.keeps⟩
  | run_now h hs hr =>
    refine ⟨_, .of_set hk (by rw [← (h.left 0).1]; rfl) (fun f hf hin => ?_)⟩
    simp [h.keeps f hf hin]
  | waited h hs hr => exact ⟨_, .of_set hk rfl (fun f _ hin => waited_keeps (h.keeps f hin))⟩
  | first_wait h hs hr hb =>
    exact ⟨_, .of_set hk rfl (fun f _ hin => List.mem_cons_of_mem _ (h.keeps f hin))⟩
  | wait h => exact ⟨_, .of_set hk rfl (fun f _ hin => List.mem_cons_of_mem _ (h.keeps f hin))⟩
  | dec hn hk' =>
    refine ⟨_, .of_set hk rfl (keeps_of_tail (fun f hin => ?_))⟩
    rcases hk' with ⟨-, rfl⟩ | ⟨-, rfl⟩ <;> simp [hin]
  | fault => exact ⟨_, .of_eq hk rfl⟩
  | _ => exact ⟨_, .of_set hk rfl (keeps_of_tail (fun f hin => by simp [hin]))⟩

/-- A call stays in its stack until a step finds it on top. -/
theorem calm_keeps {c c' : Config α ε} {t : Nat} {k : List (Frame α ε)} {f : Frame α ε}
    (hk : c.threads[t]? = some k) (h : Calm c t k c') (hf : f.rests = true) (hin : InStack c f) :
    InStack c' f ∨ ∃ k₀, k = f :: k₀ := by
  obtain ⟨k', hm⟩ := calm_stack hk h
  obtain ⟨k₁, hk₁, hfk⟩ := hin
  obtain ⟨j, hj⟩ := List.mem_iff_getElem?.mp hk₁
  by_cases hjt : j = t
  · subst hjt
    rw [hk] at hj
    cases hj
    cases k with
    | nil => cases hfk
    | cons g k₀ =>
      rcases List.mem_cons.mp hfk with rfl | hfk
      · exact Or.inr ⟨k₀, rfl⟩
      · exact Or.inl ⟨k', List.mem_of_getElem? hm.top, hm.keeps f hf hfk⟩
  · exact Or.inl ⟨k₁, List.mem_of_getElem? ((hm.others j hjt).trans hj), hfk⟩

theorem inStack_top {c : Config α ε} {t : Nat} {f : Frame α ε} {k : List (Frame α ε)}
    (h : c.threads[t]? = some (f :: k)) : InStack c f :=
  ⟨_, List.mem_of_getElem? h, List.mem_cons_self⟩

/-- The loops: of a setter over its continuations, and of `when_all_ready` over its futures. -/
def Frame.loop : Frame α ε → Bool
  | .drain _ _ => true
  | .register _ _ => true
  | _ => false

/-- A loop that a step starts or moves on. -/
inductive Loops (c : Config α ε) (k : List (Frame α ε)) : Frame α ε → Prop where
  | settled (st) (s : State α ε) (hs : c.states[st]? = some s) :
      Loops c k (.drain st s.continuations_)
  | run (st p cs k₀) (hk : k = .drain st (p :: cs) :: k₀) : Loops c k (.drain st cs)
  | next (n f fs k₀) (hk : k = .register n (f :: fs) :: k₀) : Loops c k (.register n fs)
  | started (fs) : Loops c k (.register c.counters.length fs)

theorem inStack_of_set {c c' : Config α ε} {t : Nat} {l : List (Frame α ε)} {f : Frame α ε}
    (ht : c'.threads = c.threads.set t l) (h : InStack c' f) : f ∈ l ∨ InStack c f := by
  obtain ⟨k₁, hk₁, hf⟩ := h
  rw [ht] at hk₁
  rcases List.mem_or_eq_of_mem_set hk₁ with hk₁ | rfl
  · exact Or.inr ⟨k₁, hk₁, hf⟩
  · exact Or.inl hf

theorem mem_of_loop {f g : Frame α ε} {k : List (Frame α ε)} (hf : f.loop = true)
    (hg : g.loop = false) (h : f ∈ g :: k) : f ∈ k := by
  rcases List.mem_cons.mp h with rfl | h
  · rw [hg] at hf
    cases hf
  · exact h

theorem deliver_loop {r : Except (Exception ε) (Value α)} {k : List (Frame α ε)} {f : Frame α ε}
    (hf : f.loop = true) (h : f ∈ deliver r k) : f ∈ k := by
  unfold deliver at h
  split at h
  · split at h <;> exact List.mem_cons_of_mem _ (mem_of_loop hf rfl h)
  · exact List.mem_cons_of_mem _ (mem_of_loop hf rfl h)
  · exact h

theorem waited_loop {st : StateId} {g : Bool} {k : List (Frame α ε)} {f : Frame α ε}
    (hf : f.loop = true) (h : f ∈ waited st g k) : f ∈ k := by
  unfold waited at h
  split at h
  · exact mem_of_loop hf rfl h
  · exact h

theorem Local.loop {c : Config α ε} {k k' : List (Frame α ε)} {f : Frame α ε}
    (h : Local c k k') (hf : f.loop = true) (hin : f ∈ k') : f ∈ k ∨ Loops c k f := by
  cases h with
  | stay => exact Or.inl hin
  | counted =>
    rcases List.mem_cons.mp (mem_of_loop hf rfl hin) with rfl | hin
    · exact Or.inr (.next _ _ _ _ rfl)
    · exact Or.inl (List.mem_cons_of_mem _ hin)
  | woken s hs hb => exact Or.inl (List.mem_cons_of_mem _ (waited_loop hf hin))
  | read => exact Or.inl (List.mem_cons_of_mem _ (deliver_loop hf hin))
  | _ => cases f <;> simp_all [Frame.loop]

theorem Adds.loop {c c₁ : Config α ε} {a : Action α ε} {k k' : List (Frame α ε)} {st : StateId}
    {kont : Cont} {f : Frame α ε} (h : Adds c a k c₁ st kont k') (hf : f.loop = true)
    (hin : f ∈ k') : f ∈ k ∨ Loops c k f := by
  cases h with
  | register =>
    rcases List.mem_cons.mp hin with rfl | hin
    · exact Or.inr (.next _ _ _ _ rfl)
    · exact Or.inl (List.mem_cons_of_mem _ hin)
  | unwrap_outer => exact Or.inl (List.mem_cons_of_mem _ (mem_of_loop hf rfl hin))
  | when_all => exact Or.inl (List.mem_cons_of_mem _ hin)
  | _ => exact Or.inl hin

/-- A loop that is in a stack was there before, or this step starts it or moves it on. -/
theorem calm_loops {c c' : Config α ε} {t : Nat} {k : List (Frame α ε)} {f : Frame α ε}
    (hk : c.threads[t]? = some k) (h : Calm c t k c') (hf : f.loop = true) (hin : InStack c' f) :
    InStack c f ∨ Loops c k f := by
  have kept : ∀ {k' : List (Frame α ε)}, c'.threads = c.threads.set t k' →
      (f ∈ k' → f ∈ k ∨ Loops c k f) → InStack c f ∨ Loops c k f := by
    intro k' ht hnew
    rcases inStack_of_set ht hin with hin | hin
    · exact (hnew hin).imp_left (fun hin => ⟨k, List.mem_of_getElem? hk, hin⟩)
    · exact Or.inl hin
  have settled : ∀ {i s s' allow} {k' : List (Frame α ε)}, c.states[i]? = some s →
      c' = settle c t i allow s s' k' → (f ∈ k' → f ∈ k) → InStack c f ∨ Loops c k f := by
    intro i s s' allow k' hs hc hk'
    subst hc
    have ht : (settle c t i allow s s' k').threads =
        c.threads.set t (.drain i s.continuations_ :: k') := rfl
    refine kept ht (fun hin => ?_)
    rcases List.mem_cons.mp hin with rfl | hin
    · exact Or.inr (.settled i s hs)
    · exact Or.inl (hk' hin)
  cases h with
  | local_ hl => exact kept rfl (fun hin => hl.loop hf hin)
  | promise => exact Or.inl hin
  | made_ready hk' =>
    refine kept rfl (fun hin => Or.inl ?_)
    rcases hk' with rfl | rfl
    · exact hin
    · exact mem_of_loop hf rfl hin
  | when_all_ready hfs hk' =>
    refine kept rfl (fun hin => ?_)
    rcases List.mem_cons.mp hin with rfl | hin
    · exact Or.inr (.started _)
    · rcases hk' with rfl | rfl
      · exact Or.inl hin
      · exact Or.inl (mem_of_loop hf rfl hin)
  | stored h hs hr => exact kept (by rw [← (h.left 0).1]; rfl) (fun hin => h.loop hf hin)
  | run_now h hs hr =>
    exact kept (by rw [← (h.left 0).1]; rfl)
      (fun hin => h.loop hf (mem_of_loop hf rfl (mem_of_loop hf rfl hin)))
  | fulfilled hp hs hr hs' => exact settled hs rfl (fun hin => hin)
  | refused hr => exact kept rfl (fun hin => Or.inl hin)
  | set_value hs hr =>
    exact settled hs rfl (fun hin => List.mem_cons_of_mem _ (mem_of_loop hf rfl hin))
  | built => exact kept rfl (fun hin => Or.inl (List.mem_cons_of_mem _ (mem_of_loop hf rfl hin)))
  | set_exception hs hr => exact settled hs rfl (fun hin => List.mem_cons_of_mem _ hin)
  | set_prm hs hr => exact settled hs rfl (fun hin => List.mem_cons_of_mem _ hin)
  | waited h hs hr =>
    refine kept rfl (fun hin => Or.inl ?_)
    cases h with
    | wait => exact waited_loop hf hin
    | get => exact List.mem_cons_of_mem _ (waited_loop hf hin)
  | first_wait h hs hr hb =>
    refine kept rfl (fun hin => Or.inl ?_)
    cases h with
    | wait => exact mem_of_loop hf rfl hin
    | get => exact List.mem_cons_of_mem _ (mem_of_loop hf rfl hin)
  | wait h =>
    refine kept rfl (fun hin => Or.inl ?_)
    cases h with
    | wait => exact mem_of_loop hf rfl hin
    | get => exact List.mem_cons_of_mem _ (mem_of_loop hf rfl hin)
  | dec hn hk' =>
    refine kept rfl (fun hin => Or.inl (List.mem_cons_of_mem _ ?_))
    rcases hk' with ⟨-, rfl⟩ | ⟨-, rfl⟩
    · exact mem_of_loop hf rfl hin
    · exact hin
  | signal hs => exact kept rfl (fun hin => Or.inl (List.mem_cons_of_mem _ hin))
  | run =>
    refine kept rfl (fun hin => ?_)
    rcases List.mem_cons.mp (mem_of_loop hf rfl (mem_of_loop hf rfl hin)) with rfl | hin
    · exact Or.inr (.run _ _ _ _ rfl)
    · exact Or.inl (List.mem_cons_of_mem _ hin)
  | fault => exact Or.inl hin

/-! ## The continuations -/

/-- The state `st` holds the continuation `p`. -/
def Stored (c : Config α ε) (st : StateId) (p : Id × Cont) : Prop :=
  ∃ s, c.states[st]? = some s ∧ p ∈ s.continuations_

/-- The loop of a setter of `st` is still to call `p`. -/
def Draining (c : Config α ε) (st : StateId) (p : Id × Cont) : Prop :=
  ∃ cs, InStack c (.drain st cs) ∧ p ∈ cs

/-- A state that has still to be set is not ready. -/
theorem Owned.not_ready {c : Config α ε} (ho : Owned c) {st : StateId} (hpos : 0 < owners c st) :
    ¬ Ready c st := by
  rintro ⟨s, hs, hready⟩
  obtain ⟨s', hs', hpend⟩ := ho.pending st hpos
  rw [hs] at hs'
  cases hs'
  rw [hready] at hpend
  cases hpend

theorem Stored.not_ready {c : Config α ε} (hg : Good c) {st : StateId} {p : Id × Cont}
    (h : Stored c st p) : ¬ Ready c st := by
  rintro ⟨s, hs, hready⟩
  obtain ⟨s', hs', hp⟩ := h
  rw [hs] at hs'
  cases hs'
  rw [(hg.states st s hs).drained hready] at hp
  cases hp

/-- Where the continuations of `st` go in a step that changes the states as `c'` says. -/
def Moved (c c' : Config α ε) : Prop :=
  ∀ st p, Stored c st p → Stored c' st p ∨ Draining c' st p

theorem moved_of_append {c c' : Config α ε} (l : List (State α ε))
    (hs : c'.states = c.states ++ l) : Moved c c' := by
  rintro st p ⟨s, hst, hp⟩
  exact Or.inl ⟨s, by rw [hs, List.getElem?_append_left (List.getElem?_eq_some_iff.mp hst).1, hst],
    hp⟩

theorem moved_of_eq {c c' : Config α ε} (hs : c'.states = c.states) : Moved c c' :=
  moved_of_append [] (by rw [hs, List.append_nil])

/-- A change of one state that keeps its continuations. -/
theorem moved_of_set {c c' : Config α ε} {i : StateId} {s u : State α ε}
    (hi : c.states[i]? = some s) (hs : c'.states = c.states.set i u)
    (hkeep : ∀ p ∈ s.continuations_, p ∈ u.continuations_) : Moved c c' := by
  rintro st p ⟨s', hst, hp⟩
  by_cases hne : i = st
  · subst hne
    rw [hi] at hst
    cases hst
    exact Or.inl ⟨u, by rw [hs, List.getElem?_set_self (List.getElem?_eq_some_iff.mp hi).1],
      hkeep p hp⟩
  · exact Or.inl ⟨s', by rw [hs, List.getElem?_set_ne hne, hst], hp⟩

theorem settle_moved {c : Config α ε} {t : Nat} {i : StateId} {allow : Bool} {s s' : State α ε}
    {k k' : List (Frame α ε)} (hk : c.threads[t]? = some k) (hi : c.states[i]? = some s) :
    Moved c (settle c t i allow s s' k') := by
  rintro st p ⟨s₀, hst, hp⟩
  by_cases hne : i = st
  · subst hne
    rw [hi] at hst
    cases hst
    exact Or.inr ⟨s.continuations_, inStack_put (c := c) hk (by simp), hp⟩
  · refine Or.inl ⟨s₀, ?_, hp⟩
    exact (update_ne (c := c) { s' with continuations_ := [] } hne).trans hst

theorem Adds.new_states {c c₁ : Config α ε} {a : Action α ε} {k k' : List (Frame α ε)}
    {st : StateId} {kont : Cont} (h : Adds c a k c₁ st kont k') :
    ∃ l, c₁.states = c.states ++ l ∧ ∀ s ∈ l, s.continuations_ = [] := by
  cases h with
  | then_ => exact ⟨[_], rfl, by simp⟩
  | unwrap => exact ⟨[_, _], List.append_assoc _ _ _, by simp⟩
  | when_all => exact ⟨[_], rfl, by simp⟩
  | _ => exact ⟨[], (List.append_nil _).symm, by simp⟩

/-- A continuation stays with its state until a setter of the state takes it. -/
theorem calm_moved {c c' : Config α ε} {t : Nat} {k : List (Frame α ε)}
    (hk : c.threads[t]? = some k) (h : Calm c t k c') : Moved c c' := by
  cases h with
  | promise => exact moved_of_append [_] rfl
  | made_ready => exact moved_of_append [_] rfl
  | when_all_ready => exact moved_of_append [_] rfl
  | stored h hs hr =>
    rename_i a c₁ st s kont k'
    obtain ⟨l, hl, -⟩ := h.new_states
    rintro st' p ⟨s', hst, hp⟩
    have hst₁ : c₁.states[st']? = some s' := by
      rw [hl, List.getElem?_append_left (List.getElem?_eq_some_iff.mp hst).1, hst]
    exact moved_of_set (c := c₁) hs rfl (fun p hp => List.mem_append_left _ hp) st' p
      ⟨s', hst₁, hp⟩
  | run_now h hs hr =>
    obtain ⟨l, hl, -⟩ := h.new_states
    exact moved_of_append l hl
  | fulfilled hp hs hr hs' => exact settle_moved hk hs
  | set_value hs hr => exact settle_moved hk hs
  | set_exception hs hr => exact settle_moved hk hs
  | set_prm hs hr => exact settle_moved hk hs
  | first_wait h hs hr hb =>
    exact moved_of_set hs rfl (fun p hp => List.mem_append_left _ hp)
  | signal hs => exact moved_of_set hs rfl (fun p hp => hp)
  | _ => exact moved_of_eq rfl

/-- A step of thread `t`, with the stack `k`, registers a continuation on `st`, which is not
ready. -/
inductive Registers (c : Config α ε) (t : Nat) (k : List (Frame α ε)) (c' : Config α ε)
    (st : StateId) : Cont → Prop where
  | add {a c₁ s kont k'} (h : Adds c a k c₁ st kont k') (hs : c₁.states[st]? = some s)
      (hr : ready s = false) (hc : c' = registered c₁ t st s kont k') :
      Registers c t k c' st kont
  | wait {g s k'} (h : Waits k st g k') (hs : c.states[st]? = some s) (hr : ready s = false)
      (hb : s.block_ = none) (hc : c' = registered c t st { s with block_ := some false }
        (.signal st) (.waiting st g :: k')) : Registers c t k c' st (.signal st)

/-- What a state holds was there before, when the states are those of `c` and new ones. -/
theorem stored_of_append {c c' : Config α ε} {l : List (State α ε)} {st : StateId}
    {p : Id × Cont} (hs : c'.states = c.states ++ l) (hl : ∀ s ∈ l, s.continuations_ = [])
    (h : Stored c' st p) : Stored c st p := by
  obtain ⟨s, hst, hp⟩ := h
  rw [hs, List.getElem?_append] at hst
  split at hst
  · exact ⟨s, hst, hp⟩
  · rw [hl s (List.mem_of_getElem? hst)] at hp
    cases hp

/-- A change of one state, which holds what it held and perhaps `q`. -/
theorem stored_of_set {c c' : Config α ε} {i st : StateId} {s u : State α ε} {p : Id × Cont}
    (hi : c.states[i]? = some s) (hs : c'.states = c.states.set i u) (h : Stored c' st p) :
    Stored c st p ∨ (i = st ∧ p ∈ u.continuations_) := by
  obtain ⟨s', hst, hp⟩ := h
  rw [hs] at hst
  by_cases hne : i = st
  · subst hne
    rw [List.getElem?_set_self (List.getElem?_eq_some_iff.mp hi).1] at hst
    cases hst
    exact Or.inr ⟨rfl, hp⟩
  · rw [List.getElem?_set_ne hne] at hst
    exact Or.inl ⟨s', hst, hp⟩

/-- What the loop of a setter is still to call was there before, or its state held it. -/
theorem calm_drained {c c' : Config α ε} {t : Nat} {k : List (Frame α ε)} {st : StateId}
    {p : Id × Cont} (hk : c.threads[t]? = some k) (h : Calm c t k c') (hd : Draining c' st p) :
    Draining c st p ∨ Stored c st p := by
  obtain ⟨cs, hin, hp⟩ := hd
  rcases calm_loops hk h rfl hin with hin | hl
  · exact Or.inl ⟨cs, hin, hp⟩
  · cases hl with
    | settled st s hs => exact Or.inr ⟨s, hs, hp⟩
    | run st q cs k₀ hk' =>
      subst hk'
      exact Or.inl ⟨q :: cs, inStack_top hk, List.mem_cons_of_mem _ hp⟩

/-- What a state holds it held before, or it is registered in this step. -/
theorem calm_stored {c c' : Config α ε} {t : Nat} {k : List (Frame α ε)} (h : Calm c t k c')
    {st : StateId} {p : Id × Cont} (hst : Stored c' st p) :
    Stored c st p ∨ (p.1 = c.sources.length ∧ Registers c t k c' st p.2) := by
  have settled : ∀ {i s s' allow} {k' : List (Frame α ε)}, c.states[i]? = some s →
      Stored (settle c t i allow s s' k') st p → Stored c st p := by
    intro i s s' allow k' hs hst
    rcases stored_of_set hs rfl hst with hst | ⟨rfl, hp⟩
    · exact hst
    · cases hp
  cases h with
  | promise => exact Or.inl (stored_of_append (l := [_]) rfl (by simp) hst)
  | made_ready => exact Or.inl (stored_of_append (l := [_]) rfl (by simp) hst)
  | when_all_ready => exact Or.inl (stored_of_append (l := [_]) rfl (by simp) hst)
  | stored h hs hr =>
    rename_i a c₁ i s kont k'
    obtain ⟨l, hl, hnew⟩ := h.new_states
    rcases stored_of_set (c := c₁) hs rfl hst with hst | ⟨rfl, hp⟩
    · exact Or.inl (stored_of_append hl hnew hst)
    · rcases List.mem_append.mp hp with hp | hp
      · exact Or.inl (stored_of_append hl hnew ⟨s, hs, hp⟩)
      · rw [List.mem_singleton] at hp
        subst hp
        exact Or.inr ⟨by rw [(h.left 0).2.1], .add h hs hr rfl⟩
  | run_now h hs hr =>
    obtain ⟨l, hl, hnew⟩ := h.new_states
    exact Or.inl (stored_of_append hl hnew hst)
  | fulfilled hp hs hr hs' => exact Or.inl (settled hs hst)
  | set_value hs hr => exact Or.inl (settled hs hst)
  | set_exception hs hr => exact Or.inl (settled hs hst)
  | set_prm hs hr => exact Or.inl (settled hs hst)
  | first_wait h hs hr hb =>
    rcases stored_of_set hs rfl hst with hst | ⟨rfl, hp⟩
    · exact Or.inl hst
    · rcases List.mem_append.mp hp with hp | hp
      · exact Or.inl ⟨_, hs, hp⟩
      · rw [List.mem_singleton] at hp
        subst hp
        exact Or.inr ⟨rfl, .wait h hs hr hb rfl⟩
  | signal hs =>
    rcases stored_of_set hs rfl hst with hst | ⟨rfl, hp⟩
    · exact Or.inl hst
    · exact Or.inl ⟨_, hs, hp⟩
  | _ => exact Or.inl hst

/-- A continuation in the loop of a setter stays there until the loop calls it. -/
theorem calm_draining {c c' : Config α ε} {t : Nat} {k : List (Frame α ε)} {st : StateId}
    {p : Id × Cont} (hk : c.threads[t]? = some k) (h : Calm c t k c') (hd : Draining c st p) :
    Draining c' st p ∨ InStack c' (.exec p.2) := by
  obtain ⟨cs, hin, hp⟩ := hd
  rcases calm_keeps hk h rfl hin with hin' | ⟨k₀, rfl⟩
  · exact Or.inl ⟨cs, hin', hp⟩
  · cases h with
    | local_ hl =>
      cases hl with
      | stay => exact Or.inl ⟨cs, inStack_put hk (by simp), hp⟩
      | drained => cases hp
    | stored h => cases h
    | run_now h => cases h
    | waited h => cases h
    | first_wait h => cases h
    | wait h => cases h
    | run =>
      rename_i i kont cs
      rcases List.mem_cons.mp hp with rfl | hp
      · exact Or.inr (inStack_put (c := c) hk (by simp))
      · exact Or.inl ⟨cs, inStack_put (c := c) hk (by simp), hp⟩
    | fault h => cases h

end ltl.futures
