-- The law of single assignment: when no setter is given a null exception, one
-- setter of a state takes effect, its outcome stays, and nothing that waits
-- for the state runs or reads it before it is ready.
import Ltl.FutureLaws

open ltl.future_state runs

namespace ltl.futures

variable {α ε : Type}

/-- A setter is given a null `exception_ptr` only when its state is ready, where it throws. -/
def NonNull (c : Config α ε) (e : Nat × Action α ε) : Prop :=
  ∀ p, e.2 = .set_exception p none → Ready c p

/-! ## The invariant -/

/-- The state that the continuation refers to, when it is stored on `st`. -/
def Cont.on (st : StateId) : Cont → Prop
  | .invoke_and_set_value src _ _ => src = st
  | .call _ => True
  | .dec _ => True
  | .get_and_set_value _ f => f = st
  | .signal st' => st' = st

def ContOk (c : Config α ε) (st : StateId) (p : Id × Cont) : Prop :=
  c.sources[p.1]? = some st ∧ p.2.on st

/-- A ready state holds no continuation, and the block of a waiter is signalled only then. -/
structure StateOk (c : Config α ε) (st : StateId) (s : State α ε) : Prop where
  one : s.value_ = none ∨ s.exception_ = none
  drained : ready s = true → s.continuations_ = []
  signalled : s.block_ = some true → ready s = true
  conts : ∀ p ∈ s.continuations_, ContOk c st p

/-- What runs from a state, or reads it, finds it ready. -/
def FrameOk (c : Config α ε) : Frame α ε → Prop
  | .user (.callback src _ func) => Ready c src ∧ NextHasValue c src func
  | .drain st cs => Ready c st ∧ ∀ p ∈ cs, ContOk c st p
  | .exec (.invoke_and_set_value src _ _) => Ready c src
  | .exec (.signal st) => Ready c st
  | .exec (.get_and_set_value _ f) => Ready c f
  | .invoking i => ∃ st, c.sources[i]? = some st ∧ Ready c st
  | .reading st => Ready c st
  | _ => True

def StackOk (c : Config α ε) (k : List (Frame α ε)) : Prop := ∀ f ∈ k, FrameOk c f

def EntryOk (c : Config α ε) : Entry ε → Prop
  | .set st _ (.stored _) => Ready c st
  | .set st allow .already => Ready c st ∧ allow = true
  | .set st allow .ignored => Ready c st ∧ allow = false
  | .invoked i => ∃ st, c.sources[i]? = some st ∧ Ready c st
  | _ => True

structure Good (c : Config α ε) : Prop where
  states : ∀ (st : StateId) s, c.states[st]? = some s → StateOk c st s
  threads : ∀ k ∈ c.threads, StackOk c k
  log : ∀ e ∈ c.log, EntryOk c e
  fault : c.fault ≠ some .absent_value

@[simp] theorem stackOk_nil (c : Config α ε) : StackOk c [] := by simp [StackOk]

@[simp] theorem stackOk_cons (c : Config α ε) (f : Frame α ε) (k : List (Frame α ε)) :
    StackOk c (f :: k) ↔ FrameOk c f ∧ StackOk c k := by simp [StackOk]

/-! ## What grows keeps it -/

theorem ContOk.grows {c c' : Config α ε} (h : Grows c c') {st : StateId} {p : Id × Cont}
    (hp : ContOk c st p) : ContOk c' st p := ⟨h.sources _ _ hp.1, hp.2⟩

theorem StateOk.grows {c c' : Config α ε} (h : Grows c c') {st : StateId} {s : State α ε}
    (hs : StateOk c st s) : StateOk c' st s :=
  ⟨hs.one, hs.drained, hs.signalled, fun p hp => (hs.conts p hp).grows h⟩

theorem FrameOk.grows {c c' : Config α ε} (h : Grows c c') {f : Frame α ε} (hf : FrameOk c f) :
    FrameOk c' f := by
  cases f with
  | user b =>
    cases b with
    | callback src rs func =>
      refine ⟨h.ready hf.1, fun k hk => ?_⟩
      obtain ⟨v, hv⟩ := hf.2 k hk
      exact ⟨v, h.outcome hv⟩
    | main => trivial
    | fn f => trivial
  | drain st cs => exact ⟨h.ready hf.1, fun p hp => (hf.2 p hp).grows h⟩
  | exec kont =>
    cases kont with
    | invoke_and_set_value src rs func => exact h.ready hf
    | signal st => exact h.ready hf
    | get_and_set_value s f => exact h.ready hf
    | call f => trivial
    | dec n => trivial
  | invoking i =>
    obtain ⟨st, hi, hr⟩ := hf
    exact ⟨st, h.sources i st hi, h.ready hr⟩
  | reading st => exact h.ready hf
  | _ => trivial

theorem StackOk.grows {c c' : Config α ε} (h : Grows c c') {k : List (Frame α ε)}
    (hk : StackOk c k) : StackOk c' k := fun f hf => (hk f hf).grows h

theorem EntryOk.grows {c c' : Config α ε} (h : Grows c c') {e : Entry ε} (he : EntryOk c e) :
    EntryOk c' e := by
  cases e with
  | set st allow r =>
    cases r with
    | stored cs => exact h.ready he
    | already => exact ⟨h.ready he.1, he.2⟩
    | ignored => exact ⟨h.ready he.1, he.2⟩
    | built x => trivial
  | invoked i =>
    obtain ⟨st, hi, hr⟩ := he
    exact ⟨st, h.sources i st hi, h.ready hr⟩
  | _ => trivial

/-! ## The parts of a step -/

/-- The invariant does not look at the counters and the promises. -/
theorem Good.of_eq {c d : Config α ε} (h : Good c) (h1 : d.states = c.states)
    (h2 : d.threads = c.threads) (h3 : d.sources = c.sources) (h4 : d.log = c.log)
    (h5 : d.fault = c.fault) : Good d := by
  have hg : Grows c d := Grows.of_eq h1 h3
  refine ⟨fun st s hs => ?_, fun k hk => ?_, fun e he => ?_, by rw [h5]; exact h.fault⟩
  · rw [h1] at hs
    exact (h.states st s hs).grows hg
  · rw [h2] at hk
    exact (h.threads k hk).grows hg
  · rw [h4] at he
    exact (h.log e he).grows hg

theorem Good.put {c : Config α ε} (h : Good c) {t : Nat} {k : List (Frame α ε)}
    (hk : StackOk c k) : Good (c.put t k) := by
  have hg : Grows c (c.put t k) := Grows.of_eq rfl rfl
  refine ⟨fun st s hs => (h.states st s hs).grows hg, ?_, fun e he => (h.log e he).grows hg,
    h.fault⟩
  intro k' hk'
  rcases List.mem_or_eq_of_mem_set hk' with hk' | rfl
  · exact (h.threads k' hk').grows hg
  · exact hk.grows hg

theorem Good.note {c : Config α ε} (h : Good c) {l : List (Entry ε)}
    (he : ∀ e ∈ l, EntryOk c e) : Good (c.note l) := by
  have hg : Grows c (c.note l) := Grows.of_eq rfl rfl
  refine ⟨fun st s hs => (h.states st s hs).grows hg, fun k hk => (h.threads k hk).grows hg, ?_,
    h.fault⟩
  intro e hmem
  rcases List.mem_append.mp hmem with hmem | hmem
  · exact (h.log e hmem).grows hg
  · exact (he e hmem).grows hg

theorem Good.enroll {c : Config α ε} (h : Good c) (st : StateId) : Good (c.enroll st) := by
  have hg := grows_enroll c st
  exact ⟨fun st s hs => (h.states st s hs).grows hg, fun k hk => (h.threads k hk).grows hg,
    fun e he => (h.log e he).grows hg, h.fault⟩

/-- A state that is made holds no continuation yet. -/
theorem Good.alloc {c : Config α ε} (h : Good c) {s : State α ε} (hone : s.exception_ = none)
    (hc : s.continuations_ = []) (hb : s.block_ = none) : Good (c.alloc s) := by
  have hg := grows_alloc c s
  refine ⟨?_, fun k hk => (h.threads k hk).grows hg, fun e he => (h.log e he).grows hg, h.fault⟩
  intro st s' hs'
  simp only [Config.alloc, List.getElem?_append] at hs'
  split at hs'
  · exact (h.states st s' hs').grows hg
  · rw [List.getElem?_singleton] at hs'
    split at hs'
    · cases hs'
      exact ⟨Or.inr hone, fun _ => hc, fun hb' => by simp [hb] at hb',
        fun p hp => by simp [hc] at hp⟩
    · cases hs'

theorem Good.update {c : Config α ε} (h : Good c) {st : StateId} {s u : State α ε}
    (hs : c.states[st]? = some s)
    (hk : ready s = true → u.value_ = s.value_ ∧ u.exception_ = s.exception_)
    (hok : StateOk (c.update st u) st u) : Good (c.update st u) := by
  have hg := grows_update hs hk
  refine ⟨?_, fun k hk => (h.threads k hk).grows hg, fun e he => (h.log e he).grows hg, h.fault⟩
  intro st' t ht
  by_cases hst : st = st'
  · subst hst
    rw [update_self u hs] at ht
    cases ht
    exact hok
  · rw [update_ne u hst] at ht
    exact (h.states st' t ht).grows hg

theorem raise_ok (c : Config α ε) (x : Exception ε) (k : List (Frame α ε)) (hk : StackOk c k) :
    StackOk c (raise x k).2 ∧ ∀ e ∈ (raise x k).1, EntryOk c e := by
  induction k with
  | nil => simp [raise]
  | cons f k ih =>
    have hrest := ((stackOk_cons c f k).mp hk).2
    obtain ⟨ih1, ih2⟩ := ih hrest
    cases f with
    | user b => exact ⟨hk, by simp [raise]⟩
    | catch_ rs => exact ⟨by simp [raise, hrest, FrameOk], by simp [raise]⟩
    | try_set rs r => exact ⟨by simp [raise, hrest, FrameOk], by simp [raise]⟩
    | unwrap_try rs s => exact ⟨by simp [raise, hrest, FrameOk], by simp [raise]⟩
    | drain st cs => exact ⟨ih1, by simpa [raise, EntryOk] using ih2⟩
    | invoking i => exact ⟨ih1, by simpa [raise, EntryOk] using ih2⟩
    | _ => exact ⟨ih1, ih2⟩

theorem Good.throwTo {c : Config α ε} (h : Good c) {t : Nat} (x : Exception ε)
    {k : List (Frame α ε)} (hk : StackOk c k) : Good (throwTo c t x k) := by
  obtain ⟨h1, h2⟩ := raise_ok c x k hk
  exact (h.note h2).put (h1.grows (Grows.of_eq rfl rfl))

theorem deliver_ok {c : Config α ε} (r : Except (Exception ε) (Value α)) {k : List (Frame α ε)}
    (hk : StackOk c k) : StackOk c (deliver r k) := by
  unfold deliver
  split
  · split <;> simp_all [FrameOk]
  · simp_all [FrameOk]
  · exact hk

theorem Local.ok {c : Config α ε} (h : Good c) {k k' : List (Frame α ε)} (hl : Local c k k')
    (hk : StackOk c k) : StackOk c k' := by
  cases hl with
  | stay => exact hk
  | woken s hs hb =>
    rename_i st g k
    have hr : Ready c st := ⟨s, hs, (h.states st s hs).signalled hb⟩
    have hrest := ((stackOk_cons _ _ _).mp hk).2
    cases g
    · exact hrest
    · exact (stackOk_cons _ _ _).mpr ⟨hr, hrest⟩
  | read => exact deliver_ok _ ((stackOk_cons _ _ _).mp hk).2
  | get_called => exact (stackOk_cons _ _ _).mpr ⟨trivial, hk⟩
  | _ => simp_all [FrameOk]

theorem pending_elim {s : State α ε} {p : Prop} (hr : ready s = false) : ready s = true → p :=
  fun h => by simp [hr] at h

/-- What is stored in a state that is not ready is no null exception. -/
theorem exists_of_unready {c : Config α ε} {st : StateId} {s : State α ε}
    {x : Option (Exception ε)} (hs : c.states[st]? = some s) (hr : ready s = false)
    (hx : x = none → Ready c st) : ∃ y, x = some y := by
  apply Option.ne_none_iff_exists'.mp
  intro h
  obtain ⟨s', hs', hr'⟩ := hx h
  rw [hs] at hs'
  cases hs'
  rw [hr] at hr'
  cases hr'

theorem SetMove.good {c c' : Config α ε} {t : Nat} {a : Action α ε} {st : StateId}
    {allow : Bool} {k : List (Frame α ε)} (h : Good c)
    (hn : a = .set_exception st none → Ready c st) (hk : StackOk c k) (hm : SetMove c t a st allow k c') : Good c' := by
  have store : ∀ (s s' : State α ε), c.states[st]? = some s → ready s = false →
      s'.block_ = s.block_ → (s'.value_ = none ∨ s'.exception_ = none) → ready s' = true →
      Good (settle c t st allow s s' k) := by
    intro s s' hs hr hb hone hr'
    have hg := grows_update (u := { s' with continuations_ := [] }) hs (pending_elim hr)
    have hready : Ready (c.update st { s' with continuations_ := [] }) st :=
      ⟨_, update_self _ hs, hr'⟩
    have hu := h.update (u := { s' with continuations_ := [] }) hs (pending_elim hr)
      ⟨hone, fun _ => rfl, fun hb' => hr', by simp⟩
    have hput := (hu.note (l := [.set st allow (.stored (s.continuations_.map Prod.fst))])
      (by simpa [EntryOk] using hready)).put (t := t) (k := .drain st s.continuations_ :: k)
    refine hput ((stackOk_cons _ _ _).mpr ⟨⟨hready, fun p hp => ?_⟩, hk.grows hg⟩)
    exact ((h.states st s hs).conts p hp).grows hg
  cases hm with
  | value s w hs hr =>
    have hx : s.exception_ = none := by
      simp only [ready, Bool.or_eq_false_iff, Option.isSome_eq_false_iff,
        Option.isNone_iff_eq_none] at hr
      exact hr.2
    exact store s { s with value_ := some w } hs hr rfl (Or.inr hx) (by simp [ready])
  | exception s x hs hr hx =>
    have hv : s.value_ = none := by
      simp only [ready, Bool.or_eq_false_iff, Option.isSome_eq_false_iff,
        Option.isNone_iff_eq_none] at hr
      exact hr.1
    obtain ⟨y, rfl⟩ := exists_of_unready hs hr (fun h => hn (hx h))
    exact store s { s with exception_ := some y } hs hr rfl (Or.inl hv) (by simp [ready])
  | ignored s hs hr ha =>
    have hready : Ready c st := ⟨s, hs, hr⟩
    exact (h.note (by simp [EntryOk, hready, ha])).put (hk.grows (Grows.of_eq rfl rfl))
  | already s hs hr ha =>
    have hready : Ready c st := ⟨s, hs, hr⟩
    exact (h.note (by simp [EntryOk, hready, ha])).throwTo _ (hk.grows (Grows.of_eq rfl rfl))
  | built s x hs hr =>
    exact (h.note (by simp [EntryOk])).throwTo _ (hk.grows (Grows.of_eq rfl rfl))

/-- A continuation of a ready state may run. -/
theorem exec_ok {c : Config α ε} {st : StateId} {kont : Cont} (hr : Ready c st)
    (hon : kont.on st) : FrameOk c (.exec kont) := by
  cases kont with
  | invoke_and_set_value src rs func => exact hon ▸ hr
  | signal st' => exact hon ▸ hr
  | get_and_set_value s f => exact hon ▸ hr
  | call f => trivial
  | dec n => trivial

/-- A registration keeps the invariant when the new continuation refers to its state. -/
theorem lockedAdd_good {c c' : Config α ε} {t : Nat} {st : StateId} {kont : Cont}
    {k : List (Frame α ε)} (h : Good c) (hon : kont.on st) (hk : StackOk c k)
    (hl : lockedAdd c t st kont k = some c') : Good c' := by
  have hi : (c.enroll st).sources[c.sources.length]? = some st := by simp [Config.enroll]
  have hke := hk.grows (grows_enroll c st)
  have he := h.enroll st
  obtain ⟨s, hs, ⟨hr, rfl⟩ | ⟨hr, rfl⟩⟩ := lockedAdd.spec hl
  · have hready : Ready (c.enroll st) st := ⟨s, hs, hr⟩
    have hn := he.note (l := [.invoked c.sources.length]) (by simp [EntryOk, hi, hready])
    refine hn.put ?_
    have hg : Grows (c.enroll st) ((c.enroll st).note [.invoked c.sources.length]) :=
      Grows.of_eq rfl rfl
    have hall : StackOk (c.enroll st) (.exec kont :: .invoking c.sources.length :: k) := by
      simp only [stackOk_cons]
      exact ⟨exec_ok hready hon, ⟨st, hi, hready⟩, hke⟩
    exact hall.grows hg
  · have hold := h.states st s hs
    have hg := grows_enroll c st
    generalize hs' : ({ s with
      continuations_ := s.continuations_ ++ [(c.sources.length, kont)] } : State α ε) = s'
    have hgu := grows_update (c := c.enroll st) (u := s') hs (pending_elim hr)
    refine (he.update (c := c.enroll st) (u := s') hs (pending_elim hr) ?_).put (hke.grows hgu)
    subst hs'
    refine ⟨hold.one, ?_, hold.signalled, ?_⟩
    · intro hr'
      cases hr.symm.trans hr'
    · intro p hp
      rcases List.mem_append.mp hp with hp | hp
      · exact ((hold.conts p hp).grows hg).grows hgu
      · rw [List.mem_singleton] at hp
        subst hp
        exact ⟨hi, hon⟩

theorem lockedWait_good {c c' : Config α ε} {t : Nat} {st : StateId} {g : Bool}
    {k : List (Frame α ε)} (h : Good c) (hk : StackOk c k)
    (hl : lockedWait c t st g k = some c') : Good c' := by
  obtain ⟨s, hs, ⟨hr, rfl⟩ | ⟨hr, hb, rfl⟩ | ⟨hr, -, rfl⟩⟩ := lockedWait.spec hl
  · refine h.put ?_
    cases g
    · exact hk
    · exact (stackOk_cons _ _ _).mpr ⟨⟨s, hs, hr⟩, hk⟩
  · have hi : (c.enroll st).sources[c.sources.length]? = some st := by simp [Config.enroll]
    have hold := h.states st s hs
    have hg := grows_enroll c st
    generalize hs' : ({ s with
      block_ := some false
      continuations_ := s.continuations_ ++ [(c.sources.length, .signal st)] } : State α ε) = s'
    have hgu := grows_update (c := c.enroll st) (u := s') hs (pending_elim hr)
    have hwait : StackOk ((c.enroll st).update st s') (.waiting st g :: k) :=
      (stackOk_cons _ _ _).mpr ⟨trivial, (hk.grows hg).grows hgu⟩
    refine ((h.enroll st).update (c := c.enroll st) (u := s') hs (pending_elim hr) ?_).put hwait
    subst hs'
    refine ⟨hold.one, ?_, by simp, ?_⟩
    · intro hr'
      cases hr.symm.trans hr'
    · intro p hp
      rcases List.mem_append.mp hp with hp | hp
      · exact ((hold.conts p hp).grows hg).grows hgu
      · rw [List.mem_singleton] at hp
        subst hp
        exact ⟨hi, rfl⟩
  · exact h.put ((stackOk_cons _ _ _).mpr ⟨trivial, hk⟩)

/-- The states that a registration makes first, and the continuation that it registers. -/
theorem Adds.good {c c₁ : Config α ε} {a : Action α ε} {k k' : List (Frame α ε)}
    {st : StateId} {kont : Cont} (h : Good c) (hk : StackOk c k) (ha : Adds c a k c₁ st kont k') :
    Good c₁ ∧ kont.on st ∧ StackOk c₁ k' := by
  have hk' : StackOk c k' := by
    cases ha <;> simp_all [FrameOk]
  refine ⟨?_, ?_, hk'.grows ha.grows⟩
  · cases ha with
    | then_ => exact h.alloc rfl rfl rfl
    | continue_with => exact h
    | unwrap => exact ((h.alloc rfl rfl rfl).alloc rfl rfl rfl).note (by simp [EntryOk])
    | unwrap_outer => exact h
    | register => exact h
    | when_all => exact h.alloc rfl rfl rfl
  · cases ha <;> simp [Cont.on]

theorem Sets.ok {c : Config α ε} {a : Action α ε} {k k' : List (Frame α ε)} {st : StateId}
    {allow : Bool} {f : Setter α ε} (h : Sets c a k st allow f k') (hk : StackOk c k) :
    StackOk c k' := by
  cases h <;> simp_all [FrameOk]

theorem execDec_good {c c' : Config α ε} {t : Nat} {n : CounterId} {k : List (Frame α ε)}
    (h : Good c) (hk : StackOk c k) (hs : execDec c t n k = some c') : Good c' := by
  unfold execDec at hs
  split at hs
  · cases hs
  · rename_i ctr hctr
    have hc := h.of_eq (d := { c with
      counters := c.counters.set n { ctr with count := ctr.count - 1 } }) rfl rfl rfl rfl rfl
    dsimp only at hs
    split at hs
    · cases hs
      exact hc.put ((stackOk_cons _ _ _).mpr ⟨trivial, hk.grows (Grows.of_eq rfl rfl)⟩)
    · cases hs
      exact hc.put (hk.grows (Grows.of_eq rfl rfl))

/-- A step with no null exception keeps the invariant. -/
theorem step_good {c c' : Config α ε} {e : Nat × Action α ε} (h : Good c) (hn : NonNull c e)
    (hs : step c e = some c') : Good c' := by
  obtain ⟨t, a⟩ := e
  obtain ⟨hf, k, hk, hm⟩ := step_moves hs
  have hok : StackOk c k := h.threads k (List.mem_of_getElem? hk)
  cases hm with
  | local_ hl => exact h.put (hl.ok h hok)
  | promise =>
    rename_i q b k
    exact (h.alloc (s := { await_queue_ := q }) rfl rfl rfl).of_eq rfl rfl rfl rfl rfl
  | made_ready hk' =>
    refine (h.alloc rfl rfl rfl).put (StackOk.grows (grows_alloc c _) ?_)
    rcases hk' with rfl | rfl
    · exact hok
    · exact (stackOk_cons _ _ _).mpr ⟨trivial, hok⟩
  | when_all_ready hfs hk' =>
    rename_i b fs q k k'
    have hg := grows_alloc c { await_queue_ := q }
    have hall : StackOk c (.register c.counters.length fs :: k') := by
      rcases hk' with rfl | rfl
      · exact (stackOk_cons _ _ _).mpr ⟨trivial, hok⟩
      · exact (stackOk_cons _ _ _).mpr ⟨trivial, (stackOk_cons _ _ _).mpr ⟨trivial, hok⟩⟩
    exact (((h.alloc (s := { await_queue_ := q }) rfl rfl rfl).put (hall.grows hg)).of_eq
      rfl rfl rfl rfl rfl)
  | add hadd hs' =>
    obtain ⟨h1, h2, h3⟩ := hadd.good h hok
    exact lockedAdd_good h1 h2 h3 hs'
  | set hset hs' =>
    exact (hset.move hs').good h (fun ha => hn _ ha) (hset.ok hok)
  | wait hs' => exact lockedWait_good h hok hs'
  | get hs' => exact lockedWait_good h ((stackOk_cons _ _ _).mp hok).2 hs'
  | dec hs' => exact execDec_good h ((stackOk_cons _ _ _).mp hok).2 hs'
  | signal hs' =>
    rename_i st s k
    obtain ⟨hr, hok⟩ := (stackOk_cons _ _ _).mp hok
    have hold := h.states st s hs'
    have hready : ready s = true := by
      obtain ⟨s', hs'', hr⟩ := hr
      rw [hs'] at hs''
      cases hs''
      exact hr
    have hg := grows_update (u := signal s) hs' (fun _ => ⟨rfl, rfl⟩)
    exact (h.update (u := signal s) hs' (fun _ => ⟨rfl, rfl⟩) ⟨hold.one, hold.drained,
      fun _ => hready, fun p hp => (hold.conts p hp).grows hg⟩).put (hok.grows hg)
  | run =>
    rename_i st i kont cs k
    obtain ⟨⟨hr, hcs⟩, hok⟩ := (stackOk_cons _ _ _).mp hok
    obtain ⟨hi, hon⟩ := hcs (i, kont) (by simp)
    have hn := h.note (l := [.invoked i]) (by simp [EntryOk, hi, hr])
    refine hn.put (StackOk.grows (c := c) (Grows.of_eq rfl rfl) ?_)
    simp only [stackOk_cons]
    exact ⟨exec_ok hr hon, ⟨st, hi, hr⟩, ⟨hr, fun p hp => hcs p (by simp [hp])⟩, hok⟩
  | throw_ => exact h.throwTo _ ((stackOk_cons _ _ _).mp hok).2
  | fault hfault =>
    have hg : ∀ f, Grows c (c.fail f) := fun f => Grows.of_eq rfl rfl
    refine ⟨fun st s hs => (h.states st s hs).grows (hg _),
      fun k hk => (h.threads k hk).grows (hg _), fun e he => (h.log e he).grows (hg _), ?_⟩
    cases hfault with
    | absent ho hs =>
      obtain ⟨r, hr⟩ := ready_iff_outcome.mp ((stackOk_cons _ _ _).mp hok).1
      simp [ho] at hr
    | absent_read ho hs =>
      obtain ⟨r, hr⟩ := ready_iff_outcome.mp ((stackOk_cons _ _ _).mp hok).1
      simp [ho] at hr
    | null => simp [Config.fail]
    | type => simp [Config.fail]

theorem good_init (n : Nat) : Good (init α ε n) := by
  refine ⟨by simp [init], ?_, by simp [init], by simp [init]⟩
  intro k hk
  rw [List.eq_of_mem_replicate hk]
  exact (stackOk_cons _ _ _).mpr ⟨trivial, stackOk_nil _⟩

theorem reach_good {n : Nat} {c : Config α ε} {ok : Config α ε → Nat × Action α ε → Prop}
    (hok : ∀ c e, ok c e → NonNull c e) (h : Reach step ok (init α ε n) c) : Good c :=
  h.invariant (good_init n) (fun _ _ _ hg he hs => step_good hg (hok _ _ he) hs)

/-! ## The setters that take effect -/

/-- A setter of `st` stored a value or an exception. -/
def isStore (st : StateId) : Entry ε → Bool
  | .set st' _ (.stored _) => decide (st' = st)
  | _ => false

/-- How many setters of `st` have taken effect. -/
def stores (st : StateId) (c : Config α ε) : Nat := c.log.countP (isStore st)

theorem raise_no_store (st : StateId) (x : Exception ε) (k : List (Frame α ε)) :
    (raise x k).1.countP (isStore st) = 0 := by
  induction k with
  | nil => rfl
  | cons f k ih =>
    cases f with
    | drain st' cs => simpa [raise, isStore] using ih
    | invoking i => simpa [raise, isStore] using ih
    | user b => rfl
    | catch_ rs => rfl
    | try_set rs r => rfl
    | unwrap_try rs s => rfl
    | _ => exact ih

/-- A step in which no setter takes effect. -/
structure Same (c c' : Config α ε) : Prop where
  stores : ∀ st, stores st c' = stores st c
  states : ∀ (st : StateId) s, c.states[st]? = some s → ∃ s', c'.states[st]? = some s' ∧
    s'.value_ = s.value_ ∧ s'.exception_ = s.exception_

theorem Same.refl (c : Config α ε) : Same c c :=
  ⟨fun _ => rfl, fun _ s hs => ⟨s, hs, rfl, rfl⟩⟩

theorem Same.trans {c c' c'' : Config α ε} (h : Same c c') (h' : Same c' c'') : Same c c'' := by
  refine ⟨fun st => (h'.stores st).trans (h.stores st), fun st s hs => ?_⟩
  obtain ⟨s', hs', hv, hx⟩ := h.states st s hs
  obtain ⟨s'', hs'', hv', hx'⟩ := h'.states st s' hs'
  exact ⟨s'', hs'', hv'.trans hv, hx'.trans hx⟩

/-- The log grows by entries that are no stores, and the states stay or are followed by more. -/
theorem Same.of_append {c c' : Config α ε} (es : List (Entry ε)) (l : List (State α ε))
    (hl : c'.log = c.log ++ es) (hes : ∀ st, es.countP (isStore st) = 0)
    (hs : c'.states = c.states ++ l) : Same c c' := by
  refine ⟨fun st => ?_, fun st s h => ⟨s, ?_, rfl, rfl⟩⟩
  · simp only [ltl.futures.stores, hl, List.countP_append, hes, Nat.add_zero]
  · rw [hs, List.getElem?_append_left (List.getElem?_eq_some_iff.mp h).1, h]

theorem Same.of_eq {c c' : Config α ε} (hl : c'.log = c.log) (hs : c'.states = c.states) :
    Same c c' :=
  .of_append [] [] (by rw [hl, List.append_nil]) (fun _ => rfl) (by rw [hs, List.append_nil])

/-- A change of one state that leaves its value and its exception. -/
theorem Same.of_set {c c' : Config α ε} {st₀ : StateId} {s₀ s₁ : State α ε}
    (hl : c'.log = c.log) (hs : c'.states = c.states.set st₀ s₁) (h₀ : c.states[st₀]? = some s₀)
    (hv : s₁.value_ = s₀.value_) (hx : s₁.exception_ = s₀.exception_) : Same c c' := by
  refine ⟨fun st => by simp only [ltl.futures.stores, hl], fun st s h => ?_⟩
  by_cases hst : st₀ = st
  · subst hst
    rw [h₀] at h
    cases h
    exact ⟨s₁, by rw [hs, List.getElem?_set_self (List.getElem?_eq_some_iff.mp h₀).1], hv, hx⟩
  · exact ⟨s, by rw [hs, List.getElem?_set_ne hst, h], rfl, rfl⟩

theorem throwTo_same (c : Config α ε) (t : Nat) (x : Exception ε) (k : List (Frame α ε)) :
    Same c (throwTo c t x k) :=
  .of_append (raise x k).1 [] rfl (fun st => raise_no_store st x k) (List.append_nil _).symm

theorem lockedAdd_same {c c' : Config α ε} {t : Nat} {st : StateId} {kont : Cont}
    {k : List (Frame α ε)} (h : lockedAdd c t st kont k = some c') : Same c c' := by
  obtain ⟨s, hs, ⟨-, rfl⟩ | ⟨-, rfl⟩⟩ := lockedAdd.spec h
  · exact .of_append [.invoked c.sources.length] [] rfl (fun _ => rfl) (List.append_nil _).symm
  · exact .of_set rfl rfl hs rfl rfl

theorem lockedWait_same {c c' : Config α ε} {t : Nat} {st : StateId} {g : Bool}
    {k : List (Frame α ε)} (h : lockedWait c t st g k = some c') : Same c c' := by
  obtain ⟨s, hs, ⟨-, rfl⟩ | ⟨-, -, rfl⟩ | ⟨-, -, rfl⟩⟩ := lockedWait.spec h
  · exact .of_eq rfl rfl
  · exact .of_set rfl rfl hs rfl rfl
  · exact .of_eq rfl rfl

theorem Adds.same {c c₁ : Config α ε} {a : Action α ε} {k k' : List (Frame α ε)}
    {st : StateId} {kont : Cont} (h : Adds c a k c₁ st kont k') : Same c c₁ := by
  cases h with
  | then_ => exact .of_append [] [_] (List.append_nil _).symm (fun _ => rfl) rfl
  | continue_with => exact .refl c
  | unwrap ho =>
    exact .of_append [.unwrapped st c.states.length] [_, _] rfl (fun _ => rfl)
      (List.append_assoc _ _ _)
  | unwrap_outer => exact .refl c
  | register => exact .refl c
  | when_all => exact .of_append [] [_] (List.append_nil _).symm (fun _ => rfl) rfl

theorem execDec_same {c c' : Config α ε} {t : Nat} {n : CounterId} {k : List (Frame α ε)}
    (h : execDec c t n k = some c') : Same c c' := by
  unfold execDec at h
  split at h
  · cases h
  · dsimp only at h
    split at h
    · cases h
      exact .of_eq rfl rfl
    · cases h
      exact .of_eq rfl rfl

/-- A setter of `st`, which was not ready, takes effect. -/
def Takes (c c' : Config α ε) (st : StateId) : Prop :=
  ∃ s s', c.states[st]? = some s ∧ ready s = false ∧ c'.states = c.states.set st s' ∧
    ∀ st', stores st' c' = stores st' c + if st = st' then 1 else 0

theorem SetMove.takes {c c' : Config α ε} {t : Nat} {a : Action α ε} {st : StateId}
    {allow : Bool} {k : List (Frame α ε)} (h : SetMove c t a st allow k c') :
    Same c c' ∨ Takes c c' st := by
  have store : ∀ s s' : State α ε, c.states[st]? = some s → ready s = false →
      Takes c (settle c t st allow s s' k) st := fun s s' hs hr =>
    ⟨s, _, hs, hr, rfl, fun st' => by
      simp [stores, settle, Config.note, Config.put, Config.update, isStore, List.countP_append,
        List.countP_singleton]⟩
  have noted : ∀ r, (∀ st', isStore st' (.set st allow r) = false) →
      Same c (c.note [.set st allow r]) := fun r hr =>
    .of_append _ [] rfl (fun st' => by simp [hr]) (List.append_nil _).symm
  cases h with
  | value s w hs hr => exact Or.inr (store s _ hs hr)
  | exception s x hs hr hx => exact Or.inr (store s _ hs hr)
  | ignored => exact Or.inl ((noted .ignored (fun _ => rfl)).trans (.of_eq rfl rfl))
  | already => exact Or.inl ((noted .already (fun _ => rfl)).trans (throwTo_same _ _ _ _))
  | built s x => exact Or.inl ((noted (.built x) (fun _ => rfl)).trans (throwTo_same _ _ _ _))

/-- In each step at most one setter takes effect, and it finds its state not ready. -/
theorem step_takes {c c' : Config α ε} {e : Nat × Action α ε} (h : step c e = some c') :
    Same c c' ∨ ∃ st, Takes c c' st := by
  obtain ⟨t, a⟩ := e
  obtain ⟨-, k, -, hm⟩ := step_moves h
  have made : ∀ {c'' : Config α ε} {s}, c''.log = c.log → c''.states = c.states ++ [s] →
      Same c c'' :=
    fun hl hs => .of_append [] [_] (by rw [hl, List.append_nil]) (fun _ => rfl) hs
  cases hm with
  | local_ => exact Or.inl (.of_eq rfl rfl)
  | promise => exact Or.inl (made rfl rfl)
  | made_ready => exact Or.inl (made rfl rfl)
  | when_all_ready => exact Or.inl (made rfl rfl)
  | add h hs => exact Or.inl (h.same.trans (lockedAdd_same hs))
  | set h hs => exact (h.move hs).takes.imp_right (fun ht => ⟨_, ht⟩)
  | wait hs => exact Or.inl (lockedWait_same hs)
  | get hs => exact Or.inl (lockedWait_same hs)
  | dec hs => exact Or.inl (execDec_same hs)
  | signal hs => exact Or.inl (.of_set rfl rfl hs rfl rfl)
  | run => exact Or.inl (.of_append [_] [] rfl (fun _ => rfl) (List.append_nil _).symm)
  | throw_ => exact Or.inl (throwTo_same _ _ _ _)
  | fault => exact Or.inl (.of_eq rfl rfl)

/-- At most one setter of each state has taken effect, and then the state is ready. -/
def StoredOnce (c : Config α ε) : Prop :=
  ∀ st, stores st c = 0 ∨ (stores st c = 1 ∧ Ready c st)

/-- A state of which a setter has taken effect is in the log. -/
theorem exists_store {c : Config α ε} {st : StateId} (h : 0 < stores st c) :
    ∃ allow cs, .set st allow (.stored cs) ∈ c.log := by
  obtain ⟨e, he, hst⟩ := List.countP_pos_iff.mp h
  unfold isStore at hst
  split at hst
  · rename_i st' allow cs
    simp only [decide_eq_true_eq] at hst
    subst hst
    exact ⟨allow, cs, he⟩
  · cases hst

theorem step_storedOnce {c c' : Config α ε} {e : Nat × Action α ε} (h : StoredOnce c)
    (hg : Good c') (hs : step c e = some c') : StoredOnce c' := by
  intro st
  rcases step_takes hs with hsame | ⟨st₀, s, s', hs₀, hr, -, hcount⟩
  · rw [hsame.stores]
    exact (h st).imp_right (fun ⟨h1, h2⟩ => ⟨h1, (step_grows hs).ready h2⟩)
  · rw [hcount]
    by_cases hst : st₀ = st
    · subst hst
      rcases h st₀ with h0 | ⟨-, t, ht, hrt⟩
      · have hpos : 0 < stores st₀ c' := by rw [hcount]; simp
        obtain ⟨allow, cs, hmem⟩ := exists_store hpos
        exact Or.inr ⟨by simp [h0], hg.log _ hmem⟩
      · rw [hs₀] at ht
        cases ht
        cases hr.symm.trans hrt
    · simp only [hst, if_false, Nat.add_zero]
      exact (h st).imp_right (fun ⟨h1, h2⟩ => ⟨h1, (step_grows hs).ready h2⟩)

/-! ## The law -/

/-- What single assignment says of a configuration. The entries of the log are the calls of the
setters: those that took effect, those that threw `promise_already_satisfied`, and those of
`set_value_impl` that returned with nothing done. -/
structure SingleAssigned (c : Config α ε) : Prop where
  one_setter : ∀ st, stores st c ≤ 1
  setter_ready : ∀ st allow cs, .set st allow (.stored cs) ∈ c.log → Ready c st
  others_throw : ∀ st allow, .set st allow .already ∈ c.log → Ready c st ∧ allow = true
  others_ignored : ∀ st allow, .set st allow .ignored ∈ c.log → Ready c st ∧ allow = false
  one_outcome : ∀ (st : StateId) s, c.states[st]? = some s →
    s.value_ = none ∨ s.exception_ = none
  drained_ready : ∀ k ∈ c.threads, ∀ st cs, .drain st cs ∈ k → Ready c st
  no_absent_value : c.fault ≠ some .absent_value

/-- From `c` to `c'`, a ready state stays ready with its outcome, and a state changes only when
a setter of it takes effect. -/
structure Kept (c c' : Config α ε) : Prop where
  ready : ∀ st, Ready c st → Ready c' st ∧ outcome c' st = outcome c st
  pending : ∀ st < c.states.length, stores st c' = stores st c →
    outcome c' st = outcome c st

/-- There is a store of `st` wherever the value or the exception of `st` changes. -/
def Changes (c c' : Config α ε) : Prop :=
  ∀ st, stores st c ≤ stores st c' ∧ ∀ s, c.states[st]? = some s → ∃ s', c'.states[st]? = some s' ∧
    (stores st c' = stores st c → s'.value_ = s.value_ ∧ s'.exception_ = s.exception_)

theorem reach_changes {ok : Config α ε → Nat × Action α ε → Prop} {c c' : Config α ε}
    (h : Reach step ok c c') : Changes c c' := by
  refine h.invariant (P := Changes c)
    (fun st => ⟨Nat.le_refl _, fun s hs => ⟨s, hs, fun _ => ⟨rfl, rfl⟩⟩⟩) ?_
  intro c₁ e c₂ ih _ hs st
  obtain ⟨hle, hk⟩ := ih st
  rcases step_takes hs with hsame | ⟨st₀, s₀, s₁, hs₀, hr, hset, hcount⟩
  · refine ⟨by rw [hsame.stores]; exact hle, fun s hst => ?_⟩
    obtain ⟨s', hs', hk'⟩ := hk s hst
    obtain ⟨s'', hs'', hv, hx⟩ := hsame.states st s' hs'
    refine ⟨s'', hs'', fun he => ?_⟩
    rw [hsame.stores] at he
    exact ⟨hv.trans (hk' he).1, hx.trans (hk' he).2⟩
  · refine ⟨by rw [hcount]; omega, fun s hst => ?_⟩
    obtain ⟨s', hs', hk'⟩ := hk s hst
    by_cases hst₀ : st₀ = st
    · subst hst₀
      refine ⟨s₁, by rw [hset, List.getElem?_set_self (List.getElem?_eq_some_iff.mp hs').1], ?_⟩
      intro he
      simp only [hcount, if_true] at he
      omega
    · refine ⟨s', by rw [hset, List.getElem?_set_ne hst₀, hs'], fun he => hk' ?_⟩
      rw [hcount] at he
      simpa [hst₀] using he

theorem reach_kept {ok : Config α ε → Nat × Action α ε → Prop} {c c' : Config α ε}
    (h : Reach step ok c c') : Kept c c' := by
  have hg := reach_grows h
  refine ⟨fun st hr => ⟨hg.ready hr, ?_⟩, fun st hlt he => ?_⟩
  · obtain ⟨r, ho⟩ := ready_iff_outcome.mp hr
    rw [ho, hg.outcome ho]
  · obtain ⟨s', hs', hk⟩ := (reach_changes h st).2 _ (List.getElem?_eq_getElem hlt)
    obtain ⟨hv, hx⟩ := hk he
    rw [outcome_eq hs', outcome_eq (List.getElem?_eq_getElem hlt), get_congr hv hx]

theorem reach_storedOnce {n : Nat} {c : Config α ε} (h : Reach step NonNull (init α ε n) c) :
    StoredOnce c := by
  refine h.invariant_on (Q := Good) (fun _ hr => reach_good (fun _ _ he => he) hr)
    (fun st => Or.inl rfl) ?_
  intro c₁ e c₂ hg ih he hs
  exact step_storedOnce ih (step_good hg he hs) hs

/-- A null exception for a state that is not ready leaves it so, with a setter that took effect. -/
theorem null_not_assigned {c c' : Config α ε} {e : Nat × Action α ε} (hn : ¬ NonNull c e)
    (hs : step c e = some c') : ¬ SingleAssigned c' := by
  obtain ⟨t, a⟩ := e
  obtain ⟨p, rfl, hr⟩ : ∃ p, a = .set_exception p none ∧ ¬ Ready c p := by
    simpa [NonNull] using hn
  intro ha
  unfold step at hs
  split at hs
  · cases hs
  · split at hs
    · simp only [call, lockedSet] at hs
      split at hs
      · split at hs
        · cases hs
        · rename_i s hp
          have hready : ready s = false := by
            cases h : ready s with
            | false => rfl
            | true => exact absurd ⟨s, hp, h⟩ hr
          simp only [set_exception, hready, Bool.false_eq_true, if_false, Option.some.injEq] at hs
          subst hs
          obtain ⟨s', hs', hr'⟩ := ha.setter_ready p true _ (List.mem_append_right _
            (List.mem_singleton_self _))
          have hself := update_self { s with exception_ := none, continuations_ := [] } hp
          have hs₁ : s' = { s with exception_ := none, continuations_ := [] } :=
            Option.some.inj (hs'.symm.trans hself)
          subst hs₁
          simp only [ready, Bool.or_eq_false_iff] at hready
          simp [ready, hready.1] at hr'
      · cases hs
    · cases hs
    · cases hs

/-- For any number of threads and any run in which no state that is not ready is given a null
exception, at most one setter of a state takes effect, the state is ready from then on with one
outcome, and no `get` reads a value that is not there. The first null exception for a state that is
not ready ends this. -/
theorem a_state_is_assigned_once (n : Nat) (c : Config α ε)
    (h : Reach step NonNull (init α ε n) c) :
    SingleAssigned c ∧ (∀ c', Reach step NonNull c c' → Kept c c') ∧
      ∀ e c', ¬ NonNull c e → step c e = some c' → ¬ SingleAssigned c' := by
  have hg := reach_good (fun _ _ he => he) h
  have ho := reach_storedOnce h
  refine ⟨⟨fun st => ?_, fun st allow cs he => hg.log _ he, fun st allow he => hg.log _ he,
    fun st allow he => hg.log _ he, fun st s hs => (hg.states st s hs).one, ?_, hg.fault⟩,
    fun c' h' => reach_kept h', fun e c' hn hs => null_not_assigned hn hs⟩
  · rcases ho st with h0 | ⟨h1, -⟩ <;> omega
  · intro k hk st cs hf
    exact (hg.threads k hk _ hf).1

/-- The events of a thread that fulfils its promise with no exception, and then with a value. -/
def nullThenValue : List (Nat × Action Unit Unit) :=
  [(0, .promise none), (0, .set_exception 0 none), (0, .tick none),
    (0, .set_value 0 .unit none true)]

/-- With a null exception the second setter takes effect too. -/
theorem a_null_exception_lets_a_second_setter_in :
    ¬ ∀ n c, Reach step anyEvent (init Unit Unit n) c → SingleAssigned c := by
  intro hall
  have hr : ∃ c, run step (init Unit Unit 1) nullThenValue = some c ∧ stores 0 c = 2 :=
    ⟨_, rfl, rfl⟩
  obtain ⟨c, hrun, hc⟩ := hr
  have := (hall 1 c (reach_anyEvent hrun)).one_setter 0
  omega

/-- A run with a null exception after a value: the second setter throws. -/
theorem a_state_is_assigned_once_here :
    ∃ c : Config Unit Unit, Reach step NonNull (init Unit Unit 1) c ∧ stores 0 c = 1 ∧
      .set 0 true .already ∈ c.log ∧ SingleAssigned c ∧
      ∀ c', Reach step NonNull c c' → Kept c c' := by
  have hrun : ∃ c₀ c, run step (init Unit Unit 1) [(0, .promise none),
      (0, .set_value 0 .unit none true), (0, .tick none)] = some c₀ ∧
      c₀.states.map ready = [true] ∧ step c₀ (0, .set_exception 0 none) = some c ∧
      stores 0 c = 1 ∧ .set 0 true .already ∈ c.log := ⟨_, _, rfl, rfl, rfl, rfl, by decide⟩
  obtain ⟨c₀, c, hrun, hready, hs, hc, hmem⟩ := hrun
  have hr₀ : Reach step NonNull (init Unit Unit 1) c₀ :=
    reach_of_run _ _ _ (fun _ e he p hp => by
      simp only [List.mem_cons, List.not_mem_nil, or_false] at he
      rcases he with rfl | rfl | rfl <;> cases hp) hrun
  have hr : Reach step NonNull (init Unit Unit 1) c := by
    refine hr₀.next (fun p hp => ?_) hs
    cases hp
    have h0 : (c₀.states.map ready)[0]? = some true := by rw [hready]; rfl
    obtain ⟨s, hst, hr⟩ := Option.map_eq_some_iff.mp (by simpa using h0)
    exact ⟨s, hst, hr⟩
  obtain ⟨hassigned, hkept, -⟩ := a_state_is_assigned_once 1 c hr
  exact ⟨c, hr, hc, hmem, hassigned, hkept⟩

end ltl.futures
