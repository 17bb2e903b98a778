-- The law of derived futures: in a run whose callbacks are pure, the outcome of
-- a future made by `then` and `next` is the sequential evaluation of its path
-- from the promise at the root, in whatever order the run went.
import Ltl.Edges

open ltl.future_state runs

namespace ltl.futures

variable {α ε : Type}

/-! ## The sequential meaning -/

/-- Pure callbacks: what each function of the client ends with, given the completed future or
the value, and what the constructor throws when a value is stored. -/
structure PureCalls (α ε : Type) where
  then_ : Nat → Except (Exception ε) (Value α) → Except (Exception ε) (Value α)
  next_ : Nat → Value α → Except (Exception ε) (Value α)
  built : Value α → Option (Exception ε)

namespace PureCalls

/-- `then(f)` applies `f` to the completed source, `next(f)` applies `f` to its value. The other
functions are in no forest. -/
def call (m : PureCalls α ε) : Func → Except (Exception ε) (Value α) →
    Except (Exception ε) (Value α)
  | .then_ k, r => m.then_ k r
  | .next_ k, .ok v => m.next_ k v
  | .next_ _, .error x => .error x
  | _, r => r

def store (m : PureCalls α ε) : Except (Exception ε) (Value α) → Except (Exception ε) (Value α)
  | .ok v => storedAs v (m.built v)
  | .error x => .error x

/-- The outcome of a derived future, given the outcome of its source. -/
def eval (m : PureCalls α ε) (f : Func) (r : Except (Exception ε) (Value α)) :
    Except (Exception ε) (Value α) := m.store (m.call f r)

/-- The functions of a path, one after the other. -/
def path (m : PureCalls α ε) (fs : List Func) (r : Except (Exception ε) (Value α)) :
    Except (Exception ε) (Value α) := fs.foldl (fun r f => m.eval f r) r

/-- A function of the client ends as `m` says for the outcome `r₀` of its source. Nothing is said
of a function of `next` that is called for an exception. -/
def Answers (m : PureCalls α ε) : Func → Except (Exception ε) (Value α) →
    Except (Exception ε) (Value α) → Prop
  | .then_ k, r₀, r => r = m.then_ k r₀
  | .next_ k, .ok v, r => r = m.next_ k v
  | _, _, _ => True

/-- Callbacks end as `m` says for the outcome of their source. -/
def contract (m : PureCalls α ε) : Contract α ε where
  ends c e r := ∃ r₀, outcome c e.src = some r₀ ∧ m.Answers e.func r₀ r
  stores v b := b = m.built v

/-- An orderly event, and callbacks are pure. -/
def Keeps (m : PureCalls α ε) (c : Config α ε) (ev : Nat × Action α ε) : Prop :=
  Orderly c ev ∧ m.contract.Allows c ev

theorem contract_stable (m : PureCalls α ε) : m.contract.Stable := by
  rintro c c' e r h ⟨r₀, hr₀, hr⟩
  exact ⟨r₀, h.outcome hr₀, hr⟩

@[simp] theorem path_nil (m : PureCalls α ε) (r : Except (Exception ε) (Value α)) :
    m.path [] r = r := by simp [path]

theorem path_snoc (m : PureCalls α ε) (fs : List Func) (f : Func)
    (r : Except (Exception ε) (Value α)) : m.path (fs ++ [f]) r = m.eval f (m.path fs r) := by
  simp [path]

/-- An outcome that the contract allows is the one that the source asks for. -/
theorem outcome_eq (m : PureCalls α ε) {c : Config α ε} {e : Edge}
    {r : Except (Exception ε) (Value α)} (h : m.contract.Outcome c e r)
    (hf : (∃ k, e.func = .then_ k) ∨ ∃ k, e.func = .next_ k) :
    ∃ r₀, outcome c e.src = some r₀ ∧ r = m.eval e.func r₀ := by
  obtain ⟨r₁, hright, hset⟩ := h
  have hends := hright.ends
  have hcall : ∃ r₀, outcome c e.src = some r₀ ∧ r₁ = m.call e.func r₀ := by
    unfold Contract.Ends at hends
    rcases hf with ⟨k, hf⟩ | ⟨k, hf⟩
    · simp only [hf] at hends
      obtain ⟨r₀, ho, hr⟩ := hends
      rw [hf] at hr
      exact ⟨r₀, ho, by rw [hf]; exact hr⟩
    · simp only [hf] at hends
      rcases hends with ⟨v, hv, r₀, ho, hr⟩ | ⟨x, hx, rfl⟩
      · rw [hv] at ho
        cases ho
        rw [hf] at hr
        exact ⟨.ok v, hv, by rw [hf]; exact hr⟩
      · exact ⟨.error x, hx, by rw [hf]; rfl⟩
  obtain ⟨r₀, ho, rfl⟩ := hcall
  refine ⟨r₀, ho, ?_⟩
  unfold eval store
  cases hc : m.call e.func r₀ with
  | error x =>
    rw [hc] at hset
    exact hset
  | ok v =>
    rw [hc] at hset
    obtain ⟨b, rfl, hr⟩ := hset
    exact hr

/-- `next(f).next(g)` is `next` of the composition, when the value between them can be stored. -/
theorem path_next_next (m : PureCalls α ε) {f g gf : Nat}
    (hcomp : ∀ v, m.next_ gf v = (m.next_ f v).bind (m.next_ g))
    (hstore : ∀ v w, m.next_ f v = .ok w → m.built w = none) (fs : List Func)
    (r : Except (Exception ε) (Value α)) :
    m.path (fs ++ [.next_ f, .next_ g]) r = m.path (fs ++ [.next_ gf]) r := by
  have hsplit : fs ++ [.next_ f, .next_ g] = (fs ++ [.next_ f]) ++ [.next_ g] := by simp
  rw [hsplit, path_snoc, path_snoc, path_snoc]
  cases m.path fs r with
  | error x => rfl
  | ok v =>
    unfold eval
    simp only [call, hcomp]
    cases hf : m.next_ f v with
    | error x => rfl
    | ok w => simp [store, storedAs, hstore v w hf, Except.bind]

end PureCalls

/-! ## The forest -/

/-- The call of `then` that this event makes. -/
def newEdges (c : Config α ε) (ev : Nat × Action α ε) : List Edge :=
  match c.threads[ev.1]?, ev.2 with
  | some (.user _ :: _), .then_ (some st) func => [⟨st, c.states.length, func⟩]
  | _, _ => []

/-- The edges that a run has made so far. -/
def recordEdges (c : Config α ε) (ev : Nat × Action α ε) (_ : Config α ε) (es : List Edge) :
    List Edge := es ++ newEdges c ev

/-- The future of `rs` is derived from the promise `p` by the functions `fs`, each of them given
to `then` or to `next`. -/
inductive Path (promises : List StateId) (es : List Edge) :
    StateId → List Func → StateId → Prop where
  | root {p} (hp : p ∈ promises) : Path promises es p [] p
  | edge {p fs e} (h : Path promises es p fs e.src) (he : e ∈ es)
      (hf : (∃ k, e.func = .then_ k) ∨ ∃ k, e.func = .next_ k) :
      Path promises es p (fs ++ [e.func]) e.rs

/-- Nothing that runs is to set a state. -/
def Ended (c : Config α ε) : Prop := ∀ k ∈ c.threads, ∀ st, stackOwns st k = 0

/-- Each edge of the run is at some point of its life. -/
structure Grown (m : PureCalls α ε) (c : Config α ε) (es : List Edge) : Prop where
  ordered : Ordered c
  edges : ∀ e ∈ es, e.func.simple = true → EdgeAt m.contract c e

theorem step_grown {m : PureCalls α ε} {c c' : Config α ε} {es : List Edge}
    {ev : Nat × Action α ε} (h : Grown m c es) (hn : m.Keeps c ev) (hs : step c ev = some c') :
    Grown m c' (recordEdges c ev c' es) := by
  refine ⟨step_ordered h.ordered hn.1 hs, fun e he hsim => ?_⟩
  rcases List.mem_append.mp he with he | hnew
  · exact step_edge m.contract_stable h.ordered.good h.ordered.owned hn.1 hn.2 hsim hs
      (h.edges e he hsim)
  · unfold newEdges at hnew
    split at hnew
    · rename_i b k st func hk ha
      obtain ⟨t, a⟩ := ev
      simp only at hk ha
      subst ha
      rw [List.mem_singleton] at hnew
      subst hnew
      exact then_edge hk hs
    · cases hnew

theorem reach_grown {m : PureCalls α ε} {n : Nat} {c : Config α ε} {es : List Edge}
    (h : Reach (recorded step recordEdges) (fun s ev => m.Keeps s.1 ev) (init α ε n, []) (c, es)) :
    Grown m c es := by
  refine h.invariant (P := fun s => Grown m s.1 s.2) ⟨ordered_init n, by simp⟩ ?_
  intro s ev s' hg hn hs
  obtain ⟨hs, hr⟩ := recorded_eq hs
  rw [hr]
  exact step_grown hg hn hs

variable {m : PureCalls α ε} {c : Config α ε} {es : List Edge} {p rs : StateId} {fs : List Func}

theorem Func.simple_of_derives {f : Func} (hf : (∃ k, f = .then_ k) ∨ ∃ k, f = .next_ k) :
    f.simple = true := by
  rcases hf with ⟨k, rfl⟩ | ⟨k, rfl⟩ <;> rfl

/-- The induction over the forest: an outcome comes from the root. -/
theorem Path.outcome (h : Grown m c es) (hp : Path c.promises es p fs rs)
    (r : Except (Exception ε) (Value α)) (hr : futures.outcome c rs = some r) :
    ∃ r₀, futures.outcome c p = some r₀ ∧ r = m.path fs r₀ := by
  induction hp generalizing r with
  | root hp => exact ⟨r, hr, by simp⟩
  | edge hpath he hf ih =>
    have hat := h.edges _ he (Func.simple_of_derives hf)
    obtain ⟨r₁, hsrc, rfl⟩ := m.outcome_eq (hat.outcome h.ordered.owned hr) hf
    obtain ⟨r₀, hroot, rfl⟩ := ih r₁ hsrc
    exact ⟨r₀, hroot, (m.path_snoc _ _ _).symm⟩

theorem Path.ready_iff (h : Grown m c es) (hp : Path c.promises es p fs rs) (hend : Ended c) :
    Ready c rs ↔ Ready c p := by
  induction hp with
  | root hp => exact Iff.rfl
  | edge hpath he hf ih =>
    have hat := h.edges _ he (Func.simple_of_derives hf)
    exact (hat.ready_iff h.ordered.good h.ordered.owned (fun k hk => hend k hk _)).trans ih

/-- At the end a derived future has the outcome of its path, or none when the root has none. -/
theorem Path.at_end (h : Grown m c es) (hp : Path c.promises es p fs rs) (hend : Ended c) :
    futures.outcome c rs = (futures.outcome c p).map (m.path fs) := by
  cases hr : futures.outcome c rs with
  | some r =>
    obtain ⟨r₀, hroot, rfl⟩ := hp.outcome h r hr
    rw [hroot]
    rfl
  | none =>
    cases hroot : futures.outcome c p with
    | none => rfl
    | some r₀ =>
      obtain ⟨r, hr'⟩ := ready_iff_outcome.mp
        ((hp.ready_iff h hend).mpr (ready_iff_outcome.mpr ⟨r₀, hroot⟩))
      rw [hr] at hr'
      cases hr'

/-- What a forest says of one derived future. A function of `next` is called for a value only. -/
structure Evaluated (m : PureCalls α ε) (c : Config α ε) (es : List Edge) (p : StateId)
    (fs : List Func) (rs : StateId) : Prop where
  outcome : ∀ r, outcome c rs = some r → ∃ r₀, futures.outcome c p = some r₀ ∧ r = m.path fs r₀
  uncalled : ∀ src k, InStack c (.user (.callback src rs (.next_ k))) →
    ∃ v, futures.outcome c src = some (.ok v)
  ready : Ended c → (Ready c rs ↔ Ready c p)
  at_end : Ended c → futures.outcome c rs = (futures.outcome c p).map (m.path fs)
  same_path : ∀ rs', Path c.promises es p fs rs' → Ended c →
    futures.outcome c rs' = futures.outcome c rs
  next_next : ∀ f g gf fs₀ rs', (∀ v, m.next_ gf v = (m.next_ f v).bind (m.next_ g)) →
    (∀ v w, m.next_ f v = .ok w → m.built w = none) → fs = fs₀ ++ [.next_ f, .next_ g] →
    Path c.promises es p (fs₀ ++ [.next_ gf]) rs' → Ended c →
    futures.outcome c rs' = futures.outcome c rs

/-- For any number of threads and any run with pure callbacks, each future derived from a promise
by `then` and `next` has the outcome of its path, whenever its edges were made. -/
theorem derived_futures_are_evaluated (m : PureCalls α ε) (n : Nat) (c : Config α ε) (es : List Edge)
    (p : StateId) (fs : List Func) (rs : StateId)
    (h : Reach (recorded step recordEdges) (fun s ev => m.Keeps s.1 ev) (init α ε n, []) (c, es))
    (hp : Path c.promises es p fs rs) : Evaluated m c es p fs rs := by
  have hg := reach_grown h
  refine ⟨fun r hr => hp.outcome hg r hr, ?_, hp.ready_iff hg, hp.at_end hg, ?_, ?_⟩
  · rintro src k ⟨stack, hk, hf⟩
    exact (hg.ordered.good.threads stack hk _ hf).2 k rfl
  · intro rs' hp' hend
    rw [hp'.at_end hg hend, hp.at_end hg hend]
  · intro f g gf fs₀ rs' hcomp hstore hfs hp' hend
    subst hfs
    rw [hp'.at_end hg hend, hp.at_end hg hend]
    cases futures.outcome c p with
    | none => rfl
    | some r => exact congrArg some (m.path_next_next hcomp hstore fs₀ r).symm

theorem PureCalls.keeps_silent (hb : ∀ v, m.built v = none) (c : Config α ε)
    {ev : Nat × Action α ε} (h : ev.2.silent = true) : m.Keeps c ev :=
  ⟨silent_orderly c h, Contract.allows_silent (fun v => (hb v).symm) c h⟩

theorem PureCalls.keeps_ret {c : Config α ε} {t : Nat} {e : Edge} {k : List (Frame α ε)}
    {v : Value α} {r : Except (Exception ε) (Value α)}
    (hk : c.threads[t]? = some (.user (.callback e.src e.rs e.func) :: k))
    (ho : futures.outcome c e.src = some r) (hv : m.Answers e.func r (.ok v)) :
    m.Keeps c (t, .ret v) := by
  refine ⟨plain_orderly c rfl, fun e' k' v' hk' ha => ?_, fun e' k' x hk' ha => ?_,
    fun rs v' k' b hk' ha => ?_⟩
  · cases ha
    obtain ⟨src, rs, func⟩ := e
    obtain ⟨src', rs', func'⟩ := e'
    rw [hk] at hk'
    cases hk'
    exact ⟨r, ho, hv⟩
  · cases ha
  · cases ha

/-- The function 7 adds one. -/
def addsOne : PureCalls Nat Unit where
  then_ _ r := r
  next_ _ v :=
    match v with
    | .val a => .ok (.val (a + 1))
    | _ => .error .no_state
  built _ := none

/-- One edge is made before the promise is fulfilled, and the other one after it. -/
theorem derived_futures_are_evaluated_here :
    ∃ (c : Config Nat Unit) (es : List Edge),
      Reach (recorded step recordEdges) (fun s ev => addsOne.Keeps s.1 ev)
        (init Nat Unit 1, []) (c, es) ∧
      outcome c 1 = some (.ok (.val 4)) ∧ outcome c 2 = some (.ok (.val 4)) ∧
      Evaluated addsOne c es 0 [.next_ 7] 1 ∧ Evaluated addsOne c es 0 [.next_ 7] 2 := by
  have hruns : ∃ s₁ s₂ s₃ s₄ s₅ : Config Nat Unit × List Edge,
      run (recorded step recordEdges) (init Nat Unit 1, []) [(0, .promise none),
        (0, .then_ (some 0) (.next_ 7)), (0, .set_value 0 (.val 3) none true), (0, .tick none),
        (0, .tick none)] = some s₁ ∧
      s₁.1.threads[0]? = some [.user (.callback 0 1 (.next_ 7)), .invoking 0, .drain 0 [],
        .user .main] ∧
      outcome s₁.1 0 = some (.ok (.val 3)) ∧
      recorded step recordEdges s₁ (0, .ret (.val 4)) = some s₂ ∧
      run (recorded step recordEdges) s₂ (List.replicate 5 (0, .tick none) ++
        [(0, .then_ (some 0) (.next_ 7)), (0, .tick none)]) = some s₃ ∧
      s₃.1.threads[0]? = some [.user (.callback 0 2 (.next_ 7)), .invoking 1, .user .main] ∧
      outcome s₃.1 0 = some (.ok (.val 3)) ∧
      recorded step recordEdges s₃ (0, .ret (.val 4)) = some s₄ ∧
      run (recorded step recordEdges) s₄ (List.replicate 4 (0, .tick none)) = some s₅ ∧
      s₅.2 = [⟨0, 1, .next_ 7⟩, ⟨0, 2, .next_ 7⟩] ∧ s₅.1.promises = [0] ∧
      outcome s₅.1 1 = some (.ok (.val 4)) ∧ outcome s₅.1 2 = some (.ok (.val 4)) :=
    ⟨_, _, _, _, _, rfl, rfl, rfl, rfl, rfl, rfl, rfl, rfl, rfl, rfl, rfl, rfl, rfl⟩
  obtain ⟨s₁, s₂, s₃, s₄, ⟨c, es⟩, h1, hk1, ho1, h2, h3, hk3, ho3, h4, h5, hes, hprm, hr1, hr2⟩ :=
    hruns
  have silent : ∀ (evs : List (Nat × Action Nat Unit)) s s',
      (∀ ev ∈ evs, ev.2.silent = true) → run (recorded step recordEdges) s evs = some s' →
      Reach (recorded step recordEdges) (fun s ev => addsOne.Keeps s.1 ev) s s' :=
    fun evs s s' hall hrun => reach_of_run _ _ _
      (fun t ev hev => PureCalls.keeps_silent (fun _ => rfl) t.1 (hall ev hev)) hrun
  have hreach : Reach (recorded step recordEdges) (fun s ev => addsOne.Keeps s.1 ev)
      (init Nat Unit 1, []) (c, es) := by
    have r1 := silent _ _ _ (by decide) h1
    have r2 := r1.next (PureCalls.keeps_ret (e := ⟨0, 1, .next_ 7⟩) hk1 ho1 rfl) h2
    have r3 := r2.trans (silent _ _ _ (by decide) h3)
    have r4 := Reach.next r3 (PureCalls.keeps_ret (e := ⟨0, 2, .next_ 7⟩) hk3 ho3 rfl) h4
    exact r4.trans (silent _ _ _ (by decide) h5)
  simp only at hes hprm hr1 hr2
  have hroot : Path c.promises es 0 [] 0 := .root (by simp [hprm])
  have hfirst := Path.edge (e := ⟨0, 1, .next_ 7⟩) hroot (by simp [hes]) (Or.inr ⟨7, rfl⟩)
  have hsecond := Path.edge (e := ⟨0, 2, .next_ 7⟩) hroot (by simp [hes]) (Or.inr ⟨7, rfl⟩)
  exact ⟨c, es, hreach, hr1, hr2,
    derived_futures_are_evaluated addsOne 1 c es 0 [.next_ 7] 1 hreach hfirst,
    derived_futures_are_evaluated addsOne 1 c es 0 [.next_ 7] 2 hreach hsecond⟩

end ltl.futures
