-- The law of `when_all` (when_all.hpp): the future that it returns gathers the
-- outcomes of the given futures by position, in whatever order they came. The
-- overload for a list and the one for a tuple do the same.
import Ltl.WhenAllReady

open ltl.future_state runs

namespace ltl.futures

variable {α ε : Type}

/-! ## What the traversals read -/

/-- `x.get()` in `c`. It has no result while it blocks. -/
def future_get (c : Config α ε) : Future → ExceptT (Exception ε) Option (Value α)
  | none => ExceptT.mk (some (.error .no_state))
  | some st => ExceptT.mk (outcome c st)

/-- A tuple is a list of values, and all of its elements are there from the start. -/
instance : Inhabited (Value α) := ⟨.unit⟩

/-- What the function of `when_all` of a tuple ends with in `c`. -/
def tuple_get (c : Config α ε) (fs : List Future) : Option (Except (Exception ε) (Value α)) :=
  (Value.vec <$> tuple_meta.tuple_map fs (future_get c)).run

theorem tuple_get_eq (c : Config α ε) (fs : List Future) :
    tuple_get c fs = (fs.mapM (future_get c)).run.map (Except.map Value.vec) := by
  unfold tuple_get
  rw [tuple_meta.tuple_map_eq_mapM, ExceptT.run_map]
  rfl

theorem reads_nil (c : Config α ε) :
    (([] : List Future).mapM (future_get c)).run = some (.ok []) := by
  rw [List.mapM_nil]
  rfl

theorem reads_cons (c : Config α ε) (f : Future) (fs : List Future) :
    ((f :: fs).mapM (future_get c)).run =
      match (future_get c f).run with
      | none => none
      | some (.error x) => some (.error x)
      | some (.ok v) => (fs.mapM (future_get c)).run.map (Except.map (v :: ·)) := by
  rw [List.mapM_cons, ExceptT.run_bind]
  cases (future_get c f).run with
  | none => rfl
  | some r =>
    cases r with
    | error x => rfl
    | ok v =>
      simp only [Option.bind_eq_bind, Option.bind_some, ExceptT.run_bind, ExceptT.run_pure]
      cases (fs.mapM (future_get c)).run with
      | none => rfl
      | some rs => cases rs <;> rfl

/-- A traversal that gets every value. -/
theorem values_iff {c : Config α ε} {fs : List Future} {vs : List (Value α)} :
    Values c fs vs ↔ (fs.mapM (future_get c)).run = some (.ok vs) := by
  induction fs generalizing vs with
  | nil =>
    rw [reads_nil]
    constructor
    · rintro ⟨⟩
      rfl
    · rintro ⟨⟩
      exact .nil
  | cons f fs ih =>
    rw [reads_cons]
    constructor
    · rintro (_ | ⟨⟨st, rfl, hv⟩, hvs⟩)
      have hhead : (future_get c (some st)).run = outcome c st := rfl
      simp only [hhead, hv, ih.mp hvs]
      rfl
    · intro h
      cases f with
      | none => cases h
      | some st =>
        have hhead : (future_get c (some st)).run = outcome c st := rfl
        rw [hhead] at h
        split at h
        · cases h
        · cases h
        · rename_i v hv
          obtain ⟨rs, hrs, hmap⟩ := Option.map_eq_some_iff.mp h
          cases rs with
          | error x => cases hmap
          | ok vs' =>
            cases hmap
            exact .cons ⟨st, rfl, hv⟩ (ih.mpr hrs)

/-- A traversal that stops at the first future without a value. -/
theorem fails_iff {c : Config α ε} {fs : List Future} {x : Exception ε} :
    (∃ done f rest vs, fs = done ++ f :: rest ∧ Values c done vs ∧ Fails c f x) ↔
      (fs.mapM (future_get c)).run = some (.error x) := by
  constructor
  · rintro ⟨done, f, rest, vs, rfl, hvs, hf⟩
    induction hvs with
    | nil =>
      rw [List.nil_append, reads_cons]
      cases f with
      | none =>
        cases hf
        rfl
      | some st =>
        have hhead : (future_get c (some st)).run = outcome c st := rfl
        simp only [hhead, show outcome c st = some (.error x) from hf]
    | cons hv hvs ih =>
      obtain ⟨st, rfl, hv⟩ := hv
      have hhead : (future_get c (some st)).run = outcome c st := rfl
      rw [List.cons_append, reads_cons]
      simp only [hhead, hv, ih]
      rfl
  · intro h
    induction fs with
    | nil =>
      rw [reads_nil] at h
      cases h
    | cons f fs ih =>
      rw [reads_cons] at h
      split at h
      · cases h
      · rename_i y hy
        cases h
        refine ⟨[], f, fs, [], rfl, .nil, ?_⟩
        cases f with
        | none =>
          cases hy
          rfl
        | some st => exact hy
      · rename_i v hv
        obtain ⟨rs, hrs, hmap⟩ := Option.map_eq_some_iff.mp h
        cases rs with
        | ok vs => cases hmap
        | error y =>
          cases hmap
          obtain ⟨done, g, rest, vs, rfl, hvs, hg⟩ := ih hrs
          refine ⟨f :: done, g, rest, v :: vs, rfl, .cons ?_ hvs, hg⟩
          cases f with
          | none => cases hv
          | some st => exact ⟨st, rfl, hv⟩

/-- The function of `when_all` of a tuple ends with what the one of a list ends with. -/
theorem gathered_iff {c : Config α ε} {fs : List Future} {r : Except (Exception ε) (Value α)} :
    Gathered c fs r ↔ tuple_get c fs = some r := by
  rw [tuple_get_eq]
  constructor
  · rintro (⟨vs, hvs, rfl⟩ | ⟨done, f, rest, vs, x, hfs, hvs, hf, rfl⟩)
    · rw [values_iff.mp hvs]
      rfl
    · rw [fails_iff.mp ⟨done, f, rest, vs, hfs, hvs, hf⟩]
      rfl
  · intro h
    obtain ⟨rs, hrs, hmap⟩ := Option.map_eq_some_iff.mp h
    cases rs with
    | ok vs =>
      cases hmap
      exact Or.inl ⟨vs, values_iff.mpr hrs, rfl⟩
    | error x =>
      cases hmap
      obtain ⟨done, f, rest, vs, hfs, hvs, hf⟩ := fails_iff.mpr hrs
      exact Or.inr ⟨done, f, rest, vs, x, hfs, hvs, hf, rfl⟩

/-- The futures of two runs have the same outcomes, position by position. -/
def SameOutcomes (c c' : Config α ε) (fs fs' : List Future) : Prop :=
  List.Forall₂ (fun f f' => future_get c f = future_get c' f') fs fs'

theorem SameOutcomes.reads {c c' : Config α ε} {fs fs' : List Future}
    (h : SameOutcomes c c' fs fs') : fs.mapM (future_get c) = fs'.mapM (future_get c') := by
  induction h with
  | nil => rfl
  | cons hf hfs ih => simp only [List.mapM_cons, hf, ih]

theorem SameOutcomes.gathered {c c' : Config α ε} {fs fs' : List Future}
    {r r' : Except (Exception ε) (Value α)} (h : SameOutcomes c c' fs fs')
    (hr : Gathered c fs r) (hr' : Gathered c' fs' r') : r = r' := by
  rw [gathered_iff, tuple_get_eq] at hr hr'
  rw [h.reads, hr'] at hr
  exact (Option.some.inj hr).symm

/-! ## The calls -/

/-- The overloads of `when_all`. The function that the one for a tuple gives to `then` has the
number `k`. -/
inductive Overload where
  | list
  | tuple (k : Nat)
  deriving DecidableEq, Repr

/-- A call of `when_all`: the counter and the promise of its `when_all_ready`, the futures that
these are for, and the future that it returns. -/
structure Call where
  counter : CounterId
  prm : StateId
  vf : List Future
  rs : StateId
  deriving DecidableEq, Repr

section
variable (ok : Config α ε → Nat × Action α ε → Prop) (t : Nat)

/-- `when_all` of a list goes on from the return of `when_all_ready`. It gives back the state that
its call of `then` makes. -/
def calls_then (prm : StateId) (fs : List Future) : Code α ε StateId :=
  fun c rs c' => ∃ c₁ k b, Reach step ok c c₁ ∧
    c₁.threads[t]? = some (.when_all_then prm fs :: k) ∧ ok c₁ (t, .tick b) ∧
    step c₁ (t, .tick b) = some c' ∧ rs = c₁.states.length

/-- A whole call of `when_all` by thread `t`. -/
def Overload.when_all (fs : List Future) (q : Option Nat) : Overload → Code α ε Call
  | .list => do
    let c ← makes ok t (.when_all fs q)
    let rs ← calls_then ok t c.states.length fs
    pure ⟨c.counters.length, c.states.length, fs, rs⟩
  | .tuple k => do
    let p ← when_all_ready_tuple ok t fs q
    let c ← makes ok t (.then_ (some p.2.states.length) (.then_ k))
    pure ⟨p.2.counters.length, p.2.states.length, p.1, c.states.length⟩

end

/-- What the constructor of a stored vector throws is `built`. The function `k` of a tuple is the
traversal of the tuple. -/
def Overload.contract (built : List (Value α) → Option (Exception ε)) (fs : List Future) :
    Overload → Contract α ε
  | .list => {
    ends := fun _ _ _ => True
    stores := fun v b => ∀ vs, v = .vec vs → b = built vs }
  | .tuple k => {
    ends := fun c e r => e.func = .then_ k → tuple_get c fs = some r
    stores := fun v b => ∀ vs, v = .vec vs → b = built vs }

def Overload.Keeps (built : List (Value α) → Option (Exception ε)) (fs : List Future)
    (o : Overload) (c : Config α ε) (ev : Nat × Action α ε) : Prop :=
  Orderly c ev ∧ (o.contract built fs).Allows c ev

theorem Overload.within (built : List (Value α) → Option (Exception ε)) (fs : List Future)
    (o : Overload) : Within (o.Keeps built fs) (o.contract built fs) := by
  refine ⟨fun c c' e r hg h => ?_, fun _ _ h => h.1, fun _ _ h => h.2⟩
  cases o with
  | list => trivial
  | tuple k => exact fun hf => gathered_iff.mp ((gathered_iff.mpr (h hf)).grows hg)

/-- A run in which `o` is called on `fs` and that has come to `c`. -/
def Called (built : List (Value α) → Option (Exception ε)) (o : Overload) (fs : List Future)
    (call : Call) (c : Config α ε) : Prop :=
  ∃ n t q c₀ c₁, Reach step (o.Keeps built fs) (init α ε n) c₀ ∧
    o.when_all (o.Keeps built fs) t fs q c₀ call c₁ ∧ Reach step (o.Keeps built fs) c₁ c

/-! ## The law -/

/-- What is still to be done for a call of `when_all`: something for the promise that it waits
for, or its result is on the way. -/
inductive CallUnfinished (c : Config α ε) (call : Call) (fs : List Future) : Prop where
  | readying (h : TupleUnfinished c call.counter call.prm fs call.vf)
  | joining (k) (hk : k ∈ c.threads) (hrs : stackOwns call.rs k ≠ 0)

/-- What is stored for the end of the function. -/
def stored_vec (built : List (Value α) → Option (Exception ε)) :
    Except (Exception ε) (Value α) → Except (Exception ε) (Value α)
  | .ok (.vec vs) => storedAs (.vec vs) (built vs)
  | r => r

/-- The future that a call of `when_all` on `fs` returns. -/
structure Combined (built : List (Value α) → Option (Exception ε)) (c : Config α ε)
    (fs : List Future) (call : Call) : Prop where
  after_all : Ready c call.rs → ∀ st, some st ∈ fs → Ready c st
  gathers : ∀ r, outcome c call.rs = some r → ∃ r₀, Gathered c fs r₀ ∧ r = stored_vec built r₀
  completes : Ready c call.rs ∨ CallUnfinished c call fs

/-- The promise that a call of `when_all` waits for, and the edge of its `then`. -/
theorem combined_of {built : List (Value α) → Option (Exception ε)} {w : Contract α ε}
    {c : Config α ε} {fs : List Future} {call : Call} {f : Func}
    (hst : ∀ v b, w.stores v b → ∀ vs, v = .vec vs → b = built vs)
    (hends : ∀ r, w.Right c ⟨call.prm, call.rs, f⟩ r → Gathered c fs r) (ho : Ordered c)
    (hready : TupleReady c call.counter call.prm fs call.vf)
    (he : EdgeAt w c ⟨call.prm, call.rs, f⟩) : Combined built c fs call := by
  refine ⟨fun hr => ?_, fun r hr => ?_, ?_⟩
  · obtain ⟨r, hr⟩ := ready_iff_outcome.mp hr
    obtain ⟨r₀, hright, -⟩ := he.outcome ho.owned hr
    exact hready.after_all hright.ready
  · obtain ⟨r₀, hright, hset⟩ := he.outcome ho.owned hr
    have hg := hends r₀ hright
    refine ⟨r₀, hg, ?_⟩
    rcases hg with ⟨vs, -, rfl⟩ | ⟨done, f, rest, vs, x, -, -, -, rfl⟩
    · obtain ⟨b, hb, rfl⟩ := hset
      rw [hst _ _ hb vs rfl]
      rfl
    · exact hset
  · by_cases hidle : ∀ k ∈ c.threads, stackOwns call.rs k = 0
    · rcases hready.completes with hprm | hun
      · exact Or.inl ((he.ready_iff ho.good ho.owned hidle).mpr hprm)
      · exact Or.inr (.readying hun)
    · obtain ⟨k, hk⟩ := Classical.not_forall.mp hidle
      obtain ⟨hk, hne⟩ := Classical.not_imp.mp hk
      exact Or.inr (.joining k hk hne)

/-- A list is a tuple whose futures need no `to_future_void`. -/
theorem AllReady.listed {c : Config α ε} {n : CounterId} {prm : StateId} {fs : List Future}
    (h : AllReady c n prm fs) : TupleReady c n prm fs fs := by
  refine ⟨h.once, h.after_all, h.no_throw, h.value, h.completes.imp_right fun hun => ?_⟩
  cases hun with
  | looping fs' hin => exact .looping fs' hin
  | pending st hst hr => exact .pending st hst hr
  | draining st i hst hd => exact .draining st i hst hd
  | running hin => exact .running hin

/-- A call of `when_all` of a list starts with its call of `when_all_ready`. -/
theorem started_when_all {n : Nat} {c c' : Config α ε} {t : Nat} {fs : List Future}
    {q : Option Nat} (h : Reach step Orderly (init α ε n) c)
    (hs : step c (t, .when_all fs q) = some c') :
    Started c' c.counters.length c.states.length fs := by
  obtain ⟨b, k, hk⟩ := call_top (by simp) hs
  have hcall := step_call hk hs
  cases fs with
  | nil =>
    cases hcall
    have hready : Ready ((c.alloc { value_ := some .unit }).put t
        (.when_all_then c.states.length [] :: .user b :: k)) c.states.length :=
      ⟨{ value_ := some .unit }, by simp [Config.alloc, Config.put], rfl⟩
    exact ⟨promised_new (reach_ordered h).owned (reach_setKnown h)
      (s := { value_ := some .unit }) rfl rfl rfl (by simp [future_state.get])
      (Or.inr (Or.inr hready)), Or.inl ⟨rfl, hready⟩⟩
  | cons f fs =>
    cases hcall
    exact started_loop h (by simp) hk (Or.inr ⟨_, rfl⟩)

variable {built : List (Value α) → Option (Exception ε)} {fs : List Future} {call : Call}
  {c : Config α ε}

theorem Called.combined {o : Overload} (h : Called built o fs call c) : Combined built c fs call := by
  obtain ⟨n, t, q, c₀, c₁, h₀, hcall, hrun⟩ := h
  have hok := Overload.within built fs o
  cases o with
  | list =>
    obtain ⟨c₂, c₃, ⟨hr, hn, hs⟩, rs, c₄, ⟨c₅, k, b, hr', hk, hn', hs', rfl⟩, rfl, rfl⟩ := hcall
    have hreach := h₀.trans hr
    have h₃ := Reach.next hreach hn hs
    have hstarted := started_when_all (hok.reach hreach) hs
    have hrest := (hr'.next hn' hs').trans hrun
    have ho := reach_ordered (hok.reach (h₃.trans hrest))
    have hall := hstarted.reach (hok.reach h₃) (hok.reach hrest)
    obtain ⟨b', -, htick⟩ := step_tick hk (by simp) hs'
    have he := lockedAdd_edge (c := c₅.alloc {}) (w := Overload.list.contract built fs)
      (e := ⟨c₂.states.length, c₅.states.length, .get_all fs⟩) hk htick
    have ho₄ := reach_ordered (hok.reach (h₃.trans (hr'.next hn' hs')))
    refine combined_of (f := .get_all fs) (fun v b h => h) (fun r hr => hr.ends) ho hall.listed
      (reach_edge hok ho₄ rfl hrun he)
  | tuple k =>
    obtain ⟨⟨vf, c₂⟩, c₃, hready, c₄, c₅, ⟨hr, hn, hs⟩, rfl, rfl⟩ := hcall
    obtain ⟨hreach, hn₂, hs₂, hv⟩ := tuple_spec hok h₀ hready
    have h₃ := hreach.next hn₂ hs₂
    have hrest := (hr.next hn hs).trans hrun
    have ho := reach_ordered (hok.reach (h₃.trans hrest))
    have hall := (started_call (hok.reach hreach) hs₂).reach (hok.reach h₃) (hok.reach hrest)
    have hvoid := voids_reach hok (reach_ordered (hok.reach h₃)) hrest hv
    obtain ⟨b, k₀, hk⟩ := call_top (by simp) hs
    have he := then_edge (w := (Overload.tuple k).contract built fs) hk hs
    have ho₅ := reach_ordered (hok.reach (h₃.trans (hr.next hn hs)))
    refine combined_of (f := .then_ k) (fun v b h => h) (fun r hr => ?_) ho (hall.tuple ho hvoid)
      (reach_edge hok ho₅ rfl hrun he)
    exact gathered_iff.mpr (hr.ends rfl)

/-- Both overloads of `when_all`, in every run: the future that is returned gathers the given
futures by position, and runs with the same outcomes in any order give it the same outcome. Both
recursions over a tuple are the traversal from its first element to its last. -/
theorem when_all_is_order_independent (built : List (Value α) → Option (Exception ε))
    (o : Overload) (fs : List Future) (call : Call) (c : Config α ε)
    (h : Called built o fs call c) :
    Combined built c fs call ∧
    (∀ o' fs' call' c', Called built o' fs' call' c' → SameOutcomes c c' fs fs' →
      ∀ r r', outcome c call.rs = some r → outcome c' call'.rs = some r' → r = r') ∧
    ∀ (m : Type → Type) [Monad m] [LawfulMonad m] (x : List Future) (func : Future → m (Value α)),
      tuple_meta.tuple_transform x func [] 0 = x.mapM func ∧
      tuple_meta.tuple_map x func = x.mapM func := by
  refine ⟨h.combined, fun o' fs' call' c' h' hsame r r' hr hr' => ?_, fun m _ _ x func =>
    ⟨tuple_meta.tuple_transform_eq_mapM x func, tuple_meta.tuple_map_eq_mapM x func⟩⟩
  obtain ⟨r₀, hg, rfl⟩ := h.combined.gathers r hr
  obtain ⟨r₁, hg', rfl⟩ := h'.combined.gathers r' hr'
  rw [hsame.gathered hg hg']

/-- Two failed futures: with a list the second one fails first, and with a tuple the first one. -/
theorem when_all_is_order_independent_here :
    ∃ (c c' : Config Unit Nat) (call call' : Call),
      Called (fun _ => none) .list [some 0, some 1] call c ∧
      Called (fun _ => none) (.tuple 0) [some 0, some 1] call' c' ∧
      outcome c call.rs = some (.error (.user 0)) ∧
      outcome c' call'.rs = some (.error (.user 0)) ∧
      Combined (fun _ => none) c [some 0, some 1] call ∧
      Combined (fun _ => none) c' [some 0, some 1] call' := by
  have hruns : ∃ c₀ c₁ c₂ c₃ c₄ c₅ c₆ c₇ c₈ c₉ c₁₀ c₁₁ c₁₂ : Config Unit Nat,
      run step (init Unit Nat 1) [(0, .promise none), (0, .promise none)] = some c₀ ∧
      step c₀ (0, .when_all [some 0, some 1] none) = some c₁ ∧
      run step c₁ (List.replicate 3 (0, .tick none)) = some c₂ ∧
      c₂.threads[0]? = some [.when_all_then 2 [some 0, some 1], .user .main] ∧
      step c₂ (0, .tick none) = some c₃ ∧
      run step c₃ ((0, .set_exception 1 (some (.user 1))) :: List.replicate 4 (0, .tick none) ++
        (0, .set_exception 0 (some (.user 0))) :: List.replicate 10 (0, .tick none)) = some c₄ ∧
      outcome c₄ 3 = some (.error (.user 0)) ∧
      step c₀ (0, .then_ (some 0) .ignore) = some c₅ ∧
      step c₅ (0, .then_ (some 1) .ignore) = some c₆ ∧
      step c₆ (0, .when_all_ready [some 2, some 3] none) = some c₇ ∧
      run step c₇ (List.replicate 3 (0, .tick none)) = some c₈ ∧
      step c₈ (0, .then_ (some 4) (.then_ 0)) = some c₉ ∧
      run step c₉ ((0, .set_exception 0 (some (.user 0))) :: List.replicate 10 (0, .tick none) ++
        (0, .set_exception 1 (some (.user 1))) :: List.replicate 8 (0, .tick none)) = some c₁₀ ∧
      outcome c₁₀ 0 = some (.error (.user 0)) ∧
      step c₁₀ (0, .throw_ (.user 0)) = some c₁₁ ∧
      run step c₁₁ (List.replicate 2 (0, .tick none)) = some c₁₂ ∧
      outcome c₁₂ 5 = some (.error (.user 0)) ∧ c₀.states.length = 2 ∧ c₂.states.length = 3 ∧
      c₅.states.length = 3 ∧ c₆.states.length = 4 ∧ c₈.states.length = 5 ∧ c₁₀.threads[0]? = some (.user (.callback 4 5 (.then_ 0)) ::
        [.invoking 4, .drain 4 [], .invoking 3, .drain 3 [], .catch_ 3, .invoking 1, .drain 1 [],
          .user .main]) :=
    ⟨_, _, _, _, _, _, _, _, _, _, _, _, _, rfl, rfl, rfl, rfl, rfl, rfl, rfl, rfl, rfl, rfl, rfl,
      rfl, rfl, rfl, rfl, rfl, rfl, rfl, rfl, rfl, rfl, rfl, rfl⟩
  obtain ⟨c₀, c₁, c₂, c₃, c₄, c₅, c₆, c₇, c₈, c₉, c₁₀, c₁₁, c₁₂, h0, h1, h2, hk2, h3, h4, hr4, h5,
    h6, h7, h8, h9, h10, ho10, h11, h12, hr12, hlen0, hlen2, hlen5, hlen6,
    hlen8, hk10⟩ := hruns
  have keep : ∀ (o : Overload) c (ev : Nat × Action Unit Nat), ev.2.silent = true →
      o.Keeps (fun _ => none) [some 0, some 1] c ev := by
    intro o c ev hev
    refine ⟨silent_orderly c hev, Contract.allows_silent (fun v => ?_) c hev⟩
    cases o <;> exact fun _ _ => rfl
  have silent : ∀ (o : Overload) (evs : List (Nat × Action Unit Nat)) s s',
      (∀ ev ∈ evs, ev.2.silent = true) → run step s evs = some s' →
      Reach step (o.Keeps (fun _ => none) [some 0, some 1]) s s' :=
    fun o evs s s' hall hrun => reach_of_run _ _ _ (fun t ev hev => keep o t ev (hall ev hev)) hrun
  have hthrow : (Overload.tuple 0).Keeps (fun _ => none) [some 0, some 1] c₁₀
      (0, .throw_ (.user 0)) := by
    refine ⟨⟨fun p hp => (by cases hp), fun x f k hx hk => ?_⟩,
      fun e k v hk ha => (by cases ha), fun e k x hk ha hf => ?_, fun rs v k b hk ha => (by cases ha)⟩
    · rw [hk10] at hk
      cases hk
    · cases ha
      exact gathered_iff.mp (Or.inr ⟨[], some 0, [some 1], [], .user 0, rfl, .nil, ho10, rfl⟩)
  have hlist : Called (fun _ => none) .list [some 0, some 1] ⟨c₀.counters.length,
      c₀.states.length, [some 0, some 1], c₂.states.length⟩ c₄ := by
    refine ⟨1, 0, none, c₀, c₃, silent _ _ _ _ (by decide) h0, ?_,
      silent _ _ _ _ (by decide) h4⟩
    refine ⟨c₀, c₁, ⟨Reach.start _, keep _ _ _ rfl, h1⟩, _, c₃, ⟨c₂, [.user .main], none,
      silent _ _ _ _ (by decide) h2, ?_, keep _ _ _ rfl, h3, rfl⟩, rfl, rfl⟩
    rw [hlen0]
    exact hk2
  have htuple : Called (fun _ => none) (.tuple 0) [some 0, some 1] ⟨c₆.counters.length,
      c₆.states.length, [some 2, some 3], c₈.states.length⟩ c₁₂ := by
    refine ⟨1, 0, none, c₀, c₉, silent _ _ _ _ (by decide) h0, ?_,
      (Reach.next (silent _ _ _ _ (by decide) h10) hthrow h11).trans
        (silent _ _ _ _ (by decide) h12)⟩
    refine ⟨([some 2, some 3], c₆), c₇, ?_, c₈, c₉,
      ⟨silent _ _ _ _ (by decide) h8, keep _ _ _ rfl, ?_⟩, rfl, rfl⟩
    · unfold when_all_ready_tuple
      rw [tuple_meta.tuple_transform_eq_mapM, List.mapM_cons, List.mapM_cons, List.mapM_nil]
      refine ⟨[some 2, some 3], c₆, ⟨some 2, c₅, ⟨c₀, c₅, ⟨Reach.start _, keep _ _ _ rfl, h5⟩,
        ?_, rfl⟩, [some 3], c₆, ⟨some 3, c₆, ⟨c₅, c₆, ⟨Reach.start _, keep _ _ _ rfl, h6⟩, ?_,
        rfl⟩, [], c₆, ⟨rfl, rfl⟩, rfl, rfl⟩, rfl, rfl⟩, c₆, c₇,
        ⟨Reach.start _, keep _ _ _ rfl, h7⟩, rfl, rfl⟩
      · rw [hlen0]
      · rw [hlen5]
    · rw [hlen6]
      exact h9
  refine ⟨c₄, c₁₂, _, _, hlist, htuple, ?_, ?_, ?_, ?_⟩
  · rw [hlen2]
    exact hr4
  · rw [hlen8]
    exact hr12
  · exact (when_all_is_order_independent (fun _ => none) .list _ _ c₄ hlist).1
  · exact (when_all_is_order_independent (fun _ => none) (.tuple 0) _ _ c₁₂ htuple).1

end ltl.futures
