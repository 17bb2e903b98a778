-- The life of one call of `then`: its continuation waits on the source, is
-- swapped out, called and ended, and its result goes to the state that `then`
-- returned. One case analysis over the steps serves every use of `then`.
import Ltl.Places
import Ltl.Unwrap
import Mathlib.Data.List.Forall2

open ltl.future_state runs counts

namespace ltl.futures

variable {α ε : Type}

/-- A call of `then` on `src` with the function `func`, which returned the future of `rs`. -/
structure Edge where
  src : StateId
  rs : StateId
  func : Func
  deriving DecidableEq, Repr

def Edge.cont (e : Edge) : Cont := .invoke_and_set_value e.src e.rs e.func

/-- `unwrap` sets a second state. The other functions end with one result. -/
def Func.simple : Func → Bool
  | .unwrap _ => false
  | _ => true

/-! ## The results -/

/-- What is known of client code: how the function of a `then` may end, and what the constructor
of a stored value may throw. -/
structure Contract (α ε : Type) where
  ends : Config α ε → Edge → Except (Exception ε) (Value α) → Prop
  stores : Value α → Option (Exception ε) → Prop

/-- What a function may end with stays so. -/
def Contract.Stable (w : Contract α ε) : Prop :=
  ∀ c c' e r, Grows c c' → w.ends c e r → w.ends c' e r

/-- The event keeps to the contract. -/
structure Contract.Allows (w : Contract α ε) (c : Config α ε) (ev : Nat × Action α ε) :
    Prop where
  returns : ∀ (e : Edge) k v, c.threads[ev.1]? = some (.user (.callback e.src e.rs e.func) :: k) →
    ev.2 = .ret v → w.ends c e (.ok v)
  throws : ∀ (e : Edge) k x, c.threads[ev.1]? = some (.user (.callback e.src e.rs e.func) :: k) →
    ev.2 = .throw_ x → w.ends c e (.error x)
  stores : ∀ rs v k b, c.threads[ev.1]? = some (.try_set rs (.ok v) :: k) →
    ev.2 = .tick b → w.stores v b

/-- An event that keeps to a contract wherever it happens, when nothing that is stored throws. -/
def Action.silent : Action α ε → Bool
  | .ret _ => false
  | .tick (some _) => false
  | a => a.plain

theorem silent_orderly (c : Config α ε) {ev : Nat × Action α ε} (h : ev.2.silent = true) :
    Orderly c ev := by
  obtain ⟨t, a⟩ := ev
  refine plain_orderly c ?_
  cases a <;> simp_all [Action.silent, Action.plain]

theorem Contract.allows_silent {w : Contract α ε} (hw : ∀ v, w.stores v none) (c : Config α ε)
    {ev : Nat × Action α ε} (h : ev.2.silent = true) : w.Allows c ev := by
  obtain ⟨t, a⟩ := ev
  refine ⟨fun e k v hk ha => ?_, fun e k x hk ha => ?_, fun rs v k b hk ha => ?_⟩
  · simp only at ha
    subst ha
    cases h
  · simp only at ha
    subst ha
    cases h
  · simp only at ha
    subst ha
    cases b with
    | none => exact hw v
    | some x => cases h

/-- The futures are valid and hold these values. -/
def Values (c : Config α ε) (fs : List Future) (vs : List (Value α)) : Prop :=
  List.Forall₂ (fun f v => ∃ st, f = some st ∧ outcome c st = some (.ok v)) fs vs

/-- What `get` on the future throws. -/
def Fails (c : Config α ε) (f : Future) (x : Exception ε) : Prop :=
  match f with
  | none => x = .no_state
  | some st => outcome c st = some (.error x)

/-- The result of the function of `when_all`: all the values, or the exception of the first future
that has none. -/
def Gathered (c : Config α ε) (fs : List Future) (r : Except (Exception ε) (Value α)) : Prop :=
  (∃ vs, Values c fs vs ∧ r = .ok (.vec vs)) ∨
    ∃ done f rest vs x, fs = done ++ f :: rest ∧ Values c done vs ∧ Fails c f x ∧ r = .error x

/-- How the function of `e` may end. `next` passes the exception of its source through. -/
def Contract.Ends (w : Contract α ε) (c : Config α ε) (e : Edge)
    (r : Except (Exception ε) (Value α)) : Prop :=
  match e.func with
  | .then_ _ => w.ends c e r
  | .next_ _ => (∃ v, outcome c e.src = some (.ok v) ∧ w.ends c e r) ∨
      ∃ x, outcome c e.src = some (.error x) ∧ r = .error x
  | .ignore => r = .ok .unit
  | .get_all fs => Gathered c fs r
  | _ => False

/-- A result on its way: the source is ready, and the function ended so. -/
structure Contract.Right (w : Contract α ε) (c : Config α ε) (e : Edge)
    (r : Except (Exception ε) (Value α)) : Prop where
  ready : Ready c e.src
  ends : w.Ends c e r

/-- What is stored for the end `r` of a function. -/
def Contract.Settles (w : Contract α ε) :
    Except (Exception ε) (Value α) → Except (Exception ε) (Value α) → Prop
  | .ok v, r => ∃ b, w.stores v b ∧ r = storedAs v b
  | .error x, r => r = .error x

/-- An outcome that the state of `e` may have. -/
def Contract.Outcome (w : Contract α ε) (c : Config α ε) (e : Edge)
    (r : Except (Exception ε) (Value α)) : Prop := ∃ r₀, w.Right c e r₀ ∧ w.Settles r₀ r

theorem Values.grows {c c' : Config α ε} (h : Grows c c') {fs : List Future}
    {vs : List (Value α)} (hv : Values c fs vs) : Values c' fs vs :=
  List.Forall₂.imp (fun _ _ ⟨st, hf, ho⟩ => ⟨st, hf, h.outcome ho⟩) hv

theorem Fails.grows {c c' : Config α ε} (h : Grows c c') {f : Future} {x : Exception ε}
    (hf : Fails c f x) : Fails c' f x := by
  cases f with
  | none => exact hf
  | some st => exact h.outcome hf

theorem Gathered.grows {c c' : Config α ε} (h : Grows c c') {fs : List Future}
    {r : Except (Exception ε) (Value α)} (hr : Gathered c fs r) : Gathered c' fs r := by
  rcases hr with ⟨vs, hv, hr⟩ | ⟨done, f, rest, vs, x, hfs, hv, hf, hr⟩
  · exact Or.inl ⟨vs, hv.grows h, hr⟩
  · exact Or.inr ⟨done, f, rest, vs, x, hfs, hv.grows h, hf.grows h, hr⟩

variable {w : Contract α ε}

theorem Contract.Right.grows (hw : w.Stable) {c c' : Config α ε} (h : Grows c c') {e : Edge}
    {r : Except (Exception ε) (Value α)} (hr : w.Right c e r) : w.Right c' e r := by
  refine ⟨h.ready hr.ready, ?_⟩
  have hends := hr.ends
  unfold Contract.Ends at hends ⊢
  cases hf : e.func with
  | then_ k =>
    simp only [hf] at hends
    exact hw _ _ _ _ h hends
  | next_ k =>
    simp only [hf] at hends
    rcases hends with ⟨v, hv, hends⟩ | ⟨x, hx, hr⟩
    · exact Or.inl ⟨v, h.outcome hv, hw _ _ _ _ h hends⟩
    · exact Or.inr ⟨x, h.outcome hx, hr⟩
  | ignore => simpa only [hf] using hends
  | get_all fs =>
    simp only [hf] at hends
    exact hends.grows h
  | unwrap s => simp only [hf] at hends

theorem Contract.Outcome.grows (hw : w.Stable) {c c' : Config α ε} (h : Grows c c') {e : Edge}
    {r : Except (Exception ε) (Value α)} (hr : w.Outcome c e r) : w.Outcome c' e r := by
  obtain ⟨r₀, hright, hset⟩ := hr
  exact ⟨r₀, hright.grows hw h, hset⟩

/-! ## The steps of a thread, by the top of its stack -/

theorem step_tick {c c' : Config α ε} {t : Nat} {a : Action α ε} {f : Frame α ε}
    {k : List (Frame α ε)} (hk : c.threads[t]? = some (f :: k)) (hf : ∀ b, f ≠ .user b)
    (h : step c (t, a) = some c') : ∃ b, a = .tick b ∧ tick c t f k b = some c' := by
  unfold step at h
  split at h
  · cases h
  · rw [hk] at h
    cases f with
    | user b => exact absurd rfl (hf b)
    | _ =>
      cases a with
      | tick b => exact ⟨b, rfl, h⟩
      | _ => cases h

theorem step_call {c c' : Config α ε} {t : Nat} {a : Action α ε} {b : Body}
    {k : List (Frame α ε)} (hk : c.threads[t]? = some (.user b :: k))
    (h : step c (t, a) = some c') : call c t b k a = some c' := by
  unfold step at h
  split at h
  · cases h
  · rw [hk] at h
    exact h

theorem put_top {c : Config α ε} {t : Nat} {k k' : List (Frame α ε)}
    (hk : c.threads[t]? = some k) : (c.put t k').threads[t]? = some k' := by
  simp only [Config.put]
  rw [List.getElem?_set_self (List.getElem?_eq_some_iff.mp hk).1]

theorem setMove_keeps {c c' : Config α ε} {t : Nat} {a : Action α ε} {st : StateId}
    {allow : Bool} {b : Body} {k : List (Frame α ε)} (hk : c.threads[t]? = some (.user b :: k))
    (h : SetMove c t a st allow (.user b :: k) c') : InStack c' (.user b) := by
  cases h with
  | value s v hs hr => exact inStack_put (c := c) hk (by simp)
  | exception s x hs hr hx => exact inStack_put (c := c) hk (by simp)
  | ignored s hs hr ha => exact inStack_put (c := c) hk (by simp)
  | already s hs hr ha =>
    rw [throwTo_user]
    exact inStack_put (c := c) hk (by simp)
  | built s x hs hr =>
    rw [throwTo_user]
    exact inStack_put (c := c) hk (by simp)

theorem lockedAdd_keeps {c d c' : Config α ε} {t : Nat} {st : StateId} {kont : Cont}
    {f : Frame α ε} {k : List (Frame α ε)} (hk : c.threads[t]? = some (f :: k))
    (ht : d.threads = c.threads) (h : lockedAdd d t st kont (f :: k) = some c') :
    InStack c' f := by
  rw [← ht] at hk
  obtain ⟨s, hs, ⟨-, rfl⟩ | ⟨-, rfl⟩⟩ := lockedAdd.spec h
  · exact inStack_put (c := d) hk (by simp)
  · exact inStack_put (c := d) hk (by simp)

theorem lockedWait_keeps {c c' : Config α ε} {t : Nat} {st : StateId} {g : Bool} {f : Frame α ε}
    {k : List (Frame α ε)} (hk : c.threads[t]? = some (f :: k))
    (h : lockedWait c t st g (f :: k) = some c') : InStack c' f := by
  obtain ⟨s, hs, ⟨-, rfl⟩ | ⟨-, -, rfl⟩ | ⟨-, -, rfl⟩⟩ := lockedWait.spec h
  · exact inStack_put hk (waited_keeps (by simp))
  · exact inStack_put (c := c) hk (by simp)
  · exact inStack_put hk (by simp)

/-- Client code goes on until it returns or throws. -/
theorem call_keeps {c c' : Config α ε} {t : Nat} {b : Body} {k : List (Frame α ε)}
    {a : Action α ε} (hk : c.threads[t]? = some (.user b :: k))
    (h : call c t b k a = some c') :
    InStack c' (.user b) ∨ (∃ v, a = .ret v) ∨ ∃ x, a = .throw_ x := by
  have stay : InStack c (.user b) := inStack_top hk
  cases a with
  | tick built => cases h
  | ret v => exact Or.inr (Or.inl ⟨v, rfl⟩)
  | throw_ x => exact Or.inr (Or.inr ⟨x, rfl⟩)
  | promise q =>
    cases h
    exact Or.inl stay
  | set_value p v built allow =>
    simp only [call] at h
    split at h
    · exact Or.inl (setMove_keeps (a := .set_value p v built allow) hk (set_value_impl_move h))
    · cases h
  | set_exception p x =>
    simp only [call] at h
    split at h
    · exact Or.inl (setMove_keeps hk
        (set_exception_move (a := .set_exception p x) (fun hx => by rw [hx]) h))
    · cases h
  | then_ f func =>
    cases f with
    | none =>
      cases h
      exact Or.inl stay
    | some st =>
      simp only [call] at h
      split at h
      · exact Or.inl (lockedAdd_keeps (d := c.alloc {}) hk rfl h)
      · cases h
  | continue_with st f => exact Or.inl (lockedAdd_keeps hk rfl h)
  | wait f =>
    cases f with
    | none =>
      cases h
      exact Or.inl stay
    | some st => exact Or.inl (lockedWait_keeps hk h)
  | get f =>
    cases f with
    | none =>
      cases h
      exact Or.inl stay
    | some st =>
      cases h
      exact Or.inl (inStack_put hk (by simp))
  | when_all_ready fs q =>
    cases fs with
    | nil =>
      cases h
      exact Or.inl stay
    | cons f fs =>
      cases h
      exact Or.inl (inStack_put (c := c) hk (by simp))
  | when_all fs q =>
    cases fs with
    | nil =>
      cases h
      exact Or.inl (inStack_put (c := c) hk (by simp))
    | cons f fs =>
      cases h
      exact Or.inl (inStack_put (c := c) hk (by simp))
  | unwrap f =>
    cases f with
    | none =>
      cases h
      exact Or.inl stay
    | some st =>
      simp only [call] at h
      split at h
      · cases h
      · exact Or.inl (lockedAdd_keeps (d := ((c.alloc _).alloc {}).note _) hk rfl h)

/-! ## Where an edge is -/

/-- The life of an edge. `collecting` and `getting` are the function of `when_all`, between two
reads and in one. -/
inductive EdgeAt (w : Contract α ε) (c : Config α ε) (e : Edge) : Prop where
  | stored (i : Id) (h : Stored c e.src (i, e.cont))
  | draining (i : Id) (h : Draining c e.src (i, e.cont))
  | called (h : InStack c (.exec e.cont))
  | running (h : InStack c (.user (.callback e.src e.rs e.func)))
      (hc : (∃ k, e.func = .then_ k) ∨ ∃ k v, e.func = .next_ k ∧ outcome c e.src = some (.ok v))
  | collecting (t : Nat) (k : List (Frame α ε)) (done fs vs) (h : c.threads[t]? = some (.get_all e.rs fs vs :: k))
      (hf : e.func = .get_all (done ++ fs)) (hv : Values c done vs) (hs : Ready c e.src)
  | getting (t : Nat) (f : Frame α ε) (k st done fs vs)
      (h : c.threads[t]? = some (f :: .get_all e.rs fs vs :: k))
      (hg : f = .future_get st ∨ f = .waiting st true ∨ f = .reading st)
      (hf : e.func = .get_all (done ++ some st :: fs)) (hv : Values c done vs)
      (hs : Ready c e.src)
  | trying (r : Except (Exception ε) (Value α)) (h : InStack c (.try_set e.rs r))
      (hr : w.Right c e r)
  | handling (x : Exception ε) (h : InStack c (.handler e.rs x)) (hx : w.Outcome c e (.error x))
  | settled (r : Except (Exception ε) (Value α)) (h : outcome c e.rs = some r)
      (hr : w.Outcome c e r)

theorem owners_of_frame {c : Config α ε} {f : Frame α ε} (hin : InStack c f) (st : StateId) :
    f.owns st ≤ owners c st := by
  obtain ⟨k, hk, hf⟩ := hin
  obtain ⟨t, ht⟩ := List.mem_iff_getElem?.mp hk
  have h1 := le_total (Frame.owns st) k f hf
  have h2 := stackOwns_le st ht
  unfold stackOwns at h2
  omega

theorem owners_of_stored {c : Config α ε} {st : StateId} {p : Id × Cont} (h : Stored c st p)
    (rs : StateId) : p.2.owns rs ≤ owners c rs := by
  obtain ⟨s, hs, hp⟩ := h
  have h1 := le_total (fun p : Id × Cont => p.2.owns rs) s.continuations_ p hp
  have h2 := le_total (fun s : State α ε => contsOwn rs s.continuations_) c.states s
    (List.mem_of_getElem? hs)
  unfold owners weigh
  simp only [ownersOf, contsOwn] at h2 ⊢
  omega

theorem owners_of_draining {c : Config α ε} {st : StateId} {p : Id × Cont} (h : Draining c st p)
    (rs : StateId) : p.2.owns rs ≤ owners c rs := by
  obtain ⟨cs, hin, hp⟩ := h
  have h1 := le_total (fun p : Id × Cont => p.2.owns rs) cs p hp
  have h2 := owners_of_frame hin rs
  simp only [Frame.owns, contsOwn] at h2
  omega

/-- The one owner of a state is in one place. -/
theorem Owned.same_frame {c : Config α ε} (ho : Owned c) (st : StateId) {f f' : Frame α ε}
    (hin : InStack c f) (hin' : InStack c f') (hf : 0 < f.owns st) (hf' : 0 < f'.owns st) :
    f = f' := by
  obtain ⟨k, hk, hfk⟩ := hin
  obtain ⟨k', hk', hfk'⟩ := hin'
  have hone := ho.one_owner st
  have hthreads : total (stackOwns st) c.threads ≤ 1 := by
    have hw : owners c st = weigh (ownersOf st) c := rfl
    have hf : total (total (ownersOf st : Weights α ε).frame) c.threads =
      total (stackOwns st) c.threads := rfl
    unfold weigh at hw
    omega
  have hpos : 0 < stackOwns st k := Nat.lt_of_lt_of_le hf (le_total _ _ _ hfk)
  have hpos' : 0 < stackOwns st k' := Nat.lt_of_lt_of_le hf' (le_total _ _ _ hfk')
  obtain rfl := eq_of_total_le_one _ _ hthreads hk hk' hpos hpos'
  have hstack : stackOwns st k ≤ 1 := Nat.le_trans (le_total _ _ _ hk) hthreads
  exact eq_of_total_le_one _ _ hstack hfk hfk' hf hf'

/-- The state of an edge that has not settled has an owner. -/
theorem EdgeAt.owned {c : Config α ε} {e : Edge} (h : EdgeAt w c e) :
    0 < owners c e.rs ∨ ∃ r, outcome c e.rs = some r ∧ w.Outcome c e r := by
  have hcont : 0 < e.cont.owns e.rs := by
    simp only [Edge.cont, Cont.owns, one_self]
    omega
  have frame : ∀ f, InStack c f → f.owns e.rs = 1 → 0 < owners c e.rs := fun f hin hf => by
    have := owners_of_frame hin e.rs
    omega
  cases h with
  | stored i h =>
    exact Or.inl (Nat.lt_of_lt_of_le hcont (owners_of_stored h e.rs))
  | draining i h =>
    exact Or.inl (Nat.lt_of_lt_of_le hcont (owners_of_draining h e.rs))
  | called h =>
    exact Or.inl (Nat.lt_of_lt_of_le hcont (owners_of_frame h e.rs))
  | running h hc => exact Or.inl (frame _ h (by simp [Frame.owns]))
  | collecting t k done fs vs h hf hv hs =>
    exact Or.inl (frame _ (inStack_top h) (by simp [Frame.owns]))
  | getting t f k st done fs vs h hg hf hv hs =>
    have hin : InStack c (.get_all e.rs fs vs) := ⟨_, List.mem_of_getElem? h, by simp⟩
    exact Or.inl (frame _ hin (by simp [Frame.owns]))
  | trying r h hr => exact Or.inl (frame _ h (by simp [Frame.owns]))
  | handling x h hx => exact Or.inl (frame _ h (by simp [Frame.owns]))
  | settled r h hr => exact Or.inr ⟨r, h, hr⟩

/-- An outcome of the state of an edge is one that its function asks for. -/
theorem EdgeAt.outcome {c : Config α ε} (ho : Owned c) {e : Edge} (h : EdgeAt w c e)
    {r : Except (Exception ε) (Value α)} (hr : futures.outcome c e.rs = some r) :
    w.Outcome c e r := by
  rcases h.owned with hpos | ⟨r', hr', hout⟩
  · exact absurd (ready_iff_outcome.mpr ⟨r, hr⟩) (ho.not_ready hpos)
  · rw [hr] at hr'
    cases hr'
    exact hout

/-- Where nothing that runs is to set the state of an edge, the state is ready when the source
is. -/
theorem EdgeAt.ready_iff {c : Config α ε} (hg : Good c) (ho : Owned c) {e : Edge}
    (h : EdgeAt w c e) (hidle : ∀ k ∈ c.threads, stackOwns e.rs k = 0) :
    Ready c e.rs ↔ Ready c e.src := by
  constructor
  · intro hr
    obtain ⟨r, hr⟩ := ready_iff_outcome.mp hr
    obtain ⟨r₀, hright, -⟩ := h.outcome ho hr
    exact hright.ready
  · intro hsrc
    have no_frame : ∀ f, InStack c f → f.owns e.rs = 0 := fun f ⟨k, hk, hf⟩ =>
      (total_eq_zero_iff _ _).mp (hidle k hk) f hf
    have hcont : e.cont.owns e.rs ≠ 0 := by
      simp only [Edge.cont, Cont.owns, one_self]
      omega
    cases h with
    | stored i h => exact absurd hsrc (h.not_ready hg)
    | draining i h =>
      obtain ⟨cs, hin, hp⟩ := h
      have h0 := (total_eq_zero_iff _ _).mp (no_frame _ hin) _ hp
      exact absurd h0 hcont
    | called h => exact absurd (no_frame _ h) hcont
    | running h hc =>
      have := no_frame _ h
      simp [Frame.owns] at this
    | collecting t k done fs vs h hf hv hs =>
      have := no_frame _ (inStack_top h)
      simp [Frame.owns] at this
    | getting t f k st done fs vs h hg' hf hv hs =>
      have := no_frame (.get_all e.rs fs vs) ⟨_, List.mem_of_getElem? h, by simp⟩
      simp [Frame.owns] at this
    | trying r h hr =>
      have := no_frame _ h
      simp [Frame.owns] at this
    | handling x h hx =>
      have := no_frame _ h
      simp [Frame.owns] at this
    | settled r h hr => exact ready_iff_outcome.mpr ⟨r, h⟩

/-! ## The steps of an edge -/

/-- The function of an edge is called. -/
theorem exec_edge {c c' : Config α ε} {t : Nat} {e : Edge} {k : List (Frame α ε)}
    {b : Option (Exception ε)} (hk : c.threads[t]? = some (.exec e.cont :: k))
    (hg : Good c) (hsim : e.func.simple = true) (h : tick c t (.exec e.cont) k b = some c') :
    EdgeAt w c' e := by
  have hin : InStack c (.exec e.cont) := inStack_top hk
  have hsrc : Ready c e.src := hg.threads _ (List.mem_of_getElem? hk) _ List.mem_cons_self
  have hput : ∀ k', Grows c (c.put t k') := fun k' => Grows.of_eq rfl rfl
  simp only [tick, Edge.cont, exec] at h
  unfold execFunc at h
  cases hf : e.func with
  | then_ n =>
    simp only [hf, Option.some.injEq] at h
    subst h
    exact .running (by rw [hf]; exact inStack_put hk (by simp)) (Or.inl ⟨n, hf⟩)
  | next_ n =>
    simp only [hf] at h
    rcases readState_some h with ⟨-, -, rfl⟩ | ⟨r, hr, h⟩
    · exact .called hin
    · cases r with
      | ok v =>
        cases h
        exact .running (by rw [hf]; exact inStack_put hk (by simp)) (Or.inr ⟨n, v, hf, hr⟩)
      | error x =>
        cases h
        refine .trying (.error x) (inStack_put hk (by simp)) ⟨(hput _).ready hsrc, ?_⟩
        simp only [Contract.Ends, hf]
        exact Or.inr ⟨x, hr, rfl⟩
  | ignore =>
    simp only [hf, Option.some.injEq] at h
    subst h
    exact .trying (.ok .unit) (inStack_put hk (by simp)) ⟨(hput _).ready hsrc,
      by simp only [Contract.Ends, hf]⟩
  | get_all fs =>
    simp only [hf, Option.some.injEq] at h
    subst h
    exact .collecting t k [] fs [] (put_top hk) (by simp [hf]) .nil ((hput _).ready hsrc)
  | unwrap s =>
    rw [hf] at hsim
    cases hsim

/-- The function of an edge runs. -/
theorem callback_edge {c c' : Config α ε} {t : Nat} {a : Action α ε} {e : Edge}
    {k : List (Frame α ε)} (hw : w.Stable)
    (hk : c.threads[t]? = some (.user (.callback e.src e.rs e.func) :: k)) (hg : Good c)
    (hal : w.Allows c (t, a)) (hgrow : Grows c c')
    (hc : (∃ k, e.func = .then_ k) ∨ ∃ k v, e.func = .next_ k ∧ outcome c e.src = some (.ok v))
    (h : call c t (.callback e.src e.rs e.func) k a = some c') : EdgeAt w c' e := by
  have hsrc : Ready c e.src := (hg.threads _ (List.mem_of_getElem? hk) _ List.mem_cons_self).1
  have right : ∀ r, w.ends c e r → w.Right c' e r := by
    intro r hends
    refine Contract.Right.grows hw hgrow ⟨hsrc, ?_⟩
    unfold Contract.Ends
    rcases hc with ⟨n, hf⟩ | ⟨n, v, hf, hv⟩
    · simpa only [hf] using hends
    · simp only [hf]
      exact Or.inl ⟨v, hv, hends⟩
  rcases call_keeps hk h with hin | ⟨v, rfl⟩ | ⟨x, rfl⟩
  · refine .running hin (hc.imp_right ?_)
    rintro ⟨n, v, hf, hv⟩
    exact ⟨n, v, hf, hgrow.outcome hv⟩
  · cases h
    exact .trying (.ok v) (inStack_put hk (by simp)) (right _ (hal.returns e k v hk rfl))
  · cases h
    exact .trying (.error x) (inStack_put hk (by simp)) (right _ (hal.throws e k x hk rfl))

/-- A result is stored: the state has its value now, or its `set_exception` is next. -/
theorem try_set_ends {c c' : Config α ε} {t : Nat} {rs : StateId} {k : List (Frame α ε)}
    {r : Except (Exception ε) (Value α)} {b : Option (Exception ε)}
    (hk : c.threads[t]? = some (.try_set rs r :: k)) (ho : Owned c)
    (h : tick c t (.try_set rs r) k b = some c') :
    (∃ v, r = .ok v ∧ b = none ∧ outcome c' rs = some (.ok v)) ∨
      ∃ x, (r = .error x ∨ ∃ v, r = .ok v ∧ b = some x) ∧ InStack c' (.handler rs x) := by
  cases r with
  | error x =>
    cases h
    exact Or.inr ⟨x, Or.inl rfl, inStack_put hk (by simp)⟩
  | ok v =>
    have hpos := owners_of_frame (inStack_top hk) rs
    simp only [Frame.owns, one_self] at hpos
    obtain ⟨s, hs, hpend⟩ := ho.pending rs hpos
    cases b with
    | none =>
      simp only [tick, lockedSet, hs, storedAs, future_state.set_value, set_value_impl, hpend,
        Bool.false_eq_true, if_false, Option.some.injEq] at h
      subst h
      refine Or.inl ⟨v, rfl, rfl, ?_⟩
      refine (outcome_settle_self (u := { s with value_ := some v }) hs).trans ?_
      simp [future_state.get, (pending_absent hpend).2]
    | some x =>
      simp only [tick, lockedSet, hs, storedAs, future_state.set_value, set_value_impl, hpend,
        Bool.false_eq_true, if_false, throwTo_catch, Option.some.injEq] at h
      subst h
      exact Or.inr ⟨x, Or.inr ⟨v, rfl, rfl⟩, inStack_put (c := c.note _) hk (by simp)⟩

theorem handler_ends {c c' : Config α ε} {t : Nat} {rs : StateId} {k : List (Frame α ε)}
    {x : Exception ε} {b : Option (Exception ε)}
    (hk : c.threads[t]? = some (.handler rs x :: k)) (ho : Owned c)
    (h : tick c t (.handler rs x) k b = some c') : outcome c' rs = some (.error x) := by
  have hpos := owners_of_frame (inStack_top hk) rs
  simp only [Frame.owns, one_self] at hpos
  obtain ⟨s, hs, hpend⟩ := ho.pending rs hpos
  simp only [tick, lockedSet, hs, future_state.set_exception, hpend, Bool.false_eq_true, if_false,
    Option.some.injEq] at h
  subst h
  refine (outcome_settle_self (u := { s with exception_ := some x }) hs).trans ?_
  simp [future_state.get]

/-- The result of an edge is stored. -/
theorem try_set_edge {c c' : Config α ε} {t : Nat} {e : Edge} {k : List (Frame α ε)}
    {r : Except (Exception ε) (Value α)} {b : Option (Exception ε)} (hw : w.Stable)
    (hk : c.threads[t]? = some (.try_set e.rs r :: k)) (ho : Owned c)
    (hal : w.Allows c (t, .tick b)) (hgrow : Grows c c') (hr : w.Right c e r)
    (h : tick c t (.try_set e.rs r) k b = some c') : EdgeAt w c' e := by
  have hr' := hr.grows hw hgrow
  rcases try_set_ends hk ho h with ⟨v, rfl, rfl, hset⟩ | ⟨x, rfl | ⟨v, rfl, rfl⟩, hin⟩
  · exact .settled (.ok v) hset ⟨_, hr', none, hal.stores e.rs v k none hk rfl, rfl⟩
  · exact .handling x hin ⟨_, hr', rfl⟩
  · exact .handling x hin ⟨_, hr', some x, hal.stores e.rs v k (some x) hk rfl, rfl⟩

theorem Values.snoc {c : Config α ε} {fs : List Future} {vs : List (Value α)} {st : StateId}
    {v : Value α} (h : Values c fs vs) (hv : outcome c st = some (.ok v)) :
    Values c (fs ++ [some st]) (vs ++ [v]) :=
  List.rel_append h (.cons ⟨st, rfl, hv⟩ .nil)

/-- The function of `when_all` goes to the next future. -/
theorem collecting_edge {c c' : Config α ε} {t : Nat} {e : Edge} {k : List (Frame α ε)}
    {done fs : List Future} {vs : List (Value α)} {b : Option (Exception ε)}
    (hk : c.threads[t]? = some (.get_all e.rs fs vs :: k)) (hgrow : Grows c c')
    (hf : e.func = .get_all (done ++ fs)) (hv : Values c done vs) (hs : Ready c e.src)
    (h : tick c t (.get_all e.rs fs vs) k b = some c') : EdgeAt w c' e := by
  have hv' := hv.grows hgrow
  have hs' := hgrow.ready hs
  cases fs with
  | nil =>
    cases h
    rw [List.append_nil] at hf
    refine .trying _ (inStack_put hk List.mem_cons_self) ⟨hs', ?_⟩
    simp only [Contract.Ends, hf]
    exact Or.inl ⟨vs, hv', rfl⟩
  | cons f fs =>
    cases f with
    | none =>
      cases h
      refine .trying _ (inStack_put hk List.mem_cons_self) ⟨hs', ?_⟩
      simp only [Contract.Ends, hf]
      exact Or.inr ⟨done, none, fs, vs, .no_state, rfl, hv', rfl, rfl⟩
    | some st =>
      cases h
      exact .getting t _ k st done fs vs (put_top hk) (Or.inl rfl) hf hv' hs'

/-- A `get` for the calls `k` goes on, or it has read the state. -/
theorem gets_step {c c' : Config α ε} {t : Nat} {f : Frame α ε} {k : List (Frame α ε)}
    {st : StateId} {b : Option (Exception ε)} (hk : c.threads[t]? = some (f :: k))
    (hgets : f = .future_get st ∨ f = .waiting st true ∨ f = .reading st)
    (h : tick c t f k b = some c') :
    (∃ f', c'.threads[t]? = some (f' :: k) ∧
      (f' = .future_get st ∨ f' = .waiting st true ∨ f' = .reading st)) ∨
      ∃ r, outcome c st = some r ∧ c'.threads[t]? = some (deliver r k) := by
  rcases hgets with rfl | rfl | rfl
  · obtain ⟨s, hst, ⟨-, rfl⟩ | ⟨-, -, rfl⟩ | ⟨-, -, rfl⟩⟩ := lockedWait.spec h
    · exact Or.inl ⟨_, put_top hk, Or.inr (Or.inr rfl)⟩
    · exact Or.inl ⟨.waiting st true, put_top (c := (c.enroll st).update st _) hk,
        Or.inr (Or.inl rfl)⟩
    · exact Or.inl ⟨_, put_top hk, Or.inr (Or.inl rfl)⟩
  · simp only [tick] at h
    split at h
    · cases h
    · split at h
      · cases h
        exact Or.inl ⟨_, put_top hk, Or.inr (Or.inr rfl)⟩
      · cases h
  · rcases readState_some h with ⟨-, -, rfl⟩ | ⟨r, hr, h⟩
    · exact Or.inl ⟨_, hk, Or.inr (Or.inr rfl)⟩
    · cases h
      exact Or.inr ⟨r, hr, put_top hk⟩

/-- The function of `when_all` reads a future. -/
theorem getting_edge {c c' : Config α ε} {t : Nat} {e : Edge} {f : Frame α ε}
    {k : List (Frame α ε)} {st : StateId} {done fs : List Future} {vs : List (Value α)}
    {b : Option (Exception ε)} (hk : c.threads[t]? = some (f :: .get_all e.rs fs vs :: k))
    (hgrow : Grows c c') (hgets : f = .future_get st ∨ f = .waiting st true ∨ f = .reading st)
    (hf : e.func = .get_all (done ++ some st :: fs)) (hv : Values c done vs) (hs : Ready c e.src)
    (h : tick c t f (.get_all e.rs fs vs :: k) b = some c') : EdgeAt w c' e := by
  have hv' := hv.grows hgrow
  have hs' := hgrow.ready hs
  rcases gets_step hk hgets h with ⟨f', hk', hgets'⟩ | ⟨r, hr, hk'⟩
  · exact .getting t f' k st done fs vs hk' hgets' hf hv' hs'
  · cases r with
    | ok v =>
      refine .collecting t k (done ++ [some st]) fs (vs ++ [v]) hk' ?_
        (hv'.snoc (hgrow.outcome hr)) hs'
      rw [hf, List.append_assoc]
      rfl
    | error x =>
      refine .trying _ (inStack_top hk') ⟨hs', ?_⟩
      simp only [Contract.Ends, hf]
      exact Or.inr ⟨done, some st, fs, vs, x, rfl, hv', hgrow.outcome hr, rfl⟩

/-- A step of a run that keeps to the contract moves an edge on in its life. -/
theorem step_edge {c c' : Config α ε} {ev : Nat × Action α ε} {e : Edge} (hw : w.Stable)
    (hg : Good c) (ho : Owned c) (hn : Orderly c ev) (hal : w.Allows c ev)
    (hsim : e.func.simple = true) (hs : step c ev = some c') (h : EdgeAt w c e) :
    EdgeAt w c' e := by
  obtain ⟨t, a⟩ := ev
  obtain ⟨k, hk, hc⟩ := step_calm ho hn hs
  have hgrow := step_grows hs
  have other : ∀ j k₁, j ≠ t → c.threads[j]? = some k₁ → c'.threads[j]? = some k₁ := by
    intro j k₁ hj hk₁
    obtain ⟨k', hm⟩ := calm_stack hk hc
    rw [hm.others j hj, hk₁]
  cases h with
  | stored i h =>
    rcases calm_moved hk hc _ _ h with h | h
    · exact .stored i h
    · exact .draining i h
  | draining i h =>
    rcases calm_draining hk hc h with h | h
    · exact .draining i h
    · exact .called h
  | called h =>
    rcases calm_keeps hk hc rfl h with h | ⟨k₀, rfl⟩
    · exact .called h
    · obtain ⟨b, -, htick⟩ := step_tick hk (by simp) hs
      exact exec_edge hk hg hsim htick
  | running h hf =>
    rcases calm_keeps hk hc rfl h with h | ⟨k₀, rfl⟩
    · refine .running h (hf.imp_right ?_)
      rintro ⟨n, v, hf, hv⟩
      exact ⟨n, v, hf, hgrow.outcome hv⟩
    · exact callback_edge hw hk hg hal hgrow hf (step_call hk hs)
  | collecting j k₁ done fs vs h hf hv hs' =>
    by_cases hj : j = t
    · subst hj
      obtain ⟨b, -, htick⟩ := step_tick h (by simp) hs
      exact collecting_edge h hgrow hf hv hs' htick
    · exact .collecting j k₁ done fs vs (other j _ hj h) hf (hv.grows hgrow) (hgrow.ready hs')
  | getting j f k₁ st done fs vs h hgets hf hv hs' =>
    by_cases hj : j = t
    · subst hj
      have huser : ∀ b, f ≠ .user b := by
        rcases hgets with rfl | rfl | rfl <;> simp
      obtain ⟨b, -, htick⟩ := step_tick h huser hs
      exact getting_edge h hgrow hgets hf hv hs' htick
    · exact .getting j f k₁ st done fs vs (other j _ hj h) hgets hf (hv.grows hgrow)
        (hgrow.ready hs')
  | trying r h hr =>
    rcases calm_keeps hk hc rfl h with h | ⟨k₀, rfl⟩
    · exact .trying r h (hr.grows hw hgrow)
    · obtain ⟨b, rfl, htick⟩ := step_tick hk (by simp) hs
      exact try_set_edge hw hk ho hal hgrow hr htick
  | handling x h hx =>
    rcases calm_keeps hk hc rfl h with h | ⟨k₀, rfl⟩
    · exact .handling x h (hx.grows hw hgrow)
    · obtain ⟨b, -, htick⟩ := step_tick hk (by simp) hs
      exact .settled (.error x) (handler_ends hk ho htick) (hx.grows hw hgrow)
  | settled r h hr => exact .settled r (hgrow.outcome h) (hr.grows hw hgrow)

/-- A registration runs the continuation now, or the state holds it. -/
theorem lockedAdd_places {c c' : Config α ε} {t : Nat} {st : StateId} {kont : Cont}
    {k k₀ : List (Frame α ε)} (hk : c.threads[t]? = some k₀)
    (h : lockedAdd c t st kont k = some c') :
    InStack c' (.exec kont) ∨ Stored c' st (c.sources.length, kont) := by
  obtain ⟨s, hs, ⟨-, rfl⟩ | ⟨-, rfl⟩⟩ := lockedAdd.spec h
  · exact Or.inl (inStack_put (c := (c.enroll st).note _) hk (by simp))
  · refine Or.inr ⟨_, update_self (c := c.enroll st) _ hs, ?_⟩
    simp

/-- A registration starts the life of an edge. -/
theorem lockedAdd_edge {c c' : Config α ε} {t : Nat} {e : Edge} {k k₀ : List (Frame α ε)}
    (hk : c.threads[t]? = some k₀) (h : lockedAdd c t e.src e.cont k = some c') :
    EdgeAt w c' e := by
  rcases lockedAdd_places hk h with hin | hst
  · exact .called hin
  · exact .stored _ hst

/-- A call of `then` by client code makes an edge. -/
theorem then_edge {c c' : Config α ε} {t : Nat} {src : StateId} {func : Func} {b : Body}
    {k : List (Frame α ε)} (hk : c.threads[t]? = some (.user b :: k))
    (hs : step c (t, .then_ (some src) func) = some c') :
    EdgeAt w c' ⟨src, c.states.length, func⟩ := by
  have h := step_call hk hs
  simp only [call] at h
  split at h
  · exact lockedAdd_edge (c := c.alloc {}) (e := ⟨src, c.states.length, func⟩) hk h
  · cases h

end ltl.futures
