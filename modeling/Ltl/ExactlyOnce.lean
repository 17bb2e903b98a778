-- The law of continuations: in an orderly run each one is called once, when
-- its state is ready, in the order of registration, and none of them lets an
-- exception out.
import Ltl.Ownership

open ltl.future_state runs counts

namespace ltl.futures

variable {α ε : Type}

/-! ## Where a continuation is -/

def listed (i : Id) (cs : List (Id × Cont)) : Nat := total (fun p => one p.1 i) cs

@[simp] theorem listed_nil (i : Id) : listed i [] = 0 := rfl

@[simp] theorem listed_cons (i : Id) (p : Id × Cont) (cs : List (Id × Cont)) :
    listed i (p :: cs) = one p.1 i + listed i cs := by simp [listed]

@[simp] theorem listed_append (i : Id) (cs cs' : List (Id × Cont)) :
    listed i (cs ++ cs') = listed i cs + listed i cs' := by simp [listed]

/-- How often the call is to run continuation `i` later. -/
def Frame.left (i : Id) : Frame α ε → Nat
  | .drain _ cs => listed i cs
  | _ => 0

def Entry.invokes (i : Id) : Entry ε → Nat
  | .invoked j => one j i
  | _ => 0

/-- How often continuation `i` has been called. -/
def invocations (c : Config α ε) (i : Id) : Nat := total (Entry.invokes i) c.log

def placesOf (i : Id) : Weights α ε where
  state s := listed i s.continuations_
  frame := Frame.left i
  counter _ := 0
  entry := Entry.invokes i

/-- How often continuation `i` waits for its state, waits for its turn or has been called. -/
def places (c : Config α ε) (i : Id) : Nat := weigh (placesOf i) c

def leftIn (i : Id) (k : List (Frame α ε)) : Nat := total (Frame.left i) k

@[simp] theorem leftIn_cons (i : Id) (f : Frame α ε) (k : List (Frame α ε)) :
    leftIn i (f :: k) = f.left i + leftIn i k := by simp [leftIn]

theorem places_put {c : Config α ε} {t : Nat} {k : List (Frame α ε)} (k' : List (Frame α ε))
    (i : Id) (hk : c.threads[t]? = some k) :
    places (c.put t k') i + leftIn i k = places c i + leftIn i k' := weigh_put (placesOf i) k' hk

theorem places_note (c : Config α ε) (e : Entry ε) (i : Id) :
    places (c.note [e]) i = places c i + e.invokes i := by
  have := weigh_note (placesOf i) c [e]
  simpa [places, placesOf] using this

theorem places_alloc (c : Config α ε) {s : State α ε} (i : Id) (hs : s.continuations_ = []) :
    places (c.alloc s) i = places c i := by
  simp [places, weigh_alloc, placesOf, hs]

theorem deliver_left (i : Id) (r : Except (Exception ε) (Value α)) (k : List (Frame α ε)) :
    leftIn i (deliver r k) = leftIn i k := by
  unfold deliver
  split
  · split <;> simp [Frame.left]
  · simp [Frame.left]
  · rfl

@[simp] theorem waited_left (i : Id) (st : StateId) (g : Bool) (k : List (Frame α ε)) :
    leftIn i (waited st g k) = leftIn i k := by
  unfold waited
  split <;> simp [Frame.left]

theorem Local.left {c : Config α ε} {k k' : List (Frame α ε)} (h : Local c k k') (i : Id) :
    leftIn i k' = leftIn i k := by
  cases h with
  | read => simp [deliver_left, Frame.left]
  | _ => simp [Frame.left]

theorem Adds.left {c c₁ : Config α ε} {a : Action α ε} {k k' : List (Frame α ε)} {st : StateId}
    {kont : Cont} (h : Adds c a k c₁ st kont k') (i : Id) :
    c₁.threads = c.threads ∧ c₁.sources = c.sources ∧ places c₁ i = places c i ∧
      leftIn i k' = leftIn i k := by
  cases h with
  | then_ => exact ⟨rfl, rfl, places_alloc c i rfl, rfl⟩
  | continue_with => exact ⟨rfl, rfl, rfl, rfl⟩
  | unwrap =>
    refine ⟨rfl, rfl, ?_, rfl⟩
    rw [places_note, places_alloc _ _ rfl, places_alloc _ _ rfl]
    rfl
  | unwrap_outer => exact ⟨rfl, rfl, rfl, by simp [Frame.left]⟩
  | register => exact ⟨rfl, rfl, rfl, by simp [Frame.left]⟩
  | when_all => exact ⟨rfl, rfl, places_alloc c i rfl, by simp [Frame.left]⟩

theorem registered_places {c : Config α ε} {t : Nat} {st : StateId} {s u : State α ε}
    (kont : Cont) {k : List (Frame α ε)} (k' : List (Frame α ε)) (i : Id)
    (hk : c.threads[t]? = some k) (hs : c.states[st]? = some s)
    (hu : u.continuations_ = s.continuations_) :
    places (registered c t st u kont k') i + leftIn i k =
      places c i + one c.sources.length i + leftIn i k' := by
  have := weigh_registered (placesOf i) u kont k' hk hs
  simp only [placesOf, hu, listed_append, listed_cons, listed_nil] at this
  simp only [places, placesOf, leftIn]
  omega

theorem settle_places {c : Config α ε} {t : Nat} {st : StateId} (allow : Bool)
    {s : State α ε} (s' : State α ε) {k : List (Frame α ε)} (k' : List (Frame α ε)) (i : Id)
    (hk : c.threads[t]? = some k) (hs : c.states[st]? = some s) :
    places (settle c t st allow s s' k') i + leftIn i k = places c i + leftIn i k' := by
  have := weigh_settle (placesOf i) allow s' k' hk hs
  simp only [placesOf, Frame.left, listed_nil, Entry.invokes] at this
  simp only [places, placesOf, leftIn]
  omega

/-- A step moves continuations from place to place and gives each new one a place. -/
theorem calm_places {c c' : Config α ε} {t : Nat} {k : List (Frame α ε)}
    (hk : c.threads[t]? = some k) (h : Calm c t k c') (i : Id) :
    (c'.sources = c.sources ∧ places c' i = places c i) ∨
      ∃ st, c'.sources = c.sources ++ [st] ∧
        places c' i = places c i + one c.sources.length i := by
  cases h with
  | local_ hl =>
    rename_i k'
    have hput := places_put k' i hk
    have := hl.left i
    exact Or.inl ⟨rfl, by omega⟩
  | promise => exact Or.inl ⟨rfl, places_alloc c i rfl⟩
  | made_ready hk' =>
    rename_i b k k'
    have hput := places_put (c := c.alloc { value_ := some .unit }) k' i hk
    rw [places_alloc c i rfl] at hput
    have : leftIn i k' = leftIn i (.user b :: k) := by
      rcases hk' with rfl | rfl <;> simp [Frame.left]
    exact Or.inl ⟨rfl, by omega⟩
  | when_all_ready hfs hk' =>
    rename_i b fs q k k'
    have hw := weigh_startWhenAllReady (placesOf i) fs q k' hk
    have : leftIn i k' = leftIn i (.user b :: k) := by
      rcases hk' with rfl | rfl <;> simp [Frame.left]
    simp only [placesOf, listed_nil, Frame.left] at hw
    simp only [places, placesOf, leftIn] at this ⊢
    exact Or.inl ⟨rfl, by omega⟩
  | stored h hs hr =>
    rename_i a c₁ st s kont k'
    obtain ⟨h1, h2, h3, h4⟩ := h.left i
    have hreg := registered_places kont k' i (by rw [h1]; exact hk) hs rfl
    rw [h2] at hreg
    exact Or.inr ⟨st, by simp only [← h2]; rfl, by omega⟩
  | run_now h hs hr =>
    rename_i a c₁ st s kont k'
    obtain ⟨h1, h2, h3, h4⟩ := h.left i
    have hput := places_put (c := (c₁.enroll st).note [.invoked c₁.sources.length])
      (.exec kont :: .invoking c₁.sources.length :: k') i (by rw [← h1] at hk; exact hk)
    have henroll : places (c₁.enroll st) i = places c₁ i := rfl
    simp only [places_note, leftIn_cons, Frame.left, Entry.invokes, h2] at hput
    refine Or.inr ⟨st, by simp only [← h2]; rfl, ?_⟩
    rw [h2]
    omega
  | fulfilled hp hs hr hs' =>
    rename_i b k st allow s s'
    have hset := settle_places allow s' (.user b :: k) i hk hs
    exact Or.inl ⟨rfl, by omega⟩
  | refused =>
    rename_i b k st allow r hr
    have hput := places_put (c := c.note [.set st allow r]) (.user b :: k) i hk
    rw [places_note] at hput
    simp only [Entry.invokes] at hput
    exact Or.inl ⟨rfl, by omega⟩
  | set_value hs hr =>
    rename_i rs v k s
    have hset := settle_places true { s with value_ := some v } (.catch_ rs :: k) i
      hk hs
    simp only [leftIn_cons, Frame.left] at hset
    exact Or.inl ⟨rfl, by omega⟩
  | built =>
    rename_i rs v x k
    have hput := places_put (c := c.note [.set rs true (.built x)]) (.handler rs x :: k) i hk
    simp only [places_note, leftIn_cons, Frame.left, Entry.invokes] at hput
    exact Or.inl ⟨rfl, by omega⟩
  | set_exception hs hr =>
    rename_i rs x k s
    have hset := settle_places true { s with exception_ := some x } k i hk hs
    simp only [leftIn_cons, Frame.left] at hset
    exact Or.inl ⟨rfl, by omega⟩
  | set_prm hs hr =>
    rename_i prm k s
    have hset := settle_places true { s with value_ := some .unit } k i hk hs
    simp only [leftIn_cons, Frame.left] at hset
    exact Or.inl ⟨rfl, by omega⟩
  | waited h hs hr =>
    rename_i st g k' s
    have hput := places_put (waited st g k') i hk
    have : leftIn i k' = leftIn i k := by cases h <;> simp [Frame.left]
    rw [waited_left] at hput
    exact Or.inl ⟨rfl, by omega⟩
  | first_wait h hs hr hb =>
    rename_i st g k' s
    have hreg := registered_places (u := { s with block_ := some false }) (.signal st)
      (.waiting st g :: k') i hk hs rfl
    have : leftIn i k' = leftIn i k := by cases h <;> simp [Frame.left]
    simp only [leftIn_cons, Frame.left] at hreg
    exact Or.inr ⟨st, rfl, by omega⟩
  | wait h =>
    rename_i st g k'
    have hput := places_put (.waiting st g :: k') i hk
    have : leftIn i k' = leftIn i k := by cases h <;> simp [Frame.left]
    simp only [leftIn_cons, Frame.left] at hput
    exact Or.inl ⟨rfl, by omega⟩
  | dec hn hk' =>
    rename_i n ctr k k'
    have hcount := weigh_recount (placesOf i) { ctr with count := ctr.count - 1 } hn
    have hput := places_put (c := { c with
      counters := c.counters.set n { ctr with count := ctr.count - 1 } }) k' i hk
    have : leftIn i k' = leftIn i k := by rcases hk' with ⟨-, rfl⟩ | ⟨-, rfl⟩ <;> simp [Frame.left]
    simp only [leftIn_cons, Frame.left] at hput
    simp only [placesOf] at hcount
    simp only [places, placesOf] at hput ⊢
    exact Or.inl ⟨rfl, by omega⟩
  | signal hs =>
    rename_i st s k
    have hput := places_put (c := c.update st (future_state.signal s)) k i hk
    have hup := weigh_update (placesOf i) (future_state.signal s) hs
    simp only [placesOf, future_state.signal, leftIn_cons, Frame.left] at hput hup
    simp only [places, placesOf] at hput ⊢
    exact Or.inl ⟨rfl, by simp only [future_state.signal]; omega⟩
  | run =>
    rename_i st j kont cs k
    have hput := places_put (c := c.note [.invoked j])
      (.exec kont :: .invoking j :: .drain st cs :: k) i hk
    simp only [places_note, leftIn_cons, Frame.left, Entry.invokes, listed_cons] at hput
    exact Or.inl ⟨rfl, by omega⟩
  | fault => exact Or.inl ⟨rfl, rfl⟩

/-! ## Whose turn it is -/

def InStack (c : Config α ε) (f : Frame α ε) : Prop := ∃ k ∈ c.threads, f ∈ k

theorem InStack.put {c : Config α ε} {t : Nat} {k k' : List (Frame α ε)} {f : Frame α ε}
    (hk : c.threads[t]? = some k) (hkeep : f ∈ k → f ∈ k') (h : InStack c f) :
    InStack (c.put t k') f := by
  obtain ⟨k₁, hk₁, hf⟩ := h
  obtain ⟨j, hj⟩ := List.mem_iff_getElem?.mp hk₁
  by_cases hjt : t = j
  · subst hjt
    rw [hk] at hj
    cases hj
    have hlt := (List.getElem?_eq_some_iff.mp hk).1
    exact ⟨k', List.mem_set hlt k', hkeep hf⟩
  · refine ⟨k₁, List.mem_iff_getElem?.mpr ⟨j, ?_⟩, hf⟩
    simp only [Config.put]
    rw [List.getElem?_set_ne hjt, hj]

theorem inStack_put {c : Config α ε} {t : Nat} {k k' : List (Frame α ε)} {f : Frame α ε}
    (hk : c.threads[t]? = some k) (hf : f ∈ k') : InStack (c.put t k') f :=
  ⟨k', List.mem_set (List.getElem?_eq_some_iff.mp hk).1 k', hf⟩

/-- The continuation that an entry says was called. -/
def Entry.called : Entry ε → Option Id
  | .invoked i => some i
  | _ => none

def invokedIds (l : List (Entry ε)) : List Id := l.filterMap Entry.called

/-- Entries that are neither calls nor stores, and no exception that got out. -/
def Entry.quiet : Entry ε → Prop
  | .invoked _ => False
  | .set _ _ (.stored _) => False
  | .escaped _ => False
  | .broke _ => False
  | _ => True

def ids (cs : List (Id × Cont)) : List Id := cs.map Prod.fst

/-- The loops of `c` are in `c'` too, but for one that has come to its end. -/
def KeepsDrains (c c' : Config α ε) : Prop :=
  ∀ st cs, cs ≠ [] → InStack c (.drain st cs) → InStack c' (.drain st cs)

/-- What a step does to the calls: it makes none, or calls a continuation that is registered now,
or swaps out those of a state, or calls the next one of a loop. -/
inductive Turns (c c' : Config α ε) : Prop where
  | quiet (es) (hlog : c'.log = c.log ++ es) (hes : ∀ e ∈ es, e.quiet) (hd : KeepsDrains c c')
  | called (es) (hlog : c'.log = c.log ++ es ++ [.invoked c.sources.length])
      (hes : ∀ e ∈ es, e.quiet) (hd : KeepsDrains c c')
  | settled (st allow s) (hs : c.states[st]? = some s)
      (hlog : c'.log = c.log ++ [.set st allow (.stored (ids s.continuations_))])
      (hin : InStack c' (.drain st s.continuations_)) (hd : KeepsDrains c c')
  | run (st i kont cs) (hlog : c'.log = c.log ++ [.invoked i])
      (hin : InStack c (.drain st ((i, kont) :: cs))) (hin' : InStack c' (.drain st cs))
      (hd : ∀ st' cs', InStack c (.drain st' cs') → InStack c' (.drain st' cs') ∨
        (st' = st ∧ cs' = (i, kont) :: cs))

theorem keeps_put {c : Config α ε} {t : Nat} {k k' : List (Frame α ε)}
    (hk : c.threads[t]? = some k)
    (h : ∀ st cs, cs ≠ [] → .drain st cs ∈ k → .drain st cs ∈ k') : KeepsDrains c (c.put t k') :=
  fun st cs hne hin => hin.put hk (h st cs hne)

theorem deliver_drains (r : Except (Exception ε) (Value α)) (k : List (Frame α ε)) (st : StateId)
    (cs : List (Id × Cont)) (h : .drain st cs ∈ k) : .drain st cs ∈ deliver r k := by
  unfold deliver
  split
  · split <;> simp_all
  · simp_all
  · exact h

theorem waited_drains (st' : StateId) (g : Bool) (k : List (Frame α ε)) (st : StateId)
    (cs : List (Id × Cont)) (h : .drain st cs ∈ k) : .drain st cs ∈ waited st' g k := by
  unfold waited
  split <;> simp_all

theorem Local.drains {c : Config α ε} {k k' : List (Frame α ε)} (h : Local c k k')
    (st : StateId) (cs : List (Id × Cont)) (hne : cs ≠ []) (hin : .drain st cs ∈ k) :
    .drain st cs ∈ k' := by
  cases h with
  | read => exact deliver_drains _ _ _ _ (by simpa using hin)
  | woken => exact waited_drains _ _ _ _ _ (by simpa using hin)
  | _ => simp_all

theorem Adds.quiet {c c₁ : Config α ε} {a : Action α ε} {k k' : List (Frame α ε)} {st : StateId}
    {kont : Cont} (h : Adds c a k c₁ st kont k') :
    (∃ es, c₁.log = c.log ++ es ∧ ∀ e ∈ es, e.quiet) ∧
      ∀ st cs, .drain st cs ∈ k → .drain st cs ∈ k' := by
  cases h with
  | unwrap => exact ⟨⟨[.unwrapped _ _], rfl, by simp [Entry.quiet]⟩, fun _ _ h => h⟩
  | then_ => exact ⟨⟨[], (List.append_nil _).symm, by simp⟩, fun _ _ h => h⟩
  | continue_with => exact ⟨⟨[], (List.append_nil _).symm, by simp⟩, fun _ _ h => h⟩
  | _ => exact ⟨⟨[], (List.append_nil _).symm, by simp⟩, fun _ _ h => by simpa using h⟩

theorem Waits.drains {k k' : List (Frame α ε)} {st : StateId} {g : Bool} (h : Waits k st g k')
    (st' : StateId) (cs : List (Id × Cont)) (hin : .drain st' cs ∈ k) : .drain st' cs ∈ k' := by
  cases h with
  | wait => exact hin
  | get => simpa using hin

theorem settle_turns {c : Config α ε} {t : Nat} {st : StateId} {allow : Bool} {s s' : State α ε}
    {k k' : List (Frame α ε)} (hk : c.threads[t]? = some k) (hs : c.states[st]? = some s)
    (h : ∀ st cs, .drain st cs ∈ k → .drain st cs ∈ k') :
    Turns c (settle c t st allow s s' k') :=
  .settled st allow s hs rfl (inStack_put (c := c) hk (by simp))
    (keeps_put (c := c) hk (fun st cs _ hin => List.mem_cons_of_mem _ (h st cs hin)))

theorem calm_turns {c c' : Config α ε} {t : Nat} {k : List (Frame α ε)}
    (hk : c.threads[t]? = some k) (h : Calm c t k c') : Turns c c' := by
  have silent : ∀ {d : Config α ε}, d.log = c.log → KeepsDrains c d → Turns c d :=
    fun hlog hd => .quiet [] (by rw [hlog, List.append_nil]) (by simp) hd
  cases h with
  | local_ hl => exact silent rfl (keeps_put hk hl.drains)
  | promise => exact silent rfl (fun _ _ _ h => h)
  | made_ready hk' =>
    refine silent rfl (keeps_put (c := c) hk (fun st cs _ hin => ?_))
    rcases hk' with rfl | rfl
    · exact hin
    · exact List.mem_cons_of_mem _ hin
  | when_all_ready hfs hk' =>
    refine silent rfl (keeps_put (c := c) hk (fun st cs _ hin => List.mem_cons_of_mem _ ?_))
    rcases hk' with rfl | rfl
    · exact hin
    · exact List.mem_cons_of_mem _ hin
  | stored h hs hr =>
    rename_i a c₁ st s kont k'
    obtain ⟨⟨es, hlog, hes⟩, hd⟩ := h.quiet
    refine .quiet es hlog hes (fun st cs _ hin => ?_)
    have hstk := (h.left 0).1
    exact InStack.put (c := c₁) (hstk ▸ hk) (hd st cs) (by unfold InStack; rwa [hstk])
  | run_now h hs hr =>
    rename_i a c₁ st s kont k'
    obtain ⟨⟨es, hlog, hes⟩, hd⟩ := h.quiet
    obtain ⟨hstk, hsrc, -⟩ := h.left 0
    refine .called es ?_ hes (fun st cs _ hin => ?_)
    · simp only [Config.put, Config.note, Config.enroll, hlog, hsrc]
    · exact InStack.put (c := c₁) (hstk ▸ hk) (fun hin => by simp [hd st cs hin])
        (by unfold InStack; rwa [hstk])
  | fulfilled hp hs hr hs' => exact settle_turns hk hs (fun _ _ h => h)
  | refused hr =>
    rename_i b k st allow r
    refine .quiet [.set st allow r] rfl ?_ (keeps_put (c := c) hk (fun _ _ _ h => h))
    cases r with
    | stored cs => exact absurd rfl (hr cs)
    | _ => simp [Entry.quiet]
  | set_value hs hr => exact settle_turns hk hs (by simp)
  | built =>
    exact .quiet [_] rfl (by simp [Entry.quiet]) (keeps_put (c := c) hk (by simp))
  | set_exception hs hr => exact settle_turns hk hs (by simp)
  | set_prm hs hr => exact settle_turns hk hs (by simp)
  | waited h hs hr =>
    exact silent rfl (keeps_put hk (fun st cs _ hin => waited_drains _ _ _ _ _ (h.drains st cs hin)))
  | first_wait h hs hr hb =>
    exact silent rfl (keeps_put (c := c) hk (fun st cs _ hin =>
      List.mem_cons_of_mem _ (h.drains st cs hin)))
  | wait h =>
    exact silent rfl (keeps_put hk (fun st cs _ hin => List.mem_cons_of_mem _ (h.drains st cs hin)))
  | dec hn hk' =>
    refine silent rfl (keeps_put (c := c) hk (fun st cs _ hin => ?_))
    rcases hk' with ⟨-, rfl⟩ | ⟨-, rfl⟩ <;> simpa using hin
  | signal hs => exact silent rfl (keeps_put (c := c) hk (by simp))
  | run =>
    rename_i st i kont cs k
    refine .run st i kont cs rfl ⟨_, List.mem_of_getElem? hk, by simp⟩
      (inStack_put (c := c) hk (by simp)) (fun st' cs' hin => ?_)
    by_cases heq : st' = st ∧ cs' = (i, kont) :: cs
    · exact Or.inr heq
    · refine Or.inl (hin.put (c := c) hk (fun hmem => ?_))
      rcases List.mem_cons.mp hmem with hmem | hmem
      · cases hmem
        exact absurd ⟨rfl, rfl⟩ heq
      · simp [hmem]
  | fault => exact silent rfl (fun _ _ _ h => h)

/-! ## The numbers of the continuations -/

/-- Numbers in the order of registration, each of them given out. -/
def SortedBelow (n : Nat) (l : List Id) : Prop := l.Pairwise (· < ·) ∧ ∀ i ∈ l, i < n

theorem SortedBelow.mono {n m : Nat} {l : List Id} (h : SortedBelow n l) (hnm : n ≤ m) :
    SortedBelow m l := ⟨h.1, fun i hi => Nat.lt_of_lt_of_le (h.2 i hi) hnm⟩

theorem SortedBelow.snoc {n : Nat} {l : List Id} (h : SortedBelow n l) :
    SortedBelow (n + 1) (l ++ [n]) := by
  refine ⟨List.pairwise_append.mpr ⟨h.1, by simp, fun a ha b hb => ?_⟩, fun i hi => ?_⟩
  · rw [List.mem_singleton] at hb
    subst hb
    exact h.2 a ha
  · rcases List.mem_append.mp hi with hi | hi
    · exact Nat.lt_succ_of_lt (h.2 i hi)
    · rw [List.mem_singleton] at hi
      subst hi
      exact Nat.lt_succ_self i

/-- The continuations of each state are in the order of registration, and so were those that a
setter swapped out. -/
structure Numbered (c : Config α ε) : Prop where
  states : ∀ s ∈ c.states, SortedBelow c.sources.length (ids s.continuations_)
  stored : ∀ st allow pend, .set st allow (.stored pend) ∈ c.log →
    SortedBelow c.sources.length pend

theorem Numbered.of_eq {c d : Config α ε} (h : Numbered c) (hs : d.states = c.states)
    (hi : d.sources = c.sources) (hl : d.log = c.log) : Numbered d :=
  ⟨fun s hm => by rw [hi]; exact h.states s (hs ▸ hm),
    fun st allow pend hm => by rw [hi]; exact h.stored st allow pend (hl ▸ hm)⟩

theorem Numbered.note {c : Config α ε} (h : Numbered c) (e : Entry ε)
    (he : ∀ st allow pend, e = .set st allow (.stored pend) →
      SortedBelow c.sources.length pend) : Numbered (c.note [e]) := by
  refine ⟨h.states, fun st allow pend hm => ?_⟩
  rcases List.mem_append.mp hm with hm | hm
  · exact h.stored st allow pend hm
  · rw [List.mem_singleton] at hm
    exact he st allow pend hm.symm

theorem Numbered.alloc {c : Config α ε} (h : Numbered c) {s : State α ε}
    (hs : s.continuations_ = []) : Numbered (c.alloc s) := by
  refine ⟨fun s' hm => ?_, h.stored⟩
  rcases List.mem_append.mp hm with hm | hm
  · exact h.states s' hm
  · rw [List.mem_singleton] at hm
    subst hm
    simp [hs, ids, SortedBelow]

theorem Numbered.enroll {c : Config α ε} (h : Numbered c) (st : StateId) :
    Numbered (c.enroll st) := by
  have hle : c.sources.length ≤ (c.enroll st).sources.length := by simp [Config.enroll]
  exact ⟨fun s hm => (h.states s hm).mono hle,
    fun st' allow pend hm => (h.stored st' allow pend hm).mono hle⟩

theorem Numbered.update {c : Config α ε} (h : Numbered c) (st : StateId) {s : State α ε}
    (hs : SortedBelow c.sources.length (ids s.continuations_)) : Numbered (c.update st s) := by
  refine ⟨fun s' hm => ?_, h.stored⟩
  rcases List.mem_or_eq_of_mem_set hm with hm | rfl
  · exact h.states s' hm
  · exact hs

theorem Adds.numbered {c c₁ : Config α ε} {a : Action α ε} {k k' : List (Frame α ε)}
    {st : StateId} {kont : Cont} (hn : Numbered c) (h : Adds c a k c₁ st kont k') :
    Numbered c₁ := by
  cases h with
  | then_ => exact hn.alloc rfl
  | continue_with => exact hn
  | unwrap => exact ((hn.alloc rfl).alloc rfl).note _ (by simp)
  | unwrap_outer => exact hn
  | register => exact hn
  | when_all => exact hn.alloc rfl

theorem registered_numbered {c : Config α ε} {t : Nat} {st : StateId} {s u : State α ε}
    {kont : Cont} {k : List (Frame α ε)} (h : Numbered c) (hs : c.states[st]? = some s)
    (hu : u.continuations_ = s.continuations_) : Numbered (registered c t st u kont k) := by
  have hold := h.states s (List.mem_of_getElem? hs)
  refine Numbered.of_eq ((h.enroll st).update st ?_) rfl rfl rfl
  simpa [ids, hu, Config.enroll] using hold.snoc

theorem settle_numbered {c : Config α ε} {t : Nat} {st : StateId} {allow : Bool}
    {s s' : State α ε} {k : List (Frame α ε)} (h : Numbered c) (hs : c.states[st]? = some s) :
    Numbered (settle c t st allow s s' k) := by
  refine Numbered.of_eq (Numbered.update (h.note (.set st allow (.stored (ids s.continuations_))) ?_) st ?_) rfl rfl rfl
  · intro st' allow' pend he
    cases he
    exact h.states s (List.mem_of_getElem? hs)
  · simp [ids, SortedBelow]

theorem calm_numbered {c c' : Config α ε} {t : Nat} {k : List (Frame α ε)} (hn : Numbered c)
    (h : Calm c t k c') : Numbered c' := by
  cases h with
  | local_ => exact hn.of_eq rfl rfl rfl
  | promise =>
    rename_i q b k
    exact (hn.alloc (s := { await_queue_ := q }) rfl).of_eq rfl rfl rfl
  | made_ready => exact (hn.alloc rfl).of_eq rfl rfl rfl
  | when_all_ready => exact (hn.alloc rfl).of_eq rfl rfl rfl
  | stored h hs hr => exact registered_numbered (h.numbered hn) hs rfl
  | run_now h hs hr =>
    exact (((h.numbered hn).enroll _).note _ (by simp)).of_eq rfl rfl rfl
  | fulfilled hp hs => exact settle_numbered hn hs
  | refused hr =>
    rename_i b k st allow r
    refine (hn.note _ ?_).of_eq rfl rfl rfl
    intro st' allow' pend he
    cases he
    exact absurd rfl (hr pend)
  | set_value hs => exact settle_numbered hn hs
  | built => exact (hn.note _ (by simp)).of_eq rfl rfl rfl
  | set_exception hs => exact settle_numbered hn hs
  | set_prm hs => exact settle_numbered hn hs
  | waited => exact hn.of_eq rfl rfl rfl
  | first_wait h hs => exact registered_numbered hn hs rfl
  | wait => exact hn.of_eq rfl rfl rfl
  | dec => exact hn.of_eq rfl rfl rfl
  | signal hs =>
    rename_i st s k
    exact (hn.update st (s := future_state.signal s)
      (hn.states s (List.mem_of_getElem? hs))).of_eq rfl rfl rfl
  | run => exact (hn.note _ (by simp)).of_eq rfl rfl rfl
  | fault => exact hn.of_eq rfl rfl rfl

/-! ## The law -/

/-- The continuations that a setter swapped out are called in their order. -/
def InTurn (c : Config α ε) : Prop :=
  ∀ st allow pend, .set st allow (.stored pend) ∈ c.log →
    ∃ cs, (invokedIds c.log).filter (· ∈ pend) ++ ids cs = pend ∧
      (cs = [] ∨ InStack c (.drain st cs))

/-- No exception got out of a continuation. -/
def NoEscape (c : Config α ε) : Prop :=
  (∀ i, .escaped i ∉ c.log) ∧ ∀ st, .broke st ∉ c.log

/-- Each registered continuation has one place. -/
def Placed (c : Config α ε) : Prop := ∀ i, places c i = if i < c.sources.length then 1 else 0

theorem calm_placed {c c' : Config α ε} {t : Nat} {k : List (Frame α ε)} (hp : Placed c)
    (hk : c.threads[t]? = some k) (h : Calm c t k c') : Placed c' := by
  intro i
  rcases calm_places hk h i with ⟨hs, he⟩ | ⟨st, hs, he⟩
  · rw [hs, he, hp i]
  · rw [hs, he, hp i, List.length_append, List.length_singleton]
    by_cases hi : c.sources.length = i
    · subst hi
      simp
    · have : i < c.sources.length + 1 ↔ i < c.sources.length :=
        ⟨fun h => Nat.lt_of_le_of_ne (Nat.le_of_lt_succ h) (Ne.symm hi), Nat.lt_succ_of_lt⟩
      simp only [one_ne hi, this, Nat.add_zero]

theorem listed_pos {i : Id} {cs : List (Id × Cont)} (h : i ∈ ids cs) : 0 < listed i cs := by
  obtain ⟨p, hp, rfl⟩ := List.mem_map.mp h
  have := le_total (fun q => one q.1 p.1) cs p hp
  simp only [one_self] at this
  exact this

theorem left_pos {c : Config α ε} {st : StateId} {cs : List (Id × Cont)} {i : Id}
    (h : InStack c (.drain st cs)) (hi : i ∈ ids cs) : invocations c i + 1 ≤ places c i := by
  obtain ⟨k, hk, hf⟩ := h
  have h1 := le_total (Frame.left i) k _ hf
  have h2 := le_total (total (Frame.left i)) c.threads k hk
  have h3 := listed_pos hi
  simp only [Frame.left] at h1
  unfold invocations places weigh
  simp only [placesOf]
  omega

theorem pending_pos {c : Config α ε} {st : StateId} {s : State α ε} {i : Id}
    (hs : c.states[st]? = some s) (hi : i ∈ ids s.continuations_) :
    invocations c i + 1 ≤ places c i := by
  have h1 := le_total (fun s : State α ε => listed i s.continuations_) c.states s
    (List.mem_of_getElem? hs)
  have h3 := listed_pos hi
  unfold invocations places weigh
  simp only [placesOf]
  omega

theorem mem_invokedIds {l : List (Entry ε)} {i : Id} :
    i ∈ invokedIds l ↔ 0 < total (Entry.invokes i) l := by
  induction l with
  | nil => simp [invokedIds]
  | cons e l ih =>
    unfold invokedIds at ih ⊢
    rw [List.filterMap_cons, total_cons]
    cases e with
    | invoked j =>
      simp only [Entry.called, Entry.invokes, List.mem_cons]
      by_cases hj : j = i
      · subst hj
        rw [one_self]
        exact ⟨fun _ => by omega, fun _ => Or.inl rfl⟩
      · rw [one_ne hj, Nat.zero_add, ih, or_iff_right (Ne.symm hj)]
    | _ => simpa [Entry.called, Entry.invokes] using ih

theorem Placed.le {c : Config α ε} (hp : Placed c) (i : Id) : places c i ≤ 1 := by
  rw [hp i]
  split <;> omega

theorem Placed.not_called {c : Config α ε} (hp : Placed c) {i : Id}
    (h : invocations c i + 1 ≤ places c i) : i ∉ invokedIds c.log := by
  intro hi
  have := hp.le i
  have hpos : 0 < invocations c i := mem_invokedIds.mp hi
  omega

theorem quiet_called {es : List (Entry ε)} (h : ∀ e ∈ es, e.quiet) : invokedIds es = [] := by
  unfold invokedIds
  rw [List.filterMap_eq_nil_iff]
  intro e he
  have := h e he
  cases e <;> first | rfl | cases this

theorem quiet_stored {es : List (Entry ε)} (h : ∀ e ∈ es, e.quiet) {st : StateId} {allow : Bool}
    {pend : List Id} : .set st allow (.stored pend) ∉ es := fun he => h _ he

theorem invokedIds_append (l l' : List (Entry ε)) :
    invokedIds (l ++ l') = invokedIds l ++ invokedIds l' := List.filterMap_append

/-- The loops in a configuration whose log has the same calls and stores. -/
theorem InTurn.keep {c c' : Config α ε} (h : InTurn c) {l : List (Entry ε)}
    (hlog : c'.log = c.log ++ l) (hd : KeepsDrains c c')
    (hcall : ∀ st allow pend, .set st allow (.stored pend) ∈ c.log →
      (invokedIds l).filter (· ∈ pend) = [])
    (st : StateId) (allow : Bool) (pend : List Id)
    (hm : .set st allow (.stored pend) ∈ c.log) :
    ∃ cs, (invokedIds c'.log).filter (· ∈ pend) ++ ids cs = pend ∧
      (cs = [] ∨ InStack c' (.drain st cs)) := by
  obtain ⟨cs, heq, hcs⟩ := h st allow pend hm
  refine ⟨cs, ?_, ?_⟩
  · rw [hlog, invokedIds_append, List.filter_append, hcall st allow pend hm, List.append_nil, heq]
  · rcases hcs with rfl | hin
    · exact Or.inl rfl
    · by_cases hne : cs = []
      · exact Or.inl hne
      · exact Or.inr (hd st cs hne hin)

/-- A step keeps the order: the loop of a setter takes its continuations from the front. -/
theorem step_inTurn {c c' : Config α ε} (h : InTurn c) (hp : Placed c) (hp' : Placed c')
    (hn : Numbered c) (ht : Turns c c') : InTurn c' := by
  intro st allow pend hm
  cases ht with
  | quiet es hlog hes hd =>
    rw [hlog] at hm
    refine h.keep hlog hd (fun _ _ _ _ => by rw [quiet_called hes]; rfl) st allow pend ?_
    exact (List.mem_append.mp hm).resolve_right (quiet_stored hes)
  | called es hlog hes hd =>
    rw [List.append_assoc] at hlog
    refine h.keep hlog hd (fun st' allow' pend' hm' => ?_) st allow pend ?_
    · -- the number is new, so no setter has swapped it out
      rw [invokedIds_append, quiet_called hes, List.nil_append, List.filter_eq_nil_iff]
      intro i hi
      have : i = c.sources.length := by simpa [invokedIds, Entry.called] using hi
      subst this
      simp only [decide_eq_true_eq]
      exact fun hmem => Nat.lt_irrefl _ ((hn.stored st' allow' pend' hm').2 _ hmem)
    · rw [hlog] at hm
      rcases List.mem_append.mp hm with hm | hm
      · exact hm
      · rcases List.mem_append.mp hm with hm | hm
        · exact absurd hm (quiet_stored hes)
        · simp at hm
  | settled st₀ allow₀ s hs hlog hin hd =>
    rw [hlog] at hm
    rcases List.mem_append.mp hm with hm | hm
    · exact h.keep hlog hd (fun _ _ _ _ => rfl) st allow pend hm
    · simp only [List.mem_singleton, Entry.set.injEq, Locked.stored.injEq] at hm
      obtain ⟨rfl, rfl, rfl⟩ := hm
      refine ⟨s.continuations_, ?_, Or.inr hin⟩
      have hnone : (invokedIds c'.log).filter (· ∈ ids s.continuations_) = [] := by
        rw [hlog, invokedIds_append, List.filter_eq_nil_iff]
        intro i hi
        simp only [decide_eq_true_eq]
        intro hmem
        have hi' : i ∈ invokedIds c.log := by simpa [invokedIds, Entry.called] using hi
        exact hp.not_called (pending_pos hs hmem) hi'
      rw [hnone, List.nil_append]
  | run st₀ i kont cs₀ hlog hin hin' hd =>
    have hmem : .set st allow (.stored pend) ∈ c.log := by
      rw [hlog] at hm
      simpa using hm
    have hnot : i ∉ invokedIds c.log := hp.not_called (left_pos hin (by simp [ids]))
    have hcalled : i ∈ invokedIds c'.log := by
      rw [hlog, invokedIds_append]
      simp [invokedIds, Entry.called]
    obtain ⟨cs, heq, hcs⟩ := h st allow pend hmem
    rw [hlog, invokedIds_append]
    have hone : invokedIds [(.invoked i : Entry ε)] = [i] := rfl
    rw [hone, List.filter_append]
    by_cases hhead : st = st₀ ∧ cs = (i, kont) :: cs₀
    · -- the loop of this setter goes on with what is behind `i`
      obtain ⟨rfl, rfl⟩ := hhead
      have hi : i ∈ pend := by
        rw [← heq]
        simp [ids]
      refine ⟨cs₀, ?_, Or.inr hin'⟩
      rw [List.filter_cons_of_pos (by simpa using hi), List.filter_nil, List.append_assoc]
      simpa [ids] using heq
    · have hcs' : cs = [] ∨ InStack c' (.drain st cs) := by
        rcases hcs with rfl | hin₁
        · exact Or.inl rfl
        · exact Or.inr ((hd st cs hin₁).resolve_right hhead)
      have hi : i ∉ pend := by
        rw [← heq]
        intro hi
        rcases List.mem_append.mp hi with hi | hi
        · exact hnot ((List.mem_filter.mp hi).1)
        · rcases hcs' with rfl | hin₂
          · simp [ids] at hi
          · exact hp'.not_called (left_pos hin₂ hi) hcalled
      refine ⟨cs, ?_, hcs'⟩
      rw [List.filter_cons_of_neg (by simpa using hi), List.filter_nil, List.append_nil, heq]

theorem step_noEscape {c c' : Config α ε} (h : NoEscape c) (ht : Turns c c') : NoEscape c' := by
  have add : ∀ l : List (Entry ε), c'.log = c.log ++ l → (∀ i, .escaped i ∉ l) →
      (∀ st, .broke st ∉ l) → NoEscape c' := by
    intro l hlog h1 h2
    refine ⟨fun i hm => ?_, fun st hm => ?_⟩
    · rw [hlog] at hm
      exact (List.mem_append.mp hm).elim (h.1 i) (h1 i)
    · rw [hlog] at hm
      exact (List.mem_append.mp hm).elim (h.2 st) (h2 st)
  cases ht with
  | quiet es hlog hes =>
    exact add es hlog (fun i hm => hes _ hm) (fun st hm => hes _ hm)
  | called es hlog hes =>
    rw [List.append_assoc] at hlog
    refine add _ hlog (fun i hm => ?_) (fun st hm => ?_)
    · rcases List.mem_append.mp hm with hm | hm
      · exact hes _ hm
      · simp at hm
    · rcases List.mem_append.mp hm with hm | hm
      · exact hes _ hm
      · simp at hm
  | settled st allow s hs hlog => exact add _ hlog (by simp) (by simp)
  | run st i kont cs hlog => exact add _ hlog (by simp) (by simp)

/-- What holds of the continuations in every orderly run. -/
structure Ordered (c : Config α ε) : Prop where
  good : Good c
  owned : Owned c
  placed : Placed c
  numbered : Numbered c
  in_turn : InTurn c
  no_escape : NoEscape c

theorem step_ordered {c c' : Config α ε} {e : Nat × Action α ε} (h : Ordered c)
    (hn : Orderly c e) (hs : step c e = some c') : Ordered c' := by
  obtain ⟨k, hk, hc⟩ := step_calm h.owned hn hs
  have ht := calm_turns hk hc
  have hp' := calm_placed h.placed hk hc
  exact ⟨step_good h.good hn.1 hs, step_owned h.owned hn hs, hp', calm_numbered h.numbered hc,
    step_inTurn h.in_turn h.placed hp' h.numbered ht, step_noEscape h.no_escape ht⟩

theorem ordered_init (n : Nat) : Ordered (init α ε n) := by
  refine ⟨good_init n, owned_init n, fun i => ?_, ⟨by simp [init], by simp [init]⟩,
    by simp [InTurn, init], by simp [NoEscape, init]⟩
  have := total_replicate (total (Frame.left i)) n [(.user .main : Frame α ε)] rfl
  simpa [places, weigh, placesOf, init] using this

theorem reach_ordered {n : Nat} {c : Config α ε} (h : Reach step Orderly (init α ε n) c) :
    Ordered c :=
  h.invariant (ordered_init n) (fun _ _ _ ho hn hs => step_ordered ho hn hs)

/-- What the contract says of a configuration. A setter of `st` has returned when no stack holds
its loop, and the log holds each call of a continuation and each way that a setter ended. -/
structure ExactlyOnce (c : Config α ε) : Prop where
  called_once : ∀ i st, c.sources[i]? = some st → Ready c st →
    (∀ cs, ¬ InStack c (.drain st cs)) → invocations c i = 1
  at_most_once : ∀ i, invocations c i ≤ 1
  only_ready : ∀ i, 0 < invocations c i → ∃ st, c.sources[i]? = some st ∧ Ready c st
  in_order : ∀ st allow pend, .set st allow (.stored pend) ∈ c.log →
    pend.Pairwise (· < ·) ∧ (invokedIds c.log).filter (· ∈ pend) <+: pend
  no_escape : ∀ i, .escaped i ∉ c.log
  setters_end : ∀ st, .broke st ∉ c.log
  setters_throw : ∀ st allow, .set st allow .already ∈ c.log → Ready c st ∧ allow = true

theorem mem_invoked_of_pos {l : List (Entry ε)} {i : Id} (h : 0 < total (Entry.invokes i) l) :
    .invoked i ∈ l := by
  obtain ⟨e, he, hc⟩ := List.mem_filterMap.mp (mem_invokedIds.mpr h)
  cases e <;> cases hc
  exact he

/-- A continuation of a ready state that was not called is in the loop of a setter. -/
theorem Ordered.called {c : Config α ε} (h : Ordered c) {i : Id} {st : StateId}
    (hi : c.sources[i]? = some st) (hr : Ready c st)
    (hd : ∀ cs, ¬ InStack c (.drain st cs)) : invocations c i = 1 := by
  have hone := h.placed i
  rw [if_pos (List.getElem?_eq_some_iff.mp hi).1] at hone
  have hstates : total (placesOf i : Weights α ε).state c.states = 0 := by
    rw [total_eq_zero_iff]
    intro s hs
    obtain ⟨st', hst'⟩ := List.mem_iff_getElem?.mp hs
    have hok := h.good.states st' s hst'
    simp only [placesOf, listed]
    rw [total_eq_zero_iff]
    intro p hp
    obtain ⟨hsrc, -⟩ := hok.conts p hp
    refine one_ne (fun hpi => ?_)
    subst hpi
    rw [hi] at hsrc
    cases hsrc
    obtain ⟨s', hs', hr'⟩ := hr
    rw [hst'] at hs'
    cases hs'
    rw [hok.drained hr'] at hp
    simp at hp
  have hthreads : total (total (placesOf i : Weights α ε).frame) c.threads = 0 := by
    rw [total_eq_zero_iff]
    intro k hk
    rw [total_eq_zero_iff]
    intro f hf
    have hok := h.good.threads k hk f hf
    cases f with
    | drain st' cs =>
      simp only [placesOf, Frame.left, listed]
      rw [total_eq_zero_iff]
      intro p hp
      refine one_ne (fun hpi => ?_)
      subst hpi
      obtain ⟨hsrc, -⟩ := hok.2 p hp
      rw [hi] at hsrc
      cases hsrc
      exact hd cs ⟨k, hk, hf⟩
    | _ => rfl
  have hctr : total (placesOf i : Weights α ε).counter c.counters = 0 :=
    (total_eq_zero_iff _ _).mpr (fun _ _ => rfl)
  unfold places weigh at hone
  unfold invocations
  simp only [placesOf] at hone hstates hthreads hctr
  omega

/-- In every orderly run of any number of threads each continuation is called exactly once, in
its turn, and no exception leaves it. -/
theorem each_continuation_runs_once (n : Nat) (c : Config α ε)
    (h : Reach step Orderly (init α ε n) c) : ExactlyOnce c := by
  have ho := reach_ordered h
  refine ⟨fun i st hi hr hd => ho.called hi hr hd, fun i => ?_, fun i hpos => ?_,
    fun st allow pend hm => ⟨(ho.numbered.stored st allow pend hm).1, ?_⟩, ho.no_escape.1,
    ho.no_escape.2, fun st allow hm => ho.good.log _ hm⟩
  · have hle := ho.placed.le i
    unfold invocations
    unfold places weigh at hle
    simp only [placesOf] at hle
    omega
  · exact ho.good.log _ (mem_invoked_of_pos hpos)
  · obtain ⟨cs, heq, -⟩ := ho.in_turn st allow pend hm
    exact ⟨ids cs, heq⟩

/-- Two functions are registered on a promise, and the first one registers a third while the
setter still loops over them. -/
def registersAgain : List (Nat × Action Unit Unit) :=
  [(0, .promise none), (0, .then_ (some 0) (.then_ 1)), (0, .then_ (some 0) (.next_ 2)),
    (0, .set_value 0 .unit none true), (0, .tick none), (0, .tick none),
    (0, .then_ (some 0) (.then_ 3)), (0, .tick none), (0, .ret .unit)] ++
  List.replicate 4 (0, .tick none) ++ [(0, .ret .unit)] ++ List.replicate 6 (0, .tick none) ++
  [(0, .ret .unit)] ++ List.replicate 5 (0, .tick none)

/-- The third one runs at once, and the second one after it. -/
theorem each_continuation_runs_once_here :
    ∃ c : Config Unit Unit, Reach step Orderly (init Unit Unit 1) c ∧
      invokedIds c.log = [0, 2, 1] ∧ ExactlyOnce c := by
  have hrun : ∃ c, run step (init Unit Unit 1) registersAgain = some c ∧
      invokedIds c.log = [0, 2, 1] := ⟨_, rfl, rfl⟩
  obtain ⟨c, hrun, hlog⟩ := hrun
  have hr : Reach step Orderly (init Unit Unit 1) c :=
    reach_of_run _ _ _ (fun t e he => plain_orderly t (by revert e; decide)) hrun
  exact ⟨c, hr, hlog, each_continuation_runs_once 1 c hr⟩

end ltl.futures
