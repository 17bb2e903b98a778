-- Tokens: the continuations that are still to signal a block or to count down
-- a counter. A step moves them from place to place, and each kind of step that
-- makes one or uses one up is named here.
import Ltl.Places

open ltl.future_state runs counts

namespace ltl.futures

variable {α ε : Type}

/-! ## The weight of the continuations -/

/-- `g` counts nothing but signals of blocks and decrements of counters. -/
structure Counts (g : Cont → Nat) : Prop where
  invoke : ∀ src rs func, g (.invoke_and_set_value src rs func) = 0
  call : ∀ k, g (.call k) = 0
  inner : ∀ s f, g (.get_and_set_value s f) = 0

def contTokens (g : Cont → Nat) (cs : List (Id × Cont)) : Nat := total (fun p => g p.2) cs

/-- The loop of `when_all_ready` has one decrement to hand out for each future. -/
def Frame.tokens (g : Cont → Nat) : Frame α ε → Nat
  | .drain _ cs => contTokens g cs
  | .exec kont => g kont
  | .register n fs => fs.length * g (.dec n)
  | _ => 0

def tokensOf (g : Cont → Nat) : Weights α ε where
  state s := contTokens g s.continuations_
  frame := Frame.tokens g
  counter _ := 0
  entry _ := 0

/-- What is still to run, as `g` counts it. -/
def tokens (g : Cont → Nat) (c : Config α ε) : Nat := weigh (tokensOf g) c

def stackTokens (g : Cont → Nat) (k : List (Frame α ε)) : Nat := total (Frame.tokens g) k

/-- The block of `st`, when it has one: whether it is signalled. -/
def block (c : Config α ε) (st : StateId) : Option Bool := c.states[st]?.bind (·.block_)

variable {g : Cont → Nat}

@[simp] theorem stackTokens_cons (f : Frame α ε) (k : List (Frame α ε)) :
    stackTokens g (f :: k) = f.tokens g + stackTokens g k := by simp [stackTokens]

@[simp] theorem contTokens_nil : contTokens g [] = 0 := by simp [contTokens]

@[simp] theorem contTokens_cons (p : Id × Cont) (cs : List (Id × Cont)) :
    contTokens g (p :: cs) = g p.2 + contTokens g cs := by simp [contTokens]

@[simp] theorem contTokens_append (cs cs' : List (Id × Cont)) :
    contTokens g (cs ++ cs') = contTokens g cs + contTokens g cs' := by simp [contTokens]

theorem tokens_put {c : Config α ε} {t : Nat} {k : List (Frame α ε)} (k' : List (Frame α ε))
    (hk : c.threads[t]? = some k) :
    tokens g (c.put t k') + stackTokens g k = tokens g c + stackTokens g k' :=
  weigh_put (tokensOf g) k' hk

theorem tokens_note (c : Config α ε) (es : List (Entry ε)) :
    tokens g (c.note es) = tokens g c := by
  have : total (tokensOf g : Weights α ε).entry es = 0 := by
    rw [total_eq_zero_iff]
    exact fun _ _ => rfl
  simp only [tokens, weigh_note, this, Nat.add_zero]

theorem tokens_alloc (c : Config α ε) {s : State α ε} (hs : s.continuations_ = []) :
    tokens g (c.alloc s) = tokens g c := by
  simp [tokens, weigh_alloc, tokensOf, hs]

theorem deliver_tokens (r : Except (Exception ε) (Value α)) (k : List (Frame α ε)) :
    stackTokens g (deliver r k) = stackTokens g k := by
  unfold deliver
  split
  · split <;> simp [Frame.tokens]
  · simp [Frame.tokens]
  · rfl

@[simp] theorem waited_tokens (st : StateId) (b : Bool) (k : List (Frame α ε)) :
    stackTokens g (waited st b k) = stackTokens g k := by
  unfold waited
  split <;> simp [Frame.tokens]

theorem Local.tokens {c : Config α ε} (hg : Counts g) {k k' : List (Frame α ε)}
    (h : Local c k k') : stackTokens g k' = stackTokens g k := by
  cases h with
  | read => simp [deliver_tokens, Frame.tokens]
  | counted =>
    rename_i n fs k
    simp only [stackTokens_cons, Frame.tokens, List.length_cons]
    rw [Nat.add_mul]
    omega
  | _ => simp [Frame.tokens, hg.invoke, hg.call, hg.inner]

theorem Waits.tokens {k k' : List (Frame α ε)} {st : StateId} {b : Bool} (h : Waits k st b k') :
    stackTokens g k' = stackTokens g k := by
  cases h <;> simp [Frame.tokens]

/-- A registration hands out the token that its call held. -/
theorem Adds.tokens {c c₁ : Config α ε} (hg : Counts g) {a : Action α ε}
    {k k' : List (Frame α ε)} {st : StateId} {kont : Cont} (h : Adds c a k c₁ st kont k') :
    futures.tokens g c₁ = futures.tokens g c ∧
      g kont + stackTokens g k' = stackTokens g k ∧ c₁.counters = c.counters := by
  cases h with
  | then_ => exact ⟨tokens_alloc c rfl, by simp [hg.invoke], rfl⟩
  | continue_with => exact ⟨rfl, by simp [hg.call], rfl⟩
  | unwrap =>
    refine ⟨?_, by simp [hg.invoke], rfl⟩
    rw [tokens_note, tokens_alloc _ rfl, tokens_alloc _ rfl]
  | unwrap_outer => exact ⟨rfl, by simp [hg.inner, hg.invoke, Frame.tokens], rfl⟩
  | register =>
    refine ⟨rfl, ?_, rfl⟩
    simp only [stackTokens_cons, Frame.tokens, List.length_cons]
    rw [Nat.add_mul]
    omega
  | when_all => exact ⟨tokens_alloc c rfl, by simp [hg.invoke, Frame.tokens], rfl⟩

theorem registered_tokens {c : Config α ε} {t : Nat} {st : StateId} {s u : State α ε}
    (kont : Cont) {k : List (Frame α ε)} (k' : List (Frame α ε))
    (hk : c.threads[t]? = some k) (hs : c.states[st]? = some s)
    (hu : u.continuations_ = s.continuations_) :
    tokens g (registered c t st u kont k') + stackTokens g k =
      tokens g c + g kont + stackTokens g k' := by
  have := weigh_registered (tokensOf g) u kont k' hk hs
  simp only [tokensOf, hu, contTokens_append, contTokens_cons, contTokens_nil] at this
  simp only [tokens, tokensOf, stackTokens]
  omega

theorem settle_tokens {c : Config α ε} {t : Nat} {st : StateId} {allow : Bool}
    {s s' : State α ε} {k : List (Frame α ε)} (k' : List (Frame α ε))
    (hk : c.threads[t]? = some k) (hs : c.states[st]? = some s) :
    tokens g (settle c t st allow s s' k') + stackTokens g k = tokens g c + stackTokens g k' := by
  have := weigh_settle (tokensOf g) allow s' k' hk hs
  simp only [tokensOf, Frame.tokens, contTokens_nil] at this
  simp only [tokens, tokensOf, stackTokens]
  omega

theorem startWhenAllReady_tokens {c : Config α ε} {t : Nat} (fs : List Future) (q : Option Nat)
    {k : List (Frame α ε)} (k' : List (Frame α ε)) (hk : c.threads[t]? = some k) :
    tokens g (startWhenAllReady c t fs q k') + stackTokens g k =
      tokens g c + fs.length * g (.dec c.counters.length) + stackTokens g k' := by
  have := weigh_startWhenAllReady (tokensOf g) fs q k' hk
  simp only [tokensOf, contTokens_nil, Frame.tokens] at this
  simp only [tokens, tokensOf, stackTokens]
  omega

/-! ## The blocks -/

theorem block_of_states {c c' : Config α ε} {st : StateId}
    (h : c'.states[st]? = c.states[st]?) : block c' st = block c st := by
  unfold block
  rw [h]

@[simp] theorem block_put (c : Config α ε) (t : Nat) (k : List (Frame α ε)) (st : StateId) :
    block (c.put t k) st = block c st := rfl

theorem block_eq {c : Config α ε} {st : StateId} {s : State α ε} (hs : c.states[st]? = some s) :
    block c st = s.block_ := by
  unfold block
  rw [hs]
  rfl

/-- New states have no block yet. -/
theorem block_append {c c' : Config α ε} {l : List (State α ε)}
    (hs : c'.states = c.states ++ l) (hl : ∀ s ∈ l, s.block_ = none) (st : StateId) :
    block c' st = block c st := by
  unfold block
  rw [hs]
  by_cases hlt : st < c.states.length
  · rw [List.getElem?_append_left hlt]
  · rw [List.getElem?_append_right (Nat.le_of_not_lt hlt),
      List.getElem?_eq_none (l := c.states) (Nat.le_of_not_lt hlt)]
    cases hs' : l[st - c.states.length]? with
    | none => rfl
    | some s => exact hl s (List.mem_of_getElem? hs')

theorem block_set {c c' : Config α ε} {i : StateId} {s u : State α ε}
    (hi : c.states[i]? = some s) (hs : c'.states = c.states.set i u)
    (hb : u.block_ = s.block_) (st : StateId) : block c' st = block c st := by
  by_cases hne : i = st
  · subst hne
    have hu : c'.states[i]? = some u := by
      rw [hs, List.getElem?_set_self (List.getElem?_eq_some_iff.mp hi).1]
    rw [block_eq hu, block_eq hi, hb]
  · exact block_of_states (by rw [hs, List.getElem?_set_ne hne])

theorem Adds.blocks {c c₁ : Config α ε} {a : Action α ε} {k k' : List (Frame α ε)}
    {st₀ : StateId} {kont : Cont} (h : Adds c a k c₁ st₀ kont k') (st : StateId) :
    block c₁ st = block c st := by
  cases h with
  | then_ => exact block_append (l := [_]) rfl (by simp) st
  | unwrap => exact block_append (l := [_, _]) (List.append_assoc _ _ _) (by simp) st
  | when_all => exact block_append (l := [_]) rfl (by simp) st
  | _ => exact block_of_states rfl

/-! ## What a step does to the tokens -/

/-- A step makes no token and uses none up, or it is the first wait on `st`, the start of
`when_all_ready`, a decrement or a signal. -/
inductive TokensMove (g : Cont → Nat) (c c' : Config α ε) : Prop where
  | same (he : tokens g c' = tokens g c) (hb : ∀ st, block c' st = block c st)
      (hc : c'.counters = c.counters)
  | waited (st) (he : tokens g c' = tokens g c + g (.signal st)) (hb : block c st = none)
      (hb' : block c' st = some false) (hne : ∀ st', st' ≠ st → block c' st' = block c st')
      (hc : c'.counters = c.counters) (hs : Stored c' st (c.sources.length, .signal st))
  | started (fs : List Future)
      (he : tokens g c' = tokens g c + fs.length * g (.dec c.counters.length))
      (hb : ∀ st, block c' st = block c st)
      (hc : c'.counters = c.counters ++ [⟨fs.length, c.states.length⟩])
  | counted (n : CounterId) (ctr) (hn : c.counters[n]? = some ctr)
      (he : tokens g c' + g (.dec n) = tokens g c) (hb : ∀ st, block c' st = block c st)
      (hc : c'.counters = c.counters.set n { ctr with count := ctr.count - 1 })
      (hset : ctr.count = 1 → InStack c' (.set_prm ctr.prm))
  | signalled (st) (he : tokens g c' + g (.signal st) = tokens g c)
      (hb' : block c' st = some true) (hne : ∀ st', st' ≠ st → block c' st' = block c st')
      (hc : c'.counters = c.counters)

theorem settle_tokensMove {c : Config α ε} {t : Nat} {st : StateId} {allow : Bool}
    {s s' : State α ε} {k k' : List (Frame α ε)} (hk : c.threads[t]? = some k)
    (hs : c.states[st]? = some s) (hb : s'.block_ = s.block_)
    (hk' : stackTokens g k' = stackTokens g k) : TokensMove g c (settle c t st allow s s' k') := by
  have htok : tokens g (settle c t st allow s s' k') + stackTokens g k =
      tokens g c + stackTokens g k' := settle_tokens k' hk hs
  exact .same (by omega) (block_set hs rfl hb) rfl

theorem calm_tokens {c c' : Config α ε} {t : Nat} {k : List (Frame α ε)} (hg : Counts g)
    (hk : c.threads[t]? = some k) (h : Calm c t k c') : TokensMove g c c' := by
  cases h with
  | local_ hl =>
    rename_i k'
    have hput := tokens_put (g := g) k' hk
    have := hl.tokens hg
    exact .same (by omega) (fun _ => rfl) rfl
  | promise =>
    exact .same (tokens_alloc c rfl) (block_append (l := [_]) rfl (by simp)) rfl
  | made_ready hk' =>
    rename_i b k k'
    have hput := tokens_put (g := g) (c := c.alloc { value_ := some .unit }) k' hk
    rw [tokens_alloc c rfl] at hput
    have : stackTokens g k' = stackTokens g (.user b :: k) := by
      rcases hk' with rfl | rfl <;> simp [Frame.tokens]
    exact .same (by omega) (block_append (l := [_]) rfl (by simp)) rfl
  | when_all_ready hfs hk' =>
    rename_i b fs q k k'
    have htok := startWhenAllReady_tokens (g := g) fs q k' hk
    have : stackTokens g k' = stackTokens g (.user b :: k) := by
      rcases hk' with rfl | rfl <;> simp [Frame.tokens]
    exact .started fs (by omega) (block_append (l := [_]) rfl (by simp)) rfl
  | stored h hs hr =>
    rename_i a c₁ st s kont k'
    obtain ⟨h1, h2, h3⟩ := h.tokens hg
    have hreg := registered_tokens (g := g) kont k' (by rw [(h.left 0).1]; exact hk) hs rfl
    refine .same (by omega) (fun st' => ?_) h3
    exact (block_set (c := c₁) (u := { s with
      continuations_ := s.continuations_ ++ [(c₁.sources.length, kont)] }) hs rfl rfl st').trans
      (h.blocks st')
  | run_now h hs hr =>
    rename_i a c₁ st s kont k'
    obtain ⟨h1, h2, h3⟩ := h.tokens hg
    have hput := tokens_put (g := g) (c := (c₁.enroll st).note [.invoked c₁.sources.length])
      (.exec kont :: .invoking c₁.sources.length :: k') (by rw [← (h.left 0).1] at hk; exact hk)
    have henroll : tokens g (c₁.enroll st) = tokens g c₁ := rfl
    simp only [tokens_note, stackTokens_cons, Frame.tokens] at hput
    exact .same (by omega) h.blocks h3
  | fulfilled hp hs hr hs' =>
    refine settle_tokensMove hk hs ?_ rfl
    rcases hs' with ⟨w, rfl⟩ | ⟨x, rfl⟩ <;> rfl
  | refused =>
    rename_i b k st allow r hr
    have hput := tokens_put (g := g) (c := c.note [.set st allow r]) (.user b :: k) hk
    rw [tokens_note] at hput
    exact .same (by omega) (fun _ => rfl) rfl
  | set_value hs hr => exact settle_tokensMove hk hs rfl (by simp [Frame.tokens])
  | built =>
    rename_i rs v x k
    have hput := tokens_put (g := g) (c := c.note [.set rs true (.built x)]) (.handler rs x :: k) hk
    simp only [tokens_note, stackTokens_cons, Frame.tokens] at hput
    exact .same (by omega) (fun _ => rfl) rfl
  | set_exception hs hr => exact settle_tokensMove hk hs rfl (by simp [Frame.tokens])
  | set_prm hs hr => exact settle_tokensMove hk hs rfl (by simp [Frame.tokens])
  | waited h hs hr =>
    rename_i st b k' s
    have hput := tokens_put (g := g) (waited st b k') hk
    have := h.tokens (g := g)
    rw [waited_tokens] at hput
    exact .same (by omega) (fun _ => rfl) rfl
  | first_wait h hs hr hb =>
    rename_i st b k' s
    have hreg := registered_tokens (g := g) (u := { s with block_ := some false }) (.signal st)
      (.waiting st b :: k') hk hs rfl
    have := h.tokens (g := g)
    simp only [stackTokens_cons, Frame.tokens] at hreg
    refine .waited st (by omega) (by rw [block_eq hs, hb]) ?_ (fun st' hne => ?_) rfl ?_
    · exact block_eq (update_self (c := c.enroll st) _ hs)
    · exact block_of_states (update_ne (c := c.enroll st) _ (Ne.symm hne))
    · exact ⟨_, update_self (c := c.enroll st) _ hs, by simp⟩
  | wait h =>
    rename_i st b k'
    have hput := tokens_put (g := g) (.waiting st b :: k') hk
    have := h.tokens (g := g)
    simp only [stackTokens_cons, Frame.tokens] at hput
    exact .same (by omega) (fun _ => rfl) rfl
  | dec hn hk' =>
    rename_i n ctr k k'
    have hcount := weigh_recount (tokensOf g) { ctr with count := ctr.count - 1 } hn
    have hput := tokens_put (g := g) (c := { c with
      counters := c.counters.set n { ctr with count := ctr.count - 1 } }) k' hk
    have : stackTokens g k' = stackTokens g k := by
      rcases hk' with ⟨-, rfl⟩ | ⟨-, rfl⟩ <;> simp [Frame.tokens]
    simp only [stackTokens_cons, Frame.tokens] at hput
    simp only [tokensOf] at hcount
    refine .counted n ctr hn ?_ (fun _ => rfl) rfl (fun h1 => ?_)
    · simp only [tokens, tokensOf] at hput ⊢
      omega
    · rcases hk' with ⟨-, rfl⟩ | ⟨h1', -⟩
      · exact inStack_put (c := { c with
          counters := c.counters.set n { ctr with count := ctr.count - 1 } }) hk (by simp)
      · exact absurd h1 h1'
  | signal hs =>
    rename_i st s k
    have hput := tokens_put (g := g) (c := c.update st (signal s)) k hk
    have hup := weigh_update (tokensOf g) (signal s) hs
    simp only [tokensOf, signal, stackTokens_cons, Frame.tokens] at hput hup
    refine .signalled st ?_ ?_ (fun st' hne => ?_) rfl
    · simp only [tokens, tokensOf] at hput ⊢
      simp only [signal]
      omega
    · exact block_eq (update_self (c := c) (signal s) hs)
    · exact block_of_states (update_ne (c := c) (signal s) (Ne.symm hne))
  | run =>
    rename_i st i kont cs k
    have hput := tokens_put (g := g) (c := c.note [.invoked i])
      (.exec kont :: .invoking i :: .drain st cs :: k) hk
    simp only [tokens_note, stackTokens_cons, Frame.tokens, contTokens_cons] at hput
    exact .same (by omega) (fun _ => rfl) rfl
  | fault => exact .same rfl (fun _ => rfl) rfl

/-! ## Where the tokens are -/

/-- The places of a continuation that is still to run: a state holds it, the loop of a setter is
to call it, it is called now, or the loop of `when_all_ready` is to register it. -/
inductive Waiting (c : Config α ε) (kont : Cont) : Prop where
  | stored (st i) (h : Stored c st (i, kont))
  | draining (st i) (h : Draining c st (i, kont))
  | called (h : InStack c (.exec kont))
  | listed (n fs) (h : InStack c (.register n fs)) (hn : kont = .dec n)

/-- The weight that counts `kont`. -/
def only (kont : Cont) : Cont → Nat := fun kont' => if kont' = kont then 1 else 0

@[simp] theorem only_self (kont : Cont) : only kont kont = 1 := by simp [only]

theorem only_ne {kont kont' : Cont} (h : kont' ≠ kont) : only kont kont' = 0 := by simp [only, h]

theorem eq_of_only {kont kont' : Cont} (h : only kont kont' ≠ 0) : kont' = kont := by
  unfold only at h
  split at h
  · assumption
  · exact absurd rfl h

theorem only_signal (st : StateId) : Counts (only (.signal st)) := by
  constructor <;> intros <;> exact only_ne (by simp)

theorem only_dec (n : CounterId) : Counts (only (.dec n)) := by
  constructor <;> intros <;> exact only_ne (by simp)

theorem exists_cont {kont : Cont} {cs : List (Id × Cont)} (h : contTokens (only kont) cs ≠ 0) :
    ∃ i, (i, kont) ∈ cs := by
  obtain ⟨j, ⟨i, kont'⟩, hj, hne⟩ := exists_of_total_ne_zero h
  obtain rfl := eq_of_only hne
  exact ⟨i, List.mem_of_getElem? hj⟩

/-- A token that is counted is in one of the places. -/
theorem waiting_of_tokens {c : Config α ε} {kont : Cont} (h : tokens (only kont) c ≠ 0) :
    Waiting c kont := by
  have hctr : total (tokensOf (only kont) : Weights α ε).counter c.counters = 0 :=
    (total_eq_zero_iff _ _).mpr (fun _ _ => rfl)
  have hlog : total (tokensOf (only kont) : Weights α ε).entry c.log = 0 :=
    (total_eq_zero_iff _ _).mpr (fun _ _ => rfl)
  have hsum : total (tokensOf (only kont) : Weights α ε).state c.states ≠ 0 ∨
      total (total (tokensOf (only kont) : Weights α ε).frame) c.threads ≠ 0 := by
    unfold tokens weigh at h
    omega
  rcases hsum with hst | hth
  · obtain ⟨st, s, hs, hne⟩ := exists_of_total_ne_zero hst
    obtain ⟨i, hi⟩ := exists_cont hne
    exact .stored st i ⟨s, hs, hi⟩
  · obtain ⟨t, k, hk, hne⟩ := exists_of_total_ne_zero hth
    obtain ⟨j, f, hf, hfne⟩ := exists_of_total_ne_zero hne
    have hin : InStack c f := ⟨k, List.mem_of_getElem? hk, List.mem_of_getElem? hf⟩
    cases f with
    | drain st cs =>
      obtain ⟨i, hi⟩ := exists_cont hfne
      exact .draining st i ⟨cs, hin, hi⟩
    | exec kont' =>
      obtain rfl := eq_of_only hfne
      exact .called hin
    | register n fs =>
      have hn : only kont (.dec n) ≠ 0 := fun h0 => by
        simp only [tokensOf, Frame.tokens, h0, Nat.mul_zero] at hfne
        exact hfne rfl
      exact .listed n fs hin (eq_of_only hn).symm
    | _ => exact absurd rfl hfne

/-- Each place of `kont` in a stack counts for at least one token. -/
theorem tokens_of_frame {c : Config α ε} {f : Frame α ε} (hin : InStack c f) :
    f.tokens g ≤ tokens g c := by
  obtain ⟨k, hk, hf⟩ := hin
  have h1 := le_total (Frame.tokens g) k f hf
  have h2 := le_total (total (Frame.tokens g)) c.threads k hk
  unfold tokens weigh
  simp only [tokensOf]
  omega

theorem tokens_of_draining {c : Config α ε} {st : StateId} {p : Id × Cont}
    (h : Draining c st p) : g p.2 ≤ tokens g c := by
  obtain ⟨cs, hin, hp⟩ := h
  have h1 := le_total (fun p : Id × Cont => g p.2) cs p hp
  exact Nat.le_trans h1 (tokens_of_frame hin)

theorem tokens_of_stored {c : Config α ε} {st : StateId} {p : Id × Cont} (h : Stored c st p) :
    g p.2 ≤ tokens g c := by
  obtain ⟨s, hs, hp⟩ := h
  have h1 := le_total (fun p : Id × Cont => g p.2) s.continuations_ p hp
  have h2 := le_total (fun s : State α ε => contTokens g s.continuations_) c.states s
    (List.mem_of_getElem? hs)
  unfold tokens weigh
  simp only [tokensOf, contTokens] at h2 ⊢
  omega

end ltl.futures
