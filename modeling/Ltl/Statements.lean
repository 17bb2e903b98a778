-- The functions of a shared state (future_state.hpp), statement by statement,
-- with the mutex of the state: `Ltl.FutureState` has each locked part as one
-- step, and some reads are made with no lock at all.
import Ltl.FutureState
import Ltl.Sections

open runs ltl.future_state

namespace ltl.statements

/-! ## The statements -/

/-- A function that `then` or `continue_with` stores. One made by `next` or `unwrap` first calls
`get` of the state, with no `wait` before it. -/
structure Func where
  id : Nat
  get_first : Bool
  deriving DecidableEq, Repr

/-- A stored function. `wait` stores one that signals the block. -/
inductive Cont where
  | signal
  | func (f : Func)
  deriving DecidableEq, Repr

/-- What `mutex_` protects. `block_` says that the pointer is not null, and `signalled_` of the
block has a mutex of its own. -/
structure Shared (ν χ : Type) where
  value_ : Option ν := none
  continuations_ : List Cont := []
  block_ : Bool := false
  exception_ : Option χ := none
  deriving DecidableEq, Repr

/-- A call on the state: `set_value_impl`, `set_exception`, `then` or `continue_with`, `wait` (made
by `get` or not), and the functions that only look (`ready`, `get_exception`). -/
inductive Op (ν χ : Type) where
  | set_value (v : ν) (allow_exception : Bool)
  | set_exception (p : Option χ)
  | add_continuation (f : Func)
  | wait (isGet : Bool)
  | look
  deriving DecidableEq, Repr

/-- The next statement of a thread that has the mutex. -/
inductive Inner (ν χ : Type) where
  /-- The first test of a call. -/
  | test (op : Op ν χ)
  /-- `new T(v)`. -/
  | build (v : ν)
  | store_value (v : ν)
  | store_exception (p : Option χ)
  | swap
  | push (f : Func)
  /-- `if (auto x = get_value(value_))` of `wait`. -/
  | test_value (isGet : Bool)
  /-- `if (!block_)`. -/
  | test_block (isGet : Bool)
  | make_block (isGet : Bool)
  | push_signal (isGet : Bool)
  deriving DecidableEq, Repr

/-- What a thread still has to do without the mutex. -/
inductive Frame (ν χ : Type) where
  /-- Code of others: the main program, or the rest of a continuation. It may make any call, and
  `got` is what its last `get` gave. -/
  | client (got : Option (Except χ ν))
  /-- `for (auto&& f : cs) f();` -/
  | loop (cs : List Cont)
  | run (f : Cont)
  /-- `block_->wait()`, before the read of `block_`. -/
  | deref (isGet : Bool)
  | waiting (isGet : Bool)
  /-- `if (this->exception_)` of `get`. -/
  | test_exception
  /-- `return *get_value(this->value_)`. -/
  | read_value
  /-- A null pointer has been read. -/
  | null_read

abbrev Frames (ν χ : Type) := List (Frame ν χ)

/-- What a statement leaves open: a call of the client, the return of its code, or what the code or
a constructor throws. -/
inductive Choice (ν χ : Type) where
  | go
  | call (op : Op ν χ)
  | ret
  | throw_ (x : χ)
  deriving DecidableEq, Repr

variable {ν χ : Type}

def Shared.ready (s : Shared ν χ) : Bool := s.value_.isSome || s.exception_.isSome

/-- What a call of `get` goes on with, without its `wait`. -/
def waited (isGet : Bool) (k : Frames ν χ) : Frames ν χ := if isGet then .test_exception :: k else k

/-- A statement inside of the lock of a call that goes on with `k`. -/
def inner (i : Inner ν χ) (k : Frames ν χ) (s : Shared ν χ) (l : Choice ν χ) :
    Shared ν χ × ((Inner ν χ × Frames ν χ) ⊕ Frames ν χ) :=
  match i with
  | .test (.set_value v _) => if s.ready then (s, .inr k) else (s, .inl (.build v, k))
  | .test (.set_exception p) => if s.ready then (s, .inr k) else (s, .inl (.store_exception p, k))
  | .test (.add_continuation f) =>
    if s.ready then (s, .inr (.run (.func f) :: k)) else (s, .inl (.push f, k))
  | .test (.wait g) =>
    if s.exception_.isSome then (s, .inr (waited g k)) else (s, .inl (.test_value g, k))
  | .test .look => (s, .inr k)
  | .build v =>
    match l with
    | .throw_ _ => (s, .inr k)
    | _ => (s, .inl (.store_value v, k))
  | .store_value v => ({ s with value_ := some v }, .inl (.swap, k))
  | .store_exception p => ({ s with exception_ := p }, .inl (.swap, k))
  | .swap => ({ s with continuations_ := [] }, .inr (.loop s.continuations_ :: k))
  | .push f => ({ s with continuations_ := s.continuations_ ++ [.func f] }, .inr k)
  | .test_value g =>
    if s.value_.isSome then (s, .inr (waited g k)) else (s, .inl (.test_block g, k))
  | .test_block g =>
    if s.block_ then (s, .inr (.deref g :: k)) else (s, .inl (.make_block g, k))
  | .make_block g => ({ s with block_ := true }, .inl (.push_signal g, k))
  | .push_signal g =>
    ({ s with continuations_ := s.continuations_ ++ [.signal] }, .inr (.deref g :: k))

/-- Where an exception goes: to the code of others below. The loops on the way are left. -/
def raise : Frames ν χ → Frames ν χ
  | [] => []
  | .client r :: k => .client r :: k
  | _ :: k => raise k

/-- What `get` gives to the code below it. -/
def deliver (r : Except χ ν) : Frames ν χ → Frames ν χ
  | .client _ :: k => .client (some r) :: k
  | k => k

/-- A statement with no lock held. `y` is `signalled_`. -/
def outer (k : Frames ν χ) (s : Shared ν χ) (y : Bool) (l : Choice ν χ) :
    Option (Bool × ((Inner ν χ × Frames ν χ) ⊕ Frames ν χ)) :=
  match k with
  | [] => none
  | .client r :: k =>
    match l, k with
    | .call op, _ => some (y, .inl (.test op, .client r :: k))
    | .ret, _ :: _ => some (y, .inr k)
    | .throw_ _, _ :: _ => some (y, .inr (raise k))
    | _, _ => none
  | .loop [] :: k => some (y, .inr k)
  | .loop (f :: cs) :: k => some (y, .inr (.run f :: .loop cs :: k))
  | .run .signal :: k => some (true, .inr k)
  | .run (.func f) :: k => some (y, .inr (waited f.get_first (.client none :: k)))
  | .deref g :: k => some (y, .inr ((if s.block_ then .waiting g else .null_read) :: k))
  | .waiting g :: k => if y then some (y, .inr (waited g k)) else none
  | .test_exception :: k =>
    match s.exception_ with
    | some x => some (y, .inr (deliver (.error x) k))
    | none => some (y, .inr (.read_value :: k))
  | .read_value :: k =>
    match s.value_ with
    | some v => some (y, .inr (deliver (.ok v) k))
    | none => some (y, .inr (.null_read :: k))
  | .null_read :: _ => none

def code (ν χ : Type) :
    sections.Code (Shared ν χ) Bool (Inner ν χ × Frames ν χ) (Frames ν χ) (Choice ν χ) where
  inner i := inner i.1 i.2
  outer := outer

abbrev State (ν χ : Type) := sections.State (Shared ν χ) Bool (Inner ν χ × Frames ν χ) (Frames ν χ)

def step : State ν χ → sections.Event (Choice ν χ) → Option (State ν χ) := sections.step (code ν χ)

/-- A new state, and threads that are in code of others. -/
def init (ν χ : Type) : State ν χ := .start {} false fun _ => [.client none]

/-- No exception is null. -/
def NonNull (l : Choice ν χ) : Prop := l ≠ .call (.set_exception none)

/-! ## What a statement reads and writes -/

inductive Field where
  | value_
  | continuations_
  | block_
  | exception_
  deriving DecidableEq, Repr

def Inner.reads : Inner ν χ → List Field
  | .test (.wait _) => [.exception_]
  | .test _ => [.value_, .exception_]
  | .test_value _ => [.value_]
  | .test_block _ => [.block_]
  | _ => []

def Inner.writes : Inner ν χ → List Field
  | .store_value _ => [.value_]
  | .store_exception _ => [.exception_]
  | .swap | .push _ | .push_signal _ => [.continuations_]
  | .make_block _ => [.block_]
  | _ => []

def Frame.reads : Frame ν χ → List Field
  | .deref _ => [.block_]
  | .test_exception => [.exception_]
  | .read_value => [.value_]
  | _ => []

/-- What the next step of a thread reads. -/
def reads : sections.Place (Inner ν χ × Frames ν χ) (Frames ν χ) → List Field
  | .inside i => i.1.reads
  | .out (f :: _) => f.reads
  | _ => []

/-- What the next step of a thread writes. Only a thread with the mutex writes. -/
def writes : sections.Place (Inner ν χ × Frames ν χ) (Frames ν χ) → List Field
  | .inside i => i.1.writes
  | _ => []

/-- Two threads are about to access one field, and one of them writes it. -/
def Racy (s : State ν χ) : Prop :=
  ∃ t u f, t ≠ u ∧ f ∈ writes (s.place t) ∧ (f ∈ reads (s.place u) ∨ f ∈ writes (s.place u))

/-- A thread has read a null pointer. -/
def ReadsNull (s : State ν χ) : Prop := ∃ t k, s.place t = .out k ∧ Frame.null_read ∈ k

/-! ## What a locked part does -/

/-- Where a call on `s` can be inside of the lock, and what the mutex protects then. -/
inductive Mid (s : Shared ν χ) : Op ν χ → Inner ν χ → Shared ν χ → Prop where
  | test {op} : Mid s op (.test op) s
  | build {v a} (h : s.ready = false) : Mid s (.set_value v a) (.build v) s
  | store_value {v a} (h : s.ready = false) : Mid s (.set_value v a) (.store_value v) s
  | store_exception {p} (h : s.ready = false) : Mid s (.set_exception p) (.store_exception p) s
  | swap_value {v a} (h : s.ready = false) :
      Mid s (.set_value v a) .swap { s with value_ := some v }
  | swap_exception {p} (h : s.ready = false) :
      Mid s (.set_exception p) .swap { s with exception_ := p }
  | push {f} (h : s.ready = false) : Mid s (.add_continuation f) (.push f) s
  | test_value {g} (h : s.exception_ = none) : Mid s (.wait g) (.test_value g) s
  | test_block {g} (h : s.ready = false) : Mid s (.wait g) (.test_block g) s
  | make_block {g} (h : s.ready = false) (hb : s.block_ = false) :
      Mid s (.wait g) (.make_block g) s
  | push_signal {g} (h : s.ready = false) (hb : s.block_ = false) :
      Mid s (.wait g) (.push_signal g) { s with block_ := true }

/-- What a call on `s` from `k` leaves, and what its thread goes on with. -/
inductive Ends (s : Shared ν χ) (k : Frames ν χ) :
    Op ν χ → Shared ν χ → Frames ν χ → Prop where
  | refused {v a} (h : s.ready = true) : Ends s k (.set_value v a) s k
  | built {v a} (x : χ) (h : s.ready = false) : Ends s k (.set_value v a) s k
  | stored {v a} (h : s.ready = false) :
      Ends s k (.set_value v a) { s with value_ := some v, continuations_ := [] }
        (.loop s.continuations_ :: k)
  | already {p} (h : s.ready = true) : Ends s k (.set_exception p) s k
  | failed {p} (h : s.ready = false) :
      Ends s k (.set_exception p) { s with exception_ := p, continuations_ := [] }
        (.loop s.continuations_ :: k)
  | run {f} (h : s.ready = true) : Ends s k (.add_continuation f) s (.run (.func f) :: k)
  | pushed {f} (h : s.ready = false) :
      Ends s k (.add_continuation f) { s with continuations_ := s.continuations_ ++ [.func f] } k
  | no_wait {g} (h : s.ready = true) : Ends s k (.wait g) s (waited g k)
  | joined {g} (h : s.ready = false) (hb : s.block_ = true) :
      Ends s k (.wait g) s (.deref g :: k)
  | blocked {g} (h : s.ready = false) (hb : s.block_ = false) :
      Ends s k (.wait g)
        { s with block_ := true, continuations_ := s.continuations_ ++ [.signal] } (.deref g :: k)
  | looked : Ends s k .look s k

theorem ready_false {s : Shared ν χ} :
    s.ready = false ↔ s.value_ = none ∧ s.exception_ = none := by
  unfold Shared.ready
  cases s.value_ <;> cases s.exception_ <;> simp

/-- One statement inside of the lock. -/
theorem Mid.inner {s x y : Shared ν χ} {op : Op ν χ} {i : Inner ν χ} {k : Frames ν χ}
    {l : Choice ν χ} {p : (Inner ν χ × Frames ν χ) ⊕ Frames ν χ} (h : Mid s op i x)
    (hi : statements.inner i k x l = (y, p)) :
    (∃ j, p = .inl (j, k) ∧ Mid s op j y) ∨ (∃ k', p = .inr k' ∧ Ends s k op y k') := by
  cases h with
  | test =>
    cases op with
    | set_value v a =>
      cases hr : s.ready
      · simp only [statements.inner, hr, Bool.false_eq_true, if_false, Prod.mk.injEq] at hi
        obtain ⟨rfl, rfl⟩ := hi
        exact Or.inl ⟨_, rfl, .build hr⟩
      · simp only [statements.inner, hr, if_true, Prod.mk.injEq] at hi
        obtain ⟨rfl, rfl⟩ := hi
        exact Or.inr ⟨_, rfl, .refused hr⟩
    | set_exception q =>
      cases hr : s.ready
      · simp only [statements.inner, hr, Bool.false_eq_true, if_false, Prod.mk.injEq] at hi
        obtain ⟨rfl, rfl⟩ := hi
        exact Or.inl ⟨_, rfl, .store_exception hr⟩
      · simp only [statements.inner, hr, if_true, Prod.mk.injEq] at hi
        obtain ⟨rfl, rfl⟩ := hi
        exact Or.inr ⟨_, rfl, .already hr⟩
    | add_continuation f =>
      cases hr : s.ready
      · simp only [statements.inner, hr, Bool.false_eq_true, if_false, Prod.mk.injEq] at hi
        obtain ⟨rfl, rfl⟩ := hi
        exact Or.inl ⟨_, rfl, .push hr⟩
      · simp only [statements.inner, hr, if_true, Prod.mk.injEq] at hi
        obtain ⟨rfl, rfl⟩ := hi
        exact Or.inr ⟨_, rfl, .run hr⟩
    | wait g =>
      cases hx : s.exception_ with
      | none =>
        simp only [statements.inner, hx, Option.isSome_none, Bool.false_eq_true, if_false,
          Prod.mk.injEq] at hi
        obtain ⟨rfl, rfl⟩ := hi
        exact Or.inl ⟨_, rfl, .test_value hx⟩
      | some z =>
        have hr : s.ready = true := by simp [Shared.ready, hx]
        simp only [statements.inner, hx, Option.isSome_some, if_true, Prod.mk.injEq] at hi
        obtain ⟨rfl, rfl⟩ := hi
        exact Or.inr ⟨_, rfl, .no_wait hr⟩
    | look =>
      simp only [statements.inner, Prod.mk.injEq] at hi
      obtain ⟨rfl, rfl⟩ := hi
      exact Or.inr ⟨_, rfl, .looked⟩
  | build hr =>
    simp only [statements.inner] at hi
    split at hi
    · obtain ⟨rfl, rfl⟩ := Prod.mk.inj hi
      rename_i z
      exact Or.inr ⟨_, rfl, .built z hr⟩
    · obtain ⟨rfl, rfl⟩ := Prod.mk.inj hi
      exact Or.inl ⟨_, rfl, .store_value hr⟩
  | store_value hr =>
    obtain ⟨rfl, rfl⟩ := Prod.mk.inj hi
    exact Or.inl ⟨_, rfl, .swap_value hr⟩
  | store_exception hr =>
    obtain ⟨rfl, rfl⟩ := Prod.mk.inj hi
    exact Or.inl ⟨_, rfl, .swap_exception hr⟩
  | swap_value hr =>
    obtain ⟨rfl, rfl⟩ := Prod.mk.inj hi
    exact Or.inr ⟨_, rfl, .stored hr⟩
  | swap_exception hr =>
    obtain ⟨rfl, rfl⟩ := Prod.mk.inj hi
    exact Or.inr ⟨_, rfl, .failed hr⟩
  | push hr =>
    obtain ⟨rfl, rfl⟩ := Prod.mk.inj hi
    exact Or.inr ⟨_, rfl, .pushed hr⟩
  | test_value hx =>
    simp only [statements.inner] at hi
    split at hi
    · rename_i hv
      obtain ⟨rfl, rfl⟩ := Prod.mk.inj hi
      exact Or.inr ⟨_, rfl, .no_wait (by simp [Shared.ready, hv])⟩
    · rename_i hv
      obtain ⟨rfl, rfl⟩ := Prod.mk.inj hi
      exact Or.inl ⟨_, rfl, .test_block (ready_false.mpr ⟨by simpa using hv, hx⟩)⟩
  | test_block hr =>
    simp only [statements.inner] at hi
    split at hi
    · rename_i hb
      obtain ⟨rfl, rfl⟩ := Prod.mk.inj hi
      exact Or.inr ⟨_, rfl, .joined hr hb⟩
    · rename_i hb
      obtain ⟨rfl, rfl⟩ := Prod.mk.inj hi
      exact Or.inl ⟨_, rfl, .make_block hr (by simpa using hb)⟩
  | make_block hr hb =>
    obtain ⟨rfl, rfl⟩ := Prod.mk.inj hi
    exact Or.inl ⟨_, rfl, .push_signal hr hb⟩
  | push_signal hr hb =>
    obtain ⟨rfl, rfl⟩ := Prod.mk.inj hi
    exact Or.inr ⟨_, rfl, .blocked hr hb⟩

theorem mid_test (s : Shared ν χ) (op : Op ν χ) : Mid s op (.test op) s := .test

/-- Any number of statements inside of the lock. -/
theorem Mid.walk {s x y : Shared ν χ} {op : Op ν χ} {i : Inner ν χ} {k : Frames ν χ}
    {ls : List (Choice ν χ)} {p : (Inner ν χ × Frames ν χ) ⊕ Frames ν χ} (h : Mid s op i x)
    (hw : sections.walk (code ν χ) (i, k) x ls = (y, p)) :
    (∃ j, p = .inl (j, k) ∧ Mid s op j y) ∨ (∃ k', p = .inr k' ∧ Ends s k op y k') := by
  induction ls generalizing i x with
  | nil =>
    obtain ⟨rfl, rfl⟩ := Prod.mk.inj hw
    exact Or.inl ⟨i, rfl, h⟩
  | cons l ls ih =>
    unfold sections.walk at hw
    split at hw
    · rename_i z j hi
      obtain ⟨j', hj, hm⟩ | ⟨k', hk, -⟩ := h.inner hi
      · obtain rfl := Sum.inl.inj hj
        exact ih hm hw
      · cases hk
    · rename_i z k' hi
      obtain ⟨rfl, rfl⟩ := Prod.mk.inj hw
      exact h.inner hi

/-! ## What a thread without the lock relies on -/

/-- What has become true of a state stays true: its outcome, and that it has a block. -/
structure Grows (s x : Shared ν χ) : Prop where
  value_ : s.ready = true → x.value_ = s.value_
  exception_ : s.ready = true → x.exception_ = s.exception_
  block_ : s.block_ = true → x.block_ = true

theorem Grows.refl (s : Shared ν χ) : Grows s s := ⟨fun _ => rfl, fun _ => rfl, id⟩

theorem Grows.ready {s x : Shared ν χ} (h : Grows s x) (hr : s.ready = true) : x.ready = true := by
  unfold Shared.ready
  rw [h.value_ hr, h.exception_ hr]
  exact hr

/-- A change of a state that is not ready. -/
theorem Grows.of_unready {s x : Shared ν χ} (h : s.ready = false)
    (hb : s.block_ = true → x.block_ = true) : Grows s x := by
  refine ⟨?_, ?_, hb⟩ <;> simp [h]

theorem Mid.grows {s x : Shared ν χ} {op : Op ν χ} {i : Inner ν χ} (h : Mid s op i x) :
    Grows s x := by
  cases h with
  | swap_value h => exact .of_unready h id
  | swap_exception h => exact .of_unready h id
  | push_signal h _ => exact .of_unready h fun _ => rfl
  | _ => exact .refl s

theorem Ends.grows {s x : Shared ν χ} {op : Op ν χ} {k k' : Frames ν χ} (h : Ends s k op x k') :
    Grows s x := by
  cases h with
  | stored h => exact .of_unready h id
  | failed h => exact .of_unready h id
  | pushed h => exact .of_unready h id
  | blocked h _ => exact .of_unready h fun _ => rfl
  | _ => exact .refl s

/-- What each kind of code without the lock relies on. -/
def FrameOk (s : Shared ν χ) : Frame ν χ → Prop
  | .client _ => True
  | .loop cs => s.ready = true ∧ (.signal ∈ cs → s.block_ = true)
  | .run f => s.ready = true ∧ (f = .signal → s.block_ = true)
  | .deref _ | .waiting _ => s.block_ = true
  | .test_exception => s.ready = true
  | .read_value => s.ready = true ∧ s.exception_ = none
  | .null_read => False

theorem FrameOk.grows {s x : Shared ν χ} {f : Frame ν χ} (h : FrameOk s f) (hg : Grows s x) :
    FrameOk x f := by
  cases f with
  | client r => trivial
  | loop cs => exact ⟨hg.ready h.1, fun hm => hg.block_ (h.2 hm)⟩
  | run f => exact ⟨hg.ready h.1, fun hf => hg.block_ (h.2 hf)⟩
  | deref g => exact hg.block_ h
  | waiting g => exact hg.block_ h
  | test_exception => exact hg.ready h
  | read_value => exact ⟨hg.ready h.1, (hg.exception_ h.1).trans h.2⟩
  | null_read => exact h

theorem cons_ok {s : Shared ν χ} {f : Frame ν χ} {k : Frames ν χ} (h : FrameOk s f)
    (hk : ∀ g ∈ k, FrameOk s g) : ∀ g ∈ f :: k, FrameOk s g :=
  List.forall_mem_cons.mpr ⟨h, hk⟩

theorem waited_ok {s : Shared ν χ} {g : Bool} {k : Frames ν χ} (hr : s.ready = true)
    (hk : ∀ f ∈ k, FrameOk s f) : ∀ f ∈ waited g k, FrameOk s f := by
  cases g
  · exact hk
  · exact cons_ok hr hk

/-- A value is there when its read comes. -/
theorem FrameOk.value_ {s : Shared ν χ} (h : FrameOk s .read_value) : ∃ v, s.value_ = some v := by
  obtain ⟨hr, hx⟩ := h
  apply Option.isSome_iff_exists.mp
  simpa [Shared.ready, hx] using hr

theorem mem_raise {k : Frames ν χ} {f : Frame ν χ} (h : f ∈ raise k) : f ∈ k := by
  induction k with
  | nil => exact h
  | cons g k ih =>
    cases g with
    | client r => exact h
    | _ => exact List.mem_cons_of_mem _ (ih h)

theorem deliver_ok {s : Shared ν χ} {r : Except χ ν} {k : Frames ν χ}
    (hk : ∀ f ∈ k, FrameOk s f) : ∀ f ∈ deliver r k, FrameOk s f := by
  unfold deliver
  split
  · rename_i k
    exact cons_ok trivial fun g hg => hk g (List.mem_cons_of_mem _ hg)
  · exact hk

/-- A locked part leaves code that may rely on what it left. -/
theorem Ends.ok {s x : Shared ν χ} {op : Op ν χ} {k k' : Frames ν χ} (h : Ends s k op x k')
    (hnull : NonNull (.call op)) (hsig : .signal ∈ s.continuations_ → s.block_ = true)
    (hk : ∀ f ∈ k, FrameOk s f) :
    (∀ f ∈ k', FrameOk x f) ∧ (.signal ∈ x.continuations_ → x.block_ = true) := by
  have hk' : ∀ f ∈ k, FrameOk x f := fun f hf => (hk f hf).grows h.grows
  cases h with
  | refused _ => exact ⟨hk', hsig⟩
  | built _ _ => exact ⟨hk', hsig⟩
  | stored _ =>
    refine ⟨?_, by simp⟩
    exact cons_ok ⟨by simp [Shared.ready], hsig⟩ hk'
  | already _ => exact ⟨hk', hsig⟩
  | @failed p _ =>
    have hp : p.isSome = true := by
      cases p with
      | none => exact absurd rfl hnull
      | some z => rfl
    refine ⟨?_, by simp⟩
    exact cons_ok ⟨by simp [Shared.ready, hp], hsig⟩ hk'
  | run hr =>
    refine ⟨?_, hsig⟩
    apply cons_ok _ hk'
    simp [FrameOk, hr]
  | pushed _ =>
    refine ⟨hk', ?_⟩
    simpa using hsig
  | no_wait hr => exact ⟨waited_ok hr hk, hsig⟩
  | joined _ hb => exact ⟨cons_ok hb hk', hsig⟩
  | blocked _ _ => exact ⟨cons_ok rfl hk', fun _ => rfl⟩
  | looked => exact ⟨hk', hsig⟩

/-- What holds of where a thread is: it is about to make a call, or without the lock. -/
def PlaceOk (s : Shared ν χ) (p : (Inner ν χ × Frames ν χ) ⊕ Frames ν χ) : Prop :=
  match p with
  | .inl (i, k) => (∃ op, i = .test op ∧ NonNull (.call op)) ∧ (∃ r k', k = .client r :: k') ∧
    ∀ f ∈ k, FrameOk s f
  | .inr k => ∀ f ∈ k, FrameOk s f

theorem PlaceOk.grows {s x : Shared ν χ} {p : (Inner ν χ × Frames ν χ) ⊕ Frames ν χ}
    (h : PlaceOk s p) (hg : Grows s x) : PlaceOk x p := by
  cases p with
  | inl i => exact ⟨h.1, h.2.1, fun f hf => (h.2.2 f hf).grows hg⟩
  | inr k => exact fun f hf => (h f hf).grows hg

/-- The block is signalled only once the state is ready. -/
def SignalOk (s : Shared ν χ) (y : Bool) : Prop := y = true → s.ready = true ∧ s.block_ = true

/-- A statement without the lock leaves code that may rely on the same state. -/
theorem outer_ok {s : Shared ν χ} {y y' : Bool} {k : Frames ν χ} {l : Choice ν χ}
    {p : (Inner ν χ × Frames ν χ) ⊕ Frames ν χ} (h : outer k s y l = some (y', p))
    (hl : NonNull l) (hk : ∀ f ∈ k, FrameOk s f) (hy : SignalOk s y) :
    PlaceOk s p ∧ SignalOk s y' := by
  cases k with
  | nil => cases h
  | cons f k =>
    have hf : FrameOk s f := hk f (by simp)
    have hrest : ∀ g ∈ k, FrameOk s g := fun g hg => hk g (List.mem_cons_of_mem _ hg)
    cases f with
    | client r =>
      cases l with
      | go => cases k <;> cases h
      | call op =>
        have hop : NonNull (.call op) := hl
        cases k <;> cases h <;> exact ⟨⟨⟨op, rfl, hop⟩, ⟨r, _, rfl⟩, hk⟩, hy⟩
      | ret =>
        cases k with
        | nil => cases h
        | cons g k =>
          cases h
          exact ⟨hrest, hy⟩
      | throw_ x =>
        cases k with
        | nil => cases h
        | cons g k =>
          cases h
          exact ⟨fun f hf => hrest f (mem_raise hf), hy⟩
    | loop cs =>
      cases cs with
      | nil =>
        cases h
        exact ⟨hrest, hy⟩
      | cons c cs =>
        cases h
        refine ⟨?_, hy⟩
        obtain ⟨hr, hb⟩ := hf
        have hc : c = .signal → s.block_ = true := fun hc => hb (by simp [hc])
        have hcs : .signal ∈ cs → s.block_ = true := fun hm => hb (List.mem_cons_of_mem _ hm)
        exact cons_ok ⟨hr, hc⟩ (cons_ok ⟨hr, hcs⟩ hrest)
    | run c =>
      cases c with
      | signal =>
        cases h
        exact ⟨hrest, fun _ => ⟨hf.1, hf.2 rfl⟩⟩
      | func c =>
        cases h
        exact ⟨waited_ok hf.1 (cons_ok trivial hrest), hy⟩
    | deref g =>
      have hb : s.block_ = true := hf
      simp only [outer, hb, if_true] at h
      cases h
      exact ⟨cons_ok hb hrest, hy⟩
    | waiting g =>
      simp only [outer] at h
      split at h
      · rename_i hyt
        cases h
        exact ⟨waited_ok (hy hyt).1 hrest, hy⟩
      · cases h
    | test_exception =>
      simp only [outer] at h
      split at h
      · cases h
        exact ⟨deliver_ok hrest, hy⟩
      · rename_i hx
        cases h
        exact ⟨cons_ok ⟨hf, hx⟩ hrest, hy⟩
    | read_value =>
      obtain ⟨v, hv⟩ := hf.value_
      simp only [outer, hv] at h
      cases h
      exact ⟨deliver_ok hrest, hy⟩
    | null_read => cases h

abbrev Atomic (ν χ : Type) :=
  sections.Atomic (Shared ν χ) Bool (Inner ν χ × Frames ν χ) (Frames ν χ)

/-- The invariant of the threads, with each locked part as one step. -/
structure Ok (a : Atomic ν χ) : Prop where
  signalled : SignalOk a.shared a.other
  stored : .signal ∈ a.shared.continuations_ → a.shared.block_ = true
  place : ∀ t, PlaceOk a.shared (a.place t)

theorem init_ok : Ok (sections.Atomic.start ({} : Shared ν χ) false fun _ => [.client none]) := by
  refine ⟨by simp [SignalOk, sections.Atomic.start], by simp [sections.Atomic.start], ?_⟩
  intro t f hf
  obtain rfl : f = .client none := by simpa using hf
  trivial

/-- A locked part that has ended. -/
theorem Ok.ends {a : Atomic ν χ} (h : Ok a) {t : Nat} {i : Inner ν χ × Frames ν χ}
    {ls : List (Choice ν χ)} {x : Shared ν χ} {k' : Frames ν χ} (hp : a.place t = .inl i)
    (hw : sections.walk (code ν χ) i a.shared ls = (x, .inr k')) :
    ∃ op, i.1 = .test op ∧ NonNull (.call op) ∧ Ends a.shared i.2 op x k' := by
  obtain ⟨i, k⟩ := i
  have hi : PlaceOk a.shared (.inl (i, k)) := hp ▸ h.place t
  obtain ⟨⟨op, rfl, hop⟩, -⟩ := hi
  obtain ⟨j, hj, -⟩ | ⟨k₁, hk, he⟩ := (mid_test _ op).walk hw
  · cases hj
  · obtain rfl := Sum.inr.inj hk
    exact ⟨op, rfl, hop, he⟩

theorem Ok.step {a a' : Atomic ν χ} {e : sections.AtomicEvent (Choice ν χ)} (h : Ok a)
    (hok : sections.AtomicAllowed NonNull a e)
    (hs : sections.atomicStep (code ν χ) a e = some a') : Ok a' := by
  cases e with
  | outer t l =>
    simp only [sections.atomicStep] at hs
    split at hs
    · rename_i k hp
      obtain ⟨⟨y, p⟩, ho, rfl⟩ := Option.map_eq_some_iff.mp hs
      have hk : PlaceOk a.shared (.inr k) := hp ▸ h.place t
      obtain ⟨hpl, hy⟩ := outer_ok ho hok hk h.signalled
      refine ⟨hy, h.stored, ?_⟩
      intro u
      by_cases hut : u = t
      · subst hut
        simpa using hpl
      · simpa [Function.update_of_ne hut] using h.place u
    · cases hs
  | whole t ls =>
    simp only [sections.atomicStep] at hs
    split at hs
    · rename_i i hp
      split at hs
      · rename_i x k' hw
        cases hs
        obtain ⟨op, hi, hop, he⟩ := h.ends hp hw
        have hk : PlaceOk a.shared (.inl i) := hp ▸ h.place t
        obtain ⟨hk', hsig⟩ := he.ok hop h.stored hk.2.2
        have hout : PlaceOk x (.inr k') := hk'
        refine ⟨?_, hsig, ?_⟩
        · intro hy
          obtain ⟨hr, hb⟩ := h.signalled hy
          exact ⟨he.grows.ready hr, he.grows.block_ hb⟩
        · intro u
          by_cases hut : u = t
          · subst hut
            simpa using hout
          · simpa [Function.update_of_ne hut] using (h.place u).grows he.grows
      · cases hs
    · cases hs

theorem reach_ok {a : Atomic ν χ} (hr : Reach (sections.atomicStep (code ν χ))
    (sections.AtomicAllowed NonNull) (.start {} false fun _ => [.client none]) a) : Ok a :=
  hr.invariant init_ok fun _ _ _ h hok hs => h.step hok hs

/-! ## No two accesses race -/

/-- What a call leaves of a state on the way, too, is seen by nobody without the lock. -/
theorem outer_same {s x : Shared ν χ} {y : Bool} {k : Frames ν χ} {l : Choice ν χ}
    (hk : ∀ f ∈ k, FrameOk s f) (hg : Grows s x) : outer k x y l = outer k s y l := by
  cases k with
  | nil => rfl
  | cons f k =>
    have hf : FrameOk s f := hk f (by simp)
    cases f with
    | deref g =>
      have hb : s.block_ = true := hf
      simp [outer, hb, hg.block_ hb]
    | test_exception => simp [outer, hg.exception_ hf]
    | read_value => simp [outer, hg.value_ hf.1]
    | loop cs => cases cs <;> rfl
    | run c => cases c <;> rfl
    | client r => rfl
    | waiting g => rfl
    | null_read => rfl

theorem Ok.walk_grows {a : Atomic ν χ} (h : Ok a) {t : Nat} {i : Inner ν χ × Frames ν χ}
    {ls : List (Choice ν χ)} {x : Shared ν χ} {p : (Inner ν χ × Frames ν χ) ⊕ Frames ν χ}
    (hp : a.place t = .inl i) (hw : sections.walk (code ν χ) i a.shared ls = (x, p)) :
    Grows a.shared x := by
  obtain ⟨i, k⟩ := i
  have hi : PlaceOk a.shared (.inl (i, k)) := hp ▸ h.place t
  obtain ⟨⟨op, rfl, -⟩, -⟩ := hi
  obtain ⟨j, -, hm⟩ | ⟨k', -, he⟩ := (mid_test _ op).walk hw
  · exact hm.grows
  · exact he.grows

theorem Ok.undisturbed {a : Atomic ν χ} (h : Ok a) :
    sections.Undisturbed (code ν χ) NonNull a := by
  intro t i ls x p hp _ hw u k l hu _
  have hk : PlaceOk a.shared (.inr k) := hu ▸ h.place u
  exact outer_same hk (h.walk_grows hp hw)

/-- Each run, statement by statement, is answered by one whose locked parts are one step each. -/
theorem reach_atomic {s : State ν χ} (hr : Reach step (sections.Allowed NonNull) (init ν χ) s) :
    ∃ a, Reach (sections.atomicStep (code ν χ)) (sections.AtomicAllowed NonNull)
      (.start {} false fun _ => [.client none]) a ∧ sections.Answers (code ν χ) NonNull s a :=
  sections.reduce (fun _ ha => (reach_ok ha).undisturbed) hr

/-- A write inside of the lock is of a field that no code without the lock is about to read. -/
theorem Mid.apart {s x : Shared ν χ} {op : Op ν χ} {i : Inner ν χ} {f : Frame ν χ} {fld : Field}
    (h : Mid s op i x) (hf : FrameOk s f) (hw : fld ∈ i.writes) : fld ∉ f.reads := by
  intro hr
  cases h with
  | store_value h =>
    obtain rfl : fld = .value_ := by simpa [Inner.writes] using hw
    cases f with
    | read_value => simp [FrameOk, h] at hf
    | _ => simp [Frame.reads] at hr
  | store_exception h =>
    obtain rfl : fld = .exception_ := by simpa [Inner.writes] using hw
    cases f with
    | test_exception => simp [FrameOk, h] at hf
    | _ => simp [Frame.reads] at hr
  | make_block h hb =>
    obtain rfl : fld = .block_ := by simpa [Inner.writes] using hw
    cases f with
    | deref g => simp [FrameOk, hb] at hf
    | _ => simp [Frame.reads] at hr
  | swap_value h =>
    obtain rfl : fld = .continuations_ := by simpa [Inner.writes] using hw
    cases f <;> simp [Frame.reads] at hr
  | swap_exception h =>
    obtain rfl : fld = .continuations_ := by simpa [Inner.writes] using hw
    cases f <;> simp [Frame.reads] at hr
  | push h =>
    obtain rfl : fld = .continuations_ := by simpa [Inner.writes] using hw
    cases f <;> simp [Frame.reads] at hr
  | push_signal h hb =>
    obtain rfl : fld = .continuations_ := by simpa [Inner.writes] using hw
    cases f <;> simp [Frame.reads] at hr
  | _ => simp [Inner.writes] at hw

/-- Where a thread inside of the lock is. -/
theorem Ok.inside {a : Atomic ν χ} {s : State ν χ} (h : Ok a)
    (hs : sections.Answers (code ν χ) NonNull s a) {t : Nat} {i : Inner ν χ × Frames ν χ}
    (hp : s.place t = .inside i) : ∃ op, Mid a.shared op i.1 s.shared := by
  obtain ⟨⟨j, k⟩, ls, hat, -, hw⟩ := hs.walked (p := .inl i) hp
  have hj : PlaceOk a.shared (.inl (j, k)) := hat ▸ h.place t
  obtain ⟨⟨op, rfl, -⟩, -⟩ := hj
  obtain ⟨i', hi, hm⟩ | ⟨k', hk, -⟩ := (mid_test _ op).walk hw
  · obtain rfl := Sum.inl.inj hi
    exact ⟨op, hm⟩
  · cases hk

/-- What a thread without the lock relies on holds of what was found at the lock. -/
theorem Ok.out {a : Atomic ν χ} {s : State ν χ} (h : Ok a)
    (hs : sections.Answers (code ν χ) NonNull s a) {t : Nat} {k : Frames ν χ}
    (hp : s.place t = .out k) : ∀ f ∈ k, FrameOk a.shared f := by
  have hat : a.place t = .inr k := (hs.away (p := .inr k) hp).1
  have hok : PlaceOk a.shared (.inr k) := hat ▸ h.place t
  exact hok

/-- As long as no exception is null, no two threads race for a field of the state, although `get`
and `block_->wait()` read with no lock, and nobody reads a value or a block that is not there. -/
theorem no_two_threads_race (s : State ν χ)
    (hr : Reach step (sections.Allowed NonNull) (init ν χ) s) : ¬ Racy s ∧ ¬ ReadsNull s := by
  obtain ⟨a, ha, hs⟩ := reach_atomic hr
  have hok := reach_ok ha
  constructor
  · rintro ⟨t, u, fld, htu, hw, hrw⟩
    cases hp : s.place t with
    | inside i =>
      obtain ⟨op, hm⟩ := hok.inside hs hp
      have hfld : fld ∈ i.1.writes := by simpa [writes, hp] using hw
      cases hpu : s.place u with
      | inside j => exact htu (hs.alone (p := .inl i) (q := .inl j) hp hpu)
      | out k =>
        cases k with
        | nil => simp [reads, writes, hpu] at hrw
        | cons f k =>
          have hfr : fld ∈ f.reads := by simpa [reads, writes, hpu] using hrw
          exact hm.apart (hok.out hs hpu f (by simp)) hfld hfr
      | lock j => simp [reads, writes, hpu] at hrw
      | unlock k => simp [reads, writes, hpu] at hrw
    | out k => simp [writes, hp] at hw
    | lock i => simp [writes, hp] at hw
    | unlock k => simp [writes, hp] at hw
  · rintro ⟨t, k, hp, hk⟩
    exact hok.out hs hp _ hk

/-- Thread 0 calls `get`, waits on a new block, and thread 1 calls the setter `op` and signals. -/
def getAndSet (op : Op ν χ) (sets : List (sections.Event (Choice ν χ))) :
    List (sections.Event (Choice ν χ)) :=
  [.outer 0 (.call (.wait true)), .lock 0, .inner 0 .go, .inner 0 .go, .inner 0 .go, .inner 0 .go,
    .inner 0 .go, .unlock 0, .outer 0 .go, .outer 1 (.call op), .lock 1] ++ sets ++
  [.unlock 1, .outer 1 .go, .outer 1 .go, .outer 0 .go]

/-- A `get` that reads the exception while thread 2 looks at the state. -/
theorem no_two_threads_race_here : ∃ s : State Nat Nat,
    Reach step (sections.Allowed NonNull) (init Nat Nat) s ∧
    s.place 0 = .out [.test_exception, .client none] ∧
    s.place 2 = .inside (.test .look, [.client none]) ∧
    ¬ Racy s ∧ ¬ ReadsNull s := by
  have hrun : ∃ s, run step (init Nat Nat) (getAndSet (.set_exception (some 5))
      [.inner 1 .go, .inner 1 .go, .inner 1 .go] ++ [.outer 2 (.call .look), .lock 2]) = some s ∧
      s.place 0 = .out [.test_exception, .client none] ∧
      s.place 2 = .inside (.test .look, [.client none]) := ⟨_, rfl, rfl, rfl⟩
  obtain ⟨s, hs, h0, h2⟩ := hrun
  have hr : Reach step (sections.Allowed NonNull) (init Nat Nat) s := by
    apply reach_of_run _ _ _ _ hs
    simp [getAndSet, sections.Allowed, NonNull]
  exact ⟨s, hr, h0, h2, no_two_threads_race s hr⟩

/-- With a null exception, `get` reads the value while another setter writes it. -/
example : ∃ s : State Nat Nat, Reach step anyEvent (init Nat Nat) s ∧ Racy s := by
  have hrun : ∃ s, run step (init Nat Nat) (getAndSet (.set_exception none)
      [.inner 1 .go, .inner 1 .go, .inner 1 .go] ++
      [.outer 0 .go, .outer 1 .go, .outer 1 (.call (.set_value 7 true)), .lock 1, .inner 1 .go,
        .inner 1 .go]) = some s ∧
      s.place 0 = .out [.read_value, .client none] ∧
      s.place 1 = .inside (.store_value 7, [.client none]) := ⟨_, rfl, rfl, rfl⟩
  obtain ⟨s, hs, h0, h1⟩ := hrun
  refine ⟨s, reach_anyEvent hs, 1, 0, .value_, by decide, ?_, ?_⟩
  · simp [h1, writes, Inner.writes]
  · simp [h0, reads, Frame.reads]

/-! ## Locked parts as the functions of `Ltl.FutureState` -/

/-- What a thread has to do, as the threads of `Ltl.Futures` have it. -/
inductive Call (ν χ : Type) where
  | user (got : Option (Except χ ν))
  | drain (cs : List Cont)
  | exec (f : Cont)
  | waiting (isGet : Bool)
  | reading

/-- A state of `Ltl.FutureState`, and threads that use it. -/
structure Parts (ν χ : Type) where
  state : FutureState Cont ν χ Unit := {}
  calls : Nat → List (Call ν χ)

inductive PartEvent (ν χ : Type) where
  /-- Code of others makes a call. `built` is what the constructor of the stored value throws. -/
  | call (t : Nat) (op : Op ν χ) (built : Option χ)
  | ret (t : Nat)
  | throw_ (t : Nat)
  | tick (t : Nat)

/-- A setter of `Ltl.FutureState`, called from `k`. -/
def afterSet (r : Locked Cont χ × FutureState Cont ν χ Unit) (k : List (Call ν χ)) :
    FutureState Cont ν χ Unit × List (Call ν χ) :=
  match r.1 with
  | .stored cs => (r.2, .drain cs :: k)
  | _ => (r.2, k)

/-- A call on `s` from `k`, up to its unlock. -/
def locked (op : Op ν χ) (built : Option χ) (s : FutureState Cont ν χ Unit)
    (k : List (Call ν χ)) : FutureState Cont ν χ Unit × List (Call ν χ) :=
  match op with
  | .set_value v allow => afterSet (set_value_impl s (built.elim (.ok v) .error) allow) k
  | .set_exception p => afterSet (set_exception s p) k
  | .add_continuation f =>
    match add_continuation s (.func f) with
    | some s' => (s', k)
    | none => (s, .exec (.func f) :: k)
  | .wait g =>
    match wait s .signal with
    | some s' => (s', .waiting g :: k)
    | none => (s, if g then .reading :: k else k)
  | .look => (s, k)

def raiseCall : List (Call ν χ) → List (Call ν χ)
  | [] => []
  | .user r :: k => .user r :: k
  | _ :: k => raiseCall k

def deliverCall (r : Except χ ν) : List (Call ν χ) → List (Call ν χ)
  | .user _ :: k => .user (some r) :: k
  | k => k

namespace Parts

def put (c : Parts ν χ) (t : Nat) (k : List (Call ν χ)) : Parts ν χ :=
  { c with calls := Function.update c.calls t k }

end Parts

/-- The code of thread `t` goes on by itself. -/
def tick (c : Parts ν χ) (t : Nat) : Option (Parts ν χ) :=
  match c.calls t with
  | .drain [] :: k => some (c.put t k)
  | .drain (f :: cs) :: k => some (c.put t (.exec f :: .drain cs :: k))
  | .exec .signal :: k => some ({ c with state := signal c.state }.put t k)
  | .exec (.func f) :: k =>
    some (c.put t (if f.get_first then .reading :: .user none :: k else .user none :: k))
  | .waiting g :: k =>
    if c.state.block_ = some true then some (c.put t (if g then .reading :: k else k)) else none
  | .reading :: k => (future_state.get c.state).map fun r => c.put t (deliverCall r k)
  | _ => none

def partStep (c : Parts ν χ) : PartEvent ν χ → Option (Parts ν χ)
  | .call t op built =>
    match c.calls t with
    | .user r :: k =>
      let p := locked op built c.state (.user r :: k)
      some ({ c with state := p.1 }.put t p.2)
    | _ => none
  | .ret t =>
    match c.calls t with
    | .user _ :: f :: k => some (c.put t (f :: k))
    | _ => none
  | .throw_ t =>
    match c.calls t with
    | .user _ :: f :: k => some (c.put t (raiseCall (f :: k)))
    | _ => none
  | .tick t => tick c t

def initParts (ν χ : Type) : Parts ν χ := { calls := fun _ => [.user none] }

/-- The state of `Ltl.FutureState` for what the two mutexes protect. -/
def view (s : Shared ν χ) (y : Bool) : FutureState Cont ν χ Unit where
  value_ := s.value_
  continuations_ := s.continuations_
  block_ := if s.block_ then some y else none
  exception_ := s.exception_

/-- The call that a statement belongs to. -/
def Frame.call : Frame ν χ → Call ν χ
  | .client r => .user r
  | .loop cs => .drain cs
  | .run f => .exec f
  | .deref g | .waiting g => .waiting g
  | .test_exception | .read_value | .null_read => .reading

/-- Where a thread is: before its next call, or at `k`. -/
def callsAt : (Inner ν χ × Frames ν χ) ⊕ Frames ν χ → List (Call ν χ)
  | .inl i => i.2.map Frame.call
  | .inr k => k.map Frame.call

@[simp] theorem ready_view (s : Shared ν χ) (y : Bool) : future_state.ready (view s y) = s.ready :=
  rfl

@[simp] theorem map_waited (g : Bool) (k : Frames ν χ) :
    (waited g k).map Frame.call =
      if g then .reading :: k.map Frame.call else k.map Frame.call := by
  cases g <;> rfl

@[simp] theorem map_raise (k : Frames ν χ) :
    (raise k).map Frame.call = raiseCall (k.map Frame.call) := by
  induction k with
  | nil => rfl
  | cons f k ih => cases f <;> simp [raise, raiseCall, Frame.call, ih]

@[simp] theorem map_deliver (r : Except χ ν) (k : Frames ν χ) :
    (deliver r k).map Frame.call = deliverCall r (k.map Frame.call) := by
  cases k with
  | nil => rfl
  | cons f k => cases f <;> rfl

/-- A call, statement by statement, does what its function in `Ltl.FutureState` says. -/
theorem Ends.locked {s x : Shared ν χ} {y : Bool} {op : Op ν χ} {k k' : Frames ν χ}
    (h : Ends s k op x k') (hy : SignalOk s y) :
    ∃ built, statements.locked op built (view s y) (k.map Frame.call) =
      (view x y, k'.map Frame.call) := by
  cases h with
  | @refused v a hr =>
    refine ⟨none, ?_⟩
    cases a <;> simp [statements.locked, afterSet, set_value_impl, hr]
  | built z hr =>
    refine ⟨some z, ?_⟩
    simp [statements.locked, afterSet, set_value_impl, hr]
  | stored hr =>
    refine ⟨none, ?_⟩
    simp [statements.locked, afterSet, set_value_impl, hr, Frame.call]
    exact ⟨rfl, rfl⟩
  | already hr =>
    refine ⟨none, ?_⟩
    simp [statements.locked, afterSet, set_exception, hr]
  | failed hr =>
    refine ⟨none, ?_⟩
    simp [statements.locked, afterSet, set_exception, hr, Frame.call]
    exact ⟨rfl, rfl⟩
  | run hr =>
    refine ⟨none, ?_⟩
    simp [statements.locked, add_continuation, hr, Frame.call]
  | pushed hr =>
    refine ⟨none, ?_⟩
    simp [statements.locked, add_continuation, hr]
    rfl
  | @no_wait g hr =>
    refine ⟨none, ?_⟩
    simp [statements.locked, future_state.wait, hr]
  | joined hr hb =>
    have hv : (view s y).block_ = some y := by simp [view, hb]
    refine ⟨none, ?_⟩
    simp [statements.locked, future_state.wait, hr, hv, Frame.call]
  | blocked hr hb =>
    have hyb : y = true → s.block_ = true := fun h => (hy h).2
    have hyf : y = false := by
      cases y with
      | false => rfl
      | true => simp [hb] at hyb
    have hv : (view s y).block_ = none := by simp [view, hb]
    refine ⟨none, ?_⟩
    simp [statements.locked, future_state.wait, hr, hv, Frame.call]
    subst hyf
    rfl
  | looked => exact ⟨none, rfl⟩

/-- The two machines are at the same point. -/
structure Same (a : Atomic ν χ) (c : Parts ν χ) : Prop where
  state : c.state = view a.shared a.other
  calls : ∀ t, c.calls t = callsAt (a.place t)

/-- A statement without the lock is a step of the calls, or the second part of one still to come. -/
theorem outer_part {s : Shared ν χ} {y y' : Bool} {k : Frames ν χ} {l : Choice ν χ}
    {p : (Inner ν χ × Frames ν χ) ⊕ Frames ν χ} {c : Parts ν χ} {t : Nat}
    (h : outer k s y l = some (y', p)) (hk : ∀ f ∈ k, FrameOk s f) (hy : SignalOk s y)
    (hs : c.state = view s y) (hc : c.calls t = k.map Frame.call) :
    (y' = y ∧ callsAt p = k.map Frame.call) ∨
    ∃ e, partStep c e = some ({ c with state := view s y' }.put t (callsAt p)) := by
  cases k with
  | nil => cases h
  | cons f k =>
    have hf : FrameOk s f := hk f (by simp)
    rw [List.map_cons] at hc
    cases f with
    | client r =>
      cases l with
      | go => cases k <;> cases h
      | call op => cases k <;> cases h <;> exact Or.inl ⟨rfl, rfl⟩
      | ret =>
        cases k with
        | nil => cases h
        | cons g k =>
          cases h
          refine Or.inr ⟨.ret t, ?_⟩
          simp [partStep, hc, Frame.call, callsAt, ← hs]
      | throw_ x =>
        cases k with
        | nil => cases h
        | cons g k =>
          cases h
          refine Or.inr ⟨.throw_ t, ?_⟩
          simp [partStep, hc, Frame.call, callsAt, ← hs]
    | loop cs =>
      refine Or.inr ⟨.tick t, ?_⟩
      cases cs <;> cases h <;> simp [partStep, tick, hc, Frame.call, callsAt, ← hs]
    | run f =>
      refine Or.inr ⟨.tick t, ?_⟩
      cases f with
      | signal =>
        cases h
        have hb : s.block_ = true := hf.2 rfl
        simp [partStep, tick, hc, Frame.call, callsAt, hs, signal, view, hb]
      | func f =>
        cases h
        simp [partStep, tick, hc, Frame.call, callsAt, ← hs]
    | deref g =>
      have hb : s.block_ = true := hf
      simp only [outer, hb, if_true] at h
      cases h
      exact Or.inl ⟨rfl, rfl⟩
    | waiting g =>
      simp only [outer] at h
      split at h
      · rename_i hyt
        cases h
        have hb : c.state.block_ = some true := by simp [hs, view, hyt, (hy hyt).2]
        refine Or.inr ⟨.tick t, ?_⟩
        simp [partStep, tick, hc, Frame.call, callsAt, hb, ← hs]
      · cases h
    | test_exception =>
      simp only [outer] at h
      split at h
      · rename_i x hx
        cases h
        have hg : future_state.get c.state = some (.error x) := by
          simp [hs, future_state.get, view, hx]
        refine Or.inr ⟨.tick t, ?_⟩
        simp [partStep, tick, hc, Frame.call, callsAt, hg, ← hs]
      · cases h
        exact Or.inl ⟨rfl, rfl⟩
    | read_value =>
      obtain ⟨v, hv⟩ := hf.value_
      have hg : future_state.get c.state = some (.ok v) := by
        simp [hs, future_state.get, view, hv, hf.2]
      simp only [outer, hv] at h
      cases h
      refine Or.inr ⟨.tick t, ?_⟩
      simp [partStep, tick, hc, Frame.call, callsAt, hg, ← hs]
    | null_read => cases h

/-- The calls are at the same point after thread `t` has moved to `p`. -/
theorem Same.move {a : Atomic ν χ} {c : Parts ν χ} (h : Same a c) (t : Nat) (s : Shared ν χ)
    (y : Bool) (p : (Inner ν χ × Frames ν χ) ⊕ Frames ν χ) :
    Same ⟨s, y, Function.update a.place t p⟩ ({ c with state := view s y }.put t (callsAt p)) := by
  refine ⟨rfl, ?_⟩
  intro u
  by_cases hut : u = t
  · subst hut
    simp [Parts.put]
  · simpa [Parts.put, Function.update_of_ne hut] using h.calls u

theorem Same.step {a a' : Atomic ν χ} {c : Parts ν χ} {e : sections.AtomicEvent (Choice ν χ)}
    (h : Same a c) (hok : Ok a) (hs : sections.atomicStep (code ν χ) a e = some a') :
    ∃ c', Reach partStep anyEvent c c' ∧ Same a' c' := by
  cases e with
  | outer t l =>
    simp only [sections.atomicStep] at hs
    split at hs
    · rename_i k hp
      obtain ⟨⟨y, p⟩, ho, rfl⟩ := Option.map_eq_some_iff.mp hs
      have hk : PlaceOk a.shared (.inr k) := hp ▸ hok.place t
      have hc : c.calls t = k.map Frame.call := by rw [h.calls t, hp, callsAt]
      obtain ⟨hy, hcalls⟩ | ⟨e, he⟩ := outer_part ho hk hok.signalled h.state hc
      · subst hy
        refine ⟨c, Reach.start c, h.state, ?_⟩
        intro u
        by_cases hut : u = t
        · subst hut
          simpa [hcalls] using hc
        · simpa [Function.update_of_ne hut] using h.calls u
      · exact ⟨_, (Reach.start c).next (e := e) trivial he, h.move t a.shared y p⟩
    · cases hs
  | whole t ls =>
    simp only [sections.atomicStep] at hs
    split at hs
    · rename_i i hp
      split at hs
      · rename_i x k' hw
        cases hs
        obtain ⟨op, -, -, he⟩ := hok.ends hp hw
        obtain ⟨i, k⟩ := i
        have hk : PlaceOk a.shared (.inl (i, k)) := hp ▸ hok.place t
        obtain ⟨r, k₀, rfl⟩ := hk.2.1
        obtain ⟨built, hb⟩ := he.locked hok.signalled
        have hc : c.calls t = .user r :: k₀.map Frame.call := by rw [h.calls t, hp]; rfl
        have hstep : partStep c (.call t op built) =
            some ({ c with state := view x a.other }.put t (k'.map Frame.call)) := by
          simp only [List.map_cons, Frame.call] at hb
          simp [partStep, hc, h.state, hb]
        exact ⟨_, (Reach.start c).next (e := .call t op built) trivial hstep,
          h.move t x a.other (.inr k')⟩
      · cases hs
    · cases hs

/-- What the calls on a state show of its statements: while a thread is inside of the lock, what it
found there. -/
structure Shows (s : State ν χ) (c : Parts ν χ) : Prop where
  free : s.owner = none → c.state = view s.shared s.other
  held : ∀ t i x, s.owner = some (t, i, x) → c.state = view x s.other
  calls : ∀ t k, s.place t = .out k → c.calls t = k.map Frame.call

/-- As long as no exception is null, each run of the threads, statement by statement, is one of
threads that make each locked part by a function of `Ltl.FutureState` and each read by its `get`. -/
theorem statements_are_the_functions (s : State ν χ)
    (hr : Reach step (sections.Allowed NonNull) (init ν χ) s) :
    ∃ c, Reach partStep anyEvent (initParts ν χ) c ∧ Shows s c := by
  obtain ⟨a, ha, hs⟩ := reach_atomic hr
  have hsim : Simulates (sections.atomicStep (code ν χ)) (sections.AtomicAllowed NonNull)
      partStep anyEvent (fun a c => Ok a ∧ Same a c) := by
    rintro a c e a' ⟨hok, h⟩ he hstep
    obtain ⟨c', hc', h'⟩ := h.step hok hstep
    exact ⟨c', hc', hok.step he hstep, h'⟩
  obtain ⟨c, hc, -, h⟩ := hsim.reach (t := initParts ν χ) ⟨init_ok, rfl, fun _ => rfl⟩ ha
  refine ⟨c, hc, ?_, ?_, ?_⟩
  · intro ho
    rw [h.state, hs.free ho, hs.other]
  · intro t i x ho
    rw [h.state, (hs.held t i x ho).1, hs.other]
  · intro t k hp
    rw [h.calls t, (hs.away (p := .inr k) hp).1, callsAt]

/-- A `get` that waits for the exception of another thread, down to its read. -/
theorem statements_are_the_functions_here : ∃ (s : State Nat Nat) (c : Parts Nat Nat),
    Reach step (sections.Allowed NonNull) (init Nat Nat) s ∧
    s.place 0 = .out [.client (some (.error 5))] ∧
    Reach partStep anyEvent (initParts Nat Nat) c ∧ Shows s c := by
  have hrun : ∃ s, run step (init Nat Nat) (getAndSet (.set_exception (some 5))
      [.inner 1 .go, .inner 1 .go, .inner 1 .go] ++ [.outer 0 .go]) = some s ∧
      s.place 0 = .out [.client (some (.error 5))] := ⟨_, rfl, rfl⟩
  obtain ⟨s, hs, h0⟩ := hrun
  have hr : Reach step (sections.Allowed NonNull) (init Nat Nat) s := by
    apply reach_of_run _ _ _ _ hs
    simp [getAndSet, sections.Allowed, NonNull]
  obtain ⟨c, hc, h⟩ := statements_are_the_functions s hr
  exact ⟨s, c, hr, h0, hc, h⟩

end ltl.statements
