-- The threads that use futures (future.hpp, promise.hpp, when_all.hpp): each
-- thread has a stack of calls, and one step runs up to the next lock of a
-- state. Client code is open: it may make any call at any time.
import Ltl.FutureState

open ltl.future_state

namespace ltl.futures

/-! ## Values, continuations and calls -/

abbrev StateId := Nat
abbrev CounterId := Nat

/-- The number of a continuation, in the order in which they were registered. -/
abbrev Id := Nat

/-- `future<T>`: its `state_`, which may be null. -/
abbrev Future := Option StateId

/-- The values of the types `T` of the futures: void, a type of the client, a future or a
vector. -/
inductive Value (α : Type) where
  | unit
  | val (a : α)
  | future (f : Future)
  | vec (vs : List (Value α))
  deriving Repr

inductive Exception (ε : Type) where
  | user (x : ε)
  | promise_already_satisfied
  | no_state
  deriving DecidableEq, Repr

/-- The functions that `then` stores: a function of the client bound to the completed future
(`then`), `get_and_compose` (`next`), the empty one of `to_future_void`, the one of `when_all` and
the outer one of `unwrap`. -/
inductive Func where
  | then_ (k : Nat)
  | next_ (k : Nat)
  | ignore
  | get_all (fs : List Future)
  | unwrap (s : StateId)
  deriving DecidableEq, Repr

/-- The functions that a client can hand to `then`. -/
def Func.client : Func → Bool
  | .get_all _ => false
  | .unwrap _ => false
  | _ => true

/-- The elements of `continuations_`: of `then`, of `continue_with` with a plain function, with
`dec` of `when_all_ready` and with the inner function of `unwrap`, and of `wait`. -/
inductive Cont where
  | invoke_and_set_value (src rs : StateId) (func : Func)
  | call (k : Nat)
  | dec (n : CounterId)
  | get_and_set_value (s f : StateId)
  | signal (st : StateId)
  deriving DecidableEq, Repr

/-- Code of the client: the main program of a thread, a function called by
`invoke_and_set_value`, or a function called by `continue_with`. -/
inductive Body where
  | main
  | callback (src rs : StateId) (func : Func)
  | fn (k : Nat)
  deriving DecidableEq, Repr

/-- One call on the stack of a thread, as what it has still to do. -/
inductive Frame (α ε : Type) where
  | user (b : Body)
  /-- `invoke_and_set_value`, inside the `try`: the function has ended with `r`. -/
  | try_set (rs : StateId) (r : Except (Exception ε) (Value α))
  /-- Inside the `try`: `rs.set_value` is running. -/
  | catch_ (rs : StateId)
  /-- In the `catch (...)`: `rs.set_exception(std::current_exception())` is next. -/
  | handler (rs : StateId) (x : Exception ε)
  /-- `for (auto&& f : cs) f();` of a setter of `st`. -/
  | drain (st : StateId) (cs : List (Id × Cont))
  | exec (k : Cont)
  /-- Where the call of continuation `i` returns to. -/
  | invoking (i : Id)
  | set_prm (prm : StateId)
  /-- The loop of `when_all_ready`. -/
  | register (n : CounterId) (fs : List Future)
  /-- `when_all`, once `when_all_ready` has returned the future of `prm`. -/
  | when_all_then (prm : StateId) (fs : List Future)
  /-- The function of `when_all`, with the values so far. -/
  | get_all (rs : StateId) (fs : List Future) (vs : List (Value α))
  /-- `return f.get()` under a `try`, for the state `rs`. -/
  | set_got (rs : StateId)
  /-- The outer function of `unwrap` inside its `try`: `continue_with` is running. -/
  | unwrap_try (rs s : StateId)
  | future_get (st : StateId)
  /-- `block_->wait()`, in a `get` or in a plain `wait`. -/
  | waiting (st : StateId) (isGet : Bool)
  /-- `future::get` after `wait`. -/
  | reading (st : StateId)

/-- What the code does that C++ leaves undefined, and what its type checker excludes. -/
inductive Fault where
  | absent_value
  | null_state
  | ill_typed
  deriving DecidableEq, Repr

/-- What has happened so far. No step reads it. -/
inductive Entry (ε : Type) where
  /-- A setter of `st` ended its locked part with `r`. -/
  | set (st : StateId) (allow_exception : Bool) (r : Locked Id (Exception ε))
  | invoked (i : Id)
  /-- An exception left continuation `i`. -/
  | escaped (i : Id)
  /-- An exception left the loop over the continuations in a setter of `st`. -/
  | broke (st : StateId)
  | unwrapped (outer s : StateId)
  deriving DecidableEq, Repr

/-- `counter` and `prm` of a call of `when_all_ready`. -/
structure Counter where
  count : Int
  prm : StateId
  deriving DecidableEq, Repr

abbrev State (α ε : Type) := FutureState (Id × Cont) (Value α) (Exception ε) Nat

/-- `promises` are the states that a `promise` of the client can set, and `sources` gives the
state on which each continuation was registered. -/
structure Config (α ε : Type) where
  states : List (State α ε)
  promises : List StateId := []
  counters : List Counter := []
  threads : List (List (Frame α ε))
  sources : List StateId := []
  log : List (Entry ε) := []
  fault : Option Fault := none

/-- `n` threads at the start of their main programs, and no state yet. -/
def init (α ε : Type) (n : Nat) : Config α ε :=
  { states := [], threads := List.replicate n [.user .main] }

/-! ## The locked parts on a configuration -/

namespace Config

variable {α ε : Type}

def put (c : Config α ε) (t : Nat) (k : List (Frame α ε)) : Config α ε :=
  { c with threads := c.threads.set t k }

def note (c : Config α ε) (es : List (Entry ε)) : Config α ε := { c with log := c.log ++ es }

/-- A new state. Its number is the number of states before it. -/
def alloc (c : Config α ε) (s : State α ε) : Config α ε := { c with states := c.states ++ [s] }

def update (c : Config α ε) (st : StateId) (s : State α ε) : Config α ε :=
  { c with states := c.states.set st s }

def fail (c : Config α ε) (f : Fault) : Config α ε := { c with fault := some f }

/-- The next number for a continuation, for one of `st`. -/
def enroll (c : Config α ε) (st : StateId) : Config α ε :=
  { c with sources := c.sources ++ [st] }

end Config

section
variable {α ε : Type}

/-- Where an exception goes: up to the next `catch` or the next code of the client, which may
handle it or let it go on. The loops and calls on the way are left. -/
def raise (x : Exception ε) : List (Frame α ε) → List (Entry ε) × List (Frame α ε)
  | [] => ([], [])
  | .user b :: k => ([], .user b :: k)
  | .catch_ rs :: k => ([], .handler rs x :: k)
  -- an exception of the handler of `unwrap` ends the function that the `try` is around
  | .try_set rs _ :: k => ([], .handler rs x :: k)
  | .unwrap_try rs s :: k => ([], .handler s x :: .try_set rs (.ok .unit) :: k)
  | .drain st _ :: k => (.broke st :: (raise x k).1, (raise x k).2)
  | .invoking i :: k => (.escaped i :: (raise x k).1, (raise x k).2)
  | _ :: k => raise x k

def throwTo (c : Config α ε) (t : Nat) (x : Exception ε) (k : List (Frame α ε)) : Config α ε :=
  (c.note (raise x k).1).put t (raise x k).2

/-- A setter of `st` called from `k`: the locked part `f`, then the loop or the exception. -/
def lockedSet (c : Config α ε) (t : Nat) (st : StateId) (allow : Bool)
    (f : State α ε → Locked (Id × Cont) (Exception ε) × State α ε) (k : List (Frame α ε)) :
    Option (Config α ε) :=
  match c.states[st]? with
  | none => none
  | some s =>
    match f s with
    | (.stored cs, s') =>
      some (((c.note [.set st allow (.stored (cs.map Prod.fst))]).update st s').put t
        (.drain st cs :: k))
    | (.ignored, _) => some ((c.note [.set st allow .ignored]).put t k)
    | (.already, _) =>
      some (throwTo (c.note [.set st allow .already]) t .promise_already_satisfied k)
    | (.built x, _) => some (throwTo (c.note [.set st allow (.built x)]) t x k)

/-- Registers `kont` on `st` from a call that goes on with `k`: it is stored, or it is run now. -/
def lockedAdd (c : Config α ε) (t : Nat) (st : StateId) (kont : Cont) (k : List (Frame α ε)) :
    Option (Config α ε) :=
  match c.states[st]? with
  | none => none
  | some s =>
    match add_continuation s (c.sources.length, kont) with
    | some s' => some (((c.enroll st).update st s').put t k)
    | none => some (((c.enroll st).note [.invoked c.sources.length]).put t
        (.exec kont :: .invoking c.sources.length :: k))

/-- The call that goes on with `k` after `wait`, which `get` makes too. -/
def waited (st : StateId) (isGet : Bool) (k : List (Frame α ε)) : List (Frame α ε) :=
  if isGet then .reading st :: k else k

/-- `wait` on `st`, made by `get` or not, from a call that goes on with `k`. -/
def lockedWait (c : Config α ε) (t : Nat) (st : StateId) (isGet : Bool) (k : List (Frame α ε)) :
    Option (Config α ε) :=
  match c.states[st]? with
  | none => none
  | some s =>
    match wait s (c.sources.length, .signal st) with
    | none => some (c.put t (waited st isGet k))
    | some s' =>
      let c' := if s.block_.isNone then c.enroll st else c
      some ((c'.update st s').put t (.waiting st isGet :: k))

/-! ## Library code -/

/-- What `get` gives to the call below it. Client code takes it as it is. -/
def deliver (r : Except (Exception ε) (Value α)) : List (Frame α ε) → List (Frame α ε)
  | .get_all rs fs vs :: k =>
    match r with
    | .ok v => .get_all rs fs (vs ++ [v]) :: k
    | .error x => .try_set rs (.error x) :: k
  | .set_got rs :: k => .try_set rs r :: k
  | k => k

/-- `state_->get()` without a wait, for the call that goes on as `k` says. -/
def readState (c : Config α ε) (st : StateId)
    (k : Except (Exception ε) (Value α) → Option (Config α ε)) : Option (Config α ε) :=
  match c.states[st]? with
  | none => none
  | some s =>
    match get s with
    | none => some (c.fail .absent_value)
    | some r => k r

/-- What the constructor of the stored value gives, when it throws what `built` says. -/
def storedAs (v : Value α) (built : Option (Exception ε)) : Except (Exception ε) (Value α) :=
  match built with
  | some x => .error x
  | none => .ok v

/-- The call of the function of a `then` continuation. -/
def execFunc (c : Config α ε) (t : Nat) (src rs : StateId) (func : Func)
    (k : List (Frame α ε)) : Option (Config α ε) :=
  match func with
  | .then_ _ => some (c.put t (.user (.callback src rs func) :: k))
  | .next_ _ => readState c src fun r =>
    match r with
    | .ok _ => some (c.put t (.user (.callback src rs func) :: k))
    | .error x => some (c.put t (.try_set rs (.error x) :: k))
  | .ignore => some (c.put t (.try_set rs (.ok .unit) :: k))
  | .get_all fs => some (c.put t (.get_all rs fs [] :: k))
  | .unwrap s => readState c src fun r =>
    match r with
    -- the `get` before the `try`: the function ends here, and `s` is not set
    | .error x => some (c.put t (.try_set rs (.error x) :: k))
    | .ok (.future (some f)) => lockedAdd c t f (.get_and_set_value s f) (.unwrap_try rs s :: k)
    | .ok (.future none) => some (c.fail .null_state)
    | .ok _ => some (c.fail .ill_typed)

/-- `if (counter->fetch_sub(1) == 1) prm->set_value();` -/
def execDec (c : Config α ε) (t : Nat) (n : CounterId) (k : List (Frame α ε)) :
    Option (Config α ε) :=
  match c.counters[n]? with
  | none => none
  | some ctr =>
    let c' := { c with counters := c.counters.set n { ctr with count := ctr.count - 1 } }
    if ctr.count = 1 then some (c'.put t (.set_prm ctr.prm :: k)) else some (c'.put t k)

def exec (c : Config α ε) (t : Nat) (kont : Cont) (k : List (Frame α ε)) : Option (Config α ε) :=
  match kont with
  | .invoke_and_set_value src rs func => execFunc c t src rs func k
  | .call f => some (c.put t (.user (.fn f) :: k))
  | .dec n => execDec c t n k
  | .get_and_set_value s f => some (c.put t (.future_get f :: .set_got s :: k))
  | .signal st =>
    match c.states[st]? with
    | none => none
    | some s => some ((c.update st (signal s)).put t k)

/-- One step of library code on top of `k`. `built` is what the constructor of a value that is
stored in this step throws. -/
def tick (c : Config α ε) (t : Nat) (f : Frame α ε) (k : List (Frame α ε))
    (built : Option (Exception ε)) : Option (Config α ε) :=
  match f with
  | .user _ => none
  | .try_set rs (.ok v) =>
    lockedSet c t rs true (set_value · (storedAs v built)) (.catch_ rs :: k)
  | .try_set rs (.error x) => some (c.put t (.handler rs x :: k))
  | .catch_ _ => some (c.put t k)
  | .handler rs x => lockedSet c t rs true (set_exception · (some x)) k
  | .drain _ [] => some (c.put t k)
  | .drain st ((i, kont) :: cs) =>
    some ((c.note [.invoked i]).put t (.exec kont :: .invoking i :: .drain st cs :: k))
  | .exec kont => exec c t kont k
  | .invoking _ => some (c.put t k)
  | .set_prm prm => lockedSet c t prm true (set_value · (.ok .unit)) k
  | .register _ [] => some (c.put t k)
  | .register n (none :: fs) => some (c.put t (.exec (.dec n) :: .register n fs :: k))
  | .register n (some st :: fs) => lockedAdd c t st (.dec n) (.register n fs :: k)
  | .when_all_then prm fs =>
    lockedAdd (c.alloc {}) t prm (.invoke_and_set_value prm c.states.length (.get_all fs)) k
  | .get_all rs [] vs => some (c.put t (.try_set rs (.ok (.vec vs)) :: k))
  | .get_all rs (none :: _) _ => some (c.put t (.try_set rs (.error .no_state) :: k))
  | .get_all rs (some st :: fs) vs => some (c.put t (.future_get st :: .get_all rs fs vs :: k))
  | .set_got _ => none
  | .unwrap_try rs _ => some (c.put t (.try_set rs (.ok .unit) :: k))
  | .future_get st => lockedWait c t st true k
  | .waiting st isGet =>
    match c.states[st]? with
    | none => none
    | some s => if s.block_ = some true then some (c.put t (waited st isGet k)) else none
  | .reading st => readState c st fun r => some (c.put t (deliver r k))

/-! ## Client code -/

/-- What a thread does next: library code goes on, or client code makes a call or ends. A null
`exception_ptr` is `none`, and `allow_exception` is false only for `set_value_impl`. A new promise
has the task queue of the task that makes it as its `await_queue`. -/
inductive Action (α ε : Type) where
  | tick (built : Option (Exception ε))
  | promise (await_queue : Option Nat)
  | set_value (p : StateId) (v : Value α) (built : Option (Exception ε)) (allow_exception : Bool)
  | set_exception (p : StateId) (x : Option (Exception ε))
  | then_ (f : Future) (func : Func)
  | continue_with (st : StateId) (k : Nat)
  | wait (f : Future)
  | get (f : Future)
  | when_all_ready (fs : List Future) (await_queue : Option Nat)
  | when_all (fs : List Future) (await_queue : Option Nat)
  | unwrap (f : Future)
  | ret (v : Value α)
  | throw_ (x : Exception ε)

/-- `counter` and `prm` of `when_all_ready`, and its loop on top of `k`. -/
def startWhenAllReady (c : Config α ε) (t : Nat) (fs : List Future) (q : Option Nat)
    (k : List (Frame α ε)) : Config α ε :=
  let ctr : Counter := ⟨fs.length, c.states.length⟩
  { c.alloc { await_queue_ := q } with counters := c.counters ++ [ctr] }.put t
    (.register c.counters.length fs :: k)

/-- A call made by the client code `b` on top of `k`, or its end. A call that throws at once
leaves everything as it is. -/
def call (c : Config α ε) (t : Nat) (b : Body) (k : List (Frame α ε)) :
    Action α ε → Option (Config α ε)
  | .tick _ => none
  | .promise q =>
    some { c.alloc { await_queue_ := q } with promises := c.promises ++ [c.states.length] }
  | .set_value p v built allow =>
    if p ∈ c.promises then
      lockedSet c t p allow (set_value_impl · (storedAs v built) allow) (.user b :: k)
    else none
  | .set_exception p x =>
    if p ∈ c.promises then lockedSet c t p true (set_exception · x) (.user b :: k) else none
  | .then_ none _ => some c
  | .then_ (some st) func =>
    if func.client then
      lockedAdd (c.alloc {}) t st (.invoke_and_set_value st c.states.length func) (.user b :: k)
    else none
  | .continue_with st f => lockedAdd c t st (.call f) (.user b :: k)
  | .wait none => some c
  | .wait (some st) => lockedWait c t st false (.user b :: k)
  | .get none => some c
  | .get (some st) => some (c.put t (.future_get st :: .user b :: k))
  | .when_all_ready [] _ => some (c.alloc { value_ := some .unit })
  | .when_all_ready fs q => some (startWhenAllReady c t fs q (.user b :: k))
  | .when_all [] _ =>
    some ((c.alloc { value_ := some .unit }).put t
      (.when_all_then c.states.length [] :: .user b :: k))
  | .when_all fs q =>
    some (startWhenAllReady c t fs q (.when_all_then c.states.length fs :: .user b :: k))
  | .unwrap none => some c
  | .unwrap (some st) =>
    match c.states[st]? with
    | none => none
    | some o =>
      let s := c.states.length
      lockedAdd (((c.alloc { await_queue_ := o.await_queue_ }).alloc {}).note [.unwrapped st s])
        t st (.invoke_and_set_value st (s + 1) (.unwrap s)) (.user b :: k)
  | .ret v =>
    match b with
    | .main => none
    | .callback _ rs _ => some (c.put t (.try_set rs (.ok v) :: k))
    | .fn _ => some (c.put t k)
  | .throw_ x =>
    match b with
    | .main => none
    | .callback _ rs _ => some (c.put t (.try_set rs (.error x) :: k))
    | .fn _ => some (throwTo c t x k)

/-- One step of thread `e.1`. Nothing runs after a fault. -/
def step (c : Config α ε) (e : Nat × Action α ε) : Option (Config α ε) :=
  if c.fault.isSome then none
  else
    match c.threads[e.1]? with
    | some (.user b :: k) => call c e.1 b k e.2
    | some (f :: k) =>
      match e.2 with
      | .tick built => tick c e.1 f k built
      | _ => none
    | _ => none

end

end ltl.futures
