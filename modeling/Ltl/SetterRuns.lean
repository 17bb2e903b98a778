-- The calls of setters, in the threads: a thread that runs on alone does to the
-- states of its futures what `Ltl.Setters` says of the whole call, whatever the
-- functions of the client answer.
import Ltl.Setters
import Ltl.Edges

open ltl.future_state runs

namespace ltl.futures

variable {α ε : Type}

/-! ## A thread that runs on alone -/

/-- What client code answers when continuation `i` calls it: how the function of a `then` ends,
what a plain function throws, and what the constructor of the stored value throws. -/
structure Answers (α ε : Type) where
  ends : Id → Except (Exception ε) (Value α)
  throws : Id → Option (Exception ε)
  built : Id → Option (Exception ε)

/-- What thread `t`, with the stack `k`, does next. The main program of a thread waits. -/
def Answers.next (a : Answers α ε) (k : List (Frame α ε)) : Option (Action α ε) :=
  match k with
  | .user (.callback _ _ _) :: .invoking i :: _ =>
    match a.ends i with
    | .ok v => some (.ret v)
    | .error x => some (.throw_ x)
  | .user (.fn _) :: .invoking i :: _ =>
    match a.throws i with
    | none => some (.ret .unit)
    | some x => some (.throw_ x)
  | .user _ :: _ => none
  | .try_set _ _ :: .invoking i :: _ => some (.tick (a.built i))
  | _ :: _ => some (.tick none)
  | [] => none

def Alone (a : Answers α ε) (t : Nat) (c : Config α ε) (e : Nat × Action α ε) : Prop :=
  e.1 = t ∧ (c.threads[t]?).bind a.next = some e.2

/-- Where the call on top of `k` goes on, when it ends with `x` or returns. -/
def raised (x : Option (Exception ε)) (k : List (Frame α ε)) : List (Frame α ε) :=
  match x with
  | none => k
  | some x => (raise x k).2

def raisedLog (x : Option (Exception ε)) (k : List (Frame α ε)) : List (Entry ε) :=
  match x with
  | none => []
  | some x => (raise x k).1

/-! ## The trees of continuations -/

/-- A continuation of `Ltl.Futures` with all that it meets when it is called: of `then`, how its
function ends, what the constructor of the stored value throws, and what waits for its result. -/
inductive Tree (α ε : Type) where
  | signal (i : Id) (st : StateId)
  | call (i : Id) (k : Nat) (throws : Option (Exception ε))
  | then_ (i : Id) (src rs : StateId) (func : Func) (r : Except (Exception ε) (Value α))
      (built : Option (Exception ε)) (dependents : List (Tree α ε))

/-- What a state holds of it. -/
def Tree.entry : Tree α ε → Id × Cont
  | .signal i st => (i, .signal st)
  | .call i k _ => (i, .call k)
  | .then_ i src rs func _ _ _ => (i, .invoke_and_set_value src rs func)

mutual

/-- What `Ltl.Setters` has of it. -/
def Tree.erase : Tree α ε → setters.Continuation (Value α) ε
  | .signal _ _ => .signal
  | .call _ _ throws => .call throws
  | .then_ _ _ _ _ r built dependents => .then_ r built (eraseAll dependents)

def eraseAll : List (Tree α ε) → List (setters.Continuation (Value α) ε)
  | [] => []
  | tree :: trees => tree.erase :: eraseAll trees

end

mutual

/-- The states of the results. -/
def Tree.states : Tree α ε → List StateId
  | .then_ _ _ rs _ _ _ dependents => rs :: statesAll dependents
  | _ => []

def statesAll : List (Tree α ε) → List StateId
  | [] => []
  | tree :: trees => tree.states ++ statesAll trees

end

/-- The exception that leaves the call of a tree, and the one that ends a loop over trees. -/
def Tree.leaves (tree : Tree α ε) : Option (Exception ε) := setters.invoke tree.erase

def leavesAll (trees : List (Tree α ε)) : Option (Exception ε) := (setters.drain (eraseAll trees)).2

mutual

/-- The continuations that are called, in order. -/
def Tree.calls : Tree α ε → List Id
  | .signal i _ => [i]
  | .call i _ _ => [i]
  | .then_ i _ _ _ _ _ dependents => i :: callsAll dependents

def callsAll : List (Tree α ε) → List Id
  | [] => []
  | tree :: trees => tree.calls ++ if tree.leaves = none then callsAll trees else []

end

/-- The functions of the client that are called or left out at once. -/
def Func.plain : Func → Bool
  | .then_ _ => true
  | .next_ _ => true
  | .ignore => true
  | _ => false

def Cont.plain : Cont → Bool
  | .invoke_and_set_value _ _ func => func.plain
  | .call _ => true
  | .signal _ => true
  | _ => false

/-- How the function of continuation `i` ends, when its source has the outcome `r`. -/
def Func.result (a : Answers α ε) (i : Id) (r : Except (Exception ε) (Value α)) :
    Func → Except (Exception ε) (Value α)
  | .then_ _ => a.ends i
  | .next_ _ =>
    match r with
    | .ok _ => a.ends i
    | .error x => .error x
  | _ => .ok .unit

/-- What the state of the result holds in the end. -/
def settled (r : Except (Exception ε) (Value α)) (built : Option (Exception ε)) :
    Except (Exception ε) (Value α) :=
  match r with
  | .ok v => storedAs v built
  | .error x => .error x

mutual

/-- The tree of a continuation of `st`, when `st` has the outcome `r`. -/
def Tree.Shown (a : Answers α ε) (c : Config α ε) (st : StateId)
    (r : Except (Exception ε) (Value α)) : Tree α ε → Prop
  | .signal _ st' => st' = st
  | .call i _ throws => throws = a.throws i
  | .then_ i src rs func r' built dependents =>
    src = st ∧ func.plain = true ∧ r' = func.result a i r ∧ built = a.built i ∧
      (∃ s, c.states[rs]? = some s ∧ ready s = false ∧
        s.continuations_ = dependents.map Tree.entry) ∧
      ShownAll a c rs (settled r' built) dependents

def ShownAll (a : Answers α ε) (c : Config α ε) (st : StateId)
    (r : Except (Exception ε) (Value α)) : List (Tree α ε) → Prop
  | [] => True
  | tree :: trees => tree.Shown a c st r ∧ ShownAll a c st r trees

end

mutual

/-- The results of the continuations that were called. -/
def Tree.Done (c : Config α ε) : Tree α ε → Prop
  | .then_ _ _ rs _ r built dependents =>
    outcome c rs = some (settled r built) ∧ DoneAll c dependents
  | _ => True

def DoneAll (c : Config α ε) : List (Tree α ε) → Prop
  | [] => True
  | tree :: trees => tree.Done c ∧ (tree.leaves = none → DoneAll c trees)

end

mutual

/-- The states that the called continuations write to. -/
def Tree.sets : Tree α ε → List StateId
  | .signal _ st => [st]
  | .call _ _ _ => []
  | .then_ _ _ rs _ _ _ dependents => rs :: setsAll dependents

def setsAll : List (Tree α ε) → List StateId
  | [] => []
  | tree :: trees => tree.sets ++ if tree.leaves = none then setsAll trees else []

end

/-! ## Small facts -/

theorem leavesAll_cons (tree : Tree α ε) (trees : List (Tree α ε)) :
    leavesAll (tree :: trees) = (tree.leaves <|> leavesAll trees) := by
  simp only [leavesAll, eraseAll, setters.drain, Tree.leaves]
  cases setters.invoke tree.erase <;> simp

/-- An exception goes through the mark of a call. -/
@[simp] theorem raised_invoking (x : Option (Exception ε)) (i : Id) (k : List (Frame α ε)) :
    (raised x (.invoking i :: k)) = if x = none then .invoking i :: k else raised x k := by
  cases x <;> simp [raised, raise]

mutual

theorem Tree.Shown.grows {a : Answers α ε} {c c' : Config α ε} {st : StateId}
    {r : Except (Exception ε) (Value α)} : (tree : Tree α ε) →
    (∀ rs ∈ tree.states, c'.states[rs]? = c.states[rs]?) → tree.Shown a c st r →
    tree.Shown a c' st r
  | .signal _ _, _, h => h
  | .call _ _ _, _, h => h
  | .then_ _ _ rs _ _ _ dependents, hs, h => by
    simp only [Tree.states, List.forall_mem_cons] at hs
    simp only [Tree.Shown] at h ⊢
    obtain ⟨hsrc, hplain, hr, hb, ⟨s, hst, hready, hcs⟩, hdeps⟩ := h
    exact ⟨hsrc, hplain, hr, hb, ⟨s, hs.1.trans hst, hready, hcs⟩,
      ShownAll.grows dependents hs.2 hdeps⟩

theorem ShownAll.grows {a : Answers α ε} {c c' : Config α ε} {st : StateId}
    {r : Except (Exception ε) (Value α)} : (trees : List (Tree α ε)) →
    (∀ rs ∈ statesAll trees, c'.states[rs]? = c.states[rs]?) → ShownAll a c st r trees →
    ShownAll a c' st r trees
  | [], _, _ => by simp [ShownAll]
  | tree :: trees, hs, h => by
    simp only [statesAll, List.forall_mem_append] at hs
    simp only [ShownAll] at h ⊢
    exact ⟨Tree.Shown.grows tree hs.1 h.1, ShownAll.grows trees hs.2 h.2⟩

end

mutual

/-- A called continuation writes to its own states and to the block of its source. -/
theorem Tree.Shown.sets {a : Answers α ε} {c : Config α ε} {st : StateId}
    {r : Except (Exception ε) (Value α)} : (tree : Tree α ε) → tree.Shown a c st r →
    ∀ rs ∈ tree.sets, rs = st ∨ rs ∈ tree.states
  | .signal _ _, h, rs, hrs => by
    simp only [Tree.Shown] at h
    simp only [Tree.sets, List.mem_singleton] at hrs
    exact Or.inl (hrs.trans h)
  | .call _ _ _, _, rs, hrs => by simp [Tree.sets] at hrs
  | .then_ _ _ rs' _ _ _ dependents, h, rs, hrs => by
    simp only [Tree.Shown] at h
    simp only [Tree.sets, List.mem_cons] at hrs
    simp only [Tree.states, List.mem_cons]
    rcases hrs with hrs | hrs
    · exact Or.inr (Or.inl hrs)
    · exact Or.inr (ShownAll.sets dependents h.2.2.2.2.2 rs hrs)

theorem ShownAll.sets {a : Answers α ε} {c : Config α ε} {st : StateId}
    {r : Except (Exception ε) (Value α)} : (trees : List (Tree α ε)) → ShownAll a c st r trees →
    ∀ rs ∈ setsAll trees, rs = st ∨ rs ∈ statesAll trees
  | [], _, rs, hrs => by simp [setsAll] at hrs
  | tree :: trees, h, rs, hrs => by
    simp only [ShownAll] at h
    simp only [setsAll, List.mem_append] at hrs
    simp only [statesAll, List.mem_append]
    rcases hrs with hrs | hrs
    · exact (Tree.Shown.sets tree h.1 rs hrs).imp_right Or.inl
    · split at hrs
      · exact (ShownAll.sets trees h.2 rs hrs).imp_right Or.inr
      · simp at hrs

end

mutual

theorem Tree.Done.grows {c c' : Config α ε} : (tree : Tree α ε) →
    (∀ rs ∈ tree.states, outcome c' rs = outcome c rs) → tree.Done c → tree.Done c'
  | .signal _ _, _, _ => by simp [Tree.Done]
  | .call _ _ _, _, _ => by simp [Tree.Done]
  | .then_ _ _ rs _ _ _ dependents, hs, h => by
    simp only [Tree.states, List.forall_mem_cons] at hs
    simp only [Tree.Done] at h ⊢
    exact ⟨hs.1.trans h.1, DoneAll.grows dependents hs.2 h.2⟩

theorem DoneAll.grows {c c' : Config α ε} : (trees : List (Tree α ε)) →
    (∀ rs ∈ statesAll trees, outcome c' rs = outcome c rs) → DoneAll c trees → DoneAll c' trees
  | [], _, _ => by simp [DoneAll]
  | tree :: trees, hs, h => by
    simp only [statesAll, List.forall_mem_append] at hs
    simp only [DoneAll] at h ⊢
    exact ⟨Tree.Done.grows tree hs.1 h.1, fun hx => DoneAll.grows trees hs.2 (h.2 hx)⟩

end

/-! ## Runs of one thread -/

/-- Thread `t` runs on alone from `c` to `c'`, where its stack is `k`; on the way it makes the
entries `es` and writes to the states in `sets`. -/
structure Ran (a : Answers α ε) (t : Nat) (c c' : Config α ε) (k : List (Frame α ε))
    (es : List (Entry ε)) (sets : List StateId) : Prop where
  reach : Reach step (Alone a t) c c'
  stack : c'.threads = c.threads.set t k
  log : c'.log = c.log ++ es
  frame : ∀ st, st ∉ sets → c'.states[st]? = c.states[st]?
  rest : c'.promises = c.promises ∧ c'.counters = c.counters ∧ c'.sources = c.sources
  fault : c'.fault = c.fault

theorem Ran.trans {a : Answers α ε} {t : Nat} {c c' c'' : Config α ε} {k k' : List (Frame α ε)}
    {es es' : List (Entry ε)} {sets sets' : List StateId} (h : Ran a t c c' k es sets)
    (h' : Ran a t c' c'' k' es' sets') : Ran a t c c'' k' (es ++ es') (sets ++ sets') := by
  refine ⟨h.reach.trans h'.reach, ?_, ?_, ?_, ?_, h'.fault.trans h.fault⟩
  · rw [h'.stack, h.stack, List.set_set]
  · rw [h'.log, h.log, List.append_assoc]
  · intro st hst
    rw [List.mem_append, not_or] at hst
    rw [h'.frame st hst.2, h.frame st hst.1]
  · exact ⟨h'.rest.1.trans h.rest.1, h'.rest.2.1.trans h.rest.2.1, h'.rest.2.2.trans h.rest.2.2⟩

theorem Ran.refl {a : Answers α ε} {t : Nat} {c : Config α ε} {k : List (Frame α ε)}
    (hk : c.threads[t]? = some k) : Ran a t c c k [] [] := by
  refine ⟨Reach.start c, ?_, by simp, fun _ _ => rfl, ⟨rfl, rfl, rfl⟩, rfl⟩
  have hput := put_self hk
  exact (congrArg Config.threads hput).symm

/-- The thread has its new stack. -/
theorem Ran.top {a : Answers α ε} {t : Nat} {c c' : Config α ε} {k k' : List (Frame α ε)}
    {es : List (Entry ε)} {sets : List StateId} (h : Ran a t c c' k' es sets)
    (hk : c.threads[t]? = some k) : c'.threads[t]? = some k' := by
  rw [h.stack, List.getElem?_set_self (List.getElem?_eq_some_iff.mp hk).1]

/-- One step. -/
theorem Ran.one {a : Answers α ε} {t : Nat} {c c' : Config α ε} {act : Action α ε}
    {k k' : List (Frame α ε)} {es : List (Entry ε)} {sets : List StateId}
    (hk : c.threads[t]? = some k) (ha : a.next k = some act) (hs : step c (t, act) = some c')
    (stack : c'.threads = c.threads.set t k') (log : c'.log = c.log ++ es)
    (frame : ∀ st, st ∉ sets → c'.states[st]? = c.states[st]?)
    (rest : c'.promises = c.promises ∧ c'.counters = c.counters ∧ c'.sources = c.sources)
    (fault : c'.fault = c.fault) : Ran a t c c' k' es sets := by
  have halone : Alone a t c (t, act) := ⟨rfl, by rw [hk]; exact ha⟩
  exact ⟨(Reach.start c).next halone hs, stack, log, frame, rest, fault⟩

/-- A step of library code that changes the stack. -/
theorem Ran.put {a : Answers α ε} {t : Nat} {c : Config α ε} {act : Action α ε}
    {k k' : List (Frame α ε)} (hk : c.threads[t]? = some k) (ha : a.next k = some act)
    (hs : step c (t, act) = some (c.put t k')) : Ran a t c (c.put t k') k' [] [] :=
  Ran.one hk ha hs rfl (List.append_nil _).symm (fun _ _ => rfl) ⟨rfl, rfl, rfl⟩ rfl

/-! ## The function of a continuation -/

/-- The function ends as the client answers. -/
theorem callback_ends (a : Answers α ε) {t : Nat} {c : Config α ε} {i : Id} {src rs : StateId}
    {func : Func} {k : List (Frame α ε)} (hf : c.fault = none)
    (hk : c.threads[t]? = some (.user (.callback src rs func) :: .invoking i :: k)) :
    ∃ c', c'.states = c.states ∧
      Ran a t c c' (.try_set rs (a.ends i) :: .invoking i :: k) [] [] := by
  refine ⟨c.put t (.try_set rs (a.ends i) :: .invoking i :: k), rfl, ?_⟩
  cases he : a.ends i with
  | ok v =>
    have hnext : a.next (.user (.callback src rs func) :: .invoking i :: k) = some (.ret v) := by
      simp [Answers.next, he]
    apply Ran.put hk hnext
    simp [step_user hf hk, call]
  | error x =>
    have hnext : a.next (.user (.callback src rs func) :: .invoking i :: k) =
        some (.throw_ x) := by
      simp [Answers.next, he]
    apply Ran.put hk hnext
    simp [step_user hf hk, call]

/-- The function of a continuation of `then` is called, or left out, and ends. -/
theorem function_ends (a : Answers α ε) {t : Nat} {c : Config α ε} {i : Id} {src rs : StateId}
    {func : Func} {k : List (Frame α ε)} {r : Except (Exception ε) (Value α)}
    (hf : c.fault = none)
    (hk : c.threads[t]? = some (.exec (.invoke_and_set_value src rs func) :: .invoking i :: k))
    (hplain : func.plain = true) (hr : outcome c src = some r) :
    ∃ c', c'.states = c.states ∧
      Ran a t c c' (.try_set rs (func.result a i r) :: .invoking i :: k) [] [] := by
  have hnext : a.next (.exec (.invoke_and_set_value src rs func) :: .invoking i :: k) =
      some (.tick none) := by simp [Answers.next]
  have hstep : step c (t, .tick none) = execFunc c t src rs func (.invoking i :: k) := by
    rw [step_library hf hk (by simp)]
    simp [tick, exec]
  -- the call of the function, and its end
  have hcall : execFunc c t src rs func (.invoking i :: k) =
        some (c.put t (.user (.callback src rs func) :: .invoking i :: k)) →
      ∃ c', c'.states = c.states ∧
        Ran a t c c' (.try_set rs (a.ends i) :: .invoking i :: k) [] [] := by
    intro hs
    have hran := Ran.put hk hnext (hstep.trans hs)
    obtain ⟨c', hc', hran'⟩ := callback_ends a (hran.fault.trans hf) (hran.top hk)
    exact ⟨c', hc', by simpa using hran.trans hran'⟩
  have hread : ∀ g : Except (Exception ε) (Value α) → Option (Config α ε),
      readState c src g = g r := by
    intro g
    obtain ⟨s, hs, hg⟩ := Option.bind_eq_some_iff.mp hr
    simp [readState, hs, hg]
  cases func with
  | then_ f =>
    apply hcall
    simp [execFunc]
  | next_ f =>
    cases r with
    | ok v =>
      apply hcall
      simp [execFunc, hread]
    | error x =>
      have hs : execFunc c t src rs (.next_ f) (.invoking i :: k) =
          some (c.put t (.try_set rs (.error x) :: .invoking i :: k)) := by
        simp [execFunc, hread]
      have hran := Ran.put hk hnext (hstep.trans hs)
      exact ⟨_, by simp [Config.put], hran⟩
  | ignore =>
    have hs : execFunc c t src rs .ignore (.invoking i :: k) =
        some (c.put t (.try_set rs (.ok .unit) :: .invoking i :: k)) := by
      simp [execFunc]
    have hran := Ran.put hk hnext (hstep.trans hs)
    exact ⟨_, by simp [Config.put], hran⟩
  | get_all fs => simp [Func.plain] at hplain
  | unwrap st => simp [Func.plain] at hplain

/-! ## The setters of a continuation -/

/-- An entry about a setter of `st` that throws. -/
def Entry.fails (st : StateId) : Entry ε → Bool
  | .set st' _ .already => st' == st
  | .set st' _ (.built _) => st' == st
  | .broke st' => st' == st
  | _ => false

/-- What is below the loop of the setter that stores the result. -/
def guarded (r : Except (Exception ε) (Value α)) (built : Option (Exception ε)) (rs : StateId)
    (k : List (Frame α ε)) : List (Frame α ε) :=
  match r, built with
  | .ok _, none => .catch_ rs :: k
  | _, _ => k

/-- The entries are about setters of `rs`, and none about a call. -/
def OnlySets (rs : StateId) (es : List (Entry ε)) : Prop :=
  invokedIds es = [] ∧ ∀ st, st ≠ rs → es.any (Entry.fails st) = false

/-- A setter of `rs`, which is not ready, stores and starts its loop. -/
theorem setter_stores {a : Answers α ε} {t : Nat} {c : Config α ε} {f : Frame α ε}
    {built : Option (Exception ε)} {k k' : List (Frame α ε)} {rs : StateId} {s s' : State α ε}
    {g : State α ε → Locked (Id × Cont) (Exception ε) × State α ε}
    (hf : c.fault = none) (hk : c.threads[t]? = some (f :: k)) (hs : c.states[rs]? = some s)
    (hlib : ∀ b, f ≠ .user b) (hnext : a.next (f :: k) = some (.tick built))
    (htick : tick c t f k built = lockedSet c t rs true g k')
    (hg : g s = (.stored s.continuations_, s')) :
    ∃ c', c'.states[rs]? = some s' ∧
      Ran a t c c' (.drain rs s.continuations_ :: k')
        [.set rs true (.stored (s.continuations_.map Prod.fst))] [rs] := by
  have hstep : step c (t, .tick built) =
      some (((c.note [.set rs true (.stored (s.continuations_.map Prod.fst))]).update rs s').put t
        (.drain rs s.continuations_ :: k')) := by
    rw [step_library hf hk hlib, htick]
    simp [lockedSet, hs, hg]
  refine ⟨_, ?_, Ran.one hk hnext hstep rfl rfl ?_ ⟨rfl, rfl, rfl⟩ rfl⟩
  · exact update_self (c := c.note _) s' hs
  · intro st hst
    simp only [List.mem_singleton] at hst
    exact update_ne (c := c.note _) s' (fun he => hst he.symm)

/-- The handler stores the exception. -/
theorem handler_stores (a : Answers α ε) {t : Nat} {c : Config α ε} {rs : StateId}
    {x : Exception ε} {k : List (Frame α ε)} {s : State α ε} (hf : c.fault = none)
    (hk : c.threads[t]? = some (.handler rs x :: k)) (hs : c.states[rs]? = some s)
    (hready : ready s = false) :
    ∃ c' s', c'.states[rs]? = some s' ∧ get s' = some (.error x) ∧
      Ran a t c c' (.drain rs s.continuations_ :: k)
        [.set rs true (.stored (s.continuations_.map Prod.fst))] [rs] := by
  have hg : set_exception s (some x) =
      (.stored s.continuations_, { s with exception_ := some x, continuations_ := [] }) := by
    simp [set_exception, hready]
  have hnext : a.next (.handler rs x :: k) = some (.tick none) := by simp [Answers.next]
  obtain ⟨c', hs', hran⟩ := setter_stores hf hk hs (by simp) hnext rfl hg
  exact ⟨c', _, hs', by simp [future_state.get], hran⟩

/-- The result is stored, and the loop of its setter begins. -/
theorem result_stored (a : Answers α ε) {t : Nat} {c : Config α ε} {i : Id} {rs : StateId}
    {r : Except (Exception ε) (Value α)} {k : List (Frame α ε)} {s : State α ε}
    (hf : c.fault = none) (hk : c.threads[t]? = some (.try_set rs r :: .invoking i :: k))
    (hs : c.states[rs]? = some s) (hready : ready s = false) :
    ∃ c' s' es, c'.states[rs]? = some s' ∧ get s' = some (settled r (a.built i)) ∧
      OnlySets rs es ∧
      Ran a t c c' (.drain rs s.continuations_ :: guarded r (a.built i) rs (.invoking i :: k))
        es [rs] := by
  have hnext : a.next (.try_set rs r :: .invoking i :: k) = some (.tick (a.built i)) := by
    simp [Answers.next]
  have honly : OnlySets rs
      [(.set rs true (.stored (s.continuations_.map Prod.fst)) : Entry ε)] := by
    simp [OnlySets, invokedIds, Entry.called, Entry.fails]
  cases r with
  | error x =>
    have hstep : step c (t, .tick (a.built i)) =
        some (c.put t (.handler rs x :: .invoking i :: k)) := by
      rw [step_library hf hk (by simp)]
      simp [tick]
    have hran := Ran.put hk hnext hstep
    obtain ⟨c', s', hs', hget, hran'⟩ :=
      handler_stores a (hran.fault.trans hf) (hran.top hk) hs hready
    refine ⟨c', s', _, hs', ?_, honly, ?_⟩
    · simp [hget, settled]
    · simpa [guarded] using hran.trans hran'
  | ok v =>
    cases hb : a.built i with
    | none =>
      rw [hb] at hnext
      have hg : set_value s (storedAs v none) =
          (.stored s.continuations_, { s with value_ := some v, continuations_ := [] }) := by
        simp [set_value, set_value_impl, hready, storedAs]
      obtain ⟨c', hs', hran⟩ := setter_stores hf hk hs (by simp) hnext rfl hg
      refine ⟨c', _, _, hs', ?_, honly, ?_⟩
      · simp only [ready, Bool.or_eq_false_iff, Option.isSome_eq_false_iff,
          Option.isNone_iff_eq_none] at hready
        simp [future_state.get, hready.2, settled, storedAs]
      · simpa [guarded] using hran
    | some x =>
      rw [hb] at hnext
      have hstep : step c (t, .tick (some x)) =
          some ((c.note [.set rs true (.built x)]).put t (.handler rs x :: .invoking i :: k)) := by
        rw [step_library hf hk (by simp)]
        simp [tick, lockedSet, hs, set_value, set_value_impl, hready, storedAs, throwTo, raise,
          Config.note, Config.put]
      have hran : Ran a t c ((c.note [.set rs true (.built x)]).put t
          (.handler rs x :: .invoking i :: k)) (.handler rs x :: .invoking i :: k)
          [.set rs true (.built x)] [] :=
        Ran.one hk hnext hstep rfl rfl (fun _ _ => rfl) ⟨rfl, rfl, rfl⟩ rfl
      obtain ⟨c', s', hs', hget, hran'⟩ :=
        handler_stores a (hran.fault.trans hf) (hran.top hk) hs hready
      have honly' : OnlySets rs ([.set rs true (.built x)] ++
          [(.set rs true (.stored (s.continuations_.map Prod.fst)) : Entry ε)]) := by
        refine ⟨by simp [invokedIds, Entry.called], fun st hne => ?_⟩
        simp [Entry.fails, Ne.symm hne]
      refine ⟨c', s', _, hs', ?_, honly', ?_⟩
      · simp [hget, settled, storedAs]
      · simpa [guarded] using hran.trans hran'

/-- What leaves the call of a continuation of `then`, by what leaves the loop of its setter. -/
theorem leaves_then (i : Id) (src rs : StateId) (func : Func)
    (r : Except (Exception ε) (Value α)) (built : Option (Exception ε))
    (dependents : List (Tree α ε)) :
    (Tree.then_ i src rs func r built dependents).leaves =
      match r, built, leavesAll dependents with
      | .ok _, none, some _ => some .promise_already_satisfied
      | _, _, x => x := by
  cases r with
  | error x => simp [Tree.leaves, leavesAll, Tree.erase, setters.invoke]
  | ok v =>
    cases built with
    | some x => simp [Tree.leaves, leavesAll, Tree.erase, setters.invoke]
    | none =>
      simp only [Tree.leaves, leavesAll, Tree.erase, setters.invoke]
      cases (setters.drain (eraseAll dependents)).2 <;> simp

/-- The mark of a call is left. -/
theorem invoking_ends (a : Answers α ε) {t : Nat} {c : Config α ε} {i : Id}
    {k : List (Frame α ε)} (hf : c.fault = none)
    (hk : c.threads[t]? = some (.invoking i :: k)) : Ran a t c (c.put t k) k [] [] := by
  have hnext : a.next (.invoking i :: k) = some (.tick none) := by simp [Answers.next]
  apply Ran.put hk hnext
  rw [step_library hf hk (by simp)]
  simp [tick]

/-- The setter of the handler finds the state ready, and its exception leaves the call. -/
theorem handler_fails (a : Answers α ε) {t : Nat} {c : Config α ε} {rs : StateId}
    {x : Exception ε} {k : List (Frame α ε)} (hf : c.fault = none)
    (hk : c.threads[t]? = some (.handler rs x :: k)) (hr : Ready c rs) :
    ∃ c', c'.states = c.states ∧ Ran a t c c' (raised (some .promise_already_satisfied) k)
      (.set rs true .already :: raisedLog (some .promise_already_satisfied) k) [] := by
  obtain ⟨s, hs, hready⟩ := hr
  have hnext : a.next (.handler rs x :: k) = some (.tick none) := by simp [Answers.next]
  have hstep : step c (t, .tick none) =
      some (throwTo (c.note [.set rs true .already]) t .promise_already_satisfied k) := by
    rw [step_library hf hk (by simp)]
    simp [tick, lockedSet, hs, set_exception, hready]
  refine ⟨_, ?_, Ran.one hk hnext hstep rfl ?_ (fun _ _ => rfl) ⟨rfl, rfl, rfl⟩ rfl⟩
  · simp [throwTo, Config.note, Config.put]
  · simp [throwTo, Config.note, Config.put, raisedLog]

/-- The code below the loop of the setter ends the call. -/
theorem guard_ends (a : Answers α ε) {t : Nat} {c : Config α ε} {i : Id} {rs : StateId}
    (src : StateId) (func : Func) {r : Except (Exception ε) (Value α)}
    {built : Option (Exception ε)} {dependents : List (Tree α ε)} {k : List (Frame α ε)}
    (hf : c.fault = none) (hk : c.threads[t]? = some (raised (leavesAll dependents)
      (guarded r built rs (.invoking i :: k)))) (hr : Ready c rs) :
    ∃ c' es es', c'.states = c.states ∧ OnlySets rs es' ∧
      Ran a t c c' (raised (Tree.then_ i src rs func r built dependents).leaves k) es [] ∧
      raisedLog (leavesAll dependents) (guarded r built rs (.invoking i :: k)) ++ es =
        es' ++ raisedLog (Tree.then_ i src rs func r built dependents).leaves
          (.invoking i :: k) := by
  have hnil : OnlySets rs ([] : List (Entry ε)) := by simp [OnlySets, invokedIds]
  rw [leaves_then]
  -- no `catch` below the loop
  have hopen : guarded r built rs (.invoking i :: k) = .invoking i :: k →
      ∃ c' es es', c'.states = c.states ∧ OnlySets rs es' ∧
        Ran a t c c' (raised (leavesAll dependents) k) es [] ∧
        raisedLog (leavesAll dependents) (guarded r built rs (.invoking i :: k)) ++ es =
          es' ++ raisedLog (leavesAll dependents) (.invoking i :: k) := by
    intro hg
    rw [hg] at hk ⊢
    cases hx : leavesAll dependents with
    | none =>
      rw [hx] at hk
      exact ⟨_, [], [], by simp [Config.put], hnil, invoking_ends a hf hk, by simp⟩
    | some x =>
      rw [hx] at hk
      exact ⟨c, [], [], rfl, hnil, Ran.refl hk, by simp⟩
  cases r with
  | error x => exact hopen rfl
  | ok v =>
    cases built with
    | some x => exact hopen rfl
    | none =>
      cases hx : leavesAll dependents with
      | none =>
        rw [hx] at hk
        have hnext : a.next (.catch_ rs :: .invoking i :: k) = some (.tick none) := by
          simp [Answers.next]
        have hstep : step c (t, .tick none) = some (c.put t (.invoking i :: k)) := by
          rw [step_library hf hk (by simp)]
          simp [tick]
        have hran := Ran.put hk hnext hstep
        have hran' := invoking_ends a (hran.fault.trans hf) (hran.top hk)
        refine ⟨(c.put t (.invoking i :: k)).put t k, [], [], rfl, hnil, ?_, by simp [raisedLog]⟩
        exact hran.trans hran'
      | some y =>
        rw [hx] at hk
        obtain ⟨c', hc', hran⟩ := handler_fails a hf hk hr
        refine ⟨c', _, [.set rs true .already], hc', ?_, by simpa using hran, ?_⟩
        · refine ⟨by simp [invokedIds, Entry.called], fun st hne => ?_⟩
          simp [Entry.fails, Ne.symm hne]
        · simp [raisedLog, raise, guarded]

/-! ## Calls and loops -/

/-- The call of `tree`, a continuation of `st` with the state `s`, ends in `c'` on top of `k`. -/
structure CallEnds (a : Answers α ε) (t : Nat) (c c' : Config α ε) (st : StateId) (s : State α ε)
    (tree : Tree α ε) (k : List (Frame α ε)) (es : List (Entry ε)) : Prop where
  ran : Ran a t c c' (raised tree.leaves k)
    (es ++ raisedLog tree.leaves (.invoking tree.entry.1 :: k)) tree.sets
  calls : tree.calls = tree.entry.1 :: invokedIds es
  done : tree.Done c'
  fails : ∀ st', st' ∉ tree.states → es.any (Entry.fails st') = false
  self : c'.states[st]? = some (if tree.erase.isSignal then signal s else s)

/-- The loop over `trees` in a setter of `st`. -/
structure LoopEnds (a : Answers α ε) (t : Nat) (c c' : Config α ε) (st : StateId)
    (s : State α ε) (trees : List (Tree α ε)) (k : List (Frame α ε)) (es : List (Entry ε)) :
    Prop where
  ran : Ran a t c c' (raised (leavesAll trees) k) (es ++ raisedLog (leavesAll trees) k)
    (setsAll trees)
  calls : callsAll trees = invokedIds es
  done : DoneAll c' trees
  fails : ∀ st', st' ∉ st :: statesAll trees → es.any (Entry.fails st') = false
  broke : es.any (Entry.fails st) = (leavesAll trees).isSome
  self : c'.states[st]? = some
    (if (setters.drain (eraseAll trees)).1.any setters.Continuation.isSignal then signal s else s)

theorem signal_ends (a : Answers α ε) {t : Nat} {c : Config α ε} {i : Id} {st : StateId}
    {s : State α ε} {k : List (Frame α ε)} (hf : c.fault = none)
    (hk : c.threads[t]? = some (.exec (.signal st) :: .invoking i :: k))
    (hs : c.states[st]? = some s) :
    ∃ c', CallEnds a t c c' st s (.signal i st) k [] := by
  have hnext : a.next (.exec (.signal st) :: .invoking i :: k) = some (.tick none) := by
    simp [Answers.next]
  have hstep : step c (t, .tick none) =
      some ((c.update st (signal s)).put t (.invoking i :: k)) := by
    rw [step_library hf hk (by simp)]
    simp [tick, exec, hs]
  have hran : Ran a t c ((c.update st (signal s)).put t (.invoking i :: k)) (.invoking i :: k) []
      [st] := by
    refine Ran.one hk hnext hstep rfl (List.append_nil _).symm ?_ ⟨rfl, rfl, rfl⟩ rfl
    intro st' hst'
    simp only [List.mem_singleton] at hst'
    exact update_ne (c := c) _ (fun he => hst' he.symm)
  have hran' := invoking_ends a (hran.fault.trans hf) (hran.top hk)
  refine ⟨((c.update st (signal s)).put t (.invoking i :: k)).put t k, ?_, ?_, ?_, ?_, ?_⟩
  · simpa [Tree.leaves, Tree.erase, setters.invoke, raised, raisedLog, Tree.sets] using
      hran.trans hran'
  · simp [Tree.calls, Tree.entry, invokedIds]
  · simp [Tree.Done]
  · simp
  · have hself := update_self (c := c) (signal s) hs
    simpa [Tree.erase, setters.Continuation.isSignal, Config.put] using hself

theorem function_called (a : Answers α ε) {t : Nat} {c : Config α ε} {i : Id} {f : Nat}
    {st : StateId} {s : State α ε} {k : List (Frame α ε)} (hf : c.fault = none)
    (hk : c.threads[t]? = some (.exec (.call f) :: .invoking i :: k))
    (hs : c.states[st]? = some s) :
    ∃ c', CallEnds a t c c' st s (.call i f (a.throws i)) k [] := by
  have hnext : a.next (.exec (.call f) :: .invoking i :: k) = some (.tick none) := by
    simp [Answers.next]
  have hstep : step c (t, .tick none) = some (c.put t (.user (.fn f) :: .invoking i :: k)) := by
    rw [step_library hf hk (by simp)]
    simp [tick, exec]
  have hran := Ran.put hk hnext hstep
  have hf' := hran.fault.trans hf
  have hk' := hran.top hk
  have hends : ∃ c', c'.states = c.states ∧
      Ran a t c c' (raised (a.throws i) k) (raisedLog (a.throws i) (.invoking i :: k)) [] := by
    cases hx : a.throws i with
    | none =>
      have hnext' : a.next (.user (.fn f) :: .invoking i :: k) = some (.ret .unit) := by
        simp [Answers.next, hx]
      have hstep' : step (c.put t (.user (.fn f) :: .invoking i :: k)) (t, .ret .unit) =
          some ((c.put t (.user (.fn f) :: .invoking i :: k)).put t (.invoking i :: k)) := by
        rw [step_user hf' hk']
        simp [call]
      have hran' := Ran.put hk' hnext' hstep'
      have hran'' := invoking_ends a (hran'.fault.trans hf') (hran'.top hk')
      refine ⟨((c.put t (.user (.fn f) :: .invoking i :: k)).put t (.invoking i :: k)).put t k,
        rfl, ?_⟩
      simpa [raised, raisedLog] using (hran.trans hran').trans hran''
    | some x =>
      have hnext' : a.next (.user (.fn f) :: .invoking i :: k) = some (.throw_ x) := by
        simp [Answers.next, hx]
      have hstep' : step (c.put t (.user (.fn f) :: .invoking i :: k)) (t, .throw_ x) =
          some (throwTo (c.put t (.user (.fn f) :: .invoking i :: k)) t x (.invoking i :: k)) := by
        rw [step_user hf' hk']
        simp [call]
      have hran' : Ran a t (c.put t (.user (.fn f) :: .invoking i :: k)) _ (raised (some x) k)
          (raisedLog (some x) (.invoking i :: k)) [] :=
        Ran.one hk' hnext' hstep' rfl rfl (fun _ _ => rfl) ⟨rfl, rfl, rfl⟩ rfl
      refine ⟨throwTo (c.put t (.user (.fn f) :: .invoking i :: k)) t x (.invoking i :: k), rfl, ?_⟩
      simpa using hran.trans hran'
  obtain ⟨c', hc', hran'⟩ := hends
  refine ⟨c', ?_, ?_, ?_, ?_, ?_⟩
  · simpa [Tree.leaves, Tree.erase, setters.invoke, Tree.entry, Tree.sets] using hran'
  · simp [Tree.calls, Tree.entry, invokedIds]
  · simp [Tree.Done]
  · simp
  · rw [hc', hs]
    simp [Tree.erase, setters.Continuation.isSignal]

/-- The call of a continuation of `then` ends, when the loop over its dependents does. -/
theorem then_ends (a : Answers α ε) {t : Nat} {c : Config α ε} {i : Id} {src st rs : StateId}
    {func : Func} {r r' : Except (Exception ε) (Value α)} {built : Option (Exception ε)}
    {dependents : List (Tree α ε)} {s : State α ε} {k : List (Frame α ε)} (hf : c.fault = none)
    (hk : c.threads[t]? = some (.exec (.invoke_and_set_value src rs func) :: .invoking i :: k))
    (hs : c.states[st]? = some s) (hr : get s = some r)
    (hshown : (Tree.then_ i src rs func r' built dependents).Shown a c st r)
    (hnd : (st :: rs :: statesAll dependents).Nodup)
    (loop : ∀ c₁ s₁ k₁, c₁.fault = none →
      c₁.threads[t]? = some (.drain rs (dependents.map Tree.entry) :: k₁) →
      c₁.states[rs]? = some s₁ → get s₁ = some (settled r' built) →
      ShownAll a c₁ rs (settled r' built) dependents →
      ∃ c₂ es, LoopEnds a t c₁ c₂ rs s₁ dependents k₁ es) :
    ∃ c' es, CallEnds a t c c' st s (.then_ i src rs func r' built dependents) k es := by
  simp only [Tree.Shown] at hshown
  obtain ⟨rfl, hplain, rfl, rfl, ⟨s₀, hs₀, hready, hcs⟩, hdeps⟩ := hshown
  have hout : outcome c src = some r := (outcome_eq hs).trans hr
  rw [List.nodup_cons, List.nodup_cons, List.mem_cons, not_or] at hnd
  obtain ⟨⟨hne, hsrc⟩, hrs, -⟩ := hnd
  -- the function, and the setter up to its loop
  obtain ⟨c₁, hc₁, hran₁⟩ := function_ends a hf hk hplain hout
  have hs₁ : c₁.states[rs]? = some s₀ := by rw [hc₁, hs₀]
  obtain ⟨c₂, s₂, es₁, hs₂, hget₂, honly₁, hran₂⟩ :=
    result_stored a (hran₁.fault.trans hf) (hran₁.top hk) hs₁ hready
  have hran₁₂ := hran₁.trans hran₂
  rw [hcs] at hran₁₂
  -- the loop
  have hdeps₂ : ShownAll a c₂ rs (settled (func.result a i r) (a.built i)) dependents := by
    apply ShownAll.grows dependents _ hdeps
    intro st' hst'
    apply hran₁₂.frame
    simpa using ne_of_mem_of_not_mem hst' hrs
  obtain ⟨c₃, es₂, hloop⟩ := loop c₂ s₂ _ (hran₁₂.fault.trans hf) (hran₁₂.top hk) hs₂ hget₂ hdeps₂
  have hran₁₃ := hran₁₂.trans hloop.ran
  -- and what comes after it
  have hout₃ : outcome c₃ rs = some (settled (func.result a i r) (a.built i)) := by
    rw [outcome_eq hloop.self, ← hget₂]
    split
    · simp [signal, future_state.get]
    · simp
  obtain ⟨c₄, es₃, es₄, hc₄, honly₄, hran₄, hes⟩ :=
    guard_ends a src func (hran₁₃.fault.trans hf) (hran₁₃.top hk)
      (ready_iff_outcome.mpr (by rw [hout₃]; simp))
  have hran := hran₁₃.trans hran₄
  refine ⟨c₄, es₁ ++ es₂ ++ es₄, ?_, ?_, ?_, ?_, ?_⟩
  · simpa [Tree.sets, Tree.entry, hes] using hran
  · simp [Tree.calls, Tree.entry, invokedIds_append, honly₁.1, honly₄.1, hloop.calls]
  · simp only [Tree.Done, outcome, hc₄]
    exact ⟨hout₃, DoneAll.grows dependents (fun st' _ => by simp [outcome, hc₄]) hloop.done⟩
  · intro st' hst'
    simp only [Tree.states, List.mem_cons, not_or] at hst'
    have hloop' := hloop.fails st' (by simpa using hst')
    simp [honly₁.2 st' hst'.1, honly₄.2 st' hst'.1, hloop']
  · have hself : c₄.states[src]? = c.states[src]? := by
      apply hran.frame
      simp only [List.nil_append, List.append_nil, List.mem_append, List.mem_singleton, not_or]
      refine ⟨hne, fun hmem => ?_⟩
      rcases ShownAll.sets dependents hdeps src hmem with h | h
      · exact hne h
      · exact hsrc h
    simpa [Tree.erase, setters.Continuation.isSignal] using hself.trans hs

/-- The loop goes to its next continuation. -/
theorem loop_calls (a : Answers α ε) {t : Nat} {c : Config α ε} {st : StateId} {tree : Tree α ε}
    {trees : List (Tree α ε)} {k : List (Frame α ε)} (hf : c.fault = none)
    (hk : c.threads[t]? = some (.drain st ((tree :: trees).map Tree.entry) :: k)) :
    ∃ c', c'.states = c.states ∧
      Ran a t c c' (.exec tree.entry.2 :: .invoking tree.entry.1 ::
        .drain st (trees.map Tree.entry) :: k) [.invoked tree.entry.1] [] := by
  have hnext : a.next (.drain st ((tree :: trees).map Tree.entry) :: k) = some (.tick none) := by
    simp [Answers.next]
  have hstep : step c (t, .tick none) = some ((c.note [.invoked tree.entry.1]).put t
      (.exec tree.entry.2 :: .invoking tree.entry.1 :: .drain st (trees.map Tree.entry) :: k)) := by
    rw [step_library hf hk (by simp)]
    simp [tick]
  refine ⟨(c.note [.invoked tree.entry.1]).put t (.exec tree.entry.2 :: .invoking tree.entry.1 ::
    .drain st (trees.map Tree.entry) :: k), rfl, ?_⟩
  exact Ran.one hk hnext hstep rfl rfl (fun _ _ => rfl) ⟨rfl, rfl, rfl⟩ rfl

/-- An exception leaves the call of a continuation, and the loop with it. -/
theorem loop_breaks {a : Answers α ε} {t : Nat} {c c₁ c₂ : Config α ε} {st : StateId}
    {s : State α ε} {tree : Tree α ε} {trees : List (Tree α ε)} {k : List (Frame α ε)}
    {es : List (Entry ε)} {x : Exception ε} (hx : tree.leaves = some x)
    (hran : Ran a t c c₁ (.exec tree.entry.2 :: .invoking tree.entry.1 ::
      .drain st (trees.map Tree.entry) :: k) [.invoked tree.entry.1] [])
    (hcall : CallEnds a t c₁ c₂ st s tree (.drain st (trees.map Tree.entry) :: k) es) :
    LoopEnds a t c c₂ st s (tree :: trees) k
      ([.invoked tree.entry.1] ++ es ++ [.escaped tree.entry.1, .broke st]) := by
  have hleaves : leavesAll (tree :: trees) = some x := by simp [leavesAll_cons, hx]
  have hran' := hran.trans hcall.ran
  refine ⟨?_, ?_, ?_, ?_, ?_, ?_⟩
  · simpa [hleaves, hx, raised, raisedLog, raise, setsAll] using hran'
  · simp [callsAll, hx, hcall.calls, invokedIds, Entry.called]
  · simp [DoneAll, hcall.done, hx]
  · intro st' hst'
    simp only [statesAll, List.mem_cons, List.mem_append, not_or] at hst'
    have hcall' := hcall.fails st' hst'.2.1
    simp [Entry.fails, hcall', Ne.symm hst'.1]
  · simp [Entry.fails, hleaves]
  · have hdrain : (setters.drain (eraseAll (tree :: trees))).1 = [tree.erase] := by
      simp only [Tree.leaves] at hx
      simp [eraseAll, setters.drain, hx]
    simpa [hdrain] using hcall.self

/-- The call of a continuation returns, and the loop goes on to its end. -/
theorem loop_goes_on {a : Answers α ε} {t : Nat} {c c₁ c₂ c₃ : Config α ε} {st : StateId}
    {s s₂ : State α ε} {tree : Tree α ε} {trees : List (Tree α ε)} {k : List (Frame α ε)}
    {es es' : List (Entry ε)} (hx : tree.leaves = none)
    (hran : Ran a t c c₁ (.exec tree.entry.2 :: .invoking tree.entry.1 ::
      .drain st (trees.map Tree.entry) :: k) [.invoked tree.entry.1] [])
    (hcall : CallEnds a t c₁ c₂ st s tree (.drain st (trees.map Tree.entry) :: k) es)
    (hs₂ : s₂ = if tree.erase.isSignal then signal s else s)
    (hloop : LoopEnds a t c₂ c₃ st s₂ trees k es') (hnd : (st :: statesAll (tree :: trees)).Nodup)
    (hsets : ∀ rs ∈ setsAll trees, rs = st ∨ rs ∈ statesAll trees) :
    LoopEnds a t c c₃ st s (tree :: trees) k ([.invoked tree.entry.1] ++ es ++ es') := by
  have hleaves : leavesAll (tree :: trees) = leavesAll trees := by simp [leavesAll_cons, hx]
  have hran' := (hran.trans hcall.ran).trans hloop.ran
  simp only [statesAll, List.nodup_cons, List.mem_append, not_or] at hnd
  obtain ⟨⟨hst, -⟩, hnd⟩ := hnd
  rw [List.nodup_append] at hnd
  refine ⟨?_, ?_, ?_, ?_, ?_, ?_⟩
  · simpa [hleaves, hx, raisedLog, setsAll] using hran'
  · simp [callsAll, hx, hcall.calls, hloop.calls, invokedIds, Entry.called]
  · simp only [DoneAll]
    refine ⟨Tree.Done.grows tree ?_ hcall.done, fun _ => hloop.done⟩
    intro rs hrs
    have hframe : c₃.states[rs]? = c₂.states[rs]? := by
      apply hloop.ran.frame
      intro hmem
      rcases hsets rs hmem with rfl | hmem
      · exact hst hrs
      · exact hnd.2.2 rs hrs rs hmem rfl
    simp [outcome, hframe]
  · intro st' hst'
    simp only [statesAll, List.mem_cons, List.mem_append, not_or] at hst'
    have hcall' := hcall.fails st' hst'.2.1
    have hloop' := hloop.fails st' (by simp [hst'.1, hst'.2.2])
    simp [Entry.fails, hcall', hloop']
  · have hcall' := hcall.fails st hst
    simp [Entry.fails, hcall', hloop.broke, hleaves]
  · have hdrain : (setters.drain (eraseAll (tree :: trees))).1 =
        tree.erase :: (setters.drain (eraseAll trees)).1 := by
      simp only [Tree.leaves] at hx
      simp [eraseAll, setters.drain, hx]
    rw [hloop.self, hdrain, hs₂]
    cases ht : tree.erase.isSignal <;> simp [signal, ht]

mutual

/-- A thread that is left alone ends the call of a continuation as `invoke` says. -/
theorem call_runs (a : Answers α ε) {t : Nat} : (tree : Tree α ε) → ∀ {c : Config α ε}
    {st : StateId} {s : State α ε} {r : Except (Exception ε) (Value α)} {k : List (Frame α ε)},
    c.fault = none → c.threads[t]? = some (.exec tree.entry.2 :: .invoking tree.entry.1 :: k) →
    c.states[st]? = some s → get s = some r → tree.Shown a c st r → (st :: tree.states).Nodup →
    ∃ c' es, CallEnds a t c c' st s tree k es
  | .signal i st', c, st, s, r, k, hf, hk, hs, _, hshown, _ => by
    simp only [Tree.Shown] at hshown
    obtain rfl := hshown
    obtain ⟨c', h⟩ := signal_ends a hf hk hs
    exact ⟨c', [], h⟩
  | .call i f throws, c, st, s, r, k, hf, hk, hs, _, hshown, _ => by
    simp only [Tree.Shown] at hshown
    obtain rfl := hshown
    obtain ⟨c', h⟩ := function_called a hf hk hs
    exact ⟨c', [], h⟩
  | .then_ i src rs func r' built dependents, c, st, s, r, k, hf, hk, hs, hr, hshown, hnd => by
    apply then_ends a hf hk hs hr hshown hnd
    intro c₁ s₁ k₁ hf₁ hk₁ hs₁ hr₁ hdeps
    exact loop_runs a dependents hf₁ hk₁ hs₁ hr₁ hdeps (List.nodup_cons.mp hnd).2

/-- It ends the loop over continuations as `drain` says. -/
theorem loop_runs (a : Answers α ε) {t : Nat} : (trees : List (Tree α ε)) → ∀ {c : Config α ε}
    {st : StateId} {s : State α ε} {r : Except (Exception ε) (Value α)} {k : List (Frame α ε)},
    c.fault = none → c.threads[t]? = some (.drain st (trees.map Tree.entry) :: k) →
    c.states[st]? = some s → get s = some r → ShownAll a c st r trees →
    (st :: statesAll trees).Nodup → ∃ c' es, LoopEnds a t c c' st s trees k es
  | [], c, st, s, r, k, hf, hk, hs, _, _, _ => by
    have hnext : a.next (.drain st [] :: k) = some (.tick none) := by simp [Answers.next]
    have hran : Ran a t c (c.put t k) k [] [] := by
      apply Ran.put hk hnext
      rw [step_library hf hk (by simp)]
      simp [tick]
    refine ⟨c.put t k, [], ?_, ?_, ?_, ?_, ?_, ?_⟩
    · simpa [leavesAll, eraseAll, setters.drain, raised, raisedLog, setsAll] using hran
    · simp [callsAll, invokedIds]
    · simp [DoneAll]
    · simp
    · simp [leavesAll, eraseAll, setters.drain]
    · simpa [eraseAll, setters.drain, Config.put] using hs
  | tree :: trees, c, st, s, r, k, hf, hk, hs, hr, hshown, hnd => by
    simp only [ShownAll] at hshown
    have hnd' := hnd
    simp only [statesAll, List.nodup_cons, List.mem_append, not_or] at hnd'
    obtain ⟨⟨hst, hst'⟩, hboth⟩ := hnd'
    rw [List.nodup_append] at hboth
    obtain ⟨c₁, hc₁, hran⟩ := loop_calls a hf hk
    have hshown₁ : tree.Shown a c₁ st r := Tree.Shown.grows tree (by simp [hc₁]) hshown.1
    obtain ⟨c₂, es, hcall⟩ := call_runs a tree (hran.fault.trans hf) (hran.top hk)
      (by rw [hc₁, hs]) hr hshown₁ (List.nodup_cons.mpr ⟨hst, hboth.1⟩)
    cases hx : tree.leaves with
    | some x => exact ⟨c₂, _, loop_breaks hx hran hcall⟩
    | none =>
      have hran₂ := hran.trans hcall.ran
      have hk₂ := hran₂.top hk
      simp only [hx, raised] at hk₂
      have hr₂ : get (if tree.erase.isSignal then signal s else s) = some r := by
        split
        · simpa [signal, future_state.get] using hr
        · exact hr
      have hshown₂ : ShownAll a c₂ st r trees := by
        apply ShownAll.grows trees _ hshown.2
        intro rs hrs
        apply hran₂.frame
        intro hmem
        simp only [List.nil_append] at hmem
        rcases Tree.Shown.sets tree hshown.1 rs hmem with rfl | hmem
        · exact hst' hrs
        · exact hboth.2.2 rs hmem rs hrs rfl
      obtain ⟨c₃, es', hloop⟩ := loop_runs a trees (hran₂.fault.trans hf) hk₂ hcall.self hr₂
        hshown₂ (List.nodup_cons.mpr ⟨hst', hboth.2.1⟩)
      exact ⟨c₃, _, loop_goes_on hx hran hcall rfl hloop hnd (ShownAll.sets trees hshown.2)⟩

end

/-! ## The whole call -/

/-- The state `s`, whose continuations are `trees`, as `Ltl.Setters` has it. -/
def view (s : State α ε) (trees : List (Tree α ε)) : setters.State (Value α) ε :=
  { value_ := s.value_, continuations_ := eraseAll trees, await_queue_ := s.await_queue_,
    block_ := s.block_, exception_ := s.exception_ }

/-- The call of a setter of the promise `p` by client code. -/
def setterAction (p : StateId) : setters.Setter (Value α) ε → Action α ε
  | .value v built allow => .set_value p v built allow
  | .exception x => .set_exception p (some x)

/-- What the setter stores, if it stores anything. -/
def setterOutcome : setters.Setter (Value α) ε → Except (Exception ε) (Value α)
  | .value v _ _ => .ok v
  | .exception x => .error x

/-- From `c` to `c'` a setter of `p` has done what `r` says: its thread is back in the code of the
client, the continuations that `r` has called have been called with all below them, in order, and
the setter has thrown if `r` says so. -/
structure Agrees (c c' : Config α ε) (p : StateId) (trees : List (Tree α ε))
    (r : setters.Result (Value α) ε) : Prop where
  back : c'.threads = c.threads
  state : ∃ s' trees', c'.states[p]? = some s' ∧ s'.continuations_ = trees'.map Tree.entry ∧
    view s' trees' = r.state
  ran : r.ran = (trees.take r.ran.length).map Tree.erase
  log : ∃ es, c'.log = c.log ++ es ∧
    invokedIds es = (trees.take r.ran.length).flatMap Tree.calls ∧
    es.any (Entry.fails p) = r.thrown.isSome
  results : ∀ tree ∈ trees.take r.ran.length, tree.Done c'
  frame : ∀ st, st ≠ p → st ∉ statesAll trees → c'.states[st]? = c.states[st]?
  rest : c'.promises = c.promises ∧ c'.counters = c.counters ∧ c'.sources = c.sources
  fault : c'.fault = c.fault

/-- The loop has called the first of its continuations. -/
theorem drain_take (trees : List (Tree α ε)) :
    (setters.drain (eraseAll trees)).1 =
      (trees.take (setters.drain (eraseAll trees)).1.length).map Tree.erase := by
  induction trees with
  | nil => simp [eraseAll, setters.drain]
  | cons tree trees ih =>
    simp only [eraseAll, setters.drain]
    cases setters.invoke tree.erase with
    | some x => simp
    | none => simpa using ih

theorem callsAll_take (trees : List (Tree α ε)) :
    callsAll trees =
      (trees.take (setters.drain (eraseAll trees)).1.length).flatMap Tree.calls := by
  induction trees with
  | nil => simp [callsAll]
  | cons tree trees ih =>
    simp only [callsAll, eraseAll, setters.drain, Tree.leaves]
    rcases Option.eq_none_or_eq_some (setters.invoke tree.erase) with hx | ⟨x, hx⟩
    · simpa [hx] using ih
    · simp [hx]

theorem doneAll_take {c : Config α ε} {trees : List (Tree α ε)} (h : DoneAll c trees) :
    ∀ tree ∈ trees.take (setters.drain (eraseAll trees)).1.length, tree.Done c := by
  induction trees with
  | nil => simp
  | cons tree trees ih =>
    simp only [DoneAll, Tree.leaves] at h
    simp only [eraseAll, setters.drain]
    cases hx : setters.invoke tree.erase with
    | some x => simpa using h.1
    | none =>
      simp only [List.length_cons, List.take_succ_cons, List.forall_mem_cons]
      exact ⟨h.1, ih (h.2 hx)⟩

/-- A setter that leaves the state as it is. -/
theorem unchanged_agrees {c : Config α ε} {p : StateId} {s : State α ε}
    {trees : List (Tree α ε)} (hs : c.states[p]? = some s)
    (hcs : s.continuations_ = trees.map Tree.entry) {e : Entry ε} (he : e.called = none)
    {thrown : Option (Exception ε)} (ht : Entry.fails p e = thrown.isSome) :
    Agrees c (c.note [e]) p trees ⟨view s trees, [], thrown⟩ := by
  refine ⟨rfl, ⟨s, trees, hs, hcs, rfl⟩, by simp, ⟨[e], rfl, ?_, ?_⟩, by simp,
    fun _ _ _ => rfl, ⟨rfl, rfl, rfl⟩, rfl⟩
  · simp [invokedIds, he]
  · simpa using ht

/-- A setter that stores, and the loop that it runs. -/
theorem stored_agrees {a : Answers α ε} {t : Nat} {c c₁ c₂ : Config α ε} {p : StateId} {b : Body}
    {s s' : State α ε} {trees : List (Tree α ε)} {k : List (Frame α ε)} {es : List (Entry ε)}
    {allow : Bool} {r : Except (Exception ε) (Value α)}
    (hk : c.threads[t]? = some (.user b :: k)) (hcs' : s'.continuations_ = [])
    (hc₁ : c₁ = ((c.note [.set p allow
      (.stored (s.continuations_.map Prod.fst))]).update p s').put t
        (.drain p s.continuations_ :: .user b :: k))
    (hloop : LoopEnds a t c₁ c₂ p s' trees (.user b :: k) es)
    (hshown : ShownAll a c p r trees) :
    Agrees c c₂ p trees (setters.finish (.stored (eraseAll trees), view s' [])) := by
  have hback : raised (leavesAll trees) (.user b :: k) = .user b :: k := by
    cases leavesAll trees <;> simp [raised, raise]
  have hquiet : raisedLog (leavesAll trees) (.user b :: k) = [] := by
    cases leavesAll trees <;> simp [raisedLog, raise]
  have hran := hloop.ran
  rw [hback, hquiet, List.append_nil] at hran
  subst hc₁
  refine ⟨?_, ?_, drain_take trees, ?_, doneAll_take hloop.done, ?_, hran.rest, hran.fault⟩
  · rw [hran.stack]
    simp only [Config.put, List.set_set]
    have hput := put_self hk
    exact congrArg Config.threads hput
  · refine ⟨_, [], hloop.self, ?_, ?_⟩
    · split <;> simp [signal, hcs']
    · simp only [setters.finish]
      split <;> simp [view, signal]
  · refine ⟨[.set p allow (.stored (s.continuations_.map Prod.fst))] ++ es, ?_, ?_, ?_⟩
    · rw [hran.log]
      simp [Config.put, Config.update, Config.note]
    · have hcalls := hloop.calls
      rw [callsAll_take] at hcalls
      rw [invokedIds_append, ← hcalls]
      simp [invokedIds, Entry.called, setters.finish]
    · simpa [Entry.fails, setters.finish, leavesAll] using hloop.broke
  · intro st hne hst
    rw [hran.frame st ?_]
    · exact update_ne (c := c.note _) s' (Ne.symm hne)
    · intro hmem
      rcases ShownAll.sets trees hshown st hmem with h | h
      · exact hne h
      · exact hst h

/-- The call of a setter by a thread that is then left alone does what `run` says, when the states
below `p` make a forest. -/
theorem setter_agrees (a : Answers α ε) {t : Nat} {c : Config α ε} {p : StateId} {b : Body}
    {s : State α ε} {trees : List (Tree α ε)} {k : List (Frame α ε)}
    (m : setters.Setter (Value α) ε) (hf : c.fault = none)
    (hk : c.threads[t]? = some (.user b :: k)) (hp : p ∈ c.promises) (hs : c.states[p]? = some s)
    (hcs : s.continuations_ = trees.map Tree.entry)
    (hshown : ShownAll a c p (setterOutcome m) trees) (hnd : (p :: statesAll trees).Nodup) :
    ∃ c₁ c₂, step c (t, setterAction p m) = some c₁ ∧ Reach step (Alone a t) c₁ c₂ ∧
      Agrees c c₂ p trees (setters.run (view s trees) m) := by
  have hput : ∀ e : Entry ε, (c.note [e]).put t (.user b :: k) = c.note [e] :=
    fun e => put_self (c := c.note [e]) hk
  -- the locked part leaves the state as it is
  have left : ∀ e thrown, step c (t, setterAction p m) = some (c.note [e]) → e.called = none →
      Entry.fails p e = Option.isSome thrown →
      setters.run (view s trees) m = ⟨view s trees, [], thrown⟩ →
      ∃ c₁ c₂, step c (t, setterAction p m) = some c₁ ∧ Reach step (Alone a t) c₁ c₂ ∧
        Agrees c c₂ p trees (setters.run (view s trees) m) := by
    intro e thrown hstep he ht hrun
    rw [hrun]
    exact ⟨_, _, hstep, Reach.start _, unchanged_agrees hs hcs he ht⟩
  -- it stores, and the loop is next
  have stored : ∀ allow s', step c (t, setterAction p m) = some (((c.note [.set p allow
        (.stored (s.continuations_.map Prod.fst))]).update p s').put t
          (.drain p s.continuations_ :: .user b :: k)) → s'.continuations_ = [] →
      get s' = some (setterOutcome m) →
      setters.run (view s trees) m = setters.finish (.stored (eraseAll trees), view s' []) →
      ∃ c₁ c₂, step c (t, setterAction p m) = some c₁ ∧ Reach step (Alone a t) c₁ c₂ ∧
        Agrees c c₂ p trees (setters.run (view s trees) m) := by
    intro allow s' hstep hcs' hget hrun
    obtain ⟨c₁, hc₁⟩ : ∃ c₁, c₁ = ((c.note [.set p allow
        (.stored (s.continuations_.map Prod.fst))]).update p s').put t
          (.drain p s.continuations_ :: .user b :: k) := ⟨_, rfl⟩
    have hf₁ : c₁.fault = none := by rw [hc₁, ← hf]; rfl
    have hk₁ : c₁.threads[t]? = some (.drain p (trees.map Tree.entry) :: .user b :: k) := by
      rw [hc₁, ← hcs]
      exact put_top (c := (c.note _).update p s') hk
    have hs₁ : c₁.states[p]? = some s' := by
      rw [hc₁]
      exact update_self (c := c.note _) s' hs
    have hshown₁ : ShownAll a c₁ p (setterOutcome m) trees := by
      apply ShownAll.grows trees _ hshown
      intro st hst
      have hne : p ≠ st := fun he => (List.nodup_cons.mp hnd).1 (he ▸ hst)
      rw [hc₁]
      exact update_ne (c := c.note _) s' hne
    obtain ⟨c₂, es, hloop⟩ := loop_runs a trees hf₁ hk₁ hs₁ hget hshown₁ hnd
    rw [hrun]
    exact ⟨c₁, c₂, by rw [hstep, hc₁], hloop.ran.reach, stored_agrees hk hcs' hc₁ hloop hshown⟩
  cases hr : ready s with
  | true =>
    have hr' : ready (view s trees) = true := hr
    cases m with
    | value v built allow =>
      cases allow with
      | true =>
        apply left (.set p true .already) (some .promise_already_satisfied)
        · simp [step, hf, hk, setterAction, call, hp, lockedSet, hs, set_value_impl, hr, hput]
        · simp [Entry.called]
        · simp [Entry.fails]
        · simp [setters.run, setters.Setter.locked, set_value_impl, hr', setters.finish]
      | false =>
        apply left (.set p false .ignored) none
        · simp [step, hf, hk, setterAction, call, hp, lockedSet, hs, set_value_impl, hr, hput]
        · simp [Entry.called]
        · simp [Entry.fails]
        · simp [setters.run, setters.Setter.locked, set_value_impl, hr', setters.finish]
    | exception x =>
      apply left (.set p true .already) (some .promise_already_satisfied)
      · simp [step, hf, hk, setterAction, call, hp, lockedSet, hs, set_exception, hr, hput]
      · simp [Entry.called]
      · simp [Entry.fails]
      · simp [setters.run, setters.Setter.locked, set_exception, hr', setters.finish]
  | false =>
    have hr' : ready (view s trees) = false := hr
    cases m with
    | value v built allow =>
      cases built with
      | some x =>
        apply left (.set p allow (.built x)) (some x)
        · simp [step, hf, hk, setterAction, call, hp, lockedSet, hs, set_value_impl, hr, storedAs,
            hput]
        · simp [Entry.called]
        · simp [Entry.fails]
        · simp [setters.run, setters.Setter.locked, set_value_impl, hr', setters.finish,
            setters.storedAs]
      | none =>
        apply stored allow { s with value_ := some v, continuations_ := [] }
        · simp [step, hf, hk, setterAction, call, hp, lockedSet, hs, set_value_impl, hr, storedAs]
        · simp
        · simp only [ready, Bool.or_eq_false_iff, Option.isSome_eq_false_iff,
            Option.isNone_iff_eq_none] at hr
          simp [future_state.get, hr.2, setterOutcome]
        · simp only [setters.run, setters.Setter.locked, set_value_impl, hr', setters.storedAs]
          simp [view, eraseAll]
    | exception x =>
      apply stored true { s with exception_ := some x, continuations_ := [] }
      · simp [step, hf, hk, setterAction, call, hp, lockedSet, hs, set_exception, hr]
      · simp
      · simp [future_state.get, setterOutcome]
      · simp only [setters.run, setters.Setter.locked, set_exception, hr']
        simp [view, eraseAll]

end ltl.futures
