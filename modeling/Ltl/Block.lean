-- A block (block.hpp) with its mutex and its condition variable: `signal` acts
-- like the store of a flag, `wait` like a wait for it, and after a `signal`
-- nobody sleeps on.
import Ltl.Counts
import Ltl.Simulation

open runs counts

namespace ltl.block

/-! ## The block -/

/-- Where a thread is: outside, before the lock of `wait` (`w`) or `signal`, at the test of
`signalled_` with the lock, asleep in `cv_.wait`, before the store, before `notify_all`, or before
the unlock. -/
inductive Place where
  | outside
  | lock (w : Bool)
  | test (w : Bool)
  | asleep
  | store
  | notify_all
  | unlock
  deriving DecidableEq, Repr

/-- `mutex_` has the thread that owns it. -/
structure Block where
  signalled_ : Bool := false
  mutex_ : Option Nat := none
  threads : List Place
  deriving DecidableEq, Repr

inductive Event where
  | wait (t : Nat)
  | signal (t : Nat)
  | go (t : Nat)
  /-- `cv_.wait` may wake up by itself. -/
  | wake (t : Nat)
  deriving DecidableEq, Repr

def Place.notified : Place → Place
  | .asleep => .lock true
  | p => p

/-- `n` threads, none of them in a call. -/
def init (n : Nat) : Block := { threads := List.replicate n .outside }

namespace Block

def put (b : Block) (t : Nat) (p : Place) : Block := { b with threads := b.threads.set t p }

end Block

/-- Thread `t` goes on from `p`. A `cv_.wait` that finds its predicate false gives the lock back and
sleeps. -/
def go (b : Block) (t : Nat) (p : Place) : Option Block :=
  match p with
  | .outside | .asleep => none
  | .lock w => if b.mutex_ = none then some ({ b with mutex_ := some t }.put t (.test w)) else none
  | .test true =>
    if b.signalled_ then some (b.put t .unlock)
    else some ({ b with mutex_ := none }.put t .asleep)
  | .test false => some (b.put t (if b.signalled_ then .unlock else .store))
  | .store => some ({ b with signalled_ := true }.put t .notify_all)
  | .notify_all => some ({ b with threads := b.threads.map .notified }.put t .unlock)
  | .unlock => some ({ b with mutex_ := none }.put t .outside)

def step (b : Block) : Event → Option Block
  | .wait t => if b.threads[t]? = some .outside then some (b.put t (.lock true)) else none
  | .signal t => if b.threads[t]? = some .outside then some (b.put t (.lock false)) else none
  | .go t => (b.threads[t]?).bind (go b t)
  | .wake t => if b.threads[t]? = some .asleep then some (b.put t (.lock true)) else none

/-! ## The flag -/

/-- Where a thread is in a call that takes one step. -/
inductive Call where
  | outside
  | wait
  | signal
  | returning
  deriving DecidableEq, Repr

/-- What a block is for: a flag that is stored once and waited for. -/
structure Flag where
  signalled : Bool := false
  threads : List Call
  deriving DecidableEq, Repr

inductive FlagEvent where
  | call (t : Nat) (w : Bool)
  | set (t : Nat)
  /-- A wait ends, which it does only when the flag is set. -/
  | pass (t : Nat)
  | ret (t : Nat)
  deriving DecidableEq, Repr

def Flag.put (f : Flag) (t : Nat) (p : Call) : Flag := { f with threads := f.threads.set t p }

def flagStep (f : Flag) : FlagEvent → Option Flag
  | .call t w =>
    if f.threads[t]? = some .outside then some (f.put t (if w then .wait else .signal)) else none
  | .set t =>
    if f.threads[t]? = some .signal then some ({ f with signalled := true }.put t .returning)
    else none
  | .pass t =>
    if f.threads[t]? = some .wait ∧ f.signalled = true then some (f.put t .returning) else none
  | .ret t =>
    if f.threads[t]? = some .returning then some (f.put t .outside) else none

/-- The part of a call that a place belongs to. -/
def Place.call : Place → Call
  | .outside => .outside
  | .lock true | .test true | .asleep => .wait
  | .lock false | .test false | .store => .signal
  | .notify_all | .unlock => .returning

def flag (b : Block) : Flag := ⟨b.signalled_, b.threads.map Place.call⟩

@[simp] theorem call_notified (p : Place) : p.notified.call = p.call := by cases p <;> rfl

theorem flag_at {b : Block} {t : Nat} {p : Place} (h : b.threads[t]? = some p) :
    (flag b).threads[t]? = some p.call := by simp [flag, h]

@[simp] theorem flag_put (b : Block) (t : Nat) (p : Place) :
    flag (b.put t p) = (flag b).put t p.call := by
  simp [flag, Block.put, Flag.put, List.map_set]

/-- A thread moves on within one part of its call. -/
theorem flag_stays {b : Block} {t : Nat} {p p' : Place} (h : b.threads[t]? = some p)
    (hc : p'.call = p.call) : (flag b).put t p'.call = flag b := by
  obtain ⟨hlt, hp⟩ := List.getElem?_eq_some_iff.mp (flag_at h)
  rw [hc, ← hp]
  simp [Flag.put]

/-- What each event finds, and what it leaves. -/
inductive Steps (b : Block) : Event → Block → Prop where
  | wait {t} (hp : b.threads[t]? = some .outside) : Steps b (.wait t) (b.put t (.lock true))
  | signal {t} (hp : b.threads[t]? = some .outside) : Steps b (.signal t) (b.put t (.lock false))
  | lock {t w} (hp : b.threads[t]? = some (.lock w)) (hm : b.mutex_ = none) :
      Steps b (.go t) ({ b with mutex_ := some t }.put t (.test w))
  | passes {t} (hp : b.threads[t]? = some (.test true)) (hs : b.signalled_ = true) :
      Steps b (.go t) (b.put t .unlock)
  | sleeps {t} (hp : b.threads[t]? = some (.test true)) (hs : b.signalled_ = false) :
      Steps b (.go t) ({ b with mutex_ := none }.put t .asleep)
  | again {t} (hp : b.threads[t]? = some (.test false)) (hs : b.signalled_ = true) :
      Steps b (.go t) (b.put t .unlock)
  | first {t} (hp : b.threads[t]? = some (.test false)) (hs : b.signalled_ = false) :
      Steps b (.go t) (b.put t .store)
  | stores {t} (hp : b.threads[t]? = some .store) :
      Steps b (.go t) ({ b with signalled_ := true }.put t .notify_all)
  | notifies {t} (hp : b.threads[t]? = some .notify_all) :
      Steps b (.go t) ({ b with threads := b.threads.map .notified }.put t .unlock)
  | unlocks {t} (hp : b.threads[t]? = some .unlock) :
      Steps b (.go t) ({ b with mutex_ := none }.put t .outside)
  | wakes {t} (hp : b.threads[t]? = some .asleep) : Steps b (.wake t) (b.put t (.lock true))

theorem step_steps {b b' : Block} {e : Event} (h : step b e = some b') : Steps b e b' := by
  cases e with
  | wait t =>
    obtain ⟨hp, rfl⟩ : b.threads[t]? = some .outside ∧ b.put t (.lock true) = b' := by
      simpa [step] using h
    exact .wait hp
  | signal t =>
    obtain ⟨hp, rfl⟩ : b.threads[t]? = some .outside ∧ b.put t (.lock false) = b' := by
      simpa [step] using h
    exact .signal hp
  | wake t =>
    obtain ⟨hp, rfl⟩ : b.threads[t]? = some .asleep ∧ b.put t (.lock true) = b' := by
      simpa [step] using h
    exact .wakes hp
  | go t =>
    obtain ⟨p, hp, hgo⟩ := Option.bind_eq_some_iff.mp h
    cases p with
    | outside => cases hgo
    | asleep => cases hgo
    | lock w =>
      obtain ⟨hm, rfl⟩ : b.mutex_ = none ∧ { b with mutex_ := some t }.put t (.test w) = b' := by
        simpa [go] using hgo
      exact .lock hp hm
    | test w =>
      cases hs : b.signalled_ with
      | false =>
        cases w with
        | false =>
          obtain rfl : b.put t .store = b' := by simpa [go, hs] using hgo
          exact .first hp hs
        | true =>
          obtain rfl : { b with mutex_ := none }.put t .asleep = b' := by simpa [go, hs] using hgo
          exact .sleeps hp hs
      | true =>
        cases w with
        | false =>
          obtain rfl : b.put t .unlock = b' := by simpa [go, hs] using hgo
          exact .again hp hs
        | true =>
          obtain rfl : b.put t .unlock = b' := by simpa [go, hs] using hgo
          exact .passes hp hs
    | store =>
      cases hgo
      exact .stores hp
    | notify_all =>
      cases hgo
      exact .notifies hp
    | unlock =>
      cases hgo
      exact .unlocks hp

/-- A step of the block is at most one step of the flag. -/
theorem flag_step {b b' : Block} {e : Event} (h : step b e = some b') :
    flag b' = flag b ∨ ∃ e', flagStep (flag b) e' = some (flag b') := by
  cases step_steps h with
  | @wait t hp =>
    refine Or.inr ⟨.call t true, ?_⟩
    simp [flagStep, flag_at hp, Place.call]
  | @signal t hp =>
    refine Or.inr ⟨.call t false, ?_⟩
    simp [flagStep, flag_at hp, Place.call]
  | @lock t w hp hm =>
    refine Or.inl ?_
    have hc : (Place.test w).call = (Place.lock w).call := by cases w <;> rfl
    rw [flag_put]
    exact flag_stays hp hc
  | @passes t hp hs =>
    refine Or.inr ⟨.pass t, ?_⟩
    have hf : (flag b).signalled = true := hs
    simp [flagStep, flag_at hp, Place.call, hf]
  | @sleeps t hp hs =>
    refine Or.inl ?_
    rw [flag_put]
    exact flag_stays hp rfl
  | @again t hp hs =>
    refine Or.inr ⟨.set t, ?_⟩
    have hf : { flag b with signalled := true } = flag b := by simp [flag, hs]
    simp [flagStep, flag_at hp, Place.call, hf]
  | @first t hp hs =>
    refine Or.inl ?_
    rw [flag_put]
    exact flag_stays hp rfl
  | @stores t hp =>
    refine Or.inr ⟨.set t, ?_⟩
    simp [flagStep, flag_at hp, Place.call]
    rfl
  | @notifies t hp =>
    refine Or.inl ?_
    have hsame : flag { b with threads := b.threads.map .notified } = flag b := by
      simp [flag, Function.comp_def]
    rw [flag_put, hsame]
    exact flag_stays hp rfl
  | @unlocks t hp =>
    refine Or.inr ⟨.ret t, ?_⟩
    simp [flagStep, flag_at hp, Place.call]
    rfl
  | @wakes t hp =>
    refine Or.inl ?_
    rw [flag_put]
    exact flag_stays hp rfl

/-- Each run of the block is a run of the flag. -/
theorem flag_reach {n : Nat} {b : Block} (h : Reach step anyEvent (init n) b) :
    Reach flagStep anyEvent (flag (init n)) (flag b) := by
  have hsim : Simulates step anyEvent flagStep anyEvent (fun b f => f = flag b) := by
    rintro b f e b' rfl _ hs
    rcases flag_step hs with hsame | ⟨e', he⟩
    · exact ⟨flag b, Reach.start _, hsame.symm⟩
    · exact ⟨flag b', (Reach.start _).next trivial he, rfl⟩
  obtain ⟨f, hf, rfl⟩ := hsim.reach rfl h
  exact hf

/-! ## The mutex and the wake-ups -/

/-- The thread has the mutex. -/
def Place.locked : Place → Bool
  | .test _ | .store | .notify_all | .unlock => true
  | _ => false

structure Ok (b : Block) : Prop where
  owner : ∀ t, b.mutex_ = some t → ∃ p, b.threads[t]? = some p ∧ p.locked = true
  locked : ∀ (t : Nat) p, b.threads[t]? = some p → p.locked = true → b.mutex_ = some t
  told : b.signalled_ = true → ∀ t : Nat, b.threads[t]? = some .asleep →
    ∃ u : Nat, b.threads[u]? = some .notify_all

theorem init_ok (n : Nat) : Ok (init n) := by
  refine ⟨by simp [init], ?_, by simp [init]⟩
  intro t p hp hl
  rw [List.eq_of_mem_replicate (List.mem_of_getElem? hp)] at hl
  cases hl

theorem put_self {b : Block} {t : Nat} {p : Place} (p' : Place) (h : b.threads[t]? = some p) :
    (b.put t p').threads[t]? = some p' := by
  obtain ⟨hlt, -⟩ := List.getElem?_eq_some_iff.mp h
  simp [Block.put, hlt]

theorem put_other {b : Block} {t u : Nat} (p' : Place) (h : u ≠ t) :
    (b.put t p').threads[u]? = b.threads[u]? := by
  simp [Block.put, List.getElem?_set_ne (Ne.symm h)]

/-- Where a thread is after one has moved. -/
theorem put_cases {b : Block} {t u : Nat} {p p' : Place}
    (h : (b.put t p').threads[u]? = some p) :
    (u = t ∧ p = p') ∨ (u ≠ t ∧ b.threads[u]? = some p) := by
  by_cases hut : u = t
  · subst hut
    have hlt : u < b.threads.length := by
      have := (List.getElem?_eq_some_iff.mp h).1
      simpa [Block.put] using this
    simp [Block.put, hlt] at h
    exact Or.inl ⟨rfl, h.symm⟩
  · rw [put_other p' hut] at h
    exact Or.inr ⟨hut, h⟩

/-- A thread that keeps what it has of the mutex moves, and is not before `notify_all`. -/
theorem Ok.move {b : Block} (h : Ok b) {t : Nat} {p p' : Place} (hp : b.threads[t]? = some p)
    (hl : p'.locked = p.locked) (hn : p ≠ .notify_all) (ha : p' = .asleep → b.signalled_ = false) :
    Ok (b.put t p') := by
  refine ⟨?_, ?_, ?_⟩
  · intro u hu
    obtain ⟨x, hx, hlx⟩ := h.owner u hu
    by_cases hut : u = t
    · subst hut
      rw [hp] at hx
      cases hx
      exact ⟨p', put_self p' hp, hl.trans hlx⟩
    · exact ⟨x, (put_other p' hut).trans hx, hlx⟩
  · intro u x hx hlx
    rcases put_cases hx with ⟨rfl, rfl⟩ | ⟨-, hx⟩
    · exact h.locked u p hp (hl.symm.trans hlx)
    · exact h.locked u x hx hlx
  · intro hs u hu
    rcases put_cases hu with ⟨rfl, rfl⟩ | ⟨-, hu⟩
    · simp [ha rfl, Block.put] at hs
    · obtain ⟨v, hv⟩ := h.told hs u hu
      have hvt : v ≠ t := by
        rintro rfl
        rw [hp] at hv
        exact hn (Option.some.inj hv)
      exact ⟨v, (put_other p' hvt).trans hv⟩

/-- A thread that has the mutex gives it back. -/
theorem Ok.release {b : Block} (h : Ok b) {t : Nat} {p p' : Place} (hp : b.threads[t]? = some p)
    (hl : p.locked = true) (hl' : p'.locked = false) (hn : p ≠ .notify_all)
    (ha : p' = .asleep → b.signalled_ = false) : Ok ({ b with mutex_ := none }.put t p') := by
  have hm := h.locked t p hp hl
  refine ⟨by simp [Block.put], ?_, ?_⟩
  · intro u x hx hlx
    rcases put_cases hx with ⟨rfl, rfl⟩ | ⟨hut, hx⟩
    · rw [hl'] at hlx
      cases hlx
    · have hu := h.locked u x hx hlx
      rw [hm] at hu
      exact absurd (Option.some.inj hu).symm hut
  · intro hs u hu
    rcases put_cases hu with ⟨rfl, rfl⟩ | ⟨-, hu⟩
    · have hs' : b.signalled_ = true := hs
      rw [ha rfl] at hs'
      cases hs'
    · obtain ⟨v, hv⟩ := h.told hs u hu
      have hvt : v ≠ t := by
        rintro rfl
        rw [hp] at hv
        exact hn (Option.some.inj hv)
      exact ⟨v, (put_other p' hvt).trans hv⟩

theorem Ok.take {b : Block} (h : Ok b) {t : Nat} {w : Bool} (hp : b.threads[t]? = some (.lock w))
    (hm : b.mutex_ = none) : Ok ({ b with mutex_ := some t }.put t (.test w)) := by
  refine ⟨?_, ?_, ?_⟩
  · intro u hu
    obtain rfl : t = u := Option.some.inj hu
    exact ⟨.test w, put_self (b := { b with mutex_ := some t }) (.test w) hp, rfl⟩
  · intro u x hx hlx
    rcases put_cases hx with ⟨rfl, rfl⟩ | ⟨-, hx⟩
    · rfl
    · have hu := h.locked u x hx hlx
      rw [hm] at hu
      cases hu
  · intro hs u hu
    rcases put_cases hu with ⟨-, hx⟩ | ⟨-, hu⟩
    · cases hx
    · obtain ⟨v, hv⟩ := h.told hs u hu
      have hvt : v ≠ t := by
        rintro rfl
        rw [hp] at hv
        cases hv
      exact ⟨v, (put_other (b := { b with mutex_ := some t }) (.test w) hvt).trans hv⟩

theorem Ok.store {b : Block} (h : Ok b) {t : Nat} (hp : b.threads[t]? = some .store) :
    Ok ({ b with signalled_ := true }.put t .notify_all) := by
  have hself := put_self (b := { b with signalled_ := true }) .notify_all hp
  refine ⟨?_, ?_, fun _ _ _ => ⟨t, hself⟩⟩
  · intro u hu
    obtain ⟨x, hx, hlx⟩ := h.owner u hu
    by_cases hut : u = t
    · subst hut
      exact ⟨.notify_all, hself, rfl⟩
    · exact ⟨x, (put_other (b := { b with signalled_ := true }) .notify_all hut).trans hx, hlx⟩
  · intro u x hx hlx
    rcases put_cases hx with ⟨rfl, rfl⟩ | ⟨-, hx⟩
    · exact h.locked u .store hp rfl
    · exact h.locked u x hx hlx

@[simp] theorem locked_notified (p : Place) : p.notified.locked = p.locked := by cases p <;> rfl

theorem Ok.notify {b : Block} (h : Ok b) {t : Nat} (hp : b.threads[t]? = some .notify_all) :
    Ok ({ b with threads := b.threads.map .notified }.put t .unlock) := by
  have hp' : (b.threads.map Place.notified)[t]? = some .notify_all := by
    simp [hp, Place.notified]
  have hself := put_self (b := { b with threads := b.threads.map .notified }) .unlock hp'
  refine ⟨?_, ?_, ?_⟩
  · intro u hu
    obtain ⟨x, hx, hlx⟩ := h.owner u hu
    by_cases hut : u = t
    · subst hut
      exact ⟨.unlock, hself, rfl⟩
    · refine ⟨x.notified, ?_, (locked_notified x).trans hlx⟩
      rw [put_other .unlock hut]
      simp [hx]
  · intro u x hx hlx
    rcases put_cases hx with ⟨rfl, rfl⟩ | ⟨-, hx⟩
    · exact h.locked u .notify_all hp rfl
    · obtain ⟨y, hy, rfl⟩ : ∃ y, b.threads[u]? = some y ∧ y.notified = x := by
        simpa using hx
      exact h.locked u y hy (by simpa using hlx)
  · intro _ u hu
    rcases put_cases hu with ⟨-, hx⟩ | ⟨-, hx⟩
    · cases hx
    · obtain ⟨y, -, hy⟩ : ∃ y, b.threads[u]? = some y ∧ y.notified = .asleep := by
        simpa using hx
      cases y <;> cases hy

theorem step_ok {b b' : Block} {e : Event} (h : Ok b) (hs : step b e = some b') : Ok b' := by
  cases step_steps hs with
  | wait hp => exact h.move hp rfl (by simp) (by simp)
  | signal hp => exact h.move hp rfl (by simp) (by simp)
  | lock hp hm => exact h.take hp hm
  | passes hp _ => exact h.move hp rfl (by simp) (by simp)
  | sleeps hp hf => exact h.release hp rfl rfl (by simp) fun _ => hf
  | again hp _ => exact h.move hp rfl (by simp) (by simp)
  | first hp _ => exact h.move hp rfl (by simp) (by simp)
  | stores hp => exact h.store hp
  | notifies hp => exact h.notify hp
  | unlocks hp => exact h.release hp rfl rfl (by simp) (by simp)
  | wakes hp => exact h.move hp rfl (by simp) (by simp)

theorem reach_ok {n : Nat} {b : Block} (h : Reach step anyEvent (init n) b) : Ok b :=
  h.invariant (init_ok n) fun _ _ _ hb _ hs => step_ok hb hs

/-! ## A block that is left alone -/

/-- Nobody makes a new call. -/
def Settling (_ : Block) : Event → Prop
  | .go _ | .wake _ => True
  | _ => False

instance (b : Block) (e : Event) : Decidable (Settling b e) :=
  match e with
  | .go _ | .wake _ => isTrue trivial
  | .wait _ | .signal _ => isFalse id

def Place.cost : Place → Nat
  | .outside => 0
  | .unlock => 1
  | .notify_all => 2
  | .store => 3
  | .test _ => 4
  | .lock _ => 5
  | .asleep => 6

/-- A bound on the steps to come, once the block is signalled. -/
def cost (b : Block) : Nat := total Place.cost b.threads

theorem cost_put {b : Block} {t : Nat} {p : Place} (p' : Place) (h : b.threads[t]? = some p) :
    cost (b.put t p') + p.cost = cost b + p'.cost :=
  total_set Place.cost b.threads t p p' h

theorem cost_notified (ps : List Place) :
    total Place.cost (ps.map Place.notified) ≤ total Place.cost ps := by
  induction ps with
  | nil => simp
  | cons p ps ih =>
    have hp : p.notified.cost ≤ p.cost := by cases p <;> simp [Place.notified, Place.cost]
    simp only [List.map_cons, total_cons]
    omega

/-- In a signalled block each step without a new call takes away some of the work that is left. -/
theorem step_cost {b b' : Block} {e : Event} (hs : b.signalled_ = true) (ha : Settling b e)
    (h : step b e = some b') : b'.signalled_ = true ∧ cost b' < cost b := by
  have hput : ∀ {x : Block} {t : Nat} {p p' : Place}, x.threads[t]? = some p →
      p'.cost < p.cost → cost (x.put t p') < cost x := by
    intro x t p p' hp hlt
    have hsum := cost_put p' hp
    omega
  cases step_steps h with
  | wait hp => exact absurd ha id
  | signal hp => exact absurd ha id
  | lock hp hm => exact ⟨hs, hput (x := { b with mutex_ := some _ }) hp (by simp [Place.cost])⟩
  | passes hp _ => exact ⟨hs, hput hp (by simp [Place.cost])⟩
  | sleeps hp hf =>
    rw [hs] at hf
    cases hf
  | again hp _ => exact ⟨hs, hput hp (by simp [Place.cost])⟩
  | first hp hf =>
    rw [hs] at hf
    cases hf
  | stores hp => exact ⟨rfl, hput (x := { b with signalled_ := true }) hp (by simp [Place.cost])⟩
  | @notifies t hp =>
    have hp' : (b.threads.map Place.notified)[t]? = some .notify_all := by
      simp [hp, Place.notified]
    have hdec : Place.unlock.cost < Place.notify_all.cost := by simp [Place.cost]
    have hlt := hput (x := { b with threads := b.threads.map .notified }) hp' hdec
    have hle := cost_notified b.threads
    exact ⟨hs, Nat.lt_of_lt_of_le hlt hle⟩
  | unlocks hp => exact ⟨hs, hput (x := { b with mutex_ := none }) hp (by simp [Place.cost])⟩
  | wakes hp => exact ⟨hs, hput hp (by simp [Place.cost])⟩

/-- Where no thread can go on, those in a call are asleep, and nobody has signalled. -/
theorem idle_of_stuck {b : Block} (h : Ok b) (hend : ∀ t, step b (.go t) = none) :
    ∀ p ∈ b.threads, p = .outside ∨ (p = .asleep ∧ b.signalled_ = false) := by
  have hgo : ∀ {t : Nat} {p : Place}, b.threads[t]? = some p → go b t p = none := by
    intro t p hp
    have hs := hend t
    simpa [step, hp] using hs
  have hfree : b.mutex_ = none := by
    cases hm : b.mutex_ with
    | none => rfl
    | some t =>
      obtain ⟨p, hp, hl⟩ := h.owner t hm
      have hno := hgo hp
      cases p with
      | test w => cases hs : b.signalled_ <;> cases w <;> simp [go, hs] at hno
      | store => cases hno
      | notify_all => cases hno
      | unlock => cases hno
      | _ => cases hl
  intro p hp
  obtain ⟨t, ht⟩ := List.getElem?_of_mem hp
  have hno := hgo ht
  have hunlocked : p.locked = false := by
    cases hl : p.locked with
    | false => rfl
    | true =>
      have hm := h.locked t p ht hl
      rw [hfree] at hm
      cases hm
  cases p with
  | outside => exact Or.inl rfl
  | asleep =>
    refine Or.inr ⟨rfl, ?_⟩
    cases hs : b.signalled_ with
    | false => rfl
    | true =>
      obtain ⟨u, hu⟩ := h.told hs t ht
      have hnu := hgo hu
      cases hnu
  | lock w => simp [go, hfree] at hno
  | _ => cases hunlocked

/-- A block is a flag: each of its runs is one of threads that store the flag in one step and pass a
wait only when it is stored. Without new calls, and without a spurious wake-up, the threads go on
until each call has returned, but for waits while nobody has signalled; in a signalled block that
takes at most `cost` steps. -/
theorem a_block_is_a_flag (n : Nat) (b : Block) (h : Reach step anyEvent (init n) b) :
    Reach flagStep anyEvent (flag (init n)) (flag b) ∧
    ((∀ t, step b (.go t) = none) →
      ∀ p ∈ b.threads, p = .outside ∨ (p = .asleep ∧ b.signalled_ = false)) ∧
    (b.signalled_ = true → ∀ es b', runOk step Settling b es = some b' → es.length ≤ cost b) := by
  refine ⟨flag_reach h, idle_of_stuck (reach_ok h), ?_⟩
  intro hs es b' hes
  have hle := length_le_of_decreases (m := cost)
    (fun x e y (hx : x.signalled_ = true) ha he => step_cost hx ha he) es hs hes
  omega

/-- Thread 0 sleeps when thread 1 signals. -/
theorem a_block_is_a_flag_here : ∃ b : Block, Reach step anyEvent (init 2) b ∧
    b = ⟨true, some 1, [.lock true, .unlock]⟩ ∧
    ∀ es b', runOk step Settling b es = some b' → es.length ≤ cost b := by
  have hrun : run step (init 2) [.wait 0, .go 0, .go 0, .signal 1, .go 1, .go 1, .go 1, .go 1] =
      some ⟨true, some 1, [.lock true, .unlock]⟩ := rfl
  have hr := reach_anyEvent hrun
  exact ⟨_, hr, rfl, (a_block_is_a_flag 2 _ hr).2.2 rfl⟩

end ltl.block
