-- Weights of a configuration: a weight for each state, call, counter and
-- entry of the log, summed up. Each change of a configuration has its own
-- effect on the sum.
import Ltl.Counts
import Ltl.FutureLaws

open ltl.future_state counts

namespace ltl.futures

variable {α ε : Type}

structure Weights (α ε : Type) where
  state : State α ε → Nat
  frame : Frame α ε → Nat
  counter : Counter → Nat
  entry : Entry ε → Nat

/-- The sum of the weights of all that is in the configuration. -/
def weigh (w : Weights α ε) (c : Config α ε) : Nat :=
  total w.state c.states + total (total w.frame) c.threads + total w.counter c.counters +
    total w.entry c.log

variable (w : Weights α ε)

theorem weigh_put {c : Config α ε} {t : Nat} {k : List (Frame α ε)} (k' : List (Frame α ε))
    (hk : c.threads[t]? = some k) :
    weigh w (c.put t k') + total w.frame k = weigh w c + total w.frame k' := by
  have := total_set (total w.frame) c.threads t k k' hk
  simp only [weigh, Config.put]
  omega

theorem weigh_note (c : Config α ε) (es : List (Entry ε)) :
    weigh w (c.note es) = weigh w c + total w.entry es := by
  simp only [weigh, Config.note, total_append]
  omega

theorem weigh_enroll (c : Config α ε) (st : StateId) : weigh w (c.enroll st) = weigh w c := rfl

theorem weigh_alloc (c : Config α ε) (s : State α ε) :
    weigh w (c.alloc s) = weigh w c + w.state s := by
  simp only [weigh, Config.alloc, total_append, total_cons, total_nil]
  omega

theorem weigh_update {c : Config α ε} {i : StateId} {s : State α ε} (s' : State α ε)
    (hs : c.states[i]? = some s) :
    weigh w (c.update i s') + w.state s = weigh w c + w.state s' := by
  have := total_set w.state c.states i s s' hs
  simp only [weigh, Config.update]
  omega

theorem weigh_recount {c : Config α ε} {n : CounterId} {ctr : Counter} (ctr' : Counter)
    (hn : c.counters[n]? = some ctr) :
    weigh w { c with counters := c.counters.set n ctr' } + w.counter ctr =
      weigh w c + w.counter ctr' := by
  have := total_set w.counter c.counters n ctr ctr' hn
  simp only [weigh]
  omega

/-! ## The changes that a step makes -/

/-- A registration on the state `s` of `st`, which is not ready. -/
def registered (c : Config α ε) (t : Nat) (st : StateId) (s : State α ε) (kont : Cont)
    (k : List (Frame α ε)) : Config α ε :=
  ((c.enroll st).update st
    { s with continuations_ := s.continuations_ ++ [(c.sources.length, kont)] }).put t k

theorem weigh_registered {c : Config α ε} {t : Nat} {st : StateId} {s : State α ε}
    (u : State α ε) (kont : Cont) {k : List (Frame α ε)} (k' : List (Frame α ε))
    (hk : c.threads[t]? = some k) (hs : c.states[st]? = some s) :
    weigh w (registered c t st u kont k') + total w.frame k + w.state s = weigh w c +
      w.state { u with continuations_ := u.continuations_ ++ [(c.sources.length, kont)] } +
      total w.frame k' := by
  have hup := weigh_update w (c := c.enroll st)
    { u with continuations_ := u.continuations_ ++ [(c.sources.length, kont)] } hs
  have hput := weigh_put w (c := (c.enroll st).update st
    { u with continuations_ := u.continuations_ ++ [(c.sources.length, kont)] }) k' hk
  rw [weigh_enroll] at hup
  unfold registered
  omega

theorem weigh_settle {c : Config α ε} {t : Nat} {st : StateId} (allow : Bool) {s : State α ε}
    (s' : State α ε) {k : List (Frame α ε)} (k' : List (Frame α ε))
    (hk : c.threads[t]? = some k) (hs : c.states[st]? = some s) :
    weigh w (settle c t st allow s s' k') + total w.frame k + w.state s = weigh w c +
      w.state { s' with continuations_ := [] } + w.frame (.drain st s.continuations_) +
      total w.frame k' + w.entry (.set st allow (.stored (s.continuations_.map Prod.fst))) := by
  have hput := weigh_put w (k := k) (t := t)
    (c := (c.note [.set st allow (.stored (s.continuations_.map Prod.fst))]).update st
      { s' with continuations_ := [] }) (.drain st s.continuations_ :: k') hk
  have hup := weigh_update w (i := st) (s := s)
    (c := c.note [.set st allow (.stored (s.continuations_.map Prod.fst))])
    { s' with continuations_ := [] } hs
  simp only [weigh_note, total_cons, total_nil] at hput hup
  unfold settle
  omega

theorem weigh_startWhenAllReady {c : Config α ε} {t : Nat} (fs : List Future) (q : Option Nat)
    {k : List (Frame α ε)} (k' : List (Frame α ε)) (hk : c.threads[t]? = some k) :
    weigh w (startWhenAllReady c t fs q k') + total w.frame k =
      weigh w c + w.state { await_queue_ := q } + w.counter ⟨fs.length, c.states.length⟩ +
        w.frame (.register c.counters.length fs) + total w.frame k' := by
  have := total_set (total w.frame) c.threads t k (.register c.counters.length fs :: k') hk
  simp only [weigh, startWhenAllReady, Config.put, Config.alloc, total_append, total_cons,
    total_nil] at this ⊢
  omega

end ltl.futures
