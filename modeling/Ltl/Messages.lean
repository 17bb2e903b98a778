-- The messages of the test program (lio_test/src/main.cpp): `write` sends the
-- size of a string and then its bytes, and `read` awaits the two from the socket
-- at the other end.
import Ltl.Frames
import Ltl.SocketBuffer

open runs frames lio.socket

namespace lio_test

/-! ## The two ends -/

/-- `size_t` as it lies in memory, with the lowest byte first. -/
def size_t : Header UInt8 := inBytes 8 (by decide)

/-- A task that writes to the client, and one that reads from `socket`. `wire` is what was written
and not read, and `writing` the string whose size was written last. `awaits` is the read that the
task awaits; an exception ends it. No step reads `sent`. -/
structure Link where
  writing : Option (List UInt8) := none
  wire : List UInt8 := []
  socket : Config := {}
  reader : Reader UInt8 := {}
  awaits : Option Nat := none
  ended : Bool := false
  sent : List (List UInt8) := []
  deriving DecidableEq, Repr

/-- The first `await` of `write`. No write fails. -/
def write (l : Link) (data : List UInt8) : Option Link :=
  match l.writing with
  | some _ => none
  | none => some { l with
      writing := some data
      wire := l.wire ++ size_t.encode data.length
      sent := l.sent ++ [data] }

/-- The second one. -/
def write_data (l : Link) : Option Link :=
  match l.writing with
  | none => none
  | some data => some { l with writing := none, wire := l.wire ++ data }

/-- The next call of `s->read`, in `read`. -/
def read (l : Link) : Option Link :=
  if l.ended || l.awaits.isSome then none
  else
    (lio.socket.step l.socket (.read (l.reader.wants size_t))).map fun socket =>
      { l with socket, awaits := some l.socket.requested.length }

/-- The awaited read is completed, and `await` returns its bytes or throws. -/
def resume (l : Link) : Option Link :=
  match l.awaits with
  | none => none
  | some promise =>
    match l.socket.completed.find? fun x => x.promise == promise with
    | none => none
    | some ⟨_, _, some buf⟩ => some { l with awaits := none, reader := l.reader.take size_t buf }
    | some ⟨_, _, none⟩ => some { l with awaits := none, ended := true }

inductive Event where
  | write (data : List UInt8)
  | write_data
  | read
  | resume
  | alloc_read (s : Nat)
  | read_cb (nread : Nread)
  deriving DecidableEq, Repr

/-- What a delivery takes from the wire. -/
def delivered : Nread → List UInt8
  | .error => []
  | .data bytes => bytes

def step (l : Link) : Event → Option Link
  | .write data => write l data
  | .write_data => write_data l
  | .read => read l
  | .resume => resume l
  | .alloc_read s => (lio.socket.step l.socket (.alloc_read s)).map fun socket => { l with socket }
  | .read_cb nread =>
    if delivered nread <+: l.wire then
      (lio.socket.step l.socket (.read_cb nread)).map fun socket =>
        { l with socket, wire := l.wire.drop (delivered nread).length }
    else none

/-- The strings are not empty, a buffer is asked for only when the one before it was filled, and a
callback without an error has some bytes. -/
def Allowed (l : Link) : Event → Prop
  | .write data => data ≠ [] ∧ data.length ≤ max_size
  | .alloc_read s => Filled l.socket (.alloc_read s)
  | .read_cb (.data bytes) => bytes ≠ []
  | _ => True

instance (l : Link) : ∀ e, Decidable (Allowed l e)
  | .write data => inferInstanceAs (Decidable (data ≠ [] ∧ data.length ≤ max_size))
  | .alloc_read s => inferInstanceAs (Decidable (Filled l.socket (.alloc_read s)))
  | .read_cb (.data bytes) => inferInstanceAs (Decidable (bytes ≠ []))
  | .read_cb .error => isTrue trivial
  | .write_data => isTrue trivial
  | .read => isTrue trivial
  | .resume => isTrue trivial

/-- What comes after the bytes of the reads that were completed. -/
def Link.coming (l : Link) : List UInt8 := l.wire ++ l.writing.getD []

/-- The strings come in their order, and once nothing is in transit and the task has no completed
read to take, all of them have come. -/
structure Arrives (l : Link) : Prop where
  order : l.reader.messages <+: l.sent
  fault : l.socket.fault = none
  all : l.ended = false → l.coming = [] → step l .resume = none → l.reader.messages = l.sent

/-! ## The socket and its reader -/

/-- No read is queued. -/
structure Quiet (c : Config) : Prop where
  queue : c.read_queue_ = []
  reading : c.reading = false
  lent : c.lent = none
  fault : c.fault = none

/-- The reads that are completed were called. -/
def Called (c : Config) : Prop := ∀ x ∈ c.completed, x.promise < c.requested.length

/-- How far the read is that the task awaits: bytes of it may have come, it is completed, or it
has failed. -/
inductive Awaited (l : Link) (c₀ : Config) : Prop where
  | going {front : Request} (hg : Going c₀ (l.reader.wants size_t) l.socket front)
      (hf : Follows size_t l.reader l.sent (front.received ++ l.coming)) : Awaited l c₀
  | ended {received : List UInt8} (hq : Quiet l.socket)
      (hc : l.socket.completed =
        c₀.completed ++ [⟨c₀.requested.length, received, some received⟩])
      (hl : received.length = l.reader.wants size_t)
      (hf : Follows size_t l.reader l.sent (received ++ l.coming)) : Awaited l c₀
  | failed {received : List UInt8} (hq : Quiet l.socket)
      (hc : l.socket.completed = c₀.completed ++ [⟨c₀.requested.length, received, none⟩])
      (ho : l.reader.messages <+: l.sent) : Awaited l c₀

/-- The task awaits the read that it called when the socket was `c₀`. -/
structure Awaits (l : Link) (c₀ : Config) : Prop where
  read : l.awaits = some c₀.requested.length
  ended : l.ended = false
  called : Called c₀
  requested : l.socket.requested.length = c₀.requested.length + 1

inductive Task (l : Link) : Prop where
  | awaits {c₀ : Config} (ha : Awaits l c₀) (hw : Awaited l c₀) : Task l
  | between (ha : l.awaits = none) (he : l.ended = false) (hq : Quiet l.socket)
      (hc : Called l.socket) (hf : Follows size_t l.reader l.sent l.coming) : Task l
  | ended (ha : l.awaits = none) (he : l.ended = true) (hq : Quiet l.socket)
      (ho : l.reader.messages <+: l.sent) : Task l

/-- What every step keeps. -/
structure Inv (l : Link) : Prop where
  sized : ∀ m ∈ l.sent, m ≠ [] ∧ m.length ≤ max_size
  task : Task l

theorem init_inv : Inv {} := by
  refine ⟨by simp, .between rfl rfl ⟨rfl, rfl, rfl, rfl⟩ ?_ (Follows.start size_t)⟩
  simp [Called]

/-- libuv does not call back while no read is queued. -/
theorem Quiet.no_step {c : Config} (hq : Quiet c) (s : Nat) (nread : Nread) :
    lio.socket.step c (.alloc_read s) = none ∧ lio.socket.step c (.read_cb nread) = none := by
  have hmay : mayCall c nread = false := by
    cases nread with
    | error => simp [mayCall, hq.reading]
    | data bytes => simp [mayCall, hq.lent]
  simp [lio.socket.step, hq.fault, hq.reading, hmay]

/-- The read of the task is the last that was completed, or it is not. -/
theorem find_completed {c₀ : Config} (hc : Called c₀) (more : List Completion) :
    (c₀.completed ++ more).find? (fun x => x.promise == c₀.requested.length) =
      more.find? fun x => x.promise == c₀.requested.length := by
  rw [List.find?_append]
  have hnone : c₀.completed.find? (fun x => x.promise == c₀.requested.length) = none := by
    apply List.find?_eq_none.mpr
    intro x hx he
    have hlt := hc x hx
    simp only [beq_iff_eq] at he
    omega
  rw [hnone, Option.none_or]

/-! ## The steps of the socket -/

theorem read_going_new {c₀ c₁ : Config} {n : Nat} (hq : Quiet c₀) (hn : 0 < n)
    (hs : lio.socket.step c₀ (.read n) = some c₁) :
    (∃ front, Going c₀ n c₁ front ∧ front.received = []) ∧
      c₁.requested.length = c₀.requested.length + 1 := by
  obtain ⟨front, hg⟩ := read_going hn hq.queue hq.lent hs
  have hqueue := hg.queue
  simp only [lio.socket.step, hq.fault, Option.isSome_none, Bool.false_eq_true, if_false,
    lio.socket.read] at hs
  split at hs
  · cases hs
  · cases hs
    simp only [hq.queue, List.nil_append, List.cons.injEq, and_true] at hqueue
    refine ⟨⟨front, hg, ?_⟩, by simp⟩
    rw [← hqueue]

theorem alloc_read_going_on {c₀ c c' : Config} {n s : Nat} {front : Request}
    (hg : Going c₀ n c front) (hfill : Filled c (.alloc_read s))
    (hs : lio.socket.step c (.alloc_read s) = some c') :
    (∃ f, Going c₀ n c' f ∧ f.received = front.received) ∧ c'.requested = c.requested := by
  cases step_next hfill.1 hs with
  | alloc_read hl hpos _ he =>
    subst he
    obtain ⟨f, hf⟩ := alloc_read_going hg hl hpos hfill.2
    have hqueue := hf.queue
    simp only [alloc_read, hg.queue, List.cons.injEq, and_true] at hqueue
    refine ⟨⟨f, hf, ?_⟩, ?_⟩
    · rw [← hqueue, on_alloc_read_received]
    · simp [alloc_read, hg.queue]

theorem read_cb_requested (c : Config) (nread : Nread) :
    (lio.socket.read_cb c nread).requested = c.requested := by
  unfold lio.socket.read_cb
  split
  · rfl
  · split <;> rfl

/-- The bytes of a delivery go to the read, which goes on or is completed. -/
theorem read_cb_received {c : Config} {front : Request} {bytes : List UInt8}
    (hq : c.read_queue_ = [front]) (hf : (lio.socket.read_cb c (.data bytes)).fault = none) :
    (∃ f, (lio.socket.read_cb c (.data bytes)).read_queue_ = [f] ∧
      f.received = front.received ++ bytes) ∨
    ∃ result, (lio.socket.read_cb c (.data bytes)).completed =
      c.completed ++ [⟨front.promise, front.received ++ bytes, result⟩] := by
  unfold lio.socket.read_cb at hf ⊢
  simp only [hq] at hf ⊢
  simp only [on_read] at hf ⊢
  split at hf
  · rename_i ho
    cases hf
  · rename_i f ho
    split at ho
    · cases ho
    · split at ho
      · cases ho
      · cases ho
        exact Or.inl ⟨_, rfl, rfl⟩
  · rename_i f result stop ho
    split at ho
    · cases ho
    · split at ho
      · cases ho
        exact Or.inr ⟨_, rfl⟩
      · cases ho

/-! ## The steps of the link -/

/-- A step of the client leaves the reader alone. -/
theorem client_task {l l' : Link} (ht : Task l)
    (hl : l' = { l with writing := l'.writing, wire := l'.wire, sent := l'.sent })
    (hf : ∀ front, Follows size_t l.reader l.sent (front ++ l.coming) →
      Follows size_t l.reader l'.sent (front ++ l'.coming))
    (ho : l.reader.messages <+: l.sent → l.reader.messages <+: l'.sent) : Task l' := by
  have hsocket : l'.socket = l.socket := by rw [hl]
  have hreader : l'.reader = l.reader := by rw [hl]
  have hawaits : l'.awaits = l.awaits := by rw [hl]
  have hended : l'.ended = l.ended := by rw [hl]
  cases ht with
  | @awaits c₀ ha hw =>
    refine .awaits ⟨hawaits.trans ha.read, hended.trans ha.ended, ha.called, ?_⟩ ?_
    · rw [hsocket, ha.requested]
    cases hw with
    | @going front hg hfollows =>
      refine @Awaited.going _ _ front ?_ ?_
      · rw [hsocket, hreader]
        exact hg
      · rw [hreader]
        exact hf front.received hfollows
    | @ended received hq hcompleted hlen hfollows =>
      refine @Awaited.ended _ _ received ?_ ?_ ?_ ?_
      · rw [hsocket]
        exact hq
      · rw [hsocket]
        exact hcompleted
      · rw [hreader]
        exact hlen
      · rw [hreader]
        exact hf received hfollows
    | @failed received hq hcompleted horder =>
      refine @Awaited.failed _ _ received ?_ ?_ ?_
      · rw [hsocket]
        exact hq
      · rw [hsocket]
        exact hcompleted
      · rw [hreader]
        exact ho horder
  | between ha he hq hc hfollows =>
    apply Task.between (hawaits.trans ha) (hended.trans he)
    · rw [hsocket]
      exact hq
    · rw [hsocket]
      exact hc
    · rw [hreader]
      exact hf [] hfollows
  | ended ha he hq horder =>
    apply Task.ended (hawaits.trans ha) (hended.trans he)
    · rw [hsocket]
      exact hq
    · rw [hreader]
      exact ho horder

theorem write_inv {l l' : Link} {data : List UInt8} (hi : Inv l) (hd : data ≠ [])
    (hmax : data.length ≤ max_size) (hs : write l data = some l') : Inv l' := by
  unfold write at hs
  split at hs
  · cases hs
  · rename_i hw
    cases hs
    refine ⟨?_, client_task hi.task rfl ?_ ?_⟩
    · intro m hm
      rcases List.mem_append.mp hm with hm | hm
      · exact hi.sized m hm
      · rw [List.mem_singleton.mp hm]
        exact ⟨hd, hmax⟩
    · intro front hf
      have hsend := hf.send data
      simpa [Link.coming, hw] using hsend
    · intro ho
      exact ho.trans (List.prefix_append _ _)

theorem write_data_inv {l l' : Link} (hi : Inv l) (hs : write_data l = some l') : Inv l' := by
  unfold write_data at hs
  split at hs
  · cases hs
  · rename_i data hw
    cases hs
    refine ⟨hi.sized, client_task hi.task rfl ?_ id⟩
    intro front hf
    simpa [Link.coming, hw] using hf

theorem read_inv {l l' : Link} (hi : Inv l) (hs : read l = some l') : Inv l' := by
  unfold read at hs
  split at hs
  · cases hs
  · rename_i hfree
    simp only [Bool.or_eq_true, not_or, Bool.not_eq_true, Option.isSome_eq_false_iff,
      Option.isNone_iff_eq_none] at hfree
    obtain ⟨socket, hread, rfl⟩ := Option.map_eq_some_iff.mp hs
    refine ⟨hi.sized, ?_⟩
    cases hi.task with
    | awaits ha =>
      have hread := ha.read
      rw [hfree.2] at hread
      cases hread
    | ended _ he =>
      rw [hfree.1] at he
      cases he
    | between ha he hq hc hf =>
      have hpos := hf.wants_pos fun m hm => (hi.sized m hm).1
      obtain ⟨⟨front, hg, hnil⟩, hr⟩ := read_going_new hq hpos hread
      have hawaits : Awaits { l with socket, awaits := some l.socket.requested.length } l.socket :=
        ⟨rfl, he, hc, hr⟩
      refine .awaits hawaits (.going hg ?_)
      rw [hnil]
      exact hf

theorem resume_inv {l l' : Link} (hi : Inv l) (hs : resume l = some l') : Inv l' := by
  cases hi.task with
  | between ha => simp [resume, ha] at hs
  | ended ha => simp [resume, ha] at hs
  | @awaits c₀ ha hw =>
    cases hw with
    | going hg hf =>
      have hfind := find_completed ha.called []
      rw [List.append_nil] at hfind
      simp [resume, ha.read, hg.completed, hfind] at hs
    | @ended received hq hcompleted hlen hf =>
      have hfind := find_completed ha.called [⟨c₀.requested.length, received, some received⟩]
      simp only [List.find?_singleton, beq_self_eq_true, if_true] at hfind
      simp only [resume, ha.read, hcompleted, hfind, Option.some.injEq] at hs
      subst hs
      refine ⟨hi.sized, .between rfl ha.ended hq ?_ ?_⟩
      · intro x hx
        simp only [hcompleted, List.mem_append, List.mem_singleton] at hx
        show x.promise < l.socket.requested.length
        rw [ha.requested]
        rcases hx with hx | rfl
        · exact Nat.lt_succ_of_lt (ha.called x hx)
        · exact Nat.lt_succ_self _
      · refine hf.take hlen fun m hm => ?_
        have hsize := (hi.sized m hm).2
        exact Nat.lt_of_le_of_lt hsize (by decide)
    | @failed received hq hcompleted ho =>
      have hfind := find_completed ha.called [⟨c₀.requested.length, received, none⟩]
      simp only [List.find?_singleton, beq_self_eq_true, if_true] at hfind
      simp only [resume, ha.read, hcompleted, hfind, Option.some.injEq] at hs
      subst hs
      exact ⟨hi.sized, .ended rfl rfl hq ho⟩

/-- libuv calls back only while the task awaits a read that goes on. -/
theorem task_going {l : Link} {e : lio.socket.Event} (ht : Task l)
    (he : ∀ c, Quiet c → lio.socket.step c e = none) (hs : lio.socket.step l.socket e ≠ none) :
    ∃ c₀ front, Awaits l c₀ ∧ Going c₀ (l.reader.wants size_t) l.socket front ∧
      Follows size_t l.reader l.sent (front.received ++ l.coming) := by
  cases ht with
  | between _ _ hq => exact absurd (he _ hq) hs
  | ended _ _ hq => exact absurd (he _ hq) hs
  | awaits ha hw =>
    cases hw with
    | going hg hf => exact ⟨_, _, ha, hg, hf⟩
    | ended hq => exact absurd (he _ hq) hs
    | failed hq => exact absurd (he _ hq) hs

theorem alloc_read_inv {l : Link} {s : Nat} {socket : Config} (hi : Inv l)
    (hfill : Filled l.socket (.alloc_read s))
    (hs : lio.socket.step l.socket (.alloc_read s) = some socket) : Inv { l with socket } := by
  refine ⟨hi.sized, ?_⟩
  obtain ⟨c₀, front, ha, hg, hf⟩ := task_going hi.task
    (fun c hq => (hq.no_step s .error).1) (by simp [hs])
  obtain ⟨⟨f, hg', hreceived⟩, hr⟩ := alloc_read_going_on hg hfill hs
  have hawaits : Awaits { l with socket } c₀ :=
    ⟨ha.read, ha.ended, ha.called, (congrArg _ hr).trans ha.requested⟩
  refine .awaits hawaits (.going hg' ?_)
  rw [hreceived]
  exact hf

theorem quiet_of_ended {c₀ c : Config} {n : Nat} (he : Ended c₀ n c) : Quiet c :=
  ⟨he.queue, he.reading, he.lent, he.fault⟩

theorem deliver_inv {l : Link} {bytes : List UInt8} {socket : Config} (hi : Inv l)
    (hb : bytes ≠ []) (hw : bytes <+: l.wire)
    (hs : lio.socket.step l.socket (.read_cb (.data bytes)) = some socket) :
    Inv { l with socket, wire := l.wire.drop bytes.length } := by
  refine ⟨hi.sized, ?_⟩
  obtain ⟨c₀, front, ha, hg, hf⟩ := task_going hi.task
    (fun c hq => (hq.no_step 0 (.data bytes)).2) (by simp [hs])
  obtain ⟨more, hmore⟩ := hw
  have hdrop : l.wire.drop bytes.length = more := by
    rw [← hmore, List.drop_left]
  have hahead : front.received ++ l.coming =
      front.received ++ bytes ++ (more ++ l.writing.getD []) := by
    simp only [Link.coming, ← hmore, List.append_assoc]
  have hd : Delivers (.read_cb (.data bytes)) := hb
  cases step_next hd hs with
  | read_cb hl _ hle he =>
    subst he
    have hawaits : Awaits { l with
        socket := lio.socket.read_cb l.socket (.data bytes)
        wire := l.wire.drop bytes.length } c₀ :=
      ⟨ha.read, ha.ended, ha.called,
        (congrArg _ (read_cb_requested _ _)).trans ha.requested⟩
    refine .awaits hawaits ?_
    rcases read_cb_reading hg hl hb hle with ⟨f, hg'⟩ | hended
    · rcases read_cb_received hg.queue hg'.fault with ⟨f', hqueue, hreceived⟩ | ⟨result, hlast⟩
      · have hff : f' = f := by
          have hq := hg'.queue
          rw [hqueue] at hq
          exact (List.cons.inj hq).1
        subst hff
        refine .going hg' ?_
        simp only [Link.coming, hdrop]
        rw [hreceived, ← hahead]
        exact hf
      · rw [hg'.completed, hg.completed] at hlast
        simp at hlast
    · rcases read_cb_received hg.queue hended.fault with ⟨f', hqueue, -⟩ | ⟨result, hlast⟩
      · rw [hended.queue] at hqueue
        cases hqueue
      · obtain ⟨received, hlen, hcompleted⟩ := hended.completed
        rw [hcompleted, hg.completed] at hlast
        have hreceived := List.append_cancel_left hlast
        simp only [List.cons.injEq, Completion.mk.injEq, and_true] at hreceived
        refine .ended (quiet_of_ended hended) hcompleted hlen ?_
        simp only [Link.coming, hdrop]
        rw [hreceived.2.1, ← hahead]
        exact hf

theorem error_inv {l : Link} {socket : Config} (hi : Inv l)
    (hs : lio.socket.step l.socket (.read_cb .error) = some socket) :
    Inv { l with socket } := by
  refine ⟨hi.sized, ?_⟩
  obtain ⟨c₀, front, ha, hg, hf⟩ := task_going hi.task
    (fun c hq => (hq.no_step 0 .error).2) (by simp [hs])
  simp only [lio.socket.step, hg.fault, Option.isSome_none, Bool.false_eq_true, if_false,
    mayCall, hg.reading, if_true, Option.some.injEq] at hs
  subst hs
  have hawaits : Awaits { l with socket := lio.socket.read_cb l.socket .error } c₀ :=
    ⟨ha.read, ha.ended, ha.called, (congrArg _ (read_cb_requested _ _)).trans ha.requested⟩
  refine .awaits hawaits (@Awaited.failed _ _ front.received ?_ ?_ hf.arrived)
  · refine ⟨?_, ?_, ?_, ?_⟩ <;> simp [lio.socket.read_cb, on_read, hg.queue, hg.fault]
  · simp [lio.socket.read_cb, on_read, hg.queue, hg.completed, hg.promise]

theorem step_inv {l l' : Link} {e : Event} (hi : Inv l) (hok : Allowed l e)
    (hs : step l e = some l') : Inv l' := by
  cases e with
  | write data => exact write_inv hi hok.1 hok.2 hs
  | write_data => exact write_data_inv hi hs
  | read => exact read_inv hi hs
  | resume => exact resume_inv hi hs
  | alloc_read s =>
    obtain ⟨socket, hread, rfl⟩ := Option.map_eq_some_iff.mp hs
    exact alloc_read_inv hi hok hread
  | read_cb nread =>
    simp only [step] at hs
    split at hs
    · rename_i hw
      obtain ⟨socket, hread, rfl⟩ := Option.map_eq_some_iff.mp hs
      cases nread with
      | error => exact error_inv hi hread
      | data bytes => exact deliver_inv hi hok hw hread
    · cases hs

/-! ## Runs -/

theorem inv_arrives {l : Link} (hi : Inv l) : Arrives l := by
  refine ⟨?_, ?_, ?_⟩
  · cases hi.task with
    | between _ _ _ _ hf => exact hf.arrived
    | ended _ _ _ ho => exact ho
    | awaits _ hw =>
      cases hw with
      | going _ hf => exact hf.arrived
      | ended _ _ _ hf => exact hf.arrived
      | failed _ _ ho => exact ho
  · cases hi.task with
    | between _ _ hq => exact hq.fault
    | ended _ _ hq => exact hq.fault
    | awaits _ hw =>
      cases hw with
      | going hg => exact hg.fault
      | ended hq => exact hq.fault
      | failed hq => exact hq.fault
  · intro hended hcoming hresume
    cases hi.task with
    | ended _ he =>
      rw [hended] at he
      cases he
    | between ha _ _ _ hf =>
      rw [hcoming] at hf
      exact hf.short (hf.wants_pos fun m hm => (hi.sized m hm).1)
    | @awaits c₀ ha hw =>
      cases hw with
      | going hg hf =>
        rw [hcoming, List.append_nil] at hf
        exact hf.short hg.short
      | @ended received _ hcompleted =>
        have hfind := find_completed ha.called [⟨c₀.requested.length, received, some received⟩]
        simp only [List.find?_singleton, beq_self_eq_true, if_true] at hfind
        simp [step, resume, ha.read, hcompleted, hfind] at hresume
      | @failed received _ hcompleted =>
        have hfind := find_completed ha.called [⟨c₀.requested.length, received, none⟩]
        simp only [List.find?_singleton, beq_self_eq_true, if_true] at hfind
        simp [step, resume, ha.read, hcompleted, hfind] at hresume

/-- The strings that `read` returns are the strings that `write` was given, for every run in which
libuv fills the buffers that it asks for, whatever their sizes and wherever the stream ends. -/
theorem messages_arrive_whole (l : Link) (h : Reach step Allowed {} l) : Arrives l :=
  inv_arrives (h.invariant init_inv fun _ _ _ hi hok hs => step_inv hi hok hs)

/-- Two strings, the size of the first in two deliveries, and an end of the stream after them. -/
theorem messages_arrive_whole_here : ∃ l : Link, Reach step Allowed {} l ∧
    l.reader.messages = [[7, 8], [9]] ∧ l.ended = true ∧ Arrives l := by
  have hrun : ∃ l : Link, runOk step Allowed {}
      [.write [7, 8], .read, .alloc_read 3, .read_cb (.data [2, 0, 0]), .alloc_read 64, .write_data,
        .read_cb (.data [0, 0, 0, 0, 0]), .write [9], .resume, .read, .alloc_read 64,
        .read_cb (.data [7, 8]), .resume, .read, .write_data, .alloc_read 64,
        .read_cb (.data [1, 0, 0, 0, 0, 0, 0, 0]), .resume, .read, .alloc_read 64,
        .read_cb (.data [9]), .resume, .read, .read_cb .error, .resume] = some l ∧
      l.reader.messages = [[7, 8], [9]] ∧ l.ended = true := ⟨_, rfl, rfl, rfl⟩
  obtain ⟨l, hrun, hm, he⟩ := hrun
  have hr : Reach step Allowed {} l := reach_of_runOk _ _ _ hrun
  exact ⟨l, hr, hm, he, messages_arrive_whole l hr⟩

end lio_test
