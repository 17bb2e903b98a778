-- The buffers of one read of a socket (socket.cpp): where each of them starts,
-- and what the vector holds when the read is completed.
import Ltl.SocketRead

open runs

namespace lio.socket

/-! ## The vector of a request -/

theorem length_written (data : List UInt8) (base : Nat) (bytes : List UInt8) :
    (written data base bytes).length = data.length := by
  unfold written
  rw [List.length_take, List.length_append, List.length_append, List.length_take,
    List.length_drop]
  omega

theorem resize_grow {data : List UInt8} {size : Nat} (h : data.length ≤ size) :
    (resize data size).take data.length = data := by
  unfold resize
  rw [List.take_of_length_le h]
  exact List.take_left

theorem resize_shrink {data : List UInt8} {size : Nat} (h : size ≤ data.length) :
    resize data size = data.take size := by
  unfold resize
  rw [Nat.sub_eq_zero_of_le h, List.replicate_zero, List.append_nil]

/-- What is written behind the bytes that were received is what the vector keeps. -/
theorem written_behind {data received bytes : List UInt8}
    (ht : data.take received.length = received)
    (hlen : received.length + bytes.length ≤ data.length) :
    resize (written data received.length bytes) (received.length + bytes.length) =
      received ++ bytes := by
  rw [resize_shrink (by rw [length_written]; exact hlen)]
  unfold written
  rw [ht, List.take_take, Nat.min_eq_left hlen, ← List.length_append]
  exact List.take_left

/-- The next buffer, when the one before it was filled and the sum does not wrap around. -/
theorem on_alloc_read_lends {req : Request} {s : Nat} (hcap : req.capacity < size_t_count)
    (hshort : req.data.length < req.capacity) (hs : 0 < s)
    (hnull : req.buf.base = none → req.buf.len = 0)
    (hfull : req.buf.base.getD 0 + req.buf.len = req.data.length)
    (hsum : req.data.length + s < size_t_count) :
    ∃ size, req.data.length < size ∧ size ≤ req.capacity ∧ on_alloc_read req s = { req with
      data := resize req.data size
      buf := { base := some req.data.length, len := size - req.data.length } } := by
  refine ⟨if req.capacity < req.data.length + s then req.capacity else req.data.length + s,
    ?_, ?_, ?_⟩
  · split <;> omega
  · split <;> omega
  unfold on_alloc_read
  dsimp only
  rw [Nat.mod_eq_of_lt hsum]
  generalize hsize : (if req.capacity < req.data.length + s then req.capacity
    else req.data.length + s) = size
  have hsize : req.data.length < size ∧ size < size_t_count := by
    split at hsize <;> omega
  cases hb : req.buf.base with
  | none =>
    rw [hb, hnull hb] at hfull
    have hfull : req.data.length = 0 := hfull.symm
    rw [if_neg (by omega), hfull]
    rfl
  | some base =>
    rw [hb] at hfull
    have hfull : base + req.buf.len = req.data.length := hfull
    have hsub : size + (size_t_count - req.data.length) =
        size - req.data.length + size_t_count := by omega
    have hlen : (size + (size_t_count - req.data.length)) % size_t_count =
        size - req.data.length := by
      rw [hsub, Nat.add_mod_right]
      exact Nat.mod_eq_of_lt (by omega)
    dsimp only
    rw [hfull, hlen]

theorem on_alloc_read_received (req : Request) (s : Nat) :
    (on_alloc_read req s).received = req.received := by
  unfold on_alloc_read
  dsimp only
  split <;> rfl

/-- A later buffer starts where the one before it ended. -/
theorem on_alloc_read_base {req : Request} {base : Nat} (hb : req.buf.base = some base) (s : Nat) :
    (on_alloc_read req s).buf.base = some (base + req.buf.len) := by
  unfold on_alloc_read
  rw [hb]

/-- When the sum wraps around, the length of a later buffer is the suggested size. -/
theorem on_alloc_read_wraps {req : Request} {base s : Nat} (hb : req.buf.base = some base)
    (hcap : req.capacity < size_t_count) (hshort : req.data.length < req.capacity)
    (hs : s < size_t_count)
    (hsum : size_t_count ≤ req.data.length + s) : (on_alloc_read req s).buf.len = s := by
  unfold on_alloc_read
  rw [hb]
  dsimp only
  have hmod : (req.data.length + s) % size_t_count = req.data.length + s - size_t_count := by
    rw [Nat.mod_eq_sub_mod hsum]
    exact Nat.mod_eq_of_lt (by omega)
  have hsub : req.data.length + s - size_t_count + (size_t_count - req.data.length) = s := by
    omega
  rw [hmod, if_neg (by omega), hsub]
  exact Nat.mod_eq_of_lt hs

/-! ## Deliveries -/

/-- libuv asks for a buffer of a positive size, which is a `size_t`, or delivers some bytes. -/
def Delivers : Event → Prop
  | .alloc_read s => 0 < s ∧ s < size_t_count
  | .read_cb (.data bytes) => bytes ≠ []
  | _ => False

/-- The bytes that the front read has are all of its last buffer, and the sum of their number and
the suggested size does not wrap around. -/
def FilledQueue (s : Nat) : List Request → Prop
  | [] => True
  | front :: _ => front.buf.base.getD 0 + front.buf.len = front.data.length ∧
      front.data.length + s < size_t_count

/-- A delivery that asks for a buffer only when the buffer before it was filled. -/
def Filled (c : Config) : Event → Prop
  | .alloc_read s => Delivers (.alloc_read s) ∧ FilledQueue s c.read_queue_
  | e => Delivers e

instance : ∀ e, Decidable (Delivers e)
  | .read _ => isFalse id
  | .alloc_read s => inferInstanceAs (Decidable (0 < s ∧ s < size_t_count))
  | .read_cb .error => isFalse id
  | .read_cb (.data bytes) => inferInstanceAs (Decidable (bytes ≠ []))

instance (s : Nat) : ∀ queue, Decidable (FilledQueue s queue)
  | [] => isTrue trivial
  | front :: _ => inferInstanceAs (Decidable
    (front.buf.base.getD 0 + front.buf.len = front.data.length ∧
      front.data.length + s < size_t_count))

instance (c : Config) : ∀ e, Decidable (Filled c e)
  | .alloc_read s => inferInstanceAs (Decidable (Delivers (.alloc_read s) ∧
    FilledQueue s c.read_queue_))
  | .read size => inferInstanceAs (Decidable (Delivers (.read size)))
  | .read_cb nread => inferInstanceAs (Decidable (Delivers (.read_cb nread)))

/-- What a read of `n` bytes is to do that is called in `c₀`: each buffer starts behind the bytes
that were received and ends within the capacity, the assertion holds, and the promise is set when
`n` bytes have been received, and to these bytes. -/
structure Exact (c₀ : Config) (n : Nat) (c : Config) : Prop where
  buffer : ∀ front buf, c.read_queue_ = [front] → c.lent = some buf →
    0 < buf.len ∧ buf.base = some front.received.length ∧ front.received.length + buf.len ≤ n
  assertion : c.fault ≠ some .assertion
  completes :
    (∃ front, c.read_queue_ = [front] ∧ front.received.length < n ∧ c.completed = c₀.completed) ∨
    c.read_queue_ = [] ∧ ∃ received, received.length = n ∧
      c.completed = c₀.completed ++ [⟨c₀.requested.length, received, some received⟩]

/-- The vector of the request between two deliveries. -/
structure Idle (front : Request) : Prop where
  data : front.data = front.received
  null : front.buf.base = none → front.buf.len = 0 ∧ front.data = []

/-- The vector of the request while libuv has a buffer of it. -/
structure Lent (front : Request) (buf : Buf) : Prop where
  kept : front.buf = buf
  base : buf.base = some front.received.length
  positive : 0 < buf.len
  ends : front.received.length + buf.len = front.data.length
  within : front.data.length ≤ front.capacity
  taken : front.data.take front.received.length = front.received

/-- The read is not completed. -/
structure Going (c₀ : Config) (n : Nat) (c : Config) (front : Request) : Prop where
  queue : c.read_queue_ = [front]
  reading : c.reading = true
  promise : front.promise = c₀.requested.length
  capacity : front.capacity = n
  bounded : n < size_t_count
  short : front.received.length < n
  completed : c.completed = c₀.completed
  fault : c.fault = none
  idle : c.lent = none → Idle front
  lent : ∀ buf, c.lent = some buf → Lent front buf

/-- The read is completed, and libuv does not call back any more. -/
structure Ended (c₀ : Config) (n : Nat) (c : Config) : Prop where
  queue : c.read_queue_ = []
  reading : c.reading = false
  lent : c.lent = none
  fault : c.fault = none
  completed : ∃ received, received.length = n ∧
    c.completed = c₀.completed ++ [⟨c₀.requested.length, received, some received⟩]

def Reading (c₀ : Config) (n : Nat) (c : Config) : Prop :=
  (∃ front, Going c₀ n c front) ∨ Ended c₀ n c

theorem Going.exact {c₀ c : Config} {n : Nat} {front : Request} (h : Going c₀ n c front) :
    Exact c₀ n c := by
  refine ⟨?_, ?_, Or.inl ⟨front, h.queue, h.short, h.completed⟩⟩
  · intro f buf hf hbuf
    rw [h.queue] at hf
    cases hf
    have hl := h.lent buf hbuf
    refine ⟨hl.positive, hl.base, ?_⟩
    rw [hl.ends, ← h.capacity]
    exact hl.within
  · rw [h.fault]
    nofun

theorem Ended.exact {c₀ c : Config} {n : Nat} (h : Ended c₀ n c) : Exact c₀ n c := by
  refine ⟨?_, ?_, Or.inr ⟨h.queue, h.completed⟩⟩
  · intro f buf hf
    rw [h.queue] at hf
    cases hf
  · rw [h.fault]
    nofun

theorem Reading.exact {c₀ c : Config} {n : Nat} (h : Reading c₀ n c) : Exact c₀ n c := by
  rcases h with ⟨front, hg⟩ | he
  · exact hg.exact
  · exact he.exact

/-! ## One delivery -/

theorem read_going {c₀ c₁ : Config} {n : Nat} (hn : 0 < n) (hq : c₀.read_queue_ = [])
    (hl : c₀.lent = none) (h : step c₀ (.read n) = some c₁) : ∃ front, Going c₀ n c₁ front := by
  unfold step at h
  split at h
  · cases h
  rename_i hf
  dsimp only at h
  unfold read at h
  split at h
  · cases h
  rename_i hmax
  have hmax : n ≤ max_size := Nat.le_of_not_lt hmax
  have hbound : n < size_t_count := Nat.lt_of_le_of_lt hmax (by decide)
  cases h
  refine ⟨{ promise := c₀.requested.length, capacity := n }, ?_⟩
  exact {
    queue := by rw [hq]; rfl
    reading := rfl
    promise := rfl
    capacity := rfl
    bounded := hbound
    short := hn
    completed := rfl
    fault := Option.not_isSome_iff_eq_none.mp hf
    idle := fun _ => ⟨rfl, fun _ => ⟨rfl, rfl⟩⟩
    lent := fun buf hb => by rw [hl] at hb; cases hb }

theorem alloc_read_going {c₀ c : Config} {n s : Nat} {front : Request}
    (hg : Going c₀ n c front) (hl : c.lent = none) (hs : 0 < s)
    (hfill : FilledQueue s c.read_queue_) : ∃ f, Going c₀ n (alloc_read c s) f := by
  have hidle := hg.idle hl
  have hshort : front.data.length < front.capacity := by
    rw [hidle.data, hg.capacity]
    exact hg.short
  rw [hg.queue] at hfill
  obtain ⟨size, hlt, hle, he⟩ := on_alloc_read_lends (by rw [hg.capacity]; exact hg.bounded)
    hshort hs (fun hb => (hidle.null hb).1) hfill.1 hfill.2
  have hlen := length_resize front.data size
  unfold alloc_read
  rw [hg.queue]
  dsimp only
  refine ⟨on_alloc_read front s, ?_⟩
  rw [he]
  refine ⟨rfl, hg.reading, hg.promise, hg.capacity, hg.bounded, hg.short, hg.completed, hg.fault,
    nofun, ?_⟩
  intro buf hb
  cases hb
  have htake : (resize front.data size).take front.received.length = front.received := by
    rw [← hidle.data]
    exact resize_grow (Nat.le_of_lt hlt)
  refine ⟨rfl, congrArg (fun l => some l.length) hidle.data, Nat.sub_pos_of_lt hlt, ?_, ?_, htake⟩
  · show front.received.length + (size - front.data.length) = (resize front.data size).length
    rw [hlen, ← hidle.data]
    omega
  · show (resize front.data size).length ≤ front.capacity
    rw [hlen]
    exact hle

/-- A buffer that is asked for after a delivery that did not fill the one before it, or with a size
that wraps around, is not where it is to be. -/
theorem alloc_read_filled {c₀ c : Config} {n s : Nat} {front : Request}
    (hg : Going c₀ n c front) (hl : c.lent = none) (hs : s < size_t_count)
    (he : Exact c₀ n (alloc_read c s)) : FilledQueue s c.read_queue_ := by
  have hidle := hg.idle hl
  have hshort : front.data.length < front.capacity := by
    rw [hidle.data, hg.capacity]
    exact hg.short
  have hbound : front.capacity < size_t_count := by
    rw [hg.capacity]
    exact hg.bounded
  have hbuf := he.buffer
  unfold alloc_read at hbuf
  rw [hg.queue] at hbuf
  obtain ⟨-, hbase, hend⟩ := hbuf _ _ rfl rfl
  rw [on_alloc_read_received] at hbase hend
  rw [hg.queue]
  cases hb : front.buf.base with
  | none =>
    obtain ⟨hlen, hnil⟩ := hidle.null hb
    constructor
    · rw [hb, hlen, hnil]
      rfl
    · rw [hnil, List.length_nil, Nat.zero_add]
      exact hs
  | some base =>
    rw [on_alloc_read_base hb] at hbase
    constructor
    · rw [hb, hidle.data]
      exact Option.some.inj hbase
    · refine Nat.lt_of_not_le (fun hsum => ?_)
      rw [on_alloc_read_wraps hb hbound hshort hs hsum, ← hidle.data] at hend
      rw [hg.capacity] at hbound
      omega

theorem read_cb_reading {c₀ c : Config} {n : Nat} {front : Request} (hg : Going c₀ n c front)
    {buf : Buf} (hl : c.lent = some buf) {bytes : List UInt8} (hb : bytes ≠ [])
    (hle : bytes.length ≤ buf.len) : Reading c₀ n (read_cb c (.data bytes)) := by
  have hlent := hg.lent buf hl
  have hroom : front.received.length + bytes.length ≤ front.data.length := by
    rw [← hlent.ends]
    exact Nat.add_le_add_left hle _
  have hwithin := Nat.le_trans hroom hlent.within
  have hdata := written_behind hlent.taken hroom
  have hlen : (front.received ++ bytes).length = front.received.length + bytes.length :=
    List.length_append
  unfold read_cb on_read
  rw [hg.queue, hl, Option.getD_some, hlent.base, Option.getD_some]
  dsimp only
  rw [if_neg (Nat.not_lt_of_le hwithin), hdata]
  split
  · rename_i o ho
    split at ho <;> cases ho
  · rename_i o f ho
    split at ho
    · cases ho
    rename_i hmore
    cases ho
    rw [not_or] at hmore
    refine Or.inl ⟨_, rfl, hg.reading, hg.promise, hg.capacity, hg.bounded, ?_, hg.completed,
      hg.fault, ?_, nofun⟩
    · show (front.received ++ bytes).length < n
      rw [hlen, ← hg.capacity]
      exact Nat.lt_of_le_of_ne hwithin hmore.1
    · refine fun _ => ⟨rfl, fun hnull => ?_⟩
      rw [hlent.kept, hlent.base] at hnull
      cases hnull
  · rename_i o f v stop ho
    split at ho
    · rename_i hfull
      have hfull := hfull.resolve_right hb
      cases ho
      refine Or.inr ⟨rfl, ?_, rfl, hg.fault, front.received ++ bytes, ?_, ?_⟩
      · show (c.reading && !decide (bytes ≠ [])) = false
        rw [decide_eq_true hb, hg.reading]
        rfl
      · rw [hlen, hfull]
        exact hg.capacity
      · show c.completed ++ [⟨front.promise, _, _⟩] = _
        rw [hg.completed, hg.promise]
    · cases ho

/-- What libuv does next, while the read is not completed. -/
inductive Next (c c' : Config) : Event → Prop where
  | alloc_read {s : Nat} (hl : c.lent = none) (hs : 0 < s) (hmax : s < size_t_count)
      (he : c' = alloc_read c s) : Next c c' (.alloc_read s)
  | read_cb {buf : Buf} {bytes : List UInt8} (hl : c.lent = some buf) (hb : bytes ≠ [])
      (hle : bytes.length ≤ buf.len) (he : c' = read_cb c (.data bytes)) :
      Next c c' (.read_cb (.data bytes))

theorem step_next {c c' : Config} {e : Event} (hd : Delivers e) (h : step c e = some c') :
    Next c c' e := by
  unfold step at h
  split at h
  · cases h
  cases e with
  | read size => cases hd
  | alloc_read s =>
    dsimp only at h
    split at h
    · rename_i hon
      rw [Bool.and_eq_true, Option.isNone_iff_eq_none] at hon
      cases h
      exact .alloc_read hon.2 hd.1 hd.2 rfl
    · cases h
  | read_cb nread =>
    cases nread with
    | error => cases hd
    | data bytes =>
      dsimp only at h
      split at h
      · rename_i hmay
        cases h
        unfold mayCall at hmay
        cases hl : c.lent with
        | none =>
          rw [hl] at hmay
          cases hmay
        | some buf =>
          rw [hl] at hmay
          exact .read_cb hl hd (of_decide_eq_true hmay) rfl
      · cases h

/-- After the end of the read libuv has no buffer, and reading is stopped. -/
theorem Ended.no_step {c₀ c c' : Config} {n : Nat} {e : Event} (he : Ended c₀ n c)
    (hd : Delivers e) : step c e ≠ some c' := by
  intro h
  cases step_next hd h with
  | alloc_read hl hs hmax hc =>
    unfold step at h
    rw [he.fault, he.reading] at h
    have h : (none : Option Config) = some c' := h
    cases h
  | read_cb hl hb hle hc =>
    rw [he.lent] at hl
    cases hl

theorem Filled.delivers {c : Config} {e : Event} (h : Filled c e) : Delivers e := by
  cases e with
  | read size => exact h
  | alloc_read s => exact h.1
  | read_cb nread => exact h

theorem step_reading {c₀ c c' : Config} {n : Nat} {e : Event} (hr : Reading c₀ n c)
    (hf : Filled c e) (h : step c e = some c') : Reading c₀ n c' := by
  rcases hr with ⟨front, hg⟩ | he
  · cases step_next hf.delivers h with
    | alloc_read hl hs hmax hc =>
      subst hc
      exact Or.inl (alloc_read_going hg hl hs hf.2)
    | read_cb hl hb hle hc =>
      subst hc
      exact read_cb_reading hg hl hb hle
  · exact absurd h (he.no_step hf.delivers)

theorem step_exact {c₀ c c' : Config} {n : Nat} {e : Event} (hr : Reading c₀ n c)
    (hd : Delivers e) (h : step c e = some c') : Exact c₀ n c' ↔ Filled c e := by
  refine ⟨fun he => ?_, fun hf => (step_reading hr hf h).exact⟩
  rcases hr with ⟨front, hg⟩ | hended
  · cases step_next hd h with
    | alloc_read hl hs hmax hc =>
      subst hc
      exact ⟨⟨hs, hmax⟩, alloc_read_filled hg hl hmax he⟩
    | read_cb hl hb hle hc => exact hb
  · exact absurd h (hended.no_step hd)

/-- A read delivers its bytes in every run whose deliveries fill the buffers, and a buffer that is
asked for after a delivery that did not fill the one before it is not where it is to be. -/
theorem a_read_delivers_its_bytes (n : Nat) (c₀ c₁ c : Config) (hn : 0 < n)
    (hq : c₀.read_queue_ = []) (hl : c₀.lent = none) (h₁ : step c₀ (.read n) = some c₁)
    (h : Reach step Filled c₁ c) :
    Exact c₀ n c ∧ ∀ e c', Delivers e → step c e = some c' → (Exact c₀ n c' ↔ Filled c e) := by
  have hr : Reading c₀ n c := by
    refine h.invariant (P := Reading c₀ n) (Or.inl (read_going hn hq hl h₁)) ?_
    intro t e t' hr hf hs
    exact step_reading hr hf hs
  exact ⟨hr.exact, fun e c' hd hs => step_exact hr hd hs⟩

/-- Two of four bytes come first: the next buffer starts where the vector ends. -/
theorem a_short_delivery_moves_the_next_buffer : ¬ ∀ (n : Nat) (c₁ c : Config), 0 < n →
    step {} (.read n) = some c₁ → Reach step (fun _ e => Delivers e) c₁ c → Exact {} n c := by
  intro hall
  have hrun : ∃ c₁ c, step {} (.read 4) = some c₁ ∧
      run step c₁ [.alloc_read 64, .read_cb (.data [1, 2]), .alloc_read 64] = some c ∧
      c.lent = some ⟨some 4, 2⟩ ∧ ∃ front, c.read_queue_ = [front] ∧ front.received = [1, 2] :=
    ⟨_, _, rfl, rfl, rfl, _, rfl, rfl⟩
  obtain ⟨c₁, c, h₁, hrun, hl, front, hq, hrec⟩ := hrun
  have hr : Reach step (fun _ e => Delivers e) c₁ c := by
    refine reach_of_run _ _ _ (fun _ e he => ?_) hrun
    rcases List.mem_cons.mp he with rfl | he
    · exact ⟨by decide, by decide⟩
    rcases List.mem_cons.mp he with rfl | he
    · exact List.cons_ne_nil _ _
    rw [List.mem_singleton.mp he]
    exact ⟨by decide, by decide⟩
  have hbase := ((hall 4 c₁ c (by decide) h₁ hr).buffer front _ hq hl).2.1
  rw [hrec] at hbase
  cases hbase

/-- Five bytes in three deliveries that fill their buffers. -/
theorem a_read_delivers_its_bytes_here : ∃ c₁ c, step {} (.read 5) = some c₁ ∧
    Reach step Filled c₁ c ∧ c.completed = [⟨0, [1, 2, 3, 4, 5], some [1, 2, 3, 4, 5]⟩] ∧
    Exact {} 5 c := by
  have hrun : ∃ c₁ c, step {} (.read 5) = some c₁ ∧
      runOk step Filled c₁ [.alloc_read 2, .read_cb (.data [1, 2]), .alloc_read 1,
        .read_cb (.data [3]), .alloc_read 64, .read_cb (.data [4, 5])] = some c ∧
      c.completed = [⟨0, [1, 2, 3, 4, 5], some [1, 2, 3, 4, 5]⟩] := ⟨_, _, rfl, rfl, rfl⟩
  obtain ⟨c₁, c, h₁, hrun, hdone⟩ := hrun
  have hr := reach_of_runOk _ _ _ hrun
  exact ⟨c₁, c, h₁, hr, hdone,
    (a_read_delivers_its_bytes 5 {} c₁ c (by decide) rfl rfl h₁ hr).1⟩

end lio.socket
