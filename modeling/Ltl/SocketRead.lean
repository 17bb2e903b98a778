-- The reads of a socket (socket.cpp): the queue of the requests, and the two
-- callbacks by which libuv asks for a buffer and says how much it has put there.
import Ltl.Runs

open runs

namespace lio.socket

/-! ## Requests -/

/-- `uv_buf_t`. The base counts from `data.data()`, and none is the null pointer. -/
structure Buf where
  base : Option Nat := none
  len : Nat := 0
  deriving DecidableEq, Repr

/-- A `read_request`: its promise, and its vector with the capacity that was reserved. No step
reads `received`, which is what libuv has delivered to the request. -/
structure Request where
  promise : Nat
  capacity : Nat
  data : List UInt8 := []
  buf : Buf := {}
  received : List UInt8 := []
  deriving DecidableEq, Repr

/-- The number of the values of `size_t`, which is 2 ^ 64: a sum wraps around there. -/
def size_t_count : Nat := 0x10000000000000000

/-- `std::vector::max_size` for bytes. -/
def max_size : Nat := 0x7fffffffffffffff

def resize (data : List UInt8) (size : Nat) : List UInt8 :=
  data.take size ++ List.replicate (size - data.length) 0

/-- The vector after libuv has written `bytes` at `base`. Past the end of the vector they are lost,
because the `resize` that makes these elements fills them with zeros. -/
def written (data : List UInt8) (base : Nat) (bytes : List UInt8) : List UInt8 :=
  (data.take base ++ bytes ++ data.drop (base + bytes.length)).take data.length

/-- `on_alloc_read`. The buffer that it returns is the one that the request keeps, and the sums are
of the type `size_t`. -/
def on_alloc_read (req : Request) (s : Nat) : Request :=
  let old_s := req.data.length
  let sum := (old_s + s) % size_t_count
  let new_s := if req.capacity < sum then req.capacity else sum
  match req.buf.base with
  | none => { req with
      data := resize req.data new_s
      buf := { base := if req.capacity = 0 then none else some 0, len := new_s } }
  | some base => { req with
      data := resize req.data new_s
      buf := {
        base := some (base + req.buf.len)
        len := (new_s + (size_t_count - old_s)) % size_t_count } }

/-- `nread`: negative, or the number of the bytes that libuv has written. -/
inductive Nread where
  | error
  | data (bytes : List UInt8)
  deriving DecidableEq, Repr

/-- What `on_read` does: the assertion fails, the request goes on, or its promise is set (to an
exception, without a result) and reading is stopped or not. -/
inductive Outcome where
  | assertion
  | waits (front : Request)
  | done (front : Request) (result : Option (List UInt8)) (stop : Bool)
  deriving DecidableEq, Repr

def on_read (front : Request) (buf : Buf) : Nread → Outcome
  | .error => .done front none true
  | .data bytes =>
    let old_size := buf.base.getD 0
    let total := old_size + bytes.length
    if front.capacity < total then .assertion
    else
      let data := resize (written front.data old_size bytes) total
      let front := { front with data, received := front.received ++ bytes }
      if total = front.capacity ∨ bytes = [] then .done front (some data) (decide (bytes ≠ []))
      else .waits front

/-! ## The socket -/

/-- Why the program has stopped: `front()` on an empty queue, or the assertion of `on_read`, which
fails when libuv has written past the capacity. -/
inductive Fault where
  | front
  | assertion
  deriving DecidableEq, Repr

/-- A promise that was set, with what its request had received. -/
structure Completion where
  promise : Nat
  received : List UInt8
  result : Option (List UInt8)
  deriving DecidableEq, Repr

/-- `reading` says whether `uv_read_start` was called after the last `uv_read_stop`, and `lent` is
the buffer that libuv has asked for and not given back. No step reads `completed`. -/
structure Config where
  read_queue_ : List Request := []
  reading : Bool := false
  lent : Option Buf := none
  requested : List Nat := []
  completed : List Completion := []
  fault : Option Fault := none
  deriving DecidableEq, Repr

inductive Event where
  | read (size : Nat)
  | alloc_read (s : Nat)
  | read_cb (nread : Nread)
  deriving DecidableEq, Repr

/-- `impl::read`. For a size above `max_size` the call of `reserve` throws, and nothing changes. -/
def read (c : Config) (size : Nat) : Option Config :=
  if max_size < size then none
  else some { c with
    reading := true
    read_queue_ := c.read_queue_ ++ [{ promise := c.requested.length, capacity := size }]
    requested := c.requested ++ [size] }

/-- libuv may call `read_cb`: it delivers no more than the buffer holds that it was lent. -/
def mayCall (c : Config) : Nread → Bool
  | .error => c.reading
  | .data bytes =>
    match c.lent with
    | none => false
    | some buf => decide (bytes.length ≤ buf.len)

/-- `read_cb`, and `pop_front` at its end. -/
def read_cb (c : Config) (nread : Nread) : Config :=
  match c.read_queue_ with
  | [] => { c with fault := some .front }
  | front :: rest =>
    match on_read front (c.lent.getD {}) nread with
    | .assertion => { c with lent := none, fault := some .assertion }
    | .waits front => { c with lent := none, read_queue_ := front :: rest }
    | .done front result stop => { c with
        lent := none
        read_queue_ := rest
        reading := c.reading && !stop
        completed := c.completed ++ [⟨front.promise, front.received, result⟩] }

def alloc_read (c : Config) (s : Nat) : Config :=
  match c.read_queue_ with
  | [] => { c with fault := some .front }
  | front :: rest => { c with
      read_queue_ := on_alloc_read front s :: rest
      lent := some (on_alloc_read front s).buf }

/-- libuv calls back only while the stream is in the reading state. -/
def step (c : Config) (e : Event) : Option Config :=
  if c.fault.isSome then none
  else
    match e with
    | .read size => read c size
    | .alloc_read s => if c.reading && c.lent.isNone then some (alloc_read c s) else none
    | .read_cb nread => if mayCall c nread then some (read_cb c nread) else none

/-! ## What one step does -/

theorem length_resize (data : List UInt8) (size : Nat) : (resize data size).length = size := by
  unfold resize
  rw [List.length_append, List.length_take, List.length_replicate]
  omega

theorem on_alloc_read_promise (req : Request) (s : Nat) :
    (on_alloc_read req s).promise = req.promise := by
  unfold on_alloc_read
  dsimp only
  split <;> rfl

theorem on_alloc_read_capacity (req : Request) (s : Nat) :
    (on_alloc_read req s).capacity = req.capacity := by
  unfold on_alloc_read
  dsimp only
  split <;> rfl

/-- The size that the vector has after `bytes`, as `on_read` computes it. -/
def total (buf : Buf) (bytes : List UInt8) : Nat := buf.base.getD 0 + bytes.length

/-- What `on_read` does with `bytes`, by the size that it computes. -/
inductive Reads (front : Request) (buf : Buf) (bytes : List UInt8) : Outcome → Prop where
  | assertion (h : front.capacity < total buf bytes) : Reads front buf bytes .assertion
  | waits {f : Request} (h : total buf bytes < front.capacity) (hb : bytes ≠ [])
      (hp : f.promise = front.promise) (hc : f.capacity = front.capacity) :
      Reads front buf bytes (.waits f)
  | done {f : Request} {v : List UInt8} (h : total buf bytes ≤ front.capacity)
      (hb : total buf bytes = front.capacity ∨ bytes = []) (hp : f.promise = front.promise)
      (hv : v.length = total buf bytes) :
      Reads front buf bytes (.done f (some v) (decide (bytes ≠ [])))

theorem on_read_reads (front : Request) (buf : Buf) (bytes : List UInt8) :
    Reads front buf bytes (on_read front buf (.data bytes)) := by
  unfold on_read
  dsimp only
  split
  · rename_i h
    exact .assertion h
  · rename_i h
    have h : total buf bytes ≤ front.capacity := Nat.le_of_not_lt h
    split
    · rename_i hb
      exact .done h hb rfl (length_resize _ _)
    · rename_i hb
      rw [not_or] at hb
      exact .waits (Nat.lt_of_le_of_ne h hb.1) hb.2 rfl rfl

/-- What every step keeps. -/
structure Kept (c : Config) : Prop where
  sized : ∀ r ∈ c.read_queue_, c.requested[r.promise]? = some r.capacity
  lent : c.lent ≠ none → c.read_queue_ ≠ []

theorem init_kept : Kept {} := ⟨fun _ hr => (nomatch hr), fun h => absurd rfl h⟩

/-- A read of a new size is the last in the queue. -/
theorem read_kept {c c' : Config} (hk : Kept c) {size : Nat} (h : read c size = some c') :
    Kept c' := by
  unfold read at h
  split at h
  · cases h
  cases h
  constructor
  · intro r hr
    rcases List.mem_append.mp hr with hr | hr
    · have hs := hk.sized r hr
      exact (List.getElem?_append_left (List.getElem?_eq_some_iff.mp hs).1).trans hs
    · rw [List.mem_singleton.mp hr]
      exact List.getElem?_concat_length
  · intro _
    exact List.append_ne_nil_of_right_ne_nil _ (List.cons_ne_nil _ _)

theorem alloc_read_kept {c : Config} (hk : Kept c) (s : Nat) : Kept (alloc_read c s) := by
  unfold alloc_read
  split
  · exact ⟨hk.sized, hk.lent⟩
  · rename_i front rest hq
    constructor
    · intro r hr
      rcases List.mem_cons.mp hr with rfl | hr
      · rw [on_alloc_read_promise, on_alloc_read_capacity]
        exact hk.sized front (by rw [hq]; exact List.mem_cons_self)
      · exact hk.sized r (by rw [hq]; exact List.mem_cons_of_mem _ hr)
    · intro _
      exact List.cons_ne_nil _ _

theorem read_cb_kept {c : Config} (hk : Kept c) (nread : Nread) : Kept (read_cb c nread) := by
  unfold read_cb
  split
  · exact ⟨hk.sized, hk.lent⟩
  rename_i front rest hq
  have hfront := hk.sized front (by rw [hq]; exact List.mem_cons_self)
  have hrest : ∀ r ∈ rest, c.requested[r.promise]? = some r.capacity :=
    fun r hr => hk.sized r (by rw [hq]; exact List.mem_cons_of_mem _ hr)
  split
  · exact ⟨hk.sized, fun h => absurd rfl h⟩
  · rename_i f ho
    refine ⟨?_, fun h => absurd rfl h⟩
    intro r hr
    rcases List.mem_cons.mp hr with rfl | hr
    · cases nread with
      | error => cases ho
      | data bytes =>
        have hreads := on_read_reads front (c.lent.getD {}) bytes
        rw [ho] at hreads
        cases hreads with
        | waits _ _ hp hc =>
          rw [hp, hc]
          exact hfront
    · exact hrest r hr
  · exact ⟨hrest, fun h => absurd rfl h⟩

theorem step_kept {c c' : Config} {e : Event} (hk : Kept c) (h : step c e = some c') :
    Kept c' := by
  unfold step at h
  split at h
  · cases h
  split at h
  · exact read_kept hk h
  · split at h
    · cases h
      exact alloc_read_kept hk _
    · cases h
  · split at h
    · cases h
      exact read_cb_kept hk _
    · cases h

/-- The step does not stop the program: `reserve` takes the size of a read, and a callback finds the
read that it is for, with room for its bytes. -/
def GoesOn (c : Config) : Event → Prop
  | .read size => size ≤ max_size
  | .alloc_read _ => c.read_queue_ ≠ []
  | .read_cb .error => c.read_queue_ ≠ []
  | .read_cb (.data bytes) =>
    ∃ front ∈ c.read_queue_.head?, total (c.lent.getD {}) bytes ≤ front.capacity

instance (c : Config) : ∀ e, Decidable (GoesOn c e)
  | .read size => inferInstanceAs (Decidable (size ≤ max_size))
  | .alloc_read _ => inferInstanceAs (Decidable (c.read_queue_ ≠ []))
  | .read_cb .error => inferInstanceAs (Decidable (c.read_queue_ ≠ []))
  | .read_cb (.data bytes) => inferInstanceAs (Decidable
    (∃ front ∈ c.read_queue_.head?, total (c.lent.getD {}) bytes ≤ front.capacity))

theorem read_goes_on (c : Config) (size : Nat) : read c size ≠ none ↔ size ≤ max_size := by
  unfold read
  split
  · rename_i h
    exact ⟨fun hn => absurd rfl hn, fun hle => absurd hle (Nat.not_le_of_lt h)⟩
  · rename_i h
    exact ⟨fun _ => Nat.le_of_not_lt h, fun _ => nofun⟩

theorem read_cb_goes_on {c : Config} (hf : c.fault = none) (nread : Nread) :
    (read_cb c nread).fault = none ↔ GoesOn c (.read_cb nread) := by
  unfold read_cb
  cases hq : c.read_queue_ with
  | nil => cases nread <;> simp [GoesOn, hq]
  | cons front rest =>
    cases nread with
    | error => simp [GoesOn, hq, on_read, hf]
    | data bytes =>
      have hreads := on_read_reads front (c.lent.getD {}) bytes
      simp only [GoesOn, hq, List.head?_cons, Option.mem_def, Option.some.injEq, exists_eq_left']
      generalize on_read front (c.lent.getD {}) (.data bytes) = o at hreads
      cases hreads with
      | assertion h => exact ⟨nofun, fun hle => absurd hle (Nat.not_le_of_lt h)⟩
      | waits h => exact ⟨fun _ => Nat.le_of_lt h, fun _ => hf⟩
      | done h => exact ⟨fun _ => h, fun _ => hf⟩

theorem step_goes_on {c c' : Config} {e : Event} (h : step c e = some c') :
    c'.fault = none ↔ GoesOn c e := by
  unfold step at h
  split at h
  · cases h
  rename_i hf
  rw [Option.not_isSome_iff_eq_none] at hf
  split at h
  · rename_i size
    have hgo : size ≤ max_size := (read_goes_on c size).mp (by rw [h]; exact nofun)
    unfold read at h
    rw [if_neg (Nat.not_lt_of_le hgo)] at h
    cases h
    exact ⟨fun _ => hgo, fun _ => hf⟩
  · split at h
    · cases h
      unfold alloc_read GoesOn
      cases hq : c.read_queue_ with
      | nil => simp
      | cons front rest => simp [hf]
    · cases h
  · split at h
    · cases h
      exact read_cb_goes_on hf _
    · cases h

/-! ## Reading follows the queue -/

/-- The stream is in the reading state exactly while reads are queued, no callback has found the
queue empty, and the reads are completed in their order, a successful one with its full size. -/
structure Matched (c : Config) : Prop where
  reading : c.reading = true ↔ c.read_queue_ ≠ []
  front : c.fault ≠ some .front
  order : c.completed.map (·.promise) ++ c.read_queue_.map (·.promise) =
    List.range c.requested.length
  full : ∀ x ∈ c.completed, ∀ v, x.result = some v → c.requested[x.promise]? = some v.length

theorem init_matched : Matched {} := by
  refine ⟨?_, nofun, rfl, fun _ hx => (nomatch hx)⟩
  constructor
  · intro h
    cases h
  · intro h
    exact absurd rfl h

/-- A callback that stops reading finds no read behind the first, and a callback without any bytes
finds that read full already (as a read of the size 0 is) and another one behind it. -/
def FitsQueue (buf : Buf) : List Request → Nread → Prop
  | [], _ => True
  | _ :: rest, .error => rest = []
  | front :: rest, .data bytes =>
    (bytes = [] → front.capacity ≤ total buf bytes) ∧
      (total buf bytes = front.capacity → (bytes = [] ↔ rest ≠ []))

def Fits (c : Config) : Event → Prop
  | .read_cb nread => FitsQueue (c.lent.getD {}) c.read_queue_ nread
  | _ => True

instance (buf : Buf) : ∀ queue nread, Decidable (FitsQueue buf queue nread)
  | [], _ => isTrue trivial
  | _ :: rest, .error => inferInstanceAs (Decidable (rest = []))
  | front :: rest, .data bytes => inferInstanceAs (Decidable
    ((bytes = [] → front.capacity ≤ total buf bytes) ∧
      (total buf bytes = front.capacity → (bytes = [] ↔ rest ≠ []))))

instance (c : Config) : ∀ e, Decidable (Fits c e)
  | .read_cb nread => inferInstanceAs (Decidable (FitsQueue (c.lent.getD {}) c.read_queue_ nread))
  | .read _ => isTrue trivial
  | .alloc_read _ => isTrue trivial

theorem read_matched {c c' : Config} (hm : Matched c) {size : Nat}
    (h : read c size = some c') : Matched c' := by
  unfold read at h
  split at h
  · cases h
  cases h
  refine ⟨?_, hm.front, ?_, ?_⟩
  · constructor
    · intro _
      exact List.append_ne_nil_of_right_ne_nil _ (List.cons_ne_nil _ _)
    · intro _
      rfl
  · show _ ++ List.map _ (c.read_queue_ ++ [_]) = List.range (c.requested ++ [size]).length
    rw [List.map_append, ← List.append_assoc, hm.order, List.length_append, List.length_singleton,
      List.range_succ]
    rfl
  · intro x hx v hv
    have hs := hm.full x hx v hv
    exact (List.getElem?_append_left (List.getElem?_eq_some_iff.mp hs).1).trans hs

theorem alloc_read_matched {c : Config} (hm : Matched c) (hr : c.reading = true) (s : Nat) :
    Matched (alloc_read c s) := by
  unfold alloc_read
  split
  · rename_i hq
    exact absurd hq (hm.reading.mp hr)
  · rename_i front rest hq
    refine ⟨?_, hm.front, ?_, hm.full⟩
    · constructor
      · intro _
        exact List.cons_ne_nil _ _
      · intro _
        exact hr
    · have ho := hm.order
      rw [hq, List.map_cons] at ho
      show _ ++ List.map _ (_ :: rest) = _
      rw [List.map_cons, on_alloc_read_promise]
      exact ho

/-- The front read is completed: reading has to be stopped exactly when no read is left. -/
theorem done_matched {c : Config} (hm : Matched c) (hk : Kept c) {front f : Request}
    {rest : List Request} (hq : c.read_queue_ = front :: rest) (hp : f.promise = front.promise)
    (result : Option (List UInt8)) (stop : Bool) :
    Matched { c with
      lent := none
      read_queue_ := rest
      reading := c.reading && !stop
      completed := c.completed ++ [⟨f.promise, f.received, result⟩] } ↔
    (stop = true ↔ rest = []) ∧ ∀ v, result = some v → v.length = front.capacity := by
  have hon : c.reading = true := hm.reading.mpr (by rw [hq]; exact List.cons_ne_nil _ _)
  have hsize : c.requested[f.promise]? = some front.capacity := by
    rw [hp]
    exact hk.sized front (by rw [hq]; exact List.mem_cons_self)
  constructor
  · intro hd
    constructor
    · have hflag : (c.reading && !stop) = true ↔ rest ≠ [] := hd.reading
      rw [hon] at hflag
      cases stop with
      | false => exact ⟨fun h => (nomatch h), fun h => absurd h (hflag.mp rfl)⟩
      | true =>
        refine ⟨fun _ => ?_, fun _ => rfl⟩
        refine Decidable.byContradiction (fun hne => ?_)
        exact nomatch hflag.mpr hne
    · intro v hv
      have hf := hd.full ⟨f.promise, f.received, result⟩
        (List.mem_append_right _ List.mem_cons_self) v hv
      exact Option.some.inj (hf.symm.trans hsize)
  · rintro ⟨hstop, hfull⟩
    refine ⟨?_, hm.front, ?_, ?_⟩
    · show (c.reading && !stop) = true ↔ rest ≠ []
      rw [hon]
      cases stop with
      | false =>
        refine ⟨fun _ hnil => ?_, fun _ => rfl⟩
        exact nomatch hstop.mpr hnil
      | true => exact ⟨fun h => (nomatch h), fun hne => absurd (hstop.mp rfl) hne⟩
    · have ho := hm.order
      rw [hq, List.map_cons] at ho
      show List.map _ (c.completed ++ [_]) ++ _ = _
      rw [List.map_append, List.append_assoc, List.map_singleton, List.singleton_append, hp]
      exact ho
    · intro x hx v hv
      rcases List.mem_append.mp hx with hx | hx
      · exact hm.full x hx v hv
      · cases List.mem_singleton.mp hx
        rw [hfull v hv]
        exact hsize

/-- A callback that completes the front read is as it has to be exactly when it fits. -/
theorem done_fits {front : Request} {rest : List Request} {buf : Buf} {bytes : List UInt8}
    (h : total buf bytes ≤ front.capacity)
    (hb : total buf bytes = front.capacity ∨ bytes = []) :
    (bytes ≠ [] ↔ rest = []) ∧ total buf bytes = front.capacity ↔
      FitsQueue buf (front :: rest) (.data bytes) := by
  constructor
  · rintro ⟨hstop, hfull⟩
    refine ⟨fun _ => Nat.le_of_eq hfull.symm, fun _ => ⟨?_, ?_⟩⟩
    · intro hn hnil
      exact hstop.mpr hnil hn
    · intro hne
      exact Decidable.byContradiction (fun hn => hne (hstop.mp hn))
  · rintro ⟨hempty, hrest⟩
    have hfull : total buf bytes = front.capacity := by
      rcases hb with hb | hb
      · exact hb
      · exact Nat.le_antisymm h (hempty hb)
    have hrest := hrest hfull
    refine ⟨⟨?_, ?_⟩, hfull⟩
    · intro hn
      exact Decidable.byContradiction (fun hne => hn (hrest.mpr hne))
    · intro hnil hn
      exact hrest.mp hn hnil

theorem read_cb_matched {c : Config} (hm : Matched c) (hk : Kept c) {nread : Nread}
    (hmay : mayCall c nread = true) : Matched (read_cb c nread) ↔ Fits c (.read_cb nread) := by
  unfold read_cb Fits
  dsimp only
  cases hq : c.read_queue_ with
  | nil =>
    -- libuv has no buffer of an empty queue, and is not in the reading state
    exfalso
    cases nread with
    | error => exact hm.reading.mp hmay hq
    | data bytes =>
      refine hk.lent (fun hl => ?_) hq
      unfold mayCall at hmay
      rw [hl] at hmay
      cases hmay
  | cons front rest =>
    cases nread with
    | error =>
      refine (done_matched hm hk hq rfl none true).trans ?_
      constructor
      · intro h
        exact h.1.mp rfl
      · intro h
        exact ⟨⟨fun _ => h, fun _ => rfl⟩, fun _ hv => (nomatch hv)⟩
    | data bytes =>
      have hreads := on_read_reads front (c.lent.getD {}) bytes
      have hr := hm.reading
      have ho := hm.order
      rw [hq] at hr
      rw [hq, List.map_cons] at ho
      dsimp only
      generalize on_read front (c.lent.getD {}) (.data bytes) = o at hreads
      cases hreads with
      | assertion h =>
        refine ⟨fun _ => ⟨fun _ => Nat.le_of_lt h, fun he => ?_⟩, fun _ => ?_⟩
        · exact absurd he (Nat.ne_of_gt h)
        · exact ⟨hr, nofun, ho, hm.full⟩
      | waits h hb hp hc =>
        refine ⟨fun _ => ⟨fun hn => absurd hn hb, fun he => ?_⟩, fun _ => ?_⟩
        · exact absurd he (Nat.ne_of_lt h)
        · refine ⟨?_, hm.front, ?_, hm.full⟩
          · exact ⟨fun _ => List.cons_ne_nil _ _, fun _ => hr.mpr (List.cons_ne_nil _ _)⟩
          · show _ ++ List.map _ (_ :: rest) = _
            rw [List.map_cons, hp]
            exact ho
      | @done f v h hb hp hv =>
        refine (done_matched hm hk hq hp (some v) _).trans (Iff.trans ?_ (done_fits h hb))
        rw [decide_eq_true_iff, ← hv]
        refine and_congr_right (fun _ => ⟨fun hfull => hfull v rfl, fun hfull w hw => ?_⟩)
        cases hw
        exact hfull

theorem step_matched {c c' : Config} {e : Event} (hm : Matched c) (hk : Kept c)
    (h : step c e = some c') : Matched c' ↔ Fits c e := by
  unfold step at h
  split at h
  · cases h
  split at h
  · exact ⟨fun _ => trivial, fun _ => read_matched hm h⟩
  · split at h
    · rename_i hon
      cases h
      rw [Bool.and_eq_true] at hon
      exact ⟨fun _ => trivial, fun _ => alloc_read_matched hm hon.1 _⟩
    · cases h
  · split at h
    · rename_i hmay
      cases h
      exact read_cb_matched hm hk hmay
    · cases h

/-- Reading follows the queue in every run whose steps all fit, and a step that does not fit breaks
it. -/
theorem reading_follows_the_queue (c : Config) (h : Reach step Fits {} c) :
    Matched c ∧ ∀ e c', step c e = some c' → (Matched c' ↔ Fits c e) := by
  obtain ⟨hm, hk⟩ : Matched c ∧ Kept c := by
    refine h.invariant (P := fun t => Matched t ∧ Kept t) ⟨init_matched, init_kept⟩ ?_
    rintro t e t' ⟨hm, hk⟩ hfit hs
    exact ⟨(step_matched hm hk hs).mpr hfit, step_kept hk hs⟩
  exact ⟨hm, fun e c' hs => step_matched hm hk hs⟩

/-- The first of two reads is completed, and reading is off while the second one is queued. After
a callback without any bytes reading is on without a read, and the next callback finds none. -/
theorem a_completed_read_stops_the_next :
    (¬ ∀ c, Reach step anyEvent {} c → Matched c) ∧
      ∃ c, Reach step anyEvent {} c ∧ c.fault = some .front := by
  constructor
  · intro hall
    have hrun : ∃ c, run step {} [.read 1, .read 1, .alloc_read 64, .read_cb (.data [7])] = some c ∧
        c.reading = false ∧ c.read_queue_.length = 1 := ⟨_, rfl, rfl, rfl⟩
    obtain ⟨c, hrun, hoff, hlen⟩ := hrun
    have hm := (hall c (reach_anyEvent hrun)).reading
    rw [hoff] at hm
    refine nomatch hm.mpr (fun hnil => ?_)
    rw [hnil] at hlen
    cases hlen
  · have hrun : ∃ c, run step {} [.read 1, .alloc_read 64, .read_cb (.data []), .alloc_read 64] =
        some c ∧ c.fault = some .front := ⟨_, rfl, rfl⟩
    obtain ⟨c, hrun, hf⟩ := hrun
    exact ⟨c, reach_anyEvent hrun, hf⟩

/-- A read in two deliveries, and one that fails. -/
theorem reading_follows_the_queue_here : ∃ c, Reach step Fits {} c ∧
    c.completed = [⟨0, [7, 8], some [7, 8]⟩, ⟨1, [], none⟩] ∧ Matched c := by
  have hrun : ∃ c, runOk step Fits {} [.read 2, .alloc_read 1, .read_cb (.data [7]),
      .alloc_read 64, .read_cb (.data [8]), .read 3, .alloc_read 64, .read_cb .error] = some c ∧
      c.completed = [⟨0, [7, 8], some [7, 8]⟩, ⟨1, [], none⟩] := ⟨_, rfl, rfl⟩
  obtain ⟨c, hrun, hdone⟩ := hrun
  have hr := reach_of_runOk _ _ _ hrun
  exact ⟨c, hr, hdone, (reading_follows_the_queue c hr).1⟩

end lio.socket
