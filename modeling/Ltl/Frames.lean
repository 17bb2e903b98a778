-- Messages in a stream: each goes behind a header of a fixed width with its
-- length, and a reader takes a header and a body by turns.
import Mathlib.Algebra.Group.Nat.Defs

namespace frames

variable {α : Type}

/-! ## Headers and frames -/

/-- How the length of a message is written in front of it, for lengths below `limit`. -/
structure Header (α : Type) where
  width : Nat
  limit : Nat
  encode : Nat → List α
  decode : List α → Nat
  width_pos : 0 < width
  length_encode : ∀ n, (encode n).length = width
  decode_encode : ∀ n, n < limit → decode (encode n) = n

def Header.frame (h : Header α) (m : List α) : List α := h.encode m.length ++ m

def Header.stream (h : Header α) (ms : List (List α)) : List α := ms.flatMap h.frame

theorem stream_cons (h : Header α) (m : List α) (ms : List (List α)) :
    h.stream (m :: ms) = h.encode m.length ++ m ++ h.stream ms := List.flatMap_cons

theorem stream_append (h : Header α) (ms ns : List (List α)) :
    h.stream (ms ++ ns) = h.stream ms ++ h.stream ns := List.flatMap_append

theorem stream_singleton (h : Header α) (m : List α) :
    h.stream [m] = h.encode m.length ++ m := by
  simp [Header.stream, Header.frame]

/-! ## The reader -/

/-- What the reader takes next. -/
inductive Phase where
  | header
  | body (size : Nat)
  deriving DecidableEq, Repr

structure Reader (α : Type) where
  phase : Phase := .header
  messages : List (List α) := []
  deriving DecidableEq, Repr

def Reader.wants (h : Header α) (r : Reader α) : Nat :=
  match r.phase with
  | .header => h.width
  | .body size => size

def Reader.take (h : Header α) (r : Reader α) (taken : List α) : Reader α :=
  match r.phase with
  | .header => { r with phase := .body (h.decode taken) }
  | .body _ => { phase := .header, messages := r.messages ++ [taken] }

/-- Reader `r` is to take `ahead`, the end of the stream of `sent`. -/
inductive Follows (h : Header α) (r : Reader α) (sent : List (List α)) (ahead : List α) : Prop where
  | header {rest : List (List α)} (hr : r.phase = .header) (hs : sent = r.messages ++ rest)
      (ha : ahead = h.stream rest)
  | body {m : List α} {rest : List (List α)} (hr : r.phase = .body m.length)
      (hs : sent = r.messages ++ m :: rest) (ha : ahead = m ++ h.stream rest)

theorem Follows.start (h : Header α) : Follows h {} [] [] :=
  @Follows.header _ h _ _ _ [] rfl rfl rfl

/-- The messages come in their order. -/
theorem Follows.arrived {h : Header α} {r : Reader α} {sent : List (List α)} {ahead : List α}
    (hf : Follows h r sent ahead) : r.messages <+: sent := by
  cases hf with
  | header _ hs => exact ⟨_, hs.symm⟩
  | body _ hs => exact ⟨_, hs.symm⟩

theorem Follows.send {h : Header α} {r : Reader α} {sent : List (List α)} {ahead : List α}
    (hf : Follows h r sent ahead) (m : List α) :
    Follows h r (sent ++ [m]) (ahead ++ (h.encode m.length ++ m)) := by
  rw [← stream_singleton]
  cases hf with
  | @header rest hr hs ha =>
    apply Follows.header hr
    · rw [hs, List.append_assoc]
    · rw [ha, stream_append]
  | @body n rest hr hs ha =>
    apply Follows.body hr
    · rw [hs, List.append_assoc, List.cons_append]
    · rw [ha, stream_append, List.append_assoc]

/-- The first `width` elements of some frames are the header of the first of them. -/
theorem header_first {h : Header α} {taken ahead : List α} {rest : List (List α)}
    (hlen : taken.length = h.width) (ha : taken ++ ahead = h.stream rest) :
    ∃ m ms, rest = m :: ms ∧ taken = h.encode m.length ∧ ahead = m ++ h.stream ms := by
  cases rest with
  | nil =>
    have hpos := h.width_pos
    have hnil := (List.append_eq_nil_iff.mp ha).1
    rw [hnil, List.length_nil] at hlen
    omega
  | cons m ms =>
    rw [stream_cons, List.append_assoc] at ha
    obtain ⟨htaken, hahead⟩ := List.append_inj ha (by rw [hlen, h.length_encode])
    exact ⟨m, ms, rfl, htaken, hahead⟩

theorem Follows.take {h : Header α} {r : Reader α} {sent : List (List α)} {taken ahead : List α}
    (hf : Follows h r sent (taken ++ ahead)) (hlen : taken.length = r.wants h)
    (hlimit : ∀ m ∈ sent, m.length < h.limit) : Follows h (r.take h taken) sent ahead := by
  cases hf with
  | header hr hs ha =>
    simp only [Reader.wants, hr] at hlen
    obtain ⟨m, ms, rfl, rfl, rfl⟩ := header_first hlen ha
    have hm : m.length < h.limit := hlimit m (by simp [hs])
    have hphase : (r.take h (h.encode m.length)).phase = .body m.length := by
      simp only [Reader.take, hr, h.decode_encode _ hm]
    refine .body hphase ?_ rfl
    simpa only [Reader.take, hr] using hs
  | @body m rest hr hs ha =>
    simp only [Reader.wants, hr] at hlen
    obtain ⟨rfl, rfl⟩ := List.append_inj ha hlen
    refine .header ?_ ?_ rfl
    · simp only [Reader.take, hr]
    · simp only [Reader.take, hr, hs, List.append_assoc, List.singleton_append]

/-- A reader that finds too little has everything. -/
theorem Follows.short {h : Header α} {r : Reader α} {sent : List (List α)} {ahead : List α}
    (hf : Follows h r sent ahead) (hlen : ahead.length < r.wants h) : r.messages = sent := by
  cases hf with
  | @header rest hr hs ha =>
    cases rest with
    | nil => rw [hs, List.append_nil]
    | cons m ms =>
      simp only [Reader.wants, hr, ha, stream_cons, List.length_append, h.length_encode] at hlen
      omega
  | body hr hs ha =>
    simp only [Reader.wants, hr, ha, List.length_append] at hlen
    omega

/-- A reader wants at least one element, when no message is empty. -/
theorem Follows.wants_pos {h : Header α} {r : Reader α} {sent : List (List α)} {ahead : List α}
    (hf : Follows h r sent ahead) (hne : ∀ m ∈ sent, m ≠ []) : 0 < r.wants h := by
  cases hf with
  | header hr =>
    simp only [Reader.wants, hr]
    exact h.width_pos
  | @body m rest hr hs =>
    simp only [Reader.wants, hr]
    exact List.length_pos_iff.mpr (hne m (by simp [hs]))

/-! ## Numbers in bytes -/

/-- The `k` lowest bytes of `n`, the lowest first. -/
def bytes : Nat → Nat → List UInt8
  | 0, _ => []
  | k + 1, n => UInt8.ofNat n :: bytes k (n / 256)

def number : List UInt8 → Nat
  | [] => 0
  | b :: bs => b.toNat + 256 * number bs

theorem length_bytes (k n : Nat) : (bytes k n).length = k := by
  induction k generalizing n with
  | zero => rfl
  | succ k ih => simp [bytes, ih]

theorem number_bytes (k n : Nat) (hn : n < 256 ^ k) : number (bytes k n) = n := by
  induction k generalizing n with
  | zero =>
    simp only [pow_zero] at hn
    simp only [bytes, number]
    omega
  | succ k ih =>
    rw [pow_succ] at hn
    have hq : n / 256 < 256 ^ k := Nat.div_lt_of_lt_mul (by omega)
    simp only [bytes, number, ih _ hq, UInt8.toNat_ofNat']
    omega

/-- A number below `256 ^ k` in `k` bytes. -/
def inBytes (k : Nat) (hk : 0 < k) : Header UInt8 where
  width := k
  limit := 256 ^ k
  encode := bytes k
  decode := number
  width_pos := hk
  length_encode := length_bytes k
  decode_encode := number_bytes k

end frames
