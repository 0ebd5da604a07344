import HyperionRuntime.Core.RingBuffer

/-!
# The ring buffer as a bounded queue

`push`, `pop` and `peek` of `LockFreeRingBuffer<T, Capacity>` called one at a time, each running
to its return before the next starts. These are the runs of the step model `Spsc` in which the
steps of one call follow each other (`run_push`, `run_pop`, `run_peek`).

`Ring.view` reads a FIFO queue off the fields: the `(m_tail - m_head) mod Capacity` slots from
`m_head` on. Every call keeps `m_head, m_tail < Capacity` and does to the view what the same call
does to a queue of capacity `Capacity - 1` (`Ring.Inv.call_refines`); `ring_refines_queue` states it
for every call after every sequence of calls.
-/

namespace HyperionRuntime.Core

/-- The fields `m_head`, `m_tail` and `m_buffer`. -/
structure Ring (α : Type) where
  head : Nat
  tail : Nat
  buffer : Nat → α

/-- A call of the buffer's interface. -/
inductive Call (α : Type) where
  | push (item : α)
  | pop
  | peek

/-- What a call returns; `peek` returns the slot `&m_buffer[current_head]`, or `nullptr`. -/
inductive Reply (α : Type) where
  | push (ok : Bool)
  | pop (item : Option α)
  | peek (slot : Option Nat)

variable {α : Type} (C : Capacity)

namespace Ring

/-- The constructor: `m_head(0), m_tail(0)`. -/
def init (buffer : Nat → α) : Ring α := ⟨0, 0, buffer⟩

/-- `push(item)`: `false` when the index after `m_tail` is `m_head`. -/
def push (r : Ring α) (item : α) : Bool × Ring α :=
  let currentTail := r.tail
  let nextTail := nextIndex C currentTail
  if nextTail = r.head then (false, r)
  else (true, { r with buffer := Function.update r.buffer currentTail item, tail := nextTail })

/-- `pop()`: `std::nullopt` when `m_head = m_tail`. -/
def pop (r : Ring α) : Option α × Ring α :=
  let currentHead := r.head
  if currentHead = r.tail then (none, r)
  else (some (r.buffer currentHead), { r with head := nextIndex C currentHead })

/-- `peek()`. -/
def peek (r : Ring α) : Option Nat :=
  let currentHead := r.head
  if currentHead = r.tail then none else some currentHead

/-- One call and its reply. -/
def call (r : Ring α) : Call α → Reply α × Ring α
  | .push item => (.push (r.push C item).1, (r.push C item).2)
  | .pop => (.pop (r.pop C).1, (r.pop C).2)
  | .peek => (.peek r.peek, r)

/-- The state after the calls `calls`, in order. -/
def run (r : Ring α) (calls : List (Call α)) : Ring α := calls.foldl (fun r c => (r.call C c).2) r

/-- `(m_tail - m_head) mod Capacity`, the number of items. -/
def size (r : Ring α) : Nat := (r.tail + C.val - r.head) % C.val

/-- The `n` slots from `start` on, modulo the capacity. -/
def window (buffer : Nat → α) (start n : Nat) : List α :=
  (List.range n).map fun i => buffer ((start + i) % C.val)

/-- The queue the buffer holds. -/
def view (r : Ring α) : List α := window C r.buffer r.head (r.size C)

/-- The representation invariant. -/
structure Inv (r : Ring α) : Prop where
  head_lt : r.head < C.val
  tail_lt : r.tail < C.val

end Ring

/-- A FIFO queue of at most `cap` items. -/
structure BoundedQueue (α : Type) (cap : Nat) where
  items : List α
  length_le : items.length ≤ cap

/-- What a queue operation returns. -/
inductive QueueReply (α : Type) where
  | push (ok : Bool)
  | pop (item : Option α)
  | peek (front : Option α)

namespace BoundedQueue
variable {cap : Nat}

def empty (cap : Nat) : BoundedQueue α cap := ⟨[], Nat.zero_le _⟩

/-- Append, unless the queue is full; a full queue is left as it is. -/
def push (q : BoundedQueue α cap) (x : α) : Bool × BoundedQueue α cap :=
  if h : q.items.length < cap then
    (true, ⟨q.items ++ [x], by rw [List.length_append, List.length_singleton]; omega⟩)
  else (false, q)

/-- Remove and return the front, if any. -/
def pop : BoundedQueue α cap → Option α × BoundedQueue α cap
  | ⟨[], h⟩ => (none, ⟨[], h⟩)
  | ⟨x :: xs, h⟩ => (some x, ⟨xs, by rw [List.length_cons] at h; omega⟩)

def peek (q : BoundedQueue α cap) : Option α := q.items.head?

def call (q : BoundedQueue α cap) : Call α → QueueReply α × BoundedQueue α cap
  | .push item => (.push (q.push item).1, (q.push item).2)
  | .pop => (.pop q.pop.1, q.pop.2)
  | .peek => (.peek q.peek, q)

def run (q : BoundedQueue α cap) (calls : List (Call α)) : BoundedQueue α cap :=
  calls.foldl (fun q c => (q.call c).2) q

end BoundedQueue

/-- A reply of the buffer matches the queue's: the same flag or item, and a slot that holds the
front exactly when the queue has one. -/
def Reply.Matches (buffer : Nat → α) : Reply α → QueueReply α → Prop
  | .push ok, .push ok' => ok = ok'
  | .pop x, .pop x' => x = x'
  | .peek p, .peek x => p.map buffer = x
  | _, _ => False

namespace Ring
variable {C} {r : Ring α}

/-! ## Sizes -/

theorem size_lt (r : Ring α) : r.size C < C.val := Nat.mod_lt _ C.pos

theorem Inv.tail_eq (H : r.Inv C) : r.tail = (r.head + r.size C) % C.val := by
  have := H.head_lt; have := H.tail_lt
  rcases le_or_lt r.head r.tail with hle | hlt
  · rw [size, show r.tail + C.val - r.head = r.tail - r.head + C.val by omega, Nat.add_mod_right,
      Nat.mod_eq_of_lt (a := r.tail - r.head) (by omega), Nat.add_sub_cancel' hle,
      Nat.mod_eq_of_lt H.tail_lt]
  · rw [size, Nat.mod_eq_of_lt (a := r.tail + C.val - r.head) (by omega),
      show r.head + (r.tail + C.val - r.head) = r.tail + C.val by omega, Nat.add_mod_right,
      Nat.mod_eq_of_lt H.tail_lt]

/-- The size of a ring whose tail is `s` slots after its head. -/
theorem size_of_tail_eq {h s t : Nat} (hh : h < C.val) (hs : s < C.val) (ht : t = (h + s) % C.val) :
    (t + C.val - h) % C.val = s := by
  subst ht
  rcases lt_or_le (h + s) C.val with hlt | hle
  · rw [Nat.mod_eq_of_lt hlt, show h + s + C.val - h = s + C.val by omega, Nat.add_mod_right,
      Nat.mod_eq_of_lt hs]
  · rw [show h + s = h + s - C.val + C.val by omega, Nat.add_mod_right,
      Nat.mod_eq_of_lt (a := h + s - C.val) (by omega),
      show h + s - C.val + C.val - h = s by omega, Nat.mod_eq_of_lt hs]

theorem Inv.head_eq_tail_iff (H : r.Inv C) : r.head = r.tail ↔ r.size C = 0 := by
  rw [H.tail_eq]
  constructor
  · intro h
    by_contra hs
    exact C.mod_ne (Nat.lt_add_of_pos_right (Nat.pos_of_ne_zero hs))
      (Nat.add_lt_add_left (r.size_lt) _) (by rwa [Nat.mod_eq_of_lt H.head_lt])
  · intro h; rw [h, Nat.add_zero, Nat.mod_eq_of_lt H.head_lt]

theorem Inv.nextIndex_tail_eq_head_iff (H : r.Inv C) :
    nextIndex C r.tail = r.head ↔ r.size C + 1 = C.val := by
  rw [H.tail_eq, nextIndex_mod, Nat.add_assoc]
  constructor
  · intro h
    by_contra hs
    exact C.mod_ne (Nat.lt_add_of_pos_right (Nat.succ_pos _))
      (show r.head + (r.size C + 1) < r.head + C.val by have := r.size_lt (C := C); omega)
      (by rw [Nat.mod_eq_of_lt H.head_lt]; exact h.symm)
  · intro h; rw [h, Nat.add_mod_right, Nat.mod_eq_of_lt H.head_lt]

/-! ## Windows -/

theorem window_succ (buffer : Nat → α) (start n : Nat) :
    window C buffer start (n + 1) = window C buffer start n ++ [buffer ((start + n) % C.val)] := by
  rw [window, List.range_succ, List.map_append]; rfl

theorem window_succ' (buffer : Nat → α) (start n : Nat) :
    window C buffer start (n + 1) = buffer (start % C.val) :: window C buffer (start + 1) n := by
  rw [window, List.range_succ_eq_map, List.map_cons, List.map_map, Nat.add_zero]
  congr 2
  funext i
  show buffer ((start + (i + 1)) % C.val) = _
  rw [Nat.add_comm i 1, Nat.add_assoc]

theorem window_update {buffer : Nat → α} {start n t : Nat} (x : α)
    (h : ∀ i < n, (start + i) % C.val ≠ t) :
    window C (Function.update buffer t x) start n = window C buffer start n :=
  List.map_congr_left fun i hi => Function.update_noteq (h i (List.mem_range.1 hi)) _ _

theorem window_mod (buffer : Nat → α) (start n : Nat) :
    window C buffer (start % C.val) n = window C buffer start n :=
  List.map_congr_left fun i _ => by rw [Nat.mod_add_mod]

theorem length_window (buffer : Nat → α) (start n : Nat) : (window C buffer start n).length = n := by
  rw [window, List.length_map, List.length_range]

theorem length_view (r : Ring α) : (r.view C).length = r.size C := length_window _ _ _

/-! ## Each call on the view -/

theorem Inv.push_full (H : r.Inv C) (item : α) (hfull : r.size C + 1 = C.val) :
    r.push C item = (false, r) :=
  if_pos (H.nextIndex_tail_eq_head_iff.2 hfull)

theorem Inv.push_room (H : r.Inv C) (item : α) (hroom : r.size C + 1 < C.val) :
    (r.push C item).1 = true ∧ (r.push C item).2.Inv C ∧ (r.push C item).2.view C = r.view C ++ [item] := by
  have hne : nextIndex C r.tail ≠ r.head := fun h => by
    rw [H.nextIndex_tail_eq_head_iff] at h; omega
  have hp : r.push C item =
      (true, ⟨r.head, nextIndex C r.tail, Function.update r.buffer r.tail item⟩) := if_neg hne
  have hsize : (nextIndex C r.tail + C.val - r.head) % C.val = r.size C + 1 :=
    size_of_tail_eq H.head_lt hroom (by rw [H.tail_eq, nextIndex_mod, Nat.add_assoc])
  rw [hp]
  refine ⟨rfl, ⟨H.head_lt, by rw [nextIndex, C.and_sub_one]; exact Nat.mod_lt _ C.pos⟩, ?_⟩
  show window C (Function.update r.buffer r.tail item) r.head
    ((nextIndex C r.tail + C.val - r.head) % C.val) = r.view C ++ [item]
  rw [hsize, window_succ, window_update item fun i hi => by
      rw [H.tail_eq]; exact C.mod_ne (by omega) (by have := r.size_lt (C := C); omega),
    ← H.tail_eq, Function.update_same]
  rfl

theorem Inv.pop_empty (H : r.Inv C) (hempty : r.size C = 0) : r.pop C = (none, r) :=
  if_pos (H.head_eq_tail_iff.2 hempty)

theorem Inv.pop_nonempty (H : r.Inv C) (hne : r.size C ≠ 0) :
    (r.pop C).1 = some (r.buffer r.head) ∧ (r.pop C).2.Inv C ∧
      r.view C = r.buffer r.head :: (r.pop C).2.view C := by
  have hp : r.pop C = (some (r.buffer r.head), ⟨nextIndex C r.head, r.tail, r.buffer⟩) :=
    if_neg fun h => hne (H.head_eq_tail_iff.1 h)
  have hhead : nextIndex C r.head = (r.head + 1) % C.val := by
    rw [← nextIndex_mod, Nat.mod_eq_of_lt H.head_lt]
  have hsize : (r.tail + C.val - nextIndex C r.head) % C.val = r.size C - 1 := by
    rw [hhead]
    refine size_of_tail_eq (Nat.mod_lt _ C.pos) (by have := r.size_lt (C := C); omega) ?_
    rw [Nat.mod_add_mod, H.tail_eq, Nat.add_assoc, Nat.add_sub_cancel' (Nat.pos_of_ne_zero hne)]
  rw [hp]
  refine ⟨rfl, ⟨by rw [hhead]; exact Nat.mod_lt _ C.pos, H.tail_lt⟩, ?_⟩
  show window C r.buffer r.head (r.size C) =
    r.buffer r.head :: window C r.buffer (nextIndex C r.head) ((r.tail + C.val - nextIndex C r.head) % C.val)
  obtain ⟨n, hn⟩ := Nat.exists_eq_succ_of_ne_zero hne
  rw [hsize, hhead, window_mod, hn, window_succ', Nat.mod_eq_of_lt H.head_lt, Nat.succ_sub_one]

/-- Every call keeps the invariant and does to the view what the same call does to a queue of
capacity `Capacity - 1`. -/
theorem Inv.call_refines (H : r.Inv C) (c : Call α) (q : BoundedQueue α (C.val - 1))
    (hq : r.view C = q.items) :
    (r.call C c).2.Inv C ∧ (r.call C c).2.view C = (q.call c).2.items ∧
      Reply.Matches r.buffer (r.call C c).1 (q.call c).1 := by
  have hlen : q.items.length = r.size C := by rw [← hq, length_view]
  have hsz := r.size_lt (C := C)
  cases c with
  | push item =>
    show (r.push C item).2.Inv C ∧ (r.push C item).2.view C = (q.push item).2.items ∧
      (r.push C item).1 = (q.push item).1
    by_cases hroom : r.size C + 1 < C.val
    · obtain ⟨h₁, h₂, h₃⟩ := H.push_room item hroom
      rw [BoundedQueue.push, dif_pos (by omega), h₁, h₃, hq]
      exact ⟨h₂, rfl, rfl⟩
    · rw [H.push_full item (by omega), BoundedQueue.push, dif_neg (by omega)]
      exact ⟨H, hq, rfl⟩
  | pop =>
    show (r.pop C).2.Inv C ∧ (r.pop C).2.view C = q.pop.2.items ∧ (r.pop C).1 = q.pop.1
    rcases q with ⟨_ | ⟨y, ys⟩, hl⟩
    · rw [H.pop_empty (by simpa using hlen.symm)]
      exact ⟨H, hq, rfl⟩
    · obtain ⟨h₁, h₂, h₃⟩ := H.pop_nonempty (by simp only [List.length_cons] at hlen; omega)
      rw [h₃] at hq
      obtain ⟨rfl, hys⟩ := List.cons_eq_cons.1 hq
      exact ⟨h₂, hys, h₁⟩
  | peek =>
    refine ⟨H, hq, ?_⟩
    show Option.map r.buffer r.peek = q.items.head?
    by_cases hempty : r.size C = 0
    · rw [peek, if_pos (H.head_eq_tail_iff.2 hempty), ← hq, view, hempty]; rfl
    · rw [peek, if_neg (fun h => hempty (H.head_eq_tail_iff.1 h)), ← hq, view,
        ← Nat.succ_pred_eq_of_ne_zero hempty, window_succ', Nat.mod_eq_of_lt H.head_lt]
      rfl

/-- Over a whole sequence of calls. -/
theorem Inv.run_refines (H : r.Inv C) {q : BoundedQueue α (C.val - 1)} (hq : r.view C = q.items)
    (calls : List (Call α)) : (r.run C calls).Inv C ∧ (r.run C calls).view C = (q.run calls).items := by
  induction calls generalizing r q with
  | nil => exact ⟨H, hq⟩
  | cons c calls ih =>
    obtain ⟨H', hq', -⟩ := H.call_refines c q hq
    exact ih H' hq'

theorem Inv.init (buffer : Nat → α) : (init buffer).Inv C := ⟨C.pos, C.pos⟩

theorem view_init (buffer : Nat → α) : (init buffer).view C = [] := by
  rw [view, size, init, Nat.zero_add, Nat.sub_zero, Nat.mod_self]; rfl

end Ring

/-! ## Calls made one at a time are runs of the step model -/

/-- The fields the calls read and write. -/
def Spsc.ring (σ : Spsc α) : Ring α := ⟨σ.head, σ.tail, σ.buffer⟩

/-- `push` run alone: its load of `m_tail`, then the producer's steps. The item is recorded as
pushed exactly when the call succeeds, and the consumer is left as it was. -/
theorem run_push (σ : Spsc α) (item : α) (hp : σ.producer = .idle) :
    (run C σ [.push item, .producer, .producer, .producer]).ring = (σ.ring.push C item).2 ∧
      (run C σ [.push item, .producer, .producer, .producer]).producer = .idle ∧
      (run C σ [.push item, .producer, .producer, .producer]).consumer = σ.consumer ∧
      (run C σ [.push item, .producer, .producer, .producer]).popped = σ.popped ∧
      (run C σ [.push item, .producer, .producer, .producer]).pushed =
        σ.pushed ++ if (σ.ring.push C item).1 then [item] else [] := by
  by_cases h : nextIndex C σ.tail = σ.head <;>
    simp only [run, List.foldl, step, hp, producerStep, Ring.push, Spsc.ring, h, if_true, if_false,
      Bool.false_eq_true, List.append_nil, and_self]

/-- `pop` run alone. The item it returns is recorded as popped, and the producer is left as it
was. -/
theorem run_pop (σ : Spsc α) (hc : σ.consumer = .idle) :
    (run C σ [.pop, .consumer, .consumer, .consumer]).ring = (σ.ring.pop C).2 ∧
      (run C σ [.pop, .consumer, .consumer, .consumer]).consumer = .idle ∧
      (run C σ [.pop, .consumer, .consumer, .consumer]).producer = σ.producer ∧
      (run C σ [.pop, .consumer, .consumer, .consumer]).pushed = σ.pushed ∧
      (run C σ [.pop, .consumer, .consumer, .consumer]).popped = σ.popped ++ (σ.ring.pop C).1.toList := by
  by_cases h : σ.head = σ.tail <;>
    simp only [run, List.foldl, step, hc, consumerStep, Ring.pop, Spsc.ring, h, if_true, if_false,
      Option.toList, List.append_nil, and_self]

/-- `peek` run alone: the fields are left as they are, and the slot it designates is the one the
sequential `peek` returns. -/
theorem run_peek (σ : Spsc α) (hc : σ.consumer = .idle) :
    (run C σ [.peek, .consumer]).ring = σ.ring ∧ (run C σ [.peek, .consumer]).consumer = .idle ∧
      (run C σ [.peek, .consumer]).peeked = σ.ring.peek.map fun p => (p, σ.buffer p) := by
  simp only [run, List.foldl, step, hc, consumerStep, Ring.peek, Spsc.ring]
  split_ifs <;> exact ⟨rfl, rfl, rfl⟩

/-- For every sequence of calls made one at a time from the constructor, and every next call:
`m_head` and `m_tail` are below the capacity, the buffer's view is the content of a queue of
capacity `Capacity - 1` that the same calls were made on, `(m_tail - m_head) mod Capacity` is its
length, and the next call's reply matches the queue's (`push` fails exactly when the queue is
full, `pop` and `peek` return the front, or nothing exactly when it is empty) and leaves the view
equal to the queue it leaves. -/
theorem ring_refines_queue (buffer : Nat → α) (calls : List (Call α)) (c : Call α) :
    ((Ring.init buffer).run C calls).head < C.val ∧ ((Ring.init buffer).run C calls).tail < C.val ∧
    ((Ring.init buffer).run C calls).view C = ((BoundedQueue.empty (C.val - 1)).run calls).items ∧
    ((Ring.init buffer).run C calls).size C =
      ((BoundedQueue.empty (C.val - 1)).run calls).items.length ∧
    Reply.Matches ((Ring.init buffer).run C calls).buffer
      (((Ring.init buffer).run C calls).call C c).1
      (((BoundedQueue.empty (C.val - 1)).run calls).call c).1 ∧
    (((Ring.init buffer).run C calls).call C c).2.view C =
      (((BoundedQueue.empty (C.val - 1)).run calls).call c).2.items := by
  obtain ⟨H, hq⟩ := (Ring.Inv.init (C := C) buffer).run_refines (q := BoundedQueue.empty _) (Ring.view_init buffer) calls
  obtain ⟨-, h₂, h₃⟩ := H.call_refines c _ hq
  exact ⟨H.head_lt, H.tail_lt, hq, by rw [← hq, Ring.length_view], h₃, h₂⟩

end HyperionRuntime.Core
