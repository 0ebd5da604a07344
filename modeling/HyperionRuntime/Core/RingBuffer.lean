import Mathlib.Data.Nat.Defs
import Mathlib.Data.List.Infix

/-!
# The SPSC ring buffer

`LockFreeRingBuffer<T, Capacity>` shared by one producer calling `push` and one consumer
calling `pop` and `peek`. Every atomic load, slot write, slot read and index store is one step,
and a run is any interleaving of the two threads' steps (a list of `Action`s), under
sequential consistency. Besides `m_head`, `m_tail` and `m_buffer`, the state holds each
thread's program counter with the locals it has computed, and three ghost fields: the items
of the completed successful pushes and pops, in order, and the slot and item that the last
successful `peek` designated, until the next successful `pop`.

`Spsc.Inv` is kept by every step (`Spsc.Inv.step`), so it holds after every run from an empty
buffer (`Spsc.Inv.run`). It says that `m_head` and `m_tail` are the numbers of completed pops and
pushes modulo the capacity, that the popped items are a prefix of the pushed ones, and that
the slots in between hold the pushed-but-unpopped items. `spsc_correct` reads the safety
properties of the protocol off it.
-/

namespace HyperionRuntime.Core

/-- A capacity that `static_assert(Capacity > 0 && ((Capacity & (Capacity - 1)) == 0))` admits:
a power of two. -/
structure Capacity where
  val : Nat
  isPowerOfTwo : val.isPowerOfTwo

namespace Capacity
variable (C : Capacity)

theorem pos : 0 < C.val := Nat.pos_of_isPowerOfTwo C.isPowerOfTwo

/-- Masking with `Capacity - 1` is reduction modulo the capacity. -/
theorem and_sub_one (x : Nat) : x &&& (C.val - 1) = x % C.val := by
  obtain ⟨k, hk⟩ := C.isPowerOfTwo
  rw [hk, Nat.and_pow_two_sub_one_eq_mod]

/-- Two counts less than a capacity apart fall in different slots. -/
theorem mod_ne {i j : Nat} (hij : i < j) (hji : j < i + C.val) : i % C.val ≠ j % C.val := by
  intro h
  have h₁ := Nat.sub_mod_eq_zero_of_mod_eq h.symm
  rw [Nat.mod_eq_of_lt (by omega)] at h₁
  omega

end Capacity

/-- `(i + 1) & (Capacity - 1)`: the index after `i`. -/
def nextIndex (C : Capacity) (i : Nat) : Nat := (i + 1) &&& (C.val - 1)

theorem nextIndex_mod (C : Capacity) (n : Nat) : nextIndex C (n % C.val) = (n + 1) % C.val := by
  rw [nextIndex, C.and_sub_one, Nat.mod_add_mod]

/-- The producer thread: the step of `push(item)` it takes next, with its locals. -/
inductive Producer (α : Type) where
  /-- No `push` in progress. -/
  | idle
  /-- `current_tail` is loaded; next, `m_head.load`. -/
  | loadHead (item : α) (currentTail : Nat)
  /-- The buffer was not full; next, `m_buffer[current_tail] = item`. -/
  | write (item : α) (currentTail : Nat)
  /-- The slot is written; next, `m_tail.store(next_tail)`. -/
  | publish (item : α) (currentTail : Nat)

/-- The consumer thread: the step of `pop()` or `peek()` it takes next, with its locals. -/
inductive Consumer (α : Type) where
  /-- No call in progress. -/
  | idle
  /-- `pop()` has loaded `current_head`; next, `m_tail.load`. -/
  | popLoadTail (currentHead : Nat)
  /-- The buffer was not empty; next, `T item = m_buffer[current_head]`. -/
  | popRead (currentHead : Nat)
  /-- The item is read; next, `m_head.store(next_head)` and `return item`. -/
  | popPublish (currentHead : Nat) (item : α)
  /-- `peek()` has loaded `current_head`; next, `m_tail.load` and the return. -/
  | peekLoadTail (currentHead : Nat)

/-- The ring buffer's fields, both threads, and the ghost history. -/
structure Spsc (α : Type) where
  head : Nat
  tail : Nat
  buffer : Nat → α
  producer : Producer α
  consumer : Consumer α
  /-- The items of the completed successful pushes, in order. -/
  pushed : List α
  /-- The items returned by the completed successful pops, in order. -/
  popped : List α
  /-- The slot of the pointer the last successful `peek` returned and the item in it then;
  cleared by the next successful `pop`. -/
  peeked : Option (Nat × α)

/-- One step of either thread: a call, which takes its first load, or the next step of the
call in progress. -/
inductive Action (α : Type) where
  | push (item : α)
  | pop
  | peek
  | producer
  | consumer

variable {α : Type} (C : Capacity)

/-- The constructor: `m_head(0), m_tail(0)`, and slots holding whatever they were built with. -/
def Spsc.init (buffer : Nat → α) : Spsc α := ⟨0, 0, buffer, .idle, .idle, [], [], none⟩

/-- The producer's next step in `push`. -/
def producerStep (σ : Spsc α) : Spsc α :=
  match σ.producer with
  | .idle => σ
  | .loadHead item currentTail =>
    if nextIndex C currentTail = σ.head then { σ with producer := .idle }
    else { σ with producer := .write item currentTail }
  | .write item currentTail =>
    { σ with buffer := Function.update σ.buffer currentTail item,
             producer := .publish item currentTail }
  | .publish item currentTail =>
    { σ with tail := nextIndex C currentTail, producer := .idle, pushed := σ.pushed ++ [item] }

/-- The consumer's next step in `pop` or `peek`. -/
def consumerStep (σ : Spsc α) : Spsc α :=
  match σ.consumer with
  | .idle => σ
  | .popLoadTail currentHead =>
    if currentHead = σ.tail then { σ with consumer := .idle }
    else { σ with consumer := .popRead currentHead }
  | .popRead currentHead => { σ with consumer := .popPublish currentHead (σ.buffer currentHead) }
  | .popPublish currentHead item =>
    { σ with head := nextIndex C currentHead, consumer := .idle, popped := σ.popped ++ [item],
             peeked := none }
  | .peekLoadTail currentHead =>
    if currentHead = σ.tail then { σ with consumer := .idle, peeked := none }
    else { σ with consumer := .idle, peeked := some (currentHead, σ.buffer currentHead) }

/-- One step of the interleaving. A call made while the thread is in another call is no step. -/
def step (σ : Spsc α) : Action α → Spsc α
  | .push item =>
    match σ.producer with
    | .idle => { σ with producer := .loadHead item σ.tail }
    | _ => σ
  | .pop =>
    match σ.consumer with
    | .idle => { σ with consumer := .popLoadTail σ.head }
    | _ => σ
  | .peek =>
    match σ.consumer with
    | .idle => { σ with consumer := .peekLoadTail σ.head }
    | _ => σ
  | .producer => producerStep C σ
  | .consumer => consumerStep C σ

/-- The state after the steps `acts`, in order. -/
def run (σ : Spsc α) (acts : List (Action α)) : Spsc α := acts.foldl (step C) σ

/-! ## The invariant -/

/-- What the producer's locals satisfy at each of its steps: `current_tail` is `m_tail`, past
the fullness check there is room for one more item, and past the write the slot holds it. -/
def ProducerOk (tail : Nat) (buffer : Nat → α) (popped pushed : List α) : Producer α → Prop
  | .idle => True
  | .loadHead _ t => t = tail
  | .write _ t => t = tail ∧ pushed.length + 1 < popped.length + C.val
  | .publish item t => t = tail ∧ pushed.length + 1 < popped.length + C.val ∧ buffer t = item

/-- What the consumer's locals satisfy at each of its steps: `current_head` is `m_head`, past
the emptiness check an item is there, and past the read it is the oldest unpopped item. -/
def ConsumerOk (head : Nat) (popped pushed : List α) : Consumer α → Prop
  | .idle => True
  | .popLoadTail h => h = head
  | .popRead h => h = head ∧ popped.length < pushed.length
  | .popPublish h item => h = head ∧ pushed[popped.length]? = some item
  | .peekLoadTail h => h = head

/-- The invariant of every run. -/
structure Spsc.Inv (σ : Spsc α) : Prop where
  head_eq : σ.head = σ.popped.length % C.val
  tail_eq : σ.tail = σ.pushed.length % C.val
  fifo : σ.popped <+: σ.pushed
  room : σ.pushed.length < σ.popped.length + C.val
  slots : ∀ i, σ.popped.length ≤ i → ∀ v, σ.pushed[i]? = some v → σ.buffer (i % C.val) = v
  producer_ok : ProducerOk C σ.tail σ.buffer σ.popped σ.pushed σ.producer
  consumer_ok : ConsumerOk σ.head σ.popped σ.pushed σ.consumer
  peeked_eq : ∀ p w, σ.peeked = some (p, w) → p = σ.head ∧ σ.pushed[σ.popped.length]? = some w

section Lemmas
variable {C} {σ : Spsc α} {head tail : Nat} {buffer : Nat → α} {popped pushed : List α}

theorem getElem?_append_of_eq_some {l₁ l₂ : List α} {i : Nat} {x : α} (h : l₁[i]? = some x) :
    (l₁ ++ l₂)[i]? = some x := by
  rw [List.getElem?_append_left (List.getElem?_eq_some_iff.1 h).1, h]

theorem lt_of_getElem?_eq_some {l : List α} {i : Nat} {x : α} (h : l[i]? = some x) :
    i < l.length := (List.getElem?_eq_some_iff.1 h).1

/-- The oldest unpopped item, once popped, extends the popped prefix. -/
theorem fifo_append {x : α} (h : popped <+: pushed) (hx : pushed[popped.length]? = some x) :
    popped ++ [x] <+: pushed := by
  rw [List.prefix_iff_eq_take] at h ⊢
  rw [List.length_append, List.length_singleton, List.take_succ, hx, ← h]
  rfl

/-- A push leaves what the consumer's locals satisfy. -/
theorem ConsumerOk.push {c : Consumer α} {x : α} (h : ConsumerOk head popped pushed c) :
    ConsumerOk head popped (pushed ++ [x]) c := by
  cases c with
  | popRead => exact ⟨h.1, by have := h.2; simp only [List.length_append, List.length_singleton]; omega⟩
  | popPublish => exact ⟨h.1, getElem?_append_of_eq_some h.2⟩
  | _ => exact h

/-- A pop leaves what the producer's locals satisfy. -/
theorem ProducerOk.pop {p : Producer α} {x : α} (h : ProducerOk C tail buffer popped pushed p) :
    ProducerOk C tail buffer (popped ++ [x]) pushed p := by
  cases p with
  | write => exact ⟨h.1, by have := h.2; simp only [List.length_append, List.length_singleton]; omega⟩
  | publish =>
    exact ⟨h.1, by have := h.2.1; simp only [List.length_append, List.length_singleton]; omega, h.2.2⟩
  | _ => exact h

/-- At `m_tail.load` in `pop` or `peek`: a head that differs from the tail has an item. -/
theorem Spsc.Inv.lt_of_ne (H : σ.Inv C) (h : σ.head ≠ σ.tail) :
    σ.popped.length < σ.pushed.length := by
  have := H.fifo.length_le
  refine lt_of_le_of_ne this fun he => h ?_
  rw [H.head_eq, H.tail_eq, he]

/-- The slot at `m_head` holds the oldest unpopped item. -/
theorem Spsc.Inv.getElem?_head (H : σ.Inv C) (hlt : σ.popped.length < σ.pushed.length) :
    σ.pushed[σ.popped.length]? = some (σ.buffer σ.head) := by
  rw [H.head_eq, H.slots _ le_rfl _ (List.getElem?_eq_getElem hlt)]
  exact List.getElem?_eq_getElem hlt

/-- The tail slot holds no unpopped item. -/
theorem Spsc.Inv.mod_ne_tail (H : σ.Inv C) {i : Nat} (hi : σ.popped.length ≤ i)
    (hlt : i < σ.pushed.length) : i % C.val ≠ σ.tail := by
  rw [H.tail_eq]; exact C.mod_ne hlt (by have := H.room; omega)

end Lemmas

/-! ## Every step keeps the invariant -/

section Steps
variable {C} {σ : Spsc α}

theorem Spsc.Inv.producerStep (H : σ.Inv C) : (producerStep C σ).Inv C := by
  have H' := H
  obtain ⟨hh, ht, hf, hr, hs, hp, hc, hk⟩ := H
  unfold HyperionRuntime.Core.producerStep
  split
  next => exact H'
  next item t hpr =>
    rw [hpr] at hp
    split_ifs with hfull
    · exact ⟨hh, ht, hf, hr, hs, trivial, hc, hk⟩
    · refine ⟨hh, ht, hf, hr, hs, ⟨hp, ?_⟩, hc, hk⟩
      show σ.pushed.length + 1 < σ.popped.length + C.val
      by_contra hroom
      rw [hp, ht, hh, nextIndex_mod, show σ.pushed.length + 1 = σ.popped.length + C.val by omega,
        Nat.add_mod_right] at hfull
      exact hfull rfl
  next item t hpr =>
    rw [hpr] at hp
    obtain ⟨rfl, hroom⟩ := hp
    refine ⟨hh, ht, hf, hr, fun i hi v hv => ?_, ⟨rfl, hroom, Function.update_same _ _ _⟩, hc, hk⟩
    show Function.update σ.buffer σ.tail item (i % C.val) = v
    rw [Function.update_noteq (H'.mod_ne_tail hi (lt_of_getElem?_eq_some hv))]
    exact hs i hi v hv
  next item t hpr =>
    rw [hpr] at hp
    obtain ⟨rfl, hroom, hbuf⟩ := hp
    refine ⟨hh, ?_, hf.trans (List.prefix_append _ _), ?_, fun i hi v hv => ?_, trivial,
      hc.push, fun p w hpw => ⟨(hk p w hpw).1, getElem?_append_of_eq_some (hk p w hpw).2⟩⟩
    · rw [ht, nextIndex_mod, List.length_append, List.length_singleton]
    · simp only [List.length_append, List.length_singleton]; omega
    · rcases Nat.lt_or_ge i σ.pushed.length with hlt | hge
      · rw [List.getElem?_append_left hlt] at hv
        exact hs i hi v hv
      · have hi' := lt_of_getElem?_eq_some hv
        simp only [List.length_append, List.length_singleton] at hi'
        obtain rfl : i = σ.pushed.length := by omega
        rw [List.getElem?_concat_length, Option.some_inj] at hv
        rw [← hv, ← ht, hbuf]

theorem Spsc.Inv.consumerStep (H : σ.Inv C) : (consumerStep C σ).Inv C := by
  have H' := H
  obtain ⟨hh, ht, hf, hr, hs, hp, hc, hk⟩ := H
  unfold HyperionRuntime.Core.consumerStep
  split
  next => exact H'
  next h hcs =>
    rw [hcs] at hc
    subst hc
    split_ifs with hempty
    · exact ⟨hh, ht, hf, hr, hs, hp, trivial, hk⟩
    · exact ⟨hh, ht, hf, hr, hs, hp, ⟨rfl, H'.lt_of_ne hempty⟩, hk⟩
  next h hcs =>
    rw [hcs] at hc
    obtain ⟨rfl, hlt⟩ := hc
    exact ⟨hh, ht, hf, hr, hs, hp, ⟨rfl, H'.getElem?_head hlt⟩, hk⟩
  next h item hcs =>
    rw [hcs] at hc
    obtain ⟨rfl, hitem⟩ := hc
    refine ⟨?_, ht, fifo_append hf hitem, ?_, fun i hi v hv => hs i ?_ v hv, hp.pop, trivial,
      fun _ _ h => nomatch h⟩
    · rw [hh, nextIndex_mod, List.length_append, List.length_singleton]
    · simp only [List.length_append, List.length_singleton]; omega
    · simp only [List.length_append, List.length_singleton] at hi; omega
  next h hcs =>
    rw [hcs] at hc
    subst hc
    split_ifs with hempty
    · exact ⟨hh, ht, hf, hr, hs, hp, trivial, fun _ _ h => nomatch h⟩
    · refine ⟨hh, ht, hf, hr, hs, hp, trivial, fun p w hpw => ?_⟩
      obtain ⟨rfl, rfl⟩ := Prod.mk.inj (Option.some_inj.1 hpw)
      exact ⟨rfl, H'.getElem?_head (H'.lt_of_ne hempty)⟩

theorem Spsc.Inv.step (H : σ.Inv C) (a : Action α) : (step C σ a).Inv C := by
  obtain ⟨hh, ht, hf, hr, hs, hp, hc, hk⟩ := H
  cases a with
  | push item =>
    dsimp only [HyperionRuntime.Core.step]
    split
    · exact ⟨hh, ht, hf, hr, hs, rfl, hc, hk⟩
    · exact ⟨hh, ht, hf, hr, hs, hp, hc, hk⟩
  | pop | peek =>
    dsimp only [HyperionRuntime.Core.step]
    split
    · exact ⟨hh, ht, hf, hr, hs, hp, rfl, hk⟩
    · exact ⟨hh, ht, hf, hr, hs, hp, hc, hk⟩
  | producer => exact Spsc.Inv.producerStep ⟨hh, ht, hf, hr, hs, hp, hc, hk⟩
  | consumer => exact Spsc.Inv.consumerStep ⟨hh, ht, hf, hr, hs, hp, hc, hk⟩

theorem Spsc.Inv.init (buffer : Nat → α) : (Spsc.init buffer).Inv C :=
  ⟨by simp [Spsc.init], by simp [Spsc.init], List.prefix_refl _, by simpa [Spsc.init] using C.pos,
    by simp [Spsc.init],
    trivial, trivial, fun _ _ h => nomatch h⟩

theorem Spsc.Inv.run (H : σ.Inv C) (acts : List (Action α)) : (run C σ acts).Inv C := by
  induction acts generalizing σ with
  | nil => exact H
  | cons a acts ih => exact ih (H.step a)

end Steps

/-! ## Safety of the protocol -/

/-- Over every interleaving of `push`, `pop` and `peek` steps from an empty buffer: the popped
items are a prefix of the pushed ones; the producer's slot write never hits a slot that holds
a pushed-but-unpopped item, nor the slot of a pop past its emptiness check, nor the slot of
an outstanding `peek`; and while a `peek` is outstanding its slot holds the item it designated,
the buffer is not empty, and a pop about to return returns that item. -/
theorem spsc_correct (buffer : Nat → α) (acts : List (Action α)) :
    (run C (Spsc.init buffer) acts).popped <+: (run C (Spsc.init buffer) acts).pushed ∧
    (∀ item t, (run C (Spsc.init buffer) acts).producer = .write item t →
      (∀ i, (run C (Spsc.init buffer) acts).popped.length ≤ i →
        i < (run C (Spsc.init buffer) acts).pushed.length → i % C.val ≠ t) ∧
      (∀ h, (run C (Spsc.init buffer) acts).consumer = .popRead h → h ≠ t) ∧
      (∀ h v, (run C (Spsc.init buffer) acts).consumer = .popPublish h v → h ≠ t) ∧
      (∀ p w, (run C (Spsc.init buffer) acts).peeked = some (p, w) → p ≠ t)) ∧
    (∀ p w, (run C (Spsc.init buffer) acts).peeked = some (p, w) →
      (run C (Spsc.init buffer) acts).buffer p = w ∧
      (run C (Spsc.init buffer) acts).head ≠ (run C (Spsc.init buffer) acts).tail ∧
      ∀ h v, (run C (Spsc.init buffer) acts).consumer = .popPublish h v → v = w) := by
  have H := (Spsc.Inv.init (C := C) buffer).run acts
  generalize run C (Spsc.init buffer) acts = σ at H ⊢
  have hhead : ∀ w, σ.pushed[σ.popped.length]? = some w → σ.head ≠ σ.tail := fun w hw => by
    rw [H.head_eq]; exact H.mod_ne_tail le_rfl (lt_of_getElem?_eq_some hw)
  refine ⟨H.fifo, fun item t hw => ?_, fun p w hpw => ?_⟩
  · have ht : t = σ.tail := by have := H.producer_ok; rw [hw] at this; exact this.1
    subst ht
    refine ⟨fun i hi hlt => H.mod_ne_tail hi hlt, fun h hc => ?_, fun h v hc => ?_,
      fun p w hpw => ?_⟩
    · have := H.consumer_ok; rw [hc] at this
      rw [this.1, H.head_eq]; exact H.mod_ne_tail le_rfl this.2
    · have := H.consumer_ok; rw [hc] at this
      rw [this.1]; exact hhead v this.2
    · rw [(H.peeked_eq p w hpw).1]; exact hhead w (H.peeked_eq p w hpw).2
  · obtain ⟨rfl, hw⟩ := H.peeked_eq p w hpw
    refine ⟨?_, hhead w hw, fun h v hc => ?_⟩
    · rw [← Option.some_inj, ← H.getElem?_head (lt_of_getElem?_eq_some hw), hw]
    · have := H.consumer_ok; rw [hc] at this
      exact Option.some_inj.1 (this.2.symm.trans hw)

end HyperionRuntime.Core
