import HyperionRuntime.Core.RingQueue
import HyperionRuntime.Core.Tokenizer
import Mathlib.Data.List.Chain

/-!
# The document pipeline

The clipboard fiber (`InputIngest_Fiber_Func`) calls `InputIngest::check()` and hands each text
it returns to `ProcessingUnit::Ingest`, which pushes the text onto `m_input_queue`, a
`LockFreeRingBuffer<std::string, 64>`, and ignores what `push` returns. The worker thread
(`AnalysisWorker`) pops a text and calls `ProcessDocument` on it. A step of the model is one
iteration of either loop, with the ring buffer's calls taken whole, as in `Core.RingQueue`; these
runs are the runs of the protocol's step model `Spsc` in which each call runs alone
(`pipeline_ring_protocol`).

`check` looks at the clipboard at most once per 200 ms and hands out a text only when it is not
empty and differs from the last one it handed out. The abstract `Flow` keeps the waiting texts
as a list and, as history, every text `check` handed out with whether `Ingest` could queue it:
a text is queued while fewer than 63 wait and lost otherwise. The bytes follow it
(`Pipeline.Refines.run`), and every run of it keeps the conservation law `Flow.Inv`: the texts
processed, then those waiting, are the ones queued, in order, and no text is handed out twice in
a row. So while the clipboard still holds the last text handed out, no text enters the pipeline
at all (`Flow.run_of_lastClip`), and a text lost on a full queue is not retried.
-/

namespace HyperionRuntime.Core

/-- The capacity of `m_input_queue`. -/
def inputQueueCapacity : Capacity := ⟨64, 6, rfl⟩

/-- The statics of `InputIngest::check`: `s_last_clip`, and `s_last_check` as a reading of the
steady clock in milliseconds. -/
structure InputIngest where
  lastClip : Bytes
  lastCheck : Int

namespace InputIngest

/-- `check()` at the clock reading `now`, given what `pbpaste` printed, or `none` when `popen`
failed. -/
def check (p : InputIngest) (now : Int) (clipboard : Option Bytes) : Option Bytes × InputIngest :=
  if now - p.lastCheck < 200 then (none, p) else
  match clipboard with
  | none => (none, { p with lastCheck := now })
  | some result =>
    if result ≠ [] ∧ result ≠ p.lastClip then (some result, ⟨result, now⟩)
    else (none, { p with lastCheck := now })

variable {p p' : InputIngest} {now : Int} {clipboard : Option Bytes}

/-- A text `check` hands out is not empty and differs from the last one, which it replaces. -/
theorem check_some {t : Bytes} (h : p.check now clipboard = (some t, p')) :
    t ≠ [] ∧ t ≠ p.lastClip ∧ p'.lastClip = t := by
  unfold check at h
  split_ifs at h; · cases h
  split at h
  · cases h
  · split_ifs at h with hr
    · cases h; exact ⟨hr.1, hr.2, rfl⟩
    · cases h

/-- A look that hands out nothing keeps the last text. -/
theorem check_none (h : p.check now clipboard = (none, p')) : p'.lastClip = p.lastClip := by
  unfold check at h
  split_ifs at h; · cases h; rfl
  split at h
  · cases h; rfl
  · split_ifs at h <;> cases h; rfl

/-- The clipboard holding the last text, or unreadable, makes `check` hand out nothing. -/
theorem check_of_lastClip (hc : clipboard = none ∨ clipboard = some p.lastClip) :
    (p.check now clipboard).1 = none := by
  unfold check
  split_ifs; · rfl
  rcases hc with rfl | rfl <;> simp

end InputIngest

/-- The state the two loops touch: `InputIngest`'s statics; the `ProcessingUnit`'s
`m_input_queue` and `m_processing_cooldown`; the `SystemMonitor`'s `m_input_text` and
`m_flash_timer`, which `Ingest` writes; and the texts `ProcessDocument` was called on, in order. -/
structure Pipeline where
  inputIngest : InputIngest
  inputQueue : Ring Bytes
  processingCooldown : Int
  inputText : Bytes
  flashTimer : Int
  processed : List Bytes

/-- What happens next: an iteration of the clipboard fiber, at a clock reading and with what
`pbpaste` prints, or an iteration of the worker. -/
inductive Event where
  | ingest (now : Int) (clipboard : Option Bytes)
  | work

namespace Pipeline

/-- `Ingest(text)`: an empty text returns at once; otherwise the monitor shows the text and
flashes, the cooldown restarts at `20`, and the text is pushed whether or not the queue has
room. -/
def ingest (σ : Pipeline) (text : Bytes) : Pipeline :=
  if text = [] then σ else
  { σ with inputText := text, flashTimer := 12, processingCooldown := 20,
           inputQueue := (σ.inputQueue.push inputQueueCapacity text).2 }

/-- One iteration of `InputIngest_Fiber_Func`'s loop: `check()`, and `Ingest` of what it returns. -/
def ingestFiberStep (σ : Pipeline) (now : Int) (clipboard : Option Bytes) : Pipeline :=
  match σ.inputIngest.check now clipboard with
  | (some clip, p) => { σ with inputIngest := p }.ingest clip
  | (none, p) => { σ with inputIngest := p }

/-- One iteration of `AnalysisWorker`'s loop: a text popped goes to `ProcessDocument`; on an
empty queue the worker sleeps. -/
def analysisWorkerStep (σ : Pipeline) : Pipeline :=
  match σ.inputQueue.pop inputQueueCapacity with
  | (some content, q) => { σ with inputQueue := q, processed := σ.processed ++ [content] }
  | (none, _) => σ

def step (σ : Pipeline) : Event → Pipeline
  | .ingest now clipboard => σ.ingestFiberStep now clipboard
  | .work => σ.analysisWorkerStep

def run (σ : Pipeline) (es : List Event) : Pipeline := es.foldl step σ

/-- Before the first iteration: `s_last_clip` is `""` and `s_last_check` the clock at start,
the queue is new, and the cooldown, `m_input_text` and `m_flash_timer` are at their
initializers. -/
def init (now : Int) (buffer : Nat → Bytes) : Pipeline := ⟨⟨[], now⟩, Ring.init buffer, 0, [], 0, []⟩

end Pipeline

/-! ## The abstract flow -/

/-- The pipeline as what it is for: texts waiting in order, at most 63 of them, and as history
every text `check` handed out with whether it could be queued. -/
structure Flow where
  inputIngest : InputIngest
  waiting : List Bytes
  processed : List Bytes
  history : List (Bytes × Bool)

namespace Flow

def step (F : Flow) : Event → Flow
  | .ingest now clipboard =>
    match F.inputIngest.check now clipboard with
    | (some t, p) =>
      if F.waiting.length < 63 then ⟨p, F.waiting ++ [t], F.processed, F.history ++ [(t, true)]⟩
      else ⟨p, F.waiting, F.processed, F.history ++ [(t, false)]⟩
    | (none, p) => { F with inputIngest := p }
  | .work =>
    match F.waiting with
    | [] => F
    | t :: rest => { F with waiting := rest, processed := F.processed ++ [t] }

def run (F : Flow) (es : List Event) : Flow := es.foldl step F

section Step
variable {F : Flow} {now : Int} {clipboard : Option Bytes} {p : InputIngest} {t : Bytes}

theorem step_ingest_none (hc : F.inputIngest.check now clipboard = (none, p)) :
    F.step (.ingest now clipboard) = { F with inputIngest := p } := by
  simp only [step, hc]

theorem step_ingest_some (hc : F.inputIngest.check now clipboard = (some t, p)) :
    F.step (.ingest now clipboard) =
      if F.waiting.length < 63 then ⟨p, F.waiting ++ [t], F.processed, F.history ++ [(t, true)]⟩
      else ⟨p, F.waiting, F.processed, F.history ++ [(t, false)]⟩ := by
  simp only [step, hc]

theorem step_work_nil (hw : F.waiting = []) : F.step .work = F := by simp only [step, hw]

theorem step_work_cons {rest : List Bytes} (hw : F.waiting = t :: rest) :
    F.step .work = { F with waiting := rest, processed := F.processed ++ [t] } := by
  simp only [step, hw]

end Step

def init (now : Int) : Flow := ⟨⟨[], now⟩, [], [], []⟩

/-- The texts that were queued. -/
def queued (F : Flow) : List Bytes := (F.history.filter (·.2)).map Prod.fst

/-- The conservation law: the texts processed, then those waiting, are the ones queued; at most
63 wait; and `check` handed out nonempty texts, none twice in a row, the last of which it
remembers. -/
structure Inv (F : Flow) : Prop where
  length_le : F.waiting.length ≤ 63
  conserve : F.processed ++ F.waiting = F.queued
  nonempty : ∀ x ∈ F.history, x.1 ≠ []
  changes : (F.history.map Prod.fst).Chain' (· ≠ ·)
  last : ∀ t ∈ (F.history.map Prod.fst).getLast?, t = F.inputIngest.lastClip

theorem Inv.init (now : Int) : (init now).Inv :=
  ⟨Nat.zero_le _, rfl, fun _ h => absurd h (List.not_mem_nil _), List.chain'_nil, fun _ h => by cases h⟩

/-- Handing out `t` extends a history that ended with another text. -/
theorem Inv.handOut {F : Flow} (H : F.Inv) {t : Bytes} {p : InputIngest} (ht : t ≠ [])
    (hlast : t ≠ F.inputIngest.lastClip) (hp : p.lastClip = t) (b : Bool) :
    (∀ x ∈ F.history ++ [(t, b)], x.1 ≠ []) ∧
      ((F.history ++ [(t, b)]).map Prod.fst).Chain' (· ≠ ·) ∧
      ∀ t' ∈ ((F.history ++ [(t, b)]).map Prod.fst).getLast?, t' = p.lastClip := by
  refine ⟨fun x hx => ?_, ?_, by simp [hp]⟩
  · rcases List.mem_append.1 hx with hx | hx
    · exact H.nonempty x hx
    · rw [List.mem_singleton.1 hx]; exact ht
  · rw [List.map_append]
    exact H.changes.append (List.chain'_singleton _) fun x hx y hy => by
      rw [H.last x hx]; simp only [List.map_cons, List.map_nil, List.head?_cons, Option.mem_def,
        Option.some.injEq] at hy
      exact hy ▸ Ne.symm hlast

/-- Each step keeps the conservation law. -/
theorem Inv.step {F : Flow} (H : F.Inv) (e : Event) : (F.step e).Inv := by
  cases e with
  | ingest now clipboard =>
    rcases hc : F.inputIngest.check now clipboard with ⟨_ | t, p⟩
    · rw [step_ingest_none hc]
      exact ⟨H.length_le, H.conserve, H.nonempty, H.changes,
        fun t ht => (H.last t ht).trans (InputIngest.check_none hc).symm⟩
    · obtain ⟨ht, hlast, hp⟩ := InputIngest.check_some hc
      rw [step_ingest_some hc]
      split_ifs with hroom
      · obtain ⟨h₁, h₂, h₃⟩ := H.handOut ht hlast hp true
        refine ⟨by rw [List.length_append, List.length_singleton]; omega, ?_, h₁, h₂, h₃⟩
        rw [← List.append_assoc, H.conserve]; simp [queued]
      · obtain ⟨h₁, h₂, h₃⟩ := H.handOut ht hlast hp false
        exact ⟨H.length_le, by rw [H.conserve]; simp [queued], h₁, h₂, h₃⟩
  | work =>
    rcases hw : F.waiting with _ | ⟨t, rest⟩
    · rwa [step_work_nil hw]
    · have hc := H.conserve
      have hl := H.length_le
      rw [hw] at hc hl
      rw [step_work_cons hw]
      exact ⟨by rw [List.length_cons] at hl; dsimp only; omega, by simpa using hc, H.nonempty,
        H.changes, H.last⟩

theorem Inv.run {F : Flow} (H : F.Inv) : ∀ es : List Event, (F.run es).Inv
  | [] => H
  | e :: es => Inv.run (H.step e) es

/-- A step that hands out nothing keeps the last text. -/
theorem lastClip_step {F : Flow} {e : Event}
    (he : ∀ now clipboard, e = .ingest now clipboard → (F.inputIngest.check now clipboard).1 = none) :
    (F.step e).inputIngest = F.inputIngest ∨ ∃ now clipboard, e = .ingest now clipboard ∧
      (F.step e).inputIngest = (F.inputIngest.check now clipboard).2 := by
  cases e with
  | ingest now clipboard =>
    exact .inr ⟨now, clipboard, rfl, by
      rcases hc : F.inputIngest.check now clipboard with ⟨_ | t, p⟩
      · rw [step_ingest_none hc]
      · have := he now clipboard rfl; rw [hc] at this; cases this⟩
  | work =>
    left
    rcases hw : F.waiting with _ | ⟨t, rest⟩
    · rw [step_work_nil hw]
    · rw [step_work_cons hw]

/-- While the clipboard holds the last text handed out, or cannot be read, nothing enters the
flow: its runs only process texts already waiting. -/
theorem run_of_lastClip : ∀ (es : List Event) (F : Flow),
    (∀ now clipboard, .ingest now clipboard ∈ es →
      clipboard = none ∨ clipboard = some F.inputIngest.lastClip) →
    ∃ k, (F.run es).processed = F.processed ++ F.waiting.take k ∧
      (F.run es).waiting = F.waiting.drop k ∧ (F.run es).history = F.history
  | [], F, _ => ⟨0, by simp [run], by simp [run], rfl⟩
  | e :: es, F, hes => by
    have hnone : ∀ now clipboard, e = .ingest now clipboard → (F.inputIngest.check now clipboard).1 = none :=
      fun now clipboard he => InputIngest.check_of_lastClip (hes now clipboard (he ▸ List.mem_cons_self _ _))
    have hlast : (F.step e).inputIngest.lastClip = F.inputIngest.lastClip := by
      rcases lastClip_step hnone with h | ⟨now, clipboard, rfl, h⟩
      · rw [h]
      · rw [h]; exact InputIngest.check_none (Prod.ext (hnone now clipboard rfl) rfl)
    obtain ⟨k, hp, hw, hh⟩ := run_of_lastClip es (F.step e) fun now clipboard h =>
      hlast ▸ hes now clipboard (List.mem_cons_of_mem _ h)
    show ∃ k, ((F.step e).run es).processed = _ ∧ ((F.step e).run es).waiting = _ ∧
      ((F.step e).run es).history = _
    cases e with
    | ingest now clipboard =>
      rw [step_ingest_none (Prod.ext (hnone now clipboard rfl) rfl)] at hp hw hh ⊢
      exact ⟨k, hp, hw, hh⟩
    | work =>
      rcases hwait : F.waiting with _ | ⟨t, rest⟩
      · rw [step_work_nil hwait] at hp hw hh ⊢
        rw [hwait] at hp hw
        exact ⟨k, hp, hw, hh⟩
      · rw [step_work_cons hwait] at hp hw hh ⊢
        exact ⟨k + 1, by simpa using hp, by simpa using hw, hh⟩

end Flow

/-! ## The bytes follow the flow -/

namespace Pipeline

/-- The bytes hold the flow: the same statics and texts processed, and the ring buffer's view is
the waiting list. -/
structure Refines (σ : Pipeline) (F : Flow) : Prop where
  inputIngest_eq : σ.inputIngest = F.inputIngest
  inv : σ.inputQueue.Inv inputQueueCapacity
  view_eq : σ.inputQueue.view inputQueueCapacity = F.waiting
  processed_eq : σ.processed = F.processed

theorem Refines.init (now : Int) (buffer : Nat → Bytes) : Refines (init now buffer) (Flow.init now) :=
  ⟨rfl, Ring.Inv.init buffer, Ring.view_init buffer, rfl⟩

/-- `Ingest` pushes the text: it joins the queue while fewer than 63 wait. -/
theorem Refines.ingest {σ : Pipeline} {F : Flow} (R : Refines σ F) {t : Bytes} (ht : t ≠ []) (p : InputIngest) :
    Refines ({ σ with inputIngest := p }.ingest t)
      (if F.waiting.length < 63 then ⟨p, F.waiting ++ [t], F.processed, F.history ++ [(t, true)]⟩
        else ⟨p, F.waiting, F.processed, F.history ++ [(t, false)]⟩) := by
  have hsize : F.waiting.length = σ.inputQueue.size inputQueueCapacity := by
    rw [← R.view_eq, Ring.length_view]
  have hlt := σ.inputQueue.size_lt (C := inputQueueCapacity)
  have hC : inputQueueCapacity.val = 64 := rfl
  unfold Pipeline.ingest
  rw [if_neg ht]
  split_ifs with hroom
  · obtain ⟨-, h₂, h₃⟩ := R.inv.push_room t (by omega)
    exact ⟨rfl, h₂, by rw [h₃, R.view_eq], R.processed_eq⟩
  · rw [R.inv.push_full t (by omega)]
    exact ⟨rfl, R.inv, R.view_eq, R.processed_eq⟩

theorem Refines.step {σ : Pipeline} {F : Flow} (R : Refines σ F) (e : Event) :
    Refines (σ.step e) (F.step e) := by
  cases e with
  | ingest now clipboard =>
    show Refines (σ.ingestFiberStep now clipboard) _
    unfold ingestFiberStep
    rw [R.inputIngest_eq]
    rcases hc : F.inputIngest.check now clipboard with ⟨_ | t, p⟩
    · rw [Flow.step_ingest_none hc]
      exact ⟨rfl, R.inv, R.view_eq, R.processed_eq⟩
    · rw [Flow.step_ingest_some hc]
      exact R.ingest (InputIngest.check_some hc).1 p
  | work =>
    show Refines σ.analysisWorkerStep _
    unfold analysisWorkerStep
    rcases hw : F.waiting with _ | ⟨t, rest⟩
    · rw [Flow.step_work_nil hw, R.inv.pop_empty (by rw [← Ring.length_view, R.view_eq, hw]; rfl)]
      exact R
    · have hne : σ.inputQueue.size inputQueueCapacity ≠ 0 := by
        rw [← Ring.length_view, R.view_eq, hw]; exact Nat.succ_ne_zero _
      obtain ⟨h₁, h₂, h₃⟩ := R.inv.pop_nonempty hne
      rw [R.view_eq, hw] at h₃
      obtain ⟨rfl, hrest⟩ := List.cons_eq_cons.1 h₃
      rw [Flow.step_work_cons hw]
      rcases hp : σ.inputQueue.pop inputQueueCapacity with ⟨_ | c, q⟩
      · rw [hp] at h₁; cases h₁
      · rw [hp] at h₁ h₂ hrest
        cases h₁
        exact ⟨R.inputIngest_eq, h₂, hrest.symm, by rw [R.processed_eq]⟩

theorem Refines.run {σ : Pipeline} {F : Flow} (R : Refines σ F) :
    ∀ es : List Event, Refines (σ.run es) (F.run es)
  | [] => R
  | e :: es => Refines.run (R.step e) es

end Pipeline

/-! ## The ring calls are runs of the protocol

`Ingest` and the worker call `push` and `pop` from two threads. The model above takes each call
whole; its runs are the runs of the step model `Spsc` of `Core.RingBuffer` in which the steps of
each call follow each other (`run_push`, `run_pop`), so what holds over every run of the protocol
holds of the pipeline's ring buffer (`Pipeline.Follows.run`). -/

namespace Pipeline

/-- The protocol steps an event takes, each call run to its return: the `push` of the text
`Ingest` is handed, by the producer, or the worker's `pop`, by the consumer. -/
def ringActs (σ : Pipeline) : Event → List (Action Bytes)
  | .ingest now clipboard =>
    match σ.inputIngest.check now clipboard with
    | (some clip, _) => if clip = [] then [] else [.push clip, .producer, .producer, .producer]
    | (none, _) => []
  | .work => [.pop, .consumer, .consumer, .consumer]

/-- The protocol steps of a run. -/
def ringTrace : Pipeline → List Event → List (Action Bytes)
  | _, [] => []
  | σ, e :: es => σ.ringActs e ++ ringTrace (σ.step e) es

/-- The protocol's state `S` between two calls of the pipeline `σ`: the same fields, both threads
idle, the texts processed popped, and the texts processed and waiting pushed. -/
structure Follows (σ : Pipeline) (S : Spsc Bytes) : Prop where
  inv : σ.inputQueue.Inv inputQueueCapacity
  ring_eq : S.ring = σ.inputQueue
  producer_idle : S.producer = .idle
  consumer_idle : S.consumer = .idle
  popped_eq : S.popped = σ.processed
  pushed_eq : S.pushed = σ.processed ++ σ.inputQueue.view inputQueueCapacity

theorem Follows.init (now : Int) (buffer : Nat → Bytes) : Follows (init now buffer) (Spsc.init buffer) :=
  ⟨Ring.Inv.init buffer, rfl, rfl, rfl, rfl,
    show [] = [] ++ (Ring.init buffer).view inputQueueCapacity by rw [Ring.view_init]; rfl⟩

section Follows
variable {σ : Pipeline} {S : Spsc Bytes}

/-- `Ingest` of a text is its `push` run alone. -/
theorem Follows.ingest (h : Follows σ S) {t : Bytes} (ht : t ≠ []) (p : InputIngest) :
    Follows ({ σ with inputIngest := p }.ingest t)
      (Core.run inputQueueCapacity S [.push t, .producer, .producer, .producer]) := by
  obtain ⟨h₁, h₂, h₃, h₄, h₅⟩ := run_push inputQueueCapacity S t h.producer_idle
  rw [h.ring_eq] at h₁ h₅
  unfold Pipeline.ingest
  rw [if_neg ht]
  by_cases hroom : σ.inputQueue.size inputQueueCapacity + 1 < inputQueueCapacity.val
  · obtain ⟨hok, hinv, hview⟩ := h.inv.push_room t hroom
    refine ⟨hinv, h₁, h₂, h₃.trans h.consumer_idle, h₄.trans h.popped_eq, ?_⟩
    rw [h₅, hok, h.pushed_eq]
    exact (List.append_assoc _ _ _).trans (congrArg (σ.processed ++ ·) hview.symm)
  · have hfull := h.inv.push_full t (by have := σ.inputQueue.size_lt (C := inputQueueCapacity); omega)
    rw [hfull] at h₁ h₅
    refine ⟨?_, ?_, h₂, h₃.trans h.consumer_idle, h₄.trans h.popped_eq, ?_⟩ <;> dsimp only <;>
      rw [hfull]
    · exact h.inv
    · exact h₁
    · rw [h₅, h.pushed_eq]; simp

/-- Each event is its ring call run alone. -/
theorem Follows.step (h : Follows σ S) (e : Event) :
    Follows (σ.step e) (Core.run inputQueueCapacity S (σ.ringActs e)) := by
  cases e with
  | ingest now clipboard =>
    show Follows (σ.ingestFiberStep now clipboard) _
    rcases hc : σ.inputIngest.check now clipboard with ⟨_ | t, p⟩
    · simp only [ingestFiberStep, ringActs, hc]
      exact ⟨h.inv, h.ring_eq, h.producer_idle, h.consumer_idle, h.popped_eq, h.pushed_eq⟩
    · simp only [ingestFiberStep, ringActs, hc, if_neg (InputIngest.check_some hc).1]
      exact h.ingest (InputIngest.check_some hc).1 p
  | work =>
    show Follows σ.analysisWorkerStep
      (Core.run inputQueueCapacity S [.pop, .consumer, .consumer, .consumer])
    obtain ⟨h₁, h₂, h₃, h₄, h₅⟩ := run_pop inputQueueCapacity S h.consumer_idle
    rw [h.ring_eq] at h₁ h₅
    unfold analysisWorkerStep
    by_cases hempty : σ.inputQueue.size inputQueueCapacity = 0
    · rw [h.inv.pop_empty hempty] at h₁ h₅ ⊢
      exact ⟨h.inv, h₁, h₃.trans h.producer_idle, h₂,
        by rw [h₅, h.popped_eq]; exact List.append_nil _, h₄.trans h.pushed_eq⟩
    · obtain ⟨hv, hinv, hview⟩ := h.inv.pop_nonempty hempty
      rcases hp : σ.inputQueue.pop inputQueueCapacity with ⟨_ | c, q⟩
      · rw [hp] at hv; cases hv
      · rw [hp] at hv hinv hview h₁ h₅
        cases hv
        refine ⟨hinv, h₁, h₃.trans h.producer_idle, h₂, by rw [h₅, h.popped_eq]; rfl, ?_⟩
        rw [h₄, h.pushed_eq, hview]
        simp

/-- Every run is its ring calls run one after another. -/
theorem Follows.run (h : Follows σ S) (es : List Event) :
    Follows (σ.run es) (Core.run inputQueueCapacity S (σ.ringTrace es)) := by
  induction es generalizing σ S with
  | nil => exact h
  | cons e es ih => simpa only [Core.run, ringTrace, List.foldl_append] using ih (h.step e)

end Follows

end Pipeline

/-! ## Runs -/

/-- Every run of the two loops from the start follows the flow: the texts processed are the
flow's, and the ring buffer holds the flow's waiting texts. So the texts processed, then those in
the ring buffer, are, in order, the texts `check` handed out while fewer than 63 waited; the
others are lost; and the texts handed out are nonempty, none the same as the one before. -/
theorem pipeline_conserves (now : Int) (buffer : Nat → Bytes) (es : List Event) :
    ((Pipeline.init now buffer).run es).processed = ((Flow.init now).run es).processed ∧
      ((Pipeline.init now buffer).run es).inputQueue.view inputQueueCapacity =
        ((Flow.init now).run es).waiting ∧
      ((Pipeline.init now buffer).run es).processed ++
          ((Pipeline.init now buffer).run es).inputQueue.view inputQueueCapacity =
        ((Flow.init now).run es).queued ∧
      (∀ x ∈ ((Flow.init now).run es).history, x.1 ≠ []) ∧
      (((Flow.init now).run es).history.map Prod.fst).Chain' (· ≠ ·) := by
  have R := (Pipeline.Refines.init now buffer).run es
  have H := (Flow.Inv.init now).run es
  exact ⟨R.processed_eq, R.view_eq, by rw [R.processed_eq, R.view_eq, H.conserve], H.nonempty, H.changes⟩

/-- Every run of the two loops from the start is a run of the ring buffer's protocol from its
constructor in which each call runs to its return before the next starts (`Pipeline.ringTrace`):
the protocol's fields are the pipeline's ring buffer, both threads are idle, the items popped are
the texts processed and the items pushed the texts queued, and the protocol's invariant
`Spsc.Inv` holds. -/
theorem pipeline_ring_protocol (now : Int) (buffer : Nat → Bytes) (es : List Event) :
    (run inputQueueCapacity (Spsc.init buffer) ((Pipeline.init now buffer).ringTrace es)).ring =
        ((Pipeline.init now buffer).run es).inputQueue ∧
      (run inputQueueCapacity (Spsc.init buffer)
        ((Pipeline.init now buffer).ringTrace es)).producer = .idle ∧
      (run inputQueueCapacity (Spsc.init buffer)
        ((Pipeline.init now buffer).ringTrace es)).consumer = .idle ∧
      (run inputQueueCapacity (Spsc.init buffer) ((Pipeline.init now buffer).ringTrace es)).popped =
        ((Pipeline.init now buffer).run es).processed ∧
      (run inputQueueCapacity (Spsc.init buffer) ((Pipeline.init now buffer).ringTrace es)).pushed =
        ((Flow.init now).run es).queued ∧
      (run inputQueueCapacity (Spsc.init buffer)
        ((Pipeline.init now buffer).ringTrace es)).Inv inputQueueCapacity := by
  have h := (Pipeline.Follows.init now buffer).run es
  have R := (Pipeline.Refines.init now buffer).run es
  refine ⟨h.ring_eq, h.producer_idle, h.consumer_idle, h.popped_eq, ?_,
    (Spsc.Inv.init buffer).run _⟩
  rw [h.pushed_eq, R.processed_eq, R.view_eq, ((Flow.Inv.init now).run es).conserve]

/-- While the clipboard holds the last text `check` handed out, or cannot be read, no text enters
the pipeline: a run only processes, in order, texts already in the ring buffer. A text `Ingest`
could not queue is not tried again until the clipboard holds another. -/
theorem pipeline_stalls_on_same_clip {σ : Pipeline} (hq : σ.inputQueue.Inv inputQueueCapacity)
    (es : List Event)
    (hes : ∀ now clipboard, .ingest now clipboard ∈ es →
      clipboard = none ∨ clipboard = some σ.inputIngest.lastClip) :
    ∃ k, (σ.run es).processed = σ.processed ++ (σ.inputQueue.view inputQueueCapacity).take k ∧
      (σ.run es).inputQueue.view inputQueueCapacity = (σ.inputQueue.view inputQueueCapacity).drop k := by
  have R : Pipeline.Refines σ ⟨σ.inputIngest, σ.inputQueue.view inputQueueCapacity, σ.processed, []⟩ :=
    ⟨rfl, hq, rfl, rfl⟩
  obtain ⟨k, hp, hw, -⟩ :=
    Flow.run_of_lastClip es ⟨σ.inputIngest, σ.inputQueue.view inputQueueCapacity, σ.processed, []⟩ hes
  exact ⟨k, (R.run es).processed_eq.trans hp, (R.run es).view_eq.trans hw⟩

/-- The text `hi` is queued; while the clipboard still holds it, two more looks and a pass of
the worker only process it. -/
theorem pipeline_stalls_on_same_clip_example :
    ((Pipeline.init 0 fun _ => []).run [.ingest 200 (some [104, 105])]).inputQueue.view
        inputQueueCapacity = [[104, 105]] ∧
    ∃ k, (((Pipeline.init 0 fun _ => []).run [.ingest 200 (some [104, 105])]).run
          [.ingest 400 (some [104, 105]), .work, .ingest 600 (some [104, 105])]).processed =
        ((Pipeline.init 0 fun _ => []).run [.ingest 200 (some [104, 105])]).processed ++
          (((Pipeline.init 0 fun _ => []).run [.ingest 200 (some [104, 105])]).inputQueue.view
            inputQueueCapacity).take k ∧
      (((Pipeline.init 0 fun _ => []).run [.ingest 200 (some [104, 105])]).run
          [.ingest 400 (some [104, 105]), .work, .ingest 600 (some [104, 105])]).inputQueue.view
          inputQueueCapacity =
        (((Pipeline.init 0 fun _ => []).run [.ingest 200 (some [104, 105])]).inputQueue.view
          inputQueueCapacity).drop k :=
  ⟨by decide, pipeline_stalls_on_same_clip ((Pipeline.Refines.init 0 _).run _).inv _
    fun now clipboard h => by
      simp only [List.mem_cons, Event.ingest.injEq, reduceCtorEq, false_or, List.mem_singleton,
        List.not_mem_nil, or_false] at h
      rcases h with ⟨-, rfl⟩ | ⟨-, rfl⟩ <;> exact .inr rfl⟩

end HyperionRuntime.Core
