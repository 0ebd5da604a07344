import HyperionRuntime.Core.Tokenizer

/-!
# Saving and restoring the vocabulary

`SetVocab(inverse_vocab)` rebuilds `m_vocab` and `m_next_term_id` from a saved
`m_inverse_vocab`, reading empty strings as holes. On a reachable state whose calls never looked
up the empty token it gives back exactly the state that was saved (`setVocab_run`): the tokens
sit at their ids `1` to `m` (`Tokenizer.Repr`), and every other string of `m_inverse_vocab` is
empty (`Tokenizer.Blank`, kept by every call). The public `GetTermID("")` breaks this: it stores
the empty token under an id, which `SetVocab` then reads as a hole, so the restored state has
another `m_vocab` and `m_next_term_id` and later calls give other ids
(`setVocab_loses_empty_token`).
-/

namespace HyperionRuntime.Core

namespace Tokenizer

/-! ## The strings outside the ids in use -/

/-- Index `0` and every index past the `m` tokens of `v` hold the empty string. -/
def Blank (t : Tokenizer) (v : Vocab) : Prop :=
  ∀ i s, t.inverseVocab[i]? = some s → (i = 0 ∨ v.tokens.length < i) → s = []

theorem Blank.init : Blank init Vocab.empty := fun _ _ h => by cases h

/-- `resize` keeps the strings it does not add, and adds empty ones. -/
theorem getElem?_resize_eq_some {l : List Bytes} {n j : Nat} {x : Bytes}
    (h : (resize l n)[j]? = some x) : l[j]? = some x ∨ x = [] := by
  unfold resize at h
  rcases Nat.lt_or_ge j (l.take n).length with hj | hj
  · rw [List.getElem?_append_left hj, List.getElem?_take_of_lt (by simp at hj; omega)] at h
    exact .inl h
  · rw [List.getElem?_append_right hj, List.getElem?_replicate] at h
    split_ifs at h
    exact .inr (Option.some_inj.1 h).symm

theorem getElem?_grow_eq_some {l : List Bytes} {n j : Nat} {x : Bytes}
    (h : (grow l n)[j]? = some x) : l[j]? = some x ∨ x = [] := by
  unfold grow at h
  split_ifs at h
  · exact getElem?_resize_eq_some h
  · exact .inl h

section Blank
variable {t t' : Tokenizer} {v : Vocab} {s : Bytes} {i : TermID}

/-- `GetTermID` writes only at the new id, and its resize adds empty strings. -/
theorem Blank.getTermID (H : Repr t v) (B : Blank t v) (h : t.getTermID s = some (t', i)) :
    Blank t' (v.intern s) := by
  by_cases hs : s ∈ v.tokens
  · obtain ⟨j, hj⟩ := List.mem_iff_getElem?.1 hs
    rw [getTermID_of_find (H.find_eq_some.2 ⟨j, hj, rfl⟩), Option.some_inj, Prod.mk.injEq] at h
    rw [← h.1, Vocab.intern_of_mem hs]
    exact B
  · rw [getTermID_of_find_none (H.find_eq_none.2 hs)] at h
    split_ifs at h
    rw [Option.some_inj, Prod.mk.injEq] at h
    rw [← h.1, Blank, Vocab.tokens_intern_of_not_mem hs, List.length_append, List.length_singleton]
    intro j x hx hj
    rw [List.getElem?_set_ne (by rw [H.next_eq]; omega)] at hx
    exact (getElem?_grow_eq_some hx).elim (fun hx => B j x hx (by omega)) id

end Blank

/-! ## The loop of `SetVocab` -/

theorem assign_of_find_none : ∀ {vocab : List (Bytes × TermID)} {s : Bytes} (id : TermID),
    find vocab s = none → assign vocab s id = vocab ++ [(s, id)]
  | [], _, _, _ => rfl
  | (k, j) :: rest, s, id, h => by
    have hk : k ≠ s := fun hk => by simp [find, hk] at h
    rw [find, if_neg hk] at h
    rw [assign, if_neg hk, assign_of_find_none id h]; rfl

theorem setVocabLoop_append (i : Nat) (a b : List Bytes) (vocab : List (Bytes × TermID))
    (next : TermID) :
    setVocabLoop i (a ++ b) vocab next =
      setVocabLoop (i + a.length) b (setVocabLoop i a vocab next).1 (setVocabLoop i a vocab next).2 := by
  induction a generalizing i vocab next with
  | nil => rfl
  | cons s a ih =>
    rw [List.cons_append, List.length_cons, show i + (a.length + 1) = i + 1 + a.length by omega]
    simp only [setVocabLoop]
    split_ifs <;> exact ih ..

/-- Holes change nothing. -/
theorem setVocabLoop_of_forall_eq_nil {l : List Bytes} (h : ∀ s ∈ l, s = []) (i : Nat)
    (vocab : List (Bytes × TermID)) (next : TermID) : setVocabLoop i l vocab next = (vocab, next) := by
  induction l generalizing i with
  | nil => rfl
  | cons s l ih =>
    rw [setVocabLoop, if_neg (not_not.2 (h s (List.mem_cons_self _ _)))]
    exact ih (fun s hs => h s (List.mem_cons_of_mem _ hs)) _

/-- Distinct new tokens from index `i` on get the ids `i`, `i + 1`, ..., and
`m_next_term_id` ends past the last. -/
theorem setVocabLoop_of_nodup {l : List Bytes} (hl : l.Nodup) (hne : ∀ s ∈ l, s ≠ []) :
    ∀ {i : Nat} {vocab : List (Bytes × TermID)}, (∀ s ∈ l, find vocab s = none) →
      i + l.length < 2 ^ 32 → setVocabLoop i l vocab i = (vocab ++ entries i l, i + l.length) := by
  induction l with
  | nil => intro i vocab _ _; simp [setVocabLoop, entries]
  | cons s l ih =>
    intro i vocab hf hi
    rw [List.nodup_cons] at hl
    rw [List.length_cons] at hi
    have hi' : i < 2 ^ 32 := by omega
    rw [setVocabLoop, if_pos (hne s (List.mem_cons_self _ _)), if_pos le_rfl, Nat.mod_eq_of_lt hi',
      Nat.mod_eq_of_lt (by omega), assign_of_find_none _ (hf s (List.mem_cons_self _ _)),
      ih hl.2 (fun s hs => hne s (List.mem_cons_of_mem _ hs)) (fun a ha => ?_) (by omega)]
    · simp [entries, Nat.add_assoc, Nat.add_comm 1]
    · have hsa : s ≠ a := by rintro rfl; exact hl.1 ha
      rw [find_append, hf a (List.mem_cons_of_mem _ ha), Option.none_or]
      simp [find, hsa]

/-! ## The round trip -/

section RoundTrip
variable {t : Tokenizer} {v : Vocab}

/-- Past index `0`, `m_inverse_vocab` holds the tokens and then the strings past them. -/
theorem Repr.drop_one_inverseVocab (H : Repr t v) :
    t.inverseVocab.drop 1 = v.tokens ++ t.inverseVocab.drop (v.tokens.length + 1) := by
  apply List.ext_getElem?
  intro j
  rw [List.getElem?_drop, List.getElem?_append]
  split_ifs with hj
  · rw [Nat.add_comm, H.inverse_get j hj]
  · rw [List.getElem?_drop]; congr 1; omega

/-- `SetVocab(GetInverseVocab())` gives back a state that holds a vocabulary without the empty
token and keeps its other strings empty. -/
theorem Repr.setVocab_getInverseVocab (H : Repr t v) (B : Blank t v) (hne : [] ∉ v.tokens) :
    setVocab t.getInverseVocab = t := by
  have hblank : ∀ s ∈ t.inverseVocab.drop (v.tokens.length + 1), s = [] := fun s hs => by
    obtain ⟨j, hj⟩ := List.mem_iff_getElem?.1 hs
    rw [List.getElem?_drop] at hj
    exact B _ _ hj (.inr (by omega))
  have hloop : setVocabLoop 1 (t.inverseVocab.drop 1) [] 1 = (entries 1 v.tokens, 1 + v.tokens.length) := by
    rw [H.drop_one_inverseVocab, setVocabLoop_append,
      setVocabLoop_of_nodup v.nodup (fun s hs h => hne (h ▸ hs)) (fun s _ => (rfl : find [] s = none))
        (by have := H.bound; omega),
      setVocabLoop_of_forall_eq_nil hblank]
    rfl
  obtain ⟨vocab, inv, next⟩ := t
  simp only [setVocab, getInverseVocab, hloop, Tokenizer.mk.injEq, true_and, and_true]
  exact ⟨H.vocab_eq.symm, (H.next_eq.trans (Nat.add_comm _ _)).symm⟩

end RoundTrip

/-- Every run from `Tokenizer()` that never looks up the empty token is saved and restored
exactly by `SetVocab(GetInverseVocab())`. -/
theorem setVocab_run {cs : List Call} {t : Tokenizer} (h : init.run cs = some t)
    (hne : [] ∉ cs.flatMap Call.terms) : setVocab t.getInverseVocab = t := by
  have ⟨H, B⟩ := run_induction (P := fun t v => Repr t v ∧ Blank t v)
    (fun ⟨H, B⟩ h => ⟨(H.getTermID h).1, B.getTermID H h⟩) ⟨Repr.init, Blank.init⟩ h
  exact H.setVocab_getInverseVocab B fun h => hne ((Vocab.mem_internAll.1 h).resolve_left
    (List.not_mem_nil _))

/-! ## The empty token -/

/-- `GetTermID("")` from `Tokenizer()` stores the empty token under the id `1`. `SetVocab` reads
it back as a hole: the restored state has an empty `m_vocab` and `m_next_term_id = 1` where the
saved one has `{"" : 1}` and `2`, and `GetTermID("a")` then gives `1` where the saved state gives
`2`. -/
theorem setVocab_loses_empty_token :
    ∃ t, init.run [.getTermID []] = some t ∧
      t.vocab = [([], 1)] ∧ t.nextTermId = 2 ∧
      (setVocab t.getInverseVocab).vocab = [] ∧ (setVocab t.getInverseVocab).nextTermId = 1 ∧
      (setVocab t.getInverseVocab).inverseVocab = t.inverseVocab ∧
      (t.getTermID (ascii "a")).map Prod.snd = some 2 ∧
      ((setVocab t.getInverseVocab).getTermID (ascii "a")).map Prod.snd = some 1 :=
  ⟨_, rfl, by decide⟩

end Tokenizer

end HyperionRuntime.Core
