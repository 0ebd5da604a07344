import HyperionRuntime.Machine.Memory
import Mathlib.Data.List.Basic
import Mathlib.Data.List.Nodup

/-!
# The tokenizer's vocabulary

`Tokenizer` numbers the distinct tokens it is asked about: `GetTermID(token)` returns the id of
`token`, giving a new token the id `m_next_term_id` in `m_vocab` and storing it at that index of
`m_inverse_vocab`, which it first grows by 100 when full. `Tokenize(text)` calls `GetTermID` on
each token of `text` that is not a stop word and counts the ids. Strings are byte strings;
`TermID` is `uint32_t`, so the counter and `m_next_term_id + 100` are taken modulo `2 ^ 32`.

Against it stands the vocabulary it is meant to keep (`Vocab`): the distinct tokens seen, in
order of first appearance, the `i`-th with id `i + 1`. `Tokenizer.Repr` relates the two; it holds
initially and after every call of either method (`Tokenizer.Repr.run`), and its fields and their
consequences are what a caller relies on: `m_vocab` and `m_inverse_vocab` are inverse on the
ids from `1` below `m_next_term_id`, ids never change, `VocabularySize()` is
`m_next_term_id - 1`, and `GetTermString(GetTermID(s)) = s`. Every call succeeds until the
vocabulary holds `4294967200` tokens; a new token then makes `m_next_term_id + 100` wrap to `5`,
the `resize` shrinks `m_inverse_vocab`, and the write at `m_next_term_id` is past its end
(`Tokenizer.Repr.getTermID_eq_none`).
-/

namespace HyperionRuntime.Core

/-- A `std::string`: its bytes. -/
abbrev Bytes := List UInt8

/-- A `TermID`, a `uint32_t`. -/
abbrev TermID := Nat

/-- The bytes of an ASCII literal. -/
def ascii (s : String) : Bytes := s.toList.map Char.toUInt8

/-- The stop words `Tokenizer()` puts in `m_stopwords`. -/
def stopwords : List Bytes :=
  ["the", "of", "and", "a", "to", "in", "is", "you", "that", "it",
    "he", "was", "for", "on", "are", "as", "with", "his", "they", "i"].map ascii

/-- `IsStopWord(token)`. -/
def isStopWord (token : Bytes) : Bool := decide (token ∈ stopwords)

/-- `std::isalnum` of an `unsigned char` in the "C" locale. -/
def isAlnum (c : UInt8) : Bool :=
  (48 ≤ c.toNat && c.toNat ≤ 57) || (65 ≤ c.toNat && c.toNat ≤ 90) || (97 ≤ c.toNat && c.toNat ≤ 122)

/-- `std::tolower` of an `unsigned char` in the "C" locale. -/
def toLower (c : UInt8) : UInt8 := if 65 ≤ c.toNat ∧ c.toNat ≤ 90 then c + 32 else c

/-- The `Tokenizer` state read and written by its methods. `m_vocab` is kept as its entries in
the order they were added; `GetTermID` adds one only for a token it does not find. -/
structure Tokenizer where
  vocab : List (Bytes × TermID)
  inverseVocab : List Bytes
  nextTermId : TermID

namespace Tokenizer

/-- `Tokenizer()`: empty maps and `m_next_term_id = 1`. -/
def init : Tokenizer := ⟨[], [], 1⟩

/-- `m_vocab.find(token)`: the id stored for `token`. -/
def find : List (Bytes × TermID) → Bytes → Option TermID
  | [], _ => none
  | (k, id) :: rest, token => if k = token then some id else find rest token

/-- `std::vector::resize(n)`: the first `n` strings, then empty strings up to size `n`. -/
def resize (v : List Bytes) (n : Nat) : List Bytes := v.take n ++ List.replicate (n - v.length) []

/-- `if (m_inverse_vocab.size() <= m_next_term_id) m_inverse_vocab.resize(m_next_term_id + 100)`,
the sum a `uint32_t`. -/
def grow (inverseVocab : List Bytes) (nextTermId : TermID) : List Bytes :=
  if inverseVocab.length ≤ nextTermId then resize inverseVocab ((nextTermId + 100) % 2 ^ 32)
  else inverseVocab

/-- `GetTermID(token)`. A new token is stored with id `m_next_term_id`, after `grow`; the write
`m_inverse_vocab[m_next_term_id] = s` past the end is `none`. The id returned is `m_vocab[s]`,
the one just stored. -/
def getTermID (t : Tokenizer) (token : Bytes) : Option (Tokenizer × TermID) :=
  match find t.vocab token with
  | some id => some (t, id)
  | none =>
    let inverseVocab := grow t.inverseVocab t.nextTermId
    if t.nextTermId < inverseVocab.length then
      some (⟨t.vocab ++ [(token, t.nextTermId)], inverseVocab.set t.nextTermId token,
        (t.nextTermId + 1) % 2 ^ 32⟩, t.nextTermId)
    else none

/-- `GetTermString(id)`. -/
def getTermString (t : Tokenizer) (id : TermID) : Bytes :=
  if h : id < t.inverseVocab.length then t.inverseVocab[id] else ascii "UNKNOWN"

/-- `VocabularySize()`. -/
def vocabularySize (t : Tokenizer) : Nat := t.vocab.length

/-- `counts[id]++` on the `int` count; `none` where it would pass `INT_MAX`. -/
def bump : List (TermID × Nat) → TermID → Option (List (TermID × Nat))
  | [], id => some [(id, 1)]
  | (k, n) :: rest, id =>
    if k = id then (if n + 1 < 2 ^ 31 then some ((k, n + 1) :: rest) else none)
    else (bump rest id).map ((k, n) :: ·)

/-- What `Tokenize` does with a finished token: unless it is a stop word,
`counts[GetTermID(current_token)]++`. -/
def count (t : Tokenizer) (counts : List (TermID × Nat)) (token : Bytes) :
    Option (Tokenizer × List (TermID × Nat)) :=
  if isStopWord token then some (t, counts)
  else (t.getTermID token).bind fun r => (bump counts r.2).map (r.1, ·)

/-- The loop of `Tokenize` over the rest of `text`, with `current_token`; at the end, the last
token. -/
def tokenizeLoop : Bytes → Tokenizer → List (TermID × Nat) → Bytes →
    Option (Tokenizer × List (TermID × Nat))
  | [], t, counts, cur => if cur ≠ [] then t.count counts cur else some (t, counts)
  | c :: cs, t, counts, cur =>
    if isAlnum c then tokenizeLoop cs t counts (cur ++ [toLower c])
    else if cur ≠ [] then (t.count counts cur).bind fun r => tokenizeLoop cs r.1 r.2 []
    else tokenizeLoop cs t counts cur

/-- `Tokenize(text)`: the state after it, and the counts it returns. -/
def tokenize (t : Tokenizer) (text : Bytes) : Option (Tokenizer × List (TermID × Nat)) :=
  tokenizeLoop text t [] []

/-- A call of the tokenizer's methods that change its state. -/
inductive Call where
  | tokenize (text : Bytes)
  | getTermID (token : Bytes)

/-- One call, on the state. -/
def call (t : Tokenizer) : Call → Option Tokenizer
  | .tokenize text => (t.tokenize text).map Prod.fst
  | .getTermID token => (t.getTermID token).map Prod.fst

/-- The calls in order; `none` once one is undefined. -/
def run (t : Tokenizer) : List Call → Option Tokenizer
  | [] => some t
  | c :: cs => (t.call c).bind (run · cs)

/-- `GetInverseVocab()`. -/
def getInverseVocab (t : Tokenizer) : List Bytes := t.inverseVocab

/-- `m_vocab[key] = id`: the entry of `key` gets `id`, or one is added. -/
def assign : List (Bytes × TermID) → Bytes → TermID → List (Bytes × TermID)
  | [], key, id => [(key, id)]
  | (k, j) :: rest, key, id => if k = key then (k, id) :: rest else (k, j) :: assign rest key id

/-- The loop of `SetVocab` from the `size_t` index `i` over the rest of `inverse_vocab`, with
`m_vocab` and `m_next_term_id`: a nonempty string gets the id `i`, and `m_next_term_id` moves
past `i`. Both stores narrow `i` to a `uint32_t`. -/
def setVocabLoop : Nat → List Bytes → List (Bytes × TermID) → TermID → List (Bytes × TermID) × TermID
  | _, [], vocab, next => (vocab, next)
  | i, s :: rest, vocab, next =>
    if s ≠ [] then
      setVocabLoop (i + 1) rest (assign vocab s (i % 2 ^ 32)) (if next ≤ i then (i + 1) % 2 ^ 32 else next)
    else setVocabLoop (i + 1) rest vocab next

/-- `SetVocab(inverse_vocab)`: it sets all three fields, so the state before plays no part.
Empty strings are holes; the loop starts at index `1`. -/
def setVocab (inverseVocab : List Bytes) : Tokenizer :=
  let r := setVocabLoop 1 (inverseVocab.drop 1) [] 1
  ⟨r.1, inverseVocab, r.2⟩

end Tokenizer

/-! ## The tokens a call looks up -/

/-- A token `Tokenize` looks up: nonempty and not a stop word. -/
def isTerm (w : Bytes) : Bool := w ≠ [] && !isStopWord w

/-- The tokens `Tokenize(text)` passes to `GetTermID`, in order: the maximal runs of
alphanumeric bytes, lowercased, that are not stop words. -/
def terms (text : Bytes) : List Bytes :=
  ((text.splitOnP fun c => !isAlnum c).map (·.map toLower)).filter isTerm

/-- The tokens a call looks up. -/
def Tokenizer.Call.terms : Tokenizer.Call → List Bytes
  | .tokenize text => HyperionRuntime.Core.terms text
  | .getTermID token => [token]

/-! ## The vocabulary -/

/-- The distinct tokens seen, in order of first appearance; the `i`-th has id `i + 1`. -/
structure Vocab where
  tokens : List Bytes
  nodup : tokens.Nodup

namespace Vocab

/-- No token seen. -/
def empty : Vocab := ⟨[], List.nodup_nil⟩

/-- `token` seen: appended if it is new. -/
def intern (v : Vocab) (token : Bytes) : Vocab :=
  if h : token ∈ v.tokens then v else ⟨v.tokens ++ [token], List.concat_eq_append _ _ ▸ v.nodup.concat h⟩

/-- The tokens `ss` seen in turn. -/
def internAll (v : Vocab) (ss : List Bytes) : Vocab := ss.foldl intern v

theorem intern_of_mem {v : Vocab} {s : Bytes} (h : s ∈ v.tokens) : v.intern s = v := dif_pos h

theorem tokens_intern_of_not_mem {v : Vocab} {s : Bytes} (h : s ∉ v.tokens) :
    (v.intern s).tokens = v.tokens ++ [s] := by
  rw [intern, dif_neg h]

theorem prefix_intern (v : Vocab) (s : Bytes) : v.tokens <+: (v.intern s).tokens := by
  by_cases h : s ∈ v.tokens
  · simp only [intern_of_mem h, List.prefix_refl]
  · exact tokens_intern_of_not_mem h ▸ List.prefix_append _ _

theorem prefix_internAll (v : Vocab) (ss : List Bytes) : v.tokens <+: (v.internAll ss).tokens := by
  induction ss generalizing v with
  | nil => exact List.prefix_refl _
  | cons s ss ih => exact (v.prefix_intern s).trans (ih _)

theorem mem_intern {v : Vocab} {s w : Bytes} : w ∈ (v.intern s).tokens ↔ w ∈ v.tokens ∨ w = s := by
  by_cases h : s ∈ v.tokens
  · rw [intern_of_mem h]; constructor
    · exact .inl
    · rintro (hw | rfl) <;> assumption
  · rw [tokens_intern_of_not_mem h, List.mem_append, List.mem_singleton]

theorem mem_internAll {v : Vocab} {ss : List Bytes} {w : Bytes} :
    w ∈ (v.internAll ss).tokens ↔ w ∈ v.tokens ∨ w ∈ ss := by
  induction ss generalizing v with
  | nil => simp [internAll]
  | cons s ss ih =>
    show w ∈ ((v.intern s).internAll ss).tokens ↔ _
    rw [ih, mem_intern, List.mem_cons]; tauto

theorem internAll_concat (v : Vocab) (ss : List Bytes) (s : Bytes) :
    v.internAll (ss ++ [s]) = (v.internAll ss).intern s := by
  rw [internAll, List.foldl_append]; rfl

end Vocab

namespace Tokenizer

/-! ## `m_vocab` and `m_inverse_vocab` -/

/-- The entries of `m_vocab` for the tokens `l`, numbered from `k`. -/
def entries (k : Nat) : List Bytes → List (Bytes × TermID)
  | [] => []
  | s :: l => (s, k) :: entries (k + 1) l

theorem find_append (a b : List (Bytes × TermID)) (s : Bytes) :
    find (a ++ b) s = (find a s).or (find b s) := by
  induction a with
  | nil => rfl
  | cons e a ih =>
    obtain ⟨k, id⟩ := e
    by_cases h : k = s <;> simp [find, h, ih]

theorem length_entries (k : Nat) (l : List Bytes) : (entries k l).length = l.length := by
  induction l generalizing k with
  | nil => rfl
  | cons s l ih => rw [entries, List.length_cons, ih, List.length_cons]

theorem entries_append (k : Nat) (l : List Bytes) (s : Bytes) :
    entries k (l ++ [s]) = entries k l ++ [(s, l.length + k)] := by
  induction l generalizing k with
  | nil => rw [List.nil_append, List.length_nil, Nat.zero_add]; rfl
  | cons a l ih => rw [List.cons_append, entries, entries, ih, List.length_cons, Nat.add_right_comm]; rfl

theorem find_entries_eq_none {k : Nat} {l : List Bytes} {s : Bytes} :
    find (entries k l) s = none ↔ s ∉ l := by
  induction l generalizing k with
  | nil => simp [entries, find]
  | cons a l ih =>
    by_cases h : a = s
    · subst h; simp [entries, find]
    · simp [entries, find, h, ih, Ne.symm h]

/-- In the entries of distinct tokens, a token's id is its position plus `k`. -/
theorem find_entries_eq_some {k : Nat} {l : List Bytes} (hl : l.Nodup) {s : Bytes} {i : Nat} :
    find (entries k l) s = some i ↔ ∃ j, l[j]? = some s ∧ i = j + k := by
  induction l generalizing k with
  | nil => simp [entries, find]
  | cons a l ih =>
    rw [List.nodup_cons] at hl
    simp only [entries, find]
    by_cases h : a = s
    · subst h
      rw [if_pos rfl, Option.some_inj]
      constructor
      · rintro rfl; exact ⟨0, List.getElem?_cons_zero, (Nat.zero_add _).symm⟩
      · rintro ⟨_ | j, hj, rfl⟩
        · exact (Nat.zero_add _).symm
        · rw [List.getElem?_cons_succ] at hj
          exact absurd (List.mem_iff_getElem?.2 ⟨j, hj⟩) hl.1
    · rw [if_neg h, ih hl.2]
      constructor
      · rintro ⟨j, hj, rfl⟩; exact ⟨j + 1, by rwa [List.getElem?_cons_succ], by omega⟩
      · rintro ⟨_ | j, hj, rfl⟩
        · rw [List.getElem?_cons_zero, Option.some_inj] at hj; exact absurd hj h
        · rw [List.getElem?_cons_succ] at hj; exact ⟨j, hj, by omega⟩

theorem length_resize (v : List Bytes) (n : Nat) : (resize v n).length = n := by
  simp only [resize, List.length_append, List.length_take, List.length_replicate]; omega

/-- The size of `m_inverse_vocab` once `m` tokens are stored: it starts empty and is grown by
`100` from `m_next_term_id` whenever it is full. -/
def inverseLength (m : Nat) : Nat := if m = 0 then 0 else 100 * ((m + 99) / 100) + 1

/-- With `m` tokens stored, the ids `1` to `m` are in bounds of `m_inverse_vocab`. -/
theorem lt_inverseLength {j m : Nat} (h : j < m) : j + 1 < inverseLength m := by
  rw [inverseLength, if_neg (by omega)]; omega

/-- Before the `m + 1`-th token is stored, `grow` gives `m_inverse_vocab` its size for `m + 1`
tokens, while `m + 101` does not wrap. -/
theorem length_grow {inv : List Bytes} {m : Nat} (h : inv.length = inverseLength m)
    (hm : m < 4294967200) : (grow inv (m + 1)).length = inverseLength (m + 1) := by
  unfold grow
  split_ifs with hle
  · rw [length_resize]; unfold inverseLength at *; split_ifs at * <;> omega
  · unfold inverseLength at *; split_ifs at * <;> omega

theorem getElem?_grow {inv : List Bytes} {m i : Nat} (h : inv.length = inverseLength m)
    (hm : m < 4294967200) (hi : i < inv.length) : (grow inv (m + 1))[i]? = inv[i]? := by
  unfold grow
  split_ifs with hle
  · have hn : (m + 1 + 100) % 2 ^ 32 = m + 101 := by
      unfold inverseLength at h; split_ifs at h <;> omega
    rw [hn, resize, List.getElem?_append_left (by simp only [List.length_take]; omega),
      List.getElem?_take_of_lt (by omega)]
  · rfl

/-! ## The abstraction -/

/-- `t` holds the vocabulary `v`: `m_vocab` maps the `i`-th token to `i + 1`, the index where
`m_inverse_vocab` stores it, `m_next_term_id` is the next id, and `m_inverse_vocab` has the size
its resizes gave it. No more than `4294967200` tokens are stored: a new one after that is a call
that fails. -/
structure Repr (t : Tokenizer) (v : Vocab) : Prop where
  vocab_eq : t.vocab = entries 1 v.tokens
  next_eq : t.nextTermId = v.tokens.length + 1
  length_inverse : t.inverseVocab.length = inverseLength v.tokens.length
  inverse_get : ∀ i < v.tokens.length, t.inverseVocab[i + 1]? = v.tokens[i]?
  bound : v.tokens.length ≤ 4294967200

theorem Repr.init : Repr init Vocab.empty :=
  ⟨rfl, rfl, rfl, fun _ h => absurd h (Nat.not_lt_zero _), Nat.zero_le _⟩

section Repr

variable {t t' : Tokenizer} {v v' : Vocab} {s : Bytes} {i : Nat}

theorem Repr.find_eq_some (H : Repr t v) : find t.vocab s = some i ↔ ∃ j, v.tokens[j]? = some s ∧ i = j + 1 := by
  rw [H.vocab_eq, find_entries_eq_some v.nodup]

theorem Repr.find_eq_none (H : Repr t v) : find t.vocab s = none ↔ s ∉ v.tokens := by
  rw [H.vocab_eq, find_entries_eq_none]

/-- `VocabularySize()` is `m_next_term_id - 1`. -/
theorem Repr.vocabularySize (H : Repr t v) : t.vocabularySize = t.nextTermId - 1 := by
  rw [Tokenizer.vocabularySize, H.vocab_eq, length_entries, H.next_eq, Nat.add_sub_cancel]

/-- Every id from `1` below `m_next_term_id` is in bounds of `m_inverse_vocab`, and `m_vocab`
maps the token stored there back to it. -/
theorem Repr.inverse_of_lt (H : Repr t v) (h₁ : 1 ≤ i) (h₂ : i < t.nextTermId) :
    ∃ s, t.inverseVocab[i]? = some s ∧ find t.vocab s = some i := by
  obtain ⟨j, rfl⟩ : ∃ j, i = j + 1 := ⟨i - 1, by omega⟩
  have hj : j < v.tokens.length := by rw [H.next_eq] at h₂; omega
  refine ⟨v.tokens[j], (H.inverse_get j hj).trans (List.getElem?_eq_getElem hj), ?_⟩
  exact H.find_eq_some.2 ⟨j, List.getElem?_eq_getElem hj, rfl⟩

/-- An id that `m_vocab` gives is from `1` below `m_next_term_id`, and `m_inverse_vocab` stores
the token there. -/
theorem Repr.inverse_of_find (H : Repr t v) (h : find t.vocab s = some i) :
    1 ≤ i ∧ i < t.nextTermId ∧ t.inverseVocab[i]? = some s := by
  obtain ⟨j, hj, rfl⟩ := H.find_eq_some.1 h
  have hlt := (List.getElem?_eq_some_iff.1 hj).1
  exact ⟨by omega, by rw [H.next_eq]; omega, (H.inverse_get j hlt).trans hj⟩

/-- A token keeps its id in every later state. -/
theorem Repr.find_mono (H : Repr t v) (H' : Repr t' v') (hp : v.tokens <+: v'.tokens)
    (h : find t.vocab s = some i) : find t'.vocab s = some i := by
  obtain ⟨j, hj, rfl⟩ := H.find_eq_some.1 h
  obtain ⟨w, hw⟩ := hp
  refine H'.find_eq_some.2 ⟨j, ?_, rfl⟩
  rw [← hw, List.getElem?_append_left (List.getElem?_eq_some_iff.1 hj).1, hj]

theorem getTermString_of_getElem? (h : t.inverseVocab[i]? = some s) : t.getTermString i = s := by
  obtain ⟨hi, rfl⟩ := List.getElem?_eq_some_iff.1 h
  rw [getTermString, dif_pos hi]

/-! ## `GetTermID` -/

theorem getTermID_of_find (h : find t.vocab s = some i) : t.getTermID s = some (t, i) := by
  rw [getTermID, h]

theorem getTermID_of_find_none (h : find t.vocab s = none) :
    t.getTermID s = if t.nextTermId < (grow t.inverseVocab t.nextTermId).length then
      some (⟨t.vocab ++ [(s, t.nextTermId)], (grow t.inverseVocab t.nextTermId).set t.nextTermId s,
        (t.nextTermId + 1) % 2 ^ 32⟩, t.nextTermId) else none := by
  rw [getTermID, h]

/-- A new token, while fewer than `4294967200` are stored, gets the id `m_next_term_id` and
is appended to the vocabulary. -/
theorem Repr.getTermID_of_not_mem (H : Repr t v) (hs : s ∉ v.tokens) (hm : v.tokens.length < 4294967200) :
    ∃ t', t.getTermID s = some (t', v.tokens.length + 1) ∧ Repr t' (v.intern s) := by
  have hlen := length_grow H.length_inverse hm
  have hcap := lt_inverseLength (Nat.lt_succ_self v.tokens.length)
  rw [getTermID_of_find_none (H.find_eq_none.2 hs), H.next_eq, if_pos (hlen ▸ hcap)]
  refine ⟨_, rfl, ?_, ?_, ?_, fun j hj => ?_, ?_⟩ <;> simp only [Vocab.tokens_intern_of_not_mem hs] at *
  · rw [H.vocab_eq, entries_append]
  · rw [List.length_append, List.length_singleton, Nat.mod_eq_of_lt (by omega)]
  · rw [List.length_set, hlen, List.length_append, List.length_singleton]
  · rw [List.length_append, List.length_singleton] at hj
    rcases Nat.lt_succ_iff_lt_or_eq.1 hj with hj | rfl
    · have hin := H.length_inverse ▸ lt_inverseLength hj
      rw [List.getElem?_set_ne (by omega), getElem?_grow H.length_inverse hm hin, H.inverse_get j hj,
        List.getElem?_append_left hj]
    · rw [List.getElem?_set_self (hlen ▸ hcap), List.getElem?_concat_length]
  · rw [List.length_append, List.length_singleton]; omega

/-- With `4294967200` tokens stored, `m_next_term_id + 100` wraps to `5` and `grow` leaves five
strings. -/
theorem Repr.length_grow_of_full (H : Repr t v) (hm : v.tokens.length = 4294967200) :
    (grow t.inverseVocab t.nextTermId).length = 5 := by
  rw [grow, H.length_inverse, H.next_eq, hm, if_pos (by decide), length_resize]; rfl

/-- The `4294967201`-th new token: `m_next_term_id + 100` wraps to `5`, `resize` shrinks
`m_inverse_vocab` to five strings, and the write at `m_next_term_id` is past its end. -/
theorem Repr.getTermID_eq_none (H : Repr t v) (hs : s ∉ v.tokens) (hm : v.tokens.length = 4294967200) :
    t.getTermID s = none := by
  rw [getTermID_of_find_none (H.find_eq_none.2 hs), H.length_grow_of_full hm, H.next_eq, hm, if_neg (by decide)]

/-- What a `GetTermID` call that returns leaves: the vocabulary with `s` seen, and `s` mapped to
the id returned. -/
theorem Repr.getTermID (H : Repr t v) (h : t.getTermID s = some (t', i)) :
    Repr t' (v.intern s) ∧ find t'.vocab s = some i := by
  by_cases hs : s ∈ v.tokens
  · obtain ⟨j, hj⟩ := List.mem_iff_getElem?.1 hs
    have hfind := H.find_eq_some.2 ⟨j, hj, rfl⟩
    rw [getTermID_of_find hfind, Option.some_inj, Prod.mk.injEq] at h
    obtain ⟨rfl, rfl⟩ := h
    exact ⟨(Vocab.intern_of_mem hs).symm ▸ H, hfind⟩
  · rcases Nat.lt_or_ge v.tokens.length 4294967200 with hm | hm
    · obtain ⟨t₁, h₁, H₁⟩ := H.getTermID_of_not_mem hs hm
      rw [h₁, Option.some_inj, Prod.mk.injEq] at h
      obtain ⟨rfl, rfl⟩ := h
      refine ⟨H₁, H₁.find_eq_some.2 ⟨v.tokens.length, ?_, rfl⟩⟩
      rw [Vocab.tokens_intern_of_not_mem hs, List.getElem?_concat_length]
    · rw [H.getTermID_eq_none hs (le_antisymm H.bound hm)] at h
      cases h

/-- `GetTermID` returns, except on a new token when `4294967200` are stored. -/
theorem Repr.getTermID_isSome (H : Repr t v) (h : s ∈ v.tokens ∨ v.tokens.length < 4294967200) :
    (t.getTermID s).isSome := by
  by_cases hs : s ∈ v.tokens
  · obtain ⟨j, hj⟩ := List.mem_iff_getElem?.1 hs
    rw [getTermID_of_find (H.find_eq_some.2 ⟨j, hj, rfl⟩)]; rfl
  · obtain ⟨t', h', -⟩ := H.getTermID_of_not_mem hs (h.resolve_left hs)
    rw [h']; rfl

/-- `GetTermString(GetTermID(s)) = s`. -/
theorem Repr.getTermString_getTermID (H : Repr t v) (h : t.getTermID s = some (t', i)) :
    t'.getTermString i = s :=
  getTermString_of_getElem? ((H.getTermID h).1.inverse_of_find (H.getTermID h).2).2.2

end Repr

/-! ## `Tokenize` -/

/-- The `GetTermID` calls of a `Tokenize`, in turn. -/
def getTermIDs (t : Tokenizer) : List Bytes → Option Tokenizer
  | [] => some t
  | s :: ss => (t.getTermID s).bind fun r => r.1.getTermIDs ss

theorem getTermIDs_append (t : Tokenizer) (a b : List Bytes) :
    t.getTermIDs (a ++ b) = (t.getTermIDs a).bind (·.getTermIDs b) := by
  induction a generalizing t with
  | nil => rfl
  | cons s a ih =>
    simp only [List.cons_append, getTermIDs, Option.bind_assoc]
    congr 1; funext r; exact ih r.1

/-- `count` on each token of `ws` in turn. -/
def countAll (t : Tokenizer) (counts : List (TermID × Nat)) :
    List Bytes → Option (Tokenizer × List (TermID × Nat))
  | [] => some (t, counts)
  | w :: ws => (t.count counts w).bind fun r => r.1.countAll r.2 ws

theorem countAll_append (t : Tokenizer) (counts : List (TermID × Nat)) (a b : List Bytes) :
    t.countAll counts (a ++ b) = (t.countAll counts a).bind fun r => r.1.countAll r.2 b := by
  induction a generalizing t counts with
  | nil => rfl
  | cons w a ih =>
    simp only [List.cons_append, countAll, Option.bind_assoc]
    congr 1; funext r; exact ih r.1 r.2

/-- A finished token is counted unless it is a stop word. -/
theorem count_eq_countAll (t : Tokenizer) (counts : List (TermID × Nat)) {cur : Bytes}
    (hcur : cur ≠ []) : t.count counts cur = t.countAll counts ([cur].filter isTerm) := by
  by_cases hst : isStopWord cur
  · simp [count, hst, isTerm, countAll]
  · simp [isTerm, hst, hcur, countAll]

theorem modifyHead_nil_append (l : List Bytes) : l.modifyHead ([] ++ ·) = l := by
  cases l <;> rfl

theorem map_modifyHead_cons (c : UInt8) (l : List Bytes) :
    (l.modifyHead (c :: ·)).map (·.map toLower) = (l.map (·.map toLower)).modifyHead (toLower c :: ·) := by
  cases l <;> rfl

/-- The loop counts the tokens still to come: the words of the rest of the text, the first one
after `current_token`, lowercased, without stop words. -/
theorem tokenizeLoop_eq (cs : Bytes) (t : Tokenizer) (counts : List (TermID × Nat)) (cur : Bytes) :
    tokenizeLoop cs t counts cur = t.countAll counts
      ((((cs.splitOnP fun c => !isAlnum c).map (·.map toLower)).modifyHead (cur ++ ·)).filter isTerm) := by
  induction cs generalizing t counts cur with
  | nil =>
    simp only [List.splitOnP_nil, List.map_cons, List.map_nil, List.modifyHead_cons, List.append_nil,
      tokenizeLoop]
    by_cases hcur : cur = []
    · simp [hcur, isTerm, countAll]
    · rw [if_pos hcur, count_eq_countAll t counts hcur]
  | cons c cs ih =>
    unfold tokenizeLoop
    by_cases hc : isAlnum c
    · rw [if_pos hc, ih]
      simp only [List.splitOnP_cons, hc, Bool.not_true, Bool.false_eq_true, if_false,
        map_modifyHead_cons, List.modifyHead_modifyHead]
      congr 3; funext w; simp
    · rw [if_neg hc]
      simp only [List.splitOnP_cons, hc, Bool.not_false, if_true, List.map_cons,
        List.map_nil, List.modifyHead_cons, List.append_nil]
      by_cases hcur : cur = []
      · subst hcur
        rw [if_neg (not_not.2 rfl), ih, modifyHead_nil_append]
        simp [isTerm]
      · rw [if_pos hcur, ← List.singleton_append, List.filter_append, countAll_append,
          ← count_eq_countAll t counts hcur]
        congr 1; funext r; rw [ih, modifyHead_nil_append]

/-- Counting terms makes their `GetTermID` calls. -/
theorem countAll_getTermIDs {t : Tokenizer} {counts : List (TermID × Nat)} {ws : List Bytes}
    {r : Tokenizer × List (TermID × Nat)} (hws : ∀ w ∈ ws, isTerm w) (h : t.countAll counts ws = some r) :
    t.getTermIDs ws = some r.1 := by
  induction ws generalizing t counts with
  | nil => cases h; rfl
  | cons w ws ih =>
    have hst : isStopWord w = false := by
      have := hws w (List.mem_cons_self _ _)
      simp only [isTerm, Bool.and_eq_true, Bool.not_eq_true'] at this
      exact this.2
    obtain ⟨r₁, h₁, h₂⟩ := Option.bind_eq_some.1 h
    simp only [count, hst, Bool.false_eq_true, if_false] at h₁
    obtain ⟨⟨t₁, id⟩, h₃, h₄⟩ := Option.bind_eq_some.1 h₁
    obtain ⟨_, -, rfl⟩ := Option.map_eq_some'.1 h₄
    simp only [getTermIDs, h₃, Option.some_bind]
    exact ih (fun w hw => hws w (List.mem_cons_of_mem _ hw)) h₂

/-- The loop makes the `GetTermID` calls of the tokens still to come: the words of the rest of
the text, the first one after `current_token`. -/
theorem tokenizeLoop_getTermIDs {cs : Bytes} {t : Tokenizer} {counts : List (TermID × Nat)}
    {cur : Bytes} {r : Tokenizer × List (TermID × Nat)} (h : tokenizeLoop cs t counts cur = some r) :
    t.getTermIDs ((((cs.splitOnP fun c => !isAlnum c).map (·.map toLower)).modifyHead (cur ++ ·)).filter
      isTerm) = some r.1 :=
  countAll_getTermIDs (fun _ hw => (List.mem_filter.1 hw).2) (tokenizeLoop_eq cs t counts cur ▸ h)

example : (init.tokenize (ascii "The cat, the CAT! dog")).map (fun r => (r.1.vocab, r.2)) =
    some ([(ascii "cat", 1), (ascii "dog", 2)], [(1, 2), (2, 1)]) := by
  decide

/-! ## Runs -/

section Runs

variable {t t' : Tokenizer} {v : Vocab}

/-- What every `GetTermID` call keeps, for a state and the vocabulary it holds, the `GetTermID`
calls of a list of tokens keep. -/
theorem getTermIDs_induction {P : Tokenizer → Vocab → Prop}
    (step : ∀ {t t' : Tokenizer} {v : Vocab} {s : Bytes} {i : TermID}, P t v →
      t.getTermID s = some (t', i) → P t' (v.intern s))
    (H : P t v) {ss : List Bytes} (h : t.getTermIDs ss = some t') : P t' (v.internAll ss) := by
  induction ss generalizing t v with
  | nil => cases h; exact H
  | cons s ss ih =>
    obtain ⟨⟨t₁, i⟩, h₁, h₂⟩ := Option.bind_eq_some.1 h
    exact ih (step H h₁) h₂

/-- ... and so does every call, with the tokens it looked up seen. -/
theorem call_induction {P : Tokenizer → Vocab → Prop}
    (step : ∀ {t t' : Tokenizer} {v : Vocab} {s : Bytes} {i : TermID}, P t v →
      t.getTermID s = some (t', i) → P t' (v.intern s))
    (H : P t v) {c : Call} (h : t.call c = some t') : P t' (v.internAll c.terms) := by
  cases c with
  | tokenize text =>
    obtain ⟨r, hr, rfl⟩ := Option.map_eq_some'.1 h
    have h' := tokenizeLoop_getTermIDs hr
    rw [modifyHead_nil_append] at h'
    exact getTermIDs_induction step H h'
  | getTermID token =>
    obtain ⟨⟨t₁, i⟩, hr, rfl⟩ := Option.map_eq_some'.1 h
    exact step H hr

/-- ... and so does every run, with the tokens of all its calls seen. -/
theorem run_induction {P : Tokenizer → Vocab → Prop}
    (step : ∀ {t t' : Tokenizer} {v : Vocab} {s : Bytes} {i : TermID}, P t v →
      t.getTermID s = some (t', i) → P t' (v.intern s))
    (H : P t v) {cs : List Call} (h : t.run cs = some t') :
    P t' (v.internAll (cs.flatMap Call.terms)) := by
  induction cs generalizing t v with
  | nil => cases h; exact H
  | cons c cs ih =>
    obtain ⟨t₁, h₁, h₂⟩ := Option.bind_eq_some.1 h
    rw [List.flatMap_cons, Vocab.internAll, List.foldl_append]
    exact ih (call_induction step H h₁) h₂

theorem Repr.getTermIDs (H : Repr t v) {ss : List Bytes} (h : t.getTermIDs ss = some t') :
    Repr t' (v.internAll ss) :=
  getTermIDs_induction (fun H h => (H.getTermID h).1) H h

/-- Every call that returns keeps the abstraction, with the tokens it looked up seen. -/
theorem Repr.call (H : Repr t v) {c : Call} (h : t.call c = some t') : Repr t' (v.internAll c.terms) :=
  call_induction (fun H h => (H.getTermID h).1) H h

/-- After every run that returns, the abstraction holds with the tokens of all its calls seen;
from `Tokenizer()` (`Repr.init`) this is every reachable state. -/
theorem Repr.run (H : Repr t v) {cs : List Call} (h : t.run cs = some t') :
    Repr t' (v.internAll (cs.flatMap Call.terms)) :=
  run_induction (fun H h => (H.getTermID h).1) H h

/-- `GetTermID` calls on new distinct tokens all return while at most `4294967200` are stored,
appending them to the vocabulary. -/
theorem Repr.run_getTermID (H : Repr t v) {ss : List Bytes} (hnd : (v.tokens ++ ss).Nodup)
    (hlen : v.tokens.length + ss.length ≤ 4294967200) :
    ∃ t' v', t.run (ss.map Call.getTermID) = some t' ∧ Repr t' v' ∧ v'.tokens = v.tokens ++ ss := by
  induction ss generalizing t v with
  | nil => exact ⟨t, v, rfl, H, (List.append_nil _).symm⟩
  | cons s ss ih =>
    have hs : s ∉ v.tokens := fun hm => (List.nodup_append.1 hnd).2.2 hm (List.mem_cons_self _ _)
    rw [List.length_cons] at hlen
    obtain ⟨t₁, h₁, H₁⟩ := H.getTermID_of_not_mem hs (by omega)
    have htok := Vocab.tokens_intern_of_not_mem hs
    obtain ⟨t', v', h', H', hv'⟩ := ih H₁ (by rwa [htok, List.append_assoc])
      (by rw [htok, List.length_append, List.length_singleton]; omega)
    refine ⟨t', v', ?_, H', by rw [hv', htok, List.append_assoc, List.singleton_append]⟩
    show (t.call (.getTermID s)).bind (Tokenizer.run · (ss.map Call.getTermID)) = _
    rw [Tokenizer.call, h₁]; exact h'

end Runs

/-! ## Past `4294967200` tokens -/

/-- The four bytes of a `uint32_t`, lowest first. -/
def u32Bytes (n : Nat) : Bytes :=
  [(n % 256).toUInt8, (n / 2 ^ 8 % 256).toUInt8, (n / 2 ^ 16 % 256).toUInt8, (n / 2 ^ 24 % 256).toUInt8]

theorem toNat_toUInt8_mod (x : Nat) : (x % 256).toUInt8.toNat = x % 256 :=
  UInt8.toNat_ofNat_of_lt (Nat.mod_lt _ (by decide))

theorem u32Bytes_injective {m n : Nat} (hm : m < 2 ^ 32) (hn : n < 2 ^ 32) (h : u32Bytes m = u32Bytes n) :
    m = n := by
  simp only [u32Bytes, List.cons.injEq, and_true] at h
  obtain ⟨h₀, h₁, h₂, h₃⟩ := h
  have := congrArg UInt8.toNat h₀
  have := congrArg UInt8.toNat h₁
  have := congrArg UInt8.toNat h₂
  have := congrArg UInt8.toNat h₃
  simp only [toNat_toUInt8_mod] at *
  omega

/-- After `GetTermID` on `4294967200` distinct tokens (here the four bytes of each `uint32_t`
below that), `m_next_term_id` is `4294967201` and `m_inverse_vocab` is full; `GetTermID` on one
more new token resizes it to `(4294967201 + 100) mod 2 ^ 32 = 5` strings and writes at index
`4294967201`, past its end. -/
theorem getTermID_writes_past_inverse_vocab :
    ∃ t, init.run (((List.range 4294967200).map u32Bytes).map Call.getTermID) = some t ∧
      t.nextTermId = 4294967201 ∧ t.vocabularySize = 4294967200 ∧
      t.inverseVocab.length = 4294967201 ∧ (grow t.inverseVocab t.nextTermId).length = 5 ∧
      t.getTermID (u32Bytes 4294967200) = none := by
  have hnd : (Vocab.empty.tokens ++ (List.range 4294967200).map u32Bytes).Nodup := by
    rw [show Vocab.empty.tokens = [] from rfl, List.nil_append]
    exact (List.nodup_range _).map_on fun m hm n hn h =>
      u32Bytes_injective (by rw [List.mem_range] at hm; omega) (by rw [List.mem_range] at hn; omega) h
  obtain ⟨t, v, hrun, H, hv⟩ := Repr.init.run_getTermID hnd (by
    rw [show Vocab.empty.tokens = [] from rfl, List.length_nil, Nat.zero_add, List.length_map, List.length_range])
  have hm : v.tokens.length = 4294967200 := by
    rw [hv, show Vocab.empty.tokens = [] from rfl, List.nil_append, List.length_map, List.length_range]
  have hs : u32Bytes 4294967200 ∉ v.tokens := by
    rw [hv, show Vocab.empty.tokens = [] from rfl, List.nil_append, List.mem_map]
    rintro ⟨n, hn, h⟩
    rw [List.mem_range] at hn
    exact absurd (u32Bytes_injective (by omega) (by decide) h) (by omega)
  refine ⟨t, hrun, by rw [H.next_eq, hm], by rw [H.vocabularySize, H.next_eq, hm],
    by rw [H.length_inverse, hm, inverseLength, if_neg (by decide)], H.length_grow_of_full hm,
    H.getTermID_eq_none hs hm⟩

end Tokenizer

end HyperionRuntime.Core
