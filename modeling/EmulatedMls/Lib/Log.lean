import Mathlib.Data.List.Induction

/-!
# Append-only logs and the histories they build

A log is a list that only grows at its end.  A history is built by folding over a log with an
operation that keeps what is there, so that the history of an initial part of the log is a suffix
of the history of the whole log.
-/

namespace EmulatedMls

open List

variable {α β : Type*}

/-! ## Entries -/

variable {i : ℕ} {a : α} {log : List α} {b : α}

lemma getElem?_append_singleton (h : (log ++ [a])[i]? = some b) :
    log[i]? = some b ∨ (i = log.length ∧ b = a) := by
  rcases Nat.lt_trichotomy i log.length with hi | rfl | hi
  · rw [getElem?_append_left hi] at h
    exact .inl h
  · rw [getElem?_append_right (Nat.le_refl _)] at h
    exact .inr ⟨rfl, by simpa using h.symm⟩
  · rw [getElem?_append_right (Nat.le_of_lt hi)] at h
    obtain ⟨hlt, -⟩ := List.getElem?_eq_some_iff.mp h
    simp at hlt
    omega

lemma getElem?_append_of_some (h : log[i]? = some b) : (log ++ [a])[i]? = some b := by
  obtain ⟨hlt, -⟩ := List.getElem?_eq_some_iff.mp h
  rwa [getElem?_append_left hlt]

/-! ## Histories -/

lemma eq_of_suffix {s t l : List β} (hs : s <:+ l) (ht : t <:+ l)
    (hlen : s.length = t.length) : s = t :=
  (suffix_of_suffix_length_le hs ht (Nat.le_of_eq hlen)).eq_of_length hlen

/-- The operation keeps the history and adds to its front. -/
def Grows (f : List β → α → List β) : Prop := ∀ t a, t <:+ f t a

variable {f : List β → α → List β}

section

variable (hf : Grows f) (init : List β)
include hf init

lemma Grows.foldl_suffix_append (log more : List α) :
    log.foldl f init <:+ (log ++ more).foldl f init := by
  induction more using List.reverseRecOn with
  | nil => simp
  | append_singleton more a ih =>
    rw [← append_assoc, foldl_append]
    exact ih.trans (hf _ a)

/-- Who has read less has a part of the history. -/
lemma Grows.foldl_take_suffix (log : List α) {j : ℕ} (h : i ≤ j) :
    (log.take i).foldl f init <:+ (log.take j).foldl f init := by
  obtain ⟨k, rfl⟩ := Nat.exists_eq_add_of_le h
  rw [take_add]
  exact hf.foldl_suffix_append init _ _

lemma Grows.foldl_take_suffix_self (log : List α) (i : ℕ) :
    (log.take i).foldl f init <:+ log.foldl f init := by
  have h := hf.foldl_suffix_append init (log.take i) (log.drop i)
  rwa [take_append_drop] at h

end

lemma foldl_take_succ {init : List β} (h : log[i]? = some a) :
    (log.take (i + 1)).foldl f init = f ((log.take i).foldl f init) a := by
  rw [take_add_one, h]
  simp

end EmulatedMls
