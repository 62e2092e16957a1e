import Mathlib.Data.List.Basic

/-!
# Words and lines

A text is cut into words at separators and into lines at line ends.  Empty pieces between two
separators are no words.
-/

namespace EmulatedMls

open List

variable {α : Type*} {sep : α → Bool} {b : α}

def words (sep : α → Bool) (l : List α) : List (List α) :=
  (l.splitOnP sep).filter fun w => !w.isEmpty

/-- A nonempty text without separators. -/
def IsWord (sep : α → Bool) (w : List α) : Prop := w ≠ [] ∧ ∀ x ∈ w, sep x = false

lemma words_of_isWord {w : List α} (h : IsWord sep w) : words sep w = [w] := by
  simp [words, splitOnP_eq_singleton h.2, h.1]

lemma words_append_cons (hb : sep b = true) (l l' : List α) :
    words sep (l ++ b :: l') = words sep l ++ words sep l' := by
  rw [words, splitOnP_append_cons l l' hb, filter_append, ← words, ← words]

/-- Joined words are split again. -/
lemma words_intercalate (hb : sep b = true) (ls : List (List α)) :
    words sep ([b].intercalate ls) = ls.flatMap (words sep) := by
  induction ls with
  | nil => rfl
  | cons l ls ih =>
    cases ls with
    | nil => simp [List.intercalate]
    | cons l' ls =>
      rw [intercalate_cons_cons, append_assoc, singleton_append, words_append_cons hb, ih]
      rfl

variable {ls : List (List α)}

lemma splitOnP_terminated (hb : sep b = true) (h : ∀ l ∈ ls, ∀ x ∈ l, sep x = false)
    (rest : List α) :
    ((ls.flatMap fun l => l ++ [b]) ++ rest).splitOnP sep = ls ++ rest.splitOnP sep := by
  induction ls with
  | nil => rfl
  | cons l ls ih =>
    rw [flatMap_cons, append_assoc, append_assoc, singleton_append,
      splitOnP_append_cons_of_forall_mem (h l (.head _ ..)) b hb,
      ih fun l' hl' => h l' (mem_cons_of_mem l hl'), cons_append]

lemma intercalate_append_singleton (h : ls ≠ []) :
    [b].intercalate ls ++ [b] = ls.flatMap fun l => l ++ [b] := by
  induction ls with
  | nil => exact absurd rfl h
  | cons l ls ih =>
    cases ls with
    | nil => simp [List.intercalate]
    | cons l' ls =>
      rw [intercalate_cons_cons, append_assoc, ih (cons_ne_nil _ _)]
      rfl

end EmulatedMls
