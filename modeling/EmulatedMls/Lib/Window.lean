import Mathlib.Data.List.Basic
import Mathlib.Order.MinMax

/-!
# Windows of past values

A queue that holds the last values of a sequence, the latest one first, with a gap for every value
that has been taken out.
-/

namespace EmulatedMls

open List

variable {α : Type*}

/-- The value of number `i`, or a gap if it has been taken. -/
def entry (f : ℕ → α) (taken : List ℕ) (i : ℕ) : Option α := if i ∈ taken then none else some (f i)

/-- The last `m` values before number `head`, the latest one first. -/
def window (f : ℕ → α) (taken : List ℕ) (head m : ℕ) : List (Option α) :=
  (List.range m).map fun j => entry f taken (head - 1 - j)

variable {f : ℕ → α} {taken : List ℕ} {head m i : ℕ}

@[simp] lemma length_window : (window f taken head m).length = m := by simp [window]

lemma getElem?_window (h : i < m) :
    (window f taken head m)[i]? = some (entry f taken (head - 1 - i)) := by
  simp [window, h]

lemma cons_window (hhead : head ∉ taken) (hm : m ≤ head) :
    some (f head) :: window f taken head m = window f taken (head + 1) (m + 1) := by
  unfold window
  rw [range_succ_eq_map, map_cons, map_map]
  congr 1
  · simp [entry, hhead]
  · refine map_congr_left fun j hj => ?_
    have hlt := mem_range.mp hj
    show entry f taken (head - 1 - j) = entry f taken (head + 1 - 1 - (j + 1))
    rw [show head + 1 - 1 - (j + 1) = head - 1 - j by omega]

lemma window_congr {taken' : List ℕ} (h : ∀ i, i < head → head ≤ i + m → (i ∈ taken' ↔ i ∈ taken))
    (hm : m ≤ head) : window f taken' head m = window f taken head m := by
  refine map_congr_left fun j hj => ?_
  have hlt := mem_range.mp hj
  simp only [entry, h (head - 1 - j) (by omega) (by omega)]

lemma gap_cons_window (hm : m ≤ head) :
    none :: window f taken head m = window f (head :: taken) (head + 1) (m + 1) := by
  have hold : window f (head :: taken) head m = window f taken head m :=
    window_congr (fun i hi _ => by simp [Nat.ne_of_lt hi]) hm
  rw [← hold]
  unfold window
  rw [range_succ_eq_map, map_cons, map_map]
  congr 1
  · simp [entry]
  · refine map_congr_left fun j hj => ?_
    show entry f _ (head - 1 - j) = entry f _ (head + 1 - 1 - (j + 1))
    rw [show head + 1 - 1 - (j + 1) = head - 1 - j by omega]

lemma take_window (k : ℕ) : (window f taken head m).take k = window f taken head (min k m) := by
  rw [window, ← map_take, take_range]
  rfl

lemma set_window (hi : i < head) (hle : m ≤ head) :
    (window f taken head m).set (head - i - 1) none = window f (i :: taken) head m := by
  refine ext_getElem? fun j => ?_
  by_cases hj : j < m
  swap
  · rw [getElem?_eq_none (by simpa using hj), getElem?_eq_none (by simpa using hj)]
  by_cases hji : head - i - 1 = j
  · subst hji
    rw [getElem?_set_self (by simpa using hj), getElem?_window hj]
    simp [entry, show head - 1 - (head - i - 1) = i by omega]
  · rw [getElem?_set_ne hji, getElem?_window hj, getElem?_window hj]
    simp [entry, show head - 1 - j ≠ i by omega]

/-- The first number past all of the list. -/
def headOf (taken : List ℕ) : ℕ := taken.foldr (fun i h => max (i + 1) h) 0

@[simp] lemma headOf_nil : headOf [] = 0 := rfl

lemma headOf_cons (i : ℕ) (taken : List ℕ) : headOf (i :: taken) = max (i + 1) (headOf taken) := rfl

lemma lt_headOf (h : i ∈ taken) : i < headOf taken := by
  induction taken with
  | nil => cases h
  | cons j taken ih =>
    rw [headOf_cons]
    rcases mem_cons.mp h with rfl | h
    · omega
    · have := ih h
      omega

end EmulatedMls
