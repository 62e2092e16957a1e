import Mathlib.Data.List.Nodup
import Mathlib.Data.List.Perm.Basic
import Mathlib.Order.MinMax

/-!
# Reservoirs

A reservoir holds at most `n` values, and its first `c` slots are filled before anything is
drawn.  Once they are full, an offered value takes the slot that was sampled for it, and the value
it replaces moves to the end while there is room.  A sample past the last slot rejects the value.
-/

namespace EmulatedMls.Reservoir

open List

variable {α : Type*} {c n s i u : ℕ} {x : α} {xs : List α} {offered : List (ℕ × α)}

/-- Offer `x` with the sample `s`. -/
def offer (c n s : ℕ) (x : α) (xs : List α) : List α :=
  if xs.length < c then xs ++ [x]
  else if n ≤ s then xs
  else match xs[s]? with
    | none => xs ++ [x]
    | some y => if xs.length < n then (xs ++ [y]).set s x else xs.set s x

/-- Offer the values one after the other. -/
def offers (c n : ℕ) : List (ℕ × α) → List α → List α
  | [], xs => xs
  | (s, x) :: offered, xs => offers c n offered (offer c n s x xs)

lemma offer_cases (c n s : ℕ) (x : α) (xs : List α) :
    (offer c n s x xs = xs ++ [x] ∧ (xs.length < c ∨ xs.length ≤ s ∧ xs.length < n)) ∨
    (offer c n s x xs = xs ∧ c ≤ xs.length ∧ n ≤ s) ∨
    (∃ h : s < xs.length, offer c n s x xs = (xs ++ [xs[s]]).set s x ∧ c ≤ xs.length ∧
      xs.length < n) ∨
    (s < xs.length ∧ offer c n s x xs = xs.set s x ∧ c ≤ xs.length ∧ s < n) := by
  unfold offer
  by_cases hc : xs.length < c
  · exact .inl ⟨if_pos hc, .inl hc⟩
  rw [if_neg hc]
  have hc' : c ≤ xs.length := Nat.le_of_not_lt hc
  by_cases hn : n ≤ s
  · exact .inr (.inl ⟨if_pos hn, hc', hn⟩)
  rw [if_neg hn]
  by_cases hs : s < xs.length
  · rw [getElem?_eq_getElem hs]
    by_cases hroom : xs.length < n
    · exact .inr (.inr (.inl ⟨hs, if_pos hroom, hc', hroom⟩))
    · exact .inr (.inr (.inr ⟨hs, if_neg hroom, hc', Nat.lt_of_not_le hn⟩))
  · rw [getElem?_eq_none (Nat.le_of_not_lt hs)]
    exact .inl ⟨rfl, .inr (by omega)⟩

/-! ## Slots and their number -/

lemma length_offer_le_succ : (offer c n s x xs).length ≤ xs.length + 1 := by
  obtain ⟨he, -⟩ | ⟨he, -, -⟩ | ⟨hs, he, -, -⟩ | ⟨-, he, -, -⟩ := offer_cases c n s x xs
  all_goals simp [he]

lemma le_length_offer : xs.length ≤ (offer c n s x xs).length := by
  obtain ⟨he, -⟩ | ⟨he, -, -⟩ | ⟨hs, he, -, -⟩ | ⟨-, he, -, -⟩ := offer_cases c n s x xs
  all_goals simp [he]

lemma offer_of_lt (h : xs.length < c) : offer c n s x xs = xs ++ [x] := if_pos h

lemma length_offers :
    xs.length ≤ (offers c n offered xs).length ∧
      min c (xs.length + offered.length) ≤ (offers c n offered xs).length := by
  induction offered generalizing xs with
  | nil => exact ⟨le_refl _, Nat.min_le_right _ _⟩
  | cons o offered ih =>
    obtain ⟨s, x⟩ := o
    specialize @ih (offer c n s x xs)
    obtain ⟨hle, hmin⟩ := ih
    have hone : xs.length ≤ (offer c n s x xs).length := le_length_offer
    simp only [offers, length_cons]
    by_cases hc : xs.length < c
    · rw [offer_of_lt hc, length_append, length_singleton] at hmin
      rw [offer_of_lt hc]
      omega
    · omega

lemma offers_of_le (h : xs.length + offered.length ≤ c) :
    offers c n offered xs = xs ++ offered.map Prod.snd := by
  induction offered generalizing xs with
  | nil => simp [offers]
  | cons o offered ih =>
    simp only [length_cons] at h
    simp only [offers, offer_of_lt (show xs.length < c by omega), map_cons]
    rw [ih (by simp only [length_append, length_singleton]; omega)]
    simp

/-! ## Distinct values -/

variable {y : α}

lemma mem_offer (h : y ∈ offer c n s x xs) : y = x ∨ y ∈ xs := by
  obtain ⟨he, -⟩ | ⟨he, -, -⟩ | ⟨hs, he, -, -⟩ | ⟨-, he, -, -⟩ := offer_cases c n s x xs
  all_goals rw [he] at h
  · simpa [or_comm] using h
  · exact .inr h
  · rcases mem_or_eq_of_mem_set h with h | h
    · rcases mem_append.mp h with h | h
      · exact .inr h
      · rw [mem_singleton.mp h]
        exact .inr (getElem_mem hs)
    · exact .inl h
  · exact (mem_or_eq_of_mem_set h).symm

lemma mem_offers (h : y ∈ offers c n offered xs) : y ∈ offered.map Prod.snd ∨ y ∈ xs := by
  induction offered generalizing xs with
  | nil => exact .inr h
  | cons o offered ih =>
    rcases ih h with h | h
    · exact .inl (.tail _ h)
    · rcases mem_offer h with h | h
      · exact .inl (by simp [h])
      · exact .inr h

lemma set_append_perm (hs : s < xs.length) : ((xs ++ [xs[s]]).set s x).Perm (x :: xs) := by
  rw [set_append_left s x hs]
  refine ((set_perm_cons_eraseIdx hs x).append_right _).trans ?_
  exact .cons x (perm_append_comm.trans (getElem_cons_eraseIdx_perm hs))

/-- **A value stays** if there is room or its slot is not sampled. -/
lemma mem_offer_of_mem (hy : y ∈ xs) (h : xs.length < n ∨ xs[s]? ≠ some y) :
    y ∈ offer c n s x xs := by
  unfold offer
  by_cases hc : xs.length < c
  · rw [if_pos hc]
    exact mem_append_left _ hy
  by_cases hn : n ≤ s
  · rwa [if_neg hc, if_pos hn]
  rw [if_neg hc, if_neg hn]
  cases hs : xs[s]? with
  | none => exact mem_append_left _ hy
  | some z =>
    obtain ⟨hlt, rfl⟩ := List.getElem?_eq_some_iff.mp hs
    dsimp only
    split_ifs with hroom
    · exact (set_append_perm hlt).mem_iff.mpr (.tail _ hy)
    · obtain ⟨i, hi⟩ := mem_iff_getElem?.mp hy
      have hne : s ≠ i := fun he => h.resolve_left hroom (he ▸ hi)
      exact mem_iff_getElem?.mpr ⟨i, (getElem?_set_ne hne).trans hi⟩

lemma nodup_set (h : xs.Nodup) (hx : x ∉ xs) (hs : s < xs.length) : (xs.set s x).Nodup := by
  rw [(set_perm_cons_eraseIdx hs x).nodup_iff, nodup_cons]
  exact ⟨fun hm => hx (mem_of_mem_eraseIdx hm), h.sublist (eraseIdx_sublist _ _)⟩

lemma nodup_offer (h : xs.Nodup) (hx : x ∉ xs) : (offer c n s x xs).Nodup := by
  obtain ⟨he, -⟩ | ⟨he, -, -⟩ | ⟨hs, he, -, -⟩ | ⟨hs, he, -, -⟩ := offer_cases c n s x xs
  all_goals rw [he]
  · exact nodup_append.mpr ⟨h, nodup_singleton x, fun y hy z hz => by
      rw [mem_singleton.mp hz]
      exact fun hyx => hx (hyx ▸ hy)⟩
  · exact h
  · rw [(set_append_perm hs).nodup_iff]
    exact nodup_cons.mpr ⟨hx, h⟩
  · exact nodup_set h hx hs

lemma nodup_offers (h : xs.Nodup) (hnew : (offered.map Prod.snd).Nodup)
    (hx : ∀ x ∈ offered.map Prod.snd, x ∉ xs) : (offers c n offered xs).Nodup := by
  induction offered generalizing xs with
  | nil => exact h
  | cons o offered ih =>
    obtain ⟨hout, hnew⟩ := nodup_cons.mp hnew
    refine ih (nodup_offer h (hx _ mem_cons_self)) hnew fun y hy hmem => ?_
    rcases mem_offer hmem with rfl | hmem
    · exact hout hy
    · exact hx y (.tail _ hy) hmem

/-! ## Slots that are kept and slots that are filled -/

lemma getElem?_offer (hi : i < xs.length) (hs : c ≤ xs.length → i ≠ s) :
    (offer c n s x xs)[i]? = xs[i]? := by
  obtain ⟨he, -⟩ | ⟨he, -, -⟩ | ⟨hlt, he, hc, -⟩ | ⟨-, he, hc, -⟩ := offer_cases c n s x xs
  all_goals rw [he]
  · exact getElem?_append_left hi
  · rw [getElem?_set_ne (hs hc).symm, getElem?_append_left hi]
  · exact getElem?_set_ne (hs hc).symm

/-- **A slot that is never sampled keeps its value.** -/
lemma getElem?_offers (hi : i < xs.length) (hs : ∀ o ∈ offered, i ≠ o.1) :
    (offers c n offered xs)[i]? = xs[i]? := by
  induction offered generalizing xs with
  | nil => rfl
  | cons o offered ih =>
    have hone : (offer c n o.1 o.2 xs)[i]? = xs[i]? :=
      getElem?_offer hi fun _ => hs o mem_cons_self
    rw [offers, ih (hi.trans_le le_length_offer) fun o' ho' => hs o' (.tail _ ho')]
    exact hone

lemma getElem?_offer_self (hc : c ≤ xs.length) (hs : s < xs.length) (hn : s < n) :
    (offer c n s x xs)[s]? = some x := by
  unfold offer
  rw [if_neg (Nat.not_lt_of_le hc), if_neg (Nat.not_le_of_lt hn), getElem?_eq_getElem hs]
  split_ifs
  · exact getElem?_set_self (by simp; omega)
  · exact getElem?_set_self hs

lemma offers_append (first second : List (ℕ × α)) (xs : List α) :
    offers c n (first ++ second) xs = offers c n second (offers c n first xs) := by
  induction first generalizing xs with
  | nil => rfl
  | cons o first ih => exact ih _

/-- **The last value keeps the slot sampled for it.** -/
lemma getElem?_offers_concat (hc : c ≤ xs.length + offered.length) (hs : s < c) (hn : s < n) :
    (offers c n (offered ++ [(s, x)]) xs)[s]? = some x := by
  have hlen : c ≤ (offers c n offered xs).length :=
    (Nat.le_min.mpr ⟨le_refl c, hc⟩).trans length_offers.2
  rw [offers_append]
  exact getElem?_offer_self hlen (hs.trans_le hlen) hn

lemma take_offer (hs : c ≤ s) : (offer c n s x xs).take c = (xs ++ [x]).take c := by
  obtain ⟨he, -⟩ | ⟨he, hc, -⟩ | ⟨hlt, he, hc, -⟩ | ⟨hlt, he, hc, -⟩ := offer_cases c n s x xs
  all_goals rw [he]
  · rw [take_append_of_le_length hc]
  · rw [take_set_of_le hs, take_append_of_le_length hc, take_append_of_le_length hc]
  · rw [take_set_of_le hs, take_append_of_le_length hc]

/-- **The first slots, when no sample falls into them**, are filled in order. -/
lemma take_offers (hs : ∀ o ∈ offered, c ≤ o.1) :
    (offers c n offered xs).take c = (xs ++ offered.map Prod.snd).take c := by
  induction offered generalizing xs with
  | nil => simp [offers]
  | cons o offered ih =>
    obtain ⟨s, x⟩ := o
    have hone : (offer c n s x xs).take c = (xs ++ [x]).take c :=
      take_offer (hs _ mem_cons_self)
    have hroom : c - (offer c n s x xs).length = c - (xs ++ [x]).length := by
      have := congrArg List.length hone
      simp only [length_take] at this
      omega
    rw [offers, ih fun o' ho' => hs o' (.tail _ ho'), map_cons,
      append_cons, take_append, take_append, hone, hroom]

/-- From slot `u` on, the first `c` slots hold only values of `new`. -/
def Filled (c : ℕ) (new : List α) (u : ℕ) (xs : List α) : Prop :=
  ∀ i, u ≤ i → i < c → ∀ y, xs[i]? = some y → y ∈ new

variable {new : List α}

/-- A value of `new` in the slot before them extends the filled slots by one. -/
lemma Filled.offer (h : Filled c new u xs) (hx : x ∈ new) (hs : 0 < u → s + 1 = u ∧ u ≤ n) :
    Filled c new (if xs.length < c then u else u - 1) (offer c n s x xs) := by
  intro i hi hic y hy
  obtain ⟨he, hlt⟩ | ⟨he, hc, hns⟩ | ⟨hlt, he, hc, -⟩ | ⟨hlt, he, hc, -⟩ := offer_cases c n s x xs
  all_goals rw [he] at hy
  · rcases Nat.lt_or_ge i xs.length with hlen | hlen
    · rw [getElem?_append_left hlen] at hy
      refine h i ?_ hic y hy
      -- once the first slots are full, an appended value was sampled past all of them
      split_ifs at hi with hc <;> omega
    · rw [getElem?_append_right hlen] at hy
      have hmem := mem_of_getElem? hy
      rwa [mem_singleton.mp hmem]
  · rw [if_neg (Nat.not_lt_of_le hc)] at hi
    exact h i (by omega) hic y hy
  · rw [if_neg (Nat.not_lt_of_le hc)] at hi
    by_cases his : s = i
    · subst his
      rw [getElem?_set_self (by simp; omega)] at hy
      exact Option.some.inj hy ▸ hx
    · rw [getElem?_set_ne his, getElem?_append_left (by omega)] at hy
      exact h i (by omega) hic y hy
  · rw [if_neg (Nat.not_lt_of_le hc)] at hi
    by_cases his : s = i
    · subst his
      rw [getElem?_set_self hlt] at hy
      exact Option.some.inj hy ▸ hx
    · rw [getElem?_set_ne his] at hy
      exact h i (by omega) hic y hy

end EmulatedMls.Reservoir
