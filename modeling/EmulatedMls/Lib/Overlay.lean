import EmulatedMls.Lib.Exec
import Mathlib.Data.List.GetD
import Mathlib.Tactic.Linarith

/-!
# Pending writes over a vector

Writes to a vector are collected in an ordered map and applied later.  Reading through the map
before they are applied gives what the vector holds afterwards.
-/

namespace EmulatedMls

open List

variable {α : Type}

/-- The pending value at `i`, or else the one in the vector, or else `a`. -/
def overlay (v : List α) (m : Std.TreeMap ℕ α) (a : α) (i : ℕ) : α := (m[i]?).getD (v.getD i a)

/-- Apply the pending writes in the order of their positions. -/
def flush (v : List α) (m : Std.TreeMap ℕ α) : List α :=
  m.toList.foldl (fun v e => v.set e.1 e.2) v

lemma length_foldl_set (v : List α) (es : List (ℕ × α)) :
    (es.foldl (fun v e => v.set e.1 e.2) v).length = v.length := by
  induction es generalizing v with
  | nil => rfl
  | cons e es ih => rw [foldl_cons, ih, length_set]

@[simp] lemma length_flush (v : List α) (m : Std.TreeMap ℕ α) : (flush v m).length = v.length :=
  length_foldl_set v _

variable {i n : ℕ} {es : List (ℕ × α)} {v : List α} {m : Std.TreeMap ℕ α}

lemma getElem?_foldl_set_of_notMem (h : ∀ a, (i, a) ∉ es) :
    (es.foldl (fun v e => v.set e.1 e.2) v)[i]? = v[i]? := by
  induction es generalizing v with
  | nil => rfl
  | cons e es ih =>
    have hne : e.1 ≠ i := fun he => h e.2 (he ▸ .head _)
    rw [foldl_cons, ih fun a ha => h a (.tail _ ha), getElem?_set_ne hne]

lemma getElem?_foldl_set_of_mem {a : α} (hi : i < v.length) (hmem : (i, a) ∈ es)
    (huniq : ∀ b, (i, b) ∈ es → b = a) : (es.foldl (fun v e => v.set e.1 e.2) v)[i]? = some a := by
  induction es generalizing v with
  | nil => cases hmem
  | cons e es ih =>
    rw [foldl_cons]
    by_cases hlater : ∃ b, (i, b) ∈ es
    · obtain ⟨b, hb⟩ := hlater
      obtain rfl := huniq b (.tail _ hb)
      exact ih (by simpa using hi) hb fun c hc => huniq c (.tail _ hc)
    · have he : e = (i, a) := by
        rcases mem_cons.mp hmem with he | he
        · exact he.symm
        · exact absurd ⟨a, he⟩ hlater
      subst he
      rw [getElem?_foldl_set_of_notMem fun b hb => hlater ⟨b, hb⟩, getElem?_set_self hi]

/-- **Flushing keeps every reading.** -/
lemma getD_flush (a : α) (hi : i < v.length) : (flush v m).getD i a = overlay v m a i := by
  unfold flush overlay
  cases hm : m[i]? with
  | none =>
    have hnot : ∀ b, (i, b) ∉ m.toList := fun b hb => by
      rw [Std.TreeMap.mem_toList_iff_getElem?_eq_some, hm] at hb
      cases hb
    rw [getD_eq_getElem?_getD, getElem?_foldl_set_of_notMem hnot,
      ← getD_eq_getElem?_getD, Option.getD_none]
  | some b =>
    have hmem : (i, b) ∈ m.toList := Std.TreeMap.mem_toList_iff_getElem?_eq_some.mpr hm
    have huniq : ∀ c, (i, c) ∈ m.toList → c = b := fun c hc => by
      rw [Std.TreeMap.mem_toList_iff_getElem?_eq_some, hm] at hc
      exact (Option.some.inj hc).symm
    rw [getD_eq_getElem?_getD, getElem?_foldl_set_of_mem hi hmem huniq]
    rfl

lemma getD_resize (h : v.length ≤ n) (a : α) (i : ℕ) : (resize v n a).getD i a = v.getD i a := by
  rw [resize, take_of_length_le h, getD_eq_getElem?_getD, getD_eq_getElem?_getD]
  by_cases hi : i < v.length
  · rw [getElem?_append_left hi]
  · rw [getElem?_append_right (by omega), getElem?_eq_none (l := v) (by omega), getElem?_replicate]
    split_ifs <;> rfl

lemma overlay_resize (h : v.length ≤ n) (m : Std.TreeMap ℕ α) (a : α) (i : ℕ) :
    overlay (resize v n a) m a i = overlay v m a i := by
  rw [overlay, overlay, getD_resize h]

lemma overlay_of_le (a : α) (hv : v.length ≤ n) (hm : ∀ k ∈ m, k < n) (hi : n ≤ i) :
    overlay v m a i = a := by
  have hnone : m[i]? = none := Std.TreeMap.getElem?_eq_none fun hmem => by
    have := hm i hmem
    omega
  rw [overlay, hnone, Option.getD_none, getD_eq_default _ _ (le_trans hv hi)]

lemma getD_flush_resize (a : α) (hv : v.length ≤ n) (hm : ∀ k ∈ m, k < n) (i : ℕ) :
    (flush (resize v n a) m).getD i a = overlay v m a i := by
  by_cases hi : i < n
  · rw [getD_flush a (by simpa using hi), overlay_resize hv]
  · rw [getD_eq_default _ _ (by simpa using hi), overlay_of_le a hv hm (by omega)]

lemma getElem?_insert_eq (m : Std.TreeMap ℕ α) (i k : ℕ) (a : α) :
    (m.insert i a)[k]? = if k = i then some a else m[k]? := by
  rw [Std.TreeMap.getElem?_insert]
  by_cases h : k = i
  · simp [h]
  · rw [if_neg h, if_neg fun hc => h (Std.LawfulEqOrd.eq_of_compare hc).symm]

end EmulatedMls
