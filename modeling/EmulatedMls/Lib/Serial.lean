import Mathlib.Data.List.Basic

/-!
# Self-delimiting encodings

An encoding into lists of numbers is self-delimiting when the encoded value and what follows it can
both be read back.  Such encodings can be put one after the other, which is how a record of
variable-length fields is serialised.
-/

namespace EmulatedMls

/-- The value at the front of a list, and the rest of the list, can be read back. -/
def SelfDelimiting {α : Type} (enc : α → List ℕ) : Prop :=
  ∀ a b r s, enc a ++ r = enc b ++ s → a = b ∧ r = s

/-- A list with its length in front. -/
def encodeList (xs : List ℕ) : List ℕ := xs.length :: xs

def encodePair {α β : Type} (f : α → List ℕ) (g : β → List ℕ) (x : α × β) : List ℕ :=
  f x.1 ++ g x.2

def encodeOption {α : Type} (f : α → List ℕ) : Option α → List ℕ
  | none => [0]
  | some a => 1 :: f a

namespace SelfDelimiting

variable {α β : Type} {f : α → List ℕ} {g : β → List ℕ}

lemma injective (h : SelfDelimiting f) : Function.Injective f := fun a b hab =>
  (h a b [] [] (by rw [hab])).1

lemma nat : SelfDelimiting fun n : ℕ => [n] := by
  intro a b r s h
  simpa using h

lemma list : SelfDelimiting encodeList := by
  intro xs ys r s h
  simp only [encodeList, List.cons_append, List.cons.injEq] at h
  exact List.append_inj h.2 h.1

lemma pair (hf : SelfDelimiting f) (hg : SelfDelimiting g) : SelfDelimiting (encodePair f g) := by
  rintro ⟨a, b⟩ ⟨a', b'⟩ r s h
  simp only [encodePair, List.append_assoc] at h
  obtain ⟨rfl, hrest⟩ := hf _ _ _ _ h
  obtain ⟨rfl, rfl⟩ := hg _ _ _ _ hrest
  exact ⟨rfl, rfl⟩

lemma option (hf : SelfDelimiting f) : SelfDelimiting (encodeOption f) := by
  intro a b r s h
  cases a with
  | none => cases b with
    | none => exact ⟨rfl, by simpa [encodeOption] using h⟩
    | some b => simp [encodeOption] at h
  | some a => cases b with
    | none => simp [encodeOption] at h
    | some b =>
      obtain ⟨rfl, rfl⟩ := hf a b r s (by simpa [encodeOption] using h)
      exact ⟨rfl, rfl⟩

lemma comap (hf : SelfDelimiting f) {i : β → α} (hi : Function.Injective i) :
    SelfDelimiting (f ∘ i) := by
  intro a b r s h
  obtain ⟨hab, rfl⟩ := hf _ _ _ _ h
  exact ⟨hi hab, rfl⟩

end SelfDelimiting

end EmulatedMls
