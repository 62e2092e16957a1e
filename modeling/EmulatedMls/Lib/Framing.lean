import Mathlib.Data.List.Basic

/-!
# Values that are read off the front of a text

A reader takes a value off the front of a list.  What is written can be read back, with more text
behind it, if the reader stops where the writer did.  Some readers can only tell from the text
behind the value where it ends, so the notion has a condition on that text.
-/

namespace EmulatedMls

variable {α β γ : Type} {next next' : List γ → Prop} {w v : List γ} {a : α} {b : β}

/-- In front of every text that satisfies `next`, the reader takes `w` for the value `a`. -/
def Reads (next : List γ → Prop) (read : StateT (List γ) Option α) (w : List γ) (a : α) : Prop :=
  ∀ r, next r → read (w ++ r) = some (a, r)

/-- Every text is admissible. -/
def Anything (_ : List γ) : Prop := True

namespace Reads

variable {read : StateT (List γ) Option α} {read' : α → StateT (List γ) Option β}

lemma mono (h : Reads next read w a) (hnext : ∀ r, next' r → next r) : Reads next' read w a :=
  fun r hr => h r (hnext r hr)

lemma pure (a : α) : Reads next (pure a) [] a := fun _ _ => rfl

lemma bind (h : Reads next read w a) (h' : Reads next' (read' a) v b)
    (hnext : ∀ r, next' r → next (v ++ r)) : Reads next' (read >>= read') (w ++ v) b := by
  intro r hr
  have hread : read (w ++ (v ++ r)) = some (a, v ++ r) := h (v ++ r) (hnext r hr)
  show (read (w ++ v ++ r)).bind (fun x => read' x.1 x.2) = some (b, r)
  rw [List.append_assoc, hread]
  exact h' r hr

lemma map (h : Reads next read w a) (f : α → β) : Reads next (f <$> read) w (f a) := by
  intro r hr
  show (read (w ++ r)).bind (fun x => some (f x.1, x.2)) = some (f a, r)
  rw [h r hr]
  rfl

/-- A text is read as one value only, and ends at one place only. -/
lemma unique {a' : α} {w' r r' : List γ} (h : Reads next read w a) (h' : Reads next read w' a')
    (hr : next r) (hr' : next r') (heq : w ++ r = w' ++ r') : a = a' ∧ r = r' := by
  have hread := h r hr
  rw [heq, h' r' hr', Option.some.injEq, Prod.mk.injEq] at hread
  exact ⟨hread.1.symm, hread.2.symm⟩

end Reads

end EmulatedMls
