import Mathlib.Data.List.Basic
import Mathlib.Order.MinMax

/-!
# Executions that may panic or not return

Rust code that indexes a vector, draws from an empty range or unwraps an absent value stops with
a panic, and a `while` loop may never return.  Both are outcomes of the modelled functions here,
so that a statement about what a call *returns* is separate from a statement that it returns.

**Outcomes.**  `Exec α` is the result of a call: a value, a panic, or a loop that has used up the
iterations it was given.  A function with a loop takes the number of iterations as a parameter,
and "the call returns" means that some number of iterations is enough.

**Postconditions.**  `Ensures bad post` says that a call does not end with a bad error and that what
it returns satisfies `post`.

**Evaluation.**  What a call or a run returns can be tested by evaluating it.

**Vectors.**  `index`, `store` and `resize` are the checked operations on vectors that the
modelled code uses, with the lemmas that say what a successful one did.
-/

namespace EmulatedMls

/-- Why a call did not return a value. -/
inductive Fault where
  /-- The call panicked. -/
  | panic
  /-- A loop of the call needs more iterations than it was given. -/
  | fuel
  deriving DecidableEq, Repr

/-- The outcome of a call that may panic or loop. -/
abbrev Exec (α : Type) := Except Fault α

namespace Exec

variable {ε α β : Type}

variable {x : Except ε α} {r : α}

/-- A sequence of two calls returns only when both return. -/
lemma bind_eq_ok {f : α → Except ε β} {r : β} :
    (x >>= f) = Except.ok r ↔ ∃ a, x = Except.ok a ∧ f a = Except.ok r := by
  cases x with
  | error e | ok a => simp [bind, Except.bind]

lemma bind_inv {f : α → Except ε β} {r : β} (h : (x >>= f) = Except.ok r) :
    ∃ a, x = Except.ok a ∧ f a = Except.ok r :=
  bind_eq_ok.mp h

lemma bind_ok {a : α} {f : α → Except ε β} {r : β} (hx : x = Except.ok a)
    (hf : f a = Except.ok r) : (x >>= f) = Except.ok r :=
  bind_eq_ok.mpr ⟨a, hx, hf⟩

lemma seq_eq_ok {x : Except ε Unit} {y : Except ε β} {r : β} :
    (x >>= fun _ => y) = Except.ok r ↔ x = Except.ok () ∧ y = Except.ok r := by
  cases x with
  | error e | ok a => simp [bind, Except.bind]

@[simp] lemma pure_eq_ok {a : α} : (pure a : Except ε α) = Except.ok r ↔ a = r := by
  simp [pure, Except.pure]

@[simp] lemma error_ne_ok {e : ε} : (Except.error e : Except ε α) ≠ Except.ok r := by
  intro h; cases h

/-- A call returns one value. -/
lemma unique {a b : α} (ha : x = Except.ok a) (hb : x = Except.ok b) : a = b :=
  Except.ok.inj (ha.symm.trans hb)

lemma toOption_eq_some : x.toOption = some r ↔ x = Except.ok r := by
  cases x <;> simp [Except.toOption]

end Exec

/-! ## Outcomes that are evaluated -/

section Evaluation

variable {ε α : Type*} {P Q : α → Prop} {o : Option α} {x : Except ε α}

instance decidableExistsSome [DecidablePred P] : Decidable (∃ a, o = some a ∧ P a) :=
  inferInstanceAs (Decidable (∃ a ∈ o, P a))

instance decidableExistsOk [DecidablePred P] : Decidable (∃ a, x = .ok a ∧ P a) :=
  match x with
  | .ok a => decidable_of_iff (P a) (by simp)
  | .error _ => .isFalse (by simp)

instance decidableEqError [DecidableEq ε] (e : ε) : Decidable (x = .error e) :=
  match x with
  | .ok _ => .isFalse (by simp)
  | .error e' => decidable_of_iff (e' = e) (by simp)

section

variable (h : ∃ a, o = some a ∧ P a) (hQ : ∀ a, o = some a → P a → Q a)
include h hQ

/-- What is proved of a result from what is evaluated of it. -/
lemma exists_some_imp : ∃ a, o = some a ∧ Q a := by
  obtain ⟨a, ho, ha⟩ := h
  exact ⟨a, ho, hQ a ho ha⟩

/-- The first part of what is said of a result is evaluated, the second part is proved. -/
lemma exists_some_and : ∃ a, o = some a ∧ P a ∧ Q a :=
  exists_some_imp h fun a ho ha => ⟨ha, hQ a ho ha⟩

end

end Evaluation

/-! ## Postconditions -/

section Ensures

variable {ε ε' α β : Type} {bad : ε → Prop} {post : α → Prop} {x : Except ε α}

/-- The call does not fail with a bad error, and what it returns satisfies `post`. -/
def Ensures (bad : ε → Prop) (post : α → Prop) : Except ε α → Prop
  | .ok a => post a
  | .error e => ¬ bad e

namespace Ensures

lemma of_ok {a : α} (hx : x = .ok a) (ha : post a) : Ensures bad post x := by
  subst hx
  exact ha

lemma of_error {e : ε} (hx : x = .error e) (he : ¬ bad e) : Ensures bad post x := by
  subst hx
  exact he

lemma post_of_ok (h : Ensures bad post x) {a : α} (hx : x = .ok a) : post a := by
  subst hx
  exact h

lemma not_bad (h : Ensures bad post x) {e : ε} (hx : x = .error e) : ¬ bad e := by
  subst hx
  exact h

/-- **The rule for a sequence of two calls.** -/
lemma bind (h : Ensures bad post x) {f : α → Except ε β} {post' : β → Prop}
    (hf : ∀ a, post a → Ensures bad post' (f a)) : Ensures bad post' (x >>= f) := by
  cases x with
  | ok a => exact hf a h
  | error e => exact h

end Ensures

end Ensures

/-! ## Checked vector operations -/

section Vectors

variable {α : Type}

/-- `v[i]`: panics when `i` is out of range. -/
def index (v : List α) (i : ℕ) : Exec α :=
  match v[i]? with
  | some a => .ok a
  | none => .error .panic

/-- `v[i] = a`: panics when `i` is out of range. -/
def store (v : List α) (i : ℕ) (a : α) : Exec (List α) :=
  if i < v.length then .ok (v.set i a) else .error .panic

/-- `Vec::resize`: cut to `n` entries or fill up with `a`. -/
def resize (v : List α) (n : ℕ) (a : α) : List α :=
  v.take n ++ List.replicate (n - v.length) a

variable {v : List α}

@[simp] lemma index_eq_ok {i : ℕ} {a : α} : index v i = .ok a ↔ v[i]? = some a := by
  unfold index
  cases v[i]? <;> simp

@[simp] lemma store_eq_ok {w : List α} {i : ℕ} {a : α} :
    store v i a = .ok w ↔ i < v.length ∧ v.set i a = w := by
  unfold store
  split_ifs with h <;> simp [h]

@[simp] lemma length_resize (v : List α) (n : ℕ) (a : α) : (resize v n a).length = n := by
  simp only [resize, List.length_append, List.length_take, List.length_replicate]
  omega

lemma resize_of_length_eq {n : ℕ} (h : v.length = n) (a : α) : resize v n a = v := by
  subst h
  simp [resize]

end Vectors

end EmulatedMls
