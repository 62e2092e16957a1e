import Mathlib.Tactic.Common

/-!
# Transducers and their histories

A transducer answers each input and moves to its next state; it never refuses an input.  The
history of a list of inputs is the list of its exchanges, each with the state before and after it,
so that a statement about a run can speak about the order of the answers and about the states in
which they were given.
-/

namespace EmulatedMls

open List

/-- One input with its answer and the states around it. -/
structure Exchange (σ ι ο : Type*) where
  before : σ
  input : ι
  output : ο
  after : σ

/-- A transducer with states `σ`, inputs `ι` and outputs `ο`. -/
structure Transducer (σ ι ο : Type*) where
  step : σ → ι → σ × ο

namespace Transducer

variable {σ ι ο : Type*} (T : Transducer σ ι ο)

/-- The state after one input. -/
def next (s : σ) (i : ι) : σ := (T.step s i).1

/-- The answer to one input. -/
def answer (s : σ) (i : ι) : ο := (T.step s i).2

/-- The exchanges of a list of inputs. -/
def history : σ → List ι → List (Exchange σ ι ο)
  | _, [] => []
  | s, i :: is => ⟨s, i, T.answer s i, T.next s i⟩ :: history (T.next s i) is

/-- The state after a list of inputs. -/
def final : σ → List ι → σ
  | s, [] => s
  | s, i :: is => final (T.next s i) is

/-- The answers to a list of inputs. -/
def answers (s : σ) (is : List ι) : List ο := (T.history s is).map (·.output)

/-- No list of inputs tells the two states apart. -/
def Equivalent (s s' : σ) : Prop := ∀ is, T.answers s is = T.answers s' is

@[simp] lemma history_nil (s : σ) : T.history s [] = [] := rfl

@[simp] lemma history_cons (s : σ) (i : ι) (is : List ι) :
    T.history s (i :: is) = ⟨s, i, T.answer s i, T.next s i⟩ :: T.history (T.next s i) is := rfl

@[simp] lemma final_nil (s : σ) : T.final s [] = s := rfl

@[simp] lemma final_cons (s : σ) (i : ι) (is : List ι) :
    T.final s (i :: is) = T.final (T.next s i) is := rfl

variable {s s' : σ} {i : ι} {o : ο}

lemma next_of_step (h : T.step s i = (s', o)) : T.next s i = s' :=
  congrArg Prod.fst h

lemma answer_of_step (h : T.step s i = (s', o)) : T.answer s i = o :=
  congrArg Prod.snd h

variable {is : List ι}

lemma history_eq_append {xs ys : List (Exchange σ ι ο)} (h : T.history s is = xs ++ ys) :
    ∃ js ks, is = js ++ ks ∧ T.history s js = xs ∧ T.history (T.final s js) ks = ys := by
  induction xs generalizing s is with
  | nil => exact ⟨[], is, rfl, rfl, by simpa using h⟩
  | cons x xs ih =>
    cases is with
    | nil => simp at h
    | cons i is =>
      obtain ⟨rfl, hrest⟩ := List.cons.inj (by simpa using h)
      obtain ⟨js, ks, rfl, hxs, hys⟩ := ih hrest
      exact ⟨i :: js, ks, rfl, by simp [hxs], hys⟩

variable {T}

lemma Equivalent.refl (s : σ) : T.Equivalent s s := fun _ => rfl

lemma Equivalent.answer_eq (h : T.Equivalent s s') (i : ι) : T.answer s i = T.answer s' i := by
  simpa [answers] using h [i]

lemma exists_of_mem_history {x : Exchange σ ι ο} (h : x ∈ T.history s is) :
    ∃ s' i, x = ⟨s', i, T.answer s' i, T.next s' i⟩ := by
  induction is generalizing s with
  | nil => simp at h
  | cons i is ih =>
    rw [history_cons, mem_cons] at h
    rcases h with rfl | h
    · exact ⟨s, i, rfl⟩
    · exact ih h

variable {I : σ → Prop}

/-- **The invariant rule.**  `A` says which inputs are admitted in a state. -/
theorem invariant {A : σ → ι → Prop} (hstep : ∀ s i, I s → A s i → I (T.next s i)) {s : σ}
    (hs : I s) (hok : ∀ x ∈ T.history s is, A x.before x.input) :
    I (T.final s is) ∧ ∀ x ∈ T.history s is, I x.before := by
  induction is generalizing s with
  | nil => exact ⟨hs, by simp⟩
  | cons i is ih =>
    rw [history_cons, forall_mem_cons] at hok
    obtain ⟨hfinal, hrest⟩ := ih (hstep s i hs hok.1) hok.2
    exact ⟨hfinal, by rw [history_cons, forall_mem_cons]; exact ⟨hs, hrest⟩⟩

/-- **At most once.**  Exchanges of a kind that only happen while a door is open and close it, in
    a run of which no exchange opens it.  `I` is an invariant of the whole run. -/
theorem countP_le_one {C : σ → Prop} {hit : Exchange σ ι ο → Bool}
    (hI : ∀ s i, I s → I (T.next s i))
    (hhit : ∀ s i, I s → hit ⟨s, i, T.answer s i, T.next s i⟩ = true → ¬ C s ∧ C (T.next s i))
    {s : σ} (hs : I s) (hkeep : ∀ x ∈ T.history s is, I x.before → C x.before → C x.after) :
    (T.history s is).countP hit ≤ 1 ∧ (C s → (T.history s is).countP hit = 0) := by
  induction is generalizing s with
  | nil => simp
  | cons i is ih =>
    rw [history_cons, forall_mem_cons] at hkeep
    obtain ⟨hle, hzero⟩ := ih (hI s i hs) hkeep.2
    rw [history_cons, countP_cons]
    by_cases h : hit ⟨s, i, T.answer s i, T.next s i⟩ = true
    · obtain ⟨hopen, hclosed⟩ := hhit s i hs h
      rw [if_pos h, hzero hclosed]
      exact ⟨Nat.le_refl _, fun hC => absurd hC hopen⟩
    · rw [if_neg h, Nat.add_zero]
      exact ⟨hle, fun hC => hzero (hkeep.1 hs hC)⟩

end Transducer

end EmulatedMls
