import Mathlib.Tactic.Common

/-!
# Machines and their runs

A machine takes a state and an event to the next state, or refuses the event.  All choices of
the environment are part of the event, so a run is a list of events and can be evaluated.
-/

namespace EmulatedMls

/-- A machine with states `σ` and events `ε`. -/
structure Machine (σ ε : Type*) where
  init : σ → Prop
  step : σ → ε → Option σ

namespace Machine

variable {σ ε : Type*}

/-- The states reached from an initial one by steps that satisfy `ok`. -/
inductive Reaches (M : Machine σ ε) (ok : σ → ε → Prop) : σ → Prop where
  | init {s : σ} (h : M.init s) : Reaches M ok s
  | step {s s' : σ} {e : ε} (h : Reaches M ok s) (hok : ok s e) (hs : M.step s e = some s') :
      Reaches M ok s'

variable {M : Machine σ ε} {ok : σ → ε → Prop}

theorem Reaches.invariant {Inv : σ → Prop} {s : σ} (h : M.Reaches ok s)
    (hinit : ∀ s, M.init s → Inv s)
    (hstep : ∀ s e s', Inv s → ok s e → M.step s e = some s' → Inv s') : Inv s := by
  induction h with
  | init h => exact hinit _ h
  | step _ hok hs ih => exact hstep _ _ _ ih hok hs

/-- A weaker condition, more reached states. -/
theorem Reaches.mono {ok' : σ → ε → Prop} {s : σ} (h : M.Reaches ok s)
    (hok : ∀ s e, ok s e → ok' s e) : M.Reaches ok' s := by
  induction h with
  | init h => exact .init h
  | step _ h hs ih => exact .step ih (hok _ _ h) hs

/-- The state after an event; a refused event changes nothing. -/
def next (M : Machine σ ε) (s : σ) (e : ε) : σ := (M.step s e).getD s

theorem Reaches.next {s : σ} (h : M.Reaches ok s) {e : ε} (hok : ok s e) :
    M.Reaches ok (M.next s e) := by
  unfold Machine.next
  cases hs : M.step s e with
  | none => exact h
  | some s' => exact .step h hok hs

def run (M : Machine σ ε) : σ → List ε → Option σ
  | s, [] => some s
  | s, e :: es => (M.step s e).bind fun s' => run M s' es

/-- Every event of the run satisfies `ok` in the state before it. -/
def Admits (M : Machine σ ε) (ok : σ → ε → Prop) : σ → List ε → Prop
  | _, [] => True
  | s, e :: es => ok s e ∧ match M.step s e with
    | none => True
    | some s' => Admits M ok s' es

theorem Admits.cons {s : σ} {e : ε} {es : List ε} (hok : ok s e)
    (h : M.Admits ok (M.next s e) es) : M.Admits ok s (e :: es) := by
  refine ⟨hok, ?_⟩
  cases hs : M.step s e with
  | none => trivial
  | some s' => simpa [Machine.next, hs] using h

theorem admits_of_forall (hok : ∀ s e, ok s e) (s : σ) (es : List ε) : M.Admits ok s es := by
  induction es generalizing s with
  | nil => trivial
  | cons e es ih => exact .cons (hok s e) (ih _)

/-- Every event of the run passes a test in the state before it. -/
def allows (M : Machine σ ε) (test : σ → ε → Bool) : σ → List ε → Bool
  | _, [] => true
  | s, e :: es => test s e && match M.step s e with
    | none => true
    | some s' => allows M test s' es

theorem admits_of_allows {test : σ → ε → Bool} (htest : ∀ s e, test s e = true → ok s e)
    {s : σ} {es : List ε} (h : M.allows test s es = true) : M.Admits ok s es := by
  induction es generalizing s with
  | nil => trivial
  | cons e es ih =>
    rw [allows, Bool.and_eq_true] at h
    refine ⟨htest s e h.1, ?_⟩
    cases hs : M.step s e with
    | none => trivial
    | some s' =>
      rw [hs] at h
      exact ih h.2

/-- An admitted run leads to a reached state, also of a machine with other initial states. -/
theorem Reaches.of_run_of_step_eq {M' : Machine σ ε} (hstep : M'.step = M.step) {s s' : σ}
    {es : List ε} (h : M.Reaches ok s) (hok : M'.Admits ok s es) (hrun : M'.run s es = some s') :
    M.Reaches ok s' := by
  induction es generalizing s with
  | nil =>
    obtain rfl : s = s' := by simpa [run] using hrun
    exact h
  | cons e es ih =>
    obtain ⟨s1, hs1, hrest⟩ := Option.bind_eq_some_iff.mp hrun
    obtain ⟨hok1, hoks⟩ := hok
    rw [hs1] at hoks
    exact ih (.step h hok1 (hstep ▸ hs1)) hoks hrest

/-- A list of events whose run is admitted leads to a reached state. -/
theorem Reaches.of_run {s s' : σ} {es : List ε} (h : M.Reaches ok s) (hok : M.Admits ok s es)
    (hrun : M.run s es = some s') : M.Reaches ok s' :=
  h.of_run_of_step_eq rfl hok hrun

end Machine

end EmulatedMls
