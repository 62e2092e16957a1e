import EmulatedMls.Orchestrator.Basic

/-!
# Replicas of one election

Every holder of a group runs its own `Orchestrator` on the same commits.  The seats and the slot
that acts are computed from the vector, the parameters and the commit alone; the name of the
replica only decides what the replica does with the result.
-/

namespace EmulatedMls.Orchestrator

open Exec List

variable {R : Rng}

/-! ## The slot that acts -/

variable {newMembers known : List String} {total fuel : ℕ} {seed : List UInt8} {r : Outcome}
  {o o' : Orchestrator}

lemma reroll_mono {hi : ℕ} :
    ∀ {fuel fuel' who : ℕ} {g : R.State} {w : ℕ}, fuel ≤ fuel' →
      reroll R newMembers known hi fuel who g = .ok w →
      reroll R newMembers known hi fuel' who g = .ok w := by
  intro fuel
  induction fuel with
  | zero => intro fuel' who g w _ h; simp [reroll] at h
  | succ n ih =>
    intro fuel' who g w hle h
    obtain ⟨m, rfl⟩ : ∃ m, fuel' = m + 1 := ⟨fuel' - 1, by omega⟩
    have hnm : n ≤ m := by omega
    simp only [reroll] at h ⊢
    split_ifs at h ⊢ with hlen
    · obtain ⟨a, ha, h⟩ := bind_inv h
      refine bind_ok ha (?_)
      split_ifs at h ⊢ with hmem
      · obtain ⟨⟨w', g'⟩, hd, h⟩ := bind_inv h
        exact bind_ok hd (ih hnm h)
      · exact h
    · exact h

/-- The seats and the acting slot that a commit leads to, whoever computes them. -/
def Elects (R : Rng) (p : OrchestratedParameters) (seed : List UInt8) (total : ℕ)
    (newMembers known known' : List String) (who : ℕ) : Prop :=
  ∃ fuel g w g',
    seatMembers R p total newMembers (known, R.fromSeed (seedArray seed)) = .ok (known', g) ∧
    R.draw 0 (min p.maxActiveCommitters total) g = .ok (w, g') ∧
    reroll R newMembers known' (min p.maxActiveCommitters total) fuel w g' = .ok who

lemma Elects.unique {p : OrchestratedParameters} {known1 known2 : List String} {who1 who2 : ℕ}
    (h1 : Elects R p seed total newMembers known known1 who1)
    (h2 : Elects R p seed total newMembers known known2 who2) : known1 = known2 ∧ who1 = who2 := by
  obtain ⟨fuel1, g1, w1, g1', hseat1, hdraw1, hroll1⟩ := h1
  obtain ⟨fuel2, g2, w2, g2', hseat2, hdraw2, hroll2⟩ := h2
  obtain ⟨rfl, rfl⟩ : known1 = known2 ∧ g1 = g2 := by
    simpa using hseat1.symm.trans hseat2
  obtain ⟨rfl, rfl⟩ : w1 = w2 ∧ g1' = g2' := by
    simpa using hdraw1.symm.trans hdraw2
  have hmax1 := reroll_mono (Nat.le_max_left fuel1 fuel2) hroll1
  have hmax2 := reroll_mono (Nat.le_max_right fuel1 fuel2) hroll2
  exact ⟨rfl, Exec.unique hmax1 hmax2⟩

variable {name : String}

lemma position_eq_none : position known name = none ↔ name ∉ known := by
  simp only [position, findIdx?_eq_none_iff, decide_eq_false_iff_not]
  exact ⟨fun h hm => h name hm rfl, fun h x hx hxn => h (hxn ▸ hx)⟩

variable {pos : ℕ}

lemma getElem?_of_position (h : position known name = some pos) : known[pos]? = some name := by
  obtain ⟨hlt, hname, -⟩ := findIdx?_eq_some_iff_getElem.mp h
  rw [getElem?_eq_getElem hlt]
  simpa using hname

lemma processCommit_cases (h : processCommit R fuel o seed total newMembers = .ok r) :
    ∃ known, (∃ g, seatMembers R o.parameters total newMembers
          (o.knownMembers, R.fromSeed (seedArray seed)) = .ok (known, g)) ∧
      ((o.name ∉ known ∧ r = ⟨{ o with knownMembers := known }, .inactive, none, none, []⟩) ∨
        ∃ pos who, position known o.name = some pos ∧
          Elects R o.parameters seed total newMembers o.knownMembers known who ∧
          r = conclude { o with knownMembers := known } newMembers pos who) := by
  obtain ⟨⟨known, g⟩, hseat, h⟩ := bind_inv h
  refine ⟨known, ⟨g, hseat⟩, ?_⟩
  cases hpos : position known o.name with
  | none =>
    simp only [hpos] at h
    exact .inl ⟨position_eq_none.mp hpos, (pure_eq_ok.mp h).symm⟩
  | some pos =>
    simp only [hpos] at h
    obtain ⟨⟨w, g'⟩, hdraw, h⟩ := bind_inv h
    obtain ⟨who, hroll, h⟩ := bind_inv h
    exact .inr ⟨pos, who, rfl, ⟨fuel, g, w, g', hseat, hdraw, hroll⟩, (pure_eq_ok.mp h).symm⟩

variable {p : OrchestratedParameters} {s : ℕ} {x : String} {known' : List String}

lemma mem_of_mem_seat (hseat : seat p s name known = .ok known') (hx : x ∈ known') :
    x ∈ known ∨ x = name := by
  unfold seat at hseat
  simp only at hseat
  split_ifs at hseat with hc hp
  · obtain ⟨-, rfl⟩ := store_eq_ok.mp hseat
    exact mem_or_eq_of_mem_set hx
  · obtain ⟨previous, hprev, hseat⟩ := bind_inv hseat
    obtain ⟨moved, hmoved, hseat⟩ := bind_inv hseat
    obtain ⟨-, rfl⟩ := store_eq_ok.mp hseat
    rcases mem_or_eq_of_mem_set hx with hx | hx
    · split_ifs at hmoved
      · obtain ⟨-, rfl⟩ := store_eq_ok.mp hmoved
        rcases mem_or_eq_of_mem_set hx with hx | rfl
        · exact .inl hx
        · exact .inl (mem_of_getElem? (index_eq_ok.mp hprev))
      · cases hmoved
        exact .inl hx
    · exact .inr hx
  · cases hseat
    exact .inl hx

lemma mem_of_mem_seatMembers :
    ∀ {known known' : List String} {g g' : R.State},
      seatMembers R p total newMembers (known, g) = .ok (known', g') → x ∈ known' →
      x ∈ known ∨ x ∈ newMembers := by
  induction newMembers with
  | nil =>
    intro known known' g g' hseat hx
    cases hseat
    exact .inl hx
  | cons name names ih =>
    intro known known' g g' hseat hx
    obtain ⟨⟨s, g1⟩, -, hseat⟩ := bind_inv hseat
    obtain ⟨known1, hone, hrest⟩ := bind_inv hseat
    rcases ih hrest hx with hx | hx
    · rcases mem_of_mem_seat hone hx with hx | rfl
      · exact .inl hx
      · exact .inr mem_cons_self
    · exact .inr (.tail _ hx)

@[simp] lemma conclude_name (o : Orchestrator) (newMembers : List String) (pos who : ℕ) :
    (conclude o newMembers pos who).orchestrator.name = o.name := by
  unfold conclude; split_ifs <;> rfl

@[simp] lemma conclude_parameters (o : Orchestrator) (newMembers : List String) (pos who : ℕ) :
    (conclude o newMembers pos who).orchestrator.parameters = o.parameters := by
  unfold conclude; split_ifs <;> rfl

@[simp] lemma conclude_knownMembers (o : Orchestrator) (newMembers : List String)
    (pos who : ℕ) : (conclude o newMembers pos who).orchestrator.knownMembers = o.knownMembers := by
  unfold conclude; split_ifs <;> rfl

@[simp] lemma conclude_whoActs (o : Orchestrator) (newMembers : List String) (pos who : ℕ) :
    (conclude o newMembers pos who).whoActs = some who := by
  unfold conclude; split_ifs <;> rfl

lemma conclude_wins {who : ℕ} : (conclude o newMembers pos who).Wins ↔ pos = who := by
  unfold conclude Outcome.Wins
  by_cases h : pos = who <;> simp [h]

section

variable (h : processCommit R fuel o seed total newMembers = .ok r)
include h

/-- **A winner sits at the elected slot.** -/
lemma winner_seat (hw : r.Wins) :
    ∃ known who, Elects R o.parameters seed total newMembers o.knownMembers known who ∧
      known[who]? = some o.name := by
  obtain ⟨known, -, ⟨-, rfl⟩ | ⟨pos, who, hpos, helects, rfl⟩⟩ := processCommit_cases h
  · simp [Outcome.Wins] at hw
  · obtain rfl := conclude_wins.mp hw
    exact ⟨known, pos, helects, getElem?_of_position hpos⟩

lemma processCommit_frame :
    r.orchestrator.name = o.name ∧ r.orchestrator.parameters = o.parameters ∧
      ∃ g, seatMembers R o.parameters total newMembers
        (o.knownMembers, R.fromSeed (seedArray seed)) = .ok (r.orchestrator.knownMembers, g) := by
  obtain ⟨known, ⟨g, hseat⟩, ⟨-, rfl⟩ | ⟨pos, who, -, -, rfl⟩⟩ := processCommit_cases h
  · exact ⟨rfl, rfl, g, hseat⟩
  · exact ⟨by simp, by simp, g, by simpa using hseat⟩

end

/-- **What a commit does to the counter of a replica**: only the winner waits. -/
lemma processCommit_acks {out : Outcome}
    (h : processCommit R fuel o seed total newMembers = .ok out) :
    (out.Wins ∧ out.orchestrator.pendingAcks = (newMembers.filter (· ≠ o.name)).length ∧
        out.action = if (newMembers.filter (· ≠ o.name)).length = 0 then .commit else .listen) ∨
      (¬ out.Wins ∧ out.orchestrator.pendingAcks = o.pendingAcks ∧ out.action ≠ .commit) := by
  obtain ⟨known, -, ⟨-, rfl⟩ | ⟨pos, who, -, -, rfl⟩⟩ := processCommit_cases h
  · exact .inr ⟨by simp [Outcome.Wins], rfl, by simp⟩
  · by_cases hpos : pos = who
    · exact .inl ⟨conclude_wins.mpr hpos, by simp [conclude, hpos], by simp [conclude, hpos]⟩
    · exact .inr ⟨fun hw => hpos (conclude_wins.mp hw), by simp [conclude, hpos],
        by simp [conclude, hpos]⟩

lemma removeMembers_cases {names : List String} (h : removeMembers o names = .ok o') :
    (o.name ∉ o.knownMembers ∧ o' = o) ∨
      (o.name ∈ o.knownMembers ∧ o' = { o with
        knownMembers := resize (o.knownMembers.filter (· ∉ names))
          o.parameters.maxActiveProcessers "" }) := by
  unfold removeMembers at h
  by_cases hin : o.name ∈ o.knownMembers
  · simp only [hin, not_true_eq_false, if_false] at h
    split_ifs at h
    exact .inr ⟨hin, (pure_eq_ok.mp h).symm⟩
  · simp only [hin, not_false_eq_true, if_true, pure_eq_ok] at h
    exact .inl ⟨hin, h.symm⟩

/-! ## Runs of common calls -/

/-- A call that every replica of a group makes. -/
inductive Call where
  | processCommit (seed : List UInt8) (total : ℕ) (newMembers : List String)
  | removeMembers (names : List String)
  deriving DecidableEq, Repr

/-- One call of a replica; the flag says whether the replica is the winner of the commit. -/
def call (R : Rng) (fuel : ℕ) (o : Orchestrator) : Call → Exec (Orchestrator × Bool)
  | .processCommit seed total newMembers => do
    let r ← processCommit R fuel o seed total newMembers
    pure (r.orchestrator, decide r.Wins)
  | .removeMembers names => do
    let o ← removeMembers o names
    pure (o, false)

def calls (R : Rng) (fuel : ℕ) : Orchestrator → List Call → Exec (Orchestrator × List Bool)
  | o, [] => pure (o, [])
  | o, c :: cs => do
    let (o, w) ← call R fuel o c
    let (o, ws) ← calls R fuel o cs
    pure (o, w :: ws)

variable {c : Call}

def threeSeats : OrchestratedParameters := ⟨3, 3, .random⟩

end EmulatedMls.Orchestrator
