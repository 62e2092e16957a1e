import EmulatedMls.Client.CallOutcome

/-!
# Confirmations that are cut short

When `confirm_commit` fails, the entry of `pending_commits` is gone already, so that a later call
finds nothing to confirm.
-/

namespace EmulatedMls.Client

namespace User

variable {cfg : Config} {env : Env} {u : User}

/-! ## The second call -/

/-- What `confirm_commit` has to send: the Welcomes of the entry and the group info. -/
def confirmationSends (cfg : Config) (u : User) : List Output :=
  match u.pendingCommit, u.group with
  | some e, some g =>
    match g.mergePendingCommit u.username with
    | .ok g => entrySends cfg u e g
    | .error _ => []
  | _, _ => []

/-- A confirmation and its repetition do what one call does when nothing fails. -/
def Retryable (cfg : Config) (u : User) (r : Result) : Prop :=
  r.error ≠ none → ∃ r2 r0, confirmCommit cfg .fine r.user = .ok r2 ∧
    confirmCommit cfg .fine u = .ok r0 ∧ r.outputs ++ r2.outputs = r0.outputs ∧ r2.user = r0.user

lemma confirmationSends_eq {e : PendingCommit} {g g' : MlsGroup} (hslot : u.pendingCommit = some e)
    (hg : u.group = some g) (hmerge : g.mergePendingCommit u.username = .ok g') :
    confirmationSends cfg u = entrySends cfg u e g' := by
  simp [confirmationSends, hslot, hg, hmerge]

variable {r : Result}

lemma confirmationSends_subset (h : confirmCommit cfg .fine u = .ok r) :
    confirmationSends cfg u ⊆ r.outputs := by
  cases confirmCommit_outcome h with
  | empty hslot => simp [confirmationSends, hslot]
  | groupless hslot hg => simp [confirmationSends, hslot, hg]
  | interrupted hslot hg hmerge hfail => exact absurd (fun _ _ => rfl) hfail
  | completed hslot hg hmerge hsent u' a hframe haction =>
    rw [confirmationSends_eq hslot hg hmerge]
    exact List.subset_append_left _ _

/-- **A confirmation can be repeated exactly if nothing failed**: everything was sent. -/
theorem confirm_retryable_iff {r : Result} (h : confirmCommit cfg env u = .ok r) :
    Retryable cfg u r ↔ ∀ o ∈ confirmationSends cfg u, env.delivers o = true := by
  cases confirmCommit_outcome h with
  | empty hslot =>
    exact iff_of_true (fun herr => absurd rfl herr) (by simp [confirmationSends, hslot])
  | groupless hslot hg =>
    refine iff_of_true (fun _ => ?_) (by simp [confirmationSends, hslot, hg])
    simp [confirmCommit, hslot, hg, fails]
  | interrupted hslot hg hmerge hfail =>
    rw [confirmationSends_eq hslot hg hmerge]
    refine iff_of_false (fun hretry => ?_) hfail
    obtain ⟨r2, r0, hr2, hr0, hout, -⟩ := hretry (by simp)
    cases hr2
    -- what failed is sent by the undisturbed call, and by neither of the two
    refine hfail fun o ho => ?_
    have hmem := confirmationSends_subset hr0 ((confirmationSends_eq hslot hg hmerge).symm ▸ ho)
    rw [← hout, List.append_nil] at hmem
    exact List.mem_takeWhile_imp hmem
  | completed hslot hg hmerge hsent u' a hframe haction =>
    rw [confirmationSends_eq hslot hg hmerge]
    exact iff_of_true (fun herr => absurd rfl herr) hsent

/-! ## A Welcome that is lost -/

def retryConfig : Config := ⟨.independent, Rng.scripted, 0, fun _ => []⟩

def addsPair : Commit := ⟨2, "A", ["B", "C"], [], []⟩

/-- `A` waits for the echo of this commit. -/
def addingPair : User where
  username := "A"
  group := some ⟨"A", [], [⟨0, "A", .add "B"⟩, ⟨1, "A", .add "C"⟩], .pendingCommit addsPair⟩
  pendingCommit := some ⟨⟨"A", [], .commit addsPair⟩, some ⟨⟨"A", [addsPair]⟩, ["B", "C"]⟩,
    ⟨.commit [.add "B", .add "C"], 0, 1⟩⟩
  orchestrator := none
  active := some (true, 0)
  agentQueue := 0

def withoutC : Env := { Env.fine with delivers := fun
  | .welcome "C" _ => false
  | _ => true }

/-- The confirmation in which nothing fails. -/
theorem confirm_retryable_iff_fine :
    ∃ r, addingPair.confirmCommit retryConfig .fine = .ok r ∧
      Retryable retryConfig addingPair r := by
  obtain ⟨r, hr⟩ : ∃ r, addingPair.confirmCommit retryConfig .fine = .ok r := ⟨_, rfl⟩
  exact ⟨r, hr, (confirm_retryable_iff hr).mpr fun _ _ => rfl⟩

/-- **A Welcome that is never sent.**  The Welcome to `C` fails, and the second confirmation returns
    without an error and without having done anything. -/
theorem confirm_not_repeated :
    ∃ r r1 r2, (User.new "A").createGroup retryConfig .fine = .ok r ∧
      r.user.calls retryConfig [(0, .propose (.add "B")), (1, .propose (.add "C")),
        (2, .commitToProposals 2)] = .ok addingPair ∧
      addingPair.confirmCommit retryConfig withoutC = .ok r1 ∧ r1.error = some .send ∧
      welcomedIn r1.outputs = ["B"] ∧ r1.user.group.map (·.members) = some ["A", "B", "C"] ∧
      r1.user.confirmCommit retryConfig .fine = .ok r2 ∧ r2.error = none ∧ r2.outputs = [] := by
  simp only [exists_and_left]
  decide +kernel

end User

end EmulatedMls.Client
