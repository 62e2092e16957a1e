import EmulatedMls.Client.CallSpec
import Mathlib.Data.List.TakeWhile

/-!
# Confirmations

`confirm_commit` takes the entry out of `pending_commits`, merges the commit, sends the Welcomes of
the entry one by one and, for a commit, publishes the group info.  Any of these can fail, and the
call then returns at once.  Otherwise it tells the orchestrator and writes the record.

**Source.**  `confirm_commit` of `emulated_client/src/user.rs`.
-/

namespace EmulatedMls.Client

open List

namespace User

variable {cfg : Config} {env : Env} {u : User}

/-! ## What is sent -/

variable {r : Result} {g : MlsGroup} {e : PendingCommit}

lemma foldl_emit_of_error (h : r.error.isSome) (os : List Output) : os.foldl (emit env) r = r := by
  induction os with
  | nil => rfl
  | cons o os ih =>
    have hemit : emit env r o = r := by simp [emit, h]
    rw [foldl_cons, hemit, ih]

lemma foldl_emit_takeWhile (os : List Output) (r : Result) (hr : r.error = none) :
    os.foldl (emit env) r = { r with
      outputs := r.outputs ++ os.takeWhile env.delivers
      error := if ∀ o ∈ os, env.delivers o = true then none else some .send } := by
  induction os generalizing r with
  | nil => simp [← hr]
  | cons o os ih =>
    rw [foldl_cons]
    by_cases ho : env.delivers o = true
    · have hemit : emit env r o = { r with outputs := r.outputs ++ [o] } := by
        simp [emit, hr, ho]
      rw [hemit, ih { r with outputs := r.outputs ++ [o] } hr]
      simp [ho]
    · have hemit : emit env r o = { r with error := some .send } := by
        simp [emit, hr, ho]
      rw [hemit, foldl_emit_of_error (by rfl)]
      simp [ho]

/-- The group info that is published for a commit, and not for a proposal. -/
def publication (g : MlsGroup) : Action → List Output
  | .propose _ => []
  | _ => [.groupInfo g.transcript]

lemma publication_of_ne (g : MlsGroup) {a : Action} (h : ∀ kind, a ≠ .propose kind) :
    publication g a = [.groupInfo g.transcript] := by
  cases a <;> first | rfl | exact absurd rfl (h _)

/-- What the confirmation of an entry has to send, once its group is merged. -/
def entrySends (cfg : Config) (u : User) (e : PendingCommit) (g : MlsGroup) : List Output :=
  let active := match cfg.agent with
    | .independent => none
    | .orchestrator _ => u.orchestrator.map (·.knownMembers)
  welcomesOf u g active e.welcome ++ publication g e.record.action

/-- What a confirmation sends: Welcomes and, for a commit, the group info. -/
lemma mem_entrySends {o : Output} (h : o ∈ entrySends cfg u e g) :
    (∃ sw recipient active, e.welcome = some sw ∧ (cfg.agent = .independent → active = none) ∧
      o = .welcome recipient ⟨u.username, sw.welcome, g.transcript, sw.recipients, active⟩) ∨
    (o = .groupInfo g.transcript ∧ ∀ kind, e.record.action ≠ .propose kind) := by
  rcases mem_append.mp h with ho | ho
  · obtain ⟨sw, recipient, hsw, -, rfl⟩ := mem_welcomesOf ho
    exact .inl ⟨sw, recipient, _, hsw, fun hindep => by simp [hindep], rfl⟩
  · unfold publication at ho
    split at ho
    · cases ho
    · next haction => exact .inr ⟨mem_singleton.mp ho, haction⟩

/-! ## How it ends -/

/-- What the end of a confirmation may change in a user. -/
structure Concludes (cfg : Config) (u u' : User) : Prop where
  frame : u' = { u with orchestrator := u'.orchestrator, agentQueue := u'.agentQueue }
  independent : cfg.agent = .independent → u' = u

lemma Concludes.refl (u : User) : Concludes cfg u u := ⟨rfl, fun _ => rfl⟩

inductive ConfirmOutcome (cfg : Config) (env : Env) (u : User) : Result → Prop where
  | empty (hslot : u.pendingCommit = none) : ConfirmOutcome cfg env u ⟨u, [], none⟩
  | groupless {e : PendingCommit} (hslot : u.pendingCommit = some e) (hg : u.group = none) :
      ConfirmOutcome cfg env u ⟨{ u with pendingCommit := none }, [], some .unknownGroup⟩
  | interrupted {e : PendingCommit} {g g' : MlsGroup} (hslot : u.pendingCommit = some e)
      (hg : u.group = some g) (hmerge : g.mergePendingCommit u.username = .ok g')
      (hfail : ¬ ∀ o ∈ entrySends cfg u e g', env.delivers o = true) :
      ConfirmOutcome cfg env u ⟨{ u with pendingCommit := none, group := some g' },
        (entrySends cfg u e g').takeWhile env.delivers, some .send⟩
  | completed {e : PendingCommit} {g g' : MlsGroup} (hslot : u.pendingCommit = some e)
      (hg : u.group = some g) (hmerge : g.mergePendingCommit u.username = .ok g')
      (hsent : ∀ o ∈ entrySends cfg u e g', env.delivers o = true) (u' : User) (a : ActionRecord)
      (hframe : Concludes cfg { u with pendingCommit := none, group := some g' } u')
      (haction : a.action = e.record.action) :
      ConfirmOutcome cfg env u ⟨u', entrySends cfg u e g' ++ [.record a], none⟩

variable {v : User}

lemma welcomesOf_vector {w : Option StoredWelcome} {active : Option (List String)}
    (hv : v.orchestrator = u.orchestrator) (hname : v.username = u.username)
    (h : (if w.isSome then activeMembers cfg v else pure none) = .ok active) :
    welcomesOf v g active w = welcomesOf u g (match cfg.agent with
      | .independent => none
      | .orchestrator _ => u.orchestrator.map (·.knownMembers)) w := by
  cases w with
  | none => rfl
  | some w =>
    simp only [Option.isSome_some, if_true, activeMembers] at h
    cases hagent : cfg.agent with
    | independent =>
      simp only [hagent, Except.ok.injEq] at h
      simp [welcomesOf, hname, ← h]
    | orchestrator params =>
      simp only [hagent, hv] at h
      cases ho : u.orchestrator with
      | none => simp [ho] at h
      | some o =>
        simp only [ho, Except.ok.injEq] at h
        simp [welcomesOf, hname, ← h]

lemma concludeCommit_cases {os : List Output}
    (h : concludeCommit cfg env g e ⟨v, os, none⟩ = .ok r) :
    (env.delivers (.groupInfo g.transcript) = true ∧
      ∃ v' a, Concludes cfg v v' ∧ a.action = e.record.action ∧
        r = ⟨v', os ++ [.groupInfo g.transcript] ++ [.record a], none⟩) ∨
    (¬ env.delivers (.groupInfo g.transcript) = true ∧ r = ⟨v, os, some .send⟩) := by
  unfold concludeCommit at h
  by_cases hsent : env.delivers (.groupInfo g.transcript) = true
  · simp only [emit, hsent, Option.isSome_none, Bool.false_eq_true, if_false, if_true] at h
    refine .inl ⟨hsent, ?_⟩
    cases hagent : cfg.agent with
    | independent =>
      simp only [hagent, Except.ok.injEq] at h
      subst h
      exact ⟨_, _, .refl v, by rfl, rfl⟩
    | orchestrator params =>
      simp only [hagent] at h
      obtain ⟨⟨v', action⟩, horch, h⟩ := Exec.bind_inv h
      obtain ⟨-, -, out, -, -, -, rfl, -⟩ := orchestrate_eq_ok.mp horch
      cases h
      refine ⟨_, _, ⟨?_, fun hindep => by simp [hindep] at hagent⟩, by rfl, rfl⟩
      unfold notifyAgent
      split_ifs <;> rfl
  · simp only [emit, hsent, Option.isSome_none, Bool.false_eq_true, if_false, Option.isSome_some,
      if_true, Except.ok.injEq] at h
    exact .inr ⟨hsent, h.symm⟩

lemma confirmCommit_outcome (h : confirmCommit cfg env u = .ok r) : ConfirmOutcome cfg env u r := by
  unfold confirmCommit at h
  cases hslot : u.pendingCommit with
  | none =>
    simp only [hslot] at h
    cases h
    exact .empty hslot
  | some e =>
  simp only [hslot] at h
  cases hg : u.group with
  | none =>
    simp only [hg] at h
    obtain rfl := fails_eq_ok h
    exact hg ▸ .groupless hslot hg
  | some g =>
  simp only [hg] at h
  cases hmerge : g.mergePendingCommit u.username with
  | error err => simp [hmerge] at h
  | ok g' =>
  simp only [hmerge] at h
  obtain ⟨active, hactive, h⟩ := Exec.bind_inv h
  set v : User := { u with pendingCommit := none, group := some g' } with hv
  have hwelcomes := welcomesOf_vector (u := u) (g := g') (v := v) rfl rfl hactive
  set ws := welcomesOf u g' _ e.welcome with hws
  have hsends : entrySends cfg u e g' = ws ++ publication g' e.record.action := rfl
  rw [show welcomesOf _ g' active e.welcome = ws from hwelcomes,
    foldl_emit_takeWhile ws ⟨v, [], none⟩ rfl] at h
  by_cases hall : ∀ o ∈ ws, env.delivers o = true
  · -- all Welcomes are sent
    rw [if_pos hall, takeWhile_eq_self_iff.mpr hall] at h
    simp only [Option.isSome_none, Bool.false_eq_true, if_false, nil_append] at h
    split at h
    · next kind haction =>
      cases h
      rw [haction, publication, append_nil] at hsends
      have hcompleted :=
        ConfirmOutcome.completed hslot hg hmerge (by rwa [hsends]) v e.record (.refl v) rfl
      rwa [hsends] at hcompleted
    · next haction =>
      rw [publication_of_ne g' fun kind => haction kind] at hsends
      obtain ⟨hsent, v', a, hframe, haction', rfl⟩ | ⟨hfail, rfl⟩ := concludeCommit_cases h
      · have hdelivered : ∀ o ∈ entrySends cfg u e g', env.delivers o = true := by
          rw [hsends]
          intro o ho
          rcases mem_append.mp ho with ho | ho
          · exact hall o ho
          · rwa [mem_singleton.mp ho]
        have hcompleted := ConfirmOutcome.completed hslot hg hmerge hdelivered v' a hframe haction'
        rwa [hsends] at hcompleted
      · have hnot : ¬ ∀ o ∈ entrySends cfg u e g', env.delivers o = true := by
          intro hdelivered
          exact hfail (hdelivered _ (by rw [hsends]; simp))
        have hinterrupted := ConfirmOutcome.interrupted hslot hg hmerge hnot
        rwa [hsends, takeWhile_append_of_pos hall, takeWhile_cons_of_neg hfail,
          append_nil] at hinterrupted
  · -- a Welcome fails
    rw [if_neg hall] at h
    cases h
    have hnot : ¬ ∀ o ∈ entrySends cfg u e g', env.delivers o = true := by
      intro hdelivered
      exact hall fun o ho => hdelivered o (by rw [hsends]; exact mem_append_left _ ho)
    have hinterrupted := ConfirmOutcome.interrupted hslot hg hmerge hnot
    rwa [hsends, takeWhile_append, if_neg] at hinterrupted
    intro hlen
    exact hall (takeWhile_eq_self_iff.mp ((List.takeWhile_prefix _).eq_of_length hlen))

end User

end EmulatedMls.Client
