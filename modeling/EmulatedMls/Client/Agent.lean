import EmulatedMls.Client.Agreement
import EmulatedMls.Client.Confirmation
import Mathlib.Algebra.Ring.Nat

/-!
# The loop of the orchestrated agent

The agent of an orchestrated user waits for the name of a group in which its user may commit.
It then draws an action, again and again, until a commit has succeeded.  A group that has reached
`max_members` takes another way: the agent tries to remove one member and waits again, whatever
came of it.

**Source.**  `emulated_client/src/client_agent/orchestrated.rs`, and the queries of
`emulated_client/src/user.rs` that the agents make.

**Draws.**  A `Pass` fixes the draws of one pass of the loop and the answers of the outside world
to its calls.  The loop is given a list of passes.  A list that is too short for it ends in
`Fault.fuel`, and a loop that never ends is one for which every list is too short.
-/

namespace EmulatedMls.Client

open Exec List MlsGroup User

/-! ## What both agents draw and ask -/

inductive Paradigm where
  | commit
  | propose
  deriving DecidableEq, Repr

/-- The parameters of an agent; `request` stands for `DSType::Request`. -/
structure AgentParameters where
  paradigm : Paradigm
  maxMembers : ℕ
  proposalsPerCommit : ℕ
  request : Bool
  deriving DecidableEq, Repr

/-- What `random_value` selects. -/
inductive Draw where
  | invite
  | remove
  | update
  deriving DecidableEq, Repr

/-- One pass of the loop: draws, contacts, and the answers for its one or two calls. -/
structure Pass where
  draw : Draw
  contacts : Option (List String)
  pick : ℕ
  id : ℕ
  env : Env
  commitId : ℕ
  commitEnv : Env

/-- The message is a commit. -/
def GroupMessage.isCommit (m : GroupMessage) : Bool :=
  match m.content with
  | .commit _ => true
  | _ => false

/-- Nothing that is sent in the pass fails. -/
def Pass.Delivers (p : Pass) : Prop :=
  (∀ o, p.env.delivers o = true) ∧ ∀ o, p.commitEnv.delivers o = true

/-- `names[rng.gen_range(0..names.len())]`, if there is a name. -/
def pickFrom (names : List String) (pick : ℕ) : Option String := names[pick % names.length]?

namespace User

variable (p : Pass) (u : User)

def numberOfMembers : ℕ :=
  match u.group with
  | none => 1
  | some g => g.members.length

/-- `members_of_group`: the recipients of a message, so without the user. -/
def membersOfGroup : List String :=
  match u.group with
  | none => []
  | some g => g.members.filter (· ≠ u.username)

def notMembersOfGroup (contacts : List String) (u : User) : List String :=
  match u.group with
  | none => []
  | some _ => contacts.filter (· ∉ u.membersOfGroup)

/-- `pending_proposals`: removals of the own leaf do not count. -/
def pendingProposals : Option ℕ :=
  u.group.map fun g => (g.proposals.filter (·.kind ≠ .remove u.username)).length

/-- Whom `invite_user` selects. -/
def candidateToInvite : Option String :=
  p.contacts.bind fun contacts => pickFrom (u.notMembersOfGroup contacts) p.pick

/-- Whom `remove_from_group` selects. -/
def candidateToRemove : Option String := pickFrom u.membersOfGroup p.pick

/-- `fetch_updates` behind an `expect`: any error ends the client.  A joiner that is not active
    would have to acknowledge, which is not implemented over requests. -/
def fetchUpdates (cfg : Config) : List (Env × Incoming) → User → Exec User
  | [], u => pure u
  | (env, m) :: ms, u => do
    let r ← processInMessage cfg env u m
    if r.error.isSome ∨ .ack ∈ r.outputs then .error .panic else fetchUpdates cfg ms r.user

end User

/-! ## The orchestrated agent -/

/-- What an agent has done so far: its calls, and whether the last step returned `Ok`. -/
structure Attempt where
  user : User
  calls : List (Call × Result)
  ok : Bool
  deriving DecidableEq, Repr

def Attempt.before (a b : Attempt) : Attempt := { b with calls := a.calls ++ b.calls }

namespace OrchestratedAgent

open User (Call Incoming)

variable (cfg : Config) (params : AgentParameters) (p : Pass) (u : User)

def perform (env : Env) (id : ℕ) (u : User) (k : Call) : Exec Attempt := do
  let r ← u.call cfg env id k
  pure ⟨r.user, [(k, r)], r.error.isNone⟩

/-- The action as a commit or as a proposal. -/
def act (commit : Call) (kind : ProposalKind) : Exec Attempt :=
  match params.paradigm with
  | .commit => perform cfg p.env p.id u commit
  | .propose => perform cfg p.env p.id u (.propose kind)

def inviteUser : Exec Attempt :=
  match u.candidateToInvite p with
  | none => pure ⟨u, [], false⟩
  | some name => act cfg params p u (.invite name) (.add name)

def removeFromGroup : Exec Attempt :=
  match u.candidateToRemove p with
  | none => pure ⟨u, [], false⟩
  | some name => act cfg params p u (.remove name) (.remove name)

def updateGroup : Exec Attempt := act cfg params p u .updateState .update

def attempt : Exec Attempt :=
  match p.draw with
  | .invite => inviteUser cfg params p u
  | .remove => removeFromGroup cfg params p u
  | .update => updateGroup cfg params p u

/-- The inner loop of `run`. -/
def loop (cfg : Config) (params : AgentParameters) : List Pass → User → Exec Attempt
  | [], _ => .error .fuel
  | p :: ps, u => do
    let a ← attempt cfg params p u
    match params.paradigm with
    | .commit =>
      if a.ok then pure a
      else do
        let b ← loop cfg params ps a.user
        pure (a.before b)
    | .propose =>
      match a.user.pendingProposals with
      | none => .error .panic
      | some pending =>
        if pending < params.proposalsPerCommit then do
          let b ← loop cfg params ps a.user
          pure (a.before b)
        else do
          let c ← perform cfg p.commitEnv p.commitId a.user
            (.commitToProposals params.proposalsPerCommit)
          if c.ok then pure (a.before c)
          else do
            let b ← loop cfg params ps c.user
            pure (a.before (c.before b))

/-- What happens to an iteration: fetched messages, draws and passes. -/
structure Turn where
  updates : List (Env × Incoming)
  removal : Pass
  passes : List Pass

/-- The updates are only fetched from a delivery service of the request kind. -/
def fetched (turn : Turn) (u : User) : Exec User :=
  if params.request then u.fetchUpdates cfg turn.updates else pure u

/-- The group has reached `max_members`. -/
def Full : Prop :=
  params.maxMembers ≠ 0 ∧ params.maxMembers ≤ u.numberOfMembers

instance (params : AgentParameters) (u : User) : Decidable (Full params u) := by
  unfold Full
  infer_instance

/-- The body of the outer loop of `run`, from one `blocking_recv` to the next. -/
def iteration (turn : Turn) (u : User) : Exec Attempt := do
  let u ← fetched cfg params turn u
  if Full params u then removeFromGroup cfg params turn.removal u
  else loop cfg params turn.passes u

/-! ## Commits of an iteration -/

/-- The number of successful commits among some calls. -/
def commits (calls : List (Call × Result)) : ℕ :=
  calls.countP fun e => e.1.isCommit && e.2.error.isNone

/-- The number of commits that some calls have sent. -/
def commitsSent (calls : List (Call × Result)) : ℕ :=
  (calls.map fun e => (sentBy e.2.outputs).countP GroupMessage.isCommit).sum

@[simp] lemma commits_append (cs ds : List (Call × Result)) :
    commits (cs ++ ds) = commits cs + commits ds := countP_append

@[simp] lemma commitsSent_append (cs ds : List (Call × Result)) :
    commitsSent (cs ++ ds) = commitsSent cs + commitsSent ds := by
  simp [commitsSent]

@[simp] lemma before_calls (a b : Attempt) : (a.before b).calls = a.calls ++ b.calls := rfl

variable {cfg : Config} {params : AgentParameters} {seats : OrchestratedParameters} {env : Env}
  {id : ℕ} {u : User} {a : Attempt} {p : Pass} {ps : List Pass} {k : Call}

lemma perform_eq_ok : perform cfg env id u k = .ok a ↔
    ∃ r, u.call cfg env id k = .ok r ∧ a = ⟨r.user, [(k, r)], r.error.isNone⟩ := by
  unfold perform
  rw [bind_eq_ok]
  exact exists_congr fun r => and_congr_right fun _ => pure_eq_ok.trans eq_comm

lemma perform_commits (h : perform cfg env id u k = .ok a) :
    commits a.calls = if k.isCommit ∧ a.ok then 1 else 0 := by
  obtain ⟨r, -, rfl⟩ := perform_eq_ok.mp h
  simp [commits, countP_singleton]

variable {kind : ProposalKind}

/-- **The commits of one action**: one under the commit paradigm if it succeeds. -/
lemma act_commits (hk : k.isCommit) (h : act cfg params p u k kind = .ok a) :
    commits a.calls = if params.paradigm = .commit ∧ a.ok then 1 else 0 := by
  unfold act at h
  cases hpar : params.paradigm with
  | commit =>
    simp only [hpar] at h
    simp [perform_commits h, hk]
  | propose =>
    simp only [hpar] at h
    simp [perform_commits h, Call.isCommit]

lemma removeFromGroup_commits (h : removeFromGroup cfg params p u = .ok a) :
    commits a.calls = if params.paradigm = .commit ∧ a.ok then 1 else 0 := by
  unfold removeFromGroup at h
  cases hname : u.candidateToRemove p with
  | none =>
    simp only [hname, pure_eq_ok] at h
    subst h
    simp [commits]
  | some name =>
    simp only [hname] at h
    exact act_commits rfl h

lemma attempt_commits (h : attempt cfg params p u = .ok a) :
    commits a.calls = if params.paradigm = .commit ∧ a.ok then 1 else 0 := by
  unfold attempt at h
  cases hdraw : p.draw with
  | invite =>
    simp only [hdraw, inviteUser] at h
    cases hname : u.candidateToInvite p with
    | none =>
      simp only [hname, pure_eq_ok] at h
      subst h
      simp [commits]
    | some name =>
      simp only [hname] at h
      exact act_commits rfl h
  | remove =>
    simp only [hdraw] at h
    exact removeFromGroup_commits h
  | update =>
    simp only [hdraw] at h
    exact act_commits rfl h

/-- What one pass of the loop does: it ends the loop or leads to the next pass. -/
inductive PassEffect (cfg : Config) (params : AgentParameters) (p : Pass) (ps : List Pass)
    (u : User) : Attempt → Prop where
  | acted {a : Attempt} (hpar : params.paradigm = .commit)
      (ha : attempt cfg params p u = .ok a) (hok : a.ok = true) : PassEffect cfg params p ps u a
  | committed {a c : Attempt} (hpar : params.paradigm = .propose)
      (ha : attempt cfg params p u = .ok a)
      (hc : perform cfg p.commitEnv p.commitId a.user
        (.commitToProposals params.proposalsPerCommit) = .ok c) (hok : c.ok = true) :
      PassEffect cfg params p ps u (a.before c)
  | again {a b : Attempt} (ha : attempt cfg params p u = .ok a)
      (hok : params.paradigm = .commit → a.ok = false)
      (hb : loop cfg params ps a.user = .ok b) : PassEffect cfg params p ps u (a.before b)
  | uncommitted {a c b : Attempt} (hpar : params.paradigm = .propose)
      (ha : attempt cfg params p u = .ok a)
      (hc : perform cfg p.commitEnv p.commitId a.user
        (.commitToProposals params.proposalsPerCommit) = .ok c) (hok : c.ok = false)
      (hb : loop cfg params ps c.user = .ok b) :
      PassEffect cfg params p ps u (a.before (c.before b))

lemma loop_cases (h : loop cfg params (p :: ps) u = .ok a) : PassEffect cfg params p ps u a := by
  obtain ⟨a1, ha1, h⟩ := bind_inv h
  cases hpar : params.paradigm with
  | commit =>
    simp only [hpar] at h
    split_ifs at h with hok
    · cases h
      exact .acted hpar ha1 hok
    · obtain ⟨b, hb, h⟩ := bind_inv h
      cases h
      exact .again ha1 (fun _ => by simpa using hok) hb
  | propose =>
    simp only [hpar] at h
    cases hpending : a1.user.pendingProposals with
    | none => simp [hpending] at h
    | some pending =>
      simp only [hpending] at h
      split_ifs at h with hfew
      · obtain ⟨b, hb, h⟩ := bind_inv h
        cases h
        exact .again ha1 (by simp [hpar]) hb
      obtain ⟨c, hc, h⟩ := bind_inv h
      split_ifs at h with hok
      · cases h
        exact .committed hpar ha1 hc hok
      · obtain ⟨b, hb, h⟩ := bind_inv h
        cases h
        exact .uncommitted hpar ha1 hc (by simpa using hok) hb

/-- **A loop that ends has committed once.** -/
lemma loop_commits (h : loop cfg params ps u = .ok a) : commits a.calls = 1 := by
  -- induction on the passes; a pass that does not end the loop has not committed
  induction ps generalizing u a with
  | nil => cases h
  | cons p ps ih =>
    cases loop_cases h with
    | acted hpar ha hok => simp [attempt_commits ha, hpar, hok]
    | committed hpar ha hc hok =>
      simp [attempt_commits ha, perform_commits hc, hpar, hok, Call.isCommit]
    | again ha hok hb =>
      rw [before_calls, commits_append, attempt_commits ha, ih hb, if_neg]
      rintro ⟨hpar, htrue⟩
      simp [hok hpar] at htrue
    | uncommitted hpar ha hc hok hb =>
      simp [attempt_commits ha, perform_commits hc, ih hb, hpar, hok]

/-! ## Commits that reach the group -/

section

variable (hcfg : cfg.agent = .orchestrator seats)

include hcfg

lemma perform_commitsSent (hsend : ∀ o, env.delivers o = true) (hk : k ≠ .sendApplicationMsg)
    (h : perform cfg env id u k = .ok a) : commitsSent a.calls = commits a.calls := by
  obtain ⟨r, hr, rfl⟩ := perform_eq_ok.mp h
  simp only [commitsSent, commits, map_cons, map_nil, sum_cons, sum_nil,
    Nat.add_zero, countP_singleton]
  cases orchestrated_cases hcfg hsend hk hr with
  | refused e | dropped hg hsub => simp [sentBy]
  | proposed hg hpropose =>
    obtain ⟨-, rfl, -⟩ := propose_eq_ok hpropose
    rfl
  | @committed _ g g' m w act c o u' action dest hg hprep hm ho horch =>
    have hcommit : k.isCommit = true := by
      cases hprep with
      | propose hpropose =>
        obtain ⟨-, rfl, -⟩ := propose_eq_ok hpropose
        cases hm
      | _ => rfl
    have hrest : sentBy (welcomesOf u (g.after c) (some o.knownMembers) w ++
        [.groupInfo (c :: g.transcript),
          .record ⟨act, g'.epoch + 1, (g.after c).members.length⟩]) = [] := by
      cases w with
      | none => rfl
      | some sw => simp [sentBy, welcomesOf, filterMap_map]
    have hsent : sentBy (.toGroup m dest :: (welcomesOf u (g.after c)
        (some o.knownMembers) w ++ [.groupInfo (c :: g.transcript),
          .record ⟨act, g'.epoch + 1, (g.after c).members.length⟩])) = [m] :=
      congrArg (m :: ·) hrest
    simp [hsent, hcommit, GroupMessage.isCommit, hm]

lemma act_commitsSent (hp : p.Delivers)
    (hk : k ≠ .sendApplicationMsg) (h : act cfg params p u k kind = .ok a) :
    commitsSent a.calls = commits a.calls := by
  unfold act at h
  split at h
  · exact perform_commitsSent hcfg hp.1 hk h
  · exact perform_commitsSent hcfg hp.1 (by simp) h

lemma removeFromGroup_commitsSent (hp : p.Delivers)
    (h : removeFromGroup cfg params p u = .ok a) : commitsSent a.calls = commits a.calls := by
  unfold removeFromGroup at h
  split at h
  · cases h
    rfl
  · exact act_commitsSent hcfg hp (by simp) h

lemma attempt_commitsSent (hp : p.Delivers)
    (h : attempt cfg params p u = .ok a) : commitsSent a.calls = commits a.calls := by
  unfold attempt at h
  split at h
  · unfold inviteUser at h
    split at h
    · cases h
      rfl
    · exact act_commitsSent hcfg hp (by simp) h
  · exact removeFromGroup_commitsSent hcfg hp h
  · exact act_commitsSent hcfg hp (by simp) h

/-- **The commits that a loop sends are its successful commits.** -/
lemma loop_commitsSent (hps : ∀ p ∈ ps, p.Delivers)
    (h : loop cfg params ps u = .ok a) : commitsSent a.calls = commits a.calls := by
  induction ps generalizing u a with
  | nil => cases h
  | cons p ps ih =>
    obtain ⟨hp, hps⟩ := forall_mem_cons.mp hps
    cases loop_cases h with
    | acted hpar ha hok => exact attempt_commitsSent hcfg hp ha
    | committed hpar ha hc hok =>
      simp [attempt_commitsSent hcfg hp ha, perform_commitsSent hcfg hp.2 (by simp) hc]
    | again ha hok hb => simp [attempt_commitsSent hcfg hp ha, ih hps hb]
    | uncommitted hpar ha hc hok hb =>
      simp [attempt_commitsSent hcfg hp ha, perform_commitsSent hcfg hp.2 (by simp) hc, ih hps hb]

/-! ## The right to commit -/

end

/-- The commit that removes a user, together with what the proposal store holds. -/
def removal (u : User) (g : MlsGroup) (id : ℕ) (name : String) : Commit :=
  draft u.username id (g.proposals ++ [⟨id, u.username, .remove name⟩])

/-- A removal succeeds: the group is operational, the commit passes the checks of the group, and
    both the commit and the new group info are sent. -/
def Removable (env : Env) (id : ℕ) (u : User) (name : String) : Prop :=
  ∃ g, u.group = some g ∧ g.state = .operational ∧
    (removal u g id name).check g.members = .ok () ∧ u.username ∉ (removal u g id name).removes ∧
    env.delivers (.toGroup ⟨u.username, g.transcript, .commit (removal u g id name)⟩
      (g.members.filter (· ≠ u.username))) = true ∧
    env.delivers (.groupInfo (removal u g id name :: g.transcript)) = true

section

variable (hcfg : cfg.agent = .orchestrator seats)
include hcfg

/-- A commit without a Welcome succeeds if it and the new group info are sent. -/
lemma posted_succeeds_iff {g g' : MlsGroup} {m : GroupMessage} {act : Action} {r : Result}
    (h : u.postProcessCommit cfg env g m none act = .ok r) (hg : u.group = some g)
    (hmerge : g.mergePendingCommit u.username = .ok g') (hact : ∀ kind, act ≠ .propose kind) :
    r.error = none ↔ env.delivers (.toGroup m (g.members.filter (· ≠ u.username))) = true ∧
      env.delivers (.groupInfo g'.transcript) = true := by
  simp only [postProcessCommit, hcfg] at h
  split_ifs at h with hsent
  swap
  · obtain rfl := fails_eq_ok h
    exact iff_of_false (by simp) fun hboth => hsent hboth.1
  obtain ⟨r, hr, h⟩ := bind_inv h
  obtain rfl := pure_eq_ok.mp h
  have hsends : (∀ o ∈ entrySends cfg u ⟨m, none, ⟨act, g.epoch, g.members.length⟩⟩ g',
      env.delivers o = true) ↔ env.delivers (.groupInfo g'.transcript) = true := by
    simp [entrySends, welcomesOf, publication_of_ne g' hact]
  cases confirmCommit_outcome hr with
  | empty hslot => cases hslot
  | groupless hslot hg' => cases hg.symm.trans hg'
  | interrupted hslot hg' hmerge' hfail =>
    obtain rfl := Option.mem_unique hg hg'
    obtain rfl := Exec.unique hmerge hmerge'
    cases hslot
    exact iff_of_false (by simp) fun hboth => hfail (hsends.mpr hboth.2)
  | completed hslot hg' hmerge' hdone =>
    obtain rfl := Option.mem_unique hg hg'
    obtain rfl := Exec.unique hmerge hmerge'
    cases hslot
    exact iff_of_true rfl ⟨hsent, hsends.mp hdone⟩

/-- **When a removal succeeds**, in terms of the user before the call. -/
lemma remove_succeeds_iff {name : String} {r : Result}
    (h : u.remove cfg env id name = .ok r) : r.error = none ↔ Removable env id u name := by
  unfold remove at h
  cases hg : u.group with
  | none =>
    rw [hg] at h
    obtain rfl := fails_eq_ok h
    simp [Removable, hg]
  | some g =>
    have hmem (hcheck : (removal u g id name).check g.members = .ok ()) : name ∈ g.members :=
      (check_eq_ok.mp hcheck).2.2 (mem_removesOf.mpr ⟨_, mem_append_right _ (.head _), rfl⟩)
    simp only [hg] at h
    split_ifs at h with hname
    swap
    · obtain rfl := fails_eq_ok h
      refine iff_of_false (by simp) ?_
      rintro ⟨g', hg', -, hcheck, -⟩
      obtain rfl := Option.mem_unique hg hg'
      exact hname (hmem hcheck)
    split at h
    · next e hbuild =>
      obtain rfl := fails_eq_ok h
      refine iff_of_false (by simp) ?_
      rintro ⟨g', hg', hop, hcheck, hown, -⟩
      obtain rfl := Option.mem_unique hg hg'
      obtain ⟨_, hx⟩ : ∃ r, g.buildCommit u.username id [.remove name] = .ok r :=
        buildCommit_of_check hop hcheck hown
      cases hbuild.symm.trans hx
    next c staged hbuild =>
    obtain ⟨hop, rfl, hcheck, hown, rfl⟩ := buildCommit_eq_ok hbuild
    rw [posted_succeeds_iff hcfg h rfl (mergePendingCommit_staged hown) (by simp)]
    constructor
    · rintro ⟨hsent, hinfo⟩
      exact ⟨g, hg, hop, hcheck, hown, hsent, hinfo⟩
    · rintro ⟨g', hg', -, -, -, hsent, hinfo⟩
      obtain rfl := Option.mem_unique hg hg'
      exact ⟨hsent, hinfo⟩

lemma removeFromGroup_commits_iff (h : removeFromGroup cfg params p u = .ok a) :
    commits a.calls = 1 ↔ params.paradigm = .commit ∧
      ∃ name, u.candidateToRemove p = some name ∧ Removable p.env p.id u name := by
  rw [removeFromGroup_commits h]
  unfold removeFromGroup at h
  cases hname : u.candidateToRemove p with
  | none =>
    simp only [hname, pure_eq_ok] at h
    simp [← h]
  | some name =>
    simp only [hname, act] at h
    split at h
    · next hpar =>
      obtain ⟨r, hr, rfl⟩ := perform_eq_ok.mp h
      simp [hpar, ← remove_succeeds_iff hcfg hr]
    · next hpar => simp [hpar]

end

/-- **The right to commit.**  An iteration makes exactly one successful commit if and only if the
    group was not full, or the paradigm is `Commit`, there is a member to remove and its removal
    succeeds. -/
theorem iteration_commits_iff (hcfg : cfg.agent = .orchestrator seats) {turn : Turn}
    (h : iteration cfg params turn u = .ok a) :
    ∃ u1, fetched cfg params turn u = .ok u1 ∧
      (commits a.calls = 1 ↔
        ¬ Full params u1 ∨ (params.paradigm = .commit ∧
          ∃ name, u1.candidateToRemove turn.removal = some name ∧
            Removable turn.removal.env turn.removal.id u1 name)) ∧
      commits a.calls ≤ 1 ∧
      (turn.removal.Delivers → (∀ p ∈ turn.passes, p.Delivers) →
        commitsSent a.calls = commits a.calls) := by
  obtain ⟨u1, hu1, h⟩ := bind_inv h
  refine ⟨u1, hu1, ?_⟩
  split_ifs at h with hfull
  · refine ⟨?_, ?_, fun hp _ => removeFromGroup_commitsSent hcfg hp h⟩
    · rw [removeFromGroup_commits_iff hcfg h]
      simp [hfull]
    · rw [removeFromGroup_commits h]
      split_ifs <;> simp
  · have hone := loop_commits h
    exact ⟨iff_of_true hone (.inl hfull), hone.le, fun _ hps => loop_commitsSent hcfg hps h⟩

def fine (draw : Draw) (id : ℕ) : Pass :=
  ⟨draw, some ["B"], 0, id, Env.fine, id + 1, Env.fine⟩

def founder : User := (PubSub.founded.peers "A").user

/-- `A` in a group with `B`. -/
def pair : User :=
  { founder with group := some ⟨"A", [⟨0, "A", ["B"], [], []⟩], [], .operational⟩ }

/-- In a full group the founder finds nobody to remove, and the removal of `B` is only proposed. -/
theorem full_group_drops_right :
    (iteration PubSub.scripted ⟨.commit, 1, 1, false⟩ ⟨[], fine .remove 0, []⟩ founder).map
        (fun a => (a.calls.map (·.1), commitsSent a.calls)) = .ok ([], 0) ∧
      (iteration PubSub.scripted ⟨.propose, 2, 1, false⟩ ⟨[], fine .remove 1, []⟩ pair).map
        (fun a => (a.calls.map (·.1), commits a.calls, commitsSent a.calls)) =
          .ok ([.propose (.remove "B")], 0, 0) := by
  decide +kernel

/-- `A` finds nobody to remove, proposes to add `B` and commits to the proposal. -/
theorem iteration_commits_iff_founder :
    ∃ a, iteration PubSub.scripted ⟨.propose, 2, 1, false⟩
        ⟨[], fine .remove 0, [fine .remove 0, fine .invite 0]⟩ founder = .ok a ∧
      a.calls.map (·.1) = [.propose (.add "B"), .commitToProposals 1] ∧
      commits a.calls = 1 ∧ commitsSent a.calls = 1 := by
  set turn : Turn := ⟨[], fine .remove 0, [fine .remove 0, fine .invite 0]⟩ with hturn
  obtain ⟨a, ha, hcalls⟩ : ∃ a,
      iteration PubSub.scripted ⟨.propose, 2, 1, false⟩ turn founder = .ok a ∧
      a.calls.map (·.1) = [.propose (.add "B"), .commitToProposals 1] := ⟨_, rfl, rfl⟩
  obtain ⟨u1, hu1, hiff, -, hsent⟩ := iteration_commits_iff rfl ha
  have hone : commits a.calls = 1 := by
    cases hu1
    exact hiff.mpr (.inl (by decide))
  have hfine (draw : Draw) (id : ℕ) : (fine draw id).Delivers := ⟨fun _ => rfl, fun _ => rfl⟩
  refine ⟨a, ha, hcalls, hone, (hsent (hfine _ _) fun p hp => ?_).trans hone⟩
  simp only [hturn, mem_cons, not_mem_nil, or_false] at hp
  rcases hp with rfl | rfl <;> exact hfine _ _

end OrchestratedAgent

end EmulatedMls.Client
