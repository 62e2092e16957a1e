import EmulatedMls.Client.Agent
import EmulatedMls.Client.CallOutcome

/-!
# The independent agent and the group-info lock

When `group_info_mutex` is set, the delivery service hands out the group info of a group once, until
somebody posts it again.  The independent agent uses this as a lock: it commits only after a
successful `get_group_info`, posts the group info itself when the commit fails, and leaves it to
`confirm_commit` to post it when the commit comes back.

**Source.**  `emulated_client/src/client_agent/independent.rs`.

**Iterations.**  A `Round` fixes the draws of one iteration of `run` and every answer that it gets.
The agent gives up with a panic when it cannot post, so an iteration that returns has posted.
-/

namespace EmulatedMls.Client

open Exec List User

/-! ## The steps behind the lock -/

def PendingCommit.IsCommit (e : PendingCommit) : Prop := ∀ kind, e.record.action ≠ .propose kind

def User.HoldsCommit (u : User) : Prop := ∃ e, u.pendingCommit = some e ∧ e.IsCommit

namespace User

variable {cfg : Config} {env : Env} {id : ℕ} {u : User} {r : Result}

/-- The ways in which a commit on the history `base` can end. -/
inductive Committing (env : Env) (u : User) (base : Transcript) : Result → Prop where
  | sent {r : Result} {c : Commit} {dest : List String}
      (hsend : env.delivers (.toGroup ⟨u.username, base, .commit c⟩ dest) = true)
      (hout : sentBy r.outputs = [⟨u.username, base, .commit c⟩]) (herror : r.error = none)
      (hslot : r.user.HoldsCommit) : Committing env u base r
  | refused {r : Result} {c : Commit} {dest : List String}
      (hsend : env.delivers (.toGroup ⟨u.username, base, .commit c⟩ dest) = false)
      (hout : sentBy r.outputs = []) (herror : r.error = some .send)
      (hslot : r.user.pendingCommit = u.pendingCommit) : Committing env u base r
  | failed {r : Result} {e : ClientError} (he : e ≠ .send) (hout : sentBy r.outputs = [])
      (herror : r.error = some e) (hslot : r.user.pendingCommit = u.pendingCommit) :
      Committing env u base r

/-- The history that the user commits on. -/
def base (u : User) : Transcript :=
  match u.group with
  | none => []
  | some g => g.transcript

def Silent (r : Result) : Prop := ∀ t, .groupInfo t ∉ r.outputs

lemma call_committing (hcfg : cfg.agent = .independent) {k : Call} (hk : k.isCommit = true)
    (h : u.call cfg env id k = .ok r) :
    Committing env u u.base r ∧ Silent r ∧
      (r.error = none ∨ r.error = some .send → u.group.isSome = true) := by
  cases call_cases h with
  | refused e he =>
    have hne : e ≠ .send := by
      rintro rfl
      simp [he rfl, Call.isCommit] at hk
    exact ⟨.failed hne rfl rfl rfl, by simp [Silent], by simp [hne]⟩
  | dropped hg hkept hbuild =>
    exact ⟨.failed (by simp) rfl rfl rfl, by simp [Silent], by simp⟩
  | application hg hslot hm hsent => simp [Call.isCommit] at hk
  | @posted _ g g' m w a _ hg hprep hpost =>
    obtain ⟨-, hsender, hbase, -, ⟨c, hm, -, -, -, ha, -⟩ | ⟨p, -, -, -, -, -, kind, rfl⟩⟩ :=
      hprep.spec
    swap
    · simp [Call.isCommit] at hk
    have hmsg : m = ⟨u.username, u.base, .commit c⟩ := by
      simp [base, hg, ← hsender, ← hbase, ← hm]
    subst hmsg
    obtain ⟨rfl, hsent⟩ | ⟨rfl, hsent⟩ := postProcessCommit_independent hcfg hpost
    · exact ⟨.sent hsent rfl rfl ⟨_, rfl, ha⟩, by simp [Silent], by simp [hg]⟩
    · exact ⟨.refused hsent rfl rfl rfl, by simp [Silent], by simp [hg]⟩

/-- The commit of an external join, as it is sent to the members. -/
def joinRequest (creator : String) (info : Transcript) (id : ℕ) (u : User) : Output :=
  .toGroup ⟨u.username, info, .commit (u.externalCommit creator info id)⟩
    ((roster creator info).filter (· ≠ u.username))

/-- **What an external join can do.**  A refused commit leaves everything to the caller. -/
lemma externalJoin_committing (hcfg : cfg.agent = .independent) {creator : String}
    {info : Transcript} (h : u.externalJoin cfg env id creator info = .ok r) :
    Committing env u info r ∧ Silent r ∧ (∀ e, r.error = some e → e = .send) ∧
      (r.error = none ↔ env.delivers (u.joinRequest creator info id) = true) := by
  unfold externalJoin at h
  split_ifs at h with hpanic
  obtain ⟨r1, hr1, h⟩ := bind_inv h
  cases h
  obtain ⟨rfl, hsent⟩ | ⟨rfl, hsent⟩ := postProcessCommit_independent hcfg hr1
  · exact ⟨.sent hsent rfl rfl ⟨_, rfl, by simp [PendingCommit.IsCommit]⟩, by simp [Silent],
      by simp, iff_of_true rfl hsent⟩
  · exact ⟨.refused hsent rfl rfl rfl, by simp [Silent], by simp,
      iff_of_false (by simp) (Bool.eq_false_iff.mp hsent)⟩

end User

/-! ## Iterations -/

/-- What an iteration does at the delivery service: it is given the group info, or it sends. -/
inductive Deed where
  | granted
  | sent (o : Output)
  deriving DecidableEq, Repr

/-- The user in the course of an iteration, and what was done since the updates were fetched. -/
structure Progress where
  user : User
  deeds : List Deed
  deriving DecidableEq, Repr

/-- How the agent joins: it creates the group, or it joins by an external commit. -/
inductive Joining where
  | create (env : Env)
  | external (info : Option (String × Transcript)) (id : ℕ) (env : Env)

/-- The draws of one iteration and the answers to its requests. -/
structure Round where
  updates : List (Env × Incoming)
  authorised : Bool
  issues : Bool
  pass : Pass
  grants : Bool
  commits : Bool
  commitGrants : Bool
  message : Option (ℕ × Env)
  joining : Option Joining

namespace IndependentAgent

open User (Call Incoming)

open Solo (soloConfig joining)

variable (cfg : Config) (params : AgentParameters) (round : Round) (p : Progress)

def sends (r : Result) : Progress := ⟨r.user, p.deeds ++ r.outputs.map .sent⟩

/-- `publish_group_info(..).unwrap()`. -/
def publish (env : Env) (p : Progress) : Exec Progress := do
  let r ← p.user.publishGroupInfo env
  if r.error.isSome then .error .panic else pure (sends p r)

/-- A commit behind the lock: an error of the commit posts the group info again. -/
def locked (env : Env) (id : ℕ) (grants : Bool) (k : Call) (p : Progress) : Exec Progress :=
  if grants then do
    let r ← p.user.call cfg env id k
    let p := sends ⟨p.user, p.deeds ++ [.granted]⟩ r
    if r.error.isSome then publish env p else pure p
  else pure p

/-- The action as a commit behind the lock or as a proposal. -/
def act (commit : Call)
    (kind : ProposalKind) : Exec Progress :=
  match params.paradigm with
  | .commit => locked cfg round.pass.env round.pass.id round.grants commit p
  | .propose => do
    let r ← p.user.call cfg round.pass.env round.pass.id (.propose kind)
    pure (sends p r)

def inviteUser : Exec Progress :=
  match p.user.candidateToInvite round.pass with
  | none => pure p
  | some name => act cfg params round p (.invite name) (.add name)

def removeFromGroup : Exec Progress :=
  match p.user.candidateToRemove round.pass with
  | none => pure p
  | some name => act cfg params round p (.remove name) (.remove name)

def updateGroup : Exec Progress :=
  act cfg params round p .updateState .update

/-- The action on the group: a full group only loses members. -/
def attempt : Exec Progress :=
  if OrchestratedAgent.Full params p.user then removeFromGroup cfg params round p
  else match round.pass.draw with
    | .invite => inviteUser cfg params round p
    | .remove => removeFromGroup cfg params round p
    | .update => updateGroup cfg params round p

/-- The branch of `commit_to_proposals`. -/
def commitBranch : Exec Progress :=
  match p.user.pendingProposals with
  | none => .error .panic
  | some pending =>
    if pending ≤ params.proposalsPerCommit then pure p
    else locked cfg round.pass.commitEnv round.pass.commitId round.commitGrants
      (.commitToProposals params.proposalsPerCommit) p

/-- What comes behind the action: a commit to proposals or an application message. -/
def rest : Exec Progress :=
  if round.commits ∧ params.paradigm = .propose then commitBranch cfg params round p
  else match round.message with
    | none => pure p
    | some (id, env) => do
      let r ← p.user.call cfg env id .sendApplicationMsg
      pure (sends p r)

/-- The pass over a group that the user is in. -/
def groupPass : Exec Progress :=
  if ¬ round.authorised then pure p
  else if ¬ round.issues then rest cfg params round p
  else do
    let full := OrchestratedAgent.Full params p.user
    let p ← attempt cfg params round p
    if full ∨ params.paradigm ≠ .propose then pure p else rest cfg params round p

/-- The pass over a group that the user was not in.  Its errors are only logged. -/
def joinPass : Exec Progress :=
  match round.joining with
  | none => pure p
  | some (.create env) => do
    let r ← p.user.createGroup cfg env
    pure (sends p r)
  | some (.external none _ _) => pure p
  | some (.external (some (creator, info)) id env) => do
    let r ← p.user.externalJoin cfg env id creator info
    pure (sends ⟨p.user, p.deeds ++ [.granted]⟩ r)

/-- One iteration of `run`.  Which groups the user is in is looked up before the updates are
    fetched for the second pass, and after it for the first. -/
def iteration (u : User) : Exec Progress := do
  let u1 ← (if params.request then u.fetchUpdates cfg round.updates else pure u)
  let p ← (if u1.group.isSome then groupPass cfg params round ⟨u1, []⟩ else pure ⟨u1, []⟩)
  if u.group.isSome then pure p else joinPass cfg round p

/-- An iteration up to the pass over the groups that the user was not in. -/
def beforeJoin (u : User) : Exec Progress := do
  let u1 ← (if params.request then u.fetchUpdates cfg round.updates else pure u)
  if u1.group.isSome then groupPass cfg params round ⟨u1, []⟩ else pure ⟨u1, []⟩

/-! ## The lock during an iteration -/

/-- What a deed does to the debt: being given the group info makes it, posting it settles it. -/
def settle (owing : Bool) : Deed → Bool
  | .granted => true
  | .sent (.groupInfo _) => false
  | .sent _ => owing

/-- The group info was given out and has not been posted since. -/
def owes (deeds : List Deed) : Bool := deeds.foldl settle false

def Returned (p : Progress) : Prop := owes p.deeds = true → p.user.HoldsCommit

variable {cfg params round p} {p' : Progress} {env : Env} {id : ℕ} {r : Result} {u : User}

variable {os : List Output} {k : Call} {g : MlsGroup} {e : PendingCommit}

lemma foldl_settle_of_silent (h : ∀ t, .groupInfo t ∉ os) (owing : Bool) :
    (os.map Deed.sent).foldl settle owing = owing := by
  induction os with
  | nil => rfl
  | cons o os ih =>
    have htail : ∀ t, .groupInfo t ∉ os := fun t ht => h t (.tail _ ht)
    have hhead : settle owing (.sent o) = owing := by
      cases o with
      | groupInfo t => exact absurd mem_cons_self (h t)
      | _ => rfl
    rw [map_cons, foldl_cons, hhead]
    exact ih htail

lemma owes_sends_of_silent (h : Silent r) : owes (sends p r).deeds = owes p.deeds := by
  simp only [owes, sends, foldl_append]
  exact foldl_settle_of_silent h _

lemma publish_eq_ok (h : publish env p = .ok p') :
    ∃ g : MlsGroup, p' = sends p ⟨p.user, [.groupInfo g.transcript], none⟩ := by
  obtain ⟨r, hr, h⟩ := bind_inv h
  split_ifs at h with herror
  cases h
  unfold publishGroupInfo at hr
  cases hg : p.user.group with
  | none =>
    simp only [hg] at hr
    obtain rfl := fails_eq_ok hr
    simp at herror
  | some g =>
    simp only [hg, Except.ok.injEq] at hr
    subst hr
    by_cases hsent : env.delivers (.groupInfo g.transcript) = true
    · exact ⟨g, by simp [emit, hsent]⟩
    · simp [emit, hsent] at herror

section

variable (hcfg : cfg.agent = .independent)

include hcfg

/-- **A commit behind the lock** ends with the commit pending or with the group info posted. -/
lemma locked_returned {grants : Bool} (hk : k.isCommit = true)
    (hclear : owes p.deeds = false) (h : locked cfg env id grants k p = .ok p') : Returned p' := by
  unfold locked at h
  split_ifs at h with hgrants
  swap
  · cases h
    simp [Returned, hclear]
  obtain ⟨r, hr, h⟩ := bind_inv h
  obtain ⟨hcommit, -⟩ := call_committing hcfg hk hr
  split_ifs at h with herror
  · obtain ⟨g, rfl⟩ := publish_eq_ok h
    simp [Returned, sends, owes, settle]
  · cases h
    intro _
    cases hcommit with
    | sent hsend hout herror' hslot => exact hslot
    | refused hsend hout herror' hslot | failed he hout herror' hslot => simp [herror'] at herror

lemma call_silent (h : u.call cfg env id k = .ok r) : Silent r := by
  cases call_cases h with
  | refused e he | dropped hg hkept hbuild | application hg hslot hm hsent => simp [Silent]
  | posted hg hprep hpost =>
    obtain ⟨rfl, -⟩ | ⟨rfl, -⟩ := postProcessCommit_independent hcfg hpost <;>
      simp [Silent]

omit hcfg in
lemma returned_of_clear (h : owes p.deeds = false) : Returned p := by
  simp [Returned, h]

lemma act_returned {kind : ProposalKind} (hk : k.isCommit = true) (hclear : owes p.deeds = false)
    (h : act cfg params round p k kind = .ok p') :
    Returned p' ∧ (params.paradigm = .propose → owes p'.deeds = false) := by
  unfold act at h
  split at h
  · next hpar => exact ⟨locked_returned hcfg hk hclear h, by simp [hpar]⟩
  · obtain ⟨r, hr, h⟩ := bind_inv h
    cases h
    have hclear' := (owes_sends_of_silent (call_silent hcfg hr)).trans hclear
    exact ⟨returned_of_clear hclear', fun _ => hclear'⟩

section

variable (hclear : owes p.deeds = false)
include hclear

lemma removeFromGroup_returned (h : removeFromGroup cfg params round p = .ok p') :
    Returned p' ∧ (params.paradigm = .propose → owes p'.deeds = false) := by
  unfold removeFromGroup at h
  split at h
  · cases h
    exact ⟨returned_of_clear hclear, fun _ => hclear⟩
  · exact act_returned hcfg rfl hclear h

lemma attempt_returned (h : attempt cfg params round p = .ok p') :
    Returned p' ∧ (params.paradigm = .propose → owes p'.deeds = false) := by
  unfold attempt at h
  split_ifs at h
  · exact removeFromGroup_returned hcfg hclear h
  split at h
  · unfold inviteUser at h
    split at h
    · cases h
      exact ⟨returned_of_clear hclear, fun _ => hclear⟩
    · exact act_returned hcfg rfl hclear h
  · exact removeFromGroup_returned hcfg hclear h
  · exact act_returned hcfg rfl hclear h

lemma rest_returned (h : rest cfg params round p = .ok p') : Returned p' := by
  unfold rest at h
  split_ifs at h
  · unfold commitBranch at h
    split at h
    · cases h
    · split_ifs at h
      · cases h
        exact returned_of_clear hclear
      · exact locked_returned hcfg rfl hclear h
  · split at h
    · cases h
      exact returned_of_clear hclear
    · obtain ⟨r, hr, h⟩ := bind_inv h
      cases h
      exact returned_of_clear ((owes_sends_of_silent (call_silent hcfg hr)).trans hclear)

/-- **The pass over a group of the user gives the lock back.** -/
lemma groupPass_returned (h : groupPass cfg params round p = .ok p') : Returned p' := by
  unfold groupPass at h
  by_cases hauth : round.authorised = true
  swap
  · rw [if_pos hauth] at h
    cases h
    exact returned_of_clear hclear
  rw [if_neg (not_not.mpr hauth)] at h
  by_cases hissues : round.issues = true
  swap
  · rw [if_pos hissues] at h
    exact rest_returned hcfg hclear h
  · rw [if_neg (not_not.mpr hissues)] at h
    obtain ⟨p1, hp1, h⟩ := bind_inv h
    obtain ⟨hreturned, hpropose⟩ := attempt_returned hcfg hclear hp1
    split_ifs at h with hends
    · cases h
      exact hreturned
    · exact rest_returned hcfg (hpropose (by tauto)) h

end

/-- If the agent is given the group info for an external join, the commit of the join is accepted,
    or the user has another commit pending. -/
def JoinSettled (round : Round) (p : Progress) : Prop :=
  ∀ creator info id env, round.joining = some (.external (some (creator, info)) id env) →
    env.delivers (p.user.joinRequest creator info id) = true ∨ p.user.HoldsCommit

lemma createGroup_returned
    (hr : p.user.createGroup cfg env = .ok r) (hp : Returned p) : Returned (sends p r) := by
  obtain ⟨⟨-, hslot⟩, -⟩ := createGroup_independent hcfg hr
  have hsettle : ∀ (os : List Output) (owing : Bool),
      (os.map Deed.sent).foldl settle owing = true → owing = true := by
    intro os
    induction os with
    | nil => exact fun _ h => h
    | cons o os ih =>
      intro owing h
      have htrue := ih _ h
      cases o <;> first | exact htrue | cases htrue
  intro howes
  simp only [owes, sends, foldl_append] at howes
  obtain ⟨e, he, hcommit⟩ := hp (hsettle _ _ howes)
  exact ⟨e, hslot.trans he, hcommit⟩

/-- **When the pass over other groups gives the lock back.** -/
lemma joinPass_returned_iff (hp : Returned p) (h : joinPass cfg round p = .ok p') :
    Returned p' ↔ JoinSettled round p := by
  unfold joinPass at h
  split at h
  · next hjoining =>
    cases h
    exact iff_of_true hp (by simp [JoinSettled, hjoining])
  · next hjoining =>
    obtain ⟨r, hr, h⟩ := bind_inv h
    cases h
    exact iff_of_true (createGroup_returned hcfg hr hp) (by simp [JoinSettled, hjoining])
  · next hjoining =>
    cases h
    exact iff_of_true hp (by simp [JoinSettled, hjoining])
  · next creator info id env hjoining =>
    obtain ⟨r, hr, h⟩ := bind_inv h
    cases h
    obtain ⟨hcommit, hsilent, herror, haccepted⟩ := externalJoin_committing hcfg hr
    have howes : owes (sends ⟨p.user, p.deeds ++ [.granted]⟩ r).deeds = true := by
      rw [owes_sends_of_silent hsilent]
      simp [owes, settle]
    have hsettled : JoinSettled round p ↔ r.error = none ∨ p.user.HoldsCommit := by
      rw [haccepted]
      refine ⟨fun hall => hall _ _ _ _ hjoining, ?_⟩
      rintro hjoin _ _ _ _ hjoining'
      cases hjoining.symm.trans hjoining'
      exact hjoin
    rw [Returned, hsettled]
    simp only [howes, forall_const]
    cases hcommit with
    | sent hsend hout hnone hslot => exact iff_of_true hslot (.inl hnone)
    | refused hsend hout hsome hslot => simp [HoldsCommit, sends, hslot, hsome]
    | failed he hout hsome => exact absurd (herror _ hsome) he

/-- **When an iteration gives the lock back.**  Only the external join can lose it. -/
lemma iteration_returned_iff (h : iteration cfg params round u = .ok p) :
    Returned p ↔ (u.group = none → ∀ p1, beforeJoin cfg params round u = .ok p1 →
      JoinSettled round p1) := by
  obtain ⟨u1, hu1, h⟩ := bind_inv h
  obtain ⟨p1, hp1, h⟩ := bind_inv h
  have hbefore : beforeJoin cfg params round u = .ok p1 := bind_ok hu1 hp1
  have hreturned : Returned p1 := by
    split_ifs at hp1
    · exact groupPass_returned hcfg rfl hp1
    · cases hp1
      exact returned_of_clear rfl
  split_ifs at h with hgroup
  · cases h
    exact iff_of_true hreturned fun hnone => by simp [hnone] at hgroup
  · rw [joinPass_returned_iff hcfg hreturned h, hbefore]
    simp [Option.not_isSome_iff_eq_none.mp hgroup]

end

/-! ## The lock in a confirmation -/

def Posts (x : Exec Result) : Prop := ∃ r t, x = .ok r ∧ .groupInfo t ∈ r.outputs

/-- The commit can be merged, and the Welcomes and the group info are accepted. -/
def CanPost (env : Env) (u : User) (e : PendingCommit) : Prop :=
  ∃ g g', u.group = some g ∧ g.mergePendingCommit u.username = .ok g' ∧
    (∀ o ∈ welcomesOf u g' none e.welcome, env.delivers o = true) ∧
    env.delivers (.groupInfo g'.transcript) = true

lemma foldl_emit_error_iff (hr : r.error = none) :
    (os.foldl (emit env) r).error = none ↔ ∀ o ∈ os, env.delivers o = true := by
  rw [foldl_emit_takeWhile os r hr]
  by_cases hall : ∀ o ∈ os, env.delivers o = true <;> simp [hall]

lemma concludeCommit_posts_iff (hcfg : cfg.agent = .independent) (hr : r.error = none)
    (hsilent : Silent r) :
    Posts (concludeCommit cfg env g e r) ↔
      env.delivers (.groupInfo g.transcript) = true := by
  unfold concludeCommit
  by_cases hsend : env.delivers (.groupInfo g.transcript) = true
  · simp [Posts, emit, hr, hsend, hcfg, writeTimestamp]
  · simp only [emit, hr, hsend, Option.isSome_none, Bool.false_eq_true, if_false,
      Option.isSome_some, if_true, iff_false]
    rintro ⟨r', t, hr', ht⟩
    cases hr'
    exact hsilent t ht

/-- The Welcomes of a pending commit, as far as they are sent. -/
def welcomed (env : Env) (u : User) (g : MlsGroup) (e : PendingCommit) : Result :=
  (welcomesOf u g none e.welcome).foldl (emit env)
    ⟨{ u with pendingCommit := none, group := some g }, [], none⟩

lemma welcomed_silent : Silent (welcomed env u g e) := by
  intro t ht
  obtain ⟨-, hsent⟩ := foldl_emit env (welcomesOf u g none e.welcome)
    ⟨{ u with pendingCommit := none, group := some g }, [], none⟩
  obtain ⟨sw, recipient, -, -, heq⟩ :=
    mem_welcomesOf ((hsent _ ht).resolve_left not_mem_nil)
  cases heq

section

variable (hcfg : cfg.agent = .independent) (hslot : u.pendingCommit = some e) (hcommit : e.IsCommit)
include hcfg hslot hcommit

lemma confirmCommit_eq {g' : MlsGroup} (hg : u.group = some g)
    (hmerge : g.mergePendingCommit u.username = .ok g') :
    u.confirmCommit cfg env =
      if (welcomed env u g' e).error.isSome then .ok (welcomed env u g' e)
      else concludeCommit cfg env g' e (welcomed env u g' e) := by
  obtain ⟨m, w, ⟨action, epoch, numUsers⟩⟩ := e
  simp only [confirmCommit, hslot, hg, hmerge, activeMembers_independent hcfg]
  cases action with
  | propose kind => exact absurd rfl (hcommit kind)
  | _ => rfl

/-- **When a confirmation posts the group info.** -/
lemma confirmCommit_posts_iff : Posts (u.confirmCommit cfg env) ↔ CanPost env u e := by
  cases hg : u.group with
  | none => simp [confirmCommit, hslot, Posts, CanPost, hg, fails]
  | some g =>
    cases hmerge : g.mergePendingCommit u.username with
    | error err => simp [confirmCommit, hslot, Posts, CanPost, hg, hmerge]
    | ok g' =>
      have hcan : CanPost env u e ↔ (welcomed env u g' e).error = none ∧
          env.delivers (.groupInfo g'.transcript) = true := by
        simp [CanPost, hg, hmerge, welcomed, foldl_emit_error_iff]
      rw [confirmCommit_eq hcfg hslot hcommit hg hmerge, hcan]
      cases herror : (welcomed env u g' e).error with
      | none =>
        simp only [Option.isSome_none, Bool.false_eq_true, if_false, true_and]
        exact concludeCommit_posts_iff hcfg herror welcomed_silent
      | some err =>
        simp only [Option.isSome_some, if_true, reduceCtorEq, false_and, iff_false]
        rintro ⟨r', t, hr', ht⟩
        cases hr'
        exact welcomed_silent t ht

end

/-- **The lock.**  An iteration ends with the group info posted again or with a commit pending,
    unless it reaches an external join that is refused.  The confirmation of the commit posts the
    group info exactly if the user has the group and nothing is refused. -/
theorem lock_given_back (hcfg : cfg.agent = .independent) :
    (∀ params round u p, iteration cfg params round u = .ok p →
        (Returned p ↔ (u.group = none → ∀ p1, beforeJoin cfg params round u = .ok p1 →
          JoinSettled round p1))) ∧
      ∀ env u e, u.pendingCommit = some e → e.IsCommit →
        (Posts (u.confirmCommit cfg env) ↔ CanPost env u e) :=
  ⟨fun _ _ _ _ h => iteration_returned_iff hcfg h,
    fun _ _ _ hslot hcommit => confirmCommit_posts_iff hcfg hslot hcommit⟩

def refusing : Env := { Env.fine with delivers := fun | .toGroup _ _ => false | _ => true }

def unwelcoming : Env := { Env.fine with delivers := fun | .welcome _ _ => false | _ => true }

def updating : Round where
  updates := []
  authorised := true
  issues := true
  pass := ⟨.update, some [], 0, 1, refusing, 2, refusing⟩
  grants := true
  commits := false
  commitGrants := false
  message := none
  joining := none

/-- `A` has invited `B` and waits for the commit to come back. -/
def inviting : User where
  username := "A"
  group := some ⟨"A", [joining], [], .operational⟩
  pendingCommit := some ⟨⟨"A", [], .commit joining⟩, some ⟨⟨"A", [joining]⟩, ["B"]⟩,
    ⟨.deepCommit, 1, 2⟩⟩
  orchestrator := none
  active := some (true, 0)
  agentQueue := 0

/-- The lock is lost when an external join or a Welcome is refused, and when the user has left the
    group before its commit comes back. -/
theorem lock_lost :
    (iteration soloConfig ⟨.commit, 0, 1, false⟩
        { updating with joining := some (.external (some ("A", [joining])) 1 refusing) }
        (new "C")).map (fun p => (p.deeds, p.user.pendingCommit)) =
      .ok ([.granted, .sent .subscribe], none) ∧
    (inviting.confirmCommit soloConfig unwelcoming).map
        (fun r => (r.outputs, r.user.pendingCommit)) = .ok ([], none) ∧
    (confirmCommit soloConfig Env.fine { inviting with group := none }).map
        (fun r => (r.outputs, r.user.pendingCommit)) = .ok ([], none) := by
  decide +kernel

/-- A refused update posts the group info again, and the confirmation of `A` posts it. -/
theorem lock_given_back_refused :
    (∃ p, iteration soloConfig ⟨.commit, 0, 1, false⟩ updating
        { inviting with pendingCommit := none } = .ok p ∧
      p.deeds = [.granted, .sent (.groupInfo [joining])] ∧ Returned p) ∧
    Posts (inviting.confirmCommit soloConfig Env.fine) := by
  obtain ⟨hiteration, hconfirm⟩ := lock_given_back (show soloConfig.agent = .independent from rfl)
  obtain ⟨p, hp, hdeeds⟩ : ∃ p, iteration soloConfig ⟨.commit, 0, 1, false⟩ updating
      { inviting with pendingCommit := none } = .ok p ∧
        p.deeds = [.granted, .sent (.groupInfo [joining])] := ⟨_, rfl, rfl⟩
  refine ⟨⟨p, hp, hdeeds, (hiteration _ _ _ _ hp).mpr ?_⟩, ?_⟩
  · rintro ⟨⟩
  · refine (hconfirm _ _ _ rfl (by simp [PendingCommit.IsCommit])).mpr ?_
    exact ⟨_, _, rfl, rfl, fun _ _ => rfl, rfl⟩

end IndependentAgent

end EmulatedMls.Client
