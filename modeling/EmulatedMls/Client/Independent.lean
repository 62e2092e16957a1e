import EmulatedMls.Client.Confirmation
import EmulatedMls.Lib.Machine

/-!
# Runs of one independent user

An independent user sends its commit and confirms it when a message of its own comes back.  Two
state machines have to stay coupled: the slot of `pending_commits` and the pending commit of the
MLS group.

**Runs.**  `solo` is the machine of one user and one group.  The user creates or joins the group
and makes calls; the outside world returns its messages in any order and hands it arbitrary
messages of other members.  External joins are left out: a user that makes one has sent its
commit before it can commit anything else, and `IndependentAgent` has them.
-/

namespace EmulatedMls.Client

open User

/-- The outputs by which a commit of the user shows: a Welcome, a publication, a record. -/
def Output.isCommitEffect : Output → Bool
  | .welcome _ _ => true
  | .groupInfo _ => true
  | .record r => match r.action with
    | .commit _ | .update | .remove _ | .deepCommit => true
    | _ => false
  | _ => false

/-- The outputs that reach no other user. -/
def Output.isLocal : Output → Bool
  | .toGroup _ _ | .welcome _ _ | .groupInfo _ => false
  | _ => true

variable {g : MlsGroup} {w : WelcomeMessage}

namespace User

variable {cfg : Config} {env : Env} {u : User}

/-! ## The calls of an independent user -/

inductive ConfirmEffect (u : User) : Result → Prop where
  | empty (hslot : u.pendingCommit = none) : ConfirmEffect u ⟨u, [], none⟩
  | groupless {e : PendingCommit} (hslot : u.pendingCommit = some e) (hg : u.group = none) :
      ConfirmEffect u ⟨{ u with pendingCommit := none, group := none }, [], some .unknownGroup⟩
  | confirmed {e : PendingCommit} {g g' : MlsGroup} {r : Result}
      (hslot : u.pendingCommit = some e) (hg : u.group = some g)
      (hmerge : g.mergePendingCommit u.username = .ok g')
      (huser : r.user = { u with pendingCommit := none, group := some g' })
      (hout : ∀ o ∈ r.outputs,
        (∃ sw recipient, e.welcome = some sw ∧
          o = .welcome recipient ⟨u.username, sw.welcome, g'.transcript, sw.recipients, none⟩) ∨
        (o = .groupInfo g'.transcript ∧ ∀ kind, e.record.action ≠ .propose kind) ∨
        ∃ epoch numUsers, o = .record ⟨e.record.action, epoch, numUsers⟩) :
      ConfirmEffect u r

variable {r : Result} {m : GroupMessage} (hcfg : cfg.agent = .independent)

include hcfg

lemma confirmCommit_independent (h : confirmCommit cfg env u = .ok r) : ConfirmEffect u r := by
  cases confirmCommit_outcome h with
  | empty hslot => exact .empty hslot
  | groupless hslot hg => exact hg ▸ .groupless hslot hg
  | @interrupted e g g' hslot hg hmerge hfail =>
    refine .confirmed hslot hg hmerge rfl fun o ho => ?_
    obtain ⟨sw, recipient, active, hsw, hactive, rfl⟩ | hinfo :=
      mem_entrySends ((List.takeWhile_prefix _).subset ho)
    · exact .inl ⟨sw, recipient, hsw, by rw [hactive hcfg]⟩
    · exact .inr (.inl hinfo)
  | @completed e g g' hslot hg hmerge hsent u' a hframe haction =>
    refine .confirmed hslot hg hmerge (hframe.independent hcfg) fun o ho => ?_
    rcases List.mem_append.mp ho with ho | ho
    · obtain ⟨sw, recipient, active, hsw, hactive, rfl⟩ | hinfo := mem_entrySends ho
      · exact .inl ⟨sw, recipient, hsw, by rw [hactive hcfg]⟩
      · exact .inr (.inl hinfo)
    · refine .inr (.inr ⟨a.epoch, a.numUsers, ?_⟩)
      rw [List.mem_singleton.mp ho, ← haction]

lemma postProcessCommit_independent {w : Option StoredWelcome} {a : Action}
    (h : postProcessCommit cfg env u g m w a = .ok r) :
    (r = ⟨{ u with pendingCommit := some ⟨m, w, ⟨a, g.epoch, g.members.length⟩⟩ },
          [.toGroup m (g.members.filter (· ≠ u.username))], none⟩ ∧
        env.delivers (.toGroup m (g.members.filter (· ≠ u.username))) = true) ∨
      (r = ⟨u, [], some .send⟩ ∧
        env.delivers (.toGroup m (g.members.filter (· ≠ u.username))) = false) := by
  unfold postProcessCommit at h
  simp only [hcfg] at h
  split_ifs at h with hsent
  · exact .inl ⟨(Except.ok.inj h).symm, hsent⟩
  · exact .inr ⟨fails_eq_ok h, by simpa using hsent⟩

lemma processCommitMessage_independent {c : Commit}
    (h : processCommitMessage cfg env m g c u = .ok r) : (r.user = { u with group := none } ∨
        (u.username ∉ c.removes ∧
          r.user = { u with group := some (g.mergeStagedCommit u.username c) })) ∧
      ∀ o ∈ r.outputs, o.isLocal = true ∧ o.isCommitEffect = false := by
  obtain ⟨u', action, hnext, ⟨rfl, -⟩ | ⟨hown, -, rfl⟩⟩ :=
    processCommitMessage_cases h
  all_goals
    simp only [nextAction, hcfg, Except.ok.injEq, Prod.mk.injEq] at hnext
    obtain ⟨rfl, rfl⟩ := hnext
  · exact ⟨.inl rfl, by simp [leave, Output.isLocal, Output.isCommitEffect]⟩
  · refine ⟨.inr ⟨hown, ?_⟩, by simp [Output.isLocal, Output.isCommitEffect]⟩
    cases env.goesInactive <;> rfl

/-- **What a message of another member does for an independent user.** -/
lemma processProtocolMessage_independent (h : processProtocolMessage cfg env m u = .ok r) :
    (r.user.username = u.username ∧ r.user.pendingCommit = u.pendingCommit) ∧
      (∀ o ∈ r.outputs, o.isLocal = true ∧ o.isCommitEffect = false) ∧
      (r.user.group = u.group ∨
        (∃ g p, u.group = some g ∧ r.user.group = some (g.storePendingProposal p)) ∨
        ∃ g c, u.group = some g ∧ g.processMessage u.username m = .ok (.commit c) ∧
          (r.user.group = none ∨ (u.username ∉ c.removes ∧
            r.user.group = some (g.mergeStagedCommit u.username c)))) := by
  cases processProtocolMessage_cases h with
  | ignored active _ hrecords =>
    refine ⟨⟨rfl, rfl⟩, fun o ho => ?_, .inl rfl⟩
    obtain rfl := hrecords o ho
    exact ⟨rfl, rfl⟩
  | failed e => exact ⟨⟨rfl, rfl⟩, by simp, .inl rfl⟩
  | stored hg hm =>
    exact ⟨⟨rfl, rfl⟩, by simp [Output.isLocal, Output.isCommitEffect], .inr (.inl ⟨_, _, hg, rfl⟩)⟩
  | committed hg hm hr =>
    obtain ⟨huser | ⟨hown, huser⟩, hout⟩ := processCommitMessage_independent hcfg hr
    · exact ⟨by simp [huser], hout, .inr (.inr ⟨_, _, hg, hm, .inl (by simp [huser])⟩)⟩
    · exact ⟨by simp [huser], hout, .inr (.inr ⟨_, _, hg, hm, .inr ⟨hown, by simp [huser]⟩⟩)⟩

lemma processWelcome_independent (h : processWelcome cfg env w u = .ok r) :
    (r.user.username = u.username ∧ r.user.pendingCommit = u.pendingCommit) ∧
      (∀ o ∈ r.outputs, o.isLocal = true ∧ o.isCommitEffect = false) ∧
      (r.user.group = u.group ∨ ∃ c t, w.welcome.transcript = c :: t ∧ u.username ∈ c.adds ∧
        r.user.group = some ⟨w.welcome.creator, w.welcome.transcript, [], .operational⟩) := by
  simp only [processWelcome, hcfg] at h
  split at h
  · obtain rfl := fails_eq_ok h
    exact ⟨⟨rfl, rfl⟩, by simp, .inl rfl⟩
  · next g hjoin =>
    obtain ⟨c, t, ht, hadds, rfl⟩ := joinGroup_eq_some hjoin
    cases h
    exact ⟨⟨rfl, rfl⟩, by simp [Output.isLocal, Output.isCommitEffect],
      .inr ⟨c, t, ht, hadds, by rw [ht]⟩⟩

lemma createGroup_independent (h : createGroup cfg env u = .ok r) :
    (r.user.username = u.username ∧ r.user.pendingCommit = u.pendingCommit) ∧
      u.group = none ∧
      (r.user.group = none ∨ r.user.group = some (MlsGroup.create u.username)) := by
  unfold createGroup at h
  simp only [hcfg] at h
  split_ifs at h with hgroup herr
  all_goals
    have hnone : u.group = none := by simpa using hgroup
    cases h
  · exact ⟨by simp, hnone, .inl (by simpa using hnone)⟩
  · exact ⟨by simp [writeTimestamp], hnone, .inr rfl⟩

end User

/-! ## The machine of one user -/

/-- One independent user, its messages on their way and the histories of its group. -/
structure Solo where
  user : User
  unechoed : List GroupMessage
  epochs : List Transcript
  outputs : List Output

inductive Solo.Event where
  | create (env : Env)
  | call (env : Env) (id : ℕ) (k : Call)
  | echo (env : Env) (m : GroupMessage)
  | receive (env : Env) (m : GroupMessage)
  | welcome (env : Env) (w : WelcomeMessage)

/-- The author of a commit is the sender of the message. -/
def GroupMessage.authentic (m : GroupMessage) : Bool :=
  match m.content with
  | .commit c => c.author = m.sender
  | _ => true

/-- The newest commit of a Welcome is by its sender. -/
def WelcomeMessage.authentic (w : WelcomeMessage) : Bool :=
  match w.welcome.transcript with
  | c :: _ => c.author = w.sender
  | [] => true

namespace Solo

def history (u : User) : List Transcript := u.group.toList.map (·.transcript)

/-- The state after a call.  A panic ends the run. -/
def after (s : Solo) (unechoed : List Output → List GroupMessage) : Exec Result → Option Solo
  | .ok r => some ⟨r.user, unechoed r.outputs, s.epochs ++ history r.user, r.outputs⟩
  | .error _ => none

/-- One step.  Only the calls of the agent send messages to the group. -/
def step (cfg : Config) (s : Solo) : Event → Option Solo
  | .create env => s.after (fun _ => s.unechoed) (s.user.createGroup cfg env)
  | .call env id k => s.after (s.unechoed ++ sentBy ·) (s.user.call cfg env id k)
  | .echo env m =>
    if m ∈ s.unechoed ∧ m.sender = s.user.username then
      s.after (fun _ => s.unechoed.erase m) (s.user.processInMessage cfg env (.group m))
    else none
  | .receive env m =>
    if m.sender ≠ s.user.username ∧ m.authentic then
      s.after (fun _ => s.unechoed) (s.user.processInMessage cfg env (.group m))
    else none
  | .welcome env w =>
    if w.sender ≠ s.user.username ∧ w.authentic then
      s.after (fun _ => s.unechoed) (s.user.processInMessage cfg env (.welcome w))
    else none

end Solo

namespace Solo

/-- The part of the group that the coupling with the slot is about. -/
def view (u : User) : Option (Transcript × GroupState) :=
  u.group.map fun g => (g.transcript, g.state)

lemma view_of_group {u : User} (h : u.group = some g) : view u = some (g.transcript, g.state) := by
  simp [view, h]

/-- The ways in which a step can change the group, the slot and the messages on the way. -/
inductive Changes (s s' : Solo) : Event → Prop where
  | create {env : Env} (hview : view s.user = none)
      (hview' : view s'.user = none ∨ view s'.user = some ([], .operational))
      (hslot : s'.user.pendingCommit = s.user.pendingCommit)
      (hun : s'.unechoed = s.unechoed) : Changes s s' (.create env)
  | refused {env : Env} {id : ℕ} {k : Call} (hview : view s'.user = view s.user)
      (hslot : s'.user.pendingCommit = s.user.pendingCommit)
      (hun : s'.unechoed = s.unechoed) (hout : s'.outputs = []) : Changes s s' (.call env id k)
  | application {env : Env} {id : ℕ} {m : GroupMessage} {dest : List String}
      (hview : view s'.user = view s.user) (hfree : s.user.pendingCommit = none)
      (hslot : s'.user.pendingCommit = none) (hun : s'.unechoed = s.unechoed ++ [m])
      (hout : s'.outputs = [.toGroup m dest]) : Changes s s' (.call env id .sendApplicationMsg)
  | unsent {env : Env} {id : ℕ} {k : Call} {g g' : MlsGroup} {m : GroupMessage}
      {w : Option StoredWelcome} {a : Action} (hg : s.user.group = some g)
      (hprep : Prepares s.user.username id g k g' m w a) (hg' : s'.user.group = some g')
      (hslot : s'.user.pendingCommit = s.user.pendingCommit) (hun : s'.unechoed = s.unechoed)
      (hout : s'.outputs = []) : Changes s s' (.call env id k)
  | sent {env : Env} {id : ℕ} {k : Call} {g g' : MlsGroup} {m : GroupMessage}
      {w : Option StoredWelcome} {a : Action} {epoch numUsers : ℕ} {dest : List String}
      (hg : s.user.group = some g)
      (hprep : Prepares s.user.username id g k g' m w a) (hg' : s'.user.group = some g')
      (hslot : s'.user.pendingCommit = some ⟨m, w, ⟨a, epoch, numUsers⟩⟩)
      (hun : s'.unechoed = s.unechoed ++ [m]) (hout : s'.outputs = [.toGroup m dest]) :
      Changes s s' (.call env id k)
  | echo {env : Env} {m : GroupMessage} {err : Option ClientError} (hmem : m ∈ s.unechoed)
      (hun : s'.unechoed = s.unechoed.erase m)
      (heffect : ConfirmEffect s.user ⟨s'.user, s'.outputs, err⟩) :
      Changes s s' (.echo env m)
  | receive {env : Env} {m : GroupMessage} (hview : view s'.user = view s.user)
      (hslot : s'.user.pendingCommit = s.user.pendingCommit) (hun : s'.unechoed = s.unechoed)
      (hout : ∀ o ∈ s'.outputs, o.isCommitEffect = false) : Changes s s' (.receive env m)
  | merge {env : Env} {m : GroupMessage} {g : MlsGroup} {c : Commit}
      (hg : s.user.group = some g) (hm : m.content = .commit c) (hbase : m.base = g.transcript)
      (hauthor : c.author ≠ s.user.username)
      (hview : view s'.user = none ∨ view s'.user = some (c :: g.transcript, .operational))
      (hslot : s'.user.pendingCommit = s.user.pendingCommit) (hun : s'.unechoed = s.unechoed)
      (hout : ∀ o ∈ s'.outputs, o.isCommitEffect = false) : Changes s s' (.receive env m)
  | welcome {env : Env} {w : WelcomeMessage}
      (hview : view s'.user = view s.user ∨ ∃ c t, c.author ≠ s.user.username ∧
        view s'.user = some (c :: t, .operational))
      (hslot : s'.user.pendingCommit = s.user.pendingCommit) (hun : s'.unechoed = s.unechoed)
      (hout : ∀ o ∈ s'.outputs, o.isCommitEffect = false) : Changes s s' (.welcome env w)

variable {cfg : Config} {s s' : Solo} {e : Event}

lemma after_eq_some {x : Exec Result} {un : List Output → List GroupMessage}
    (h : s.after un x = some s') :
    ∃ r, x = .ok r ∧ s' = ⟨r.user, un r.outputs, s.epochs ++ history r.user, r.outputs⟩ := by
  cases x with
  | error f => simp [after] at h
  | ok r => exact ⟨r, rfl, by simpa [after] using h.symm⟩

variable {env : Env} (hcfg : cfg.agent = .independent)

include hcfg

lemma changes_of_call {id : ℕ} {k : Call}
    (h : step cfg s (.call env id k) = some s') : Changes s s' (.call env id k) := by
  simp only [step] at h
  obtain ⟨r, hr, rfl⟩ := after_eq_some h
  cases call_cases hr with
  | refused e => exact .refused rfl rfl (by simp [sentBy]) rfl
  | dropped hg hkept hbuild => exact .refused (by simp [view, hg]) rfl (by simp [sentBy]) rfl
  | application hg hslot hm hsent => exact .application rfl hslot hslot (by simp [sentBy]) rfl
  | posted hg hprep hpost =>
    obtain ⟨rfl, -⟩ | ⟨rfl, -⟩ := postProcessCommit_independent hcfg hpost
    · exact .sent hg hprep rfl rfl (by simp [sentBy]) rfl
    · exact .unsent hg hprep rfl rfl (by simp [sentBy]) rfl

lemma changes_of_receive {m : GroupMessage}
    (h : step cfg s (.receive env m) = some s') : Changes s s' (.receive env m) := by
  simp only [step] at h
  split_ifs at h with hsender
  obtain ⟨r, hr, rfl⟩ := after_eq_some h
  simp only [processInMessage, if_neg hsender.1] at hr
  obtain ⟨⟨hname, hslot⟩, hout, hgroup | ⟨g, p, hg, hgroup⟩ | ⟨g, c, hg, hm, hgroup⟩⟩ :=
    processProtocolMessage_independent hcfg hr
  · exact .receive (by simp [view, hgroup]) hslot rfl
      fun o ho => (hout o ho).2
  · exact .receive (by simp [view, hgroup, hg, MlsGroup.storePendingProposal]) hslot rfl
      fun o ho => (hout o ho).2
  · obtain ⟨hcontent, hbase, -⟩ := MlsGroup.processMessage_commit hm
    have hauthor : c.author = m.sender :=
      by simpa [GroupMessage.authentic, hcontent] using hsender.2
    refine .merge hg hcontent hbase (hauthor ▸ hsender.1) ?_ hslot rfl
      fun o ho => (hout o ho).2
    rcases hgroup with hgroup | ⟨hown, hgroup⟩
    · exact .inl (by simp [view, hgroup])
    · exact .inr (by simp [view, hgroup, MlsGroup.mergeStagedCommit, hown])

lemma changes_of_welcome (h : step cfg s (.welcome env w) = some s') :
    Changes s s' (.welcome env w) := by
  simp only [step] at h
  split_ifs at h with hsender
  obtain ⟨r, hr, rfl⟩ := after_eq_some h
  simp only [processInMessage, if_neg hsender.1] at hr
  obtain ⟨⟨-, hslot⟩, hout, hgroup | ⟨c, t, ht, -, hgroup⟩⟩ :=
    processWelcome_independent hcfg hr
  · exact .welcome (.inl (by simp [view, hgroup])) hslot rfl
      fun o ho => (hout o ho).2
  · have hauthor : c.author = w.sender := by simpa [WelcomeMessage.authentic, ht] using hsender.2
    exact .welcome (.inr ⟨c, t, hauthor ▸ hsender.1, by simp [view, hgroup, ht]⟩) hslot rfl
      fun o ho => (hout o ho).2

lemma step_changes (h : step cfg s e = some s') : Changes s s' e := by
  cases e with
  | create env =>
    simp only [step] at h
    obtain ⟨r, hr, rfl⟩ := after_eq_some h
    obtain ⟨⟨-, hslot⟩, hnone, hgroup⟩ := createGroup_independent hcfg hr
    refine .create (by simp [view, hnone]) ?_ hslot rfl
    rcases hgroup with hgroup | hgroup
    · exact .inl (by simp [view, hgroup])
    · exact .inr (by simp [view, hgroup, MlsGroup.create])
  | call env id k => exact changes_of_call hcfg h
  | echo env m =>
    simp only [step] at h
    split_ifs at h with hm
    obtain ⟨r, hr, rfl⟩ := after_eq_some h
    simp only [processInMessage, if_pos hm.2] at hr
    exact .echo hm.1 rfl (confirmCommit_independent hcfg hr)
  | receive env m => exact changes_of_receive hcfg h
  | welcome env w => exact changes_of_welcome hcfg h

end Solo

end EmulatedMls.Client
