import EmulatedMls.Client.IndependentAgent
import EmulatedMls.Client.RequestNet

/-!
# Independent users behind the group-info lock

Any number of independent users share one group over the request delivery service, under the commit
paradigm and with `group_info_mutex` set.  An iteration of a user fetches and handles its messages,
asks for the group info and commits if it gets it.  The group info is posted again when the commit
comes back to its author.

**Source.**  `emulated_client/src/client_agent/independent.rs`, `get_group_info` and
`post_group_info` of `delivery-service/ds/src/main.rs`.

**Steps.**  The requests of different users interleave, so asking for the group info (`acquire`) and
the commit behind it (`proceed`) are two steps; a user that has the group info does nothing in
between.  The commit is the branch of the agent, with its error path.

**What the lock guards.**  It admits one committer at a time, but says nothing about how far the
committer has got: it asks after it has fetched its messages.
-/

namespace EmulatedMls.Client

open List Option User

/-- What a user asks for the group info for. -/
inductive Purpose where
  | commit (k : Call)
  | join

/-- The purposes of an agent under the commit paradigm. -/
def Purpose.isAllowed : Purpose → Bool
  | .commit (.invite _) | .commit (.remove _) | .commit .updateState | .join => true
  | .commit _ => false

/-- A user that has been given the group info: what for, and the history it belongs to. -/
structure Grant where
  purpose : Purpose
  info : Transcript

/-- The history that the commit of the user will be based on. -/
def Grant.base (grant : Grant) (u : User) : Transcript :=
  match grant.purpose with
  | .commit _ => u.base
  | .join => grant.info

/-- The call behind the lock. -/
def Grant.attempt (cfg : Config) (creator : String) (env : Env) (id : ℕ) (u : User)
    (grant : Grant) : Exec Result :=
  match grant.purpose with
  | .commit k => u.call cfg env id k
  | .join => u.externalJoin cfg env id creator grant.info

/-- The branch of the agent behind the lock. -/
def Grant.perform (cfg : Config) (creator : String) (env : Env) (id : ℕ) (u : User)
    (grant : Grant) : Exec Progress :=
  match grant.purpose with
  | .commit k => IndependentAgent.locked cfg env id true k ⟨u, []⟩
  | .join => do
    let r ← u.externalJoin cfg env id creator grant.info
    pure (IndependentAgent.sends ⟨u, [.granted]⟩ r)

/-- The epoch of the commit that the call has sent, whether the service accepted it or not. -/
def Grant.sentEpoch (cfg : Config) (creator : String) (env : Env) (id : ℕ) (u : User)
    (grant : Grant) : Option ℕ :=
  match grant.attempt cfg creator env id u with
  | .ok r => if r.error = none ∨ r.error = some .send then some (grant.base u).length else none
  | .error _ => none

def Progress.outputs (p : Progress) : List Output :=
  p.deeds.filterMap fun
    | .sent o => some o
    | .granted => none

namespace Net

/-- The message that the user handles next. -/
def incoming (net : Net) (name : String) : Option Incoming :=
  let n := net.nodes name
  match n.welcomes with
  | w :: _ => some (.welcome w)
  | [] => (net.server.log[n.pos]?).bind fun a =>
    if name ∈ a.recipients ∨ a.message.sender = name then some (.group a.message) else none

/-- What the user sends when it handles that message. -/
def emitted (cfg : Config) (net : Net) (name : String) (env : Env) : List Output :=
  match net.incoming name with
  | none => []
  | some m =>
    match (net.nodes name).user.processInMessage cfg env m with
    | .ok r => r.outputs
    | .error _ => []

end Net

/-- The users, the service and the group info at the service, which is `none` while it is given out;
    the users that have it and have not yet committed; and, to speak about them, the commits that
    were sent, with their authors and epochs. -/
structure Locked where
  net : Net
  info : Option Transcript
  held : String → Option Grant
  sends : List (String × ℕ)

namespace Locked

inductive Event where
  | recv (name : String)
  | handle (name : String) (env : Env)
  | say (name : String) (env : Env) (id : ℕ)
  | acquire (name : String) (purpose : Purpose)
  | proceed (name : String) (env : Env) (id : ℕ)

/-- `post_group_info`. -/
def post (info : Option Transcript) : Output → Option Transcript
  | .groupInfo t => some t
  | _ => info

/-- The branch behind the lock has ended; a panic stops the user. -/
def performed (s : Locked) (name : String) : Exec Progress → Locked
  | .ok p => { s with
      net := ⟨Function.update s.net.nodes name { s.net.nodes name with user := p.user },
        p.outputs.foldl Server.deliver s.net.server⟩
      info := p.outputs.foldl post s.info }
  | .error _ => { s with net := s.net.setNode name { s.net.nodes name with alive := false } }

/-- `get_group_info`: the group info is given out. -/
def give (s : Locked) (name : String) (grant : Grant) : Locked :=
  { s with info := none, held := Function.update s.held name (some grant) }

/-- One step.  A group info that is given out cannot be acquired. -/
def step (cfg : Config) (creator : String) (s : Locked) : Event → Option Locked
  | .recv name =>
    if (s.held name).isNone then
      (Net.step cfg s.net (.recv name)).map fun net => { s with net := net }
    else none
  | .handle name env =>
    if (s.held name).isNone then
      (Net.step cfg s.net (.handle name env)).map fun net =>
        { s with net := net, info := (s.net.emitted cfg name env).foldl post s.info }
    else none
  | .say name env id =>
    if (s.held name).isNone then
      (Net.step cfg s.net (.act name env id .sendApplicationMsg)).map fun net =>
        { s with net := net }
    else none
  | .acquire name purpose =>
    if (s.net.nodes name).alive ∧ (s.net.nodes name).Idle ∧ (s.held name).isNone ∧
        purpose.isAllowed then
      s.info.map fun t => s.give name ⟨purpose, t⟩
    else none
  | .proceed name env id =>
    (s.held name).map fun grant =>
      let env := Net.answer s.net.server env
      let u := (s.net.nodes name).user
      { s with
        held := Function.update s.held name none
        sends := s.sends ++
          (grant.sentEpoch cfg creator env id u).toList.map (Prod.mk name) }.performed name
        (grant.perform cfg creator env id u)

end Locked

/-- The runs of independent users behind the lock, in a group that `creator` has created. -/
def lockedNet (cfg : Config) (creator : String) : Machine Locked Locked.Event where
  init s := (requestNet cfg creator).init s.net ∧ s.info = some [] ∧ (∀ x, s.held x = none) ∧
    s.sends = []
  step := Locked.step cfg creator

/-! ## What a step does -/

def commitCount (log : List Accepted) : ℕ := log.countP (·.message.isCommit)

namespace Server

variable {os : List Output}

lemma foldl_deliver_quiet (h : sentBy os = []) (srv : Server) :
    (os.foldl deliver srv).log = srv.log ∧ (os.foldl deliver srv).epoch = srv.epoch := by
  induction os generalizing srv with
  | nil => exact ⟨rfl, rfl⟩
  | cons o os ih =>
    cases o with
    | toGroup m dest => cases h
    | welcome recipient w => exact ih h (srv.sendWelcome recipient w)
    | _ => exact ih h srv

lemma foldl_deliver_one {m : GroupMessage} (h : sentBy os = [m]) (srv : Server)
    (haccept : srv.accepts m = true) :
    ∃ dest, (os.foldl deliver srv).log = srv.log ++ [⟨m, dest⟩] ∧
      (os.foldl deliver srv).epoch = if m.isHandshake then some m.epoch else srv.epoch := by
  induction os generalizing srv with
  | nil => cases h
  | cons o os ih =>
    cases o with
    | toGroup m' dest =>
      obtain ⟨rfl, hrest⟩ := List.cons.inj h
      obtain ⟨hlog, hepoch⟩ := foldl_deliver_quiet hrest (srv.msgSend m' dest)
      refine ⟨dest, hlog.trans ?_, hepoch.trans ?_⟩ <;> simp [msgSend, haccept]
    | welcome recipient w => exact ih h (srv.sendWelcome recipient w) haccept
    | _ => exact ih h srv haccept

end Server

namespace Locked

variable {cfg : Config} {creator : String} {s s' : Locked} {name : String} {env : Env} {id : ℕ}

lemma foldl_post_of_silent {os : List Output} (h : ∀ t, .groupInfo t ∉ os)
    (info : Option Transcript) : os.foldl post info = info := by
  induction os with
  | nil => rfl
  | cons o os ih =>
    have htail : ∀ t, .groupInfo t ∉ os := fun t ht => h t (.tail _ ht)
    cases o with
    | groupInfo t => exact absurd mem_cons_self (h t)
    | _ => exact ih htail

/-- The message is not for the user, or it stops the user, or it is processed. -/
inductive Handled (cfg : Config) (net : Net) (name : String) (env : Env) :
    Net → List Output → Prop where
  | skipped {n : Node} (huser : n.user = (net.nodes name).user)
      (halive : n.alive = (net.nodes name).alive) :
      Handled cfg net name env (net.setNode name n) []
  | stopped {n : Node} (halive : n.alive = false) :
      Handled cfg net name env (net.setNode name n) []
  | processed {n : Node} {m : Incoming} {r : Result}
      (hr : (net.nodes name).user.processInMessage cfg env m = .ok r)
      (huser : n.user = r.user) :
      Handled cfg net name env
        ⟨Function.update net.nodes name n, r.outputs.foldl Server.deliver net.server⟩ r.outputs

lemma handled_of_step {net net' : Net} (h : Net.step cfg net (.handle name env) = some net') :
    (net.nodes name).alive = true ∧
      Handled cfg net name env net' (net.emitted cfg name env) := by
  simp only [Net.step] at h
  by_cases halive : (net.nodes name).alive = true
  swap
  · simp [halive] at h
  refine ⟨halive, ?_⟩
  rw [if_pos halive] at h
  -- a message that is processed, with the place of the user after it
  have hdone : ∀ (n : Node) (m : Incoming), net.incoming name = some m →
      net.handled name n ((net.nodes name).user.processInMessage cfg env m) = net' →
      Handled cfg net name env net' (net.emitted cfg name env) := by
    rintro n m hm rfl
    unfold Net.emitted
    simp only [hm]
    cases hr : (net.nodes name).user.processInMessage cfg env m with
    | error f => exact .stopped rfl
    | ok r => exact .processed hr rfl
  cases hw : (net.nodes name).welcomes with
  | cons w ws =>
    simp only [hw, some.injEq] at h
    exact hdone _ _ (by simp [Net.incoming, hw]) h
  | nil =>
    simp only [hw] at h
    split_ifs at h with hpos
    cases ha : net.server.log[(net.nodes name).pos]? with
    | none => simp [ha] at h
    | some a =>
      simp only [ha] at h
      split_ifs at h with haddr
      · exact hdone _ _ (by simp [Net.incoming, hw, ha, haddr]) (some.inj h)
      · cases h
        have hnone : net.incoming name = none := by simp [Net.incoming, hw, ha, haddr]
        rw [Net.emitted, hnone]
        exact .skipped rfl rfl

variable {u : User}

/-- **What handling a message does to the slot**: it leaves it alone or empties it. -/
lemma processInMessage_slot (hcfg : cfg.agent = .independent) {m : Incoming} {r : Result}
    (h : u.processInMessage cfg env m = .ok r) :
    sentBy r.outputs = [] ∧
      ((r.user.pendingCommit = u.pendingCommit ∧ Silent r) ∨
        (u.pendingCommit.isSome = true ∧ r.user.pendingCommit = none)) := by
  -- what stays with the user is neither sent nor posted
  have hlocal : ∀ os : List Output, (∀ o ∈ os, o.isLocal = true ∧ o.isCommitEffect = false) →
      sentBy os = [] ∧ ∀ t, .groupInfo t ∉ os := by
    intro os hos
    refine ⟨filterMap_eq_nil_iff.mpr fun o ho => ?_, fun t ht => ?_⟩
    · have := (hos o ho).1
      cases o <;> simp_all [Output.isLocal]
    · simpa [Output.isLocal] using (hos _ ht).1
  cases m with
  | welcome w =>
    simp only [User.processInMessage] at h
    split_ifs at h
    obtain ⟨⟨-, hslot⟩, hout, -⟩ := processWelcome_independent hcfg h
    exact ⟨(hlocal _ hout).1, .inl ⟨hslot, (hlocal _ hout).2⟩⟩
  | group m =>
    simp only [User.processInMessage] at h
    split_ifs at h
    · cases confirmCommit_independent hcfg h with
      | empty hslot => exact ⟨rfl, .inl ⟨rfl, by simp [Silent]⟩⟩
      | groupless hslot hg => exact ⟨rfl, .inr ⟨by simp [hslot], rfl⟩⟩
      | confirmed hslot hg hmerge huser hout =>
        refine ⟨filterMap_eq_nil_iff.mpr fun o ho => ?_, .inr ⟨by simp [hslot], by simp [huser]⟩⟩
        rcases hout o ho with ⟨sw, recipient, -, rfl⟩ | ⟨rfl, -⟩ | ⟨epoch, n, rfl⟩ <;> rfl
    · obtain ⟨⟨-, hslot⟩, hout, -⟩ := processProtocolMessage_independent hcfg h
      exact ⟨(hlocal _ hout).1, .inl ⟨hslot, (hlocal _ hout).2⟩⟩

/-- The user can commit for this purpose: for a call it has the group. -/
def Ready (u : User) (grant : Grant) : Prop :=
  match grant.purpose with
  | .commit _ => u.group.isSome = true
  | .join => True

/-- The ways in which the branch behind the lock can end, with the epoch of the commit it sent. -/
inductive Performing (env : Env) (u : User) (grant : Grant) :
    Option ℕ → Exec Progress → Prop where
  | sent {p : Progress} {c : Commit} {dest : List String} (hready : Ready u grant)
      (hsend : env.delivers (.toGroup ⟨u.username, grant.base u, .commit c⟩ dest) = true)
      (hout : sentBy p.outputs = [⟨u.username, grant.base u, .commit c⟩])
      (hsilent : ∀ t, .groupInfo t ∉ p.outputs) :
      Performing env u grant (some (grant.base u).length) (.ok p)
  | refused {x : Exec Progress} {e : Option ℕ} {c : Commit} {dest : List String}
      (hready : Ready u grant)
      (hsend : env.delivers (.toGroup ⟨u.username, grant.base u, .commit c⟩ dest) = false) :
      Performing env u grant e x
  | failed {p : Progress} (hout : sentBy p.outputs = [])
      (hslot : p.user.pendingCommit = u.pendingCommit) : Performing env u grant none (.ok p)
  | stopped {f : Fault} : Performing env u grant none (.error f)

@[simp] lemma outputs_sends (p : Progress) (r : Result) :
    (IndependentAgent.sends p r).outputs = p.outputs ++ r.outputs := by
  simp [Progress.outputs, IndependentAgent.sends, filterMap_append, filterMap_map]

variable {p : Progress}

lemma publish_sends {p' : Progress} (h : IndependentAgent.publish env p = .ok p') :
    p'.user = p.user ∧ sentBy p'.outputs = sentBy p.outputs := by
  obtain ⟨g, rfl⟩ := IndependentAgent.publish_eq_ok h
  simp [sentBy, IndependentAgent.sends, Progress.outputs, filterMap_append]

variable {grant : Grant} {m : GroupMessage}

lemma performing (hcfg : cfg.agent = .independent) (hallowed : grant.purpose.isAllowed = true) :
    Performing env u grant (grant.sentEpoch cfg creator env id u)
      (grant.perform cfg creator env id u) := by
  obtain ⟨purpose, info⟩ := grant
  cases purpose with
  | join =>
    simp only [Grant.perform, Grant.sentEpoch, Grant.attempt]
    cases hr : u.externalJoin cfg env id creator info with
    | error f => exact .stopped
    | ok r =>
      obtain ⟨hcommit, hsilent, herror, -⟩ := externalJoin_committing hcfg hr
      cases hcommit with
      | sent hsend hout hnone hslot =>
        simp only [hnone, true_or, if_true]
        refine .sent trivial hsend ?_ ?_ <;> rw [outputs_sends]
        · exact hout
        · exact hsilent
      | refused hsend => exact .refused trivial hsend
      | failed he hout hsome => exact absurd (herror _ hsome) he
  | commit k =>
    have hk : k.isCommit = true := by
      cases k <;> simp_all [Purpose.isAllowed, Call.isCommit]
    simp only [Grant.perform, Grant.sentEpoch, Grant.attempt, IndependentAgent.locked, if_true,
      nil_append]
    cases hr : u.call cfg env id k with
    | error f => exact .stopped
    | ok r =>
      obtain ⟨hcommit, hsilent, hgroup⟩ := call_committing hcfg hk hr
      cases hcommit with
      | sent hsend hout hnone hslot =>
        simp only [hnone, true_or, if_true]
        show Performing _ _ _ _ (if r.error.isSome then _ else _)
        rw [hnone]
        refine .sent (hgroup (.inl hnone)) hsend ?_ ?_ <;> rw [outputs_sends]
        · exact hout
        · exact hsilent
      | refused hsend hout hsome => exact .refused (hgroup (.inr hsome)) hsend
      | @failed e he hout hsome hslot =>
        have hne : ¬ (r.error = none ∨ r.error = some .send) := by simp [hsome, he]
        simp only [if_neg hne]
        show Performing _ _ _ _ (if r.error.isSome then _ else _)
        rw [hsome]
        cases hp : IndependentAgent.publish env
            (IndependentAgent.sends ⟨u, [.granted]⟩ r) with
        | error f => exact .stopped
        | ok p =>
          obtain ⟨huser, hsent⟩ := publish_sends hp
          refine .failed (hsent.trans ?_) ?_
          · rw [outputs_sends]
            exact hout
          · rw [huser]
            exact hslot

/-! ## The invariant -/

/-- The user has the group info, or waits for a commit of its own. -/
def Active (s : Locked) (x : String) : Prop :=
  (s.net.nodes x).alive = true ∧
    ((s.held x).isSome = true ∨ (s.net.nodes x).user.pendingCommit.isSome = true)

/-- The commit of the user would be in the epoch after all accepted commits. -/
def Current (s : Locked) (x : String) (grant : Grant) : Prop :=
  match grant.purpose with
  | .commit _ => ∀ g, (s.net.nodes x).user.group = some g →
      g.epoch = commitCount s.net.server.log
  | .join => grant.info.length = commitCount s.net.server.log

/-- The condition on a step: whoever is given the group info is up to date. -/
def UpToDate (s : Locked) : Event → Prop
  | .acquire name purpose => ∀ t, s.info = some t → s.Current name ⟨purpose, t⟩
  | _ => True

/-- The invariant: one commit has been sent in each epoch so far; at most one user is active, and
    then the group info is given out; a user that has it is current and has an empty slot. -/
structure Inv (s : Locked) : Prop where
  sends : s.sends.map Prod.snd = List.range (commitCount s.net.server.log)
  epoch : ∀ e, s.net.server.epoch = some e → e < commitCount s.net.server.log
  taken : ∀ x, s.Active x → s.info = none
  unique : ∀ x y, s.Active x → s.Active y → x = y
  held : ∀ x grant, s.held x = some grant → (s.net.nodes x).alive = true ∧
    grant.purpose.isAllowed = true ∧ (s.net.nodes x).user.pendingCommit = none ∧
    s.Current x grant

lemma Inv.active_of_held (h : Inv s) {x : String} (hx : s.held x = some grant) :
    s.Active x := ⟨(h.held x grant hx).1, Or.inl (by simp [hx])⟩

/-- **A step of one user that sends no commit.** -/
lemma Inv.of_node (h : Inv s) (name : String)
    (hlog : commitCount s'.net.server.log = commitCount s.net.server.log)
    (hepoch : s'.net.server.epoch = s.net.server.epoch) (hsends : s'.sends = s.sends)
    (hothers : ∀ x, x ≠ name → s'.net.nodes x = s.net.nodes x ∧ s'.held x = s.held x)
    (hheld : s'.held name = none)
    (hname : ((s'.Active name → s.Active name) ∧ s'.info = s.info) ∨
      (s.Active name ∧ ¬ s'.Active name)) : Inv s' := by
  have hother : ∀ x, x ≠ name → s'.Active x → s.Active x := by
    intro x hx hactive
    rwa [Active, (hothers x hx).1, (hothers x hx).2] at hactive
  have hback : ∀ x, s'.Active x → s.Active x := by
    intro x hactive
    by_cases hx : x = name
    · subst hx
      rcases hname with ⟨hkeep, -⟩ | ⟨-, hgone⟩
      · exact hkeep hactive
      · exact absurd hactive hgone
    · exact hother x hx hactive
  refine ⟨?_, ?_, fun x hactive => ?_, fun x y hx hy => h.unique x y (hback x hx) (hback y hy),
    fun x grant hx => ?_⟩
  · rw [hsends, hlog]
    exact h.sends
  · rw [hepoch, hlog]
    exact h.epoch
  · rcases hname with ⟨-, hinfo⟩ | ⟨hwas, hgone⟩
    · rw [hinfo]
      exact h.taken x (hback x hactive)
    · -- nobody else was active beside the user
      obtain rfl := h.unique x name (hback x hactive) hwas
      exact absurd hactive hgone
  · have hne : x ≠ name := by
      rintro rfl
      simp [hheld] at hx
    rw [(hothers x hne).2] at hx
    obtain ⟨halive, hallowed, hslot, hcurrent⟩ := h.held x grant hx
    rw [(hothers x hne).1]
    refine ⟨halive, hallowed, hslot, ?_⟩
    unfold Current at hcurrent ⊢
    rwa [(hothers x hne).1, hlog]

lemma Inv.recv (h : Inv s) (hstep : step cfg creator s (.recv name) = some s') : Inv s' := by
  simp only [step] at hstep
  split_ifs at hstep with hheld
  obtain ⟨net, hnet, rfl⟩ := map_eq_some_iff.mp hstep
  simp only [Net.step] at hnet
  split_ifs at hnet
  cases hnet
  refine h.of_node name rfl rfl rfl (fun x hx => ⟨by simp [hx], rfl⟩) (by simpa using hheld)
    (.inl ⟨?_, rfl⟩)
  simp [Active]

/-- **Handling a message keeps the invariant**: only who waits for its commit can post. -/
lemma Inv.handle (hcfg : cfg.agent = .independent) (h : Inv s)
    (hstep : step cfg creator s (.handle name env) = some s') : Inv s' := by
  simp only [step] at hstep
  split_ifs at hstep with hheld
  have hheld : s.held name = none := by simpa using hheld
  obtain ⟨net, hnet, rfl⟩ := map_eq_some_iff.mp hstep
  obtain ⟨halive, hhandled⟩ := handled_of_step hnet
  generalize s.net.emitted cfg name env = os at hhandled ⊢
  cases hhandled with
  | skipped huser halive' =>
    refine h.of_node name rfl rfl rfl (fun x hx => ⟨by simp [Net.setNode, hx], rfl⟩) hheld
      (.inl ⟨?_, rfl⟩)
    simp [Active, Net.setNode, huser, halive']
  | stopped hdead =>
    refine h.of_node name rfl rfl rfl (fun x hx => ⟨by simp [Net.setNode, hx], rfl⟩) hheld
      (.inl ⟨?_, rfl⟩)
    simp [Active, Net.setNode, hdead]
  | @processed n m r hr huser =>
    obtain ⟨hquiet, hslot⟩ := processInMessage_slot hcfg hr
    obtain ⟨hlog, hepoch⟩ := Server.foldl_deliver_quiet hquiet s.net.server
    refine h.of_node name (congrArg commitCount hlog) hepoch rfl (fun x hx => ⟨by simp [hx], rfl⟩)
      hheld ?_
    rcases hslot with ⟨hkeep, hsilent⟩ | ⟨hwas, hgone⟩
    · refine .inl ⟨?_, foldl_post_of_silent hsilent _⟩
      simp [Active, hheld, huser, hkeep, halive]
    · refine .inr ⟨⟨halive, .inr hwas⟩, ?_⟩
      simp [Active, hheld, huser, hgone]

lemma Inv.say (h : Inv s) (hstep : step cfg creator s (.say name env id) = some s') : Inv s' := by
  simp only [step] at hstep
  split_ifs at hstep with hheld
  have hheld : s.held name = none := by simpa using hheld
  obtain ⟨net, hnet, rfl⟩ := map_eq_some_iff.mp hstep
  simp only [Net.step] at hnet
  split_ifs at hnet with hidle
  cases hnet
  cases hr : (s.net.nodes name).user.call cfg (Net.answer s.net.server env) id
      .sendApplicationMsg with
  | error f =>
    refine h.of_node name rfl rfl rfl (fun x hx => ⟨by simp [Net.acted, Net.setNode, hx], rfl⟩)
      hheld (.inl ⟨?_, rfl⟩)
    simp [Active, Net.acted, Net.setNode]
  | ok r =>
    have hactive : ∀ (srv : Server) (u : User), u = (s.net.nodes name).user →
        ({ s with net := ⟨Function.update s.net.nodes name { s.net.nodes name with user := u },
          srv⟩ } : Locked).Active name → s.Active name := by
      rintro srv u rfl
      simp [Active]
    cases call_cases hr with
    | refused e he =>
      exact h.of_node name rfl rfl rfl (fun x hx => ⟨by simp [Net.acted], rfl⟩) hheld
        (.inl ⟨hactive _ _ rfl, rfl⟩)
    | @application g m hg hslot hm hsent =>
      set dest := g.members.filter (· ≠ (s.net.nodes name).user.username)
      obtain ⟨dest, hlog, hepoch⟩ := Server.foldl_deliver_one
        (show sentBy [.toGroup m dest] = [m] from rfl) s.net.server
        (by simpa [Net.answer] using hsent)
      have happ : m.isHandshake = false ∧ m.isCommit = false := by
        unfold MlsGroup.createMessage at hm
        split_ifs at hm
        cases hm
        exact ⟨rfl, rfl⟩
      refine h.of_node name ?_ ?_ rfl (fun x hx => ⟨by simp [Net.acted], rfl⟩) hheld
        (.inl ⟨hactive _ _ rfl, rfl⟩)
      · refine (congrArg commitCount hlog).trans ?_
        simp [commitCount, happ.2]
      · refine hepoch.trans ?_
        simp [happ.1]
    | posted hg hprep hpost => cases hprep

/-- **Acquiring keeps the invariant.**  Nobody is active while the group info is at the service. -/
lemma Inv.acquire (h : Inv s) {purpose : Purpose} (hok : s.UpToDate (.acquire name purpose))
    (hstep : step cfg creator s (.acquire name purpose) = some s') : Inv s' := by
  simp only [step] at hstep
  split_ifs at hstep with hguard
  obtain ⟨halive, -, -, hallowed⟩ := hguard
  obtain ⟨t, ht, rfl⟩ := map_eq_some_iff.mp hstep
  have hnobody : ∀ x, ¬ s.Active x := by
    intro x hx
    simp [h.taken x hx] at ht
  have honly : ∀ x, (s.give name ⟨purpose, t⟩).Active x → x = name := by
    intro x hx
    by_contra hne
    refine hnobody x ?_
    simpa [Active, give, hne] using hx
  refine ⟨h.sends, h.epoch, fun _ _ => rfl, fun x y hx hy => (honly x hx).trans (honly y hy).symm,
    fun x grant hx => ?_⟩
  by_cases hne : x = name
  · subst hne
    obtain rfl : (⟨purpose, t⟩ : Grant) = grant := by simpa [give] using hx
    refine ⟨halive, hallowed, ?_, hok t ht⟩
    by_contra hslot
    exact hnobody x ⟨halive, .inr (isSome_iff_ne_none.mpr hslot)⟩
  · simp only [give, Function.update_of_ne hne] at hx
    exact absurd (h.active_of_held hx) (hnobody x)

lemma Current.epoch (h : s.Current name grant) (hready : Ready (s.net.nodes name).user grant) :
    (grant.base (s.net.nodes name).user).length = commitCount s.net.server.log := by
  obtain ⟨purpose, info⟩ := grant
  cases purpose with
  | join => exact h
  | commit k =>
    obtain ⟨g, hg⟩ := isSome_iff_exists.mp hready
    simp only [Grant.base, base, hg]
    exact h g hg

lemma Inv.accepts (h : Inv s) (hm : m.base.length = commitCount s.net.server.log) :
    s.net.server.accepts m = true := by
  unfold Server.accepts
  cases he : s.net.server.epoch with
  | none => rfl
  | some e =>
    have hlt := h.epoch e he
    have hge : ¬ m.epoch < e := by
      unfold GroupMessage.epoch
      omega
    simp [hge]

/-- **A user that has sent its commit is the only active one.** -/
lemma Inv.sent (h : Inv s) (hheld : s.held name = some grant) (hm : m.isCommit = true)
    (hout : sentBy p.outputs = [m]) (hsilent : ∀ t, .groupInfo t ∉ p.outputs)
    (hepoch : m.base.length = commitCount s.net.server.log) :
    Inv ({ s with held := Function.update s.held name none
                  sends := s.sends ++ [(name, m.base.length)] }.performed name (.ok p)) := by
  have hactive := h.active_of_held hheld
  obtain ⟨dest, hlog, hsrv⟩ := Server.foldl_deliver_one hout s.net.server (h.accepts hepoch)
  have hhand : m.isHandshake = true := by
    unfold GroupMessage.isCommit at hm
    unfold GroupMessage.isHandshake
    split at hm
    · next c hc => simp [hc]
    · cases hm
  have hcount : commitCount (p.outputs.foldl Server.deliver s.net.server).log =
      commitCount s.net.server.log + 1 := by
    rw [hlog]
    simp [commitCount, countP_append, hm]
  have honly : ∀ x, ({ s with held := Function.update s.held name none
                              sends := s.sends ++ [(name, m.base.length)] }.performed name
      (.ok p)).Active x → x = name := by
    intro x hx
    by_contra hne
    refine hne (h.unique x name ?_ hactive)
    simpa [Active, performed, hne] using hx
  refine ⟨?_, fun e he => ?_, fun x _ => ?_, fun x y hx hy => (honly x hx).trans (honly y hy).symm,
    fun x grant' hx => ?_⟩
  · show (s.sends ++ [(name, m.base.length)]).map Prod.snd = _
    rw [map_append, h.sends, hepoch]
    exact ((congrArg List.range hcount).trans range_succ).symm
  · obtain rfl : m.base.length = e := by
      simpa [hhand, GroupMessage.epoch] using hsrv.symm.trans he
    exact (hepoch.trans_lt (Nat.lt_succ_self _)).trans_eq hcount.symm
  · exact (foldl_post_of_silent hsilent s.info).trans (h.taken name hactive)
  · by_cases hne : x = name
    · subst hne
      simp [performed] at hx
    · simp only [performed, Function.update_of_ne hne] at hx
      exact absurd (h.unique x name (h.active_of_held hx) hactive) hne

lemma Inv.proceed (hcfg : cfg.agent = .independent) (h : Inv s)
    (hstep : step cfg creator s (.proceed name env id) = some s') : Inv s' := by
  simp only [step] at hstep
  obtain ⟨grant, hheld, rfl⟩ := map_eq_some_iff.mp hstep
  obtain ⟨halive, hallowed, hslot, hcurrent⟩ := h.held name grant hheld
  have hactive := h.active_of_held hheld
  set answers := Net.answer s.net.server env with hanswers
  set u := (s.net.nodes name).user with hu
  have hperform : Performing answers u grant (grant.sentEpoch cfg creator answers id u)
      (grant.perform cfg creator answers id u) := performing hcfg hallowed
  generalize grant.sentEpoch cfg creator answers id u = e at hperform ⊢
  generalize grant.perform cfg creator answers id u = x at hperform ⊢
  cases hperform with
  | sent hready hsend hout hsilent =>
    exact h.sent hheld rfl hout hsilent (hcurrent.epoch hready)
  | @refused _ _ c dest hready hsend =>
    have haccept := h.accepts (m := ⟨u.username, grant.base u, .commit c⟩)
      (hcurrent.epoch hready)
    simp [hanswers, Net.answer, haccept] at hsend
  | @failed p hout hkeep =>
    obtain ⟨hlog, hepoch⟩ := Server.foldl_deliver_quiet hout s.net.server
    refine h.of_node name (congrArg commitCount hlog) hepoch (by simp [performed])
      (fun x hx => ⟨by simp [performed, hx], by simp [performed, hx]⟩) (by simp [performed])
      (.inr ⟨hactive, ?_⟩)
    simp [Active, performed, hkeep, hslot]
  | stopped =>
    refine h.of_node name rfl rfl (by simp [performed])
      (fun x hx => ⟨by simp [performed, Net.setNode, hx], by simp [performed, hx]⟩)
      (by simp [performed]) (.inr ⟨hactive, ?_⟩)
    simp [Active, performed, Net.setNode]

lemma Inv.step (hcfg : cfg.agent = .independent) (h : Inv s) {e : Event} (hok : s.UpToDate e)
    (hstep : step cfg creator s e = some s') : Inv s' := by
  cases e with
  | recv name => exact h.recv hstep
  | handle name env => exact h.handle hcfg hstep
  | say name env id => exact h.say hstep
  | acquire name purpose => exact h.acquire hok hstep
  | proceed name env id => exact h.proceed hcfg hstep

lemma inv_of_init (h : (lockedNet cfg creator).init s) : Inv s := by
  obtain ⟨⟨hserver, hnodes⟩, -, hheld, hsends⟩ := h
  have hslot : ∀ x, (s.net.nodes x).user.pendingCommit = none := by
    intro x
    rw [hnodes x]
    split_ifs <;> rfl
  have hidle : ∀ x, ¬ s.Active x := by
    simp [Active, hheld, hslot]
  exact ⟨by simp [hsends, hserver, commitCount], by simp [hserver],
    fun x hx => absurd hx (hidle x), fun x _ hx => absurd hx (hidle x),
    fun x grant hx => by simp [hheld x] at hx⟩

/-- **The lock serialises commits** if every user that is given the group info is up to date. -/
theorem commits_serialised (hcfg : cfg.agent = .independent)
    (h : (lockedNet cfg creator).Reaches UpToDate s) : (s.sends.map Prod.snd).Nodup := by
  have hinv : Inv s := h.invariant (fun _ => inv_of_init) fun _ _ _ hinv hok hstep =>
    hinv.step hcfg hok hstep
  rw [hinv.sends]
  exact nodup_range

def upToDate (s : Locked) : Event → Bool
  | .acquire name purpose =>
    match s.info, purpose with
    | none, _ => true
    | some _, .commit _ => (s.net.nodes name).user.group.all fun g =>
      g.epoch = commitCount s.net.server.log
    | some t, .join => t.length = commitCount s.net.server.log
  | _ => true

lemma upToDate_of_test (s : Locked) (e : Event) (h : s.upToDate e = true) : s.UpToDate e := by
  cases e with
  | acquire name purpose =>
    intro t ht
    cases purpose with
    | join => simpa [upToDate, ht, Current] using h
    | commit k =>
      intro g hg
      simpa [upToDate, ht, hg] using h
  | _ => trivial

def lone : Locked where
  net := ⟨fun name => ⟨if name = "A" then { new name with
      group := some (MlsGroup.create "A"), active := some (true, 0) } else new name,
      true, 0, 0, []⟩, ⟨none, [], fun _ => []⟩⟩
  info := some []
  held _ := none
  sends := []

/-- A commit and its way back. -/
def committing (name : String) (k : Call) (id : ℕ) : List Event :=
  [.acquire name (.commit k), .proceed name Env.fine id, .recv name, .handle name Env.fine]

/-- `A` invites `B`, and `B` fetches the Welcome and the commit. -/
def joined : List Event :=
  committing "A" (.invite "B") 0 ++ [.recv "B", .handle "B" Env.fine, .handle "B" Env.fine]

/-- `B` fetches its messages before a commit of `A` and gets the group info after it. -/
theorem stale_holder_commits :
    ((lockedNet Solo.soloConfig "A").run lone (joined ++ committing "A" .updateState 1 ++
        [.acquire "B" (.commit .updateState), .proceed "B" Env.fine 2])).map
      (fun s => (s.sends, s.net.server.log.map (·.message.epoch))) =
      some ([("A", 0), ("A", 1), ("B", 1)], [0, 1, 1]) := by
  decide +kernel

/-- `B` fetches the commit of `A` first and commits in epoch 2. -/
theorem commits_serialised_in_turn :
    ∃ s, (lockedNet Solo.soloConfig "A").run lone (joined ++ committing "A" .updateState 1 ++
        [.recv "B", .handle "B" Env.fine] ++ committing "B" .updateState 2) = some s ∧
      s.sends = [("A", 0), ("A", 1), ("B", 2)] ∧ (s.sends.map Prod.snd).Nodup := by
  refine exists_some_and (by decide +kernel) fun s hs _ => ?_
  have hreach : (lockedNet Solo.soloConfig "A").Reaches UpToDate s :=
    Machine.Reaches.of_run (.init ⟨⟨rfl, fun _ => rfl⟩, rfl, fun _ => rfl, rfl⟩)
      (Machine.admits_of_allows upToDate_of_test (by decide +kernel)) hs
  exact commits_serialised rfl hreach

end Locked

end EmulatedMls.Client
