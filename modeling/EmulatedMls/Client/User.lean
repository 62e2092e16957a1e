import EmulatedMls.Client.Group
import EmulatedMls.Orchestrator.Basic

/-!
# The emulated user

A `User` of the emulator keeps, for each group, the MLS group, one slot of `pending_commits`, an
orchestrator (in the orchestrated mode) and whether it is in sync.  This module models its calls
on one group.

**Source.**  `emulated_client/src/user.rs`.

**One group.**  All maps of a user are keyed by the group name and a call only touches the entry
of its own group, so a `User` here is the slice of one group.

**Outside world.**  What a call sends is a list of `Output`s.  An `Env` says which of them
succeed, which key packages can be fetched, what the coin of an independent user shows and which
proposals `choose_multiple` picks.  A call returns `Err` at its first failed output and keeps
what it has changed so far.  A panic ends the client.  A failed publication of the group info
is an `Err` for every delivery service, as with the Kademlia directory; the one of the HTTP
service panics (`expect`), so that fewer runs go on.  Subscribing fails in `externalJoin` only.

**Confirmation.**  An independent user confirms a commit when one of its own messages comes back,
an orchestrated user as soon as the commit is sent.
-/

namespace EmulatedMls.Client

/-- The two kinds of agents.  Their users differ in when they confirm a commit. -/
inductive AgentType where
  | independent
  | orchestrator (parameters : OrchestratedParameters)
  deriving DecidableEq, Repr

/-- What is fixed in a run. -/
structure Config where
  agent : AgentType
  rng : Rng
  fuel : ℕ
  transcriptHash : Transcript → List UInt8

/-- `CGKAAction`, without the sizes and times. -/
inductive Action where
  | create
  | propose (kind : ProposalKind)
  | commit (kinds : List ProposalKind)
  | update
  | remove (user : String)
  | deepCommit
  | join
  | process (sender : String)
  | deepProcess (sender : String)
  | storeProp (sender : String)
  | welcome (sender : String)
  deriving DecidableEq, Repr

/-- `ActionRecord`, without the times. -/
structure ActionRecord where
  action : Action
  epoch : ℕ
  numUsers : ℕ
  deriving DecidableEq, Repr

/-- An MLS `Welcome`: it opens the group with the given history. -/
structure Welcome where
  creator : String
  transcript : Transcript
  deriving DecidableEq, Repr

structure StoredWelcome where
  welcome : Welcome
  recipients : List String
  deriving DecidableEq, Repr

/-- The `GroupMessage` that carries a Welcome. -/
structure WelcomeMessage where
  sender : String
  welcome : Welcome
  ratchetTree : Transcript
  recipients : List String
  activeMembers : Option (List String)
  deriving DecidableEq, Repr

/-- An entry of `pending_commits`.  The source does not store the message that the entry belongs
    to; it is kept here to speak about it, and no function reads it. -/
structure PendingCommit where
  message : GroupMessage
  welcome : Option StoredWelcome
  record : ActionRecord
  deriving DecidableEq, Repr

/-- What a call does to the outside world. -/
inductive Output where
  | toGroup (m : GroupMessage) (recipients : List String)
  | welcome (recipient : String) (w : WelcomeMessage)
  | groupInfo (t : Transcript)
  | subscribe
  | unsubscribe
  | ack
  | record (r : ActionRecord)
  deriving DecidableEq, Repr

/-- What the outside world answers during one call. -/
structure Env where
  keyPackage : String → Bool
  delivers : Output → Bool
  stages : Bool
  goesInactive : Bool
  choice : List ℕ

def Env.fine : Env := ⟨fun _ => true, fun _ => true, true, false, []⟩

inductive ClientError where
  | unknownGroup
  | unknownMember
  | keyPackage
  | pendingCommit
  | pendingAdd
  | staging
  | send
  | mls (e : MlsError)
  deriving DecidableEq, Repr

/-- The slice of a user that belongs to one group; `agentQueue` counts its wake-ups. -/
structure User where
  username : String
  group : Option MlsGroup
  pendingCommit : Option PendingCommit
  orchestrator : Option Orchestrator
  active : Option (Bool × ℕ)
  agentQueue : ℕ
  deriving DecidableEq, Repr

def User.new (username : String) : User := ⟨username, none, none, none, none, 0⟩

structure Result where
  user : User
  outputs : List Output
  error : Option ClientError
  deriving DecidableEq, Repr

namespace User

variable (cfg : Config) (env : Env) (u : User)

/-- A call that returns `Err` without having sent anything. -/
def fails (e : ClientError) : Exec Result := .ok ⟨u, [], some e⟩

/-- Send one output after the other, up to the first one that fails. -/
def emit (r : Result) (o : Output) : Result :=
  if r.error.isSome then r
  else if env.delivers o then { r with outputs := r.outputs ++ [o] }
  else { r with error := some .send }

def writeTimestamp (r : Result) (a : ActionRecord) : Result :=
  { r with outputs := r.outputs ++ [.record a] }

/-- `send_to_agent` when the orchestrator says so. -/
def notifyAgent (action : NextAction) (u : User) : User :=
  if action = .commit then { u with agentQueue := u.agentQueue + 1 } else u

/-- The vector that a Welcome carries. -/
def activeMembers : Exec (Option (List String)) :=
  match cfg.agent with
  | .independent => .ok none
  | .orchestrator _ =>
    match u.orchestrator with
    | none => .error .panic
    | some o => .ok (some o.knownMembers)

/-- The Welcome messages of a stored Welcome, the same one to each recipient. -/
def welcomesOf (g : MlsGroup) (active : Option (List String)) :
    Option StoredWelcome → List Output
  | none => []
  | some w => w.recipients.map fun recipient =>
    .welcome recipient ⟨u.username, w.welcome, g.transcript, w.recipients, active⟩

/-- The new members that the committer tells its orchestrator. -/
def welcomed : Option StoredWelcome → List String
  | none => []
  | some w => w.recipients

/-- The removed members that the committer tells its orchestrator. -/
def removedBy : Action → List String
  | .remove user => [user]
  | _ => []

/-- The orchestrator of the user takes in a commit. -/
def orchestrate (g : MlsGroup) (total : ℕ) (removed added : List String)
    (u : User) : Exec (User × NextAction) :=
  match u.orchestrator with
  | none => .error .panic
  | some o => do
    let o ← o.removeMembers removed
    let r ← o.processCommit cfg.rng cfg.fuel (cfg.transcriptHash g.transcript) total added
    pure ({ u with orchestrator := some r.orchestrator }, r.action)

/-- The part of `confirm_commit` for commits.  The epoch of the record is raised by one. -/
def concludeCommit (g : MlsGroup) (e : PendingCommit) (r : Result) : Exec Result :=
  let r := emit env r (.groupInfo g.transcript)
  if r.error.isSome then .ok r
  else
    let record := { e.record with epoch := e.record.epoch + 1, numUsers := g.members.length }
    match cfg.agent with
    | .independent => .ok (writeTimestamp r record)
    | .orchestrator _ => do
      let (u, action) ← orchestrate cfg g g.members.length (removedBy e.record.action)
        (welcomed e.welcome) r.user
      pure (writeTimestamp { r with user := notifyAgent action u } record)

def confirmCommit : Exec Result :=
  match u.pendingCommit with
  | none => .ok ⟨u, [], none⟩
  | some e =>
    let u := { u with pendingCommit := none }
    match u.group with
    | none => u.fails .unknownGroup
    | some g =>
      match g.mergePendingCommit u.username with
      | .error _ => .error .panic
      | .ok g => do
        let u := { u with group := some g }
        -- only a stored Welcome looks at the orchestrator
        let active ← (if e.welcome.isSome then activeMembers cfg u else pure none)
        let r := (welcomesOf u g active e.welcome).foldl (emit env) ⟨u, [], none⟩
        if r.error.isSome then pure r
        else match e.record.action with
          | .propose _ => pure (writeTimestamp r e.record)
          | _ => concludeCommit cfg env g e r

/-- `post_process_commit`.  The orchestrated mode confirms at once. -/
def postProcessCommit (g : MlsGroup) (m : GroupMessage)
    (welcome : Option StoredWelcome) (action : Action) : Exec Result :=
  let o := Output.toGroup m (g.members.filter (· ≠ u.username))
  if env.delivers o then
    let u := { u with
      pendingCommit := some ⟨m, welcome, ⟨action, g.epoch, g.members.length⟩⟩ }
    match cfg.agent with
    | .independent => .ok ⟨u, [o], none⟩
    | .orchestrator _ => do
      let r ← confirmCommit cfg env u
      pure { r with outputs := o :: r.outputs }
  else u.fails .send

/-- `invite`: the commit is merged before it is sent. -/
def invite (id : ℕ) (name : String) (u : User) : Exec Result :=
  if ¬ env.keyPackage name then u.fails .keyPackage
  else match u.group with
  | none => u.fails .unknownGroup
  | some g =>
    match g.buildCommit u.username id [.add name] with
    | .error e => u.fails (.mls e)
    | .ok (c, staged) =>
      match staged.mergePendingCommit u.username with
      | .error e => fails { u with group := some staged } (.mls e)
      | .ok merged =>
        postProcessCommit cfg env { u with group := some merged } merged
          ⟨u.username, g.transcript, .commit c⟩
          (some ⟨⟨g.creator, c :: g.transcript⟩, [name]⟩) .deepCommit

def remove (cfg : Config) (env : Env) (id : ℕ) (name : String) (u : User) : Exec Result :=
  match u.group with
  | none => u.fails .unknownGroup
  | some g =>
    if name ∉ g.members then u.fails .unknownMember
    else match g.buildCommit u.username id [.remove name] with
      | .error e => u.fails (.mls e)
      | .ok (c, staged) =>
        postProcessCommit cfg env { u with group := some staged } staged
          ⟨u.username, g.transcript, .commit c⟩ none (.remove name)

def updateState (id : ℕ) (u : User) : Exec Result :=
  match u.group with
  | none => u.fails .unknownGroup
  | some g =>
    match g.buildCommit u.username id [] with
    | .error e => u.fails (.mls e)
    | .ok (c, staged) =>
      postProcessCommit cfg env { u with group := some staged } staged
        ⟨u.username, g.transcript, .commit c⟩ none .update

/-- `choose_multiple`: any choice of the given number of pending proposals. -/
def chooseMultiple (choice : List ℕ) (pending : List PendingProposal) (amount : ℕ) : List ℕ :=
  let ids := pending.map (·.id)
  if choice.Nodup ∧ choice ⊆ ids ∧ choice.length = amount then choice else ids.take amount

/-- The proposals that `commit_to_proposals` keeps: removals of the own leaf go first, then a
    random surplus.  If fewer are pending than asked for, the surplus wraps around in a release
    build, and all of them go. -/
def keptProposals (own : String) (choice : List ℕ) (amount : ℕ) (ps : List PendingProposal) :
    List PendingProposal :=
  let pending := ps.filter (·.kind ≠ .remove own)
  if pending.length < amount then []
  else
    let dropped := chooseMultiple choice pending (pending.length - amount)
    pending.filter (·.id ∉ dropped)

/-- `commit_to_proposals`.  The dropped proposals stay dropped when the commit fails. -/
def commitToProposals (id amount : ℕ) (u : User) : Exec Result :=
  match u.group with
  | none => u.fails .unknownGroup
  | some g =>
    let kept := keptProposals u.username env.choice amount g.proposals
    let g := { g with proposals := kept }
    match g.buildCommit u.username id [] with
    | .error e => fails { u with group := some g } (.mls e)
    | .ok (c, staged) =>
      let welcome := if c.adds = [] then none
        else some ⟨⟨g.creator, c :: g.transcript⟩, addsOf kept⟩
      postProcessCommit cfg env { u with group := some staged } staged
        ⟨u.username, g.transcript, .commit c⟩ welcome (.commit (kept.map (·.kind)))

/-- What `propose` checks before it asks the group. -/
def proposable (g : MlsGroup) : ProposalKind → Except ClientError Unit
  | .update => .ok ()
  | .add user =>
    if ∃ p ∈ g.proposals, p.kind = .add user then .error .pendingAdd
    else if env.keyPackage user then .ok () else .error .keyPackage
  | .remove user => if user ∈ g.members then .ok () else .error .unknownMember

/-- `propose`.  A proposal takes the same slot of `pending_commits` as a commit. -/
def propose (cfg : Config) (env : Env) (id : ℕ) (kind : ProposalKind) (u : User) : Exec Result :=
  match u.group with
  | none => u.fails .unknownGroup
  | some g =>
    match proposable env g kind with
    | .error e => u.fails e
    | .ok () =>
      match g.propose u.username id kind with
      | .error e => u.fails (.mls e)
      | .ok (m, stored) =>
        postProcessCommit cfg env { u with group := some stored } stored m none (.propose kind)

def sendApplicationMsg (id : ℕ) (u : User) : Exec Result :=
  if u.pendingCommit.isSome then u.fails .pendingCommit
  else match u.group with
  | none => u.fails .unknownGroup
  | some g =>
    match g.createMessage u.username id with
    | .error e => u.fails (.mls e)
    | .ok m => .ok (emit env ⟨u, [], none⟩ (.toGroup m (g.members.filter (· ≠ u.username))))

/-! ## Messages -/

/-- `active.insert` for a commit of a later epoch, and the record that is kept of it. -/
def desynchronise (m : GroupMessage) (u : User) : User × Option (List Output) :=
  let u' := { u with active := some (false, m.epoch + 1) }
  match u.active with
  | none => (u', none)
  | some (active, epoch) =>
    if epoch = m.epoch ∨ active then
      (u', some [.record ⟨.process m.sender, m.epoch + 1, 0⟩])
    else (u', some [])

/-- The user leaves the group: `PostUpdateActions::Remove`. -/
def leave (g : MlsGroup) (m : GroupMessage) : Result :=
  ⟨{ u with group := none }, [.unsubscribe, .record ⟨.process m.sender, g.epoch, g.members.length⟩],
    none⟩

/-- What the agent of a processing member does after a commit. -/
def nextAction (g : MlsGroup) (c : Commit) (u : User) : Exec (User × NextAction) :=
  match cfg.agent with
  | .independent => .ok (u, if env.goesInactive then .inactive else .listen)
  | .orchestrator _ =>
    orchestrate cfg (g.mergeStagedCommit u.username c)
      (g.members.length + c.adds.length - c.removes.length) c.removes c.adds u

/-- The branch of `process_protocol_message` for the commit of another member. -/
def processCommitMessage (m : GroupMessage) (g : MlsGroup) (c : Commit)
    (u : User) : Exec Result := do
  let (u, action) ← nextAction cfg env g c u
  let merged := g.mergeStagedCommit u.username c
  if u.username ∈ c.removes ∨ action = .inactive then pure (leave u merged m)
  else
    pure ⟨notifyAgent action { u with group := some merged },
      [.record ⟨.deepProcess m.sender, merged.epoch, merged.members.length⟩], none⟩

/-- The errors of the group that count as a conflict and are ignored. -/
def isConflict : MlsError → Bool
  | .wrongEpoch | .unableToDecrypt => true
  | _ => false

/-- `process_protocol_message`, with the clean-up of its caller. -/
def processProtocolMessage (m : GroupMessage) (u : User) : Exec Result :=
  match u.group with
  | none => .ok ⟨u, [], none⟩
  | some g =>
    if g.epoch < m.epoch then
      match m.content with
      | .commit _ =>
        match u.desynchronise m with
        | (u, some outputs) => .ok ⟨u, outputs, none⟩
        -- without a previous state the message is still handed to the group, which refuses it
        | (u, none) => .ok ⟨u, [], none⟩
      | _ => .ok ⟨u, [], none⟩
    else match g.processMessage u.username m with
      | .error e => if isConflict e then .ok ⟨u, [], none⟩ else u.fails (.mls e)
      | .ok (.application _) => .ok ⟨u, [], none⟩
      | .ok (.proposal p) =>
        .ok ⟨{ u with group := some (g.storePendingProposal p) },
          [.record ⟨.storeProp m.sender, m.epoch, g.members.length⟩], none⟩
      | .ok (.commit c) => processCommitMessage cfg env m g c u

/-- `join_group`.  A group that is already there is replaced. -/
def joinGroup (w : WelcomeMessage) (u : User) : Option MlsGroup :=
  match w.welcome.transcript with
  | [] => none
  | c :: _ =>
    if env.stages ∧ u.username ∈ c.adds ∧ w.ratchetTree = w.welcome.transcript then
      some ⟨w.welcome.creator, w.welcome.transcript, [], .operational⟩
    else none

/-- The Welcome branch of `process_in_message`. -/
def processWelcome (w : WelcomeMessage) (u : User) : Exec Result :=
  match u.joinGroup env w with
  | none => u.fails .staging
  | some g =>
    let u := { u with group := some g, active := some (true, 0) }
    let record := Output.record ⟨.welcome w.sender, g.epoch, g.members.length⟩
    match cfg.agent with
    | .independent => .ok ⟨u, [.subscribe, record], none⟩
    | .orchestrator params =>
      match w.activeMembers with
      | none => .error .panic
      | some known => do
        let r ← (Orchestrator.new u.username params known).processCommit cfg.rng cfg.fuel
          (cfg.transcriptHash g.transcript) g.members.length w.recipients
        let u := { u with orchestrator := some r.orchestrator }
        match r.action with
        | .inactive => pure ⟨{ u with group := none }, [.ack, record], none⟩
        | .listen => pure ⟨u, [.subscribe, record], none⟩
        | .commit => pure ⟨notifyAgent .commit u, [.subscribe, record], none⟩

inductive Incoming where
  | group (m : GroupMessage)
  | welcome (w : WelcomeMessage)
  deriving DecidableEq, Repr

/-- `process_in_message`.  Any message with the own name as sender confirms the pending commit;
    an own Welcome has no group to look up. -/
def processInMessage : Incoming → Exec Result
  | .group m =>
    if m.sender = u.username then confirmCommit cfg env u
    else processProtocolMessage cfg env m u
  | .welcome w =>
    if w.sender = u.username then .error .panic else processWelcome cfg env w u

def processAck (cfg : Config) (sender : String) (u : User) : Exec User :=
  if sender = u.username then .ok u
  else match cfg.agent with
    | .independent => .ok u
    | .orchestrator _ =>
      match u.orchestrator with
      | none => .error .panic
      | some o =>
        let (o, action) := o.processAck
        .ok (notifyAgent action { u with orchestrator := some o })

def createGroup : Exec Result :=
  if u.group.isSome then .error .panic
  else
    let g := MlsGroup.create u.username
    let r := emit env ⟨{ u with active := some (true, 0) }, [.subscribe], none⟩
      (.groupInfo g.transcript)
    if r.error.isSome then .ok r
    else
      let u := { r.user with group := some g }
      let record : ActionRecord := ⟨.create, 0, 1⟩
      match cfg.agent with
      | .independent => .ok (writeTimestamp { r with user := u } record)
      | .orchestrator params => do
        let o ← (Orchestrator.new u.username params []).processCommit cfg.rng cfg.fuel
          (cfg.transcriptHash g.transcript) 1 [u.username]
        if o.action = .commit then
          let u := notifyAgent .commit { u with orchestrator := some o.orchestrator }
          pure (writeTimestamp { r with user := u } record)
        else .error .panic

/-- The commit of an external join.  A member that joins again replaces its old leaf. -/
def externalCommit (creator : String) (info : Transcript) (id : ℕ) (u : User) : Commit :=
  ⟨id, u.username, if u.username ∈ roster creator info then [] else [u.username], [], []⟩

/-- `external_join`, from the history that the group info belongs to.  A failed subscription and
    a group info that cannot be used panic.  The group is there before the commit is sent. -/
def externalJoin (id : ℕ) (creator : String) (info : Transcript)
    (u : User) : Exec Result :=
  if ¬ (env.delivers .subscribe ∧ env.stages) then .error .panic
  else
    let c := u.externalCommit creator info id
    let g : MlsGroup := ⟨creator, info, [], .pendingCommit c⟩
    do
      let r ← postProcessCommit cfg env { u with group := some g, active := some (true, 0) } g
        ⟨u.username, info, .commit c⟩ none .join
      pure { r with outputs := .subscribe :: r.outputs }

/-- `publish_group_info`: the group info of the current epoch, whatever is pending. -/
def publishGroupInfo : Exec Result :=
  match u.group with
  | none => u.fails .unknownGroup
  | some g => .ok (emit env ⟨u, [], none⟩ (.groupInfo g.transcript))

/-! ## Calls of the agent -/

/-- The calls by which an agent changes a group. -/
inductive Call where
  | invite (name : String)
  | remove (name : String)
  | updateState
  | commitToProposals (amount : ℕ)
  | propose (kind : ProposalKind)
  | sendApplicationMsg
  deriving DecidableEq, Repr

/-- The calls that commit; one of them ends the loop of the agent. -/
def Call.isCommit : Call → Bool
  | .invite _ | .remove _ | .updateState | .commitToProposals _ => true
  | .propose _ | .sendApplicationMsg => false

/-- A call, with the number that makes its message fresh. -/
def call (id : ℕ) (u : User) : Call → Exec Result
  | .invite name => invite cfg env id name u
  | .remove name => remove cfg env id name u
  | .updateState => updateState cfg env id u
  | .commitToProposals amount => commitToProposals cfg env id amount u
  | .propose kind => propose cfg env id kind u
  | .sendApplicationMsg => sendApplicationMsg env id u

/-- The user after a list of numbered calls in which everything that is sent arrives. -/
def calls (cfg : Config) : List (ℕ × Call) → User → Exec User
  | [], u => .ok u
  | (id, k) :: ks, u => do
    let r ← u.call cfg .fine id k
    calls cfg ks r.user

end User

end EmulatedMls.Client
