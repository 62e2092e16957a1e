import EmulatedMls.Client.Orchestrated
import EmulatedMls.Lib.Machine

/-!
# Orchestrated users on a broker

Any number of orchestrated users share one group over a broker.  A group has one topic, whose
messages every subscriber receives in one order from the moment its subscription is taken up.
Every user also has a topic for Welcomes.

**Source.**  `deliver_to_users` and `run` of `emulated_client/src/pubsub/mqtt_updater.rs`,
`parse_message` of `emulated_client/src/pubsub/mod.rs` and the loop of
`emulated_client/src/client_agent/orchestrated.rs`.

**Agent.**  A user acts while the group name is queued for its agent.  The agent tries calls until
one commit succeeds and then waits for the next entry of the queue, so the entry is spent by the
commit.  When the group is full the agent tries one removal and gives up on an error.

**Delivery.**  Welcomes may arrive late and in any order.  An acknowledgement may arrive late and
any number of times.

**Errors.**  The updater calls `expect` on the result of handling a message while it holds the lock
of the user, so a user whose handling fails stops for good.
-/

namespace EmulatedMls.Client

/-- A user at the broker.  `requested` says that it has asked for the topic of the group, `pos` is
    its place in the topic once the broker has taken the subscription up.  `reached` records how
    far the user has ever been in the group: one more than its highest epoch. -/
structure Peer where
  user : User
  alive : Bool
  requested : Bool
  pos : Option ℕ
  reached : ℕ

/-- One more than the epoch of the group, if the user has it. -/
def User.held (u : User) : ℕ :=
  match u.group with
  | none => 0
  | some g => g.epoch + 1

/-- The peer after a call of its user. -/
def Peer.follow (p : Peer) (r : Result) : Peer where
  user := r.user
  alive := p.alive
  requested := p.requested || decide (.subscribe ∈ r.outputs)
  pos := if .unsubscribe ∈ r.outputs then none else p.pos
  reached := max p.reached r.user.held

@[simp] lemma Peer.follow_user (p : Peer) (r : Result) : (p.follow r).user = r.user := rfl

def Peer.stopped (p : Peer) : Peer := { p with alive := false }

/-- The users, the topic, and the Welcomes and acknowledgements that have been sent. -/
structure PubSub where
  peers : String → Peer
  topic : List GroupMessage
  welcomes : String → List WelcomeMessage
  acks : List String

/-- A commit spends the entry of the queue that it was made for. -/
def User.spend (k : User.Call) (r : Result) : Result :=
  if r.error.isNone ∧ k.isCommit then
    { r with user := { r.user with agentQueue := r.user.agentQueue - 1 } }
  else r

namespace User

section Frames

variable (k : User.Call) (r : Result)

@[simp] lemma spend_username : (spend k r).user.username = r.user.username := by
  unfold spend; split_ifs <;> rfl

@[simp] lemma spend_group : (spend k r).user.group = r.user.group := by
  unfold spend; split_ifs <;> rfl

@[simp] lemma spend_pendingCommit : (spend k r).user.pendingCommit = r.user.pendingCommit := by
  unfold spend; split_ifs <;> rfl

@[simp] lemma spend_orchestrator : (spend k r).user.orchestrator = r.user.orchestrator := by
  unfold spend; split_ifs <;> rfl

@[simp] lemma spend_outputs : (spend k r).outputs = r.outputs := by
  unfold spend; split_ifs <;> rfl

end Frames

end User

namespace PubSub

inductive Event where
  | act (name : String) (env : Env) (id : ℕ) (k : User.Call)
  | giveUp (name : String)
  | topic (name : String) (env : Env)
  | welcome (name : String) (env : Env) (i : ℕ)
  | ack (name sender : String)
  | subscribed (name : String)

def setPeer (s : PubSub) (name : String) (p : Peer) : PubSub :=
  { s with peers := Function.update s.peers name p }

/-- A user has made a call with the given outputs. -/
def publish (s : PubSub) (name : String) (p : Peer) (os : List Output) : PubSub where
  peers := Function.update s.peers name p
  topic := s.topic ++ sentBy os
  welcomes x := s.welcomes x ++ welcomesTo x os
  acks := s.acks ++ (if .ack ∈ os then [name] else [])

/-- A message has been handled: an error or a panic stops the user. -/
def handled (s : PubSub) (name : String) (p : Peer) : Exec Result → PubSub
  | .ok r =>
    let p' := p.follow r
    s.publish name (if r.error.isNone then p' else p'.stopped) r.outputs
  | .error _ => s.setPeer name p.stopped

/-- The agent has made a call: an error is only logged, a panic stops the user. -/
def acted (s : PubSub) (name : String) (p : Peer) (k : User.Call) : Exec Result → PubSub
  | .ok r => s.publish name (p.follow (User.spend k r)) r.outputs
  | .error _ => s.setPeer name p.stopped

/-- A Welcome has been taken out. -/
def taken (s : PubSub) (name : String) (i : ℕ) : PubSub :=
  { s with welcomes := Function.update s.welcomes name ((s.welcomes name).eraseIdx i) }

def step (cfg : Config) (s : PubSub) : Event → Option PubSub
  | .act name env id k =>
    let p := s.peers name
    if p.alive ∧ 0 < p.user.agentQueue ∧ k ≠ .sendApplicationMsg then
      some (s.acted name p k (p.user.call cfg env id k))
    else none
  | .giveUp name =>
    let p := s.peers name
    if p.alive ∧ 0 < p.user.agentQueue then
      some (s.setPeer name { p with user := { p.user with
        agentQueue := p.user.agentQueue - 1 } })
    else none
  | .topic name env =>
    let p := s.peers name
    if p.alive then
      match p.pos with
      | none => none
      | some i =>
        match s.topic[i]? with
        | none => none
        | some m => some (s.handled name { p with pos := some (i + 1) }
            (p.user.processInMessage cfg env (.group m)))
    else none
  | .welcome name env i =>
    let p := s.peers name
    if p.alive then
      match (s.welcomes name)[i]? with
      | none => none
      | some w =>
        let rest := (s.welcomes name).eraseIdx i
        let s' := { s with welcomes := Function.update s.welcomes name rest }
        some (s'.handled name p (p.user.processInMessage cfg env (.welcome w)))
    else none
  | .ack name sender =>
    let p := s.peers name
    if p.alive ∧ p.pos.isSome ∧ sender ∈ s.acks then
      match p.user.processAck cfg sender with
      | .ok u => some (s.setPeer name { p with user := u })
      | .error _ => some (s.setPeer name p.stopped)
    else none
  | .subscribed name =>
    let p := s.peers name
    if p.requested then
      let p' := { p with requested := false, pos := some (p.pos.getD s.topic.length) }
      some { s.setPeer name p' with acks := s.acks ++ [name] }
    else none

inductive Stepped (cfg : Config) (s : PubSub) : Event → PubSub → Prop where
  | act {name : String} {env : Env} {id : ℕ} {k : User.Call}
      (hright : 0 < (s.peers name).user.agentQueue) (hk : k ≠ .sendApplicationMsg) :
      Stepped cfg s (.act name env id k)
        (s.acted name (s.peers name) k ((s.peers name).user.call cfg env id k))
  | giveUp {name : String} :
      Stepped cfg s (.giveUp name) (s.setPeer name { s.peers name with
        user := { (s.peers name).user with agentQueue := (s.peers name).user.agentQueue - 1 } })
  | topic {name : String} {env : Env} {i : ℕ} {m : GroupMessage}
      (hpos : (s.peers name).pos = some i) (hm : s.topic[i]? = some m) :
      Stepped cfg s (.topic name env) (s.handled name { s.peers name with pos := some (i + 1) }
        ((s.peers name).user.processInMessage cfg env (.group m)))
  | welcome {name : String} {env : Env} {i : ℕ} {w : WelcomeMessage}
      (hw : (s.welcomes name)[i]? = some w) :
      Stepped cfg s (.welcome name env i) ((s.taken name i).handled name (s.peers name)
        ((s.peers name).user.processInMessage cfg env (.welcome w)))
  | ack {name sender : String} {u : User} (hu : (s.peers name).user.processAck cfg sender = .ok u) :
      Stepped cfg s (.ack name sender) (s.setPeer name { s.peers name with user := u })
  | ackFailed {name sender : String} :
      Stepped cfg s (.ack name sender) (s.setPeer name (s.peers name).stopped)
  | subscribed {name : String} :
      Stepped cfg s (.subscribed name) { s.setPeer name { s.peers name with
        requested := false, pos := some ((s.peers name).pos.getD s.topic.length) } with
        acks := s.acks ++ [name] }

lemma stepped_of_step {cfg : Config} {s s' : PubSub} {e : Event}
    (h : PubSub.step cfg s e = some s') : Stepped cfg s e s' := by
  cases e with
  | act name env id k =>
    simp only [PubSub.step] at h
    split_ifs at h with hact
    cases h
    exact .act hact.2.1 hact.2.2
  | giveUp name =>
    simp only [PubSub.step] at h
    split_ifs at h
    cases h
    exact .giveUp
  | topic name env =>
    simp only [PubSub.step] at h
    split_ifs at h
    split at h
    · cases h
    split at h
    · cases h
    · next i hpos _ m hm =>
      cases h
      exact .topic hpos hm
  | welcome name env i =>
    simp only [PubSub.step] at h
    split_ifs at h
    split at h
    · cases h
    · next w hw =>
      cases h
      exact .welcome hw
  | ack name sender =>
    simp only [PubSub.step] at h
    split_ifs at h
    split at h
    · next u hu =>
      cases h
      exact .ack hu
    · cases h
      exact .ackFailed
  | subscribed name =>
    simp only [PubSub.step] at h
    split_ifs at h
    cases h
    exact .subscribed

variable {s : PubSub} {name x : String} {i : ℕ} {w : WelcomeMessage}

lemma taken_welcomes_self : (s.taken name i).welcomes name = (s.welcomes name).eraseIdx i := by
  simp [taken]

lemma taken_welcomes_of_ne (hx : x ≠ name) : (s.taken name i).welcomes x = s.welcomes x := by
  simp [taken, hx]

lemma mem_of_mem_taken (hw : w ∈ (s.taken name i).welcomes x) : w ∈ s.welcomes x := by
  by_cases hx : x = name
  · subst hx
    rw [taken_welcomes_self] at hw
    exact List.mem_of_mem_eraseIdx hw
  · rwa [taken_welcomes_of_ne hx] at hw

end PubSub

/-- The runs of orchestrated users in a group that `creator` has created. -/
def pubSub (cfg : Config) (creator : String) : Machine PubSub PubSub.Event where
  init s := s.topic = [] ∧ (∀ x, s.welcomes x = []) ∧ s.acks = [] ∧
    (∃ env r, (User.new creator).createGroup cfg env = .ok r ∧ r.error = none ∧
      s.peers creator = Peer.follow ⟨User.new creator, true, false, none, 0⟩ r) ∧
    ∀ x, x ≠ creator → s.peers x = ⟨User.new x, true, false, none, 0⟩
  step := PubSub.step cfg

end EmulatedMls.Client
