import EmulatedMls.PubSub.Delivery

/-!
# The updater of GossipSub, and shared subscriptions

The updater of GossipSub keeps the same lists as the one of MQTT.  What a user publishes goes to the
network and, at once, to the users of the same process.  A subscription to a group is announced
without waiting for anything.

**Source.**  `handle_command`, `handle_gossipsub_event` and `deliver_to_users` of
`emulated_client/src/pubsub/gossipsub_updater.rs`.

**Network.**  A message that the network hands to the process is an event of its own.  The network
does not hand a process its own messages.

**Announcements.**  The acknowledgement of a subscription is published on the topic of the
subscription, but handed to the users that list the topic of the group it names.  The two are the
same topic unless the name of the group starts like a topic, as `trim_start_matches` drops every
occurrence.
-/

namespace EmulatedMls.Updater

open Exec List

/-- A process on GossipSub; `handed` are the threads of `deliver_to_users`. -/
structure GossipSub (μ : Type) where
  registry : Registry
  handed : List (String × Delivery μ)
  published : List (Delivery μ)
  deriving DecidableEq

namespace GossipSub

variable {μ : Type} {s s' : GossipSub μ} {user topic : String}

def new (users : List String) (h : users.Nodup) : GossipSub μ := ⟨.new users h, [], []⟩

/-- `deliver_to_users`: one thread for each user that lists the topic. -/
def deliverToUsers (d : Delivery μ) (s : GossipSub μ) : GossipSub μ :=
  { s with handed := s.handed ++ (s.registry.subscriptions.receivers d.topic).map (·, d) }

/-- Publish a message.  A publication that the network refuses is only logged. -/
def publish (d : Delivery μ) (s : GossipSub μ) : GossipSub μ :=
  { s with published := s.published ++ [d] }

def ack (user topic on : String) : Delivery μ := ⟨on, .welcomeAcknowledgement (ackOf user topic)⟩

def subscribe (user topic : String) (s : GossipSub μ) : Exec (GossipSub μ) := do
  let registry ← s.registry.subscribe user topic
  let s := { s with registry := registry }
  if startsWith topic groupTopics then
    pure ((s.publish (ack user topic topic)).deliverToUsers (ack user topic (ackTopic topic)))
  else pure s

def unsubscribe (user topic : String) (s : GossipSub μ) : Exec (GossipSub μ) :=
  if user ∈ s.registry.subscriptions.users then
    .ok { s with registry := s.registry.unsubscribe user topic }
  else .error .panic

/-- A command, or a message of the network. -/
inductive Event (μ : Type) where
  | message (d : Delivery μ)
  | subscribe (user topic : String)
  | unsubscribe (user topic : String)
  | received (d : Delivery μ)

def step (s : GossipSub μ) : Event μ → Option (GossipSub μ)
  | .message d => some ((s.publish d).deliverToUsers d)
  | .subscribe user topic => (s.subscribe user topic).toOption
  | .unsubscribe user topic => (s.unsubscribe user topic).toOption
  | .received d => some (s.deliverToUsers d)

/-- The messages that are published by an event, here or elsewhere. -/
def Event.publications : Event μ → List (Delivery μ)
  | .message d | .received d => [d]
  | .subscribe user topic => if startsWith topic groupTopics then [ack user topic topic] else []
  | .unsubscribe _ _ => []

/-- What a user was handed, in the order of the threads. -/
def handedTo (s : GossipSub μ) (user : String) : List (Delivery μ) :=
  (s.handed.filter (·.1 = user)).map Prod.snd

/-- No user subscribes to a group whose name starts like the topic of a group. -/
def Plain (_ : GossipSub μ) : Event μ → Prop
  | .subscribe _ topic => startsWith topic (groupTopics ++ groupTopics) = false
  | _ => True

end GossipSub

namespace GossipSub

variable {μ : Type} {s s' : GossipSub μ} {user topic : String}

lemma subscribe_eq_ok (h : s.subscribe user topic = .ok s') :
    ∃ registry, s.registry.subscribe user topic = .ok registry ∧ s'.registry = registry ∧
      ((startsWith topic groupTopics = false ∧ s' = { s with registry := registry }) ∨
        (startsWith topic groupTopics = true ∧
          s' = (({ s with registry := registry } : GossipSub μ).publish
            (ack user topic topic)).deliverToUsers (ack user topic (ackTopic topic)))) := by
  obtain ⟨registry, hr, h⟩ := bind_inv h
  refine ⟨registry, hr, ?_⟩
  cases hstart : startsWith topic groupTopics with
  | true =>
    simp only [hstart, if_true] at h
    cases h
    exact ⟨rfl, .inr ⟨rfl, rfl⟩⟩
  | false =>
    simp only [hstart, Bool.false_eq_true, if_false] at h
    cases h
    exact ⟨rfl, .inl ⟨rfl, rfl⟩⟩

lemma unsubscribe_eq_ok (h : s.unsubscribe user topic = .ok s') :
    s' = { s with registry := s.registry.unsubscribe user topic } := by
  unfold unsubscribe at h
  split_ifs at h
  exact (Except.ok.inj h).symm

/-! ## Who is handed what -/

end GossipSub

namespace Mqtt

variable {μ : Type} {s s' : Mqtt μ}

end Mqtt

namespace GossipSub

end GossipSub

end EmulatedMls.Updater
