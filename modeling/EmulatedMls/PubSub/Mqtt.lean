import EmulatedMls.Lib.JoinChain
import EmulatedMls.Lib.Machine
import EmulatedMls.PubSub.Subscriptions
import Mathlib.Data.List.InsertIdx

/-!
# The updater of MQTT

The updater of a process takes commands of the users, events of the client library and messages
from the broker, one after the other.  A subscription is first a call of the library, which sends a
packet with an identifier and reports it, and later an acknowledgement with the same identifier.
The updater keeps the subscriptions that wait for theirs in `pending_subscriptions`, and publishes
a `WelcomeAcknowledgement` when the subscription to a group is taken up.

**Source.**  `emulated_client/src/pubsub/mqtt_updater.rs`.

**Library.**  It sends the packets of the calls in the order of the calls and reports each once.  It
gives a packet an identifier that no other outstanding subscription has.  A subscription that has
been sent is acknowledged once.

**Messages.**  `deliver_to_users` spawns a thread for every user that lists the topic.  The threads,
their handles and the locks of the users are a `JoinChain`.  An agent takes the lock of its user at
any time.
-/

namespace EmulatedMls.Updater

open List

/-- An entry of `pending_subscriptions`. -/
structure Pending where
  user : String
  topic : String
  id : Option ℕ
  deriving DecidableEq, Repr

/-- A call of `subscribe` of the client library, with the user it is made for. -/
structure Request where
  user : String
  topic : String
  deriving DecidableEq, Repr

structure Delivery (μ : Type) where
  topic : String
  message : DSMessage μ
  deriving DecidableEq, Repr

/-- A process on MQTT; `calls` are the calls of `deliver_to_users`. -/
structure Mqtt (μ : Type) where
  registry : Registry
  pending : List Pending
  deliveries : JoinChain String (Delivery μ)
  calls : List (Delivery μ × Subscriptions)
  queue : List Request
  outstanding : List (ℕ × Request)
  acknowledged : List Request
  published : List (Delivery μ)

namespace Mqtt

variable {μ : Type} {s s' : Mqtt μ} {user topic : String} {id : ℕ}

def new (users : List String) (h : users.Nodup) : Mqtt μ :=
  ⟨.new users h, [], .empty, [], [], [], [], []⟩

/-! ## The handlers -/

def subscribe (user topic : String) (s : Mqtt μ) : Exec (Mqtt μ) := do
  let registry ← s.registry.subscribe user topic
  pure { s with
    registry := registry
    queue := s.queue ++ [⟨user, topic⟩]
    pending := s.pending ++ [⟨user, topic, none⟩] }

def unsubscribe (user topic : String) (s : Mqtt μ) : Mqtt μ :=
  { s with registry := s.registry.unsubscribe user topic }

/-- The first entry without an identifier gets one. -/
def fillFirst (id : ℕ) : List Pending → List Pending
  | [] => []
  | p :: ps => if p.id = none then { p with id := some id } :: ps else p :: fillFirst id ps

/-- `Outgoing::Subscribe`. -/
def outgoing (id : ℕ) (s : Mqtt μ) : Mqtt μ := { s with pending := fillFirst id s.pending }

/-- The message that acknowledges the subscription of a user to a group. -/
def ackMessages (user topic : String) : List (Delivery μ) :=
  if startsWith topic groupTopics then
    [⟨ackTopic topic, .welcomeAcknowledgement (ackOf user topic)⟩]
  else []

/-- `SubAck`.  An unknown identifier is ignored. -/
def subAck (id : ℕ) (s : Mqtt μ) : Mqtt μ :=
  match s.pending.find? (·.id = some id) with
  | none => s
  | some p => { s with
      pending := s.pending.filter (·.id ≠ some id)
      published := s.published ++ ackMessages p.user p.topic }

def deliverToUsers (d : Delivery μ) (s : Mqtt μ) : Mqtt μ :=
  { s with
    deliveries := s.deliveries.spawnAll d (s.registry.subscriptions.receivers d.topic)
    calls := s.calls ++ [(d, s.registry.subscriptions)] }

/-! ## Runs -/

inductive Event (μ : Type) where
  | subscribe (user topic : String)
  | unsubscribe (user topic : String)
  | outgoing (id : ℕ)
  | subAck (id : ℕ)
  | publish (d : Delivery μ)
  | thread (e : JoinChain.Step String)

def step (s : Mqtt μ) : Event μ → Option (Mqtt μ)
  | .subscribe user topic => (s.subscribe user topic).toOption
  | .unsubscribe user topic => some (s.unsubscribe user topic)
  | .outgoing id =>
    match s.queue with
    | [] => none
    | r :: queue =>
      if id ∈ s.outstanding.map Prod.fst then none
      else some { s.outgoing id with queue := queue, outstanding := s.outstanding ++ [(id, r)] }
  | .subAck id =>
    match s.outstanding.find? (·.1 = id) with
    | none => none
    | some (_, r) => some { s.subAck id with
        outstanding := s.outstanding.filter (·.1 ≠ id)
        acknowledged := s.acknowledged ++ [r] }
  | .publish d => some (s.deliverToUsers d)
  | .thread e => (s.deliveries.step e).map fun deliveries => { s with deliveries := deliveries }

end Mqtt

def mqtt (μ : Type) : Machine (Mqtt μ) (Mqtt.Event μ) where
  init s := ∃ users h, s = Mqtt.new users h
  step := Mqtt.step

namespace Mqtt

variable {μ : Type} {s s' : Mqtt μ} {user topic : String} {id : ℕ}

inductive Steps (s : Mqtt μ) : Event μ → Mqtt μ → Prop where
  | subscribe {user topic : String} {registry : Registry}
      (hr : s.registry.subscribe user topic = .ok registry) :
      Steps s (.subscribe user topic) { s with
        registry := registry
        queue := s.queue ++ [⟨user, topic⟩]
        pending := s.pending ++ [⟨user, topic, none⟩] }
  | unsubscribe (user topic : String) :
      Steps s (.unsubscribe user topic) (s.unsubscribe user topic)
  | outgoing {id : ℕ} {r : Request} {queue : List Request} (hqueue : s.queue = r :: queue)
      (hid : id ∉ s.outstanding.map Prod.fst) :
      Steps s (.outgoing id)
        { s.outgoing id with queue := queue, outstanding := s.outstanding ++ [(id, r)] }
  | subAck {id : ℕ} {r : Request} (hr : s.outstanding.find? (·.1 = id) = some (id, r)) :
      Steps s (.subAck id) { s.subAck id with
        outstanding := s.outstanding.filter (·.1 ≠ id)
        acknowledged := s.acknowledged ++ [r] }
  | publish (d : Delivery μ) : Steps s (.publish d) (s.deliverToUsers d)
  | thread {e : JoinChain.Step String} {deliveries : JoinChain String (Delivery μ)}
      (he : s.deliveries.step e = some deliveries) :
      Steps s (.thread e) { s with deliveries := deliveries }

variable {e : Event μ}

lemma step_cases (h : s.step e = some s') : Steps s e s' := by
  cases e with
  | subscribe user topic =>
    obtain ⟨registry, hr, h⟩ := Exec.bind_inv (Exec.toOption_eq_some.mp h)
    cases h
    exact .subscribe hr
  | unsubscribe user topic => cases h; exact .unsubscribe user topic
  | outgoing id =>
    simp only [step] at h
    split at h
    · cases h
    · next r queue hqueue =>
      split_ifs at h with hid
      cases h
      exact .outgoing hqueue hid
  | subAck id =>
    simp only [step] at h
    split at h
    · cases h
    · next id' r hr =>
      obtain rfl : id' = id := by simpa using find?_some hr
      cases h
      exact .subAck hr
  | publish d => cases h; exact .publish d
  | thread e =>
    obtain ⟨deliveries, he, rfl⟩ := Option.map_eq_some_iff.mp h
    exact .thread he

/-! ## Acknowledgements -/

def sentEntry (p : ℕ × Request) : Pending := ⟨p.2.user, p.2.topic, some p.1⟩

def queuedEntry (r : Request) : Pending := ⟨r.user, r.topic, none⟩

/-- The entries are those of the calls that are not acknowledged, the sent ones first.  The
    identifiers of the sent ones are distinct, and every acknowledged subscription to a group has
    been announced once. -/
structure Matched (s : Mqtt μ) : Prop where
  pending : s.pending = s.outstanding.map sentEntry ++ s.queue.map queuedEntry
  distinct : (s.outstanding.map Prod.fst).Nodup
  published : s.published = s.acknowledged.flatMap fun r => ackMessages r.user r.topic

variable {ps : List (ℕ × Request)} {r : Request}

lemma fillFirst_append (r : Request) (rs : List Request) :
    fillFirst id (ps.map sentEntry ++ (r :: rs).map queuedEntry) =
      (ps ++ [(id, r)]).map sentEntry ++ rs.map queuedEntry := by
  induction ps with
  | nil => rfl
  | cons p ps ih =>
    have hsent : (sentEntry p).id ≠ none := by simp [sentEntry]
    rw [map_cons, cons_append, fillFirst, if_neg hsent, ih]
    rfl

lemma find?_pending {rs : List Request} (h : ps.find? (·.1 = id) = some (id, r)) :
    (ps.map sentEntry ++ rs.map queuedEntry).find? (·.id = some id) = some (sentEntry (id, r)) := by
  rw [find?_append, find?_map]
  have hsame : ((fun p : Pending => decide (p.id = some id)) ∘ sentEntry) =
      fun p => decide (p.1 = id) := by
    funext p
    simp [sentEntry]
  rw [hsame, h]
  rfl

lemma filter_pending (ps : List (ℕ × Request)) (rs : List Request) :
    (ps.map sentEntry ++ rs.map queuedEntry).filter (·.id ≠ some id) =
      (ps.filter (·.1 ≠ id)).map sentEntry ++ rs.map queuedEntry := by
  rw [filter_append, filter_map]
  congr 1
  · congr 2
    funext p
    simp [sentEntry]
  · refine filter_eq_self.mpr fun p hp => ?_
    obtain ⟨r, -, rfl⟩ := mem_map.mp hp
    simp [queuedEntry]

lemma Matched.subAck_eq (h : Matched s) (hr : s.outstanding.find? (·.1 = id) = some (id, r)) :
    s.subAck id = { s with
      pending := (s.outstanding.filter (·.1 ≠ id)).map sentEntry ++ s.queue.map queuedEntry
      published := s.published ++ ackMessages r.user r.topic } := by
  unfold subAck
  rw [h.pending, find?_pending hr, filter_pending]
  rfl

lemma Matched.step (h : Matched s) (hs : s.step e = some s') : Matched s' := by
  cases step_cases hs with
  | subscribe hr =>
    refine ⟨?_, h.distinct, h.published⟩
    simp [h.pending, queuedEntry]
  | unsubscribe user topic | publish d | thread he => exact ⟨h.pending, h.distinct, h.published⟩
  | outgoing hqueue hid =>
    refine ⟨?_, ?_, h.published⟩
    · simp only [outgoing, h.pending, hqueue]
      exact fillFirst_append _ _
    · rw [map_append, nodup_append]
      refine ⟨h.distinct, by simp, fun x hx y hy hxy => ?_⟩
      obtain rfl : y = _ := mem_singleton.mp hy
      exact hid (hxy ▸ hx)
  | subAck hr =>
    rw [h.subAck_eq hr]
    refine ⟨rfl, h.distinct.sublist (filter_sublist.map _), ?_⟩
    simp [h.published]

/-- **What is announced**: one acknowledgement of the user, on the topic of the group. -/
lemma ackMessages_group {name : String} (hname : startsWith name groupTopics = false) :
    (ackMessages user (groupTopics ++ name) : List (Delivery μ)) =
      [⟨groupTopics ++ name, .welcomeAcknowledgement ⟨user, name⟩⟩] := by
  have hstart : startsWith (groupTopics ++ name) groupTopics = true := by simp [startsWith]
  rw [ackMessages, if_pos hstart, ackTopic_eq hname, ackOf, groupName,
    trimStartMatches_append (by decide) hname]

/-- Other subscriptions are not announced. -/
lemma ackMessages_other (h : startsWith topic groupTopics = false) :
    (ackMessages user topic : List (Delivery μ)) = [] := by
  simp [ackMessages, h]

end Mqtt

end EmulatedMls.Updater
