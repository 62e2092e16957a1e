import EmulatedMls.Lib.Exec
import Mathlib.Data.List.Nodup

/-!
# Subscriptions of the users of a process

All users of a process share one connection to the broker.  The updater keeps a list of topics for
each user.  The process subscribes to a topic whenever a user does, and unsubscribes when no list
has the topic any more.

**Source.**  `subscriptions` of `emulated_client/src/pubsub/mqtt_updater.rs` and
`emulated_client/src/pubsub/gossipsub_updater.rs`.

**Lists.**  The map has one list for each user.  It is kept in the order in which it is iterated,
which can be any.  A user can list a topic several times, and loses all of them at once.

**Broker.**  The topics at the broker are those that the calls of the process lead to, one after the
other.
-/

namespace EmulatedMls.Updater

open Function List

/-- The topics of each user. -/
structure Subscriptions where
  lists : List (String × List String)
  nodup : (lists.map Prod.fst).Nodup
  deriving DecidableEq

namespace Subscriptions

variable {s : Subscriptions} {u user t topic : String}

/-- The users, without any topic. -/
def new (users : List String) (h : users.Nodup) : Subscriptions :=
  ⟨users.map (·, []), by simpa [comp_def] using h⟩

def users (s : Subscriptions) : List String := s.lists.map Prod.fst

/-- The list of the user has the topic. -/
def Lists (s : Subscriptions) (user topic : String) : Prop :=
  ∃ p ∈ s.lists, p.1 = user ∧ topic ∈ p.2

instance : Decidable (s.Lists user topic) := inferInstanceAs (Decidable (∃ p ∈ s.lists, _))

/-- `get_mut`: change the list of one user. -/
def modify (user : String) (f : List String → List String) (s : Subscriptions) : Subscriptions where
  lists := s.lists.map fun p => if p.1 = user then (p.1, f p.2) else p
  nodup := by
    have hsame : (fun p : String × List String => (if p.1 = user then (p.1, f p.2) else p).1) =
        Prod.fst := by
      funext p
      split_ifs <;> rfl
    simpa [map_map, comp_def, hsame] using s.nodup

def push (user topic : String) (s : Subscriptions) : Subscriptions := s.modify user (· ++ [topic])

def retain (user topic : String) (s : Subscriptions) : Subscriptions :=
  s.modify user (·.filter (· ≠ topic))

def subscribed (s : Subscriptions) (topic : String) : Bool := s.lists.any (topic ∈ ·.2)

/-- The users that `deliver_to_users` hands a message to, in the order of the map. -/
def receivers (s : Subscriptions) (topic : String) : List String :=
  (s.lists.filter (topic ∈ ·.2)).map Prod.fst

lemma lists_modify {f : List String → List String} :
    (s.modify user f).Lists u t ↔
      ∃ p ∈ s.lists, p.1 = u ∧ t ∈ if u = user then f p.2 else p.2 := by
  simp only [Lists, modify, mem_map, exists_exists_and_eq_and]
  refine exists_congr fun p => and_congr_right fun _ => ?_
  by_cases hp : p.1 = user
  · simp only [if_pos hp]
    refine and_congr_right fun hu => ?_
    rw [if_pos (hu.symm.trans hp)]
  · simp only [if_neg hp]
    refine and_congr_right fun hu => ?_
    rw [if_neg (hu ▸ hp)]

lemma lists_push :
    (s.push user topic).Lists u t ↔
      s.Lists u t ∨ (u = user ∧ t = topic ∧ user ∈ s.users) := by
  rw [push, lists_modify]
  by_cases hu : u = user
  · subst hu
    simp only [if_true, mem_append, mem_singleton, true_and]
    constructor
    · rintro ⟨p, hp, rfl, ht | rfl⟩
      · exact .inl ⟨p, hp, rfl, ht⟩
      · exact .inr ⟨rfl, mem_map_of_mem hp⟩
    · rintro (⟨p, hp, hpu, ht⟩ | ⟨rfl, hmem⟩)
      · exact ⟨p, hp, hpu, .inl ht⟩
      · obtain ⟨p, hp, hpu⟩ := mem_map.mp hmem
        exact ⟨p, hp, hpu, .inr rfl⟩
  · simp [hu, Lists]

lemma lists_retain : (s.retain user topic).Lists u t ↔ s.Lists u t ∧ ¬ (u = user ∧ t = topic) := by
  rw [retain, lists_modify]
  by_cases hu : u = user
  · subst hu
    simp only [if_true, mem_filter, decide_eq_true_eq, true_and, Lists]
    constructor
    · rintro ⟨p, hp, hpu, ht, hne⟩
      exact ⟨⟨p, hp, hpu, ht⟩, hne⟩
    · rintro ⟨⟨p, hp, hpu, ht⟩, hne⟩
      exact ⟨p, hp, hpu, ht, hne⟩
  · simp [hu, Lists]

lemma subscribed_iff : s.subscribed topic = true ↔ ∃ user, s.Lists user topic := by
  simp only [subscribed, any_eq_true, decide_eq_true_eq, Lists]
  constructor
  · rintro ⟨p, hp, ht⟩
    exact ⟨p.1, p, hp, rfl, ht⟩
  · rintro ⟨-, p, hp, -, ht⟩
    exact ⟨p, hp, ht⟩

lemma mem_receivers : user ∈ s.receivers topic ↔ s.Lists user topic := by
  simp only [receivers, mem_map, mem_filter, decide_eq_true_eq, Lists]
  constructor
  · rintro ⟨p, ⟨hp, ht⟩, hpu⟩
    exact ⟨p, hp, hpu, ht⟩
  · rintro ⟨p, hp, hpu, ht⟩
    exact ⟨p, ⟨hp, ht⟩, hpu⟩

lemma nodup_receivers (s : Subscriptions) (topic : String) : (s.receivers topic).Nodup :=
  s.nodup.sublist (filter_sublist.map Prod.fst)

end Subscriptions

/-! ## The process and the broker -/

/-- The lists of the users and the topics that the process is subscribed to at the broker. -/
structure Registry where
  subscriptions : Subscriptions
  topics : List String
  deriving DecidableEq

namespace Registry

variable {r r' : Registry} {user topic : String}

def new (users : List String) (h : users.Nodup) : Registry := ⟨.new users h, []⟩

/-- A `Subscribe` command.  A user of another process is not in the map. -/
def subscribe (user topic : String) (r : Registry) : Exec Registry :=
  if user ∈ r.subscriptions.users then
    .ok ⟨r.subscriptions.push user topic, r.topics.insert topic⟩
  else .error .panic

/-- The subscription of the process goes if nobody else lists the topic. -/
def unsubscribe (user topic : String) (r : Registry) : Registry :=
  let subscriptions := r.subscriptions.retain user topic
  ⟨subscriptions,
    if subscriptions.subscribed topic then r.topics else r.topics.filter (· ≠ topic)⟩

/-- The process is subscribed to a topic exactly if some user lists it. -/
def Shared (r : Registry) : Prop :=
  ∀ topic, topic ∈ r.topics ↔ ∃ user, r.subscriptions.Lists user topic

lemma subscribe_eq_ok (h : r.subscribe user topic = .ok r') :
    user ∈ r.subscriptions.users ∧
      r' = ⟨r.subscriptions.push user topic, r.topics.insert topic⟩ := by
  unfold subscribe at h
  split_ifs at h with hmem
  exact ⟨hmem, (Except.ok.inj h).symm⟩

lemma Shared.subscribe (h : Shared r) (hs : r.subscribe user topic = .ok r') : Shared r' := by
  obtain ⟨hmem, rfl⟩ := subscribe_eq_ok hs
  intro t
  simp only [mem_insert_iff, h t, Subscriptions.lists_push, hmem, and_true]
  constructor
  · rintro (rfl | ⟨u, hu⟩)
    · exact ⟨user, .inr ⟨rfl, rfl⟩⟩
    · exact ⟨u, .inl hu⟩
  · rintro ⟨u, hu | ⟨-, rfl⟩⟩
    · exact .inr ⟨u, hu⟩
    · exact .inl rfl

lemma Shared.unsubscribe (h : Shared r) (user topic : String) :
    Shared (r.unsubscribe user topic) := by
  intro t
  rcases eq_or_ne t topic with rfl | hne
  · -- the topic itself: the scan decides
    rw [← Subscriptions.subscribed_iff]
    simp only [Registry.unsubscribe]
    by_cases hsub : (r.subscriptions.retain user t).subscribed t = true
    · obtain ⟨u, hu⟩ := Subscriptions.subscribed_iff.mp hsub
      simp only [hsub, if_true, iff_true]
      exact (h t).mpr ⟨u, (Subscriptions.lists_retain.mp hu).1⟩
    · simp [hsub]
  · have hlists : (∃ u, (r.subscriptions.retain user topic).Lists u t) ↔
        ∃ u, r.subscriptions.Lists u t := by
      simp [Subscriptions.lists_retain, hne]
    simp only [Registry.unsubscribe, hlists, ← h t]
    split_ifs <;> simp [hne]

end Registry

/-! ## Acknowledgements -/

structure WelcomeAcknowledgement where
  sender : String
  group : String
  deriving DecidableEq, Repr

/-- `DSMessage`, with group messages of any kind. -/
inductive DSMessage (μ : Type) where
  | welcomeAcknowledgement (ack : WelcomeAcknowledgement)
  | groupMessage (m : μ)
  deriving DecidableEq, Repr

def groupTopics : String := "cgka/group/"

def startsWith (s start : String) : Bool := start.toList.isPrefixOf s.toList

/-- Drop one occurrence at the start. -/
def trimOnce (start s : List Char) : List Char :=
  if start.isPrefixOf s then s.drop start.length else s

/-- `trim_start_matches`: all occurrences at the start go. -/
def trimStartMatches (s start : String) : String :=
  String.ofList ((trimOnce start.toList)^[s.toList.length] s.toList)

def groupName (topic : String) : String := trimStartMatches topic groupTopics

def ackTopic (topic : String) : String := groupTopics ++ groupName topic

def ackOf (user topic : String) : WelcomeAcknowledgement := ⟨user, groupName topic⟩

lemma trimOnce_of_not {start s : List Char} (h : start.isPrefixOf s = false) :
    trimOnce start s = s := by
  simp [trimOnce, h]

lemma trimStartMatches_append {start name : String} (hne : start.toList ≠ [])
    (hname : startsWith name start = false) : trimStartMatches (start ++ name) start = name := by
  have honce : trimOnce start.toList (start.toList ++ name.toList) = name.toList := by
    have hstart : start.toList.isPrefixOf (start.toList ++ name.toList) = true :=
      isPrefixOf_iff_prefix.mpr (prefix_append _ _)
    rw [trimOnce, if_pos hstart, drop_left]
  obtain ⟨n, hn⟩ : ∃ n, (start ++ name).toList.length = n + 1 := by
    refine Nat.exists_eq_succ_of_ne_zero ?_
    simp [String.toList_append, hne]
  rw [trimStartMatches, hn, iterate_succ_apply, String.toList_append, honce,
    iterate_fixed (trimOnce_of_not hname), String.ofList_toList]

/-- **The acknowledgement is meant for the topic of the subscription.** -/
lemma ackTopic_eq {name : String} (hname : startsWith name groupTopics = false) :
    ackTopic (groupTopics ++ name) = groupTopics ++ name := by
  rw [ackTopic, groupName, trimStartMatches_append (by decide) hname]

end EmulatedMls.Updater
