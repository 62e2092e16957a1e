import EmulatedMls.Ds.Encode

/-!
# Broadcasts that stop a client

A message that arrives on a topic is decoded and handled by `parse_message`, in a thread that holds
the lock of the user.  Bytes that are no message, names that are not UTF-8 and acknowledgements of
an unknown group make it panic, and an error is not tolerated either: the lock is poisoned, and the
user handles nothing any more.

**Source.**  `emulated_client/src/pubsub/mod.rs`, `process_in_message` and `process_ack` of
`emulated_client/src/user.rs` and the threads of `deliver_to_users`.

**The user.**  What it does with a decoded message is a parameter (`Handlers`) and may fail or
panic itself.  `Reading.handlers` is the user of `Client/User.lean`.
-/

namespace EmulatedMls.Updater

open Ds

inductive Reply where
  | ok
  | err
  | panicked
  deriving DecidableEq, Repr

/-- What the user does with a decoded message.  It has an orchestrator for a group (`holds`), or
    none at all (`independent`).  `orchestrate` elects from the active members of a Welcome. -/
structure Handlers (σ : Type) where
  username : String
  independent : Bool
  holds : σ → String → Bool
  countAck : WelcomeAcknowledgement → σ → σ × Reply
  confirmCommit : String → σ → σ × Reply
  joinGroup : Welcome → RatchetTreeIn → σ → σ × Reply
  orchestrate : Welcome → RatchetTreeIn → List String → GroupMessage → σ → σ × Reply
  processProtocolMessage : MlsMessageIn → String → σ → σ × Reply

structure Broadcast where
  topic : String
  bytes : Ds.Bytes

/-- A user behind its lock. -/
structure Shared (σ : Type) where
  user : σ
  poisoned : Bool
  deriving DecidableEq

namespace Handlers

variable {σ : Type} (mls : Openmls) (h : Handlers σ)

def processAck (ack : WelcomeAcknowledgement) (u : σ) : σ × Reply :=
  if ack.sender = h.username ∨ h.independent then (u, .ok)
  else if h.holds u ack.group then h.countAck ack u
  else (u, .panicked)

/-- The Welcome branch of `process_in_message`. -/
def processWelcome (w : Welcome) (m : GroupMessage) (u : σ) : σ × Reply :=
  match m.ratchetTree with
  | none => (u, .err)
  | some tree =>
    match h.joinGroup w tree u with
    | (u, .ok) =>
      if h.independent then (u, .ok)
      else match m.activeMembers.bind fun names => names.mapM fromUtf8 with
        | none => (u, .panicked)
        | some active => h.orchestrate w tree active m u
    | failed => failed

def processInMessage (m : GroupMessage) (u : σ) : σ × Reply :=
  match fromUtf8 m.sender with
  | none => (u, .panicked)
  | some sender =>
    if sender = h.username then
      match (ProtocolMessage.tryFrom m.msg).bind fun p => fromUtf8 p.groupId with
      | none => (u, .panicked)
      | some group => h.confirmCommit group u
    else match m.msg.body with
      | .welcome w => h.processWelcome w m u
      | .privateMessage _ | .publicMessage _ => h.processProtocolMessage m.msg sender u
      | _ => (u, .panicked)

/-- `parse_message`.  The sender of a message that fails is valid: it was read before. -/
def parseMessage (d : Broadcast) (u : σ) : σ × Reply :=
  match tlsDeserialize (readDSMessage mls) d.bytes with
  | none | some none => (u, .panicked)
  | some (some (.welcomeAcknowledgement ack)) => h.processAck ack u
  | some (some (.groupMessage m)) =>
    match m.recipients.mapM fromUtf8 with
    | none => (u, .panicked)
    | some recipients =>
      if h.username ∉ recipients ∧ startsWith d.topic "cgka/welcome" then (u, .ok)
      else h.processInMessage m u

/-- The thread of a message.  Behind a poisoned lock nothing is handled. -/
def deliver (s : Shared σ) (d : Broadcast) : Shared σ :=
  if s.poisoned then s
  else
    let (user, reply) := h.parseMessage mls d s.user
    ⟨user, reply ≠ .ok⟩

/-! ## What is handled -/

variable (good : Reply → Prop)

/-- The user joins with the tree, and an orchestrated one with valid names of active members. -/
def Joins (w : Welcome) (m : GroupMessage) (u : σ) : Prop :=
  match m.ratchetTree with
  | none => good .err
  | some tree =>
    match h.joinGroup w tree u with
    | (u, .ok) => h.independent ∨ ∃ names active, m.activeMembers = some names ∧
        names.mapM fromUtf8 = some active ∧ good (h.orchestrate w tree active m u).2
    | (_, reply) => good reply

/-- The names in the message are valid, its kind is known and the reply of the user is good. -/
def Takes (m : GroupMessage) (u : σ) : Prop :=
  ∃ sender, fromUtf8 m.sender = some sender ∧
    if sender = h.username then
      ∃ p group, ProtocolMessage.tryFrom m.msg = some p ∧ fromUtf8 p.groupId = some group ∧
        good (h.confirmCommit group u).2
    else (∃ w, m.msg.body = .welcome w ∧ h.Joins good w m u) ∨
      ∃ p, ProtocolMessage.tryFrom m.msg = some p ∧
        good (h.processProtocolMessage m.msg sender u).2

/-- The bytes are a message to which the reply is good, or one that does not concern the user. -/
def Accepts (d : Broadcast) (u : σ) : Prop :=
  ∃ m, tlsDeserialize (readDSMessage mls) d.bytes = some (some m) ∧
    match m with
    | .welcomeAcknowledgement ack => (ack.sender = h.username ∨ h.independent) ∨
        h.holds u ack.group ∧ good (h.countAck ack u).2
    | .groupMessage m => ∃ recipients, m.recipients.mapM fromUtf8 = some recipients ∧
        (h.username ∉ recipients ∧ startsWith d.topic "cgka/welcome" ∨ h.Takes good m u)

/-- Every message is accepted in the state that the ones before it have led to. -/
def AcceptsAll : List Broadcast → σ → Prop
  | [], _ => True
  | d :: ds, u => h.Accepts mls (· = .ok) d u ∧ AcceptsAll ds (h.parseMessage mls d u).1

variable {mls h good} {d : Broadcast} {u : σ} {m : GroupMessage}

section

variable (hok : good .ok) (hpanic : ¬ good .panicked)
include hok hpanic

lemma processWelcome_iff {w : Welcome} : good (h.processWelcome w m u).2 ↔ h.Joins good w m u := by
  unfold processWelcome Joins
  cases m.ratchetTree with
  | none => rfl
  | some tree =>
    rcases hj : h.joinGroup w tree u with ⟨u', - | - | -⟩
    · cases h.independent <;> cases m.activeMembers with
      | none => simp [hj, hok, hpanic]
      | some names => cases hn : names.mapM fromUtf8 <;> simp [hj, hn, hok, hpanic]
    · simp [hj]
    · simp [hj]

lemma processInMessage_iff : good (h.processInMessage m u).2 ↔ h.Takes good m u := by
  unfold processInMessage Takes
  cases fromUtf8 m.sender with
  | none => simp [hpanic]
  | some sender =>
    by_cases hsender : sender = h.username
    · cases hp : ProtocolMessage.tryFrom m.msg with
      | none => simp [hsender, hpanic]
      | some p => cases hg : fromUtf8 p.groupId <;> simp [hsender, hpanic, hg]
    · cases hbody : m.msg.body with
      | welcome w =>
        simp [hsender, ProtocolMessage.tryFrom, hbody, processWelcome_iff hok hpanic]
      | _ => simp [hsender, ProtocolMessage.tryFrom, hbody, hpanic]

lemma parseMessage_iff : good (h.parseMessage mls d u).2 ↔ h.Accepts mls good d u := by
  unfold parseMessage Accepts
  rcases tlsDeserialize (readDSMessage mls) d.bytes with - | - | ack | m
  · simp [hpanic]
  · simp [hpanic]
  · by_cases hown : ack.sender = h.username ∨ h.independent = true
    · simp [processAck, hown, hok]
    · cases hholds : h.holds u ack.group <;> simp [processAck, hown, hholds, hpanic]
  · cases hr : m.recipients.mapM fromUtf8 with
    | none => simp [hr, hpanic]
    | some recipients =>
      by_cases hskip : h.username ∉ recipients ∧ startsWith d.topic "cgka/welcome" = true
      · simp [hr, hskip, hok]
      · simp only [hr, if_neg hskip, processInMessage_iff hok hpanic]
        simp [hr, hskip]

end

lemma foldl_deliver_poisoned (ds : List Broadcast) {s : Shared σ} (hs : s.poisoned) :
    ds.foldl (h.deliver mls) s = s := by
  induction ds with
  | nil => rfl
  | cons d ds ih => rw [List.foldl_cons, deliver, if_pos hs, ih]

/-- **Which broadcasts a client survives.**  The lock of the user stays free exactly if every byte
    string is a message with valid names that the user takes without an error. -/
theorem survives_broadcasts_iff (mls : Openmls) (h : Handlers σ) (u : σ) (ds : List Broadcast) :
    ((ds.foldl (h.deliver mls) ⟨u, false⟩).poisoned = false ↔ h.AcceptsAll mls ds u) ∧
    (∀ d, (h.parseMessage mls d u).2 ≠ .panicked ↔ h.Accepts mls (· ≠ .panicked) d u) ∧
    (∀ d, (∀ m, tlsDeserialize (readDSMessage mls) d.bytes ≠ some (some m)) →
      h.parseMessage mls d u = (u, .panicked)) ∧
    ∀ s : Shared σ, s.poisoned → ds.foldl (h.deliver mls) s = s := by
  refine ⟨?_, fun d => ?_, fun d hd => ?_, fun s => foldl_deliver_poisoned ds⟩
  · induction ds generalizing u with
    | nil => simp [AcceptsAll]
    | cons d ds ih =>
      rw [List.foldl_cons, AcceptsAll, ← @parseMessage_iff σ mls h (· = .ok) d u rfl (by simp)]
      by_cases hok : (h.parseMessage mls d u).2 = .ok
      · simpa [deliver, hok] using ih (h.parseMessage mls d u).1
      · rw [foldl_deliver_poisoned ds] <;> simp [deliver, hok]
  · exact @parseMessage_iff σ mls h (· ≠ .panicked) d u (by simp) (by simp)
  · unfold parseMessage
    rcases hm : tlsDeserialize (readDSMessage mls) d.bytes with - | - | m
    · rfl
    · rfl
    · exact absurd hm (hd m)

/-- `B` counts the acknowledgements of the group `G`. -/
def counting : Handlers ℕ where
  username := "B"
  independent := false
  holds _ group := group = "G"
  countAck _ n := (n + 1, .ok)
  confirmCommit _ n := (n, .ok)
  joinGroup _ _ n := (n, .ok)
  orchestrate _ _ _ _ n := (n, .ok)
  processProtocolMessage _ _ n := (n, .ok)

/-- An acknowledgement of `A` for a group with a name of one byte. -/
def ackFor (group : UInt8) : Broadcast := ⟨"cgka/group/G", [1, 1, 65, 1, group]⟩

/-- An empty message, a name that is not UTF-8 or an acknowledgement of an unknown group stops `B`,
    which would have counted the next acknowledgement. -/
theorem malformed_stops_client :
    [ackFor 71].foldl (counting.deliver plainService.toOpenmls) ⟨0, false⟩ = ⟨1, false⟩ ∧
    ∀ d ∈ [⟨"cgka/group/G", []⟩, ackFor 255, ackFor 72],
      [d, ackFor 71].foldl (counting.deliver plainService.toOpenmls) ⟨0, false⟩ = ⟨0, true⟩ := by
  decide +kernel

end Handlers

end EmulatedMls.Updater
