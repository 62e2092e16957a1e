import EmulatedMls.Client.User
import EmulatedMls.PubSub.ParseMessage

/-!
# The user behind a broadcast

The calls of `Client/User.lean` as the `Handlers` of a broadcast.  A `User` is the slice of one
group, so the state is a slice for each group.  What MLS reads in the bytes of a message is a
parameter (`Reading`).
-/

namespace EmulatedMls.Updater

open Client Function
open Ds (fromUtf8)

/-- What the bytes hold: a message, or the group and the history of a Welcome and its tree. -/
structure Reading where
  message : Ds.MlsMessageIn → GroupMessage
  welcome : Ds.Welcome → Ds.RatchetTreeIn → String × Client.Welcome × Transcript

/-- A call on the slice of one group. -/
def onGroup (group : String) (call : User → Exec Result) (us : String → User) :
    (String → User) × Reply :=
  match call (us group) with
  | .error _ => (us, .panicked)
  | .ok r => (update us group r.user, if r.error = none then .ok else .err)

namespace Reading

variable (read : Reading) (cfg : Config) (env : Env) (name : String)

def welcomeMessage (w : Ds.Welcome) (tree : Ds.RatchetTreeIn) (sender : String)
    (recipients : List String) (active : Option (List String)) : WelcomeMessage :=
  ⟨sender, (read.welcome w tree).2.1, (read.welcome w tree).2.2, recipients, active⟩

@[simp] lemma welcomeMessage_activeMembers (w : Ds.Welcome) (tree : Ds.RatchetTreeIn)
    (sender : String) (recipients : List String) (active : Option (List String)) :
    (read.welcomeMessage w tree sender recipients active).activeMembers = active := rfl

/-- The group of a message, and what the message is to the user. -/
def incoming (m : Ds.GroupMessage) : Option (String × User.Incoming) := do
  let sender ← fromUtf8 m.sender
  match m.msg.body with
  | .welcome w => do
    let tree ← m.ratchetTree
    let recipients ← m.recipients.mapM fromUtf8
    pure ((read.welcome w tree).1, .welcome (read.welcomeMessage w tree sender recipients
      (m.activeMembers.bind fun names => names.mapM fromUtf8)))
  | _ => do
    let p ← Ds.ProtocolMessage.tryFrom m.msg
    let group ← fromUtf8 p.groupId
    pure (group, .group { read.message m.msg with sender := sender })

/-- **The handlers of the user.** -/
def handlers : Handlers (String → User) where
  username := name
  independent := cfg.agent = .independent
  holds us group := (us group).orchestrator.isSome
  countAck ack := onGroup ack.group fun u => do
    pure ⟨← u.processAck cfg ack.sender, [], none⟩
  confirmCommit group := onGroup group (User.confirmCommit cfg env)
  joinGroup w tree := onGroup (read.welcome w tree).1 fun u =>
    match u.joinGroup env (read.welcomeMessage w tree "" [] none) with
    | none => u.fails .staging
    | some g => .ok ⟨{ u with group := some g, active := some (true, 0) }, [], none⟩
  orchestrate w tree active m us :=
    match fromUtf8 m.sender, m.recipients.mapM fromUtf8 with
    -- the join comes out as before
    | some sender, some recipients => onGroup (read.welcome w tree).1
      (User.processWelcome cfg env (read.welcomeMessage w tree sender recipients active)) us
    | _, _ => (us, .panicked)
  processProtocolMessage msg sender us :=
    match (Ds.ProtocolMessage.tryFrom msg).bind fun p => fromUtf8 p.groupId with
    | none => (us, .panicked)
    | some group => onGroup group
      (User.processProtocolMessage cfg env { read.message msg with sender := sender }) us

variable {read cfg env name} {m : Ds.GroupMessage} {us : String → User} {sender : String}

/-- The same reply and, unless it is a panic, the same state. -/
def Agree (r r' : (String → User) × Reply) : Prop := r.2 = r'.2 ∧ (r.2 ≠ .panicked → r.1 = r'.1)

/-- The second join of a user comes out as the first. -/
lemma processWelcome_joined {w : WelcomeMessage} {u : User} {g : MlsGroup}
    (h : u.joinGroup env w = some g) :
    User.processWelcome cfg env w { u with group := some g, active := some (true, 0) } =
      User.processWelcome cfg env w u := by
  have h1 : User.joinGroup env w { u with group := some g, active := some (true, 0) } = some g := h
  simp only [User.processWelcome, h, h1]

lemma processWelcome_handlers {tree : Ds.RatchetTreeIn} {recipients : List String} (w : Ds.Welcome)
    (htree : m.ratchetTree = some tree) (hsender : fromUtf8 m.sender = some sender)
    (hrecipients : m.recipients.mapM fromUtf8 = some recipients) :
    Agree ((read.handlers cfg env name).processWelcome w m us) (onGroup (read.welcome w tree).1
      (User.processWelcome cfg env (read.welcomeMessage w tree sender recipients
        (m.activeMembers.bind fun names => names.mapM fromUtf8))) us) := by
  simp only [Handlers.processWelcome, htree, handlers, hsender, hrecipients]
  generalize hactive : (m.activeMembers.bind fun names => names.mapM fromUtf8) = active
  generalize (read.welcome w tree).1 = group
  have hjoin : (us group).joinGroup env (read.welcomeMessage w tree "" [] none) =
    (us group).joinGroup env (read.welcomeMessage w tree sender recipients active) := rfl
  cases hg : (us group).joinGroup env (read.welcomeMessage w tree sender recipients active) with
  | none => simp [onGroup, hjoin, hg, User.processWelcome, User.fails, Agree]
  | some g =>
    have hsame : User.processWelcome cfg env _ _ = _ := processWelcome_joined hg
    obtain hagent | ⟨params, hagent⟩ :
        cfg.agent = .independent ∨ ∃ params, cfg.agent = .orchestrator params := by
      cases cfg.agent <;> simp
    · simp [onGroup, hjoin, User.processWelcome, hg, hagent, Agree]
    · cases active with
      | none => simp [onGroup, hjoin, User.processWelcome, hg, hagent, Agree]
      | some active =>
        simp only [onGroup, hjoin, hg, if_true, hagent, reduceCtorEq, decide_false,
          Bool.false_eq_true, if_false, update_self, hsame]
        cases User.processWelcome cfg env (read.welcomeMessage w tree sender recipients active)
          (us group) <;> simp [Agree]

/-- **The handlers are the user's**: what `process_in_message` does with a message, the call of the
    client does to the slice of the group. -/
theorem processInMessage_handlers (hname : ∀ group, (us group).username = name) {group : String}
    {x : User.Incoming} (h : read.incoming m = some (group, x)) :
    Agree ((read.handlers cfg env name).processInMessage m us)
      (onGroup group (User.processInMessage cfg env · x) us) := by
  obtain ⟨sender, hsender, h⟩ := Option.bind_eq_some_iff.mp h
  have hcall {call : User → Exec Result}
      (hc : User.processInMessage cfg env (us group) x = call (us group)) :
      onGroup group (User.processInMessage cfg env · x) us = onGroup group call us := by
    simp only [onGroup, hc]
  have huser : (read.handlers cfg env name).username = name := rfl
  simp only [Handlers.processInMessage, hsender, huser]
  cases hbody : m.msg.body with
  | welcome w =>
    simp only [hbody, Option.bind_eq_bind, Option.bind_eq_some_iff] at h
    obtain ⟨tree, htree, recipients, hrecipients, h⟩ := h
    cases h
    by_cases hown : sender = name
    · simp [hown, Ds.ProtocolMessage.tryFrom, hbody, onGroup, User.processInMessage,
        welcomeMessage, hname, Agree]
    · rw [if_neg hown, hcall (if_neg (hname _ ▸ hown))]
      exact processWelcome_handlers w htree hsender hrecipients
  | privateMessage _ | publicMessage _ =>
    simp only [hbody, Option.bind_eq_bind, Option.bind_eq_some_iff] at h
    obtain ⟨p, hp, group', hgroup, h⟩ := h
    cases h
    by_cases hown : sender = name
    · rw [if_pos hown, hcall (if_pos (hown.trans (hname _).symm))]
      simp [handlers, hp, hgroup, Agree]
    · rw [if_neg hown, hcall (if_neg (hname _ ▸ hown))]
      simp [handlers, hp, hgroup, Agree]
  | groupInfo _ | keyPackage _ => simp [hbody, Ds.ProtocolMessage.tryFrom] at h

end Reading

end EmulatedMls.Updater
