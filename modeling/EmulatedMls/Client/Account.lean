import EmulatedMls.Client.Retry
import EmulatedMls.Lib.BufferedLog

/-!
# A user with all its groups and its log

A user takes part in several groups and keeps one log for all of them.  Messages reach it in two
ways: the updater of a broker hands them over one by one, and `fetch_updates` gets a list of them
from the delivery service.

**Source.**  `process_in_message`, `fetch_updates`, `write_timestamp` and `flush_logs` of
`emulated_client/src/user.rs` and `parse_message` of `emulated_client/src/pubsub/mod.rs`.

**Groups.**  A call only touches the entries of its own group, so a user is a map from group names
to the slices of `Client/User`.

**Log.**  `confirm_commit` and `create_group` write their records themselves.  The record of any
other message is returned by `process_in_message`, and it depends on the caller whether it is
written.  What happens to the log is a list of operations of a `BufferedLog`.
-/

namespace EmulatedMls.Client

/-- A line of the log: a record with the name of its group. -/
structure LogLine where
  group : String
  record : ActionRecord
  deriving DecidableEq, Repr

/-- The records that a call yields. -/
def recordsIn (os : List Output) : List ActionRecord :=
  os.filterMap fun
    | .record a => some a
    | _ => none

@[simp] lemma recordsIn_nil : recordsIn [] = [] := rfl

def User.Incoming.sender : User.Incoming → String
  | .group m => m.sender
  | .welcome w => w.sender

/-- A message that is handed to a user, with what the outside world answers. -/
structure Turn where
  group : String
  env : Env
  message : User.Incoming

/-- The operations on the log of a user. -/
abbrev LogOp := BufferedLog.Op LogLine

/-- What the handling of a message leads to. -/
structure Reaction where
  groups : String → User
  outputs : List Output
  log : List LogOp
  returned : Option LogLine
  error : Option ClientError

/-- `process_in_message`.  Only the record of a confirmed commit is written by it. -/
def processInMessage (cfg : Config) (t : Turn) (groups : String → User) : Exec Reaction := do
  let u := groups t.group
  let r ← u.processInMessage cfg t.env t.message
  let lines := (recordsIn r.outputs).map (LogLine.mk t.group)
  let groups := Function.update groups t.group r.user
  if t.message.sender = u.username then
    pure ⟨groups, r.outputs, lines.map .push, none, r.error⟩
  else
    let log := if .unsubscribe ∈ r.outputs then [.flush] else []
    pure ⟨groups, r.outputs, log, lines.head?, r.error⟩

lemma processInMessage_cases {cfg : Config} {t : Turn} {groups : String → User} {r : Reaction}
    (h : processInMessage cfg t groups = .ok r) :
    ∃ r', (groups t.group).processInMessage cfg t.env t.message = .ok r' ∧
      r.groups = Function.update groups t.group r'.user ∧ r.outputs = r'.outputs ∧
      r.error = r'.error ∧
      ((t.message.sender = (groups t.group).username ∧
          r.log = ((recordsIn r'.outputs).map (LogLine.mk t.group)).map .push ∧
          r.returned = none) ∨
        (t.message.sender ≠ (groups t.group).username ∧
          r.log = (if .unsubscribe ∈ r'.outputs then [.flush] else []) ∧
          r.returned = ((recordsIn r'.outputs).map (LogLine.mk t.group)).head?)) := by
  obtain ⟨r', hr', h⟩ := Exec.bind_inv h
  refine ⟨r', hr', ?_⟩
  by_cases hown : t.message.sender = (groups t.group).username
  · simp only [if_pos hown] at h
    cases h
    exact ⟨rfl, rfl, rfl, .inl ⟨hown, rfl, rfl⟩⟩
  · simp only [if_neg hown] at h
    cases h
    exact ⟨rfl, rfl, rfl, .inr ⟨hown, rfl, rfl⟩⟩

def Reaction.written (r : Reaction) : List LogOp := r.log ++ r.returned.toList.map .push

/-- What `fetch_updates` leads to, with the messages that it has handed to `process_in_message`. -/
structure Fetched where
  groups : String → User
  log : List LogOp
  applied : List Turn
  error : Option ClientError

/-- `fetch_updates` returns at the first error, and drops the records returned to it. -/
def fetchUpdates (cfg : Config) : List Turn → (String → User) → Exec Fetched
  | [], groups => pure ⟨groups, [], [], none⟩
  | t :: ts, groups => do
    let r ← processInMessage cfg t groups
    match r.error with
    | some e => pure ⟨r.groups, r.log, [t], some e⟩
    | none => do
      let f ← fetchUpdates cfg ts r.groups
      pure { f with log := r.log ++ f.log, applied := t :: f.applied }

/-- The same messages handed over one by one, with their records written. -/
def handleAll (cfg : Config) : List Turn → (String → User) → Exec ((String → User) × List LogOp)
  | [], groups => pure (groups, [])
  | t :: ts, groups => do
    let r ← processInMessage cfg t groups
    let (groups, log) ← handleAll cfg ts r.groups
    pure (groups, r.written ++ log)

end EmulatedMls.Client
