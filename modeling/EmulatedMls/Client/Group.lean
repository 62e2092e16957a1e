import EmulatedMls.Lib.Exec
import Mathlib.Data.List.Dedup

/-!
# The MLS group as the client sees it

The client drives an `MlsGroup` through a handful of calls: it builds commits and proposals,
processes messages and merges commits.  What it observes is the epoch, the members, the pending
proposals, the state of the group and whether a message of another member is accepted.

**Source.**  `openmls/src/group/mls_group/{mod,membership,updates,proposal,processing,
application}.rs`.

**Transcript.**  A commit carries fresh keys, so two commits are never equal; `id` stands for
that freshness.  The confirmed transcript hash and all secrets of an epoch are functions of the
commits made so far, and the hash is collision free.  A group state is therefore represented by
the list of its commits, the newest first, and a message can be decrypted exactly by those
whose list is the one it was framed with.

**Names.**  Members are identified by the names in their credentials.  Each user has one
signature key, so `validate_key_uniqueness` is a check on names.  The order of the leaves is
left out: the client only counts members and looks names up.
-/

namespace EmulatedMls.Client

/-- The proposals that the client makes. -/
inductive ProposalKind where
  | add (user : String)
  | remove (user : String)
  | update
  deriving DecidableEq, Repr

/-- A proposal in the proposal store. -/
structure PendingProposal where
  id : ℕ
  sender : String
  kind : ProposalKind
  deriving DecidableEq, Repr

/-- A commit: its author and, by name, the members it adds, removes and updates.  An update of
    the author is not listed, its key material is renewed by the path. -/
structure Commit where
  id : ℕ
  author : String
  adds : List String
  removes : List String
  updates : List String
  deriving DecidableEq, Repr

/-- The commits of a group, the newest first. -/
abbrev Transcript := List Commit

/-- The members after a commit. -/
def Commit.apply (c : Commit) (members : List String) : List String :=
  members.filter (· ∉ c.removes) ++ c.adds

/-- The members of a group with the given history. -/
def roster (creator : String) : Transcript → List String
  | [] => [creator]
  | c :: t => c.apply (roster creator t)

inductive Content where
  | application (id : ℕ)
  | proposal (p : PendingProposal)
  | commit (c : Commit)
  deriving DecidableEq, Repr

/-- A message to the group, framed in the state `base`. -/
structure GroupMessage where
  sender : String
  base : Transcript
  content : Content
  deriving DecidableEq, Repr

def GroupMessage.epoch (m : GroupMessage) : ℕ := m.base.length

/-- `MlsGroupState`. -/
inductive GroupState where
  | operational
  | pendingCommit (c : Commit)
  | inactive
  deriving DecidableEq, Repr

/-- The errors of the group that the client can meet. -/
inductive MlsError where
  | pendingCommit
  | useAfterEviction
  | pendingProposal
  | wrongEpoch
  | unableToDecrypt
  | cannotDecryptOwnMessage
  | duplicateSignatureKey
  | unknownMemberRemoval
  | committerIncludedOwnUpdate
  | cannotRemoveSelf
  deriving DecidableEq, Repr

structure MlsGroup where
  creator : String
  transcript : Transcript
  proposals : List PendingProposal
  state : GroupState
  deriving DecidableEq, Repr

/-- The added names, in the order of the proposals. -/
def addsOf (ps : List PendingProposal) : List String :=
  ps.filterMap fun p => match p.kind with
    | .add user => some user
    | _ => none

/-- The removed names: one remove for each leaf survives the filter. -/
def removesOf (ps : List PendingProposal) : List String :=
  (ps.filterMap fun p => match p.kind with
    | .remove user => some user
    | _ => none).dedup

/-- The updated names: one update of each other leaf that is not removed. -/
def updatesOf (own : String) (ps : List PendingProposal) : List String :=
  (ps.filterMap fun p => match p.kind with
    | .update => if p.sender ≠ own ∧ p.sender ∉ removesOf ps then some p.sender else none
    | _ => none).dedup

/-- The commit that covers the given proposals. -/
def draft (own : String) (id : ℕ) (ps : List PendingProposal) : Commit :=
  ⟨id, own, addsOf ps, removesOf ps, updatesOf own ps⟩

/-- The checks on the adds and removes of a commit that the committer and the receivers share. -/
def Commit.check (c : Commit) (members : List String) : Except MlsError Unit :=
  if ¬ (c.adds.Nodup ∧ ∀ a ∈ c.adds, a ∉ members.filter (· ∉ c.removes)) then
    .error .duplicateSignatureKey
  else if ¬ (c.removes.Nodup ∧ c.removes ⊆ members) then .error .unknownMemberRemoval
  else .ok ()

namespace MlsGroup

/-- `MlsGroup::new_with_group_id`. -/
def create (creator : String) : MlsGroup := ⟨creator, [], [], .operational⟩

def epoch (g : MlsGroup) : ℕ := g.transcript.length

def members (g : MlsGroup) : List String := roster g.creator g.transcript

def isOperational (g : MlsGroup) : Except MlsError Unit :=
  match g.state with
  | .operational => .ok ()
  | .pendingCommit _ => .error .pendingCommit
  | .inactive => .error .useAfterEviction

/-- The commit builder: it covers the proposal store and the inline proposals. -/
def buildCommit (own : String) (id : ℕ) (inline : List ProposalKind) (g : MlsGroup) :
    Except MlsError (Commit × MlsGroup) := do
  g.isOperational
  let c := draft own id (g.proposals ++ inline.map (⟨id, own, ·⟩))
  c.check g.members
  if own ∈ c.removes then .error .cannotRemoveSelf
  else pure (c, { g with state := .pendingCommit c })

/-- `merge_staged_commit`: the epoch advances and the proposal store is emptied. -/
def mergeStagedCommit (own : String) (c : Commit) (g : MlsGroup) : MlsGroup where
  creator := g.creator
  transcript := c :: g.transcript
  proposals := []
  state := if own ∈ c.removes then .inactive else .operational

/-- `merge_pending_commit`: nothing happens in an operational group. -/
def mergePendingCommit (own : String) (g : MlsGroup) : Except MlsError MlsGroup :=
  match g.state with
  | .pendingCommit c => .ok (g.mergeStagedCommit own c)
  | .inactive => .error .useAfterEviction
  | .operational => .ok g

/-- `propose`: the proposal is stored and framed. -/
def propose (own : String) (id : ℕ) (kind : ProposalKind) (g : MlsGroup) :
    Except MlsError (GroupMessage × MlsGroup) := do
  g.isOperational
  let p : PendingProposal := ⟨id, own, kind⟩
  pure (⟨own, g.transcript, .proposal p⟩, { g with proposals := g.proposals ++ [p] })

def createMessage (own : String) (id : ℕ) (g : MlsGroup) : Except MlsError GroupMessage :=
  if g.state = .inactive then .error .useAfterEviction
  else if g.proposals ≠ [] then .error .pendingProposal
  else .ok ⟨own, g.transcript, .application id⟩

def storePendingProposal (p : PendingProposal) (g : MlsGroup) : MlsGroup :=
  { g with proposals := g.proposals ++ [p] }

/-- `process_message`.  Handshake messages are only accepted in the epoch of the group; there is
    no key for an application message of a past epoch.  A commit whose updates come from other
    members is rejected: on the wire they count as updates of the committer. -/
def processMessage (own : String) (m : GroupMessage) (g : MlsGroup) : Except MlsError Content :=
  if g.state = .inactive then .error .useAfterEviction
  else match m.content with
  | .application id =>
    if g.epoch < m.epoch then .error .wrongEpoch
    else if m.base ≠ g.transcript then .error .unableToDecrypt
    else if m.sender = own then .error .cannotDecryptOwnMessage
    else .ok (.application id)
  | .proposal p =>
    if m.epoch ≠ g.epoch then .error .wrongEpoch
    else if m.base ≠ g.transcript then .error .unableToDecrypt
    else if m.sender = own then .error .cannotDecryptOwnMessage
    else .ok (.proposal p)
  | .commit c =>
    if m.epoch ≠ g.epoch then .error .wrongEpoch
    else if m.base ≠ g.transcript then .error .unableToDecrypt
    else if m.sender = own then .error .cannotDecryptOwnMessage
    else do
      c.check g.members
      if c.updates ≠ [] then .error .committerIncludedOwnUpdate else pure (.commit c)

end MlsGroup

end EmulatedMls.Client
