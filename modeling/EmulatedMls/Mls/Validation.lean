import EmulatedMls.Mls.ProposalQueue

/-!
# Validating the proposals of a commit

A committer checks its own queue before it builds the commit, and every receiver checks the queue
that it reconstructs from the commit.  Both run the same checks on the proposals and senders of
their queue, in almost the same order; the receiver also sees the update path.

**Parameters.**  `GroupView` holds what the checks read of the group: the leaves, and the checks of
one leaf node, pre-shared key or extension list on its own.

**Source.**  `group/public_group/validation.rs`, `group/public_group/staged_commit.rs` and the
validation block of `group/mls_group/commit_builder.rs`.
-/

namespace EmulatedMls

inductive ProposalValidationError where
  | unsupportedProposalType
  | duplicateSignatureKey
  | duplicateEncryptionKey
  | duplicateInitKey
  | initEncryptionKeyCollision
  | invalidAddProposalCiphersuiteOrVersion
  | leafNodeValidation
  | insufficientCapabilities
  | unknownMemberRemoval
  | duplicateMemberRemoval
  | updateFromNonMember
  | committerIncludedOwnUpdate
  | psk
  | duplicatePsk
  | tooManyGceProposals
  | groupContextExtensions
  | externalInitProposalInRegularCommit
  /-- `CreateCommitError::CannotRemoveSelf`, reported by the committer only. -/
  | cannotRemoveSelf
  deriving DecidableEq, Repr

/-- What the checks read of a group. -/
structure GroupView (D : Type) where
  leaves : List (Option (LeafNode D))
  ciphersuite : ℕ
  version : ℕ
  /-- The custom proposal types that a leaf's capabilities list. -/
  supportedProposals : LeafNode D → List ℕ
  /-- `validate_leaf_node`: capabilities, credential types and lifetime. -/
  validateLeafNode : LeafNode D → Bool
  /-- `validate_leaf_node_capabilities`. -/
  validateLeafNodeCapabilities : LeafNode D → Bool
  /-- `PreSharedKeyId::validate_in_proposal`. -/
  validatePskId : Bytes → Bool
  /-- The checks of the extensions in a group context extensions proposal. -/
  validateExtensions : Bytes → Bool

/-- The public part of an update path: the new leaf and the keys of the path nodes. -/
structure UpdatePath (D : Type) where
  leafNode : LeafNode D
  nodes : List Key
  deriving DecidableEq, Repr

section Validation

variable {D : Type}

/-! ## Reading a queue -/

variable (v : GroupView D) (es : List (Proposal D × Sender))

def addProposals : List (KeyPackage D) :=
  es.filterMap fun e => match e.1 with | .add kp => some kp | _ => none

def updateProposals : List (LeafNode D × Sender) :=
  es.filterMap fun e => match e.1 with | .update l => some (l, e.2) | _ => none

def removeProposals : List LeafNodeIndex :=
  es.filterMap fun e => match e.1 with | .remove i => some i | _ => none

def pskProposals : List Bytes :=
  es.filterMap fun e => match e.1 with | .preSharedKey p => some p | _ => none

def fullLeaves (leaves : List (Option (LeafNode D))) : List (LeafNodeIndex × LeafNode D) :=
  leaves.zipIdx.filterMap fun e => e.1.map fun l => (e.2, l)

/-- The leaf at an index; `none` for a blank leaf and outside of the tree. -/
def leafAt (leaves : List (Option (LeafNode D))) (i : LeafNodeIndex) : Option (LeafNode D) :=
  (leaves[i]?).join

/-! ## The checks -/

/-- Fail with `err` unless the condition holds. -/
def require (b : Bool) (err : ProposalValidationError) : Except ProposalValidationError Unit :=
  if b then .ok () else .error err

/-- A loop that inserts values into a set and fails at the first one that is already there. -/
def insertFresh {α : Type} [DecidableEq α] (err : ProposalValidationError) :
    List α → List α → Except ProposalValidationError (List α)
  | set, [] => .ok set
  | set, k :: ks => if k ∈ set then .error err else insertFresh err (k :: set) ks

/-- `validate_proposal_type_support`: every leaf supports the custom types. -/
def validateProposalTypeSupport : Except ProposalValidationError Unit :=
  require (es.all fun e => match e.1 with
    | .custom t _ => (fullLeaves v.leaves).all fun l => t ∈ v.supportedProposals l.2
    | _ => true) .unsupportedProposalType

/-- The loop over the init keys of `validate_key_uniqueness`. -/
def checkInitKeys (encryptionKeys : List Key) :
    List Key → List Key → Except ProposalValidationError Unit
  | _, [] => .ok ()
  | initKeys, k :: ks =>
    if k ∈ encryptionKeys then .error .initEncryptionKeyCollision
    else if k ∈ initKeys then .error .duplicateInitKey
    else checkInitKeys encryptionKeys (k :: initKeys) ks

/-- The encryption keys that a commit brings in: added leaves, updated leaves, path leaf, path. -/
def newEncryptionKeys (path : Option (UpdatePath D)) : List Key :=
  (addProposals es).map (·.leafNode.encryptionKey) ++
    (updateProposals es).map (·.1.encryptionKey) ++
    (match path with | some p => p.leafNode.encryptionKey :: p.nodes | none => [])

def remainingMembers : List (LeafNode D) :=
  ((fullLeaves v.leaves).filter fun l => l.1 ∉ removeProposals es).map (·.2)

/-- `validate_key_uniqueness`.  The set of init keys is still empty while the encryption keys are
    checked, so that comparison of the source never fails. -/
def validateKeyUniqueness
    (path : Option (UpdatePath D)) : Except ProposalValidationError Unit := do
  let members := remainingMembers v es
  let _ ← insertFresh .duplicateSignatureKey (members.map (·.signatureKey))
    ((addProposals es).map (·.leafNode.signatureKey))
  let encryptionKeys ← insertFresh .duplicateEncryptionKey (members.map (·.encryptionKey))
    (newEncryptionKeys es path)
  checkInitKeys encryptionKeys [] ((addProposals es).map (·.hpkeInitKey))

def validateAddProposals (v : GroupView D) :
    List (KeyPackage D) → Except ProposalValidationError Unit
  | [] => .ok ()
  | kp :: kps => do
    require (kp.ciphersuite = v.ciphersuite ∧ kp.protocolVersion = v.version)
      .invalidAddProposalCiphersuiteOrVersion
    require (v.validateLeafNode kp.leafNode) .leafNodeValidation
    validateAddProposals v kps

def validateCapabilities : Except ProposalValidationError Unit :=
  require (es.all fun e => match e.1 with
    | .add kp => v.validateLeafNodeCapabilities kp.leafNode
    | .update l => v.validateLeafNodeCapabilities l
    | _ => true) .insufficientCapabilities

/-- The senders of the updates, all of which have to be members. -/
def updateSenders : List (LeafNode D × Sender) →
    Except ProposalValidationError (List LeafNodeIndex)
  | [] => .ok []
  | (_, .member i) :: us => do
    let is ← updateSenders us
    pure (i :: is)
  | _ :: _ => .error .updateFromNonMember

/-- The loop of `validate_remove_proposals`. -/
def checkRemoves (v : GroupView D) (updates : List LeafNodeIndex) :
    List LeafNodeIndex → List LeafNodeIndex → Except ProposalValidationError Unit
  | _, [] => .ok ()
  | seen, i :: is => do
    require (i < v.leaves.length) .unknownMemberRemoval
    require (i ∉ seen) .duplicateMemberRemoval
    require (i ∉ updates) .duplicateMemberRemoval
    require (leafAt v.leaves i).isSome .unknownMemberRemoval
    checkRemoves v updates (i :: seen) is

def validateRemoveProposals : Except ProposalValidationError Unit := do
  let updates ← updateSenders (updateProposals es)
  checkRemoves v updates [] (removeProposals es)

/-- `validate_update_proposals`: no update of the committer, none of a non-member. -/
def validateUpdateProposals (v : GroupView D) (committer : LeafNodeIndex) :
    List (LeafNode D × Sender) → Except ProposalValidationError Unit
  | [] => .ok ()
  | (l, .member i) :: us => do
    require (committer ≠ i) .committerIncludedOwnUpdate
    require (v.validateLeafNode l) .leafNodeValidation
    validateUpdateProposals v committer us
  | _ :: _ => .error .updateFromNonMember

def validatePreSharedKeyProposals (v : GroupView D) :
    List Bytes → List Bytes → Except ProposalValidationError Unit
  | _, [] => .ok ()
  | seen, p :: ps => do
    require (v.validatePskId p) .psk
    require (p ∉ seen) .duplicatePsk
    validatePreSharedKeyProposals v (p :: seen) ps

def validateGroupContextExtensionsProposal : Except ProposalValidationError Unit :=
  match es.filterMap fun e => match e.1 with
    | .groupContextExtensions x => some x | _ => none with
  | [] => .ok ()
  | [x] => require (v.validateExtensions x) .groupContextExtensions
  | x :: _ => if v.validateExtensions x then .error .tooManyGceProposals
    else .error .groupContextExtensions

def validateNoExternalInitProposals : Except ProposalValidationError Unit :=
  require (es.all fun e => match e.1 with | .externalInit _ => false | _ => true)
    .externalInitProposalInRegularCommit

/-! ## The committer and the receiver -/

/-- The checks of a member that builds a commit, in the order of `build_internal`. -/
def validateOwnCommit (own : LeafNodeIndex) (es : List (Proposal D × Sender)) :
    Except ProposalValidationError Unit := do
  validateProposalTypeSupport v es
  validateKeyUniqueness v es none
  validateAddProposals v (addProposals es)
  validateCapabilities v es
  validateRemoveProposals v es
  validatePreSharedKeyProposals v [] (pskProposals es)
  validateUpdateProposals v own (updateProposals es)
  validateGroupContextExtensionsProposal v es
  require (own ∉ removeProposals es) .cannotRemoveSelf

/-- The checks that a receiver makes on the queue of a commit by a member. -/
def validateReceivedProposals (committer : LeafNodeIndex)
    (es : List (Proposal D × Sender)) (path : Option (UpdatePath D)) :
    Except ProposalValidationError Unit := do
  match path with
  | some p => require (v.validateLeafNode p.leafNode) .leafNodeValidation
  | none => pure ()
  validateKeyUniqueness v es path
  validateAddProposals v (addProposals es)
  validateCapabilities v es
  validateRemoveProposals v es
  validateProposalTypeSupport v es
  validateGroupContextExtensionsProposal v es
  validatePreSharedKeyProposals v [] (pskProposals es)
  validateUpdateProposals v committer (updateProposals es)
  validateNoExternalInitProposals es

inductive StageCommitError where
  | fromCommittedProposals (e : FromCommittedProposalsError)
  | proposalValidation (e : ProposalValidationError)
  deriving DecidableEq, Repr

/-- `PublicGroup::validate_commit` for the commit of a member in the current epoch. -/
def validateCommit {Ref : Type} [DecidableEq Ref] (H : RefHash D Ref) (v : GroupView D)
    (store : ProposalStore D) (committer : LeafNodeIndex) (proposals : List (ProposalOrRef D Ref))
    (path : Option (UpdatePath D)) : Except StageCommitError (ProposalQueue D Ref) :=
  match ProposalQueue.fromCommittedProposals H store (.member committer) proposals .empty with
  | .error e => .error (.fromCommittedProposals e)
  | .ok q =>
    match validateReceivedProposals v committer q.entries path with
    | .error e => .error (.proposalValidation e)
    | .ok () => .ok q

end Validation

end EmulatedMls
