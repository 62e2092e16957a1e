import EmulatedMls.Lib.Machine
import EmulatedMls.Tree.TreeSync

/-!
# The public state of a group

A commit validates its proposals, applies them to a diff of the ratchet tree, sets the update path
and merges the diff.  It is made by a member or by a joiner from outside, and the group it is
merged into is that of its author or of a receiver.

**Source.**  `group/public_group/diff.rs`, `diff/apply_proposals.rs`, `diff/compute_path.rs`,
`staged_commit.rs` and `mod.rs` of `group/public_group`, `build_internal` of
`group/mls_group/commit_builder.rs`, `create_external_commit_internal` of
`group/mls_group/create_commit.rs` and `stage_commit` of `group/mls_group/staged_commit.rs`.

**Randomness.**  The keys of a new path and of a new leaf are part of the event.

**Left out.**  Transcript hashes, the key schedule and the confirmation tag.  The secrets of a path
are in `Tree/TreeKem`.  A receiver that cannot decrypt the path refuses the commit, so the commits
below include those it merges.
-/

namespace EmulatedMls

structure GroupContext (D : Type) where
  epoch : ℕ
  treeHash : D
  extensions : Bytes
  deriving DecidableEq, Repr

structure PublicGroup (D : Type) where
  treesync : TreeSync D
  groupContext : GroupContext D

structure PublicGroupDiff (D : Type) where
  diff : TreeSyncDiff D
  groupContext : GroupContext D

structure ApplyProposalsValues (D : Type) where
  pathRequired : Bool
  selfRemoved : Bool
  invitationList : List (ℕ × KeyPackage D)
  presharedkeys : List Bytes
  externalInit : Option Bytes
  extensions : Option Bytes

inductive ExternalCommitValidationError where
  | noPath
  | noExternalInitProposals
  | multipleExternalInitProposals
  | invalidInlineProposals
  deriving DecidableEq, Repr

inductive CommitError where
  | tree (e : TreeSyncError)
  | validation (e : ProposalValidationError)
  | external (e : ExternalCommitValidationError)
  /-- The sender of a message is not a member, `ValidationError::UnknownMember`. -/
  | unknownMember
  | attemptedSelfRemoval
  | updateFromNonMember
  | treeFull
  | ownLeafNotFound
  | requiredPathNotFound
  deriving DecidableEq, Repr

def CommitError.IsFault (e : CommitError) : Prop := ∃ f, e = .tree (.fault f)

def liftTree {α : Type} : Except TreeSyncError α → Except CommitError α
  | .ok a => .ok a
  | .error e => .error (.tree e)

def liftValidation {α : Type} : Except ProposalValidationError α → Except CommitError α
  | .ok a => .ok a
  | .error e => .error (.validation e)

def liftExternal {α : Type} : Except ExternalCommitValidationError α → Except CommitError α
  | .ok a => .ok a
  | .error e => .error (.external e)

/-! ## Applying proposals -/

section

variable {D : Type}

def applyUpdates : List (LeafNode D × Sender) → TreeSyncDiff D →
    Except CommitError (TreeSyncDiff D)
  | [], t => .ok t
  | (l, .member i) :: us, t => do
    let t ← liftTree (lift (t.updateLeaf l i))
    applyUpdates us t
  | _ :: _, _ => .error .updateFromNonMember

def applyRemoves : List ℕ → TreeSyncDiff D → Except CommitError (TreeSyncDiff D)
  | [], t => .ok t
  | i :: is, t => do
    let t ← liftTree (lift (t.blankLeaf i))
    applyRemoves is t

/-- The loop over the adds, with the invitation list. -/
def applyAdds : List (KeyPackage D) → TreeSyncDiff D →
    Except CommitError (TreeSyncDiff D × List (ℕ × KeyPackage D))
  | [], t => .ok (t, [])
  | kp :: kps, t =>
    match t.addLeaf kp.leafNode with
    | .error (.fault f) => .error (.tree (.fault f))
    | .error _ => .error .treeFull
    | .ok (t, i) => do
      let (t, invited) ← applyAdds kps t
      pure (t, (i, kp) :: invited)

def applyProposals (t : TreeSyncDiff D) (es : List (Proposal D × Sender))
    (own : Option ℕ) : Except CommitError (TreeSyncDiff D × ApplyProposalsValues D) := do
  let externalInit := es.findSome? fun e => match e.1 with | .externalInit k => some k | _ => none
  let t ← applyUpdates (updateProposals es) t
  let t ← applyRemoves (removeProposals es) t
  let (t, invitationList) ← applyAdds (addProposals es) t
  let extensions := es.findSome? fun e => match e.1 with
    | .groupContextExtensions x => some x | _ => none
  pure (t, {
    pathRequired := es.any (·.1.isPathRequired) || externalInit.isSome || es.isEmpty
    selfRemoved := (removeProposals es).any fun i => own = some i
    invitationList := invitationList
    presharedkeys := pskProposals es
    externalInit := externalInit
    extensions := extensions })

/-! ## The path of a committer -/

inductive CommitType where
  | member
  | external (credential : String) (signatureKey : Key)

/-- What the committer can set of its new leaf, with the new encryption key. -/
structure LeafNodeParameters where
  encryptionKey : Key
  credentialWithKey : Option (String × Key)
  rest : Bytes

/-- `LeafNode::new_placeholder`. -/
def LeafNode.placeholder : LeafNode D := ⟨0, 0, "", .update, []⟩

namespace PublicGroupDiff

def updateGroupContext (d : PublicGroupDiff D) (extensions : Option Bytes) :
    Exec (PublicGroupDiff D) := do
  let treeHash ← d.diff.rootHash
  pure { d with groupContext := {
    epoch := d.groupContext.epoch + 1
    treeHash := treeHash
    extensions := extensions.getD d.groupContext.extensions } }

/-- The parameters of the new leaf in `compute_path`. -/
def leafNodeParams (d : PublicGroupDiff D) (i : ℕ) (type : CommitType)
    (params : LeafNodeParameters) : Except CommitError UpdateLeafNodeParams :=
  match type with
  | .external credential signatureKey =>
    .ok ⟨params.encryptionKey, signatureKey, credential, params.rest⟩
  | .member =>
    match d.diff.diff.leaf i with
    | none => .error .ownLeafNotFound
    | some l =>
      let (credential, signatureKey) := params.credentialWithKey.getD (l.credential, l.signatureKey)
      .ok ⟨params.encryptionKey, signatureKey, credential, params.rest⟩

/-- The placeholder leaf of an external committer. -/
def addPlaceholder (t : TreeSyncDiff D) : CommitType → Except CommitError (TreeSyncDiff D)
  | .member => .ok t
  | .external _ _ => do
    let (t, _) ← liftTree (t.addLeaf LeafNode.placeholder)
    pure t

/-- `compute_path`, with the public part of the path. -/
def computePath [DecidableEq D] (H : HashSuite D) (d : PublicGroupDiff D) (i : ℕ)
    (type : CommitType) (params : LeafNodeParameters) (keys : ℕ → Key)
    (extensions : Option Bytes) : Except CommitError (PublicGroupDiff D × UpdatePath D) := do
  let leafParams ← d.leafNodeParams i type params
  let t ← addPlaceholder d.diff type
  let nodes ← liftTree (lift (t.filteredDirectPath i))
  let pathKeys := (List.range nodes.length).map keys
  let path := nodes.zip (pathKeys.map (ParentNode.ofKey H))
  let (t, leaf) ← liftTree (lift (t.applyOwnUpdatePath H i leafParams path))
  let d ← liftTree (lift (updateGroupContext { d with diff := t } extensions))
  pure (d, ⟨leaf, pathKeys⟩)

end PublicGroupDiff

namespace PublicGroup

def emptyDiff (g : PublicGroup D) : PublicGroupDiff D := ⟨g.treesync.emptyDiff, g.groupContext⟩

def mergeDiff (g : PublicGroup D) (d : PublicGroupDiff D) : Exec (PublicGroup D) := do
  let staged ← d.diff.intoStagedDiff
  pure ⟨g.treesync.mergeDiff staged, d.groupContext⟩

/-- What the validation reads: the rules of the group and the leaves of the tree. -/
def view (rules : GroupView D) (g : PublicGroup D) : GroupView D :=
  { rules with leaves := g.treesync.tree.leafNodes }

/-- The senders of the proposals are members, which is checked when a message is unprotected. -/
def sendersKnown (g : PublicGroup D) (es : List (Proposal D × Sender)) : Bool :=
  es.all fun e => match e.2 with
    | .member i => (g.treesync.leaf i).isSome
    | _ => true

/-- The check that the author of a message is a member. -/
def requireMember (b : Bool) : Except CommitError Unit :=
  if b then .ok () else .error .unknownMember

def leftmostFreeIndex (g : PublicGroup D) (proposals : List (Proposal D)) : ℕ :=
  let free := g.treesync.emptyDiff.freeLeafIndex
  match proposals.findSome? fun p => match p with | .remove i => some i | _ => none with
  | some i => if i < free then i else free
  | none => free

def validateExternalCommit (es : List (Proposal D × Sender)) :
    Except ExternalCommitValidationError Unit :=
  let inits := es.countP fun e => match e.1 with | .externalInit _ => true | _ => false
  if inits = 0 then .error .noExternalInitProposals
  else if inits > 1 then .error .multipleExternalInitProposals
  else if es.any fun e => match e.1 with
    | .externalInit _ | .remove _ | .preSharedKey _ | .custom _ _ => false
    | _ => true then .error .invalidInlineProposals
  else .ok ()

/-- The checks of an external commit by its author. -/
def validateOwnExternal (v : GroupView D) (es : List (Proposal D × Sender)) :
    Except ProposalValidationError Unit := do
  validateProposalTypeSupport v es
  validateKeyUniqueness v es none
  validateAddProposals v (addProposals es)
  validateCapabilities v es
  validateRemoveProposals v es
  validatePreSharedKeyProposals v [] (pskProposals es)
  validateGroupContextExtensionsProposal v es

/-- The checks of an external commit by a receiver. -/
def validateReceivedExternal (v : GroupView D) (es : List (Proposal D × Sender))
    (path : UpdatePath D) : Except ProposalValidationError Unit := do
  require (v.validateLeafNode path.leafNode) .leafNodeValidation
  validateKeyUniqueness v es (some path)
  validateAddProposals v (addProposals es)
  validateCapabilities v es
  validateRemoveProposals v es
  validateProposalTypeSupport v es
  validateGroupContextExtensionsProposal v es
  validatePreSharedKeyProposals v [] (pskProposals es)

/-! ## Commits -/

variable [DecidableEq D] (H : HashSuite D) (rules : GroupView D)

/-- `build_internal`: a member makes a commit, with a path if it wants one.  The call of
    `compute_path` is a parameter, so that the same code serves with and without the secrets. -/
def buildInternal {α : Type} (computePath : PublicGroupDiff D → ApplyProposalsValues D →
      Except CommitError (PublicGroupDiff D × α)) (g : PublicGroup D) (own : ℕ)
    (es : List (Proposal D × Sender)) (selfUpdate : Bool) :
    Except CommitError (PublicGroupDiff D × Option α × ApplyProposalsValues D) := do
  requireMember ((g.treesync.leaf own).isSome && g.sendersKnown es)
  liftValidation (validateOwnCommit (g.view rules) own es)
  let d := g.emptyDiff
  let (t, values) ← applyProposals d.diff es (some own)
  let d := { d with diff := t }
  if values.pathRequired || selfUpdate then do
    let (d, p) ← computePath d values
    pure (d, some p, values)
  else do
    let d ← liftTree (lift (d.updateGroupContext values.extensions))
    pure (d, none, values)

/-- The commit of a member, with the public part of its path. -/
def createCommit (g : PublicGroup D) (own : ℕ) (es : List (Proposal D × Sender))
    (selfUpdate : Bool) (params : LeafNodeParameters) (keys : ℕ → Key) :
    Except CommitError (PublicGroupDiff D × Option (UpdatePath D)) := do
  let (d, p, _) ← g.buildInternal rules
    (fun d values => d.computePath H own .member params keys values.extensions) own es selfUpdate
  pure (d, p)

/-- The end of `stage_commit`: apply the proposals and the path of a commit. -/
def stageCommit (g : PublicGroup D) (sender : ℕ) (es : List (Proposal D × Sender))
    (path : Option (UpdatePath D)) : Except CommitError (PublicGroupDiff D) := do
  let d := g.emptyDiff
  let (t, values) ← applyProposals d.diff es none
  match path with
  | some p => do
    let t ← liftTree (t.applyReceivedUpdatePath H sender p)
    liftTree (lift (PublicGroupDiff.updateGroupContext { d with diff := t } values.extensions))
  | none =>
    if values.pathRequired then .error .requiredPathNotFound
    else liftTree (lift (PublicGroupDiff.updateGroupContext { d with diff := t }
      values.extensions))

/-- `stage_commit` for the commit of a member. -/
def commitReceived (g : PublicGroup D) (committer : ℕ)
    (es : List (Proposal D × Sender)) (path : Option (UpdatePath D)) :
    Except CommitError (PublicGroupDiff D) := do
  requireMember ((g.treesync.leaf committer).isSome && g.sendersKnown es)
  if committer ∈ removeProposals es then .error .attemptedSelfRemoval
  else do
    liftValidation (validateReceivedProposals (g.view rules) committer es path)
    g.stageCommit H committer es path

/-- The proposals of an external commit: a member with the same signature key is removed. -/
def externalProposals (g : PublicGroup D) (kemOutput : Bytes) (signatureKey : Key) :
    List (Proposal D) :=
  .externalInit kemOutput ::
    match (fullLeaves g.treesync.tree.leafNodes).find? fun e => e.2.signatureKey = signatureKey with
    | some e => [.remove e.1]
    | none => []

/-- All proposals come from the new member. -/
def byNewMember (proposals : List (Proposal D)) : List (Proposal D × Sender) :=
  proposals.map fun p => (p, .newMemberCommit)

/-- `join_by_external_commit`, on the tree of the group info; `computePath` gets the new index. -/
def joinByExternalCommit {α : Type} (computePath : ℕ → PublicGroupDiff D →
      ApplyProposalsValues D → Except CommitError (PublicGroupDiff D × α)) (g : PublicGroup D)
    (kemOutput : Bytes) (signatureKey : Key) :
    Except CommitError (PublicGroupDiff D × α × ApplyProposalsValues D) := do
  let proposals := g.externalProposals kemOutput signatureKey
  let own := g.leftmostFreeIndex proposals
  let es := byNewMember proposals
  liftValidation (validateOwnExternal (g.view rules) es)
  let d := g.emptyDiff
  let (t, values) ← applyProposals d.diff es (some own)
  let (d, p) ← computePath own { d with diff := t } values
  pure (d, p, values)

/-- The external commit, with the public part of its path. -/
def createExternalCommit (g : PublicGroup D) (kemOutput : Bytes) (credential : String)
    (signatureKey : Key) (params : LeafNodeParameters) (keys : ℕ → Key) :
    Except CommitError (PublicGroupDiff D × UpdatePath D) := do
  let (d, p, _) ← g.joinByExternalCommit rules (fun own d values => d.computePath H own
    (.external credential signatureKey) params keys values.extensions) kemOutput signatureKey
  pure (d, p)

/-- `stage_commit` for an external commit. -/
def commitExternalReceived (g : PublicGroup D) (proposals : List (Proposal D))
    (path : Option (UpdatePath D)) : Except CommitError (PublicGroupDiff D) :=
  match path with
  | none => .error (.external .noPath)
  | some p =>
    let es := byNewMember proposals
    if (removeProposals es).length > 1 then .error (.external .multipleExternalInitProposals)
    else do
      liftValidation (validateReceivedExternal (g.view rules) es p)
      liftExternal (validateExternalCommit es)
      g.stageCommit H (g.leftmostFreeIndex proposals) es (some p)

/-- A commit of the current epoch, by the owner of the group state or by someone else. -/
inductive Commit (D : Type) where
  | own (own : ℕ) (es : List (Proposal D × Sender)) (selfUpdate : Bool)
      (params : LeafNodeParameters) (keys : ℕ → Key)
  | received (committer : ℕ) (es : List (Proposal D × Sender))
      (path : Option (UpdatePath D))
  | external (kemOutput : Bytes) (credential : String) (signatureKey : Key)
      (params : LeafNodeParameters) (keys : ℕ → Key)
  | externalReceived (proposals : List (Proposal D)) (path : Option (UpdatePath D))

def stage (g : PublicGroup D) : Commit D → Except CommitError (PublicGroupDiff D)
  | .own own es selfUpdate params keys => do
    let (d, _) ← g.createCommit H rules own es selfUpdate params keys
    pure d
  | .received committer es path => g.commitReceived H rules committer es path
  | .external kemOutput credential signatureKey params keys => do
    let (d, _) ← g.createExternalCommit H rules kemOutput credential signatureKey params keys
    pure d
  | .externalReceived proposals path => g.commitExternalReceived H rules proposals path

def commit (g : PublicGroup D) (c : Commit D) : Except CommitError (PublicGroup D) := do
  let d ← g.stage H rules c
  liftTree (lift (g.mergeDiff d))

/-! ## Founding and joining -/

def found (l : LeafNode D) (extensions : Bytes) : Except TreeSyncError (PublicGroup D) := do
  let t ← TreeSync.new H l
  pure ⟨t, ⟨0, t.treeHash, extensions⟩⟩

end PublicGroup

inductive CreationFromExternalError where
  | treeSync (e : TreeSyncError)
  | leafNodeValidation
  | duplicateEncryptionKey
  | unmergedLeafNotADescendant
  | intermediateNodeMissingUnmergedLeaf
  | unknownSender
  | invalidGroupInfoSignature
  | treeHashMismatch
  deriving DecidableEq, Repr

structure GroupInfo (D : Type) where
  groupContext : GroupContext D
  signer : ℕ
  /-- Whether the signature verifies under a key. -/
  verifies : Key → Bool

/-- The checks of a single leaf node by a joiner. -/
structure JoinRules (D : Type) where
  validateLocally : LeafNode D → Bool
  validateLeafNode : LeafNode D → Bool

namespace PublicGroup

variable [DecidableEq D] (H : HashSuite D) (rules : GroupView D) (joining : JoinRules D)

/-- The loop over the full leaves of `from_external`, with the encryption keys seen. -/
def checkLeaves : List (LeafNode D) → List Key → Except CreationFromExternalError (List Key)
  | [], keys => .ok keys
  | l :: ls, keys =>
    if ¬ joining.validateLocally l then .error .leafNodeValidation
    else if l.encryptionKey ∈ keys then .error .duplicateEncryptionKey
    else checkLeaves ls (l.encryptionKey :: keys)

/-- The checks of an unmerged leaf `i` of the parent `j`. -/
def checkUnmergedLeaf (t : TreeSync D) (j : ℕ) (i : ℕ) : Except CreationFromExternalError Unit :=
  match directPath i t.treeSize with
  | .error f => .error (.treeSync (.fault f))
  | .ok path =>
    if j ∉ path then .error .unmergedLeafNotADescendant
    else if (path.takeWhile (· ≠ j)).all fun k => match t.tree.parentByIndex k with
      | none => true
      | some q => i ∈ q.unmergedLeaves then .ok ()
    else .error .intermediateNodeMissingUnmergedLeaf

/-- The loop over the parents of `from_external`. -/
def checkParents (t : TreeSync D) : List (ℕ × TreeSyncParentNode D) → List Key →
    Except CreationFromExternalError Unit
  | [], _ => .ok ()
  | (_, none) :: nodes, keys => checkParents t nodes keys
  | (j, some q) :: nodes, keys =>
    if q.encryptionKey ∈ keys then .error .duplicateEncryptionKey
    else do
      q.unmergedLeaves.forM (checkUnmergedLeaf t j)
      checkParents t nodes (q.encryptionKey :: keys)

def fromExternal (r : RatchetTree D) (info : GroupInfo D) :
    Except CreationFromExternalError (PublicGroup D) :=
  match TreeSync.fromRatchetTree H r with
  | .error e => .error (.treeSync e)
  | .ok t => do
    let leaves := (fullLeaves t.tree.leafNodes).map (·.2)
    let keys ← checkLeaves joining leaves []
    checkParents t t.tree.parents keys
    match t.leaf info.signer with
    | none => .error .unknownSender
    | some l =>
      if ¬ info.verifies l.signatureKey then .error .invalidGroupInfoSignature
      else if t.treeHash ≠ info.groupContext.treeHash then .error .treeHashMismatch
      else if ¬ leaves.all joining.validateLeafNode then .error .leafNodeValidation
      else .ok ⟨t, info.groupContext⟩

/-! ## Runs -/

/-- A commit is merged, or the group is handed to a joiner, who is then followed. -/
inductive Event (D : Type) where
  | commit (c : Commit D)
  | join (joining : JoinRules D) (signer : ℕ) (verifies : Key → Bool)

def step (g : PublicGroup D) : Event D → Option (PublicGroup D)
  | .commit c => (g.commit H rules c).toOption
  | .join joining signer verifies =>
    (fromExternal H joining g.treesync.exportRatchetTree
      ⟨g.groupContext, signer, verifies⟩).toOption

def Founded (g : PublicGroup D) : Prop := ∃ l extensions, found H l extensions = .ok g

end PublicGroup

/-- The runs of a group from the states that satisfy `init`. -/
def groupRuns [DecidableEq D] (H : HashSuite D) (rules : GroupView D)
    (init : PublicGroup D → Prop) : Machine (PublicGroup D) (PublicGroup.Event D) where
  init := init
  step := PublicGroup.step H rules

end

end EmulatedMls
