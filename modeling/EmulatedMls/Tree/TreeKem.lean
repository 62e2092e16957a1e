import EmulatedMls.Tree.CommitAnatomy
import Mathlib.Data.List.Iterate

/-!
# Secrets of update paths

A committer derives a chain of path secrets, one for each node of its filtered direct path, and
encrypts each of them to the resolution of the copath node next to it.  A receiver looks for the
first key in that resolution that it owns, decrypts, and derives the rest of the chain.  A new
member gets the secret of the lowest node that it shares with the committer in its Welcome.

**Source.**  `treesync/treekem.rs`, `treesync/node/parent_node.rs`, `derive_path_secrets` of
`treesync/mod.rs`, `filtered_copath_resolutions`, `subtree_root_position`, `decryption_key`,
`filtered_common_direct_path` and `encryption_keys` of `treesync/diff.rs`,
`lowest_common_ancestor` and `common_direct_path` of `treemath.rs`, `decrypt_path` and
`compute_path` of `group/public_group/diff`, and `stage_commit` and `merge_commit` of
`group/mls_group/staged_commit.rs`.

**Ciphersuite.**  The derivation of secrets and keys and the public key encryption are the
parameters of a `KemSuite`; all that is assumed is that the right key opens a ciphertext.

**Randomness.**  The first path secret, the key pair of the new leaf and the coins of the
encryptions are arguments.

**Left out.**  The key schedule: the joiner secret, the encrypted group info and the pre-shared keys
of a Welcome are opaque.  The transcript hash in the context of a ciphertext is the old one on both
sides.
-/

namespace EmulatedMls

open Exec List

/-! ## Ciphersuites -/

/-- What a ciphertext is bound to: a label and its context. -/
inductive EncryptContext (D : Type) where
  | updatePathNode (groupContext : GroupContext D)
  | welcome (encryptedGroupInfo : Bytes)
  deriving DecidableEq

/-- `GroupSecrets`, for path secrets in `S`. -/
structure GroupSecrets (S : Type) where
  joinerSecret : Bytes
  pathSecret : Option S
  psks : List Bytes
  deriving DecidableEq

inductive Plaintext (S : Type) where
  | pathSecret (s : S)
  | groupSecrets (secrets : GroupSecrets S)
  deriving DecidableEq

/-- The key derivation and the public key encryption of a ciphersuite. -/
structure KemSuite (D S P C : Type) where
  derivePathSecret : S → S
  derivePrivateKey : S → P
  publicKey : P → Key
  encryptWithLabel : Key → EncryptContext D → Plaintext S → Bytes → C
  decryptWithLabel : P → EncryptContext D → C → Option (Plaintext S)
  decrypt_encrypt : ∀ p context plaintext coins,
    decryptWithLabel p context (encryptWithLabel (publicKey p) context plaintext coins) =
      some plaintext

variable {D S P C : Type}

/-- A key pair, whose two keys belong together. -/
structure EncryptionKeyPair (K : KemSuite D S P C) where
  publicKey : Key
  privateKey : P
  paired : K.publicKey privateKey = publicKey

structure PlainUpdatePathNode (S : Type) where
  publicKey : Key
  pathSecret : S

structure UpdatePathNode (C : Type) where
  publicKey : Key
  encryptedPathSecrets : List C

/-- `EncryptedGroupSecrets`, with the key package in place of the reference to it. -/
structure EncryptedGroupSecrets (D C : Type) where
  newMember : KeyPackage D
  encryptedGroupSecrets : C

/-- The errors of the functions on paths; `libraryError` has the text of the source. -/
inductive ApplyUpdatePathError where
  | fault (f : Fault)
  | libraryError (text : String)
  | unableToDecrypt
  | pathMismatch
  deriving DecidableEq, Repr

inductive TreeSyncDiffError where
  | fault (f : Fault)
  | libraryError (text : String)
  | noPrivateKeyFound
  deriving DecidableEq, Repr

inductive DerivePathError where
  | fault (f : Fault)
  | publicKeyMismatch
  deriving DecidableEq, Repr

namespace KemSuite

variable (K : KemSuite D S P C)

def deriveKeyPair (s : S) : EncryptionKeyPair K :=
  ⟨K.publicKey (K.derivePrivateKey s), K.derivePrivateKey s, rfl⟩

/-- The public key of the path node number `k`. -/
def pathKey (s : S) (k : ℕ) : Key := (K.deriveKeyPair (K.derivePathSecret^[k] s)).publicKey

/-- `ParentNode::derive_path`: the nodes, the plain path, the key pairs and the commit secret. -/
def derivePath (H : HashSuite D) (s : S) (pathIndices : List ℕ) :
    List (ℕ × ParentNode D) × List (PlainUpdatePathNode S) × List (EncryptionKeyPair K) × S :=
  let secrets := List.iterate K.derivePathSecret s pathIndices.length
  let keypairs := secrets.map K.deriveKeyPair
  (pathIndices.zip (keypairs.map fun kp => ParentNode.ofKey H kp.publicKey),
    secrets.map fun s => ⟨(K.deriveKeyPair s).publicKey, s⟩, keypairs,
    K.derivePathSecret^[pathIndices.length] s)

section Derive

variable {K} {H : HashSuite D}

lemma derivePath_nodes (s : S) (nodes : List ℕ) : (K.derivePath H s nodes).1 =
    nodes.zip (((List.range nodes.length).map (K.pathKey s)).map (ParentNode.ofKey H)) := by
  simp only [derivePath, ← range_map_iterate, map_map]
  rfl

end Derive

/-- `PlainUpdatePathNode::encrypt`. -/
def encryptNode (node : PlainUpdatePathNode S) (publicKeys : List Key)
    (groupContext : GroupContext D) (coins : ℕ → Bytes) : UpdatePathNode C :=
  ⟨node.publicKey, publicKeys.mapIdx fun k pk =>
    K.encryptWithLabel pk (.updatePathNode groupContext) (.pathSecret node.pathSecret) (coins k)⟩

def encryptPath (path : List (PlainUpdatePathNode S)) (groupContext : GroupContext D)
    (copathResolutions : List (List Key)) (coins : ℕ → ℕ → Bytes) : List (UpdatePathNode C) :=
  (path.zip copathResolutions).mapIdx fun k e => K.encryptNode e.1 e.2 groupContext (coins k)

lemma publicKeys_encryptPath {path : List (PlainUpdatePathNode S)} {groupContext : GroupContext D}
    {copathResolutions : List (List Key)} (h : path.length = copathResolutions.length)
    (coins : ℕ → ℕ → Bytes) :
    (K.encryptPath path groupContext copathResolutions coins).map (·.publicKey) =
      path.map (·.publicKey) := by
  refine ext_getElem (by simp [encryptPath, h]) fun k _ _ => ?_
  simp [encryptPath, encryptNode]

end KemSuite

/-! ## Common ancestors -/

/-- The loop of `lowest_common_ancestor`.  The indices have 32 bits. -/
def shiftUntilEqual : ℕ → ℕ → ℕ → ℕ → ℕ × ℕ
  | 0, x, _, k => (x, k)
  | bits + 1, x, y, k => if x = y then (x, k) else shiftUntilEqual bits (x >>> 1) (y >>> 1) (k + 1)

/-- `lowest_common_ancestor` of two different leaves. -/
def lowestCommonAncestor (i j : ℕ) : ℕ :=
  let x := (TreeNodeIndex.leaf i).u32
  let y := (TreeNodeIndex.leaf j).u32
  let (lx, ly) := (level x + 1, level y + 1)
  if lx ≤ ly ∧ x >>> ly = y >>> ly then (y - 1) / 2
  else if ly ≤ lx ∧ x >>> lx = y >>> lx then (x - 1) / 2
  else
    let (xn, k) := shiftUntilEqual 32 x y 0
    ((xn <<< k) + (1 <<< (k - 1)) - 1 - 1) / 2

/-- The loop of the common paths: the nodes from the top down, up to the first difference. -/
def commonTop : List ℕ → List ℕ → List ℕ
  | x :: xs, y :: ys => if x = y then x :: commonTop xs ys else []
  | _, _ => []

/-- `common_direct_path`, and `subtree_path`. -/
def commonDirectPath (i j : ℕ) (size : TreeSize) : Exec (List ℕ) := do
  let xs ← directPath i size
  let ys ← directPath j size
  pure (commonTop xs.reverse ys.reverse).reverse

def subtreeRootCopathNode (i j : ℕ) : TreeNodeIndex :=
  if j < i then left (lowestCommonAncestor i j) else right (lowestCommonAncestor i j)

/-- The encryption key of a node in a resolution. -/
def NodeReference.encryptionKey : NodeReference D → Key
  | .leaf l => l.encryptionKey
  | .parent q => q.encryptionKey

/-- The outcome of a call that can only panic or loop. -/
def ApplyUpdatePathError.lift {α : Type} : Exec α → Except ApplyUpdatePathError α
  | .ok a => .ok a
  | .error f => .error (.fault f)

@[inherit_doc ApplyUpdatePathError.lift]
def TreeSyncDiffError.lift {α : Type} : Exec α → Except TreeSyncDiffError α
  | .ok a => .ok a
  | .error f => .error (.fault f)

/-- An error of the tree is reported with another text; a fault stays one. -/
def TreeSyncDiffError.toLibraryError {α : Type} (text : String) :
    Except TreeSyncDiffError α → Except ApplyUpdatePathError α
  | .ok a => .ok a
  | .error (.fault f) => .error (.fault f)
  | .error _ => .error (.libraryError text)

namespace TreeSyncDiff

variable (t : TreeSyncDiff D)

/-- The excluded leaves are taken out of a resolution. -/
def filterResolution (exclusionList : List ℕ) (rs : List (TreeNodeIndex × NodeReference D)) :
    List (TreeNodeIndex × NodeReference D) :=
  rs.filterMap fun e => match e.1 with
    | .leaf i => if i ∈ exclusionList then none else some (.leaf i, e.2)
    | .parent _ => some e

/-- `filtered_copath_resolutions`.  A resolution that becomes empty is kept. -/
def filteredCopathResolutions (i : ℕ) (exclusionList : List ℕ) :
    Exec (List (List (TreeNodeIndex × NodeReference D))) :=
  if t.leafCount = 1 then .ok []
  else do
    let xs ← copath i t.diff.size
    pure (xs.filterMap fun x =>
      let rs := t.resolution x [] t.rightmostFullLeaf
      if rs.isEmpty then none else some (filterResolution exclusionList rs))

section

variable {t} {n i : ℕ}

lemma filteredCopathResolutions_eq (h : t.diff.Shaped n) (hi : i < 2 ^ n) (exclusionList : List ℕ) :
    t.filteredCopathResolutions i exclusionList = .ok ((t.pathLevels n i).map fun k =>
      filterResolution exclusionList
        (t.resolution (nodeAt k (sib (i / 2 ^ k))) [] t.rightmostFullLeaf)) := by
  have hcount : t.leafCount = 2 ^ n := by rw [leafCount, h.size, TreeSize.leafCount_ofDepth]
  unfold filteredCopathResolutions
  cases n with
  | zero =>
    rw [if_pos (hcount.trans (pow_zero 2))]
    rfl
  | succ n =>
    have hmany : t.leafCount ≠ 1 := by
      omega
    rw [if_neg hmany, h.size, copath_ofDepth hi]
    refine congrArg Except.ok ?_
    rw [filterMap_map, pathLevels, ← filterMap_eq_map, filterMap_filter]
    refine filterMap_congr fun k _ => ?_
    simp only [Function.comp_apply]
    cases (t.resolution (nodeAt k (sib (i / 2 ^ k))) [] t.rightmostFullLeaf).isEmpty <;>
      rfl

lemma PathWritten.pathLevels_eq {t' : TreeSyncDiff D} {ns : List (ℕ × ParentNode D)}
    {l : LeafNode D} (h : t.PathWritten n i ns l t') : t'.pathLevels n i = t.pathLevels n i := by
  refine pathLevels_congr ?_ ?_
  · rw [h.contents]
    exact Contents.agreeOff_edit _ _ _ _ _
  · rw [rightmostFullLeaf, rightmostFullLeaf, h.blankedLeaves, h.numMembers]

end

def subtreeRootPosition (i j : ℕ) : Except TreeSyncDiffError ℕ := do
  let nodes ← TreeSyncDiffError.lift (t.filteredDirectPath i)
  match nodes.findIdx? (· = lowestCommonAncestor i j) with
  | some position => pure position
  | none => .error (.libraryError "index should be in the direct path")

def filteredCommonDirectPath (i j : ℕ) : Exec (List ℕ) := do
  let xs ← t.filteredDirectPath i
  let ys ← t.filteredDirectPath j
  pure (commonTop xs.reverse ys.reverse).reverse

/-- `encryption_keys`: the keys for which the owner of a leaf should have private keys. -/
def encryptionKeys (i : ℕ) : Exec (List Key) := do
  let nodes ← t.filteredDirectPath i
  pure (((t.diff.leaf i).map LeafNode.encryptionKey).toList ++ nodes.filterMap fun j =>
    match t.diff.parent j with
    | some q => if i ∈ q.unmergedLeaves then none else some q.encryptionKey
    | none => none)

variable {K : KemSuite D S P C}

/-- The loop of `decryption_key` over the keys of a resolution. -/
def findKeypair (ownedKeys : List (EncryptionKeyPair K)) :
    List Key → ℕ → Option (EncryptionKeyPair K × ℕ)
  | [], _ => none
  | pk :: pks, position =>
    match ownedKeys.find? (·.publicKey = pk) with
    | some keypair => some (keypair, position)
    | none => findKeypair ownedKeys pks (position + 1)

/-- `decryption_key`: a key pair of the receiver `own` and its position in the resolution. -/
def decryptionKey (sender : ℕ) (excluded : List ℕ) (ownedKeys : List (EncryptionKeyPair K))
    (own : ℕ) : Except TreeSyncDiffError (EncryptionKeyPair K × ℕ) :=
  let rs := t.resolution (subtreeRootCopathNode sender own) excluded t.rightmostFullLeaf
  match findKeypair ownedKeys (rs.map (·.2.encryptionKey)) 0 with
  | some found => .ok found
  | none => .error .noPrivateKeyFound

end TreeSyncDiff

/-! ## Paths -/

/-- What a committer draws at random for a path. -/
structure PathRandomness (K : KemSuite D S P C) where
  pathSecret : S
  leafKeypair : EncryptionKeyPair K
  coins : ℕ → ℕ → Bytes

/-- `PathComputationResult`; the encrypted path is the new leaf and the encrypted nodes. -/
structure PathComputationResult (K : KemSuite D S P C) where
  commitSecret : S
  leafNode : LeafNode D
  encryptedPath : List (UpdatePathNode C)
  plainPath : List (PlainUpdatePathNode S)
  newKeypairs : List (EncryptionKeyPair K)

/-- The public part of the path that is sent. -/
def PathComputationResult.updatePath {K : KemSuite D S P C} (r : PathComputationResult K) :
    UpdatePath D := ⟨r.leafNode, r.encryptedPath.map (·.publicKey)⟩

/-- The parts of a path of `length` nodes that were computed for the diff `d`. -/
structure PathComputationResult.For {K : KemSuite D S P C} (r : PathComputationResult K)
    (d : PublicGroupDiff D) (i : ℕ) (exclusionList : List ℕ) (rand : PathRandomness K)
    (length : ℕ) : Prop where
  commitSecret : r.commitSecret = K.derivePathSecret^[length] rand.pathSecret
  leafKey : r.leafNode.encryptionKey = rand.leafKeypair.publicKey
  plainPath : r.plainPath = (List.iterate K.derivePathSecret rand.pathSecret length).map
    fun s => ⟨(K.deriveKeyPair s).publicKey, s⟩
  newKeypairs : r.newKeypairs = rand.leafKeypair ::
    (List.iterate K.derivePathSecret rand.pathSecret length).map K.deriveKeyPair
  encryptedPath : ∃ resolutions,
    d.diff.filteredCopathResolutions i exclusionList = .ok resolutions ∧
    r.encryptedPath = K.encryptPath r.plainPath d.groupContext
      (resolutions.map fun rs => rs.map (·.2.encryptionKey)) rand.coins

section For

variable {K : KemSuite D S P C} {H : HashSuite D} {r : PathComputationResult K}
  {d : PublicGroupDiff D} {t : TreeSyncDiff D} {n i length : ℕ} {exclusionList : List ℕ}
  {rand : PathRandomness K} {keys : ℕ → Key} {l : LeafNode D}

lemma PathStep.length_pathLevels
    (hstep : PathStep H t n i ((List.range length).map keys) l d.diff) :
    (d.diff.pathLevels n i).length = length := by
  obtain ⟨ns, hwritten, hkeys⟩ := hstep.written
  have hlength := congrArg List.length hkeys
  rw [length_map, length_map, length_range] at hlength
  rw [hwritten.pathLevels_eq, ← hwritten.levels, length_map, hlength]

/-- **Nothing is lost on the way**: the path that is sent has all keys of the chain. -/
lemma PathComputationResult.For.updatePath_eq (h : r.For d i exclusionList rand length)
    (hstep : PathStep H t n i ((List.range length).map keys) l d.diff) :
    r.updatePath = ⟨r.leafNode, (List.range length).map (K.pathKey rand.pathSecret)⟩ := by
  obtain ⟨ns, hwritten, -⟩ := hstep.written
  obtain ⟨resolutions, hresolutions, hencrypted⟩ := h.encryptedPath
  have hi := hstep.wellFormed.lt_pow hstep.full
  rw [TreeSyncDiff.filteredCopathResolutions_eq hwritten.wellFormed.shaped hi] at hresolutions
  have hlength : r.plainPath.length = resolutions.length := by
    rw [← Except.ok.inj hresolutions, length_map, hstep.length_pathLevels, h.plainPath,
      length_map, length_iterate]
  have hkeys : r.encryptedPath.map (·.publicKey) =
      (List.range length).map (K.pathKey rand.pathSecret) := by
    rw [hencrypted, K.publicKeys_encryptPath (by rw [length_map, hlength]), h.plainPath,
      ← range_map_iterate, map_map, map_map]
    rfl
  rw [PathComputationResult.updatePath, hkeys]

end For

namespace PublicGroupDiff

variable (K : KemSuite D S P C) (H : HashSuite D)

/-- `compute_path`, with the secrets. -/
def computeEncryptedPath [DecidableEq D] (d : PublicGroupDiff D) (i : ℕ) (exclusionList : List ℕ)
    (type : CommitType) (params : LeafNodeParameters) (rand : PathRandomness K)
    (extensions : Option Bytes) :
    Except CommitError (PublicGroupDiff D × PathComputationResult K) := do
  let leafParams ← d.leafNodeParams i type
    { params with encryptionKey := rand.leafKeypair.publicKey }
  let t ← addPlaceholder d.diff type
  let pathIndices ← liftTree (lift (t.filteredDirectPath i))
  let (path, plainPath, parentKeypairs, commitSecret) := K.derivePath H rand.pathSecret pathIndices
  let (t, leaf) ← liftTree (lift (t.applyOwnUpdatePath H i leafParams path))
  let d ← liftTree (lift (updateGroupContext { d with diff := t } extensions))
  let copathResolutions ← liftTree (lift (d.diff.filteredCopathResolutions i exclusionList))
  let encryptedPath := K.encryptPath plainPath d.groupContext
    (copathResolutions.map fun rs => rs.map (·.2.encryptionKey)) rand.coins
  pure (d, ⟨commitSecret, leaf, encryptedPath, plainPath, rand.leafKeypair :: parentKeypairs⟩)

variable {K H}

variable {params : LeafNodeParameters} {type : CommitType} {d : PublicGroupDiff D} {i : ℕ}

/-- **A path that is encrypted** is the path of `computePath` for the keys of the chain. -/
lemma computeEncryptedPath_eq_ok [DecidableEq D] {d' : PublicGroupDiff D} {exclusionList : List ℕ}
    {rand : PathRandomness K} {extensions : Option Bytes} {r : PathComputationResult K}
    (h : d.computeEncryptedPath K H i exclusionList type params rand extensions = .ok (d', r)) :
    ∃ length, r.For d' i exclusionList rand length ∧
      d.computePath H i type { params with encryptionKey := rand.leafKeypair.publicKey }
        (K.pathKey rand.pathSecret) extensions =
        .ok (d', ⟨r.leafNode, (List.range length).map (K.pathKey rand.pathSecret)⟩) := by
  obtain ⟨leafParams, hparams, h⟩ := bind_inv h
  obtain ⟨t, hplace, h⟩ := bind_inv h
  obtain ⟨nodes, hnodes, h⟩ := bind_inv h
  obtain ⟨⟨t', l⟩, happly, h⟩ := bind_inv h
  obtain ⟨d1, hcontext, h⟩ := bind_inv h
  obtain ⟨rs, hrs, h⟩ := bind_inv h
  obtain ⟨rfl, rfl⟩ := Prod.mk.inj (pure_eq_ok.mp h)
  rw [liftTree_eq_ok, lift_eq_ok] at hrs
  rw [show nodes.zip _ = _ from KemSuite.derivePath_nodes (K := K) (H := H) rand.pathSecret nodes]
    at happly
  have hleaf : l.encryptionKey = rand.leafKeypair.publicKey := by
    rw [liftTree_eq_ok, lift_eq_ok] at happly
    obtain ⟨⟨t1, parentHash⟩, -, happly⟩ := bind_inv happly
    obtain ⟨t2, -, happly⟩ := bind_inv happly
    obtain ⟨-, rfl⟩ := Prod.mk.inj (pure_eq_ok.mp happly)
    exact leafNodeParams_eq_ok hparams
  refine ⟨nodes.length, ⟨rfl, hleaf, rfl, rfl, rs, hrs, rfl⟩, ?_⟩
  exact bind_ok hparams (bind_ok hplace (bind_ok hnodes (bind_ok happly (bind_ok hcontext rfl))))

variable (H)

/-- `decrypt_path` of a receiver `own`. -/
def decryptPath (d : PublicGroupDiff D) (ownedKeys : List (EncryptionKeyPair K)) (own sender : ℕ)
    (updatePath : List (UpdatePathNode C)) (exclusionList : List ℕ) :
    Except ApplyUpdatePathError (List (EncryptionKeyPair K) × S) := do
  let pathPosition ← TreeSyncDiffError.toLibraryError "Expected own leaf to be in the tree"
    (d.diff.subtreeRootPosition sender own)
  let commonPath ← ApplyUpdatePathError.lift (d.diff.filteredCommonDirectPath own sender)
  match updatePath[pathPosition]? with
  | none => .error (.libraryError "Expected to find ciphertext in update path 1")
  | some node => do
    let (keypair, resolutionPosition) ←
      TreeSyncDiffError.toLibraryError "Expected sender to be in the tree"
        (d.diff.decryptionKey sender exclusionList ownedKeys own)
    match node.encryptedPathSecrets[resolutionPosition]? with
    | none => .error (.libraryError "Expected to find ciphertext in update path 2")
    | some ciphertext =>
      match K.decryptWithLabel keypair.privateKey (.updatePathNode d.groupContext) ciphertext with
      | some (.pathSecret s) =>
        let (derivedPath, _, keypairs, commitSecret) := K.derivePath H s commonPath
        if ((updatePath.drop pathPosition).zip derivedPath).all fun e =>
            e.1.publicKey = e.2.2.encryptionKey then
          .ok (keypairs, commitSecret)
        else .error .pathMismatch
      | _ => .error .unableToDecrypt

end PublicGroupDiff

/-! ## Welcomes -/

section Welcome

variable (K : KemSuite D S P C)

/-- `encrypt_group_secrets`; `k` counts the invited members. -/
def TreeSyncDiff.encryptGroupSecrets (t : TreeSyncDiff D) (joinerSecret : Bytes)
    (plainPath : Option (List (PlainUpdatePathNode S))) (presharedkeys : List Bytes)
    (encryptedGroupInfo : Bytes) (encryptor : ℕ) (coins : ℕ → Bytes) :
    List (ℕ × KeyPackage D) → ℕ →
      Except ApplyUpdatePathError (List (EncryptedGroupSecrets D C))
  | [], _ => .ok []
  | (i, kp) :: invited, k => do
    let position ← TreeSyncDiffError.toLibraryError "Unexpected error in subtree_root_position"
      (t.subtreeRootPosition encryptor i)
    let pathSecret ← match plainPath with
      | none => pure none
      | some path => match path[position]? with
        | some node => pure (some node.pathSecret)
        | none => .error (.libraryError "Invalid plain path")
    let rest ← t.encryptGroupSecrets joinerSecret plainPath presharedkeys encryptedGroupInfo
      encryptor coins invited (k + 1)
    pure (⟨kp, K.encryptWithLabel kp.hpkeInitKey (.welcome encryptedGroupInfo)
      (.groupSecrets ⟨joinerSecret, pathSecret, presharedkeys⟩) (coins k)⟩ :: rest)

/-- The loop of `derive_path_secrets`. -/
def TreeSync.deriveLoop (t : TreeSync D) (own : ℕ) :
    List ℕ → S → Except DerivePathError (List (EncryptionKeyPair K) × S)
  | [], s => .ok ([], s)
  | j :: js, s =>
    match t.tree.parentByIndex j with
    | none => t.deriveLoop own js s
    | some q =>
      if own ∈ q.unmergedLeaves then t.deriveLoop own js s
      else if q.encryptionKey ≠ (K.deriveKeyPair s).publicKey then .error .publicKeyMismatch
      else do
        let (keypairs, s') ← t.deriveLoop own js (K.derivePathSecret s)
        pure (K.deriveKeyPair s :: keypairs, s')

def TreeSync.derivePathSecrets (t : TreeSync D) (s : S) (sender own : ℕ) :
    Except DerivePathError (List (EncryptionKeyPair K) × S) :=
  match commonDirectPath own sender t.treeSize with
  | .error f => .error (.fault f)
  | .ok path => t.deriveLoop K own path s

end Welcome

/-! ## Commits -/

/-- A commit, with the values of `apply_proposals` that the secrets depend on. -/
structure EncryptedCommit (K : KemSuite D S P C) where
  diff : PublicGroupDiff D
  path : Option (PathComputationResult K)
  values : ApplyProposalsValues D

/-- `exclusion_list`: the leaves of the invited members. -/
def ApplyProposalsValues.exclusionList (values : ApplyProposalsValues D) : List ℕ :=
  values.invitationList.map Prod.fst

/-- What a receiver gets from a commit with a path; if it is removed, only the public part. -/
inductive StagedCommitState (K : KemSuite D S P C) where
  | publicState (diff : PublicGroupDiff D)
  | groupMember (diff : PublicGroupDiff D) (newKeypairs : List (EncryptionKeyPair K))
      (newLeafKeypair : Option (EncryptionKeyPair K)) (commitSecret : S)

inductive MemberStageError where
  | commit (e : CommitError)
  | path (e : ApplyUpdatePathError)
  deriving DecidableEq, Repr

def MemberStageError.liftCommit {α : Type} : Except CommitError α → Except MemberStageError α
  | .ok a => .ok a
  | .error e => .error (.commit e)

def MemberStageError.liftPath {α : Type} :
    Except ApplyUpdatePathError α → Except MemberStageError α
  | .ok a => .ok a
  | .error e => .error (.path e)

/-- Who makes a commit: a member, for the proposals it knows, or a joiner from outside. -/
inductive CommitRequest (D : Type) where
  | member (own : ℕ) (es : List (Proposal D × Sender)) (selfUpdate : Bool)
  | external (kemOutput : Bytes) (credential : String) (signatureKey : Key)

namespace CommitRequest

def committer (g : PublicGroup D) : CommitRequest D → ℕ
  | .member own _ _ => own
  | .external kemOutput _ signatureKey =>
    g.leftmostFreeIndex (g.externalProposals kemOutput signatureKey)

def proposals (g : PublicGroup D) : CommitRequest D → List (Proposal D × Sender)
  | .member _ es _ => es
  | .external kemOutput _ signatureKey =>
    PublicGroup.byNewMember (g.externalProposals kemOutput signatureKey)

/-- The commit, for the keys of a chain. -/
def toCommit {K : KemSuite D S P C} (params : LeafNodeParameters) (rand : PathRandomness K) :
    CommitRequest D → PublicGroup.Commit D
  | .member own es selfUpdate => .own own es selfUpdate
      { params with encryptionKey := rand.leafKeypair.publicKey } (K.pathKey rand.pathSecret)
  | .external kemOutput credential signatureKey => .external kemOutput credential signatureKey
      { params with encryptionKey := rand.leafKeypair.publicKey } (K.pathKey rand.pathSecret)

variable {K : KemSuite D S P C} {params : LeafNodeParameters} {rand : PathRandomness K}

@[simp] lemma committer_toCommit (g : PublicGroup D) (request : CommitRequest D) :
    (request.toCommit params rand).committer g = request.committer g := by
  cases request <;> rfl

@[simp] lemma proposals_toCommit (g : PublicGroup D) (request : CommitRequest D) :
    (request.toCommit params rand).proposals g = request.proposals g := by
  cases request <;> rfl

end CommitRequest

namespace PublicGroup

variable [DecidableEq D] (K : KemSuite D S P C) (H : HashSuite D) (rules : GroupView D)

/-- The commit of a member, with the secrets of its path. -/
def createEncryptedCommit (g : PublicGroup D) (own : ℕ) (es : List (Proposal D × Sender))
    (selfUpdate : Bool) (params : LeafNodeParameters) (rand : PathRandomness K) :
    Except CommitError (EncryptedCommit K) := do
  let (d, path, values) ← g.buildInternal rules (fun d values =>
    d.computeEncryptedPath K H own values.exclusionList .member params rand values.extensions)
    own es selfUpdate
  pure ⟨d, path, values⟩

/-- The external commit, with the secrets of its path. -/
def createEncryptedExternalCommit (g : PublicGroup D) (kemOutput : Bytes) (credential : String)
    (signatureKey : Key) (params : LeafNodeParameters) (rand : PathRandomness K) :
    Except CommitError (EncryptedCommit K) := do
  let (d, path, values) ← g.joinByExternalCommit rules (fun own d values =>
    d.computeEncryptedPath K H own values.exclusionList (.external credential signatureKey) params
      rand values.extensions) kemOutput signatureKey
  pure ⟨d, some path, values⟩

/-- The commit that is requested, with the secrets of its path. -/
def createEncrypted (g : PublicGroup D) (params : LeafNodeParameters) (rand : PathRandomness K) :
    CommitRequest D → Except CommitError (EncryptedCommit K)
  | .member own es selfUpdate => g.createEncryptedCommit K H rules own es selfUpdate params rand
  | .external kemOutput credential signatureKey =>
    g.createEncryptedExternalCommit K H rules kemOutput credential signatureKey params rand

variable {K H rules} {g : PublicGroup D} {c : EncryptedCommit K} {rand : PathRandomness K}
  {params : LeafNodeParameters}

variable {r : PathComputationResult K}

/-- **A commit that is encrypted** is one of `createCommit` for the keys of the chain. -/
lemma createEncryptedCommit_eq_ok {own : ℕ} {es : List (Proposal D × Sender)} {selfUpdate : Bool}
    (h : g.createEncryptedCommit K H rules own es selfUpdate params rand = .ok c)
    (hr : c.path = some r) :
    (∃ t, applyProposals g.treesync.emptyDiff es (some own) = .ok (t, c.values)) ∧
    ∃ length, r.For c.diff own c.values.exclusionList rand length ∧
      g.createCommit H rules own es selfUpdate
        { params with encryptionKey := rand.leafKeypair.publicKey } (K.pathKey rand.pathSecret) =
        .ok (c.diff, some ⟨r.leafNode, (List.range length).map (K.pathKey rand.pathSecret)⟩) := by
  obtain ⟨⟨d, path, values⟩, hbuild, h⟩ := bind_inv h
  cases h
  obtain rfl : path = some r := hr
  obtain ⟨hmember, hvalid, t, happly, hneeded, hcompute⟩ := buildInternal_eq_ok.mp hbuild
  obtain ⟨length, hfor, hcompute'⟩ := PublicGroupDiff.computeEncryptedPath_eq_ok hcompute
  refine ⟨⟨t, happly⟩, length, hfor, bind_eq_ok.mpr ⟨(d, some _, values), ?_, rfl⟩⟩
  exact buildInternal_eq_ok.mpr ⟨hmember, hvalid, t, happly, hneeded, hcompute'⟩

lemma createEncryptedExternalCommit_eq_ok {kemOutput : Bytes} {credential : String}
    {signatureKey : Key}
    (h : g.createEncryptedExternalCommit K H rules kemOutput credential signatureKey params rand =
      .ok c) :
    (∃ t, applyProposals g.treesync.emptyDiff (byNewMember (g.externalProposals kemOutput
      signatureKey)) (some (g.leftmostFreeIndex (g.externalProposals kemOutput signatureKey))) =
      .ok (t, c.values)) ∧
    ∃ r length, c.path = some r ∧ r.For c.diff (g.leftmostFreeIndex (g.externalProposals kemOutput
        signatureKey)) c.values.exclusionList rand length ∧
      g.createExternalCommit H rules kemOutput credential signatureKey
        { params with encryptionKey := rand.leafKeypair.publicKey } (K.pathKey rand.pathSecret) =
        .ok (c.diff, ⟨r.leafNode, (List.range length).map (K.pathKey rand.pathSecret)⟩) := by
  obtain ⟨⟨d, r, values⟩, hjoin, h⟩ := bind_inv h
  cases h
  obtain ⟨hvalid, t, happly, hcompute⟩ := (joinByExternalCommit_eq_ok rfl rfl).mp hjoin
  obtain ⟨length, hfor, hcompute'⟩ := PublicGroupDiff.computeEncryptedPath_eq_ok hcompute
  refine ⟨⟨t, happly⟩, r, length, rfl, hfor, bind_eq_ok.mpr ⟨(d, _, values), ?_, rfl⟩⟩
  exact (joinByExternalCommit_eq_ok rfl rfl).mpr ⟨hvalid, t, happly, hcompute'⟩

lemma createEncrypted_eq_ok {request : CommitRequest D}
    (h : g.createEncrypted K H rules params rand request = .ok c) (hr : c.path = some r) :
    (∃ t, applyProposals g.treesync.emptyDiff (request.proposals g) (some (request.committer g)) =
      .ok (t, c.values)) ∧
    ∃ length, r.For c.diff (request.committer g) c.values.exclusionList rand length ∧
      (request.toCommit params rand).updatePath H rules g =
        some ⟨r.leafNode, (List.range length).map (K.pathKey rand.pathSecret)⟩ ∧
      ∀ m, g.treesync.emptyDiff.WellFormed m →
        ∃ n, CommitShape H rules g m (request.toCommit params rand) c.diff.diff n := by
  cases request with
  | member own es selfUpdate =>
    obtain ⟨happly, length, hfor, hcreate⟩ := createEncryptedCommit_eq_ok h hr
    refine ⟨happly, length, hfor, ?_, fun m hwf => createCommit_shape hwf hcreate⟩
    rw [CommitRequest.toCommit, Commit.updatePath, hcreate]
    rfl
  | external kemOutput credential signatureKey =>
    obtain ⟨happly, r', length, hr', hfor, hcreate⟩ := createEncryptedExternalCommit_eq_ok h
    obtain rfl := Option.mem_unique hr hr'
    refine ⟨happly, length, hfor, ?_, fun m hwf => createExternalCommit_shape hwf hcreate⟩
    rw [CommitRequest.toCommit, Commit.updatePath, hcreate]
    rfl

variable (H)

/-- `MlsGroup::stage_commit` of the receiver `own` for a validated commit with a path. -/
def stageEncryptedCommit (g : PublicGroup D) (own sender : ℕ) (es : List (Proposal D × Sender))
    (path : PathComputationResult K)
    (oldEpochKeypairs leafNodeKeypairs : List (EncryptionKeyPair K)) :
    Except MemberStageError (StagedCommitState K) := do
  let d := g.emptyDiff
  let (t, values) ← MemberStageError.liftCommit (applyProposals d.diff es (some own))
  let t ← MemberStageError.liftCommit
    (liftTree (t.applyReceivedUpdatePath H sender path.updatePath))
  let d ← MemberStageError.liftCommit
    (liftTree (lift (PublicGroupDiff.updateGroupContext { d with diff := t } values.extensions)))
  if values.selfRemoved then pure (.publicState d)
  else do
    let (newKeypairs, commitSecret) ← MemberStageError.liftPath
      (d.decryptPath H (oldEpochKeypairs ++ leafNodeKeypairs) own sender path.encryptedPath
        values.exclusionList)
    let newLeafKeypair := (d.diff.diff.leaf own).bind fun l =>
      leafNodeKeypairs.find? (·.publicKey = l.encryptionKey)
    pure (.groupMember d newKeypairs newLeafKeypair commitSecret)

/-- The key pairs that `merge_commit` keeps for the next epoch. -/
def retainKeypairs (g : PublicGroup D) (own : ℕ) (keypairs : List (EncryptionKeyPair K)) :
    Exec (List (EncryptionKeyPair K)) := do
  let owned ← g.treesync.emptyDiff.encryptionKeys own
  pure (keypairs.filter (·.publicKey ∈ owned))

end PublicGroup

/-- A transparent ciphersuite: a ciphertext shows what it contains. -/
def plainKem : KemSuite (List ℕ) ℕ ℕ (Key × EncryptContext (List ℕ) × Plaintext ℕ) where
  derivePathSecret s := s + 1
  derivePrivateKey s := s
  publicKey p := p
  encryptWithLabel pk context plaintext _ := (pk, context, plaintext)
  decryptWithLabel p context c := if c.1 = p ∧ c.2.1 = context then some c.2.2 else none
  decrypt_encrypt _ _ _ _ := if_pos ⟨rfl, rfl⟩

/-- Path secrets that are counted from `fresh + 1` on, and `fresh` as the key of the leaf. -/
def plainRandomness (fresh : ℕ) : PathRandomness plainKem :=
  ⟨fresh + 1, ⟨fresh, fresh, rfl⟩, fun _ _ => []⟩

end EmulatedMls
