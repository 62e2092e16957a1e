import EmulatedMls.Mls.Validation
import EmulatedMls.Tree.BinaryTree
import EmulatedMls.Tree.Hashes

/-!
# Diffs of the ratchet tree

The ratchet tree is an array tree whose nodes may be blank, together with a cache of the tree hash
of every node, the list of blanked leaves and the number of members.  A commit changes a diff of
the tree: proposals change leaves and parents, and the update path sets the parents above the
committer and brings the cache up to date.

**Source.**  `treesync/diff.rs`.

**Faults.**  Reading or writing the cache outside of its bounds panics, and the direct path of a
leaf outside of the tree never ends; both are outcomes of the functions below.  `debug_assert!`
does nothing in a release build and is left out.

**Left out.**  Path secrets and their encryption, which `Tree/TreeKem` adds.  Here a path is given
by the public keys of its nodes.
-/

namespace EmulatedMls

/-- A leaf of the ratchet tree; `none` is a blank leaf. -/
abbrev TreeSyncLeafNode (D : Type) := Option (LeafNode D)

/-- A parent of the ratchet tree; `none` is a blank parent. -/
abbrev TreeSyncParentNode (D : Type) := Option (ParentNode D)

structure TreeSyncDiff (D : Type) where
  diff : AbDiff (TreeSyncLeafNode D) (TreeSyncParentNode D)
  treeHashes : List D
  blankedLeaves : List ℕ
  numMembers : ℕ

inductive TreeSyncError where
  | fault (f : Fault)
  | treeFull
  | inconsistentSenderIndex
  | pathLengthMismatch
  | missingParentHash
  | parentHashMismatch
  | malformedTree
  | invalidParentHash
  deriving DecidableEq, Repr

def TreeSyncError.IsFault (e : TreeSyncError) : Prop := ∃ f, e = .fault f

/-- The outcome of a call that can only panic or loop. -/
def lift {α : Type} : Exec α → Except TreeSyncError α
  | .ok a => .ok a
  | .error f => .error (.fault f)

inductive NodeReference (D : Type) where
  | leaf (l : LeafNode D)
  | parent (q : ParentNode D)

/-- The parent hash that the node carries is `h`. -/
def NodeReference.carries {D : Type} [DecidableEq D] (h : D) : NodeReference D → Bool
  | .leaf l => l.parentHash = some h
  | .parent q => q.parentHash = h

/-- What the committer chooses for its new leaf. -/
structure UpdateLeafNodeParams where
  encryptionKey : Key
  signatureKey : Key
  credential : String
  rest : Bytes
  deriving DecidableEq, Repr

def LeafNode.newWithParentHash {D : Type} (parentHash : D) (params : UpdateLeafNodeParams) :
    LeafNode D :=
  ⟨params.encryptionKey, params.signatureKey, params.credential, .commit parentHash, params.rest⟩

namespace TreeSyncDiff

variable {D : Type}

def leafCount (t : TreeSyncDiff D) : ℕ := t.diff.size.leafCount

variable (t : TreeSyncDiff D)

/-- `rightmost_full_leaf`: an estimate from the counters.  The subtraction wraps. -/
def rightmostFullLeaf : ℕ :=
  (t.numMembers + t.blankedLeaves.length + (2 ^ 64 - 1)) % 2 ^ 32

/-- `free_leaf_index`: the smallest blanked leaf, or else the number of members. -/
def freeLeafIndex : ℕ :=
  match t.blankedLeaves with
  | [] => t.numMembers
  | i :: is => is.foldl min i

/-! ## Resolutions and filtered paths -/

def resolution (x : TreeNodeIndex) (excluded : List ℕ)
    (rightmostFullLeaf : ℕ) : List (TreeNodeIndex × NodeReference D) :=
  x.fold
    (fun i =>
      if i ∈ excluded then []
      else match t.diff.leaf i with
        | some l => [(.leaf i, .leaf l)]
        | none => [])
    (fun j ls rs =>
      match t.diff.parent j with
      | some q => (.parent j, .parent q) :: q.unmergedLeaves.filterMap fun i =>
        if i ∈ excluded then none
        else (t.diff.leaf i).map fun l => (.leaf i, .leaf l)
      | none =>
        match leftmost j with
        | .leaf i => if i > rightmostFullLeaf then [] else ls ++ rs
        | .parent _ => ls ++ rs)
    []

def copathResolutions (i : ℕ) : Exec (List (List (TreeNodeIndex × NodeReference D))) :=
  if t.leafCount = minTreeSize then .ok []
  else do
    let xs ← copath i t.diff.size
    pure (xs.map fun x => t.resolution x [] t.rightmostFullLeaf)

/-- Keep the nodes whose resolution is not empty. -/
def keepResolved {α β : Type} (xs : List α) (rs : List (List β)) : List α :=
  (xs.zip rs).filterMap fun e => if e.2.isEmpty then none else some e.1

def filteredDirectPath (i : ℕ) : Exec (List ℕ) := do
  let path ← directPath i t.diff.size
  let rs ← t.copathResolutions i
  pure (keepResolved path rs)

def filteredCopath (i : ℕ) : Exec (List TreeNodeIndex) := do
  let xs ← copath i t.diff.size
  let rs ← t.copathResolutions i
  pure (keepResolved xs rs)

/-! ## Proposals -/

/-- The loop of `trim_tree`.  An error of `shrink_tree` is ignored. -/
def trimLoop (rightmost : ℕ) :
    ℕ → AbDiff (TreeSyncLeafNode D) (TreeSyncParentNode D) →
      Exec (AbDiff (TreeSyncLeafNode D) (TreeSyncParentNode D))
  | 0, d => if d.size.leafIsLeft rightmost then .error .fuel else .ok d
  | fuel + 1, d =>
    if d.size.leafIsLeft rightmost then
      match d.shrinkTree with
      | .ok d' => trimLoop rightmost fuel d'
      | .error _ => trimLoop rightmost fuel d
    else .ok d

def trimTree : Exec (TreeSyncDiff D) :=
  if t.leafCount = minTreeSize then .ok t
  else do
    let d ← trimLoop t.rightmostFullLeaf t.leafCount t.diff
    pure { t with diff := d }

def updateLeaf (l : LeafNode D) (i : ℕ) : Exec (TreeSyncDiff D) := do
  let d ← (t.diff.replaceLeaf i (some l)).setDirectPathToNode i none
  pure { t with diff := d }

/-- `blank_leaf`.  The tree is trimmed before the counters are updated. -/
def blankLeaf (i : ℕ) : Exec (TreeSyncDiff D) := do
  let d ← (t.diff.replaceLeaf i none).setDirectPathToNode i none
  let t ← trimTree { t with diff := d }
  pure { t with
    blankedLeaves := t.blankedLeaves ++ [i]
    numMembers := (t.numMembers + (2 ^ 64 - 1)) % 2 ^ 64 }

/-- The loop of `add_leaf` that extends the tree. -/
def growLoop (i : ℕ) :
    ℕ → AbDiff (TreeSyncLeafNode D) (TreeSyncParentNode D) →
      Except TreeSyncError (AbDiff (TreeSyncLeafNode D) (TreeSyncParentNode D))
  | 0, d => if d.size.leafCount ≤ i then .error (.fault .fuel) else .ok d
  | fuel + 1, d =>
    if d.size.leafCount ≤ i then
      match d.growTree with
      | .ok d' => growLoop i fuel d'
      | .error _ => .error .treeFull
    else .ok d

/-- `add_leaf`, with the index of the new leaf. -/
def addLeaf (l : LeafNode D) : Except TreeSyncError (TreeSyncDiff D × ℕ) := do
  let i := t.freeLeafIndex
  let d ← growLoop i (i + 1) t.diff
  let path ← lift (directPath i d.size)
  let d := path.foldl (fun d j => d.modifyParent j (Option.map (ParentNode.addUnmergedLeaf i)))
    (d.replaceLeaf i (some l))
  pure ({ t with
    diff := d
    blankedLeaves := t.blankedLeaves.filter (· ≠ i)
    numMembers := t.numMembers + 1 }, i)

/-! ## The cache of tree hashes -/

variable (H : HashSuite D)

/-- `compute_tree_hash`: from scratch, without the excluded leaves. -/
def computeTreeHash (x : TreeNodeIndex) (excluded : List ℕ) : D :=
  x.fold
    (fun i => leafTreeHash H i (if i ∈ excluded then none else t.diff.leaf i))
    (fun j lh rh => parentTreeHash H (t.diff.parent j) lh rh excluded)
    H.empty

/-- `tree_hash`: from the cache. -/
def treeHash (x : TreeNodeIndex) : Exec D := index t.treeHashes x.u32

def rootHash : Exec D := t.treeHash (root t.diff.size)

/-- The recursion of `populate_tree_hashes`, for at most `k` levels. -/
def populateLoop (d : AbDiff (TreeSyncLeafNode D) (TreeSyncParentNode D)) :
    ℕ → TreeNodeIndex → List D → Exec (List D × D)
  | _, .leaf i, hashes => do
    let h := leafTreeHash H i (d.leaf i)
    let hashes ← store hashes (TreeNodeIndex.leaf i).u32 h
    pure (hashes, h)
  | 0, .parent _, _ => .error .fuel
  | k + 1, .parent j, hashes => do
    let (hashes, lh) ← populateLoop d k (left j) hashes
    let (hashes, rh) ← populateLoop d k (right j) hashes
    let h := parentTreeHash H (d.parent j) lh rh []
    let hashes ← store hashes (TreeNodeIndex.parent j).u32 h
    pure (hashes, h)

def populateTreeHashes (x : TreeNodeIndex) : Exec (TreeSyncDiff D) := do
  let (hashes, _) ← populateLoop H t.diff (level x.u32) x t.treeHashes
  pure { t with treeHashes := hashes }

/-- The leaves that were added by resizing the cache, and are not listed, are listed as blank. -/
def addFreshLeaves [DecidableEq D] (hashes : List D) (leaves : ℕ)
    (modified : List (ℕ × TreeSyncLeafNode D)) : List (ℕ × TreeSyncLeafNode D) :=
  (List.range leaves).foldl (fun ms i =>
    if hashes[2 * i]? = some H.empty ∧ ¬ ms.any (·.1 = i) then ms ++ [(i, none)] else ms) modified

/-- Store the hashes of the leaves and queue their parents. -/
def storeLeaves (size : TreeSize) : List (ℕ × TreeSyncLeafNode D) → List D →
    List ℕ → Exec (List D × List ℕ)
  | [], hashes, queue => .ok (hashes, queue)
  | (i, l) :: ms, hashes, queue => do
    let hashes ← store hashes (TreeNodeIndex.leaf i).u32 (leafTreeHash H i l)
    let queue := if TreeNodeIndex.leaf i ≠ root size then queue ++ [parent (.leaf i)] else queue
    storeLeaves size ms hashes queue

/-- Recompute the queued parents and queue their parents in turn. -/
def drainQueue (d : AbDiff (TreeSyncLeafNode D) (TreeSyncParentNode D)) :
    ℕ → List ℕ → List D → Exec (List D)
  | _, [], hashes => .ok hashes
  | 0, _ :: _, _ => .error .fuel
  | fuel + 1, j :: queue, hashes => do
    let lh ← index hashes (left j).u32
    let rh ← index hashes (right j).u32
    let hashes ← store hashes (TreeNodeIndex.parent j).u32 (parentTreeHash H (d.parent j) lh rh [])
    let queue := if TreeNodeIndex.parent j ≠ root d.size then queue ++ [parent (.parent j)]
      else queue
    drainQueue d fuel queue hashes

/-- `update_tree_hashes`, with the new hash of the root. -/
def updateTreeHashes [DecidableEq D]
    (modified : List (ℕ × TreeSyncLeafNode D)) : Exec (TreeSyncDiff D × D) := do
  let leaves := max t.leafCount minTreeSize
  let hashes := resize t.treeHashes (leaves * 2 - 1) H.empty
  let modified := addFreshLeaves H hashes leaves modified
  let (hashes, queue) ← storeLeaves H t.diff.size modified hashes []
  let hashes ← drainQueue H t.diff (queue.length * t.diff.size.u32) queue hashes
  let rootHash ← index hashes (root t.diff.size).u32
  pure ({ t with treeHashes := hashes }, rootHash)

/-! ## Update paths -/

/-- The loop of `set_parent_hashes`, from the top down. -/
def linkParentHashes (hashes : List D) :
    List ((ℕ × ParentNode D) × TreeNodeIndex) → D →
      Exec (List (ℕ × ParentNode D) × D)
  | [], previous => .ok ([], previous)
  | ((j, q), x) :: rest, previous => do
    let siblingHash ← index hashes x.u32
    let q := { q with parentHash := previous }
    let (nodes, h) ← linkParentHashes hashes rest (q.computeParentHash H siblingHash)
    pure ((j, q) :: nodes, h)

/-- `set_parent_hashes`.  For an empty path it returns before the cache is updated. -/
def setParentHashes [DecidableEq D]
    (path : List (ℕ × ParentNode D)) (i : ℕ) :
    Exec (TreeSyncDiff D × List (ℕ × ParentNode D) × D) :=
  if path.isEmpty then .ok (t, path, H.empty)
  else do
    let xs ← t.filteredCopath i
    let (t, _) ← t.updateTreeHashes H t.diff.diffLeaves
    let (nodes, h) ← linkParentHashes H t.treeHashes (path.reverse.zip xs.reverse) H.empty
    pure (t, nodes.reverse, h)

def processUpdatePath [DecidableEq D] (i : ℕ)
    (path : List (ℕ × ParentNode D)) : Exec (TreeSyncDiff D × D) := do
  let (t, path, h) ← t.setParentHashes H path i
  let nodes ← directPath i t.diff.size
  let d := nodes.foldl (fun d j => d.modifyParent j fun _ => none) t.diff
  let d := path.foldl (fun d e => d.modifyParent e.1 fun _ => some e.2) d
  pure ({ t with diff := d }, h)

/-- `apply_own_update_path`, with the new leaf. -/
def applyOwnUpdatePath [DecidableEq D] (i : ℕ)
    (params : UpdateLeafNodeParams) (path : List (ℕ × ParentNode D)) :
    Exec (TreeSyncDiff D × LeafNode D) := do
  let (t, h) ← t.processUpdatePath H i path
  let l := LeafNode.newWithParentHash h params
  let (t, _) ← t.updateTreeHashes H [(i, some l)]
  pure ({ t with diff := t.diff.replaceLeaf i (some l) }, l)

/-- The first block of `apply_received_update_path`: the leaf of a new member is added. -/
def addSender (sender : ℕ) (l : LeafNode D) : Except TreeSyncError (TreeSyncDiff D) :=
  if (t.diff.leaf sender).isNone ∨ t.leafCount ≤ sender then do
    let (t, i) ← t.addLeaf l
    if sender ≠ i then .error .inconsistentSenderIndex else pure t
  else pure t

def applyReceivedUpdatePath [DecidableEq D] (sender : ℕ)
    (updatePath : UpdatePath D) : Except TreeSyncError (TreeSyncDiff D) := do
  let t ← t.addSender sender updatePath.leafNode
  let nodes ← lift (t.filteredDirectPath sender)
  if nodes.length ≠ updatePath.nodes.length then .error .pathLengthMismatch
  else do
    let path := nodes.zip (updatePath.nodes.map (ParentNode.ofKey H))
    let (t, h) ← lift (t.processUpdatePath H sender path)
    match updatePath.leafNode.parentHash with
    | none => .error .missingParentHash
    | some h' =>
      if h' ≠ h then .error .parentHashMismatch
      else do
        let (t, _) ← lift (t.updateTreeHashes H [(sender, some updatePath.leafNode)])
        pure { t with diff := t.diff.replaceLeaf sender (some updatePath.leafNode) }

/-! ## Verifying parent hashes -/

/-- The hash of a child at the time the parent was set. -/
def originalTreeHash (q : ParentNode D) (x : TreeNodeIndex) : Exec D :=
  if q.unmergedLeaves.isEmpty then t.treeHash x
  else .ok (t.computeTreeHash H x q.unmergedLeaves)

/-- The check of one parent in `verify_parent_hashes`. -/
def verifyParentHash [DecidableEq D] (j : ℕ)
    (q : ParentNode D) : Except TreeSyncError Unit := do
  let originalLeft ← lift (t.originalTreeHash H q (left j))
  let originalRight ← lift (t.originalTreeHash H q (right j))
  let hashLeft := q.computeParentHash H originalRight
  let hashRight := q.computeParentHash H originalLeft
  let inLeft := (t.resolution (left j) q.unmergedLeaves t.rightmostFullLeaf).any
    (·.2.carries hashLeft)
  let inRight := (t.resolution (right j) q.unmergedLeaves t.rightmostFullLeaf).any
    (·.2.carries hashRight)
  if (!inLeft) ^^ inRight then .error .invalidParentHash else pure ()

/-- The loop of `verify_parent_hashes`. -/
def verifyLoop [DecidableEq D] (t : TreeSyncDiff D) :
    List (ℕ × TreeSyncParentNode D) → Except TreeSyncError Unit
  | [] => .ok ()
  | (_, none) :: nodes => verifyLoop t nodes
  | (j, some q) :: nodes => do
    t.verifyParentHash H j q
    verifyLoop t nodes

def verifyParentHashes [DecidableEq D] : Except TreeSyncError Unit :=
  t.verifyLoop H t.diff.parents

end TreeSyncDiff

end EmulatedMls
