import EmulatedMls.Tree.TreeSyncDiff
import Mathlib.Data.List.DropRight

/-!
# The ratchet tree

The tree that every member keeps, how it starts, and how it is exported for a new member and
imported again.

**Source.**  `treesync/mod.rs`.

**Exported trees.**  A `RatchetTree` ends with a node that is not blank: `RatchetTree::trimmed`
cuts the blank nodes at the end, and `RatchetTree::try_from_nodes` refuses a tree that has some.
-/

namespace EmulatedMls

structure TreeSync (D : Type) where
  tree : ABinaryTree (TreeSyncLeafNode D) (TreeSyncParentNode D)
  treeHash : D
  treeHashes : List D
  blankedLeaves : List ℕ
  numMembers : ℕ

structure StagedTreeSyncDiff (D : Type) where
  diff : AbDiff (TreeSyncLeafNode D) (TreeSyncParentNode D)
  newTreeHash : D
  newTreeHashes : List D
  blankedLeaves : List ℕ
  numMembers : ℕ

inductive Node (D : Type) where
  | leafNode (l : LeafNode D)
  | parentNode (q : ParentNode D)
  deriving DecidableEq, Repr

structure RatchetTree (D : Type) where
  nodes : List (Option (Node D))
  trimmed : ∀ x ∈ nodes.getLast?, x.isSome

/-- `RatchetTree::trimmed`. -/
def RatchetTree.ofNodes {D : Type} (nodes : List (Option (Node D))) : RatchetTree D where
  nodes := nodes.rdropWhile Option.isNone
  trimmed x hx := by
    obtain ⟨hne, rfl⟩ := List.mem_getLast?_eq_getLast hx
    have := List.rdropWhile_last_not Option.isNone nodes hne
    simpa [Option.isSome_iff_ne_none] using this

/-- `into_staged_diff`: the hash of the root is taken from the cache. -/
def TreeSyncDiff.intoStagedDiff {D : Type} (t : TreeSyncDiff D) : Exec (StagedTreeSyncDiff D) := do
  let h ← index t.treeHashes (root t.diff.size).u32
  pure ⟨t.diff, h, t.treeHashes, t.blankedLeaves, t.numMembers⟩

namespace TreeSync

variable {D : Type}

def treeSize (t : TreeSync D) : TreeSize := t.tree.treeSize

def emptyDiff (t : TreeSync D) : TreeSyncDiff D :=
  ⟨t.tree.emptyDiff, t.treeHashes, t.blankedLeaves, t.numMembers⟩

def mergeDiff (t : TreeSync D) (s : StagedTreeSyncDiff D) : TreeSync D :=
  ⟨t.tree.mergeDiff s.diff, s.newTreeHash, s.newTreeHashes, s.blankedLeaves, s.numMembers⟩

def leaf (t : TreeSync D) (i : ℕ) : Option (LeafNode D) := t.tree.leafByIndex i

/-- `rightmost_full_leaf_complete`: found by looking at all leaves. -/
def rightmostFullLeafComplete (t : TreeSync D) : ℕ :=
  t.tree.leaves.foldl (fun i e => if e.2.isSome then e.1 else i) 0

def calculateNumMembers (t : TreeSync D) : TreeSync D :=
  { t with numMembers := (t.tree.leaves.filter (·.2.isSome)).length }

/-- `calculate_blanked_leaves`: the blank leaves before the last full one. -/
def calculateBlankedLeaves (t : TreeSync D) : TreeSync D :=
  let rightmost := t.rightmostFullLeafComplete
  let before := t.tree.leaves.takeWhile (·.1 < rightmost)
  { t with blankedLeaves := (before.filter (·.2.isNone)).map (·.1) }

/-- `populate_parent_hashes`: an empty diff is merged. -/
def populateParentHashes (t : TreeSync D) : Exec (TreeSync D) := do
  let staged ← t.emptyDiff.intoStagedDiff
  pure (t.mergeDiff staged)

/-- The nodes as the binary tree takes them, from position `i` on. -/
def toTreeNodes : ℕ → List (Option (Node D)) →
    List (TreeNode (TreeSyncLeafNode D) (TreeSyncParentNode D))
  | _, [] => []
  | i, some (.leafNode l) :: xs => .leaf (some l) :: toTreeNodes (i + 1) xs
  | i, some (.parentNode q) :: xs => .parent (some q) :: toTreeNodes (i + 1) xs
  | i, none :: xs =>
    (if i % 2 = 0 then .leaf none else .parent none) :: toTreeNodes (i + 1) xs

/-- Put the leaves and the parents in turn. -/
def interleave : List (TreeSyncLeafNode D) → List (TreeSyncParentNode D) → List (Option (Node D))
  | l :: ls, q :: qs => q.map .parentNode :: l.map .leafNode :: interleave ls qs
  | _, _ => []

def exportRatchetTree (t : TreeSync D) : RatchetTree D :=
  let rightmost := t.rightmostFullLeafComplete
  match t.tree.leafNodes.take (rightmost + 1) with
  | [] => .ofNodes []
  | l :: ls =>
    let parents := t.tree.parentNodes.take rightmost ++
      List.replicate (t.tree.leafNodes.length - 1 - t.tree.parentNodes.length) none
    .ofNodes (l.map .leafNode :: interleave ls parents)

variable (H : HashSuite D)

def populateTreeHashes (t : TreeSync D) : Exec (TreeSync D) := do
  let t := { t with treeHashes := resize t.treeHashes t.treeSize.u32 H.empty }
  let diff ← t.emptyDiff.populateTreeHashes H (root t.treeSize)
  let staged ← diff.intoStagedDiff
  pure (t.mergeDiff staged)

/-- The end of `TreeSync::new`: the tree of a single leaf. -/
def new (l : LeafNode D) : Except TreeSyncError (TreeSync D) :=
  match ABinaryTree.new [.leaf (some l)] with
  | .error _ => .error .malformedTree
  | .ok tree => do
    let t ← lift (populateTreeHashes H ⟨tree, H.empty, [], [], 0⟩)
    let t ← lift t.populateParentHashes
    pure t.calculateNumMembers

def fromRatchetTree [DecidableEq D] (r : RatchetTree D) : Except TreeSyncError (TreeSync D) :=
  match ABinaryTree.new (toTreeNodes 0 r.nodes) with
  | .error _ => .error .malformedTree
  | .ok tree => do
    let t ← lift (populateTreeHashes H ⟨tree, H.empty, [], [], 0⟩)
    let t := t.calculateNumMembers.calculateBlankedLeaves
    t.emptyDiff.verifyParentHashes H
    lift t.populateParentHashes

end TreeSync

end EmulatedMls
