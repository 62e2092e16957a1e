import Mathlib.Data.List.Basic

/-!
# Leaf nodes, parent nodes and proposals

The data that the modelled part of OpenMLS passes around.

**Digests.**  Hash values are elements of a type `D`.  What is hashed into them is said where the
hashes are computed; a leaf node and a parent node only carry them.

**Opaque data.**  Public keys are compared and never computed with, so they are numbers.  The
parts of a leaf node that are read by checks of a single leaf node only (capabilities, extensions,
lifetime, signature) are kept as bytes, and the checks are parameters wherever they are needed.

**Source.**  `treesync/node/leaf_node.rs`, `treesync/node/parent_node.rs`,
`messages/proposals.rs` and `framing/sender.rs`.
-/

namespace EmulatedMls

abbrev Bytes := List UInt8

/-- A public key; the code only compares them. -/
abbrev Key := ℕ

/-- The index of a leaf among the leaves. -/
abbrev LeafNodeIndex := ℕ

/-- Where a leaf node comes from.  Only a leaf of an update path carries a parent hash. -/
inductive LeafNodeSource (D : Type) where
  | keyPackage (lifetime : Bytes)
  | update
  | commit (parentHash : D)
  deriving DecidableEq, Repr

structure LeafNode (D : Type) where
  encryptionKey : Key
  signatureKey : Key
  credential : String
  source : LeafNodeSource D
  /-- Capabilities, extensions and signature. -/
  rest : Bytes
  deriving DecidableEq, Repr

def LeafNode.parentHash {D : Type} (leaf : LeafNode D) : Option D :=
  match leaf.source with
  | .commit h => some h
  | _ => none

structure ParentNode (D : Type) where
  encryptionKey : Key
  treeHash : D
  parentHash : D
  unmergedLeaves : List LeafNodeIndex
  deriving DecidableEq, Repr

structure KeyPackage (D : Type) where
  leafNode : LeafNode D
  hpkeInitKey : Key
  ciphersuite : ℕ
  protocolVersion : ℕ
  deriving DecidableEq, Repr

/-- A proposal.  Only an `add`, an `update` and a `remove` change the tree. -/
inductive Proposal (D : Type) where
  | add (keyPackage : KeyPackage D)
  | update (leafNode : LeafNode D)
  | remove (removed : LeafNodeIndex)
  | preSharedKey (pskId : Bytes)
  | reInit (payload : Bytes)
  | externalInit (kemOutput : Bytes)
  | groupContextExtensions (extensions : Bytes)
  | appAck (payload : Bytes)
  | custom (proposalType : ℕ) (payload : Bytes)
  deriving DecidableEq, Repr

/-- `Proposal::is_path_required`.  This fork requires a path for an `add` as well. -/
def Proposal.isPathRequired {D : Type} : Proposal D → Bool
  | .add _ | .update _ | .remove _ | .externalInit _ | .groupContextExtensions _ => true
  | _ => false

inductive Sender where
  | member (leafIndex : LeafNodeIndex)
  | external (index : ℕ)
  | newMemberProposal
  | newMemberCommit
  deriving DecidableEq, Repr

/-- Whether a proposal is to be covered by value or by reference. -/
inductive ProposalOrRefType where
  | proposal
  | reference
  deriving DecidableEq, Repr

end EmulatedMls
