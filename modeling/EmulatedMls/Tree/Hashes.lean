import EmulatedMls.Lib.Serial
import EmulatedMls.Tree.TreeMath

/-!
# Tree hashes and parent hashes

What is hashed for a node of the tree, and what is assumed of the hash function.

**Source.**  `treesync/hashes.rs`, and `compute_tree_hash` and `compute_parent_hash` of
`treesync/treesync_node.rs` and `treesync/node/parent_node.rs`.

**Hash function.**  The hash of the crypto provider is a parameter, of which a `HashSuite` assumes
only that no tree hash is the empty byte string, the mark of a missing cache entry.  A result that
needs more assumes a `CollisionFree` hash.  The serialisation of the hashed record is such a hash,
`plainHash`.
-/

namespace EmulatedMls

inductive TreeHashInput (D : Type) where
  | leaf (leafIndex : ℕ) (leafNode : Option (LeafNode D))
  | parent (parentNode : Option (ParentNode D)) (leftHash rightHash : D)
  deriving DecidableEq, Repr

structure ParentHashInput (D : Type) where
  publicKey : Key
  parentHash : D
  originalSiblingTreeHash : D
  deriving DecidableEq, Repr

structure HashSuite (D : Type) where
  /-- The empty byte string, which stands for a hash that is not computed yet. -/
  empty : D
  treeHash : TreeHashInput D → D
  parentHash : ParentHashInput D → D
  treeHash_ne_empty : ∀ x, treeHash x ≠ empty

/-- No two inputs have the same hash, and no parent hash is the empty byte string. -/
structure HashSuite.CollisionFree {D : Type} (H : HashSuite D) : Prop where
  treeHash : Function.Injective H.treeHash
  parentHash : Function.Injective H.parentHash
  parentHash_ne_empty : ∀ x, H.parentHash x ≠ H.empty

/-! ## Hashing a node -/

section

variable {D : Type} (H : HashSuite D)

/-- The new node of a path: only the key is set. -/
def ParentNode.ofKey (key : Key) : ParentNode D := ⟨key, H.empty, H.empty, []⟩

def ParentNode.computeParentHash (q : ParentNode D) (originalSiblingTreeHash : D) : D :=
  H.parentHash ⟨q.encryptionKey, q.parentHash, originalSiblingTreeHash⟩

/-- `UnmergedLeaves::add`.  A leaf that is already listed is inserted once more. -/
def addUnmergedLeaf (i : ℕ) : List ℕ → List ℕ
  | [] => [i]
  | k :: ks => if k < i then k :: addUnmergedLeaf i ks else i :: k :: ks

def ParentNode.addUnmergedLeaf (i : ℕ) (q : ParentNode D) : ParentNode D :=
  { q with unmergedLeaves := EmulatedMls.addUnmergedLeaf i q.unmergedLeaves }

def ParentNode.exclude (excluded : List ℕ) (q : ParentNode D) : ParentNode D :=
  { q with unmergedLeaves := q.unmergedLeaves.filter (· ∉ excluded) }

/-- `TreeSyncLeafNode::compute_tree_hash`. -/
def leafTreeHash (i : ℕ) (l : Option (LeafNode D)) : D := H.treeHash (.leaf i l)

/-- `TreeSyncParentNode::compute_tree_hash`. -/
def parentTreeHash (q : Option (ParentNode D)) (leftHash rightHash : D)
    (excluded : List ℕ) : D :=
  if excluded.isEmpty then H.treeHash (.parent q leftHash rightHash)
  else H.treeHash (.parent (q.map (ParentNode.exclude excluded)) leftHash rightHash)

end

/-! ## The serialisation as a hash -/

def LeafNode.fields (l : LeafNode (List ℕ)) : (ℕ × ℕ) × List ℕ × (ℕ × List ℕ) × List ℕ :=
  ((l.encryptionKey, l.signatureKey), l.credential.toList.map Char.toNat,
    (match l.source with
      | .keyPackage lifetime => (1, lifetime.map UInt8.toNat)
      | .update => (2, [])
      | .commit h => (3, h)),
    l.rest.map UInt8.toNat)

def ParentNode.fields (q : ParentNode (List ℕ)) : ℕ × List ℕ × List ℕ × List ℕ :=
  (q.encryptionKey, q.treeHash, q.parentHash, q.unmergedLeaves)

def serialiseLeafNode : LeafNode (List ℕ) → List ℕ :=
  encodePair (encodePair (fun n => [n]) fun n => [n])
    (encodePair encodeList (encodePair (encodePair (fun n => [n]) encodeList) encodeList)) ∘
    LeafNode.fields

def serialiseParentNode : ParentNode (List ℕ) → List ℕ :=
  encodePair (fun n => [n]) (encodePair encodeList (encodePair encodeList encodeList)) ∘
    ParentNode.fields

/-- The serialised input of a tree hash. -/
def serialiseTreeHashInput : TreeHashInput (List ℕ) → List ℕ
  | .leaf i l => 1 :: i :: encodeOption serialiseLeafNode l
  | .parent q x y => 2 :: (encodeOption serialiseParentNode q ++ encodeList x ++ encodeList y)

/-- The serialised input of a parent hash. -/
def serialiseParentHashInput (x : ParentHashInput (List ℕ)) : List ℕ :=
  x.publicKey :: (encodeList x.parentHash ++ encodeList x.originalSiblingTreeHash)

lemma charToNat_injective : Function.Injective Char.toNat := fun _ _ h =>
  Char.ext (UInt32.toNat_inj.mp h)

lemma map_uint8ToNat_injective : Function.Injective (List.map UInt8.toNat) :=
  List.map_injective_iff.mpr fun _ _ h => UInt8.toNat_inj.mp h

lemma LeafNode.fields_injective : Function.Injective LeafNode.fields := by
  rintro ⟨ek, sk, cred, src, rest⟩ ⟨ek', sk', cred', src', rest'⟩ h
  simp only [LeafNode.fields, Prod.mk.injEq] at h
  obtain ⟨⟨rfl, rfl⟩, hcred, hsrc, hrest⟩ := h
  obtain rfl : cred = cred' :=
    String.toList_inj.mp (List.map_injective_iff.mpr charToNat_injective hcred)
  obtain rfl := map_uint8ToNat_injective hrest
  obtain rfl : src = src' := by
    cases src <;> cases src' <;> simp at hsrc ⊢
    · exact map_uint8ToNat_injective hsrc
    · exact hsrc
  rfl

lemma ParentNode.fields_injective : Function.Injective ParentNode.fields := by
  rintro ⟨ek, th, ph, un⟩ ⟨ek', th', ph', un'⟩ h
  obtain ⟨rfl, rfl, rfl, rfl⟩ := h
  rfl

lemma selfDelimiting_leafNode : SelfDelimiting serialiseLeafNode :=
  ((SelfDelimiting.nat.pair .nat).pair
    (SelfDelimiting.list.pair ((SelfDelimiting.nat.pair .list).pair .list))).comap
    LeafNode.fields_injective

lemma selfDelimiting_parentNode : SelfDelimiting serialiseParentNode :=
  (SelfDelimiting.nat.pair (SelfDelimiting.list.pair (SelfDelimiting.list.pair .list))).comap
    ParentNode.fields_injective

lemma serialiseTreeHashInput_injective : Function.Injective serialiseTreeHashInput := by
  intro a b h
  cases a with
  | leaf i l => cases b with
    | leaf i' l' =>
      simp only [serialiseTreeHashInput, List.cons.injEq, true_and] at h
      obtain ⟨rfl, h⟩ := h
      rw [(selfDelimiting_leafNode.option).injective h]
    | parent q' x' y' => simp [serialiseTreeHashInput] at h
  | parent q x y => cases b with
    | leaf i' l' => simp [serialiseTreeHashInput] at h
    | parent q' x' y' =>
      simp only [serialiseTreeHashInput, List.cons.injEq, true_and, List.append_assoc] at h
      obtain ⟨rfl, hrest⟩ := selfDelimiting_parentNode.option _ _ _ _ h
      obtain ⟨rfl, hlast⟩ := SelfDelimiting.list _ _ _ _ hrest
      rw [SelfDelimiting.list.injective hlast]

lemma serialiseParentHashInput_injective : Function.Injective serialiseParentHashInput := by
  rintro ⟨k, p, s⟩ ⟨k', p', s'⟩ h
  simp only [serialiseParentHashInput, List.cons.injEq] at h
  obtain ⟨rfl, hrest⟩ := h
  obtain ⟨rfl, hlast⟩ := SelfDelimiting.list _ _ _ _ hrest
  rw [SelfDelimiting.list.injective hlast]

/-- The hash that returns its serialised input. -/
def plainHash : HashSuite (List ℕ) where
  empty := []
  treeHash := serialiseTreeHashInput
  parentHash := serialiseParentHashInput
  treeHash_ne_empty x := by cases x <;> simp [serialiseTreeHashInput]

lemma plainHash_collisionFree : plainHash.CollisionFree :=
  ⟨serialiseTreeHashInput_injective, serialiseParentHashInput_injective,
    fun _ => List.cons_ne_nil _ _⟩

end EmulatedMls
