import EmulatedMls.Lib.Exec
import EmulatedMls.Lib.Json

/-!
# The storage provider of the client

One map holds everything that the MLS library stores.  A key is a label, a JSON text and a version,
one after the other.

**Source.**  `emulated_client/src/provider/null_storage_provider.rs`: the helpers of
`NullStorageProvider`, the proposals, the epoch key pairs and the keys.

**Epoch key pairs.**  Their key is the group id, the epoch and the leaf index, with nothing between
them.  An epoch and a leaf index are numbers, so their digits can be cut in more than one way.
-/

namespace EmulatedMls.NullStorage

open Json

/-- `MemoryStorageError::SerializationError`, or an `unwrap` that panics. -/
inductive StorageFault where
  | serialization
  | panic
  deriving DecidableEq, Repr

abbrev Values := List UInt8 → Option (List UInt8)

def Values.empty : Values := fun _ => none

def buildKeyFromVec (label : String) (key : List UInt8) : List UInt8 := ascii label ++ key ++ [0, 1]

def write (values : Values) (label : String) (key value : List UInt8) : Values :=
  Function.update values (buildKeyFromVec label key) (some value)

def delete (values : Values) (label : String) (key : List UInt8) : Values :=
  Function.update values (buildKeyFromVec label key) none

/-- Add a value to a list, which is created if it is not there. -/
def append (values : Values) (label : String) (key value : List UInt8) :
    Values × Except StorageFault Unit :=
  let storageKey := buildKeyFromVec label key
  let listBytes := (values storageKey).getD (ascii "[]")
  match fromSlice (List (List UInt8)) listBytes with
  | none => (Function.update values storageKey (some listBytes), .error .serialization)
  | some list => (Function.update values storageKey (some (toVec (list ++ [value]))), .ok ())

section

variable (α : Type) [Serde α]

/-- `from_slice`, with what happens to bytes that are not the text of a value. -/
def decode (fault : StorageFault) (bytes : List UInt8) : Except StorageFault α :=
  match fromSlice α bytes with
  | none => .error fault
  | some a => .ok a

variable {α} in
@[simp] lemma decode_toVec (fault : StorageFault) (a : α) : decode α fault (toVec a) = .ok a := by
  simp [decode]

def read (values : Values) (label : String) (key : List UInt8) : Except StorageFault (Option α) :=
  match values (buildKeyFromVec label key) with
  | none => .ok none
  | some value => some <$> decode α .serialization value

def readList (values : Values) (label : String) (key : List UInt8) :
    Except StorageFault (List α) := do
  let list ← (match values (buildKeyFromVec label key) with
    | none => .ok []
    | some listBytes => decode (List (List UInt8)) .panic listBytes)
  list.mapM (decode α .serialization)

end

/-! ## Proposals -/

section

variable {G : Type} (R P : Type) [Serde G] [Serde R] [Serde P]

def queueProposal {R P : Type} [Serde R] [Serde P] (values : Values) (groupId : G)
    (proposalRef : R) (proposal : P) : Values × Except StorageFault Unit :=
  append (write values "QueuedProposal" (toVec (groupId, proposalRef)) (toVec proposal))
    "ProposalQueueRefs" (toVec groupId) (toVec proposalRef)

/-- The proposal with a reference; it has to be there. -/
def queuedProposal {R : Type} [Serde R] (values : Values) (groupId : G) (proposalRef : R) :
    Except StorageFault (R × P) := do
  match ← read P values "QueuedProposal" (toVec (groupId, proposalRef)) with
  | none => .error .panic
  | some proposal => pure (proposalRef, proposal)

def queuedProposals (values : Values) (groupId : G) : Except StorageFault (List (R × P)) := do
  let refs ← readList R values "ProposalQueueRefs" (toVec groupId)
  refs.mapM (queuedProposal P values groupId)

/-- The entries are looked up under the bare key, without label and version. -/
def clearProposalQueue (values : Values) (groupId : G) : Values × Except StorageFault Unit :=
  match readList R values "ProposalQueueRefs" (toVec groupId) with
  | .error e => (values, .error e)
  | .ok proposalRefs =>
    (delete (proposalRefs.foldl (fun values proposalRef =>
        Function.update values (toVec (groupId, proposalRef)) none) values)
      "ProposalQueueRefs" (toVec groupId), .ok ())

/-- Nothing is removed. -/
def removeProposal {R : Type} (values : Values) (_groupId : G) (_proposalRef : R) :
    Values × Except StorageFault Unit := (values, .ok ())

end

/-! ## Epoch key pairs -/

structure GroupId where
  value : List UInt8
  deriving DecidableEq, Repr

lemma reads_groupId (g : GroupId) :
    Reads Anything (GroupId.mk <$> readField (readField Serde.read "vec") "value")
      (field "value" (field "vec" (toVec g.value))) g :=
  (reads_field ((reads_field (Serde.reads g.value) "vec").mono fun _ _ => trivial) "value").map _

instance : Serde GroupId where
  write g := field "value" (field "vec" (toVec g.value))
  read := GroupId.mk <$> readField (readField Serde.read "vec") "value"
  reads g := (reads_groupId g).mono fun _ _ => trivial
  first _ := ⟨123, _, rfl, by decide⟩

/-- What epoch key pairs are stored for. -/
structure Slot where
  groupId : GroupId
  epoch : UInt64
  leafIndex : UInt32
  deriving DecidableEq, Repr

def epochKeyPairsId (t : Slot) : List UInt8 :=
  toVec t.groupId ++ (toVec t.epoch ++ toVec t.leafIndex)

variable {K : Type} [Serde K]

def writeEncryptionEpochKeyPairs (values : Values) (t : Slot) (keyPairs : List K) : Values :=
  write values "EpochKeyPairs" (epochKeyPairsId t) (toVec keyPairs)

variable (K) in
def encryptionEpochKeyPairs (values : Values) (t : Slot) : Except StorageFault (List K) :=
  match values (buildKeyFromVec "EpochKeyPairs" (epochKeyPairsId t)) with
  | none => .ok []
  | some value => decode (List K) .panic value

def deleteEncryptionEpochKeyPairs (values : Values) (t : Slot) : Values :=
  delete values "EpochKeyPairs" (epochKeyPairsId t)

inductive SlotOp (K : Type) where
  | write (keyPairs : List K)
  | read
  | delete

def SlotOp.apply (values : Values) : Slot × SlotOp K → Values
  | (t, .write keyPairs) => writeEncryptionEpochKeyPairs values t keyPairs
  | (_, .read) => values
  | (t, .delete) => deleteEncryptionEpochKeyPairs values t

def afterOps (ops : List (Slot × SlotOp K)) : Values := ops.foldl SlotOp.apply .empty

lemma buildKeyFromVec_inj {label : String} {k k' : List UInt8} :
    buildKeyFromVec label k = buildKeyFromVec label k' ↔ k = k' := by
  simp [buildKeyFromVec]

lemma epochKeyPairsId_inj_iff {t t' : Slot} :
    epochKeyPairsId t = epochKeyPairsId t' ↔ t.groupId = t'.groupId ∧
      decimal t.epoch.toNat ++ decimal t.leafIndex.toNat =
        decimal t'.epoch.toNat ++ decimal t'.leafIndex.toNat := by
  refine ⟨fun h => ?_, fun ⟨hg, hd⟩ => ?_⟩
  · exact (reads_groupId t.groupId).unique (reads_groupId t'.groupId) trivial trivial h
  · rw [epochKeyPairsId, hg]
    exact congrArg _ hd

/-- **The slots that do not interfere** are those of different groups, and those whose digits of
    epoch and leaf index, put together, are different. -/
theorem epoch_slots_independent_iff (k : K) (t t' : Slot) :
    (∀ (ops : List (Slot × SlotOp K)) (op : SlotOp K),
      encryptionEpochKeyPairs K (afterOps (ops ++ [(t, op)])) t' =
        encryptionEpochKeyPairs K (afterOps ops) t') ↔
    ¬ (t.groupId = t'.groupId ∧ decimal t.epoch.toNat ++ decimal t.leafIndex.toNat =
      decimal t'.epoch.toNat ++ decimal t'.leafIndex.toNat) := by
  rw [← epochKeyPairsId_inj_iff]
  constructor
  · intro h hkey
    -- key pairs that are written to one slot are read from the other one
    have hread := h [] (.write [k])
    simp [afterOps, SlotOp.apply, writeEncryptionEpochKeyPairs, encryptionEpochKeyPairs, write,
      hkey, Values.empty] at hread
  · intro hkey ops op
    have hne : buildKeyFromVec "EpochKeyPairs" (epochKeyPairsId t') ≠
        buildKeyFromVec "EpochKeyPairs" (epochKeyPairsId t) :=
      fun h => hkey (buildKeyFromVec_inj.mp h).symm
    cases op <;>
      simp [afterOps, SlotOp.apply, encryptionEpochKeyPairs, writeEncryptionEpochKeyPairs,
        deleteEncryptionEpochKeyPairs, write, delete, hne]

/-- **Epoch 1 of leaf 23 and epoch 12 of leaf 3** share one slot. -/
theorem epoch_slots_collide :
    (⟨⟨[7]⟩, 1, 23⟩ : Slot) ≠ ⟨⟨[7]⟩, 12, 3⟩ ∧
    encryptionEpochKeyPairs UInt8 (afterOps [(⟨⟨[7]⟩, 1, 23⟩, .write [(5 : UInt8)])])
      ⟨⟨[7]⟩, 12, 3⟩ = .ok [5] ∧
    encryptionEpochKeyPairs UInt8 .empty ⟨⟨[7]⟩, 12, 3⟩ = .ok [] := by
  decide +kernel

end EmulatedMls.NullStorage
