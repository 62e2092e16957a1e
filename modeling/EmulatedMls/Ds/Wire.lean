import Mathlib.Algebra.Ring.Nat
import Mathlib.Data.Finset.Basic

/-!
# What the delivery service reads off the wire

The bodies of the requests are TLS encoded.  This module follows the decoders of the delivery
service down to the fields that its handlers look at.

**Source.**  `delivery-service/ds-lib/src/lib.rs`, and of the MLS library `framing/codec.rs`,
`framing/message_in.rs`, `framing/private_message_in.rs` and `messages/mod.rs`.

**Readers.**  A reader takes a value off the front of the bytes or reports a decoding error; this
is `tls_deserialize`.  A reader cannot panic.  The one decoder that can, `ClientInfo`, does so
after its fields are read, and is modelled with that panic.

**The MLS library.**  Public messages, key packages, ratchet trees and group infos are read by
derived decoders of the MLS library.  They are parameters (`Openmls`), with the few fields that
the service reads and the rest as bytes.
-/

namespace EmulatedMls.Ds

abbrev Bytes := List UInt8

/-- `tls_deserialize`: the value and the bytes behind it. -/
abbrev Reader := StateT Bytes Option

/-! ## The TLS codec -/

namespace Reader

def err {α : Type} : Reader α := fun _ => none

def u8 : Reader ℕ
  | [] => none
  | b :: bs => some (b.toNat, bs)

/-- Read big-endian digits onto a number. -/
def digits : ℕ → ℕ → Reader ℕ
  | 0, acc => pure acc
  | n + 1, acc => do
    let b ← u8
    digits n (256 * acc + b)

def u16 : Reader ℕ := digits 2 0

def u32 : Reader ℕ := digits 4 0

def u64 : Reader ℕ := digits 8 0

/-- `read_exact`. -/
def exactly (n : ℕ) : Reader Bytes := fun bs =>
  if n ≤ bs.length then some (bs.take n, bs.drop n) else none

/-- `TlsByteVecU8`, `TlsByteVecU16` and `TlsByteVecU32`, by the reader of the length. -/
def byteVec (length : Reader ℕ) : Reader Bytes := do exactly (← length)

/-- The elements of a vector.  The last one may reach past the announced length. -/
def elements {α : Type} (element : Reader α) (size : α → ℕ) : ℕ → ℕ → Reader (List α)
  | _, 0 => pure []
  | 0, _ + 1 => err
  | fuel + 1, left + 1 => do
    let a ← element
    let as ← elements element size fuel (left + 1 - size a)
    pure (a :: as)

/-- `TlsVecU32`.  Every element takes at least one byte. -/
def vecU32 {α : Type} (element : Reader α) (size : α → ℕ) : Reader (List α) := do
  let length ← u32
  elements element size length length

def option {α : Type} (value : Reader α) : Reader (Option α) := do
  match ← u8 with
  | 0 => pure none
  | 1 => some <$> value
  | _ => err

/-- The number of bytes that a length of a `<V>` vector takes. -/
def lengthBytes (n : ℕ) : ℕ := if n < 2 ^ 6 then 1 else if n < 2 ^ 14 then 2 else 4

/-- The length of a `<V>` vector, which has to take as few bytes as possible. -/
def vlLength : Reader ℕ := do
  let first ← u8
  let bytes ← (match first / 64 with
    | 0 => pure 1
    | 1 => pure 2
    | 2 => pure 4
    | _ => err)
  let n ← digits (bytes - 1) (first % 64)
  if lengthBytes n = bytes then pure n else err

def vlBytes : Reader Bytes := byteVec vlLength

/-- `Vec` of elements, in the `<V>` encoding. -/
def vlVec {α : Type} (element : Reader α) (size : α → ℕ) : Reader (List α) := do
  let length ← vlLength
  elements element size length length

end Reader

def vlSize (bs : Bytes) : ℕ := Reader.lengthBytes bs.length + bs.length

def byteVecU32Size (bs : Bytes) : ℕ := 4 + bs.length

/-! ## MLS messages -/

inductive ContentType where
  | application
  | proposal
  | commit
  deriving DecidableEq, Repr

def ContentType.read : Reader ContentType := do
  match ← Reader.u8 with
  | 1 => pure .application
  | 2 => pure .proposal
  | 3 => pure .commit
  | _ => Reader.err

def ContentType.isHandshakeMessage (t : ContentType) : Bool := t = .proposal ∨ t = .commit

structure PrivateMessageIn where
  groupId : Bytes
  epoch : ℕ
  contentType : ContentType
  authenticatedData : Bytes
  encryptedSenderData : Bytes
  ciphertext : Bytes
  deriving DecidableEq, Repr

/-- `PublicMessageIn`, with what the service does not read as `content`. -/
structure PublicMessageIn where
  groupId : Bytes
  epoch : ℕ
  contentType : ContentType
  content : Bytes
  deriving DecidableEq, Repr

structure EncryptedGroupSecrets where
  newMember : Bytes
  kemOutput : Bytes
  ciphertext : Bytes
  deriving DecidableEq, Repr

structure Welcome where
  cipherSuite : ℕ
  secrets : List EncryptedGroupSecrets
  encryptedGroupInfo : Bytes
  deriving DecidableEq, Repr

/-- `VerifiableGroupInfo`, which the service does not look into. -/
structure VerifiableGroupInfo where
  content : Bytes
  deriving DecidableEq, Repr

/-- `RatchetTreeIn`, which the service does not look into. -/
structure RatchetTreeIn where
  nodes : Bytes
  deriving DecidableEq, Repr

/-- `CredentialType`: everything but `Basic` is refused where an identity is asked for. -/
inductive CredentialType where
  | basic
  | other (value : ℕ)
  deriving DecidableEq, Repr

/-- `KeyPackageIn`: its protocol version, the credential of its leaf node and the rest. -/
structure KeyPackageIn where
  protocolVersion : ℕ
  credentialType : CredentialType
  credentialContent : Bytes
  content : Bytes
  deriving DecidableEq, Repr

/-- The decoders and sizes that the MLS library derives. -/
structure Openmls where
  publicMessageIn : Reader PublicMessageIn
  publicMessageSize : PublicMessageIn → ℕ
  keyPackageIn : Reader KeyPackageIn
  keyPackageSize : KeyPackageIn → ℕ
  ratchetTreeIn : Reader RatchetTreeIn
  ratchetTreeSize : RatchetTreeIn → ℕ
  verifiableGroupInfo : Reader VerifiableGroupInfo
  groupInfoSize : VerifiableGroupInfo → ℕ

inductive MlsMessageBodyIn where
  | publicMessage (m : PublicMessageIn)
  | privateMessage (m : PrivateMessageIn)
  | welcome (w : Welcome)
  | groupInfo (g : VerifiableGroupInfo)
  | keyPackage (k : KeyPackageIn)
  deriving DecidableEq, Repr

/-- `MlsMessageIn`.  Its version is always 1.0. -/
structure MlsMessageIn where
  body : MlsMessageBodyIn
  deriving DecidableEq, Repr

def PrivateMessageIn.read : Reader PrivateMessageIn := do
  let groupId ← Reader.vlBytes
  let epoch ← Reader.u64
  let contentType ← ContentType.read
  let authenticatedData ← Reader.vlBytes
  let encryptedSenderData ← Reader.vlBytes
  let ciphertext ← Reader.vlBytes
  pure ⟨groupId, epoch, contentType, authenticatedData, encryptedSenderData, ciphertext⟩

def PrivateMessageIn.size (m : PrivateMessageIn) : ℕ :=
  vlSize m.groupId + 8 + 1 + vlSize m.authenticatedData + vlSize m.encryptedSenderData +
    vlSize m.ciphertext

def EncryptedGroupSecrets.read : Reader EncryptedGroupSecrets := do
  let newMember ← Reader.vlBytes
  let kemOutput ← Reader.vlBytes
  let ciphertext ← Reader.vlBytes
  pure ⟨newMember, kemOutput, ciphertext⟩

def EncryptedGroupSecrets.size (s : EncryptedGroupSecrets) : ℕ :=
  vlSize s.newMember + vlSize s.kemOutput + vlSize s.ciphertext

/-- `Ciphersuite`: the values that the library knows. -/
def readCiphersuite : Reader ℕ := do
  let v ← Reader.u16
  if (1 ≤ v ∧ v ≤ 7) ∨ v = 0x4D then pure v else Reader.err

def Welcome.read : Reader Welcome := do
  let cipherSuite ← readCiphersuite
  let secrets ← Reader.vlVec EncryptedGroupSecrets.read EncryptedGroupSecrets.size
  let encryptedGroupInfo ← Reader.vlBytes
  pure ⟨cipherSuite, secrets, encryptedGroupInfo⟩

def Welcome.size (w : Welcome) : ℕ :=
  let secrets := (w.secrets.map EncryptedGroupSecrets.size).sum
  2 + (Reader.lengthBytes secrets + secrets) + vlSize w.encryptedGroupInfo

section

variable (mls : Openmls)

/-- `MlsMessageIn::tls_deserialize`: the version has to be 1.0, that of a key package too. -/
def MlsMessageIn.read : Reader MlsMessageIn := do
  let version ← Reader.u16
  let body ← (do
    match ← Reader.u16 with
    | 1 => MlsMessageBodyIn.publicMessage <$> mls.publicMessageIn
    | 2 => MlsMessageBodyIn.privateMessage <$> PrivateMessageIn.read
    | 3 => MlsMessageBodyIn.welcome <$> Welcome.read
    | 4 => MlsMessageBodyIn.groupInfo <$> mls.verifiableGroupInfo
    | 5 => MlsMessageBodyIn.keyPackage <$> mls.keyPackageIn
    | _ => Reader.err)
  if version ≠ 1 then Reader.err
  else match body with
    | .keyPackage k => if k.protocolVersion = version then pure ⟨body⟩ else Reader.err
    | _ => pure ⟨body⟩

def MlsMessageIn.size (m : MlsMessageIn) : ℕ :=
  4 + match m.body with
    | .publicMessage m => mls.publicMessageSize m
    | .privateMessage m => m.size
    | .welcome w => w.size
    | .groupInfo g => mls.groupInfoSize g
    | .keyPackage k => mls.keyPackageSize k

end

/-- What the service reads of a `ProtocolMessage`. -/
structure ProtocolMessage where
  groupId : Bytes
  epoch : ℕ
  contentType : ContentType
  deriving DecidableEq, Repr

/-- `ProtocolMessage::try_from`: only public and private messages convert. -/
def ProtocolMessage.tryFrom (m : MlsMessageIn) : Option ProtocolMessage :=
  match m.body with
  | .publicMessage m => some ⟨m.groupId, m.epoch, m.contentType⟩
  | .privateMessage m => some ⟨m.groupId, m.epoch, m.contentType⟩
  | _ => none

def MlsMessageIn.intoWelcome (m : MlsMessageIn) : Option Welcome :=
  match m.body with
  | .welcome w => some w
  | _ => none

/-! ## The messages of the service -/

structure GroupMessage where
  msg : MlsMessageIn
  sender : Bytes
  ratchetTree : Option RatchetTreeIn
  recipients : List Bytes
  activeMembers : Option (List Bytes)
  deriving DecidableEq, Repr

structure GroupInfoAndTree where
  groupInfo : VerifiableGroupInfo
  ratchetTree : Option RatchetTreeIn
  deriving DecidableEq, Repr

/-- `ClientKeyPackages`: the hash of each key package with it. -/
abbrev ClientKeyPackages := List (Bytes × KeyPackageIn)

/-- `ClientInfo`.  The name stays in its bytes: it is only echoed and logged. -/
structure ClientInfo where
  clientName : Bytes
  keyPackages : ClientKeyPackages
  reservedKeyPkgHash : Finset Bytes
  id : Bytes
  msgs : List GroupMessage
  welcomeQueue : List GroupMessage
  deriving DecidableEq

/-- `Credential::identity`: any credential but a basic one panics. -/
def KeyPackageIn.identity (k : KeyPackageIn) : Option Bytes :=
  match k.credentialType with
  | .basic => some k.credentialContent
  | .other _ => none

/-- `ClientInfo::new`; `none` is a panic. -/
def ClientInfo.new (clientName : Bytes) (keyPackages : ClientKeyPackages) : Option ClientInfo :=
  match keyPackages with
  | [] => none
  | (_, k) :: _ => k.identity.map fun id => ⟨clientName, keyPackages, ∅, id, [], []⟩

section

variable (mls : Openmls)

def ClientKeyPackages.read : Reader ClientKeyPackages :=
  Reader.vecU32
    (do
      let hash ← Reader.byteVec Reader.u8
      let kp ← mls.keyPackageIn
      pure (hash, kp))
    fun e => 1 + e.1.length + mls.keyPackageSize e.2

/-- The fields of `ClientInfo::tls_deserialize`, which are then given to `ClientInfo::new`. -/
def ClientInfo.read : Reader (Bytes × ClientKeyPackages) := do
  let clientName ← Reader.byteVec Reader.u16
  let keyPackages ← ClientKeyPackages.read mls
  pure (clientName, keyPackages)

def GroupMessage.read : Reader GroupMessage := do
  let msg ← MlsMessageIn.read mls
  let sender ← Reader.byteVec Reader.u32
  let ratchetTree ← Reader.option mls.ratchetTreeIn
  let recipients ← Reader.vecU32 (Reader.byteVec Reader.u32) byteVecU32Size
  let activeMembers ← Reader.option (Reader.vlVec (Reader.byteVec Reader.u32) byteVecU32Size)
  pure ⟨msg, sender, ratchetTree, recipients, activeMembers⟩

def GroupInfoAndTree.read : Reader GroupInfoAndTree := do
  let groupInfo ← mls.verifiableGroupInfo
  let ratchetTree ← Reader.option mls.ratchetTreeIn
  pure ⟨groupInfo, ratchetTree⟩

/-- `tls_deserialize` of a whole body: bytes behind the value are ignored. -/
def tlsDeserialize {α : Type} (read : Reader α) (bytes : Bytes) : Option α :=
  (read.run bytes).map (·.1)

/-- `GroupMessage::tls_serialized_len`. -/
def GroupMessage.size (m : GroupMessage) : ℕ :=
  let members (l : List Bytes) : ℕ := (l.map byteVecU32Size).sum
  m.msg.size mls + byteVecU32Size m.sender + (1 + (m.ratchetTree.map mls.ratchetTreeSize).getD 0) +
    (4 + members m.recipients) +
    (1 + (m.activeMembers.map fun l => Reader.lengthBytes (members l) + members l).getD 0)

/-- Whether `TlsSliceU32` serialises: the length has to fit in 32 bits. -/
def serializes (ms : List GroupMessage) : Bool := (ms.map (GroupMessage.size mls)).sum < 2 ^ 32

end

end EmulatedMls.Ds
