import EmulatedMls.Ds.Wire
import EmulatedMls.Lib.Transducer

/-!
# The delivery service

The server keeps, under three mutexes, the clients with their key packages and queues, the last
epoch of each group and the group infos.  A request is answered by one handler.

**Source.**  `delivery-service/ds/src/main.rs` and `consume_kp` of `delivery-service/ds-lib`.

**Requests are steps.**  A handler reads the whole body before it locks anything and then holds
its mutexes to its end; handlers that lock two mutexes lock them in the same order.  Requests
that overlap are therefore answered as if one came after the other.

**Panics.**  A panic ends the request without a response.  It poisons the mutexes that are held,
and every later `lock` on them fails.

**Logging.**  The arguments of `log::debug!` are only evaluated when that level is on, as it is in
the server's image.  Three handlers unwrap the UTF-8 reading of the id there.

**Hash maps.**  A map is a function to `Option`.  The order in which `list_clients` and
`send_welcome` go over the clients is part of the request.
-/

namespace EmulatedMls.Ds

/-- What the server is built with. -/
structure Service extends Openmls where
  decodeConfig : String → Option Bytes
  keyPackageSerializes : KeyPackageIn → Bool
  keyPackagesSerialize : ClientKeyPackages → Bool
  clientsSerialize : List ClientInfo → Bool
  groupInfoSerializes : GroupInfoAndTree → Bool
  debug : Bool

/-- The mutexes of `DsData`. -/
inductive Mutex where
  | clients
  | groups
  | groupInfo
  deriving DecidableEq, Repr

/-- `DsData`, with the poison of its mutexes. -/
structure DsData where
  clients : Bytes → Option ClientInfo
  groupInfoMutex : Bool
  groups : Bytes → Option ℕ
  groupInfo : Bytes → Option (Option GroupInfoAndTree)
  poisoned : Mutex → Bool

def DsData.start (groupInfoMutex : Bool) : DsData :=
  ⟨fun _ => none, groupInfoMutex, fun _ => none, fun _ => none, fun _ => false⟩

inductive Body where
  | empty
  | greeting (clientName : Bytes)
  | clients (cs : List ClientInfo)
  | keyPackages (ks : ClientKeyPackages)
  | keyPackage (k : KeyPackageIn)
  | groupInfo (g : GroupInfoAndTree)
  | groupExists (response : Bool)
  | messages (ms : List GroupMessage)
  deriving DecidableEq

/-- The responses, by their status; `panicked` is a request without a response. -/
inductive Answer where
  | ok (body : Body)
  | noContent
  | partialContent
  | badRequest
  | forbidden
  | notFound
  | conflict
  | internalServerError
  | panicked
  deriving DecidableEq

/-- The body of a request; `none` is a stream that breaks off. -/
abbrev Payload := Option Bytes

/-- The requests.  `order` is the order in which the map of the clients is gone over. -/
inductive Request where
  | registerClient (body : Payload)
  | listClients (order : List Bytes)
  | reset
  | getKeyPackages (id : String)
  | publishKeyPackages (id : String) (body : Payload)
  | consumeKeyPackage (id : String)
  | getGroupInfo (id : String)
  | groupExists (id : String)
  | postGroupInfo (id : String) (body : Payload)
  | sendWelcome (body : Payload) (order : List Bytes)
  | msgSend (body : Payload)
  | msgRecv (id : String)
  deriving DecidableEq, Repr

/-! ## Mutexes -/

variable (srv : Service) (s : DsData)

namespace DsData

/-- Run a handler under a mutex: `lock` fails on a poisoned one, and a panic poisons it. -/
def lock (x : Mutex) (body : DsData → DsData × Answer) : DsData × Answer :=
  if s.poisoned x then (s, .internalServerError)
  else match body s with
    | (s, .panicked) => ({ s with poisoned := Function.update s.poisoned x true }, .panicked)
    | r => r

def setClient (id : Bytes) (c : ClientInfo) : DsData :=
  { s with clients := Function.update s.clients id (some c) }

def setGroupInfo (id : Bytes) (g : Option GroupInfoAndTree) : DsData :=
  { s with groupInfo := Function.update s.groupInfo id (some g) }

end DsData

/-- `from_utf8(id).unwrap()` in a debug message panics. -/
def loggingPanics (id : Bytes) : Bool :=
  srv.debug && !(ByteArray.mk id.toArray).validateUTF8

/-! ## Clients and key packages -/

/-- `register_client`.  The new entry replaces an old one even where the answer is a conflict. -/
def registerClient (body : Payload) : DsData × Answer :=
  match body with
  | none => (s, .partialContent)
  | some bytes =>
    match tlsDeserialize (ClientInfo.read srv.toOpenmls) bytes with
    | none => (s, .badRequest)
    | some (clientName, keyPackages) =>
      match ClientInfo.new clientName keyPackages with
      | none => (s, .panicked)
      | some info =>
        s.lock .clients fun s =>
          let old := s.clients info.id
          (s.setClient info.id info, if old.isSome then .conflict else .ok (.greeting clientName))

def listClients (order : List Bytes) : DsData × Answer :=
  s.lock .clients fun s =>
    let clients := order.filterMap s.clients
    (s, if srv.clientsSerialize clients then .ok (.clients clients) else .internalServerError)

/-- `reset`: the group infos stay. -/
def reset : DsData × Answer :=
  s.lock .clients fun s => s.lock .groups fun s =>
    ({ s with clients := fun _ => none, groups := fun _ => none }, .ok .empty)

def getKeyPackages (path : String) : DsData × Answer :=
  s.lock .clients fun s =>
    match srv.decodeConfig path with
    | none => (s, .badRequest)
    | some id =>
      match s.clients id with
      | none => (s, .noContent)
      | some client =>
        (s, if srv.keyPackagesSerialize client.keyPackages then
          .ok (.keyPackages client.keyPackages)
          else .internalServerError)

def publishKeyPackages (path : String) (body : Payload) : DsData × Answer :=
  match body with
  | none => (s, .partialContent)
  | some bytes =>
    s.lock .clients fun s =>
      match srv.decodeConfig path with
      | none => (s, .badRequest)
      | some id =>
        match s.clients id with
        | none => (s, .notFound)
        | some client =>
          match tlsDeserialize (ClientKeyPackages.read srv.toOpenmls) bytes with
          | none => (s, .badRequest)
          | some ks =>
            (s.setClient id { client with keyPackages := client.keyPackages ++ ks }, .ok .empty)

/-- `consume_kp`: the last key package is handed out and stays in the list. -/
def ClientInfo.consumeKp (c : ClientInfo) : Option (KeyPackageIn × ClientInfo) :=
  if c.keyPackages.length ≤ 1 then none
  else c.keyPackages.getLast?.map fun e =>
    (e.2, { c with reservedKeyPkgHash := insert e.1 c.reservedKeyPkgHash })

def consumeKeyPackage (path : String) : DsData × Answer :=
  s.lock .clients fun s =>
    match srv.decodeConfig path with
    | none => (s, .badRequest)
    | some id =>
      match s.clients id with
      | none => (s, .noContent)
      | some client =>
        match client.consumeKp with
        | none => (s, .noContent)
        | some (kp, client) =>
          (s.setClient id client,
            if srv.keyPackageSerializes kp then .ok (.keyPackage kp) else .internalServerError)

/-! ## Group infos -/

/-- With `group_info_mutex` a request takes the entry of the group, also an absent one. -/
def DsData.takeGroupInfo (id : Bytes) : DsData :=
  if s.groupInfoMutex then s.setGroupInfo id none else s

/-- The part of `get_group_info` under the mutex. -/
def readGroupInfo (path : String) (s : DsData) : DsData × Answer :=
  match srv.decodeConfig path with
  | none => (s, .badRequest)
  | some id =>
    match s.groupInfo id with
    | none => (s.takeGroupInfo id, .noContent)
    | some none => (s, if loggingPanics srv id then .panicked else .forbidden)
    | some (some g) =>
      (s.takeGroupInfo id, if loggingPanics srv id then .panicked
        else if srv.groupInfoSerializes g then .ok (.groupInfo g)
        else .internalServerError)

def getGroupInfo (path : String) : DsData × Answer :=
  s.lock .groupInfo (readGroupInfo srv path)

def groupExists (s : DsData) (path : String) : DsData × Answer :=
  s.lock .groupInfo fun s =>
    match srv.decodeConfig path with
    | none => (s, .badRequest)
    | some id => (s, .ok (.groupExists (s.groupInfo id).isSome))

def postGroupInfo (path : String) (body : Payload) : DsData × Answer :=
  match body with
  | none => (s, .partialContent)
  | some bytes =>
    s.lock .groupInfo fun s =>
      match srv.decodeConfig path with
      | none => (s, .badRequest)
      | some id =>
        if loggingPanics srv id then (s, .panicked)
        else match tlsDeserialize (GroupInfoAndTree.read srv.toOpenmls) bytes with
          | none => (s, .badRequest)
          | some g => (s.setGroupInfo id (some g), .ok .empty)

/-! ## Messages -/

/-- The inner loop of `send_welcome`: the first client that has the hash reserved. -/
def reservedBy (clients : Bytes → Option ClientInfo) (hash : Bytes) :
    List Bytes → Option (Bytes × ClientInfo)
  | [] => none
  | id :: order =>
    match clients id with
    | none => reservedBy clients hash order
    | some c => if hash ∈ c.reservedKeyPkgHash then some (id, c) else reservedBy clients hash order

/-- The loops of `send_welcome`: the first secret of which some client has the hash reserved. -/
def welcomed (clients : Bytes → Option ClientInfo) (order : List Bytes) :
    List EncryptedGroupSecrets → Option (Bytes × Bytes × ClientInfo)
  | [] => none
  | secret :: secrets =>
    match reservedBy clients secret.newMember order with
    | some (id, c) => some (secret.newMember, id, c)
    | none => welcomed clients order secrets

/-- `take` the reservation and push the message. -/
def ClientInfo.takeWelcome (c : ClientInfo) (hash : Bytes) (m : GroupMessage) : ClientInfo :=
  { c with
    reservedKeyPkgHash := c.reservedKeyPkgHash.erase hash
    welcomeQueue := c.welcomeQueue ++ [m] }

/-- The epoch check of `msg_send`: only a smaller epoch is a conflict. -/
def guardEpoch (groups : Bytes → Option ℕ) (m : ProtocolMessage) : Option (Bytes → Option ℕ) :=
  if m.contentType.isHandshakeMessage then
    match groups m.groupId with
    | some groupEpoch =>
      if groupEpoch > m.epoch then none else some (Function.update groups m.groupId (some m.epoch))
    | none => some (Function.update groups m.groupId (some m.epoch))
  else some groups

/-- The loop of `msg_send` stops at the first recipient that is not registered. -/
def pushAll (clients : Bytes → Option ClientInfo) (m : GroupMessage) :
    List Bytes → (Bytes → Option ClientInfo) × Bool
  | [] => (clients, true)
  | id :: ids =>
    match clients id with
    | none => (clients, false)
    | some c =>
      pushAll (Function.update clients id (some { c with msgs := c.msgs ++ [m] })) m ids

/-- The part of `msg_send` under the mutexes.  The sender comes after the recipients. -/
def queueMessage (m : GroupMessage) : DsData × Answer :=
  match ProtocolMessage.tryFrom m.msg with
  | none => (s, .panicked)
  | some p =>
    match guardEpoch s.groups p with
    | none => (s, .conflict)
    | some groups =>
      let (clients, served) := pushAll s.clients m m.recipients
      if served then
        let (clients, served) := pushAll clients m [m.sender]
        ({ s with clients, groups }, if served then .ok .empty else .notFound)
      else ({ s with clients, groups }, .notFound)

def sendWelcome (body : Payload) (order : List Bytes) : DsData × Answer :=
  match body with
  | none => (s, .partialContent)
  | some bytes =>
    match tlsDeserialize (GroupMessage.read srv.toOpenmls) bytes with
    | none => (s, .internalServerError)
    | some m =>
      match m.msg.intoWelcome with
      | none => (s, .panicked)
      | some w =>
        s.lock .clients fun s =>
          match welcomed s.clients order w.secrets with
          | none => (s, .noContent)
          | some (hash, id, c) => (s.setClient id (c.takeWelcome hash m), .ok .empty)

def msgSend (body : Payload) : DsData × Answer :=
  match body with
  | none => (s, .partialContent)
  | some bytes =>
    match tlsDeserialize (GroupMessage.read srv.toOpenmls) bytes with
    | none => (s, .internalServerError)
    | some m => s.lock .clients fun s => s.lock .groups fun s => queueMessage s m

/-- `msg_recv`: Welcomes first.  The queues are emptied even if the response does not serialise. -/
def msgRecv (path : String) : DsData × Answer :=
  s.lock .clients fun s =>
    match srv.decodeConfig path with
    | none => (s, .badRequest)
    | some id =>
      if loggingPanics srv id then (s, .panicked)
      else match s.clients id with
        | none => (s, .notFound)
        | some c =>
          let out := c.welcomeQueue ++ c.msgs
          (s.setClient id { c with welcomeQueue := [], msgs := [] },
            if serializes srv.toOpenmls out then .ok (.messages out) else .internalServerError)

def server : Transducer DsData Request Answer where
  step s
    | .registerClient body => registerClient srv s body
    | .listClients order => listClients srv s order
    | .reset => reset s
    | .getKeyPackages id => getKeyPackages srv s id
    | .publishKeyPackages id body => publishKeyPackages srv s id body
    | .consumeKeyPackage id => consumeKeyPackage srv s id
    | .getGroupInfo id => getGroupInfo srv s id
    | .groupExists id => groupExists srv s id
    | .postGroupInfo id body => postGroupInfo srv s id body
    | .sendWelcome body order => sendWelcome srv s body order
    | .msgSend body => msgSend srv s body
    | .msgRecv id => msgRecv srv s id

/-! ## A small service -/

/-- A small service with debug messages and plain encodings. -/
def plainService : Service where
  publicMessageIn := Reader.err
  publicMessageSize := fun m => m.content.length
  keyPackageIn := do
    let identity ← Reader.byteVec Reader.u8
    pure ⟨1, .basic, identity, []⟩
  keyPackageSize := fun k => 1 + k.credentialContent.length
  ratchetTreeIn := Reader.err
  ratchetTreeSize := fun t => t.nodes.length
  verifiableGroupInfo := do
    let content ← Reader.byteVec Reader.u8
    pure ⟨content⟩
  groupInfoSize := fun g => 1 + g.content.length
  decodeConfig := fun s => some (s.toList.map fun c => UInt8.ofNat c.toNat)
  keyPackageSerializes := fun _ => true
  keyPackagesSerialize := fun _ => true
  clientsSerialize := fun _ => true
  groupInfoSerializes := fun _ => true
  debug := true

/-- A commit of group `G` and the given epoch, with one-letter names. -/
def commitBytes (epoch sender : UInt8) (recipients : List UInt8) : Bytes :=
  [0, 1, 0, 2, 1, 71, 0, 0, 0, 0, 0, 0, 0, epoch, 3, 0, 0, 0, 0, 0, 0, 1, sender, 0,
    0, 0, 0, UInt8.ofNat (5 * recipients.length)] ++
    recipients.flatMap (fun id => [0, 0, 0, 1, id]) ++ [0]

def registerBytes (name : UInt8) : Bytes := [0, 1, name, 0, 0, 0, 3, 0, 1, name]

end EmulatedMls.Ds
