import EmulatedMls.Ds.Server
import Mathlib.Data.List.TakeWhile

/-!
# What one request can do

Each handler is described once, by what it leaves of the maps and what it answers.  Later modules
use these descriptions and do not look at the handlers again.

**Mutexes.**  `lock_cases` says that a lock either refuses, or runs the handler, or runs it and
poisons the mutex.  `SameMaps` is equality up to the poison.

**The queues.**  `pushAll_eq` gives the loop of `msg_send` in closed form: the message is
appended once for each listing in front of the first client that is not registered.
-/

namespace EmulatedMls.Ds

open List

/-! ## Mutexes -/

/-- The maps are the same; only the poison may differ. -/
structure DsData.SameMaps (s s' : DsData) : Prop where
  clients : s'.clients = s.clients
  groups : s'.groups = s.groups
  groupInfo : s'.groupInfo = s.groupInfo
  groupInfoMutex : s'.groupInfoMutex = s.groupInfoMutex

variable (s : DsData)

lemma DsData.SameMaps.refl : s.SameMaps s := ⟨rfl, rfl, rfl, rfl⟩

def DsData.poison (x : Mutex) : DsData :=
  { s with poisoned := Function.update s.poisoned x true }

lemma DsData.sameMaps_poison (x : Mutex) : s.SameMaps (s.poison x) :=
  ⟨rfl, rfl, rfl, rfl⟩

variable {s : DsData} {x : Mutex} {body : DsData → DsData × Answer} {info c c' : ClientInfo}
  {kp : KeyPackageIn} {order : List Bytes} {clients : Bytes → Option ClientInfo}

lemma DsData.SameMaps.trans {s1 s2 : DsData} (h : s.SameMaps s1) (h' : s1.SameMaps s2) :
    s.SameMaps s2 :=
  ⟨h'.clients.trans h.clients, h'.groups.trans h.groups, h'.groupInfo.trans h.groupInfo,
    h'.groupInfoMutex.trans h.groupInfoMutex⟩

lemma DsData.lock_cases (s : DsData) (x : Mutex) (body : DsData → DsData × Answer) :
    (s.poisoned x = true ∧ s.lock x body = (s, .internalServerError)) ∨
    (s.poisoned x = false ∧ (body s).2 = .panicked ∧
      s.lock x body = ((body s).1.poison x, .panicked)) ∨
    (s.poisoned x = false ∧ (body s).2 ≠ .panicked ∧ s.lock x body = body s) := by
  cases hp : s.poisoned x with
  | true => exact .inl ⟨rfl, by simp [lock, hp]⟩
  | false =>
    right
    rcases hb : body s with ⟨s', a⟩
    by_cases ha : a = .panicked
    · subst ha
      exact .inl ⟨rfl, rfl, by simp [lock, hp, hb, poison]⟩
    · refine .inr ⟨rfl, ha, ?_⟩
      simp only [lock, hp, hb]
      cases a <;> simp_all

def Quiet (s : DsData) (r : DsData × Answer) : Prop := s.SameMaps r.1 ∧ ∀ b, r.2 ≠ .ok b

lemma quiet_same {a : Answer} (h : ∀ b, a ≠ .ok b) : Quiet s (s, a) := ⟨.refl s, h⟩

lemma Quiet.poison {s' : DsData} (h : Quiet s (s', .panicked)) : Quiet s (s'.poison x, .panicked) :=
  ⟨h.1.trans (s'.sameMaps_poison x), h.2⟩

lemma DsData.lock_quiet_or {Q : DsData × Answer → Prop} {r : DsData × Answer}
    (hr : s.lock x body = r) (hbody : Quiet s (body s) ∨ Q (body s))
    (hQ : ∀ s', ¬ Q (s', .panicked)) : Quiet s r ∨ Q r := by
  subst hr
  rcases s.lock_cases x body with ⟨-, h⟩ | ⟨-, hp, h⟩ | ⟨-, -, h⟩
  · rw [h]
    exact .inl (quiet_same (by simp))
  · rw [h]
    rcases hb : body s with ⟨s', a⟩
    rw [hb] at hp hbody
    obtain rfl : a = .panicked := hp
    exact .inl (hbody.resolve_right (hQ s')).poison
  · rwa [h]

/-! ## The loop of `msg_send` -/

def registered (clients : Bytes → Option ClientInfo) (id : Bytes) : Bool := (clients id).isSome

/-- The listings in front of the first client that is not registered. -/
def served (clients : Bytes → Option ClientInfo) (ids : List Bytes) : List Bytes :=
  ids.takeWhile (registered clients)

/-- Append copies of a message to the queue. -/
def ClientInfo.push (c : ClientInfo) (m : GroupMessage) (k : ℕ) : ClientInfo :=
  { c with msgs := c.msgs ++ List.replicate k m }

lemma ClientInfo.push_zero (c : ClientInfo) (m : GroupMessage) : c.push m 0 = c := by
  simp [push]

lemma ClientInfo.push_succ (c : ClientInfo) (m : GroupMessage) (k : ℕ) :
    ({ c with msgs := c.msgs ++ [m] } : ClientInfo).push m k = c.push m (k + 1) := by
  simp [push, replicate_succ]

lemma pushAll_eq (clients : Bytes → Option ClientInfo) (m : GroupMessage) (ids : List Bytes) :
    pushAll clients m ids =
      (fun id => (clients id).map fun c => c.push m ((served clients ids).count id),
        ids.all (registered clients)) := by
  induction ids generalizing clients with
  | nil => simp [pushAll, served, ClientInfo.push_zero]
  | cons id ids ih =>
    cases hc : clients id with
    | none => simp [pushAll, served, registered, hc, ClientInfo.push_zero]
    | some c =>
      have hreg : registered (Function.update clients id
          (some { c with msgs := c.msgs ++ [m] })) = registered clients := by
        funext id'
        by_cases h : id' = id
        · subst h
          simp [registered, hc]
        · simp [registered, h]
      simp only [pushAll, hc, ih, served, hreg, takeWhile_cons, all_cons]
      have hid : registered clients id = true := by simp [registered, hc]
      simp only [hid, if_true, Bool.true_and, Prod.mk.injEq, and_true]
      funext id'
      by_cases h : id' = id
      · subst h
        simp [hc, ClientInfo.push_succ]
      · simp [h, count_cons_of_ne (Ne.symm h)]

lemma pushAll_append (clients : Bytes → Option ClientInfo) (m : GroupMessage)
    (ids ids' : List Bytes) :
    pushAll clients m (ids ++ ids') =
      if (pushAll clients m ids).2 then pushAll (pushAll clients m ids).1 m ids'
      else ((pushAll clients m ids).1, false) := by
  induction ids generalizing clients with
  | nil => simp [pushAll]
  | cons id ids ih =>
    cases hc : clients id with
    | none => simp [pushAll, hc]
    | some c => simp [pushAll, hc, ih]

/-! ## `msg_send` -/

def GroupMessage.listed (m : GroupMessage) : List Bytes := m.recipients ++ [m.sender]

/-- The message in the body of a request. -/
def groupMessage (srv : Service) (body : Payload) : Option GroupMessage :=
  body.bind (tlsDeserialize (GroupMessage.read srv.toOpenmls))

variable (srv : Service)

/-- The message is pushed for the listed clients, up to the first one that is not registered. -/
def queueTo (s : DsData) (m : GroupMessage) (groups : Bytes → Option ℕ) : DsData × Answer :=
  ({ s with clients := (pushAll s.clients m m.listed).1, groups },
    if (pushAll s.clients m m.listed).2 then .ok .empty else .notFound)

lemma queueMessage_eq {m : GroupMessage} {p : ProtocolMessage} {groups : Bytes → Option ℕ}
    (hp : ProtocolMessage.tryFrom m.msg = some p) (hg : guardEpoch s.groups p = some groups) :
    queueMessage s m = queueTo s m groups := by
  simp only [queueTo, queueMessage, hp, hg, GroupMessage.listed, pushAll_append]
  by_cases h : (pushAll s.clients m m.recipients).2 <;> simp [h]

/-- The message in the body gets past the epoch check and is queued. -/
def Queued (s : DsData) (body : Payload) (r : DsData × Answer) : Prop :=
  ∃ m p groups, groupMessage srv body = some m ∧ ProtocolMessage.tryFrom m.msg = some p ∧
    guardEpoch s.groups p = some groups ∧ r = queueTo s m groups

variable (s : DsData)

/-- `msg_send` leaves the maps alone or queues the message. -/
theorem msgSend_cases (body : Payload) :
    Quiet s (msgSend srv s body) ∨ Queued srv s body (msgSend srv s body) := by
  cases body with
  | none => exact .inl (quiet_same (by simp))
  | some bytes =>
    cases hm : tlsDeserialize (GroupMessage.read srv.toOpenmls) bytes with
    | none =>
      simp only [msgSend, hm]
      exact .inl (quiet_same (by simp))
    | some m =>
      simp only [msgSend, hm]
      have hbody : Quiet s (queueMessage s m) ∨
          Queued srv s (some bytes) (queueMessage s m) := by
        cases hp : ProtocolMessage.tryFrom m.msg with
        | none =>
          simp only [queueMessage, hp]
          exact .inl (quiet_same (by simp))
        | some p =>
          cases hg : guardEpoch s.groups p with
          | none =>
            simp only [queueMessage, hp, hg]
            exact .inl (quiet_same (by simp))
          | some groups =>
            exact .inr ⟨m, p, groups, by simpa [groupMessage] using hm, hp, hg,
              queueMessage_eq hp hg⟩
      have hQ (s' : DsData) : ¬ Queued srv s (some bytes) (s', .panicked) := by
        rintro ⟨m, p, groups, -, -, -, h⟩
        have hsnd := congrArg Prod.snd h
        simp only [queueTo] at hsnd
        split_ifs at hsnd
      exact DsData.lock_quiet_or rfl (DsData.lock_quiet_or rfl hbody hQ) hQ

/-! ## The other handlers of the clients -/

lemma ClientInfo.new_eq_some {clientName : Bytes} {keyPackages : ClientKeyPackages}
    (h : ClientInfo.new clientName keyPackages = some info) :
    info = ⟨clientName, keyPackages, ∅, info.id, [], []⟩ := by
  cases keyPackages with
  | nil => simp [ClientInfo.new] at h
  | cons e rest =>
    obtain ⟨id, -, rfl⟩ := Option.map_eq_some_iff.mp h
    rfl

/-- The client that a body registers. -/
def clientInfo (body : Payload) : Option ClientInfo :=
  (body.bind (tlsDeserialize (ClientInfo.read srv.toOpenmls))).bind fun e => ClientInfo.new e.1 e.2

lemma clientInfo_queues {body : Payload} (h : clientInfo srv body = some info) :
    info.msgs = [] ∧ info.welcomeQueue = [] := by
  obtain ⟨e, -, he⟩ := Option.bind_eq_some_iff.mp h
  rw [ClientInfo.new_eq_some he]
  exact ⟨rfl, rfl⟩

theorem registerClient_cases (body : Payload) :
    Quiet s (registerClient srv s body) ∨
    ∃ info, clientInfo srv body = some info ∧ registerClient srv s body =
      (s.setClient info.id info,
        if (s.clients info.id).isSome then .conflict else .ok (.greeting info.clientName)) := by
  cases body with
  | none => exact .inl (quiet_same (by simp))
  | some bytes =>
    cases he : tlsDeserialize (ClientInfo.read srv.toOpenmls) bytes with
    | none =>
      simp only [registerClient, he]
      exact .inl (quiet_same (by simp))
    | some e =>
      obtain ⟨clientName, keyPackages⟩ := e
      cases hi : ClientInfo.new clientName keyPackages with
      | none =>
        simp only [registerClient, he, hi]
        exact .inl (quiet_same (by simp))
      | some info =>
        simp only [registerClient, he, hi]
        obtain rfl : info.clientName = clientName := by rw [ClientInfo.new_eq_some hi]
        generalize hr : s.lock _ _ = r
        apply DsData.lock_quiet_or hr (.inr ⟨info, by simp [clientInfo, he, hi], rfl⟩)
        rintro s' ⟨info, -, h⟩
        have hsnd := congrArg Prod.snd h
        split_ifs at hsnd

theorem publishKeyPackages_cases (path : String) (body : Payload) :
    Quiet s (publishKeyPackages srv s path body) ∨
    ∃ id c ks, s.clients id = some c ∧ publishKeyPackages srv s path body =
      (s.setClient id { c with keyPackages := c.keyPackages ++ ks }, .ok .empty) := by
  cases body with
  | none => exact .inl (quiet_same (by simp))
  | some bytes =>
    generalize hr : publishKeyPackages srv s path (some bytes) = r
    unfold publishKeyPackages at hr
    apply DsData.lock_quiet_or hr ?_ (by simp)
    split
    · exact .inl (quiet_same (by simp))
    · split
      · exact .inl (quiet_same (by simp))
      · split
        · exact .inl (quiet_same (by simp))
        · exact .inr ⟨_, _, _, by assumption, rfl⟩

lemma ClientInfo.consumeKp_eq_some (h : c.consumeKp = some (kp, c')) :
    ∃ hash, c.keyPackages.getLast? = some (hash, kp) ∧
      c' = { c with reservedKeyPkgHash := insert hash c.reservedKeyPkgHash } := by
  unfold consumeKp at h
  split_ifs at h
  obtain ⟨⟨hash, kp'⟩, hlast, he⟩ := Option.map_eq_some_iff.mp h
  obtain ⟨rfl, rfl⟩ := Prod.mk.inj he
  exact ⟨hash, hlast, rfl⟩

/-- A consumed key package is the last of at least two, and its hash is reserved. -/
theorem consumeKeyPackage_cases (path : String) :
    Quiet s (consumeKeyPackage srv s path) ∨
    ∃ id c kp c', srv.decodeConfig path = some id ∧ s.clients id = some c ∧
      c.consumeKp = some (kp, c') ∧ consumeKeyPackage srv s path =
        (s.setClient id c',
          if srv.keyPackageSerializes kp then .ok (.keyPackage kp) else .internalServerError) := by
  generalize hr : consumeKeyPackage srv s path = r
  apply DsData.lock_quiet_or hr
  · split
    · exact .inl (quiet_same (by simp))
    · split
      · exact .inl (quiet_same (by simp))
      · split
        · exact .inl (quiet_same (by simp))
        · exact .inr ⟨_, _, _, _, by assumption, by assumption, by assumption, rfl⟩
  · rintro s' ⟨id, c, kp, c', -, -, -, h⟩
    have := congrArg Prod.snd h
    split_ifs at this

variable {hash id : Bytes}

lemma reservedBy_eq_some (h : reservedBy clients hash order = some (id, c)) :
    clients id = some c ∧ hash ∈ c.reservedKeyPkgHash := by
  induction order with
  | nil => simp [reservedBy] at h
  | cons id' order ih =>
    cases hc : clients id' with
    | none => exact ih (by simpa [reservedBy, hc] using h)
    | some c' =>
      simp only [reservedBy, hc] at h
      split_ifs at h with hmem
      · cases h
        exact ⟨hc, hmem⟩
      · exact ih h

lemma welcomed_eq_some {secrets : List EncryptedGroupSecrets}
    (h : welcomed clients order secrets = some (hash, id, c)) :
    clients id = some c ∧ hash ∈ c.reservedKeyPkgHash ∧ hash ∈ secrets.map (·.newMember) := by
  induction secrets with
  | nil => simp [welcomed] at h
  | cons secret secrets ih =>
    cases hr : reservedBy clients secret.newMember order with
    | none =>
      obtain ⟨hc, hmem, hin⟩ := ih (by simpa [welcomed, hr] using h)
      exact ⟨hc, hmem, .tail _ hin⟩
    | some found =>
      simp only [welcomed, hr, Option.some.injEq, Prod.mk.injEq] at h
      obtain ⟨rfl, rfl, rfl⟩ := h
      obtain ⟨hc, hmem⟩ := reservedBy_eq_some hr
      exact ⟨hc, hmem, by simp⟩

theorem sendWelcome_cases (body : Payload) (order : List Bytes) :
    Quiet s (sendWelcome srv s body order) ∨
    ∃ m w hash id c, groupMessage srv body = some m ∧ m.msg.intoWelcome = some w ∧
      welcomed s.clients order w.secrets = some (hash, id, c) ∧
      sendWelcome srv s body order = (s.setClient id (c.takeWelcome hash m), .ok .empty) := by
  cases body with
  | none => exact .inl (quiet_same (by simp))
  | some bytes =>
    cases hm : tlsDeserialize (GroupMessage.read srv.toOpenmls) bytes with
    | none =>
      simp only [sendWelcome, hm]
      exact .inl (quiet_same (by simp))
    | some m =>
      cases hw : m.msg.intoWelcome with
      | none =>
        simp only [sendWelcome, hm, hw]
        exact .inl (quiet_same (by simp))
      | some w =>
        simp only [sendWelcome, hm, hw]
        generalize hr : s.lock _ _ = r
        apply DsData.lock_quiet_or hr ?_ (by simp)
        split
        · exact .inl (quiet_same (by simp))
        · exact .inr ⟨m, w, _, _, _, by simpa [groupMessage] using hm, hw, by assumption, rfl⟩

/-- `msg_recv` empties both queues of the client. -/
theorem msgRecv_cases (path : String) :
    Quiet s (msgRecv srv s path) ∨
    ∃ id c, srv.decodeConfig path = some id ∧ s.clients id = some c ∧ msgRecv srv s path =
      (s.setClient id { c with welcomeQueue := [], msgs := [] },
        if serializes srv.toOpenmls (c.welcomeQueue ++ c.msgs)
          then .ok (.messages (c.welcomeQueue ++ c.msgs)) else .internalServerError) := by
  generalize hr : msgRecv srv s path = r
  apply DsData.lock_quiet_or hr
  · split
    · exact .inl (quiet_same (by simp))
    · split
      · exact .inl (quiet_same (by simp))
      · split
        · exact .inl (quiet_same (by simp))
        · exact .inr ⟨_, _, by assumption, by assumption, rfl⟩
  · rintro s' ⟨id, c, -, -, h⟩
    have := congrArg Prod.snd h
    split_ifs at this

lemma DsData.lock_same (x : Mutex) (body : DsData → DsData × Answer) :
    s.lock x body = (s, .internalServerError) ∨
    ((s.lock x body).2 = (body s).2 ∧ (body s).1.SameMaps (s.lock x body).1) := by
  rcases s.lock_cases x body with ⟨-, h⟩ | ⟨-, hp, h⟩ | ⟨-, -, h⟩
  · exact .inl h
  · rw [h]
    exact .inr ⟨hp.symm, (body s).1.sameMaps_poison x⟩
  · rw [h]
    exact .inr ⟨rfl, .refl _⟩

lemma DsData.sameMaps_lock {s : DsData} (h : s.SameMaps (body s).1) :
    s.SameMaps (s.lock x body).1 := by
  rcases s.lock_same x body with he | ⟨-, hs⟩
  · rw [he]
    exact .refl s
  · exact h.trans hs

lemma sameMaps_listClients (order : List Bytes) : s.SameMaps (listClients srv s order).1 :=
  DsData.sameMaps_lock (.refl s)

lemma sameMaps_getKeyPackages (path : String) : s.SameMaps (getKeyPackages srv s path).1 := by
  refine DsData.sameMaps_lock ?_
  repeat' split
  all_goals exact .refl s

/-! ## The handlers of the group infos -/

lemma sameMaps_groupExists (path : String) : s.SameMaps (groupExists srv s path).1 := by
  refine DsData.sameMaps_lock ?_
  split <;> exact .refl s

/-- `get_group_info` refuses, or finds no entry, or takes the entry. -/
theorem getGroupInfo_cases (path : String) :
    (Quiet s (getGroupInfo srv s path) ∧ (getGroupInfo srv s path).2 ≠ .noContent) ∨
    ∃ id, srv.decodeConfig path = some id ∧
      (s.takeGroupInfo id).SameMaps (getGroupInfo srv s path).1 ∧
      ((s.groupInfo id = none ∧ (getGroupInfo srv s path).2 = .noContent) ∨
        ∃ g, s.groupInfo id = some (some g) ∧ (getGroupInfo srv s path).2 ≠ .noContent) := by
  have hlock : getGroupInfo srv s path = (s, .internalServerError) ∨
      ((getGroupInfo srv s path).2 = (readGroupInfo srv path s).2 ∧
        (readGroupInfo srv path s).1.SameMaps (getGroupInfo srv s path).1) :=
    s.lock_same .groupInfo (readGroupInfo srv path)
  generalize getGroupInfo srv s path = r at hlock ⊢
  rcases hlock with rfl | ⟨ha, hs⟩
  · exact .inl ⟨quiet_same (by simp), by simp⟩
  · cases hid : srv.decodeConfig path with
    | none =>
      simp only [readGroupInfo, hid] at ha hs
      exact .inl ⟨⟨hs, by simp [ha]⟩, by simp [ha]⟩
    | some id =>
      rcases hg : s.groupInfo id with - | - | g
      · simp only [readGroupInfo, hid, hg] at ha hs
        exact .inr ⟨id, rfl, hs, .inl ⟨hg, ha⟩⟩
      · simp only [readGroupInfo, hid, hg] at ha hs
        exact .inl ⟨⟨hs, by rw [ha]; split_ifs <;> simp⟩, by rw [ha]; split_ifs <;> simp⟩
      · simp only [readGroupInfo, hid, hg] at ha hs
        exact .inr ⟨id, rfl, hs, .inr ⟨g, hg, by rw [ha]; split_ifs <;> simp⟩⟩

theorem postGroupInfo_cases (path : String) (body : Payload) :
    Quiet s (postGroupInfo srv s path body) ∨
    ∃ id g, srv.decodeConfig path = some id ∧
      postGroupInfo srv s path body = (s.setGroupInfo id (some g), .ok .empty) := by
  cases body with
  | none => exact .inl (quiet_same (by simp))
  | some bytes =>
    generalize hr : postGroupInfo srv s path (some bytes) = r
    unfold postGroupInfo at hr
    apply DsData.lock_quiet_or hr ?_ (by simp)
    split
    · exact .inl (quiet_same (by simp))
    · split_ifs
      · exact .inl (quiet_same (by simp))
      · split
        · exact .inl (quiet_same (by simp))
        · exact .inr ⟨_, _, by assumption, rfl⟩

/-! ## Frames -/

lemma reset_cases :
    reset s = (s, .internalServerError) ∨
    reset s = ({ s with clients := fun _ => none, groups := fun _ => none }, .ok .empty) := by
  simp only [reset, DsData.lock]
  cases s.poisoned .clients <;> cases s.poisoned .groups <;> simp

lemma DsData.takeGroupInfo_groups (id : Bytes) : (s.takeGroupInfo id).groups = s.groups := by
  unfold takeGroupInfo
  split_ifs <;> rfl

lemma DsData.takeGroupInfo_clients (id : Bytes) : (s.takeGroupInfo id).clients = s.clients := by
  unfold takeGroupInfo
  split_ifs <;> rfl

lemma DsData.takeGroupInfo_groupInfoMutex (id : Bytes) :
    (s.takeGroupInfo id).groupInfoMutex = s.groupInfoMutex := by
  unfold takeGroupInfo
  split_ifs <;> rfl

/-! ## What a request can do -/

/-- The state to which a request leads, and what is used of the way there. -/
inductive Effect (s : DsData) : Request → DsData → Prop
  | same : ∀ {r s'}, s.SameMaps s' → Effect s r s'
  | registered : ∀ {body info}, clientInfo srv body = some info →
      Effect s (.registerClient body) (s.setClient info.id info)
  | reset : Effect s .reset { s with clients := fun _ => none, groups := fun _ => none }
  | published : ∀ {path body id c ks}, s.clients id = some c →
      Effect s (.publishKeyPackages path body)
        (s.setClient id { c with keyPackages := c.keyPackages ++ ks })
  | consumed : ∀ {path id c hash}, s.clients id = some c →
      Effect s (.consumeKeyPackage path)
        (s.setClient id { c with reservedKeyPkgHash := insert hash c.reservedKeyPkgHash })
  | asked : ∀ {path id s'}, (s.takeGroupInfo id).SameMaps s' → Effect s (.getGroupInfo path) s'
  | posted : ∀ {path body id g}, Effect s (.postGroupInfo path body) (s.setGroupInfo id (some g))
  | welcomed : ∀ {body order m w hash id c}, m.msg.intoWelcome = some w →
      s.clients id = some c →
      Effect s (.sendWelcome body order) (s.setClient id (c.takeWelcome hash m))
  | queued : ∀ {body m p groups}, ProtocolMessage.tryFrom m.msg = some p →
      guardEpoch s.groups p = some groups →
      Effect s (.msgSend body) { s with clients := (pushAll s.clients m m.listed).1, groups }
  | fetched : ∀ {path id c}, s.clients id = some c →
      Effect s (.msgRecv path) (s.setClient id { c with welcomeQueue := [], msgs := [] })

lemma effect_next (r : Request) : Effect srv s r ((server srv).next s r) := by
  cases r with
  | registerClient body =>
    change Effect srv s _ (Ds.registerClient srv s body).1
    rcases registerClient_cases srv s body with ⟨h, -⟩ | ⟨info, hinfo, h⟩
    · exact .same h
    · rw [h]
      exact .registered hinfo
  | listClients order => exact .same (sameMaps_listClients srv s order)
  | reset =>
    change Effect srv s _ (Ds.reset s).1
    rcases reset_cases s with h | h
    · rw [h]
      exact .same (.refl s)
    · rw [h]
      exact .reset
  | getKeyPackages path => exact .same (sameMaps_getKeyPackages srv s path)
  | publishKeyPackages path body =>
    change Effect srv s _ (Ds.publishKeyPackages srv s path body).1
    rcases publishKeyPackages_cases srv s path body with ⟨h, -⟩ | ⟨id, c, ks, hc, h⟩
    · exact .same h
    · rw [h]
      exact .published hc
  | consumeKeyPackage path =>
    change Effect srv s _ (Ds.consumeKeyPackage srv s path).1
    rcases consumeKeyPackage_cases srv s path with ⟨h, -⟩ | ⟨id, c, kp, c', -, hc, hkp, h⟩
    · exact .same h
    · obtain ⟨hash, -, rfl⟩ := ClientInfo.consumeKp_eq_some hkp
      rw [h]
      exact .consumed hc
  | getGroupInfo path =>
    rcases getGroupInfo_cases srv s path with ⟨⟨h, -⟩, -⟩ | ⟨id, -, h, -⟩
    · exact .same h
    · exact .asked h
  | groupExists path => exact .same (sameMaps_groupExists srv s path)
  | postGroupInfo path body =>
    change Effect srv s _ (Ds.postGroupInfo srv s path body).1
    rcases postGroupInfo_cases srv s path body with ⟨h, -⟩ | ⟨id, g, -, h⟩
    · exact .same h
    · rw [h]
      exact .posted
  | sendWelcome body order =>
    change Effect srv s _ (Ds.sendWelcome srv s body order).1
    rcases sendWelcome_cases srv s body order with ⟨h, -⟩ | ⟨m, w, hash, id, c, -, hw, hc, h⟩
    · exact .same h
    · rw [h]
      exact .welcomed hw (welcomed_eq_some hc).1
  | msgSend body =>
    change Effect srv s _ (Ds.msgSend srv s body).1
    rcases msgSend_cases srv s body with ⟨h, -⟩ | ⟨m, p, groups, -, hp, hg, h⟩
    · exact .same h
    · rw [h]
      exact .queued hp hg
  | msgRecv path =>
    change Effect srv s _ (Ds.msgRecv srv s path).1
    rcases msgRecv_cases srv s path with ⟨h, -⟩ | ⟨id, c, -, hc, h⟩
    · exact .same h
    · rw [h]
      exact .fetched hc

variable {r : Request}

/-- Only `msg_send` and `reset` change the epochs of the groups. -/
theorem groups_next {s : DsData} (hreset : r ≠ .reset) (hsend : ∀ body, r ≠ .msgSend body) :
    ((server srv).next s r).groups = s.groups := by
  have h := effect_next srv s r
  generalize (server srv).next s r = s' at h ⊢
  cases h with
  | same h => exact h.groups
  | reset => exact absurd rfl hreset
  | asked h => exact h.groups.trans (s.takeGroupInfo_groups _)
  | queued => exact absurd rfl (hsend _)
  | _ => rfl

/-- Only the requests about group infos change them. -/
theorem groupInfo_next {s : DsData} (hget : ∀ path, r ≠ .getGroupInfo path)
    (hpost : ∀ path body, r ≠ .postGroupInfo path body) :
    ((server srv).next s r).groupInfo = s.groupInfo ∧
      ((server srv).next s r).groupInfoMutex = s.groupInfoMutex := by
  have h := effect_next srv s r
  generalize (server srv).next s r = s' at h ⊢
  cases h with
  | same h => exact ⟨h.groupInfo, h.groupInfoMutex⟩
  | asked => exact absurd rfl (hget _)
  | posted => exact absurd rfl (hpost _ _)
  | _ => exact ⟨rfl, rfl⟩

lemma groupInfoMutex_next (r : Request) :
    ((server srv).next s r).groupInfoMutex = s.groupInfoMutex := by
  have h := effect_next srv s r
  generalize (server srv).next s r = s' at h ⊢
  cases h with
  | same h => exact h.groupInfoMutex
  | asked h => exact h.groupInfoMutex.trans (s.takeGroupInfo_groupInfoMutex _)
  | _ => rfl

end EmulatedMls.Ds
