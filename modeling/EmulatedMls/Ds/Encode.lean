import EmulatedMls.Ds.Server
import EmulatedMls.Lib.Framing
import EmulatedMls.PubSub.Subscriptions
import Mathlib.Algebra.Order.BigOperators.Group.List
import Mathlib.Data.Option.NAry
import Mathlib.Tactic.Ring

/-!
# What is written on the wire is read back

The messages of the delivery service and of the broker are serialised field by field.  A writer
fails where a length does not fit its length field.  Everything that it does write is read back as
the value, with whatever stands behind it left unread.

**Source.**  `delivery-service/ds-lib/src/lib.rs` and `msg_recv` of `delivery-service/ds`.

**The codec.**  The primitives are those of `tls_codec`, in the format that it documents, the
presentation language of TLS: big-endian numbers, vectors behind the number of their bytes (`vl`
for the variable-length one of MLS), and one byte in front of an optional value.

**The MLS library.**  How its types are written is a parameter (`Writers`), which fits the readers
if these types round-trip (`Writers.Fits`).
-/

namespace EmulatedMls.Ds

/-- `tls_serialize`: the bytes, if the value serialises. -/
abbrev Writer (α : Type) := α → Option Bytes

open List Updater

section Codec

variable {α β : Type} {read element : Reader α} {f : α → Reader β} {size : α → ℕ}
  {write : Writer α} {readLength : Reader ℕ} {lengthSize : ℕ → ℕ} {length : Writer ℕ}
  {u v : Option Bytes} {n n' : ℕ} {a : α} {b : β}

/-! ## The TLS codec -/

namespace Writer

def both (u v : Option Bytes) : Option Bytes := Option.map₂ (· ++ ·) u v

/-- The last `n` big-endian digits of a number. -/
def digits : ℕ → ℕ → Bytes
  | 0, _ => []
  | n + 1, x => UInt8.ofNat (x / 256 ^ n) :: digits n x

/-- A number of `n` bytes. -/
def uint (n : ℕ) : Writer ℕ := fun x => if x < 256 ^ n then some (digits n x) else none

/-- The length of a `<V>` vector. -/
def vlLength : Writer ℕ := fun n =>
  if n < 2 ^ 6 then some [UInt8.ofNat n]
  else if n < 2 ^ 14 then some (UInt8.ofNat (64 + n / 256) :: digits 1 n)
  else if n < 2 ^ 30 then some (UInt8.ofNat (128 + n / 256 ^ 3) :: digits 3 n)
  else none

def byteVec (length : Writer ℕ) : Writer Bytes := fun bs => both (length bs.length) (some bs)

def elements (element : Writer α) : Writer (List α)
  | [] => some []
  | a :: as => both (element a) (elements element as)

/-- A vector.  Its length is the sum of the announced sizes. -/
def vec (length : Writer ℕ) (element : Writer α) (size : α → ℕ) : Writer (List α) := fun as =>
  both (length (as.map size).sum) (elements element as)

def option (value : Writer α) : Writer (Option α)
  | none => some [0]
  | some a => both (some [1]) (value a)

@[simp] lemma isSome_both : (both u v).isSome = (u.isSome && v.isSome) := by
  cases u <;> cases v <;> rfl

@[simp] lemma isSome_uint {x : ℕ} : (uint n x).isSome ↔ x < 256 ^ n := by
  unfold uint
  split_ifs with h <;> simp [h]

@[simp] lemma isSome_elements {as : List α} :
    (elements write as).isSome ↔ ∀ a ∈ as, (write a).isSome := by
  induction as with
  | nil => simp [elements]
  | cons a as ih => simp [elements, ih]

@[simp] lemma isSome_option {o : Option α} :
    (option write o).isSome ↔ ∀ a ∈ o, (write a).isSome := by
  cases o <;> simp [option]

end Writer

/-- What is written has the announced size and is read as the value. -/
def Written (read : Reader α) (n : ℕ) (o : Option Bytes) (a : α) : Prop :=
  ∀ w ∈ o, Reads Anything read w a ∧ w.length = n

def RoundTrips (read : Reader α) (size : α → ℕ) (write : Writer α) : Prop :=
  ∀ a, Written read (size a) (write a) a

namespace Written

lemma both (h : Written read n u a) (h' : Written (f a) n' v b) :
    Written (read >>= f) (n + n') (Writer.both u v) b := by
  intro w hw
  obtain ⟨x, y, hx, hy, rfl⟩ := Option.mem_map₂_iff.mp hw
  obtain ⟨hread, hsize⟩ := h x hx
  obtain ⟨hread', hsize'⟩ := h' y hy
  exact ⟨hread.bind hread' fun _ _ => trivial, by simp [hsize, hsize']⟩

lemma map (h : Written read n u a) (g : α → β) : Written (g <$> read) n u (g a) :=
  fun w hw => ⟨(h w hw).1.map g, (h w hw).2⟩

lemma u8 (b : UInt8) : Written Reader.u8 1 (some [b]) b.toNat := by
  rintro w ⟨⟩
  exact ⟨fun _ _ => rfl, rfl⟩

lemma digits (n acc x : ℕ) : Written (Reader.digits n acc) n (some (Writer.digits n x))
    (256 ^ n * acc + x % 256 ^ n) := by
  induction n generalizing acc with
  | zero =>
    rintro w ⟨⟩
    exact ⟨fun _ _ => by simp [Reader.digits, Writer.digits, Nat.mod_one]; rfl, rfl⟩
  | succ n ih =>
    have hvalue : 256 ^ n * (256 * acc + (UInt8.ofNat (x / 256 ^ n)).toNat) + x % 256 ^ n =
        256 ^ (n + 1) * acc + x % 256 ^ (n + 1) := by
      have hbyte : (UInt8.ofNat (x / 256 ^ n)).toNat = x / 256 ^ n % 256 := UInt8.toNat_ofNat'
      rw [hbyte, pow_succ, Nat.mod_mul]
      ring
    have h := (u8 (UInt8.ofNat (x / 256 ^ n))).both (f := fun b => Reader.digits n (256 * acc + b))
      (ih _)
    rwa [hvalue, Nat.add_comm 1] at h

end Written

namespace RoundTrips

lemma uint (n : ℕ) : RoundTrips (Reader.digits n 0) (fun _ => n) (Writer.uint n) := by
  intro x w hw
  obtain ⟨hx, rfl⟩ : x < 256 ^ n ∧ Writer.digits n x = w := by simpa [Writer.uint] using hw
  have h := Written.digits n 0 x _ rfl
  rwa [mul_zero, zero_add, Nat.mod_eq_of_lt hx] at h

lemma u8 : RoundTrips Reader.u8 (fun _ => 1) (Writer.uint 1) := by
  intro x w hw
  obtain ⟨hx, rfl⟩ : x < 256 ∧ Writer.digits 1 x = w := by simpa [Writer.uint] using hw
  have hbyte : (UInt8.ofNat x).toNat = x := by rw [UInt8.toNat_ofNat']; omega
  have h := Written.u8 (UInt8.ofNat x) _ rfl
  rw [hbyte] at h
  simpa [Writer.digits] using h

lemma Reader.pure_apply {α : Type} (x : α) (bs : Bytes) : (pure x : Reader α) bs = some (x, bs) :=
  rfl

lemma vlLength : RoundTrips Reader.vlLength Reader.lengthBytes Writer.vlLength := by
  -- the first byte has the number of bytes in its upper two bits
  have hread (t k n : ℕ) (ht : t / 64 = 0 ∧ k = 0 ∨ t / 64 = 1 ∧ k = 1 ∨ t / 64 = 2 ∧ k = 3)
      (hvalue : 256 ^ k * (t % 64) + n % 256 ^ k = n) (hbytes : Reader.lengthBytes n = k + 1) :
      Written Reader.vlLength (Reader.lengthBytes n)
        (some (UInt8.ofNat t :: Writer.digits k n)) n := by
    have hb : (UInt8.ofNat t).toNat = t := by rw [UInt8.toNat_ofNat']; omega
    have hdigits := Written.digits k (t % 64) n _ rfl
    rw [hvalue] at hdigits
    rintro w ⟨⟩
    refine ⟨fun r hr => ?_, by rw [length_cons, hdigits.2, hbytes]⟩
    have hrest := hdigits.1 r hr
    rcases ht with ⟨ht, rfl⟩ | ⟨ht, rfl⟩ | ⟨ht, rfl⟩ <;>
      simp only [Reader.vlLength, Reader.u8, bind, StateT.bind, cons_append, Option.bind, hb,
        ht, Reader.pure_apply] <;>
      simp [hrest, hbytes, Reader.pure_apply]
  intro n w hw
  unfold Writer.vlLength at hw
  split_ifs at hw with h1 h2 h3
  · exact hread n 0 n (by omega) (by omega) (if_pos h1) w hw
  · exact hread (64 + n / 256) 1 n (by omega) (by omega)
      (by rw [Reader.lengthBytes, if_neg h1, if_pos h2]) w hw
  · exact hread (128 + n / 256 ^ 3) 3 n (by omega) (by omega)
      (by rw [Reader.lengthBytes, if_neg h1, if_neg h2]) w hw
  · cases hw

lemma byteVec (hl : RoundTrips readLength lengthSize length) :
    RoundTrips (Reader.byteVec readLength) (fun bs => lengthSize bs.length + bs.length)
      (Writer.byteVec length) := by
  intro bs
  have hexact : Written (Reader.exactly bs.length) bs.length (some bs) bs := by
    rintro w ⟨⟩
    exact ⟨fun r _ => by simp [Reader.exactly], rfl⟩
  exact (hl bs.length).both hexact

lemma option (h : RoundTrips read size write) :
    RoundTrips (Reader.option read) (fun o => 1 + (o.map size).getD 0) (Writer.option write) := by
  intro o
  cases o with
  | none =>
    rintro w ⟨⟩
    exact ⟨fun _ _ => rfl, rfl⟩
  | some a => exact (Written.u8 1).both ((h a).map some)

/-- The loop of the reader ends where the elements do. -/
lemma elements (h : RoundTrips element size write) (hpos : ∀ a, 0 < size a) (as : List α) (fuel : ℕ)
    (hfuel : (as.map size).sum ≤ fuel) :
    Written (Reader.elements element size fuel (as.map size).sum) (as.map size).sum
      (Writer.elements write as) as := by
  induction as generalizing fuel with
  | nil =>
    rintro w ⟨⟩
    exact ⟨by cases fuel <;> exact Reads.pure [], rfl⟩
  | cons a as ih =>
    rw [map_cons, sum_cons] at hfuel ⊢
    have := hpos a
    obtain ⟨fuel, rfl⟩ : ∃ k, fuel = k + 1 := Nat.exists_eq_add_one.mpr (by omega)
    obtain ⟨left, hleft⟩ : ∃ k, size a + (as.map size).sum = k + 1 :=
      Nat.exists_eq_add_one.mpr (by omega)
    have hrest : left + 1 - size a = (as.map size).sum := by omega
    have htail := (ih fuel (by omega)).map (a :: ·)
    rw [← hrest] at htail
    nth_rewrite 1 [hleft]
    rw [← hrest]
    exact (h a).both htail

lemma vec (hl : RoundTrips readLength lengthSize length) (h : RoundTrips element size write)
    (hpos : ∀ a, 0 < size a) :
    RoundTrips (do let n ← readLength; Reader.elements element size n n)
      (fun as => lengthSize (as.map size).sum + (as.map size).sum)
      (Writer.vec length write size) :=
  fun as => (hl _).both (elements h hpos as _ le_rfl)

end RoundTrips

end Codec

/-! ## The messages of the service -/

/-- How the MLS library writes its types. -/
structure Writers where
  mlsMessage : Writer MlsMessageIn
  keyPackage : Writer KeyPackageIn
  ratchetTree : Writer RatchetTreeIn
  groupInfo : Writer VerifiableGroupInfo

/-- The types of the MLS library round-trip. -/
structure Writers.Fits (ws : Writers) (mls : Openmls) : Prop where
  mlsMessage : RoundTrips (MlsMessageIn.read mls) (MlsMessageIn.size mls) ws.mlsMessage
  keyPackage : RoundTrips mls.keyPackageIn mls.keyPackageSize ws.keyPackage
  ratchetTree : RoundTrips mls.ratchetTreeIn mls.ratchetTreeSize ws.ratchetTree
  groupInfo : RoundTrips mls.verifiableGroupInfo mls.groupInfoSize ws.groupInfo

/-- `TlsByteVecU32`. -/
def Writer.name : Writer Bytes := byteVec (uint 4)

lemma RoundTrips.name : RoundTrips (Reader.byteVec Reader.u32) byteVecU32Size Writer.name :=
  byteVec (uint 4)

section

variable (mls : Openmls) (ws : Writers)

def GroupMessage.write : Writer GroupMessage := fun m =>
  Writer.both (ws.mlsMessage m.msg) <|
  Writer.both (Writer.name m.sender) <|
  Writer.both (Writer.option ws.ratchetTree m.ratchetTree) <|
  Writer.both (Writer.vec (Writer.uint 4) Writer.name byteVecU32Size m.recipients)
    (Writer.option (Writer.vec Writer.vlLength Writer.name byteVecU32Size) m.activeMembers)

def GroupInfoAndTree.write : Writer GroupInfoAndTree := fun g =>
  Writer.both (ws.groupInfo g.groupInfo) (Writer.option ws.ratchetTree g.ratchetTree)

/-- The response of `msg_recv`, a `TlsSliceU32`. -/
def writeMessages : Writer (List GroupMessage) :=
  Writer.vec (Writer.uint 4) (GroupMessage.write ws) (GroupMessage.size mls)

def readMessages : Reader (List GroupMessage) :=
  Reader.vecU32 (GroupMessage.read mls) (GroupMessage.size mls)

end

def utf8 (s : String) : Bytes := s.toByteArray.data.toList

/-- `String::from_utf8`. -/
def fromUtf8 (bs : Bytes) : Option String := String.fromUTF8? ⟨bs.toArray⟩

@[simp] lemma fromUtf8_utf8 (s : String) : fromUtf8 (utf8 s) = some s := by
  unfold fromUtf8 utf8 String.fromUTF8?
  rw [Array.toArray_toList, dif_pos s.isValidUTF8]
  rfl

/-- The writer of `WelcomeAcknowledgement`. -/
def writeAck : Writer WelcomeAcknowledgement := fun ack =>
  Writer.both (Writer.byteVec (Writer.uint 1) (utf8 ack.sender))
    (Writer.byteVec (Writer.uint 1) (utf8 ack.group))

/-- The reader of `WelcomeAcknowledgement`; `none` is the panic at a name that is not UTF-8. -/
def readAck : Reader (Option WelcomeAcknowledgement) := do
  match fromUtf8 (← Reader.byteVec Reader.u8) with
  | none => pure none
  | some sender => (fun group => (fromUtf8 group).map (⟨sender, ·⟩)) <$> Reader.byteVec Reader.u8

def writeDSMessage (ws : Writers) : Writer (DSMessage GroupMessage)
  | .groupMessage m => Writer.both (some [0]) (GroupMessage.write ws m)
  | .welcomeAcknowledgement ack => Writer.both (some [1]) (writeAck ack)

/-- The reader of `DSMessage`, with the panic of `readAck`. -/
def readDSMessage (mls : Openmls) : Reader (Option (DSMessage GroupMessage)) := do
  match ← Reader.u8 with
  | 0 => (fun m => some (.groupMessage m)) <$> GroupMessage.read mls
  | 1 => Option.map .welcomeAcknowledgement <$> readAck
  | _ => Reader.err

variable {mls : Openmls} {ws : Writers}

lemma Writers.Fits.groupMessage (h : ws.Fits mls) :
    RoundTrips (GroupMessage.read mls) (GroupMessage.size mls) (GroupMessage.write ws) := by
  intro m
  have hpos (bs : Bytes) : 0 < byteVecU32Size bs := Nat.add_pos_left (by decide) _
  have hsize : m.size mls = m.msg.size mls + (byteVecU32Size m.sender +
      (1 + (m.ratchetTree.map mls.ratchetTreeSize).getD 0 +
      (4 + (m.recipients.map byteVecU32Size).sum + (1 + (m.activeMembers.map fun l =>
        Reader.lengthBytes (l.map byteVecU32Size).sum + (l.map byteVecU32Size).sum).getD 0)))) := by
    simp only [GroupMessage.size]
    omega
  rw [hsize]
  refine (h.mlsMessage m.msg).both ?_
  refine (RoundTrips.name m.sender).both ?_
  refine (h.ratchetTree.option m.ratchetTree).both ?_
  refine (RoundTrips.vec (.uint 4) .name hpos m.recipients).both ?_
  exact ((RoundTrips.vec .vlLength .name hpos).option m.activeMembers).map _

lemma Writers.Fits.groupInfoAndTree (h : ws.Fits mls) : RoundTrips (GroupInfoAndTree.read mls)
    (fun g => mls.groupInfoSize g.groupInfo + (1 + (g.ratchetTree.map mls.ratchetTreeSize).getD 0))
    (GroupInfoAndTree.write ws) :=
  fun g => (h.groupInfo g.groupInfo).both ((h.ratchetTree.option g.ratchetTree).map _)

lemma Writers.Fits.messages (h : ws.Fits mls) : RoundTrips (readMessages mls)
    (fun ms => 4 + (ms.map (GroupMessage.size mls)).sum) (writeMessages mls ws) := by
  refine RoundTrips.vec (.uint 4) h.groupMessage fun m => ?_
  simp only [GroupMessage.size, MlsMessageIn.size]
  omega

lemma written_ack (ack : WelcomeAcknowledgement) : Written readAck
    (1 + (utf8 ack.sender).length + (1 + (utf8 ack.group).length)) (writeAck ack) (some ack) := by
  have hname (s : String) := RoundTrips.byteVec .u8 (utf8 s)
  refine (hname ack.sender).both ?_
  have hgroup := (hname ack.group).map fun group =>
    (fromUtf8 group).map (WelcomeAcknowledgement.mk ack.sender)
  rw [fromUtf8_utf8] at hgroup ⊢
  exact hgroup

/-- The parts of the message serialise, and its lengths fit their length fields. -/
def Serialises (ws : Writers) : DSMessage GroupMessage → Prop
  | .groupMessage m =>
    (ws.mlsMessage m.msg).isSome ∧ m.sender.length < 2 ^ 32 ∧
      (∀ t ∈ m.ratchetTree, (ws.ratchetTree t).isSome) ∧
      (m.recipients.map byteVecU32Size).sum < 2 ^ 32 ∧
      ∀ members ∈ m.activeMembers, (members.map byteVecU32Size).sum < 2 ^ 30
  | .welcomeAcknowledgement ack => (utf8 ack.sender).length ≤ 255 ∧ (utf8 ack.group).length ≤ 255

lemma isSome_writeDSMessage {m : DSMessage GroupMessage} (h : Serialises ws m) :
    (writeDSMessage ws m).isSome := by
  cases m with
  | groupMessage m =>
    obtain ⟨hmsg, hsender, htree, hrecipients, hmembers⟩ := h
    have hname (names : List Bytes) (hsum : (names.map byteVecU32Size).sum < 2 ^ 32) :
        ∀ a ∈ names, a.length < 2 ^ 32 := fun a ha => by
      have hle := le_sum_of_mem (mem_map_of_mem (f := byteVecU32Size) ha)
      unfold byteVecU32Size at hle hsum
      omega
    have hactive : ∀ a, m.activeMembers = some a →
        (Writer.vlLength (a.map byteVecU32Size).sum).isSome ∧ ∀ b ∈ a, b.length < 2 ^ 32 := by
      intro a ha
      have hsum := hmembers a ha
      refine ⟨?_, hname a (by omega)⟩
      unfold Writer.vlLength
      split_ifs <;> rfl
    simpa [writeDSMessage, GroupMessage.write, Writer.name, Writer.byteVec, Writer.vec, hmsg] using
      ⟨hsender, htree, ⟨hrecipients, hname _ hrecipients⟩, hactive⟩
  | welcomeAcknowledgement ack =>
    obtain ⟨hsender, hgroup⟩ := h
    simpa [writeDSMessage, writeAck, Writer.byteVec] using
      ⟨Nat.lt_succ_of_le hsender, Nat.lt_succ_of_le hgroup⟩

/-- **The messages round-trip.**  If the types of the MLS library do, then every message of the
    broker is written and read back, with what stands behind it left unread; so is every group info
    with its tree, and the response of `msg_recv` is read as the queued messages. -/
theorem wire_round_trip (h : ws.Fits mls) :
    (∀ m, Serialises ws m → (writeDSMessage ws m).isSome) ∧
    (∀ m w rest, writeDSMessage ws m = some w →
      (readDSMessage mls).run (w ++ rest) = some (some m, rest)) ∧
    (∀ g, (GroupInfoAndTree.write ws g).isSome ↔
      (ws.groupInfo g.groupInfo).isSome ∧ ∀ t ∈ g.ratchetTree, (ws.ratchetTree t).isSome) ∧
    (∀ g w rest, GroupInfoAndTree.write ws g = some w →
      (GroupInfoAndTree.read mls).run (w ++ rest) = some (g, rest)) ∧
    (∀ ms, (writeMessages mls ws ms).isSome ↔
      serializes mls ms ∧ ∀ m ∈ ms, (GroupMessage.write ws m).isSome) ∧
    ∀ ms w rest, writeMessages mls ws ms = some w →
      (readMessages mls).run (w ++ rest) = some (ms, rest) := by
  refine ⟨fun m => isSome_writeDSMessage, fun m w rest hw => ?_,
    fun g => by simp [GroupInfoAndTree.write],
    fun g w rest hw => (h.groupInfoAndTree g w hw).1 rest trivial,
    fun ms => by simp [writeMessages, Writer.vec, serializes],
    fun ms w rest hw => (h.messages ms w hw).1 rest trivial⟩
  cases m with
  | groupMessage m =>
    have hread := (h.groupMessage m).map fun m => some (DSMessage.groupMessage m)
    exact ((Written.u8 0).both hread w hw).1 rest trivial
  | welcomeAcknowledgement ack =>
    have hread := (written_ack ack).map
      (Option.map (DSMessage.welcomeAcknowledgement (μ := GroupMessage)))
    exact ((Written.u8 1).both hread w hw).1 rest trivial

def blankMessage : MlsMessageIn := ⟨.privateMessage ⟨[], 0, .application, [], [], []⟩⟩

def blankBytes : Bytes := [0, 1, 0, 2, 0, 0, 0, 0, 0, 0, 0, 0, 0, 1, 0, 0, 0]

def keyPackageOfA : KeyPackageIn := ⟨1, .basic, [65], []⟩

/-- Writers for this one message and this one key package. -/
def smallWriters : Writers where
  mlsMessage m := if m = blankMessage then some blankBytes else none
  keyPackage k := if k = keyPackageOfA then some [1, 65] else none
  ratchetTree _ := none
  groupInfo _ := none

lemma smallWriters_fits : smallWriters.Fits plainService.toOpenmls := by
  refine ⟨fun m w hw => ?_, fun k w hw => ?_, nofun, nofun⟩
  · obtain ⟨rfl, rfl⟩ : m = blankMessage ∧ blankBytes = w := by simpa [smallWriters] using hw
    exact ⟨fun r _ => rfl, rfl⟩
  · obtain ⟨rfl, rfl⟩ : k = keyPackageOfA ∧ [1, 65] = w := by simpa [smallWriters] using hw
    exact ⟨fun r _ => rfl, rfl⟩

/-- The message to two members, one of them active. -/
def toTwo : GroupMessage := ⟨blankMessage, [65], none, [[66], [67]], some [[66]]⟩

theorem wire_round_trip_toTwo : ∃ w, writeDSMessage smallWriters (.groupMessage toTwo) = some w ∧
    (readDSMessage plainService.toOpenmls).run (w ++ [9]) =
      some (some (.groupMessage toTwo), [9]) := by
  obtain ⟨hsome, hread, -⟩ := wire_round_trip smallWriters_fits
  have hserialises : Serialises smallWriters (.groupMessage toTwo) := by
    simp [Serialises, toTwo, smallWriters, byteVecU32Size]
  obtain ⟨w, hw⟩ := Option.isSome_iff_exists.mp (hsome _ hserialises)
  exact ⟨w, hw, hread _ w [9] hw⟩

end EmulatedMls.Ds
