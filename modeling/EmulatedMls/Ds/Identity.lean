import EmulatedMls.Ds.Encode
import EmulatedMls.Ds.HandlerSpec

/-!
# The identities of the clients

`list_clients` sends the name and the key packages of every client.  Who reads the list takes the
identity of the first key package for that of the client, so this one has to stay in its place.
Names are read with replacement characters, and can then be longer than a name that can be sent.

**Source.**  `delivery-service/ds-lib/src/lib.rs` and `list_clients` of `delivery-service/ds`.
-/

namespace EmulatedMls.Ds

open List Option Updater

/-! ## Names -/

/-- How many bytes `from_utf8_lossy` replaces, where no character can be read: the longest start of
    a character, or one byte. -/
def invalidLength (b : ByteArray) : ℕ :=
  let byte (i : ℕ) : ℕ := (b.data[i]?.map UInt8.toNat).getD 0
  let within (i low high : ℕ) : Bool := low ≤ byte i && byte i ≤ high
  let second : Bool := match byte 0 with
    | 0xE0 => within 1 0xA0 0xBF
    | 0xED => within 1 0x80 0x9F
    | 0xF0 => within 1 0x90 0xBF
    | 0xF4 => within 1 0x80 0x8F
    | _ => within 0 0xE1 0xF3 && within 1 0x80 0xBF
  if second then if 0xF0 ≤ byte 0 && within 2 0x80 0xBF then 3 else 2 else 1

def lossyChars : ℕ → ByteArray → List Char
  | 0, _ => []
  | n + 1, b =>
    if b.size = 0 then []
    else match b.utf8DecodeChar? 0 with
      | some c => c :: lossyChars n (b.extract c.utf8Size b.size)
      | none => Char.ofNat 0xFFFD :: lossyChars n (b.extract (invalidLength b) b.size)

def fromUtf8Lossy (bs : Bytes) : String := String.ofList (lossyChars bs.length ⟨bs.toArray⟩)

lemma size_utf8Encode_cons (c : Char) (cs : List Char) :
    (c :: cs).utf8Encode.size = c.utf8Size + cs.utf8Encode.size := by
  rw [utf8Encode_cons, ByteArray.size_append, utf8Encode_singleton,
    size_toByteArray, String.length_utf8EncodeChar]

lemma lossyChars_utf8Encode (cs : List Char) (n : ℕ) (hn : cs.utf8Encode.size ≤ n) :
    lossyChars n cs.utf8Encode = cs := by
  induction cs generalizing n with
  | nil => cases n <;> simp [lossyChars]
  | cons c cs ih =>
    have hsize := size_utf8Encode_cons c cs
    have hc : [c].utf8Encode.size = c.utf8Size := size_utf8Encode_cons c []
    have hpos := c.utf8Size_pos
    obtain ⟨n, rfl⟩ : ∃ k, n = k + 1 := Nat.exists_eq_add_one.mpr (by omega)
    have hrest : (c :: cs).utf8Encode.extract c.utf8Size (c :: cs).utf8Encode.size =
        cs.utf8Encode := by
      rw [hsize, utf8Encode_cons]
      exact ByteArray.extract_append_eq_right hc.symm (by rw [hc])
    rw [lossyChars, if_neg (by omega), utf8DecodeChar?_utf8Encode_cons]
    simp only [hrest, ih n (by omega)]

@[simp] lemma fromUtf8Lossy_utf8 (s : String) : fromUtf8Lossy (utf8 s) = s := by
  have hchars := lossyChars_utf8Encode s.toList (utf8 s).length
    (by rw [String.utf8Encode_toList]; exact le_rfl)
  rw [String.utf8Encode_toList] at hchars
  exact (congrArg String.ofList hchars).trans String.ofList_toList

lemma lossyChars_replicate (n : ℕ) :
    lossyChars n ⟨(List.replicate n (255 : UInt8)).toArray⟩ =
      List.replicate n (Char.ofNat 0xFFFD) := by
  induction n with
  | zero => rfl
  | succ n ih =>
    set b : ByteArray := ⟨(List.replicate (n + 1) (255 : UInt8)).toArray⟩ with hb
    have hsize : b.size = n + 1 := by simp [hb, ByteArray.size]
    have hnone : b.utf8DecodeChar? 0 = none := by
      rw [← not_isSome_iff_eq_none]
      intro h
      have hfirst := ByteArray.isUTF8FirstByte_of_isSome_utf8DecodeChar? h
      rw [show b[0] = 255 by simp [hb, ByteArray.getElem_eq_getElem_data]] at hfirst
      exact absurd hfirst (by decide)
    have hlen : invalidLength b = 1 := by simp [hb, invalidLength, replicate_succ]
    have hrest : b.extract 1 b.size = ⟨(List.replicate n (255 : UInt8)).toArray⟩ :=
      ByteArray.ext (by rw [hsize]; simp [hb, ByteArray.data_extract])
    rw [lossyChars, if_neg (by omega), hnone]
    simp only [hlen, hrest, ih, replicate_succ]

/-- An invalid byte becomes a character of three bytes. -/
lemma length_fromUtf8Lossy_replicate (n : ℕ) :
    (utf8 (fromUtf8Lossy (List.replicate n 255))).length = 3 * n := by
  have hsize : (List.replicate n (Char.ofNat 0xFFFD)).utf8Encode.size = 3 * n := by
    induction n with
    | zero => simp
    | succ n ih =>
      rw [replicate_succ, size_utf8Encode_cons, ih, show (Char.ofNat 0xFFFD).utf8Size = 3 from rfl]
      ring
  rw [fromUtf8Lossy, length_replicate, lossyChars_replicate]
  exact (congrArg ByteArray.size String.toByteArray_ofList).trans hsize

/-! ## The list of the clients -/

/-- What a client is sent as. -/
def ClientInfo.listed (c : ClientInfo) : String × ClientKeyPackages :=
  (fromUtf8Lossy c.clientName, c.keyPackages)

section

variable (mls : Openmls) (ws : Writers)

def entrySize (e : Bytes × KeyPackageIn) : ℕ := 1 + e.1.length + mls.keyPackageSize e.2

def ClientKeyPackages.write : Writer ClientKeyPackages :=
  Writer.vec (Writer.uint 4)
    (fun e => Writer.both (Writer.byteVec (Writer.uint 1) e.1) (ws.keyPackage e.2)) (entrySize mls)

/-- The fields of a client, with a name in bytes. -/
def writeFields (name : Bytes) (ks : ClientKeyPackages) : Option Bytes :=
  Writer.both (Writer.byteVec (Writer.uint 2) name) (ClientKeyPackages.write mls ws ks)

def writeClient : Writer (String × ClientKeyPackages) := fun e => writeFields mls ws (utf8 e.1) e.2

/-- The reader of `ClientInfo`, up to `ClientInfo::new`. -/
def readClient : Reader (String × ClientKeyPackages) :=
  (fun e => (fromUtf8Lossy e.1, e.2)) <$> ClientInfo.read mls

def clientSize (e : String × ClientKeyPackages) : ℕ :=
  2 + (utf8 e.1).length + (4 + (e.2.map (entrySize mls)).sum)

/-- The response of `list_clients`. -/
def writeClients : Writer (List ClientInfo) := fun cs =>
  Writer.vec (Writer.uint 4) (writeClient mls ws) (clientSize mls) (cs.map ClientInfo.listed)

/-- `ClientInfo::new` computes the identity; `none` is a panic. -/
def identified (e : String × ClientKeyPackages) : Option (String × Bytes × ClientKeyPackages) :=
  (ClientInfo.new (utf8 e.1) e.2).map fun c => (e.1, c.id, c.keyPackages)

/-- What is read from the response: names, identities and key packages. -/
def decodeClients (bytes : Bytes) : Option (List (String × Bytes × ClientKeyPackages)) :=
  (tlsDeserialize (Reader.vecU32 (readClient mls) (clientSize mls)) bytes).bind fun es =>
    es.mapM identified

/-- Every name fits its length field, the key packages serialise, and so does the whole list. -/
def Listable (cs : List ClientInfo) : Prop :=
  (cs.map fun c => clientSize mls c.listed).sum < 2 ^ 32 ∧
    ∀ c ∈ cs, (utf8 (fromUtf8Lossy c.clientName)).length < 2 ^ 16 ∧
      (ClientKeyPackages.write mls ws c.keyPackages).isSome

end

variable {mls : Openmls} {ws : Writers} {srv : Service} {s : DsData}

lemma isSome_writeClients {cs : List ClientInfo} :
    (writeClients mls ws cs).isSome ↔ Listable mls ws cs := by
  simp [writeClients, Writer.vec, writeClient, writeFields, Writer.byteVec, Listable,
    ClientInfo.listed, Function.comp_def]

lemma Writers.Fits.fields (h : ws.Fits mls) (name : Bytes) (ks : ClientKeyPackages) :
    Written (ClientInfo.read mls) (2 + name.length + (4 + (ks.map (entrySize mls)).sum))
      (writeFields mls ws name ks) (name, ks) := by
  have hks : RoundTrips (ClientKeyPackages.read mls) (fun ks => 4 + (ks.map (entrySize mls)).sum)
      (ClientKeyPackages.write mls ws) :=
    RoundTrips.vec (.uint 4)
      (fun e => (RoundTrips.byteVec .u8 e.1).both ((h.keyPackage e.2).map (Prod.mk e.1)))
      fun e => by omega
  exact (RoundTrips.byteVec (.uint 2) name).both ((hks ks).map (Prod.mk name))

lemma Writers.Fits.client (h : ws.Fits mls) :
    RoundTrips (readClient mls) (clientSize mls) (writeClient mls ws) := by
  intro e
  have hlossy := (h.fields (utf8 e.1) e.2).map fun e => (fromUtf8Lossy e.1, e.2)
  rwa [fromUtf8Lossy_utf8] at hlossy

/-! ## Where the clients are stored -/

/-- The identity of a client is that of its first key package. -/
def ClientInfo.Identifies (c : ClientInfo) (k : Bytes) : Prop :=
  c.id = k ∧ ∃ e ∈ c.keyPackages.head?, e.2.identity = some k

/-- Every client is stored under its identity. -/
def Stored (s : DsData) : Prop := ∀ k c, s.clients k = some c → c.Identifies k

variable {c : ClientInfo} {k : Bytes}

lemma ClientInfo.Identifies.published (h : c.Identifies k) (ks : ClientKeyPackages) :
    ({ c with keyPackages := c.keyPackages ++ ks } : ClientInfo).Identifies k := by
  obtain ⟨hid, e, he, hidentity⟩ := h
  exact ⟨hid, e, by rw [head?_append, he]; rfl, hidentity⟩

lemma identifies_clientInfo {body : Payload} {info : ClientInfo}
    (h : clientInfo srv body = some info) : info.Identifies info.id := by
  obtain ⟨⟨name, ks⟩, -, hnew⟩ := bind_eq_some_iff.mp h
  cases ks with
  | nil => cases hnew
  | cons e ks =>
    obtain ⟨id, hid, rfl⟩ := map_eq_some_iff.mp hnew
    exact ⟨rfl, e, rfl, hid⟩

lemma Stored.setClient {id : Bytes} (h : Stored s) (hc : c.Identifies id) :
    Stored (s.setClient id c) := by
  intro k d hd
  by_cases hk : k = id
  · obtain rfl : c = d := by simpa [DsData.setClient, hk] using hd
    exact hk ▸ hc
  · exact h k d (by simpa [DsData.setClient, hk] using hd)

/-- **A step** registers a client under its identity, or keeps its first key packages. -/
lemma Stored.next (h : Stored s) (r : Request) : Stored ((server srv).next s r) := by
  have heffect := effect_next srv s r
  generalize (server srv).next s r = s' at heffect ⊢
  cases heffect with
  | same hs => exact fun k c hc => h k c (hs.clients ▸ hc)
  | registered hinfo => exact h.setClient (identifies_clientInfo hinfo)
  | reset => exact fun k c hc => nomatch hc
  | published hc => exact h.setClient ((h _ _ hc).published _)
  | consumed hc | welcomed _ hc | fetched hc =>
    have hsame := h _ _ hc
    exact h.setClient hsame
  | asked hs => exact fun k c hc => h k c (by rwa [hs.clients, s.takeGroupInfo_clients] at hc)
  | posted => exact h
  | queued =>
    rw [pushAll_eq]
    intro k c' hc'
    obtain ⟨c, hc, rfl⟩ := map_eq_some_iff.mp hc'
    exact h k c hc

lemma identified_listed (h : c.Identifies k) :
    identified c.listed = some (fromUtf8Lossy c.clientName, k, c.keyPackages) := by
  obtain ⟨-, e, he, hidentity⟩ := h
  cases hks : c.keyPackages with
  | nil => simp [hks] at he
  | cons e' ks =>
    obtain rfl : e' = e := by simpa [hks] using he
    simp [identified, ClientInfo.listed, hks, ClientInfo.new, hidentity]

/-- What the list should say of a client. -/
def DsData.entry (s : DsData) (k : Bytes) : Option (String × Bytes × ClientKeyPackages) :=
  (s.clients k).map fun c => (fromUtf8Lossy c.clientName, k, c.keyPackages)

lemma Stored.mapM_identified (h : Stored s) (order : List Bytes) :
    ((order.filterMap s.clients).map ClientInfo.listed).mapM identified =
      some (order.filterMap s.entry) := by
  induction order with
  | nil => rfl
  | cons k order ih =>
    cases hc : s.clients k with
    | none => simpa [hc, DsData.entry] using ih
    | some c => simp [hc, DsData.entry, identified_listed (h k c hc), ih]

/-- **Identities are stable.**  After every history each client is stored under the identity that is
    read from its entry.  The list is sent and read as the stored names, identities and key packages
    if and only if the mutex is not poisoned and the clients are listable. -/
theorem clients_listed_iff (hws : ws.Fits srv.toOpenmls)
    (hsrv : ∀ cs, srv.clientsSerialize cs = (writeClients srv.toOpenmls ws cs).isSome)
    (groupInfoMutex : Bool) (rs : List Request) :
    let s := (server srv).final (.start groupInfoMutex) rs
    (∀ k c, s.clients k = some c → c.id = k ∧
      identified c.listed = some (fromUtf8Lossy c.clientName, k, c.keyPackages) ∧
      ∀ w rest, writeClient srv.toOpenmls ws c.listed = some w →
        (readClient srv.toOpenmls).run (w ++ rest) = some (c.listed, rest)) ∧
    ∀ order,
      ((∃ cs w, (server srv).answer s (.listClients order) = .ok (.clients cs) ∧
        writeClients srv.toOpenmls ws cs = some w ∧
        decodeClients srv.toOpenmls w = some (order.filterMap s.entry)) ↔
      s.poisoned .clients = false ∧
        Listable srv.toOpenmls ws (order.filterMap s.clients)) := by
  intro s
  have hs : Stored s :=
    (Transducer.invariant (I := Stored) (A := fun _ _ => True) (fun s r h _ => h.next r)
      (by simp [Stored, DsData.start]) fun _ _ => trivial).1
  refine ⟨fun k c hc => ⟨(hs k c hc).1, identified_listed (hs k c hc),
    fun w rest hw => (hws.client _ w hw).1 rest trivial⟩, fun order => ?_⟩
  have hanswer : (server srv).answer s (.listClients order) =
      (s.lock .clients fun s => (s, if srv.clientsSerialize (order.filterMap s.clients)
        then .ok (.clients (order.filterMap s.clients)) else .internalServerError)).2 := rfl
  rw [hanswer, ← isSome_writeClients, ← hsrv]
  cases hp : s.poisoned .clients with
  | true => simp [DsData.lock, hp]
  | false =>
    cases hser : srv.clientsSerialize (order.filterMap s.clients) with
    | false => simp [DsData.lock, hp, hser]
    | true =>
      obtain ⟨w, hw⟩ := isSome_iff_exists.mp ((hsrv _).symm.trans hser)
      have hread : (Reader.vecU32 (readClient srv.toOpenmls) (clientSize srv.toOpenmls)).run
          (w ++ []) = some ((order.filterMap s.clients).map ClientInfo.listed, []) :=
        (RoundTrips.vec (.uint 4) hws.client (fun e => by simp [clientSize]) _ w hw).1 [] trivial
      have hdecode : decodeClients srv.toOpenmls w = some (order.filterMap s.entry) := by
        rw [append_nil] at hread
        rw [decodeClients, tlsDeserialize, hread]
        exact hs.mapM_identified order
      simpa [DsData.lock, hp, hser, hw] using hdecode

/-! ## A name that is too long -/

/-- The small service that answers as far as its list can be written. -/
def listingService : Service := { plainService with
  clientsSerialize := fun cs => (writeClients plainService.toOpenmls smallWriters cs).isSome }

theorem clients_listed_iff_one :
    let s := (server listingService).final (.start false)
      [.registerClient (some (registerBytes 65))]
    ∃ cs w, (server listingService).answer s (.listClients [[65]]) = .ok (.clients cs) ∧
      writeClients listingService.toOpenmls smallWriters cs = some w ∧
      decodeClients listingService.toOpenmls w = some [("A", [65], [([], keyPackageOfA)])] := by
  intro s
  have hentry : [[65]].filterMap s.entry = [("A", [65], [([], keyPackageOfA)])] := by
    decide +kernel
  have hlistable : Listable listingService.toOpenmls smallWriters ([[65]].filterMap s.clients) := by
    unfold Listable
    decide +kernel
  rw [← hentry]
  have hfits : smallWriters.Fits listingService.toOpenmls := smallWriters_fits
  exact ((clients_listed_iff hfits (fun _ => rfl) false _).2 [[65]]).mpr
    ⟨by decide +kernel, hlistable⟩

/-- `A` registers with this name, and from then on the list is refused. -/
def StopsList (name : Bytes) : Prop := ∃ body c,
  (server listingService).step (.start false) (.registerClient (some body)) =
    ((DsData.start false).setClient [65] c, .ok (.greeting name)) ∧ c.clientName = name ∧
  (server listingService).answer ((DsData.start false).setClient [65] c)
    (.listClients [[65]]) = .internalServerError

lemma stopsList {name : Bytes} (hname : name.length < 2 ^ 16)
    (hlong : 2 ^ 16 ≤ (utf8 (fromUtf8Lossy name)).length) : StopsList name := by
  have hks : (ClientKeyPackages.write listingService.toOpenmls smallWriters
    [([], keyPackageOfA)]).isSome := by decide +kernel
  have hsome : (writeFields listingService.toOpenmls smallWriters name
      [([], keyPackageOfA)]).isSome := by
    simpa [writeFields, Writer.byteVec, hks] using hname
  obtain ⟨w, hw⟩ := isSome_iff_exists.mp hsome
  have hread := (smallWriters_fits.fields _ _ w hw).1 [] trivial
  rw [append_nil] at hread
  have hnot : listingService.clientsSerialize
      [⟨name, [([], keyPackageOfA)], ∅, [65], [], []⟩] = false := by
    refine Bool.eq_false_iff.mpr fun h => ?_
    exact absurd ((isSome_writeClients.mp h).2 _ (mem_singleton_self _)).1 hlong.not_gt
  refine ⟨w, ⟨name, [([], keyPackageOfA)], ∅, [65], [], []⟩, ?_, rfl, ?_⟩
  · change registerClient listingService (.start false) (some w) = _
    simp only [registerClient, tlsDeserialize]
    rw [show (ClientInfo.read listingService.toOpenmls).run w = _ from hread]
    rfl
  · change (listClients listingService _ _).2 = _
    simp [listClients, DsData.lock, DsData.setClient, DsData.start, hnot]

/-- **A client that cannot be listed.**  Its name of 21846 invalid bytes is stored with 65538. -/
theorem long_name_not_listed : StopsList (List.replicate 21846 255) := by
  refine stopsList ?_ ?_
  · rw [length_replicate]
    decide
  · rw [length_fromUtf8Lossy_replicate]
    decide

/-! ## Declared lengths

`tls_serialized_len` and `tls_serialize` are two traversals of each type.  The second one also
returns how many bytes it wrote. -/

/-- What is returned and what is written. -/
abbrev Counted := Option (ℕ × Bytes)

/-- The types of the codec and of the MLS library return the length of what they write. -/
def codec (o : Option Bytes) : Counted := o.map fun w => (w.length, w)

/-- `written +=` for the next field. -/
def Counted.next (u v : Counted) : Counted :=
  map₂ (fun x y => (x.1 + y.1, x.2 ++ y.2)) u v

section

variable (mls : Openmls) (ws : Writers)

def ClientInfo.tlsSerialize (e : String × ClientKeyPackages) : Counted :=
  (codec (Writer.byteVec (Writer.uint 2) (utf8 e.1))).next
    (codec (ClientKeyPackages.write mls ws e.2))

def GroupMessage.tlsSerialize (m : GroupMessage) : Counted :=
  ((((codec (ws.mlsMessage m.msg)).next (codec (Writer.name m.sender))).next
    (codec (Writer.option ws.ratchetTree m.ratchetTree))).next
    (codec (Writer.vec (Writer.uint 4) Writer.name byteVecU32Size m.recipients))).next
    (codec (Writer.option (Writer.vec Writer.vlLength Writer.name byteVecU32Size) m.activeMembers))

def GroupInfoAndTree.tlsSerialize (g : GroupInfoAndTree) : Counted :=
  (codec (ws.groupInfo g.groupInfo)).next (codec (Writer.option ws.ratchetTree g.ratchetTree))

/-- Whatever is written has `n` bytes. -/
def Sized (n : ℕ) (o : Option Bytes) : Prop := ∀ w ∈ o, w.length = n

/-- The types of the MLS library have the length that they declare. -/
structure Writers.Sized : Prop where
  mlsMessage : ∀ m, Ds.Sized (m.size mls) (ws.mlsMessage m)
  keyPackage : ∀ k, Ds.Sized (mls.keyPackageSize k) (ws.keyPackage k)
  ratchetTree : ∀ t, Ds.Sized (mls.ratchetTreeSize t) (ws.ratchetTree t)
  groupInfo : ∀ g, Ds.Sized (mls.groupInfoSize g) (ws.groupInfo g)

end

/-- `n` is returned, and as many bytes are written. -/
def Exact (n : ℕ) (o : Counted) : Prop := ∀ x ∈ o, x.1 = n ∧ x.2.length = n

section

variable {α : Type} {read : Reader α} {a : α} {u v : Option Bytes} {m n : ℕ} {c d : Counted}

lemma Written.sized (h : Written read n u a) : Sized n u := fun w hw => (h w hw).2

lemma Sized.both (hu : Sized m u) (hv : Sized n v) : Sized (m + n) (Writer.both u v) := by
  intro w hw
  obtain ⟨x, y, hx, hy, rfl⟩ := mem_map₂_iff.mp hw
  rw [length_append, hu x hx, hv y hy]

lemma Sized.option {size : α → ℕ} {write : Writer α} (h : ∀ a, Sized (size a) (write a))
    (o : Option α) : Sized (1 + (o.map size).getD 0) (Writer.option write o) := by
  cases o with
  | none => simp [Sized, Writer.option]
  | some a => exact Sized.both (Written.u8 1).sized (h a)

lemma Sized.elements {size : α → ℕ} {write : Writer α} (h : ∀ a, Sized (size a) (write a))
    (as : List α) : Sized (as.map size).sum (Writer.elements write as) := by
  induction as with
  | nil => simp [Sized, Writer.elements]
  | cons a as ih => exact (h a).both ih

lemma Sized.exact (h : Sized n u) : Exact n (codec u) := by
  intro x hx
  obtain ⟨w, hw, rfl⟩ := mem_map.mp hx
  exact ⟨h w hw, h w hw⟩

lemma Exact.next (hc : Exact m c) (hd : Exact n d) : Exact (m + n) (c.next d) := by
  intro z hz
  obtain ⟨x, y, hx, hy, rfl⟩ := mem_map₂_iff.mp hz
  exact ⟨congrArg₂ (· + ·) (hc x hx).1 (hd y hy).1, by simp [(hc x hx).2, (hd y hy).2]⟩

end

lemma Writers.Sized.groupMessage (h : ws.Sized mls) (m : GroupMessage) :
    Exact (m.size mls) (m.tlsSerialize ws) :=
  have hname (bs : Bytes) : Ds.Sized (byteVecU32Size bs) (Writer.name bs) :=
    (RoundTrips.name bs).sized
  have hmembers (l : List Bytes) := ((RoundTrips.vlLength _).sized.both (.elements hname l))
  ((((h.mlsMessage _).exact.next (hname _).exact).next (Sized.option h.ratchetTree _).exact).next
    ((RoundTrips.uint 4 _).sized.both (.elements hname _)).exact).next
    (Sized.option hmembers _).exact

end EmulatedMls.Ds
