import EmulatedMls.Ds.Survival
import EmulatedMls.Lib.Machine

/-!
# The way of a Welcome

An inviter consumes a key package of each client that it adds, and then sends its Welcome once for
each of them.  The service finds the client by the hash that the consumption has reserved, and
takes the reservation.

**One reservation for all.**  A consumed key package stays in the list, so the next inviter gets
the same one, and the reservations of a client are a set.  Two inviters that hold the same key
package at one time share one reservation, and the Welcome of the second one finds none.  They
may also serve each other's reservations.  `welcomes_delivered` assumes that a key package is only
consumed when the inviters that hold it have sent all their Welcomes.

**Hashes.**  The hash that is stored with a key package is the one by which a Welcome names it
(`hashRef`), and the key packages of different clients have different hashes.
-/

namespace EmulatedMls.Ds

open Function List

/-! ## What the requests read and change -/

variable {c' : ClientInfo}

namespace DsData

def reserved (s : DsData) (id : Bytes) : Finset Bytes :=
  (s.clients id).elim ∅ (·.reservedKeyPkgHash)

def welcomes (s : DsData) (id : Bytes) : List GroupMessage :=
  (s.clients id).elim [] (·.welcomeQueue)

/-- The key package that is handed out for a client, with its hash. -/
def lastKeyPackage (s : DsData) (id : Bytes) : Option (Bytes × KeyPackageIn) :=
  (s.clients id).bind (·.keyPackages.getLast?)

variable {s s' : DsData}

lemma SameMaps.reserved (h : s.SameMaps s') : s'.reserved = s.reserved := by
  funext id
  simp [DsData.reserved, h.clients]

lemma SameMaps.welcomes (h : s.SameMaps s') : s'.welcomes = s.welcomes := by
  funext id
  simp [DsData.welcomes, h.clients]

lemma SameMaps.lastKeyPackage (h : s.SameMaps s') : s'.lastKeyPackage = s.lastKeyPackage := by
  funext id
  simp [DsData.lastKeyPackage, h.clients]

lemma reserved_setClient (s : DsData) (id : Bytes) (c : ClientInfo) :
    (s.setClient id c).reserved = Function.update s.reserved id c.reservedKeyPkgHash :=
  comp_update (fun o : Option ClientInfo => o.elim ∅ (·.reservedKeyPkgHash)) ..

lemma welcomes_setClient (s : DsData) (id : Bytes) (c : ClientInfo) :
    (s.setClient id c).welcomes = Function.update s.welcomes id c.welcomeQueue :=
  comp_update (fun o : Option ClientInfo => o.elim [] (·.welcomeQueue)) ..

lemma lastKeyPackage_setClient {id : Bytes} {c : ClientInfo} (hc : s.clients id = some c)
    (h : c'.keyPackages = c.keyPackages) :
    (s.setClient id c').lastKeyPackage = s.lastKeyPackage := by
  refine (comp_update (·.bind (·.keyPackages.getLast?)) s.clients id (some c')).trans
    (update_eq_self_iff.mpr ?_)
  simp [hc, h]

end DsData

variable (srv : Service)

/-- It changes nothing here, or reserves the hash of what is handed out. -/
lemma consumeKeyPackage_reserves (s : DsData) (path : String) :
    (consumeKeyPackage srv s path).1.welcomes = s.welcomes ∧
    (consumeKeyPackage srv s path).1.lastKeyPackage = s.lastKeyPackage ∧
    (((consumeKeyPackage srv s path).1.reserved = s.reserved ∧
      ∀ b, (consumeKeyPackage srv s path).2 ≠ .ok b) ∨
    ∃ id hash kp, srv.decodeConfig path = some id ∧ s.lastKeyPackage id = some (hash, kp) ∧
      (consumeKeyPackage srv s path).1.reserved =
        Function.update s.reserved id (insert hash (s.reserved id)) ∧
      ∀ b, (consumeKeyPackage srv s path).2 = .ok b → b = .keyPackage kp) := by
  rcases consumeKeyPackage_cases srv s path with ⟨hs, hnot⟩ | ⟨id, c, kp, c', hid, hc, hkp, h⟩
  · exact ⟨hs.welcomes, hs.lastKeyPackage, .inl ⟨hs.reserved, hnot⟩⟩
  · obtain ⟨hash, hlast, rfl⟩ := ClientInfo.consumeKp_eq_some hkp
    rw [h]
    refine ⟨?_, DsData.lastKeyPackage_setClient hc rfl, .inr ⟨id, hash, kp, hid, ?_, ?_, ?_⟩⟩
    · rw [DsData.welcomes_setClient]
      simp [DsData.welcomes, hc, update_eq_self_iff]
    · simp [DsData.lastKeyPackage, hc, hlast]
    · rw [DsData.reserved_setClient]
      simp [DsData.reserved, hc]
    · intro b hb
      split_ifs at hb
      exact (Answer.ok.inj hb).symm

variable {order : List Bytes} {c : ClientInfo} {hash id : Bytes}
  {clients : Bytes → Option ClientInfo}

section

variable (hid : id ∈ order) (hc : clients id = some c) (hres : hash ∈ c.reservedKeyPkgHash)
include hid hc hres

lemma reservedBy_ne_none : reservedBy clients hash order ≠ none := by
  induction order with
  | nil => simp at hid
  | cons id' order ih =>
    cases hc' : clients id' with
    | none =>
      rcases mem_cons.mp hid with rfl | hid
      · simp [hc] at hc'
      · simpa [reservedBy, hc'] using ih hid
    | some c' =>
      by_cases hmem : hash ∈ c'.reservedKeyPkgHash
      · simp [reservedBy, hc', hmem]
      · rcases mem_cons.mp hid with rfl | hid
        · rw [hc, Option.some.injEq] at hc'
          exact absurd (hc' ▸ hres) hmem
        · simpa [reservedBy, hc', hmem] using ih hid

lemma welcomed_ne_none {secrets : List EncryptedGroupSecrets}
    (hsecret : hash ∈ secrets.map (·.newMember)) : welcomed clients order secrets ≠ none := by
  induction secrets with
  | nil => simp at hsecret
  | cons secret secrets ih =>
    cases hr : reservedBy clients secret.newMember order with
    | some found => simp [welcomed, hr]
    | none =>
      rcases mem_cons.mp hsecret with rfl | hsecret
      · exact absurd hr (reservedBy_ne_none hid hc hres)
      · simpa [welcomed, hr] using ih hsecret

end

variable {s : DsData}

/-- `send_welcome` with a Welcome of which some hash is reserved takes one reservation. -/
lemma sendWelcome_takes {body : Payload} {m : GroupMessage} {w : Welcome}
    (hm : groupMessage srv body = some m) (hw : m.msg.intoWelcome = some w)
    (hp : s.poisoned .clients = false) (hid : id ∈ order) (hres : hash ∈ s.reserved id)
    (hsecret : hash ∈ w.secrets.map (·.newMember)) :
    ∃ id' hash', hash' ∈ s.reserved id' ∧ hash' ∈ w.secrets.map (·.newMember) ∧
      (sendWelcome srv s body order).1.reserved =
        Function.update s.reserved id' ((s.reserved id').erase hash') ∧
      (sendWelcome srv s body order).1.welcomes =
        Function.update s.welcomes id' (s.welcomes id' ++ [m]) ∧
      (sendWelcome srv s body order).1.lastKeyPackage = s.lastKeyPackage := by
  have hclient : ∃ c, s.clients id = some c ∧ hash ∈ c.reservedKeyPkgHash := by
    cases hc : s.clients id with
    | none => simp [DsData.reserved, hc] at hres
    | some c => exact ⟨c, rfl, by simpa [DsData.reserved, hc] using hres⟩
  obtain ⟨c0, hc0, hres0⟩ := hclient
  obtain ⟨⟨hash', id', c⟩, hfound⟩ := Option.ne_none_iff_exists'.mp
    (welcomed_ne_none hid hc0 hres0 hsecret)
  have hsend : sendWelcome srv s body order =
      (s.setClient id' (c.takeWelcome hash' m), .ok .empty) := by
    obtain ⟨bytes, rfl, hbytes⟩ := Option.bind_eq_some_iff.mp hm
    simp [sendWelcome, hbytes, hw, DsData.lock, hp, hfound]
  obtain ⟨hc, hmem, hin⟩ := welcomed_eq_some hfound
  rw [hsend]
  refine ⟨id', hash', by simpa [DsData.reserved, hc] using hmem, hin, ?_, ?_,
    DsData.lastKeyPackage_setClient hc rfl⟩
  · rw [DsData.reserved_setClient]
    simp [DsData.reserved, hc, ClientInfo.takeWelcome]
  · rw [DsData.welcomes_setClient]
    simp [DsData.welcomes, hc, ClientInfo.takeWelcome]

/-! ## Inviters -/

/-- The service, and what each inviter has consumed and sent. -/
structure Routing (ι : Type) where
  data : DsData
  consumed : ι → List (Bytes × Bytes)
  sent : ι → ℕ

/-- The requests of the inviters. -/
inductive Routing.Event (ι : Type) where
  | consume (i : ι) (path : String)
  | welcome (i : ι) (body : Payload) (order : List Bytes)

section

variable {ι : Type} (hashRef : KeyPackageIn → Bytes) (W : ι → GroupMessage)

def Routing.Done (s : Routing ι) (i : ι) : Prop := s.sent i = (s.consumed i).length

/-- A request of an inviter and its entry in the books. -/
def Routing.step [DecidableEq ι] (s : Routing ι) : Routing.Event ι → Routing ι
  | .consume i path =>
    let r := consumeKeyPackage srv s.data path
    match srv.decodeConfig path, r.2 with
    | some id, .ok (.keyPackage kp) =>
      { s with
        data := r.1
        consumed := Function.update s.consumed i (s.consumed i ++ [(id, hashRef kp)]) }
    | _, _ => { s with data := r.1 }
  | .welcome i body order =>
    { s with
      data := (sendWelcome srv s.data body order).1
      sent := Function.update s.sent i (s.sent i + 1) }

/-- The clients have published key packages with their hashes, and nothing is reserved yet. -/
structure Routing.Published (s : Routing ι) : Prop where
  unpoisoned : s.data.poisoned .clients = false
  hashes : ∀ id hash kp, s.data.lastKeyPackage id = some (hash, kp) → hash = hashRef kp
  distinct : ∀ id id' hash kp kp', s.data.lastKeyPackage id = some (hash, kp) →
    s.data.lastKeyPackage id' = some (hash, kp') → id = id'
  unreserved : ∀ id, s.data.reserved id = ∅
  unsent : ∀ i id, W i ∉ s.data.welcomes id
  empty : ∀ i, s.consumed i = [] ∧ s.sent i = 0

def invitations [DecidableEq ι] : Machine (Routing ι) (Routing.Event ι) where
  init := Routing.Published hashRef W
  step s e := some (s.step srv hashRef e)

/-- An inviter consumes before it sends its one Welcome for what it has consumed. -/
def Inviting (s : Routing ι) : Routing.Event ι → Prop
  | .consume i _ => s.sent i = 0
  | .welcome i body order =>
    groupMessage srv body = some (W i) ∧
    (∃ w, (W i).msg.intoWelcome = some w ∧
      ∀ hash, hash ∈ w.secrets.map (·.newMember) ↔ hash ∈ (s.consumed i).map (·.2)) ∧
    s.sent i < (s.consumed i).length ∧ ∀ id, registered s.data.clients id = true → id ∈ order

/-- The condition: a key package is only consumed when the inviters that hold it are done. -/
def Separate (s : Routing ι) : Routing.Event ι → Prop
  | .consume _ path => ∀ id ∈ srv.decodeConfig path, ∀ e ∈ s.data.lastKeyPackage id,
    ∀ j, e.1 ∈ (s.consumed j).map (·.2) → s.Done j
  | .welcome _ _ _ => True

structure Routed (s : Routing ι) : Prop where
  unpoisoned : s.data.poisoned .clients = false
  hashes : ∀ id hash kp, s.data.lastKeyPackage id = some (hash, kp) → hash = hashRef kp
  distinct : ∀ id id' hash kp kp', s.data.lastKeyPackage id = some (hash, kp) →
    s.data.lastKeyPackage id' = some (hash, kp') → id = id'
  /-- only the key package that is handed out is ever reserved -/
  reserved : ∀ id hash, hash ∈ s.data.reserved id → ∃ kp, s.data.lastKeyPackage id = some (hash, kp)
  entry : ∀ i, ∀ e ∈ s.consumed i, ∃ kp, s.data.lastKeyPackage e.1 = some (e.2, kp)
  nodup : ∀ i, (s.consumed i).Nodup
  unsent : ∀ i, s.sent i = 0 → ∀ id, W i ∉ s.data.welcomes id
  counted : ∀ i, s.sent i = (s.consumed i).countP fun e => W i ∈ s.data.welcomes e.1
  once : ∀ i id, (s.data.welcomes id).count (W i) ≤ 1
  /-- as long as an inviter is not done, its clients without a Welcome have a reservation -/
  opened : ∀ i, ¬ s.Done i → ∀ e ∈ s.consumed i,
    (e.2 ∈ s.data.reserved e.1 ↔ W i ∉ s.data.welcomes e.1)
  disjoint : ∀ i j, ¬ s.Done i → ¬ s.Done j → ∀ e ∈ s.consumed i, e ∈ s.consumed j → i = j

variable {hashRef W}

variable {s : Routing ι}

lemma Routing.Published.routed (h : s.Published hashRef W) : Routed hashRef W s where
  unpoisoned := h.unpoisoned
  hashes := h.hashes
  distinct := h.distinct
  reserved := by simp [h.unreserved]
  entry := by simp [h.empty]
  nodup := by simp [h.empty]
  unsent := fun i _ => h.unsent i
  counted := by simp [h.empty]
  once := fun i id => by simp [count_eq_zero_of_not_mem (h.unsent i id)]
  opened := by simp [h.empty]
  disjoint := by simp [h.empty]

variable {e : Bytes × Bytes} {i : ι}

lemma Routed.entry_eq (h : Routed hashRef W s) {j : ι} {e' : Bytes × Bytes}
    (he : e ∈ s.consumed i) (he' : e' ∈ s.consumed j) (hid : e.1 = e'.1) : e = e' := by
  obtain ⟨kp, hkp⟩ := h.entry i e he
  obtain ⟨kp', hkp'⟩ := h.entry j e' he'
  rw [hid, hkp', Option.some.injEq, Prod.mk.injEq] at hkp
  exact Prod.ext hid hkp.1.symm

lemma Routing.not_done (hsent : s.sent i = 0) (he : e ∈ s.consumed i) : ¬ s.Done i := by
  intro hdone
  have := length_pos_of_mem he
  unfold Routing.Done at hdone
  omega

variable {data : DsData}

/-- Reservations may be added for key packages that are handed out and that nobody waits for. -/
lemma Routed.of_reserved (h : Routed hashRef W s) (hp : data.poisoned = s.data.poisoned)
    (hw : data.welcomes = s.data.welcomes) (hl : data.lastKeyPackage = s.data.lastKeyPackage)
    (hreserved : ∀ id hash, hash ∈ data.reserved id → hash ∈ s.data.reserved id ∨
      ∃ kp, s.data.lastKeyPackage id = some (hash, kp))
    (hopened : ∀ i, ¬ s.Done i → ∀ e ∈ s.consumed i,
      (e.2 ∈ data.reserved e.1 ↔ e.2 ∈ s.data.reserved e.1)) :
    Routed hashRef W { s with data } where
  unpoisoned := by simpa [hp] using h.unpoisoned
  hashes := by simpa [hl] using h.hashes
  distinct := by simpa [hl] using h.distinct
  reserved := fun id hash hmem =>
    hl ▸ (hreserved id hash hmem).elim (h.reserved id hash) fun hk => hk
  entry := by simpa [hl] using h.entry
  nodup := h.nodup
  unsent := by simpa [hw] using h.unsent
  counted := by simpa [hw] using h.counted
  once := by simpa [hw] using h.once
  opened := fun i hi e he => hw ▸ (hopened i hi e he).trans (h.opened i hi e he)
  disjoint := h.disjoint

variable {kp : KeyPackageIn} {id hash : Bytes}

section

variable (h : Routed hashRef W s) (hlast : s.data.lastKeyPackage id = some (hash, kp))
include h hlast

lemma Routed.reserve (hsep : ∀ j, hash ∈ (s.consumed j).map (·.2) → s.Done j)
    (hp : data.poisoned = s.data.poisoned) (hw : data.welcomes = s.data.welcomes)
    (hl : data.lastKeyPackage = s.data.lastKeyPackage)
    (hr : data.reserved = Function.update s.data.reserved id (insert hash (s.data.reserved id))) :
    Routed hashRef W { s with data } := by
  refine h.of_reserved hp hw hl (fun id' hash' hmem => ?_) fun i hi e he => ?_
  · rw [hr] at hmem
    by_cases hid : id' = id
    · subst hid
      rw [update_self, Finset.mem_insert] at hmem
      exact hmem.symm.imp_right fun hnew => ⟨kp, by rw [hlast, hnew]⟩
    · exact .inl (by rwa [update_of_ne hid] at hmem)
  · rw [hr]
    by_cases hid : e.1 = id
    · -- an entry for this client has this hash, and its inviter would be done
      obtain ⟨kp', hkp'⟩ := h.entry i e he
      rw [hid, hlast, Option.some.injEq, Prod.mk.injEq] at hkp'
      exact absurd (hsep i (mem_map.mpr ⟨e, he, hkp'.1.symm⟩)) hi
    · rw [update_of_ne hid]

lemma Routed.enter [DecidableEq ι] (hres : hash ∈ s.data.reserved id)
    (hsent : s.sent i = 0) (hsep : ∀ j, hash ∈ (s.consumed j).map (·.2) → s.Done j) :
    Routed hashRef W
      { s with consumed := Function.update s.consumed i (s.consumed i ++ [(id, hash)]) } := by
  have hnew (j : ι) (hj : (id, hash) ∈ s.consumed j) : s.Done j :=
    hsep j (mem_map.mpr ⟨_, hj, rfl⟩)
  have hnot : (id, hash) ∉ s.consumed i := fun hmem =>
    Routing.not_done hsent hmem (hnew i hmem)
  have hw (id' : Bytes) : W i ∉ s.data.welcomes id' := h.unsent i hsent id'
  have hsplit {j : ι} {e : Bytes × Bytes}
      (he : e ∈ Function.update s.consumed i (s.consumed i ++ [(id, hash)]) j) :
      e ∈ s.consumed j ∨ j = i ∧ e = (id, hash) := by
    by_cases hj : j = i
    · simpa [hj] using he
    · exact .inl (by simpa [hj] using he)
  have hkeep {j : ι} {e : Bytes × Bytes} (he : e ∈ s.consumed j) (hj : ¬ Routing.Done
      { s with consumed := Function.update s.consumed i (s.consumed i ++ [(id, hash)]) } j) :
      ¬ s.Done j := by
    by_cases hji : j = i
    · exact Routing.not_done (hji ▸ hsent) he
    · simpa [Routing.Done, hji] using hj
  exact {
    unpoisoned := h.unpoisoned
    hashes := h.hashes
    distinct := h.distinct
    reserved := h.reserved
    unsent := h.unsent
    once := h.once
    entry := by
      intro j e he
      rcases hsplit he with he | ⟨-, rfl⟩
      · exact h.entry j e he
      · exact ⟨kp, hlast⟩
    nodup := by
      intro j
      by_cases hj : j = i
      · subst hj
        show (Function.update s.consumed j (s.consumed j ++ [(id, hash)]) j).Nodup
        rw [update_self, ← concat_eq_append]
        exact (h.nodup j).concat hnot
      · simpa [hj] using h.nodup j
    counted := by
      intro j
      by_cases hj : j = i
      · subst hj
        rw [hsent, eq_comm, countP_eq_zero]
        intro e _
        simpa using hw e.1
      · simpa [hj] using h.counted j
    opened := by
      intro j hj e he
      rcases hsplit he with he | ⟨rfl, rfl⟩
      · exact h.opened j (hkeep he hj) e he
      · exact iff_of_true hres (hw id)
    disjoint := by
      -- another inviter with the new entry would be done
      intro j k hj hk e he he'
      rcases hsplit he with hold | ⟨hji, rfl⟩ <;> rcases hsplit he' with hold' | ⟨hki, heq⟩
      · exact h.disjoint j k (hkeep hold hj) (hkeep hold' hk) e hold hold'
      · exact absurd (hnew j (heq ▸ hold)) (hkeep hold hj)
      · exact absurd (hnew k hold') (hkeep hold' hk)
      · exact hji.trans hki.symm }

end

omit srv in
lemma countP_succ {α : Type} [DecidableEq α] {l : List α} (hl : l.Nodup) {a : α} (ha : a ∈ l)
    {p q : α → Bool} (hpa : p a = false) (hqa : q a = true) (hpq : ∀ b ∈ l, b ≠ a → q b = p b) :
    l.countP q = l.countP p + 1 := by
  have hperm := perm_cons_erase ha
  rw [hperm.countP_eq, hperm.countP_eq, countP_cons, countP_cons, hpa, hqa]
  have hrest : (l.erase a).countP q = (l.erase a).countP p := by
    refine countP_congr fun b hb => ?_
    obtain ⟨hne, hb⟩ := (hl.mem_erase_iff).mp hb
    rw [hpq b hb hne]
  simp [hrest]

lemma Routed.deliver [DecidableEq ι] (hW : Function.Injective W) (h : Routed hashRef W s)
    (hi : ¬ s.Done i) (he : (id, hash) ∈ s.consumed i) (hres : hash ∈ s.data.reserved id)
    (hp : data.poisoned = s.data.poisoned) (hl : data.lastKeyPackage = s.data.lastKeyPackage)
    (hr : data.reserved = Function.update s.data.reserved id ((s.data.reserved id).erase hash))
    (hw : data.welcomes = Function.update s.data.welcomes id (s.data.welcomes id ++ [W i])) :
    Routed hashRef W { s with data, sent := Function.update s.sent i (s.sent i + 1) } := by
  have hnot : W i ∉ s.data.welcomes id := (h.opened i hi _ he).mp hres
  have hother {j : ι} {e : Bytes × Bytes} (hj : e ∈ s.consumed j) (hne : e ≠ (id, hash)) :
      e.1 ≠ id := fun hid => hne (h.entry_eq hj he hid)
  have hmem {j : ι} (hj : j ≠ i) (id' : Bytes) :
      W j ∈ data.welcomes id' ↔ W j ∈ s.data.welcomes id' := by
    have : W j ≠ W i := fun hji => hj (hW hji)
    by_cases hid : id' = id
    · subst hid
      simp [hw, this]
    · simp [hw, hid]
  have hopen {j : ι} (hj : ¬ Routing.Done
      { s with data, sent := Function.update s.sent i (s.sent i + 1) } j) : ¬ s.Done j := by
    by_cases hji : j = i
    · exact hji ▸ hi
    · simpa [Routing.Done, hji] using hj
  exact {
    unpoisoned := by simpa [hp] using h.unpoisoned
    hashes := by simpa [hl] using h.hashes
    distinct := by simpa [hl] using h.distinct
    reserved := by
      intro id' hash' hmem'
      simp only [hr, hl] at hmem' ⊢
      by_cases hid : id' = id
      · subst hid
        rw [update_self] at hmem'
        exact h.reserved id' hash' (Finset.mem_of_mem_erase hmem')
      · rw [update_of_ne hid] at hmem'
        exact h.reserved id' hash' hmem'
    entry := by simpa [hl] using h.entry
    nodup := h.nodup
    unsent := by
      intro j hj id'
      by_cases hji : j = i
      · subst hji
        simp at hj
      · rw [hmem hji]
        exact h.unsent j (by simpa [hji] using hj) id'
    counted := by
      intro j
      by_cases hji : j = i
      · subst hji
        show Function.update s.sent j (s.sent j + 1) j =
          (s.consumed j).countP fun e => W j ∈ data.welcomes e.1
        rw [update_self, h.counted j]
        refine (countP_succ (h.nodup j) he (by simpa using hnot) (by simp [hw]) ?_).symm
        intro e hej hne
        simp [hw, hother hej hne]
      · simp only [hji, hmem hji, ne_eq, not_false_eq_true, update_of_ne]
        exact h.counted j
    once := by
      intro j id'
      by_cases hid : id' = id
      · subst hid
        have hone := h.once j id'
        by_cases hji : j = i
        · subst hji
          simp [hw, count_eq_zero_of_not_mem hnot]
        · have : W i ≠ W j := fun hij => hji (hW hij).symm
          simpa [hw, this] using hone
      · simpa [hw, hid] using h.once j id'
    opened := by
      intro j hj e hej
      by_cases hne : e = (id, hash)
      · subst hne
        by_cases hji : j = i
        · subst hji
          simp [hr, hw]
        · exact absurd (h.disjoint j i (hopen hj) hi _ hej he) hji
      · simpa [hr, hw, hother hej hne] using h.opened j (hopen hj) e hej
    disjoint := fun j k hj hk => h.disjoint j k (hopen hj) (hopen hk) }

lemma Routed.exists_open (h : Routed hashRef W s) (hi : s.sent i < (s.consumed i).length) :
    ∃ e ∈ s.consumed i, e.2 ∈ s.data.reserved e.1 := by
  by_contra hnone
  have hall : ∀ e ∈ s.consumed i, decide (W i ∈ s.data.welcomes e.1) = true := by
    intro e he
    by_contra hw
    exact hnone ⟨e, he, (h.opened i (by unfold Routing.Done; omega) e he).mpr (by simpa using hw)⟩
  have := h.counted i
  rw [countP_eq_length.mpr hall] at this
  omega

variable [DecidableEq ι]

lemma Routing.step_consume_of_refused {path : String}
    (h : ∀ b, (consumeKeyPackage srv s.data path).2 ≠ .ok b) :
    s.step srv hashRef (.consume i path) =
      { s with data := (consumeKeyPackage srv s.data path).1 } := by
  simp only [Routing.step]
  split
  · next hok => exact absurd hok (h _)
  · rfl

lemma Routed.step (hW : Function.Injective W) (h : Routed hashRef W s) {e : Routing.Event ι}
    (hinv : Inviting srv W s e) (hsep : Separate srv s e) :
    Routed hashRef W (s.step srv hashRef e) := by
  cases e with
  | consume i path =>
    have hp : (consumeKeyPackage srv s.data path).1.poisoned = s.data.poisoned :=
      (guarded srv s.data (.consumeKeyPackage path)).calm trivial
    obtain ⟨hwel, hl, ⟨hr, hnot⟩ | ⟨id, hash, kp, hid, hlast, hr, hkp⟩⟩ :=
      consumeKeyPackage_reserves srv s.data path
    · rw [Routing.step_consume_of_refused srv hnot]
      exact h.of_reserved hp hwel hl (fun _ _ => hr ▸ .inl) fun _ _ _ _ => by rw [hr]
    · have hdone := hsep id hid (hash, kp) hlast
      have hreserved := h.reserve hlast hdone hp hwel hl hr
      by_cases hok : ∃ b, (consumeKeyPackage srv s.data path).2 = .ok b
      · obtain ⟨b, hb⟩ := hok
        obtain rfl := hkp b hb
        have hstep : s.step srv hashRef (.consume i path) =
            { s with
              data := (consumeKeyPackage srv s.data path).1
              consumed := Function.update s.consumed i (s.consumed i ++ [(id, hash)]) } := by
          simp only [Routing.step, hid, hb, h.hashes id hash kp hlast]
        rw [hstep]
        have hlast' : (consumeKeyPackage srv s.data path).1.lastKeyPackage id =
            some (hash, kp) := by
          rw [hl, hlast]
        exact hreserved.enter hlast' (by simp [hr]) hinv hdone
      · rw [Routing.step_consume_of_refused srv (not_exists.mp hok)]
        exact hreserved
  | welcome i body order =>
    obtain ⟨hm, ⟨w, hw, hsecrets⟩, hlt, horder⟩ := hinv
    obtain ⟨⟨id0, hash0⟩, he0, hres0⟩ := h.exists_open hlt
    obtain ⟨kp0, hlast0⟩ := h.entry i _ he0
    have hreg : registered s.data.clients id0 = true := by
      cases hc : s.data.clients id0 with
      | none => simp [DsData.lastKeyPackage, hc] at hlast0
      | some c => simp [registered, hc]
    obtain ⟨id, hash, hres, hsecret, hr, hwel, hl⟩ := sendWelcome_takes srv hm hw h.unpoisoned
      (horder id0 hreg) hres0 ((hsecrets hash0).mpr (mem_map.mpr ⟨_, he0, rfl⟩))
    -- the reservation that is taken is one of this inviter
    obtain ⟨⟨id', hash'⟩, he, rfl⟩ := mem_map.mp ((hsecrets hash).mp hsecret)
    obtain ⟨kp, hlast⟩ := h.entry i _ he
    obtain ⟨kp', hlast'⟩ := h.reserved id _ hres
    obtain rfl : id = id' := h.distinct id id' _ kp' kp hlast' hlast
    have hharm : Harmless srv s.data (.sendWelcome body order) := by
      intro m' hm'
      rw [Option.mem_def, hm, Option.some.injEq] at hm'
      simp [← hm', hw]
    exact h.deliver hW (by unfold Routing.Done; omega) he hres
      ((guarded_sendWelcome srv s.data body order).calm hharm) hl hr hwel

/-- **Every Welcome arrives once**, if no key package is consumed while an inviter holds it. -/
theorem welcomes_delivered (hW : Function.Injective W) {s : Routing ι}
    (h : (invitations srv hashRef W).Reaches
      (fun s e => Inviting srv W s e ∧ Separate srv s e) s) {i : ι} (hdone : s.Done i) :
    ∀ e ∈ s.consumed i, (s.data.welcomes e.1).count (W i) = 1 := by
  have hrouted : Routed hashRef W s :=
    h.invariant (fun s hs => hs.routed) fun s e s' hs hok he => by
    obtain rfl : s.step srv hashRef e = s' := Option.some.inj he
    exact hs.step srv hW hok.1 hok.2
  intro e he
  have hcount := hrouted.counted i
  rw [show s.sent i = (s.consumed i).length from hdone, eq_comm, countP_eq_length] at hcount
  have hmem : W i ∈ s.data.welcomes e.1 := by simpa using hcount e he
  have hpos := count_pos_iff.mpr hmem
  have hone := hrouted.once i e.1
  omega

end

/-! ## Two inviters -/

lemma registered_setClient (hc : s.clients id = some c) :
    registered (s.setClient id c').clients = registered s.clients :=
  (comp_update Option.isSome s.clients id (some c')).trans
    (update_eq_self_iff.mpr (by simp [hc]))

lemma Routing.registered_step {ι : Type} [DecidableEq ι] (hashRef : KeyPackageIn → Bytes)
    (s : Routing ι) (e : Routing.Event ι) :
    registered (s.step srv hashRef e).data.clients = registered s.data.clients := by
  cases e with
  | consume i path =>
    have hdata : (s.step srv hashRef (.consume i path)).data =
        (consumeKeyPackage srv s.data path).1 := by
      simp only [Routing.step]
      split <;> rfl
    rw [hdata]
    rcases consumeKeyPackage_cases srv s.data path with ⟨h, -⟩ | ⟨id, c, kp, c', -, hc, -, h⟩
    · rw [h.clients]
    · rw [h]
      exact registered_setClient hc
  | welcome i body order =>
    show registered (sendWelcome srv s.data body order).1.clients = _
    rcases sendWelcome_cases srv s.data body order with
      ⟨h, -⟩ | ⟨m, w, hash, id, c, -, -, hw, h⟩
    · rw [h.clients]
    · rw [h]
      exact registered_setClient (welcomed_eq_some hw).1

/-- A server with the client `A`, whose key packages have its name as hash. -/
def oneClient : Routing Bool where
  data := { DsData.start true with
    clients := fun id => if id = [65] then
      some ⟨[65], List.replicate 2 ([65], ⟨1, .basic, [65], []⟩), ∅, [65], [], []⟩ else none }
  consumed := fun _ => []
  sent := fun _ => 0

/-- The Welcomes of the inviters `B` and `C` for `A`. -/
def welcomeForA (i : Bool) : GroupMessage :=
  ⟨⟨.welcome ⟨1, [⟨[65], [], []⟩], []⟩⟩, [if i then 66 else 67], none, [], none⟩

def welcomeForABytes (i : Bool) : Bytes :=
  [0, 1, 0, 3, 0, 1, 4, 1, 65, 0, 0, 0, 0, 0, 0, 1, if i then 66 else 67, 0, 0, 0, 0, 0, 0]

abbrev twoInviters : Machine (Routing Bool) (Routing.Event Bool) :=
  invitations plainService (·.credentialContent) welcomeForA

lemma oneClient_published : oneClient.Published (fun k => k.credentialContent) welcomeForA where
  unpoisoned := rfl
  hashes := by
    intro id hash kp h
    simp only [oneClient, DsData.lastKeyPackage] at h
    split_ifs at h
    · simp at h
      simp [← h.1, ← h.2]
    · simp at h
  distinct := by
    intro id id' hash kp kp' h h'
    simp only [oneClient, DsData.lastKeyPackage] at h h'
    split_ifs at h h' with h1 h2 <;> simp_all
  unreserved := by
    intro id
    simp only [oneClient, DsData.reserved]
    split_ifs <;> rfl
  unsent := by
    intro i id
    simp only [oneClient, DsData.welcomes]
    split_ifs <;> simp
  empty := fun i => ⟨rfl, rfl⟩

lemma registered_next (s : Routing Bool) (e : Routing.Event Bool) :
    registered (twoInviters.next s e).data.clients = registered s.data.clients :=
  Routing.registered_step plainService _ s e

lemma inviting_welcome {s : Routing Bool} {i : Bool} (hconsumed : s.consumed i = [([65], [65])])
    (hsent : s.sent i = 0)
    (hregistered : registered s.data.clients = registered oneClient.data.clients) :
    Inviting plainService welcomeForA s (.welcome i (some (welcomeForABytes i)) [[65]]) := by
  refine ⟨by cases i <;> decide +kernel, ⟨_, rfl, by simp [hconsumed]⟩, by simp [hconsumed, hsent],
    fun id hid => ?_⟩
  rw [hregistered] at hid
  simp only [registered, oneClient] at hid
  split_ifs at hid with hA
  · simp [hA]
  · simp at hid

/-- `B` and `C` both consume the key package of `A`, which gets the Welcome of `B` only. -/
theorem second_welcome_lost :
    ∃ s, twoInviters.Reaches (Inviting plainService welcomeForA) s ∧ s.Done true ∧ s.Done false ∧
      s.consumed false = [([65], [65])] ∧ (s.data.welcomes [65]).count (welcomeForA false) = 0 := by
  have hadmits : twoInviters.Admits (Inviting plainService welcomeForA) oneClient
      [.consume true "A", .consume false "A", .welcome true (some (welcomeForABytes true)) [[65]],
        .welcome false (some (welcomeForABytes false)) [[65]]] := by
    refine .cons rfl (.cons (by unfold Inviting; decide +kernel) (.cons ?_ (.cons ?_ trivial)))
    all_goals
      exact inviting_welcome (by decide +kernel) (by decide +kernel)
        (by simp only [registered_next])
  exact ⟨_, .of_run (.init oneClient_published) hadmits rfl, by unfold Routing.Done; decide +kernel,
    by unfold Routing.Done; decide +kernel, by decide +kernel, by decide +kernel⟩

/-- `B` and `C` invite `A` one after the other, and `A` gets both Welcomes. -/
theorem welcomes_delivered_in_turn :
    ∃ s : Routing Bool, (∀ i, s.Done i ∧ s.consumed i = [([65], [65])]) ∧
      ∀ i, ∀ e ∈ s.consumed i, (s.data.welcomes e.1).count (welcomeForA i) = 1 := by
  have hinj : Function.Injective welcomeForA := by
    intro i j h
    cases i <;> cases j <;> simp_all [welcomeForA]
  have hadmits : twoInviters.Admits
      (fun s e => Inviting plainService welcomeForA s e ∧ Separate plainService s e) oneClient
      [.consume true "A", .welcome true (some (welcomeForABytes true)) [[65]],
        .consume false "A", .welcome false (some (welcomeForABytes false)) [[65]]] := by
    refine .cons ⟨rfl, by simp [Separate, oneClient]⟩ (.cons ⟨?_, trivial⟩
      (.cons ⟨by unfold Inviting; decide +kernel, ?_⟩ (.cons ⟨?_, trivial⟩ trivial)))
    · exact inviting_welcome (by decide +kernel) (by decide +kernel)
        (by simp only [registered_next])
    · unfold Separate Routing.Done
      decide +kernel
    · exact inviting_welcome (by decide +kernel) (by decide +kernel)
        (by simp only [registered_next])
  obtain ⟨s, hrun, hdone⟩ : ∃ s ∈ twoInviters.run oneClient
      [.consume true "A", .welcome true (some (welcomeForABytes true)) [[65]],
        .consume false "A", .welcome false (some (welcomeForABytes false)) [[65]]],
      ∀ i, s.sent i = (s.consumed i).length ∧ s.consumed i = [([65], [65])] := by
    decide +kernel
  exact ⟨s, hdone, fun i => welcomes_delivered plainService hinj
    (.of_run (.init oneClient_published) hadmits hrun) (hdone i).1⟩

end EmulatedMls.Ds
