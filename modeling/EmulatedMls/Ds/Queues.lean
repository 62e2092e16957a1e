import EmulatedMls.Ds.HandlerSpec

/-!
# The message queues of the delivery service

A message with a listing that is not registered stops half-way: the epoch is stored and the
listings in front of it have the message, but the answer is 404.  And the epoch check lets an epoch
pass that is equal to the stored one.
-/

namespace EmulatedMls.Ds

open List Option

variable (srv : Service)

/-! ## The queue of a client -/

def DsData.msgs (s : DsData) (id : Bytes) : List GroupMessage := (s.clients id).elim [] (·.msgs)

lemma DsData.msgs_setClient (s : DsData) (id id' : Bytes) (c : ClientInfo) :
    (s.setClient id c).msgs id' = if id' = id then c.msgs else s.msgs id' := by
  by_cases h : id' = id <;> simp [msgs, setClient, h]

variable {id g : Bytes} {p : ProtocolMessage} {groups groups' : Bytes → Option ℕ} {e : ℕ}
  {m : GroupMessage} {x : Exchange DsData Request Answer} {s : DsData}

lemma DsData.msgs_setClient_of_eq {c c' : ClientInfo} (hc : s.clients id = some c)
    (h : c'.msgs = c.msgs) (id' : Bytes) : (s.setClient id c').msgs id' = s.msgs id' := by
  rw [msgs_setClient, h]
  split_ifs with hid
  · simp [msgs, hid, hc]
  · rfl

lemma DsData.SameMaps.msgs {s' : DsData} (h : s.SameMaps s') (id : Bytes) :
    s'.msgs id = s.msgs id := by
  simp [DsData.msgs, h.clients]

variable {r : Request}

lemma msgs_next (hreset : r ≠ .reset) (hsend : ∀ body, r ≠ .msgSend body)
    (hrecv : ∀ path, r ≠ .msgRecv path) (hreg : ∀ body, r ≠ .registerClient body) (id : Bytes) :
    ((server srv).next s r).msgs id = s.msgs id := by
  have h := effect_next srv s r
  generalize (server srv).next s r = s' at h ⊢
  cases h with
  | same h => exact h.msgs id
  | registered => exact absurd rfl (hreg _)
  | reset => exact absurd rfl hreset
  | asked h => rw [h.msgs, DsData.msgs, DsData.takeGroupInfo_clients, DsData.msgs]
  | posted => rfl
  | published hc | consumed hc | welcomed _ hc =>
    exact DsData.msgs_setClient_of_eq hc (by rfl) id
  | queued => exact absurd rfl (hsend _)
  | fetched => exact absurd rfl (hrecv _)

lemma msgs_msgRecv (s : DsData) (path : String) (id : Bytes) :
    (msgRecv srv s path).1.msgs id = s.msgs id ∨ (msgRecv srv s path).1.msgs id = [] := by
  rcases msgRecv_cases srv s path with ⟨h, -⟩ | ⟨id', c, -, -, h⟩
  · exact .inl (h.msgs id)
  · rw [h, DsData.msgs_setClient]
    split_ifs
    · exact .inr rfl
    · exact .inl rfl

lemma msgs_registerClient (s : DsData) (body : Payload) (id : Bytes) :
    (registerClient srv s body).1.msgs id = s.msgs id ∨
      (registerClient srv s body).1.msgs id = [] := by
  rcases registerClient_cases srv s body with ⟨h, -⟩ | ⟨info, hinfo, h⟩
  · exact .inl (h.msgs id)
  · rw [h, DsData.msgs_setClient]
    split_ifs
    · exact .inr (clientInfo_queues srv hinfo).1
    · exact .inl rfl

/-- The loop of `msg_send` appends copies of the message. -/
lemma msgs_pushAll (s : DsData) (groups : Bytes → Option ℕ) (m : GroupMessage) (id : Bytes) :
    ∃ k, ({ s with clients := (pushAll s.clients m m.listed).1, groups } : DsData).msgs id =
      s.msgs id ++ List.replicate k m := by
  rw [pushAll_eq]
  cases hc : s.clients id with
  | none => exact ⟨0, by simp [DsData.msgs, hc]⟩
  | some c => exact ⟨_, by simp [DsData.msgs, hc, ClientInfo.push]; rfl⟩

/-! ## The epoch check -/

lemma guardEpoch_eq (h : guardEpoch groups p = some groups') :
    groups' = if p.contentType.isHandshakeMessage then
      Function.update groups p.groupId (some p.epoch) else groups := by
  unfold guardEpoch at h
  split_ifs at h ⊢
  · split at h
    · split_ifs at h
      exact (some.inj h).symm
    · exact (some.inj h).symm
  · exact (some.inj h).symm

lemma le_of_guardEpoch (h : guardEpoch groups p = some groups')
    (hp : p.contentType.isHandshakeMessage = true) (he : groups p.groupId = some e) :
    e ≤ p.epoch := by
  simp only [guardEpoch, hp, he, if_true] at h
  by_contra hlt
  simp [show e > p.epoch by omega] at h

/-! ## One request -/

/-- Every listed client is registered. -/
def Addressed (s : DsData) (m : GroupMessage) : Prop :=
  ∀ id ∈ m.listed, registered s.clients id = true

lemma pushAll_of_addressed (h : Addressed s m) :
    pushAll s.clients m m.listed =
      (fun id => (s.clients id).map fun c => c.push m (m.listed.count id), true) := by
  have hserved : served s.clients m.listed = m.listed := takeWhile_eq_self_iff.mpr h
  rw [pushAll_eq, hserved, all_eq_true.mpr h]

lemma msgSend_eq {body : Payload} (hc : s.poisoned .clients = false)
    (hg : s.poisoned .groups = false) (hm : groupMessage srv body = some m)
    (hp : ProtocolMessage.tryFrom m.msg = some p) (hguard : guardEpoch s.groups p = some groups) :
    msgSend srv s body = queueTo s m groups := by
  obtain ⟨bytes, rfl, hbytes⟩ := bind_eq_some_iff.mp hm
  simp only [msgSend, hbytes, DsData.lock, hc, hg, queueMessage_eq hp hguard, queueTo]
  cases (pushAll s.clients m m.listed).2 <;> rfl

/-- Every listed client is registered and none is listed twice, or the first one is not registered
    and the epoch of the message is the stored one. -/
def Undivided (s : DsData) (m : GroupMessage) (p : ProtocolMessage) : Prop :=
  Addressed s m ∧ m.listed.Nodup ∨
    served s.clients m.listed = [] ∧
      (p.contentType.isHandshakeMessage = true → s.groups p.groupId = some p.epoch)

/-- What a request may do: with 200 the message is appended once for each listed client and the
    epoch is stored, and otherwise nothing changes. -/
def Atomic (s : DsData) (body : Payload) (r : DsData × Answer) : Prop :=
  ((∀ b, r.2 ≠ .ok b) →
    r.1.clients = s.clients ∧ r.1.groups = s.groups ∧ r.1.groupInfo = s.groupInfo) ∧
  ∀ b, r.2 = .ok b →
    ∃ m p, groupMessage srv body = some m ∧ ProtocolMessage.tryFrom m.msg = some p ∧
      r.1 = { s with
        clients := fun id => if m.listed.contains id then
            (s.clients id).map fun c => { c with msgs := c.msgs ++ [m] }
          else s.clients id
        groups := if p.contentType.isHandshakeMessage then
            Function.update s.groups p.groupId (some p.epoch)
          else s.groups }

variable {body : Payload}

lemma atomic_of_undivided (hm : groupMessage srv body = some m)
    (hp : ProtocolMessage.tryFrom m.msg = some p) (hguard : guardEpoch s.groups p = some groups)
    (h : Undivided s m p) : Atomic srv s body (queueTo s m groups) := by
  unfold queueTo
  rcases h with ⟨haddr, hnodup⟩ | ⟨hserved, hepoch⟩
  · rw [pushAll_of_addressed haddr]
    refine ⟨fun hnot => absurd rfl (hnot .empty), fun b _ => ⟨m, p, hm, hp, ?_⟩⟩
    have hclients : (fun id => (s.clients id).map fun c => c.push m (m.listed.count id)) =
        fun id => if m.listed.contains id then
          (s.clients id).map fun c => { c with msgs := c.msgs ++ [m] } else s.clients id := by
      funext id
      rw [hnodup.count]
      by_cases hid : id ∈ m.listed
      · simp [hid, ClientInfo.push]
      · simp [hid, ClientInfo.push_zero]
    rw [guardEpoch_eq hguard, hclients]
  · have hgroups : groups = s.groups := by
      rw [guardEpoch_eq hguard]
      split_ifs with hh
      · rw [← hepoch hh, Function.update_eq_self]
      · rfl
    have hall : m.listed.all (registered s.clients) = false := by
      cases hl : m.listed with
      | nil => simp [GroupMessage.listed] at hl
      | cons id ids =>
        cases hreg : registered s.clients id <;> simp [served, hl, hreg] at hserved ⊢
    rw [pushAll_eq, hserved, hall]
    exact ⟨fun _ => ⟨by simp [ClientInfo.push_zero], hgroups, rfl⟩, fun b hb => by simp at hb⟩

lemma undivided_of_atomic (hm : groupMessage srv body = some m)
    (hguard : guardEpoch s.groups p = some groups)
    (h : Atomic srv s body (queueTo s m groups)) : Undivided s m p := by
  rw [queueTo, pushAll_eq] at h
  cases hall : m.listed.all (registered s.clients) with
  | true =>
    have haddr : Addressed s m := all_eq_true.mp hall
    obtain ⟨m', p', hm', -, hr⟩ := h.2 .empty (by simp [hall])
    obtain rfl : m = m' := mem_unique hm hm'
    refine .inl ⟨haddr, nodup_iff_count_eq_one.mpr fun id hid => ?_⟩
    obtain ⟨c, hc⟩ := isSome_iff_exists.mp (haddr id hid)
    have hcount := congrFun (congrArg DsData.clients hr) id
    simpa [hc, hid, ClientInfo.push, served, takeWhile_eq_self_iff.mpr haddr] using
      congrArg (Option.map fun c => c.msgs.length) hcount
  | false =>
    obtain ⟨hclients, hgroups, -⟩ := h.1 (by simp [hall])
    refine .inr ⟨eq_nil_iff_forall_not_mem.mpr fun id hid => ?_, fun hh => ?_⟩
    · -- a client that was served has the message
      have hreg : registered s.clients id = true := mem_takeWhile_imp hid
      obtain ⟨c, hc⟩ := isSome_iff_exists.mp hreg
      have hcount := congrFun hclients id
      have hzero : (served s.clients m.listed).count id = 0 := by
        simpa [hc, ClientInfo.push] using congrArg (Option.map fun c => c.msgs.length) hcount
      exact count_eq_zero.mp hzero hid
    · have hep := congrFun hgroups p.groupId
      simpa [guardEpoch_eq hguard, hh] using hep.symm

/-- **When `msg_send` is atomic**: exactly if the message is refused, by a mutex or the epoch check,
    or is undivided. -/
theorem msgSend_atomic (s : DsData) (body : Payload) :
    Atomic srv s body (msgSend srv s body) ↔
      (s.poisoned .clients = false → s.poisoned .groups = false →
        ∀ m p, groupMessage srv body = some m → ProtocolMessage.tryFrom m.msg = some p →
          guardEpoch s.groups p ≠ none → Undivided s m p) := by
  constructor
  · intro h hc hg m p hm hp hne
    obtain ⟨groups, hguard⟩ := ne_none_iff_exists'.mp hne
    rw [msgSend_eq srv hc hg hm hp hguard] at h
    exact undivided_of_atomic srv hm hguard h
  · intro h
    rcases msgSend_cases srv s body with ⟨hsame, hnot⟩ | ⟨m, p, groups, hm, hp, hguard, hr⟩
    · exact ⟨fun _ => ⟨hsame.clients, hsame.groups, hsame.groupInfo⟩,
        fun b hb => absurd hb (hnot b)⟩
    · -- the message has got past the mutexes
      have hno : (msgSend srv s body).2 ≠ .internalServerError := by
        rw [hr, queueTo]
        split_ifs <;> simp
      obtain ⟨bytes, rfl, hbytes⟩ := bind_eq_some_iff.mp hm
      have hpoison : s.poisoned .clients = false ∧ s.poisoned .groups = false := by
        cases hc : s.poisoned .clients <;> cases hg : s.poisoned .groups <;>
          simp [msgSend, hbytes, DsData.lock, hc, hg] at hno ⊢
      rw [hr]
      exact atomic_of_undivided srv hm hp hguard
        (h hpoison.1 hpoison.2 m p hm hp (by simp [hguard]))

/-- A server on which the clients `A` and `B` are registered. -/
def twoClients : DsData :=
  (server plainService).final (.start true)
    [.registerClient (some (registerBytes 65)), .registerClient (some (registerBytes 66))]

/-- The commit of `A` to `B` and to the unknown `C` is answered with 404, but `B` has it. -/
theorem msgSend_not_atomic :
    ∃ (srv : Service) (s : DsData) (body : Payload), (msgSend srv s body).2 = .notFound ∧
      (msgSend srv s body).1.clients ≠ s.clients ∧ (msgSend srv s body).1.groups ≠ s.groups :=
  ⟨plainService, twoClients, some (commitBytes 0 65 [66, 67]), by decide +kernel,
    fun h => absurd (congrFun h [66]) (by decide +kernel),
    fun h => absurd (congrFun h [71]) (by decide +kernel)⟩

/-! ## Epochs over a run -/

/-- The group and epoch of the handshake message in a request. -/
def handshake (r : Request) : Option (Bytes × ℕ) :=
  match r with
  | .msgSend body =>
    (groupMessage srv body).bind fun m => (ProtocolMessage.tryFrom m.msg).bind fun p =>
      if p.contentType.isHandshakeMessage then some (p.groupId, p.epoch) else none
  | _ => none

/-- The messages that an exchange adds to the queue of a client. -/
def newMessages (x : Exchange DsData Request Answer) (id : Bytes) : List GroupMessage :=
  (x.after.msgs id).drop (x.before.msgs id).length

/-- The epoch of a handshake message of the group that was answered with 200. -/
def acceptedEpoch (g : Bytes) (x : Exchange DsData Request Answer) : Option ℕ :=
  match x.output with
  | .ok _ => (handshake srv x.input).bind fun e => if e.1 = g then some e.2 else none
  | _ => none

/-- The epochs of the handshake messages of a group that were answered with 200, in order. -/
def acceptedEpochs (g : Bytes) (h : List (Exchange DsData Request Answer)) : List ℕ :=
  h.filterMap (acceptedEpoch srv g)

/-- The handshake message of the exchange passes the epoch check. -/
def Passes (x : Exchange DsData Request Answer) (g : Bytes) (e : ℕ) : Prop :=
  handshake srv x.input = some (g, e) ∧ x.after.groups g = some e ∧
    ∀ e0, x.before.groups g = some e0 → e0 ≤ e

def FreshEpoch (s : DsData) (r : Request) : Prop := ∀ e ∈ handshake srv r, s.groups e.1 ≠ some e.2

instance (s : DsData) (r : Request) : Decidable (FreshEpoch srv s r) :=
  inferInstanceAs (Decidable (∀ e ∈ handshake srv r, _))

variable {body : Payload}

lemma handshake_eq_some (hm : groupMessage srv body = some m)
    (hp : ProtocolMessage.tryFrom m.msg = some p) :
    handshake srv (.msgSend body) =
      if p.contentType.isHandshakeMessage then some (p.groupId, p.epoch) else none := by
  simp [handshake, hm, hp]

lemma passes_of_queued (hq : Queued srv s body (msgSend srv s body))
    (he : handshake srv (.msgSend body) = some (g, e)) :
    Passes srv ⟨s, .msgSend body, (server srv).answer s (.msgSend body),
      (server srv).next s (.msgSend body)⟩ g e := by
  obtain ⟨m, p, groups, hm, hp, hg, hr⟩ := hq
  have hshake := he
  rw [handshake_eq_some srv hm hp] at hshake
  split_ifs at hshake with hh
  cases hshake
  refine ⟨he, ?_, fun e0 he0 => le_of_guardEpoch hg hh he0⟩
  have hs : ((server srv).next s (.msgSend body)).groups = groups :=
    congrArg (DsData.groups ∘ Prod.fst) hr
  simp [hs, guardEpoch_eq hg, hh]

lemma groups_mono (hreset : r ≠ .reset) (he : s.groups g = some e) :
    ∃ e', ((server srv).next s r).groups g = some e' ∧ e ≤ e' := by
  by_cases hsend : ∃ body, r = .msgSend body
  · have h := effect_next srv s r
    generalize (server srv).next s r = s' at h ⊢
    obtain ⟨body, rfl⟩ := hsend
    cases h with
    | same h => exact ⟨e, (congrFun h.groups g).trans he, le_rfl⟩
    | @queued _ m p groups hp hg =>
      simp only [guardEpoch_eq hg]
      split_ifs with hh
      · by_cases hgp : g = p.groupId
        · subst hgp
          exact ⟨p.epoch, by simp, le_of_guardEpoch hg hh he⟩
        · exact ⟨e, by simp [hgp, he], le_rfl⟩
      · exact ⟨e, he, le_rfl⟩
  · rw [groups_next srv hreset (not_exists.mp hsend)]
    exact ⟨e, he, le_rfl⟩

variable {s : DsData} {rs : List Request}

section

variable (hreset : ∀ r ∈ rs, r ≠ .reset)
  (hfresh : ∀ x ∈ (server srv).history s rs, FreshEpoch srv x.before x.input)
include hreset hfresh

lemma lt_of_passes (hx : x ∈ (server srv).history s rs) {e0 : ℕ} (hpass : Passes srv x g e)
    (he0 : s.groups g = some e0) : e0 < e := by
  induction rs generalizing s e0 with
  | nil => simp at hx
  | cons r rs ih =>
    rw [forall_mem_cons] at hreset
    rw [Transducer.history_cons, forall_mem_cons] at hfresh
    rw [Transducer.history_cons, mem_cons] at hx
    rcases hx with rfl | hx
    · have hne : e0 ≠ e := fun h => hfresh.1 (g, e) hpass.1 (h ▸ he0)
      exact lt_of_le_of_ne (hpass.2.2 e0 he0) hne
    · obtain ⟨e1, he1, hle⟩ := groups_mono srv hreset.1 he0
      exact hle.trans_lt (ih hreset.2 hfresh.2 hx he1)

lemma pairwise_passes :
    ((server srv).history s rs).Pairwise fun x y =>
      ∀ g e e', Passes srv x g e → Passes srv y g e' → e < e' := by
  induction rs generalizing s with
  | nil => exact .nil
  | cons r rs ih =>
    rw [forall_mem_cons] at hreset
    rw [Transducer.history_cons, forall_mem_cons] at hfresh
    refine .cons ?_ (ih hreset.2 hfresh.2)
    intro y hy g e e' hx hpass
    exact lt_of_passes srv hreset.2 hfresh.2 hy hpass hx.2.1

end

section

variable (hx : x ∈ (server srv).history s rs)
include hx

lemma passes_of_ok {b : Body} (hok : x.output = .ok b) (he : handshake srv x.input = some (g, e)) :
    Passes srv x g e := by
  obtain ⟨before, input, rfl⟩ := Transducer.exists_of_mem_history hx
  cases input with
  | msgSend body =>
    rcases msgSend_cases srv before body with ⟨-, hnot⟩ | hq
    · exact absurd hok (hnot b)
    · exact passes_of_queued srv hq he
  | _ => simp [handshake] at he

lemma passes_of_acceptedEpoch (h : acceptedEpoch srv g x = some e) : Passes srv x g e := by
  unfold acceptedEpoch at h
  split at h
  · obtain ⟨⟨g', e'⟩, he, hif⟩ := bind_eq_some_iff.mp h
    split_ifs at hif with hg
    obtain rfl : g' = g := hg
    obtain rfl : e' = e := some.inj hif
    exact passes_of_ok srv hx (by assumption) he
  · simp at h

lemma queued_of_mem_newMessages (hm : m ∈ newMessages x id) :
    ∃ body, x.input = .msgSend body ∧ groupMessage srv body = some m ∧
      Queued srv x.before body (msgSend srv x.before body) := by
  obtain ⟨before, input, rfl⟩ := Transducer.exists_of_mem_history hx
  simp only [newMessages] at hm
  by_cases hsend : ∃ body, input = .msgSend body
  · obtain ⟨body, rfl⟩ := hsend
    rcases msgSend_cases srv before body with ⟨hsame, -⟩ | hq
    · have hs : ((server srv).next before (.msgSend body)).msgs id = before.msgs id := hsame.msgs id
      simp [hs] at hm
    · refine ⟨body, rfl, ?_, hq⟩
      obtain ⟨m', p, groups, hm', -, -, hr⟩ := hq
      have hs : (server srv).next before (.msgSend body) = _ := Transducer.next_of_step _ hr
      obtain ⟨k, hk⟩ := msgs_pushAll before groups m' id
      rw [hs, hk, drop_left] at hm
      rw [hm', eq_of_mem_replicate hm]
  · -- any other request keeps the queue or leaves it empty
    have hmsgs : ((server srv).next before input).msgs id = before.msgs id ∨
        ((server srv).next before input).msgs id = [] := by
      by_cases hreset : input = .reset
      · subst hreset
        rcases reset_cases before with h | h
        · exact .inl (congrArg (fun r => DsData.msgs r.1 id) h)
        · exact .inr (congrArg (fun r => DsData.msgs r.1 id) h)
      · by_cases hrecv : ∃ path, input = .msgRecv path
        · obtain ⟨path, rfl⟩ := hrecv
          exact msgs_msgRecv srv before path id
        · by_cases hreg : ∃ body, input = .registerClient body
          · obtain ⟨body, rfl⟩ := hreg
            exact msgs_registerClient srv before body id
          · exact .inl (msgs_next srv hreset (not_exists.mp hsend) (not_exists.mp hrecv)
              (not_exists.mp hreg) id)
    rcases hmsgs with h | h <;> simp [h] at hm

lemma passes_of_mem_newMessages (hm : m ∈ newMessages x id)
    (hp : ProtocolMessage.tryFrom m.msg = some p) (hh : p.contentType.isHandshakeMessage = true) :
    Passes srv x p.groupId p.epoch := by
  obtain ⟨body, hbody, hmsg, hq⟩ := queued_of_mem_newMessages srv hx hm
  obtain ⟨before, input, rfl⟩ := Transducer.exists_of_mem_history hx
  obtain rfl : input = .msgSend body := hbody
  exact passes_of_queued srv hq (by rw [handshake_eq_some srv hmsg hp, if_pos hh])

end

/-- **The epochs of a group only grow**, and handshake messages of one group and epoch come from one
    request, if none has the epoch that is stored for its group. -/
theorem epochs_increase (hreset : ∀ r ∈ rs, r ≠ .reset)
    (hfresh : ∀ x ∈ (server srv).history s rs, FreshEpoch srv x.before x.input) :
    (∀ g, (acceptedEpochs srv g ((server srv).history s rs)).Pairwise (· < ·)) ∧
    ∀ (i j : ℕ) (x y : Exchange DsData Request Answer),
      ((server srv).history s rs)[i]? = some x → ((server srv).history s rs)[j]? = some y →
      ∀ (c d : Bytes) (m n : GroupMessage) (p q : ProtocolMessage),
        m ∈ newMessages x c → n ∈ newMessages y d →
        ProtocolMessage.tryFrom m.msg = some p → ProtocolMessage.tryFrom n.msg = some q →
        p.contentType.isHandshakeMessage = true → q.contentType.isHandshakeMessage = true →
        p.groupId = q.groupId → p.epoch = q.epoch → i = j ∧ m = n := by
  have hpair := pairwise_passes srv hreset hfresh
  constructor
  · intro g
    rw [acceptedEpochs, pairwise_filterMap]
    refine hpair.imp_of_mem fun hx hy h e he e' he' => ?_
    exact h g e e' (passes_of_acceptedEpoch srv hx he) (passes_of_acceptedEpoch srv hy he')
  · intro i j x y hi hj c d m n p q hm hn hp hq hhp hhq hgroup hepoch
    have hx := passes_of_mem_newMessages srv (mem_of_getElem? hi) hm hp hhp
    have hy := passes_of_mem_newMessages srv (mem_of_getElem? hj) hn hq hhq
    rw [← hgroup, ← hepoch] at hy
    have hij : i = j := by
      obtain ⟨hi', rfl⟩ := List.getElem?_eq_some_iff.mp hi
      obtain ⟨hj', rfl⟩ := List.getElem?_eq_some_iff.mp hj
      rcases Nat.lt_trichotomy i j with hlt | heq | hlt
      · exact absurd (pairwise_iff_getElem.mp hpair i j hi' hj' hlt _ _ _ hx hy) (by simp)
      · exact heq
      · exact absurd (pairwise_iff_getElem.mp hpair j i hj' hi' hlt _ _ _ hy hx) (by simp)
    subst hij
    obtain rfl : x = y := mem_unique hi hj
    -- one request queues one message
    obtain ⟨body, hbody, hmsg, -⟩ := queued_of_mem_newMessages srv (mem_of_getElem? hi) hm
    obtain ⟨body', hbody', hmsg', -⟩ := queued_of_mem_newMessages srv (mem_of_getElem? hj) hn
    obtain rfl : body = body' := Request.msgSend.inj (hbody.symm.trans hbody')
    exact ⟨rfl, mem_unique hmsg hmsg'⟩

/-- `A` commits in epoch 0, and `B` in the given one. -/
def bothCommit (epoch : UInt8) : List Request :=
  [.msgSend (some (commitBytes 0 65 [66])), .msgSend (some (commitBytes epoch 66 [65]))]

/-- Both commit in epoch 0, and both commits are answered with 200 and queued. -/
theorem equal_epochs_accepted :
    acceptedEpochs plainService [71] ((server plainService).history twoClients (bothCommit 0)) =
        [0, 0] ∧
    ((server plainService).final twoClients (bothCommit 0)).msgs [65] =
        [commitBytes 0 65 [66], commitBytes 0 66 [65]].filterMap fun bytes =>
          groupMessage plainService (some bytes) := by
  decide +kernel

/-- Commits of the epochs 0 and 1. -/
theorem epochs_increase_twoClients :
    acceptedEpochs plainService [71] ((server plainService).history twoClients (bothCommit 1)) =
        [0, 1] ∧
    (acceptedEpochs plainService [71]
      ((server plainService).history twoClients (bothCommit 1))).Pairwise (· < ·) := by
  exact ⟨by decide +kernel, (epochs_increase plainService (by simp [bothCommit])
    (by decide +kernel)).1 [71]⟩

end EmulatedMls.Ds
