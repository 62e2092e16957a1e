import EmulatedMls.Ds.Queues

/-!
# Every client sees one order

The messages that the service accepts form one list.  What a client has fetched, followed by what
still waits for it, is that list with each message as often as it lists the client
(`streams_in_order`).  Two clients therefore see the messages that list both in one order.

**Welcomes.**  A fetch also returns the Welcomes of the client, in front of the messages.  They
are told apart by their kind: only public and private messages get into the queues of `msg_send`,
only Welcomes into those of `send_welcome`.

**Conditions.**  No client is registered twice and every response serialises (`Orderly`), and the
clients that a message lists are registered (`Deliverable`).  Without the last one a message that
was answered with 404 is in the queues of the clients in front, and a second time if it is sent
again.
-/

namespace EmulatedMls.Ds

open List

variable (srv : Service)

def GroupMessage.isProtocol (m : GroupMessage) : Bool := (ProtocolMessage.tryFrom m.msg).isSome

/-- What waits for a client, in the order in which it would be fetched. -/
def DsData.queue (s : DsData) (id : Bytes) : List GroupMessage :=
  (s.clients id).elim [] fun c => c.welcomeQueue ++ c.msgs

/-- What an exchange returns to a client. -/
def received (id : Bytes) (x : Exchange DsData Request Answer) : List GroupMessage :=
  match x.input, x.output with
  | .msgRecv path, .ok (.messages ms) => if srv.decodeConfig path = some id then ms else []
  | _, _ => []

/-- The message that an exchange accepts. -/
def acceptedMessage (x : Exchange DsData Request Answer) : Option GroupMessage :=
  match x.input, x.output with
  | .msgSend body, .ok _ => groupMessage srv body
  | _, _ => none

def accepted (h : List (Exchange DsData Request Answer)) : List GroupMessage :=
  h.filterMap (acceptedMessage srv)

/-- What a client has fetched in a run, followed by what waits for it. -/
def stream (s : DsData) (rs : List Request) (id : Bytes) : List GroupMessage :=
  ((server srv).history s rs).flatMap (received srv id) ++ ((server srv).final s rs).queue id

/-- The copies of a message for a client: one for each listing. -/
def copies (id : Bytes) (m : GroupMessage) : List GroupMessage :=
  List.replicate (m.listed.count id) m

/-- The server is not reset, no client is registered twice and every response serialises. -/
def Orderly (s : DsData) (r : Request) : Prop :=
  match r with
  | .reset => False
  | .registerClient body => ∀ info ∈ clientInfo srv body, s.clients info.id = none
  | .msgRecv path =>
    ∀ id ∈ srv.decodeConfig path, serializes srv.toOpenmls (s.queue id) = true
  | _ => True

/-- The clients that a message lists are registered. -/
def Deliverable (s : DsData) (r : Request) : Prop :=
  match r with
  | .msgSend body => ∀ m ∈ groupMessage srv body, ∀ id ∈ m.listed, registered s.clients id = true
  | _ => True

instance (s : DsData) (r : Request) : Decidable (Orderly srv s r) :=
  match r with
  | .reset => isFalse id
  | .registerClient body => inferInstanceAs (Decidable (∀ info ∈ clientInfo srv body, _))
  | .msgRecv path => inferInstanceAs (Decidable (∀ id ∈ srv.decodeConfig path, _))
  | .listClients _ | .getKeyPackages _ | .publishKeyPackages _ _ | .consumeKeyPackage _
  | .getGroupInfo _ | .groupExists _ | .postGroupInfo _ _ | .sendWelcome _ _ | .msgSend _ =>
    isTrue trivial

instance (s : DsData) (r : Request) : Decidable (Deliverable srv s r) :=
  match r with
  | .msgSend body => inferInstanceAs (Decidable (∀ m ∈ groupMessage srv body, _))
  | .reset | .registerClient _ | .msgRecv _ | .listClients _ | .getKeyPackages _
  | .publishKeyPackages _ _ | .consumeKeyPackage _ | .getGroupInfo _ | .groupExists _
  | .postGroupInfo _ _ | .sendWelcome _ _ => isTrue trivial

/-- The kinds of messages in the two queues of a client. -/
def DsData.Sorted (s : DsData) : Prop :=
  ∀ id c, s.clients id = some c →
    (∀ m ∈ c.msgs, m.isProtocol = true) ∧ ∀ m ∈ c.welcomeQueue, m.isProtocol = false

variable {s : DsData}

lemma DsData.Sorted.filter_queue (h : s.Sorted) (id : Bytes) :
    (s.queue id).filter (·.isProtocol) = s.msgs id := by
  unfold queue msgs
  cases hc : s.clients id with
  | none => rfl
  | some c =>
    obtain ⟨hmsgs, hwelcome⟩ := h id c hc
    have hw : c.welcomeQueue.filter (·.isProtocol) = [] := by
      rw [filter_eq_nil_iff]
      intro m hm
      simp [hwelcome m hm]
    simp [filter_append, hw, filter_eq_self.mpr hmsgs]

lemma sorted_start (groupInfoMutex : Bool) : (DsData.start groupInfoMutex).Sorted := by
  intro id c hc
  simp [DsData.start] at hc

variable {id : Bytes}

lemma DsData.Sorted.setClient (h : s.Sorted) {c : ClientInfo}
    (hmsgs : ∀ m ∈ c.msgs, m.isProtocol = true)
    (hwelcome : ∀ m ∈ c.welcomeQueue, m.isProtocol = false) : (s.setClient id c).Sorted := by
  intro id' c' hc'
  by_cases hid : id' = id
  · subst hid
    obtain rfl : c = c' := by simpa [DsData.setClient] using hc'
    exact ⟨hmsgs, hwelcome⟩
  · exact h id' c' (by simpa [DsData.setClient, hid] using hc')

variable {m : GroupMessage}

lemma isProtocol_of_intoWelcome {w : Welcome} (h : m.msg.intoWelcome = some w) :
    m.isProtocol = false := by
  unfold MlsMessageIn.intoWelcome at h
  split at h
  · simp [GroupMessage.isProtocol, ProtocolMessage.tryFrom, *]
  · simp at h

lemma DsData.Sorted.next (h : s.Sorted) (r : Request) : ((server srv).next s r).Sorted := by
  have heffect := effect_next srv s r
  generalize (server srv).next s r = s' at heffect ⊢
  cases heffect with
  | same hs => exact fun id c hc => h id c (hs.clients ▸ hc)
  | registered hinfo =>
    obtain ⟨hm, hw⟩ := clientInfo_queues srv hinfo
    exact h.setClient (by simp [hm]) (by simp [hw])
  | reset => exact fun id c hc => nomatch hc
  | asked hs => exact fun id c hc => h id c (by rwa [hs.clients, s.takeGroupInfo_clients] at hc)
  | posted => exact h
  | published hc | consumed hc => exact h.setClient (h _ _ hc).1 (h _ _ hc).2
  | welcomed hw hc =>
    refine h.setClient (h _ _ hc).1 fun m' hm' => ?_
    rcases mem_append.mp hm' with hm' | hm'
    · exact (h _ _ hc).2 m' hm'
    · rw [mem_singleton.mp hm']
      exact isProtocol_of_intoWelcome hw
  | queued hp _ =>
    rw [pushAll_eq]
    intro id c' hc'
    obtain ⟨c, hc, rfl⟩ := Option.map_eq_some_iff.mp hc'
    refine ⟨fun m' hm' => ?_, (h id c hc).2⟩
    rcases mem_append.mp hm' with hm' | hm'
    · exact (h id c hc).1 m' hm'
    · rw [eq_of_mem_replicate hm', GroupMessage.isProtocol, hp]
      rfl
  | fetched => exact h.setClient (by simp) (by simp)

/-! ## One exchange -/

variable {s : DsData}

lemma msgs_of_addressed (h : Addressed s m) (groups : Bytes → Option ℕ) (id : Bytes) :
    ({ s with clients := (pushAll s.clients m m.listed).1, groups } : DsData).msgs id =
      s.msgs id ++ copies id m := by
  rw [pushAll_of_addressed h]
  cases hc : s.clients id with
  | none =>
    have hnot : id ∉ m.listed := fun hid => by simpa [registered, hc] using h id hid
    simp [DsData.msgs, hc, copies, count_eq_zero_of_not_mem hnot]
  | some c => simp [DsData.msgs, hc, ClientInfo.push, copies]

/-- What a client gets and what waits for it is what waited before and the accepted message. -/
def Conserves (s : DsData) (r : Request) (id : Bytes) : Prop :=
  let x : Exchange DsData Request Answer :=
    ⟨s, r, (server srv).answer s r, (server srv).next s r⟩
  (received srv id x).filter (·.isProtocol) ++ x.after.msgs id =
    s.msgs id ++ (acceptedMessage srv x).elim [] (copies id)

variable {r : Request}

lemma conserves_of_msgs_eq
    (hsend : ∀ body, r = .msgSend body → ∀ b, (server srv).answer s r ≠ .ok b)
    (hrecv : ∀ path, r = .msgRecv path → ∀ b, (server srv).answer s r ≠ .ok b)
    (hmsgs : ((server srv).next s r).msgs id = s.msgs id) : Conserves srv s r id := by
  have hreceived : received srv id ⟨s, r, (server srv).answer s r, (server srv).next s r⟩ = [] := by
    unfold received
    split
    · rename_i path ms hr ha
      exact absurd ha (hrecv path hr _)
    · rfl
  have haccepted : acceptedMessage srv
      ⟨s, r, (server srv).answer s r, (server srv).next s r⟩ = none := by
    unfold acceptedMessage
    split
    · rename_i body b hr ha
      exact absurd ha (hsend body hr _)
    · rfl
  simp [Conserves, hreceived, haccepted, hmsgs]

lemma conserves_msgSend {body : Payload} (haddr : ∀ m ∈ groupMessage srv body, Addressed s m)
    (id : Bytes) : Conserves srv s (.msgSend body) id := by
  rcases msgSend_cases srv s body with ⟨hs, hnot⟩ | ⟨m, p, groups, hm, -, -, he⟩
  · exact conserves_of_msgs_eq srv (fun _ _ => hnot) (by simp) (hs.msgs id)
  · have hpush := pushAll_of_addressed (haddr m hm)
    have hmsgs := msgs_of_addressed (haddr m hm) groups id
    have hnext : (server srv).next s (.msgSend body) = _ := Transducer.next_of_step _ he
    have hanswer : (server srv).answer s (.msgSend body) = _ := Transducer.answer_of_step _ he
    rw [← hnext] at hmsgs
    simp only [hpush, if_true] at hanswer
    simp [Conserves, received, acceptedMessage, hanswer, hmsgs, hm]

lemma conserves_msgRecv (h : s.Sorted) {path : String}
    (hser : ∀ id ∈ srv.decodeConfig path, serializes srv.toOpenmls (s.queue id) = true)
    (id : Bytes) : Conserves srv s (.msgRecv path) id := by
  rcases msgRecv_cases srv s path with ⟨hs, hnot⟩ | ⟨id', c, hid', hc, he⟩
  · exact conserves_of_msgs_eq srv (by simp) (fun _ _ => hnot) (hs.msgs id)
  · have hqueue : s.queue id' = c.welcomeQueue ++ c.msgs := by simp [DsData.queue, hc]
    have hser' := hser id' hid'
    rw [hqueue] at hser'
    have hnext : (server srv).next s (.msgRecv path) = _ := Transducer.next_of_step _ he
    have hanswer : (server srv).answer s (.msgRecv path) = _ := Transducer.answer_of_step _ he
    rw [if_pos hser', ← hqueue] at hanswer
    have hmsgs := DsData.msgs_setClient s id' id { c with welcomeQueue := [], msgs := [] }
    rw [← hnext] at hmsgs
    by_cases hid : id = id'
    · subst hid
      simp [Conserves, received, acceptedMessage, hanswer, hmsgs, hid', h.filter_queue]
    · simp [Conserves, received, acceptedMessage, hanswer, hmsgs, hid', hid, Ne.symm hid]

lemma conserves (h : s.Sorted) (hr : Orderly srv s r) (hdel : Deliverable srv s r) (id : Bytes) :
    Conserves srv s r id := by
  by_cases hsend : ∃ body, r = .msgSend body
  · obtain ⟨body, rfl⟩ := hsend
    exact conserves_msgSend srv hdel id
  · by_cases hrecv : ∃ path, r = .msgRecv path
    · obtain ⟨path, rfl⟩ := hrecv
      exact conserves_msgRecv srv h hr id
    · refine conserves_of_msgs_eq srv (fun body hb => absurd ⟨body, hb⟩ hsend)
        (fun path hp => absurd ⟨path, hp⟩ hrecv) ?_
      by_cases hreg : ∃ body, r = .registerClient body
      · obtain ⟨body, rfl⟩ := hreg
        rcases registerClient_cases srv s body with ⟨hs, -⟩ | ⟨info, hinfo, he⟩
        · exact hs.msgs id
        · have hnext : (server srv).next s (.registerClient body) = _ :=
            Transducer.next_of_step _ he
          have hnone := hr info hinfo
          rw [hnext, DsData.msgs_setClient, (clientInfo_queues srv hinfo).1]
          split_ifs with hid
          · simp [DsData.msgs, hid, hnone]
          · rfl
      · have hreset : r ≠ .reset := by
          rintro rfl
          exact hr
        exact msgs_next srv hreset (not_exists.mp hsend) (not_exists.mp hrecv)
          (not_exists.mp hreg) id

/-! ## Runs -/

lemma filter_stream {rs : List Request} (h : s.Sorted)
    (hok : ∀ x ∈ (server srv).history s rs, Orderly srv x.before x.input)
    (hdel : ∀ x ∈ (server srv).history s rs, Deliverable srv x.before x.input) (id : Bytes) :
    (stream srv s rs id).filter (·.isProtocol) =
      s.msgs id ++ (accepted srv ((server srv).history s rs)).flatMap (copies id) := by
  induction rs generalizing s with
  | nil => simp [stream, accepted, h.filter_queue]
  | cons r rs ih =>
    rw [Transducer.history_cons, forall_mem_cons] at hok hdel
    have hstep := conserves srv h hok.1 hdel.1 id
    have hrest := ih (h.next srv r) hok.2 hdel.2
    have hcons : (stream srv s (r :: rs) id).filter (·.isProtocol) =
        (received srv id ⟨s, r, (server srv).answer s r, (server srv).next s r⟩).filter
          (·.isProtocol) ++ (stream srv ((server srv).next s r) rs id).filter (·.isProtocol) := by
      simp [stream, filter_append]
    rw [hcons, hrest, ← append_assoc, hstep, append_assoc, accepted, accepted,
      Transducer.history_cons, filterMap_cons]
    cases acceptedMessage srv ⟨s, r, (server srv).answer s r, (server srv).next s r⟩ <;> simp

/-- The messages that list two clients. -/
def common (c d : Bytes) (ms : List GroupMessage) : List GroupMessage :=
  ms.filter fun m => c ∈ m.listed ∧ d ∈ m.listed

lemma filter_flatMap_copies (c d : Bytes) (ms : List GroupMessage) :
    (ms.flatMap (copies c)).filter (d ∈ ·.listed) = (common c d ms).flatMap (copies c) := by
  induction ms with
  | nil => rfl
  | cons m ms ih =>
    have hm : (copies c m).filter (d ∈ ·.listed) =
        (if c ∈ m.listed ∧ d ∈ m.listed then copies c m else []) := by
      by_cases hd : d ∈ m.listed <;> by_cases hc : c ∈ m.listed <;>
        simp [copies, hd, hc, count_eq_zero]
    rw [flatMap_cons, filter_append, ih, hm, common, common, filter_cons]
    by_cases h : c ∈ m.listed ∧ d ∈ m.listed <;> simp [h]

/-- **Every client sees one order.**  What a client has fetched and what waits for it are, Welcomes
    apart, the accepted messages in their order. -/
theorem streams_in_order (groupInfoMutex : Bool) (rs : List Request)
    (hok : ∀ x ∈ (server srv).history (.start groupInfoMutex) rs, Orderly srv x.before x.input)
    (hdel : ∀ x ∈ (server srv).history (.start groupInfoMutex) rs,
      Deliverable srv x.before x.input) :
    (∀ c, (stream srv (.start groupInfoMutex) rs c).filter (·.isProtocol) =
      (accepted srv ((server srv).history (.start groupInfoMutex) rs)).flatMap (copies c)) ∧
    ∀ c d,
      ((stream srv (.start groupInfoMutex) rs c).filter (·.isProtocol)).filter (d ∈ ·.listed) =
        (common c d (accepted srv ((server srv).history (.start groupInfoMutex) rs))).flatMap
          (copies c) ∧
      ((stream srv (.start groupInfoMutex) rs d).filter (·.isProtocol)).filter (c ∈ ·.listed) =
        (common c d (accepted srv ((server srv).history (.start groupInfoMutex) rs))).flatMap
          (copies d) := by
  have hall (c : Bytes) := filter_stream srv (sorted_start groupInfoMutex) hok hdel c
  have hnil (c : Bytes) : (DsData.start groupInfoMutex).msgs c = [] := rfl
  simp only [hnil, nil_append] at hall
  refine ⟨hall, fun c d => ⟨?_, ?_⟩⟩
  · rw [hall, filter_flatMap_copies]
  · rw [hall, filter_flatMap_copies]
    congr 1
    exact filter_congr fun m _ => by simp [and_comm]

/-- The messages in bodies of the small service. -/
def messagesIn (bodies : List Bytes) : List GroupMessage :=
  bodies.filterMap fun bytes => groupMessage plainService (some bytes)

/-- `B` sends to `A` and to `C`, who is not registered yet, and later again. -/
def secondTry : List Request :=
  [.registerClient (some (registerBytes 65)), .registerClient (some (registerBytes 66)),
    .msgSend (some (commitBytes 0 66 [65, 67])), .msgSend (some (commitBytes 0 66 [65])),
    .registerClient (some (registerBytes 67)), .msgSend (some (commitBytes 0 66 [65, 67]))]

/-- The first message is accepted once, after the second one, but `A` has it twice. -/
theorem streams_out_of_order :
    (∀ x ∈ (server plainService).history (.start true) secondTry,
      Orderly plainService x.before x.input) ∧
    accepted plainService ((server plainService).history (.start true) secondTry) =
      messagesIn [commitBytes 0 66 [65], commitBytes 0 66 [65, 67]] ∧
    (stream plainService (.start true) secondTry [65]).filter (·.isProtocol) =
      messagesIn [commitBytes 0 66 [65, 67], commitBytes 0 66 [65], commitBytes 0 66 [65, 67]] ∧
    (stream plainService (.start true) secondTry [66]).filter (·.isProtocol) =
      messagesIn [commitBytes 0 66 [65], commitBytes 0 66 [65, 67]] := by
  decide +kernel

/-- `A` and `B` write to each other, and `A` fetches in between. -/
theorem streams_in_order_exchange :
    (stream plainService (.start true)
      [.registerClient (some (registerBytes 65)), .registerClient (some (registerBytes 66)),
        .msgSend (some (commitBytes 0 65 [66])), .msgRecv "A",
        .msgSend (some (commitBytes 1 66 [65]))] [65]).filter (·.isProtocol) =
      (messagesIn [commitBytes 0 65 [66], commitBytes 1 66 [65]]).flatMap (copies [65]) := by
  refine ((streams_in_order plainService true _ (by decide +kernel)
    (by decide +kernel)).1 [65]).trans ?_
  decide +kernel

end EmulatedMls.Ds
