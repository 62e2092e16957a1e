import EmulatedMls.Ds.HandlerSpec

/-!
# Which requests the delivery service survives

A request can bring a handler to a panic in six places: a registration without a key package
whose first credential is basic, a Welcome that is none, a message that is not a public or private
one, and the debug messages of three handlers with an id that is not UTF-8.  Where the handler
holds a mutex at that point, the mutex is poisoned and every later request that needs it is
answered with 500.

`Harmless` says of a request and the state before it that no such place is reached, and `survives`
that this is exact.
-/

namespace EmulatedMls.Ds

variable (srv : Service)

/-- What is unwrapped is there, or the request is answered before. -/
def Harmless (s : DsData) (r : Request) : Prop :=
  match r with
  | .registerClient body =>
    ∀ e ∈ body.bind (tlsDeserialize (ClientInfo.read srv.toOpenmls)),
      ∃ k ∈ e.2.head?, k.2.credentialType = .basic
  | .getGroupInfo path =>
    s.poisoned .groupInfo = true ∨
      ∀ id ∈ srv.decodeConfig path, (s.groupInfo id).isSome → loggingPanics srv id = false
  | .postGroupInfo path body =>
    body = none ∨ s.poisoned .groupInfo = true ∨
      ∀ id ∈ srv.decodeConfig path, loggingPanics srv id = false
  | .sendWelcome body _ => ∀ m ∈ groupMessage srv body, m.msg.intoWelcome.isSome
  | .msgSend body =>
    s.poisoned .clients = true ∨ s.poisoned .groups = true ∨
      ∀ m ∈ groupMessage srv body, (ProtocolMessage.tryFrom m.msg).isSome
  | .msgRecv path =>
    s.poisoned .clients = true ∨ ∀ id ∈ srv.decodeConfig path, loggingPanics srv id = false
  | _ => True

instance (s : DsData) (r : Request) : Decidable (Harmless srv s r) :=
  match r with
  | .registerClient body => inferInstanceAs (Decidable (∀ e ∈ body.bind _, ∃ k ∈ _, _))
  | .getGroupInfo path => inferInstanceAs (Decidable (_ ∨ ∀ id ∈ srv.decodeConfig path, _))
  | .postGroupInfo path body =>
    inferInstanceAs (Decidable (body = none ∨ _ ∨ ∀ id ∈ srv.decodeConfig path, _))
  | .sendWelcome body _ => inferInstanceAs (Decidable (∀ m ∈ groupMessage srv body, _))
  | .msgSend body => inferInstanceAs (Decidable (_ ∨ _ ∨ ∀ m ∈ groupMessage srv body, _))
  | .msgRecv path => inferInstanceAs (Decidable (_ ∨ ∀ id ∈ srv.decodeConfig path, _))
  | .listClients _ | .reset | .getKeyPackages _ | .publishKeyPackages _ _ | .consumeKeyPackage _
  | .groupExists _ => isTrue trivial

/-- The request panics exactly unless `P`.  Poison is only added, and only by a panic. -/
structure Guarded (s : DsData) (P : Prop) (r : DsData × Answer) : Prop where
  panics : r.2 = .panicked ↔ ¬ P
  calm : P → r.1.poisoned = s.poisoned
  stays : ∀ x, s.poisoned x = true → r.1.poisoned x = true

variable {s s' : DsData} {body : Payload} {path : String} {P Q : Prop} {r : DsData × Answer}

lemma guarded_answer {a : Answer} (hP : P) (hs : s'.poisoned = s.poisoned) (ha : a ≠ .panicked) :
    Guarded s P (s', a) :=
  ⟨by simpa [hP] using ha, fun _ => hs, fun _ hx => hs ▸ hx⟩

lemma guarded_panic (hP : ¬ P) (hs : s'.poisoned = s.poisoned) : Guarded s P (s', .panicked) :=
  ⟨by simp [hP], fun h => absurd h hP, fun _ hx => hs ▸ hx⟩

/-- A poisoned mutex answers in the place of the handler. -/
lemma Guarded.lock {x : Mutex} {body : DsData → DsData × Answer} (h : Guarded s P (body s))
    (hQ : Q ↔ s.poisoned x = true ∨ P) : Guarded s Q (s.lock x body) := by
  rcases s.lock_cases x body with ⟨hx, he⟩ | ⟨hx, hp, he⟩ | ⟨hx, hp, he⟩
  · rw [he]
    exact guarded_answer (by simp [hQ, hx]) rfl (by simp)
  · rw [he]
    have hP : ¬ Q := by simp [hQ, hx, h.panics.mp hp]
    refine ⟨by simp [hP], fun hq => absurd hq hP, fun y hy => ?_⟩
    by_cases hyx : y = x
    · simp [DsData.poison, hyx]
    · simpa [DsData.poison, hyx] using h.stays y hy
  · rw [he]
    obtain rfl : Q = P := by simp [hQ, hx]
    exact h

lemma guarded_registerClient (s : DsData) (body : Payload) :
    Guarded s (Harmless srv s (.registerClient body)) (registerClient srv s body) := by
  cases body with
  | none => exact guarded_answer (by simp [Harmless]) rfl (by simp)
  | some bytes =>
    cases he : tlsDeserialize (ClientInfo.read srv.toOpenmls) bytes with
    | none =>
      simp only [registerClient, he]
      exact guarded_answer (by simp [Harmless, he]) rfl (by simp)
    | some e =>
      obtain ⟨clientName, keyPackages⟩ := e
      have hnew : Harmless srv s (.registerClient (some bytes)) ↔
          (ClientInfo.new clientName keyPackages).isSome := by
        rcases keyPackages with _ | ⟨⟨hash, k⟩, rest⟩
        · simp [Harmless, he, ClientInfo.new]
        · cases hk : k.credentialType <;>
            simp [Harmless, he, ClientInfo.new, KeyPackageIn.identity, hk]
      simp only [registerClient, he]
      cases hi : ClientInfo.new clientName keyPackages with
      | none => exact guarded_panic (by simp [hnew, hi]) rfl
      | some info =>
        refine Guarded.lock (P := True) ?_ (by simp [hnew, hi])
        exact guarded_answer trivial rfl (by split_ifs <;> simp)

lemma guarded_sendWelcome (s : DsData) (body : Payload) (order : List Bytes) :
    Guarded s (Harmless srv s (.sendWelcome body order)) (sendWelcome srv s body order) := by
  cases body with
  | none => exact guarded_answer (by simp [Harmless, groupMessage]) rfl (by simp)
  | some bytes =>
    cases hm : tlsDeserialize (GroupMessage.read srv.toOpenmls) bytes with
    | none =>
      simp only [sendWelcome, hm]
      exact guarded_answer (by simp [Harmless, groupMessage, hm]) rfl (by simp)
    | some m =>
      cases hw : m.msg.intoWelcome with
      | none =>
        simp only [sendWelcome, hm, hw]
        exact guarded_panic (by simp [Harmless, groupMessage, hm, hw]) rfl
      | some w =>
        simp only [sendWelcome, hm, hw]
        refine Guarded.lock (P := True) ?_ (by simp [Harmless, groupMessage, hm, hw])
        split <;> exact guarded_answer trivial rfl (by simp)

lemma guarded_msgSend (s : DsData) (body : Payload) :
    Guarded s (Harmless srv s (.msgSend body)) (msgSend srv s body) := by
  cases body with
  | none => exact guarded_answer (by simp [Harmless, groupMessage]) rfl (by simp)
  | some bytes =>
    cases hm : tlsDeserialize (GroupMessage.read srv.toOpenmls) bytes with
    | none =>
      simp only [msgSend, hm]
      exact guarded_answer (by simp [Harmless, groupMessage, hm]) rfl (by simp)
    | some m =>
      simp only [msgSend, hm]
      refine Guarded.lock (Guarded.lock (P := (ProtocolMessage.tryFrom m.msg).isSome) ?_ Iff.rfl)
        (by simp [Harmless, groupMessage, hm])
      cases hp : ProtocolMessage.tryFrom m.msg with
      | none =>
        simp only [queueMessage, hp]
        exact guarded_panic (by simp) rfl
      | some p =>
        cases hg : guardEpoch s.groups p with
        | none =>
          simp only [queueMessage, hp, hg]
          exact guarded_answer rfl rfl (by simp)
        | some groups =>
          rw [queueMessage_eq hp hg]
          exact guarded_answer rfl rfl (by split_ifs <;> simp)

lemma DsData.takeGroupInfo_poisoned (s : DsData) (id : Bytes) :
    (s.takeGroupInfo id).poisoned = s.poisoned := by
  unfold takeGroupInfo
  split_ifs <;> rfl

lemma guarded_getGroupInfo (s : DsData) (path : String) :
    Guarded s (Harmless srv s (.getGroupInfo path)) (getGroupInfo srv s path) := by
  refine Guarded.lock (P := ∀ id ∈ srv.decodeConfig path, (s.groupInfo id).isSome →
    loggingPanics srv id = false) ?_ Iff.rfl
  cases hid : srv.decodeConfig path with
  | none =>
    simp only [readGroupInfo, hid]
    exact guarded_answer (by simp) rfl (by simp)
  | some id =>
    have hs := s.takeGroupInfo_poisoned id
    rcases hg : s.groupInfo id with - | - | g
    · simp only [readGroupInfo, hid, hg]
      exact guarded_answer (by simp [hg]) hs (by simp)
    · cases hlog : loggingPanics srv id <;> simp only [readGroupInfo, hid, hg, hlog]
      · exact guarded_answer (by simp [hlog]) rfl (by simp)
      · exact guarded_panic (by simp [hg, hlog]) rfl
    · cases hlog : loggingPanics srv id <;> simp only [readGroupInfo, hid, hg, hlog]
      · exact guarded_answer (by simp [hlog]) hs (by split_ifs <;> simp_all)
      · exact guarded_panic (by simp [hg, hlog]) hs

lemma guarded_postGroupInfo (s : DsData) (path : String) (body : Payload) :
    Guarded s (Harmless srv s (.postGroupInfo path body)) (postGroupInfo srv s path body) := by
  cases body with
  | none => exact guarded_answer (.inl rfl) rfl (by simp)
  | some bytes =>
    unfold postGroupInfo
    refine Guarded.lock (P := ∀ id ∈ srv.decodeConfig path, loggingPanics srv id = false) ?_
      (by simp [Harmless])
    split
    · exact guarded_answer (by simp_all) rfl (by simp)
    · split_ifs
      · exact guarded_panic (by simp_all) rfl
      · split <;> exact guarded_answer (by simp_all) rfl (by simp)

lemma guarded_msgRecv (s : DsData) (path : String) :
    Guarded s (Harmless srv s (.msgRecv path)) (msgRecv srv s path) := by
  refine Guarded.lock (P := ∀ id ∈ srv.decodeConfig path, loggingPanics srv id = false) ?_ Iff.rfl
  split
  · exact guarded_answer (by simp_all) rfl (by simp)
  · split_ifs
    · exact guarded_panic (by simp_all) rfl
    · split
      · exact guarded_answer (by simp_all) rfl (by simp)
      · exact guarded_answer (by simp_all) rfl (by split_ifs <;> simp)

/-- A handler that unwraps nothing never panics. -/
lemma Guarded.lock_of {x : Mutex} {body : DsData → DsData × Answer}
    (h : Guarded s True (body s)) (hP : P) : Guarded s P (s.lock x body) :=
  h.lock (by simp [hP])

/-- **What each request does to the poison.** -/
lemma guarded (s : DsData) (r : Request) :
    Guarded s (Harmless srv s r) ((server srv).step s r) := by
  cases r with
  | registerClient body => exact guarded_registerClient srv s body
  | listClients order =>
    apply Guarded.lock_of _ trivial
    exact guarded_answer trivial rfl (by split_ifs <;> simp)
  | reset =>
    apply Guarded.lock_of _ trivial
    exact .lock_of (guarded_answer trivial rfl (by simp)) trivial
  | getKeyPackages path =>
    apply Guarded.lock_of _ trivial
    split
    · exact guarded_answer trivial rfl (by simp)
    · split
      · exact guarded_answer trivial rfl (by simp)
      · exact guarded_answer trivial rfl (by split_ifs <;> simp)
  | publishKeyPackages path body =>
    cases body with
    | none => exact guarded_answer trivial rfl (by simp)
    | some bytes =>
      apply Guarded.lock_of _ trivial
      repeat' split
      all_goals exact guarded_answer trivial rfl (by simp)
  | consumeKeyPackage path =>
    apply Guarded.lock_of _ trivial
    split
    · exact guarded_answer trivial rfl (by simp)
    · split
      · exact guarded_answer trivial rfl (by simp)
      · split
        · exact guarded_answer trivial rfl (by simp)
        · exact guarded_answer trivial rfl (by split_ifs <;> simp)
  | getGroupInfo path => exact guarded_getGroupInfo srv s path
  | groupExists path =>
    apply Guarded.lock_of _ trivial
    split <;> exact guarded_answer trivial rfl (by simp)
  | postGroupInfo path body => exact guarded_postGroupInfo srv s path body
  | sendWelcome body order => exact guarded_sendWelcome srv s body order
  | msgSend body => exact guarded_msgSend srv s body
  | msgRecv path => exact guarded_msgRecv srv s path

/-- **Which requests the service survives.**  In every run a request is answered if and only if it
    is harmless in the state before it, and harmless requests poison no mutex. -/
theorem survives (s : DsData) (rs : List Request) :
    (∀ x ∈ (server srv).history s rs,
      x.output ≠ .panicked ↔ Harmless srv x.before x.input) ∧
    ((∀ x ∈ (server srv).history s rs, Harmless srv x.before x.input) →
      ((server srv).final s rs).poisoned = s.poisoned) := by
  constructor
  · intro x hx
    obtain ⟨s', r, rfl⟩ := Transducer.exists_of_mem_history hx
    exact not_iff_comm.mp (guarded srv s' r).panics.symm
  · intro h
    refine (Transducer.invariant (I := fun s' => s'.poisoned = s.poisoned) ?_ rfl h).1
    intro s' r hs' hr
    exact ((guarded srv s' r).calm hr).trans hs'

def welcomeBytes : Bytes := [0, 1, 0, 3, 0, 1, 0, 0, 0, 0, 0, 0, 0, 0, 0, 0, 0, 0]

/-- A Welcome sent to `/send/message` poisons the mutexes of the clients and of the groups. -/
theorem welcome_poisons :
    ((server plainService).history (.start true)
      [.registerClient (some (registerBytes 65)), .msgSend (some welcomeBytes), .msgRecv "A"]).map
        (·.output) =
      [.ok (.greeting [65]), .panicked, .internalServerError] := by
  decide +kernel

/-- A registration, a commit and a fetch. -/
theorem survives_exchange :
    ((server plainService).final (.start true)
      [.registerClient (some (registerBytes 65)), .msgSend (some (commitBytes 0 65 [])),
        .msgRecv "A"]).poisoned = (DsData.start true).poisoned :=
  (survives plainService (.start true) _).2 (by decide +kernel)

end EmulatedMls.Ds
