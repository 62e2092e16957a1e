import EmulatedMls.Ds.GroupInfoLock

/-!
# What clients can observe of the server

Two states are told apart by the answers to some list of requests.  Here the states after a reset
and after a refused registration are compared with the states they should be equivalent to: a
server that has just been started, and the state before the registration.

**Reset.**  `reset` clears the clients and the epochs.  The group infos and the poison of the
mutexes stay, and both are seen by clients: `group_exists` answers by the map of the group infos,
and a poisoned mutex turns the answers of the handlers that lock it into 500.

**Registration.**  `insert` puts the new entry into the map before `old.is_some()` is looked at, so
the conflict is answered after the queues, the reservations and the key packages of the registered
client are gone.
-/

namespace EmulatedMls.Ds

variable (srv : Service) {s : DsData}

/-! ## Requests that see the poison and the group infos -/

lemma getKeyPackages_poisoned (path : String) (h : s.poisoned .clients = true) :
    (server srv).answer s (.getKeyPackages path) = .internalServerError := by
  simp [Transducer.answer, server, getKeyPackages, DsData.lock, h]

lemma groupExists_poisoned (path : String) (h : s.poisoned .groupInfo = true) :
    (server srv).answer s (.groupExists path) = .internalServerError := by
  simp [Transducer.answer, server, groupExists, DsData.lock, h]

variable {id : Bytes}

lemma groupExists_answer {path : String} (hid : srv.decodeConfig path = some id)
    (h : s.poisoned .groupInfo = false) :
    (server srv).answer s (.groupExists path) = .ok (.groupExists (s.groupInfo id).isSome) := by
  simp [Transducer.answer, server, groupExists, DsData.lock, h, hid]

lemma msgSend_commit (hc : s.poisoned .clients = false) (hg : s.poisoned .groups = false)
    (hclients : s.clients [65] = none) (hgroups : s.groups [71] = none) :
    (server srv).answer s (.msgSend (some (commitBytes 0 65 []))) = .notFound := by
  have hread : tlsDeserialize (GroupMessage.read srv.toOpenmls) (commitBytes 0 65 []) =
      some ⟨⟨.privateMessage ⟨[71], 0, .commit, [], [], []⟩⟩, [65], none, [], none⟩ := by
    rfl
  simp [Transducer.answer, server, msgSend, hread, DsData.lock, hc, hg, queueMessage,
    ProtocolMessage.tryFrom, guardEpoch, ContentType.isHandshakeMessage, hgroups, pushAll, hclients]

lemma msgSend_poisoned (hc : s.poisoned .clients = false) (hg : s.poisoned .groups = true) :
    (server srv).answer s (.msgSend (some (commitBytes 0 65 []))) = .internalServerError := by
  have hread : (tlsDeserialize (GroupMessage.read srv.toOpenmls) (commitBytes 0 65 [])).isSome := by
    rfl
  obtain ⟨m, hm⟩ := Option.isSome_iff_exists.mp hread
  simp [Transducer.answer, server, msgSend, hm, DsData.lock, hc, hg]

/-! ## Reset -/

lemma next_reset (s : DsData) :
    ((server srv).next s .reset).groupInfo = s.groupInfo ∧
    ((server srv).next s .reset).poisoned = s.poisoned := by
  by_cases hc : s.poisoned .clients <;> by_cases hg : s.poisoned .groups <;>
    simp [Transducer.next, server, reset, DsData.lock, hc, hg]

lemma next_reset_eq_start (hinfo : ∀ id, s.groupInfo id = none)
    (hpoison : ∀ x, s.poisoned x = false) :
    (server srv).next s .reset = .start s.groupInfoMutex := by
  obtain ⟨clients, groupInfoMutex, groups, groupInfo, poisoned⟩ := s
  obtain rfl : groupInfo = fun _ => none := funext hinfo
  obtain rfl : poisoned = fun _ => false := funext hpoison
  rfl

/-- **Reset and restart.**  A reset server answers like a started one exactly if no group has an
    entry among the group infos and no mutex is poisoned. -/
theorem reset_equivalent_start (hpath : ∀ id, ∃ path, srv.decodeConfig path = some id)
    (s : DsData) :
    (server srv).Equivalent ((server srv).next s .reset) (.start s.groupInfoMutex) ↔
      (∀ id, s.groupInfo id = none) ∧ ∀ x, s.poisoned x = false := by
  constructor
  · intro heq
    obtain ⟨hinfo, hpoison⟩ := next_reset srv s
    obtain ⟨path, hdecode⟩ := hpath []
    have hc : s.poisoned .clients = false := by
      by_contra hc
      have := heq.answer_eq (.getKeyPackages path)
      rw [getKeyPackages_poisoned srv path (by simpa [hpoison] using hc)] at this
      simp [Transducer.answer, server, getKeyPackages, DsData.lock, DsData.start, hdecode] at this
    have hg : s.poisoned .groups = false := by
      by_contra hg
      have := heq.answer_eq (.msgSend (some (commitBytes 0 65 [])))
      rw [msgSend_poisoned srv (by rwa [hpoison]) (by simpa [hpoison] using hg),
        msgSend_commit srv rfl rfl rfl rfl] at this
      cases this
    have hi : s.poisoned .groupInfo = false := by
      by_contra hi
      have := heq.answer_eq (.groupExists path)
      rw [groupExists_poisoned srv path (by simpa [hpoison] using hi),
        groupExists_answer srv hdecode rfl] at this
      cases this
    refine ⟨fun id => ?_, fun x => by cases x <;> assumption⟩
    obtain ⟨path, hdecode⟩ := hpath id
    have := heq.answer_eq (.groupExists path)
    rw [groupExists_answer srv hdecode (by rwa [hpoison]), groupExists_answer srv hdecode rfl,
      hinfo] at this
    simpa [DsData.start] using this
  · rintro ⟨hinfo, hpoison⟩
    rw [next_reset_eq_start srv hinfo hpoison]
    exact .refl _

/-- A group whose info was posted still exists after a reset. -/
theorem group_exists_after_reset :
    (server plainService).answers ((server plainService).final (.start true)
      [.postGroupInfo "G" (some [0, 0]), .reset]) [.groupExists "G", .getGroupInfo "G"] =
        [.ok (.groupExists true), .ok (.groupInfo ⟨⟨[]⟩, none⟩)] ∧
    (server plainService).answers (.start true) [.groupExists "G", .getGroupInfo "G"] =
      [.ok (.groupExists false), .noContent] := by
  decide +kernel

lemma plainService_path (id : Bytes) : ∃ path, plainService.decodeConfig path = some id := by
  refine ⟨String.ofList (id.map fun b => Char.ofNat b.toNat), ?_⟩
  have hbyte (b : UInt8) : UInt8.ofNat (Char.ofNat b.toNat).toNat = b := by
    have hvalid : b.toNat.isValidChar := .inl (by have := b.toNat_lt; omega)
    have hchar : (Char.ofNat b.toNat).toNat = b.toNat := by
      rw [Char.ofNat, dif_pos hvalid]
      rfl
    rw [hchar, UInt8.ofNat_toNat]
  simp [plainService, Function.comp_def, hbyte]

/-- A server with two clients and a commit on its way is reset without a trace. -/
theorem reset_equivalent_start_twoClients :
    (server plainService).Equivalent
      ((server plainService).next ((server plainService).final (.start true)
        [.registerClient (some (registerBytes 65)), .registerClient (some (registerBytes 66)),
          .msgSend (some (commitBytes 0 65 [66]))]) .reset)
      (.start true) :=
  (reset_equivalent_start plainService plainService_path _).mpr
    ⟨fun _ => rfl, fun x => by cases x <;> rfl⟩

/-! ## Refused registrations -/

lemma registerClient_conflict {body : Payload}
    (h : (server srv).answer s (.registerClient body) = .conflict) :
    ∃ info, clientInfo srv body = some info ∧
      (server srv).next s (.registerClient body) = s.setClient info.id info := by
  rcases body with - | bytes
  · cases h
  rcases he : tlsDeserialize (ClientInfo.read srv.toOpenmls) bytes with - | ⟨name, kps⟩
  · simp [Transducer.answer, server, registerClient, he] at h
  rcases hi : ClientInfo.new name kps with - | info
  · simp [Transducer.answer, server, registerClient, he, hi] at h
  refine ⟨info, by simp [clientInfo, he, hi], ?_⟩
  simp only [Transducer.answer, server, registerClient, he, hi] at h
  simp only [Transducer.next, server, registerClient, he, hi]
  -- the only way to a conflict is through the unpoisoned mutex
  rcases s.lock_cases .clients _ with ⟨-, hlock⟩ | ⟨-, -, hlock⟩ | ⟨-, -, hlock⟩
  · rw [hlock] at h
    cases h
  · rw [hlock] at h
    cases h
  · rw [hlock]

lemma DsData.setClient_eq_self {c : ClientInfo} (h : s.clients id = some c) :
    s.setClient id c = s := by
  rw [setClient, ← h, Function.update_eq_self]

/-- **A refused registration** is harmless exactly if it would not change the client. -/
theorem conflict_harmless {body : Payload}
    (h : (server srv).answer s (.registerClient body) = .conflict) :
    ∃ info, clientInfo srv body = some info ∧
      ((server srv).Equivalent ((server srv).next s (.registerClient body)) s ∧
          ((server srv).next s (.registerClient body)).clients info.id = s.clients info.id ↔
        s.clients info.id =
          some ⟨info.clientName, info.keyPackages, ∅, info.id, [], []⟩) := by
  obtain ⟨info, hinfo, hnext⟩ := registerClient_conflict srv h
  have hnew : (⟨info.clientName, info.keyPackages, ∅, info.id, [], []⟩ : ClientInfo) = info := by
    obtain ⟨e, -, he⟩ := Option.bind_eq_some_iff.mp hinfo
    rw [ClientInfo.new_eq_some he]
  refine ⟨info, hinfo, ?_⟩
  rw [hnext, hnew]
  constructor
  · rintro ⟨-, hkept⟩
    simpa [DsData.setClient] using hkept.symm
  · intro hentry
    rw [DsData.setClient_eq_self hentry]
    exact ⟨.refl s, rfl⟩

/-- The second registration of `A` is refused, and the message that was waiting for `A` is gone. -/
theorem conflict_loses_message :
    (server plainService).answers (.start false)
      [.registerClient (some (registerBytes 65)), .msgSend (some (commitBytes 0 65 [])),
        .registerClient (some (registerBytes 65)), .msgRecv "A"] =
      [.ok (.greeting [65]), .ok .empty, .conflict, .ok (.messages [])] ∧
    (server plainService).answers (.start false)
      [.registerClient (some (registerBytes 65)), .msgSend (some (commitBytes 0 65 [])),
        .msgRecv "A"] =
      [.ok (.greeting [65]), .ok .empty, .ok (.messages
        [⟨⟨.privateMessage ⟨[71], 0, .commit, [], [], []⟩⟩, [65], none, [], none⟩])] := by
  decide +kernel

/-- A client that has got nothing yet registers once more. -/
theorem conflict_harmless_untouched :
    (server plainService).answer ((server plainService).final (.start false)
      [.registerClient (some (registerBytes 65))]) (.registerClient (some (registerBytes 65))) =
        .conflict ∧
    (server plainService).Equivalent
      ((server plainService).final (.start false)
        [.registerClient (some (registerBytes 65)), .registerClient (some (registerBytes 65))])
      ((server plainService).final (.start false) [.registerClient (some (registerBytes 65))]) := by
  have hconflict : (server plainService).answer ((server plainService).final (.start false)
      [.registerClient (some (registerBytes 65))]) (.registerClient (some (registerBytes 65))) =
        .conflict := by
    decide +kernel
  obtain ⟨info, hinfo, hiff⟩ := conflict_harmless plainService hconflict
  cases hinfo
  exact ⟨hconflict, (hiff.mpr (by decide +kernel)).1⟩

end EmulatedMls.Ds
