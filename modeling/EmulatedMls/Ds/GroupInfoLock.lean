import EmulatedMls.Ds.Survival

/-!
# The group info as a lock

With `group_info_mutex` the entry of a group in the map of the group infos is a lock: absent until
somebody asks for the group, then taken (`some none`), and available (`some (some g)`) after each
post until the next request takes it.

* An entry never becomes absent again, so at most one request is answered with 204.
* A taken entry stays taken until a post, so between two posts at most one request gets the info.

An orchestrated client goes on to create the group unless the answer is 200 or 403, so also when
the mutex of the map is poisoned.  But `create_group` posts the group info before the client has the
group, and a post that is not answered with 200 is a panic in `backend.rs`.
-/

namespace EmulatedMls.Ds

variable (srv : Service)

/-- The exchange asks for the info of the group and is answered as given. -/
def asks (id : Bytes) (answered : Answer → Bool) (x : Exchange DsData Request Answer) : Bool :=
  match x.input with
  | .getGroupInfo path => srv.decodeConfig path = some id && answered x.output
  | _ => false

/-- `200`. -/
def Answer.isOk : Answer → Bool
  | .ok _ => true
  | _ => false

/-- `204`. -/
def Answer.isNoContent : Answer → Bool
  | .noContent => true
  | _ => false

/-- The exchange is a successful post of the group. -/
def posts (id : Bytes) (x : Exchange DsData Request Answer) : Bool :=
  match x.input with
  | .postGroupInfo path _ => srv.decodeConfig path = some id && x.output.isOk
  | _ => false

/-- `OrchestratedClientAgent::run` calls `create_group` unless the info or a 403 comes back. -/
def createsGroup : Answer → Bool
  | .ok (.groupInfo _) => false
  | .forbidden => false
  | _ => true

/-- How many clients create the group: each is answered so that it calls `create_group`, and the
    post in that call is answered with 200.  Any later post counts as that of the client. -/
def creations (id : Bytes) : List (Exchange DsData Request Answer) → ℕ
  | [] => 0
  | x :: h => creations id h + if asks srv id createsGroup x && h.any (posts srv id) then 1 else 0

/-! ## What one request does to an entry -/

lemma DsData.groupInfo_setGroupInfo (s : DsData) (id id' : Bytes) (g : Option GroupInfoAndTree) :
    (s.setGroupInfo id g).groupInfo id' = if id' = id then some g else s.groupInfo id' := by
  by_cases h : id' = id <;> simp [setGroupInfo, h]

abbrev exchange (s : DsData) (r : Request) : Exchange DsData Request Answer :=
  ⟨s, r, (server srv).answer s r, (server srv).next s r⟩

/-- The possible moves of the entry of a group. -/
inductive Move (id : Bytes) (s : DsData) (r : Request) : Prop where
  | stay (hentry : ((server srv).next s r).groupInfo id = s.groupInfo id)
      (hok : asks srv id Answer.isOk (exchange srv s r) = false)
      (hno : asks srv id Answer.isNoContent (exchange srv s r) = false)
  | mark (hbefore : s.groupInfo id = none)
      (hafter : ((server srv).next s r).groupInfo id = some none)
      (hok : asks srv id Answer.isOk (exchange srv s r) = false)
  | take {g : GroupInfoAndTree} (hbefore : s.groupInfo id = some (some g))
      (hafter : ((server srv).next s r).groupInfo id = some none)
      (hno : asks srv id Answer.isNoContent (exchange srv s r) = false)
  | post {g : GroupInfoAndTree} (hposts : posts srv id (exchange srv s r) = true)
      (hafter : ((server srv).next s r).groupInfo id = some (some g))
      (hok : asks srv id Answer.isOk (exchange srv s r) = false)
      (hno : asks srv id Answer.isNoContent (exchange srv s r) = false)

variable {s : DsData} {id : Bytes} {a : Answer}

lemma Answer.isOk_eq_false (h : ∀ b, a ≠ .ok b) : a.isOk = false := by
  cases a with
  | ok b => exact absurd rfl (h b)
  | _ => rfl

lemma Answer.isNoContent_eq_false (h : a ≠ .noContent) : a.isNoContent = false := by
  cases a with
  | noContent => exact absurd rfl h
  | _ => rfl

lemma move_getGroupInfo (hm : s.groupInfoMutex = true) (path : String) :
    Move srv id s (.getGroupInfo path) := by
  rcases getGroupInfo_cases srv s path with ⟨⟨hs, hok⟩, hno⟩ | ⟨id', hid', hs, hcase⟩
  · refine .stay (congrFun hs.groupInfo id) ?_ ?_
    · simp [asks, Transducer.answer, server, Answer.isOk_eq_false hok]
    · simp [asks, Transducer.answer, server, Answer.isNoContent_eq_false hno]
  · have hentry : ((server srv).next s (.getGroupInfo path)).groupInfo id =
        if id = id' then some none else s.groupInfo id := by
      rw [show (server srv).next s (.getGroupInfo path) = (getGroupInfo srv s path).1 from rfl,
        hs.groupInfo, DsData.takeGroupInfo, if_pos hm, DsData.groupInfo_setGroupInfo]
    by_cases hid : id = id'
    · subst hid
      rw [if_pos rfl] at hentry
      rcases hcase with ⟨hnone, hno⟩ | ⟨g, hsome, hno⟩
      · exact .mark hnone hentry (by simp [asks, Transducer.answer, server, hno, Answer.isOk])
      · exact .take hsome hentry (by
          simp [asks, Transducer.answer, server, Answer.isNoContent_eq_false hno])
    · rw [if_neg hid] at hentry
      exact .stay hentry (by simp [asks, hid', Ne.symm hid]) (by simp [asks, hid', Ne.symm hid])

lemma move_postGroupInfo (path : String) (body : Payload) :
    Move srv id s (.postGroupInfo path body) := by
  rcases postGroupInfo_cases srv s path body with ⟨hs, -⟩ | ⟨id', g, hid', h⟩
  · exact .stay (congrFun hs.groupInfo id) rfl rfl
  · have hnext : (server srv).next s (.postGroupInfo path body) = _ := Transducer.next_of_step _ h
    have hanswer : (server srv).answer s (.postGroupInfo path body) = _ :=
      Transducer.answer_of_step _ h
    have hentry := s.groupInfo_setGroupInfo id' id (some g)
    rw [← hnext] at hentry
    by_cases hid : id = id'
    · subst hid
      exact .post (by simp [posts, hid', hanswer, Answer.isOk]) (by simpa using hentry) rfl rfl
    · exact .stay (by simpa [hid] using hentry) rfl rfl

lemma move (id : Bytes) (hm : s.groupInfoMutex = true) (r : Request) : Move srv id s r := by
  by_cases hget : ∃ path, r = .getGroupInfo path
  · obtain ⟨path, rfl⟩ := hget
    exact move_getGroupInfo srv hm path
  · by_cases hpost : ∃ path body, r = .postGroupInfo path body
    · obtain ⟨path, body, rfl⟩ := hpost
      exact move_postGroupInfo srv path body
    · have hframe := groupInfo_next srv (s := s) (not_exists.mp hget)
        fun path body h => hpost ⟨path, body, h⟩
      refine .stay (congrFun hframe.1 id) ?_ ?_
      all_goals
        cases r with
        | getGroupInfo path => exact absurd ⟨path, rfl⟩ hget
        | _ => rfl

/-! ## Runs -/

variable {rs : List Request}

lemma countP_noContent_le_one (hm : s.groupInfoMutex = true) :
    ((server srv).history s rs).countP (asks srv id Answer.isNoContent) ≤ 1 := by
  refine (Transducer.countP_le_one (I := fun s => s.groupInfoMutex = true)
    (C := fun s => s.groupInfo id ≠ none) ?_ ?_ hm ?_).1
  · intro s r hm
    exact (groupInfoMutex_next srv s r).trans hm
  · intro s r hm hhit
    rcases move srv id hm r with ⟨-, -, hno⟩ | ⟨hb, ha, -⟩ | ⟨-, -, hno⟩ | ⟨-, -, -, hno⟩
    · exact absurd hhit (by simp [hno])
    · exact ⟨not_not_intro hb, by simp [ha]⟩
    · exact absurd hhit (by simp [hno])
    · exact absurd hhit (by simp [hno])
  · intro x hx hm hC
    obtain ⟨s, r, rfl⟩ := Transducer.exists_of_mem_history hx
    rcases move srv id hm r with ⟨he, -, -⟩ | ⟨hb, -, -⟩ | ⟨-, ha, -⟩ | ⟨-, ha, -, -⟩
    · exact he ▸ hC
    · exact absurd hb hC
    · simp [ha]
    · simp [ha]

lemma countP_ok_le_one (hm : s.groupInfoMutex = true)
    (hposts : ∀ x ∈ (server srv).history s rs, posts srv id x = false) :
    ((server srv).history s rs).countP (asks srv id Answer.isOk) ≤ 1 := by
  refine (Transducer.countP_le_one (I := fun s => s.groupInfoMutex = true)
    (C := fun s => s.groupInfo id = some none) ?_ ?_ hm ?_).1
  · intro s r hm
    exact (groupInfoMutex_next srv s r).trans hm
  · intro s r hm hhit
    rcases move srv id hm r with ⟨-, hok, -⟩ | ⟨-, -, hok⟩ | ⟨hb, ha, -⟩ | ⟨-, -, hok, -⟩
    · exact absurd hhit (by simp [hok])
    · exact absurd hhit (by simp [hok])
    · exact ⟨by simp [hb], ha⟩
    · exact absurd hhit (by simp [hok])
  · intro x hx hm hC
    have hpost := hposts x hx
    obtain ⟨s, r, rfl⟩ := Transducer.exists_of_mem_history hx
    rcases move srv id hm r with ⟨he, -, -⟩ | ⟨hb, -, -⟩ | ⟨hb, -, -⟩ | ⟨hp, -, -, -⟩
    · exact he.trans hC
    · exact absurd (hb.symm.trans hC) (by simp)
    · exact absurd (hb.symm.trans hC) (by simp)
    · exact absurd hp (by simp [hpost])

/-- Who is told to create the group by a map that is not poisoned afterwards is answered 204. -/
lemma isNoContent_of_createsGroup {path : String} (hid : srv.decodeConfig path = some id)
    (hser : ∀ g, srv.groupInfoSerializes g = true)
    (hp : (getGroupInfo srv s path).1.poisoned .groupInfo = false)
    (hcreates : createsGroup (getGroupInfo srv s path).2 = true) :
    (getGroupInfo srv s path).2.isNoContent = true := by
  rcases s.lock_cases .groupInfo (readGroupInfo srv path) with ⟨hs, h⟩ | ⟨-, -, h⟩ | ⟨-, hno, h⟩
  · rw [getGroupInfo, h] at hp
    simp [hs] at hp
  · rw [getGroupInfo, h] at hp
    simp [DsData.poison] at hp
  · rw [getGroupInfo, h] at hcreates ⊢
    rcases hg : s.groupInfo id with - | - | g
    · simp [readGroupInfo, hid, hg, Answer.isNoContent]
    all_goals
      simp only [readGroupInfo, hid, hg, hser] at hno hcreates
      split_ifs at hno hcreates <;> simp_all [createsGroup]

/-- A map that is poisoned answers no post with 200 any more. -/
lemma posts_eq_false (hp : s.poisoned .groupInfo = true) :
    ((server srv).history s rs).any (posts srv id) = false := by
  have hstays : ∀ x ∈ (server srv).history s rs, x.before.poisoned .groupInfo = true :=
    (Transducer.invariant (A := fun _ _ => True) (I := fun s => s.poisoned .groupInfo = true)
      (fun s r hs _ => (guarded srv s r).stays _ hs) hp fun _ _ => trivial).2
  rw [List.any_eq_false]
  intro x hx
  obtain ⟨s', r, rfl⟩ := Transducer.exists_of_mem_history hx
  have hx' : s'.poisoned .groupInfo = true := hstays _ hx
  cases r with
  | postGroupInfo path body =>
    cases body with
    | none => simp [posts, Transducer.answer, server, postGroupInfo, Answer.isOk]
    | some bytes =>
      simp [posts, Transducer.answer, server, postGroupInfo, DsData.lock, hx', Answer.isOk]
  | _ => simp [posts]

lemma creations_le (hser : ∀ g, srv.groupInfoSerializes g = true) :
    creations srv id ((server srv).history s rs) ≤
      ((server srv).history s rs).countP (asks srv id Answer.isNoContent) := by
  induction rs generalizing s with
  | nil => exact le_rfl
  | cons r rs ih =>
    rw [Transducer.history_cons, creations, List.countP_cons]
    refine Nat.add_le_add ih ?_
    split_ifs with hcreates hno
    · exact le_rfl
    · -- the client was told to create the group, and a post went through afterwards
      obtain ⟨hasks, hposts⟩ := Bool.and_eq_true_iff.mp hcreates
      cases r with
      | getGroupInfo path =>
        obtain ⟨hid, htold⟩ := Bool.and_eq_true_iff.mp hasks
        have hp : ((server srv).next s (.getGroupInfo path)).poisoned .groupInfo = false := by
          by_contra hp
          simp [posts_eq_false srv (Bool.not_eq_false _ ▸ hp)] at hposts
        exact absurd (Bool.and_eq_true_iff.mpr ⟨hid, isNoContent_of_createsGroup srv
          (of_decide_eq_true hid) hser hp htold⟩) hno
      | _ => cases hasks
    all_goals exact Nat.zero_le _

/-- **The group info is a lock.**  Between two posts at most one request gets the info, at most one
    is answered with 204, and at most one orchestrated client creates the group. -/
theorem groupInfo_exclusive (hm : s.groupInfoMutex = true) (rs : List Request) (id : Bytes) :
    (∀ xs ys zs, (server srv).history s rs = xs ++ ys ++ zs →
      (∀ x ∈ ys, posts srv id x = false) → ys.countP (asks srv id Answer.isOk) ≤ 1) ∧
    ((server srv).history s rs).countP (asks srv id Answer.isNoContent) ≤ 1 ∧
    ((∀ g, srv.groupInfoSerializes g = true) →
      creations srv id ((server srv).history s rs) ≤ 1) := by
  have hno : ((server srv).history s rs).countP (asks srv id Answer.isNoContent) ≤ 1 :=
    countP_noContent_le_one srv hm
  refine ⟨fun xs ys zs h hposts => ?_, hno, fun hser => (creations_le srv hser).trans hno⟩
  obtain ⟨js, ks, -, hxy, -⟩ := Transducer.history_eq_append _ h
  obtain ⟨js1, js2, -, -, hys⟩ := Transducer.history_eq_append _ hxy
  have hm' : ((server srv).final s js1).groupInfoMutex = true :=
    (Transducer.invariant (I := fun s : DsData => s.groupInfoMutex = true)
      (A := fun _ _ => True) (fun s r hs _ => (groupInfoMutex_next srv s r).trans hs) hm
      fun _ _ => trivial).1
  subst hys
  exact countP_ok_le_one srv hm' hposts

/-- `A` creates the group, `B` gets its info, and the map is poisoned before `C` asks. -/
def handover : List Request :=
  [.getGroupInfo "G", .postGroupInfo "G" (some [0, 0]), .getGroupInfo "G",
    .postGroupInfo "ÿ" (some [0, 0]), .getGroupInfo "G", .postGroupInfo "G" (some [0, 0])]

/-- `C` is told to create the group, but its post is not answered with 200. -/
theorem groupInfo_exclusive_handover :
    ((server plainService).history (.start true) handover).map (·.output) =
      [.noContent, .ok .empty, .ok (.groupInfo ⟨⟨[]⟩, none⟩), .panicked, .internalServerError,
        .internalServerError] ∧
    creations plainService [71] ((server plainService).history (.start true) handover) ≤ 1 :=
  ⟨by decide +kernel, (groupInfo_exclusive plainService (by rfl) _ [71]).2.2 fun _ => rfl⟩

end EmulatedMls.Ds
