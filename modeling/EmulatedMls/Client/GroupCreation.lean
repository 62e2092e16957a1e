import EmulatedMls.Ds.GroupInfoLock
import EmulatedMls.Lib.Exec
import EmulatedMls.Lib.Machine

/-!
# Who creates a group

An independent agent that is not in a group asks the delivery service whether the group exists, and
creates it if the answer is no.  The group exists for others as soon as its creator has posted the
group info.

**Source.**  The loop over `self.parameters.groups` in `IndependentClientAgent::run`, `create_group`
of `user.rs`, `group_exists` and `publish_group_info` of `backend.rs`.

**Check and act.**  The question and the post are two requests.  What happens between them is not
noticed: `post_group_info` replaces whatever is there.
-/

namespace EmulatedMls.Client

namespace Creation

open Ds

/-- Where a client stands with respect to the group. -/
inductive Phase where
  /-- It is not in the group and has not asked. -/
  | outside
  /-- It was told that there is no group and goes on to create it. -/
  | toldAbsent
  /-- It was told that there is a group; the name is in `existing_groups`. -/
  | toldPresent
  /-- It is in the group that it has created. -/
  | inside
  /-- It has panicked. -/
  | stopped
  deriving DecidableEq, Repr

/-- The delivery service and its clients, with those that have created the group. -/
structure State where
  data : DsData
  phase : String → Phase
  creators : List String

/-- A client asks, creates the group or leaves it, or anybody sends another request. -/
inductive Event where
  | check (client : String)
  | create (client : String) (subscribes : Bool) (body : Payload)
  | leave (client : String)
  | request (r : Request)
  deriving DecidableEq, Repr

def State.move (s : State) (client : String) (p : Phase) : State :=
  { s with phase := Function.update s.phase client p }

section

variable (srv : Service) (path : String)

/-- `group_exists`: any answer but the two texts is an error, and the agent goes on. -/
def checked : Answer → Phase
  | .ok (.groupExists false) => .toldAbsent
  | .ok (.groupExists true) => .toldPresent
  | _ => .outside

/-- One event.  A client whose post is not answered with 200 panics. -/
def step (s : State) : Event → Option State
  | .check c =>
    if s.phase c = .outside then
      let r := (server srv).step s.data (.groupExists path)
      some ({ s with data := r.1 }.move c (checked r.2))
    else none
  | .create c subscribes body =>
    if s.phase c = .toldAbsent then
      if subscribes then
        let r := (server srv).step s.data (.postGroupInfo path body)
        let s := { s with data := r.1 }
        some (if r.2.isOk then { s.move c .inside with creators := s.creators ++ [c] }
          else s.move c .stopped)
      else some (s.move c .outside)
    else none
  | .leave c => if s.phase c = .inside then some (s.move c .outside) else none
  | .request r => some { s with data := (server srv).next s.data r }

/-- All clients start outside of the group. -/
def creation : Machine State Event where
  init s := (∀ c, s.phase c = .outside) ∧ s.creators = []
  step := step srv path

/-- A client is told that the group is absent only while no other one is to create it. -/
def Alone (s : State) : Event → Prop
  | .check c => (server srv).answer s.data (.groupExists path) = .ok (.groupExists false) →
      ∀ d, d ≠ c → s.phase d ≠ .toldAbsent
  | _ => True

end

variable {srv : Service} {path : String}

/-! ## Entries stay -/

/-- Some entry is there for the group, available or taken. -/
def Present (srv : Service) (path : String) (data : DsData) : Prop :=
  ∀ id, srv.decodeConfig path = some id → data.groupInfo id ≠ none

variable {data : DsData} {s : State}

lemma groupInfo_stays {id : Bytes} (h : data.groupInfo id ≠ none) (r : Request) :
    ((server srv).next data r).groupInfo id ≠ none := by
  have heffect := effect_next srv data r
  generalize (server srv).next data r = data' at heffect ⊢
  cases heffect with
  | same hs => rwa [hs.groupInfo]
  | asked hs =>
    rw [hs.groupInfo, DsData.takeGroupInfo]
    split_ifs
    · rw [DsData.groupInfo_setGroupInfo]
      split_ifs
      · simp
      · exact h
    · exact h
  | posted =>
    rw [DsData.groupInfo_setGroupInfo]
    split_ifs
    · simp
    · exact h
  | _ => exact h

lemma Present.next (h : Present srv path data) (r : Request) :
    Present srv path ((server srv).next data r) :=
  fun id hid => groupInfo_stays (h id hid) r

lemma present_of_post {body : Payload}
    (h : ((server srv).answer data (.postGroupInfo path body)).isOk = true) :
    Present srv path ((server srv).next data (.postGroupInfo path body)) := by
  intro id hid
  rcases postGroupInfo_cases srv data path body with ⟨-, hok⟩ | ⟨id', g, hid', hpost⟩
  · rw [show (server srv).answer data (.postGroupInfo path body) =
      (postGroupInfo srv data path body).2 from rfl, Answer.isOk_eq_false hok] at h
    cases h
  · obtain rfl : id = id' := Option.mem_unique hid hid'
    rw [show (server srv).next data (.postGroupInfo path body) = _ from
      Transducer.next_of_step _ hpost, DsData.groupInfo_setGroupInfo, if_pos rfl]
    simp

lemma checked_of_present (h : Present srv path data) :
    checked ((server srv).answer data (.groupExists path)) ≠ .toldAbsent := by
  cases hp : data.poisoned .groupInfo with
  | true => simp [Transducer.answer, server, groupExists, DsData.lock, hp, checked]
  | false =>
    cases hid : srv.decodeConfig path with
    | none => simp [Transducer.answer, server, groupExists, DsData.lock, hp, hid, checked]
    | some id =>
      have hsome : (data.groupInfo id).isSome := Option.isSome_iff_ne_none.mpr (h id hid)
      simp [Transducer.answer, server, groupExists, DsData.lock, hp, hid, hsome, checked]

lemma answer_of_toldAbsent {a : Answer} (h : checked a = .toldAbsent) :
    a = .ok (.groupExists false) := by
  unfold checked at h
  split at h <;> first | rfl | cases h

/-! ## The invariant -/

/-- At most one client is about to create the group, and nobody once it is created. -/
structure Inv (srv : Service) (path : String) (s : State) : Prop where
  one : ∀ c d, s.phase c = .toldAbsent → s.phase d = .toldAbsent → c = d
  created : s.creators = [] ∨
    s.creators.length = 1 ∧ Present srv path s.data ∧ ∀ c, s.phase c ≠ .toldAbsent

lemma Inv.move (h : Inv srv path s) (c : String) {p : Phase} (hp : p ≠ .toldAbsent) :
    Inv srv path (s.move c p) := by
  have hphase : ∀ d, (s.move c p).phase d = .toldAbsent → s.phase d = .toldAbsent := fun d hd => by
    by_cases hdc : d = c
    · subst hdc
      simp [State.move, hp] at hd
    · simpa [State.move, hdc] using hd
  refine ⟨fun d d' hd hd' => h.one d d' (hphase d hd) (hphase d' hd'), ?_⟩
  rcases h.created with hnone | ⟨hone, hpresent, hnobody⟩
  · exact .inl hnone
  · exact .inr ⟨hone, hpresent, fun d hd => hnobody d (hphase d hd)⟩

lemma Inv.request (h : Inv srv path s) (r : Request) :
    Inv srv path { s with data := (server srv).next s.data r } := by
  refine ⟨h.one, ?_⟩
  rcases h.created with hnone | ⟨hone, hpresent, hnobody⟩
  · exact .inl hnone
  · exact .inr ⟨hone, hpresent.next r, hnobody⟩

lemma Inv.step {s' : State} {e : Event} (h : Inv srv path s) (hok : Alone srv path s e)
    (hstep : step srv path s e = some s') : Inv srv path s' := by
  cases e with
  | check c =>
    simp only [Creation.step] at hstep
    split_ifs at hstep with hphase
    cases hstep
    have hnext := h.request (.groupExists path)
    by_cases htold : checked ((server srv).answer s.data (.groupExists path)) = .toldAbsent
    · have hothers := hok (answer_of_toldAbsent htold)
      have hnone : s.creators = [] := h.created.resolve_right fun hcreated =>
        checked_of_present hcreated.2.1 htold
      refine ⟨fun d d' hd hd' => ?_, .inl hnone⟩
      have honly : ∀ d, (s.move c .toldAbsent).phase d = .toldAbsent → d = c := fun d hd => by
        by_contra hdc
        exact hothers d hdc (by simpa [State.move, hdc] using hd)
      have hmove : checked ((server srv).step s.data (.groupExists path)).2 = .toldAbsent := htold
      rw [hmove] at hd hd'
      exact (honly d hd).trans (honly d' hd').symm
    · exact hnext.move c htold
  | create c subscribes body =>
    simp only [Creation.step] at hstep
    split_ifs at hstep with hphase hsub hpost
    · cases hstep
      have hmoved := (h.request (.postGroupInfo path body)).move c (p := .inside) (by simp)
      have hnone : s.creators = [] := h.created.resolve_right fun hcreated =>
        hcreated.2.2 c hphase
      refine ⟨hmoved.one, .inr ⟨by simp [hnone], present_of_post hpost, fun d hd => ?_⟩⟩
      by_cases hdc : d = c
      · simp [State.move, hdc] at hd
      · exact hdc (h.one d c (by simpa [State.move, hdc] using hd) hphase)
    · cases hstep
      exact (h.request (.postGroupInfo path body)).move c (by simp)
    · cases hstep
      exact h.move c (by simp)
  | leave c =>
    simp only [Creation.step] at hstep
    split_ifs at hstep with hphase
    cases hstep
    exact h.move c (by simp)
  | request r =>
    cases hstep
    exact h.request r

/-- **One creator**, in every run in which nobody is told that the group is absent while another
    client that was told so is still to create it. -/
theorem one_creator {s : State} (h : (creation srv path).Reaches (Alone srv path) s) :
    s.creators.length ≤ 1 := by
  have hinv : Inv srv path s := by
    refine h.invariant ?_ fun s e s' hinv hok hstep => hinv.step hok hstep
    rintro s ⟨hphase, hcreators⟩
    exact ⟨fun c d hc => by simp [hphase c] at hc, .inl hcreators⟩
  rcases hinv.created with hnone | ⟨hone, -⟩
  · simp [hnone]
  · exact hone.le

def nobody : State := ⟨.start true, fun _ => .outside, []⟩

def afterwards (es : List Event) : Option State := (creation plainService "G").run nobody es

/-- `A` and `B` both ask before one of them has posted its group info, and both create the group. -/
theorem two_creators :
    (afterwards [.check "A", .check "B", .create "A" true (some [0, 0]),
      .create "B" true (some [0, 0])]).map (·.creators) = some ["A", "B"] := by
  decide +kernel

/-- `A` creates the group before `B` asks. -/
theorem one_creator_in_turn :
    ∃ s, afterwards [.check "A", .create "A" true (some [0, 0]), .check "B"] = some s ∧
      s.phase "B" = .toldPresent ∧ s.creators.length ≤ 1 := by
  refine exists_some_and (by decide +kernel) fun s hs _ => ?_
  have hreach : (creation plainService "G").Reaches (Alone plainService "G") s := by
    refine Machine.Reaches.of_run (s := nobody) (.init ⟨fun _ => rfl, rfl⟩) ?_ hs
    -- `B` is told that the group is there
    exact ⟨fun _ d _ => by simp [nobody], trivial, fun h => absurd h (by decide +kernel), trivial⟩
  exact one_creator hreach

end Creation

end EmulatedMls.Client
