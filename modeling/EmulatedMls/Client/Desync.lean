import EmulatedMls.Client.Fetch

/-!
# Users that have fallen behind

A user that receives a commit of a later epoch cannot follow it.  It marks the group as
desynchronised, stores the epoch that the commit opens, and logs the commit if it opens a new epoch:
if the user was in sync, or if the commit was made in the epoch that is stored.

**Source.**  The branch `group_epoch < message_epoch` of `process_protocol_message` in
`emulated_client/src/user.rs`.

**Order.**  The stored epoch is overwritten before it is compared.  A commit of an earlier epoch
that arrives late sets it back, and the commits after it are noted a second time.

**Records.**  The records of this branch are those with elapsed time 0.
-/

namespace EmulatedMls.Client

open List Option User

namespace User

variable {cfg : Config} {env : Env} {id : ℕ} {u u' u'' : User} {r : Result}

/-- The epoch that is stored for a desynchronised group. -/
def storedEpoch (u : User) : Option ℕ :=
  match u.active with
  | some (false, epoch) => some epoch
  | _ => none

/-- The commit of another member is ahead of the group. -/
def isAhead (u : User) (m : GroupMessage) : Bool :=
  match u.group, m.content with
  | some g, .commit _ => decide (m.sender ≠ u.username ∧ g.epoch < m.epoch)
  | _, _ => false

lemma storedEpoch_eq_some {e : ℕ} : u.storedEpoch = some e ↔ u.active = some (false, e) := by
  unfold storedEpoch
  rcases u.active with _ | ⟨_ | _, epoch⟩ <;> simp

variable {m : GroupMessage} {g : MlsGroup}

lemma isAhead_iff : u.isAhead m = true ↔
    m.sender ≠ u.username ∧ (∃ c, m.content = .commit c) ∧
      ∃ g, u.group = some g ∧ g.epoch < m.epoch := by
  unfold isAhead
  cases u.group <;> cases m.content <;> simp

/-! ## Steps that leave the mark alone -/

/-- The user is marked as before, and its group has not gone back. -/
structure Steady (u u' : User) : Prop where
  active : u'.active = u.active
  group : ∀ g', u'.group = some g' → ∃ g, u.group = some g ∧ g.epoch ≤ g'.epoch

lemma Steady.refl (u : User) : Steady u u := ⟨rfl, fun g hg => ⟨g, hg, le_rfl⟩⟩

lemma Steady.of_group (hactive : u'.active = u.active) (hgroup : u'.group = u.group) :
    Steady u u' := ⟨hactive, fun g hg => ⟨g, hgroup ▸ hg, le_rfl⟩⟩

lemma Steady.trans (h : Steady u u') (h' : Steady u' u'') : Steady u u'' := by
  refine ⟨h'.active.trans h.active, fun g'' hg'' => ?_⟩
  obtain ⟨g', hg', hle'⟩ := h'.group g'' hg''
  obtain ⟨g, hg, hle⟩ := h.group g' hg'
  exact ⟨g, hg, hle.trans hle'⟩

variable {g' : MlsGroup}

lemma Steady.advance (hactive : u'.active = u.active) (hg : u.group = some g)
    (hg' : u'.group = some g') (hle : g.epoch ≤ g'.epoch) : Steady u u' := by
  refine ⟨hactive, fun x hx => ⟨g, hg, ?_⟩⟩
  obtain rfl : g' = x := mem_unique hg' hx
  exact hle

lemma epoch_le_of_merge {own : String} (h : g.mergePendingCommit own = .ok g') :
    g.epoch ≤ g'.epoch := by
  obtain ⟨-, rfl⟩ | ⟨c, -, rfl⟩ := MlsGroup.mergePendingCommit_cases h
  · exact le_rfl
  · exact Nat.le_succ _

lemma confirmCommit_steady (h : confirmCommit cfg env u = .ok r) : Steady u r.user := by
  cases confirmCommit_outcome h with
  | empty hslot => exact .refl u
  | groupless hslot hg => exact .of_group rfl rfl
  | interrupted hslot hg hmerge hfail => exact .advance rfl hg rfl (epoch_le_of_merge hmerge)
  | completed hslot hg hmerge hsent u' a hframe haction =>
    have hu' := hframe.frame
    exact .advance (by rw [hu']) hg (by rw [hu']) (epoch_le_of_merge hmerge)

lemma postProcessCommit_steady {w : Option StoredWelcome} {a : Action}
    (h : postProcessCommit cfg env u g m w a = .ok r) : Steady u r.user := by
  unfold postProcessCommit at h
  dsimp only at h
  split_ifs at h with hsent
  · cases hagent : cfg.agent with
    | independent =>
      simp only [hagent] at h
      cases h
      exact .of_group rfl rfl
    | orchestrator params =>
      simp only [hagent] at h
      obtain ⟨r', hr', h⟩ := Exec.bind_inv h
      cases h
      have hconfirm := confirmCommit_steady hr'
      exact ⟨hconfirm.active, hconfirm.group⟩
  · obtain rfl := fails_eq_ok h
    exact .refl u

lemma call_steady {k : Call} (h : u.call cfg env id k = .ok r) : Steady u r.user := by
  cases call_cases h with
  | refused e he | application hg hslot hm hsent => exact .refl u
  | dropped hg hkept hbuild => exact .advance rfl hg rfl le_rfl
  | posted hg hprep hpost =>
    refine Steady.trans ?_ (postProcessCommit_steady hpost)
    refine .advance rfl hg rfl ?_
    obtain ⟨-, -, -, -, ⟨c, -, -, -, -, -, -, ⟨ht, -⟩ | ⟨rfl, -⟩⟩ | ⟨p, -, ht, -⟩⟩ := hprep.spec
    · exact (congrArg List.length ht).ge
    · exact Nat.le_succ _
    · exact (congrArg List.length ht).ge

variable {c : Commit}

lemma nextAction_active {action : NextAction} (h : nextAction cfg env g c u = .ok (u', action)) :
    u'.active = u.active := by
  unfold nextAction at h
  cases hagent : cfg.agent with
  | independent =>
    simp only [hagent] at h
    cases h
    rfl
  | orchestrator params =>
    simp only [hagent] at h
    obtain ⟨-, -, -, -, -, -, rfl, -⟩ := orchestrate_eq_ok.mp h
    rfl

lemma processCommitMessage_steady (hg : u.group = some g)
    (h : processCommitMessage cfg env m g c u = .ok r) : Steady u r.user := by
  obtain ⟨u', action, hnext, hr⟩ := processCommitMessage_cases h
  have hactive := nextAction_active hnext
  obtain ⟨rfl, -⟩ | ⟨-, -, rfl⟩ := hr
  · exact ⟨hactive, by simp [leave]⟩
  · refine .advance ?_ hg (notifyAgent_group _ _) (Nat.le_succ _)
    exact (notifyAgent_active _ _).trans hactive

lemma processProtocolMessage_steady (hother : m.sender ≠ u.username)
    (hbehind : u.isAhead m = false) (h : processProtocolMessage cfg env m u = .ok r) :
    Steady u r.user := by
  cases processProtocolMessage_branch h with
  | noted hg hepoch hm hnotes | marked hg hepoch hm hnotes =>
    simp [isAhead, hg, hm, hother, hepoch] at hbehind
  | proposal hg hepoch hm => exact .advance rfl hg rfl le_rfl
  | commit hg hepoch hm hr => exact processCommitMessage_steady hg hr
  | _ => exact .refl u

lemma processProtocolMessage_ahead (hahead : u.isAhead m = true)
    (h : processProtocolMessage cfg env m u = .ok r) :
    r.user = { u with active := some (false, m.epoch + 1) } ∧ (recordsIn r.outputs = [] ∨
      (u.NotesCommit m ∧ recordsIn r.outputs = [⟨.process m.sender, m.epoch + 1, 0⟩])) := by
  obtain ⟨-, ⟨c, hc⟩, g, hg, hepoch⟩ := isAhead_iff.mp hahead
  have hlater : ∀ g', u.group = some g' → g'.epoch < m.epoch := by
    intro g' hg'
    obtain rfl := mem_unique hg hg'
    exact hepoch
  cases processProtocolMessage_branch h with
  | groupless hnone => simp [hg] at hnone
  | early hg' hepoch' hplain => exact absurd hc (hplain c)
  | noted hg' hepoch' hm hnotes => exact ⟨rfl, .inr ⟨hnotes, rfl⟩⟩
  | marked hg' hepoch' hm hnotes => exact ⟨rfl, .inl rfl⟩
  | conflict hg' hnot | refused hg' hnot | application hg' hnot | proposal hg' hnot
  | commit hg' hnot => exact absurd (hlater _ hg') hnot

end User

/-! ## Runs -/

/-- A user with the epochs that were stored for its group while it was desynchronised, and the
    records of the commits that it has noted without following them. -/
structure Behind where
  user : User
  stored : List ℕ
  noted : List ActionRecord
  deriving DecidableEq, Repr

namespace Behind

/-- A message reaches the user, or its agent makes a call. -/
inductive Event where
  | message (env : Env) (m : Incoming)
  | call (env : Env) (id : ℕ) (k : Call)

def handle (cfg : Config) (u : User) : Event → Exec Result
  | .message env m => u.processInMessage cfg env m
  | .call env id k => u.call cfg env id k

def Event.isAhead (u : User) : Event → Bool
  | .message _ (.group m) => u.isAhead m
  | _ => false

def step (cfg : Config) (s : Behind) (e : Event) : Option Behind :=
  match handle cfg s.user e with
  | .error _ => none
  | .ok r => some {
      user := r.user
      stored := s.stored ++ r.user.storedEpoch.toList
      noted := s.noted ++ if e.isAhead s.user then recordsIn r.outputs else [] }

/-- The event does not set the mark back: a commit ahead of a desynchronised group opens no earlier
    epoch than the stored one, and a Welcome opens no earlier epoch than any that was stored. -/
def Forward (s : Behind) : Event → Prop
  | .message _ (.group m) =>
    s.user.isAhead m = true → ∀ e, s.user.active = some (false, e) → e ≤ m.epoch + 1
  | .message env (.welcome w) => ∀ g, s.user.joinGroup env w = some g → ∀ e ∈ s.stored, e ≤ g.epoch
  | .call .. => True

end Behind

/-- The runs of a user, from any state it can be in. -/
def behind (cfg : Config) : Machine Behind Behind.Event where
  init s := s.stored = s.user.storedEpoch.toList ∧ s.noted = []
  step := Behind.step cfg

namespace Behind

variable {cfg : Config} {u : User} {r : Result} {s s' : Behind}

/-- What an event does to the mark. -/
inductive Moves (u : User) (e : Event) (r : Result) : Prop where
  | steady (h : u.Steady r.user) (hbehind : e.isAhead u = false)
  | ahead {env : Env} {m : GroupMessage} {g : MlsGroup} (he : e = .message env (.group m))
      (hahead : u.isAhead m = true) (hg : u.group = some g) (hepoch : g.epoch < m.epoch)
      (hu : r.user = { u with active := some (false, m.epoch + 1) })
      (hrecords : recordsIn r.outputs = [] ∨
        (u.NotesCommit m ∧ recordsIn r.outputs = [⟨.process m.sender, m.epoch + 1, 0⟩]))
  | opens {env : Env} {w : WelcomeMessage} {g : MlsGroup} (he : e = .message env (.welcome w))
      (hjoin : u.joinGroup env w = some g) (hactive : r.user.active = some (true, 0))
      (hgroup : ∀ g', r.user.group = some g' → g' = g)

variable {e : Event}

/-- **A step leaves the mark alone, sets it, or opens the group anew.** -/
lemma handle_cases (h : handle cfg u e = .ok r) : Moves u e r := by
  cases e with
  | call env id k => exact .steady (call_steady h) rfl
  | message env m =>
  cases m with
  | welcome w =>
    simp only [handle, User.processInMessage] at h
    split_ifs at h
    cases User.processWelcome_cases h with
    | refused hjoin => exact .steady (.refl u) rfl
    | joined hjoin u' hgroup hactive =>
      exact .opens rfl hjoin hactive fun g' hg' => mem_unique hg' hgroup
    | inactive hjoin u' hgroup hactive =>
      exact .opens rfl hjoin hactive fun g' hg' => by simp [hgroup] at hg'
  | group m =>
  by_cases hown : m.sender = u.username
  · simp only [handle, User.processInMessage, if_pos hown] at h
    refine .steady (User.confirmCommit_steady h) ?_
    exact Bool.eq_false_iff.mpr fun hahead => (User.isAhead_iff.mp hahead).1 hown
  simp only [handle, User.processInMessage, if_neg hown] at h
  cases hahead : u.isAhead m with
  | false => exact .steady (User.processProtocolMessage_steady hown hahead h) hahead
  | true =>
    obtain ⟨-, -, g, hg, hepoch⟩ := User.isAhead_iff.mp hahead
    obtain ⟨hu, hrecords⟩ := User.processProtocolMessage_ahead hahead h
    exact .ahead rfl hahead hg hepoch hu hrecords

/-- The stored epochs are sorted, and the commits are noted for distinct ones of them.  The mark, or
    the epoch of a group that is in sync, is above all of them. -/
structure Ascending (s : Behind) : Prop where
  sorted : s.stored.Pairwise (· ≤ ·)
  distinct : (s.noted.map (·.epoch)).Nodup
  noted_stored : ∀ a ∈ s.noted, a.epoch ∈ s.stored
  unmarked : s.user.active = none → s.stored = []
  marked : ∀ e, s.user.active = some (false, e) → ∀ x ∈ s.stored, x ≤ e
  synced : ∀ e g, s.user.active = some (true, e) → s.user.group = some g →
    ∀ x ∈ s.stored, x ≤ g.epoch

lemma Ascending.init (h : (behind cfg).init s) : Ascending s := by
  obtain ⟨hstored, hnoted⟩ := h
  rcases hactive : s.user.active with _ | ⟨_ | _, epoch⟩
  all_goals
    rw [storedEpoch, hactive] at hstored
    constructor <;> simp [hstored, hnoted, hactive]

variable {u' : User}

section

variable (h : Ascending s)
include h

lemma Ascending.steady (hu' : s.user.Steady u') :
    Ascending ⟨u', s.stored ++ u'.storedEpoch.toList, s.noted⟩ := by
  have hactive := hu'.active
  rcases hmark : s.user.active with _ | ⟨_ | _, epoch⟩
  · have hnone : u'.storedEpoch = none := by simp [storedEpoch, hactive, hmark]
    have hstored := h.unmarked hmark
    have hnoted : s.noted = [] :=
      eq_nil_iff_forall_not_mem.mpr fun a ha => by simpa [hstored] using h.noted_stored a ha
    constructor <;> simp [hnone, hstored, hnoted]
  · -- the mark is stored once more
    have hsome : u'.storedEpoch = some epoch :=
      storedEpoch_eq_some.mpr (hactive.trans hmark)
    have hle := h.marked epoch hmark
    rw [hsome]
    refine ⟨?_, h.distinct, fun a ha => mem_append_left _ (h.noted_stored a ha), ?_, ?_, ?_⟩
    · exact pairwise_append.mpr ⟨h.sorted, pairwise_singleton .., by simpa using hle⟩
    · simp [hactive, hmark]
    · simp only [hactive, hmark, toList_some, mem_append, mem_singleton]
      rintro e ⟨⟩ x (hx | rfl)
      · exact hle x hx
      · exact le_rfl
    · simp [hactive, hmark]
  · have hnone : u'.storedEpoch = none := by simp [storedEpoch, hactive, hmark]
    rw [hnone, toList_none, append_nil]
    refine ⟨h.sorted, h.distinct, h.noted_stored, by simp [hactive, hmark],
      by simp [hactive, hmark], fun e g' _ hg' x hx => ?_⟩
    obtain ⟨g, hg, hle⟩ := hu'.group g' hg'
    exact (h.synced epoch g hmark hg x hx).trans hle

variable {g : MlsGroup} {m : GroupMessage}

section

variable (hg : s.user.group = some g) (hepoch : g.epoch < m.epoch)
include hg hepoch

lemma Ascending.le_of_notes (hnotes : s.user.NotesCommit m) : ∀ x ∈ s.stored, x ≤ m.epoch := by
  obtain ⟨active, epoch, hmark, hcase⟩ := hnotes
  intro x hx
  cases active with
  | true => exact (h.synced epoch g hmark hg x hx).trans hepoch.le
  | false =>
    obtain rfl : epoch = m.epoch := by simpa using hcase
    exact h.marked _ hmark x hx

section

variable (hforward : ∀ e, s.user.active = some (false, e) → e ≤ m.epoch + 1)
include hforward

lemma Ascending.le_of_forward :
    ∀ x ∈ s.stored, x ≤ m.epoch + 1 := by
  intro x hx
  rcases hmark : s.user.active with _ | ⟨_ | _, epoch⟩
  · simp [h.unmarked hmark] at hx
  · exact (h.marked epoch hmark x hx).trans (hforward epoch hmark)
  · exact (h.synced epoch g hmark hg x hx).trans (by omega)

lemma Ascending.ahead {rs : List ActionRecord}
    (hrs : rs = [] ∨ (s.user.NotesCommit m ∧ rs = [⟨.process m.sender, m.epoch + 1, 0⟩])) :
    Ascending ⟨{ s.user with active := some (false, m.epoch + 1) }, s.stored ++ [m.epoch + 1],
      s.noted ++ rs⟩ := by
  have hle := h.le_of_forward hg hepoch hforward
  refine ⟨?_, ?_, ?_, by simp, ?_, by simp⟩
  · exact pairwise_append.mpr ⟨h.sorted, pairwise_singleton .., by simpa using hle⟩
  · obtain rfl | ⟨hnotes, rfl⟩ := hrs
    · simpa using h.distinct
    · have hbelow := h.le_of_notes hg hepoch hnotes
      rw [map_append, nodup_append]
      refine ⟨h.distinct, by simp, fun x hx y hy hxy => ?_⟩
      obtain ⟨a, ha, rfl⟩ := mem_map.mp hx
      obtain rfl : y = m.epoch + 1 := by simpa using hy
      have hlow := hbelow _ (h.noted_stored a ha)
      omega
  · intro a ha
    rcases mem_append.mp ha with ha | ha
    · exact mem_append_left _ (h.noted_stored a ha)
    · obtain rfl | ⟨-, rfl⟩ := hrs
      · cases ha
      · obtain rfl := mem_singleton.mp ha
        simp
  · rintro e ⟨⟩ x hx
    rcases mem_append.mp hx with hx | hx
    · exact hle x hx
    · exact (mem_singleton.mp hx).le

end

end

lemma Ascending.opens (hactive : u'.active = some (true, 0))
    (hgroup : ∀ g', u'.group = some g' → g' = g) (hforward : ∀ e ∈ s.stored, e ≤ g.epoch) :
    Ascending ⟨u', s.stored ++ u'.storedEpoch.toList, s.noted⟩ := by
  have hnone : u'.storedEpoch = none := by simp [storedEpoch, hactive]
  rw [hnone, toList_none, append_nil]
  refine ⟨h.sorted, h.distinct, h.noted_stored, by simp [hactive], by simp [hactive], ?_⟩
  intro e g' _ hg' x hx
  obtain rfl := hgroup g' hg'
  exact hforward x hx

lemma Ascending.step (hforward : s.Forward e)
    (hs : Behind.step cfg s e = some s') : Ascending s' := by
  unfold Behind.step at hs
  cases hr : handle cfg s.user e with
  | error f => simp [hr] at hs
  | ok r =>
  simp only [hr, some.injEq] at hs
  subst hs
  cases handle_cases hr with
  | steady hsteady hbehind =>
    rw [hbehind]
    simpa using h.steady hsteady
  | ahead he hahead hg hepoch hu hrecords =>
    subst he
    have hset := h.ahead hg hepoch (hforward hahead) hrecords
    rw [hu]
    simpa [Event.isAhead, hahead, storedEpoch] using hset
  | opens he hjoin hactive hgroup =>
    subst he
    simpa [Event.isAhead] using h.opens hactive hgroup (hforward _ hjoin)

end

end Behind

end EmulatedMls.Client
