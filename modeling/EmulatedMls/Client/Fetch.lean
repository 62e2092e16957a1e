import EmulatedMls.Client.Account

/-!
# Messages that are fetched

The delivery service deletes the messages of a user when it hands them out.  `fetch_updates` handles
them in a loop that ends with the first error, and it ignores the records that `process_in_message`
returns, while `parse_message` writes them.

**Source.**  `fetch_updates` of `emulated_client/src/user.rs`, `parse_message` of
`emulated_client/src/pubsub/mod.rs` and `msg_recv` of `delivery-service/ds/src/main.rs`.
-/

namespace EmulatedMls.Client

open Exec List

namespace User

variable {cfg : Config} {env : Env} {u : User} {r : Result}

/-! ## Errors and records of one message -/

/-- A message of another member that its group refuses, and not as a conflict. -/
def RefusesMessage (u : User) (m : GroupMessage) : Prop :=
  ∃ g, u.group = some g ∧ ¬ g.epoch < m.epoch ∧
    ∃ e, g.processMessage u.username m = .error e ∧ isConflict e = false

/-- A message of another member that yields a record. -/
def ReportsMessage (u : User) (m : GroupMessage) : Prop :=
  ∃ g, u.group = some g ∧ ((g.epoch < m.epoch ∧ (∃ c, m.content = .commit c) ∧ u.NotesCommit m) ∨
    (¬ g.epoch < m.epoch ∧ ∃ x, g.processMessage u.username m = .ok x ∧
      ∀ id, x ≠ .application id))

def Refuses (cfg : Config) (env : Env) (u : User) : Incoming → Prop
  | .group m =>
    if m.sender = u.username then
      u.pendingCommit.isSome ∧
        (u.group = none ∨ ¬ ∀ o ∈ confirmationSends cfg u, env.delivers o = true)
    else u.RefusesMessage m
  | .welcome w => u.joinGroup env w = none

/-- The message makes `process_in_message` return a record. -/
def Reports (env : Env) (u : User) : Incoming → Prop
  | .group m => m.sender ≠ u.username ∧ u.ReportsMessage m
  | .welcome w => u.joinGroup env w ≠ none

lemma confirmCommit_error_iff (h : confirmCommit cfg env u = .ok r) :
    r.error ≠ none ↔ u.pendingCommit.isSome ∧
      (u.group = none ∨ ¬ ∀ o ∈ confirmationSends cfg u, env.delivers o = true) := by
  cases confirmCommit_outcome h with
  | empty hslot => simp [hslot]
  | groupless hslot hg => simp [hslot, hg]
  | interrupted hslot hg hmerge hfail =>
    rw [confirmationSends_eq hslot hg hmerge]
    simpa [hslot, hg] using hfail
  | completed hslot hg hmerge hsent u' a hframe haction =>
    rw [confirmationSends_eq hslot hg hmerge]
    simpa [hslot, hg] using hsent

variable {m : GroupMessage}

lemma processCommitMessage_records {g : MlsGroup} {c : Commit}
    (h : processCommitMessage cfg env m g c u = .ok r) :
    r.error = none ∧ recordsIn r.outputs ≠ [] := by
  obtain ⟨u', action, -, ⟨rfl, -⟩ | ⟨-, -, rfl⟩⟩ := processCommitMessage_cases h
  · simp [leave, recordsIn]
  · simp [recordsIn]

/-- **Errors and records of a message of another member.** -/
lemma processProtocolMessage_spec (h : processProtocolMessage cfg env m u = .ok r) :
    (r.error ≠ none ↔ u.RefusesMessage m) ∧ (recordsIn r.outputs ≠ [] ↔ u.ReportsMessage m) := by
  unfold RefusesMessage ReportsMessage
  cases processProtocolMessage_branch h with
  | groupless hg => simp [hg]
  | early hg hepoch hplain => simp [hg, hepoch, hplain]
  | noted hg hepoch hm hnotes => simp [hg, hepoch, hm, hnotes, recordsIn]
  | marked hg hepoch hm hnotes => simp [hg, hepoch, hm, hnotes]
  | conflict hg hepoch hm hconflict => simp [hg, hepoch, hm, hconflict]
  | refused hg hepoch hm hconflict => simp [hg, not_lt.mp hepoch, hm, hconflict]
  | application hg hepoch hm => simp [hg, hepoch, hm]
  | proposal hg hepoch hm => simp [hg, not_lt.mp hepoch, hm, recordsIn]
  | commit hg hepoch hm hr =>
    obtain ⟨herr, hrecords⟩ := processCommitMessage_records hr
    simp [hg, not_lt.mp hepoch, hm, herr, hrecords]

lemma processWelcome_spec {w : WelcomeMessage} (h : processWelcome cfg env w u = .ok r) :
    (r.error ≠ none ↔ u.joinGroup env w = none) ∧
      (recordsIn r.outputs ≠ [] ↔ u.joinGroup env w ≠ none) := by
  cases processWelcome_cases h with
  | refused hjoin => simp [hjoin]
  | joined hjoin u' hgroup hactive | inactive hjoin u' hgroup hactive => simp [hjoin, recordsIn]

/-- **Errors and records of a message.** -/
lemma processInMessage_spec {m : Incoming} (h : u.processInMessage cfg env m = .ok r) :
    (r.error ≠ none ↔ u.Refuses cfg env m) ∧
      (m.sender ≠ u.username → (recordsIn r.outputs ≠ [] ↔ u.Reports env m)) := by
  cases m with
  | group m =>
    by_cases hown : m.sender = u.username
    · simp only [User.processInMessage, if_pos hown] at h
      exact ⟨by simpa only [Refuses, if_pos hown] using confirmCommit_error_iff h,
        fun hne => absurd hown hne⟩
    · simp only [User.processInMessage, if_neg hown] at h
      obtain ⟨herr, hrecords⟩ := processProtocolMessage_spec h
      refine ⟨by simpa only [Refuses, if_neg hown] using herr, fun _ => ?_⟩
      simpa only [Reports, ne_eq, hown, not_false_eq_true, true_and] using hrecords
  | welcome w =>
    simp only [User.processInMessage] at h
    split_ifs at h
    obtain ⟨herr, hrecords⟩ := processWelcome_spec h
    exact ⟨herr, fun _ => hrecords⟩

end User

/-! ## Lists of messages -/

variable {cfg : Config} {t : Turn} {ts : List Turn} {groups : String → User} {r : Reaction}

lemma processInMessage_error_iff (h : processInMessage cfg t groups = .ok r) :
    r.error ≠ none ↔ (groups t.group).Refuses cfg t.env t.message := by
  obtain ⟨r', hr', -, -, herr, -⟩ := processInMessage_cases h
  rw [herr, (User.processInMessage_spec hr').1]

lemma User.not_reports_of_own {env : Env} {u : User} {m : User.Incoming} {r : Result}
    (h : u.processInMessage cfg env m = .ok r) (hown : m.sender = u.username) :
    ¬ u.Reports env m := by
  cases m with
  | group m => exact fun hreports => hreports.1 hown
  | welcome w =>
    have hw : w.sender = u.username := hown
    simp [User.processInMessage, hw] at h

lemma processInMessage_returned_iff (h : processInMessage cfg t groups = .ok r) :
    r.returned ≠ none ↔ (groups t.group).Reports t.env t.message := by
  obtain ⟨r', hr', -, -, -, ⟨hown, -, hret⟩ | ⟨hother, -, hret⟩⟩ := processInMessage_cases h
  · exact iff_of_false (by simp [hret]) (User.not_reports_of_own hr' hown)
  · rw [← (User.processInMessage_spec hr').2 hother, hret]
    simp

/-- No message but the last one is refused, and none makes `process_in_message` return a record. -/
def Lossless (cfg : Config) : List Turn → (String → User) → Prop
  | [], _ => True
  | t :: ts, groups =>
    (ts ≠ [] → ¬ (groups t.group).Refuses cfg t.env t.message) ∧
      ¬ (groups t.group).Reports t.env t.message ∧
      ∀ r, processInMessage cfg t groups = .ok r → Lossless cfg ts r.groups

variable {f : Fetched}

lemma fetchUpdates_cons (h : fetchUpdates cfg (t :: ts) groups = .ok f) :
    ∃ r, processInMessage cfg t groups = .ok r ∧
      ((r.error ≠ none ∧ f.applied = [t] ∧ f.log = r.log) ∨
        (r.error = none ∧ ∃ f', fetchUpdates cfg ts r.groups = .ok f' ∧
          f.applied = t :: f'.applied ∧ f.log = r.log ++ f'.log)) := by
  obtain ⟨r, hr, h⟩ := bind_inv h
  refine ⟨r, hr, ?_⟩
  cases herr : r.error with
  | some e =>
    simp only [herr] at h
    cases h
    exact .inl ⟨by simp, rfl, rfl⟩
  | none =>
    simp only [herr] at h
    obtain ⟨f', hf', h⟩ := bind_inv h
    cases h
    exact .inr ⟨rfl, f', hf', rfl, rfl⟩

variable {log : List LogOp} {s : String → User}

lemma handleAll_cons (h : handleAll cfg (t :: ts) groups = .ok (s, log)) :
    ∃ r log', processInMessage cfg t groups = .ok r ∧
      handleAll cfg ts r.groups = .ok (s, log') ∧ log = r.written ++ log' := by
  obtain ⟨r, hr, h⟩ := bind_inv h
  obtain ⟨⟨s', log'⟩, hrest, h⟩ := bind_inv h
  cases h
  exact ⟨r, log', hr, hrest, rfl⟩

/-- `fetch_updates` never does more to the log than the updater. -/
lemma length_log_le (hf : fetchUpdates cfg ts groups = .ok f)
    (ha : handleAll cfg ts groups = .ok (s, log)) : f.log.length ≤ log.length := by
  induction ts generalizing groups f log with
  | nil =>
    cases hf
    simp
  | cons t ts ih =>
    obtain ⟨r, log', hr, ha', rfl⟩ := handleAll_cons ha
    obtain ⟨r', hr', hcases⟩ := fetchUpdates_cons hf
    obtain rfl : r = r' := Exec.unique hr hr'
    simp only [Reaction.written, length_append]
    rcases hcases with ⟨-, -, hlog⟩ | ⟨-, f', hf', -, hlog⟩
    · rw [hlog]
      omega
    · have hle := ih hf' ha'
      rw [hlog, length_append]
      omega

lemma returned_eq_none {log' : List LogOp} (h : r.log ++ log = r.written ++ log')
    (hle : log.length ≤ log'.length) : r.returned = none := by
  have hlen := congrArg List.length h
  simp only [Reaction.written, length_append, length_map] at hlen
  cases hr : r.returned with
  | none => rfl
  | some line =>
    simp only [hr, Option.toList_some, length_singleton] at hlen
    omega

/-- **No fetched message and no record is lost exactly if the list is lossless**: no message but the
    last is refused, and no message yields a record. -/
theorem nothing_lost_iff {f : Fetched} (hf : fetchUpdates cfg ts groups = .ok f) :
    (f.applied = ts ∧ ∃ s, handleAll cfg ts groups = .ok (s, f.log)) ↔ Lossless cfg ts groups := by
  induction ts generalizing groups f with
  | nil =>
    cases hf
    exact iff_of_true ⟨rfl, groups, rfl⟩ trivial
  | cons t ts ih =>
    obtain ⟨r, hr, hcases⟩ := fetchUpdates_cons hf
    have hrefuses := processInMessage_error_iff hr
    have hreports := processInMessage_returned_iff hr
    constructor
    · rintro ⟨happlied, s, hall⟩
      obtain ⟨r', log', hr', hall', hlog'⟩ := handleAll_cons hall
      obtain rfl : r = r' := Exec.unique hr hr'
      rcases hcases with ⟨-, hone, hlog⟩ | ⟨herr, f', hf', hrest, hlog⟩
      · -- the loop ended here, so this was the last message
        obtain rfl : ts = [] := by simpa using happlied.symm.trans hone
        have hreturned : r.returned = none := by
          have hnil : r.log ++ [] = r.written ++ log' := by rw [append_nil, ← hlog, hlog']
          exact returned_eq_none hnil (Nat.zero_le _)
        exact ⟨fun hne => absurd rfl hne, fun h => hreports.mpr h hreturned, fun _ _ => trivial⟩
      · have happlied' : f'.applied = ts := by simpa using hrest.symm.trans happlied
        have hreturned : r.returned = none := by
          refine returned_eq_none (hlog.symm.trans hlog') ?_
          exact length_log_le hf' hall'
        have hsame : f'.log = log' := by
          rw [hlog, Reaction.written, hreturned] at hlog'
          simpa using hlog'
        refine ⟨fun _ h => hrefuses.mpr h herr, fun h => hreports.mpr h hreturned, ?_⟩
        intro r' hr'
        obtain rfl : r = r' := Exec.unique hr hr'
        exact (ih hf').mp ⟨happlied', s, hsame ▸ hall'⟩
    · rintro ⟨hlast, hquiet, hlossless⟩
      have hreturned : r.returned = none := by
        by_contra hne
        exact hquiet (hreports.mp hne)
      have hwritten : r.written = r.log := by simp [Reaction.written, hreturned]
      rcases hcases with ⟨herr, hone, hlog⟩ | ⟨herr, f', hf', hrest, hlog⟩
      · obtain rfl : ts = [] := by
          by_contra hne
          exact hlast hne (hrefuses.mp herr)
        refine ⟨hone, r.groups, bind_ok hr (?_)⟩
        simp [handleAll, hwritten, hlog, pure, Except.pure, bind, Except.bind]
      · obtain ⟨happlied, s, hall⟩ := (ih hf').mpr (hlossless r hr)
        refine ⟨by rw [hrest, happlied], s, bind_ok hr (?_)⟩
        exact bind_ok hall (by rw [hwritten, hlog]; rfl)

/-! ## Messages that are lost -/

def fetchConfig : Config := ⟨.independent, Rng.scripted, 0, fun _ => []⟩

def addsB : Commit := ⟨0, "A", ["B"], [], []⟩

def joinedB : User := ⟨"B", some ⟨"A", [addsB], [], .operational⟩, none, none, some (true, 0), 0⟩

/-- `B` is in the group `"G"` and in no other. -/
def groupsOfB (group : String) : User := if group = "G" then joinedB else User.new "B"

def turn (group : String) (m : User.Incoming) : Turn := ⟨group, .fine, m⟩

def firstUpdate : Turn := turn "G" (.group ⟨"A", [addsB], .commit ⟨1, "A", [], [], []⟩⟩)

def secondUpdate : Turn :=
  turn "G" (.group ⟨"A", [⟨1, "A", [], [], []⟩, addsB], .commit ⟨2, "A", [], [], []⟩⟩)

/-- A Welcome to another group, with a ratchet tree that is not that of its group info. -/
def treelessWelcome : Turn :=
  turn "H" (.welcome ⟨"C", ⟨"C", [⟨0, "C", ["B"], [], []⟩]⟩, [], ["B"], none⟩)

/-- Two application messages and an own one between them are fetched without a loss. -/
theorem nothing_lost_iff_application :
    ∃ f, fetchUpdates fetchConfig [turn "G" (.group ⟨"A", [addsB], .application 0⟩),
        turn "G" (.group ⟨"B", [addsB], .application 1⟩),
        turn "G" (.group ⟨"A", [addsB], .application 2⟩)] groupsOfB = .ok f ∧
      Lossless fetchConfig [turn "G" (.group ⟨"A", [addsB], .application 0⟩),
        turn "G" (.group ⟨"B", [addsB], .application 1⟩),
        turn "G" (.group ⟨"A", [addsB], .application 2⟩)] groupsOfB :=
  ⟨_, rfl, (nothing_lost_iff rfl).mp ⟨rfl, _, rfl⟩⟩

/-- **Messages and records that are lost.**  `msg_recv` hands out Welcomes first, and the loop ends
    with the error of one, so that both updates of `A` are dropped.  Without the Welcome they are
    handled, but their records are never written. -/
theorem fetched_update_lost :
    (User.new "B").processInMessage fetchConfig .fine
        (.welcome ⟨"A", ⟨"A", [addsB]⟩, [addsB], ["B"], none⟩) =
      .ok ⟨joinedB, [.subscribe, .record ⟨.welcome "A", 1, 2⟩], none⟩ ∧
    (∃ f, fetchUpdates fetchConfig [treelessWelcome, firstUpdate, secondUpdate] groupsOfB = .ok f ∧
      f.applied = [treelessWelcome] ∧ f.error = some .staging ∧
      (f.groups "G").group.map (·.epoch) = some 1) ∧
    (∃ f, fetchUpdates fetchConfig [firstUpdate, secondUpdate] groupsOfB = .ok f ∧
      f.error = none ∧ f.log = [] ∧ (f.groups "G").group.map (·.epoch) = some 3) ∧
    ∃ s, handleAll fetchConfig [treelessWelcome, firstUpdate, secondUpdate] groupsOfB =
        .ok (s, [.push ⟨"G", ⟨.deepProcess "A", 2, 2⟩⟩, .push ⟨"G", ⟨.deepProcess "A", 3, 2⟩⟩]) ∧
      (s "G").group.map (·.epoch) = some 3 :=
  ⟨rfl, ⟨_, rfl, rfl, rfl, rfl⟩, ⟨_, rfl, rfl, rfl, rfl⟩, _, rfl, rfl⟩

end EmulatedMls.Client
