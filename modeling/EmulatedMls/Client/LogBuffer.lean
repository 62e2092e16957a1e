import EmulatedMls.Client.Fetch

/-!
# The log of a user that leaves

The records of a user wait in `file_buffer`.  They are flushed to the log file when 50 of them have
come together, when a Welcome is written, and when a commit makes the user leave a group.  In the
last case the flush comes too early: `process_in_message` flushes, and then returns the record of
the commit to `parse_message`, which puts it into the empty buffer.

**Source.**  `process_in_message`, `write_timestamp` and `flush_logs` of
`emulated_client/src/user.rs` and `parse_message` of `emulated_client/src/pubsub/mod.rs`.

**Runs.**  A user creates and joins groups, is called by its agent, and gets messages from the
updater.  Each step also says whether the file takes what is flushed.  A user goes on after a
message that ends in an error, although the updater would stop it.
-/

namespace EmulatedMls.Client

open Exec List

def fileBufferSize : ℕ := 50

/-- A line that is flushed at once. -/
def LogLine.isWelcome (l : LogLine) : Bool :=
  match l.record.action with
  | .welcome _ => true
  | _ => false

/-- `write_timestamp` and `flush_logs`, one after the other. -/
def writeLog (writes : Bool) (log : BufferedLog LogLine) (ops : List LogOp) : BufferedLog LogLine :=
  log.run fileBufferSize LogLine.isWelcome writes ops

/-- A user with its groups, its log and all the records that it has produced. -/
structure Account where
  groups : String → User
  log : BufferedLog LogLine
  produced : List LogLine

namespace Account

structure Effect where
  groups : String → User
  log : List LogOp
  produced : List LogLine

/-- A call that writes its records itself. -/
def Effect.ofCall (groups : String → User) (group : String) (r : Result) : Effect :=
  let lines := (recordsIn r.outputs).map (LogLine.mk group)
  ⟨Function.update groups group r.user, lines.map .push, lines⟩

/-- A Welcome has to name the user as a recipient. -/
def addressed (groups : String → User) (t : Turn) : Bool :=
  match t.message with
  | .group _ => true
  | .welcome w => decide ((groups t.group).username ∈ w.recipients)

def parseMessage (cfg : Config) (t : Turn) (groups : String → User) : Exec Effect :=
  if addressed groups t then do
    let r ← processInMessage cfg t groups
    pure ⟨r.groups, r.written, (recordsIn r.outputs).map (LogLine.mk t.group)⟩
  else pure ⟨groups, [], []⟩

inductive Event where
  | createGroup (group : String) (env : Env)
  | externalJoin (group : String) (env : Env) (id : ℕ) (creator : String) (info : Transcript)
  | call (group : String) (env : Env) (id : ℕ) (k : User.Call)
  | ack (group sender : String)
  | message (t : Turn)

def effect (cfg : Config) (groups : String → User) : Event → Exec Effect
  | .createGroup group env => do
    let r ← (groups group).createGroup cfg env
    pure (.ofCall groups group r)
  | .externalJoin group env id creator info => do
    let r ← (groups group).externalJoin cfg env id creator info
    pure (.ofCall groups group r)
  | .call group env id k => do
    let r ← (groups group).call cfg env id k
    pure (.ofCall groups group r)
  | .ack group sender => do
    let u ← (groups group).processAck cfg sender
    pure ⟨Function.update groups group u, [], []⟩
  | .message t => parseMessage cfg t groups

/-- An event in which the file takes what is flushed, or does not. -/
structure Input where
  writes : Bool
  event : Event

def step (cfg : Config) (s : Account) (i : Input) : Option Account :=
  match effect cfg s.groups i.event with
  | .error _ => none
  | .ok x => some ⟨x.groups, writeLog i.writes s.log x.log, s.produced ++ x.produced⟩

def new (name : String) : Account := ⟨fun _ => User.new name, ⟨[], []⟩, []⟩

end Account

def account (cfg : Config) (name : String) : Machine Account Account.Input where
  init s := s = Account.new name
  step := Account.step cfg

/-! ## What a message writes -/

namespace User

variable {cfg : Config} {env : Env} {u : User} {r : Result}

/-- At most one record is put out, and before it the wish to leave the topic. -/
lemma processProtocolMessage_outputs {m : GroupMessage}
    (h : processProtocolMessage cfg env m u = .ok r) :
    r.outputs = [] ∨ ∃ a : ActionRecord, (∀ sender, a.action ≠ .welcome sender) ∧
      (r.outputs = [.record a] ∨ r.outputs = [.unsubscribe, .record a]) := by
  cases processProtocolMessage_branch h with
  | noted hg hepoch hm hnotes | proposal hg hepoch hm => exact .inr ⟨_, by simp, .inl rfl⟩
  | commit hg hepoch hm hr =>
    obtain ⟨u', action, -, ⟨rfl, -⟩ | ⟨-, -, rfl⟩⟩ := processCommitMessage_cases hr
    · exact .inr ⟨_, by simp, .inr rfl⟩
    · exact .inr ⟨_, by simp, .inl rfl⟩
  | _ => exact .inl rfl

variable {m : Incoming}

lemma length_recordsIn_le_one (hother : m.sender ≠ u.username)
    (h : u.processInMessage cfg env m = .ok r) : (recordsIn r.outputs).length ≤ 1 := by
  cases m with
  | welcome w =>
    have hne : w.sender ≠ u.username := hother
    simp only [User.processInMessage, if_neg hne] at h
    cases processWelcome_cases h <;> simp [recordsIn]
  | group m =>
    have hne : m.sender ≠ u.username := hother
    simp only [User.processInMessage, if_neg hne] at h
    obtain hout | ⟨a, -, hout | hout⟩ := processProtocolMessage_outputs h <;>
      simp [hout, recordsIn]

lemma confirmCommit_stays (h : confirmCommit cfg env u = .ok r) :
    .unsubscribe ∉ r.outputs ∧ .ack ∉ r.outputs := by
  have hsends : ∀ e g, .unsubscribe ∉ entrySends cfg u e g ∧ .ack ∉ entrySends cfg u e g := by
    intro e g
    constructor <;> intro hmem <;>
      obtain ⟨sw, x, active, -, -, ho⟩ | ⟨ho, -⟩ := mem_entrySends hmem <;> cases ho
  cases confirmCommit_outcome h with
  | empty hslot => simp
  | groupless hslot hg => simp
  | interrupted hslot hg hmerge hfail =>
    exact ⟨fun hmem => (hsends _ _).1 ((List.takeWhile_prefix _).subset hmem),
      fun hmem => (hsends _ _).2 ((List.takeWhile_prefix _).subset hmem)⟩
  | completed hslot hg hmerge hsent u' a hframe haction => simp [hsends]

/-- The user leaves by a commit of another member, or by a Welcome that gives it no seat. -/
lemma processInMessage_leaves (h : u.processInMessage cfg env m = .ok r)
    (hleaves : .unsubscribe ∈ r.outputs ∨ .ack ∈ r.outputs) :
    m.sender ≠ u.username ∧
      ((∃ m' a, m = .group m' ∧ (∀ sender, a.action ≠ .welcome sender) ∧
          r.outputs = [.unsubscribe, .record a]) ∨
        ∃ w a, m = .welcome w ∧ a.action = .welcome w.sender ∧ r.outputs = [.ack, .record a]) := by
  cases m with
  | group m =>
    by_cases hown : m.sender = u.username
    · simp only [User.processInMessage, if_pos hown] at h
      obtain ⟨hstays, hsilent⟩ := confirmCommit_stays h
      exact absurd hleaves (by simp [hstays, hsilent])
    · simp only [User.processInMessage, if_neg hown] at h
      obtain hout | ⟨a, ha, hout | hout⟩ := processProtocolMessage_outputs h
      · simp [hout] at hleaves
      · simp [hout] at hleaves
      · exact ⟨hown, .inl ⟨m, a, rfl, ha, hout⟩⟩
  | welcome w =>
    simp only [User.processInMessage] at h
    split_ifs at h with hown
    refine ⟨hown, .inr ?_⟩
    cases processWelcome_cases h with
    | refused hjoin | joined hjoin u' hgroup hactive => simp at hleaves
    | inactive hjoin u' hgroup hactive => exact ⟨w, _, rfl, rfl, rfl⟩

end User

/-! ## Runs -/

namespace Account

variable {cfg : Config} {name : String} {groups : String → User} {t : Turn} {s s' : Account}

lemma filterMap_entry_push (lines : List LogLine) :
    (lines.map BufferedLog.Op.push).filterMap BufferedLog.Op.entry = lines := by
  simp [filterMap_map, Function.comp_def, BufferedLog.Op.entry]

variable {x : Effect}

lemma parseMessage_entries (h : parseMessage cfg t groups = .ok x) :
    x.log.filterMap BufferedLog.Op.entry = x.produced := by
  unfold parseMessage at h
  split_ifs at h with haddressed
  · obtain ⟨r, hr, h⟩ := bind_inv h
    cases h
    obtain ⟨r', hr', -, hout, -, ⟨-, hlog, hret⟩ | ⟨hother, hlog, hret⟩⟩ :=
      processInMessage_cases hr
    · simp only [Reaction.written, hlog, hret, hout, Option.toList_none, map_nil, append_nil]
      exact filterMap_entry_push _
    · have hflush : (if .unsubscribe ∈ r'.outputs then [.flush] else [] : List LogOp).filterMap
          BufferedLog.Op.entry = [] := by
        split_ifs <;> rfl
      have hone := User.length_recordsIn_le_one hother hr'
      simp only [Reaction.written, hlog, hret, hout, filterMap_append, hflush, nil_append]
      -- there is at most one record, so the one that is returned is all there is
      rcases hrecords : recordsIn r'.outputs with _ | ⟨a, _ | ⟨b, rest⟩⟩
      · rfl
      · rfl
      · simp [hrecords] at hone
  · cases h
    rfl

/-- **What is handed to the log is what the step has produced.** -/
lemma effect_entries {e : Event} (h : effect cfg groups e = .ok x) :
    x.log.filterMap BufferedLog.Op.entry = x.produced := by
  cases e with
  | createGroup group env | externalJoin group env id creator info | call group env id k =>
    obtain ⟨r, -, h⟩ := bind_inv h
    cases h
    exact filterMap_entry_push _
  | ack group sender =>
    obtain ⟨u, -, h⟩ := bind_inv h
    cases h
    rfl
  | message t => exact parseMessage_entries h

def Written (_ : Account) (i : Input) : Prop := i.writes = true

lemma step_entries {i : Input} (hi : i.writes = true) (hs : step cfg s i = some s')
    (h : s.log.entries = s.produced) : s'.log.entries = s'.produced := by
  unfold step at hs
  cases hx : effect cfg s.groups i.event with
  | error f => simp [hx] at hs
  | ok x =>
    simp only [hx, Option.some.injEq] at hs
    subst hs
    rw [hi, writeLog, BufferedLog.entries_run, h, effect_entries hx]

/-- **File and buffer hold every record once and in order.** -/
lemma entries_of_reaches (h : (account cfg name).Reaches Written s) :
    s.log.entries = s.produced := by
  have hinit : ∀ s, (account cfg name).init s → s.log.entries = s.produced := by
    rintro s rfl
    rfl
  exact h.invariant hinit fun _ _ _ hinv hok hs => step_entries hok hs hinv

/-- By the message the user leaves its group. -/
def Leaves (cfg : Config) (groups : String → User) (t : Turn) : Prop :=
  addressed groups t = true ∧
    ∃ r, processInMessage cfg t groups = .ok r ∧ (.unsubscribe ∈ r.outputs ∨ .ack ∈ r.outputs)

/-- What is done to the log when a user leaves. -/
lemma Leaves.log (h : Leaves cfg groups t) (hx : parseMessage cfg t groups = .ok x) :
    (∃ m l, t.message = .group m ∧ l.isWelcome = false ∧ x.log = [.flush, .push l]) ∨
      ∃ w l, t.message = .welcome w ∧ l.isWelcome = true ∧ x.log = [.push l] := by
  obtain ⟨haddressed, r, hr, hleaves⟩ := h
  simp only [parseMessage, haddressed, if_true] at hx
  obtain ⟨r1, hr1, hx⟩ := bind_inv hx
  obtain rfl : r = r1 := Exec.unique hr hr1
  cases hx
  obtain ⟨r', hr', -, hout, -, hcases⟩ := processInMessage_cases hr
  rw [hout] at hleaves
  obtain ⟨hother, hkind⟩ := User.processInMessage_leaves hr' hleaves
  obtain ⟨hown, -⟩ | ⟨-, hlog, hret⟩ := hcases
  · exact absurd hown hother
  · obtain ⟨m, a, hm, ha, hout'⟩ | ⟨w, a, hm, ha, hout'⟩ := hkind
    · refine .inl ⟨m, ⟨t.group, a⟩, hm, ?_, ?_⟩
      swap
      · simp [Reaction.written, hlog, hret, hout', recordsIn]
      unfold LogLine.isWelcome
      split
      · next sender hsender => exact absurd hsender (ha sender)
      · rfl
    · refine .inr ⟨w, ⟨t.group, a⟩, hm, by simp [LogLine.isWelcome, ha], ?_⟩
      simp [Reaction.written, hlog, hret, hout', recordsIn]

/-- **A user that leaves a group has its log on file exactly if it leaves by a Welcome.**  After a
    commit, the record of this commit is still in the buffer. -/
theorem leaving_flushes_iff (h : (account cfg name).Reaches Written s)
    (hleaves : Leaves cfg s.groups t)
    (hs : (account cfg name).step s ⟨true, .message t⟩ = some s') :
    (s'.log.file = s'.produced ∧ s'.log.buffer = []) ↔ ∃ w, t.message = .welcome w := by
  have hentries : s'.log.entries = s'.produced := step_entries rfl hs (entries_of_reaches h)
  change step cfg s ⟨true, .message t⟩ = some s' at hs
  unfold step at hs
  cases hx : effect cfg s.groups (.message t) with
  | error f => simp [hx] at hs
  | ok x =>
  simp only [hx, Option.some.injEq] at hs
  obtain ⟨m, l, hm, hl, hlog⟩ | ⟨w, l, hm, hl, hlog⟩ := hleaves.log hx
  · refine iff_of_false ?_ (by simp [hm])
    have hbuffer : s'.log.buffer = [l] := by
      rw [← hs, hlog]
      exact BufferedLog.buffer_push_flush _ _ hl (by decide) true true s.log
    simp [hbuffer]
  · refine iff_of_true ?_ ⟨w, hm⟩
    have hbuffer : s'.log.buffer = [] := by
      rw [← hs, hlog]
      exact BufferedLog.buffer_push_of_urgent _ _ hl true s.log
    refine ⟨?_, hbuffer⟩
    rw [← hentries, BufferedLog.entries, hbuffer, append_nil]

/-! ## A record that is not written -/

def singleSeat : Config := ⟨.orchestrator ⟨1, 1, .first⟩, Rng.scripted, 1, fun _ => []⟩

def welcomeTurn (activeMembers : Option (List String)) : Turn :=
  turn "G" (.welcome ⟨"A", ⟨"A", [addsB]⟩, [addsB], ["B"], activeMembers⟩)

def removalTurn : Turn := turn "G" (.group ⟨"A", [addsB], .commit ⟨1, "A", [], ["B"], []⟩⟩)

/-- `B` is welcomed without a seat, and its log is written. -/
theorem leaving_flushes_iff_welcome :
    ∃ s, (account singleSeat "B").step (new "B") ⟨true, .message (welcomeTurn (some ["A"]))⟩ =
        some s ∧ s.produced = [⟨"G", ⟨.welcome "A", 1, 2⟩⟩] ∧ s.log.file = s.produced ∧
      s.log.buffer = [] := by
  have hleaves : Leaves singleSeat (new "B").groups (welcomeTurn (some ["A"])) :=
    ⟨rfl, _, rfl, .inr (by decide)⟩
  exact exists_some_and ⟨_, rfl, rfl⟩ fun s hs _ =>
    (leaving_flushes_iff (.init rfl) hleaves hs).mpr ⟨_, rfl⟩

/-- **The record of its removal stays in the buffer** when `B` is removed from its group. -/
theorem removal_not_written :
    ∃ s, (account fetchConfig "B").run (new "B")
        [⟨true, .message (welcomeTurn none)⟩, ⟨true, .message removalTurn⟩] = some s ∧
      (∀ group, (s.groups group).group = none) ∧
      s.produced = [⟨"G", ⟨.welcome "A", 1, 2⟩⟩, ⟨"G", ⟨.process "A", 2, 1⟩⟩] ∧
      s.log.file = [⟨"G", ⟨.welcome "A", 1, 2⟩⟩] ∧
      s.log.buffer = [⟨"G", ⟨.process "A", 2, 1⟩⟩] := by
  refine ⟨_, rfl, fun group => ?_, rfl, rfl, rfl⟩
  by_cases hgroup : group = "G"
  · subst hgroup
    rfl
  · simp [removalTurn, welcomeTurn, turn, hgroup, new, User.new]

end Account

end EmulatedMls.Client
