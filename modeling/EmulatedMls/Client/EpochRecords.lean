import EmulatedMls.Client.CommitRight

/-!
# The epochs in the logs

Every user logs the commits that it makes, follows or joins by.  `log_parser.py` groups the records
of all users by epoch and expects one record of an author for each epoch, next to the records of
those who received the commit.

**Source.**  `post_process_commit`, `confirm_commit` and `write_timestamp` of
`emulated_client/src/user.rs` and `epoch_generating_events` of `log_scripts/log_parser.py`.

**Epochs.**  The record of an author has the epoch of its group when the message is sent, plus one.
An invitation is merged before it is sent, so its record is one epoch too high: it stands beside
the record of the next commit, and no record of an author stands beside those of the joiner.
-/

namespace EmulatedMls.Client

open List

/-- The operations of `epoch_generating_events` that the modelled users log after epoch 0. -/
def Action.isGenerating : Action → Bool
  | .commit _ | .update | .remove _ | .deepCommit => true
  | _ => false

/-- The operations that log a commit of another member. -/
def Action.isReceiving : Action → Bool
  | .process _ | .deepProcess _ | .welcome _ => true
  | _ => false

variable {a : Action}

lemma Action.not_isReceiving (h : a.isGenerating = true) : a.isReceiving = false := by
  cases a <;> first | rfl | cases h

/-- The history of the epoch that a message leads to. -/
def GroupMessage.opens (m : GroupMessage) : Transcript :=
  match m.content with
  | .commit c => c :: m.base
  | _ => m.base

/-- The epoch in the record of the author of a message: an invitation is counted twice. -/
def GroupMessage.authorEpoch (m : GroupMessage) : ℕ :=
  match m.content with
  | .commit c => if c.adds = [] then m.epoch + 1 else m.epoch + 2
  | _ => m.epoch

lemma GroupMessage.length_opens {m : GroupMessage} {c : Commit} (h : m.content = .commit c) :
    m.opens.length = m.epoch + 1 := by
  simp [GroupMessage.opens, GroupMessage.epoch, h]

/-- A record in the log of a user; which commit `opens` it, the log itself does not say. -/
structure LogEntry where
  user : String
  record : ActionRecord
  opens : Transcript
  deriving DecidableEq, Repr

def entries (name : String) (t : Transcript) (os : List Output) : List LogEntry :=
  os.filterMap fun
    | .record a => some ⟨name, a, t⟩
    | _ => none

variable {os : List Output}

lemma mem_entries {name : String} {t : Transcript} {y : LogEntry} :
    y ∈ entries name t os ↔ ∃ a, .record a ∈ os ∧ y = ⟨name, a, t⟩ := by
  simp only [entries, mem_filterMap]
  constructor
  · rintro ⟨o, ho, hy⟩
    cases o with
    | record a => exact ⟨a, ho, (Option.some.inj hy).symm⟩
    | _ => cases hy
  · rintro ⟨a, ha, rfl⟩
    exact ⟨_, ha, rfl⟩

namespace PubSub

/-- What the users write into their logs in one step. -/
def logOf (cfg : Config) (s : PubSub) : Event → List LogEntry
  | .act name env id k =>
    match (s.peers name).user.call cfg env id k with
    | .ok r => (sentBy r.outputs).flatMap fun m => entries name m.opens r.outputs
    | .error _ => []
  | .topic name env =>
    match (s.peers name).pos.bind (s.topic[·]?) with
    | none => []
    | some m =>
      match (s.peers name).user.processInMessage cfg env (.group m) with
      | .ok r => entries name m.opens r.outputs
      | .error _ => []
  | .welcome name env i =>
    match (s.welcomes name)[i]? with
    | none => []
    | some w =>
      match (s.peers name).user.processInMessage cfg env (.welcome w) with
      | .ok r => entries name w.welcome.transcript r.outputs
      | .error _ => []
  | .giveUp _ | .ack _ _ | .subscribed _ => []

end PubSub

/-- The users and all that they have logged. -/
structure Logged where
  net : PubSub
  log : List LogEntry

/-- The runs of orchestrated users with their logs. -/
def logged (cfg : Config) (creator : String) : Machine Logged PubSub.Event where
  init s := (pubSub cfg creator).init s.net ∧ s.log = [⟨creator, ⟨.create, 0, 1⟩, []⟩]
  step s e := (PubSub.step cfg s.net e).map fun net => ⟨net, s.log ++ PubSub.logOf cfg s.net e⟩

namespace PubSub

variable {S : Setting} {name : String} {s s' : PubSub}

/-- What a step does to the topic and to the log. -/
inductive Logs (s s' : PubSub) (es : List LogEntry) : Prop where
  | sent {m : GroupMessage} {c : Commit} {a : Action} (hm : m.content = .commit c)
      (ha : a.isGenerating = true) (htopic : s'.topic = s.topic ++ [m])
      (hes : ∃ author n, es = [⟨author, ⟨a, m.authorEpoch, n⟩, m.opens⟩])
  | quiet (htopic : s'.topic = s.topic)
      (hes : ∀ y ∈ es, y.record.action.isGenerating = false ∧
        (y.record.action.isReceiving = true → y.record.epoch = y.opens.length))

variable {c : Commit} {m : GroupMessage} {k : User.Call} {env : Env}

variable {id : ℕ}

/-- **The record of an author.**  It has the epoch of the group that sends the commit, plus one. -/
lemma authorEpoch_of_prepares {own : String} {g g' : MlsGroup} {w : Option StoredWelcome}
    (h : User.Prepares own id g k g' m w a) (hm : m.content = .commit c) (hk : k.Single)
    (hplain : k.Plain g.proposals) : a.isGenerating = true ∧ g'.epoch + 1 = m.authorEpoch := by
  obtain ⟨-, hadds, -, -⟩ := h.lists hm hplain
  cases h with
  | invite hbuild =>
    obtain rfl := Content.commit.inj hm
    have hne : _ ≠ [] := fun hnil => cons_ne_nil _ _ (hadds.trans hnil)
    exact ⟨rfl, (if_neg hne).symm⟩
  | remove hmem hbuild | updateState hbuild =>
    obtain rfl := Content.commit.inj hm
    obtain ⟨-, -, -, -, rfl⟩ := MlsGroup.buildCommit_eq_ok hbuild
    exact ⟨rfl, (if_pos hadds.symm).symm⟩
  | commitToProposals hkept hbuild | propose hpropose => exact hk.elim

lemma logs_act (h : Exclusive S s) (hok : Paced s (.act name env id k))
    (hstep : PubSub.step S.cfg s (.act name env id k) = some s') :
    Logs s s' (logOf S.cfg s (.act name env id k)) := by
  have hplain := h.plain hok hstep
  obtain ⟨-, hk⟩ := PubSub.stepped_of_step hstep
  cases hx : (s.peers name).user.call S.cfg env id k with
  | error f => exact .quiet rfl (by simp [logOf, hx])
  | ok r =>
    cases User.orchestrated_cases S.agent hok.1 hk hx with
    | refused e => exact .quiet (by simp [acted, publish, sentBy]) (by simp [logOf, hx, sentBy])
    | dropped hg hsub | proposed hg hpropose => exact hok.2.elim
    | @committed _ g g' m w a c o u' action dest hg hprep hm ho horch =>
      obtain ⟨ha, hepoch⟩ := authorEpoch_of_prepares hprep hm hok.2 (hplain.2.1 g hg)
      refine .sent hm ha (congrArg (s.topic ++ ·) User.sentBy_commit)
        ⟨name, (g.after c).members.length, ?_⟩
      simp only [logOf, hx]
      rw [User.sentBy_commit, hepoch]
      cases w with
      | none => rfl
      | some sw => simp [entries, User.welcomesOf, filterMap_map]

lemma quiet_entries (hm : m.content = .commit c)
    (h : ∀ a, .record a ∈ os → a.action.isGenerating = false ∧ a.epoch = m.epoch + 1) :
    ∀ y ∈ entries name m.opens os, y.record.action.isGenerating = false ∧
      (y.record.action.isReceiving = true → y.record.epoch = y.opens.length) := by
  intro y hy
  obtain ⟨a, ha, rfl⟩ := mem_entries.mp hy
  obtain ⟨hgen, hepoch⟩ := h a ha
  exact ⟨hgen, fun _ => hepoch.trans (GroupMessage.length_opens hm).symm⟩

variable {r : Result}

/-- **What the records of a received commit say.** -/
lemma records_of_processed {u : User} (hm : m.content = .commit c) (hslot : u.pendingCommit = none)
    (h : u.processInMessage S.cfg env (.group m) = .ok r) :
    ∀ a, .record a ∈ r.outputs → a.action.isGenerating = false ∧ a.epoch = m.epoch + 1 := by
  intro a ha
  have hepoch : ∀ {g : MlsGroup} {c' : Commit},
      g.processMessage u.username m = .ok (.commit c') → m.epoch = g.epoch := fun hc =>
    congrArg List.length (MlsGroup.processMessage_commit hc).2.1
  cases User.processInMessage_orchestrated S.agent hslot h with
  | ignored active hrecords =>
    obtain rfl := Output.record.inj (hrecords _ ha)
    exact ⟨rfl, rfl⟩
  | stored hg hp =>
    rw [MlsGroup.processMessage_content hp] at hm
    cases hm
  | @left g c' u' action hg hc horch hleave =>
    obtain rfl : a = ⟨.process m.sender, (g.mergeStagedCommit u.username c').epoch, _⟩ := by
      simpa [User.leave] using ha
    exact ⟨rfl, by rw [hepoch hc]; rfl⟩
  | merged hg hc horch hown hstays =>
    obtain rfl := Output.record.inj (mem_singleton.mp ha)
    exact ⟨rfl, by rw [hepoch hc]⟩

lemma logs_topic (h : Exclusive S s) (hstep : PubSub.step S.cfg s (.topic name env) = some s') :
    Logs s s' (logOf S.cfg s (.topic name env)) := by
  cases PubSub.stepped_of_step hstep with
  | @topic _ _ i m hpos hi =>
    have hread : (s.peers name).pos.bind (s.topic[·]?) = some m := by simp [hpos, hi]
    cases hr : (s.peers name).user.processInMessage S.cfg env (.group m) with
    | error f => exact .quiet rfl (by simp [logOf, hread, hr])
    | ok r =>
      have hslot := (h.agrees.peer name).slot
      obtain ⟨c, hc, -⟩ := h.topic i m hi
      refine .quiet (handled_silent s name _ (processInMessage_silent hslot hr)).1 ?_
      simp only [logOf, hread, hr]
      exact quiet_entries hc (records_of_processed hc hslot hr)

lemma logs_welcome {i : ℕ} (h : Exclusive S s)
    (hstep : PubSub.step S.cfg s (.welcome name env i) = some s') :
    Logs s s' (logOf S.cfg s (.welcome name env i)) := by
  cases PubSub.stepped_of_step hstep with
  | @welcome _ _ _ w hw =>
    cases hr : (s.peers name).user.processInMessage S.cfg env (.welcome w) with
    | error f => exact .quiet rfl (by simp [logOf, hw, hr])
    | ok r =>
      have hsilent := processInMessage_silent (h.agrees.peer name).slot hr
      refine .quiet (handled_silent (s.taken name i) name _ hsilent).1 ?_
      obtain ⟨e, rfl⟩ | ⟨c, t, known, out, ht, -, -, -, ⟨-, rfl⟩ | ⟨-, rfl⟩⟩ :=
        User.processWelcome_orchestrated S.agent hr
      · simp [logOf, hw, hr, entries]
      all_goals simp [logOf, hw, hr, entries, ht, Action.isGenerating]

lemma logs_step (h : Exclusive S s) {e : Event} (hok : Paced s e)
    (hstep : PubSub.step S.cfg s e = some s') : Logs s s' (logOf S.cfg s e) := by
  cases PubSub.stepped_of_step hstep with
  | act _ _ => exact logs_act h hok hstep
  | topic _ _ => exact logs_topic h hstep
  | welcome _ => exact logs_welcome h hstep
  | giveUp | ack _ | ackFailed | subscribed => exact .quiet rfl (by simp [logOf])

/-! ## Runs -/

/-- **The invariant**: the other records of a commit have the epoch that it opens. -/
structure Ledger (s : Logged) : Prop where
  authors : (s.log.filter (·.record.action.isGenerating)).map (fun x => (x.record.epoch, x.opens)) =
    s.net.topic.map fun m => (m.authorEpoch, m.opens)
  readers : ∀ y ∈ s.log, y.record.action.isReceiving = true → y.record.epoch = y.opens.length

variable {x : Logged}

lemma Ledger.step {x' : Logged} {es : List LogEntry} (h : Ledger x) (hlog : x'.log = x.log ++ es)
    (hs : Logs x.net x'.net es) : Ledger x' := by
  cases hs with
  | sent hm ha htopic hes =>
    obtain ⟨author, n, rfl⟩ := hes
    refine ⟨?_, fun y hy hread => ?_⟩
    · rw [hlog, htopic, filter_append, map_append, map_append, h.authors]
      simp [ha]
    · rw [hlog] at hy
      rcases mem_append.mp hy with hy | hy
      · exact h.readers y hy hread
      · rw [mem_singleton.mp hy] at hread
        rw [Action.not_isReceiving ha] at hread
        cases hread
  | quiet htopic hes =>
    refine ⟨?_, fun y hy hread => ?_⟩
    · have hnil : es.filter (·.record.action.isGenerating) = [] :=
        filter_eq_nil_iff.mpr fun y hy => by simp [(hes y hy).1]
      rw [hlog, htopic, filter_append, hnil, append_nil, h.authors]
    · rw [hlog] at hy
      rcases mem_append.mp hy with hy | hy
      · exact h.readers y hy hread
      · exact (hes y hy).2 hread

lemma ledger_of_reaches (h : (logged S.cfg S.creator).Reaches (fun x e => Paced x.net e) x) :
    Exclusive S x.net ∧ Ledger x := by
  have hinit : ∀ x, (logged S.cfg S.creator).init x → Exclusive S x.net ∧ Ledger x := by
    rintro ⟨net, log⟩ ⟨hnet, rfl⟩
    have htopic : net.topic = [] := hnet.1
    exact ⟨exclusive_init hnet, by simp [htopic, Action.isGenerating], by simp [Action.isReceiving]⟩
  refine h.invariant hinit fun x e x' hx hok hstep => ?_
  obtain ⟨net, hnet, rfl⟩ := Option.map_eq_some_iff.mp hstep
  exact ⟨hx.1.step hok hnet, hx.2.step rfl (logs_step hx.1 hok hnet)⟩

/-- **Records of one epoch.**  Unless an invitation opened the epoch before it, an epoch has at most
    one record of an author, and all records of its commit have the same epoch. -/
theorem epoch_records {cfg : Config} {params : OrchestratedParameters} {creator : String}
    (hcfg : cfg.agent = .orchestrator params) {x : Logged}
    (h : (logged cfg creator).Reaches (fun x e => Paced x.net e) x) {n : ℕ}
    (hinvite : ∀ m ∈ x.net.topic, ∀ c, m.content = .commit c → m.epoch + 2 = n → c.adds = []) :
    x.log.countP (fun y => y.record.action.isGenerating && y.record.epoch == n) ≤ 1 ∧
      ∀ y ∈ x.log, ∀ z ∈ x.log, y.record.action.isGenerating = true → y.record.epoch = n →
        z.record.action.isReceiving = true → z.opens = y.opens → z.record.epoch = n := by
  obtain ⟨hx, hl⟩ := ledger_of_reaches (S := ⟨cfg, params, hcfg, creator⟩) h
  have hauthor : ∀ m ∈ x.net.topic, m.authorEpoch = n → m.epoch + 1 = n ∧ m.opens.length = n := by
    intro m hm hn
    obtain ⟨i, hi⟩ := mem_iff_getElem?.mp hm
    obtain ⟨c, hc, -⟩ := hx.topic i m hi
    have hlen := GroupMessage.length_opens hc
    simp only [GroupMessage.authorEpoch, hc] at hn
    split_ifs at hn with hadds
    · exact ⟨hn, hlen.trans hn⟩
    · exact absurd (hinvite m hm c hc hn) hadds
  constructor
  · calc x.log.countP (fun y => y.record.action.isGenerating && y.record.epoch == n)
        = ((x.log.filter (·.record.action.isGenerating)).map
            fun y => (y.record.epoch, y.opens)).countP (·.1 == n) := by
          rw [countP_map, countP_filter]
          exact countP_congr fun y _ => by simp [and_comm]
      _ = x.net.topic.countP (·.authorEpoch == n) := by
          rw [hl.authors, countP_map]
          rfl
      _ ≤ x.net.topic.countP (·.epoch + 1 == n) := by
          refine countP_mono_left fun m hm hn => ?_
          simpa using (hauthor m hm (by simpa using hn)).1
      _ = (x.net.topic.map (·.epoch)).countP (· + 1 == n) := by
          rw [countP_map]
          rfl
      _ ≤ ((List.range x.net.topic.length).count (n - 1)) := by
          rw [hx.topic.map_epoch]
          refine countP_mono_left fun i _ hi => ?_
          simp only [beq_iff_eq] at hi ⊢
          omega
      _ ≤ 1 := nodup_iff_count_le_one.mp nodup_range _
  · intro y hy z hz hgen hn hread hopens
    have hmem : (n, y.opens) ∈ (x.log.filter (·.record.action.isGenerating)).map
        fun y => (y.record.epoch, y.opens) :=
      mem_map.mpr ⟨y, mem_filter.mpr ⟨hy, hgen⟩, by rw [hn]⟩
    rw [hl.authors] at hmem
    obtain ⟨m, hm, heq⟩ := mem_map.mp hmem
    obtain ⟨hn', hopens'⟩ := Prod.mk.inj heq
    rw [hl.readers z hz hread, hopens, ← hopens']
    exact (hauthor m hm hn').2

def foundedLog : Logged := ⟨founded, [⟨"A", ⟨.create, 0, 1⟩, []⟩]⟩

def inviteAndUpdate : List Event :=
  [.act "A" Env.fine 0 (.invite "B"), .welcome "B" Env.fine 0, .subscribed "B", .subscribed "A",
    .ack "A" "B", .act "A" Env.fine 1 .updateState]

/-- **An invitation is logged one epoch too high**, unlike in the record of the joiner. -/
theorem invitation_logged_late :
    (logged scripted "A").init foundedLog ∧
      ((logged scripted "A").run foundedLog inviteAndUpdate).map (fun x =>
        x.log.map fun y => (y.user, y.record.action, y.record.epoch, y.opens.length)) =
      some [("A", .create, 0, 0), ("A", .deepCommit, 2, 1), ("B", .welcome "A", 1, 1),
        ("A", .update, 2, 2)] :=
  ⟨⟨founded_init, rfl⟩, by decide +kernel⟩

/-- The run goes on with a second update of `A`, and `B` follows. -/
def secondUpdate : Logged :=
  List.foldl (logged scripted "A").next foundedLog
    (inviteAndUpdate ++ [.act "A" Env.fine 2 .updateState, .topic "B" Env.fine,
      .topic "B" Env.fine])

lemma secondUpdate_reached :
    (logged scripted "A").Reaches (fun x e => Paced x.net e) secondUpdate := by
  have h0 : (logged scripted "A").Reaches (fun x e => Paced x.net e) foundedLog :=
    .init ⟨founded_init, rfl⟩
  have h1 := h0.next (e := .act "A" Env.fine 0 (.invite "B")) ⟨fun _ => rfl, trivial⟩
  have h2 := h1.next (e := .welcome "B" Env.fine 0) fun w _ => by
    have hfresh : (((logged scripted "A").next foundedLog
        (.act "A" Env.fine 0 (.invite "B"))).net.peers "B").reached = 0 := by decide +kernel
    omega
  have h3 := (h2.next (e := .subscribed "B") trivial).next (e := .subscribed "A") trivial
  have h4 := (h3.next (e := .ack "A" "B") trivial).next (e := .act "A" Env.fine 1 .updateState)
    ⟨fun _ => rfl, trivial⟩
  have h5 := h4.next (e := .act "A" Env.fine 2 .updateState) ⟨fun _ => rfl, trivial⟩
  exact (h5.next (e := .topic "B" Env.fine) trivial).next (e := .topic "B" Env.fine) trivial

/-- The second update of `A` opens epoch 3. -/
theorem epoch_records_second_update :
    secondUpdate.log.countP (fun y => y.record.action.isGenerating && y.record.epoch == 3) = 1 ∧
      secondUpdate.log.countP (fun y => y.record.action.isReceiving && y.record.epoch == 3) = 1 ∧
      ∀ y ∈ secondUpdate.log, ∀ z ∈ secondUpdate.log, y.record.action.isGenerating = true →
        y.record.epoch = 3 → z.record.action.isReceiving = true → z.opens = y.opens →
        z.record.epoch = 3 := by
  have htopic : secondUpdate.net.topic =
      [⟨"A", [], .commit ⟨0, "A", ["B"], [], []⟩⟩,
        ⟨"A", [⟨0, "A", ["B"], [], []⟩], .commit ⟨1, "A", [], [], []⟩⟩,
        ⟨"A", [⟨1, "A", [], [], []⟩, ⟨0, "A", ["B"], [], []⟩], .commit ⟨2, "A", [], [], []⟩⟩] := by
    decide +kernel
  refine ⟨by decide +kernel, by decide +kernel, (epoch_records (by rfl) secondUpdate_reached ?_).2⟩
  intro m hm c hc hn
  rw [htopic] at hm
  rcases mem_cons.mp hm with rfl | hm
  · simp [GroupMessage.epoch] at hn
  · rcases mem_pair.mp hm with rfl | rfl <;> rw [← Content.commit.inj hc]

end PubSub

end EmulatedMls.Client
