import EmulatedMls.Client.CallSpec
import EmulatedMls.Orchestrator.Lockstep

/-!
# The calls of an orchestrated user

An orchestrated user confirms a commit in the call that makes it.  When nothing that it sends
fails, the call either leaves the user as it was, stores a proposal, or ends at the next epoch
with the commit sent, its Welcome sent and its orchestrator updated.
-/

namespace EmulatedMls.Client

open Exec List MlsGroup

/-- The Welcomes for a user among some outputs. -/
def welcomesTo (x : String) (os : List Output) : List WelcomeMessage :=
  os.filterMap fun
    | .welcome recipient w => if recipient = x then some w else none
    | _ => none

variable {x : String}

lemma mem_welcomesTo {os : List Output} {w : WelcomeMessage} :
    w ∈ welcomesTo x os ↔ .welcome x w ∈ os := by
  simp only [welcomesTo, mem_filterMap]
  constructor
  · rintro ⟨o, ho, hw⟩
    cases o with
    | welcome recipient w' =>
      obtain ⟨rfl, rfl⟩ : recipient = x ∧ w' = w := by simpa using hw
      exact ho
    | _ => cases hw
  · intro h
    exact ⟨_, h, by simp⟩

def MlsGroup.after (g : MlsGroup) (c : Commit) : MlsGroup :=
  ⟨g.creator, c :: g.transcript, [], .operational⟩

@[simp] lemma MlsGroup.after_transcript (g : MlsGroup) (c : Commit) :
    (g.after c).transcript = c :: g.transcript := rfl

lemma MlsGroup.mergeStagedCommit_of_notMem {g : MlsGroup} {c : Commit} {own : String}
    (h : own ∉ c.removes) : g.mergeStagedCommit own c = g.after c := by
  simp [MlsGroup.mergeStagedCommit, MlsGroup.after, h]

namespace User

variable {cfg : Config} {params : OrchestratedParameters} {env : Env} {id : ℕ} {u : User}

variable {w : Option StoredWelcome} {m : GroupMessage} {g : MlsGroup} {r : Result} {k : Call}
  {a : Action}

lemma Prepares.merge {own : String} {g' : MlsGroup} {c : Commit} (h : Prepares own id g k g' m w a)
    (hm : m.content = .commit c) : g'.mergePendingCommit own = .ok (g.after c) := by
  cases h with
  | invite hbuild =>
    obtain rfl := Content.commit.inj hm
    rfl
  | remove hmem hbuild | updateState hbuild | commitToProposals hkept hbuild =>
    obtain rfl := Content.commit.inj hm
    obtain ⟨-, -, -, hown, rfl⟩ := buildCommit_eq_ok hbuild
    exact mergePendingCommit_staged hown
  | propose hpropose =>
    obtain ⟨-, rfl, -⟩ := propose_eq_ok hpropose
    cases hm

lemma foldl_emit_delivered (hsend : ∀ o, env.delivers o = true) (os : List Output) (r : Result)
    (hr : r.error = none) : os.foldl (emit env) r = { r with outputs := r.outputs ++ os } := by
  induction os generalizing r with
  | nil => simp
  | cons o os ih =>
    have hemit : emit env r o = { r with outputs := r.outputs ++ [o] } := by
      simp [emit, hr, hsend o]
    rw [foldl_cons, hemit, ih { r with outputs := r.outputs ++ [o] } hr]
    simp

inductive OrchestratedEffect (cfg : Config) (id : ℕ) (u : User) : Call → Result → Prop where
  | refused {k : Call} (e : ClientError) : OrchestratedEffect cfg id u k ⟨u, [], some e⟩
  | dropped {amount : ℕ} {g : MlsGroup} {kept : List PendingProposal} {e : MlsError}
      (hg : u.group = some g) (hsub : ∀ p ∈ kept, p ∈ g.proposals) :
      OrchestratedEffect cfg id u (.commitToProposals amount)
        ⟨{ u with group := some { g with proposals := kept } }, [], some (.mls e)⟩
  | proposed {kind : ProposalKind} {g stored : MlsGroup} {m : GroupMessage} {dest : List String}
      (hg : u.group = some g)
      (hpropose : g.propose u.username id kind = .ok (m, stored)) :
      OrchestratedEffect cfg id u (.propose kind)
        ⟨{ u with group := some stored, pendingCommit := none },
          [.toGroup m dest, .record ⟨.propose kind, stored.epoch, stored.members.length⟩], none⟩
  | committed {k : Call} {g g' : MlsGroup} {m : GroupMessage} {w : Option StoredWelcome}
      {a : Action} {c : Commit} {o : Orchestrator} {u' : User} {action : NextAction}
      {dest : List String} (hg : u.group = some g)
      (hprep : Prepares u.username id g k g' m w a) (hm : m.content = .commit c)
      (ho : u.orchestrator = some o)
      (horch : orchestrate cfg (g.after c) (g.after c).members.length (removedBy a) (welcomed w)
        { u with group := some (g.after c), pendingCommit := none } = .ok (u', action)) :
      OrchestratedEffect cfg id u k ⟨notifyAgent action u', .toGroup m dest ::
        (welcomesOf u (g.after c) (some o.knownMembers) w ++
          [.groupInfo (c :: g.transcript),
            .record ⟨a, g'.epoch + 1, (g.after c).members.length⟩]), none⟩

lemma welcome_of_commit {active : Option (List String)} {dest : List String} {t : Transcript}
    {record : ActionRecord} {w' : WelcomeMessage}
    (h : .welcome x w' ∈ Output.toGroup m dest ::
      (welcomesOf u g active w ++ [.groupInfo t, .record record])) :
    ∃ sw, w = some sw ∧ x ∈ sw.recipients ∧
      w' = ⟨u.username, sw.welcome, g.transcript, sw.recipients, active⟩ := by
  simp only [mem_cons, reduceCtorEq, mem_append, not_mem_nil, or_false, false_or] at h
  obtain ⟨sw, recipient, rfl, hmem, hw'⟩ := mem_welcomesOf h
  obtain ⟨rfl, rfl⟩ := Output.welcome.inj hw'
  exact ⟨sw, rfl, hmem, rfl⟩

lemma sentBy_commit {dest : List String} {active : Option (List String)} {t : Transcript}
    {record : ActionRecord} :
    sentBy (.toGroup m dest :: (welcomesOf u g active w ++ [.groupInfo t, .record record])) =
      [m] := by
  cases w with
  | none => rfl
  | some sw => simp [sentBy, welcomesOf, filterMap_map]

/-- The ways in which a message of the topic can end for a user that has no commit pending. -/
inductive TopicEffect (cfg : Config) (m : GroupMessage) (u : User) : Result → Prop where
  | ignored (active : Option (Bool × ℕ)) {records : List Output} {e : Option ClientError}
      (hrecords : ∀ o ∈ records, o = .record ⟨.process m.sender, m.epoch + 1, 0⟩) :
      TopicEffect cfg m u ⟨{ u with active := active }, records, e⟩
  | stored {g : MlsGroup} {p : PendingProposal} (hg : u.group = some g)
      (hm : g.processMessage u.username m = .ok (.proposal p)) :
      TopicEffect cfg m u ⟨{ u with group := some (g.storePendingProposal p) },
        [.record ⟨.storeProp m.sender, m.epoch, g.members.length⟩], none⟩
  | left {g : MlsGroup} {c : Commit} {u' : User} {action : NextAction} (hg : u.group = some g)
      (hm : g.processMessage u.username m = .ok (.commit c))
      (horch : orchestrate cfg (g.after c) (g.members.length + c.adds.length - c.removes.length)
        c.removes c.adds u = .ok (u', action))
      (hleave : u.username ∈ c.removes ∨ action = .inactive) :
      TopicEffect cfg m u (leave u' (g.mergeStagedCommit u.username c) m)
  | merged {g : MlsGroup} {c : Commit} {u' : User} {action : NextAction} (hg : u.group = some g)
      (hm : g.processMessage u.username m = .ok (.commit c))
      (horch : orchestrate cfg (g.after c) (g.members.length + c.adds.length - c.removes.length)
        c.removes c.adds u = .ok (u', action))
      (hown : u.username ∉ c.removes) (hstays : action ≠ .inactive) :
      TopicEffect cfg m u ⟨notifyAgent action { u' with group := some (g.after c) },
        [.record ⟨.deepProcess m.sender, g.epoch + 1, (g.after c).members.length⟩], none⟩

variable (hcfg : cfg.agent = .orchestrator params)

include hcfg

/-- **What a message of the topic can do.**  An own message does nothing. -/
lemma processInMessage_orchestrated (hslot : u.pendingCommit = none)
    (h : u.processInMessage cfg env (.group m) = .ok r) : TopicEffect cfg m u r := by
  simp only [processInMessage] at h
  split_ifs at h with hsender
  · simp only [confirmCommit, hslot] at h
    cases h
    exact .ignored u.active (by simp)
  cases processProtocolMessage_cases h with
  | ignored active hother hrecords => exact .ignored active hrecords
  | failed e => exact .ignored u.active (by simp)
  | stored hg hm => exact .stored hg hm
  | @committed g c _ hg hm hr =>
    obtain ⟨u', action, hnext, hcase⟩ := processCommitMessage_cases hr
    simp only [nextAction, hcfg] at hnext
    obtain ⟨o, rfl⟩ := orchestrate_user hnext
    obtain ⟨rfl, hleave⟩ | ⟨hown, hstays, rfl⟩ := hcase
    · exact .left hg hm hnext hleave
    · rw [mergeStagedCommit_of_notMem hown]
      exact .merged hg hm hnext hown hstays

section

variable (hsend : ∀ o, env.delivers o = true)
include hsend

lemma postProcessCommit_commit {merged : MlsGroup}
    (hmerge : g.mergePendingCommit u.username = .ok merged) (ha : ∀ kind, a ≠ .propose kind)
    (h : postProcessCommit cfg env { u with group := some g } g m w a = .ok r) :
    ∃ o u' action dest, u.orchestrator = some o ∧
      orchestrate cfg merged merged.members.length (removedBy a) (welcomed w)
        { u with group := some merged, pendingCommit := none } = .ok (u', action) ∧
      r = ⟨notifyAgent action u', .toGroup m dest ::
        (welcomesOf u merged (some o.knownMembers) w ++
          [.groupInfo merged.transcript,
            .record ⟨a, g.epoch + 1, merged.members.length⟩]), none⟩ := by
  simp only [postProcessCommit, hsend, if_true, hcfg] at h
  obtain ⟨r1, hr1, h⟩ := bind_inv h
  cases h
  simp only [confirmCommit, hmerge] at hr1
  obtain ⟨active, hactive, hr1⟩ := bind_inv hr1
  set u1 : User := { u with group := some merged, pendingCommit := none } with hu1
  rw [foldl_emit_delivered hsend _ _ rfl] at hr1
  have hconclude : concludeCommit cfg env merged ⟨m, w, ⟨a, g.epoch, g.members.length⟩⟩
      ⟨u1, welcomesOf u1 merged active w, none⟩ = .ok r1 := by
    cases a with
    | propose kind => exact absurd rfl (ha kind)
    | _ => exact hr1
  simp only [concludeCommit, emit, hsend, if_true, hcfg, Option.isSome_none, Bool.false_eq_true,
    if_false] at hconclude
  obtain ⟨⟨u', action⟩, horch, hconclude⟩ := bind_inv hconclude
  cases hconclude
  obtain ⟨o, -, -, ho, -⟩ := orchestrate_eq_ok.mp horch
  refine ⟨o, u', action, g.members.filter (· ≠ u.username), ho, horch, ?_⟩
  have hwel : welcomesOf u1 merged active w = welcomesOf u merged (some o.knownMembers) w := by
    cases w with
    | none => rfl
    | some sw =>
      simp only [Option.isSome_some, if_true, activeMembers, hcfg, ho] at hactive
      cases hactive
      rfl
  simp [writeTimestamp, hwel]

lemma postProcessCommit_propose {kind : ProposalKind}
    (h : postProcessCommit cfg env { u with group := some g } g m none (.propose kind) = .ok r)
    (hop : g.state = .operational) :
    ∃ dest, r = ⟨{ u with group := some g, pendingCommit := none },
      [.toGroup m dest, .record ⟨.propose kind, g.epoch, g.members.length⟩], none⟩ := by
  simp only [postProcessCommit, hsend, if_true, hcfg] at h
  obtain ⟨r1, hr1, h⟩ := bind_inv h
  cases h
  simp only [confirmCommit, MlsGroup.mergePendingCommit, hop] at hr1
  cases hr1
  exact ⟨_, rfl⟩

/-- **What a call of an orchestrated user can do** when nothing that it sends fails. -/
lemma orchestrated_cases (hk : k ≠ .sendApplicationMsg)
    (h : call cfg env id u k = .ok r) : OrchestratedEffect cfg id u k r := by
  cases call_cases h with
  | refused e => exact .refused e
  | @dropped amount g kept e hg hkept hbuild =>
    exact .dropped hg fun p hp => mem_of_mem_keptProposals hkept hp
  | application hg hslot hm hsent => exact absurd rfl hk
  | @posted _ g g' m w a _ hg hprep hpost =>
    by_cases hprop : ∃ kind, a = .propose kind
    · obtain ⟨kind, rfl⟩ := hprop
      cases hprep with
      | propose hpropose =>
        obtain ⟨hstate, rfl, rfl⟩ := propose_eq_ok hpropose
        obtain ⟨dest, rfl⟩ := postProcessCommit_propose hcfg hsend hpost hstate
        exact .proposed hg hpropose
    · have ha : ∀ kind, a ≠ .propose kind := fun kind hkind => hprop ⟨kind, hkind⟩
      obtain ⟨-, -, -, -, ⟨c, hm, -⟩ | ⟨p, -, -, -, -, hp, -⟩⟩ := hprep.spec
      · obtain ⟨o, u', action, dest, ho, horch, rfl⟩ :=
          postProcessCommit_commit hcfg hsend (hprep.merge hm) ha hpost
        exact .committed hg hprep hm ho horch
      · exact absurd hp (ha _)

end

lemma createGroup_orchestrated (h : createGroup cfg env u = .ok r) (herror : r.error = none) :
    ∃ out, (Orchestrator.new u.username params []).processCommit cfg.rng cfg.fuel
        (cfg.transcriptHash []) 1 [u.username] = .ok out ∧ out.action = .commit ∧
      r.user = { u with
        group := some (MlsGroup.create u.username)
        active := some (true, 0)
        orchestrator := some out.orchestrator
        agentQueue := u.agentQueue + 1 } := by
  simp only [createGroup, hcfg] at h
  by_cases hgroup : u.group.isSome = true
  · simp [hgroup] at h
  rw [if_neg hgroup] at h
  split at h
  · next hsent =>
    cases h
    simp [herror] at hsent
  · obtain ⟨out, hout, h⟩ := bind_inv h
    by_cases haction : out.action = .commit
    · rw [if_pos haction] at h
      cases h
      exact ⟨out, by simpa [MlsGroup.create] using hout, haction,
        by simp [writeTimestamp, notifyAgent]⟩
    · simp [haction] at h

/-- **What an acknowledgement can do.**  It counts down, and the last one lets the user commit. -/
lemma processAck_orchestrated {sender : String} {u' : User} (h : processAck cfg sender u = .ok u') :
    u' = u ∨ ∃ o, u.orchestrator = some o ∧
      u' = notifyAgent (if o.pendingAcks = 1 then .commit else .listen)
        { u with orchestrator := some { o with pendingAcks := o.pendingAcks - 1 } } := by
  unfold processAck at h
  split_ifs at h
  · exact .inl (Except.ok.inj h).symm
  · simp only [hcfg] at h
    cases ho : u.orchestrator with
    | none => simp [ho] at h
    | some o =>
      simp only [ho, Except.ok.injEq] at h
      subst h
      rcases hacks : o.pendingAcks with _ | _ | n
      · have ho' : { o with pendingAcks := 0 } = o := by
          rw [← hacks]
        simp [Orchestrator.processAck, hacks, ho']
      · simp [Orchestrator.processAck, hacks]
      · simp [Orchestrator.processAck, hacks]

/-- **What a Welcome can do**: a user without a seat leaves again. -/
lemma processWelcome_orchestrated {w : WelcomeMessage}
    (h : u.processInMessage cfg env (.welcome w) = .ok r) :
    (∃ e, r = ⟨u, [], some e⟩) ∨
      ∃ c t known out, w.welcome.transcript = c :: t ∧ u.username ∈ c.adds ∧
        w.activeMembers = some known ∧
        (Orchestrator.new u.username params known).processCommit cfg.rng cfg.fuel
          (cfg.transcriptHash (c :: t)) (roster w.welcome.creator (c :: t)).length w.recipients =
            .ok out ∧
        ((out.action = .inactive ∧ r = ⟨{ u with
              group := none, active := some (true, 0), orchestrator := some out.orchestrator },
            [.ack, .record ⟨.welcome w.sender, t.length + 1,
              (roster w.welcome.creator (c :: t)).length⟩], none⟩) ∨
          (out.action ≠ .inactive ∧ r = ⟨notifyAgent out.action { u with
              group := some ⟨w.welcome.creator, c :: t, [], .operational⟩
              active := some (true, 0)
              orchestrator := some out.orchestrator },
            [.subscribe, .record ⟨.welcome w.sender, t.length + 1,
              (roster w.welcome.creator (c :: t)).length⟩], none⟩)) := by
  simp only [processInMessage] at h
  split_ifs at h
  simp only [processWelcome, hcfg] at h
  split at h
  · exact .inl ⟨_, fails_eq_ok h⟩
  next g hjoin =>
  obtain ⟨c, t, ht, hadds, rfl⟩ := joinGroup_eq_some hjoin
  split at h
  · cases h
  next known hknown =>
  obtain ⟨out, hout, h⟩ := bind_inv h
  refine .inr ⟨c, t, known, out, ht, hadds, hknown, hout, ?_⟩
  cases haction : out.action with
  | inactive =>
    simp only [haction] at h
    exact .inl ⟨rfl, (pure_eq_ok.mp h).symm⟩
  | listen | commit =>
    simp only [haction] at h
    exact .inr ⟨by simp, (pure_eq_ok.mp h).symm⟩

end User

end EmulatedMls.Client
