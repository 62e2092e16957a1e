import EmulatedMls.Client.User

/-!
# What a call of the user can do

The calls of the agent share one shape: the group prepares a message, which may leave a commit
pending or, for an invitation, merge it at once, and `post_process_commit` sends the message.
-/

namespace EmulatedMls.Client

open Exec List MlsGroup

/-! ## The group -/

variable {ps : List PendingProposal} {x : String}

lemma mem_addsOf : x ∈ addsOf ps ↔ ∃ p ∈ ps, p.kind = .add x := by
  simp only [addsOf, mem_filterMap]
  refine exists_congr fun p => and_congr_right fun _ => ?_
  cases p.kind <;> simp

lemma mem_removesOf : x ∈ removesOf ps ↔ ∃ p ∈ ps, p.kind = .remove x := by
  simp only [removesOf, mem_dedup, mem_filterMap]
  refine exists_congr fun p => and_congr_right fun _ => ?_
  cases p.kind <;> simp

lemma removesOf_eq_nil (h : ∀ p ∈ ps, ∀ x, p.kind ≠ .remove x) : removesOf ps = [] := by
  refine eq_nil_iff_forall_not_mem.mpr fun x hx => ?_
  obtain ⟨p, hp, hk⟩ := mem_removesOf.mp hx
  exact h p hp x hk

lemma addsOf_append (ps qs : List PendingProposal) :
    addsOf (ps ++ qs) = addsOf ps ++ addsOf qs := by
  simp [addsOf, filterMap_append]

lemma check_eq_ok {c : Commit} {members : List String} :
    c.check members = .ok () ↔
      (c.adds.Nodup ∧ ∀ a ∈ c.adds, a ∉ members.filter (· ∉ c.removes)) ∧
        (c.removes.Nodup ∧ c.removes ⊆ members) := by
  unfold Commit.check
  split_ifs with hadds hremoves
  · exact iff_of_true rfl ⟨hadds, hremoves⟩
  · exact iff_of_false (by simp) fun h => hremoves h.2
  · exact iff_of_false (by simp) fun h => hadds h.1

namespace MlsGroup

@[simp] lemma mergeStagedCommit_transcript (own : String) (c : Commit) (g : MlsGroup) :
    (g.mergeStagedCommit own c).transcript = c :: g.transcript := rfl

@[simp] lemma mergeStagedCommit_creator (own : String) (c : Commit) (g : MlsGroup) :
    (g.mergeStagedCommit own c).creator = g.creator := rfl

variable {g : MlsGroup} {c : Commit} {own : String} {m : GroupMessage}

lemma isOperational_eq_ok : g.isOperational = .ok () ↔ g.state = .operational := by
  unfold isOperational
  cases g.state <;> simp

variable {g' : MlsGroup} {id : ℕ}

/-- A commit is built on a valid draft that keeps the committer. -/
lemma buildCommit_eq_ok {inline : List ProposalKind}
    (h : g.buildCommit own id inline = .ok (c, g')) :
    g.state = .operational ∧ c = draft own id (g.proposals ++ inline.map (⟨id, own, ·⟩)) ∧
      c.check g.members = .ok () ∧ own ∉ c.removes ∧
      g' = { g with state := .pendingCommit c } := by
  obtain ⟨hop, h⟩ := seq_eq_ok.mp h
  obtain ⟨hcheck, h⟩ := seq_eq_ok.mp h
  split_ifs at h with hown
  cases h
  exact ⟨isOperational_eq_ok.mp hop, rfl, hcheck, hown, rfl⟩

lemma buildCommit_of_check {inline : List ProposalKind} (hop : g.state = .operational)
    (hcheck : (draft own id (g.proposals ++ inline.map (⟨id, own, ·⟩))).check g.members = .ok ())
    (hown : own ∉ (draft own id (g.proposals ++ inline.map (⟨id, own, ·⟩))).removes) :
    ∃ r, g.buildCommit own id inline = .ok r :=
  ⟨_, seq_eq_ok.mpr ⟨isOperational_eq_ok.mpr hop, seq_eq_ok.mpr ⟨hcheck, if_neg hown⟩⟩⟩

lemma propose_eq_ok {kind : ProposalKind} (h : g.propose own id kind = .ok (m, g')) :
    g.state = .operational ∧ m = ⟨own, g.transcript, .proposal ⟨id, own, kind⟩⟩ ∧
      g' = { g with proposals := g.proposals ++ [⟨id, own, kind⟩] } := by
  obtain ⟨hop, h⟩ := seq_eq_ok.mp h
  cases h
  exact ⟨isOperational_eq_ok.mp hop, rfl, rfl⟩

lemma mergePendingCommit_staged (hown : own ∉ c.removes) :
    { g with state := .pendingCommit c }.mergePendingCommit own =
      .ok ⟨g.creator, c :: g.transcript, [], .operational⟩ := by
  simp [mergePendingCommit, mergeStagedCommit, hown]

lemma mergePendingCommit_cases (h : g.mergePendingCommit own = .ok g') :
    (g.state = .operational ∧ g' = g) ∨
      ∃ c, g.state = .pendingCommit c ∧ g' = g.mergeStagedCommit own c := by
  unfold mergePendingCommit at h
  cases hs : g.state with
  | operational => simp [hs] at h; exact .inl ⟨rfl, h.symm⟩
  | pendingCommit c => simp [hs] at h; exact .inr ⟨c, rfl, h.symm⟩
  | inactive => simp [hs] at h

lemma processMessage_content {x : Content} (h : g.processMessage own m = .ok x) :
    m.content = x := by
  unfold processMessage at h
  by_cases hactive : g.state = .inactive
  · simp [hactive] at h
  cases hm : m.content with
  | application id | proposal p => simp only [hm] at h; split_ifs at h; simpa using h
  | commit c =>
    simp only [hm] at h
    split_ifs at h
    · exact absurd (seq_eq_ok.mp h).2 error_ne_ok
    · exact pure_eq_ok.mp (seq_eq_ok.mp h).2

/-- A commit of another member is accepted on its own history, if it passes the checks. -/
lemma processMessage_commit (h : g.processMessage own m = .ok (.commit c)) :
    m.content = .commit c ∧ m.base = g.transcript ∧ m.sender ≠ own ∧
      c.check g.members = .ok () ∧ c.updates = [] := by
  have hm := processMessage_content h
  unfold processMessage at h
  simp only [hm] at h
  split_ifs at h with hactive hepoch hbase hsender hupdates
  · exact absurd (seq_eq_ok.mp h).2 error_ne_ok
  · exact ⟨hm, not_not.mp hbase, hsender, (seq_eq_ok.mp h).1, not_not.mp hupdates⟩

end MlsGroup

/-- The messages to the group among some outputs. -/
def sentBy (os : List Output) : List GroupMessage :=
  os.filterMap fun
    | .toGroup m _ => some m
    | _ => none

/-! ## Calls -/

namespace User

/-- What the group does in a call before the message is sent. -/
inductive Prepares (own : String) (id : ℕ) (g : MlsGroup) :
    Call → MlsGroup → GroupMessage → Option StoredWelcome → Action → Prop where
  | invite {name : String} {c : Commit} {staged : MlsGroup}
      (hbuild : g.buildCommit own id [.add name] = .ok (c, staged)) :
      Prepares own id g (.invite name) ⟨g.creator, c :: g.transcript, [], .operational⟩
        ⟨own, g.transcript, .commit c⟩ (some ⟨⟨g.creator, c :: g.transcript⟩, [name]⟩) .deepCommit
  | remove {name : String} {c : Commit} {staged : MlsGroup} (hmem : name ∈ g.members)
      (hbuild : g.buildCommit own id [.remove name] = .ok (c, staged)) :
      Prepares own id g (.remove name) staged ⟨own, g.transcript, .commit c⟩ none (.remove name)
  | updateState {c : Commit} {staged : MlsGroup}
      (hbuild : g.buildCommit own id [] = .ok (c, staged)) :
      Prepares own id g .updateState staged ⟨own, g.transcript, .commit c⟩ none .update
  | commitToProposals {choice : List ℕ} {amount : ℕ} {kept : List PendingProposal} {c : Commit}
      {staged : MlsGroup} (hkept : keptProposals own choice amount g.proposals = kept)
      (hbuild : { g with proposals := kept }.buildCommit own id [] = .ok (c, staged)) :
      Prepares own id g (.commitToProposals amount) staged ⟨own, g.transcript, .commit c⟩
        (if c.adds = [] then none else some ⟨⟨g.creator, c :: g.transcript⟩, addsOf kept⟩)
        (.commit (kept.map (·.kind)))
  | propose {kind : ProposalKind} {m : GroupMessage} {stored : MlsGroup}
      (hpropose : g.propose own id kind = .ok (m, stored)) :
      Prepares own id g (.propose kind) stored m none (.propose kind)

inductive CallEffect (cfg : Config) (env : Env) (id : ℕ) (u : User) : Call → Result → Prop where
  | refused {k : Call} (e : ClientError) (he : e = .send → k = .sendApplicationMsg) :
      CallEffect cfg env id u k ⟨u, [], some e⟩
  | dropped {amount : ℕ} {g : MlsGroup} {kept : List PendingProposal} {e : MlsError}
      (hg : u.group = some g)
      (hkept : keptProposals u.username env.choice amount g.proposals = kept)
      (hbuild : { g with proposals := kept }.buildCommit u.username id [] = .error e) :
      CallEffect cfg env id u (.commitToProposals amount)
        ⟨{ u with group := some { g with proposals := kept } }, [], some (.mls e)⟩
  | application {g : MlsGroup} {m : GroupMessage} (hg : u.group = some g)
      (hslot : u.pendingCommit = none) (hm : g.createMessage u.username id = .ok m)
      (hsent : env.delivers (.toGroup m (g.members.filter (· ≠ u.username)))) :
      CallEffect cfg env id u .sendApplicationMsg
        ⟨u, [.toGroup m (g.members.filter (· ≠ u.username))], none⟩
  | posted {k : Call} {g g' : MlsGroup} {m : GroupMessage} {w : Option StoredWelcome}
      {a : Action} {r : Result} (hg : u.group = some g)
      (hprep : Prepares u.username id g k g' m w a)
      (hpost : postProcessCommit cfg env { u with group := some g' } g' m w a = .ok r) :
      CallEffect cfg env id u k r

variable {cfg : Config} {env : Env} {id : ℕ} {u : User}

variable {r : Result} {kind : ProposalKind} {g g' : MlsGroup} {k : Call} {own : String} {a : Action}
  {w : Option StoredWelcome} {m : GroupMessage} {c : Commit}

lemma fails_eq_ok {e : ClientError} (h : u.fails e = .ok r) :
    r = ⟨u, [], some e⟩ := (Except.ok.inj h).symm

variable {name : String}

lemma CallEffect.of_fails {e : ClientError} (h : u.fails e = .ok r)
    (he : e = .send → k = .sendApplicationMsg) : CallEffect cfg env id u k r := by
  obtain rfl := fails_eq_ok h
  exact .refused e he

lemma invite_effect (h : invite cfg env id name u = .ok r) :
    CallEffect cfg env id u (.invite name) r := by
  unfold invite at h
  split_ifs at h
  swap
  · exact .of_fails h (by simp)
  split at h
  · exact .of_fails h (by simp)
  · next g hg =>
    split at h
    · exact .of_fails h (by simp)
    · next c staged hbuild =>
      obtain ⟨-, -, -, hown, rfl⟩ := buildCommit_eq_ok hbuild
      simp only [mergePendingCommit_staged hown] at h
      exact .posted hg (.invite hbuild) h

lemma remove_effect (h : remove cfg env id name u = .ok r) :
    CallEffect cfg env id u (.remove name) r := by
  unfold remove at h
  split at h
  · exact .of_fails h (by simp)
  · next g hg =>
    split_ifs at h with hmem
    swap
    · exact .of_fails h (by simp)
    split at h
    · exact .of_fails h (by simp)
    · next hbuild => exact .posted hg (.remove hmem hbuild) h

lemma updateState_effect (h : updateState cfg env id u = .ok r) :
    CallEffect cfg env id u .updateState r := by
  unfold updateState at h
  split at h
  · exact .of_fails h (by simp)
  · next g hg =>
    split at h
    · exact .of_fails h (by simp)
    · next hbuild => exact .posted hg (.updateState hbuild) h

variable {amount : ℕ}

lemma commitToProposals_effect (h : commitToProposals cfg env id amount u = .ok r) :
    CallEffect cfg env id u (.commitToProposals amount) r := by
  unfold commitToProposals at h
  split at h
  · exact .of_fails h (by simp)
  · next g hg =>
    dsimp only at h
    split at h
    · next hbuild =>
      obtain rfl := fails_eq_ok h
      exact .dropped hg rfl hbuild
    · next hbuild => exact .posted hg (.commitToProposals rfl hbuild) h

lemma proposable_ne_send : proposable env g kind ≠ .error .send := by
  cases kind with
  | update => simp [proposable]
  | add user | remove user => simp only [proposable]; split_ifs <;> simp

lemma propose_effect (h : propose cfg env id kind u = .ok r) :
    CallEffect cfg env id u (.propose kind) r := by
  unfold propose at h
  split at h
  · exact .of_fails h (by simp)
  · next g hg =>
    split at h
    · next hable => exact .of_fails h fun he => absurd (he ▸ hable) proposable_ne_send
    · split at h
      · exact .of_fails h (by simp)
      · next hprop => exact .posted hg (.propose hprop) h

lemma sendApplicationMsg_effect (h : sendApplicationMsg env id u = .ok r) :
    CallEffect cfg env id u .sendApplicationMsg r := by
  unfold sendApplicationMsg at h
  split_ifs at h with hslot
  · exact .of_fails h fun _ => rfl
  split at h
  · exact .of_fails h fun _ => rfl
  · next g hg =>
    split at h
    · exact .of_fails h fun _ => rfl
    · next m hm =>
      simp only [Except.ok.injEq, emit, Option.isSome_none, Bool.false_eq_true, if_false,
        nil_append] at h
      split_ifs at h with hsent
      · subst h
        exact .application hg (by simpa using hslot) hm hsent
      · subst h
        exact .refused _ fun _ => rfl

/-- **What a call can do**, whichever call it is. -/
lemma call_cases (h : call cfg env id u k = .ok r) : CallEffect cfg env id u k r := by
  cases k with
  | invite name => exact invite_effect h
  | remove name => exact remove_effect h
  | updateState => exact updateState_effect h
  | commitToProposals amount => exact commitToProposals_effect h
  | propose kind => exact propose_effect h
  | sendApplicationMsg => exact sendApplicationMsg_effect h

lemma mem_of_mem_keptProposals {choice : List ℕ} {ps kept : List PendingProposal}
    {p : PendingProposal} (h : keptProposals own choice amount ps = kept) (hp : p ∈ kept) :
    p ∈ ps := by
  subst h
  simp only [keptProposals] at hp
  split_ifs at hp
  · cases hp
  exact mem_of_mem_filter (mem_of_mem_filter hp)

section

variable (h : Prepares own id g k g' m w a)
include h

/-- **What a prepared message is.**  It is framed in the state before the call, which is
    operational.  A commit is pending afterwards, unless it is an invitation: that one is merged.
    A Welcome always opens the epoch of the commit. -/
lemma Prepares.spec :
    g.state = .operational ∧ m.sender = own ∧ m.base = g.transcript ∧ g'.creator = g.creator ∧
      ((∃ c, m.content = .commit c ∧ c.author = own ∧ c.check g.members = .ok () ∧
          own ∉ c.removes ∧ (∀ kind, a ≠ .propose kind) ∧
          (∀ sw, w = some sw → sw.welcome = ⟨g.creator, c :: g.transcript⟩) ∧
          ((g'.transcript = g.transcript ∧ g'.state = .pendingCommit c ∧
              ∀ name, k ≠ .invite name) ∨
            (g' = ⟨g.creator, c :: g.transcript, [], .operational⟩ ∧ ∃ name, k = .invite name))) ∨
        (∃ p, m.content = .proposal p ∧ g'.transcript = g.transcript ∧
          g'.state = .operational ∧ w = none ∧ a = .propose p.kind ∧
            ∃ kind, k = .propose kind)) := by
  cases h with
  | invite hbuild =>
    obtain ⟨hop, rfl, hcheck, hown, rfl⟩ := buildCommit_eq_ok hbuild
    refine ⟨hop, rfl, rfl, rfl, .inl ⟨_, rfl, rfl, hcheck, hown, by simp, ?_, ?_⟩⟩
    · rintro sw ⟨rfl⟩
      rfl
    · exact .inr ⟨rfl, _, rfl⟩
  | remove hmem hbuild | updateState hbuild =>
    obtain ⟨hop, rfl, hcheck, hown, rfl⟩ := buildCommit_eq_ok hbuild
    exact ⟨hop, rfl, rfl, rfl, .inl ⟨_, rfl, rfl, hcheck, hown, by simp, by simp,
      .inl ⟨rfl, rfl, by simp⟩⟩⟩
  | commitToProposals hkept hbuild =>
    obtain ⟨hop, rfl, hcheck, hown, rfl⟩ := buildCommit_eq_ok hbuild
    refine ⟨hop, rfl, rfl, rfl, .inl ⟨_, rfl, rfl, hcheck, hown, by simp, ?_,
      .inl ⟨rfl, rfl, by simp⟩⟩⟩
    intro sw hsw
    split_ifs at hsw
    cases hsw
    rfl
  | propose hpropose =>
    obtain ⟨hstate, rfl, rfl⟩ := propose_eq_ok hpropose
    exact ⟨hstate, rfl, rfl, rfl, .inr ⟨_, rfl, rfl, hstate, rfl, rfl, _, rfl⟩⟩

lemma Prepares.ne_application : k ≠ .sendApplicationMsg := by
  cases h <;> simp

lemma Prepares.of_commit (hm : m.content = .commit c) :
    m.sender = own ∧ m.base = g.transcript ∧ c.check g.members = .ok () ∧ own ∉ c.removes ∧
      ∀ sw, w = some sw → sw.welcome = ⟨g.creator, c :: g.transcript⟩ := by
  obtain ⟨-, hsender, hbase, -, ⟨c', hm', -, hcheck, hown, -, hsw, -⟩ | ⟨p, hm', -⟩⟩ := h.spec
  · obtain rfl := Content.commit.inj (hm.symm.trans hm')
    exact ⟨hsender, hbase, hcheck, hown, hsw⟩
  · simp [hm] at hm'

lemma Prepares.message_of_pending (hc : g'.state = .pendingCommit c) :
    m = ⟨own, g'.transcript, .commit c⟩ := by
  obtain ⟨sender, base, content⟩ := m
  obtain ⟨-, rfl, rfl, -, ⟨c', rfl, -, -, -, -, -, ⟨ht, hs, -⟩ | ⟨rfl, -⟩⟩ |
    ⟨p, rfl, ht, hs, -⟩⟩ := h.spec
  · obtain rfl : c' = c := by simpa [hs] using hc
    rw [ht]
  · simp at hc
  · simp [hs] at hc

end

/-! ## Sending -/

@[simp] lemma emit_user (env : Env) (r : Result) (o : Output) : (emit env r o).user = r.user := by
  unfold emit; split_ifs <;> rfl

variable {o : Output}

lemma mem_emit_outputs {o' : Output} (h : o' ∈ (emit env r o).outputs) :
    o' ∈ r.outputs ∨ o' = o := by
  unfold emit at h
  split_ifs at h
  · exact .inl h
  · simpa using h
  · exact .inl h

lemma foldl_emit (env : Env) (os : List Output) (r : Result) :
    (os.foldl (emit env) r).user = r.user ∧
      ∀ o ∈ (os.foldl (emit env) r).outputs, o ∈ r.outputs ∨ o ∈ os := by
  induction os generalizing r with
  | nil => exact ⟨rfl, fun o ho => .inl ho⟩
  | cons o os ih =>
    obtain ⟨huser, hout⟩ := ih (emit env r o)
    refine ⟨by simpa using huser, fun o' ho' => ?_⟩
    rcases hout o' ho' with h | h
    · rcases mem_emit_outputs h with h | rfl
      · exact .inl h
      · exact .inr (.head _ ..)
    · exact .inr (.tail _ h)

lemma mem_welcomesOf {active : Option (List String)} (h : o ∈ welcomesOf u g active w) :
    ∃ sw recipient, w = some sw ∧ recipient ∈ sw.recipients ∧
      o = .welcome recipient ⟨u.username, sw.welcome, g.transcript, sw.recipients, active⟩ := by
  cases w with
  | none => simp [welcomesOf] at h
  | some sw =>
    obtain ⟨recipient, hmem, rfl⟩ := mem_map.mp h
    exact ⟨sw, recipient, rfl, hmem, rfl⟩

lemma activeMembers_independent (hcfg : cfg.agent = .independent) (welcomes : Bool) (v : User) :
    (if welcomes then activeMembers cfg v else pure none) =
      (.ok none : Exec (Option (List String))) := by
  simp only [activeMembers, hcfg]
  split_ifs <;> rfl

/-! ## The agent and the orchestrator -/

section Frames

variable (action : NextAction) (u : User)

@[simp] lemma notifyAgent_username : (notifyAgent action u).username = u.username := by
  unfold notifyAgent; split_ifs <;> rfl

@[simp] lemma notifyAgent_group : (notifyAgent action u).group = u.group := by
  unfold notifyAgent; split_ifs <;> rfl

@[simp] lemma notifyAgent_pendingCommit :
    (notifyAgent action u).pendingCommit = u.pendingCommit := by
  unfold notifyAgent; split_ifs <;> rfl

@[simp] lemma notifyAgent_orchestrator : (notifyAgent action u).orchestrator = u.orchestrator := by
  unfold notifyAgent; split_ifs <;> rfl

@[simp] lemma notifyAgent_active : (notifyAgent action u).active = u.active := by
  unfold notifyAgent; split_ifs <;> rfl

end Frames

/-- **What the orchestrator of a user does with a commit.** -/
lemma orchestrate_eq_ok {total : ℕ} {removed added : List String} {u' : User}
    {action : NextAction} :
    orchestrate cfg g total removed added u = .ok (u', action) ↔
      ∃ o o1 out, u.orchestrator = some o ∧ o.removeMembers removed = .ok o1 ∧
        o1.processCommit cfg.rng cfg.fuel (cfg.transcriptHash g.transcript) total added = .ok out ∧
        u' = { u with orchestrator := some out.orchestrator } ∧ action = out.action := by
  unfold orchestrate
  cases ho : u.orchestrator with
  | none => simp
  | some o =>
    constructor
    · intro h
      obtain ⟨o1, ho1, h⟩ := bind_inv h
      obtain ⟨out, hout, h⟩ := bind_inv h
      cases h
      exact ⟨o, o1, out, rfl, ho1, hout, rfl, rfl⟩
    · rintro ⟨_, o1, out, ⟨rfl⟩, ho1, hout, rfl, rfl⟩
      exact bind_ok ho1 (bind_ok hout rfl)

lemma orchestrate_user {total : ℕ} {removed added : List String} {u' : User} {action : NextAction}
    (h : orchestrate cfg g total removed added u = .ok (u', action)) :
    ∃ o, u' = { u with orchestrator := some o } := by
  obtain ⟨-, -, out, -, -, -, rfl, -⟩ := orchestrate_eq_ok.mp h
  exact ⟨_, rfl⟩

/-! ## Messages of other members -/

/-- A commit of a later epoch that is still logged. -/
def NotesCommit (u : User) (m : GroupMessage) : Prop :=
  ∃ active epoch, u.active = some (active, epoch) ∧ (epoch = m.epoch ∨ active = true)

inductive ProtocolBranch (cfg : Config) (env : Env) (m : GroupMessage) (u : User) :
    Result → Prop where
  | groupless (hg : u.group = none) : ProtocolBranch cfg env m u ⟨u, [], none⟩
  | early {g : MlsGroup} (hg : u.group = some g) (hepoch : g.epoch < m.epoch)
      (hplain : ∀ c, m.content ≠ .commit c) : ProtocolBranch cfg env m u ⟨u, [], none⟩
  | noted {g : MlsGroup} {c : Commit} (hg : u.group = some g) (hepoch : g.epoch < m.epoch)
      (hm : m.content = .commit c) (hnotes : u.NotesCommit m) :
      ProtocolBranch cfg env m u ⟨{ u with active := some (false, m.epoch + 1) },
        [.record ⟨.process m.sender, m.epoch + 1, 0⟩], none⟩
  | marked {g : MlsGroup} {c : Commit} (hg : u.group = some g) (hepoch : g.epoch < m.epoch)
      (hm : m.content = .commit c) (hnotes : ¬ u.NotesCommit m) :
      ProtocolBranch cfg env m u ⟨{ u with active := some (false, m.epoch + 1) }, [], none⟩
  | conflict {g : MlsGroup} {e : MlsError} (hg : u.group = some g) (hepoch : ¬ g.epoch < m.epoch)
      (hm : g.processMessage u.username m = .error e) (hconflict : isConflict e = true) :
      ProtocolBranch cfg env m u ⟨u, [], none⟩
  | refused {g : MlsGroup} {e : MlsError} (hg : u.group = some g) (hepoch : ¬ g.epoch < m.epoch)
      (hm : g.processMessage u.username m = .error e) (hconflict : isConflict e = false) :
      ProtocolBranch cfg env m u ⟨u, [], some (.mls e)⟩
  | application {g : MlsGroup} {id : ℕ} (hg : u.group = some g) (hepoch : ¬ g.epoch < m.epoch)
      (hm : g.processMessage u.username m = .ok (.application id)) :
      ProtocolBranch cfg env m u ⟨u, [], none⟩
  | proposal {g : MlsGroup} {p : PendingProposal} (hg : u.group = some g)
      (hepoch : ¬ g.epoch < m.epoch) (hm : g.processMessage u.username m = .ok (.proposal p)) :
      ProtocolBranch cfg env m u ⟨{ u with group := some (g.storePendingProposal p) },
        [.record ⟨.storeProp m.sender, m.epoch, g.members.length⟩], none⟩
  | commit {g : MlsGroup} {c : Commit} {r : Result} (hg : u.group = some g)
      (hepoch : ¬ g.epoch < m.epoch) (hm : g.processMessage u.username m = .ok (.commit c))
      (hr : processCommitMessage cfg env m g c u = .ok r) : ProtocolBranch cfg env m u r

lemma processProtocolMessage_branch (h : processProtocolMessage cfg env m u = .ok r) :
    ProtocolBranch cfg env m u r := by
  unfold processProtocolMessage at h
  split at h
  · next hg =>
    cases h
    exact .groupless hg
  · next g hg =>
    split_ifs at h with hepoch
    · split at h
      · next c hm =>
        simp only [desynchronise] at h
        rcases hactive : u.active with _ | ⟨active, epoch⟩
        · simp only [hactive] at h
          cases h
          exact .marked hg hepoch hm (by simp [NotesCommit, hactive])
        · by_cases hnotes : epoch = m.epoch ∨ active = true
          · simp only [hactive, if_pos hnotes] at h
            cases h
            exact .noted hg hepoch hm (by simpa [NotesCommit, hactive] using hnotes)
          · simp only [hactive, if_neg hnotes] at h
            cases h
            exact .marked hg hepoch hm (by simpa [NotesCommit, hactive] using hnotes)
      · next hplain =>
        cases h
        exact .early hg hepoch hplain
    · split at h
      · next hm =>
        split_ifs at h with hconflict
        · cases h
          exact .conflict hg hepoch hm hconflict
        · obtain rfl := fails_eq_ok h
          exact .refused hg hepoch hm (by simpa using hconflict)
      · next hm => cases h; exact .application hg hepoch hm
      · next hm => cases h; exact .proposal hg hepoch hm
      · next hm => exact .commit hg hepoch hm h

/-- The ways in which the handling of a message of another member can end. -/
inductive ProtocolEffect (cfg : Config) (env : Env) (m : GroupMessage) (u : User) :
    Result → Prop where
  | ignored (active : Option (Bool × ℕ)) {records : List Output}
      (hother : ∀ g c, u.group = some g → m.content = .commit c → m.base ≠ g.transcript)
      (hrecords : ∀ o ∈ records, o = .record ⟨.process m.sender, m.epoch + 1, 0⟩) :
      ProtocolEffect cfg env m u ⟨{ u with active := active }, records, none⟩
  | failed (e : MlsError) : ProtocolEffect cfg env m u ⟨u, [], some (.mls e)⟩
  | stored {g : MlsGroup} {p : PendingProposal} (hg : u.group = some g)
      (hm : g.processMessage u.username m = .ok (.proposal p)) :
      ProtocolEffect cfg env m u
        ⟨{ u with group := some (g.storePendingProposal p) },
          [.record ⟨.storeProp m.sender, m.epoch, g.members.length⟩], none⟩
  | committed {g : MlsGroup} {c : Commit} {r : Result} (hg : u.group = some g)
      (hm : g.processMessage u.username m = .ok (.commit c))
      (hr : processCommitMessage cfg env m g c u = .ok r) : ProtocolEffect cfg env m u r

lemma base_ne_of_conflict {e : MlsError} (hc : m.content = .commit c)
    (h : g.processMessage own m = .error e) (hconflict : isConflict e = true) :
    m.base ≠ g.transcript := by
  intro hbase
  have hepoch : m.epoch = g.epoch := congrArg List.length hbase
  unfold MlsGroup.processMessage at h
  simp only [hc, hepoch, hbase, ne_eq, not_true_eq_false, if_false] at h
  split_ifs at h with h1 h2 h3
  · cases h
    simp [isConflict] at hconflict
  · cases h
    simp [isConflict] at hconflict
  all_goals
    unfold Commit.check at h
    split_ifs at h <;> cases h <;> simp [isConflict] at hconflict

lemma processProtocolMessage_cases (h : processProtocolMessage cfg env m u = .ok r) :
    ProtocolEffect cfg env m u r := by
  have hother : ∀ g, u.group = some g → g.epoch < m.epoch →
      ∀ g' c, u.group = some g' → m.content = .commit c → m.base ≠ g'.transcript := by
    intro g hg hepoch g' c hg' _ hbase
    obtain rfl := Option.mem_unique hg hg'
    exact absurd (congrArg List.length hbase) (Nat.ne_of_gt hepoch)
  cases processProtocolMessage_branch h with
  | groupless hg => exact .ignored u.active (by simp [hg]) (by simp)
  | early hg hepoch hplain => exact .ignored u.active (hother _ hg hepoch) (by simp)
  | noted hg hepoch hm hnotes | marked hg hepoch hm hnotes =>
    exact .ignored _ (hother _ hg hepoch) (by simp)
  | conflict hg hepoch hm hconflict =>
    refine .ignored u.active (fun g' c hg' hcontent => ?_) (by simp)
    obtain rfl := Option.mem_unique hg hg'
    exact base_ne_of_conflict hcontent hm hconflict
  | refused hg hepoch hm hconflict => exact .failed _
  | application hg hepoch hm =>
    refine .ignored u.active (fun g' c _ hcontent => ?_) (by simp)
    simp [processMessage_content hm] at hcontent
  | proposal hg hepoch hm => exact .stored hg hm
  | commit hg hepoch hm hr => exact .committed hg hm hr

/-- **What the handling of a commit can do.**  The user leaves, or it merges the commit. -/
lemma processCommitMessage_cases (h : processCommitMessage cfg env m g c u = .ok r) :
    ∃ u' action, nextAction cfg env g c u = .ok (u', action) ∧
      ((r = leave u' (g.mergeStagedCommit u'.username c) m ∧
          (u'.username ∈ c.removes ∨ action = .inactive)) ∨
        (u'.username ∉ c.removes ∧ action ≠ .inactive ∧
          r = ⟨notifyAgent action { u' with group := some (g.mergeStagedCommit u'.username c) },
            [.record ⟨.deepProcess m.sender, g.epoch + 1,
              (g.mergeStagedCommit u'.username c).members.length⟩], none⟩)) := by
  obtain ⟨⟨u', action⟩, hnext, h⟩ := bind_inv h
  refine ⟨u', action, hnext, ?_⟩
  by_cases hleave : u'.username ∈ c.removes ∨ action = .inactive
  · simp only [if_pos hleave, pure_eq_ok] at h
    exact .inl ⟨h.symm, hleave⟩
  · simp only [if_neg hleave, pure_eq_ok] at h
    subst h
    exact .inr ⟨fun hr => hleave (.inl hr), fun ha => hleave (.inr ha), rfl⟩

/-! ## Welcomes -/

inductive WelcomeEffect (env : Env) (w : WelcomeMessage) (u : User) : Result → Prop where
  | refused (hjoin : u.joinGroup env w = none) : WelcomeEffect env w u ⟨u, [], some .staging⟩
  | joined {g : MlsGroup} (hjoin : u.joinGroup env w = some g) (u' : User)
      (hgroup : u'.group = some g) (hactive : u'.active = some (true, 0)) :
      WelcomeEffect env w u
        ⟨u', [.subscribe, .record ⟨.welcome w.sender, g.epoch, g.members.length⟩], none⟩
  | inactive {g : MlsGroup} (hjoin : u.joinGroup env w = some g) (u' : User)
      (hgroup : u'.group = none) (hactive : u'.active = some (true, 0)) :
      WelcomeEffect env w u
        ⟨u', [.ack, .record ⟨.welcome w.sender, g.epoch, g.members.length⟩], none⟩

lemma joinGroup_eq_some {w : WelcomeMessage} {g : MlsGroup} (h : u.joinGroup env w = some g) :
    ∃ c t, w.welcome.transcript = c :: t ∧ u.username ∈ c.adds ∧
      g = ⟨w.welcome.creator, c :: t, [], .operational⟩ := by
  unfold joinGroup at h
  split at h
  · cases h
  next c t ht =>
  split_ifs at h with hstage
  cases h
  exact ⟨c, t, ht, hstage.2.1, by rw [ht]⟩

/-- A Welcome is refused, or the user joins with it. -/
lemma processWelcome_cases {w : WelcomeMessage} (h : processWelcome cfg env w u = .ok r) :
    WelcomeEffect env w u r := by
  unfold processWelcome at h
  split at h
  · next hjoin =>
    obtain rfl := fails_eq_ok h
    exact .refused hjoin
  · next g hjoin =>
    dsimp only at h
    split at h
    · cases h
      exact .joined hjoin _ rfl rfl
    · split at h
      · cases h
      · obtain ⟨o, -, h⟩ := bind_inv h
        split at h
        · cases h; exact .inactive hjoin _ rfl rfl
        · cases h; exact .joined hjoin _ rfl rfl
        · cases h; exact .joined hjoin _ rfl rfl

end User

end EmulatedMls.Client
