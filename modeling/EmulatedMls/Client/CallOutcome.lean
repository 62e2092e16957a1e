import EmulatedMls.Client.Echo
import EmulatedMls.Client.Orchestrated

/-!
# Who is welcomed, and what a failed send leaves behind

Two questions about a single call, in any state of the user and for both kinds of agents.

**Welcomes.**  A commit covers the whole proposal store, while each call works out on its own who
gets the Welcome: `commit_to_proposals` from the store, `invite` only the invited user, `remove` and
`update_state` nobody.

**Failed sends.**  The group stages the commit, or for an invitation merges it, before the message
is sent, and no error path takes that back.
-/

namespace EmulatedMls.Client

open List MlsGroup

namespace User

open Solo (soloConfig joining)

variable {cfg : Config} {env : Env} {id : ℕ} {u : User}

/-! ## Welcomes -/

/-- The users to whom Welcomes are sent, one entry for each Welcome. -/
def welcomedIn (os : List Output) : List String :=
  os.filterMap fun
    | .welcome recipient _ => some recipient
    | _ => none

@[simp] lemma welcomedIn_append (os os' : List Output) :
    welcomedIn (os ++ os') = welcomedIn os ++ welcomedIn os' := filterMap_append ..

@[simp] lemma welcomedIn_welcomesOf (u : User) (g : MlsGroup) (active : Option (List String))
    (w : Option StoredWelcome) : welcomedIn (welcomesOf u g active w) = welcomed w := by
  cases w with
  | none => rfl
  | some sw => simp [welcomedIn, welcomesOf, welcomed, filterMap_map]

@[simp] lemma sentBy_welcomesOf (u : User) (g : MlsGroup) (active : Option (List String))
    (w : Option StoredWelcome) : sentBy (welcomesOf u g active w) = [] := by
  cases w with
  | none => rfl
  | some sw => simp [sentBy, welcomesOf, filterMap_map]

lemma welcomedIn_publication (g : MlsGroup) (a : Action) : welcomedIn (publication g a) = [] := by
  cases a <;> rfl

@[simp] lemma sentBy_append (os os' : List Output) :
    sentBy (os ++ os') = sentBy os ++ sentBy os' := filterMap_append ..

lemma sentBy_publication (g : MlsGroup) (a : Action) : sentBy (publication g a) = [] := by
  cases a <;> rfl

variable {r : Result} {e : PendingCommit} {g g' : MlsGroup} {a : Action} {w : Option StoredWelcome}
  {m : GroupMessage}

/-- **A successful confirmation welcomes the recipients of its slot** only. -/
lemma confirmCommit_sends (h : confirmCommit cfg env u = .ok r) (hok : r.error = none)
    (hslot : u.pendingCommit = some e) :
    welcomedIn r.outputs = welcomed e.welcome ∧ sentBy r.outputs = [] := by
  cases confirmCommit_outcome h with
  | empty hempty => simp [hempty] at hslot
  | groupless hslot' hg | interrupted hslot' hg hmerge hfail => simp at hok
  | completed hslot' hg hmerge hsent u' a hframe haction =>
    obtain rfl := Option.mem_unique hslot' hslot
    have hrecord : welcomedIn [.record a] = [] ∧ sentBy [.record a] = [] := ⟨rfl, rfl⟩
    constructor
    · simp [entrySends, welcomedIn_publication, hrecord.1]
    · simp [entrySends, sentBy_publication, hrecord.2]

lemma exists_confirmCommit (hcfg : cfg.agent = .independent) (hslot : u.pendingCommit = some e)
    (hg : u.group = some g) (hmerge : g.mergePendingCommit u.username = .ok g') :
    ∃ r, confirmCommit cfg Env.fine u = .ok r ∧ r.error = none := by
  have hsend : ∀ o, Env.fine.delivers o = true := fun _ => rfl
  have hconclude : ∀ r : Result, r.error = none →
      ∃ r', concludeCommit cfg Env.fine g' e r = .ok r' ∧ r'.error = none := by
    intro r hr
    simp [concludeCommit, emit, hr, hsend, hcfg, writeTimestamp]
  simp only [confirmCommit, hslot, hg, hmerge, activeMembers_independent hcfg,
    foldl_emit_delivered hsend, Exec.bind_eq_ok, Except.ok.injEq, exists_eq_left',
    Option.isSome_none, Bool.false_eq_true, if_false]
  split
  · exact ⟨_, rfl, rfl⟩
  · exact hconclude _ rfl

/-- The condition: the call hands its Welcome to everybody who is added by a pending proposal. -/
def Call.WelcomesPending (proposals : List PendingProposal) : Call → Prop
  | .commitToProposals _ => True
  | _ => addsOf proposals = []

variable {k : Call} {c : Commit}

/-- **The recipients of a prepared Welcome against the adds of the commit.** -/
lemma Prepares.welcomed_perm_iff {own : String} (h : Prepares own id g k g' m w a)
    (hm : m.content = .commit c) : (welcomed w).Perm c.adds ↔ k.WelcomesPending g.proposals := by
  cases h with
  | @invite name c' staged hbuild =>
    obtain rfl := Content.commit.inj hm
    obtain ⟨-, hc, -⟩ := buildCommit_eq_ok hbuild
    have hadds : c'.adds = addsOf g.proposals ++ [name] := by
      rw [hc]
      exact addsOf_append ..
    rw [hadds]
    constructor
    · intro hperm
      have hlen := hperm.length_eq
      simpa [welcomed, Call.WelcomesPending] using hlen
    · intro hnil
      rw [show addsOf g.proposals = [] from hnil]
      exact List.Perm.refl _
  | @remove name c' staged hmem hbuild =>
    obtain rfl := Content.commit.inj hm
    obtain ⟨-, hc, -⟩ := buildCommit_eq_ok hbuild
    have hadds : c'.adds = addsOf g.proposals := by
      rw [hc]
      exact (addsOf_append ..).trans (append_nil _)
    rw [hadds]
    exact nil_perm
  | updateState hbuild =>
    obtain rfl := Content.commit.inj hm
    obtain ⟨-, hc, -⟩ := buildCommit_eq_ok hbuild
    rw [map_nil, append_nil] at hc
    rw [hc]
    exact nil_perm
  | @commitToProposals choice amount kept c' staged hkept hbuild =>
    obtain rfl := Content.commit.inj hm
    obtain ⟨-, hc, -⟩ := buildCommit_eq_ok hbuild
    rw [map_nil, append_nil] at hc
    refine iff_of_true ?_ trivial
    split_ifs with hnil
    · rw [hnil]
      exact List.Perm.refl _
    · rw [hc]
      exact List.Perm.refl _
  | propose hpropose =>
    obtain ⟨-, rfl, -⟩ := propose_eq_ok hpropose
    cases hm

/-- The outputs with which the commit of a call is confirmed, at once or later. -/
def Confirmation (cfg : Config) (r : Result) (os : List Output) : Prop :=
  match cfg.agent with
  | .orchestrator _ => os = r.outputs
  | .independent => ∃ env u r', u.pendingCommit = r.user.pendingCommit ∧
      confirmCommit cfg env u = .ok r' ∧ r'.error = none ∧ os = r'.outputs

/-- A prepared commit that was sent can be confirmed, which welcomes its recipients. -/
lemma confirmation_of_posted (hprep : Prepares u.username id g k g' m w a)
    (hm : m.content = .commit c)
    (hpost : postProcessCommit cfg env { u with group := some g' } g' m w a = .ok r)
    (hok : r.error = none) :
    sentBy r.outputs = [m] ∧ (∃ os, Confirmation cfg r os) ∧
      ∀ os, Confirmation cfg r os → welcomedIn os = welcomed w := by
  unfold postProcessCommit at hpost
  dsimp only at hpost
  split_ifs at hpost with hsent
  swap
  · obtain rfl := fails_eq_ok hpost
    simp at hok
  cases hagent : cfg.agent with
  | independent =>
    simp only [hagent, Except.ok.injEq] at hpost
    subst hpost
    refine ⟨rfl, ?_, ?_⟩
    · obtain ⟨r', hr', hok'⟩ := exists_confirmCommit (u := { u with
        group := some g', pendingCommit := some ⟨m, w, ⟨a, g'.epoch, g'.members.length⟩⟩ })
        hagent rfl rfl (hprep.merge hm)
      exact ⟨r'.outputs, by
        simp only [Confirmation, hagent]
        exact ⟨_, _, r', rfl, hr', hok', rfl⟩⟩
    · intro os hos
      simp only [Confirmation, hagent] at hos
      obtain ⟨env', v, r', hslot, hr', hok', rfl⟩ := hos
      exact (confirmCommit_sends hr' hok' hslot).1
  | orchestrator params =>
    simp only [hagent] at hpost
    obtain ⟨r1, hr1, hpost⟩ := Exec.bind_inv hpost
    cases hpost
    obtain ⟨hwel, hsentBy⟩ := confirmCommit_sends hr1 hok rfl
    simp only [Confirmation, hagent]
    refine ⟨?_, ⟨_, rfl⟩, ?_⟩
    · show m :: sentBy r1.outputs = [m]
      rw [hsentBy]
    · rintro os rfl
      exact hwel

/-- **Who is welcomed.**  The Welcomes of a commit go to exactly the members that it adds, each
    once, if and only if the call is `commit_to_proposals` or no Add is pending. -/
theorem added_welcomed_iff {k : Call} {r : Result} (hk : k.isCommit = true)
    (hcall : call cfg env id u k = .ok r) (hok : r.error = none) :
    ∃ m c, sentBy r.outputs = [m] ∧ m.content = .commit c ∧ (∃ os, Confirmation cfg r os) ∧
      ((∀ os, Confirmation cfg r os → (welcomedIn os).Perm c.adds ∧ (welcomedIn os).Nodup) ↔
        ∀ g, u.group = some g → k.WelcomesPending g.proposals) := by
  cases call_cases hcall with
  | refused e he | dropped hg hkept hbuild => simp at hok
  | application hg hslot hm hsent => simp [Call.isCommit] at hk
  | @posted _ g g' m w a _ hg hprep hpost =>
    obtain ⟨-, -, -, -, ⟨c, hm, -, hcheck, -⟩ | ⟨p, -, -, -, -, -, kind, rfl⟩⟩ := hprep.spec
    swap
    · simp [Call.isCommit] at hk
    obtain ⟨hsent, ⟨os, hos⟩, hwel⟩ := confirmation_of_posted hprep hm hpost hok
    have hnodup := (check_eq_ok.mp hcheck).1.1
    refine ⟨m, c, hsent, hm, ⟨os, hos⟩, ?_, ?_⟩
    · intro h g0 hg0
      obtain rfl := Option.mem_unique hg hg0
      rw [← hprep.welcomed_perm_iff hm, ← hwel os hos]
      exact (h os hos).1
    · intro h os' hos'
      have hperm := (hprep.welcomed_perm_iff hm).mpr (h g hg)
      rw [hwel os' hos']
      exact ⟨hperm, hperm.nodup_iff.mpr hnodup⟩

/-- `A` in a group with `B`, with the proposal of `B` to add `C`. -/
def pendingC : User where
  username := "A"
  group := some ⟨"A", [joining], [⟨1, "B", .add "C"⟩], .operational⟩
  pendingCommit := none
  orchestrator := none
  active := some (true, 0)
  agentQueue := 0

/-- The commit of `A` that covers it. -/
def addingC : Commit := ⟨2, "A", ["C"], [], []⟩

def updatedC : User := { pendingC with
  group := some ⟨"A", [joining], [⟨1, "B", .add "C"⟩], .pendingCommit addingC⟩
  pendingCommit := some ⟨⟨"A", [joining], .commit addingC⟩, none, ⟨.update, 1, 2⟩⟩ }

/-- `A` updates its state: the commit adds `C`, and nobody is welcomed. -/
theorem pending_add_not_welcomed :
    call soloConfig Env.fine 2 pendingC .updateState =
        .ok ⟨updatedC, [.toGroup ⟨"A", [joining], .commit addingC⟩ ["B"]], none⟩ ∧
      ∃ r, confirmCommit soloConfig Env.fine updatedC = .ok r ∧ r.error = none ∧
        addingC.adds = ["C"] ∧ welcomedIn r.outputs = [] := by
  refine ⟨rfl, ?_⟩
  decide +kernel

/-- `A` commits to the proposal: `C` is welcomed. -/
theorem added_welcomed_iff_committed :
    ∃ r m c, call soloConfig Env.fine 2 pendingC (.commitToProposals 1) = .ok r ∧
      sentBy r.outputs = [m] ∧ m.content = .commit c ∧
      ∀ os, Confirmation soloConfig r os → (welcomedIn os).Perm c.adds ∧ (welcomedIn os).Nodup := by
  have hcall : call soloConfig Env.fine 2 pendingC (.commitToProposals 1) =
      .ok ⟨{ updatedC with
          pendingCommit := some ⟨⟨"A", [joining], .commit addingC⟩,
            some ⟨⟨"A", [addingC, joining]⟩, ["C"]⟩, ⟨.commit [.add "C"], 1, 2⟩⟩ },
        [.toGroup ⟨"A", [joining], .commit addingC⟩ ["B"]], none⟩ := rfl
  obtain ⟨m, c, hm, hc, -, hiff⟩ := added_welcomed_iff rfl hcall rfl
  exact ⟨_, m, c, hcall, hm, hc, hiff.mpr fun _ _ => trivial⟩

/-! ## Failed sends -/

/-- What a failed send should leave alone. -/
structure Unchanged (u : User) (r : Result) : Prop where
  group : ∃ g g', u.group = some g ∧ r.user.group = some g' ∧ g'.epoch = g.epoch ∧
    g'.isOperational = .ok ()
  pendingCommit : r.user.pendingCommit = u.pendingCommit
  orchestrator : r.user.orchestrator = u.orchestrator
  log : ∀ a, Output.record a ∉ r.outputs

/-- A message that cannot be sent ends `post_process_commit` at once. -/
lemma postProcessCommit_of_not_sent (hsend : ∀ m dest, env.delivers (.toGroup m dest) = false)
    (h : postProcessCommit cfg env u g m w a = .ok r) : r = ⟨u, [], some .send⟩ := by
  simp only [postProcessCommit, hsend, Bool.false_eq_true, if_false] at h
  exact fails_eq_ok h

/-- **Failed sends.**  A call that cannot send changes nothing exactly if it is a proposal. -/
theorem failed_send_unchanged_iff {k : Call} {r : Result} (hk : k ≠ .sendApplicationMsg)
    (hcall : call cfg env id u k = .ok r)
    (hsend : ∀ m dest, env.delivers (.toGroup m dest) = false) (hfailed : r.error = some .send) :
    Unchanged u r ↔ ∃ kind, k = .propose kind := by
  cases call_cases hcall with
  | refused e he => exact absurd (he (Option.some.inj hfailed)) hk
  | dropped hg hkept hbuild => simp at hfailed
  | application hg hslot hm hsent => exact absurd rfl hk
  | @posted _ g g' m w a _ hg hprep hpost =>
    obtain rfl := postProcessCommit_of_not_sent hsend hpost
    obtain ⟨-, -, -, -, ⟨c, -, -, -, -, ha, -, ⟨-, hstate, -⟩ | ⟨rfl, name, rfl⟩⟩ |
      ⟨p, -, ht, hstate, -, -, kind, rfl⟩⟩ := hprep.spec
    · -- the commit is left pending
      refine iff_of_false (fun h => ?_) ?_
      · obtain ⟨-, g'', -, hg'', -, hop⟩ := h.group
        cases hg''
        rw [isOperational_eq_ok, hstate] at hop
        cases hop
      · rintro ⟨kind, rfl⟩
        cases hprep with
        | propose hpropose => exact ha kind rfl
    · -- the invitation is merged
      refine iff_of_false (fun h => ?_) (by simp)
      obtain ⟨g0, g'', hg0, hg'', hepoch, -⟩ := h.group
      cases hg''
      obtain rfl := Option.mem_unique hg hg0
      simp [MlsGroup.epoch] at hepoch
    · refine iff_of_true ⟨⟨g, g', hg, rfl, ?_, ?_⟩, rfl, rfl, by simp⟩ ⟨kind, rfl⟩
      · rw [MlsGroup.epoch, ht, MlsGroup.epoch]
      · exact isOperational_eq_ok.mpr hstate

def offline : Env := { Env.fine with delivers := fun _ => false }

/-- The update of `A` cannot be sent; it stays pending, and the next one is rejected. -/
theorem failed_update_stays_pending :
    ∃ u, call soloConfig offline 2 pendingC .updateState = .ok ⟨u, [], some .send⟩ ∧
      call soloConfig Env.fine 3 u .updateState = .ok ⟨u, [], some (.mls .pendingCommit)⟩ :=
  ⟨{ updatedC with pendingCommit := none }, rfl, rfl⟩

/-- A proposal that cannot be sent leaves everything alone. -/
theorem failed_send_unchanged_iff_proposal :
    ∃ r, call soloConfig offline 2 pendingC (.propose .update) = .ok r ∧
      r.error = some .send ∧ Unchanged pendingC r := by
  have hcall : call soloConfig offline 2 pendingC (.propose .update) =
      .ok ⟨{ pendingC with group := some ⟨"A", [joining],
        [⟨1, "B", .add "C"⟩, ⟨2, "A", .update⟩], .operational⟩ }, [], some .send⟩ := rfl
  exact ⟨_, hcall, rfl,
    (failed_send_unchanged_iff (by simp) hcall (fun _ _ => rfl) rfl).mpr ⟨_, rfl⟩⟩

end User

end EmulatedMls.Client
