import EmulatedMls.Client.PubSub
import EmulatedMls.Orchestrator.Winner
import Mathlib.Data.List.Perm.Basic

/-!
# Agreement of the orchestrators

The committer, the processing members and the joiners compute the vector of a commit from
different data: the action of the committer, the staged commit and the Welcome.  The vector they
ought to have is a function of the history of the group, `vectorOf`, and a holder of the group
always has the vector of its history as long as every commit is `Plain`: the action names all
removed members and the Welcome all added ones, and no Welcome comes with a removal.

**Replicas.**  The creator, a joiner and a holder that takes in a commit all run `process_commit`
for the newest commit of a history.  `Replica` says that such a run starts from the vector that the
history prescribes, and what follows from it is proved for all three at once.
-/

namespace EmulatedMls.Client

open Exec List MlsGroup Orchestrator User

/-- Users that share one group under the orchestrator: their configuration with the parameters in
    it, and the creator of the group. -/
structure Setting where
  cfg : Config
  params : OrchestratedParameters
  agent : cfg.agent = .orchestrator params
  creator : String

variable {S : Setting} {creator name : String}

/-! ## Rosters -/

/-- Every commit of the history passes the checks in the state it was made in. -/
def Checked (creator : String) : Transcript → Prop
  | [] => True
  | c :: t => c.check (roster creator t) = .ok () ∧ Checked creator t

variable {t : Transcript} {c : Commit} {known start : List String} {o : Orchestrator}
  {action : NextAction} {g : MlsGroup} {u u' : User}

lemma roster_nodup (h : Checked creator t) : (roster creator t).Nodup := by
  induction t with
  | nil => simp [roster]
  | cons c t ih =>
    obtain ⟨⟨hnodup, hfresh⟩, -⟩ := check_eq_ok.mp h.1
    refine List.Nodup.append ((ih h.2).filter _) hnodup ?_
    exact fun a ha ha' => hfresh a ha' ha

lemma length_roster_cons (h : Checked creator (c :: t)) :
    (roster creator t).length + c.adds.length - c.removes.length =
      (roster creator (c :: t)).length := by
  obtain ⟨-, hnodup, hsub⟩ := check_eq_ok.mp h.1
  have hperm : ((roster creator t).filter (· ∈ c.removes)).Perm c.removes := by
    refine (perm_ext_iff_of_nodup ((roster_nodup h.2).filter _) hnodup).mpr fun a => ?_
    simp only [mem_filter, decide_eq_true_eq, and_iff_right_iff_imp]
    exact fun ha => hsub ha
  have hsplit := length_eq_length_filter_add (l := roster creator t) (· ∈ c.removes)
  rw [hperm.length_eq] at hsplit
  simp only [roster, Commit.apply, length_append]
  have hneg : ((roster creator t).filter (fun a => ! decide (a ∈ c.removes))).length =
      ((roster creator t).filter (· ∉ c.removes)).length := by
    simp
  omega

lemma notMem_adds (h : c.check (roster creator t) = .ok ()) (hmem : name ∈ roster creator t)
    (hstays : name ∉ c.removes) : name ∉ c.adds := by
  obtain ⟨⟨-, hfresh⟩, -⟩ := check_eq_ok.mp h
  exact fun ha => hfresh name ha (mem_filter.mpr ⟨hmem, by simpa using hstays⟩)

/-! ## The vector of a history -/

/-- The vector without the given names. -/
def unseat (params : OrchestratedParameters) (names known : List String) : List String :=
  resize (known.filter (· ∉ names)) params.maxActiveProcessers ""

lemma unseat_nil {params : OrchestratedParameters} (h : known.length = params.maxActiveProcessers) :
    unseat params [] known = known := by
  simp [unseat, resize_of_length_eq h]

namespace Setting

/-- The members that get a seat with the newest commit of a history. -/
def newcomers (S : Setting) : Transcript → List String
  | [] => [S.creator]
  | c :: _ => c.adds

def seating (S : Setting) (t : Transcript) (start : List String) : Exec (List String) := do
  let (known, _) ← seatMembers S.cfg.rng S.params (roster S.creator t).length (S.newcomers t)
    (start, S.cfg.rng.fromSeed (seedArray (S.cfg.transcriptHash t)))
  pure known

/-- The vector of a history, from that of the creator. -/
def vectorOf (S : Setting) : Transcript → Exec (List String)
  | [] => S.seating [] (resize [] S.params.maxActiveProcessers "")
  | c :: t => do
    let known ← vectorOf S t
    S.seating (c :: t) (unseat S.params c.removes known)

/-- The vector that the newest commit of a history starts from. -/
def startOf (S : Setting) : Transcript → Exec (List String)
  | [] => pure (resize [] S.params.maxActiveProcessers "")
  | c :: t => do
    let known ← S.vectorOf t
    pure (unseat S.params c.removes known)

lemma vectorOf_eq_ok : S.vectorOf t = .ok known ↔ ∃ start, S.startOf t = .ok start ∧
    ∃ gen, seatMembers S.cfg.rng S.params (roster S.creator t).length (S.newcomers t)
      (start, S.cfg.rng.fromSeed (seedArray (S.cfg.transcriptHash t))) = .ok (known, gen) := by
  have hvector : S.vectorOf t = .ok known ↔
      ∃ start, S.startOf t = .ok start ∧ S.seating t start = .ok known := by
    cases t with
    | nil => simp [vectorOf, startOf]
    | cons c t =>
      simp only [vectorOf, startOf, bind_eq_ok, pure_eq_ok]
      constructor
      · rintro ⟨a, ha, hs⟩
        exact ⟨_, ⟨a, ha, rfl⟩, hs⟩
      · rintro ⟨_, ⟨a, ha, rfl⟩, hs⟩
        exact ⟨a, ha, hs⟩
  refine hvector.trans (exists_congr fun start => and_congr_right fun _ => ?_)
  refine bind_eq_ok.trans ⟨?_, ?_⟩
  · rintro ⟨⟨_, gen⟩, hs, ⟨⟩⟩
    exact ⟨gen, hs⟩
  · rintro ⟨gen, hs⟩
    exact ⟨_, hs, rfl⟩

lemma startOf_cons (h : S.vectorOf t = .ok known) :
    S.startOf (c :: t) = .ok (unseat S.params c.removes known) :=
  bind_ok h rfl

lemma length_of_startOf (h : S.startOf t = .ok start) :
    start.length = S.params.maxActiveProcessers := by
  cases t with
  | nil =>
    cases h
    exact length_resize _ _ _
  | cons c t =>
    obtain ⟨known, -, h⟩ := bind_inv h
    cases h
    exact length_resize _ _ _

lemma length_of_vectorOf (h : S.vectorOf t = .ok known) :
    known.length = S.params.maxActiveProcessers := by
  obtain ⟨start, hstart, gen, hseat⟩ := vectorOf_eq_ok.mp h
  rw [length_seatMembers hseat, length_of_startOf hstart]

end Setting

variable {out : Outcome}

/-! ## Replicas -/

/-- What holds for the orchestrator of a user that has the group with the given history. -/
structure Seated (S : Setting) (name : String) (o : Orchestrator) (t : Transcript) : Prop where
  checked : Checked S.creator t
  member : name ∈ roster S.creator t
  named : o.name = name
  parameters : o.parameters = S.params
  vector : S.vectorOf t = .ok o.knownMembers

/-- A member runs the newest commit of a history from the right vector. -/
structure Replica (S : Setting) (name : String) (t : Transcript) (o : Orchestrator)
    (out : Outcome) : Prop where
  checked : Checked S.creator t
  member : name ∈ roster S.creator t
  named : o.name = name
  parameters : o.parameters = S.params
  start : S.startOf t = .ok o.knownMembers
  commit : o.processCommit S.cfg.rng S.cfg.fuel (S.cfg.transcriptHash t) (roster S.creator t).length
    (S.newcomers t) = .ok out

/-- **A replica that starts from the right vector ends with the right vector.** -/
lemma Replica.seated (h : Replica S name t o out) : Seated S name out.orchestrator t := by
  obtain ⟨hname, hparams, gen, hseat⟩ := processCommit_frame h.commit
  rw [h.parameters] at hseat
  exact ⟨h.checked, h.member, hname.trans h.named, hparams.trans h.parameters,
    Setting.vectorOf_eq_ok.mpr ⟨_, h.start, gen, hseat⟩⟩

/-- A holder takes in a commit that passes the checks. -/
structure TakesIn (S : Setting) (name : String) (t : Transcript) (c : Commit)
    (o o' : Orchestrator) (action : NextAction) : Prop where
  seated : Seated S name o t
  check : c.check (roster S.creator t) = .ok ()
  orchestrated : ∃ o1 out, o.removeMembers c.removes = .ok o1 ∧
    o1.processCommit S.cfg.rng S.cfg.fuel (S.cfg.transcriptHash (c :: t))
      (roster S.creator (c :: t)).length c.adds = .ok out ∧ o' = out.orchestrator ∧
    action = out.action

section TakesIn

variable {o' : Orchestrator} (h : TakesIn S name t c o o' action) (hown : name ∉ c.removes)
include h hown

/-- **A holder with a seat, or with nothing to unseat, is a replica of the new history.** -/
lemma TakesIn.replica (hseat : c.removes = [] ∨ name ∈ o.knownMembers) :
    ∃ o1 out, Replica S name (c :: t) o1 out ∧ o1.pendingAcks = o.pendingAcks ∧
      o' = out.orchestrator ∧ action = out.action := by
  obtain ⟨hseated, hcheck, o1, out, hremove, hcommit, rfl, rfl⟩ := h
  have hmember : name ∈ roster S.creator (c :: t) :=
    mem_append_left _ (mem_filter.mpr ⟨hseated.member, by simpa using hown⟩)
  have hremoved : o1 = { o with knownMembers := unseat S.params c.removes o.knownMembers } := by
    obtain ⟨hout, rfl⟩ | ⟨hin, rfl⟩ := removeMembers_cases hremove
    · rcases hseat with hnil | hin
      · rw [hnil, unseat_nil (Setting.length_of_vectorOf hseated.vector)]
      · exact absurd hin (hseated.named ▸ hout)
    · rw [← hseated.parameters, unseat]
  subst hremoved
  refine ⟨_, out, ⟨⟨hcheck, hseated.checked⟩, hmember, ?_, ?_, ?_, hcommit⟩, rfl, rfl, rfl⟩
  exacts [hseated.named, hseated.parameters, Setting.startOf_cons hseated.vector]

/-- **A holder without a seat goes inactive.** -/
lemma TakesIn.inactive (hout : name ∉ o.knownMembers) : action = .inactive := by
  obtain ⟨hseated, hcheck, o1, out, hremove, hcommit, rfl, rfl⟩ := h
  obtain ⟨-, rfl⟩ | ⟨hin, -⟩ := removeMembers_cases hremove
  · obtain ⟨known, ⟨gen, hseat⟩, ⟨-, rfl⟩ | ⟨pos, who, hpos, -, -⟩⟩ := processCommit_cases hcommit
    · rfl
    · have hmem : name ∈ known := hseated.named ▸ mem_of_getElem? (getElem?_of_position hpos)
      rcases mem_of_mem_seatMembers hseat hmem with hx | hx
      · exact absurd hx hout
      · exact absurd hx (notMem_adds hcheck hseated.member hown)
  · exact absurd (hseated.named ▸ hin) hout

end TakesIn

/-! ## The lists of a commit -/

lemma addsOf_eq_nil {ps : List PendingProposal} (h : ∀ p ∈ ps, p.kind = .update) : addsOf ps = [] :=
  filterMap_eq_nil_iff.mpr fun p hp => by simp [h p hp]

/-- The pending proposals on which a call makes a plain commit. -/
def User.Call.Plain (proposals : List PendingProposal) : User.Call → Prop
  | .invite _ | .updateState | .remove _ => ∀ p ∈ proposals, p.kind = .update
  | .commitToProposals _ => ∀ p ∈ proposals, ∀ x, p.kind ≠ .remove x
  | .propose _ | .sendApplicationMsg => True

variable {id : ℕ} {k : User.Call} {m : GroupMessage}

/-- Pending updates leave no trace in the lists. -/
lemma MlsGroup.lists_of_updates {own : String} {inline : List ProposalKind} {g' : MlsGroup}
    (h : g.buildCommit own id inline = .ok (c, g')) (hplain : ∀ p ∈ g.proposals, p.kind = .update) :
    c.adds = addsOf (inline.map (⟨id, own, ·⟩)) ∧
      c.removes = removesOf (inline.map (⟨id, own, ·⟩)) := by
  obtain ⟨-, rfl, -⟩ := buildCommit_eq_ok h
  refine ⟨(addsOf_append _ _).trans (by rw [addsOf_eq_nil hplain, nil_append]), ?_⟩
  simp only [draft, removesOf, filterMap_append]
  rw [filterMap_eq_nil_iff.mpr fun p hp => by simp [hplain p hp], nil_append]

/-- **The committer tells its orchestrator and the joiners what the commit says.** -/
lemma User.Prepares.lists {own : String} {g' : MlsGroup} {w : Option StoredWelcome} {a : Action}
    (h : Prepares own id g k g' m w a) (hm : m.content = .commit c) (hplain : k.Plain g.proposals) :
    removedBy a = c.removes ∧ welcomed w = c.adds ∧
      (w.isSome → c.removes = []) ∧ (c.removes = [] ∨ ∃ x, k = .remove x) := by
  cases h with
  | invite hbuild | updateState hbuild =>
    obtain rfl := Content.commit.inj hm
    obtain ⟨hadds, hremoves⟩ := lists_of_updates hbuild hplain
    exact ⟨hremoves.symm, hadds.symm, fun _ => hremoves, .inl hremoves⟩
  | @remove x c' staged hmem hbuild =>
    obtain rfl := Content.commit.inj hm
    obtain ⟨hadds, hremoves⟩ := lists_of_updates hbuild hplain
    exact ⟨hremoves.symm, hadds.symm, by simp, .inr ⟨x, rfl⟩⟩
  | @commitToProposals choice amount kept c' staged hkept hbuild =>
    obtain rfl := Content.commit.inj hm
    obtain ⟨-, hc, -⟩ := buildCommit_eq_ok hbuild
    rw [map_nil, append_nil] at hc
    have hremoves : c'.removes = [] := by
      rw [hc]
      exact removesOf_eq_nil fun p hp => hplain p (mem_of_mem_keptProposals hkept hp)
    refine ⟨hremoves.symm, ?_, fun _ => hremoves, .inl hremoves⟩
    split_ifs with hnil
    · exact hnil.symm
    · rw [hc]
      rfl
  | propose hpropose =>
    obtain ⟨-, rfl, -⟩ := propose_eq_ok hpropose
    cases hm

/-! ## The invariant -/

structure PeerInv (S : Setting) (name : String) (p : Peer) : Prop where
  username : p.user.username = name
  slot : p.user.pendingCommit = none
  seated : ∀ g, p.user.group = some g → g.creator = S.creator ∧
    ∃ o, p.user.orchestrator = some o ∧ Seated S name o g.transcript

/-- A Welcome on its way carries the vector before its commit and names all added members. -/
def WelcomeInv (S : Setting) (w : WelcomeMessage) : Prop :=
  w.welcome.creator = S.creator ∧ ∃ c t known, w.welcome.transcript = c :: t ∧
    Checked S.creator (c :: t) ∧ c.removes = [] ∧ w.recipients = c.adds ∧
    w.activeMembers = some known ∧ S.vectorOf t = .ok known

variable {w : WelcomeMessage}

/-- **A joiner is a replica of the new history.** -/
lemma WelcomeInv.replica (h : WelcomeInv S w) (ht : w.welcome.transcript = c :: t)
    (hadd : name ∈ c.adds) (hknown : w.activeMembers = some known)
    (hcommit : (Orchestrator.new name S.params known).processCommit S.cfg.rng S.cfg.fuel
      (S.cfg.transcriptHash (c :: t)) (roster w.welcome.creator (c :: t)).length w.recipients =
        .ok out) :
    Replica S name (c :: t) (Orchestrator.new name S.params known) out := by
  obtain ⟨hcreator, c', t', known', ht', hchecked, hremoves, hrec, hknown', hvec⟩ := h
  obtain ⟨rfl, rfl⟩ := List.cons.inj (ht.symm.trans ht')
  obtain rfl := Option.mem_unique hknown hknown'
  rw [hcreator, hrec] at hcommit
  refine ⟨hchecked, mem_append_right _ hadd, rfl, rfl, bind_ok hvec ?_, hcommit⟩
  have hlen := Setting.length_of_vectorOf hvec
  rw [hremoves, unseat_nil hlen]
  exact congrArg Except.ok (resize_of_length_eq hlen "").symm

variable {p : Peer}

section PeerInv

variable (h : PeerInv S name p)
include h

lemma PeerInv.of_user {p' : Peer} (huser : p'.user = p.user) : PeerInv S name p' := by
  obtain ⟨husername, hslot, hseated⟩ := h
  exact ⟨huser ▸ husername, huser ▸ hslot, huser ▸ hseated⟩

/-- **A commit of its own**, which its orchestrator takes in like any other. -/
lemma PeerInv.takesOwn {g' : MlsGroup} {w : Option StoredWelcome} {a : Action} {v : User}
    (hg : p.user.group = some g) (hprep : Prepares p.user.username id g k g' m w a)
    (hm : m.content = .commit c) (hplain : k.Plain g.proposals)
    (horch : orchestrate S.cfg (g.after c) (g.after c).members.length (removedBy a)
      (welcomed w) v = .ok (u', action)) (hv : v.orchestrator = p.user.orchestrator) :
    ∃ o o', p.user.orchestrator = some o ∧ u' = { v with orchestrator := some o' } ∧
      TakesIn S name g.transcript c o o' action := by
  obtain ⟨hcreator, o, ho, hseated⟩ := h.seated g hg
  obtain ⟨hremoved, hadded, -⟩ := hprep.lists hm hplain
  obtain ⟨-, -, hcheck, -⟩ := hprep.of_commit hm
  obtain ⟨o0, o1, out, ho0, hremove, hcommit, rfl, rfl⟩ := orchestrate_eq_ok.mp horch
  obtain rfl := Option.mem_unique ho (hv ▸ ho0)
  rw [MlsGroup.members, hcreator] at hcheck
  rw [hadded, MlsGroup.members, MlsGroup.after, hcreator] at hcommit
  exact ⟨o, out.orchestrator, ho, rfl, hseated, hcheck, o1, out, hremoved ▸ hremove, hcommit, rfl,
    rfl⟩

/-- **A commit of another member.** -/
lemma PeerInv.takes {own : String} (hg : p.user.group = some g)
    (hm : g.processMessage own m = .ok (.commit c))
    (horch : orchestrate S.cfg (g.after c)
      (g.members.length + c.adds.length - c.removes.length) c.removes c.adds p.user =
        .ok (u', action)) :
    ∃ o o', p.user.orchestrator = some o ∧ u' = { p.user with orchestrator := some o' } ∧
      TakesIn S name g.transcript c o o' action := by
  obtain ⟨hcreator, o, ho, hseated⟩ := h.seated g hg
  obtain ⟨-, -, -, hcheck, -⟩ := processMessage_commit hm
  obtain ⟨o0, o1, out, ho0, hremove, hcommit, rfl, rfl⟩ := orchestrate_eq_ok.mp horch
  obtain rfl := Option.mem_unique ho ho0
  rw [MlsGroup.members, hcreator] at hcheck hcommit
  rw [length_roster_cons ⟨hcheck, hseated.checked⟩] at hcommit
  exact ⟨o, out.orchestrator, ho, rfl, hseated, hcheck, o1, out, hremove, hcommit, rfl, rfl⟩

end PeerInv

namespace PubSub

variable {s s' : PubSub}

/-- Nothing fails, the commit is plain, and a member that removes another one has a seat. -/
def Plain (s : PubSub) : Event → Prop
  | .act name env _ k => (∀ o, env.delivers o = true) ∧
      (∀ g, (s.peers name).user.group = some g → k.Plain g.proposals) ∧
      ∀ x o, k = .remove x → (s.peers name).user.orchestrator = some o → name ∈ o.knownMembers
  | _ => True

/-- Every user has the vector of its history. -/
structure Agrees (S : Setting) (s : PubSub) : Prop where
  peer : ∀ x, PeerInv S x (s.peers x)
  welcome : ∀ x, ∀ w ∈ s.welcomes x, WelcomeInv S w

section Agrees

variable {env : Env} {r : Result} (h : Agrees S s)
include h

lemma Agrees.setPeer (hp : PeerInv S name p) : Agrees S (s.setPeer name p) := by
  refine ⟨fun x => ?_, h.welcome⟩
  by_cases hx : x = name
  · subst hx
    simpa [PubSub.setPeer] using hp
  · simpa [PubSub.setPeer, hx] using h.peer x

lemma Agrees.publish {os : List Output} (hp : PeerInv S name p)
    (hos : ∀ x w, .welcome x w ∈ os → WelcomeInv S w) : Agrees S (s.publish name p os) := by
  refine ⟨(h.setPeer hp).peer, fun x w hw => ?_⟩
  rcases mem_append.mp hw with hw | hw
  · exact h.welcome x w hw
  · exact hos x w (mem_welcomesTo.mp hw)

lemma Agrees.taken (i : ℕ) : Agrees S (s.taken name i) :=
  ⟨h.peer, fun x w hw => h.welcome x w (mem_of_mem_taken hw)⟩

lemma Agrees.act (hok : Plain s (.act name env id k))
    (hstep : PubSub.step S.cfg s (.act name env id k) = some s') : Agrees S s' := by
  have hp := h.peer name
  obtain ⟨hsend, hplain, hremover⟩ := hok
  obtain ⟨-, hk⟩ := PubSub.stepped_of_step hstep
  cases hx : (s.peers name).user.call S.cfg env id k with
  | error f => exact h.setPeer (hp.of_user rfl)
  | ok r =>
    cases orchestrated_cases S.agent hsend hk hx with
    | refused e => exact h.publish (hp.of_user rfl) (by simp)
    | @dropped _ g kept _ hg _ =>
      refine h.publish ⟨hp.username, hp.slot, ?_⟩ (by simp)
      rintro _ ⟨rfl⟩
      exact hp.seated g hg
    | @proposed _ g stored m _ hg hpropose =>
      obtain ⟨-, rfl, rfl⟩ := propose_eq_ok hpropose
      refine h.publish ⟨hp.username, rfl, ?_⟩ (by simp)
      rintro _ ⟨rfl⟩
      exact hp.seated g hg
    | @committed _ g g' m w a c o u' action _ hg hprep hm ho horch =>
      obtain ⟨-, hadded, hwelcome, honly⟩ := hprep.lists hm (hplain g hg)
      obtain ⟨-, -, -, hown, hsw⟩ := hprep.of_commit hm
      obtain ⟨o1, o', ho1, rfl, htakes⟩ := hp.takesOwn hg hprep hm (hplain g hg) horch rfl
      obtain rfl := Option.mem_unique ho ho1
      have hcreator := (hp.seated g hg).1
      have hseat : c.removes = [] ∨ name ∈ o.knownMembers :=
        honly.imp_right fun ⟨x, hx⟩ => hremover x o hx ho
      obtain ⟨o2, out, hreplica, -, rfl, rfl⟩ := htakes.replica (hp.username ▸ hown) hseat
      refine h.publish ⟨by simpa using hp.username, by simp, fun g1 hg1 => ?_⟩ ?_
      · obtain rfl : g.after c = g1 := by simpa using hg1
        exact ⟨hcreator, _, by simp, hreplica.seated⟩
      · -- a Welcome carries the vector before the commit
        intro x w' hw'
        obtain ⟨sw, rfl, -, rfl⟩ := welcome_of_commit hw'
        have hsw := hsw sw rfl
        refine ⟨by rw [hsw]; exact hcreator, c, g.transcript, o.knownMembers, by rw [hsw],
          hreplica.checked, hwelcome rfl, hadded, rfl, htakes.seated.vector⟩

lemma Agrees.topic {i : ℕ}
    (hr : (s.peers name).user.processInMessage S.cfg env (.group m) = .ok r) :
    Agrees S (s.handled name { s.peers name with pos := some (i + 1) } (.ok r)) := by
  have hp := h.peer name
  cases processInMessage_orchestrated S.agent hp.slot hr with
  | ignored active hrecords =>
    refine h.publish ?_ fun x w hw => by cases hrecords _ hw
    split_ifs <;> exact ⟨hp.username, hp.slot, hp.seated⟩
  | @stored g p hg hm =>
    refine h.publish ⟨hp.username, hp.slot, ?_⟩ (by simp)
    rintro _ ⟨rfl⟩
    exact hp.seated g hg
  | left hg hm horch hleave =>
    obtain ⟨o, rfl⟩ := orchestrate_user horch
    exact h.publish ⟨hp.username, hp.slot, by simp [User.leave]⟩ (by simp [User.leave])
  | @merged g c u' action hg hm horch hown hstays =>
    obtain ⟨o, o', ho, rfl, htakes⟩ := hp.takes hg hm horch
    rw [hp.username] at hown
    obtain ⟨o2, out, hreplica, -, rfl, rfl⟩ := htakes.replica hown
      (.inr (not_not.mp fun hout => hstays (htakes.inactive hown hout)))
    refine h.publish ⟨by simpa using hp.username, by simpa using hp.slot, fun g1 hg1 => ?_⟩
      (by simp)
    obtain rfl : g.after c = g1 := by simpa using hg1
    exact ⟨(hp.seated g hg).1, _, by simp, hreplica.seated⟩

lemma Agrees.join (hw : WelcomeInv S w)
    (hr : (s.peers name).user.processInMessage S.cfg env (.welcome w) = .ok r) :
    Agrees S (s.handled name (s.peers name) (.ok r)) := by
  have hp := h.peer name
  obtain ⟨e, rfl⟩ | ⟨c, t, known, out, ht, hadd, hknown, hcommit, hcase⟩ :=
    processWelcome_orchestrated S.agent hr
  · exact h.publish (hp.of_user rfl) (by simp)
  · rw [hp.username] at hadd hcommit
    have hnew := (hw.replica ht hadd hknown hcommit).seated
    obtain ⟨-, rfl⟩ | ⟨-, rfl⟩ := hcase
    · exact h.publish ⟨hp.username, hp.slot, by simp⟩ (by simp)
    · refine h.publish ⟨by simpa using hp.username, by simpa using hp.slot, fun g1 hg1 => ?_⟩
        (by simp)
      obtain rfl : (⟨w.welcome.creator, c :: t, [], .operational⟩ : MlsGroup) = g1 := by
        simpa using hg1
      exact ⟨hw.1, _, by simp, hnew⟩

lemma Agrees.step {e : Event} (hok : Plain s e) (hstep : PubSub.step S.cfg s e = some s') :
    Agrees S s' := by
  cases PubSub.stepped_of_step hstep with
  | act _ _ => exact h.act hok hstep
  | @giveUp name =>
    have hp := h.peer name
    exact h.setPeer ⟨hp.username, hp.slot, hp.seated⟩
  | @topic name env i m _ _ =>
    cases hr : (s.peers name).user.processInMessage S.cfg env (.group m) with
    | error f => exact h.setPeer ((h.peer name).of_user rfl)
    | ok r => exact h.topic hr
  | @welcome name env i w hw =>
    have hwel := h.welcome name w (mem_of_getElem? hw)
    cases hr : (s.peers name).user.processInMessage S.cfg env (.welcome w) with
    | error f => exact (h.taken i).setPeer ((h.peer name).of_user rfl)
    | ok r => exact (h.taken i).join hwel hr
  | @ack name sender u hu =>
    have hp := h.peer name
    obtain rfl | ⟨o, ho, rfl⟩ := processAck_orchestrated S.agent hu
    · exact h.setPeer (hp.of_user rfl)
    refine h.setPeer ⟨by simpa using hp.username, by simpa using hp.slot, fun g hg => ?_⟩
    obtain ⟨hcreator, o', ho', hseated⟩ := hp.seated g (by simpa using hg)
    obtain rfl := Option.mem_unique ho ho'
    exact ⟨hcreator, { o with pendingAcks := o.pendingAcks - 1 }, by simp, hseated.checked,
      hseated.member, hseated.named, hseated.parameters, hseated.vector⟩
  | @ackFailed name sender => exact h.setPeer ((h.peer name).of_user rfl)
  | @subscribed name =>
    have hset : Agrees S (s.setPeer name { s.peers name with
        requested := false, pos := some ((s.peers name).pos.getD s.topic.length) }) :=
      h.setPeer ((h.peer name).of_user rfl)
    exact ⟨hset.peer, hset.welcome⟩

end Agrees

/-! ## Runs -/

/-- **The creator is a replica of the empty history.** -/
lemma replica_of_init (hinit : (pubSub S.cfg S.creator).init s) :
    ∃ env r out, (User.new S.creator).createGroup S.cfg env = .ok r ∧
      s.peers S.creator = Peer.follow ⟨User.new S.creator, true, false, none, 0⟩ r ∧
      Replica S S.creator [] (Orchestrator.new S.creator S.params []) out ∧ out.action = .commit ∧
      r.user = { User.new S.creator with
        group := some (MlsGroup.create S.creator)
        active := some (true, 0)
        orchestrator := some out.orchestrator
        agentQueue := 1 } := by
  obtain ⟨-, -, -, ⟨env, r, hr, herror, hpeer⟩, -⟩ := hinit
  obtain ⟨out, hcommit, haction, huser⟩ := User.createGroup_orchestrated S.agent hr herror
  exact ⟨env, r, out, hr, hpeer, ⟨trivial, by simp [roster], rfl, rfl, rfl, hcommit⟩, haction,
    huser⟩

lemma agrees_init (hinit : (pubSub S.cfg S.creator).init s) : Agrees S s := by
  obtain ⟨env, r, out, -, hpeer, hreplica, -, huser⟩ := replica_of_init hinit
  obtain ⟨-, hwelcomes, -, -, hothers⟩ := hinit
  refine ⟨fun x => ?_, fun x w hw => by simp [hwelcomes x] at hw⟩
  by_cases hx : x = S.creator
  · subst hx
    rw [hpeer]
    refine ⟨by simp [huser, User.new], by simp [huser, User.new], fun g hg => ?_⟩
    obtain rfl : MlsGroup.create S.creator = g := by simpa [huser] using hg
    exact ⟨rfl, _, by simp [huser], hreplica.seated⟩
  · rw [hothers x hx]
    exact ⟨rfl, rfl, by simp [User.new]⟩

lemma agrees_of_reaches (h : (pubSub S.cfg S.creator).Reaches Plain s) : Agrees S s :=
  h.invariant (fun _ => agrees_init) fun _ _ _ hs => hs.step

/-- **Replica agreement.**  Users that hold the group with the same history have equal vectors. -/
theorem replica_agreement {cfg : Config} {params : OrchestratedParameters}
    (hcfg : cfg.agent = .orchestrator params) (h : (pubSub cfg creator).Reaches Plain s)
    {x y : String} {g g' : MlsGroup} (hx : (s.peers x).user.group = some g)
    (hy : (s.peers y).user.group = some g') (ht : g.transcript = g'.transcript) :
    ∃ o o', (s.peers x).user.orchestrator = some o ∧ (s.peers y).user.orchestrator = some o' ∧
      o.knownMembers = o'.knownMembers := by
  have hagrees := agrees_of_reaches (S := ⟨cfg, params, hcfg, creator⟩) h
  obtain ⟨-, o, ho, hseated⟩ := (hagrees.peer x).seated g hx
  obtain ⟨-, o', ho', hseated'⟩ := (hagrees.peer y).seated g' hy
  have hvec := hseated.vector
  rw [ht] at hvec
  exact ⟨o, o', ho, ho', Exec.unique hvec hseated'.vector⟩

/-- Three seats and a generator that reads its draws off the hash: a script for each epoch, with
    the numbers of the commits behind it.  `A` is elected in the first epochs, then `B`, and in
    the fifth epoch the member of the third seat. -/
def scripted : Config where
  agent := .orchestrator threeSeats
  rng := Rng.scripted
  fuel := 1
  transcriptHash t :=
    (match t.length with
      | 3 | 4 => [1]
      | 5 => [0, 2]
      | _ => [0, 0]) ++ t.map fun c => UInt8.ofNat c.id

/-- `A` has created the group and waits to act. -/
def founded : PubSub where
  peers x := if x = "A" then
      ⟨⟨"A", some (MlsGroup.create "A"), none, some ⟨"A", 0, threeSeats, ["A", "", ""]⟩,
        some (true, 0), 1⟩, true, true, none, 1⟩
    else ⟨User.new x, true, false, none, 0⟩
  topic := []
  welcomes _ := []
  acks := []

lemma founded_init : (pubSub scripted "A").init founded :=
  ⟨rfl, fun _ => rfl, rfl,
    ⟨Env.fine, ⟨(founded.peers "A").user, [.subscribe, .groupInfo [], .record ⟨.create, 0, 1⟩],
      none⟩, rfl, rfl, rfl⟩, fun x hx => by simp [founded, hx]⟩

lemma plain_invite {x : String} {n : ℕ} (h : ∀ g ∈ (s.peers name).user.group, g.proposals = []) :
    Plain s (.act name Env.fine n (.invite x)) :=
  ⟨fun _ => rfl, fun g hg p hp => by simp [h g hg] at hp, by simp⟩

/-- `A` invites `B`, and `B` joins. -/
def secondMember : List Event := [.act "A" Env.fine 0 (.invite "B"), .subscribed "A",
  .welcome "B" Env.fine 0, .subscribed "B", .ack "A" "B"]

/-- `A` invites `C` as well: `B` follows and has the vector of `A`. -/
theorem replica_agreement_followed :
    ∃ s g g' o o', (pubSub scripted "A").Reaches Plain s ∧ (s.peers "A").user.group = some g ∧
      (s.peers "B").user.group = some g' ∧ g.transcript.length = 2 ∧
      (s.peers "A").user.orchestrator = some o ∧ (s.peers "B").user.orchestrator = some o' ∧
      o.knownMembers = o'.knownMembers := by
  obtain ⟨s, hrun, g, hg, g', hg', hlen, ht⟩ : ∃ s ∈ (pubSub scripted "A").run founded
      (secondMember ++ [.act "A" Env.fine 1 (.invite "C"), .topic "B" Env.fine]),
      ∃ g ∈ (s.peers "A").user.group, ∃ g' ∈ (s.peers "B").user.group,
        g.transcript.length = 2 ∧ g.transcript = g'.transcript := by
    decide +kernel
  have hreaches : (pubSub scripted "A").Reaches Plain s := by
    refine .of_run (.init founded_init) ?_ hrun
    exact .cons (plain_invite (by decide +kernel)) (.cons trivial (.cons trivial (.cons trivial
      (.cons trivial (.cons (plain_invite (by decide +kernel)) (.cons trivial trivial))))))
  obtain ⟨o, o', ho, ho', heq⟩ := replica_agreement (by rfl) hreaches hg hg' ht
  exact ⟨s, g, g', o, o', hreaches, hg, hg', hlen, ho, ho', heq⟩

/-- **Committed removals split the replicas.**  `A` proposes to remove `C` and commits to it: all
    follow, but `A` still has `C` in its vector. -/
theorem replicas_split :
    ∃ s g g' o o', (pubSub scripted "A").run founded
        (secondMember ++ [.act "A" Env.fine 1 (.invite "C"), .welcome "C" Env.fine 0,
          .subscribed "C", .ack "A" "C", .act "A" Env.fine 2 (.propose (.remove "C")),
          .act "A" Env.fine 3 (.commitToProposals 1), .topic "B" Env.fine, .topic "B" Env.fine,
          .topic "B" Env.fine, .topic "C" Env.fine, .topic "C" Env.fine]) = some s ∧
      (s.peers "A").user.group = some g ∧ (s.peers "B").user.group = some g' ∧
      (s.peers "C").user.group = none ∧ g.transcript = g'.transcript ∧
      (s.peers "A").user.orchestrator = some o ∧ (s.peers "B").user.orchestrator = some o' ∧
      o.knownMembers = ["A", "B", "C"] ∧ o'.knownMembers = ["A", "B", ""] := by
  simp only [exists_and_left]
  decide +kernel

end PubSub

end EmulatedMls.Client
