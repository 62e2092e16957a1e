import EmulatedMls.Client.Agreement
import EmulatedMls.Lib.Log

/-!
# The right to commit

A user may commit when the group name is queued for its agent, and it will be able to when it
waits for acknowledgements.  This right moves from commit to commit: the committer spends it, and
the member that the new history elects gets it, once it has handled the commit or its Welcome.

The argument compares two places.  The right is only ever held at the end of the topic, because
whoever is elected by an older commit has already committed after it, and a user never goes back
behind its own commits.  The latter needs that a user handles no Welcome that is older than what
it has already seen, which is the condition `Paced`.
-/

namespace EmulatedMls.Client

open List Option Orchestrator User

variable {S : Setting} {name x y : String}

/-! ## The elected member -/

/-- The member that the newest commit of a history elects. -/
def Elected (S : Setting) (t : Transcript) (x : String) : Prop :=
  ∃ start known who, S.startOf t = .ok start ∧
    Elects S.cfg.rng S.params (S.cfg.transcriptHash t) (roster S.creator t).length (S.newcomers t)
      start known who ∧ known[who]? = some x

variable {t : Transcript} {known newMembers : List String} {out : Outcome} {o : Orchestrator}
  {fuel total : ℕ} {c : Commit} {u : User} {seed : List UInt8} {k : User.Call} {action : NextAction}
  {m : GroupMessage}

lemma Elected.unique (hx : Elected S t x) (hy : Elected S t y) : x = y := by
  obtain ⟨start, known, who, hstart, helects, hmem⟩ := hx
  obtain ⟨start', known', who', hstart', helects', hmem'⟩ := hy
  obtain rfl := Exec.unique hstart hstart'
  obtain ⟨rfl, rfl⟩ := helects.unique helects'
  exact mem_unique hmem hmem'

lemma Elected.mem (h : Elected S t x) (hvec : S.vectorOf t = .ok known) : x ∈ known := by
  obtain ⟨start, known', who, hstart, ⟨fuel, g, w, g', hseat, -⟩, hmem⟩ := h
  obtain ⟨start', hstart', gen, hseat'⟩ := Setting.vectorOf_eq_ok.mp hvec
  obtain rfl := Exec.unique hstart hstart'
  obtain ⟨rfl, -⟩ := Prod.mk.inj (Exec.unique hseat hseat')
  exact mem_of_getElem? hmem

/-- **The winner of a commit is the elected member.** -/
lemma Replica.elected (h : Replica S name t o out) (hwins : out.Wins) : Elected S t name := by
  obtain ⟨known, who, helects, hmem⟩ := winner_seat h.commit hwins
  rw [h.parameters] at helects
  exact ⟨_, known, who, h.start, helects, h.named ▸ hmem⟩

/-! ## Rights -/

/-- The acknowledgements that the user waits for. -/
def User.pendingAcks (u : User) : ℕ :=
  match u.orchestrator with
  | none => 0
  | some o => o.pendingAcks

lemma User.pendingAcks_eq (h : u.orchestrator = some o) : u.pendingAcks = o.pendingAcks := by
  simp [User.pendingAcks, h]

def User.rights (u : User) : ℕ := u.agentQueue + u.pendingAcks

/-- The group name is queued for the agent, or the user waits for acknowledgements. -/
def User.MayCommit (u : User) : Prop :=
  0 < u.agentQueue ∨ ∃ o, u.orchestrator = some o ∧ 0 < o.pendingAcks

lemma User.mayCommit_iff : u.MayCommit ↔ 0 < u.rights := by
  unfold MayCommit User.rights User.pendingAcks
  cases u.orchestrator with
  | none => simp
  | some o =>
    simp only [some.injEq, exists_eq_left']
    omega

variable {R : Rng}

/-- A user without rights gets one if it wins a commit with at most one new member. -/
lemma rights_notifyAgent (h : processCommit R fuel o seed total newMembers = .ok out)
    (hone : newMembers.length ≤ 1) (hacks : o.pendingAcks = 0)
    (hu : u.orchestrator = some out.orchestrator) :
    (out.Wins ∧ (User.notifyAgent out.action u).rights = u.agentQueue + 1) ∨
      (¬ out.Wins ∧ (User.notifyAgent out.action u).rights = u.agentQueue) := by
  rcases processCommit_acks h with ⟨hwins, hpending, haction⟩ | ⟨hloses, hpending, haction⟩
  · refine .inl ⟨hwins, ?_⟩
    have hle := (length_filter_le (· ≠ o.name) newMembers).trans hone
    simp only [User.rights, User.pendingAcks, User.notifyAgent_orchestrator, hu, hpending]
    by_cases hzero : (newMembers.filter (· ≠ o.name)).length = 0
    · rw [haction, if_pos hzero, hzero]
      simp [User.notifyAgent]
    · rw [haction, if_neg hzero]
      simp only [User.notifyAgent, reduceCtorEq, if_false]
      omega
  · refine .inr ⟨hloses, ?_⟩
    simp only [User.rights, User.pendingAcks, User.notifyAgent_orchestrator, hu, hpending, hacks]
    simp [User.notifyAgent, haction]

variable {os : List Output}

lemma rights_spend (hk : k.isCommit = true) (hqueue : 0 < u.agentQueue) :
    (User.spend k ⟨u, os, none⟩).user.rights = u.rights - 1 := by
  simp only [User.spend, hk, isNone_none, and_self, if_true, User.rights, User.pendingAcks]
  omega

lemma agentQueue_le_notifyAgent : u.agentQueue ≤ (User.notifyAgent action u).agentQueue := by
  unfold User.notifyAgent
  split_ifs
  · exact Nat.le_succ _
  · exact le_rfl

/-- A commit that it does not win, or that adds nobody else, leaves it nothing to wait for. -/
lemma pendingAcks_processCommit (h : processCommit R fuel o seed total newMembers = .ok out)
    (hacks : o.pendingAcks = 0) (hnone : newMembers = [] ∨ out.action = .inactive) :
    out.orchestrator.pendingAcks = 0 := by
  rcases processCommit_acks h with ⟨-, hpending, haction⟩ | ⟨-, hpending, -⟩
  · rcases hnone with rfl | hinactive
    · simpa using hpending
    · rw [hinactive] at haction
      split_ifs at haction
  · omega

lemma pendingAcks_removeMembers {o1 : Orchestrator} {names : List String}
    (h : o.removeMembers names = .ok o1) : o1.pendingAcks = o.pendingAcks := by
  obtain ⟨-, rfl⟩ | ⟨-, rfl⟩ := removeMembers_cases h <;> rfl

variable {g : MlsGroup} {u' v : User}

lemma Replica.rights (h : Replica S name t o out) (hone : (S.newcomers t).length ≤ 1)
    (hacks : o.pendingAcks = 0) (hv : v.orchestrator = some out.orchestrator) :
    (Elected S t name ∧ (User.notifyAgent out.action v).rights = v.agentQueue + 1) ∨
      (User.notifyAgent out.action v).rights = v.agentQueue :=
  (rights_notifyAgent h.commit hone hacks hv).imp (And.imp_left h.elected) And.right

section TakesIn

variable {o' : Orchestrator} (h : TakesIn S name t c o o' action) (hacks : o.pendingAcks = 0)
include h hacks

lemma TakesIn.pendingAcks (hnone : c.adds = [] ∨ action = .inactive) : o'.pendingAcks = 0 := by
  obtain ⟨-, -, o1, out, hremove, hcommit, rfl, rfl⟩ := h
  refine pendingAcks_processCommit hcommit ?_ hnone
  rw [pendingAcks_removeMembers hremove, hacks]

/-- **The right after a commit** goes to a holder that the new history elects. -/
lemma TakesIn.rights (hown : name ∉ c.removes) (hone : c.adds.length ≤ 1)
    (hv : v.orchestrator = some o') :
    (Elected S (c :: t) name ∧ (User.notifyAgent action v).rights = v.agentQueue + 1) ∨
      (User.notifyAgent action v).rights = v.agentQueue := by
  by_cases hin : name ∈ o.knownMembers
  · obtain ⟨o1, out, hreplica, hacks1, rfl, rfl⟩ := h.replica hown (.inr hin)
    exact hreplica.rights hone (hacks1.trans hacks) hv
  · have hinactive := h.inactive hown hin
    refine .inr ?_
    simp [User.rights, User.pendingAcks, hv, h.pendingAcks hacks (.inr hinactive),
      User.notifyAgent, hinactive]

end TakesIn

/-! ## The topic -/

def record (t : Transcript) (m : GroupMessage) : Transcript :=
  match m.content with
  | .commit c => c :: t
  | _ => t

lemma grows_record : Grows record := by
  intro t m
  unfold record
  split
  · exact suffix_cons _ _
  · exact suffix_rfl

def history (topic : List GroupMessage) : Transcript := topic.foldl record []

lemma history_append {topic : List GroupMessage} (hm : m.content = .commit c) :
    history (topic ++ [m]) = c :: history topic := by
  simp [history, record, hm]

def Commit.Single (c : Commit) : Prop := c.adds.length ≤ 1 ∧ (c.removes ≠ [] → c.adds = [])

/-- Every message of the topic is the commit of the member that the commits before it elect. -/
def TopicInv (S : Setting)
    (topic : List GroupMessage) : Prop :=
  ∀ i m, topic[i]? = some m → ∃ c, m.content = .commit c ∧ m.base = history (topic.take i) ∧
    Elected S m.base m.sender ∧ c.Single

section Topic

variable {topic : List GroupMessage}

variable {m : GroupMessage}

lemma TopicInv.append (h : TopicInv S topic) {c : Commit}
    (hm : m.content = .commit c) (hbase : m.base = history topic)
    (helected : Elected S m.base m.sender) (hsingle : c.Single) : TopicInv S (topic ++ [m]) := by
  intro i m' hm'
  rcases getElem?_append_singleton hm' with hm' | ⟨rfl, rfl⟩
  · obtain ⟨hlt, -⟩ := List.getElem?_eq_some_iff.mp hm'
    rw [take_append_of_le_length hlt.le]
    exact h i m' hm'
  · refine ⟨c, hm, ?_, helected, hsingle⟩
    rw [take_left' rfl]
    exact hbase

variable {i : ℕ}

variable (h : TopicInv S topic)
include h

lemma TopicInv.history_succ (hm : topic[i]? = some m) :
    ∃ c, m.content = .commit c ∧ history (topic.take (i + 1)) = c :: m.base ∧ c.Single := by
  obtain ⟨c, hc, hbase, -, hsingle⟩ := h i m hm
  refine ⟨c, hc, ?_, hsingle⟩
  rw [hbase]
  exact (foldl_take_succ hm).trans (by simp [record, hc, history])

lemma TopicInv.length_history : ∀ i ≤ topic.length, (history (topic.take i)).length = i := by
  intro i
  induction i with
  | zero => simp [history]
  | succ i ih =>
    intro hi
    obtain ⟨m, hm⟩ : ∃ m, topic[i]? = some m := ⟨_, getElem?_eq_getElem hi⟩
    obtain ⟨c, -, hnext, -⟩ := h.history_succ hm
    obtain ⟨c', -, hbase, -⟩ := h i m hm
    rw [hnext, hbase, length_cons, ih (Nat.le_of_succ_le hi)]

lemma TopicInv.length_history_self : (history topic).length = topic.length := by
  simpa using h.length_history topic.length le_rfl

lemma TopicInv.epoch (hm : topic[i]? = some m) : m.epoch = i := by
  obtain ⟨hlt, -⟩ := List.getElem?_eq_some_iff.mp hm
  obtain ⟨c, -, hbase, -⟩ := h i m hm
  rw [GroupMessage.epoch, hbase]
  exact h.length_history i hlt.le

lemma TopicInv.map_epoch : topic.map (·.epoch) = List.range topic.length := by
  refine ext_getElem? fun i => ?_
  rw [getElem?_map]
  rcases hi : topic[i]? with _ | m
  · have hle := List.getElem?_eq_none_iff.mp hi
    simp [hle]
  · obtain ⟨hlt, -⟩ := List.getElem?_eq_some_iff.mp hi
    rw [map_some, h.epoch hi, getElem?_range hlt]

/-- **Whoever an older history elects has made the next commit.** -/
lemma TopicInv.sender_of_elected {t : Transcript} (hsuffix : t <:+ history topic)
    (hne : t ≠ history topic) (helected : Elected S t x) :
    ∃ m, topic[t.length]? = some m ∧ m.sender = x := by
  have hlen := h.length_history_self
  have hlt : t.length < topic.length := by
    refine lt_of_le_of_ne (hlen ▸ hsuffix.length_le) fun he => hne ?_
    exact hsuffix.eq_of_length (he.trans hlen.symm)
  obtain ⟨m, hm⟩ : ∃ m, topic[t.length]? = some m := ⟨_, getElem?_eq_getElem hlt⟩
  obtain ⟨c, -, hbase, hsender, -⟩ := h _ m hm
  have ht : m.base = t := by
    rw [hbase]
    exact eq_of_suffix (grows_record.foldl_take_suffix_self [] _ _) hsuffix
      (h.length_history _ hlt.le)
  rw [ht] at hsender
  exact ⟨m, hm, hsender.unique helected⟩

end Topic

/-! ## The invariant -/

/-- What holds for every user.  It has no pending proposals and is on the history of the topic,
    it has been behind each of its own commits, and it has a right only at the end of the topic
    and when it is elected there. -/
structure RightInv (S : Setting)
    (topic : List GroupMessage) (x : String) (p : Peer) : Prop where
  quiet : ∀ g, p.user.group = some g →
    g.proposals = [] ∧ g.transcript <:+ history topic ∧ p.reached = g.epoch + 1
  own : ∀ i m, topic[i]? = some m → m.sender = x → i + 1 < p.reached
  right : 0 < p.user.rights → p.user.rights = 1 ∧
    Elected S (history topic) x ∧
      ∃ g, p.user.group = some g ∧ g.transcript = history topic

section RightInv

variable {topic : List GroupMessage} {x : String} {p p' : Peer}

variable (h : RightInv S topic x p)
include h

lemma RightInv.less (hgroup : p'.user.group = p.user.group) (hreached : p'.reached = p.reached)
    (hrights : p'.user.rights ≤ p.user.rights) : RightInv S topic x p' := by
  refine ⟨by rw [hgroup, hreached]; exact h.quiet, by rw [hreached]; exact h.own, fun hr => ?_⟩
  obtain ⟨hone, helected, hg⟩ := h.right (by omega)
  exact ⟨by omega, helected, by rwa [hgroup]⟩

lemma RightInv.held_le : p.user.held ≤ p.reached := by
  unfold User.held
  split
  · exact Nat.zero_le _
  · next g hg => exact (h.quiet g hg).2.2.ge

lemma RightInv.follow {r : Result} (hgroup : r.user.group = p.user.group)
    (hrights : r.user.rights ≤ p.user.rights) : RightInv S topic x (p.follow r) := by
  refine h.less hgroup ?_ hrights
  have hheld : r.user.held = p.user.held := by simp [User.held, hgroup]
  simpa [Peer.follow, hheld] using h.held_le

lemma RightInv.stopped : RightInv S topic x p.stopped := h.less rfl rfl le_rfl

/-- **The topic grows.**  Users without a right are on the history as before. -/
lemma RightInv.grow {m : GroupMessage} {c : Commit} (hm : m.content = .commit c)
    (hsender : m.sender ≠ x) (hnone : p.user.rights = 0) : RightInv S (topic ++ [m]) x p := by
  refine ⟨fun g hg => ?_, fun i m' hm' hx => ?_, fun hr => by omega⟩
  · obtain ⟨hquiet, hsuffix, hreached⟩ := h.quiet g hg
    rw [history_append hm]
    exact ⟨hquiet, hsuffix.trans (suffix_cons _ _), hreached⟩
  · rcases getElem?_append_singleton hm' with hm' | ⟨-, rfl⟩
    · exact h.own i m' hm' hx
    · exact absurd hx hsender

lemma RightInv.left (hgroup : p'.user.group = none) (hreached : p'.reached = p.reached)
    (hnone : p'.user.rights = 0) : RightInv S topic x p' :=
  ⟨by simp [hgroup], by rw [hreached]; exact h.own, fun hr => by omega⟩

lemma RightInv.none_of_behind
    (hbehind : ∀ g, p.user.group = some g → g.transcript ≠ history topic) :
    p.user.agentQueue = 0 ∧ p.user.pendingAcks = 0 := by
  have hnone : ¬ 0 < p.user.rights := fun hr => by
    obtain ⟨-, -, g, hg, ht⟩ := h.right hr
    exact hbehind g hg ht
  unfold User.rights at hnone
  omega

/-- **A user that comes to a newer history** gets a right only at the end of the topic. -/
lemma RightInv.advance (htopic : TopicInv S topic)
    (hgroup : p'.user.group = some g) (hquiet : g.proposals = [])
    (hsuffix : g.transcript <:+ history topic) (hnew : p.reached ≤ g.epoch)
    (hreached : p'.reached = g.epoch + 1)
    (hrights : (Elected S g.transcript x ∧ p'.user.rights = 1) ∨
      p'.user.rights = 0) : RightInv S topic x p' := by
  refine ⟨fun g' hg' => ?_, fun i m hm hx => ?_, fun hr => ?_⟩
  · obtain rfl := mem_unique hgroup hg'
    exact ⟨hquiet, hsuffix, hreached⟩
  · have := h.own i m hm hx
    omega
  · rcases hrights with ⟨helected, hone⟩ | hzero
    swap
    · omega
    by_cases hend : g.transcript = history topic
    · exact ⟨hone, hend ▸ helected, g, hgroup, hend⟩
    · obtain ⟨m, hm, hx⟩ := htopic.sender_of_elected hsuffix hend helected
      have := h.own _ m hm hx
      simp only [MlsGroup.epoch] at hnew
      omega

end RightInv

/-! ## The condition on a run -/

/-- A call that makes one change to the group and commits it. -/
def User.Call.Single : User.Call → Prop
  | .invite _ | .remove _ | .updateState => True
  | .commitToProposals _ | .propose _ | .sendApplicationMsg => False

lemma User.Call.Single.isCommit (h : k.Single) : k.isCommit = true := by
  cases k <;> first | rfl | exact h.elim

variable {own : String} {id : ℕ}

lemma User.Prepares.single {g' : MlsGroup} {w : Option StoredWelcome} {a : Action}
    (h : Prepares own id g k g' m w a) (hm : m.content = .commit c)
    (hplain : k.Plain g.proposals) (hk : k.Single) : c.Single := by
  obtain ⟨-, hadds, hwelcome, -⟩ := h.lists hm hplain
  have hlen : (welcomed w).length ≤ 1 := by
    cases h with
    | invite hbuild | remove hmem hbuild | updateState hbuild => simp [welcomed]
    | commitToProposals hkept hbuild | propose hpropose => exact hk.elim
  refine ⟨hadds ▸ hlen, fun hremoves => ?_⟩
  cases w with
  | none => exact hadds.symm
  | some sw => exact absurd (hwelcome rfl) hremoves

namespace PubSub

variable {s s' : PubSub}

/-- What a step has to respect: nothing that a user sends fails and each commit is one change,
    and a user handles no Welcome into an epoch that it has already reached. -/
def Paced (s : PubSub) : Event → Prop
  | .act _ env _ k => (∀ o, env.delivers o = true) ∧ k.Single
  | .welcome name _ i => ∀ w, (s.welcomes name)[i]? = some w →
      (s.peers name).reached ≤ w.welcome.transcript.length
  | _ => True

/-- A Welcome on its way is of a commit of the topic. -/
def Announced (topic : List GroupMessage) (w : WelcomeMessage) : Prop :=
  w.welcome.transcript <:+ history topic ∧ ∀ c t, w.welcome.transcript = c :: t → c.Single

structure Exclusive (S : Setting)
    (s : PubSub) : Prop where
  agrees : Agrees S s
  topic : TopicInv S s.topic
  rights : ∀ x, RightInv S s.topic x (s.peers x)
  welcomes : ∀ x, ∀ w ∈ s.welcomes x, Announced s.topic w

/-- Nothing is sent to the group or to joiners. -/
def Silent (r : Result) : Prop :=
  ∀ o ∈ r.outputs, (∀ m dest, o ≠ .toGroup m dest) ∧ ∀ x w, o ≠ .welcome x w

variable {p : Peer} {g : MlsGroup} {m : GroupMessage} {u : User} {c : Commit} {env : Env}
  {r : Result} {i : ℕ} {w : WelcomeMessage} {e : Event}

lemma processInMessage_silent {incoming : Incoming} (hslot : u.pendingCommit = none)
    (hr : u.processInMessage S.cfg env incoming = .ok r) : Silent r := by
  cases incoming with
  | group m =>
    cases processInMessage_orchestrated S.agent hslot hr with
    | ignored active hrecords =>
      intro o ho
      obtain rfl := hrecords o ho
      simp
    | stored hg hm => simp [Silent]
    | left hg hm horch hleave => simp [Silent, User.leave]
    | merged hg hm horch hown hstays => simp [Silent]
  | welcome w =>
    obtain ⟨e, rfl⟩ | ⟨c, t, known, out, -, -, -, -, ⟨-, rfl⟩ | ⟨-, rfl⟩⟩ :=
      processWelcome_orchestrated S.agent hr
    all_goals simp [Silent]

lemma handled_silent (s : PubSub) (name : String) (p : Peer) (hsilent : Silent r) :
    (s.handled name p (.ok r)).topic = s.topic ∧
      (s.handled name p (.ok r)).welcomes = s.welcomes ∧
      ∀ x, x ≠ name → (s.handled name p (.ok r)).peers x = s.peers x := by
  have hsent : sentBy r.outputs = [] := by
    refine filterMap_eq_nil_iff.mpr fun o ho => ?_
    cases o with
    | toGroup m dest => exact absurd rfl ((hsilent _ ho).1 m dest)
    | _ => rfl
  have hwelcomes : ∀ x, welcomesTo x r.outputs = [] := fun x =>
    eq_nil_iff_forall_not_mem.mpr fun w hw =>
      (hsilent _ (mem_welcomesTo.mp hw)).2 x w rfl
  refine ⟨by simp [PubSub.handled, PubSub.publish, hsent], ?_, fun x hx => ?_⟩
  · funext x
    simp [PubSub.handled, PubSub.publish, hwelcomes x]
  · simp [PubSub.handled, PubSub.publish, hx]

lemma rights_processAck {sender : String} (h : u.processAck S.cfg sender = .ok u') :
    u'.group = u.group ∧ u'.rights ≤ u.rights := by
  obtain rfl | ⟨o, ho, rfl⟩ := processAck_orchestrated S.agent h
  · exact ⟨rfl, le_rfl⟩
  by_cases hone : o.pendingAcks = 1
  · simp [User.rights, User.pendingAcks, User.notifyAgent, ho, hone]
  · simp [User.rights, User.pendingAcks, User.notifyAgent, ho, hone]

section Exclusive

variable (h : Exclusive S s)
include h

lemma Exclusive.of_peer (name : String) (hagrees : Agrees S s') (htopic : s'.topic = s.topic)
    (hothers : ∀ x, x ≠ name → s'.peers x = s.peers x)
    (hwelcomes : ∀ x, ∀ w ∈ s'.welcomes x, w ∈ s.welcomes x)
    (hright : RightInv S s.topic name (s'.peers name)) : Exclusive S s' := by
  refine ⟨hagrees, htopic ▸ h.topic, fun x => ?_, fun x w hw => ?_⟩
  · rw [htopic]
    by_cases hx : x = name
    · exact hx ▸ hright
    · exact hothers x hx ▸ h.rights x
  · exact htopic ▸ h.welcomes x w (hwelcomes x w hw)

lemma Exclusive.setPeer (hagrees : Agrees S (s.setPeer name p))
    (hright : RightInv S s.topic name p) : Exclusive S (s.setPeer name p) := by
  refine h.of_peer name hagrees rfl (fun x hx => ?_) (fun _ _ hw => hw) ?_
  · simp [PubSub.setPeer, hx]
  · simpa [PubSub.setPeer] using hright

lemma Exclusive.acts (hqueue : 0 < (s.peers name).user.agentQueue) :
    (s.peers name).user.agentQueue = 1 ∧ (s.peers name).user.pendingAcks = 0 ∧
      Elected S (history s.topic) name ∧
        ∃ g, (s.peers name).user.group = some g ∧ g.transcript = history s.topic := by
  obtain ⟨hone, hrest⟩ := (h.rights name).right (by unfold User.rights; omega)
  unfold User.rights at hone
  exact ⟨by omega, by omega, hrest⟩

/-- **The commits of a paced run are plain**: a member that removes another one has a seat. -/
lemma Exclusive.plain (hok : Paced s e) (hstep : PubSub.step S.cfg s e = some s') : Plain s e := by
  cases e with
  | act name env id k =>
    refine ⟨hok.1, fun g hg => ?_, fun x o _ ho => ?_⟩
    · have hquiet := ((h.rights name).quiet g hg).1
      cases k <;> simp [User.Call.Plain, hquiet]
    · obtain ⟨hqueue, -⟩ := PubSub.stepped_of_step hstep
      obtain ⟨-, -, helected, g, hg, ht⟩ := h.acts hqueue
      obtain ⟨-, o', ho', hseated⟩ := (h.agrees.peer name).seated g hg
      obtain rfl := mem_unique ho ho'
      exact helected.mem (ht ▸ hseated.vector)
  | giveUp name => trivial
  | topic name env => trivial
  | welcome name env i => trivial
  | ack name sender => trivial
  | subscribed name => trivial

lemma Exclusive.unique (hx : 0 < (s.peers x).user.rights) (hy : 0 < (s.peers y).user.rights) :
    x = y :=
  ((h.rights x).right hx).2.1.unique ((h.rights y).right hy).2.1

lemma Exclusive.publish (hright : 0 < (s.peers name).user.rights) (hm : m.content = .commit c)
    (hsender : m.sender = name) (hbase : m.base = history s.topic) (hsingle : c.Single)
    (hsent : sentBy os = [m]) (hagrees : Agrees S (s.publish name p os))
    (hp : RightInv S (s.topic ++ [m]) name p)
    (hwelcomes : ∀ x w, .welcome x w ∈ os → Announced (s.topic ++ [m]) w) :
    Exclusive S (s.publish name p os) := by
  have htopic : (s.publish name p os).topic = s.topic ++ [m] := by simp [PubSub.publish, hsent]
  have helected := ((h.rights name).right hright).2.1
  refine ⟨hagrees, ?_, fun x => ?_, fun x w hw => ?_⟩ <;> rw [htopic]
  · exact h.topic.append hm hbase (by rwa [hbase, hsender]) hsingle
  · by_cases hx : x = name
    · subst hx
      simpa [PubSub.publish] using hp
    · have hnone : (s.peers x).user.rights = 0 := by
        by_contra hne
        exact hx (h.unique (Nat.pos_of_ne_zero hne) hright)
      have hgrow := (h.rights x).grow hm (hsender.trans_ne (Ne.symm hx)) hnone
      simpa [PubSub.publish, hx] using hgrow
  · rcases mem_append.mp hw with hw | hw
    · obtain ⟨hsuffix, hone⟩ := h.welcomes x w hw
      refine ⟨?_, hone⟩
      rw [history_append hm]
      exact hsuffix.trans (suffix_cons _ _)
    · exact hwelcomes x w (mem_welcomesTo.mp hw)

/-- **A call of the user that has the right** commits at the end of the topic. -/
lemma Exclusive.act {k : User.Call} (hok : Paced s (.act name env id k))
    (hstep : PubSub.step S.cfg s (.act name env id k) = some s') : Exclusive S s' := by
  have hplain := h.plain hok hstep
  have hagrees := h.agrees.step hplain hstep
  have hright := h.rights name
  obtain ⟨hturn, hk⟩ := PubSub.stepped_of_step hstep
  revert hagrees
  cases hx : (s.peers name).user.call S.cfg env id k with
  | error f => exact fun hagrees => h.setPeer hagrees hright.stopped
  | ok r =>
    intro hagrees
    cases orchestrated_cases S.agent hok.1 hk hx with
    | refused e =>
      refine h.of_peer name hagrees (by simp [acted, PubSub.publish, sentBy]) (fun x hx => ?_)
        (fun x w hw => ?_) ?_
      · simp [acted, PubSub.publish, hx]
      · simpa [acted, PubSub.publish, welcomesTo] using hw
      · have hfollow := hright.follow (r := User.spend k ⟨(s.peers name).user, [], some e⟩)
          (by simp) (by simp [User.spend])
        simpa [acted, PubSub.publish] using hfollow
    | dropped hg hsub | proposed hg hpropose => exact hok.2.elim
    | @committed _ g g' m w a c o u' action _ hg hprep hm ho horch =>
      obtain ⟨hqueue, hacks, helected, g1, hg1, ht⟩ := h.acts hturn
      obtain rfl := mem_unique hg hg1
      have hp := h.agrees.peer name
      have hsingle := hprep.single hm (hplain.2.1 g hg) hok.2
      obtain ⟨hsender, hbase, -, hown, hsw⟩ := hprep.of_commit hm
      obtain ⟨o1, o', ho1, hu', htakes⟩ := hp.takesOwn hg hprep hm (hplain.2.1 g hg) horch rfl
      rw [hp.username] at hsender hown
      have hrights := htakes.rights (v := u') (pendingAcks_eq ho1 ▸ hacks) hown hsingle.1
        (by rw [hu'])
      have hgroup : u'.group = some (g.after c) := by rw [hu']
      have hone : u'.agentQueue = 1 := by rw [hu', ← hqueue]
      have hhistory : history (s.topic ++ [m]) = c :: g.transcript := by
        rw [history_append hm, ht]
      have hlen : s.topic.length = g.epoch := by
        rw [MlsGroup.epoch, ht, h.topic.length_history_self]
      have hreached : ∀ os, ((s.peers name).follow
          (User.spend k ⟨User.notifyAgent action u', os, none⟩)).reached = g.epoch + 2 := by
        simp [Peer.follow, User.held, hgroup, (hright.quiet g hg).2.2, MlsGroup.epoch]
      refine h.publish (Nat.lt_add_right _ hturn) hm hsender (hbase.trans ht) hsingle
        sentBy_commit hagrees ⟨fun g1 hg1 => ?_, fun i m' hm' hx => ?_, fun hr => ?_⟩
        fun x w' hw' => ?_
      · obtain rfl : g.after c = g1 := by simpa [hgroup] using hg1
        exact ⟨rfl, hhistory ▸ suffix_rfl, hreached _⟩
      · refine (?_ : i + 1 < g.epoch + 2).trans_eq (hreached _).symm
        rcases getElem?_append_singleton hm' with hm' | ⟨rfl, -⟩
        · have := hright.own i m' hm' hx
          rw [(hright.quiet g hg).2.2] at this
          omega
        · omega
      · have hspend : ∀ os, (User.spend k ⟨User.notifyAgent action u', os, none⟩).user.rights =
            (User.notifyAgent action u').rights - 1 := fun os =>
          rights_spend hok.2.isCommit (lt_of_lt_of_le (by omega) agentQueue_le_notifyAgent)
        rw [hhistory]
        simp only [Peer.follow, hspend] at hr ⊢
        rcases hrights with ⟨hnext, hrights⟩ | hrights
        · exact ⟨by omega, hnext, g.after c, by simp [hgroup], rfl⟩
        · omega
      · obtain ⟨sw, rfl, -, rfl⟩ := welcome_of_commit hw'
        rw [Announced, hsw sw rfl, hhistory]
        refine ⟨suffix_rfl, ?_⟩
        rintro _ _ ⟨rfl, rfl⟩
        exact hsingle

lemma Exclusive.handled (hagrees : Agrees S (s.handled name p (.ok r))) (hsilent : Silent r)
    (hright : RightInv S s.topic name (p.follow r)) : Exclusive S (s.handled name p (.ok r)) := by
  obtain ⟨htopic, hwelcomes, hothers⟩ := handled_silent s name p hsilent
  refine h.of_peer name hagrees htopic hothers (fun x w hw => by rwa [hwelcomes] at hw) ?_
  simp only [PubSub.handled, PubSub.publish, Function.update_self]
  split_ifs
  · exact hright
  · exact hright.stopped

/-- A user that handles a commit had no right before. -/
lemma Exclusive.next_commit (hi : s.topic[i]? = some m)
    (hg : (s.peers name).user.group = some g) (hm : g.processMessage own m = .ok (.commit c)) :
    c :: g.transcript <:+ history s.topic ∧ c.Single ∧
      (s.peers name).user.agentQueue = 0 ∧ (s.peers name).user.pendingAcks = 0 := by
  obtain ⟨hc, hbase, -⟩ := MlsGroup.processMessage_commit hm
  obtain ⟨c', hc', hhistory, hsingle⟩ := h.topic.history_succ hi
  obtain rfl := Content.commit.inj (hc.symm.trans hc')
  have hsuffix : c :: g.transcript <:+ history s.topic := by
    rw [← hbase, ← hhistory]
    exact grows_record.foldl_take_suffix_self [] _ _
  refine ⟨hsuffix, hsingle, (h.rights name).none_of_behind fun g' hg' he => ?_⟩
  obtain rfl := mem_unique hg hg'
  have := hsuffix.length_le
  rw [he, length_cons] at this
  omega

/-- **A message of the topic.** -/
lemma Exclusive.topicStep (hi : s.topic[i]? = some m)
    (hr : (s.peers name).user.processInMessage S.cfg env (.group m) = .ok r) :
    Exclusive S (s.handled name { s.peers name with pos := some (i + 1) } (.ok r)) := by
  have hp := h.agrees.peer name
  have hright : RightInv S s.topic name
      { s.peers name with pos := some (i + 1) } := (h.rights name).less rfl rfl le_rfl
  refine h.handled (h.agrees.topic hr) (processInMessage_silent hp.slot hr) ?_
  cases processInMessage_orchestrated S.agent hp.slot hr with
  | ignored active hrecords => exact hright.follow rfl le_rfl
  | stored hg hm =>
    obtain ⟨c, hc, -⟩ := h.topic i m hi
    simp [MlsGroup.processMessage_content hm] at hc
  | left hg hm horch hleave =>
    obtain ⟨o, o', ho, rfl, htakes⟩ := hp.takes hg hm horch
    obtain ⟨-, hsingle, hqueue, hacks⟩ := h.next_commit hi hg hm
    refine hright.left rfl (by simp [Peer.follow, User.leave, User.held]) ?_
    have hnone := htakes.pendingAcks (pendingAcks_eq ho ▸ hacks)
      (hleave.imp_left fun hmem => hsingle.2 (ne_nil_of_mem hmem))
    simp [User.leave, User.rights, User.pendingAcks, hqueue, hnone]
  | @merged g c u' action hg hm horch hown hstays =>
    obtain ⟨o, o', ho, rfl, htakes⟩ := hp.takes hg hm horch
    obtain ⟨hsuffix, hsingle, hqueue, hacks⟩ := h.next_commit hi hg hm
    have hold := ((h.rights name).quiet g hg).2.2
    refine hright.advance h.topic (g := g.after c) (by simp) rfl hsuffix ?_ ?_ ?_
    · simp [hold, MlsGroup.epoch]
    · simp [Peer.follow, User.held, hold, MlsGroup.epoch]
    · have hrights := htakes.rights (v := { (s.peers name).user with
        orchestrator := some o', group := some (g.after c) }) (pendingAcks_eq ho ▸ hacks)
        (hp.username ▸ hown) hsingle.1 rfl
      simpa [hqueue] using hrights

/-- **A Welcome keeps the invariant** when it is newer than all that the user has seen. -/
lemma Exclusive.join (hagrees : WelcomeInv S w) (hannounced : Announced s.topic w)
    (hnew : (s.peers name).reached ≤ w.welcome.transcript.length)
    (hr : (s.peers name).user.processInMessage S.cfg env (.welcome w) = .ok r) :
    Exclusive S (s.handled name (s.peers name) (.ok r)) := by
  have hp := h.agrees.peer name
  have hright := h.rights name
  refine h.handled (h.agrees.join hagrees hr) (processInMessage_silent hp.slot hr) ?_
  obtain ⟨e, rfl⟩ | ⟨c, t, known, out, ht, hadd, hknown, hcommit, hcase⟩ :=
    processWelcome_orchestrated S.agent hr
  · exact hright.follow rfl le_rfl
  rw [hp.username] at hadd hcommit
  obtain ⟨hsuffix, hsingle⟩ := hannounced
  -- a user with a right has reached the end of the topic
  obtain ⟨hqueue, hacks⟩ := hright.none_of_behind fun g hg he => by
    have hreached := (hright.quiet g hg).2.2
    have := hsuffix.length_le
    rw [MlsGroup.epoch, he] at hreached
    omega
  obtain ⟨hinactive, rfl⟩ | ⟨-, rfl⟩ := hcase
  · refine hright.left rfl (by simp [Peer.follow, User.held]) ?_
    have hnone := pendingAcks_processCommit hcommit rfl (.inr hinactive)
    simp [User.rights, User.pendingAcks, hqueue, hnone]
  · have hreplica := hagrees.replica ht hadd hknown hcommit
    rw [ht] at hsuffix hnew
    refine hright.advance h.topic (g := ⟨w.welcome.creator, c :: t, [], .operational⟩) (by simp) rfl
      hsuffix hnew ?_ ?_
    · simpa [Peer.follow, User.held, MlsGroup.epoch] using hnew.trans (Nat.le_succ _)
    · have hrights := hreplica.rights (v := { (s.peers name).user with
        group := some ⟨w.welcome.creator, c :: t, [], .operational⟩
        active := some (true, 0)
        orchestrator := some out.orchestrator }) (hsingle c t ht).1 rfl rfl
      simpa [hqueue] using hrights

lemma Exclusive.step (hok : Paced s e) (hstep : PubSub.step S.cfg s e = some s') :
    Exclusive S s' := by
  have hagrees := h.agrees.step (h.plain hok hstep) hstep
  cases PubSub.stepped_of_step hstep with
  | act _ _ => exact h.act hok hstep
  | @giveUp name =>
    exact h.setPeer hagrees
      ((h.rights name).less rfl rfl (by simp [User.rights, User.pendingAcks]))
  | @topic name env i m hpos hm =>
    revert hagrees
    cases hr : (s.peers name).user.processInMessage S.cfg env (.group m) with
    | error f => exact fun hagrees => h.setPeer hagrees ((h.rights name).less rfl rfl le_rfl)
    | ok r => exact fun _ => h.topicStep hm hr
  | @welcome name env i w hw =>
    revert hagrees
    have h1 : Exclusive S (s.taken name i) :=
      h.of_peer name (h.agrees.taken i) rfl (fun _ _ => rfl) (fun _ _ hw' => mem_of_mem_taken hw')
        (h.rights name)
    have hmem := mem_of_getElem? hw
    cases hr : (s.peers name).user.processInMessage S.cfg env (.welcome w) with
    | error f => exact fun hagrees => h1.setPeer hagrees (h.rights name).stopped
    | ok r =>
      exact fun _ => h1.join (h.agrees.welcome name w hmem) (h.welcomes name w hmem) (hok w hw) hr
  | @ack name sender u hu =>
    obtain ⟨hgroup, hrights⟩ := rights_processAck hu
    exact h.setPeer hagrees ((h.rights name).less hgroup rfl hrights)
  | @ackFailed name sender => exact h.setPeer hagrees (h.rights name).stopped
  | @subscribed name =>
    refine h.of_peer name hagrees rfl (fun x hx => by simp [PubSub.setPeer, hx])
      (fun _ _ hw => hw) ?_
    have hless : RightInv S s.topic name { s.peers name with
        requested := false, pos := some ((s.peers name).pos.getD s.topic.length) } :=
      (h.rights name).less rfl rfl le_rfl
    simpa [PubSub.setPeer] using hless

end Exclusive

/-! ## Runs -/

lemma exclusive_init (hinit : (pubSub S.cfg S.creator).init s) : Exclusive S s := by
  have hagrees := agrees_init hinit
  obtain ⟨env, r, out, -, hpeer, hreplica, haction, huser⟩ := replica_of_init hinit
  obtain ⟨htopic, hwelcomes, -, -, hothers⟩ := hinit
  refine ⟨hagrees, by simp [TopicInv, htopic], fun x => ?_, fun x w hw => ?_⟩
  swap
  · simp [hwelcomes x] at hw
  rw [htopic]
  by_cases hx : x = S.creator
  · subst hx
    rcases processCommit_acks hreplica.commit with ⟨hwins, hpending, -⟩ | ⟨-, -, hlisten⟩
    swap
    · exact absurd haction hlisten
    have hnone : out.orchestrator.pendingAcks = 0 := by
      simpa [Setting.newcomers, Orchestrator.new] using hpending
    rw [hpeer]
    refine ⟨fun g hg => ?_, by simp, fun _ => ⟨?_, hreplica.elected hwins, ?_⟩⟩
    · obtain rfl : MlsGroup.create S.creator = g := by simpa [huser] using hg
      exact ⟨rfl, by simp [MlsGroup.create], by simp [Peer.follow, User.held, huser]⟩
    · simp [huser, User.rights, User.pendingAcks, hnone]
    · exact ⟨MlsGroup.create S.creator, by simp [huser], rfl⟩
  · rw [hothers x hx]
    exact ⟨by simp [User.new], by simp, by simp [User.rights, User.pendingAcks, User.new]⟩

lemma exclusive_of_reaches (h : (pubSub S.cfg S.creator).Reaches Paced s) : Exclusive S s :=
  h.invariant (fun _ => exclusive_init) fun _ _ _ hs => hs.step

/-- **At most one commit right**, and no two commits in one epoch, in every paced run. -/
theorem one_commit_right {cfg : Config} {params : OrchestratedParameters} {creator : String}
    (hcfg : cfg.agent = .orchestrator params) (h : (pubSub cfg creator).Reaches Paced s) :
    (∀ x y, (s.peers x).user.MayCommit → (s.peers y).user.MayCommit → x = y) ∧
      ∀ (i j : ℕ) (m m' : GroupMessage), s.topic[i]? = some m → s.topic[j]? = some m' →
        m.epoch = m'.epoch → i = j := by
  have hinv := exclusive_of_reaches (S := ⟨cfg, params, hcfg, creator⟩) h
  refine ⟨fun x y hx hy => ?_, fun i j m m' hm hm' hepoch => ?_⟩
  · exact hinv.unique (mayCommit_iff.mp hx) (mayCommit_iff.mp hy)
  · rwa [hinv.topic.epoch hm, hinv.topic.epoch hm'] at hepoch

/-- `A` invites `B`, which joins. -/
def joining : List Event := [.act "A" Env.fine 0 (.invite "B"), .welcome "B" Env.fine 0]

lemma paced_fresh (h : p.reached = 0) : p.reached ≤ w.welcome.transcript.length :=
  h.trans_le (Nat.zero_le _)

lemma joining_reached (h : (pubSub scripted "A").run founded joining = some s) :
    (pubSub scripted "A").Reaches Paced s := by
  refine .of_run (.init founded_init) ?_ h
  exact .cons ⟨fun _ => rfl, trivial⟩ (.cons (fun w _ => paced_fresh (by decide +kernel)) trivial)

/-- `A` waits for the acknowledgement of `B` and nobody else may commit. -/
theorem one_commit_right_joined :
    ∃ s, (pubSub scripted "A").Reaches Paced s ∧ (s.peers "A").user.MayCommit ∧
      s.topic.length = 1 ∧ ∀ y, (s.peers y).user.MayCommit → y = "A" := by
  obtain ⟨s, hrun, hA, hlen⟩ : ∃ s ∈ (pubSub scripted "A").run founded joining,
      0 < (s.peers "A").user.rights ∧ s.topic.length = 1 := by
    decide +kernel
  have hreaches := joining_reached hrun
  have hmay := mayCommit_iff.mpr hA
  exact ⟨s, hreaches, hmay, hlen, fun y hy => (one_commit_right (by rfl) hreaches).1 y "A" hy hmay⟩

/-- **Two commits in one epoch.**  A repeated acknowledgement lets `A` commit before `N` has joined,
    and `N`, which handles two Welcomes in the wrong order, commits in the same epoch. -/
theorem two_commits_in_epoch :
    ∃ s m m', (pubSub scripted "A").run founded
        (secondMember ++ [.act "A" Env.fine 1 (.invite "N"), .ack "A" "B",
          .act "A" Env.fine 2 .updateState, .topic "B" Env.fine, .topic "B" Env.fine,
          .act "B" Env.fine 3 (.remove "N"), .act "B" Env.fine 4 (.invite "N"),
          .welcome "N" Env.fine 1, .welcome "N" Env.fine 0,
          .act "N" Env.fine 5 .updateState]) = some s ∧
      s.topic[2]? = some m ∧ s.topic[5]? = some m' ∧ m.epoch = m'.epoch ∧
        m.sender = "A" ∧ m'.sender = "N" := by
  simp only [exists_and_left]
  decide +kernel

end PubSub

end EmulatedMls.Client
