import EmulatedMls.Client.RequestNet

/-!
# Calls on the request delivery service

The delivery service accepts several commits of one epoch, and users that race for an epoch
settle on the first of them: whoever receives it before its own echo merges it and drops its own
commit.  `chain` collects the first commits, and every user stays on the chain.

This breaks in three ways, which `Orderly` excludes: a commit that is merged or welcomed before
it is known to be the first, an echo of an older message that confirms a commit too early, and a
joiner that has already dropped a commit of the epoch it joins.
-/

namespace EmulatedMls.Client

open List MlsGroup

namespace Net

variable {cfg : Config} {creator name : String} {log : List Accepted} {n : Node} {net net' : Net}

/-! ## The condition -/

/-- The service has accepted no commit of the epoch of the group. -/
def NoneAccepted (log : List Accepted) (g : MlsGroup) : Prop :=
  ∀ a ∈ log, a.IsCommit → a.message.epoch ≠ g.epoch

/-- No message of the user is on its way back. -/
def NothingOut (name : String) (log : List Accepted) (pos : ℕ) : Prop :=
  ∀ i a, pos ≤ i → log[i]? = some a → a.message.sender ≠ name

/-- What each step has to respect.  A Welcome is handled before the joiner has fetched a commit of
    that epoch and while it has no own commit on its way.  An invitation, and a commit whose
    Welcome will be sent, is made when no commit of the epoch has been accepted; an invitation
    removes nobody.  Any other commit is made when no own message is on its way. -/
def Orderly (net : Net) : Event → Prop
  | .recv _ => True
  | .handle name _ => ∀ w ws, (net.nodes name).welcomes = w :: ws →
      ∀ i a, net.server.log[i]? = some a → a.IsCommit →
        (a.message.epoch = w.welcome.transcript.length → (net.nodes name).pos ≤ i) ∧
        ((net.nodes name).pos ≤ i → a.message.sender ≠ name)
  | .act name _ _ k => ∀ g, (net.nodes name).user.group = some g →
      match k with
      | .invite _ => NoneAccepted net.server.log g ∧ ∀ p ∈ g.proposals, ∀ x, p.kind ≠ .remove x
      | .remove _ | .updateState => NothingOut name net.server.log (net.nodes name).pos
      | .commitToProposals _ => NothingOut name net.server.log (net.nodes name).pos ∧
          ((∃ p ∈ g.proposals, ∃ x, p.kind = .add x) → NoneAccepted net.server.log g)
      | .propose _ | .sendApplicationMsg => True

/-! ## The invariant -/

/-- The Welcome opens an epoch of the chain. -/
def Opens (creator : String) (log : List Accepted) (w : Welcome) : Prop :=
  w.creator = creator ∧ w.transcript <:+ chain log

/-- What holds for a user that has not stopped. -/
structure Live (name : String) (log : List Accepted) (n : Node) : Prop where
  /-- No commit of the current epoch has been passed over. -/
  fresh : ∀ g i a, n.user.group = some g → log[i]? = some a → a.IsCommit →
    a.message.epoch = g.epoch → n.pos ≤ i
  member : ∀ g, n.user.group = some g → name ∈ g.members
  /-- While the slot is filled an own message is on its way. -/
  echo : ∀ en, n.user.pendingCommit = some en →
    ∃ i a, n.pos ≤ i ∧ log[i]? = some a ∧ a.message.sender = name
  /-- A commit that waits for its echo is the only own message on its way. -/
  pending : ∀ en g c, n.user.pendingCommit = some en → n.user.group = some g →
    g.state = .pendingCommit c →
    ∃ i a, n.pos ≤ i ∧ log[i]? = some a ∧ a.message = ⟨name, g.transcript, .commit c⟩ ∧
      ∀ j b, n.pos ≤ j → log[j]? = some b → b.message.sender = name → j = i
  /-- An own commit on its way is of a past epoch or waits for its echo. -/
  own : ∀ g i a c, n.user.group = some g → n.pos ≤ i → log[i]? = some a →
    a.message.sender = name → a.message.content = .commit c →
    a.message.epoch < g.epoch ∨
      (n.user.pendingCommit ≠ none ∧ g.state = .pendingCommit c ∧ a.message.base = g.transcript)

structure NodeInv (creator name : String) (log : List Accepted) (n : Node) : Prop where
  username : n.user.username = name
  bound : n.pos ≤ n.drained ∧ n.drained ≤ log.length
  group : ∀ g, n.user.group = some g → g.creator = creator ∧ g.transcript <:+ chain log
  welcomes : ∀ w ∈ n.welcomes, Opens creator log w.welcome
  stored : ∀ en sw, n.user.pendingCommit = some en → en.welcome = some sw →
    Opens creator log sw.welcome
  live : n.alive = true → Live name log n

/-- A commit does not remove its author and is addressed to all members of its epoch. -/
def Proper (creator : String) (a : Accepted) : Prop :=
  ∀ c, a.message.content = .commit c → a.message.sender ∉ c.removes ∧
    ∀ x ∈ roster creator a.message.base, x = a.message.sender ∨ x ∈ a.recipients

/-- Every accepted message was framed on the chain of its time. -/
structure LogInv (creator : String) (log : List Accepted) : Prop where
  base : ∀ i a, log[i]? = some a → a.message.base <:+ chain (log.take i)
  proper : ∀ a ∈ log, Proper creator a

structure NetInv (creator : String) (net : Net) : Prop where
  log : LogInv creator net.server.log
  epoch : ∀ e, net.server.epoch = some e → e ≤ (chain net.server.log).length
  queue : ∀ name, ∀ w ∈ net.server.welcomeQueue name, Opens creator net.server.log w.welcome
  node : ∀ name, NodeInv creator name net.server.log (net.nodes name)

/-! ## Growing logs -/

lemma Opens.mono {w : Welcome} {log' : List Accepted} (h : Opens creator log w)
    (hlog : log <+: log') : Opens creator log' w := by
  obtain ⟨new, rfl⟩ := hlog
  exact ⟨h.1, h.2.trans (chain_suffix_append log new)⟩

variable {a : Accepted} {g g' : MlsGroup} {en : PendingCommit} {c : Commit} {id : ℕ}
  {w : Option StoredWelcome} {env : Env} {m : GroupMessage} {k : User.Call}

/-- **A user whose history stays**: left to show is what is said of its slot and its messages. -/
lemma NodeInv.next (h : NodeInv creator name log n) {log' : List Accepted} (hlog : log <+: log')
    (u' : User) (hname : u'.username = n.user.username)
    (hgroup : ∀ g', u'.group = some g' → ∃ g, n.user.group = some g ∧ g'.creator = g.creator ∧
      g'.transcript = g.transcript)
    (hstored : ∀ en sw, u'.pendingCommit = some en → en.welcome = some sw →
      Opens creator log' sw.welcome)
    (hlive : Live name log n →
      (∀ g i b, u'.group = some g → log'[i]? = some b → b.IsCommit → b.message.epoch = g.epoch →
        n.pos ≤ i) →
      (∀ g, u'.group = some g → name ∈ g.members) → Live name log' { n with user := u' }) :
    NodeInv creator name log' { n with user := u' } := by
  refine ⟨hname.trans h.username, ⟨h.bound.1, h.bound.2.trans hlog.length_le⟩, fun g' hg' => ?_,
    fun w hw => (h.welcomes w hw).mono hlog, hstored, fun halive => ?_⟩
  all_goals obtain ⟨new, rfl⟩ := hlog
  · obtain ⟨g, hg, hc, ht⟩ := hgroup g' hg'
    rw [hc, ht]
    exact ⟨(h.group g hg).1, (h.group g hg).2.trans (chain_suffix_append log new)⟩
  · refine hlive (h.live halive) (fun g' i b hg' hb hcommit he => ?_) fun g' hg' => ?_
    all_goals obtain ⟨g, hg, hc, ht⟩ := hgroup g' hg'
    · by_cases hi : i < log.length
      · rw [getElem?_append_left hi] at hb
        exact (h.live halive).fresh g i b hg hb hcommit (he.trans (congrArg List.length ht))
      · exact (h.bound.1.trans h.bound.2).trans (Nat.le_of_not_lt hi)
    · rw [MlsGroup.members, hc, ht]
      exact (h.live halive).member g hg

lemma NodeInv.append_other (h : NodeInv creator name log n) (hsender : a.message.sender ≠ name) :
    NodeInv creator name (log ++ [a]) n := by
  refine h.next (prefix_append _ _) n.user rfl (fun g hg => ⟨g, hg, rfl, rfl⟩)
    (fun en sw hen hsw => (h.stored en sw hen hsw).mono (prefix_append _ _))
    fun hlive hfresh hmember => ⟨hfresh, hmember, ?_, ?_, ?_⟩
  · intro en hen
    obtain ⟨i, b, hi, hb, hname⟩ := hlive.echo en hen
    exact ⟨i, b, hi, getElem?_append_of_some hb, hname⟩
  · intro en g c hen hg hc
    obtain ⟨i, b, hi, hb, hm, huniq⟩ := hlive.pending en g c hen hg hc
    refine ⟨i, b, hi, getElem?_append_of_some hb, hm, fun j d hj hd hname => ?_⟩
    rcases getElem?_append_singleton hd with hd | ⟨-, rfl⟩
    · exact huniq j d hj hd hname
    · exact absurd hname hsender
  · intro g i b c hg hi hb hname hc
    rcases getElem?_append_singleton hb with hb | ⟨-, rfl⟩
    · exact hlive.own g i b c hg hi hb hname hc
    · exact absurd hname hsender

lemma LogInv.append (h : LogInv creator log) (hbase : a.message.base <:+ chain log)
    (hproper : Proper creator a) : LogInv creator (log ++ [a]) := by
  refine ⟨fun i b hb => ?_, fun b hb => ?_⟩
  · rcases getElem?_append_singleton hb with hb | ⟨rfl, rfl⟩
    · obtain ⟨hlt, -⟩ := List.getElem?_eq_some_iff.mp hb
      rw [take_append_of_le_length hlt.le]
      exact h.base i b hb
    · rwa [take_left']
      rfl
  · rcases mem_append.mp hb with hb | hb
    · exact h.proper b hb
    · obtain rfl := mem_singleton.mp hb
      exact hproper

lemma chain_eq_of_noneAccepted (hg : g.transcript <:+ chain log) (hnone : NoneAccepted log g) :
    chain log = g.transcript := by
  refine (hg.eq_of_length (le_antisymm hg.length_le ?_)).symm
  by_contra hlt
  have hlen : g.epoch < (chain (log.take log.length)).length := by
    rw [take_length]
    exact Nat.lt_of_not_le hlt
  obtain ⟨j, a, -, ha, hcommit, hepoch⟩ := exists_commit_of_lt hlen
  exact hnone a (mem_of_getElem? ha) hcommit hepoch

/-! ## Calls -/

section

variable (h : NodeInv creator name log n)
include h

lemma NodeInv.keep {u' : User} (hname : u'.username = n.user.username)
    (hslot : u'.pendingCommit = n.user.pendingCommit)
    (hgroup : ∀ g', u'.group = some g' → ∃ g, n.user.group = some g ∧ g'.creator = g.creator ∧
      g'.transcript = g.transcript ∧ g'.state = g.state) :
    NodeInv creator name log { n with user := u' } := by
  refine h.next prefix_rfl u' hname (fun g' hg' => ?_)
    (fun en sw hen => h.stored en sw (hslot ▸ hen)) fun hlive hfresh hmember =>
      ⟨hfresh, hmember, fun en hen => hlive.echo en (hslot ▸ hen), ?_, ?_⟩
  · obtain ⟨g, hg, hc, ht, -⟩ := hgroup g' hg'
    exact ⟨g, hg, hc, ht⟩
  · intro en g' c hen hg' hc
    obtain ⟨g, hg, -, ht, hs⟩ := hgroup g' hg'
    rw [ht]
    exact hlive.pending en g c (hslot ▸ hen) hg (hs ▸ hc)
  · intro g' i a c hg' hi ha hname hc
    obtain ⟨g, hg, -, ht, hs⟩ := hgroup g' hg'
    rw [MlsGroup.epoch, ht, hs, show ({ n with user := u' } : Node).user.pendingCommit =
      n.user.pendingCommit from hslot]
    exact hlive.own g i a c hg hi ha hname hc

lemma NodeInv.stop : NodeInv creator name log { n with alive := false } :=
  ⟨h.username, h.bound, h.group, h.welcomes, h.stored, by simp⟩

lemma NodeInv.application (hcommit : ¬ a.IsCommit) (hslot : n.user.pendingCommit = none) :
    NodeInv creator name (log ++ [a]) n := by
  refine h.next (prefix_append _ _) n.user rfl (fun g hg => ⟨g, hg, rfl, rfl⟩)
    (by simp [hslot]) fun hlive hfresh hmember =>
      ⟨hfresh, hmember, by simp [hslot], by simp [hslot], fun g i b c hg hi hb hname hc => ?_⟩
  rcases getElem?_append_singleton hb with hb | ⟨-, rfl⟩
  · exact hlive.own g i b c hg hi hb hname hc
  · exact absurd ⟨c, hc⟩ hcommit

lemma NodeInv.proposal (hg : n.user.group = some g) (hop : g.state = .operational)
    (hc : g'.creator = g.creator) (ht : g'.transcript = g.transcript)
    (hop' : g'.state = .operational) (hsender : a.message.sender = name) (hcommit : ¬ a.IsCommit)
    (hwelcome : en.welcome = none) :
    NodeInv creator name (log ++ [a])
      { n with user := { n.user with group := some g', pendingCommit := some en } } := by
  refine h.next (prefix_append _ _) _ rfl ?_ ?_ fun hlive hfresh hmember =>
    ⟨hfresh, hmember, fun _ _ => ?_, ?_, ?_⟩
  · rintro _ ⟨rfl⟩
    exact ⟨g, hg, hc, ht⟩
  · rintro _ sw ⟨rfl⟩ hsw
    simp [hwelcome] at hsw
  · exact ⟨log.length, a, h.bound.1.trans h.bound.2, by simp, hsender⟩
  · rintro _ _ c _ ⟨rfl⟩ hs
    simp [hop'] at hs
  · rintro _ i b c ⟨rfl⟩ hi hb hname hbc
    rcases getElem?_append_singleton hb with hb | ⟨-, rfl⟩
    · rcases hlive.own g i b c hg hi hb hname hbc with hlt | ⟨-, hs, -⟩
      · rw [MlsGroup.epoch, ht]
        exact .inl hlt
      · simp [hop] at hs
    · exact absurd ⟨c, hbc⟩ hcommit

end

lemma Live.free (h : Live name log n) (hout : NothingOut name log n.pos) :
    n.user.pendingCommit = none := by
  cases hslot : n.user.pendingCommit with
  | none => rfl
  | some en =>
    obtain ⟨i, a, hi, ha, hname⟩ := h.echo en hslot
    exact absurd hname (hout i a hi ha)

section

variable (h : NodeInv creator name log n) (hg : n.user.group = some g)
  (hc : g'.creator = g.creator) (ht : g'.transcript = g.transcript)
include h hg hc ht

lemma NodeInv.commit (hstate : g'.state = .pendingCommit c)
    (hm : a.message = ⟨name, g.transcript, .commit c⟩) (hout : NothingOut name log n.pos)
    (hstored : ∀ sw, en.welcome = some sw → Opens creator (log ++ [a]) sw.welcome) :
    NodeInv creator name (log ++ [a])
      { n with user := { n.user with group := some g', pendingCommit := some en } } := by
  have hpos : n.pos ≤ log.length := h.bound.1.trans h.bound.2
  refine h.next (prefix_append _ _) _ rfl ?_ ?_ fun hlive hfresh hmember =>
    ⟨hfresh, hmember, fun _ _ => ⟨log.length, a, hpos, by simp, by rw [hm]⟩, ?_, ?_⟩
  · rintro _ ⟨rfl⟩
    exact ⟨g, hg, hc, ht⟩
  · rintro _ sw ⟨rfl⟩ hsw
    exact hstored sw hsw
  · rintro _ _ c' _ ⟨rfl⟩ hs
    obtain rfl : c = c' := by simpa [hstate] using hs
    refine ⟨log.length, a, hpos, by simp, by rw [hm, ht], fun j b hj hb hname => ?_⟩
    rcases getElem?_append_singleton hb with hb | ⟨rfl, -⟩
    · exact absurd hname (hout j b hj hb)
    · rfl
  · rintro _ i b c' ⟨rfl⟩ hi hb hname hbc
    rcases getElem?_append_singleton hb with hb | ⟨-, rfl⟩
    · exact absurd hname (hout i b hi hb)
    · obtain rfl : c = c' := by simpa [hm] using hbc
      exact .inr ⟨by simp, hstate, by rw [hm, ht]⟩

lemma NodeInv.rejected (hout : NothingOut name log n.pos) :
    NodeInv creator name log { n with user := { n.user with group := some g' } } := by
  refine h.next prefix_rfl _ rfl ?_ h.stored fun hlive hfresh hmember => ?_
  · rintro _ ⟨rfl⟩
    exact ⟨g, hg, hc, ht⟩
  · have hfree := hlive.free hout
    refine ⟨hfresh, hmember, by simp [hfree], by simp [hfree], ?_⟩
    intro _ i b c _ hi hb hname _
    exact absurd hname (hout i b hi hb)

end

lemma chain_append_commit (hchain : chain log = g.transcript)
    (hm : a.message = ⟨name, g.transcript, .commit c⟩) :
    chain (log ++ [a]) = c :: g.transcript := by
  rw [chain_append, hchain, extendChain]
  simp [hm, GroupMessage.epoch]

lemma NodeInv.invite (h : NodeInv creator name log n) (hlog : LogInv creator log)
    (hg : n.user.group = some g) (hop : g.state = .operational)
    (hm : a.message = ⟨name, g.transcript, .commit c⟩) (hown : name ∉ c.removes)
    (hnone : NoneAccepted log g)
    (hstored : ∀ sw, en.welcome = some sw → sw.welcome = ⟨g.creator, c :: g.transcript⟩) :
    NodeInv creator name (log ++ [a])
      { n with user := { n.user with
          group := some ⟨g.creator, c :: g.transcript, [], .operational⟩
          pendingCommit := some en } } := by
  obtain ⟨hcreator, hsuffix⟩ := h.group g hg
  have hchain := chain_eq_of_noneAccepted hsuffix hnone
  have hext := chain_append_commit hchain hm
  have hpos : n.pos ≤ log.length := h.bound.1.trans h.bound.2
  refine ⟨h.username, ⟨h.bound.1, by simpa using h.bound.2.trans (Nat.le_succ _)⟩, ?_,
    fun w hw => (h.welcomes w hw).mono (prefix_append _ _), ?_, fun halive => ?_⟩
  · rintro _ ⟨rfl⟩
    exact ⟨hcreator, hext ▸ suffix_rfl⟩
  · rintro _ sw ⟨rfl⟩ hsw
    rw [hstored sw hsw]
    exact ⟨hcreator, hext ▸ suffix_rfl⟩
  have hlive := h.live halive
  refine ⟨?_, ?_, ?_, ?_, ?_⟩
  · -- a commit of the new epoch would have been framed on a longer chain
    rintro _ i b ⟨rfl⟩ hb hbc he
    rcases getElem?_append_singleton hb with hb | ⟨rfl, -⟩
    · have hle := (hlog.base i b hb).length_le.trans (chain_take_suffix_self log i).length_le
      rw [hchain] at hle
      simp only [MlsGroup.epoch, GroupMessage.epoch, length_cons] at he
      omega
    · exact hpos
  · rintro _ ⟨rfl⟩
    have hmem := hlive.member g hg
    simp only [MlsGroup.members, roster, Commit.apply, mem_append, mem_filter,
      decide_eq_true_eq] at hmem ⊢
    exact .inl ⟨hmem, hown⟩
  · intro _ _
    exact ⟨log.length, a, hpos, by simp, by rw [hm]⟩
  · rintro _ _ c' _ ⟨rfl⟩ hs
    simp at hs
  · rintro _ i b c' ⟨rfl⟩ hi hb hname hbc
    refine .inl ?_
    rcases getElem?_append_singleton hb with hb | ⟨-, rfl⟩
    · rcases hlive.own g i b c' hg hi hb hname hbc with hlt | ⟨-, hs, -⟩
      · exact hlt.trans (Nat.lt_succ_self _)
      · simp [hop] at hs
    · simp [hm, GroupMessage.epoch, MlsGroup.epoch]

lemma NetInv.setNode (h : NetInv creator net) {n' : Node}
    (hn : NodeInv creator name net.server.log n') : NetInv creator (net.setNode name n') := by
  refine ⟨h.log, h.epoch, h.queue, fun x => ?_⟩
  by_cases hx : x = name
  · subst hx
    simpa [Net.setNode] using hn
  · simpa [Net.setNode, hx] using h.node x

lemma NetInv.send (h : NetInv creator net) {n' : Node} (hacc : net.server.accepts a.message = true)
    (hsender : a.message.sender = name) (hbase : a.message.base <:+ chain net.server.log)
    (hproper : Proper creator a) (hn : NodeInv creator name (net.server.log ++ [a]) n') :
    NetInv creator ⟨Function.update net.nodes name n',
      net.server.msgSend a.message a.recipients⟩ := by
  have hlog : (net.server.msgSend a.message a.recipients).log = net.server.log ++ [a] := by
    simp [Server.msgSend, hacc]
  have hlen := (chain_suffix_append net.server.log [a]).length_le
  refine ⟨?_, fun e he => ?_, fun x w hw => ?_, fun x => ?_⟩
  · rw [hlog]
    exact h.log.append hbase hproper
  · rw [hlog]
    simp only [Server.msgSend, hacc, if_true] at he
    split_ifs at he
    · cases he
      exact hbase.length_le.trans hlen
    · exact (h.epoch e he).trans hlen
  · rw [hlog]
    simp only [Server.msgSend, hacc, if_true] at hw
    exact (h.queue x w hw).mono (prefix_append _ _)
  · rw [hlog]
    by_cases hx : x = name
    · subst hx
      simpa using hn
    · simpa [hx] using (h.node x).append_other fun hs => hx (hs.symm.trans hsender)

lemma addressed_of_members {ms : List String} (hcreator : g.creator = creator)
    (hsub : ∀ x ∈ g.members, x = name ∨ x ∈ ms) :
    ∀ x ∈ roster creator g.transcript, x = name ∨ x ∈ ms.filter (· ≠ name) := by
  intro x hx
  by_cases hxn : x = name
  · exact .inl hxn
  · refine .inr (mem_filter.mpr ⟨?_, by simpa using hxn⟩)
    exact (hsub x (by rwa [MlsGroup.members, hcreator])).resolve_left hxn

lemma draft_removes_eq_nil {own user : String} {ps : List PendingProposal}
    (h : ∀ p ∈ ps, ∀ x, p.kind ≠ .remove x) :
    (draft own id (ps ++ [⟨id, own, .add user⟩])).removes = [] := by
  refine removesOf_eq_nil fun p hp x hk => ?_
  rcases mem_append.mp hp with hp | hp
  · exact h p hp x hk
  · simp [mem_singleton.mp hp] at hk

lemma answer_toGroup (srv : Server) (env : Env) (m : GroupMessage) (ms : List String) :
    (answer srv env).delivers (.toGroup m ms) = srv.accepts m := rfl

lemma NetInv.postCommit (hcfg : cfg.agent = .independent) (h : NetInv creator net) {act : Action}
    {r : Result} (hg : (net.nodes name).user.group = some g)
    (hpost : User.postProcessCommit cfg (answer net.server env)
      { (net.nodes name).user with group := some g' } g' ⟨name, g.transcript, .commit c⟩ w act =
        .ok r)
    (hc : g'.creator = g.creator) (ht : g'.transcript = g.transcript)
    (hstate : g'.state = .pendingCommit c) (hown : name ∉ c.removes)
    (hout : NothingOut name net.server.log (net.nodes name).pos)
    (hwelcome : ∀ sw, w = some sw → sw.welcome = ⟨g.creator, c :: g.transcript⟩ ∧
      NoneAccepted net.server.log g) :
    NetInv creator (net.acted name (net.nodes name) (.ok r)) := by
  have hn := h.node name
  obtain ⟨hcreator, hsuffix⟩ := hn.group g hg
  obtain ⟨rfl, hacc⟩ | ⟨rfl, -⟩ := User.postProcessCommit_independent hcfg hpost
  · rw [answer_toGroup] at hacc
    have haddr : ∀ x ∈ roster creator g.transcript, x = name ∨
        x ∈ g'.members.filter (· ≠ (net.nodes name).user.username) := by
      rw [hn.username]
      refine addressed_of_members hcreator fun x hx => .inr ?_
      rwa [MlsGroup.members, hc, ht]
    refine h.send (a := ⟨⟨name, g.transcript, .commit c⟩, _⟩) hacc rfl hsuffix
      ?_ (hn.commit hg hc ht hstate rfl hout fun sw hsw => ?_)
    · rintro _ ⟨rfl⟩
      exact ⟨hown, haddr⟩
    -- the Welcome opens the epoch of a first commit
    obtain ⟨hsw', hnone⟩ := hwelcome sw hsw
    rw [hsw']
    have hchain := chain_eq_of_noneAccepted hsuffix hnone
    exact ⟨hcreator, [], (chain_append_commit hchain rfl).symm⟩
  · exact h.setNode (hn.rejected hg hc ht hout)

lemma NetInv.accepts_of_noneAccepted (h : NetInv creator net)
    (hsuffix : g.transcript <:+ chain net.server.log) (hnone : NoneAccepted net.server.log g)
    (hbase : m.base = g.transcript) : net.server.accepts m = true := by
  unfold Server.accepts
  cases he : net.server.epoch with
  | none => rfl
  | some e =>
    have hle := h.epoch e he
    rw [chain_eq_of_noneAccepted hsuffix hnone, ← hbase] at hle
    simp [GroupMessage.epoch, Nat.not_lt.mpr hle]

section

variable (hcfg : cfg.agent = .independent) (h : NetInv creator net)
  (hok : Orderly net (.act name env id k))
include hcfg h hok

lemma NetInv.posted {act : Action} {r : Result}
    (hg : (net.nodes name).user.group = some g)
    (hprep : User.Prepares (net.nodes name).user.username id g k g' m w act)
    (hpost : User.postProcessCommit cfg (answer net.server env)
      { (net.nodes name).user with group := some g' } g' m w act = .ok r) :
    NetInv creator (net.acted name (net.nodes name) (.ok r)) := by
  have hn := h.node name
  have hord := hok g hg
  obtain ⟨hcreator, hsuffix⟩ := hn.group g hg
  rw [hn.username] at hprep
  cases hprep with
  | @invite user c staged hbuild =>
    obtain ⟨hop, hc, -, hown, -⟩ := buildCommit_eq_ok hbuild
    have hremoves : c.removes = [] := by
      rw [hc]
      exact draft_removes_eq_nil hord.2
    obtain ⟨rfl, hacc⟩ | ⟨-, hrej⟩ := User.postProcessCommit_independent hcfg hpost
    · rw [answer_toGroup] at hacc
      refine h.send (a := ⟨⟨name, g.transcript, .commit _⟩, _⟩) hacc rfl hsuffix ?_
        (hn.invite h.log hg hop rfl hown hord.1 ?_)
      · rintro _ ⟨rfl⟩
        refine ⟨hown, ?_⟩
        rw [hn.username]
        refine addressed_of_members hcreator fun x hx => .inr ?_
        simp only [MlsGroup.members, roster, Commit.apply, hremoves]
        simpa [MlsGroup.members] using .inl (b := x ∈ c.adds) hx
      · rintro sw ⟨rfl⟩
        rfl
    · rw [answer_toGroup, h.accepts_of_noneAccepted hsuffix hord.1 rfl] at hrej
      cases hrej
  | remove hmem hbuild | updateState hbuild =>
    obtain ⟨-, -, -, hown, rfl⟩ := buildCommit_eq_ok hbuild
    exact h.postCommit hcfg hg hpost rfl rfl rfl hown hord nofun
  | @commitToProposals choice _ kept c staged hkept hbuild =>
    obtain ⟨-, hc, -, hown, rfl⟩ := buildCommit_eq_ok hbuild
    refine h.postCommit hcfg hg hpost rfl rfl rfl hown hord.1 fun sw hsw => ?_
    split_ifs at hsw with hadds
    cases hsw
    refine ⟨rfl, hord.2 ?_⟩
    -- an Add of the commit was pending
    obtain ⟨x, hx⟩ := exists_mem_of_ne_nil _ hadds
    rw [hc, map_nil, append_nil] at hx
    obtain ⟨p, hp, hk⟩ := mem_addsOf.mp hx
    exact ⟨p, User.mem_of_mem_keptProposals hkept hp, x, hk⟩
  | propose hpropose =>
    obtain ⟨hstate, rfl, rfl⟩ := propose_eq_ok hpropose
    obtain ⟨rfl, hacc⟩ | ⟨rfl, -⟩ := User.postProcessCommit_independent hcfg hpost
    · rw [answer_toGroup] at hacc
      refine h.send (a := ⟨⟨name, g.transcript, .proposal _⟩, _⟩) hacc rfl hsuffix ?_
        (hn.proposal hg hstate rfl rfl hstate rfl ?_ rfl) <;> simp [Proper, Accepted.IsCommit]
    · refine h.setNode (hn.keep rfl rfl ?_)
      rintro _ ⟨rfl⟩
      exact ⟨g, hg, rfl, rfl, rfl⟩

lemma NetInv.act
    (hstep : Net.step cfg net (.act name env id k) = some net') : NetInv creator net' := by
  have hn := h.node name
  simp only [Net.step] at hstep
  split_ifs at hstep with hidle
  cases hstep
  cases hx : (net.nodes name).user.call cfg (answer net.server env) id k with
  | error f => exact h.setNode hn.stop
  | ok r =>
    cases User.call_cases hx with
    | refused e => exact h.setNode (hn.keep rfl rfl fun g' hg' => ⟨g', hg', rfl, rfl, rfl⟩)
    | dropped hg hkept hbuild =>
      refine h.setNode (hn.keep rfl rfl ?_)
      rintro _ ⟨rfl⟩
      exact ⟨_, hg, rfl, rfl, rfl⟩
    | @application g m hg hslot hm hsent =>
      obtain ⟨hcreator, hsuffix⟩ := hn.group g hg
      simp only [MlsGroup.createMessage] at hm
      split_ifs at hm
      cases hm
      refine h.send (a := ⟨⟨_, g.transcript, .application id⟩, _⟩) hsent hn.username hsuffix
        ?_ (hn.application ?_ hslot) <;> simp [Proper, Accepted.IsCommit]
    | posted hg hprep hpost => exact h.posted hcfg hok hg hprep hpost

end

end Net

end EmulatedMls.Client
