import EmulatedMls.Client.Echo
import EmulatedMls.Client.RequestCalls

/-!
# Convergence on the request delivery service

What a user does with the messages it has fetched keeps the invariant of the system.  A running
user meets the commits of its epoch in the order of the log, so the first one it can merge is the
next one of the chain.
-/

namespace EmulatedMls.Client

open Function List MlsGroup User

namespace Net

variable {cfg : Config} {creator name : String} {log : List Accepted} {n : Node} {net net' : Net}

/-! ## Fetched messages -/

variable {a : Accepted} {g : MlsGroup} {r : Result} {env : Env} {i : ℕ}

lemma LogInv.base_eq (h : LogInv creator log) {t : Transcript} (ha : log[i]? = some a)
    (ht : t <:+ chain log) (hepoch : a.message.epoch = t.length) : a.message.base = t :=
  eq_of_suffix ((h.base i a ha).trans (chain_take_suffix_self log i)) ht hepoch

lemma Live.chain_take_eq (h : Live name log n) (hlog : LogInv creator log)
    (hg : n.user.group = some g) (ha : log[n.pos]? = some a)
    (hbase : a.message.base = g.transcript) : chain (log.take n.pos) = g.transcript := by
  have hsuffix := hlog.base _ a ha
  rw [hbase] at hsuffix
  refine (hsuffix.eq_of_length (le_antisymm hsuffix.length_le ?_)).symm
  by_contra hlt
  obtain ⟨j, b, hj, hb, hcommit, hepoch⟩ := exists_commit_of_lt (Nat.lt_of_not_le hlt)
  exact absurd (h.fresh g j b hg hb hcommit hepoch) (Nat.not_le.mpr hj)

lemma succ_le_of_sender {p : ℕ} {b : Accepted} (ha : log[p]? = some a)
    (hsender : a.message.sender ≠ name) (hi : p ≤ i) (hb : log[i]? = some b)
    (hname : b.message.sender = name) : p + 1 ≤ i := by
  rcases Nat.eq_or_lt_of_le hi with rfl | hlt
  · obtain rfl := Option.mem_unique ha hb
    exact absurd hname hsender
  · exact hlt

lemma Live.skip (h : Live name log n) (ha : log[n.pos]? = some a)
    (hsender : a.message.sender ≠ name)
    (hother : ∀ g, n.user.group = some g → a.IsCommit → a.message.epoch ≠ g.epoch) :
    Live name log { n with pos := n.pos + 1 } := by
  refine ⟨?_, h.member, ?_, ?_, fun g i b c hg hi => h.own g i b c hg (Nat.le_of_succ_le hi)⟩
  · intro g i b hg hb hcommit hepoch
    rcases Nat.eq_or_lt_of_le (h.fresh g i b hg hb hcommit hepoch) with rfl | hlt
    · obtain rfl := Option.mem_unique ha hb
      exact absurd hepoch (hother g hg hcommit)
    · exact hlt
  · intro en hen
    obtain ⟨i, b, hi, hb, hname⟩ := h.echo en hen
    exact ⟨i, b, succ_le_of_sender ha hsender hi hb hname, hb, hname⟩
  · intro en g c hen hg hc
    obtain ⟨i, b, hi, hb, hm, huniq⟩ := h.pending en g c hen hg hc
    exact ⟨i, b, succ_le_of_sender ha hsender hi hb (by rw [hm]), hb, hm,
      fun j d hj => huniq j d (Nat.le_of_succ_le hj)⟩

lemma Live.echoed (h : Live name log n) (ha : log[n.pos]? = some a)
    (hsender : a.message.sender = name)
    (hfree : n.user.pendingCommit = none ∨ ∀ g c, n.user.group = some g →
      g.state ≠ .pendingCommit c) :
    Live name log { n with user := { n.user with pendingCommit := none }, pos := n.pos + 1 } := by
  have hpast : ∀ g i b c, n.user.group = some g → n.pos ≤ i → log[i]? = some b →
      b.message.sender = name → b.message.content = .commit c → b.message.epoch < g.epoch := by
    intro g i b c hg hi hb hname hc
    rcases h.own g i b c hg hi hb hname hc with hlt | ⟨hslot, hstate, -⟩
    · exact hlt
    · exact (hfree.elim hslot fun hs => hs g c hg hstate).elim
  refine ⟨?_, h.member, by simp, by simp, ?_⟩
  · intro g i b hg hb hcommit hepoch
    rcases Nat.eq_or_lt_of_le (h.fresh g i b hg hb hcommit hepoch) with rfl | hlt
    · obtain ⟨c, hc⟩ := hcommit
      obtain rfl := Option.mem_unique ha hb
      exact absurd hepoch (hpast g n.pos _ c hg le_rfl ha hsender hc).ne
    · exact hlt
  · intro g i b c hg hi hb hname hc
    exact .inl (hpast g i b c hg (Nat.le_of_succ_le hi) hb hname hc)

variable {c : Commit}

section

variable (h : Live name log n) (hlog : LogInv creator log) (hg : n.user.group = some g)
  (ha : log[n.pos]? = some a) (hbase : a.message.base = g.transcript)
include h hlog hg ha hbase

/-- **A running user merges the first commit of its epoch**, its own one or that of another user. -/
lemma Live.merge {slot : Option PendingCommit} (hown : name ∉ c.removes)
    (hslot : slot = none ∨ (slot = n.user.pendingCommit ∧ a.message.sender ≠ name)) :
    Live name log { n with
      user := { n.user with group := some (g.mergeStagedCommit name c), pendingCommit := slot }
      pos := n.pos + 1 } := by
  have hchain := h.chain_take_eq hlog hg ha hbase
  refine ⟨?_, ?_, ?_, ?_, ?_⟩
  · -- up to here the chain is as long as the old epoch
    rintro _ i b ⟨rfl⟩ hb hcommit hepoch
    by_contra hlt
    have hle := ((hlog.base i b hb).trans
      (chain_take_suffix log (Nat.le_of_lt_succ (Nat.lt_of_not_le hlt)))).length_le
    rw [hchain] at hle
    simp only [GroupMessage.epoch, MlsGroup.epoch, mergeStagedCommit_transcript,
      length_cons] at hepoch
    omega
  · rintro _ ⟨rfl⟩
    have hmem := h.member g hg
    simp only [MlsGroup.members, mergeStagedCommit_transcript,
      mergeStagedCommit_creator, roster, Commit.apply, mem_append, mem_filter,
      decide_eq_true_eq] at hmem ⊢
    exact .inl ⟨hmem, hown⟩
  · intro en hen
    rcases hslot with rfl | ⟨rfl, hsender⟩
    · cases hen
    · obtain ⟨i, b, hi, hb, hname⟩ := h.echo en hen
      exact ⟨i, b, succ_le_of_sender ha hsender hi hb hname, hb, hname⟩
  · rintro en _ c' - ⟨rfl⟩ hs
    simp [MlsGroup.mergeStagedCommit, hown] at hs
  · rintro _ i b c' ⟨rfl⟩ hi hb hname hc
    refine .inl ?_
    have hle : b.message.epoch ≤ g.epoch := by
      rcases h.own g i b c' hg (Nat.le_of_succ_le hi) hb hname hc with hlt | ⟨-, -, hb'⟩
      · exact hlt.le
      · exact (congrArg List.length hb').le
    exact Nat.lt_succ_of_le hle

lemma Live.merge_suffix (hc : a.message.content = .commit c) : c :: g.transcript <:+ chain log := by
  have hnext : chain (log.take (n.pos + 1)) = c :: g.transcript := by
    rw [chain_take_succ ha, h.chain_take_eq hlog hg ha hbase, extendChain]
    simp [hc, GroupMessage.epoch, hbase]
  rw [← hnext]
  exact chain_take_suffix_self log _

end

/-- Outputs that leave the log alone and only deliver Welcomes on the chain. -/
def Harmless (creator : String) (log : List Accepted) (o : Output) : Prop :=
  (∀ m ms, o ≠ .toGroup m ms) ∧
    ∀ recipient w, o = .welcome recipient w → Opens creator log w.welcome

lemma harmless_of_isLocal {o : Output} (h : o.isLocal = true) : Harmless creator log o := by
  refine ⟨?_, ?_⟩ <;> rintro x y rfl <;> simp [Output.isLocal] at h

lemma foldl_deliver (os : List Output) (srv : Server) (h : ∀ o ∈ os, Harmless creator srv.log o)
    (hqueue : ∀ x, ∀ w ∈ srv.welcomeQueue x, Opens creator srv.log w.welcome) :
    (os.foldl Server.deliver srv).log = srv.log ∧
      (os.foldl Server.deliver srv).epoch = srv.epoch ∧
      ∀ x, ∀ w ∈ (os.foldl Server.deliver srv).welcomeQueue x, Opens creator srv.log w.welcome := by
  induction os generalizing srv with
  | nil => exact ⟨rfl, rfl, hqueue⟩
  | cons o os ih =>
    have ho := h o (.head _ ..)
    have hos : ∀ o' ∈ os, Harmless creator srv.log o' :=
      fun o' ho' => h o' (.tail _ ho')
    cases o with
    | toGroup m ms => exact absurd rfl (ho.1 m ms)
    | welcome recipient w =>
      refine ih (srv.sendWelcome recipient w) hos fun x w' hw' => ?_
      by_cases hx : x = recipient
      · subst hx
        simp only [Server.sendWelcome, update_self, mem_append, mem_singleton] at hw'
        rcases hw' with hw' | rfl
        · exact hqueue x w' hw'
        · exact ho.2 x w' rfl
      · simp only [Server.sendWelcome, update_of_ne hx] at hw'
        exact hqueue x w' hw'
    | groupInfo t | subscribe | unsubscribe | ack | record r => exact ih srv hos hqueue

lemma NetInv.handled (h : NetInv creator net) {n' : Node}
    (hn : NodeInv creator name net.server.log { n' with user := r.user, alive := r.error.isNone })
    (hout : ∀ o ∈ r.outputs, Harmless creator net.server.log o) :
    NetInv creator (net.handled name n' (.ok r)) := by
  obtain ⟨hlog, hepoch, hqueue⟩ := foldl_deliver r.outputs net.server hout h.queue
  refine ⟨?_, ?_, ?_, fun x => ?_⟩
  all_goals simp only [Net.handled, hlog, hepoch]
  · exact h.log
  · exact h.epoch
  · exact hqueue
  · by_cases hx : x = name
    · subst hx
      simpa using hn
    · simpa [hx] using h.node x

lemma NodeInv.advance (h : NodeInv creator name log n) (hpos : n.pos < n.drained) {u' : User}
    {alive : Bool} (hname : u'.username = name)
    (hgroup : ∀ g, u'.group = some g → g.creator = creator ∧ g.transcript <:+ chain log)
    (hslot : u'.pendingCommit = none ∨ u'.pendingCommit = n.user.pendingCommit)
    (hlive : alive = true → Live name log { n with user := u', pos := n.pos + 1 }) :
    NodeInv creator name log { n with user := u', alive := alive, pos := n.pos + 1 } := by
  refine ⟨hname, ⟨hpos, h.bound.2⟩, hgroup, h.welcomes, fun en sw hen hsw => ?_, fun halive => ?_⟩
  · rcases hslot with hslot | hslot
    · exact absurd (hslot.symm.trans hen) (by simp)
    · exact h.stored en sw (hslot ▸ hen) hsw
  · obtain ⟨hfresh, hmember, hecho, hpending, hown⟩ := hlive halive
    exact ⟨hfresh, hmember, hecho, hpending, hown⟩

section

variable (hcfg : cfg.agent = .independent) (h : NetInv creator net)
include hcfg h

section

variable (halive : (net.nodes name).alive = true)
include halive

lemma NetInv.welcome {w : WelcomeMessage} {ws : List WelcomeMessage}
    (hok : Orderly net (.handle name env)) (hw : (net.nodes name).welcomes = w :: ws)
    (hr : (net.nodes name).user.processWelcome cfg env w = .ok r) :
    NetInv creator (net.handled name { net.nodes name with welcomes := ws } (.ok r)) := by
  have hn := h.node name
  have hlive := hn.live halive
  obtain ⟨⟨hname, hslot⟩, hout, hgroup⟩ := processWelcome_independent hcfg hr
  have hws : ∀ w' ∈ ws, Opens creator net.server.log w'.welcome :=
    fun w' hw' => hn.welcomes w' (hw ▸ .tail _ hw')
  have hstored : ∀ en sw, r.user.pendingCommit = some en → en.welcome = some sw →
      Opens creator net.server.log sw.welcome := by
    rw [hslot]
    exact hn.stored
  refine h.handled ?_ fun o ho => harmless_of_isLocal (hout o ho).1
  rcases hgroup with hgroup | ⟨c, t, ht, hadd, hgroup⟩
  · refine ⟨hname.trans hn.username, hn.bound, ?_, hws, hstored, fun _ => ⟨?_, ?_, ?_, ?_, ?_⟩⟩
    all_goals simp only [hgroup, hslot]
    · exact hn.group
    · exact hlive.fresh
    · exact hlive.member
    · exact hlive.echo
    · exact hlive.pending
    · exact hlive.own
  · obtain ⟨hcreator, hsuffix⟩ := hn.welcomes w (hw ▸ .head _ ..)
    refine ⟨hname.trans hn.username, hn.bound, ?_, hws, hstored, fun _ => ⟨?_, ?_, ?_, ?_, ?_⟩⟩
    all_goals simp only [hgroup, hslot]
    · rintro _ ⟨rfl⟩
      exact ⟨hcreator, hsuffix⟩
    · rintro _ i a ⟨rfl⟩ ha hcommit hepoch
      exact (hok w ws hw i a ha hcommit).1 hepoch
    · rintro _ ⟨rfl⟩
      rw [hn.username] at hadd
      simp [MlsGroup.members, ht, roster, Commit.apply, hadd]
    · exact hlive.echo
    · rintro _ _ c' - ⟨rfl⟩ hs
      simp at hs
    · rintro _ i a c' ⟨rfl⟩ hi ha hsender hc'
      exact absurd hsender ((hok w ws hw i a ha ⟨c', hc'⟩).2 hi)

section

variable (hpos : (net.nodes name).pos < (net.nodes name).drained)
  (ha : net.server.log[(net.nodes name).pos]? = some a)
include hpos ha

lemma NetInv.echo (hsender : a.message.sender = name)
    (hr : (net.nodes name).user.confirmCommit cfg env = .ok r) :
    NetInv creator (net.handled name
      { net.nodes name with pos := (net.nodes name).pos + 1 } (.ok r)) := by
  have hn := h.node name
  have hlive := hn.live halive
  cases confirmCommit_independent hcfg hr with
  | empty hslot =>
    refine h.handled (hn.advance hpos hn.username hn.group (.inr rfl) fun _ => ?_) (by simp)
    obtain ⟨hfresh, hmember, hecho, hpending, hown⟩ := hlive.echoed ha hsender (.inl hslot)
    exact ⟨hfresh, hmember, by simp [hslot], by simp [hslot], by simpa [hslot] using hown⟩
  | groupless hslot hg =>
    exact h.handled (hn.advance hpos hn.username (by simp) (.inl rfl) (by simp)) (by simp)
  | @confirmed en g g' _ hslot hg hmerge huser hout =>
    rw [hn.username] at hmerge
    refine h.handled ?_ fun o ho => ?_
    · rw [huser]
      rcases mergePendingCommit_cases hmerge with ⟨hop, rfl⟩ | ⟨c, hstate, rfl⟩
      · refine hn.advance hpos hn.username ?_ (.inl rfl) fun _ => ?_
        · rintro _ ⟨rfl⟩
          exact hn.group g' hg
        · rw [← hg]
          refine hlive.echoed ha hsender (.inr fun g c hg1 hs => ?_)
          obtain rfl := Option.mem_unique hg hg1
          simp [hop] at hs
      · -- the only own message on its way is the commit itself
        obtain ⟨i, b, hi, hb, hm, huniq⟩ := hlive.pending en g c hslot hg hstate
        obtain rfl := huniq _ a le_rfl ha hsender
        obtain rfl := Option.mem_unique ha hb
        have hown : name ∉ c.removes := by
          have hproper := (h.log.proper a (mem_of_getElem? ha) c (by rw [hm])).1
          rwa [hsender] at hproper
        have hbase : a.message.base = g.transcript := by rw [hm]
        refine hn.advance hpos hn.username ?_ (.inl rfl) fun _ =>
          hlive.merge h.log hg ha hbase hown (.inl rfl)
        rintro _ ⟨rfl⟩
        exact ⟨(hn.group g hg).1, hlive.merge_suffix h.log hg ha hbase (by rw [hm])⟩
    · obtain ⟨sw, recipient, hsw, rfl⟩ | ⟨rfl, -⟩ | ⟨epoch, numUsers, rfl⟩ := hout o ho
      · refine ⟨by simp, ?_⟩
        rintro _ _ ⟨rfl, rfl⟩
        exact hn.stored en sw hslot hsw
      · exact ⟨by simp, by simp⟩
      · exact ⟨by simp, by simp⟩

lemma NetInv.other (hsender : a.message.sender ≠ name)
    (hr : (net.nodes name).user.processProtocolMessage cfg env a.message = .ok r) :
    NetInv creator (net.handled name
      { net.nodes name with pos := (net.nodes name).pos + 1 } (.ok r)) := by
  have hn := h.node name
  have hlive := hn.live halive
  obtain ⟨-, hlocal, -⟩ := processProtocolMessage_independent hcfg hr
  refine h.handled ?_ fun o ho => harmless_of_isLocal (hlocal o ho).1
  cases processProtocolMessage_cases hr with
  | ignored active hother hrecords =>
    refine hn.advance hpos hn.username hn.group (.inr rfl) fun _ => ?_
    obtain ⟨hfresh, hmember, hecho, hpending, hown⟩ := hlive.skip ha hsender
      fun g hg ⟨c, hc⟩ hepoch => hother g c hg hc (h.log.base_eq ha (hn.group g hg).2 hepoch)
    exact ⟨hfresh, hmember, hecho, hpending, hown⟩
  | failed e => exact hn.advance hpos hn.username hn.group (.inr rfl) (by simp)
  | @stored g p hg hm =>
    have hkeep : NodeInv creator name net.server.log { net.nodes name with
        user := { (net.nodes name).user with group := some (g.storePendingProposal p) } } :=
      hn.keep rfl rfl (by
        rintro _ ⟨rfl⟩
        exact ⟨g, hg, rfl, rfl, rfl⟩)
    refine hkeep.advance hpos hn.username hkeep.group (.inr rfl) fun _ => ?_
    refine (hkeep.live halive).skip ha hsender fun _ _ ⟨c, hc⟩ => ?_
    simp [processMessage_content hm] at hc
  | @committed g c _ hg hm hr' =>
    obtain ⟨hc, hbase, -⟩ := processMessage_commit hm
    obtain ⟨huser | ⟨hown, huser⟩, -⟩ := processCommitMessage_independent hcfg hr'
    · have hkeep : NodeInv creator name net.server.log { net.nodes name with
          user := { (net.nodes name).user with group := none } } := hn.keep rfl rfl (by simp)
      rw [huser]
      exact hkeep.advance hpos hn.username (by simp) (.inr rfl)
        fun _ => (hkeep.live halive).skip ha hsender (by simp)
    · rw [hn.username] at hown
      rw [huser, show g.mergeStagedCommit (net.nodes name).user.username c =
        g.mergeStagedCommit name c by rw [hn.username]]
      refine hn.advance hpos hn.username ?_ (.inr rfl) fun _ =>
        hlive.merge h.log hg ha hbase hown (.inr ⟨rfl, hsender⟩)
      rintro _ ⟨rfl⟩
      exact ⟨(hn.group g hg).1, hlive.merge_suffix h.log hg ha hbase hc⟩

end

end

lemma NetInv.handle (hok : Orderly net (.handle name env))
    (hstep : Net.step cfg net (.handle name env) = some net') : NetInv creator net' := by
  have hn := h.node name
  simp only [Net.step] at hstep
  by_cases halive : (net.nodes name).alive = true
  swap
  · simp [halive] at hstep
  rw [if_pos halive] at hstep
  split at hstep
  · next w ws hw =>
      cases hstep
      cases hr : (net.nodes name).user.processInMessage cfg env (.welcome w) with
      | error f =>
        refine h.setNode ⟨hn.username, hn.bound, hn.group, fun w' hw' => ?_, hn.stored, by simp⟩
        exact hn.welcomes w' (hw ▸ .tail _ hw')
      | ok r =>
        simp only [User.processInMessage] at hr
        split_ifs at hr
        exact h.welcome hcfg halive hok hw hr
  · by_cases hpos : (net.nodes name).pos < (net.nodes name).drained
    swap
    · simp [hpos] at hstep
    cases ha : net.server.log[(net.nodes name).pos]? with
    | none => simp [ha] at hstep
    | some a =>
      simp only [ha] at hstep
      split_ifs at hstep with haddr
      · cases hstep
        cases hr : (net.nodes name).user.processInMessage cfg env (.group a.message) with
        | error f =>
          exact h.setNode (hn.advance hpos hn.username hn.group (.inr rfl) (by simp))
        | ok r =>
          simp only [processInMessage, hn.username] at hr
          split_ifs at hr with hsender
          · exact h.echo hcfg halive hpos ha hsender hr
          · exact h.other hcfg halive hpos ha hsender hr
      · -- a commit of the epoch of the user would be addressed to it
        cases hstep
        obtain ⟨hrec, hsender⟩ := not_or.mp haddr
        refine h.setNode (hn.advance hpos hn.username hn.group (.inr rfl) fun _ => ?_)
        refine (hn.live halive).skip ha hsender fun g hg hcommit hepoch => ?_
        obtain ⟨c, hc⟩ := hcommit
        have hmem := (hn.live halive).member g hg
        rw [MlsGroup.members, (hn.group g hg).1,
          ← h.log.base_eq ha (hn.group g hg).2 hepoch] at hmem
        rcases (h.log.proper a (mem_of_getElem? ha) c hc).2 name hmem with hs | hs
        · exact hsender hs.symm
        · exact hrec hs

end

lemma NetInv.recv (cfg : Config) (h : NetInv creator net)
    (hstep : Net.step cfg net (.recv name) = some net') : NetInv creator net' := by
  have hn := h.node name
  simp only [Net.step] at hstep
  split_ifs at hstep with hidle
  cases hstep
  refine ⟨h.log, h.epoch, fun x w hw => ?_, fun x => ?_⟩
  · by_cases hx : x = name
    · subst hx
      simp at hw
    · simp only [update_of_ne hx] at hw
      exact h.queue x w hw
  · by_cases hx : x = name
    · subst hx
      simp only [update_self]
      refine ⟨hn.username, ⟨hn.bound.1.trans hn.bound.2, le_rfl⟩, hn.group, h.queue x, hn.stored,
        fun halive => ?_⟩
      obtain ⟨hfresh, hmember, hecho, hpending, hown⟩ := hn.live halive
      exact ⟨hfresh, hmember, hecho, hpending, hown⟩
    · simpa [hx] using h.node x

/-! ## Runs -/

lemma netInv_init (hinit : (requestNet cfg creator).init net) : NetInv creator net := by
  obtain ⟨hserver, hnodes⟩ := hinit
  refine ⟨?_, ?_, ?_, fun name => ?_⟩
  all_goals rw [hserver]
  · exact ⟨by simp, by simp⟩
  · simp
  · simp
  · rw [hnodes name]
    split_ifs with hname
    · subst hname
      refine ⟨rfl, by simp, ?_, by simp, by simp [new], fun _ =>
        ⟨by simp, ?_, by simp [new], by simp [new], by simp⟩⟩
      · rintro _ ⟨rfl⟩
        exact ⟨rfl, nil_suffix⟩
      · rintro _ ⟨rfl⟩
        simp [MlsGroup.members, MlsGroup.create, roster]
    · unfold new
      exact ⟨rfl, by simp, by simp, by simp, by simp, fun _ =>
        ⟨by simp, by simp, by simp, by simp, by simp⟩⟩

lemma netInv_of_reaches (hcfg : cfg.agent = .independent)
    (h : (requestNet cfg creator).Reaches Orderly net) : NetInv creator net := by
  refine h.invariant (fun s hs => netInv_init hs) fun s e s' hs hok hstep => ?_
  cases e with
  | recv name => exact hs.recv cfg hstep
  | handle name env => exact hs.handle hcfg hok hstep
  | act name env id k => exact hs.act hcfg hok hstep

/-- **Convergence.**  In every orderly run, users at the same epoch have the same history. -/
theorem convergence (hcfg : cfg.agent = .independent)
    (h : (requestNet cfg creator).Reaches Orderly net) {x y : String} {g g' : MlsGroup}
    (hx : (net.nodes x).user.group = some g) (hy : (net.nodes y).user.group = some g')
    (hepoch : g.epoch = g'.epoch) : g.transcript = g'.transcript := by
  have hinv := netInv_of_reaches hcfg h
  exact eq_of_suffix ((hinv.node x).group g hx).2 ((hinv.node y).group g' hy).2 hepoch

lemma orderly_handle_of_nil (h : (net.nodes name).welcomes = []) :
    Orderly net (.handle name env) := by
  intro w ws hw
  simp [h] at hw

def created : Net where
  nodes name := ⟨if name = "A" then { new name with
      group := some (MlsGroup.create "A"), active := some (true, 0) } else new name,
    true, 0, 0, []⟩
  server := ⟨none, [], fun _ => []⟩

/-- `A` has invited `B`, its invitation has come back and `B` has fetched the Welcome. -/
def invited : Net :=
  [.act "A" Env.fine 0 (.invite "B"), .recv "A", .handle "A" Env.fine, .recv "B"].foldl
    (requestNet Solo.soloConfig "A").next created

/-- `B` joins: `A` and `B` are at epoch 1 and have the same history. -/
theorem convergence_joined :
    ∃ net g g', (requestNet Solo.soloConfig "A").Reaches Orderly net ∧
      (net.nodes "A").user.group = some g ∧ (net.nodes "B").user.group = some g' ∧
      g.epoch = 1 ∧ g'.epoch = 1 ∧ g.transcript = g'.transcript := by
  have hinvite : Orderly created (.act "A" Env.fine 0 (.invite "B")) := by
    rintro _ ⟨rfl⟩
    exact ⟨by simp [NoneAccepted, created], by simp [MlsGroup.create]⟩
  have h0 : (requestNet Solo.soloConfig "A").Reaches Orderly created :=
    .init ⟨rfl, fun _ => rfl⟩
  have h2 := (h0.next hinvite).next (e := .recv "A") trivial
  have h3 := h2.next (e := .handle "A" Env.fine) (orderly_handle_of_nil (by decide +kernel))
  have h4 : (requestNet Solo.soloConfig "A").Reaches Orderly invited :=
    h3.next (e := .recv "B") trivial
  have hlog : invited.server.log = [⟨⟨"A", [], .commit Solo.joining⟩, ["B"]⟩] := by decide +kernel
  have hpos : (invited.nodes "B").pos = 0 := by decide +kernel
  have h5 := h4.next (e := .handle "B" Env.fine) (fun w ws _ i a ha _ => by
    rw [hlog] at ha
    obtain rfl := mem_singleton.mp (mem_of_getElem? ha)
    exact ⟨fun _ => hpos ▸ Nat.zero_le i, fun _ => by decide⟩)
  have hA : (((requestNet Solo.soloConfig "A").next invited (.handle "B" Env.fine)).nodes
      "A").user.group = some ⟨"A", [Solo.joining], [], .operational⟩ := by decide +kernel
  have hB : (((requestNet Solo.soloConfig "A").next invited (.handle "B" Env.fine)).nodes
      "B").user.group = some ⟨"A", [Solo.joining], [], .operational⟩ := by decide +kernel
  exact ⟨_, _, _, h5, hA, hB, rfl, rfl, convergence (by rfl) h5 hA hB rfl⟩

/-- **Two users in private epochs.**  `A`'s update and `B`'s invitation of `C` race for epoch 1.
    The service takes both, but `B` has merged its own before sending it. -/
theorem invite_diverges :
    ∃ net g g', (requestNet Solo.soloConfig "A").run created
        [.act "A" Env.fine 0 (.invite "B"), .recv "A", .handle "A" Env.fine, .recv "B",
          .handle "B" Env.fine, .handle "B" Env.fine, .act "A" Env.fine 1 .updateState,
          .act "B" Env.fine 2 (.invite "C"), .recv "A", .handle "A" Env.fine] = some net ∧
      (net.nodes "A").user.group = some g ∧ (net.nodes "B").user.group = some g' ∧
      g.epoch = g'.epoch ∧ g.transcript ≠ g'.transcript := by
  simp only [exists_and_left]
  decide +kernel

end Net

end EmulatedMls.Client
