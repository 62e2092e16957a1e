import EmulatedMls.Client.CommitRight
import EmulatedMls.Orchestrator.Shape

/-!
# Who holds the group and who has a seat

An orchestrated user keeps the group as long as the orchestrator gives it a seat in `known_members`:
a member that handles a commit and has no seat afterwards drops the group and its subscription, and
so does a joiner.  The committer does not look at the outcome of its own commit.

**Condition.**  Runs are paced, and nobody invites a user into its own seat: when all seats are
taken, the slot that is drawn for the new member is not that of the committer.

**Seats.**  Every member of the vector has got its seat by a commit that added it, so it is reached
by a Welcome; from there on it follows the topic.  `Expects` says how far it is: it holds the group
with some history, or a Welcome into that history is on its way, and it has had a seat ever since.

**Strangers.**  A user that no commit adds never does anything, so it is enough to look at the
creator and the added members to see that everybody has handled everything.
-/

namespace EmulatedMls

open Exec List Option

variable {o : Orchestrator} {total : ℕ} {out : Outcome}

namespace Orchestrator

lemma processCommit_inactive_iff {R : Rng} {fuel : ℕ} {seed : List UInt8} {newMembers : List String}
    (h : processCommit R fuel o seed total newMembers = .ok out) :
    out.action = .inactive ↔ o.name ∉ out.orchestrator.knownMembers := by
  obtain ⟨known, -, ⟨hout, rfl⟩ | ⟨pos, who, hpos, -, rfl⟩⟩ := processCommit_cases h
  · exact iff_of_true rfl hout
  · have hmem : o.name ∈ known := mem_of_getElem? (getElem?_of_position hpos)
    refine iff_of_false ?_ (by simpa using hmem)
    unfold conclude
    dsimp only
    split_ifs <;> simp

end Orchestrator

namespace Client

open Orchestrator

variable {S : Setting} {name : String}

/-! ## Seats -/

/-- The user has a seat in the vector of a history. -/
def InVector (S : Setting) (t : Transcript) (x : String) : Prop :=
  ∃ known, S.vectorOf t = .ok known ∧ x ∈ known

variable {known : List String} {t : Transcript} {c : Commit} {x : String}

lemma mem_of_mem_unseat {params : OrchestratedParameters} {names : List String} (hx : x ≠ "")
    (h : x ∈ unseat params names known) : x ∈ known ∧ x ∉ names := by
  rcases mem_append.mp h with h | h
  · simpa using mem_of_mem_take h
  · exact absurd (eq_of_mem_replicate h) hx

/-- **Where a seat comes from**: an earlier history or the newest commit. -/
lemma InVector.cons (h : InVector S (c :: t) x) (hx : x ≠ "") :
    (InVector S t x ∧ x ∉ c.removes) ∨ x ∈ c.adds := by
  obtain ⟨known, hvec, hmem⟩ := h
  obtain ⟨start, hstart, gen, hseat⟩ := Setting.vectorOf_eq_ok.mp hvec
  obtain ⟨known0, hvec0, hstart⟩ := bind_inv hstart
  cases hstart
  rcases mem_of_mem_seatMembers hseat hmem with hmem | hmem
  · obtain ⟨hmem, hstays⟩ := mem_of_mem_unseat hx hmem
    exact .inl ⟨⟨known0, hvec0, hmem⟩, hstays⟩
  · exact .inr hmem

/-- The slot that is drawn for a member that is added to the history `t` is not the given user's, or
    there is a free seat. -/
def Spares (cfg : Config) (p : OrchestratedParameters) (known : List String) (total : ℕ)
    (t : Transcript) (x : String) : Prop :=
  activeCount known < p.maxActiveProcessers ∨
    ∀ slot gen, sample cfg.rng p total (cfg.rng.fromSeed (seedArray (cfg.transcriptHash t))) =
      .ok (slot, gen) → known[slot]? ≠ some x

/-- **A commit that spares a member leaves it its seat.** -/
lemma mem_vectorOf_cons {known' xs : List String}
    (hvec : S.vectorOf t = .ok known) (hpad : Padded known xs)
    (hmem : x ∈ known) (hx : x ≠ "") (hstays : x ∉ c.removes)
    (hspares : c.adds = [] ∨ ∃ y, y ≠ "" ∧ c.adds = [y] ∧ c.removes = [] ∧
      Spares S.cfg S.params known (roster S.creator (c :: t)).length (c :: t) x)
    (hvec' : S.vectorOf (c :: t) = .ok known') :
    x ∈ known' ∧ ∃ xs', Padded known' xs' := by
  obtain ⟨start, hstart, gen, hseat⟩ := Setting.vectorOf_eq_ok.mp hvec'
  obtain rfl := Exec.unique (Setting.startOf_cons hvec) hstart
  have hlen := Setting.length_of_vectorOf hvec
  have hunseat : Padded (unseat S.params c.removes known) _ := (hpad.filter _).resize _
  rcases hspares with hnone | ⟨y, hy, hadds, hremoves, hspares⟩
  · rw [Setting.newcomers, hnone] at hseat
    cases hseat
    refine ⟨mem_append_left _ ?_, _, hunseat⟩
    rw [take_of_length_le ((length_filter_le _ _).trans hlen.le)]
    exact mem_filter.mpr ⟨hmem, by simpa using hstays⟩
  · rw [Setting.newcomers, hadds] at hseat
    obtain ⟨xs', hpad', -⟩ := seatMembers_padded hunseat (by simpa using hy.symm) hseat
    refine ⟨?_, xs', hpad'⟩
    rw [hremoves, unseat_nil hlen] at hseat
    obtain ⟨⟨slot, gen1⟩, hsample, hseat⟩ := bind_inv hseat
    obtain ⟨known2, hone, hseat⟩ := bind_inv hseat
    cases hseat
    exact mem_seat hpad hlen hy hmem hx (hspares.imp_right fun hslot => hslot _ _ hsample) hone

/-- The user has had a seat from a history on, up to the end of the topic. -/
def Kept (S : Setting) (topic : List GroupMessage) (x : String) (t : Transcript) : Prop :=
  t <:+ history topic ∧ ∀ t', t <:+ t' → t' <:+ history topic → InVector S t' x

section Kept

variable {topic : List GroupMessage} {x : String} {t t' : Transcript}

lemma Kept.self (h : Kept S topic x t) : InVector S t x :=
  h.2 t suffix_rfl h.1

lemma Kept.later (h : Kept S topic x t) (hlater : t <:+ t')
    (hsuffix : t' <:+ history topic) : Kept S topic x t' :=
  ⟨hsuffix, fun t'' ht'' => h.2 t'' (hlater.trans ht'')⟩

lemma Kept.grow (h : Kept S topic x t) {m : GroupMessage} {c : Commit}
    (hm : m.content = .commit c) (hin : InVector S (c :: history topic) x) :
    Kept S (topic ++ [m]) x t := by
  rw [Kept, history_append hm]
  refine ⟨h.1.trans (suffix_cons _ _), fun t' ht ht' => ?_⟩
  rcases suffix_cons_iff.mp ht' with rfl | ht'
  · exact hin
  · exact h.2 t' ht ht'

lemma Kept.last (hin : InVector S (history topic) x) : Kept S topic x (history topic) := by
  refine ⟨suffix_rfl, fun t' ht ht' => ?_⟩
  rwa [ht'.eq_of_length_le ht.length_le]

end Kept

/-! ## Replicas -/

lemma Seated.inVector_iff (h : Seated S name o t) : InVector S t name ↔ name ∈ o.knownMembers := by
  constructor
  · rintro ⟨known, hknown, hmem⟩
    obtain rfl := Exec.unique h.vector hknown
    exact hmem
  · exact fun hmem => ⟨_, h.vector, hmem⟩

/-- **A replica goes inactive exactly when it has no seat.** -/
lemma Replica.inactive_iff (h : Replica S name t o out) :
    out.action = .inactive ↔ ¬ InVector S t name := by
  rw [h.seated.inVector_iff, processCommit_inactive_iff h.commit, h.named]

lemma TakesIn.inactive_iff {o' : Orchestrator} {action : NextAction}
    (h : TakesIn S name t c o o' action) (hown : name ∉ c.removes) (hin : InVector S t name) :
    action = .inactive ↔ ¬ InVector S (c :: t) name := by
  obtain ⟨o1, out, hreplica, -, -, rfl⟩ := h.replica hown (.inr (h.seated.inVector_iff.mp hin))
  exact hreplica.inactive_iff

variable {g : MlsGroup} {u : User}

def Peer.Subscribed (p : Peer) : Prop := p.requested = true ∨ p.pos.isSome = true

instance (p : Peer) : Decidable p.Subscribed :=
  inferInstanceAs (Decidable (p.requested = true ∨ p.pos.isSome = true))

lemma Peer.Subscribed.follow {p : Peer} {r : Result} (h : p.Subscribed)
    (hr : .unsubscribe ∉ r.outputs) : (p.follow r).Subscribed := by
  rcases h with h | h
  · exact .inl (by simp [Peer.follow, h])
  · exact .inr (by simpa [Peer.follow, hr] using h)

namespace PubSub

variable {s s' : PubSub}

/-- The user holds the group or is welcomed, with a history since which it has had a seat. -/
def Expects (S : Setting) (s : PubSub) (x : String) : Prop :=
  ∃ t, Kept S s.topic x t ∧
    ((∃ g, (s.peers x).user.group = some g ∧ g.transcript = t) ∨
      ∃ w ∈ s.welcomes x, w.welcome.transcript = t)

/-- The user has the group and has asked for its topic. -/
def Holds (s : PubSub) (x : String) : Prop :=
  (s.peers x).user.group.isSome = true ∧
    (s.peers x).Subscribed

instance (s : PubSub) (x : String) : Decidable (Holds s x) :=
  inferInstanceAs (Decidable ((s.peers x).user.group.isSome = true ∧ (s.peers x).Subscribed))

/-- The condition on a step: it is paced, and an invitation spares the user that makes it.  Users
    that act or are invited have a name. -/
def Lasting (cfg : Config) (s : PubSub) (e : Event) : Prop :=
  Paced s e ∧ match e with
    | .act name _ id k => name ≠ "" ∧ ∀ x, k = .invite x → x ≠ "" ∧
        ∀ g o, (s.peers name).user.group = some g → (s.peers name).user.orchestrator = some o →
          Spares cfg o.parameters o.knownMembers (g.members.length + 1)
            (⟨id, name, [x], [], []⟩ :: g.transcript) name
    | _ => True

structure Placed (S : Setting) (s : PubSub) : Prop where
  exclusive : Exclusive S s
  vector : ∃ known xs, S.vectorOf (history s.topic) = .ok known ∧ Padded known xs
  seat : ∀ x g, (s.peers x).user.group = some g → InVector S g.transcript x
  topic : ∀ x, (s.peers x).user.group.isSome = true → (s.peers x).Subscribed
  expects : ∀ x, x ≠ "" → (s.peers x).alive = true → InVector S (history s.topic) x →
    Expects S s x

variable {p : Peer} {m : GroupMessage} {env : Env} {r : Result} {i : ℕ} {w : WelcomeMessage}
  {e : Event}

lemma handled_self (s : PubSub) (name : String) (p : Peer) (r : Result) :
    ((s.handled name p (.ok r)).peers name).user = r.user ∧
      (((s.handled name p (.ok r)).peers name).Subscribed ↔ (p.follow r).Subscribed) ∧
      (((s.handled name p (.ok r)).peers name).alive = true → p.alive = true ∧ r.error = none) := by
  simp only [PubSub.handled, PubSub.publish, Function.update_self]
  split_ifs with herror
  · exact ⟨rfl, Iff.rfl, fun h => ⟨h, by simpa using herror⟩⟩
  · exact ⟨rfl, Iff.rfl, fun h => by cases h⟩

/-- **What is left of the expectation when a Welcome is taken.** -/
lemma Expects.taken (h : Expects S s name) (hright : RightInv S s.topic name (s.peers name))
    (hw : (s.welcomes name)[i]? = some w) (hannounced : w.welcome.transcript <:+ history s.topic)
    (hnew : (s.peers name).reached ≤ w.welcome.transcript.length) :
    Kept S s.topic name w.welcome.transcript ∨
      ∃ w' ∈ (s.welcomes name).eraseIdx i,
        Kept S s.topic name w'.welcome.transcript := by
  obtain ⟨t, hkept, ⟨g, hg, rfl⟩ | ⟨w', hw', rfl⟩⟩ := h
  · -- the group is older than the Welcome
    have hreached := (hright.quiet g hg).2.2
    rw [MlsGroup.epoch] at hreached
    exact .inl (hkept.later (suffix_of_suffix_length_le hkept.1 hannounced (by omega)) hannounced)
  · obtain ⟨j, hj⟩ := mem_iff_getElem?.mp hw'
    by_cases hji : j = i
    · subst hji
      obtain rfl := mem_unique hw hj
      exact .inl hkept
    · exact .inr ⟨w', mem_eraseIdx_iff_getElem?.mpr ⟨j, hji, hj⟩, hkept⟩

section Placed

variable (h : Placed S s)
include h

lemma Placed.of_peer (name : String) (hexclusive : Exclusive S s') (htopic : s'.topic = s.topic)
    (hothers : ∀ x, x ≠ name → s'.peers x = s.peers x ∧ s'.welcomes x = s.welcomes x)
    (hseat : ∀ g, (s'.peers name).user.group = some g →
      InVector S g.transcript name ∧
        (s'.peers name).Subscribed)
    (hexpects : (s'.peers name).alive = true → name ≠ "" → (s.peers name).alive = true ∧
      (Expects S s name → Expects S s' name)) :
    Placed S s' := by
  refine ⟨hexclusive, htopic ▸ h.vector, fun x g hg => ?_, fun x hx => ?_,
    fun x hne halive hin => ?_⟩
  · by_cases hx : x = name
    · subst hx
      exact (hseat g hg).1
    · rw [(hothers x hx).1] at hg
      exact h.seat x g hg
  · by_cases hx' : x = name
    · subst hx'
      obtain ⟨g, hg⟩ := isSome_iff_exists.mp hx
      exact (hseat g hg).2
    · rw [(hothers x hx').1] at hx ⊢
      exact h.topic x hx
  · rw [htopic] at hin
    by_cases hx : x = name
    · subst hx
      obtain ⟨halive', hkeep⟩ := hexpects halive hne
      exact hkeep (h.expects x hne halive' hin)
    · rw [(hothers x hx).1] at halive
      obtain ⟨t, hkept, hway⟩ := h.expects x hne halive hin
      refine ⟨t, htopic ▸ hkept, ?_⟩
      rwa [(hothers x hx).1, (hothers x hx).2]

/-- A step of a user that keeps its group keeps everything, also if the user stops. -/
lemma Placed.same_group (name : String) (hexclusive : Exclusive S s') (htopic : s'.topic = s.topic)
    (hothers : ∀ x, x ≠ name → s'.peers x = s.peers x ∧ s'.welcomes x = s.welcomes x)
    (hgroup : (s'.peers name).user.group = (s.peers name).user.group)
    (hsub : (s.peers name).Subscribed → (s'.peers name).Subscribed)
    (halive : (s'.peers name).alive = true →
      (s.peers name).alive = true ∧ s'.welcomes name = s.welcomes name) : Placed S s' := by
  refine h.of_peer name hexclusive htopic hothers (fun g hg => ?_) fun hstill _ =>
    ⟨(halive hstill).1, ?_⟩
  · rw [hgroup] at hg
    exact ⟨h.seat name g hg, hsub (h.topic name (by simp [hg]))⟩
  · rintro ⟨t, hkept, hway⟩
    refine ⟨t, htopic ▸ hkept, ?_⟩
    rwa [hgroup, (halive hstill).2]

lemma Placed.setPeer (hexclusive : Exclusive S (s.setPeer name p))
    (hgroup : p.user.group = (s.peers name).user.group)
    (hsub : (s.peers name).Subscribed → p.Subscribed)
    (halive : p.alive = true → (s.peers name).alive = true) : Placed S (s.setPeer name p) := by
  refine h.same_group name hexclusive rfl (fun x hx => ?_) ?_ ?_ ?_
  · simp [PubSub.setPeer, hx]
  all_goals simpa [PubSub.setPeer]

/-! ## Own commits -/

/-- **A commit of the user that has the right** welcomes everyone who is new in the vector. -/
lemma Placed.publish {c : Commit} {os : List Output}
    (hexclusive : Exclusive S (s.publish name p os)) (hm : m.content = .commit c)
    (hsent : sentBy os = [m]) (hg : p.user.group = some g)
    (ht : g.transcript = c :: history s.topic) {known xs : List String} (hsub : p.Subscribed)
    (hvec : S.vectorOf (c :: history s.topic) = .ok known) (hpad : Padded known xs)
    (hmem : name ∈ known)
    (hadds : ∀ x ∈ c.adds, ∃ w, .welcome x w ∈ os ∧ w.welcome.transcript = c :: history s.topic) :
    Placed S (s.publish name p os) := by
  have htopic : (s.publish name p os).topic = s.topic ++ [m] := by simp [PubSub.publish, hsent]
  have hhistory : history (s.publish name p os).topic = c :: history s.topic := by
    rw [htopic, history_append hm]
  have hself : (s.publish name p os).peers name = p := by simp [PubSub.publish]
  have hothers : ∀ x, x ≠ name → (s.publish name p os).peers x = s.peers x := fun x hx => by
    simp [PubSub.publish, hx]
  have hlast : ∀ x, InVector S (c :: history s.topic) x →
      Kept S (s.publish name p os).topic x (c :: history s.topic) := by
    intro x hx
    rw [← hhistory] at hx ⊢
    exact Kept.last hx
  have hin : InVector S (c :: history s.topic) name := ⟨known, hvec, hmem⟩
  refine ⟨hexclusive, ⟨known, xs, hhistory ▸ hvec, hpad⟩, fun x g' hg' => ?_, fun x hx => ?_,
    fun x hne halive hx => ?_⟩
  · by_cases hx : x = name
    · subst hx
      rw [hself, hg] at hg'
      cases hg'
      exact ht ▸ hin
    · rw [hothers x hx] at hg'
      exact h.seat x g' hg'
  · by_cases hx' : x = name
    · subst hx'
      rwa [hself]
    · rw [hothers x hx'] at hx ⊢
      exact h.topic x hx
  · rw [hhistory] at hx
    by_cases hx' : x = name
    · subst hx'
      exact ⟨_, hlast x hx, .inl ⟨g, by rw [hself, hg], ht⟩⟩
    rcases hx.cons hne with ⟨hold, -⟩ | hadd
    · rw [hothers x hx'] at halive
      obtain ⟨t, hkept, hway⟩ := h.expects x hne halive hold
      refine ⟨t, htopic ▸ hkept.grow hm hx, hway.imp (fun hg' => by rwa [hothers x hx']) ?_⟩
      rintro ⟨w, hw, hwt⟩
      exact ⟨w, mem_append_left _ hw, hwt⟩
    · obtain ⟨w, hw, hwt⟩ := hadds x hadd
      exact ⟨_, hlast x hx, .inr ⟨w, mem_append_right _ (mem_welcomesTo.mpr hw), hwt⟩⟩

/-- **An invitation of the user that has the right** leaves it its seat. -/
lemma Placed.spares {id : ℕ} {k : User.Call} {g' : MlsGroup} {w : Option StoredWelcome} {a : Action}
    (hok : Lasting S.cfg s (.act name env id k)) (hg : (s.peers name).user.group = some g)
    (ho : (s.peers name).user.orchestrator = some o) (hm : m.content = .commit c)
    (hprep : User.Prepares (s.peers name).user.username id g k g' m w a) :
    c.adds = [] ∨ ∃ y, y ≠ "" ∧ c.adds = [y] ∧ c.removes = [] ∧
      Spares S.cfg S.params o.knownMembers (roster S.creator (c :: g.transcript)).length
        (c :: g.transcript) name := by
  obtain ⟨hpaced, -, hspares⟩ := hok
  have hquiet := ((h.exclusive.rights name).quiet g hg).1
  have hp := h.exclusive.agrees.peer name
  obtain ⟨hcreator, o', ho', hseated⟩ := hp.seated g hg
  obtain rfl := mem_unique ho ho'
  rw [hp.username] at hprep
  have hlists : k.Plain g.proposals → User.welcomed w = c.adds := fun hplain =>
    (hprep.lists hm hplain).2.1
  rw [hquiet] at hlists
  cases hprep with
  | @invite y c' staged hbuild =>
    obtain rfl := Content.commit.inj hm
    obtain ⟨-, hc, -⟩ := MlsGroup.buildCommit_eq_ok hbuild
    rw [hquiet] at hc
    obtain rfl : c' = ⟨id, name, [y], [], []⟩ := hc
    obtain ⟨hy, hspared⟩ := hspares y rfl
    refine .inr ⟨y, hy, rfl, rfl, ?_⟩
    have hlen : (roster S.creator (⟨id, name, [y], [], []⟩ :: g.transcript)).length =
        g.members.length + 1 := by
      simp [roster, Commit.apply, MlsGroup.members, hcreator]
    rw [hlen, ← hseated.parameters]
    exact hspared g o hg ho
  | remove hmem hbuild | updateState hbuild => exact .inl (hlists (by simp [User.Call.Plain])).symm
  | commitToProposals hkept hbuild | propose hpropose => exact hpaced.2.elim

lemma Placed.act {id : ℕ} {k : User.Call} (hok : Lasting S.cfg s (.act name env id k))
    (hstep : PubSub.step S.cfg s (.act name env id k) = some s') : Placed S s' := by
  have hexclusive := h.exclusive.step hok.1 hstep
  have hplain := h.exclusive.plain hok.1 hstep
  obtain ⟨hturn, hk⟩ := PubSub.stepped_of_step hstep
  revert hexclusive
  cases hx : (s.peers name).user.call S.cfg env id k with
  | error f =>
    exact fun hexclusive => h.setPeer hexclusive rfl (fun hsub => hsub) (by simp [Peer.stopped])
  | ok r =>
    intro hexclusive
    cases User.orchestrated_cases S.agent hok.1.1 hk hx with
    | refused e =>
      refine h.same_group name hexclusive ?_ (fun x hx => ?_) ?_ ?_ ?_
      · simp [acted, PubSub.publish, sentBy]
      · simp [acted, PubSub.publish, welcomesTo, hx]
      · simp [acted, PubSub.publish]
      · intro hsub
        simpa [acted, PubSub.publish] using hsub.follow (by simp)
      · simp [acted, PubSub.publish, Peer.follow, welcomesTo]
    | dropped hg hsub | proposed hg hpropose => exact hok.1.2.elim
    | @committed _ g g' m w a c o u' action dest hg hprep hm ho horch =>
      obtain ⟨-, -, helected, g1, hg1, ht⟩ := h.exclusive.acts hturn
      obtain rfl := mem_unique hg hg1
      have hp := h.exclusive.agrees.peer name
      obtain ⟨-, hadded, -, -⟩ := hprep.lists hm (hplain.2.1 g hg)
      obtain ⟨-, -, -, hown, hsw⟩ := hprep.of_commit hm
      obtain ⟨o1, o', ho1, rfl, htakes⟩ := hp.takesOwn hg hprep hm (hplain.2.1 g hg) horch rfl
      obtain rfl := mem_unique ho ho1
      rw [hp.username] at hown
      -- the committer has a seat before, so its replica has the vector of the new history
      have hvec := htakes.seated.vector
      obtain ⟨known, xs, hvec0, hpad⟩ := h.vector
      rw [← ht] at hvec0 helected
      obtain rfl := Exec.unique hvec0 hvec
      have hseat := helected.mem hvec
      obtain ⟨o2, out, hreplica, -, rfl, rfl⟩ := htakes.replica hown (.inr hseat)
      obtain ⟨hmem, xs', hpad'⟩ := mem_vectorOf_cons hvec hpad hseat hok.2.1 hown
        (h.spares hok hg ho hm hprep) hreplica.seated.vector
      refine h.publish hexclusive hm User.sentBy_commit (g := g.after c) (by simp)
        (by rw [MlsGroup.after_transcript, ht]) ?_ (ht ▸ hreplica.seated.vector) hpad' hmem
        fun x hadd => ?_
      · refine (h.topic name (by simp [hg])).follow fun hout => ?_
        simp only [User.spend_outputs, mem_cons, reduceCtorEq, mem_append,
          not_mem_nil, or_false, false_or] at hout
        obtain ⟨sw, recipient, -, -, hout⟩ := User.mem_welcomesOf hout
        cases hout
      · rw [← hadded] at hadd
        cases w with
        | none => cases hadd
        | some sw =>
          refine ⟨_, .tail _ (mem_append_left _ (mem_map.mpr ⟨x, hadd, rfl⟩)), ?_⟩
          rw [hsw sw rfl, ht]

/-! ## Messages -/

lemma Placed.handled (hexclusive : Exclusive S (s.handled name p (.ok r))) (hsilent : Silent r)
    (halive : p.alive = (s.peers name).alive)
    (hseat : ∀ g, r.user.group = some g → InVector S g.transcript name ∧ (p.follow r).Subscribed)
    (hkeeps : name ≠ "" → ∀ g, (s.peers name).user.group = some g →
      Kept S s.topic name g.transcript →
        ∃ g', r.user.group = some g' ∧ Kept S s.topic name g'.transcript) :
    Placed S (s.handled name p (.ok r)) := by
  obtain ⟨htopic, hwelcomes, hothers⟩ := handled_silent s name p hsilent
  obtain ⟨huser, hsub, halive'⟩ := handled_self s name p r
  refine h.of_peer name hexclusive htopic (fun x hx => ⟨hothers x hx, by rw [hwelcomes]⟩)
    (fun g hg => ?_) fun hstill hne => ⟨halive ▸ (halive' hstill).1, ?_⟩
  · rw [huser] at hg
    exact ⟨(hseat g hg).1, hsub.mpr (hseat g hg).2⟩
  · rintro ⟨t, hkept, ⟨g, hg, rfl⟩ | hway⟩
    · obtain ⟨g', hg', hkept'⟩ := hkeeps hne g hg hkept
      exact ⟨_, htopic ▸ hkept', .inl ⟨g', by rw [huser, hg'], rfl⟩⟩
    · exact ⟨t, htopic ▸ hkept, .inr (by rwa [hwelcomes])⟩

/-- A user that has a seat to the end has one after the next commit, and is not removed by it. -/
lemma Placed.keeps (hne : name ≠ "") (hi : s.topic[i]? = some m) {own : String}
    (hg : (s.peers name).user.group = some g) (hm : g.processMessage own m = .ok (.commit c))
    (hkept : Kept S s.topic name g.transcript) :
    Kept S s.topic name (c :: g.transcript) ∧ name ∉ c.removes := by
  obtain ⟨hsuffix, hsingle, -⟩ := h.exclusive.next_commit hi hg hm
  have hkept' := hkept.later (suffix_cons c _) hsuffix
  refine ⟨hkept', fun hmem => ?_⟩
  rcases hkept'.self.cons hne with ⟨-, hstays⟩ | hadd
  · exact hstays hmem
  · simp [hsingle.2 (ne_nil_of_mem hmem)] at hadd

/-- **A commit of another member.**  The user leaves exactly when it has lost its seat. -/
lemma Placed.topicStep (hi : s.topic[i]? = some m)
    (hr : (s.peers name).user.processInMessage S.cfg env (.group m) = .ok r) :
    Placed S (s.handled name { s.peers name with pos := some (i + 1) } (.ok r)) := by
  have hp := h.exclusive.agrees.peer name
  have hexclusive := h.exclusive.topicStep hi hr
  have hsilent := processInMessage_silent hp.slot hr
  cases User.processInMessage_orchestrated S.agent hp.slot hr with
  | ignored active hrecords =>
    refine h.handled hexclusive hsilent rfl (fun g hg => ⟨h.seat name g hg, ?_⟩)
      fun _ g hg hkept => ⟨g, hg, hkept⟩
    exact Peer.Subscribed.follow (.inr rfl) fun ho => by cases hrecords _ ho
  | stored hg hm =>
    obtain ⟨c, hc, -⟩ := h.exclusive.topic i m hi
    simp [MlsGroup.processMessage_content hm] at hc
  | @left g c u' action hg hm horch hleave =>
    obtain ⟨o, o', ho, rfl, htakes⟩ := hp.takes hg hm horch
    refine h.handled hexclusive hsilent rfl (by simp [User.leave]) fun hne g1 hg1 hkept => ?_
    obtain rfl := mem_unique hg hg1
    obtain ⟨hkept', hown⟩ := h.keeps hne hi hg hm hkept
    rw [hp.username] at hleave
    have hlost := htakes.inactive_iff hown (h.seat name g hg)
    exact absurd hkept'.self (hlost.mp (hleave.resolve_left hown))
  | @merged g c u' action hg hm horch hown hstays =>
    obtain ⟨o, o', ho, rfl, htakes⟩ := hp.takes hg hm horch
    have hlost := htakes.inactive_iff (hp.username ▸ hown) (h.seat name g hg)
    refine h.handled hexclusive hsilent rfl (fun g1 hg1 => ?_) fun hne g1 hg1 hkept => ?_
    · obtain rfl : g.after c = g1 := by simpa using hg1
      exact ⟨not_not.mp fun hout => hstays (hlost.mpr hout), .inr (by simp [Peer.follow])⟩
    · obtain rfl := mem_unique hg hg1
      exact ⟨g.after c, by simp, (h.keeps hne hi hg hm hkept).1⟩

/-- **A Welcome.**  The user keeps the group exactly when it has got a seat. -/
lemma Placed.join (hw : (s.welcomes name)[i]? = some w)
    (hnew : (s.peers name).reached ≤ w.welcome.transcript.length)
    (hexclusive : Exclusive S ((s.taken name i).handled name (s.peers name) (.ok
      r)))
    (hr : (s.peers name).user.processInMessage S.cfg env (.welcome w) = .ok r) :
    Placed S ((s.taken name i).handled name (s.peers name) (.ok r)) := by
  have hmem := mem_of_getElem? hw
  obtain ⟨hannounced, -⟩ := h.exclusive.welcomes name w hmem
  have hsilent := processInMessage_silent (h.exclusive.agrees.peer name).slot hr
  obtain ⟨e, rfl⟩ | ⟨c, t, known, out, ht, hadd, hknown, hcommit, hcase⟩ :=
    User.processWelcome_orchestrated S.agent hr
  · refine h.same_group name hexclusive
      (by simp [PubSub.handled, PubSub.publish, sentBy, taken]) (fun x hx => ?_) ?_
      (fun hsub => ?_) ?_
    · simp [PubSub.handled, PubSub.publish, welcomesTo, taken, hx]
    · exact (handled_self _ _ _ _).1 ▸ rfl
    · exact (handled_self _ _ _ _).2.1.mpr (hsub.follow (by simp))
    · simp [PubSub.handled, PubSub.publish, Peer.stopped]
  rw [(h.exclusive.agrees.peer name).username] at hadd hcommit
  have hiff :=
    ((h.exclusive.agrees.welcome name w hmem).replica ht hadd hknown hcommit).inactive_iff
  obtain ⟨htopic, hwelcomes, hothers⟩ := handled_silent (s.taken name i) name (s.peers name) hsilent
  obtain ⟨huser, hsub, halive⟩ := handled_self (s.taken name i) name (s.peers name) r
  refine h.of_peer name hexclusive htopic
    (fun x hx => ⟨hothers x hx, by rw [hwelcomes, taken_welcomes_of_ne hx]⟩) (fun g hg => ?_)
    fun hstill _ => ⟨(halive hstill).1, fun hexpects => ?_⟩
  · rw [huser] at hg
    obtain ⟨-, rfl⟩ | ⟨hseat, rfl⟩ := hcase
    · cases hg
    · obtain rfl : (⟨w.welcome.creator, c :: t, [], .operational⟩ : MlsGroup) = g := by
        simpa using hg
      exact ⟨not_not.mp fun hout => hseat (hiff.mpr hout), hsub.mpr (.inl (by simp [Peer.follow]))⟩
  · rcases hexpects.taken (h.exclusive.rights name) hw hannounced hnew with hkept | ⟨w', hw', hkept⟩
    · refine ⟨_, htopic ▸ hkept, .inl ?_⟩
      rw [ht] at hkept ⊢
      obtain ⟨hinactive, -⟩ | ⟨-, rfl⟩ := hcase
      · exact absurd hkept.self (hiff.mp hinactive)
      · exact ⟨⟨w.welcome.creator, c :: t, [], .operational⟩, by simp [huser], rfl⟩
    · refine ⟨_, htopic ▸ hkept, .inr ⟨w', ?_, rfl⟩⟩
      rwa [hwelcomes, taken_welcomes_self]

/-! ## Runs -/

lemma Placed.step (hok : Lasting S.cfg s e) (hstep : PubSub.step S.cfg s e = some s') :
    Placed S s' := by
  have hexclusive := h.exclusive.step hok.1 hstep
  cases PubSub.stepped_of_step hstep with
  | act _ _ => exact h.act hok hstep
  | giveUp => exact h.setPeer hexclusive rfl (fun hsub => hsub) fun halive => halive
  | @topic name env i m hpos hm =>
    revert hexclusive
    cases hr : (s.peers name).user.processInMessage S.cfg env (.group m) with
    | error f =>
      exact fun hexclusive => h.setPeer hexclusive rfl (fun _ => .inr rfl) (by
        simp [Peer.stopped])
    | ok r => exact fun _ => h.topicStep hm hr
  | @welcome name env i w hw =>
    revert hexclusive
    cases hr : (s.peers name).user.processInMessage S.cfg env (.welcome w) with
    | error f =>
      intro hexclusive
      refine h.same_group name hexclusive rfl (fun x hx => ?_) ?_ (fun hsub => ?_) ?_
      · simp [PubSub.handled, PubSub.setPeer, taken, hx]
      · simp [PubSub.handled, PubSub.setPeer, Peer.stopped]
      · simp only [PubSub.handled, PubSub.setPeer, Function.update_self]
        exact hsub
      · simp [PubSub.handled, PubSub.setPeer, Peer.stopped]
    | ok r => exact fun hexclusive => h.join hw (hok.1 w hw) hexclusive hr
  | @ack name sender u hu =>
    exact h.setPeer hexclusive (rights_processAck hu).1 (fun hsub => hsub) fun halive =>
      halive
  | ackFailed => exact h.setPeer hexclusive rfl (fun hsub => hsub) (by simp [Peer.stopped])
  | @subscribed name =>
    refine h.same_group name hexclusive rfl (fun x hx => ?_) ?_ ?_ ?_
    · simp [PubSub.setPeer, hx]
    · simp [PubSub.setPeer]
    · exact fun _ => .inr (by simp [PubSub.setPeer])
    · simp [PubSub.setPeer]

end Placed

lemma subscribe_mem_createGroup (h : u.createGroup S.cfg env = .ok r) : .subscribe ∈ r.outputs := by
  have hemit : ∀ (r : Result) (o : Output), .subscribe ∈ r.outputs →
      .subscribe ∈ (User.emit env r o).outputs := fun r o hr => by
    unfold User.emit
    split_ifs <;> simp [hr]
  simp only [User.createGroup, S.agent] at h
  split_ifs at h
  · cases h
    exact hemit _ _ (by simp)
  · obtain ⟨out, -, h⟩ := bind_inv h
    split_ifs at h
    cases h
    exact mem_append_left _ (hemit _ _ (by simp))

lemma placed_init (hcreator : S.creator ≠ "") (hinit : (pubSub S.cfg S.creator).init s) :
    Placed S s := by
  have hexclusive := exclusive_init hinit
  obtain ⟨env, r, out, hr, hpeer, hreplica, haction, huser⟩ := replica_of_init hinit
  obtain ⟨htopic, hwelcomes, -, -, hothers⟩ := hinit
  have hgroup : (s.peers S.creator).user.group = some (MlsGroup.create S.creator) := by
    simp [hpeer, huser]
  have hhistory : history s.topic = [] := by simp [htopic, history]
  obtain ⟨-, -, gen, hseat⟩ := processCommit_frame hreplica.commit
  have hempty : Padded (new S.creator S.params []).knownMembers [] :=
    ⟨by simp, S.params.maxActiveProcessers, by simp [new, resize]⟩
  obtain ⟨xs, hpad, -⟩ := seatMembers_padded hempty
    (by simpa [Setting.newcomers] using hcreator.symm) hseat
  have hin : InVector S [] S.creator :=
    not_not.mp fun hout => absurd (hreplica.inactive_iff.mpr hout) (by simp [haction])
  refine ⟨hexclusive, ⟨_, xs, hhistory ▸ hreplica.seated.vector, hpad⟩, fun x g hg => ?_,
    fun x hx => ?_, fun x hne halive hx => ?_⟩
  · by_cases hx : x = S.creator
    · subst hx
      obtain rfl := mem_unique hgroup hg
      exact hin
    · simp [hothers x hx, User.new] at hg
  · by_cases hx' : x = S.creator
    · subst hx'
      rw [hpeer]
      exact .inl (by simp [Peer.follow, subscribe_mem_createGroup hr])
    · simp [hothers x hx', User.new] at hx
  · -- only the creator has a seat
    rw [hhistory] at hx
    obtain ⟨known, hvec, hmem⟩ := id hx
    obtain ⟨start, hstart, gen, hseat⟩ := Setting.vectorOf_eq_ok.mp hvec
    cases hstart
    obtain rfl : x = S.creator := by
      rcases mem_of_mem_seatMembers hseat hmem with hfree | hnew
      · exact absurd (eq_of_mem_replicate (by simpa [resize] using hfree)) hne
      · simpa [Setting.newcomers] using hnew
    exact ⟨_, Kept.last (hhistory ▸ hx), .inl ⟨_, hgroup, hhistory.symm⟩⟩

lemma placed_of_reaches (hcreator : S.creator ≠ "")
    (h : (pubSub S.cfg S.creator).Reaches (Lasting S.cfg) s) : Placed S s :=
  h.invariant (fun _ => placed_init hcreator) fun _ _ _ hs => hs.step

/-! ## Strangers -/

def Event.actor : Event → String
  | .act name .. | .giveUp name | .topic name _ | .welcome name .. | .ack name _
  | .subscribed name => name

def freshPeer (x : String) : Peer := ⟨User.new x, true, false, none, 0⟩

lemma step_peers (hstep : PubSub.step S.cfg s e = some s') (hx : x ≠ e.actor) :
    s'.peers x = s.peers x := by
  cases PubSub.stepped_of_step hstep with
  | @act name env id k _ _ =>
    cases (s.peers name).user.call S.cfg env id k <;>
      simp [acted, PubSub.publish, PubSub.setPeer, show x ≠ name from hx]
  | @giveUp name | @ack name sender u _ | @ackFailed name sender | @subscribed name =>
    simp [PubSub.setPeer, show x ≠ name from hx]
  | @topic name env i m _ _ =>
    cases (s.peers name).user.processInMessage S.cfg env (.group m) <;>
      simp [PubSub.handled, PubSub.publish, PubSub.setPeer, show x ≠ name from hx]
  | @welcome name env i w _ =>
    cases (s.peers name).user.processInMessage S.cfg env (.welcome w) <;>
      simp [PubSub.handled, PubSub.publish, PubSub.setPeer, taken, show x ≠ name from hx]

lemma actor_ne_of_fresh (hpeer : s.peers x = freshPeer x) (hwelcomes : s.welcomes x = [])
    (hstep : PubSub.step S.cfg s e = some s') : x ≠ e.actor := by
  rintro rfl
  cases e <;> simp [PubSub.step, Event.actor, freshPeer, User.new] at hpeer hwelcomes hstep <;>
    simp [hpeer, hwelcomes] at hstep

/-- **The topic only grows, and Welcomes go to the members that its commits add.** -/
lemma Exclusive.invited (h : Exclusive S s) (hok : Paced s e)
    (hstep : PubSub.step S.cfg s e = some s') :
    history s.topic <:+ history s'.topic ∧ ∀ x, ∀ w ∈ s'.welcomes x,
      w ∈ s.welcomes x ∨ ∃ c ∈ history s'.topic, x ∈ c.adds := by
  have hplain := h.plain hok hstep
  cases PubSub.stepped_of_step hstep with
  | @act name env id k hturn hk =>
    cases hx : (s.peers name).user.call S.cfg env id k with
    | error f => exact ⟨suffix_rfl, fun _ _ hw => .inl hw⟩
    | ok r =>
      cases User.orchestrated_cases S.agent hok.1 hk hx with
      | refused e =>
        refine ⟨by simp [acted, PubSub.publish, sentBy], fun x w hw => .inl ?_⟩
        simpa [acted, PubSub.publish, welcomesTo] using hw
      | dropped hg hsub | proposed hg hpropose => exact hok.2.elim
      | @committed _ g g' m w a c o u' action dest hg hprep hm ho horch =>
        obtain ⟨-, hadded, -, -⟩ := hprep.lists hm (hplain.2.1 g hg)
        have hhistory : history (s.topic ++ [m]) = c :: history s.topic := history_append hm
        simp only [acted, PubSub.publish, User.sentBy_commit, hhistory]
        refine ⟨suffix_cons _ _, fun x w' hw' => ?_⟩
        rcases mem_append.mp hw' with hw' | hw'
        · exact .inl hw'
        obtain ⟨sw, rfl, hrecipient, -⟩ := User.welcome_of_commit (mem_welcomesTo.mp hw')
        exact .inr ⟨c, .head _, hadded ▸ hrecipient⟩
  | @giveUp name | @ack name sender u hu | @ackFailed name sender | @subscribed name =>
    exact ⟨suffix_rfl, fun _ _ hw => .inl hw⟩
  | @topic name env i m _ _ =>
    cases hr : (s.peers name).user.processInMessage S.cfg env (.group m) with
    | error f => exact ⟨suffix_rfl, fun _ _ hw => .inl hw⟩
    | ok r =>
      obtain ⟨htopic, hwelcomes, -⟩ := handled_silent s name
        { s.peers name with pos := some (i + 1) }
        (processInMessage_silent (h.agrees.peer name).slot hr)
      rw [htopic, hwelcomes]
      exact ⟨suffix_rfl, fun _ _ hw => .inl hw⟩
  | @welcome name env i w hw =>
    cases hr : (s.peers name).user.processInMessage S.cfg env (.welcome w) with
    | error f => exact ⟨suffix_rfl, fun x w' hw' => .inl (mem_of_mem_taken hw')⟩
    | ok r =>
      obtain ⟨htopic, hwelcomes, -⟩ := handled_silent (s.taken name i) name (s.peers name)
        (processInMessage_silent (h.agrees.peer name).slot hr)
      rw [htopic, hwelcomes]
      exact ⟨suffix_rfl, fun x w' hw' => .inl (mem_of_mem_taken hw')⟩

/-- **Strangers.**  A user that no commit adds has done nothing and has no Welcome. -/
lemma fresh_of_reaches (h : (pubSub S.cfg S.creator).Reaches Paced s) :
    ∀ x, x ≠ S.creator → (∀ c ∈ history s.topic, x ∉ c.adds) →
      s.peers x = freshPeer x ∧ s.welcomes x = [] := by
  induction h with
  | init hs =>
    obtain ⟨-, hwelcomes, -, -, hothers⟩ := hs
    exact fun x hx _ => ⟨hothers x hx, hwelcomes x⟩
  | step hreaches hok hstep ih =>
    intro x hx hnone
    obtain ⟨hgrows, hinvited⟩ := (exclusive_of_reaches hreaches).invited hok hstep
    obtain ⟨hpeer, hwelcomes⟩ := ih x hx fun c hc => hnone c (hgrows.subset hc)
    refine ⟨(step_peers hstep (actor_ne_of_fresh hpeer hwelcomes hstep)).trans hpeer, ?_⟩
    refine eq_nil_iff_forall_not_mem.mpr fun w hw => ?_
    rcases hinvited x w hw with hold | ⟨c, hc, hadd⟩
    · simp [hwelcomes] at hold
    · exact hnone c hc hadd

/-- Everybody has handled everything. -/
structure Settled (s : PubSub) : Prop where
  alive : ∀ x, (s.peers x).alive = true
  joined : ∀ x, s.welcomes x = []
  caughtUp : ∀ x g, (s.peers x).user.group = some g → g.transcript = history s.topic

lemma settled_of_invited (h : (pubSub S.cfg S.creator).Reaches Paced s)
    (hall : ∀ x ∈ S.creator :: (history s.topic).flatMap (·.adds), (s.peers x).alive = true ∧
      s.welcomes x = [] ∧ ∀ g ∈ (s.peers x).user.group, g.transcript = history s.topic) :
    Settled s := by
  have hany : ∀ x, (s.peers x).alive = true ∧ s.welcomes x = [] ∧
      ∀ g ∈ (s.peers x).user.group, g.transcript = history s.topic := by
    intro x
    by_cases hx : x ∈ S.creator :: (history s.topic).flatMap (·.adds)
    · exact hall x hx
    · simp only [mem_cons, mem_flatMap, not_or, not_exists, not_and] at hx
      obtain ⟨hpeer, hwelcomes⟩ := fresh_of_reaches h x hx.1 hx.2
      rw [hpeer]
      exact ⟨rfl, hwelcomes, by simp [freshPeer, User.new]⟩
  exact ⟨fun x => (hany x).1, fun x => (hany x).2.1, fun x => (hany x).2.2⟩

/-! ## Membership and seats -/

/-- **Membership and election agree.**  Once everything is handled, all users with the group have
    one vector, and those that hold the group and its topic have a seat in it. -/
theorem holds_iff_seated (hcreator : S.creator ≠ "")
    (h : (pubSub S.cfg S.creator).Reaches (Lasting S.cfg) s) (hsettled : Settled s) :
    ∃ known, S.vectorOf (history s.topic) = .ok known ∧
      (∀ x, Holds s x → ∃ o, (s.peers x).user.orchestrator = some o ∧ o.knownMembers = known) ∧
      ∀ x, x ≠ "" → (Holds s x ↔ x ∈ known) := by
  have hinv := placed_of_reaches hcreator h
  obtain ⟨known, -, hvec, -⟩ := hinv.vector
  refine ⟨known, hvec, fun x ⟨hx, _⟩ => ?_, fun x hne => ⟨fun ⟨hx, _⟩ => ?_, fun hx => ?_⟩⟩
  · obtain ⟨g, hg⟩ := isSome_iff_exists.mp hx
    obtain ⟨-, o, ho, hseated⟩ := (hinv.exclusive.agrees.peer x).seated g hg
    have hvec' := hseated.vector
    rw [hsettled.caughtUp x g hg] at hvec'
    exact ⟨o, ho, Exec.unique hvec' hvec⟩
  · obtain ⟨g, hg⟩ := isSome_iff_exists.mp hx
    obtain ⟨known', hvec', hmem⟩ := hinv.seat x g hg
    rw [hsettled.caughtUp x g hg] at hvec'
    exact Exec.unique hvec' hvec ▸ hmem
  · obtain ⟨t, -, ⟨g, hg, -⟩ | ⟨w, hw, -⟩⟩ :=
      hinv.expects x hne (hsettled.alive x) ⟨known, hvec, hx⟩
    · have hsome : (s.peers x).user.group.isSome = true := by simp [hg]
      exact ⟨hsome, hinv.topic x hsome⟩
    · simp [hsettled.joined x] at hw

/-- `A` invites `B`, which joins: both hold the group, and nobody else. -/
theorem holds_iff_seated_joined :
    ∃ s, (pubSub scripted "A").Reaches (Lasting scripted) s ∧ Settled s ∧
      ∀ x, x ≠ "" → (Holds s x ↔ x = "A" ∨ x = "B") := by
  have hadmits : (pubSub scripted "A").Admits (Lasting scripted) founded joining := by
    refine .cons ⟨⟨fun _ => rfl, trivial⟩, by decide, ?_⟩
      (.cons ⟨fun w _ => paced_fresh (by decide +kernel), trivial⟩ trivial)
    -- two seats are free
    rintro x ⟨rfl⟩
    refine ⟨by decide, fun g o _ ho => .inl ?_⟩
    cases ho
    decide
  obtain ⟨s, hrun, hall, hvec⟩ : ∃ s ∈ (pubSub scripted "A").run founded joining,
      (∀ x ∈ "A" :: (history s.topic).flatMap (·.adds), (s.peers x).alive = true ∧
        s.welcomes x = [] ∧ ∀ g ∈ (s.peers x).user.group, g.transcript = history s.topic) ∧
      Setting.vectorOf ⟨scripted, threeSeats, rfl, "A"⟩ (history s.topic) = .ok ["A", "B", ""] := by
    decide +kernel
  have hreaches : (pubSub scripted "A").Reaches (Lasting scripted) s :=
    .of_run (.init founded_init) hadmits hrun
  have hsettled := settled_of_invited (S := ⟨scripted, threeSeats, rfl, "A"⟩)
    (hreaches.mono fun _ _ h => h.1) hall
  obtain ⟨known, hknown, -, hiff⟩ := holds_iff_seated (S := ⟨scripted, threeSeats, rfl, "A"⟩)
    (by decide) hreaches hsettled
  obtain rfl := Exec.unique hvec hknown
  refine ⟨s, hreaches, hsettled, fun x hx => (hiff x hx).trans ?_⟩
  simp [hx]

/-! ## One history -/

/-- **One history.**  In every paced run the users with the group have been added by commits of the
    topic, each is at a point of its history, and the epoch alone says at which. -/
theorem one_history {cfg : Config} {params : OrchestratedParameters} {creator : String}
    (hcfg : cfg.agent = .orchestrator params) (h : (pubSub cfg creator).Reaches Paced s) :
    (∀ x g, (s.peers x).user.group = some g →
      (x = creator ∨ ∃ c ∈ history s.topic, x ∈ c.adds) ∧ g.transcript <:+ history s.topic) ∧
    ∀ x y g g', (s.peers x).user.group = some g → (s.peers y).user.group = some g' →
      g.epoch = g'.epoch → g.transcript = g'.transcript := by
  have hexclusive := exclusive_of_reaches (S := ⟨cfg, params, hcfg, creator⟩) h
  have hsuffix : ∀ x g, (s.peers x).user.group = some g → g.transcript <:+ history s.topic :=
    fun x g hg => ((hexclusive.rights x).quiet g hg).2.1
  refine ⟨fun x g hg => ⟨?_, hsuffix x g hg⟩, fun x y g g' hg hg' hepoch => ?_⟩
  · -- a stranger has no group
    by_contra! hstranger
    have hfresh := fresh_of_reaches (S := ⟨cfg, params, hcfg, creator⟩) h x hstranger.1 hstranger.2
    rw [hfresh.1] at hg
    simp [freshPeer, User.new] at hg
  · exact (suffix_of_suffix_length_le (hsuffix x g hg) (hsuffix y g' hg')
      hepoch.le).eq_of_length hepoch

/-- `A` invites `B`, which joins: both are at epoch 1. -/
theorem one_history_joined :
    ∃ s g g', (pubSub scripted "A").Reaches Paced s ∧ (s.peers "A").user.group = some g ∧
      (s.peers "B").user.group = some g' ∧ g.epoch = 1 ∧ g.transcript = g'.transcript := by
  obtain ⟨s, hrun, g, hg, g', hg', hone, hepoch⟩ : ∃ s ∈ (pubSub scripted "A").run founded joining,
      ∃ g ∈ (s.peers "A").user.group, ∃ g' ∈ (s.peers "B").user.group,
        g.epoch = 1 ∧ g.epoch = g'.epoch := by
    decide +kernel
  have hreaches := joining_reached hrun
  exact ⟨s, g, g', hreaches, hg, hg', hone, (one_history (by rfl) hreaches).2 _ _ _ _ hg hg' hepoch⟩

/-- Two seats, and a generator that always draws the first slot. -/
def narrow : Config where
  agent := .orchestrator twoSeats
  rng := Rng.scripted
  fuel := 1
  transcriptHash _ := [0, 0]

def narrowFounded : PubSub where
  peers x := if x = "A" then
      ⟨⟨"A", some (MlsGroup.create "A"), none, some ⟨"A", 0, twoSeats, ["A", ""]⟩,
        some (true, 0), 1⟩, true, true, none, 1⟩
    else freshPeer x
  topic := []
  welcomes _ := []
  acks := []

lemma narrowFounded_init : (pubSub narrow "A").init narrowFounded :=
  ⟨rfl, fun _ => rfl, rfl,
    ⟨Env.fine, ⟨(narrowFounded.peers "A").user,
      [.subscribe, .groupInfo [], .record ⟨.create, 0, 1⟩], none⟩, rfl, rfl, rfl⟩,
    fun x hx => by simp [narrowFounded, freshPeer, hx]⟩

/-- `A` invites `B` and then `C`, and everybody handles everything. -/
def displacing : List Event :=
  secondMember ++ [.act "A" Env.fine 1 (.invite "C"), .welcome "C" Env.fine 0, .subscribed "C",
    .topic "B" Env.fine, .topic "A" Env.fine]

/-- **A displaced committer stays.**  `C` takes the seat of `A`, which still holds the group. -/
theorem displaced_committer_holds :
    ∃ s o, (pubSub narrow "A").run narrowFounded displacing = some s ∧ Settled s ∧
      Setting.vectorOf ⟨narrow, twoSeats, rfl, "A"⟩ (history s.topic) = .ok ["C", "B"] ∧
      (s.peers "A").user.orchestrator = some o ∧ o.knownMembers = ["C", "B"] ∧ Holds s "A" := by
  have hadmits : (pubSub narrow "A").Admits Paced narrowFounded displacing := by
    refine .cons ⟨fun _ => rfl, trivial⟩ (.cons trivial (.cons (fun w _ => ?_) (.cons trivial
      (.cons trivial (.cons ⟨fun _ => rfl, trivial⟩ (.cons (fun w _ => ?_) (.cons trivial
        (.cons trivial (.cons trivial trivial)))))))))
    all_goals exact paced_fresh (by decide +kernel)
  obtain ⟨s, hrun, hall, hvec, ho, hholds⟩ : ∃ s ∈ (pubSub narrow "A").run narrowFounded displacing,
      (∀ x ∈ "A" :: (history s.topic).flatMap (·.adds), (s.peers x).alive = true ∧
        s.welcomes x = [] ∧ ∀ g ∈ (s.peers x).user.group, g.transcript = history s.topic) ∧
      Setting.vectorOf ⟨narrow, twoSeats, rfl, "A"⟩ (history s.topic) = .ok ["C", "B"] ∧
      (s.peers "A").user.orchestrator = some ⟨"A", 0, twoSeats, ["C", "B"]⟩ ∧ Holds s "A" := by
    decide +kernel
  have hsettled := settled_of_invited (S := ⟨narrow, twoSeats, rfl, "A"⟩)
    (Machine.Reaches.of_run (.init narrowFounded_init) hadmits hrun) hall
  exact ⟨s, _, hrun, hsettled, hvec, ho, rfl, hholds⟩

end PubSub

end Client

end EmulatedMls
