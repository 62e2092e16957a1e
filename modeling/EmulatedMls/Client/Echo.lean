import EmulatedMls.Client.Independent

/-!
# Confirmation by echo

`process_in_message` confirms whatever is in the slot of `pending_commits` as soon as any message
of the user comes back, and `merge_pending_commit` succeeds in an operational group without doing
anything.  Neither looks at which commit the slot belongs to.  This module says when the slot
and the group nevertheless stay together.
-/

namespace EmulatedMls.Client

open List User

namespace Solo

variable {cfg : Config} {s s' : Solo} {e : Event} {name : String}

variable {st : GroupState} {t : Transcript} {u : User} {en : PendingCommit}

lemma mem_history_of_view (h : view u = some (t, st)) : t ∈ history u := by
  obtain ⟨g, hg, hview⟩ := Option.map_eq_some_iff.mp h
  obtain ⟨rfl, -⟩ := Prod.mk.inj hview
  simp [history, hg]

lemma step_frame (hcfg : cfg.agent = .independent) (h : step cfg s e = some s') :
    s'.user.username = s.user.username ∧ s'.epochs = s.epochs ++ history s'.user := by
  cases e with
  | create env =>
    simp only [step] at h
    obtain ⟨r, hr, rfl⟩ := after_eq_some h
    exact ⟨(createGroup_independent hcfg hr).1.1, rfl⟩
  | call env id k =>
    simp only [step] at h
    obtain ⟨r, hr, rfl⟩ := after_eq_some h
    refine ⟨?_, rfl⟩
    cases call_cases hr with
    | refused e => rfl
    | dropped hg hkept hbuild => rfl
    | application hg hslot hm hsent => rfl
    | posted hg hprep hpost =>
      obtain ⟨rfl, -⟩ | ⟨rfl, -⟩ := postProcessCommit_independent hcfg hpost <;> rfl
  | echo env m =>
    simp only [step] at h
    split_ifs at h with hm
    obtain ⟨r, hr, rfl⟩ := after_eq_some h
    simp only [processInMessage, if_pos hm.2] at hr
    refine ⟨?_, rfl⟩
    cases confirmCommit_independent hcfg hr with
    | empty hslot => rfl
    | groupless hslot hg => rfl
    | confirmed hslot hg hmerge huser hout => simp [huser]
  | receive env m =>
    simp only [step] at h
    split_ifs at h with hm
    obtain ⟨r, hr, rfl⟩ := after_eq_some h
    simp only [processInMessage, if_neg hm.1] at hr
    exact ⟨(processProtocolMessage_independent hcfg hr).1.1, rfl⟩
  | welcome env w =>
    simp only [step] at h
    split_ifs at h with hm
    obtain ⟨r, hr, rfl⟩ := after_eq_some h
    simp only [processInMessage, if_neg hm.1] at hr
    exact ⟨(processWelcome_independent hcfg hr).1.1, rfl⟩

lemma slot_of_confirmEffect {r : Result} (h : ConfirmEffect u r) : r.user.pendingCommit = none := by
  cases h with
  | empty hslot => exact hslot
  | groupless hslot hg => rfl
  | confirmed hslot hg hmerge huser hout => simp [huser]

/-! ## Effects of merged commits -/

/-- An own commit has been sent and is pending in the group. -/
def Awaiting (u : User) : Prop :=
  ∃ en t c, u.pendingCommit = some en ∧ view u = some (t, .pendingCommit c)

/-- While an own commit is awaited, no rival commit and no Welcome comes. -/
def NoRival (s : Solo) : Event → Prop
  | .receive _ m => Awaiting s.user →
      ∀ g c, s.user.group = some g → m.content = .commit c → m.base ≠ g.transcript
  | .welcome _ _ => ¬ Awaiting s.user
  | _ => True

/-- The slot belongs to a commit that is merged or pending, or to a proposal. -/
structure Coupled (name : String) (s : Solo) : Prop where
  username : s.user.username = name
  slot : ∀ en, s.user.pendingCommit = some en →
    (∃ c, en.message.content = .commit c ∧ c.author = name ∧
      ((∃ t ∈ s.epochs, c ∈ t) ∨ ∃ t, view s.user = some (t, .pendingCommit c))) ∨
    (en.welcome = none ∧ ∃ kind, en.record.action = .propose kind)

lemma Coupled.keep (h : Coupled name s) (hname : s'.user.username = s.user.username)
    (hslot : s'.user.pendingCommit = s.user.pendingCommit) (hepochs : s.epochs ⊆ s'.epochs)
    (hpending : ∀ en t c, s.user.pendingCommit = some en →
      view s.user = some (t, .pendingCommit c) → view s'.user = view s.user) :
    Coupled name s' := by
  refine ⟨hname.trans h.username, fun en hen => ?_⟩
  rw [hslot] at hen
  rcases h.slot en hen with ⟨c, hc, hauthor, ⟨t, ht, hct⟩ | ⟨t, ht⟩⟩ | hprop
  · exact .inl ⟨c, hc, hauthor, .inl ⟨t, hepochs ht, hct⟩⟩
  · exact .inl ⟨c, hc, hauthor, .inr ⟨t, by rw [hpending en t c hen ht, ht]⟩⟩
  · exact .inr hprop

lemma Coupled.step (hcfg : cfg.agent = .independent) (h : Coupled name s) (hok : NoRival s e)
    (hs : step cfg s e = some s') : Coupled name s' := by
  obtain ⟨hname, hepochs⟩ := step_frame hcfg hs
  have hsub : s.epochs ⊆ s'.epochs := by
    rw [hepochs]
    exact subset_append_left _ _
  cases step_changes hcfg hs with
  | create hview hview' hslot hun =>
    exact h.keep hname hslot hsub fun en t c _ ht => by simp [hview] at ht
  | refused hview hslot hun hout | receive hview hslot hun hout =>
    exact h.keep hname hslot hsub fun _ _ _ _ _ => hview
  | application hview hfree hslot hun hout =>
    exact ⟨hname.trans h.username, by simp [hslot]⟩
  | unsent hg hprep hg' hslot hun hout =>
    -- a message is only prepared in an operational group
    refine h.keep hname hslot hsub fun en t c _ ht => ?_
    simp [view_of_group hg, hprep.spec.1] at ht
  | sent hg hprep hg' hslot hun hout =>
    refine ⟨hname.trans h.username, fun en hen => ?_⟩
    obtain rfl := Option.mem_unique hslot hen
    obtain ⟨-, -, -, -, ⟨c, hc, hauthor, -, -, -, -, hcase⟩ | ⟨p, -, -, -, hw, ha, -⟩⟩
      := hprep.spec
    · refine .inl ⟨c, hc, hauthor.trans h.username, ?_⟩
      rcases hcase with ⟨-, hstate, -⟩ | ⟨rfl, -⟩
      · exact .inr ⟨_, by rw [view_of_group hg', hstate]⟩
      · have hmem := mem_history_of_view (view_of_group hg')
        exact .inl ⟨_, hepochs ▸ mem_append_right _ hmem, .head _ ..⟩
    · exact .inr ⟨hw, _, ha⟩
  | echo hmem hun heffect =>
    have hslot : s'.user.pendingCommit = none := slot_of_confirmEffect heffect
    exact ⟨hname.trans h.username, by simp [hslot]⟩
  | merge hg hm hbase hauthor hview hslot hun hout =>
    refine h.keep hname hslot hsub fun en t c hen ht => ?_
    exact absurd hbase (hok ⟨en, t, c, hen, ht⟩ _ _ hg hm)
  | welcome hview hslot hun hout =>
    exact h.keep hname hslot hsub fun en t c hen ht => absurd ⟨en, t, c, hen, ht⟩ hok

variable {c : Commit}

def soloConfig : Config := ⟨.independent, Rng.scripted, 0, fun _ => []⟩

/-- The commit by which `A` has added `B`. -/
def joining : Commit := ⟨0, "A", ["B"], [], []⟩

/-- The update that `B` sends in its first epoch. -/
def ownUpdate : Commit := ⟨1, "B", [], [], []⟩

def ownUpdateMessage : GroupMessage := ⟨"B", [joining], .commit ownUpdate⟩

/-- The run in which `B` has joined and sent its update. -/
def updated : Solo where
  user := ⟨"B", some ⟨"A", [joining], [], .pendingCommit ownUpdate⟩,
    some ⟨ownUpdateMessage, none, ⟨.update, 1, 2⟩⟩, none, some (true, 0), 0⟩
  unechoed := [ownUpdateMessage]
  epochs := [[joining], [joining]]
  outputs := [.toGroup ownUpdateMessage ["A"]]

def confirmed : Solo where
  user := ⟨"B", some ⟨"A", [ownUpdate, joining], [], .operational⟩, none, none, some (true, 0), 0⟩
  unechoed := []
  epochs := [[joining], [joining], [ownUpdate, joining]]
  outputs := [.groupInfo [ownUpdate, joining], .record ⟨.update, 2, 2⟩]

/-- A proposal or commit is only sent when every earlier message of the user has come back. -/
def EchoedFirst (s : Solo) : Event → Prop
  | .call _ _ k => k ≠ .sendApplicationMsg → s.unechoed = []
  | _ => True

/-- The message of the slot is the only one on its way, and the pending commit is its own. -/
structure Outstanding (name : String) (s : Solo) : Prop where
  username : s.user.username = name
  slot : ∀ en, s.user.pendingCommit = some en → s.unechoed = [en.message]
  pending : ∀ en t c, s.user.pendingCommit = some en →
    view s.user = some (t, .pendingCommit c) → en.message = ⟨name, t, .commit c⟩

lemma Outstanding.free (h : Outstanding name s) (hun : s.unechoed = []) :
    s.user.pendingCommit = none := by
  cases hslot : s.user.pendingCommit with
  | none => rfl
  | some en => simpa [hun] using h.slot en hslot

/-- The slot keeps its message when nothing new is on its way or becomes pending. -/
lemma Outstanding.keep (h : Outstanding name s) (hname : s'.user.username = s.user.username)
    (hslot : s'.user.pendingCommit = s.user.pendingCommit) (hun : s'.unechoed = s.unechoed)
    (hview : view s'.user = view s.user ∨ ∀ t c, view s'.user ≠ some (t, .pendingCommit c)) :
    Outstanding name s' := by
  refine ⟨hname.trans h.username, fun en hen => ?_, fun en t c hen ht => ?_⟩
  · rw [hun]
    exact h.slot en (hslot ▸ hen)
  · rcases hview with hview | hview
    · exact h.pending en t c (hslot ▸ hen) (hview ▸ ht)
    · exact absurd ht (hview t c)

lemma Outstanding.of_free (hname : s'.user.username = name)
    (hslot : s'.user.pendingCommit = none) : Outstanding name s' :=
  ⟨hname, by simp [hslot], by simp [hslot]⟩

lemma Outstanding.step (hcfg : cfg.agent = .independent) (h : Outstanding name s)
    (hok : EchoedFirst s e) (hs : Solo.step cfg s e = some s') : Outstanding name s' := by
  obtain ⟨hname, -⟩ := step_frame hcfg hs
  cases step_changes hcfg hs with
  | create hview hview' hslot hun =>
    refine h.keep hname hslot hun (.inr fun t c ht => ?_)
    rcases hview' with hview' | hview' <;> simp [hview'] at ht
  | refused hview hslot hun hout | receive hview hslot hun hout =>
    exact h.keep hname hslot hun (.inl hview)
  | application hview hfree hslot hun hout => exact .of_free (hname.trans h.username) hslot
  | unsent hg hprep hg' hslot hun hout =>
    have hfree := h.free (hok hprep.ne_application)
    exact .of_free (hname.trans h.username) (hslot.trans hfree)
  | sent hg hprep hg' hslot hun hout =>
    have hempty := hok hprep.ne_application
    refine ⟨hname.trans h.username, fun en hen => ?_, fun en t c hen ht => ?_⟩
    · obtain rfl := Option.mem_unique hslot hen
      rw [hun, hempty]
      rfl
    · obtain rfl := Option.mem_unique hslot hen
      rw [view_of_group hg'] at ht
      obtain ⟨rfl, hstate⟩ := Prod.mk.inj (Option.some.inj ht)
      exact (hprep.message_of_pending hstate).trans (by rw [h.username])
  | echo hmem hun heffect =>
    exact .of_free (hname.trans h.username) (slot_of_confirmEffect heffect)
  | merge hg hm hbase hauthor hview hslot hun hout =>
    refine h.keep hname hslot hun (.inr fun t c ht => ?_)
    rcases hview with hview | hview <;> simp [hview] at ht
  | welcome hview hslot hun hout =>
    rcases hview with hview | ⟨c, t, -, hview⟩
    · exact h.keep hname hslot hun (.inl hview)
    · exact h.keep hname hslot hun (.inr fun t' c' ht => by simp [hview] at ht)

section

variable (hcfg : cfg.agent = .independent) (h : Outstanding name s)
include hcfg h

end

end Solo

end EmulatedMls.Client
