import EmulatedMls.Tree.KeyOwnership

/-!
# Who is a member after a commit

A commit changes the members as its proposals say: those that are not removed stay, those that are
added get a leaf that is free by then, and an external committer joins.  Nobody else comes or goes,
and nobody else's leaf changes.
-/

namespace EmulatedMls

open Exec List TreeSyncDiff

namespace PublicGroup

variable {D : Type} [DecidableEq D] {H : HashSuite D} {rules : GroupView D} {g : PublicGroup D}
  {c : Commit D} {m : ℕ} {d : PublicGroupDiff D}

/-- What the checks of a staged commit say of its committer and its proposals. -/
structure Staging (H : HashSuite D) (rules : GroupView D) (g : PublicGroup D) (c : Commit D) :
    Prop where
  committer : (g.treesync.leaf (c.committer g)).isSome ∧
      c.committer g ∉ removeProposals (c.proposals g) ∨
    c.isExternal = true ∧ addProposals (c.proposals g) = []
  unsent : c.updatePath H rules g = none →
    removeProposals (c.proposals g) = [] ∧ addProposals (c.proposals g) = []
  applied : ∃ own r, applyProposals g.treesync.emptyDiff (c.proposals g) own = .ok r

lemma stage_staging (hwf : g.treesync.emptyDiff.WellFormed m) (h : g.stage H rules c = .ok d) :
    Staging H rules g c := by
  cases c with
  | own own es selfUpdate params keys =>
    obtain ⟨⟨d1, path⟩, hcreate, -⟩ := bind_inv h
    obtain ⟨values, t, n, us, added, hbuilt, -, hrest⟩ := createCommit_built hwf hcreate
    have hmember := hbuilt.member
    rw [TreeSync.contents_leaf hwf.shaped] at hmember
    refine ⟨.inl ⟨hmember, hbuilt.stays⟩, fun hsent => ?_, _, _, hbuilt.apply⟩
    rw [Commit.updatePath, hcreate] at hsent
    obtain rfl : path = none := hsent
    exact (hbuilt.applied.eq_of_not_pathRequired hrest.2).2.2
  | received committer es path =>
    obtain ⟨values, t, n, us, added, hbuilt, hrest⟩ := commitReceived_built hwf h
    have hmember := hbuilt.member
    rw [TreeSync.contents_leaf hwf.shaped] at hmember
    refine ⟨.inl ⟨hmember, hbuilt.stays⟩, fun hsent => ?_, _, _, hbuilt.apply⟩
    obtain rfl : path = none := hsent
    exact (hbuilt.applied.eq_of_not_pathRequired hrest.2).2.2
  | external kemOutput credential signatureKey params keys =>
    obtain ⟨⟨d1, p⟩, hcreate, -⟩ := bind_inv h
    obtain ⟨t, t1, values, n, n1, us, added, happly, -⟩ :=
      createExternalCommit_made hwf rfl rfl hcreate
    refine ⟨.inr ⟨rfl, (g.externalProposals_cases kemOutput signatureKey).1⟩, fun hsent => ?_, _, _,
      happly⟩
    rw [Commit.updatePath, hcreate] at hsent
    cases hsent
  | externalReceived proposals path =>
    unfold stage commitExternalReceived at h
    cases path with
    | none => cases h
    | some p =>
      dsimp only at h
      split_ifs at h
      obtain ⟨v, -, h⟩ := bind_inv h
      obtain ⟨w, hexternal, h⟩ := bind_inv h
      obtain ⟨r, happly, -⟩ := bind_inv h
      rw [liftExternal_eq_ok] at hexternal
      exact ⟨.inr ⟨rfl, (validateExternalCommit_eq_ok hexternal).1⟩, fun hsent => (by cases hsent),
        _, _, happly⟩

/-- **Who is a member after a commit.**  A full leaf was full and is not removed, or is that of an
    external committer, or holds an added key package.  Who is not removed stays, with its leaf
    unless it commits or has proposed an update, and who is added has a leaf that was free. -/
theorem commit_members (H : HashSuite D) (rules : GroupView D) {g g' : PublicGroup D}
    (h : (groupRuns H rules fun g => g.Founded H ∨ g.Started H).Reaches (fun _ _ => True) g)
    {c : Commit D} (hcommit : g.commit H rules c = .ok g') :
    (∀ j, (g'.treesync.leaf j).isSome →
      (g.treesync.leaf j).isSome ∧ j ∉ removeProposals (c.proposals g) ∨
      c.isExternal ∧ j = c.committer g ∨
      ∃ kp ∈ addProposals (c.proposals g), g'.treesync.leaf j = some kp.leafNode) ∧
    (∀ j, (g.treesync.leaf j).isSome → j ∉ removeProposals (c.proposals g) →
      (g'.treesync.leaf j).isSome ∧ (j = c.committer g ∨
        (∃ l, (l, Sender.member j) ∈ updateProposals (c.proposals g)) ∨
        g'.treesync.leaf j = g.treesync.leaf j)) ∧
    ∀ kp ∈ addProposals (c.proposals g), ∃ j, g'.treesync.leaf j = some kp.leafNode ∧
      (g.treesync.leaf j = none ∨ j ∈ removeProposals (c.proposals g)) := by
  obtain ⟨m, hformed⟩ := formed_of_reaches (fun _ hg => hg) h
  have hwf := hformed.wellFormed
  obtain ⟨n, t, hformed', hshape, hcontents, -⟩ := hformed.commit hcommit
  obtain ⟨d, hstage, -⟩ := bind_inv hcommit
  obtain ⟨hcommitter, hunsent, own, ⟨t2, values⟩, happly⟩ := stage_staging hwf hstage
  simp only [← TreeSync.contents_leaf hformed'.wellFormed.shaped, hcontents]
  simp only [← TreeSync.contents_leaf hwf.shaped] at hcommitter ⊢
  cases hshape with
  | untouched sent =>
    rw [(hunsent sent).1, (hunsent sent).2]
    exact ⟨fun j hj => .inl ⟨hj, not_mem_nil⟩, fun j hj _ => ⟨hj, .inr (.inr rfl)⟩,
      fun kp hkp => absurd hkp not_mem_nil⟩
  | @path us added t1 t n p fits changes updates adds invited sent step =>
    obtain ⟨ns, hwritten, -⟩ := step.written
    have hothers {j : ℕ} (hj : j ≠ c.committer g) : t.contents.leaf j = t1.contents.leaf j := by
      rw [hwritten.contents, Contents.leaf_edit_of_ne hj]
    have hfreed {e : ℕ × LeafNode D} (he : e ∈ added)
        (hfull : (g.treesync.contents.leaf e.1).isSome) :
        e.1 ∈ removeProposals (c.proposals g) := by
      refine (changes.new_members.2 e he).1.resolve_left fun hblank => ?_
      rw [show g.treesync.contents.leaf e.1 = none from hblank] at hfull
      cases hfull
    refine ⟨fun j hj => ?_, fun j hj hnot => ?_, fun kp hkp => ?_⟩
    · by_cases hself : j = c.committer g
      · subst hself
        exact hcommitter.imp id fun hexternal => .inl ⟨hexternal.1, rfl⟩
      rw [hothers hself] at hj ⊢
      by_cases hadded : ∃ l, (j, l) ∈ added
      · obtain ⟨l, hl⟩ := hadded
        refine .inr ((adds _ hl).symm.imp id fun hmem => ?_)
        obtain ⟨kp, hkp, hleaf⟩ := mem_map.mp hmem
        exact ⟨kp, hkp, hleaf ▸ changes.leaf_of_added hl⟩
      · obtain ⟨hfull, hblank⟩ := changes.stays hj fun l hl =>
          hadded ⟨l, by simpa [operations] using hl⟩
        exact .inl ⟨hfull, fun hmem => hblank (blank_mem_operations.mpr hmem)⟩
    · by_cases hself : j = c.committer g
      · rw [hself, hwritten.contents, Contents.leaf_edit_self]
        exact ⟨rfl, .inl rfl⟩
      rw [hothers hself]
      refine ⟨changes.full hj fun hmem => hnot (blank_mem_operations.mp hmem), .inr ?_⟩
      by_cases hus : ∃ l, (j, l) ∈ us
      · obtain ⟨l, hl⟩ := hus
        exact .inl ⟨l, updates _ hl⟩
      · -- neither updated nor removed nor, being full, added
        have hadded : ∀ l, (j, l) ∉ added := fun l hl => hnot (hfreed hl hj)
        exact .inr (changes.leaf_of_notMem (by simpa [operations, hnot, hadded] using hus))
    · obtain ⟨n2, us', added', happlied, -, hinvited⟩ := applied_of_ok hwf fits happly
      rcases invited own t2 values happly with hsame | ⟨-, hnone, -⟩
      · obtain ⟨e, he, hleaf⟩ : ∃ e ∈ added, e.2 = kp.leafNode := by
          rw [hsame, ← hinvited, ← mem_map, happlied.adds]
          exact mem_map_of_mem hkp
        refine ⟨e.1, ?_, (changes.new_members.2 e he).1⟩
        rw [hothers fun hself => ?_, ← hleaf]
        · exact changes.leaf_of_added he
        · -- the leaf of the committer is not free, unless nobody is added
          rcases hcommitter with ⟨hfull, hnot⟩ | ⟨-, hnone⟩
          · exact hnot (hself ▸ hfreed he (hself ▸ hfull))
          · simp [hnone] at hkp
      · rw [hnone] at hinvited
        have hempty := happlied.length_added.symm.trans (congrArg List.length hinvited)
        rw [length_eq_zero_iff.mp hempty] at hkp
        cases hkp

/-- The founder puts member 3 in the place of member 1. -/
def replacing : Commit (List ℕ) :=
  .own 0 [(.remove 1, .member 0), (.add (memberPackage 3), .member 0)] false ⟨2000, none, []⟩
    (2001 + ·)

/-- Member 2 keeps its leaf. -/
theorem commit_members_replaced :
    ∃ g, smallRun (fun _ _ => true) [invites [1, 2]] = some g ∧
      ∃ g', g.commit plainHash lenientRules replacing = .ok g' ∧
        g'.treesync.leaf 1 = some (memberLeaf 3) ∧ g'.treesync.leaf 2 = g.treesync.leaf 2 := by
  refine exists_some_imp (P := fun g => (g.treesync.leaf 2).isSome ∧ ∃ g',
    g.commit plainHash lenientRules replacing = .ok g' ∧
      g'.treesync.leaf 1 = some (memberLeaf 3)) (by decide +kernel) ?_
  rintro g hg ⟨hfull, g', hcommit, hleaf⟩
  obtain ⟨-, hfounder | ⟨l, ⟨⟩⟩ | hkept⟩ := (commit_members _ _ (reaches_smallRun
    (fun _ hg => .inl ⟨_, _, hg⟩) (fun _ _ _ => trivial) hg) hcommit).2.1 2 hfull
    (by simp [Commit.proposals, replacing, removeProposals])
  · exact absurd hfounder two_ne_zero
  · exact ⟨g', hcommit, hleaf, hkept⟩

end PublicGroup

end EmulatedMls
