import EmulatedMls.Tree.Session

/-!
# What a staged commit has done

`CommitSpec` says that staging a commit returns, for a group whose cache is right.  Here nothing is
assumed of the cache: if a commit is staged, it has applied its proposals and set the path of its
committer, or it has left the tree alone.
-/

namespace EmulatedMls

variable {D : Type} {H : HashSuite D}

open Exec List TreeSyncDiff

variable {α : Type} {a : α}

@[simp] lemma liftTree_eq_ok {x : Except TreeSyncError α} : liftTree x = .ok a ↔ x = .ok a := by
  cases x <;> simp [liftTree]

@[simp] lemma liftValidation_eq_ok {x : Except ProposalValidationError α} :
    liftValidation x = .ok a ↔ x = .ok a := by
  cases x <;> simp [liftValidation]

@[simp] lemma liftExternal_eq_ok {x : Except ExternalCommitValidationError α} :
    liftExternal x = .ok a ↔ x = .ok a := by
  cases x <;> simp [liftExternal]

lemma PublicGroup.requireMember_eq_ok {b : Bool} :
    PublicGroup.requireMember b = .ok () ↔ b = true := by
  cases b <;> simp [PublicGroup.requireMember]

/-! ## Paths -/

variable {i n n1 : ℕ} {l : LeafNode D} {t : TreeSyncDiff D}

/-- The path of leaf `i` with the keys `ks` and the new leaf `l` is set. -/
structure PathStep (H : HashSuite D) (t : TreeSyncDiff D) (n i : ℕ) (ks : List Key)
    (l : LeafNode D) (t' : TreeSyncDiff D) : Prop where
  wellFormed : t.WellFormed n
  full : (t.contents.leaf i).isSome
  written : ∃ ns, t.PathWritten n i ns l t' ∧ ns.map (·.2.encryptionKey) = ks
  tracked : ∀ C m, Tracks H C m t → m ≤ n →
    (t.pathLevels n i = [] → ∀ j ∈ t.diff.leafDiff, j = i) →
    ∃ es, PathSet H t n i es l t'

variable {keys : ℕ → Key}

section Paths

variable [DecidableEq D] {t t' : TreeSyncDiff D} {n i : ℕ}

lemma PathStep.setOwnPath (h : t.WellFormed n) (hi : (t.contents.leaf i).isSome)
    {params : UpdateLeafNodeParams} (hok : t.setOwnPath H i params keys = .ok (t', l)) :
    PathStep H t n i ((List.range (t.pathLevels n i).length).map keys) l t' := by
  refine ⟨h, hi, setOwnPath_written h hi hok, fun C m htracks hmn honly => ?_⟩
  obtain ⟨t1, l1, es, happly, hset⟩ :=
    PublicGroup.applyOwnUpdatePath_keys h htracks hmn hi honly params keys
  obtain ⟨nodes, hnodes, hok⟩ := bind_inv hok
  rw [filteredDirectPath_eq h.shaped (h.lt_pow hi)] at hnodes
  cases hnodes
  rw [length_map, happly] at hok
  cases hok
  exact ⟨es, hset⟩

lemma PathStep.receivedPath {t0 : TreeSyncDiff D} {p : UpdatePath D}
    (hadd : t0.addSender i p.leafNode = .ok t) (h : t.WellFormed n)
    (hi : (t.contents.leaf i).isSome) (hok : t0.applyReceivedUpdatePath H i p = .ok t') :
    PathStep H t n i p.nodes p.leafNode t' := by
  refine ⟨h, hi, receivedPath_written hadd h hi hok, fun C m htracks hmn honly => ?_⟩
  obtain ⟨es, hset, -⟩ :=
    (applyReceivedUpdatePath_spec hadd h htracks hmn hi honly).post_of_ok hok
  exact ⟨es, hset⟩

end Paths

/-! ## Making a commit -/

namespace PublicGroupDiff

variable {extensions : Option Bytes} {d d' : PublicGroupDiff D} {p : UpdatePath D}

lemma updateGroupContext_eq_ok (h : d.updateGroupContext extensions = .ok d') :
    ∃ treeHash, d.diff.rootHash = .ok treeHash ∧ d' = ⟨d.diff, d.groupContext.epoch + 1, treeHash,
      extensions.getD d.groupContext.extensions⟩ := by
  obtain ⟨treeHash, hroot, hok⟩ := bind_inv h
  exact ⟨treeHash, hroot, (pure_eq_ok.mp hok).symm⟩

variable {type : CommitType} {params : LeafNodeParameters}

lemma leafNodeParams_eq_ok {leafParams : UpdateLeafNodeParams}
    (h : d.leafNodeParams i type params = .ok leafParams) :
    leafParams.encryptionKey = params.encryptionKey := by
  unfold leafNodeParams at h
  split at h
  · rw [← Except.ok.inj h]
  · split at h
    · cases h
    · rw [← Except.ok.inj h]

variable [DecidableEq D]

/-- A committer has set its path in the tree `t`. -/
structure PathMade (H : HashSuite D) (groupContext : GroupContext D) (t : TreeSyncDiff D) (i : ℕ)
    (keys : ℕ → Key) (extensions : Option Bytes) (d : PublicGroupDiff D) (p : UpdatePath D) :
    Prop where
  nodes : ∃ nodes, t.filteredDirectPath i = .ok nodes ∧
    p.nodes = (List.range nodes.length).map keys
  set : ∃ params, t.setOwnPath H i params keys = .ok (d.diff, p.leafNode)
  context : updateGroupContext ⟨d.diff, groupContext⟩ extensions = .ok d

lemma computePath_eq_ok (h : d.computePath H i type params keys extensions = .ok (d', p)) :
    ∃ t, addPlaceholder d.diff type = .ok t ∧
      PathMade H d.groupContext t i keys extensions d' p ∧
      p.leafNode.encryptionKey = params.encryptionKey := by
  obtain ⟨leafParams, hparams, h⟩ := bind_inv h
  obtain ⟨t, hplace, h⟩ := bind_inv h
  obtain ⟨nodes, hnodes, h⟩ := bind_inv h
  obtain ⟨⟨t', l⟩, happly, h⟩ := bind_inv h
  obtain ⟨d1, hcontext, h⟩ := bind_inv h
  cases h
  rw [liftTree_eq_ok, lift_eq_ok] at hnodes happly hcontext
  obtain ⟨treeHash, hroot, rfl⟩ := updateGroupContext_eq_ok hcontext
  refine ⟨t, hplace, ⟨⟨nodes, hnodes, rfl⟩, ⟨leafParams, ?_⟩, hcontext⟩, ?_⟩
  · rw [TreeSyncDiff.setOwnPath, hnodes]
    exact happly
  · obtain ⟨⟨t1, x⟩, -, happly⟩ := bind_inv happly
    obtain ⟨⟨t2, y⟩, -, happly⟩ := bind_inv happly
    obtain ⟨-, rfl⟩ := Prod.mk.inj (pure_eq_ok.mp happly)
    exact leafNodeParams_eq_ok hparams

lemma PathMade.step {groupContext : GroupContext D}
    (h : PathMade H groupContext t i keys extensions d p) (hwf : t.WellFormed n)
    (hi : (t.contents.leaf i).isSome) : PathStep H t n i p.nodes p.leafNode d.diff := by
  obtain ⟨nodes, hnodes, hkeys⟩ := h.nodes
  obtain ⟨params, hset⟩ := h.set
  rw [filteredDirectPath_eq hwf.shaped (hwf.lt_pow hi)] at hnodes
  rw [hkeys, ← Except.ok.inj hnodes, length_map]
  exact .setOwnPath hwf hi hset

end PublicGroupDiff

namespace PublicGroup

variable {rules : GroupView D} {g : PublicGroup D} {d : PublicGroupDiff D}

variable {values : ApplyProposalsValues D} {es : List (Proposal D × Sender)}
  {t t' t1 : TreeSyncDiff D} {us added : List (ℕ × LeafNode D)} {n own : ℕ} {keys : ℕ → Key}
  {params : LeafNodeParameters} {selfUpdate : Bool} {signatureKey : Key} {credential : String}
  {kemOutput : Bytes} {path : Option (UpdatePath D)} {p : UpdatePath D} {c : Commit D}
  {proposals : List (Proposal D)} {g' : PublicGroup D}

/-- Who applies the proposals only decides whether it is removed itself. -/
lemma applyProposals_eq_ok {own : Option ℕ} (h : applyProposals t es own = .ok (t', values))
    (own' : Option ℕ) :
    applyProposals t es own' = .ok (t', { values with
      selfRemoved := (removeProposals es).any fun i => own' = some i }) := by
  obtain ⟨t1, hupdates, h⟩ := bind_inv h
  obtain ⟨t2, hremoves, h⟩ := bind_inv h
  obtain ⟨⟨t3, invited⟩, hadds, h⟩ := bind_inv h
  obtain ⟨rfl, rfl⟩ := Prod.mk.inj (pure_eq_ok.mp h)
  exact bind_ok hupdates (bind_ok hremoves (bind_ok hadds rfl))

lemma invitationList_eq {t2 : TreeSyncDiff D} {own own' : Option ℕ}
    {values' : ApplyProposalsValues D} (h : applyProposals t es own = .ok (t1, values))
    (h' : applyProposals t es own' = .ok (t2, values')) :
    values'.invitationList = values.invitationList := by
  rw [applyProposals_eq_ok h own'] at h'
  obtain ⟨-, rfl⟩ := Prod.mk.inj (Except.ok.inj h')
  rfl

variable {m : ℕ}

lemma applied_of_ok {own : Option ℕ} (hwf : g.treesync.emptyDiff.WellFormed m)
    (hfits : Fits g.treesync.contents es)
    (h : applyProposals g.treesync.emptyDiff es own = .ok (t, values)) :
    ∃ n us added, Applied g.treesync.emptyDiff m es us added t n ∧
      (values.pathRequired = false → es.any (·.1.isPathRequired) = false) ∧
      added = values.invitationList.map fun e => (e.1, e.2.leafNode) :=
  (applyProposals_spec hwf hfits own).post_of_ok h

section Build

variable {α : Type} {make : PublicGroupDiff D → ApplyProposalsValues D →
  Except CommitError (PublicGroupDiff D × α)}

lemma buildInternal_eq_ok {path : Option α} :
    g.buildInternal rules make own es selfUpdate = .ok (d, path, values) ↔
      ((g.treesync.leaf own).isSome && g.sendersKnown es) = true ∧
      validateOwnCommit (g.view rules) own es = .ok () ∧
      ∃ t, applyProposals g.treesync.emptyDiff es (some own) = .ok (t, values) ∧
        (values.pathRequired || selfUpdate) = path.isSome ∧ match path with
        | some p => make ⟨t, g.groupContext⟩ values = .ok (d, p)
        | none => PublicGroupDiff.updateGroupContext ⟨t, g.groupContext⟩ values.extensions =
            .ok d := by
  unfold buildInternal
  rw [seq_eq_ok, seq_eq_ok, requireMember_eq_ok, liftValidation_eq_ok]
  refine and_congr_right fun _ => and_congr_right fun _ => ?_
  constructor
  · intro h
    obtain ⟨⟨t, values'⟩, happly, h⟩ := bind_inv h
    dsimp only at h
    split_ifs at h with hneeded
    · obtain ⟨⟨d1, p⟩, hmake, h⟩ := bind_inv h
      cases h
      exact ⟨t, happly, hneeded, hmake⟩
    · obtain ⟨d1, hcontext, h⟩ := bind_inv h
      cases h
      rw [liftTree_eq_ok, lift_eq_ok] at hcontext
      exact ⟨t, happly, Bool.eq_false_iff.mpr hneeded, hcontext⟩
  · rintro ⟨t, happly, hneeded, hrest⟩
    refine bind_ok happly (?_)
    dsimp only
    rw [hneeded]
    cases path with
    | some p => exact bind_ok hrest rfl
    | none => exact bind_ok (liftTree_eq_ok.mpr (lift_eq_ok.mpr hrest)) rfl

/-- What the commit of a member has done before its path, where `own` applies the proposals. -/
structure Built (g : PublicGroup D) (m committer : ℕ) (own : Option ℕ)
    (es : List (Proposal D × Sender)) (values : ApplyProposalsValues D)
    (us added : List (ℕ × LeafNode D)) (t : TreeSyncDiff D) (n : ℕ) : Prop where
  member : (g.treesync.contents.leaf committer).isSome
  stays : committer ∉ removeProposals es
  apply : applyProposals g.treesync.emptyDiff es own = .ok (t, values)
  fits : Fits g.treesync.contents es
  applied : Applied g.treesync.emptyDiff m es us added t n
  invited : added = values.invitationList.map (fun e => (e.1, e.2.leafNode))
  full : (t.contents.leaf committer).isSome

/-- **A member's commit** has applied its proposals, and its author is still there. -/
lemma buildInternal_built (hwf : g.treesync.emptyDiff.WellFormed m) {path : Option α}
    (h : g.buildInternal rules make own es selfUpdate = .ok (d, path, values)) :
    ∃ t n us added, Built g m own (some own) es values us added t n ∧
      (values.pathRequired || selfUpdate) = path.isSome ∧ match path with
        | some p => make ⟨t, g.groupContext⟩ values = .ok (d, p)
        | none => d.diff = t ∧ es.any (·.1.isPathRequired) = false := by
  obtain ⟨hmember, hvalid, t, happly, hneeded, hrest⟩ := buildInternal_eq_ok.mp h
  rw [Bool.and_eq_true, ← TreeSync.contents_leaf hwf.shaped] at hmember
  simp only [validateOwnCommit, seq_eq_ok, require_eq_ok, decide_eq_true_eq] at hvalid
  obtain ⟨-, -, -, -, hremoves, -, -, -, hnot⟩ := hvalid
  have hfits := fits_of_valid hwf hmember.2 hremoves
  obtain ⟨n, us, added, happlied, hpath, hinvited⟩ := applied_of_ok hwf hfits happly
  refine ⟨t, n, us, added, ⟨hmember.1, hnot, happly, hfits, happlied, hinvited,
    happlied.full hmember.1 hnot⟩, hneeded, ?_⟩
  cases path with
  | some p => exact hrest
  | none =>
    obtain ⟨treeHash, -, rfl⟩ := PublicGroupDiff.updateGroupContext_eq_ok hrest
    exact ⟨rfl, hpath (Bool.or_eq_false_iff.mp hneeded).1⟩

end Build

lemma joinByExternalCommit_eq_ok {α : Type} {make : ℕ → PublicGroupDiff D →
      ApplyProposalsValues D → Except CommitError (PublicGroupDiff D × α)} {x : α}
    (hproposals : proposals = g.externalProposals kemOutput signatureKey)
    (howner : own = g.leftmostFreeIndex proposals) :
    g.joinByExternalCommit rules make kemOutput signatureKey = .ok (d, x, values) ↔
      validateOwnExternal (g.view rules) (byNewMember proposals) = .ok () ∧
      ∃ t, applyProposals g.treesync.emptyDiff (byNewMember proposals) (some own) =
        .ok (t, values) ∧ make own ⟨t, g.groupContext⟩ values = .ok (d, x) := by
  subst hproposals howner
  unfold joinByExternalCommit
  dsimp only
  rw [seq_eq_ok, liftValidation_eq_ok]
  refine and_congr_right fun _ => ⟨fun h => ?_, ?_⟩
  · obtain ⟨⟨t, values'⟩, happly, h⟩ := bind_inv h
    obtain ⟨⟨d1, x1⟩, hmake, h⟩ := bind_inv h
    cases h
    exact ⟨t, happly, hmake⟩
  · rintro ⟨t, happly, hmake⟩
    exact bind_ok happly (bind_ok hmake rfl)

variable [DecidableEq D]

def Commit.updatePath (H : HashSuite D) (rules : GroupView D) (g : PublicGroup D) :
    Commit D → Option (UpdatePath D)
  | .own i es selfUpdate params keys =>
    (g.createCommit H rules i es selfUpdate params keys).toOption.bind Prod.snd
  | .received _ _ path => path
  | .external kemOutput credential signatureKey params keys =>
    (g.createExternalCommit H rules kemOutput credential signatureKey params keys).toOption.map
      Prod.snd
  | .externalReceived _ path => path

/-! ## The shape of a commit -/

inductive CommitShape (H : HashSuite D) (rules : GroupView D) (g : PublicGroup D) (m : ℕ)
    (c : Commit D) : TreeSyncDiff D → ℕ → Prop where
  | untouched (sent : c.updatePath H rules g = none) :
      CommitShape H rules g m c g.treesync.emptyDiff m
  | path {us added : List (ℕ × LeafNode D)} {t t' : TreeSyncDiff D} {n : ℕ} {p : UpdatePath D}
      (fits : Fits g.treesync.contents (c.proposals g))
      (changes : g.treesync.emptyDiff.Changes m
        (operations us (removeProposals (c.proposals g)) added) t n)
      (updates : ∀ e ∈ us, (e.2, Sender.member e.1) ∈ updateProposals (c.proposals g))
      (adds : ∀ e ∈ added, e.2 ∈ (addProposals (c.proposals g)).map KeyPackage.leafNode ∨
        c.isExternal ∧ e.1 = c.committer g)
      (invited : ∀ own t1 values,
        applyProposals g.treesync.emptyDiff (c.proposals g) own = .ok (t1, values) →
        added = values.invitationList.map (fun e => (e.1, e.2.leafNode)) ∨
          c.isExternal ∧ values.invitationList = [] ∧ added.map Prod.fst = [c.committer g])
      (sent : c.updatePath H rules g = some p)
      (step : PathStep H t n (c.committer g) p.nodes p.leafNode t') :
      CommitShape H rules g m c t' n

section Built

variable {applier : Option ℕ}
  (h : Built g m (c.committer g) applier (c.proposals g) values us added t n)
include h

lemma Built.shape (hsent : c.updatePath H rules g = some p)
    (hstep : PathStep H t n (c.committer g) p.nodes p.leafNode t') :
    CommitShape H rules g m c t' n :=
  .path h.fits h.applied.changes h.applied.updates
    (fun e he => .inl (h.applied.mem_adds he))
    (fun _ _ _ happly => .inl (by rw [h.invited, invitationList_eq h.apply happly])) hsent hstep

lemma Built.untouched (hsent : c.updatePath H rules g = none)
    (hnone : d.diff = t ∧ (c.proposals g).any (·.1.isPathRequired) = false) :
    ∃ n, CommitShape H rules g m c d.diff n := by
  rw [hnone.1, (h.applied.eq_of_not_pathRequired hnone.2).1]
  exact ⟨m, .untouched hsent⟩

end Built

section

variable (hwf : g.treesync.emptyDiff.WellFormed m)
include hwf

section

variable (h : g.createCommit H rules own es selfUpdate params keys = .ok (d, path))
include h

lemma createCommit_built :
    ∃ values t n us added, Built g m own (some own) es values us added t n ∧
      (values.pathRequired || selfUpdate) = path.isSome ∧ match path with
        | some p =>
          PublicGroupDiff.PathMade H g.groupContext t own keys values.extensions d p ∧
            p.leafNode.encryptionKey = params.encryptionKey
        | none => d.diff = t ∧ es.any (·.1.isPathRequired) = false := by
  obtain ⟨⟨d1, path1, values⟩, hbuild, hpure⟩ := bind_inv h
  cases hpure
  obtain ⟨t, n, us, added, hbuilt, hneeded, hrest⟩ := buildInternal_built hwf hbuild
  refine ⟨values, t, n, us, added, hbuilt, hneeded, ?_⟩
  cases path with
  | some p =>
    obtain ⟨t1, hplace, hmade⟩ := PublicGroupDiff.computePath_eq_ok hrest
    cases hplace
    exact hmade
  | none => exact hrest

lemma createCommit_shape :
    ∃ n, CommitShape H rules g m (.own own es selfUpdate params keys) d.diff n := by
  have hsent : Commit.updatePath H rules g (.own own es selfUpdate params keys) = path := by
    rw [Commit.updatePath, h]
    rfl
  obtain ⟨values, t, n, us, added, hbuilt, -, hrest⟩ := createCommit_built hwf h
  cases path with
  | some p =>
    have hwf1 := hbuilt.applied.changes.wellFormed hwf
    exact ⟨n, hbuilt.shape hsent (hrest.1.step hwf1 hbuilt.full)⟩
  | none => exact hbuilt.untouched hsent hrest

end

lemma commitReceived_built {committer : ℕ}
    (h : g.commitReceived H rules committer es path = .ok d) :
    ∃ values t n us added, Built g m committer none es values us added t n ∧ match path with
      | some p => t.applyReceivedUpdatePath H committer p = .ok d.diff
      | none => d.diff = t ∧ es.any (·.1.isPathRequired) = false := by
  obtain ⟨u, hmember, h⟩ := bind_inv h
  rw [requireMember_eq_ok, Bool.and_eq_true, ← TreeSync.contents_leaf hwf.shaped] at hmember
  split_ifs at h with hnot
  obtain ⟨v, hvalid, h⟩ := bind_inv h
  rw [liftValidation_eq_ok] at hvalid
  have hfits := fits_of_valid hwf hmember.2 (validateReceivedProposals_removes hvalid)
  obtain ⟨⟨t, values⟩, happly, h⟩ := bind_inv h
  obtain ⟨n, us, added, happlied, hpath, hinvited⟩ := applied_of_ok hwf hfits happly
  refine ⟨values, t, n, us, added, ⟨hmember.1, hnot, happly, hfits, happlied, hinvited,
    happlied.full hmember.1 hnot⟩, ?_⟩
  cases path with
  | some p =>
    obtain ⟨t', hreceived, h⟩ := bind_inv h
    rw [liftTree_eq_ok] at hreceived
    rw [liftTree_eq_ok, lift_eq_ok] at h
    obtain ⟨treeHash, -, rfl⟩ := PublicGroupDiff.updateGroupContext_eq_ok h
    exact hreceived
  | none =>
    dsimp only at h
    split_ifs at h with hneeded
    rw [liftTree_eq_ok, lift_eq_ok] at h
    obtain ⟨treeHash, -, rfl⟩ := PublicGroupDiff.updateGroupContext_eq_ok h
    exact ⟨rfl, hpath (by simpa using hneeded)⟩

lemma commitReceived_shape {committer : ℕ}
    (h : g.commitReceived H rules committer es path = .ok d) :
    ∃ n, CommitShape H rules g m (.received committer es path) d.diff n := by
  obtain ⟨values, t, n, us, added, hbuilt, hrest⟩ := commitReceived_built hwf h
  cases path with
  | some p =>
    have hwf1 := hbuilt.applied.changes.wellFormed hwf
    exact ⟨n, hbuilt.shape rfl
      (.receivedPath (addSender_of_full hwf1 hbuilt.full _) hwf1 hbuilt.full hrest)⟩
  | none => exact hbuilt.untouched rfl hrest

lemma external_shape (hexternal : c.isExternal = true)
    (hfits : Fits g.treesync.contents (c.proposals g)) (hadds : addProposals (c.proposals g) = [])
    (happlied : Applied g.treesync.emptyDiff m (c.proposals g) us added t n)
    (hedit : t.Edited n (.add l) (c.committer g) t1 n1) (hsent : c.updatePath H rules g = some p)
    (hstep : PathStep H t1 n1 (c.committer g) p.nodes p.leafNode t') :
    CommitShape H rules g m c t' n1 := by
  refine .path hfits (happlied.join hadds hedit) happlied.updates (fun e he => ?_)
    (fun own t2 values happly => .inr ⟨hexternal, ?_, rfl⟩) hsent hstep
  · rw [mem_singleton] at he
    exact .inr ⟨hexternal, by rw [he]⟩
  · obtain ⟨n2, us', added', happlied', -, hinvited⟩ := applied_of_ok hwf hfits happly
    have hnone := happlied'.length_added.trans (congrArg List.length hadds)
    rw [hinvited, length_map] at hnone
    exact length_eq_zero_iff.mp hnone

lemma createExternalCommit_made
    (hproposals : proposals = g.externalProposals kemOutput signatureKey)
    (howner : own = g.leftmostFreeIndex proposals)
    (h : g.createExternalCommit H rules kemOutput credential signatureKey params keys =
      .ok (d, p)) :
    ∃ t t1 values n n1 us added,
      applyProposals g.treesync.emptyDiff (byNewMember proposals) (some own) = .ok (t, values) ∧
      Fits g.treesync.contents (byNewMember proposals) ∧
      Applied g.treesync.emptyDiff m (byNewMember proposals) us added t n ∧
      t.addLeaf LeafNode.placeholder = .ok (t1, own) ∧
      t.Edited n (.add LeafNode.placeholder) own t1 n1 ∧
      PublicGroupDiff.PathMade H g.groupContext t1 own keys values.extensions d p := by
  obtain ⟨⟨d1, p1, values⟩, hjoin, hpure⟩ := bind_inv h
  cases hpure
  obtain ⟨hvalid, t, happly, hcompute⟩ := (joinByExternalCommit_eq_ok hproposals howner).mp hjoin
  subst hproposals howner
  obtain ⟨hadds, hone⟩ := g.externalProposals_cases kemOutput signatureKey
  simp only [validateOwnExternal, seq_eq_ok] at hvalid
  have hfits := fits_of_newMember hwf hvalid.2.2.2.2.1
  obtain ⟨n, us, added, happlied, -⟩ := applied_of_ok hwf hfits happly
  have hindex := freeLeafIndex_applied hwf hfits hone hadds happlied
  obtain ⟨t1, hplace, hmade, -⟩ := PublicGroupDiff.computePath_eq_ok hcompute
  obtain ⟨⟨t2, i⟩, hadd, hpure⟩ := bind_inv hplace
  cases hpure
  rw [liftTree_eq_ok] at hadd
  rcases addLeaf_spec (happlied.changes.wellFormed hwf) LeafNode.placeholder with
    hfull | ⟨t3, n1, hadd', hedit⟩
  · rw [show t.addLeaf LeafNode.placeholder = _ from hadd] at hfull
    cases hfull
  · obtain ⟨rfl, -⟩ := Prod.mk.inj (Exec.unique hadd' hadd)
    rw [hindex] at hadd' hedit
    exact ⟨t, t3, values, n, n1, us, added, happly, hfits, happlied, hadd', hedit, hmade⟩

lemma createExternalCommit_shape
    (h : g.createExternalCommit H rules kemOutput credential signatureKey params keys =
      .ok (d, p)) :
    ∃ n, CommitShape H rules g m (.external kemOutput credential signatureKey params keys)
      d.diff n := by
  have hsent : Commit.updatePath H rules g
      (.external kemOutput credential signatureKey params keys) = some p := by
    rw [Commit.updatePath, h]
    rfl
  obtain ⟨t, t1, values, n, n1, us, added, -, hfits, happlied, -, hedit, hmade⟩ :=
    createExternalCommit_made hwf rfl rfl h
  exact ⟨n1, external_shape hwf rfl hfits (g.externalProposals_cases kemOutput signatureKey).1
    happlied hedit hsent (hmade.step hedit.wellFormed hedit.full_of_add)⟩

lemma commitExternalReceived_shape (h : g.commitExternalReceived H rules proposals path = .ok d) :
    ∃ n, CommitShape H rules g m (.externalReceived proposals path) d.diff n := by
  unfold commitExternalReceived at h
  cases path with
  | none => cases h
  | some p =>
    dsimp only at h
    split_ifs at h with hmany
    obtain ⟨v, hvalid, h⟩ := bind_inv h
    obtain ⟨w, hexternal, h⟩ := bind_inv h
    obtain ⟨⟨t, values⟩, happly, h⟩ := bind_inv h
    obtain ⟨t', hreceived, h⟩ := bind_inv h
    rw [liftValidation_eq_ok] at hvalid
    simp only [validateReceivedExternal, seq_eq_ok] at hvalid
    rw [liftExternal_eq_ok] at hexternal
    rw [liftTree_eq_ok] at hreceived
    rw [liftTree_eq_ok, lift_eq_ok] at h
    obtain ⟨treeHash, -, rfl⟩ := PublicGroupDiff.updateGroupContext_eq_ok h
    have hfits := fits_of_newMember hwf hvalid.2.2.2.2.1
    obtain ⟨hadds, -⟩ := validateExternalCommit_eq_ok hexternal
    obtain ⟨n, us, added, happlied, -⟩ := applied_of_ok hwf hfits happly
    have hwf1 := happlied.changes.wellFormed hwf
    have hindex := freeLeafIndex_applied hwf hfits (not_lt.mp hmany) hadds happlied
    obtain ⟨t1, hadd, -⟩ := bind_inv hreceived
    obtain ⟨n1, hedit⟩ :=
      (addSender_of_blank hwf1 (hindex ▸ hwf1.leaf_freeLeafIndex) p.leafNode).post_of_ok hadd
    exact ⟨n1, external_shape (c := .externalReceived proposals (some p)) hwf rfl hfits hadds
      happlied hedit rfl (.receivedPath hadd hedit.wellFormed hedit.full_of_add hreceived)⟩

lemma stage_shape (h : g.stage H rules c = .ok d) : ∃ n, CommitShape H rules g m c d.diff n := by
  cases c with
  | own own es selfUpdate params keys =>
    obtain ⟨⟨d1, path⟩, hcreate, hpure⟩ := bind_inv h
    cases hpure
    exact createCommit_shape hwf hcreate
  | received committer es path => exact commitReceived_shape hwf h
  | external kemOutput credential signatureKey params keys =>
    obtain ⟨⟨d1, p⟩, hcreate, hpure⟩ := bind_inv h
    cases hpure
    exact createExternalCommit_shape hwf hcreate
  | externalReceived proposals path => exact commitExternalReceived_shape hwf h

end

/-! ## Runs -/

/-- The counters and the vectors of the tree are those of a tree of depth `n`. -/
structure Formed (g : PublicGroup D) (n : ℕ) : Prop where
  sized : g.treesync.Sized n
  wellFormed : g.treesync.emptyDiff.WellFormed n

omit [DecidableEq D] in
lemma Sound.formed (h : g.Sound H n) : g.Formed n :=
  ⟨⟨h.intact.leaves, h.intact.parents⟩, h.wellFormed⟩

lemma CommitShape.wellFormed (h : CommitShape H rules g m c t n)
    (hwf : g.treesync.emptyDiff.WellFormed m) :
    t.WellFormed n ∧ t.diff.originalTree = g.treesync.tree := by
  cases h with
  | untouched => exact ⟨hwf, rfl⟩
  | path fits changes updates adds invited sent step =>
    obtain ⟨ns, hwritten, -⟩ := step.written
    exact ⟨hwritten.wellFormed, hwritten.tree.trans changes.frame.2.1⟩

omit [DecidableEq D] in
lemma Formed.of_mergeDiff (hwf : d.diff.WellFormed n)
    (htree : d.diff.diff.originalTree = g.treesync.tree) (hmerge : g.mergeDiff d = .ok g') :
    g'.Formed n ∧ g'.treesync.contents = d.diff.contents ∧
      g'.treesync.treeHashes = d.diff.treeHashes := by
  obtain ⟨staged, hstaged, hpure⟩ := bind_inv hmerge
  cases hpure
  obtain ⟨hsized, hcontents, hblanked, hmembers⟩ :=
    TreeSync.sized_mergeDiff hwf.shaped htree hstaged
  have hhashes : (g.treesync.mergeDiff staged).treeHashes = d.diff.treeHashes := by
    obtain ⟨root, -, hok⟩ := bind_inv hstaged
    cases hok
    rfl
  refine ⟨⟨hsized, hwf.congr hsized.shaped hblanked hmembers fun j => ?_⟩, hcontents, hhashes⟩
  show ((g.treesync.mergeDiff staged).contents.leaf j).isSome = _
  rw [hcontents]

/-- **A merged commit**, whatever the cache holds. -/
lemma Formed.commit (h : g.Formed m) (hcommit : g.commit H rules c = .ok g') :
    ∃ n t, g'.Formed n ∧ CommitShape H rules g m c t n ∧ g'.treesync.contents = t.contents ∧
      g'.treesync.treeHashes = t.treeHashes := by
  obtain ⟨d, hstage, hmerge⟩ := bind_inv hcommit
  obtain ⟨n, hshape⟩ := stage_shape h.wellFormed hstage
  rw [liftTree_eq_ok, lift_eq_ok] at hmerge
  obtain ⟨hwf, htree⟩ := hshape.wellFormed h.wellFormed
  obtain ⟨hformed, hcontents, hhashes⟩ := Formed.of_mergeDiff hwf htree hmerge
  exact ⟨n, d.diff, hformed, hshape, hcontents, hhashes⟩

lemma Formed.join {joining : JoinRules D} {r : RatchetTree D} {info : GroupInfo D}
    (hjoin : fromExternal H joining r info = .ok g') : ∃ n, g'.Formed n := by
  obtain ⟨himport, -, -⟩ := started_of_fromExternal hjoin
  obtain ⟨n, hwf, hintact⟩ := TreeSync.fromRatchetTree_sound himport
  exact ⟨n, ⟨hintact.leaves, hintact.parents⟩, hwf⟩

lemma formed_of_reaches {init : PublicGroup D → Prop} {ok : PublicGroup D → Event D → Prop}
    (hinit : ∀ g, init g → g.Founded H ∨ g.Started H)
    (h : (groupRuns H rules init).Reaches ok g) : ∃ n, g.Formed n := by
  have hstart : ∀ g, init g → ∃ n, g.Formed n := fun g hg => by
    rcases hinit g hg with hfounded | hstarted
    · exact ⟨0, (sound_of_founded hfounded).formed⟩
    · obtain ⟨n, hsound⟩ := sound_of_started hstarted
      exact ⟨n, hsound.formed⟩
  refine h.invariant hstart ?_
  rintro g e g' ⟨m, hformed⟩ - hstep
  cases e with
  | commit c =>
    obtain ⟨n, t, hformed', -⟩ := hformed.commit (toOption_eq_some.mp hstep)
    exact ⟨n, hformed'⟩
  | join joining signer verifies => exact Formed.join (toOption_eq_some.mp hstep)

/-! ## The index of an external joiner -/

/-- The leaf of a new sender is added where the tree has its first free leaf. -/
lemma applyReceivedUpdatePath_free {t : TreeSyncDiff D} {n : ℕ} (h : t.WellFormed n)
    (p : UpdatePath D) : Ensures (· = TreeSyncError.inconsistentSenderIndex) (fun _ => True)
      (t.applyReceivedUpdatePath H t.freeLeafIndex p) := by
  have hlift {α : Type} (x : Exec α) :
      Ensures (· = TreeSyncError.inconsistentSenderIndex) (fun _ => True) (lift x) := by
    cases x <;> simp [lift, Ensures]
  have hsender : Ensures (· = TreeSyncError.inconsistentSenderIndex) (fun _ => True)
      (t.addSender t.freeLeafIndex p.leafNode) := by
    unfold addSender
    split_ifs
    · rcases addLeaf_spec h p.leafNode with hfull | ⟨t', n', hadd, -⟩
      · rw [hfull]
        rintro ⟨⟩
      · rw [hadd]
        simp [bind, Except.bind, Ensures, pure, Except.pure]
    · trivial
  refine hsender.bind fun t1 _ => (hlift _).bind fun nodes _ => ?_
  split_ifs
  · rintro ⟨⟩
  refine (hlift _).bind fun r _ => ?_
  dsimp only
  split
  · rintro ⟨⟩
  split_ifs
  · rintro ⟨⟩
  · exact (hlift _).bind fun _ _ => trivial

/-- **The index of an external joiner** is predicted from the group before the proposals, on the
    joiner's and on every receiver's side. -/
theorem external_index (H : HashSuite D) (rules : GroupView D) {g : PublicGroup D}
    (h : (groupRuns H rules fun g => g.Founded H ∨ g.Started H).Reaches (fun _ _ => True) g)
    (proposals : List (Proposal D))
    (hexternal : validateExternalCommit (byNewMember proposals) = .ok ())
    (hone : (removeProposals (byNewMember proposals)).length ≤ 1)
    (hmember : ∀ i ∈ removeProposals (byNewMember proposals), (g.treesync.leaf i).isSome)
    {own : Option ℕ} {t : TreeSyncDiff D} {values : ApplyProposalsValues D}
    (happly : applyProposals g.treesync.emptyDiff (byNewMember proposals) own = .ok (t, values)) :
    (∀ l t' i, t.addLeaf l = .ok (t', i) → i = g.leftmostFreeIndex proposals) ∧
      ∀ p, t.applyReceivedUpdatePath H (g.leftmostFreeIndex proposals) p ≠
        .error .inconsistentSenderIndex := by
  obtain ⟨n, hformed⟩ := formed_of_reaches (fun _ hg => hg) h
  have hwf := hformed.wellFormed
  obtain ⟨hadds, hupdates⟩ := validateExternalCommit_eq_ok hexternal
  have hfits : Fits g.treesync.contents (byNewMember proposals) := by
    refine ⟨by simp [hupdates], fun i hi => ?_, ?_⟩
    · rw [TreeSync.contents_leaf hwf.shaped]
      exact hmember i hi
    · exact pairwise_iff_getElem.mpr fun i j hi hj hij => by omega
  obtain ⟨n1, us, added, happlied, -⟩ := applied_of_ok hwf hfits happly
  have hwf1 := happlied.changes.wellFormed hwf
  rw [← freeLeafIndex_applied hwf hfits hone hadds happlied]
  refine ⟨fun l t' i hadd => ?_, fun p herror =>
    (applyReceivedUpdatePath_free hwf1 p).not_bad herror rfl⟩
  rcases addLeaf_spec hwf1 l with hfull | ⟨t2, n2, hadd', -⟩
  · cases hadd.symm.trans hfull
  · exact (Prod.mk.inj (Exec.unique hadd hadd')).2

/-- A member that was removed takes the place of another one. -/
theorem external_index_rejoin :
    ∃ g, smallRun (fun _ _ => true) [invites [1, 2, 3], memberCommit 0 [.remove 2] 2000] = some g ∧
      ∃ r, applyProposals g.treesync.emptyDiff (byNewMember [.externalInit [], .remove 1])
          (some 1) = .ok r ∧
        ∃ r', r.1.addLeaf (memberLeaf 5) = .ok r' ∧ r'.2 = 1 ∧
          r'.2 = g.leftmostFreeIndex [.externalInit [], .remove 1] := by
  refine exists_some_imp (P := fun g => (g.treesync.leaf 1).isSome ∧ ∃ r,
    applyProposals g.treesync.emptyDiff (byNewMember [.externalInit [], .remove 1]) (some 1) =
      .ok r ∧ ∃ r', r.1.addLeaf (memberLeaf 5) = .ok r' ∧ r'.2 = 1) (by decide +kernel) ?_
  rintro g hg ⟨hfull, r, hr, r', hr', hone⟩
  refine ⟨r, hr, r', hr', hone, (external_index plainHash lenientRules
    (reaches_smallRun (fun _ hg => .inl ⟨_, _, hg⟩) (fun _ _ _ => trivial) hg)
    [.externalInit [], .remove 1] rfl le_rfl ?_ hr).1 _ _ _ hr'⟩
  simpa [byNewMember, removeProposals] using hfull

end PublicGroup

end EmulatedMls
