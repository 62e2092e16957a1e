import EmulatedMls.Tree.Decryption

/-!
# Commits with a path, seen by their receivers

A receiver that owns the keys of its leaf finds in the path of a commit what it needs to own them
afterwards.
-/

namespace EmulatedMls

variable {D S P C : Type} {K : KemSuite D S P C}

open Exec List PublicGroup TreeSyncDiff

/-- What a commit with a path is made of: the proposals, and the nodes of the path. -/
structure PathCommit (g : PublicGroup D) (m : ℕ) (request : CommitRequest D)
    (rand : PathRandomness K) (c : EncryptedCommit K) (r : PathComputationResult K)
    (n length : ℕ) (us added : List (ℕ × LeafNode D)) (t : TreeSyncDiff D)
    (ns : List (ℕ × ParentNode D)) : Prop where
  changes : g.treesync.emptyDiff.Changes m
    (operations us (removeProposals (request.proposals g)) added) t n
  updates : ∀ e ∈ us, (e.2, Sender.member e.1) ∈ updateProposals (request.proposals g)
  invited : added = c.values.invitationList.map (fun e => (e.1, e.2.leafNode)) ∨
    c.values.invitationList = [] ∧ added.map Prod.fst = [request.committer g]
  packages : ∀ e ∈ c.values.invitationList, e.2 ∈ addProposals (request.proposals g)
  full : (t.contents.leaf (request.committer g)).isSome
  written : t.PathWritten n (request.committer g) ns r.leafNode c.diff.diff
  keys : ns.map (·.2.encryptionKey) = (List.range length).map (K.pathKey rand.pathSecret)
  computed : r.For c.diff (request.committer g) c.values.exclusionList rand length

/-- A receiver `j` that owns the keys of its leaf, and that of a leaf node that it has proposed. -/
structure Receiver (g : PublicGroup D) (request : CommitRequest D) (c : EncryptedCommit K)
    (old leafNodeKeypairs : List (EncryptionKeyPair K)) (j : ℕ) : Prop where
  held : (g.treesync.contents.leaf j).isSome → g.treesync.contents.Held j (ownedKeys old)
  updated : ∀ e ∈ updateProposals (request.proposals g), e.2 = .member j →
    e.1.encryptionKey ∈ ownedKeys leafNodeKeypairs
  ne : j ≠ request.committer g
  included : j ∉ c.values.exclusionList

variable {t t' : TreeSyncDiff D}

lemma applyAdds_invited {kps : List (KeyPackage D)} {invited : List (ℕ × KeyPackage D)}
    (h : applyAdds kps t = .ok (t', invited)) : invited.map Prod.snd = kps := by
  induction kps generalizing t invited with
  | nil =>
    obtain ⟨-, rfl⟩ := Prod.mk.inj (Except.ok.inj h)
    rfl
  | cons kp kps ih =>
    rw [applyAdds] at h
    split at h
    · cases h
    · cases h
    · obtain ⟨⟨t1, invited1⟩, hrest, hpure⟩ := bind_inv h
      cases hpure
      rw [map_cons, ih hrest]

variable {es : List (Proposal D × Sender)}

lemma applyProposals_invited {own : Option ℕ} {values : ApplyProposalsValues D}
    (h : applyProposals t es own = .ok (t', values)) :
    values.invitationList.map Prod.snd = addProposals es := by
  obtain ⟨t1, -, h⟩ := bind_inv h
  obtain ⟨t2, -, h⟩ := bind_inv h
  obtain ⟨⟨t3, invited⟩, hadds, h⟩ := bind_inv h
  obtain ⟨-, rfl⟩ := Prod.mk.inj (pure_eq_ok.mp h)
  exact applyAdds_invited hadds

section PathCommit

variable [DecidableEq D] {H : HashSuite D} {rules : GroupView D} {g : PublicGroup D} {m : ℕ}
  {request : CommitRequest D} {params : LeafNodeParameters} {rand : PathRandomness K}
  {c : EncryptedCommit K} {r : PathComputationResult K}

lemma exists_pathCommit (hwf : g.treesync.emptyDiff.WellFormed m)
    (h : g.createEncrypted K H rules params rand request = .ok c) (hr : c.path = some r) :
    ∃ n length us added t ns, PathCommit g m request rand c r n length us added t ns ∧
      CommitShape H rules g m (request.toCommit params rand) c.diff.diff n := by
  obtain ⟨⟨t0, happly⟩, length, hfor, hsent, hshape⟩ := createEncrypted_eq_ok h hr
  obtain ⟨n, hshape⟩ := hshape m hwf
  have hpackages : ∀ e ∈ c.values.invitationList, e.2 ∈ addProposals (request.proposals g) :=
    fun e he => applyProposals_invited happly ▸ mem_map_of_mem he
  have hcommit := hshape
  generalize hdiff : c.diff.diff = t' at hshape
  cases hshape with
  | untouched sent =>
    rw [sent] at hsent
    cases hsent
  | path fits changes updates adds invited sent step =>
    obtain rfl := Option.mem_unique sent hsent
    obtain ⟨ns, hwritten, hkeys⟩ := step.written
    have hfull := step.full
    have hinvited :=
      (invited _ _ _ (by rwa [CommitRequest.proposals_toCommit])).imp_right And.right
    rw [CommitRequest.committer_toCommit] at hinvited hwritten hfull
    rw [CommitRequest.proposals_toCommit] at changes updates
    exact ⟨n, length, _, _, _, ns, ⟨changes, updates, hinvited, hpackages, hfull,
      hdiff ▸ hwritten, hkeys, hfor⟩, hdiff ▸ hcommit⟩

variable {e : ℕ × KeyPackage D}

namespace PathCommit

variable {n length j : ℕ} {us added : List (ℕ × LeafNode D)} {t : TreeSyncDiff D}
  {ns : List (ℕ × ParentNode D)} {low high : List ℕ} {k : ℕ}
  {old leafNodeKeypairs : List (EncryptionKeyPair K)}

omit [DecidableEq D]

variable (h : PathCommit g m request rand c r n length us added t ns)
include h

lemma length_pathLevels : (c.diff.diff.pathLevels n (request.committer g)).length = length := by
  rw [h.written.pathLevels_eq, ← h.written.levels, length_map]
  simpa using congrArg List.length h.keys

lemma mem_added (he : e ∈ c.values.invitationList) : (e.1, e.2.leafNode) ∈ added := by
  rcases h.invited with hadded | ⟨hnil, -⟩
  · rw [hadded]
    exact mem_map_of_mem (f := fun e : ℕ × KeyPackage D => (e.1, e.2.leafNode)) he
  · rw [hnil] at he
    cases he

lemma notMem_added (hne : j ≠ request.committer g) (hj : j ∉ c.values.exclusionList)
    (l : LeafNode D) :
    (j, .add l) ∉ operations us (removeProposals (request.proposals g)) added := by
  have hnot : j ∉ added.map Prod.fst := by
    rcases h.invited with hadded | ⟨-, hadded⟩
    · rw [hadded, map_map]
      exact hj
    · rw [hadded]
      simpa using hne
  intro hmem
  refine hnot (mem_map.mpr ⟨(j, l), ?_, rfl⟩)
  simpa [operations] using hmem

lemma leaf_eq (hne : j ≠ request.committer g) :
    c.diff.diff.contents.leaf j = t.contents.leaf j := by
  rw [h.written.contents, Contents.leaf_edit_of_ne hne]

/-- The key pairs above a leaf are those from the level on at which it meets the path. -/
lemma shared (hmeet : c.diff.diff.Meeting n (request.committer g) j k low high)
    {e : ℕ × ParentNode D} (he : e ∈ ns)
    (hpos : request.committer g / 2 ^ (e.1 + 1) = j / 2 ^ (e.1 + 1)) :
    e.2.encryptionKey ∈ ownedKeys (r.newKeypairs.tail.drop low.length) := by
  have hlevels : ns.map Prod.fst = low ++ k :: high := by
    rw [h.written.levels, ← h.written.pathLevels_eq, hmeet.split]
  have hdrop : e ∈ ns.drop low.length := by
    rw [← take_append_drop low.length ns, mem_append] at he
    refine he.resolve_left fun htake => ?_
    have hlow : e.1 ∈ low := by
      have hmem := mem_map_of_mem (f := Prod.fst) htake
      rwa [map_take, hlevels, take_left] at hmem
    exact hmeet.meet.below (hmeet.low _ hlow) hpos.symm
  have hkey : e.2.encryptionKey ∈
      ((List.range length).map (K.pathKey rand.pathSecret)).drop low.length := by
    rw [← h.keys, ← map_drop]
    exact mem_map_of_mem (f := fun e : ℕ × ParentNode D => e.2.encryptionKey) hdrop
  rw [KemSuite.pathKeys_eq, ← map_drop] at hkey
  obtain ⟨s, hs, hkey⟩ := mem_map.mp hkey
  refine ⟨K.deriveKeyPair s, ?_, hkey⟩
  rw [h.computed.newKeypairs, tail_cons, ← map_drop]
  exact mem_map_of_mem hs

lemma held (hj : Receiver g request c old leafNodeKeypairs j) (hfull : (t.contents.leaf j).isSome) :
    t.contents.HeldAbove j (ownedKeys old) ∧ j ∉ removeProposals (request.proposals g) ∧
      ∀ l, t.contents.leaf j = some l →
        l.encryptionKey ∈ ownedKeys old ∨ l.encryptionKey ∈ ownedKeys leafNodeKeypairs := by
  have hadd := h.notMem_added hj.ne hj.included
  obtain ⟨hstart, hblank⟩ := h.changes.stays hfull hadd
  have hheld := hj.held hstart
  refine ⟨h.changes.heldAbove hheld.above, fun hmem => hblank (blank_mem_operations.mpr hmem),
    fun l hl => ?_⟩
  rcases h.changes.leaf_origin hl with hl | ⟨change, hchange, hl⟩
  · exact .inl (hheld.leaf l hl)
  · cases change with
    | update l' =>
      obtain rfl := Option.some.inj hl
      have hmem : (j, l') ∈ us := by simpa [operations] using hchange
      exact .inr (hj.updated _ (h.updates _ hmem) rfl)
    | blank => cases hl
    | add l' => exact absurd hchange (hadd l')

/-- **Every receiver can read the path.** -/
lemma readBy (H : HashSuite D) (hj : Receiver g request c old leafNodeKeypairs j)
    (hmeet : c.diff.diff.Meeting n (request.committer g) j k low high) :
    ∃ node, r.ReadBy H c.diff (request.committer g) j c.values.exclusionList
      (old ++ leafNodeKeypairs) low.length node := by
  have hsub : ownedKeys old ⊆ ownedKeys (old ++ leafNodeKeypairs) :=
    fun pk ⟨keypair, hmem, hkey⟩ => ⟨keypair, mem_append_left _ hmem, hkey⟩
  have hsub' : ownedKeys leafNodeKeypairs ⊆ ownedKeys (old ++ leafNodeKeypairs) :=
    fun pk ⟨keypair, hmem, hkey⟩ => ⟨keypair, mem_append_right _ hmem, hkey⟩
  have hfull := hmeet.receiver
  rw [h.leaf_eq hj.ne] at hfull
  obtain ⟨habove, -, hleaf⟩ := h.held hj hfull
  obtain ⟨l, hl⟩ := Option.isSome_iff_exists.mp hfull
  refine h.computed.readBy hmeet h.length_pathLevels hj.included (h.leaf_eq hj.ne ▸ hl)
    ((hleaf l hl).elim (fun hkey => hsub hkey) fun hkey => hsub' hkey) fun a ha q hq hq' => ?_
  -- below the level at which they meet, the path of the sender is not that of the receiver
  rw [h.written.contents, Contents.parent_edit_of_ne (hmeet.meet.below ha).symm] at hq
  exact hsub (habove a q hq hq')

end PathCommit

variable (hwf : g.treesync.emptyDiff.WellFormed m)
include hwf

/-- **What a receiver stages**: the diff of the committer and the secrets above its leaf. -/
lemma stageEncryptedCommit_eq {n length j k : ℕ} {us added : List (ℕ × LeafNode D)}
    {t : TreeSyncDiff D} {ns : List (ℕ × ParentNode D)} {low high : List ℕ}
    {old leafNodeKeypairs : List (EncryptionKeyPair K)}
    (hc : g.createEncrypted K H rules params rand request = .ok c) (hr : c.path = some r)
    (h : PathCommit g m request rand c r n length us added t ns)
    (hj : Receiver g request c old leafNodeKeypairs j)
    (hmeet : c.diff.diff.Meeting n (request.committer g) j k low high) :
    ∃ d node, g.stageEncryptedCommit H j (request.committer g) (request.proposals g) r old
        leafNodeKeypairs = .ok (.groupMember d (r.newKeypairs.tail.drop low.length)
          ((c.diff.diff.diff.leaf j).bind fun l =>
            leafNodeKeypairs.find? (·.publicKey = l.encryptionKey)) r.commitSecret) ∧
      d.diff.Same c.diff.diff ∧ d.groupContext = c.diff.groupContext ∧
      g.mergeDiff d = g.mergeDiff c.diff ∧
      r.ReadBy H d (request.committer g) j c.values.exclusionList (old ++ leafNodeKeypairs)
        low.length node := by
  obtain ⟨t1, leaves, hequiv, happly, hreceived, hcontext⟩ := createEncrypted_received hwf hc hr
  obtain ⟨node, hread⟩ := h.readBy H hj hmeet
  set d : PublicGroupDiff D :=
    ⟨c.diff.diff.variant leaves c.diff.diff.treeHashes, c.diff.groupContext⟩ with hd
  have hsame : d.diff.Same c.diff.diff := same_variant hequiv
  have hread' := hread.congr hsame rfl
  have hremoved :
      ((removeProposals (request.proposals g)).any fun i => some j = some i) = false := by
    have hfull := hmeet.receiver
    rw [h.leaf_eq hj.ne] at hfull
    have hnot := (h.held hj hfull).2.1
    simpa using fun i hi => (fun heq => hnot (heq ▸ hi) : ¬j = i)
  refine ⟨d, node, ?_, hsame, rfl, mergeDiff_variant hequiv, hread'⟩
  have happly' := applyProposals_eq_ok happly (some j)
  rw [hremoved] at happly'
  have hcontext' : PublicGroupDiff.updateGroupContext
      ⟨c.diff.diff.variant leaves c.diff.diff.treeHashes, g.groupContext⟩ c.values.extensions =
        .ok d := updateGroupContext_variant hcontext
  have hdecrypt := hread'.decryptPath_eq
  have hdiff : g.emptyDiff = ⟨g.treesync.emptyDiff, g.groupContext⟩ := rfl
  simp only [stageEncryptedCommit, hdiff, happly', MemberStageError.liftCommit, bind, Except.bind,
    hreceived, liftTree, hcontext', lift]
  have hexcluded : ({ c.values with selfRemoved := false } : ApplyProposalsValues D).exclusionList =
    c.values.exclusionList := rfl
  rw [if_neg Bool.false_ne_true, hexcluded, hdecrypt, hsame.leaf j]
  rfl

lemma createEncryptedCommit_built {own : ℕ} {selfUpdate : Bool}
    (h : g.createEncryptedCommit K H rules own es selfUpdate params rand = .ok c) :
    ∃ t n us added, Built g m own (some own) es c.values us added t n ∧
      (c.path = none → c.diff.diff = t ∧ es.any (·.1.isPathRequired) = false) := by
  obtain ⟨⟨d, path, values⟩, hbuild, h⟩ := bind_inv h
  cases h
  obtain ⟨t, n, us, added, hbuilt, -, hrest⟩ := buildInternal_built hwf hbuild
  refine ⟨t, n, us, added, hbuilt, fun hnone => ?_⟩
  obtain rfl : path = none := hnone
  exact hrest

section

variable (h : g.createEncrypted K H rules params rand request = .ok c)
include h

lemma createEncrypted_apart
    (he : e ∈ c.values.invitationList) : e.1 ≠ request.committer g := by
  cases request with
  | member own es selfUpdate =>
    obtain ⟨t, n, us, added, hbuilt, -⟩ := createEncryptedCommit_built hwf h
    have hfull := hbuilt.member
    have hmem : (e.1, e.2.leafNode) ∈ added := by
      rw [hbuilt.invited]
      exact mem_map_of_mem (f := fun e : ℕ × KeyPackage D => (e.1, e.2.leafNode)) he
    rintro rfl
    rcases (hbuilt.applied.changes.new_members.2 _ hmem).1 with hblank | hremoved
    · rw [show g.treesync.contents.leaf e.1 = none from hblank] at hfull
      cases hfull
    · exact hbuilt.stays hremoved
  | external kemOutput credential signatureKey =>
    obtain ⟨⟨t, happly⟩, -⟩ := createEncryptedExternalCommit_eq_ok h
    have hnone := applyProposals_invited happly
    rw [(g.externalProposals_cases kemOutput signatureKey).1] at hnone
    rw [map_eq_nil_iff.mp hnone] at he
    cases he

lemma createEncrypted_untouched
    (hr : c.path = none) : c.diff.diff = g.treesync.emptyDiff ∧ c.values.invitationList = [] := by
  cases request with
  | member own es selfUpdate =>
    obtain ⟨t, n, us, added, hbuilt, hdiff⟩ := createEncryptedCommit_built hwf h
    obtain ⟨hdiff, hnone⟩ := hdiff hr
    have hlength := hbuilt.applied.length_added
    obtain ⟨rfl, -, -, hadds⟩ := hbuilt.applied.eq_of_not_pathRequired hnone
    rw [hadds, hbuilt.invited, length_map] at hlength
    exact ⟨hdiff, length_eq_zero_iff.mp hlength⟩
  | external kemOutput credential signatureKey =>
    obtain ⟨-, r, length, hr', -⟩ := createEncryptedExternalCommit_eq_ok h
    rw [hr] at hr'
    cases hr'

end

end PathCommit

end EmulatedMls
