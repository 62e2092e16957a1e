import EmulatedMls.Tree.ApplyProposals
import EmulatedMls.Tree.UpdatePath

/-!
# What a commit does to the tree

Every commit that is staged applies its proposals and sets the path of its committer, or leaves the
tree alone.
-/

namespace EmulatedMls

variable {D : Type} {H : HashSuite D}

open Contents Exec List TreeSyncDiff

def TreeSync.contents (t : TreeSync D) : Contents D := t.emptyDiff.contents

variable {n : ℕ} {t : TreeSync D} {t' : TreeSyncDiff D}

lemma TreeSync.contents_leaf (h : t.emptyDiff.diff.Shaped n) (i : ℕ) :
    t.contents.leaf i = t.leaf i := by
  show t.emptyDiff.diff.leaf i = t.tree.leafByIndex i
  rw [h.leaf_eq_overlay]
  rfl

lemma TreeSync.contents_leaf_eq_leafAt (h : t.emptyDiff.diff.Shaped n) (i : ℕ) :
    t.contents.leaf i = leafAt t.tree.leafNodes i := by
  rw [t.contents_leaf h, TreeSync.leaf, ABinaryTree.leafByIndex, getD_eq_getElem?_getD, leafAt]
  cases t.tree.leafNodes[i]? <;> rfl

/-- The vectors of a full tree of depth `n`, with a right cache and root hash. -/
structure TreeSync.Intact (H : HashSuite D) (t : TreeSync D) (n : ℕ) : Prop where
  shaped : t.emptyDiff.diff.Shaped n
  leaves : t.tree.leafNodes.length = 2 ^ n
  parents : t.tree.parentNodes.length = 2 ^ n - 1
  cached : Cached H t.contents n t.treeHashes
  treeHash : t.treeHash = t.contents.hashAt H n 0

/-! ## Merging -/

lemma TreeSync.shaped_of_length (hleaves : t.tree.leafNodes.length = 2 ^ n)
    (hparents : t.tree.parentNodes.length = 2 ^ n - 1) : t.emptyDiff.diff.Shaped n where
  size := by
    show TreeSize.new (t.tree.leafNodes.length + t.tree.parentNodes.length) = _
    rw [hleaves, hparents, ← TreeSize.new_ofDepth]
    congr 1
    show _ = 2 ^ (n + 1) - 1
    omega
  leaves := le_of_eq hleaves
  parents := le_of_eq hparents
  leafKeys i hi := absurd hi Std.TreeMap.not_mem_emptyc
  parentKeys j hj := absurd hj Std.TreeMap.not_mem_emptyc

/-- The vectors of the tree are those of a full tree of depth `n`. -/
structure TreeSync.Sized (t : TreeSync D) (n : ℕ) : Prop where
  leaves : t.tree.leafNodes.length = 2 ^ n
  parents : t.tree.parentNodes.length = 2 ^ n - 1

lemma TreeSync.Sized.shaped (h : t.Sized n) :
    t.emptyDiff.diff.Shaped n := shaped_of_length h.leaves h.parents

section

variable (h : t'.diff.Shaped n) (htree : t'.diff.originalTree = t.tree)
include h htree

lemma TreeSync.sized_mergeDiff {staged : StagedTreeSyncDiff D}
    (hstage : t'.intoStagedDiff = .ok staged) :
    (t.mergeDiff staged).Sized n ∧ (t.mergeDiff staged).contents = t'.contents ∧
      (t.mergeDiff staged).blankedLeaves = t'.blankedLeaves ∧
      (t.mergeDiff staged).numMembers = t'.numMembers := by
  obtain ⟨root, -, hpure⟩ := bind_inv hstage
  cases hpure
  set t2 := t.mergeDiff ⟨t'.diff, root, t'.treeHashes, t'.blankedLeaves, t'.numMembers⟩ with ht2
  have htree2 : t2.tree = t'.diff.originalTree.mergeDiff t'.diff := by
    rw [htree]
    rfl
  obtain ⟨hleaves, hparents⟩ := h.length_mergeDiff
  rw [← htree2] at hleaves hparents
  refine ⟨⟨hleaves, hparents⟩, ?_, rfl, rfl⟩
  ext1
  · funext i
    rw [contents_leaf (shaped_of_length hleaves hparents)]
    show t2.tree.leafByIndex i = t'.diff.leaf i
    rw [htree2, h.leafByIndex_mergeDiff]
  · funext k p
    show t2.tree.parentByIndex (inorder k p) = t'.diff.parent (inorder k p)
    rw [htree2, h.parentByIndex_mergeDiff]

lemma TreeSync.mergeDiff_spec
    (hcached : Cached H t'.contents n t'.treeHashes) :
    ∃ t2, (t'.intoStagedDiff >>= fun staged => pure (t.mergeDiff staged)) = .ok t2 ∧
      t2.Intact H n ∧ t2.contents = t'.contents ∧ t2.blankedLeaves = t'.blankedLeaves ∧
      t2.numMembers = t'.numMembers := by
  have hroot : index t'.treeHashes (root t'.diff.size).u32 = .ok (t'.contents.hashAt H n 0) := by
    rw [h.size, TreeSize.root_ofDepth]
    exact hcached.index_eq (.root n)
  have hstage : t'.intoStagedDiff = .ok ⟨t'.diff, t'.contents.hashAt H n 0, t'.treeHashes,
      t'.blankedLeaves, t'.numMembers⟩ := by
    rw [intoStagedDiff, hroot]
    rfl
  obtain ⟨hsized, hcontents, hcounters⟩ := TreeSync.sized_mergeDiff h htree hstage
  refine ⟨_, by rw [hstage]; rfl, ⟨hsized.shaped, hsized.leaves, hsized.parents, ?_, ?_⟩,
    hcontents, hcounters⟩
  · rw [hcontents]
    exact hcached
  · rw [hcontents]
    rfl

end

/-- What a commit of the proposals `es` that fills `joiners` leaves does to the tree. -/
inductive CommitEffect (H : HashSuite D) (t : TreeSyncDiff D) (m : ℕ)
    (es : List (Proposal D × Sender)) (joiners : ℕ) : TreeSyncDiff D → ℕ → Prop where
  | untouched (hremoves : removeProposals es = []) : CommitEffect H t m es joiners t m
  | path {us added : List (ℕ × LeafNode D)} {t1 t2 : TreeSyncDiff D} {n i : ℕ}
      {ks : List (ℕ × Key)} {l : LeafNode D}
      (changes : t.Changes m (operations us (removeProposals es) added) t1 n)
      (updates : ∀ e ∈ us, (e.2, Sender.member e.1) ∈ updateProposals es)
      (adds : ∀ e ∈ added, e.2 ∈ (addProposals es).map KeyPackage.leafNode ∨ e.1 = i)
      (count : added.length = joiners) (full : (t1.contents.leaf i).isSome)
      (set : PathSet H t1 n i ks l t2) : CommitEffect H t m es joiners t2 n

variable {es : List (Proposal D × Sender)}

lemma CommitEffect.sound {t : TreeSyncDiff D} {m joiners : ℕ}
    (h : CommitEffect H t m es joiners t' n) (ht : t.WellFormed m)
    (hcached : Cached H t.contents m t.treeHashes) :
    t'.WellFormed n ∧ Cached H t'.contents n t'.treeHashes ∧
      t'.diff.originalTree = t.diff.originalTree := by
  cases h with
  | untouched => exact ⟨ht, hcached, rfl⟩
  | path changes updates adds count full set =>
    exact ⟨set.wellFormed, set.cached, set.tree.trans changes.frame.2.1⟩

namespace PublicGroup

/-- The state of a group is consistent: its tree has depth `n`. -/
structure Sound (H : HashSuite D) (g : PublicGroup D) (n : ℕ) : Prop where
  wellFormed : g.treesync.emptyDiff.WellFormed n
  intact : g.treesync.Intact H n
  context : g.groupContext.treeHash = g.treesync.treeHash

/-! ## Commits as data -/

namespace Commit

def proposals (g : PublicGroup D) : Commit D → List (Proposal D × Sender)
  | .own _ es _ _ _ => es
  | .received _ es _ => es
  | .external kemOutput _ signatureKey _ _ =>
    byNewMember (g.externalProposals kemOutput signatureKey)
  | .externalReceived proposals _ => byNewMember proposals

def committer (g : PublicGroup D) : Commit D → ℕ
  | .own i _ _ _ _ => i
  | .received i _ _ => i
  | .external kemOutput _ signatureKey _ _ =>
    g.leftmostFreeIndex (g.externalProposals kemOutput signatureKey)
  | .externalReceived proposals _ => g.leftmostFreeIndex proposals

/-- The committer joins with its commit. -/
def isExternal : Commit D → Bool
  | .own _ _ _ _ _ => false
  | .received _ _ _ => false
  | .external _ _ _ _ _ => true
  | .externalReceived _ _ => true

/-- The number of leaves that the commit fills. -/
def joiners (g : PublicGroup D) (c : Commit D) : ℕ :=
  (addProposals (c.proposals g)).length + if c.isExternal then 1 else 0

end Commit

/-- Nobody but the committer is removed, or the committer is not alone afterwards. -/
def Accompanied (g : PublicGroup D) (c : Commit D) : Prop :=
  (∀ i ∈ removeProposals (c.proposals g), i = c.committer g) ∨
    addProposals (c.proposals g) ≠ [] ∨
    ∃ i ≠ c.committer g, (g.treesync.leaf i).isSome ∧ i ∉ removeProposals (c.proposals g)

variable {g : PublicGroup D} {m n : ℕ}

variable {t t1 t2 : TreeSyncDiff D} {cs : List (ℕ × Change D)} {α : Type}
  {d : PublicGroupDiff D} {us added : List (ℕ × LeafNode D)} {c : Commit D}
  {proposals : List (Proposal D)} {l : LeafNode D} {i : ℕ} {params : LeafNodeParameters}
  {path : Option (UpdatePath D)}

lemma tracks_of_changes (hwf : g.treesync.emptyDiff.WellFormed m)
    (hcached : Cached H g.treesync.contents m g.treesync.treeHashes)
    (hchanges : g.treesync.emptyDiff.Changes m cs t n) : Tracks H g.treesync.contents m t where
  cached := hchanges.frame.1 ▸ hcached
  beyond := hwf.beyond_depth
  agree := hchanges.agreeOff

lemma Sound.tracks (h : g.Sound H m) (hchanges : g.treesync.emptyDiff.Changes m cs t n) :
    Tracks H g.treesync.contents m t :=
  tracks_of_changes h.wellFormed h.intact.cached hchanges

lemma notMem_emptyDiff (t : TreeSync D) (j : ℕ) : j ∉ t.emptyDiff.diff.leafDiff :=
  Std.TreeMap.not_mem_emptyc

lemma fits_of_valid (h : g.treesync.emptyDiff.WellFormed m) {rules : GroupView D}
    (hknown : g.sendersKnown es = true)
    (hvalid : validateRemoveProposals (g.view rules) es = .ok ()) :
    Fits g.treesync.contents es := by
  obtain ⟨hnodup, hremoves, hupdates⟩ := validateRemoveProposals_eq_ok hvalid
  refine ⟨fun u hu => ?_, fun i hi => ?_, hnodup⟩
  · obtain ⟨i, hi, heq⟩ := hupdates u hu
    refine ⟨i, hi, heq, ?_⟩
    obtain ⟨⟨p, s⟩, he, hp⟩ := mem_filterMap.mp hu
    have hsender := all_eq_true.mp hknown (p, s) he
    obtain rfl : s = .member i := by
      cases p with
      | update l =>
        cases hp
        exact heq
      | _ => cases hp
    rw [TreeSync.contents_leaf h.shaped]
    exact hsender
  · rw [TreeSync.contents_leaf_eq_leafAt h.shaped]
    exact hremoves i hi

/-- Valid removals that a new member proposes fit the tree. -/
lemma fits_of_newMember (h : g.treesync.emptyDiff.WellFormed m) {rules : GroupView D}
    {proposals : List (Proposal D)}
    (hvalid : validateRemoveProposals (g.view rules) (byNewMember proposals) = .ok ()) :
    Fits g.treesync.contents (byNewMember proposals) :=
  fits_of_valid h (by simp [sendersKnown, byNewMember]) hvalid

/-! ## Staging -/

/-- A commit is staged: its effect on the tree, and the new tree hash of the group context. -/
structure Staged (H : HashSuite D) (g : PublicGroup D) (m : ℕ) (es : List (Proposal D × Sender))
    (joiners : ℕ) (d : PublicGroupDiff D) : Prop where
  effect : ∃ n, CommitEffect H g.treesync.emptyDiff m es joiners d.diff n ∧
    d.groupContext.treeHash = d.diff.contents.hashAt H n 0

lemma ensures_requireMember (b : Bool) :
    Ensures CommitError.IsFault (fun _ => b = true) (requireMember b) := by
  unfold requireMember
  split_ifs with h
  · exact h
  · rintro ⟨f, ⟨⟩⟩

lemma ensures_liftValidation (x : Except ProposalValidationError α) :
    Ensures CommitError.IsFault (fun a => x = .ok a) (liftValidation x) := by
  cases x with
  | ok a => exact rfl
  | error e => rintro ⟨f, ⟨⟩⟩

lemma ensures_liftExternal (x : Except ExternalCommitValidationError α) :
    Ensures CommitError.IsFault (fun a => x = .ok a) (liftExternal x) := by
  cases x with
  | ok a => exact rfl
  | error e => rintro ⟨f, ⟨⟩⟩

lemma ensures_liftTree {x : Except TreeSyncError α} {post : α → Prop}
    (h : Ensures TreeSyncError.IsFault post x) : Ensures CommitError.IsFault post (liftTree x) := by
  cases x with
  | ok a => exact h
  | error e =>
    rintro ⟨f, heq⟩
    exact h ⟨f, by cases heq; rfl⟩

lemma updateGroupContext_eq (hsize : d.diff.diff.size = .ofDepth n)
    (hcached : Cached H d.diff.contents n d.diff.treeHashes) (extensions : Option Bytes) :
    ∃ context, d.updateGroupContext extensions = .ok ⟨d.diff, context⟩ ∧
      context.treeHash = d.diff.contents.hashAt H n 0 := by
  have hroot : d.diff.rootHash = .ok (d.diff.contents.hashAt H n 0) := by
    rw [TreeSyncDiff.rootHash, TreeSyncDiff.treeHash, hsize, TreeSize.root_ofDepth]
    exact hcached.index_eq (.root n)
  refine ⟨⟨d.groupContext.epoch + 1, d.diff.contents.hashAt H n 0,
    extensions.getD d.groupContext.extensions⟩, ?_, rfl⟩
  rw [PublicGroupDiff.updateGroupContext, hroot]
  rfl

lemma Sound.only_committer (h : g.Sound H m) (hc : g.Accompanied c)
    (hfits : Fits g.treesync.contents (c.proposals g))
    (happlied : Applied g.treesync.emptyDiff m (c.proposals g) us added t n)
    (hadds : addProposals (c.proposals g) = [] ∨ (g.treesync.contents.leaf (c.committer g)).isSome ∧
      c.committer g ∉ removeProposals (c.proposals g))
    (halone : ∀ j, (t.contents.leaf j).isSome → j = c.committer g) :
    ∀ j ∈ t.diff.leafDiff, j = c.committer g := by
  refine happlied.keys_eq_of_alone hfits (notMem_emptyDiff _) ?_ hadds halone
  rcases hc with hall | hadded | ⟨i, hne, hi, hnot⟩
  · exact .inl hall
  · exact .inr (.inl hadded)
  · refine .inr (.inr ⟨i, hne, ?_, hnot⟩)
    rw [← TreeSync.contents_leaf h.wellFormed.shaped] at hi
    exact hi

lemma Sound.staged_without_path (h : g.Sound H m)
    (happlied : Applied g.treesync.emptyDiff m es us added t n)
    (hes : es.any (·.1.isPathRequired) = false) (joiners : ℕ) (extensions : Option Bytes) :
    Ensures CommitError.IsFault (Staged H g m es joiners)
      (liftTree (lift (PublicGroupDiff.updateGroupContext { g.emptyDiff with diff := t }
        extensions))) := by
  obtain ⟨rfl, rfl, hremoves, -⟩ := happlied.eq_of_not_pathRequired hes
  obtain ⟨context, hcontext, hhash⟩ := updateGroupContext_eq (d := g.emptyDiff)
    h.wellFormed.shaped.size h.intact.cached extensions
  refine .of_ok (a := ⟨g.treesync.emptyDiff, context⟩) ?_ ⟨_, .untouched hremoves, hhash⟩
  show liftTree (lift (PublicGroupDiff.updateGroupContext g.emptyDiff extensions)) = _
  rw [hcontext]
  rfl

/-! ### The index of a new member -/

lemma removeProposals_byNewMember (proposals : List (Proposal D)) :
    (removeProposals (byNewMember proposals)).head? =
      proposals.findSome? fun p => match p with | .remove i => some i | _ => none := by
  rw [removeProposals, byNewMember, filterMap_map, head?_filterMap]
  rfl

lemma leftmostFreeIndex_eq (g : PublicGroup D) (proposals : List (Proposal D)) :
    g.leftmostFreeIndex proposals =
      match (removeProposals (byNewMember proposals)).head? with
      | some i => if i < g.treesync.emptyDiff.freeLeafIndex then i
          else g.treesync.emptyDiff.freeLeafIndex
      | none => g.treesync.emptyDiff.freeLeafIndex := by
  rw [removeProposals_byNewMember]
  rfl

lemma freeLeafIndex_applied (h : g.treesync.emptyDiff.WellFormed m)
    (hfits : Fits g.treesync.contents (byNewMember proposals))
    (hone : (removeProposals (byNewMember proposals)).length ≤ 1)
    (hadds : addProposals (byNewMember proposals) = [])
    (happlied : Applied g.treesync.emptyDiff m (byNewMember proposals) us added t n) :
    t.freeLeafIndex = g.leftmostFreeIndex proposals := by
  have hus : us = [] := eq_nil_iff_forall_not_mem.mpr fun e he => by
    have := happlied.updates e he
    rw [hfits.updates_byNewMember] at this
    cases this
  have hchanges := happlied.changes
  rw [hus, happlied.added_eq_nil hadds] at hchanges
  rw [leftmostFreeIndex_eq]
  have hremoves := hfits.removes
  cases hrem : removeProposals (byNewMember proposals) with
  | nil =>
    rw [hrem] at hchanges
    cases hchanges
    rfl
  | cons i rest =>
    obtain rfl : rest = [] := by
      rw [hrem, length_cons] at hone
      exact length_eq_zero_iff.mp (by omega)
    rw [hrem] at hchanges
    cases hchanges with
    | cons first rest =>
      cases rest
      have hi : (g.treesync.emptyDiff.contents.leaf i).isSome :=
        hremoves i (by rw [hrem]; exact .head _)
      set f := g.treesync.emptyDiff.freeLeafIndex with hf
      have hblank : g.treesync.emptyDiff.contents.leaf f = none :=
        h.leaf_freeLeafIndex
      have hfull : ∀ k < f, (g.treesync.emptyDiff.contents.leaf k).isSome := fun k hk =>
        h.full_of_lt_freeLeafIndex hk
      show t.freeLeafIndex = if i < f then i else f
      split_ifs with hlt
      · refine first.wellFormed.freeLeafIndex_eq ?_ fun k hk => ?_
        · rw [first.contents, leaf_edit_self]
          rfl
        · rw [first.contents, leaf_edit_of_ne (ne_of_lt hk)]
          exact hfull k (lt_trans hk hlt)
      · have hne : f ≠ i := fun hfi => by
          rw [← hfi, hblank] at hi
          cases hi
        refine first.wellFormed.freeLeafIndex_eq ?_ fun k hk => ?_
        · rw [first.contents, leaf_edit_of_ne hne, hblank]
        · rw [first.contents, leaf_edit_of_ne (ne_of_lt (lt_of_lt_of_le hk (not_lt.mp hlt)))]
          exact hfull k hk

variable {n1 n2 : ℕ}

lemma Sound.only_joiner (h : g.Sound H m) (hc : g.Accompanied c)
    (hfits : Fits g.treesync.contents (c.proposals g))
    (happlied : Applied g.treesync.emptyDiff m (c.proposals g) us added t1 n1)
    (hadds : addProposals (c.proposals g) = []) (hadd : t1.Edited n1 (.add l) (c.committer g) t2 n2)
    (halone : ∀ j, (t2.contents.leaf j).isSome → j = c.committer g) :
    ∀ j ∈ t2.diff.leafDiff, j = c.committer g := by
  have hjoin : t1.Changes n1 [(c.committer g, .add l)] t2 n2 := .cons hadd .nil
  intro j hj
  rcases (hadd.keys j).mp hj with heq | hmem
  · exact heq
  · exact h.only_committer hc hfits happlied (.inl hadds)
      (fun k hk => halone k (hjoin.full hk (by simp))) j hmem

lemma externalProposals_cases (g : PublicGroup D) (kemOutput : Bytes) (signatureKey : Key) :
    addProposals (byNewMember (g.externalProposals kemOutput signatureKey)) = [] ∧
      (removeProposals (byNewMember (g.externalProposals kemOutput signatureKey))).length ≤ 1 := by
  unfold externalProposals
  split <;> exact ⟨rfl, by simp [byNewMember, removeProposals]⟩

lemma validateExternalCommit_eq_ok (h : validateExternalCommit (byNewMember proposals) = .ok ()) :
    addProposals (byNewMember proposals) = [] ∧ updateProposals (byNewMember proposals) = [] := by
  unfold validateExternalCommit at h
  dsimp only at h
  split_ifs at h with h1 h2 h3
  constructor <;> refine filterMap_eq_nil_iff.mpr fun ⟨p, s⟩ he => ?_
  all_goals
    have hp := fun hany => h3 (any_eq_true.mpr ⟨(p, s), he, hany⟩)
    cases p <;> first | rfl | exact absurd rfl hp

/-! ### Own and received commits -/

variable [DecidableEq D]

/-- The nodes of the path get their keys in order. -/
lemma applyOwnUpdatePath_keys {C : Contents D} (h : t.WellFormed n) (htracks : Tracks H C m t)
    (hmn : m ≤ n) (hi : (t.contents.leaf i).isSome)
    (honly : t.pathLevels n i = [] → ∀ j ∈ t.diff.leafDiff, j = i)
    (leafParams : UpdateLeafNodeParams) (keys : ℕ → Key) :
    ∃ t' l es, t.applyOwnUpdatePath H i leafParams
        (((t.pathLevels n i).map fun k => inorder k (i / 2 ^ (k + 1))).zip
          (((List.range (t.pathLevels n i).length).map keys).map (ParentNode.ofKey H))) =
        .ok (t', l) ∧ PathSet H t n i es l t' := by
  have hfst : ((t.pathLevels n i).zip ((List.range (t.pathLevels n i).length).map keys)).map
      Prod.fst = t.pathLevels n i := map_fst_zip (by simp)
  obtain ⟨t', l, happly, hset⟩ := applyOwnUpdatePath_spec h htracks hmn hi hfst honly leafParams
  refine ⟨t', l, _, ?_, hset⟩
  rw [zip_map]
  exact happly

lemma computePath_spec {C : Contents D} {type : CommitType} {leafParams : UpdateLeafNodeParams}
    (hparams : d.leafNodeParams i type params = .ok leafParams)
    (hplace : PublicGroupDiff.addPlaceholder d.diff type = .ok t) (h : t.WellFormed n)
    (htracks : Tracks H C m t) (hmn : m ≤ n) (hi : (t.contents.leaf i).isSome)
    (honly : t.pathLevels n i = [] → ∀ j ∈ t.diff.leafDiff, j = i) (keys : ℕ → Key)
    (extensions : Option Bytes) :
    ∃ d' p es l, d.computePath H i type params keys extensions = .ok (d', p) ∧
      PathSet H t n i es l d'.diff ∧
      d'.groupContext.treeHash = d'.diff.contents.hashAt H n 0 := by
  obtain ⟨t', l, es, happly, hset⟩ := applyOwnUpdatePath_keys h htracks hmn hi honly leafParams keys
  obtain ⟨context, hcontext, hhash⟩ := updateGroupContext_eq (d := { d with diff := t' })
    hset.wellFormed.shaped.size hset.cached extensions
  refine ⟨⟨t', context⟩, ⟨l, (List.range (t.pathLevels n i).length).map keys⟩, es, l, ?_, hset,
    hhash⟩
  rw [PublicGroupDiff.computePath, hparams]
  rw [hplace]
  show (liftTree (lift (t.filteredDirectPath i)) >>= _) = _
  rw [filteredDirectPath_eq h.shaped (h.lt_pow hi)]
  show (liftTree (lift (t.applyOwnUpdatePath H i leafParams _)) >>= _) = _
  rw [length_map, happly]
  show (liftTree (lift (PublicGroupDiff.updateGroupContext _ extensions)) >>= _) = _
  rw [hcontext]
  rfl

variable {rules : GroupView D} {keys : ℕ → Key}

section

variable (h : g.Sound H m)
include h

lemma buildInternal_spec {own : ℕ} {selfUpdate : Bool}
    (hc : g.Accompanied (.own own es selfUpdate params keys)) :
    Ensures CommitError.IsFault
      (fun r => Staged H g m es (addProposals es).length r.1)
      (g.buildInternal rules (fun d values => d.computePath H own .member params keys
        values.extensions) own es selfUpdate) := by
  refine (ensures_requireMember _).bind fun _ hmember => ?_
  refine (ensures_liftValidation _).bind fun _ hvalid => ?_
  rw [Bool.and_eq_true, ← TreeSync.contents_leaf h.wellFormed.shaped] at hmember
  simp only [validateOwnCommit, seq_eq_ok, require_eq_ok, decide_eq_true_eq] at hvalid
  obtain ⟨-, -, -, -, hremoves, -, -, -, hnot⟩ := hvalid
  have hfits := fits_of_valid h.wellFormed hmember.2 hremoves
  refine (applyProposals_spec h.wellFormed hfits (some own)).bind ?_
  rintro ⟨t, values⟩ ⟨n, us, added, happlied, hpath, -⟩
  show Ensures _ _ (if _ then _ else _)
  split_ifs with hneeded
  · have hwf := happlied.changes.wellFormed h.wellFormed
    have hown : (t.contents.leaf own).isSome := happlied.full hmember.1 hnot
    obtain ⟨l, hl⟩ := Option.isSome_iff_exists.mp hown
    have hleaf : t.diff.leaf own = some l := hl
    have hparams : ∃ leafParams, PublicGroupDiff.leafNodeParams { g.emptyDiff with diff := t } own
        .member params = .ok leafParams := by
      unfold PublicGroupDiff.leafNodeParams
      simp only [hleaf]
      exact ⟨_, rfl⟩
    obtain ⟨leafParams, hparams⟩ := hparams
    obtain ⟨d', p, es', l', hcompute, hset, hhash⟩ := computePath_spec hparams rfl hwf
      (h.tracks happlied.changes) happlied.changes.frame.2.2 hown
      (fun hnil => h.only_committer hc hfits happlied (.inr ⟨hmember.1, hnot⟩)
        fun j hj => alone_of_pathLevels_eq_nil hwf (hwf.lt_pow hown) hnil hj)
      keys values.extensions
    refine .of_ok (a := (d', some p, values)) ?_
      ⟨n, .path happlied.changes happlied.updates (fun _ he => .inl (happlied.mem_adds he))
        happlied.length_added hown hset, hhash⟩
    exact bind_ok hcompute rfl
  · rw [Bool.or_eq_true, not_or, Bool.not_eq_true] at hneeded
    exact (h.staged_without_path happlied (hpath hneeded.1) _ _).bind fun _ hstaged => hstaged

lemma Sound.staged_received_path {t0 : TreeSyncDiff D} {p : UpdatePath D}
    (hadd : t0.addSender i p.leafNode = .ok t)
    (hchanges : g.treesync.emptyDiff.Changes m (operations us (removeProposals es) added) t n)
    (hupdates : ∀ e ∈ us, (e.2, Sender.member e.1) ∈ updateProposals es)
    (hadds : ∀ e ∈ added, e.2 ∈ (addProposals es).map KeyPackage.leafNode ∨ e.1 = i)
    (hi : (t.contents.leaf i).isSome)
    (honly : (∀ j, (t.contents.leaf j).isSome → j = i) → ∀ j ∈ t.diff.leafDiff, j = i)
    (extensions : Option Bytes) :
    Ensures CommitError.IsFault (Staged H g m es added.length) (do
      let t ← liftTree (t0.applyReceivedUpdatePath H i p)
      liftTree (lift (PublicGroupDiff.updateGroupContext { g.emptyDiff with diff := t }
        extensions))) := by
  have hwf := hchanges.wellFormed h.wellFormed
  have hpath := applyReceivedUpdatePath_spec hadd hwf (h.tracks hchanges) hchanges.frame.2.2 hi
    fun hnil => honly fun j hj => alone_of_pathLevels_eq_nil hwf (hwf.lt_pow hi) hnil hj
  refine (ensures_liftTree hpath).bind fun t' ⟨ks, hset, _⟩ => ?_
  obtain ⟨context, hcontext, hhash⟩ := updateGroupContext_eq (d := { g.emptyDiff with diff := t' })
    hset.wellFormed.shaped.size hset.cached extensions
  refine .of_ok (a := ⟨t', context⟩) ?_ ⟨n, .path hchanges hupdates hadds rfl hi hset, hhash⟩
  rw [hcontext]
  rfl

lemma commitReceived_spec {committer : ℕ} (hc : g.Accompanied (.received committer es path)) :
    Ensures CommitError.IsFault (Staged H g m es (addProposals es).length)
      (g.commitReceived H rules committer es path) := by
  refine (ensures_requireMember _).bind fun _ hmember => ?_
  rw [Bool.and_eq_true, ← TreeSync.contents_leaf h.wellFormed.shaped] at hmember
  split_ifs with hnot
  · rintro ⟨f, ⟨⟩⟩
  refine (ensures_liftValidation _).bind fun _ hvalid => ?_
  have hfits := fits_of_valid h.wellFormed hmember.2 (validateReceivedProposals_removes hvalid)
  refine (applyProposals_spec h.wellFormed hfits none).bind ?_
  rintro ⟨t, values⟩ ⟨n, us, added, happlied, hpath, -⟩
  cases path with
  | some p =>
    have hwf := happlied.changes.wellFormed h.wellFormed
    have hcommitter : (t.contents.leaf committer).isSome := happlied.full hmember.1 hnot
    rw [← happlied.length_added]
    exact h.staged_received_path (addSender_of_full hwf hcommitter _) happlied.changes
      happlied.updates (fun _ he => .inl (happlied.mem_adds he)) hcommitter
      (h.only_committer hc hfits happlied (.inr ⟨hmember.1, hnot⟩)) _
  | none =>
    show Ensures _ _ (if _ then _ else _)
    split_ifs with hneeded
    · rintro ⟨f, ⟨⟩⟩
    · exact h.staged_without_path happlied (hpath (by simpa using hneeded)) _ _

lemma joinByExternalCommit_spec {kemOutput : Bytes} {credential : String} {signatureKey : Key}
    (hc : g.Accompanied (.external kemOutput credential signatureKey params keys)) :
    Ensures CommitError.IsFault
      (fun r => Staged H g m (byNewMember (g.externalProposals kemOutput signatureKey))
        ((addProposals (byNewMember (g.externalProposals kemOutput signatureKey))).length + 1) r.1)
      (g.joinByExternalCommit rules (fun own d values => d.computePath H own
        (.external credential signatureKey) params keys values.extensions) kemOutput
        signatureKey) := by
  obtain ⟨hadds, hone⟩ := g.externalProposals_cases kemOutput signatureKey
  set proposals := g.externalProposals kemOutput signatureKey with hproposals
  refine (ensures_liftValidation _).bind fun _ hvalid => ?_
  simp only [validateOwnExternal, seq_eq_ok] at hvalid
  have hfits := fits_of_newMember h.wellFormed hvalid.2.2.2.2.1
  set own := g.leftmostFreeIndex proposals with hown
  refine (applyProposals_spec h.wellFormed hfits (some own)).bind ?_
  rintro ⟨t, values⟩ ⟨n, us, added, happlied, -⟩
  have hwf := happlied.changes.wellFormed h.wellFormed
  have hindex : t.freeLeafIndex = own :=
    freeLeafIndex_applied h.wellFormed hfits hone hadds happlied
  rcases addLeaf_spec hwf LeafNode.placeholder with hfull | ⟨t2, n2, hadd, hedit⟩
  · have hplace : PublicGroupDiff.addPlaceholder t (.external credential signatureKey) =
        .error (.tree .treeFull) := by
      rw [PublicGroupDiff.addPlaceholder, hfull]
      rfl
    refine .of_error (e := .tree .treeFull) ?_ (by rintro ⟨f, ⟨⟩⟩)
    show (PublicGroupDiff.computePath H { g.emptyDiff with diff := t } own
      (.external credential signatureKey) params keys values.extensions >>= _) = _
    rw [PublicGroupDiff.computePath]
    rw [hplace]
    rfl
  · rw [hindex] at hadd hedit
    have hplace : PublicGroupDiff.addPlaceholder t (.external credential signatureKey) =
        .ok t2 := by
      rw [PublicGroupDiff.addPlaceholder, hadd]
      rfl
    have hchanges := happlied.join hadds hedit
    have hi := hedit.full_of_add
    have hparams : PublicGroupDiff.leafNodeParams ⟨t, g.groupContext⟩ own
        (.external credential signatureKey) params =
          .ok ⟨params.encryptionKey, signatureKey, credential, params.rest⟩ := rfl
    obtain ⟨d', p, es', l', hcompute, hset, hhash⟩ := computePath_spec hparams hplace
      hedit.wellFormed (h.tracks hchanges) hchanges.frame.2.2 hi
      (fun hnil => h.only_joiner hc hfits happlied hadds hedit fun j hj =>
        alone_of_pathLevels_eq_nil hedit.wellFormed hedit.inside hnil hj)
      keys values.extensions
    rw [hadds]
    exact .of_ok (a := (d', p, values)) (bind_ok hcompute rfl)
      ⟨n2, .path hchanges happlied.updates (by simp) rfl hi hset, hhash⟩

lemma commitExternalReceived_spec (hc : g.Accompanied (.externalReceived proposals path)) :
    Ensures CommitError.IsFault
      (Staged H g m (byNewMember proposals) ((addProposals (byNewMember proposals)).length + 1))
      (g.commitExternalReceived H rules proposals path) := by
  unfold commitExternalReceived
  cases path with
  | none => rintro ⟨f, ⟨⟩⟩
  | some p =>
    dsimp only
    split_ifs with hmany
    · rintro ⟨f, ⟨⟩⟩
    have hone : (removeProposals (byNewMember proposals)).length ≤ 1 := not_lt.mp hmany
    refine (ensures_liftValidation _).bind fun _ hvalid => ?_
    refine (ensures_liftExternal _).bind fun _ hexternal => ?_
    simp only [validateReceivedExternal, seq_eq_ok] at hvalid
    have hfits := fits_of_newMember h.wellFormed hvalid.2.2.2.2.1
    obtain ⟨hadds, -⟩ := validateExternalCommit_eq_ok hexternal
    set own := g.leftmostFreeIndex proposals with hown
    refine (applyProposals_spec h.wellFormed hfits none).bind ?_
    rintro ⟨t, values⟩ ⟨n, us, added, happlied, -⟩
    have hwf := happlied.changes.wellFormed h.wellFormed
    have hindex : t.freeLeafIndex = own :=
      freeLeafIndex_applied h.wellFormed hfits hone hadds happlied
    have hadd := addSender_of_blank hwf (hindex ▸ hwf.leaf_freeLeafIndex) p.leafNode
    cases hsender : t.addSender own p.leafNode with
    | error e =>
      refine .of_error (e := .tree e) ?_ ?_
      · show (liftTree (t.applyReceivedUpdatePath H own p) >>= _) = _
        rw [applyReceivedUpdatePath, hsender]
        rfl
      · rintro ⟨f, heq⟩
        exact hadd.not_bad hsender ⟨f, by cases heq; rfl⟩
    | ok t2 =>
      obtain ⟨n2, hedit⟩ := hadd.post_of_ok hsender
      have hi := hedit.full_of_add
      rw [hadds]
      exact h.staged_received_path hsender (happlied.join hadds hedit) happlied.updates (by simp) hi
        (h.only_joiner hc hfits happlied hadds hedit) _

lemma stage_spec (hc : g.Accompanied c) :
    Ensures CommitError.IsFault
      (Staged H g m (c.proposals g) (c.joiners g)) (g.stage H rules c) := by
  cases c with
  | own own es selfUpdate params keys =>
    have hcreate : Ensures CommitError.IsFault
        (fun r => Staged H g m es (addProposals es).length r.1)
        (g.createCommit H rules own es selfUpdate params keys) :=
      (buildInternal_spec h hc).bind fun _ hstaged => hstaged
    exact hcreate.bind fun _ hstaged => hstaged
  | received committer es path => exact commitReceived_spec h hc
  | external kemOutput credential signatureKey params keys =>
    have hcreate : Ensures CommitError.IsFault (fun r => Staged H g m _
        ((addProposals _).length + 1) r.1)
        (g.createExternalCommit H rules kemOutput credential signatureKey params keys) :=
      (joinByExternalCommit_spec h hc).bind fun _ hstaged => hstaged
    exact hcreate.bind fun _ hstaged => hstaged
  | externalReceived proposals path => exact commitExternalReceived_spec h hc

/-! ## Committing -/

/-- **A commit** ends without a fault and keeps the group sound. -/
lemma commit_spec (hc : g.Accompanied c) :
    Ensures CommitError.IsFault
      (fun g' => ∃ n, g'.Sound H n ∧ ∃ t, g'.treesync.contents = t.contents ∧
        CommitEffect H g.treesync.emptyDiff m (c.proposals g) (c.joiners g) t n)
      (g.commit H rules c) := by
  refine (stage_spec h hc).bind fun d hstaged => ?_
  obtain ⟨n, heffect, hhash⟩ := hstaged.effect
  obtain ⟨hwf, hcached, htree⟩ := heffect.sound h.wellFormed h.intact.cached
  obtain ⟨t2, hmerge, hintact, hcontents, hblanked, hmembers⟩ :=
    TreeSync.mergeDiff_spec hwf.shaped htree hcached
  refine .of_ok (a := ⟨t2, d.groupContext⟩) ?_ ⟨n, ⟨?_, hintact, ?_⟩, d.diff, hcontents, heffect⟩
  · obtain ⟨staged, hstage, hpure⟩ := bind_inv hmerge
    rw [mergeDiff, hstage, ← pure_eq_ok.mp hpure]
    rfl
  · refine hwf.congr hintact.shaped hblanked hmembers fun j => ?_
    show (t2.contents.leaf j).isSome = _
    rw [hcontents]
  · show d.groupContext.treeHash = t2.treeHash
    rw [hhash, hintact.treeHash, hcontents]

end

end PublicGroup

end EmulatedMls
