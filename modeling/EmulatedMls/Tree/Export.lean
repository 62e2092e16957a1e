import EmulatedMls.Tree.CacheSound
import EmulatedMls.Tree.HashProvenance

/-!
# Exported trees

A member hands its tree to a joiner as a list of nodes that ends with the last full leaf.  The
joiner takes the smallest tree that holds the list.  This is the tree of the member as long as some
leaf in its right half is full, because members never make their tree smaller.
-/

namespace EmulatedMls

variable {D : Type} {H : HashSuite D}

open Contents List TreeSyncDiff

/-- Some leaf in the right half of the tree of depth `n` is full. -/
def Contents.RightHalf (C : Contents D) (n : ℕ) : Prop := ∃ j, 2 ^ n ≤ 2 * j + 1 ∧ (C.leaf j).isSome

namespace TreeSync

/-! ## The list of nodes -/

variable {qs : List (TreeSyncParentNode D)} {ls : List (TreeSyncLeafNode D)}
  {nodes : List (Option (Node D))} {i n : ℕ} {t : TreeSync D} {e : ℕ × TreeSyncParentNode D}

lemma length_interleave (h : ls.length = qs.length) :
    (interleave ls qs).length = 2 * ls.length := by
  induction ls generalizing qs with
  | nil => rfl
  | cons l ls ih =>
    cases qs with
    | nil => cases h
    | cons q qs =>
      rw [interleave, length_cons, length_cons, ih (Nat.succ.inj h), length_cons]
      omega

lemma getLast?_interleave {l : TreeSyncLeafNode D} (h : ls.length = qs.length) :
    (l.map .leafNode :: interleave ls qs).getLast? =
      (l :: ls).getLast?.map (Option.map Node.leafNode) := by
  induction ls generalizing l qs with
  | nil => rfl
  | cons l' ls ih =>
    cases qs with
    | nil => cases h
    | cons q qs =>
      rw [interleave, getLast?_cons_cons, getLast?_cons_cons, ih (Nat.succ.inj h),
        getLast?_cons_cons]

lemma splitNodes_leaf (hi : i % 2 = 0) (l : TreeSyncLeafNode D)
    (h : ABinaryTree.splitNodes (i + 1) (toTreeNodes (i + 1) nodes) = .ok (ls, qs)) :
    ABinaryTree.splitNodes i (toTreeNodes i (l.map .leafNode :: nodes)) = .ok (l :: ls, qs) := by
  have hnode : toTreeNodes i (l.map .leafNode :: nodes) =
      .leaf l :: toTreeNodes (i + 1) nodes := by
    cases l with
    | none => simp [toTreeNodes, hi]
    | some l => rfl
  rw [hnode, ABinaryTree.splitNodes, if_pos hi, h]
  rfl

lemma splitNodes_parent (hi : i % 2 = 1) (q : TreeSyncParentNode D)
    (h : ABinaryTree.splitNodes (i + 1) (toTreeNodes (i + 1) nodes) = .ok (ls, qs)) :
    ABinaryTree.splitNodes i (toTreeNodes i (q.map .parentNode :: nodes)) = .ok (ls, q :: qs) := by
  have hnode : toTreeNodes i (q.map .parentNode :: nodes) =
      .parent q :: toTreeNodes (i + 1) nodes := by
    cases q with
    | none => simp [toTreeNodes, hi]
    | some q => rfl
  rw [hnode, ABinaryTree.splitNodes, if_pos hi, h]
  rfl

lemma splitNodes_interleave (hi : i % 2 = 1) (h : ls.length = qs.length) :
    ABinaryTree.splitNodes i (toTreeNodes i (interleave ls qs)) = .ok (ls, qs) := by
  induction ls generalizing i qs with
  | nil =>
    obtain rfl := length_eq_zero_iff.mp h.symm
    rfl
  | cons l ls ih =>
    cases qs with
    | nil => cases h
    | cons q qs =>
      refine splitNodes_parent hi q (splitNodes_leaf (by omega) l ?_)
      exact ih (by omega) (Nat.succ.inj h)

variable {r : ℕ}

lemma new_exportRatchetTree (h : t.Sized n) (hn : n ≤ 29) (hr : r < 2 ^ n)
    (hfull : (t.leaf r).isSome) (hlast : ∀ i, r < i → t.leaf i = none) :
    ABinaryTree.new (toTreeNodes 0 t.exportRatchetTree.nodes) =
      .ok ⟨t.tree.leafNodes.take (r + 1), t.tree.parentNodes.take r⟩ := by
  have hpow : 2 ^ n ≤ 2 ^ 29 := Nat.pow_le_pow_right (by omega) hn
  have hright : t.rightmostFullLeafComplete = r :=
    rightmostFullLeafComplete_eq (by rwa [h.leaves]) hfull hlast
  have hlen : (t.tree.leafNodes.take (r + 1)).length = r + 1 := by
    rw [length_take, h.leaves]
    omega
  have hlastLeaf : (t.tree.leafNodes.take (r + 1)).getLast? = some (t.leaf r) := by
    have hr' : r < t.tree.leafNodes.length := by rwa [h.leaves]
    rw [getLast?_eq_getElem?, hlen, Nat.add_sub_cancel, getElem?_take_of_lt (by omega),
      leaf, ABinaryTree.leafByIndex, getD_eq_getElem?_getD, getElem?_eq_getElem hr']
    rfl
  unfold exportRatchetTree
  simp only [hright]
  cases htake : t.tree.leafNodes.take (r + 1) with
  | nil =>
    rw [htake] at hlen
    cases hlen
  | cons l ls =>
    have hls : ls.length = r := by
      rw [htake, length_cons] at hlen
      omega
    have hqs : (t.tree.parentNodes.take r).length = r := by
      rw [length_take, h.parents]
      omega
    have hpad : t.tree.leafNodes.length - 1 - t.tree.parentNodes.length = 0 := by
      rw [h.leaves, h.parents]
      omega
    simp only [hpad, replicate_zero, append_nil]
    set nodes := l.map .leafNode :: interleave ls (t.tree.parentNodes.take r) with hnodes
    have hkeep : (RatchetTree.ofNodes nodes).nodes = nodes := by
      refine rdropWhile_eq_self_iff.mpr fun hne => ?_
      have hget : nodes.getLast? = some ((t.leaf r).map .leafNode) := by
        rw [hnodes, getLast?_interleave (hls.trans hqs.symm), ← htake, hlastLeaf]
        rfl
      rw [Option.some.inj hget]
      simpa [Option.isSome_iff_ne_none] using hfull
    have hlength : nodes.length = 2 * r + 1 := by
      rw [hnodes, length_cons, length_interleave (hls.trans hqs.symm), hls]
    rw [hkeep, ABinaryTree.new, length_toTreeNodes, hlength, if_neg, if_neg]
    · rw [splitNodes_leaf rfl l (splitNodes_interleave rfl (hls.trans hqs.symm))]
      rfl
    · omega
    · show ¬ 2 * r + 1 > 2 ^ 30
      omega

/-! ## Import after export -/

lemma getD_eq_of_length {α : Type} {xs ys : List α} {a : α} (hlen : xs.length = ys.length)
    (h : ∀ i, xs.getD i a = ys.getD i a) : xs = ys := by
  refine ext_getElem hlen fun i hi hi' => ?_
  have := h i
  rwa [getD_eq_getElem _ _ hi, getD_eq_getElem _ _ hi'] at this

lemma Intact.tree_eq {t' : TreeSync D} (h : t.Intact H n) (h' : t'.Intact H n)
    (hcontents : t.contents = t'.contents) : t.tree = t'.tree := by
  have hleaves : t.tree.leafNodes = t'.tree.leafNodes := by
    refine getD_eq_of_length (a := default) (h.leaves.trans h'.leaves.symm) fun i => ?_
    show t.leaf i = t'.leaf i
    rw [← contents_leaf h.shaped, ← contents_leaf h'.shaped, hcontents]
  have hparents : t.tree.parentNodes = t'.tree.parentNodes := by
    refine getD_eq_of_length (a := default) (h.parents.trans h'.parents.symm) fun j => ?_
    obtain ⟨k, p, rfl⟩ := exists_inorder j
    show t.contents.parent k p = t'.contents.parent k p
    rw [hcontents]
  show (⟨t.tree.leafNodes, t.tree.parentNodes⟩ : ABinaryTree _ _) = _
  rw [hleaves, hparents]

lemma eq_parentByIndex_of_mem_parents (he : e ∈ t.tree.parents) :
    e.2 = t.tree.parentByIndex e.1 := by
  obtain ⟨⟨q, j⟩, hq, rfl⟩ := mem_map.mp he
  have hget : t.tree.parentNodes[j]? = some q := mem_zipIdx_iff_getElem?.mp hq
  show q = t.tree.parentNodes.getD j default
  rw [getD_eq_getElem?_getD, hget]
  rfl

lemma eq_parent_of_mem_parents (he : e ∈ t.emptyDiff.diff.parents) :
    e.2 = t.emptyDiff.diff.parent e.1 := by
  refine eq_parentByIndex_of_mem_parents ?_
  have hlist : t.emptyDiff.diff.parents =
      sortedIter [] t.tree.parents t.treeSize.parentCount := rfl
  rw [hlist] at he
  cases hcount : t.treeSize.parentCount with
  | zero =>
    rw [hcount] at he
    cases he
  | succ m =>
    rw [hcount] at he
    exact mem_of_mem_take he

lemma exists_last_leaf {j : ℕ} (hbeyond : ∀ i, 2 ^ n ≤ i → t.leaf i = none)
    (hj : (t.leaf j).isSome) :
    ∃ r < 2 ^ n, j ≤ r ∧ (t.leaf r).isSome ∧ ∀ i, r < i → t.leaf i = none := by
  have hlt : ∀ i, (t.leaf i).isSome → i < 2 ^ n := fun i hi => by
    by_contra hge
    rw [hbeyond i (Nat.not_lt.mp hge)] at hi
    cases hi
  set r := Nat.findGreatest (fun i => (t.leaf i).isSome) (2 ^ n) with hr
  have hjr : j ≤ r := Nat.le_findGreatest (le_of_lt (hlt j hj)) hj
  have hfull : (t.leaf r).isSome :=
    Nat.findGreatest_spec (P := fun i => (t.leaf i).isSome) (le_of_lt (hlt j hj)) hj
  refine ⟨r, hlt r hfull, hjr, hfull, fun i hi => ?_⟩
  by_contra hsome
  rw [← ne_eq, Option.ne_none_iff_isSome] at hsome
  exact Nat.findGreatest_is_greatest hi (le_of_lt (hlt i hsome)) hsome

lemma contents_take (h : t.Sized n) (hbranching : t.contents.Branching)
    (hlast : ∀ i, r < i → t.leaf i = none) :
    (⟨(⟨t.tree.leafNodes.take (r + 1), t.tree.parentNodes.take r⟩ :
        ABinaryTree (TreeSyncLeafNode D) (TreeSyncParentNode D)).leafByIndex,
      fun k p => (t.tree.parentNodes.take r).getD (inorder k p) default⟩ : Contents D) =
      t.contents := by
  have hcut : ∀ {α : Type} (xs : List α) (m i : ℕ) (a : α), (m ≤ i → xs.getD i a = a) →
      (xs.take m).getD i a = xs.getD i a := fun xs m i a hdefault => by
    rcases Nat.lt_or_ge i m with hlt | hge
    · rw [getD_eq_getElem?_getD, getElem?_take_of_lt hlt, getD_eq_getElem?_getD]
    · rw [hdefault hge, getD_eq_default _ _ ((length_take_le _ _).trans hge)]
  ext1
  · funext i
    rw [contents_leaf h.shaped]
    exact hcut _ _ _ _ fun hi => hlast i hi
  · funext k p
    refine hcut _ _ _ _ fun hle => ?_
    show t.contents.parent k p = none
    cases hq : t.contents.parent k p with
    | none => rfl
    | some q =>
      -- a parent is left of some full leaf
      obtain ⟨i, hi, hfull⟩ := (hbranching k p q hq).2
      have hbelow := Nat.div_mul_le_self i (2 ^ k)
      rw [hi, mul_comm, ← inorder_add_one] at hbelow
      rw [contents_leaf h.shaped, hlast i (by omega)] at hfull
      cases hfull

/-- **A linked tree with a full leaf in its right half is imported as it was exported.** -/
lemma import_export [DecidableEq D] (hwf : t.emptyDiff.WellFormed n) (h : t.Intact H n)
    (hlinked : t.contents.Linked H) (hgrounded : t.contents.Grounded H ∅)
    (hright : t.contents.RightHalf n) :
    ∃ t', fromRatchetTree H t.exportRatchetTree = .ok t' ∧ t'.tree = t.tree ∧
      t'.treeHash = t.treeHash ∧ t'.emptyDiff.WellFormed n ∧ t'.Intact H n := by
  obtain ⟨j, hhalf, hj⟩ := hright
  have hsized : t.Sized n := ⟨h.leaves, h.parents⟩
  have hleaf := contents_leaf h.shaped
  rw [hleaf] at hj
  obtain ⟨r, hr, hjr, hfull, hlast⟩ := exists_last_leaf (n := n) (fun i hi => by
    rw [← hleaf]
    exact hwf.beyond_depth i hi) hj
  obtain ⟨m, t1, t2, himport, ⟨hlower, hupper⟩, ⟨hwf1, h1⟩, ⟨hwf2, h2⟩, hcontents1, hcontents2⟩ :=
    fromRatchetTree_eq (H := H) (new_exportRatchetTree hsized hwf.depth hr hfull hlast)
  have hsame : t1.contents = t.contents :=
    hcontents1.trans (contents_take hsized hlinked.branching hlast)
  -- the smallest tree for the list is the tree itself
  obtain rfl : m = n := by
    have hlen : (t.tree.leafNodes.take (r + 1)).length = r + 1 := by
      rw [length_take, h.leaves]
      omega
    rw [hlen] at hlower hupper
    rcases Nat.lt_trichotomy m n with hlt | heq | hgt
    · have : 2 ^ (m + 1) ≤ 2 ^ n := Nat.pow_le_pow_right (by omega) hlt
      omega
    · exact heq
    · have : 2 ^ (n + 1) ≤ 2 ^ m := Nat.pow_le_pow_right (by omega) hgt
      omega
  have hverify : t1.emptyDiff.verifyParentHashes H = .ok () :=
    verifyParentHashes_of_linked (show t1.contents.Linked H from hsame ▸ hlinked)
      (show t1.contents.OneSided H from hsame ▸ hgrounded.oneSided) hwf1 h1.cached
      fun e he => eq_parent_of_mem_parents he
  refine ⟨t2, ?_, h2.tree_eq h (hcontents2.trans hsame), ?_, hwf2, h2⟩
  · rw [himport, hverify]
    rfl
  · rw [h2.treeHash, h.treeHash, hcontents2, hsame]

end TreeSync

/-! ## Joining -/

variable {joining : JoinRules D} {info : GroupInfo D}

namespace PublicGroup

/-- The call does not end with a mismatch of the tree hash. -/
abbrev NoMismatch {α : Type} : Except CreationFromExternalError α → Prop :=
  Ensures (· = .treeHashMismatch) fun _ => True

variable {r : RatchetTree D}

section Joining

variable {bad : CreationFromExternalError → Prop}

lemma ensures_checkLeaves (hinvalid : ¬ bad .leafNodeValidation)
    (hduplicate : ¬ bad .duplicateEncryptionKey) (joining : JoinRules D) (ls : List (LeafNode D))
    (keys : List Key) : Ensures bad (fun _ => True) (checkLeaves joining ls keys) := by
  induction ls generalizing keys with
  | nil => trivial
  | cons l ls ih =>
    rw [checkLeaves]
    split_ifs
    · exact hduplicate
    · exact ih _
    · exact hinvalid

variable {t : TreeSync D}

lemma ensures_checkParents (hduplicate : ¬ bad .duplicateEncryptionKey)
    {nodes : List (ℕ × TreeSyncParentNode D)}
    (hunmerged : ∀ j q, (j, some q) ∈ nodes → ∀ i ∈ q.unmergedLeaves,
      Ensures bad (fun _ => True) (checkUnmergedLeaf t j i))
    (keys : List Key) :
    Ensures bad (fun _ => True) (checkParents t nodes keys) := by
  have hlist : ∀ j (us : List ℕ),
      (∀ i ∈ us, Ensures bad (fun _ => True) (checkUnmergedLeaf t j i)) →
      Ensures bad (fun _ => True) (us.forM (checkUnmergedLeaf t j)) := by
    intro j us hus
    induction us with
    | nil => trivial
    | cons i us ih =>
      exact (hus i mem_cons_self).bind fun _ _ =>
        ih fun i' hi' => hus i' (.tail _ hi')
  induction nodes generalizing keys with
  | nil => trivial
  | cons e nodes ih =>
    have hrest := ih fun j q hq => hunmerged j q (.tail _ hq)
    obtain ⟨j, _ | q⟩ := e
    · exact hrest keys
    · rw [checkParents]
      split_ifs
      · exact hduplicate
      · exact (hlist j q.unmergedLeaves (hunmerged j q mem_cons_self)).bind fun _ _ =>
          hrest _

/-- Joining only complains if the imported tree gives a reason to. -/
lemma ensures_fromExternal [DecidableEq D]
    (hbad : ∀ e, bad e → e = .treeHashMismatch ∨ e = .unmergedLeafNotADescendant ∨
      e = .intermediateNodeMissingUnmergedLeaf)
    (himport : TreeSync.fromRatchetTree H r = .ok t)
    (hunmerged : ∀ j q, t.tree.parentByIndex j = some q → ∀ i ∈ q.unmergedLeaves,
      Ensures bad (fun _ => True) (checkUnmergedLeaf t j i))
    (hhash : bad .treeHashMismatch → t.treeHash = info.groupContext.treeHash) :
    Ensures bad (fun _ => True) (fromExternal H joining r info) := by
  have hinvalid : ¬ bad .leafNodeValidation := fun h => by simpa using hbad _ h
  have hduplicate : ¬ bad .duplicateEncryptionKey := fun h => by simpa using hbad _ h
  rw [fromExternal, himport]
  refine (ensures_checkLeaves hinvalid hduplicate joining _ _).bind fun keys _ => ?_
  refine (ensures_checkParents hduplicate (fun j q hq => hunmerged j q ?_) keys).bind fun _ _ => ?_
  · exact (TreeSync.eq_parentByIndex_of_mem_parents hq).symm
  cases t.leaf info.signer with
  | none => exact fun h => by simpa using hbad _ h
  | some l =>
    dsimp only
    split_ifs with hsig hne hvalid
    · exact fun h => hne (hhash h)
    · trivial
    · exact hinvalid
    · exact fun h => by simpa using hbad _ h

end Joining

lemma noMismatch_checkUnmergedLeaf (t : TreeSync D) (j i : ℕ) :
    NoMismatch (checkUnmergedLeaf t j i) := by
  unfold checkUnmergedLeaf
  cases directPath i t.treeSize with
  | error f => exact nofun
  | ok path =>
    dsimp only
    split_ifs
    · trivial
    · exact nofun
    · exact nofun

lemma noMismatch_fromExternal [DecidableEq D] {t : TreeSync D}
    (himport : TreeSync.fromRatchetTree H r = .ok t)
    (hhash : t.treeHash = info.groupContext.treeHash) :
    NoMismatch (fromExternal H joining r info) :=
  ensures_fromExternal (fun _ h => .inl h) himport
    (fun j _ _ i _ => noMismatch_checkUnmergedLeaf t j i) fun _ => hhash

end PublicGroup

/-! ## The right half -/

namespace TreeSyncDiff

variable {t t' : TreeSyncDiff D} {n n' : ℕ}

lemma Changes.depth_eq {cs : List (ℕ × Change D)} (h : t.Changes n cs t' n') (hwf : t.WellFormed n)
    (hcs : ∀ e ∈ cs, ∀ l, e.2 ≠ .add l) : n' = n := by
  induction h with
  | nil => rfl
  | @cons t t1 t' n n1 n' i c cs first rest ih =>
    obtain ⟨hc, hcs⟩ := forall_mem_cons.mp hcs
    have hfull : (t.contents.leaf i).isSome := by
      cases c with
      | update l | blank => exact first.applies
      | add l => exact absurd rfl (hc l)
    have hlt := hwf.lt_pow hfull
    rw [ih first.wellFormed hcs]
    rcases first.depth with hsame | ⟨-, heq⟩
    · exact hsame
    · omega

variable {added : List (ℕ × LeafNode D)}

lemma Changes.rightHalf_of_grown (h : t.Changes n (added.map fun e => (e.1, .add e.2)) t' n') :
    n' = n ∨ t'.contents.RightHalf n' := by
  induction added generalizing t n with
  | nil =>
    cases h
    exact .inl rfl
  | cons e added ih =>
    cases h with
    | @cons _ t1 _ _ n1 _ _ _ _ first rest =>
      rcases ih rest with rfl | hright
      · rcases first.depth with hsame | ⟨hgrown, hi⟩
        · exact .inl hsame
        · refine .inr ⟨e.1, ?_, rest.full first.full_of_add (by simp)⟩
          rw [hgrown, hi, pow_succ]
          omega
      · exact .inr hright

/-- Whether the tree grows or not, a leaf in its right half is full. -/
lemma Changes.rightHalf {us : List (ℕ × LeafNode D)} {removes : List ℕ}
    (h : t.Changes n (operations us removes added) t' n') (hwf : t.WellFormed n)
    (hkeep : (∃ j, 2 ^ n / 2 ≤ j ∧ (t.contents.leaf j).isSome ∧ j ∉ removes) ∨
      ((List.range (2 ^ n / 2)).filter fun i => (t.contents.leaf i).isNone ∨
      i ∈ removes).length < added.length) :
    t'.contents.RightHalf n' := by
  obtain ⟨t1, n1, hbefore, hafter⟩ := h.split
  have hn1 : n1 = n := hbefore.depth_eq hwf fun e he l heq => by
    rcases mem_append.mp he with he | he <;> obtain ⟨x, -, rfl⟩ := mem_map.mp he <;>
      cases heq
  rcases hafter.rightHalf_of_grown with hsame | hright
  · rw [hsame, hn1]
    rcases hkeep with ⟨j, hhalf, hfull, hnot⟩ | hcount
    · exact ⟨j, by omega, h.full hfull fun hmem => hnot (blank_mem_operations.mp hmem)⟩
    · obtain ⟨hnodup, hnew⟩ := h.new_members
      by_contra hnone
      have hsub : added.map Prod.fst ⊆ (List.range (2 ^ n / 2)).filter fun i =>
          (t.contents.leaf i).isNone ∨ i ∈ removes := by
        intro i hi
        obtain ⟨e, he, rfl⟩ := mem_map.mp hi
        obtain ⟨hplace, hfull⟩ := hnew e he
        have hleft : e.1 < 2 ^ n / 2 := by
          by_contra hge
          exact hnone ⟨e.1, by omega, hfull⟩
        rw [mem_filter, mem_range, decide_eq_true_eq, Option.isNone_iff_eq_none]
        exact ⟨hleft, hplace⟩
      have hle := (hnodup.subperm hsub).length_le
      rw [length_map] at hle
      omega
  · exact hright

end TreeSyncDiff

/-! ## Runs -/

namespace PublicGroup

/-- After the commit a leaf in the right half of the tree is full. -/
def KeepsRightHalf (g : PublicGroup D) (c : Commit D) : Prop :=
  (∃ j, g.treesync.emptyDiff.leafCount / 2 ≤ j ∧ (g.treesync.leaf j).isSome ∧
      j ∉ removeProposals (c.proposals g)) ∨
    ((List.range (g.treesync.emptyDiff.leafCount / 2)).filter fun i =>
      (g.treesync.leaf i).isNone ∨ i ∈ removeProposals (c.proposals g)).length < c.joiners g

/-- Leaves come from key packages and update proposals, which have no parent hash. -/
structure Commit.Sourced (g : PublicGroup D) (c : Commit D) : Prop where
  adds : ∀ kp ∈ addProposals (c.proposals g), kp.leafNode.parentHash = none
  updates : ∀ e ∈ updateProposals (c.proposals g), e.1.parentHash = none

instance (g : PublicGroup D) (c : Commit D) : Decidable (c.Sourced g) :=
  decidable_of_iff (_ ∧ _) ⟨fun h => ⟨h.1, h.2⟩, fun h => ⟨h.adds, h.updates⟩⟩

/-- The group is new, and the leaf of its founder is made like one for a key package. -/
def New (H : HashSuite D) (g : PublicGroup D) : Prop :=
  ∃ l extensions, l.parentHash = none ∧ found H l extensions = .ok g

/-- The commit of the event has proper leaves, is accompanied and keeps a leaf in the right half. -/
def Event.KeepsTree (g : PublicGroup D) : Event D → Prop
  | .commit c => c.Sourced g ∧ g.Accompanied c ∧ g.KeepsRightHalf c
  | .join _ _ _ => True

/-- The tree of the group can be exported. -/
structure Exportable (H : HashSuite D) (g : PublicGroup D) (n : ℕ) : Prop where
  sound : g.Sound H n
  linked : g.treesync.contents.Linked H
  grounded : g.treesync.contents.Grounded H ∅
  right : g.treesync.contents.RightHalf n

variable {g g' : PublicGroup D} {rules : GroupView D}

lemma exportable_of_new (h : g.New H) : g.Exportable H 0 := by
  obtain ⟨l, extensions, hl, hfound⟩ := h
  obtain ⟨hsound, hcontents⟩ := found_spec hfound
  refine ⟨hsound, ?_, ?_, 0, by simp, ?_⟩ <;> rw [hcontents]
  · exact fun k p q hq => nomatch hq
  · refine ⟨fun i _ x hx => ?_, fun k p q hq => nomatch hq⟩
    obtain ⟨l', hl', hx⟩ := hx
    dsimp only at hl'
    split_ifs at hl'
    rw [← Option.some.inj hl', hl] at hx
    cases hx
  · rfl

/-- The leaves that the proposals bring have no parent hash to be traced back. -/
lemma Commit.Sourced.grounded {c : Commit D} (h : c.Sourced g) {m n i : ℕ} {t : TreeSyncDiff D}
    {us added : List (ℕ × LeafNode D)} (hgrounded : g.treesync.contents.Grounded H ∅)
    (changes : g.treesync.emptyDiff.Changes m
      (operations us (removeProposals (c.proposals g)) added) t n)
    (updates : ∀ e ∈ us, (e.2, Sender.member e.1) ∈ updateProposals (c.proposals g))
    (adds : ∀ e ∈ added, e.2 ∈ (addProposals (c.proposals g)).map KeyPackage.leafNode ∨ e.1 = i) :
    t.contents.Grounded H {i} := by
  refine changes.grounded (hgrounded.mono (Set.empty_subset _)) fun e he hi l hl => ?_
  rcases mem_append.mp he with he | he
  · rcases mem_append.mp he with he | he
    · obtain ⟨e', he', rfl⟩ := mem_map.mp he
      rcases hl with hl | hl <;> cases hl
      exact h.updates _ (updates e' he')
    · obtain ⟨i, -, rfl⟩ := mem_map.mp he
      rcases hl with hl | hl <;> cases hl
  · obtain ⟨e', he', rfl⟩ := mem_map.mp he
    rcases hl with hl | hl <;> cases hl
    rcases adds e' he' with hadd | hself
    · obtain ⟨kp, hkp, heq⟩ := mem_map.mp hadd
      exact heq ▸ h.adds kp hkp
    · exact absurd hself hi

variable [DecidableEq D]

lemma Exportable.commit {c : Commit D} {m : ℕ} (h : g.Exportable H m) (hfree : H.CollisionFree)
    (hc : Event.KeepsTree g (.commit c)) (hcommit : g.commit H rules c = .ok g') :
    ∃ n, g'.Exportable H n := by
  obtain ⟨hsourced, haccompanied, hkeep⟩ := hc
  obtain ⟨n, hsound, t, hcontents, heffect⟩ :=
    (commit_spec h.sound haccompanied).post_of_ok hcommit
  have hwf := h.sound.wellFormed
  refine ⟨n, hsound, ?_, ?_, ?_⟩ <;> rw [hcontents]
  · cases heffect with
    | untouched => exact h.linked
    | path changes updates adds count full set =>
      exact set.linked (changes.wellFormed hwf) (changes.linked hwf h.linked)
  · cases heffect with
    | untouched => exact h.grounded
    | path changes updates adds count full set =>
      rw [set.contents]
      exact (hsourced.grounded h.grounded changes updates adds).withPath hfree set.carries
  · cases heffect with
    | untouched => exact h.right
    | @path us added t1 _ _ i _ l changes updates adds count full set =>
      have hleaf : ∀ j, g.treesync.emptyDiff.contents.leaf j = g.treesync.leaf j :=
        TreeSync.contents_leaf h.sound.intact.shaped
      obtain ⟨j, hhalf, hj⟩ := changes.rightHalf hwf (by
        simp only [KeepsRightHalf, hwf.leafCount] at hkeep
        simpa only [hleaf, count] using hkeep)
      refine ⟨j, hhalf, ?_⟩
      rw [set.contents]
      by_cases hji : j = i
      · rw [hji, leaf_edit_self]
        rfl
      · rwa [leaf_edit_of_ne hji]

lemma Exportable.join {n : ℕ} (h : g.Exportable H n)
    (hjoin : fromExternal H joining g.treesync.exportRatchetTree info = .ok g') :
    g'.Exportable H n := by
  obtain ⟨himport, -, hcontext⟩ := started_of_fromExternal hjoin
  obtain ⟨t, himport', htree, -, hwf, hintact⟩ :=
    TreeSync.import_export h.sound.wellFormed h.sound.intact h.linked h.grounded h.right
  obtain rfl := Exec.unique himport' himport
  have hcontents : g'.treesync.contents = g.treesync.contents :=
    congrArg (fun tree => tree.emptyDiff.contents) htree
  exact ⟨⟨hwf, hintact, hcontext⟩, hcontents ▸ h.linked, hcontents ▸ h.grounded,
    hcontents ▸ h.right⟩

lemma exportable_of_reaches (hfree : H.CollisionFree)
    (h : (groupRuns H rules (·.New H)).Reaches (fun g e => e.KeepsTree g) g) :
    ∃ n, g.Exportable H n := by
  have hinit : ∀ g : PublicGroup D, g.New H → ∃ n, g.Exportable H n :=
    fun g hg => ⟨0, exportable_of_new hg⟩
  refine h.invariant hinit ?_
  rintro g e g' ⟨n, hexportable⟩ hkeeps hstep
  cases e with
  | commit c => exact hexportable.commit hfree hkeeps (Exec.toOption_eq_some.mp hstep)
  | join joining signer verifies => exact ⟨n, hexportable.join (Exec.toOption_eq_some.mp hstep)⟩

end PublicGroup

open PublicGroup

/-- **Export and import** give the same tree with the same hash, in every run whose commits are
    accompanied and keep a leaf in the right half. -/
theorem export_import_same [DecidableEq D] (H : HashSuite D) (rules : GroupView D)
    (hfree : H.CollisionFree) {g : PublicGroup D}
    (h : (groupRuns H rules (·.New H)).Reaches (fun g e => e.KeepsTree g) g) :
    (∃ t, TreeSync.fromRatchetTree H g.treesync.exportRatchetTree = .ok t ∧
        t.tree = g.treesync.tree ∧ t.treeHash = g.treesync.treeHash) ∧
      ∀ joining info, info.groupContext = g.groupContext →
        fromExternal H joining g.treesync.exportRatchetTree info ≠
          .error .treeHashMismatch := by
  obtain ⟨n, hexportable⟩ := exportable_of_reaches hfree h
  obtain ⟨t, himport, htree, hhash, -⟩ := TreeSync.import_export hexportable.sound.wellFormed
    hexportable.sound.intact hexportable.linked hexportable.grounded hexportable.right
  refine ⟨⟨t, himport, htree, hhash⟩, fun joining info hinfo hmismatch => ?_⟩
  have hcontext : t.treeHash = info.groupContext.treeHash := by
    rw [hhash, hinfo, hexportable.sound.context]
  exact (noMismatch_fromExternal himport hcontext).not_bad hmismatch rfl

/-- Leaf 2 is spared and in the right half, or the commit fills more leaves than the left half has
    places for. -/
def keepsTree (g : PublicGroup (List ℕ)) : Event (List ℕ) → Bool
  | .commit c => sparesMember 2 g (.commit c) && decide (c.Sourced g ∧
      ((g.treesync.emptyDiff.leafCount / 2 ≤ 2 ∧ (g.treesync.leaf 2).isSome ∧
        2 ∉ removeProposals (c.proposals g)) ∨
      ((List.range (g.treesync.emptyDiff.leafCount / 2)).filter fun i =>
        (g.treesync.leaf i).isNone ∨ i ∈ removeProposals (c.proposals g)).length < c.joiners g))
  | .join _ _ _ => false

lemma keepsTree_sound (g : PublicGroup (List ℕ)) (e : Event (List ℕ))
    (h : keepsTree g e = true) : e.KeepsTree g := by
  cases e with
  | commit c =>
    obtain ⟨hspares, hrest⟩ := Bool.and_eq_true_iff.mp h
    obtain ⟨hsourced, hright⟩ := of_decide_eq_true hrest
    exact ⟨hsourced, accompanied_of_sparesMember g (.commit c) hspares,
      hright.imp_left fun hright => ⟨2, hright⟩⟩
  | join joining signer verifies => trivial

/-- The founder adds three members and removes one of them; a joiner would get the tree of the
    group. -/
theorem export_import_same_removal :
    ∃ g, smallRun keepsTree [invites [1, 2, 3], memberCommit 0 [.remove 1] 2000] = some g ∧
      (g.treesync.leaf 1).isNone ∧
      ∃ t, TreeSync.fromRatchetTree plainHash g.treesync.exportRatchetTree = .ok t ∧
        t.tree = g.treesync.tree ∧ t.treeHash = g.treesync.treeHash := by
  refine exists_some_and (by decide +kernel) fun g hg _ => ?_
  exact (export_import_same plainHash lenientRules plainHash_collisionFree
    (reaches_smallRun (fun _ hg => ⟨_, _, rfl, hg⟩) keepsTree_sound hg)).1

def lenientJoin : JoinRules (List ℕ) := ⟨fun _ => true, fun _ => true⟩

/-- **The exported tree is too small.**  Its tree keeps four leaves after a removal, but the
    imported tree has two and another hash, and a joiner refuses it. -/
theorem removal_shrinks_export :
    ∃ g, smallGroup.Reaches (fun g e => e.Accompanied g) g ∧
      g.treesync.emptyDiff.leafCount = 4 ∧
      (∃ t, TreeSync.fromRatchetTree plainHash g.treesync.exportRatchetTree = .ok t ∧
        t.emptyDiff.leafCount = 2 ∧ t.treeHash ≠ g.treesync.treeHash) ∧
      fromExternal plainHash lenientJoin g.treesync.exportRatchetTree
        ⟨g.groupContext, 0, fun _ => true⟩ = .error .treeHashMismatch :=
  exists_smallRun (sparesMember 1) [invites [1], memberCommit 0 [.add (memberPackage 2)] 2000,
      memberCommit 0 [.remove 2] 3000] accompanied_of_sparesMember (by decide +kernel)

end EmulatedMls
