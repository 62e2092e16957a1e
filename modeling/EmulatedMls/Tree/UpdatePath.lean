import EmulatedMls.Tree.HashCache

/-!
# Update paths

What setting the path of a committer does to the tree and to the cache.
-/

namespace EmulatedMls

open Contents List

variable {D : Type} {H : HashSuite D} {n i j : ℕ}

lemma exists_sib (hi : i < 2 ^ n) (hj : j < 2 ^ n) (hne : j ≠ i) :
    ∃ k < n, j / 2 ^ k = sib (i / 2 ^ k) := by
  induction n generalizing i j with
  | zero =>
    simp only [pow_zero, Nat.lt_one_iff] at hi hj
    exact absurd (hj.trans hi.symm) hne
  | succ n ih =>
    by_cases hhalf : j / 2 = i / 2
    · refine ⟨0, by omega, ?_⟩
      rw [pow_zero, Nat.div_one, Nat.div_one]
      rcases sib_cases i with ⟨h, h'⟩ | ⟨h, h'⟩ <;> omega
    · obtain ⟨k, hk, heq⟩ := ih (by omega : i / 2 < 2 ^ n) (by omega : j / 2 < 2 ^ n) hhalf
      refine ⟨k + 1, by omega, ?_⟩
      rwa [Nat.div_div_eq_div_mul, Nat.div_div_eq_div_mul, ← pow_succ'] at heq

/-- The nodes of a new path, with the parent hash for the leaf. -/
def linkPath (H : HashSuite D) (sibling : ℕ → D) : List (ℕ × Key) → List (ℕ × ParentNode D) × D
  | [] => ([], H.empty)
  | (k, key) :: es =>
    let q : ParentNode D := { ParentNode.ofKey H key with parentHash := (linkPath H sibling es).2 }
    ((k, q) :: (linkPath H sibling es).1, q.computeParentHash H (sibling k))

lemma map_fst_linkPath (sibling : ℕ → D) (es : List (ℕ × Key)) :
    (linkPath H sibling es).1.map Prod.fst = es.map Prod.fst := by
  induction es with
  | nil => rfl
  | cons e es ih => simp only [linkPath, map_cons, ih]

variable {k : ℕ} {hashes : List D} {α : Type} {es : List (ℕ × Key)}

namespace TreeSyncDiff

variable {t : TreeSyncDiff D} {n i : ℕ}

/-! ## The filtered path -/

variable {t' : TreeSyncDiff D}

section Resolution

variable {excluded : List ℕ} {k p r : ℕ}

def leafReference (t : TreeSyncDiff D) (excluded : List ℕ) (i : ℕ) :
    Option (TreeNodeIndex × NodeReference D) :=
  ((t.contents.exclude excluded).leaf i).map fun l => (.leaf i, .leaf l)

lemma resolution_leaf :
    t.resolution (nodeAt 0 p) excluded r = (t.leafReference excluded p).toList := by
  rw [nodeAt_zero, resolution, fold_leaf]
  simp only [leafReference, Contents.exclude]
  split_ifs
  · rfl
  · show _ = ((t.diff.leaf p).map _).toList
    cases t.diff.leaf p <;> rfl

lemma resolution_of_some {q : ParentNode D} (h : t.contents.parent k p = some q) :
    t.resolution (nodeAt (k + 1) p) excluded r =
      (.parent (inorder k p), .parent q) ::
        q.unmergedLeaves.filterMap (t.leafReference excluded) := by
  have hparent : t.diff.parent (inorder k p) = some q := h
  rw [resolution, fold_at_succ, hparent]
  refine congrArg _ (filterMap_congr fun i _ => ?_)
  simp only [leafReference, Contents.exclude]
  split_ifs <;> rfl

lemma resolution_of_none (h : t.contents.parent k p = none) :
    t.resolution (nodeAt (k + 1) p) excluded r =
      if p * 2 ^ (k + 1) > r then []
      else t.resolution (nodeAt k (2 * p)) excluded r ++
        t.resolution (nodeAt k (2 * p + 1)) excluded r := by
  have hparent : t.diff.parent (inorder k p) = none := h
  unfold resolution
  rw [fold_at_succ, hparent]
  simp only [leftmost_inorder]

lemma resolution_ne_nil (hj : (t.contents.leaf j).isSome) (hp : j / 2 ^ k = p) (hr : j ≤ r) :
    t.resolution (nodeAt k p) [] r ≠ [] := by
  induction k generalizing p with
  | zero =>
    obtain rfl : j = p := by simpa using hp
    obtain ⟨l, hl⟩ := Option.isSome_iff_exists.mp hj
    rw [resolution_leaf, leafReference, exclude_nil, hl]
    exact cons_ne_nil _ _
  | succ k ih =>
    rw [div_two_pow_succ] at hp
    cases hq : t.contents.parent k p with
    | some q =>
      rw [resolution_of_some hq]
      exact cons_ne_nil _ _
    | none =>
      have hleft : ¬ p * 2 ^ (k + 1) > r := by
        have := Nat.div_mul_le_self j (2 ^ (k + 1))
        rw [div_two_pow_succ, hp] at this
        omega
      rw [resolution_of_none hq, if_neg hleft]
      rcases (by omega : j / 2 ^ k = 2 * p ∨ j / 2 ^ k = 2 * p + 1) with hl | hr
      · exact fun hnil => ih hl (append_eq_nil_iff.mp hnil).1
      · exact fun hnil => ih hr (append_eq_nil_iff.mp hnil).2

lemma resolution_eq_nil_congr {M : Set ℕ} (h : Contents.AgreeOff M t.contents t'.contents)
    (hp : ∀ i ∈ M, i / 2 ^ k ≠ p) :
    t'.resolution (nodeAt k p) [] r = [] ↔
      t.resolution (nodeAt k p) [] r = [] := by
  induction k generalizing p with
  | zero =>
    have hleaf : t'.contents.leaf p = t.contents.leaf p :=
      h.leaf p fun hmem => hp p hmem (by rw [pow_zero, Nat.div_one])
    rw [resolution_leaf, resolution_leaf, leafReference, leafReference, exclude_nil,
      exclude_nil, hleaf]
  | succ k ih =>
    have hparent : t'.contents.parent k p = t.contents.parent k p := h.parent k p hp
    cases hq : t.contents.parent k p with
    | some q =>
      rw [resolution_of_some hq, resolution_of_some (hparent.trans hq)]
      simp
    | none =>
      rw [resolution_of_none hq, resolution_of_none (hparent.trans hq)]
      split_ifs
      · rfl
      · rw [append_eq_nil_iff, append_eq_nil_iff,
          ih fun i hi => (div_ne_of_div_succ_ne (hp i hi)).1,
          ih fun i hi => (div_ne_of_div_succ_ne (hp i hi)).2]

end Resolution

/-- The levels of the copath of leaf `i` at which the resolution is not empty. -/
def pathLevels (t : TreeSyncDiff D) (n i : ℕ) : List ℕ :=
  (List.range n).filter fun k =>
    !(t.resolution (nodeAt k (sib (i / 2 ^ k))) [] t.rightmostFullLeaf).isEmpty

lemma keepResolved_map {β γ : Type} (f : γ → α) (g : γ → List β) (cs : List γ) :
    keepResolved (cs.map f) (cs.map g) = (cs.filter fun c => !(g c).isEmpty).map f := by
  induction cs with
  | nil => rfl
  | cons c cs ih =>
    unfold keepResolved at ih ⊢
    rw [map_cons, map_cons, zip_cons_cons, filterMap_cons, ih]
    cases hg : (g c).isEmpty <;> simp [hg]

section

variable (h : t.diff.Shaped n) (hi : i < 2 ^ n)
include h hi

lemma copathResolutions_eq :
    t.copathResolutions i = .ok ((List.range n).map fun k =>
      t.resolution (nodeAt k (sib (i / 2 ^ k))) [] t.rightmostFullLeaf) := by
  have hcount : t.leafCount = 2 ^ n := by rw [leafCount, h.size, TreeSize.leafCount_ofDepth]
  unfold copathResolutions
  cases n with
  | zero =>
    have hone : t.leafCount = minTreeSize := hcount
    rw [if_pos hone]
    rfl
  | succ n =>
    have hmany : t.leafCount ≠ minTreeSize := by
      rw [hcount, pow_succ]
      show 2 ^ n * 2 ≠ 1
      omega
    rw [if_neg hmany, h.size, copath_ofDepth hi]
    show Except.ok _ = _
    rw [map_map]
    rfl

lemma filteredDirectPath_eq :
    t.filteredDirectPath i =
      .ok ((t.pathLevels n i).map fun k => inorder k (i / 2 ^ (k + 1))) := by
  rw [filteredDirectPath, h.size, directPath_ofDepth hi, copathResolutions_eq h hi]
  show Except.ok (keepResolved _ _) = _
  rw [pathNodes, keepResolved_map]
  rfl

lemma filteredCopath_eq :
    t.filteredCopath i =
      .ok ((t.pathLevels n i).map fun k => nodeAt k (sib (i / 2 ^ k))) := by
  rw [filteredCopath, copathResolutions_eq h hi]
  cases n with
  | zero =>
    rw [h.size, copath, directPath_ofDepth hi]
    rfl
  | succ n =>
    rw [h.size, copath_ofDepth hi]
    show Except.ok (keepResolved _ _) = _
    rw [keepResolved_map]
    rfl

end

lemma mem_pathLevels : k ∈ t.pathLevels n i ↔
    k < n ∧ t.resolution (nodeAt k (sib (i / 2 ^ k))) [] t.rightmostFullLeaf ≠ [] := by
  rw [pathLevels, mem_filter, mem_range]
  simp

lemma nodup_pathLevels (t : TreeSyncDiff D) (n i : ℕ) : (t.pathLevels n i).Nodup :=
  nodup_range.filter _

lemma pathLevels_congr (h : Contents.AgreeOff {i} t.contents t'.contents)
    (hright : t'.rightmostFullLeaf = t.rightmostFullLeaf) :
    t'.pathLevels n i = t.pathLevels n i := by
  unfold pathLevels
  rw [hright]
  refine filter_congr fun k _ => ?_
  have hiff := resolution_eq_nil_congr (r := t.rightmostFullLeaf) h fun j hj => by
    rw [Set.mem_singleton_iff.mp hj]
    exact (sib_ne (i / 2 ^ k)).symm
  rw [Bool.eq_iff_iff, Bool.not_eq_true', Bool.not_eq_true', isEmpty_eq_false_iff,
    isEmpty_eq_false_iff]
  exact not_congr hiff

lemma alone_of_pathLevels_eq_nil (h : t.WellFormed n) (hi : i < 2 ^ n)
    (hnil : t.pathLevels n i = []) (hj : (t.contents.leaf j).isSome) : j = i := by
  by_contra hne
  obtain ⟨k, hk, heq⟩ := exists_sib hi (h.lt_pow hj) hne
  have hright : j ≤ t.rightmostFullLeaf := by
    have := h.lt_slots hj
    rw [h.rightmostFullLeaf]
    omega
  have hmem : k ∈ t.pathLevels n i := mem_pathLevels.mpr ⟨hk, resolution_ne_nil hj heq hright⟩
  rw [hnil] at hmem
  cases hmem

/-! ## The leaf of the committer -/

lemma addSender_of_full (h : t.WellFormed n) (hi : (t.contents.leaf i).isSome) (l : LeafNode D) :
    t.addSender i l = .ok t := by
  have hsome : (t.diff.leaf i).isNone = false := by
    have hleaf : (t.diff.leaf i).isSome = true := hi
    rw [← Option.not_isSome, hleaf]
    rfl
  have hlt := h.lt_pow hi
  rw [addSender, hsome, if_neg]
  · rfl
  · rw [h.leafCount]
    simp only [Bool.false_eq_true, false_or]
    omega

lemma addSender_of_blank (h : t.WellFormed n) (hi : t.contents.leaf i = none) (l : LeafNode D) :
    Ensures TreeSyncError.IsFault
      (fun t' => ∃ n', t.Edited n (.add l) i t' n') (t.addSender i l) := by
  have hnone : (t.diff.leaf i).isNone = true := by
    have hleaf : t.diff.leaf i = none := hi
    rw [hleaf]
    rfl
  rw [addSender, if_pos (.inl hnone)]
  rcases addLeaf_spec h l with hfull | ⟨t', n', hadd, hedit⟩
  · rw [hfull]
    rintro ⟨f, ⟨⟩⟩
  · rw [hadd]
    show Ensures _ _ (if _ then _ else _)
    split_ifs with hne
    · rintro ⟨f, ⟨⟩⟩
    · rw [ne_eq, not_not] at hne
      subst hne
      exact ⟨n', hedit⟩

/-! ## Parent hashes -/

lemma linkParentHashes_append {es es' : List ((ℕ × ParentNode D) × TreeNodeIndex)} {previous h : D}
    {nodes : List (ℕ × ParentNode D)}
    (hes : linkParentHashes H hashes es previous = .ok (nodes, h)) :
    linkParentHashes H hashes (es ++ es') previous = (do
      let (nodes', h') ← linkParentHashes H hashes es' h
      pure (nodes ++ nodes', h')) := by
  induction es generalizing previous nodes with
  | nil =>
    obtain ⟨rfl, rfl⟩ := Prod.mk.inj (Except.ok.inj hes)
    rw [nil_append]
    cases linkParentHashes H hashes es' previous <;> rfl
  | cons e es ih =>
    obtain ⟨s, hs, hes⟩ := Exec.bind_inv hes
    obtain ⟨⟨nodes1, h1⟩, hrest, hes⟩ := Exec.bind_inv hes
    obtain ⟨rfl, rfl⟩ := Prod.mk.inj (Exec.pure_eq_ok.mp hes)
    rw [cons_append, linkParentHashes, hs]
    show (linkParentHashes H hashes (es ++ es') _ >>= _) = _
    rw [ih hrest]
    cases linkParentHashes H hashes es' h1 <;> rfl

lemma linkParentHashes_reverse {f : ℕ → ℕ} {x : ℕ → TreeNodeIndex} {sibling : ℕ → D}
    (hsib : ∀ e ∈ es, index hashes (x e.1).u32 = .ok (sibling e.1)) :
    linkParentHashes H hashes
        (es.map fun e => ((f e.1, ParentNode.ofKey H e.2), x e.1)).reverse H.empty =
      .ok (((linkPath H sibling es).1.map fun e => (f e.1, e.2)).reverse,
        (linkPath H sibling es).2) := by
  induction es with
  | nil => rfl
  | cons e es ih =>
    have hrest := ih fun e' he' => hsib e' (.tail _ he')
    rw [map_cons, reverse_cons, linkParentHashes_append hrest, linkParentHashes,
      hsib e mem_cons_self]
    simp only [linkPath, map_cons, reverse_cons]
    rfl

end TreeSyncDiff

/-- The hash of the sibling of leaf `i` or of the node of level `k` above it. -/
def Contents.siblingHash (H : HashSuite D) (C : Contents D) (i k : ℕ) : D :=
  C.hashAt H k (sib (i / 2 ^ k))

lemma inTree_sib (hi : i < 2 ^ n) (hk : k < n) : InTree n k (sib (i / 2 ^ k)) := by
  have hlt := div_two_pow_lt hi (le_of_lt hk)
  refine ⟨le_of_lt hk, ?_⟩
  rw [show n - k = n - (k + 1) + 1 by omega, pow_succ] at hlt ⊢
  rcases sib_cases (i / 2 ^ k) with ⟨h, h'⟩ | ⟨h, h'⟩ <;> omega

/-! ## Writing the path -/

lemma lookup_of_mem {ns : List (ℕ × α)} (h : (ns.map Prod.fst).Nodup) {e : ℕ × α} (he : e ∈ ns) :
    ns.lookup e.1 = some e.2 := by
  obtain ⟨ns1, ns2, rfl⟩ := append_of_mem he
  refine lookup_eq_some_iff.mpr ⟨ns1, ns2, rfl, fun e' he' => ?_⟩
  rw [map_append, map_cons] at h
  have hdisj := (nodup_append.mp h).2.2 e'.1 (mem_map_of_mem he') e.1 mem_cons_self
  simpa using hdisj.symm

lemma lookup_of_notMem {ns : List (ℕ × α)} (h : k ∉ ns.map Prod.fst) : ns.lookup k = none :=
  lookup_eq_none_iff.mpr fun e he => by
    have hne : k ≠ e.1 := fun heq => h (heq ▸ mem_map_of_mem he)
    simpa using hne

/-- The nodes of a path, given by their levels, with their indices. -/
def indexed (i : ℕ) (ns : List (ℕ × ParentNode D)) : List (ℕ × ParentNode D) :=
  ns.map fun e => (inorder e.1 (i / 2 ^ (e.1 + 1)), e.2)

variable {f : ℕ → Option (ParentNode D) → Option (ParentNode D)}

namespace AbDiff

variable {d : AbDiff (TreeSyncLeafNode D) (TreeSyncParentNode D)} {n i : ℕ}

/-- Blank the direct path of leaf `i` and write the nodes of a path. -/
def setPath (d : AbDiff (TreeSyncLeafNode D) (TreeSyncParentNode D)) (n i : ℕ)
    (ns : List (ℕ × ParentNode D)) : AbDiff (TreeSyncLeafNode D) (TreeSyncParentNode D) :=
  (indexed i ns).foldl (fun d e => d.modifyParent e.1 fun _ => some e.2)
    (d.modifyAlong (pathNodes n i) fun _ _ => none)

variable {ns : List (ℕ × ParentNode D)}

lemma setPath_eq (hns : (ns.map Prod.fst).Nodup) :
    d.setPath n i ns = (d.modifyAlong (pathNodes n i) fun _ _ => none).modifyAlong
      ((indexed i ns).map Prod.fst) fun j _ => ns.lookup (level j) := by
  refine foldl_modifyParent_eq (fun e he => ?_) _
  obtain ⟨e', he', rfl⟩ := mem_map.mp he
  rw [level_inorder, lookup_of_mem hns he']

lemma mem_indexed {p : ℕ} : inorder k p ∈ (indexed i ns).map Prod.fst ↔
    k ∈ ns.map Prod.fst ∧ p = i / 2 ^ (k + 1) := by
  simp only [indexed, map_map, mem_map, Function.comp_apply]
  constructor
  · rintro ⟨e, he, heq⟩
    obtain ⟨rfl, rfl⟩ := inorder_inj heq
    exact ⟨⟨e, he, rfl⟩, rfl⟩
  · rintro ⟨⟨e, he, rfl⟩, rfl⟩
    exact ⟨e, he, rfl⟩

lemma nodup_indexed (hns : (ns.map Prod.fst).Nodup) : ((indexed i ns).map Prod.fst).Nodup := by
  have hmap : (indexed i ns).map Prod.fst =
      (ns.map Prod.fst).map fun k => inorder k (i / 2 ^ (k + 1)) := by
    rw [indexed, map_map, map_map]
    rfl
  rw [hmap]
  exact hns.map fun _ _ heq => (inorder_inj heq).1

lemma contents_setPath (hns : (ns.map Prod.fst).Nodup) (hlt : ∀ k ∈ ns.map Prod.fst, k < n) :
    (d.setPath n i ns).contents =
      d.contents.edit n i (d.contents.leaf i) fun k _ => ns.lookup k := by
  rw [setPath_eq hns]
  ext1
  · funext j
    simp only [contents, leaf_modifyAlong, Contents.edit]
    split_ifs with hj
    · rw [hj]
    · rfl
  · funext k p
    simp only [contents, Contents.edit, parent_modifyAlong (nodup_indexed hns),
      parent_modifyAlong (nodup_pathNodes n i), mem_indexed, mem_pathNodes, level_inorder]
    by_cases hpos : p = i / 2 ^ (k + 1)
    · by_cases hk : k ∈ ns.map Prod.fst
      · rw [if_pos ⟨hk, hpos⟩, if_pos ⟨hlt k hk, hpos⟩]
      · rw [if_neg fun hc => hk hc.1, lookup_of_notMem hk]
    · simp only [hpos, and_false, if_false]

lemma Shaped.setPath (h : d.Shaped n) (hi : i < 2 ^ n) (hns : (ns.map Prod.fst).Nodup)
    (hlt : ∀ k ∈ ns.map Prod.fst, k < n) : (d.setPath n i ns).Shaped n := by
  rw [setPath_eq hns]
  refine (h.modifyAlong (fun j hj => lt_of_mem_pathNodes hi hj) _).modifyAlong (fun j hj => ?_) _
  obtain ⟨k, p, rfl⟩ := exists_inorder j
  obtain ⟨hk, hpos⟩ := mem_indexed.mp hj
  exact lt_of_mem_pathNodes hi (mem_pathNodes.mpr ⟨hlt k hk, hpos⟩)

lemma contents_replaceLeaf {C : Contents D} {x y : Option (LeafNode D)}
    (h : d.contents = C.edit n i x f) : (d.replaceLeaf i y).contents = C.edit n i y f := by
  ext1
  · funext j
    have hj : d.leaf j = (C.edit n i x f).leaf j := congrFun (congrArg Contents.leaf h) j
    simp only [contents, leaf_replaceLeaf, hj, Contents.edit]
    split_ifs <;> rfl
  · show d.contents.parent = (C.edit n i x f).parent
    rw [h]

lemma setPath_frame (hns : (ns.map Prod.fst).Nodup) :
    (d.setPath n i ns).originalTree = d.originalTree ∧
      (d.setPath n i ns).leafDiff = d.leafDiff := by
  rw [setPath_eq hns]
  obtain ⟨htree, hleaf, -⟩ := modifyAlong_frame d (pathNodes n i) fun _ _ => none
  obtain ⟨htree', hleaf', -⟩ := modifyAlong_frame (d.modifyAlong (pathNodes n i) fun _ _ => none)
    ((indexed i ns).map Prod.fst) fun j _ => ns.lookup (level j)
  exact ⟨htree'.trans htree, hleaf'.trans hleaf⟩

end AbDiff

namespace TreeSyncDiff

/-! ## The effect of a path -/

/-- The cache is that of `C`, which differs along the paths of the leaves in the diff only. -/
structure Tracks (H : HashSuite D) (C : Contents D) (m : ℕ) (t : TreeSyncDiff D) : Prop where
  cached : Cached H C m t.treeHashes
  beyond : ∀ i, 2 ^ m ≤ i → C.leaf i = none
  agree : C.AgreeOff {j | j ∈ t.diff.leafDiff} t.contents

/-- The path that is handed to `process_update_path`. -/
def keyPath (H : HashSuite D) (i : ℕ) (es : List (ℕ × Key)) : List (ℕ × ParentNode D) :=
  es.map fun e => (inorder e.1 (i / 2 ^ (e.1 + 1)), ParentNode.ofKey H e.2)

/-- The nodes of the path once they are linked. -/
def linkedPath (H : HashSuite D) (t : TreeSyncDiff D) (i : ℕ) (es : List (ℕ × Key)) :
    List (ℕ × ParentNode D) × D := linkPath H (t.contents.siblingHash H i) es

lemma linkedPath_levels {t : TreeSyncDiff D} (hes : es.map Prod.fst = t.pathLevels n i) :
    ((t.linkedPath H i es).1.map Prod.fst).Nodup ∧
      ∀ k ∈ (t.linkedPath H i es).1.map Prod.fst, k < n := by
  rw [linkedPath, map_fst_linkPath, hes]
  exact ⟨nodup_pathLevels t n i, fun k hk => (mem_pathLevels.mp hk).1⟩

/-- The path `es` of leaf `i` with the new leaf `l` is set. -/
structure PathSet (H : HashSuite D) (t : TreeSyncDiff D) (n i : ℕ) (es : List (ℕ × Key))
    (l : LeafNode D) (t' : TreeSyncDiff D) : Prop where
  wellFormed : t'.WellFormed n
  levels : es.map Prod.fst = t.pathLevels n i
  contents : t'.contents =
    t.contents.edit n i (some l) fun k _ => (t.linkedPath H i es).1.lookup k
  carries : l.parentHash = some (t.linkedPath H i es).2
  tree : t'.diff.originalTree = t.diff.originalTree
  cached : Cached H t'.contents n t'.treeHashes

variable [DecidableEq D] {t : TreeSyncDiff D} {C : Contents D} {m n i : ℕ} {es : List (ℕ × Key)}

section

variable (h : Tracks H C m t) (hmn : m ≤ n) (hshaped : t.diff.Shaped n)
include h hmn hshaped

lemma Tracks.updateTreeHashes :
    ∃ hashes, t.updateTreeHashes H t.diff.diffLeaves =
        .ok ({ t with treeHashes := hashes }, t.contents.hashAt H n 0) ∧
      Cached H t.contents n hashes := by
  have hmem : ∀ e : ℕ × TreeSyncLeafNode D, e ∈ t.diff.diffLeaves ↔
      t.diff.leafDiff[e.1]? = some e.2 := fun e =>
    Std.TreeMap.mem_toList_iff_getElem?_eq_some
  refine updateTreeHashes_spec hshaped.size h.cached hmn h.beyond (fun e he => ?_)
    (h.agree.mono fun j hj => ?_) rfl
  · have hget := (hmem e).mp he
    refine ⟨hshaped.leafKeys e.1 (Std.TreeMap.mem_iff_isSome_getElem?.mpr (by simp [hget])), ?_⟩
    show t.diff.leaf e.1 = e.2
    rw [AbDiff.leaf, hget]
  · obtain ⟨l, hl⟩ := Option.isSome_iff_exists.mp (Std.TreeMap.mem_iff_isSome_getElem?.mp hj)
    exact ⟨(j, l), (hmem (j, l)).mpr hl, rfl⟩

section

variable (hi : i < 2 ^ n) (hes : es.map Prod.fst = t.pathLevels n i)
include hi hes

lemma setParentHashes_spec :
    ∃ hashes, t.setParentHashes H (keyPath H i es) i =
        .ok ({ t with treeHashes := hashes }, indexed i (t.linkedPath H i es).1,
          (t.linkedPath H i es).2) ∧
      (es = [] ∧ hashes = t.treeHashes ∨ Cached H t.contents n hashes) := by
  cases hnil : es with
  | nil => exact ⟨t.treeHashes, rfl, .inl ⟨rfl, rfl⟩⟩
  | cons e rest =>
    rw [← hnil]
    obtain ⟨hashes, hupdate, hcached⟩ := h.updateTreeHashes hmn hshaped
    refine ⟨hashes, ?_, .inr hcached⟩
    have hcopath : (t.pathLevels n i).map (fun k => nodeAt k (sib (i / 2 ^ k))) =
        es.map fun e => nodeAt e.1 (sib (i / 2 ^ e.1)) := by
      rw [← hes, map_map]
      rfl
    have hlink : linkParentHashes H hashes ((keyPath H i es).reverse.zip
        (es.map fun e => nodeAt e.1 (sib (i / 2 ^ e.1))).reverse) H.empty =
        .ok ((indexed i (t.linkedPath H i es).1).reverse, (t.linkedPath H i es).2) := by
      rw [keyPath, ← map_reverse, ← map_reverse, zip_map', map_reverse]
      refine linkParentHashes_reverse (f := fun k => inorder k (i / 2 ^ (k + 1)))
        (x := fun k => nodeAt k (sib (i / 2 ^ k))) fun e he => ?_
      have hk : e.1 ∈ t.pathLevels n i := hes ▸ mem_map_of_mem he
      exact hcached.index_eq (inTree_sib hi (mem_pathLevels.mp hk).1)
    have hne : (keyPath H i es).isEmpty = false := by
      rw [hnil]
      rfl
    rw [setParentHashes, hne, if_neg Bool.false_ne_true, filteredCopath_eq hshaped hi, hcopath]
    rw [hupdate]
    show (linkParentHashes H hashes _ H.empty >>= _) = _
    rw [hlink]
    show Except.ok _ = _
    rw [reverse_reverse]

lemma processUpdatePath_spec :
    ∃ hashes, t.processUpdatePath H i (keyPath H i es) =
        .ok ({ t with diff := t.diff.setPath n i (t.linkedPath H i es).1, treeHashes := hashes },
          (t.linkedPath H i es).2) ∧
      (es = [] ∧ hashes = t.treeHashes ∨ Cached H t.contents n hashes) := by
  obtain ⟨hashes, hset, hcases⟩ := setParentHashes_spec h hmn hshaped hi hes
  refine ⟨hashes, ?_, hcases⟩
  rw [processUpdatePath, hset]
  show (directPath i t.diff.size >>= _) = _
  rw [hshaped.size, directPath_ofDepth hi]
  rfl

end

end

variable {t1 : TreeSyncDiff D} {l : LeafNode D}

section

variable (h : t.WellFormed n) (htracks : Tracks H C m t)
include h htracks

/-- The second update of the cache, for the new leaf. -/
lemma updateTreeHashes_leaf (hmn : m ≤ n) (hi : i < 2 ^ n)
    (honly : es = [] → ∀ j ∈ t.diff.leafDiff, j = i)
    (hcases : es = [] ∧ hashes = t.treeHashes ∨ Cached H t.contents n hashes)
    (hsize : t1.diff.size = .ofDepth n) (hhashes : t1.treeHashes = hashes)
    (hparent : (t.contents.edit n i (some l) f).parent = t1.contents.parent) :
    ∃ hashes', t1.updateTreeHashes H [(i, some l)] =
        .ok ({ t1 with treeHashes := hashes' }, (t.contents.edit n i (some l) f).hashAt H n 0) ∧
      Cached H (t.contents.edit n i (some l) f) n hashes' := by
  have hagree : t.contents.AgreeOff {i} (t.contents.edit n i (some l) f) :=
    agreeOff_edit _ _ _ _ _
  have hmod : ∀ e ∈ [(i, some l)], e.1 < 2 ^ n ∧ (t.contents.edit n i (some l) f).leaf e.1 = e.2 :=
    fun e he => by
      obtain rfl := mem_singleton.mp he
      exact ⟨hi, leaf_edit_self⟩
  have hset : {j | ∃ e ∈ [(i, some l)], e.1 = j} = {i} := by
    simp [eq_comm]
  rcases hcases with ⟨hnil, hsame⟩ | hcached
  · have hsub : {j | j ∈ t.diff.leafDiff} ⊆ ({i} : Set ℕ) := honly hnil
    refine updateTreeHashes_spec (C := C) hsize ?_ hmn htracks.beyond hmod ?_ hparent
    · rw [hhashes, hsame]
      exact htracks.cached
    · rw [hset]
      exact (htracks.agree.mono hsub).trans hagree
  · refine updateTreeHashes_spec (C := t.contents) hsize (hhashes ▸ hcached) (le_refl n) ?_ hmod ?_
      hparent
    · exact h.beyond_depth
    · rwa [hset]

section

variable (hmn : m ≤ n) (hi : (t.contents.leaf i).isSome) (hes : es.map Prod.fst = t.pathLevels n i)
  (honly : t.pathLevels n i = [] → ∀ j ∈ t.diff.leafDiff, j = i)
include hmn hi hes honly

lemma finishPath_spec
    (hcases : es = [] ∧ hashes = t.treeHashes ∨ Cached H t.contents n hashes)
    (hl : l.parentHash = some (t.linkedPath H i es).2)
    (ht1 : t1 =
      { t with diff := t.diff.setPath n i (t.linkedPath H i es).1, treeHashes := hashes }) :
    ∃ t2 r, t1.updateTreeHashes H [(i, some l)] = .ok (t2, r) ∧
      PathSet H t n i es l { t2 with diff := t2.diff.replaceLeaf i (some l) } := by
  have hlt := h.lt_pow hi
  obtain ⟨hns, hlevels⟩ := linkedPath_levels (H := H) hes
  set d := t.diff.setPath n i (t.linkedPath H i es).1 with hd
  have hdshaped : d.Shaped n := h.shaped.setPath hlt hns hlevels
  have hdcontents : d.contents = t.contents.edit n i (t.contents.leaf i)
      fun k _ => (t.linkedPath H i es).1.lookup k := AbDiff.contents_setPath hns hlevels
  have hsize : t1.diff.size = .ofDepth n := ht1 ▸ hdshaped.size
  have hhashes : t1.treeHashes = hashes := ht1 ▸ rfl
  have hparent : (t.contents.edit n i (some l)
      fun k _ => (t.linkedPath H i es).1.lookup k).parent = t1.contents.parent :=
    ht1 ▸ (congrArg Contents.parent hdcontents).symm
  obtain ⟨hashes', hupdate, hcached⟩ :=
    updateTreeHashes_leaf h htracks hmn hlt (fun hnil => honly (by rw [← hes, hnil]; rfl)) hcases
      hsize hhashes hparent
  refine ⟨_, _, hupdate, ?_⟩
  subst ht1
  have hcontents : (d.replaceLeaf i (some l)).contents = t.contents.edit n i (some l)
      fun k _ => (t.linkedPath H i es).1.lookup k := AbDiff.contents_replaceLeaf hdcontents
  have hfull : ∀ j, ((d.replaceLeaf i (some l)).contents.leaf j).isSome =
      (t.contents.leaf j).isSome := fun j => by
    rw [hcontents]
    by_cases hj : j = i
    · rw [hj, hi, leaf_edit_self]
      rfl
    · rw [leaf_edit_of_ne hj]
  exact {
    wellFormed := h.congr (hdshaped.replaceLeaf hlt _) rfl rfl hfull
    levels := hes
    contents := hcontents
    carries := hl
    tree := (AbDiff.setPath_frame hns).1
    cached := by
      show Cached H (d.replaceLeaf i (some l)).contents n hashes'
      rw [hcontents]
      exact hcached }

/-- **The path of the committer itself.** -/
lemma applyOwnUpdatePath_spec (params : UpdateLeafNodeParams) :
    ∃ t' l, t.applyOwnUpdatePath H i params (keyPath H i es) = .ok (t', l) ∧
      PathSet H t n i es l t' := by
  obtain ⟨hashes, hprocess, hcases⟩ :=
    processUpdatePath_spec htracks hmn h.shaped (h.lt_pow hi) hes
  set l := LeafNode.newWithParentHash (t.linkedPath H i es).2 params
  obtain ⟨t2, r, hupdate, hset⟩ :=
    finishPath_spec h htracks hmn hi hes honly hcases (l := l) rfl rfl
  refine ⟨_, l, ?_, hset⟩
  rw [applyOwnUpdatePath, hprocess]
  show (TreeSyncDiff.updateTreeHashes _ H _ >>= _) = _
  rw [hupdate]
  rfl

end

end

/-- **The path of a received commit**, once the leaf of a new member is added. -/
lemma applyReceivedUpdatePath_spec {t0 : TreeSyncDiff D} {p : UpdatePath D}
    (hadd : t0.addSender i p.leafNode = .ok t) (h : t.WellFormed n) (htracks : Tracks H C m t)
    (hmn : m ≤ n) (hi : (t.contents.leaf i).isSome)
    (honly : t.pathLevels n i = [] → ∀ j ∈ t.diff.leafDiff, j = i) :
    Ensures TreeSyncError.IsFault
      (fun t' => ∃ es, PathSet H t n i es p.leafNode t' ∧ es.map Prod.snd = p.nodes)
      (t0.applyReceivedUpdatePath H i p) := by
  rw [applyReceivedUpdatePath, hadd]
  show Ensures _ _ (lift (t.filteredDirectPath i) >>= _)
  rw [filteredDirectPath_eq h.shaped (h.lt_pow hi)]
  show Ensures _ _ (if _ then _ else _)
  split_ifs with hlen
  · rintro ⟨f, ⟨⟩⟩
  · rw [length_map, ne_eq, not_not] at hlen
    set es := (t.pathLevels n i).zip p.nodes with hes
    have hfst : es.map Prod.fst = t.pathLevels n i := map_fst_zip (le_of_eq hlen)
    have hpath : ((t.pathLevels n i).map fun k => inorder k (i / 2 ^ (k + 1))).zip
        (p.nodes.map (ParentNode.ofKey H)) = keyPath H i es := by
      rw [zip_map]
      rfl
    obtain ⟨hashes, hprocess, hcases⟩ :=
      processUpdatePath_spec htracks hmn h.shaped (h.lt_pow hi) hfst
    rw [hpath, hprocess]
    cases hph : p.leafNode.parentHash with
    | none => rintro ⟨f, ⟨⟩⟩
    | some h' =>
      show Ensures _ _ (if _ then _ else _)
      split_ifs with heq
      · rintro ⟨f, ⟨⟩⟩
      · rw [ne_eq, not_not] at heq
        obtain ⟨t2, r, hupdate, hset⟩ :=
          finishPath_spec h htracks hmn hi hfst honly hcases (heq ▸ hph) rfl
        rw [hupdate]
        exact ⟨es, hset, map_snd_zip (le_of_eq hlen.symm)⟩

end TreeSyncDiff

end EmulatedMls
