import EmulatedMls.Tree.CacheSound

/-!
# Editing a tree

A tree is edited through a diff: leaves are added, updated and blanked, paths are set, and the diff
is merged or dropped.  Unlike in a commit, these operations come in any order, and nothing is said
about the cache of hashes.
-/

namespace EmulatedMls

open Contents Exec List Option

variable {D : Type} {H : HashSuite D}

/-! ## Paths on any cache -/

@[simp] lemma lift_eq_ok {α : Type} {x : Exec α} {a : α} : lift x = .ok a ↔ x = .ok a := by
  cases x <;> simp [lift]

/-- The same nodes with other parent hashes. -/
def Relinked (ns ns' : List (ℕ × ParentNode D)) : Prop :=
  List.Forall₂ (fun e e' => e'.1 = e.1 ∧ ∃ h, e'.2 = { e.2 with parentHash := h }) ns ns'

namespace Relinked

variable {ns ns' : List (ℕ × ParentNode D)}

lemma refl (ns : List (ℕ × ParentNode D)) : Relinked ns ns :=
  forall₂_same.mpr fun _ _ => ⟨rfl, _, rfl⟩

lemma levels (h : Relinked ns ns') : ns'.map Prod.fst = ns.map Prod.fst := by
  induction h with
  | nil => rfl
  | cons he _ ih => rw [map_cons, map_cons, he.1, ih]

lemma unmergedLeaves (h : Relinked ns ns') (hns : ∀ e ∈ ns, e.2.unmergedLeaves = []) :
    ∀ e ∈ ns', e.2.unmergedLeaves = [] := by
  induction h with
  | nil => exact fun e he => absurd he not_mem_nil
  | @cons e e' ns ns' he _ ih =>
    obtain ⟨hfirst, hrest⟩ := forall_mem_cons.mp hns
    obtain ⟨-, h, heq⟩ := he
    refine forall_mem_cons.mpr ⟨?_, ih hrest⟩
    rw [heq]
    exact hfirst

lemma keys (h : Relinked ns ns') : ns'.map (·.2.encryptionKey) = ns.map (·.2.encryptionKey) := by
  induction h with
  | nil => rfl
  | cons he _ ih =>
    obtain ⟨-, h, heq⟩ := he
    rw [map_cons, map_cons, heq, ih]

end Relinked

variable {l : LeafNode D} {p : UpdatePath D}

namespace TreeSyncDiff

lemma linkParentHashes_relinked {hashes : List D} {es : List ((ℕ × ParentNode D) × TreeNodeIndex)}
    {previous h : D} {nodes : List (ℕ × ParentNode D)}
    (hok : linkParentHashes H hashes es previous = .ok (nodes, h)) :
    Relinked (es.map Prod.fst) nodes := by
  induction es generalizing previous nodes h with
  | nil =>
    cases hok
    exact .nil
  | cons e es ih =>
    obtain ⟨s, -, hok⟩ := bind_inv hok
    obtain ⟨⟨nodes1, h1⟩, hrest, hok⟩ := bind_inv hok
    cases hok
    exact .cons ⟨rfl, previous, rfl⟩ (ih hrest)

variable {ns path : List (ℕ × ParentNode D)} {x : D}

lemma exists_indexed {i : ℕ} (h : Relinked (indexed i ns) path) :
    ∃ ns', path = indexed i ns' ∧ Relinked ns ns' := by
  induction ns generalizing path with
  | nil =>
    cases h
    exact ⟨[], rfl, .nil⟩
  | cons e ns ih =>
    cases h with
    | @cons _ e' _ path he hrest =>
      obtain ⟨ns', rfl, hns'⟩ := ih hrest
      obtain ⟨hfst, h, heq⟩ := he
      refine ⟨(e.1, e'.2) :: ns', ?_, .cons ⟨rfl, h, heq⟩ hns'⟩
      exact congrArg (· :: _) (Prod.ext hfst rfl)

/-- The path `ns` of leaf `i` with the new leaf `l` is written. -/
structure PathWritten (t : TreeSyncDiff D) (n i : ℕ) (ns : List (ℕ × ParentNode D))
    (l : LeafNode D) (t' : TreeSyncDiff D) : Prop where
  wellFormed : t'.WellFormed n
  levels : ns.map Prod.fst = t.pathLevels n i
  fresh : ∀ e ∈ ns, e.2.unmergedLeaves = []
  contents : t'.contents = t.contents.edit n i (some l) fun k _ => ns.lookup k
  tree : t'.diff.originalTree = t.diff.originalTree
  blankedLeaves : t'.blankedLeaves = t.blankedLeaves
  numMembers : t'.numMembers = t.numMembers

variable {t t' : TreeSyncDiff D} {n i : ℕ}

lemma WellFormed.pathWritten (h : t.WellFormed n) (hi : (t.contents.leaf i).isSome)
    (hns : ns.map Prod.fst = t.pathLevels n i) (hfresh : ∀ e ∈ ns, e.2.unmergedLeaves = [])
    (hashes : List D) (l : LeafNode D) :
    PathWritten t n i ns l { t with
      diff := (t.diff.setPath n i ns).replaceLeaf i (some l), treeHashes := hashes } := by
  have hlt := h.lt_pow hi
  have hnodup : (ns.map Prod.fst).Nodup := hns ▸ nodup_pathLevels t n i
  have hlevels : ∀ k ∈ ns.map Prod.fst, k < n := fun k hk =>
    (mem_pathLevels.mp (hns ▸ hk)).1
  have hcontents : ((t.diff.setPath n i ns).replaceLeaf i (some l)).contents =
      t.contents.edit n i (some l) fun k _ => ns.lookup k :=
    AbDiff.contents_replaceLeaf (AbDiff.contents_setPath hnodup hlevels)
  have hfull : ∀ j, (((t.diff.setPath n i ns).replaceLeaf i (some l)).contents.leaf j).isSome =
      (t.contents.leaf j).isSome := fun j => by
    rw [hcontents]
    by_cases hj : j = i
    · rw [hj, hi, leaf_edit_self]
      rfl
    · rw [leaf_edit_of_ne hj]
  exact {
    wellFormed := h.congr ((h.shaped.setPath hlt hnodup hlevels).replaceLeaf hlt _) rfl rfl hfull
    levels := hns
    fresh := hfresh
    contents := hcontents
    tree := (AbDiff.setPath_frame hnodup).1
    blankedLeaves := rfl
    numMembers := rfl }

/-- The nodes of the filtered direct path with new keys, by their levels. -/
def freshNodes (H : HashSuite D) (levels : List ℕ) (keys : List Key) : List (ℕ × ParentNode D) :=
  levels.zip (keys.map (ParentNode.ofKey H))

lemma freshNodes_unmergedLeaves (levels : List ℕ) (keys : List Key) :
    ∀ e ∈ freshNodes H levels keys, e.2.unmergedLeaves = [] := fun e he => by
  obtain ⟨key, -, heq⟩ := mem_map.mp (of_mem_zip (show (e.1, e.2) ∈ _ from he)).2
  rw [← heq]
  rfl

variable {levels : List ℕ} {keys : List Key}

lemma freshNodes_levels (h : levels.length = keys.length) :
    (freshNodes H levels keys).map Prod.fst = levels :=
  map_fst_zip (by rw [length_map, h])

lemma freshNodes_keys (h : levels.length = keys.length) :
    (freshNodes H levels keys).map (·.2.encryptionKey) = keys := by
  induction levels generalizing keys with
  | nil =>
    obtain rfl := length_eq_zero_iff.mp h.symm
    rfl
  | cons k levels ih =>
    cases keys with
    | nil => cases h
    | cons key keys =>
      exact congrArg _ (ih (Nat.succ.inj h))

lemma zip_eq_indexed (levels : List ℕ) (keys : List Key) :
    (levels.map fun k => inorder k (i / 2 ^ (k + 1))).zip (keys.map (ParentNode.ofKey H)) =
      indexed i (freshNodes H levels keys) := by
  rw [indexed, freshNodes]
  induction levels generalizing keys with
  | nil => rfl
  | cons k levels ih =>
    cases keys with
    | nil => rfl
    | cons key keys => rw [map_cons, map_cons, zip_cons_cons, zip_cons_cons, map_cons, ih]

variable [DecidableEq D]

lemma updateTreeHashes_frame {modified : List (ℕ × TreeSyncLeafNode D)}
    (h : t.updateTreeHashes H modified = .ok (t', x)) :
    ∃ hashes, t' = { t with treeHashes := hashes } := by
  obtain ⟨⟨hashes1, queue⟩, -, h⟩ := bind_inv h
  obtain ⟨hashes2, -, h⟩ := bind_inv h
  obtain ⟨x', -, h⟩ := bind_inv h
  exact ⟨hashes2, (Prod.mk.inj (pure_eq_ok.mp h)).1.symm⟩

section

variable (hshaped : t.diff.Shaped n) (hi : i < 2 ^ n) (hns : ns.map Prod.fst = t.pathLevels n i)
include hshaped hi hns

lemma setParentHashes_frame (h : t.setParentHashes H (indexed i ns) i = .ok (t', path, x)) :
    ∃ hashes ns', t' = { t with treeHashes := hashes } ∧ path = indexed i ns' ∧
      Relinked ns ns' := by
  unfold setParentHashes at h
  split_ifs at h with hnil
  · obtain ⟨rfl, hpath, -⟩ : t = t' ∧ indexed i ns = path ∧ H.empty = x := by simpa using h
    exact ⟨t.treeHashes, ns, rfl, hpath.symm, .refl ns⟩
  · obtain ⟨xs, hxs, h⟩ := bind_inv h
    obtain ⟨⟨t1, y⟩, hupdate, h⟩ := bind_inv h
    obtain ⟨⟨nodes, z⟩, hlink, h⟩ := bind_inv h
    obtain ⟨rfl, rfl, rfl⟩ : t1 = t' ∧ nodes.reverse = path ∧ z = x := by
      simpa using pure_eq_ok.mp h
    obtain ⟨hashes, rfl⟩ := updateTreeHashes_frame hupdate
    rw [filteredCopath_eq hshaped hi] at hxs
    have hlength : (indexed i ns).length = xs.length := by
      rw [← Except.ok.inj hxs, length_map, ← hns, length_map, indexed, length_map]
    have hrelinked := linkParentHashes_relinked hlink
    rw [map_fst_zip (by simp [hlength])] at hrelinked
    have hreversed : Relinked (indexed i ns) nodes.reverse := by
      have := rel_reverse hrelinked
      rwa [reverse_reverse] at this
    obtain ⟨ns', hpath, hns'⟩ := exists_indexed hreversed
    exact ⟨hashes, ns', rfl, hpath, hns'⟩

lemma processUpdatePath_frame (h : t.processUpdatePath H i (indexed i ns) = .ok (t', x)) :
    ∃ hashes ns', t' = { t with diff := t.diff.setPath n i ns', treeHashes := hashes } ∧
      Relinked ns ns' := by
  obtain ⟨⟨t1, path, y⟩, hset, h⟩ := bind_inv h
  obtain ⟨hashes, ns', rfl, rfl, hns'⟩ := setParentHashes_frame hshaped hi hns hset
  obtain ⟨nodes, hnodes, h⟩ := bind_inv h
  rw [hshaped.size, directPath_ofDepth hi] at hnodes
  cases hnodes
  exact ⟨hashes, ns', (Prod.mk.inj (pure_eq_ok.mp h)).1.symm, hns'⟩

end

/-- The path that a committer sets: new keys for the nodes of its filtered direct path. -/
def setOwnPath (H : HashSuite D) (t : TreeSyncDiff D) (i : ℕ) (params : UpdateLeafNodeParams)
    (keys : ℕ → Key) : Exec (TreeSyncDiff D × LeafNode D) := do
  let nodes ← t.filteredDirectPath i
  t.applyOwnUpdatePath H i params
    (nodes.zip (((List.range nodes.length).map keys).map (ParentNode.ofKey H)))

lemma setOwnPath_written (h : t.WellFormed n) (hi : (t.contents.leaf i).isSome)
    {params : UpdateLeafNodeParams} {keys : ℕ → Key}
    (hok : t.setOwnPath H i params keys = .ok (t', l)) :
    ∃ ns, PathWritten t n i ns l t' ∧
      ns.map (·.2.encryptionKey) = (List.range (t.pathLevels n i).length).map keys := by
  have hlt := h.lt_pow hi
  obtain ⟨nodes, hnodes, hok⟩ := bind_inv hok
  rw [filteredDirectPath_eq h.shaped hlt] at hnodes
  cases hnodes
  rw [length_map, zip_eq_indexed] at hok
  set ks := (List.range (t.pathLevels n i).length).map keys with hks
  have hlength : (t.pathLevels n i).length = ks.length := by simp [hks]
  have hlevels : (freshNodes H (t.pathLevels n i) ks).map Prod.fst = t.pathLevels n i :=
    freshNodes_levels hlength
  obtain ⟨⟨t1, x⟩, hprocess, hok⟩ := bind_inv hok
  obtain ⟨hashes, ns, rfl, hns⟩ := processUpdatePath_frame h.shaped hlt hlevels hprocess
  obtain ⟨⟨t2, y⟩, hupdate, hok⟩ := bind_inv hok
  obtain ⟨hashes', rfl⟩ := updateTreeHashes_frame hupdate
  cases hok
  exact ⟨ns, h.pathWritten hi (hns.levels.trans hlevels)
    (hns.unmergedLeaves (freshNodes_unmergedLeaves _ _)) hashes' _,
    hns.keys.trans (freshNodes_keys hlength)⟩

lemma receivedPath_written {t0 : TreeSyncDiff D} (hadd : t0.addSender i p.leafNode = .ok t)
    (h : t.WellFormed n) (hi : (t.contents.leaf i).isSome)
    (hok : t0.applyReceivedUpdatePath H i p = .ok t') :
    ∃ ns, PathWritten t n i ns p.leafNode t' ∧ ns.map (·.2.encryptionKey) = p.nodes := by
  have hlt := h.lt_pow hi
  obtain ⟨t1, hadd', hok⟩ := bind_inv hok
  obtain rfl := Exec.unique hadd hadd'
  obtain ⟨nodes, hnodes, hok⟩ := bind_inv hok
  rw [lift_eq_ok, filteredDirectPath_eq h.shaped hlt] at hnodes
  cases hnodes
  split_ifs at hok with hlength
  rw [length_map, ne_eq, not_not] at hlength
  obtain ⟨⟨t1, x⟩, hprocess, hok⟩ := bind_inv hok
  rw [lift_eq_ok, zip_eq_indexed] at hprocess
  have hlevels : (freshNodes H (t.pathLevels n i) p.nodes).map Prod.fst = t.pathLevels n i :=
    freshNodes_levels hlength
  obtain ⟨hashes, ns, rfl, hns⟩ := processUpdatePath_frame h.shaped hlt hlevels hprocess
  dsimp only at hok
  split at hok
  · cases hok
  · split_ifs at hok with hhash
    obtain ⟨⟨t2, y⟩, hupdate, hok⟩ := bind_inv hok
    obtain ⟨hashes', rfl⟩ := updateTreeHashes_frame (lift_eq_ok.mp hupdate)
    cases hok
    exact ⟨ns, h.pathWritten hi (hns.levels.trans hlevels)
      (hns.unmergedLeaves (freshNodes_unmergedLeaves _ _)) hashes' _,
      hns.keys.trans (freshNodes_keys hlength)⟩

end TreeSyncDiff

/-! ## Sessions -/

/-- A tree and the diff through which it is edited. -/
structure Session (D : Type) where
  tree : TreeSync D
  diff : TreeSyncDiff D

def Session.start (t : TreeSync D) : Session D := ⟨t, t.emptyDiff⟩

inductive Operation (D : Type) where
  | addLeaf (l : LeafNode D)
  | updateLeaf (l : LeafNode D) (i : ℕ)
  | blankLeaf (i : ℕ)
  | ownPath (i : ℕ) (params : UpdateLeafNodeParams) (keys : ℕ → Key)
  | receivedPath (sender : ℕ) (p : UpdatePath D)
  | merge
  /-- The diff is dropped. -/
  | restart

namespace Operation

/-- The leaf that is updated, blanked or given a path is full.  The callers see to that: proposals
    and paths are applied for members that were validated, and updates before removals. -/
def OfMember (s : Session D) : Operation D → Prop
  | .updateLeaf _ i | .blankLeaf i | .ownPath i _ _ => (s.diff.diff.leaf i).isSome
  | .addLeaf _ | .receivedPath _ _ | .merge | .restart => True

instance (s : Session D) (o : Operation D) : Decidable (o.OfMember s) := by
  cases o <;> unfold OfMember <;> infer_instance

end Operation

section Step

variable [DecidableEq D]

/-- One operation; it is refused when the call fails. -/
def Session.step (H : HashSuite D) (s : Session D) : Operation D → Option (Session D)
  | .addLeaf l => (s.diff.addLeaf l).toOption.map fun e => { s with diff := e.1 }
  | .updateLeaf l i => (s.diff.updateLeaf l i).toOption.map fun d => { s with diff := d }
  | .blankLeaf i => (s.diff.blankLeaf i).toOption.map fun d => { s with diff := d }
  | .ownPath i params keys =>
    (s.diff.setOwnPath H i params keys).toOption.map fun e => { s with diff := e.1 }
  | .receivedPath sender p =>
    (s.diff.applyReceivedUpdatePath H sender p).toOption.map fun d => { s with diff := d }
  | .merge => s.diff.intoStagedDiff.toOption.map fun staged => .start (s.tree.mergeDiff staged)
  | .restart => some (.start s.tree)

/-- The tree has just been made or imported. -/
def TreeSync.Fresh (H : HashSuite D) (t : TreeSync D) : Prop :=
  (∃ l, TreeSync.new H l = .ok t) ∨ ∃ r, TreeSync.fromRatchetTree H r = .ok t

/-- The sessions on new and imported trees. -/
def sessions (H : HashSuite D) : Machine (Session D) (Operation D) where
  init s := ∃ t, t.Fresh H ∧ s = .start t
  step := Session.step H

end Step

/-! ## The counters -/

open TreeSyncDiff

/-- The tree and the diff are well formed, and the diff is one of the tree. -/
structure Session.Good (s : Session D) : Prop where
  tree : ∃ m, s.tree.Sized m ∧ s.tree.emptyDiff.WellFormed m
  diff : ∃ n, s.diff.WellFormed n
  original : s.diff.diff.originalTree = s.tree.tree

namespace TreeSyncDiff

variable {t t' : TreeSyncDiff D} {n i : ℕ} {l : LeafNode D}

lemma slots_updateLeaf (h : t.updateLeaf l i = .ok t') : t'.slots = t.slots := by
  obtain ⟨d, -, hok⟩ := bind_inv h
  rw [← pure_eq_ok.mp hok]
  rfl

lemma slots_blankLeaf (h : t.WellFormed n) (hi : (t.contents.leaf i).isSome)
    (hok : t.blankLeaf i = .ok t') : t'.slots = t.slots := by
  obtain ⟨d, -, hok⟩ := bind_inv hok
  obtain ⟨t1, htrim, hok⟩ := bind_inv hok
  have hframe : t1.blankedLeaves = t.blankedLeaves ∧ t1.numMembers = t.numMembers := by
    unfold trimTree at htrim
    split_ifs at htrim
    · rw [← Except.ok.inj htrim]
      exact ⟨rfl, rfl⟩
    · obtain ⟨d', -, hpure⟩ := bind_inv htrim
      rw [← pure_eq_ok.mp hpure]
      exact ⟨rfl, rfl⟩
  rw [← pure_eq_ok.mp hok]
  show (t1.numMembers + (2 ^ 64 - 1)) % 2 ^ 64 + (t1.blankedLeaves ++ [i]).length = t.slots
  have hpos := h.numMembers_pos hi
  have hup := h.upper
  have hmax : 2 ^ n ≤ 2 ^ 29 := Nat.pow_le_pow_right (by omega) h.depth
  rw [hframe.1, hframe.2, length_append, length_singleton]
  unfold slots at hup ⊢
  omega

lemma slots_addLeaf (h : t.WellFormed n) (hok : t.addLeaf l = .ok (t', i)) :
    t.slots ≤ t'.slots := by
  obtain ⟨d, -, hok⟩ := bind_inv hok
  obtain ⟨path, -, hok⟩ := bind_inv hok
  rw [← (Prod.mk.inj (pure_eq_ok.mp hok)).1]
  have hcount := h.slots_add
  unfold slots at hcount ⊢
  dsimp only
  omega

lemma slots_addSender (h : t.WellFormed n) (hok : t.addSender i l = .ok t') :
    t.slots ≤ t'.slots := by
  unfold addSender at hok
  split_ifs at hok
  · obtain ⟨⟨t1, j⟩, hadd, hok⟩ := bind_inv hok
    dsimp only at hok
    split_ifs at hok
    rw [← pure_eq_ok.mp hok]
    exact slots_addLeaf h hadd
  · rw [pure_eq_ok.mp hok]

end TreeSyncDiff

/-- A property of the nodes and the number of slots that an edit and a path keep. -/
structure Stable (P : Contents D → ℕ → Prop) : Prop where
  edit : ∀ {t t' : TreeSyncDiff D} {n n' i : ℕ} {c : Change D}, t.WellFormed n →
    t.Edited n c i t' n' → t.slots ≤ t'.slots → P t.contents t.slots → P t'.contents t'.slots
  path : ∀ {t t' : TreeSyncDiff D} {n i : ℕ} {ns : List (ℕ × ParentNode D)} {l : LeafNode D},
    t.WellFormed n → (t.contents.leaf i).isSome → t.PathWritten n i ns l t' →
    P t.contents t.slots → P t'.contents t'.slots

/-- The property holds of the tree and of its diff. -/
structure Session.Holds (P : Contents D → ℕ → Prop) (s : Session D) : Prop where
  good : s.Good
  tree : P s.tree.contents s.tree.emptyDiff.slots
  diff : P s.diff.contents s.diff.slots

namespace Session

variable {P : Contents D → ℕ → Prop} {s : Session D}

lemma Holds.of_tree {t : TreeSync D} {m : ℕ} (hsized : t.Sized m)
    (hwf : t.emptyDiff.WellFormed m) (hP : P t.contents t.emptyDiff.slots) :
    (Session.start t).Holds P :=
  ⟨⟨⟨m, hsized, hwf⟩, ⟨m, hwf⟩, rfl⟩, hP, hP⟩

variable {d : TreeSyncDiff D} {i : ℕ} {n : ℕ}

section

variable (h : s.Holds P) (hP : Stable P) (hn : s.diff.WellFormed n)
include h hP hn

lemma Holds.edited {n' : ℕ} {c : Change D} (hedit : s.diff.Edited n c i d n')
    (hslots : s.diff.slots ≤ d.slots) : Holds P { s with diff := d } :=
  ⟨⟨h.good.tree, ⟨n', hedit.wellFormed⟩, hedit.tree.trans h.good.original⟩, h.tree,
    hP.edit hn hedit hslots h.diff⟩

lemma Holds.written {ns : List (ℕ × ParentNode D)} (hi : (s.diff.contents.leaf i).isSome)
    (hpath : s.diff.PathWritten n i ns l d) : Holds P { s with diff := d } :=
  ⟨⟨h.good.tree, ⟨n, hpath.wellFormed⟩, hpath.tree.trans h.good.original⟩, h.tree,
    hP.path hn hi hpath h.diff⟩

end

variable [DecidableEq D]

lemma Holds.receivedPath (h : s.Holds P) (hP : Stable P)
    (hok : s.diff.applyReceivedUpdatePath H i p = .ok d) : Holds P { s with diff := d } := by
  obtain ⟨n, hn⟩ := h.good.diff
  cases hi : s.diff.contents.leaf i with
  | some l =>
    have hfull : (s.diff.contents.leaf i).isSome := by rw [hi]; rfl
    obtain ⟨ns, hpath, -⟩ := receivedPath_written (addSender_of_full hn hfull _) hn hfull hok
    exact h.written hP hn hfull hpath
  | none =>
    obtain ⟨d1, hadd, -⟩ := bind_inv hok
    obtain ⟨n1, hedit⟩ := (addSender_of_blank hn hi p.leafNode).post_of_ok hadd
    have hslots := slots_addSender hn hadd
    have hfull := hedit.full_of_add
    obtain ⟨ns, hpath, -⟩ := receivedPath_written hadd hedit.wellFormed hfull hok
    exact (h.edited hP hn hedit hslots).written hP hedit.wellFormed hfull hpath

lemma Holds.step (h : s.Holds P) (hP : Stable P) {o : Operation D} {s' : Session D}
    (hmember : o.OfMember s) (hstep : s.step H o = some s') : s'.Holds P := by
  obtain ⟨n, hn⟩ := h.good.diff
  cases o with
  | addLeaf l =>
    obtain ⟨⟨d, i⟩, hok, rfl⟩ := map_eq_some_iff.mp hstep
    rw [toOption_eq_some] at hok
    rcases addLeaf_spec hn l with hfull | ⟨d', n', heq, hedit⟩
    · rw [hfull] at hok
      cases hok
    · obtain ⟨rfl, -⟩ := Prod.mk.inj (Exec.unique heq hok)
      exact h.edited hP hn hedit (slots_addLeaf hn heq)
  | updateLeaf l i =>
    obtain ⟨d, hok, rfl⟩ := map_eq_some_iff.mp hstep
    obtain ⟨d', heq, hedit⟩ := updateLeaf_spec hn hmember l
    obtain rfl := Exec.unique heq (toOption_eq_some.mp hok)
    exact h.edited hP hn hedit (le_of_eq (slots_updateLeaf heq).symm)
  | blankLeaf i =>
    obtain ⟨d, hok, rfl⟩ := map_eq_some_iff.mp hstep
    obtain ⟨d', heq, hedit⟩ := blankLeaf_spec hn hmember
    obtain rfl := Exec.unique heq (toOption_eq_some.mp hok)
    exact h.edited hP hn hedit (le_of_eq (slots_blankLeaf hn hmember heq).symm)
  | ownPath i params keys =>
    obtain ⟨⟨d, l⟩, hok, rfl⟩ := map_eq_some_iff.mp hstep
    obtain ⟨ns, hpath, -⟩ := setOwnPath_written hn hmember (toOption_eq_some.mp hok)
    exact h.written hP hn hmember hpath
  | receivedPath sender p =>
    obtain ⟨d, hok, rfl⟩ := map_eq_some_iff.mp hstep
    exact h.receivedPath hP (toOption_eq_some.mp hok)
  | merge =>
    obtain ⟨staged, hok, rfl⟩ := map_eq_some_iff.mp hstep
    obtain ⟨hsized, hcontents, hblanked, hmembers⟩ :=
      TreeSync.sized_mergeDiff hn.shaped h.good.original (toOption_eq_some.mp hok)
    refine .of_tree hsized (hn.congr hsized.shaped hblanked hmembers fun j => ?_) ?_
    · show ((s.tree.mergeDiff staged).contents.leaf j).isSome = _
      rw [hcontents]
    · have hslots : (s.tree.mergeDiff staged).emptyDiff.slots = s.diff.slots :=
        congrArg₂ (fun m (is : List ℕ) => m + is.length) hmembers hblanked
      rw [hcontents, hslots]
      exact h.diff
  | restart =>
    cases hstep
    obtain ⟨m, hsized, hwf⟩ := h.good.tree
    exact .of_tree hsized hwf h.tree

lemma invariant (hP : Stable P)
    (hfresh : ∀ (t : TreeSync D) m, t.Fresh H → t.emptyDiff.WellFormed m →
      P t.contents t.emptyDiff.slots)
    (h : (sessions H).Reaches (fun s o => o.OfMember s) s) : s.Holds P := by
  refine h.invariant ?_ fun s o s' hs ho hstep => hs.step hP ho hstep
  rintro _ ⟨t, ht, rfl⟩
  have hsound : ∃ m, t.emptyDiff.WellFormed m ∧ t.Intact H m := by
    rcases ht with ⟨l, hnew⟩ | ⟨r, himport⟩
    · obtain ⟨t', hnew', hwf, hintact, -⟩ := TreeSync.new_spec (H := H) l
      obtain rfl := Exec.unique hnew' hnew
      exact ⟨0, hwf, hintact⟩
    · exact TreeSync.fromRatchetTree_sound himport
  obtain ⟨m, hwf, hintact⟩ := hsound
  exact .of_tree ⟨hintact.leaves, hintact.parents⟩ hwf (hfresh t m ht hwf)

lemma good (h : (sessions H).Reaches (fun s o => o.OfMember s) s) : s.Good :=
  (invariant (P := fun _ _ => True) ⟨fun _ _ _ _ => trivial, fun _ _ _ _ => trivial⟩
    (fun _ _ _ _ => trivial) h).good

end Session

/-- The counters describe the `count` leaves that `leaf` has. -/
structure Bookkeeping (leaf : ℕ → Option (LeafNode D)) (count numMembers : ℕ)
    (blankedLeaves : List ℕ) (freeLeafIndex : ℕ) : Prop where
  /-- The number of members is that of the full leaves. -/
  members : numMembers = ((List.range count).filter fun i => (leaf i).isSome).length
  /-- No leaf is listed as blanked twice. -/
  nodup : blankedLeaves.Nodup
  /-- The full and the blanked leaves are the first ones, and no leaf is both. -/
  slots : ∀ i, i < numMembers + blankedLeaves.length ↔ ((leaf i).isSome ∨ i ∈ blankedLeaves)
  disjoint : ∀ i ∈ blankedLeaves, leaf i = none
  /-- The next leaf to be filled is the left-most blank one, or the first one outside. -/
  free : freeLeafIndex < count ∧ leaf freeLeafIndex = none ∧
      (∀ i < freeLeafIndex, (leaf i).isSome) ∨
    freeLeafIndex = count ∧ ∀ i < count, (leaf i).isSome

namespace TreeSyncDiff

variable {t : TreeSyncDiff D} {n : ℕ}

lemma WellFormed.numMembers_eq (h : t.WellFormed n) :
    t.numMembers = ((List.range (2 ^ n)).filter fun i => (t.contents.leaf i).isSome).length := by
  set fulls := (List.range (2 ^ n)).filter fun i => (t.contents.leaf i).isSome with hfulls
  have hmem : ∀ i, i ∈ fulls ↔ (t.contents.leaf i).isSome := fun i => by
    rw [hfulls, mem_filter, mem_range]
    exact ⟨fun hi => hi.2, fun hi => ⟨h.lt_pow hi, hi⟩⟩
  have hnodup : (fulls ++ t.blankedLeaves).Nodup := by
    refine nodup_append.mpr ⟨nodup_range.filter _, h.nodup, ?_⟩
    rintro i hi _ hj rfl
    exact h.notMem_blankedLeaves ((hmem i).mp hi) hj
  have hperm : (fulls ++ t.blankedLeaves).Perm (List.range t.slots) := by
    refine (perm_ext_iff_of_nodup hnodup nodup_range).mpr fun i => ?_
    rw [mem_append, hmem, mem_range]
    constructor
    · rintro (hi | hi)
      · exact h.lt_slots hi
      · exact (h.blanked i hi).1
    · intro hi
      by_cases hb : i ∈ t.blankedLeaves
      · exact .inr hb
      · exact .inl (h.full i hi hb)
  have hlength := hperm.length_eq
  rw [length_append, length_range, slots] at hlength
  omega

lemma WellFormed.bookkeeping (h : t.WellFormed n) :
    Bookkeeping t.contents.leaf t.leafCount t.numMembers t.blankedLeaves t.freeLeafIndex where
  members := by rw [h.leafCount, ← h.numMembers_eq]
  nodup := h.nodup
  slots i := by
    constructor
    · intro hi
      by_cases hb : i ∈ t.blankedLeaves
      · exact .inr hb
      · exact .inl (h.full i hi hb)
    · rintro (hi | hi)
      · exact h.lt_slots hi
      · exact (h.blanked i hi).1
  disjoint i hi := (h.blanked i hi).2
  free := by
    rw [h.leafCount]
    rcases Nat.lt_or_ge t.freeLeafIndex (2 ^ n) with hlt | hge
    · exact .inl ⟨hlt, h.leaf_freeLeafIndex, fun i hi => h.full_of_lt_freeLeafIndex hi⟩
    · have heq : t.freeLeafIndex = 2 ^ n := le_antisymm (h.freeLeafIndex_le.trans h.upper) hge
      exact .inr ⟨heq, fun i hi => h.full_of_lt_freeLeafIndex (heq ▸ hi)⟩

end TreeSyncDiff

/-- **The counters.**  In every session for full leaves, the counters describe the leaves, and the
    next free leaf is the left-most blank one or comes after the last one. -/
theorem leaf_bookkeeping [DecidableEq D] (H : HashSuite D) {s : Session D}
    (h : (sessions H).Reaches (fun s o => o.OfMember s) s) :
    Bookkeeping s.tree.leaf s.tree.treeSize.leafCount s.tree.numMembers s.tree.blankedLeaves
        s.tree.emptyDiff.freeLeafIndex ∧
      Bookkeeping s.diff.diff.leaf s.diff.leafCount s.diff.numMembers s.diff.blankedLeaves
        s.diff.freeLeafIndex := by
  obtain ⟨⟨m, hsized, hwf⟩, ⟨n, hn⟩, -⟩ := Session.good h
  refine ⟨?_, hn.bookkeeping⟩
  have hbook := hwf.bookkeeping
  rwa [show s.tree.emptyDiff.contents.leaf = s.tree.leaf from
    funext (TreeSync.contents_leaf hsized.shaped)] at hbook

/-- The session of a founder, who has leaf 0, if all its operations pass a test. -/
def smallSession (test : Session (List ℕ) → Operation (List ℕ) → Bool)
    (os : List (Operation (List ℕ))) : Option (Session (List ℕ)) :=
  (TreeSync.new plainHash (memberLeaf 0)).toOption.bind fun t =>
    if (sessions plainHash).allows test (.start t) os then
      (sessions plainHash).run (.start t) os
    else none

lemma reaches_smallSession {test : Session (List ℕ) → Operation (List ℕ) → Bool}
    {ok : Session (List ℕ) → Operation (List ℕ) → Prop} (htest : ∀ s o, test s o = true → ok s o)
    {os : List (Operation (List ℕ))} {s : Session (List ℕ)} (h : smallSession test os = some s) :
    (sessions plainHash).Reaches ok s := by
  obtain ⟨t, ht, hrun⟩ := bind_eq_some_iff.mp h
  split_ifs at hrun with hallows
  have hstart : (sessions plainHash).Reaches ok (.start t) :=
    .init ⟨t, .inl ⟨_, toOption_eq_some.mp ht⟩, rfl⟩
  exact hstart.of_run (Machine.admits_of_allows htest hallows) hrun

/-- Three members, of which the second is removed before the diff is merged. -/
theorem leaf_bookkeeping_removal :
    ∃ s, smallSession (fun s o => decide (o.OfMember s))
        [.addLeaf (memberLeaf 1), .addLeaf (memberLeaf 2), .blankLeaf 1,
          .ownPath 0 ⟨1000, 200, "u", []⟩ (1001 + ·), .merge] = some s ∧
      s.tree.emptyDiff.freeLeafIndex = 1 ∧
      Bookkeeping s.tree.leaf s.tree.treeSize.leafCount s.tree.numMembers s.tree.blankedLeaves
        s.tree.emptyDiff.freeLeafIndex :=
  exists_some_and (by decide +kernel) fun s hs _ => (leaf_bookkeeping plainHash
    (reaches_smallSession (fun _ _ h => of_decide_eq_true h) hs)).1

/-! ## Trimming -/

namespace TreeSyncDiff

/-- The tree has one leaf, or a full one in its right half. -/
def Trimmed (t : TreeSyncDiff D) : Prop :=
  t.leafCount = 1 ∨ ∃ j, t.leafCount ≤ 2 * j ∧ (t.diff.leaf j).isSome

/-- Leaf `r` is the last full one. -/
def IsLastFull (t : TreeSyncDiff D) (r : ℕ) : Prop :=
  (t.diff.leaf r).isSome ∧ ∀ j, r < j → t.diff.leaf j = none

variable {t t' : TreeSyncDiff D} {n i : ℕ}

lemma WellFormed.isLastFull_iff (h : t.WellFormed n) :
    t.IsLastFull t.rightmostFullLeaf ↔ (t.diff.leaf t.rightmostFullLeaf).isSome := by
  refine ⟨fun hlast => hlast.1, fun hfull => ⟨hfull, fun j hj => h.beyond j ?_⟩⟩
  rw [h.rightmostFullLeaf] at hj
  omega

lemma Edited.full_iff (h : t.Edited n .blank i t' n) (j : ℕ) :
    (t'.diff.leaf j).isSome ↔ j ≠ i ∧ (t.diff.leaf j).isSome := by
  show (t'.contents.leaf j).isSome ↔ j ≠ i ∧ (t.contents.leaf j).isSome
  rw [h.contents]
  by_cases hj : j = i
  · simp [hj, Change.leaf]
  · simp [leaf_edit_of_ne hj, hj]

end TreeSyncDiff

/-- **Trimming.**  Removing a full leaf leaves a trimmed tree exactly if the tree has one leaf or
    another leaf of its right half is full. -/
theorem blank_leaf_trims_iff [DecidableEq D] (H : HashSuite D) {s : Session D}
    (h : (sessions H).Reaches (fun s o => o.OfMember s) s) {i : ℕ}
    (hi : (s.diff.diff.leaf i).isSome) :
    ∃ d, s.diff.blankLeaf i = .ok d ∧
      (d.Trimmed ↔ s.diff.leafCount = 1 ∨
        ∃ j ≠ i, s.diff.leafCount ≤ 2 * j ∧ (s.diff.diff.leaf j).isSome) ∧
      (d.IsLastFull d.rightmostFullLeaf ↔ s.diff.numMembers + s.diff.blankedLeaves.length - 1 ≠ i ∧
        (s.diff.diff.leaf (s.diff.numMembers + s.diff.blankedLeaves.length - 1)).isSome) := by
  obtain ⟨n, hn⟩ := (Session.good h).diff
  obtain ⟨d, hblank, hedit⟩ := blankLeaf_spec hn hi
  have hcount : d.leafCount = s.diff.leafCount := by
    rw [hedit.wellFormed.leafCount, hn.leafCount]
  refine ⟨d, hblank, ?_, ?_⟩
  · unfold Trimmed
    simp only [hcount, hedit.full_iff]
    refine or_congr_right ⟨?_, ?_⟩
    · rintro ⟨j, hhalf, hne, hfull⟩
      exact ⟨j, hne, hhalf, hfull⟩
    · rintro ⟨j, hne, hhalf, hfull⟩
      exact ⟨j, hhalf, hne, hfull⟩
  · have hslots : d.rightmostFullLeaf = s.diff.slots - 1 := by
      rw [hedit.wellFormed.rightmostFullLeaf, slots_blankLeaf hn hi hblank]
    rw [hedit.wellFormed.isLastFull_iff, hslots, hedit.full_iff]
    rfl

/-- Of three members the second is removed, and the third is left in the right half. -/
theorem blank_leaf_trims_middle :
    ∃ s, smallSession (fun s o => decide (o.OfMember s))
        [.addLeaf (memberLeaf 1), .addLeaf (memberLeaf 2)] = some s ∧
      ∃ d, s.diff.blankLeaf 1 = .ok d ∧ d.Trimmed ∧ d.IsLastFull d.rightmostFullLeaf := by
  refine exists_some_imp (P := fun s => (s.diff.diff.leaf 1).isSome ∧ s.diff.leafCount = 4 ∧
      s.diff.numMembers + s.diff.blankedLeaves.length - 1 = 2 ∧ (s.diff.diff.leaf 2).isSome)
    (by decide +kernel) fun s hs ⟨hfull, hcount, hlast, hright⟩ => ?_
  obtain ⟨d, hd, htrimmed, hestimate⟩ := blank_leaf_trims_iff plainHash
    (reaches_smallSession (fun _ _ h => of_decide_eq_true h) hs) hfull
  refine ⟨d, hd, htrimmed.mpr (.inr ⟨2, by decide, by rw [hcount], hright⟩), hestimate.mpr ?_⟩
  rw [hlast]
  exact ⟨by decide, hright⟩

/-- **The tree is not trimmed.**  Of two members the second is removed: two leaves stay. -/
theorem removal_does_not_trim :
    ∃ s, (sessions plainHash).Reaches (fun s o => o.OfMember s) s ∧
      (s.diff.diff.leaf 1).isSome ∧
      ∃ d, s.diff.blankLeaf 1 = .ok d ∧ d.leafCount = 2 ∧ d.diff.leaf 0 = some (memberLeaf 0) ∧
        ¬ d.Trimmed ∧ d.rightmostFullLeaf = 1 ∧ ¬ d.IsLastFull d.rightmostFullLeaf := by
  obtain ⟨s, hs, hfull, d, hd, hcount, hzero, hright, hblank, hbeyond⟩ :
      ∃ s ∈ smallSession (fun s o => decide (o.OfMember s)) [.addLeaf (memberLeaf 1)],
      (s.diff.diff.leaf 1).isSome ∧ ∃ d ∈ (s.diff.blankLeaf 1).toOption, d.leafCount = 2 ∧
        d.diff.leaf 0 = some (memberLeaf 0) ∧ d.rightmostFullLeaf = 1 ∧ d.diff.leaf 1 = none ∧
        d.numMembers + d.blankedLeaves.length = 2 := by
    decide +kernel
  have hreach : (sessions plainHash).Reaches (fun s o => o.OfMember s) s :=
    reaches_smallSession (fun _ _ h => of_decide_eq_true h) hs
  refine ⟨s, hreach, hfull, d, toOption_eq_some.mp hd, hcount, hzero, ?_, hright, ?_⟩
  · obtain ⟨n, hn⟩ := (Session.good hreach).diff
    obtain ⟨d', hd', hedit⟩ := blankLeaf_spec hn hfull
    obtain rfl := Exec.unique hd' (toOption_eq_some.mp hd)
    rintro (hone | ⟨j, hhalf, hj⟩)
    · rw [hcount] at hone
      cases hone
    · have hlt : j < d'.slots := hedit.wellFormed.lt_slots hj
      obtain rfl : j = 1 := by
        rw [slots, hbeyond] at hlt
        omega
      rw [hblank] at hj
      cases hj
  · rintro ⟨hlast, -⟩
    rw [hright, hblank] at hlast
    cases hlast

end EmulatedMls
