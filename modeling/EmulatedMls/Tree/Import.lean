import EmulatedMls.Tree.CommitSpec

/-!
# New and imported trees

The trees from which every run starts.
-/

namespace EmulatedMls

variable {D : Type} {H : HashSuite D}

open Exec List TreeSyncDiff

namespace TreeSync

/-! ## Filling the cache -/

variable {n r : ℕ} {t : TreeSync D} {qs : List (TreeSyncParentNode D)}
  {ls : List (TreeSyncLeafNode D)} {tree : ABinaryTree (TreeSyncLeafNode D) (TreeSyncParentNode D)}

lemma populateParentHashes_spec (h : t.Intact H n) :
    ∃ t', t.populateParentHashes = .ok t' ∧ t'.Intact H n ∧ t'.contents = t.contents ∧
      t'.blankedLeaves = t.blankedLeaves ∧ t'.numMembers = t.numMembers :=
  mergeDiff_spec h.shaped rfl h.cached

lemma populateTreeHashes_spec (h : t.emptyDiff.diff.Shaped n) :
    ∃ t', t.populateTreeHashes H = .ok t' ∧ t'.Intact H n ∧ t'.contents = t.contents ∧
      t'.blankedLeaves = t.blankedLeaves ∧ t'.numMembers = t.numMembers := by
  have hsize : t.treeSize = .ofDepth n := h.size
  set t1 := { t with treeHashes := resize t.treeHashes t.treeSize.u32 H.empty } with ht1
  have hlen : t1.emptyDiff.treeHashes.length = 2 ^ (n + 1) - 1 := by
    show (resize t.treeHashes t.treeSize.u32 H.empty).length = _
    rw [length_resize, hsize]
    rfl
  have hshaped : t1.emptyDiff.diff.Shaped n := h
  obtain ⟨hashes, hpopulate, hcached⟩ :=
    TreeSyncDiff.populateTreeHashes_spec (H := H) hshaped.size hlen
  set d : TreeSyncDiff D := { t1.emptyDiff with treeHashes := hashes } with hd
  obtain ⟨t', hmerge, hrest⟩ :=
    mergeDiff_spec (t := t1) (show d.diff.Shaped n from hshaped) rfl hcached
  refine ⟨t', ?_, hrest⟩
  rw [TreeSync.populateTreeHashes]
  have hroot : root t1.treeSize = root t1.emptyDiff.diff.size := rfl
  rw [hroot, hpopulate]
  exact hmerge

/-! ## The counters -/

lemma leaves_eq (t : TreeSync D) :
    t.tree.leaves = (List.range t.tree.leafNodes.length).map fun i => (i, t.leaf i) := by
  refine ext_getElem ?_ fun i h1 h2 => ?_
  · simp [ABinaryTree.leaves]
  · have hi : i < t.tree.leafNodes.length := by simpa using h2
    simp [ABinaryTree.leaves, TreeSync.leaf, ABinaryTree.leafByIndex, getD_eq_getElem?_getD, hi]

lemma rightmostFullLeafComplete_eq (hr : r < t.tree.leafNodes.length) (hfull : (t.leaf r).isSome)
    (hlast : ∀ i, r < i → t.leaf i = none) : t.rightmostFullLeafComplete = r := by
  have hscan : ∀ m a, r < m → ((List.range m).map fun i => (i, t.leaf i)).foldl
      (fun i e => if e.2.isSome then e.1 else i) a = r := by
    intro m a hm
    induction m with
    | zero => omega
    | succ m ih =>
      rw [range_succ, map_append, foldl_append, map_singleton, foldl_cons, foldl_nil]
      rcases Nat.lt_or_ge r m with hlt | hge
      · rw [ih hlt, hlast m hlt]
        rfl
      · obtain rfl : r = m := by omega
        rw [if_pos hfull]
  rw [rightmostFullLeafComplete, leaves_eq]
  exact hscan _ 0 hr

variable {m : ℕ}

lemma takeWhile_range_map {α : Type} (f : ℕ → α) (h : r ≤ m) :
    ((List.range m).map fun i => (i, f i)).takeWhile (·.1 < r) =
      (List.range r).map fun i => (i, f i) := by
  obtain ⟨k, rfl⟩ := Nat.exists_eq_add_of_le h
  induction k with
  | zero =>
    refine takeWhile_eq_self_iff.mpr fun e he => ?_
    obtain ⟨i, hi, rfl⟩ := mem_map.mp he
    simpa using hi
  | succ k ih =>
    rw [← Nat.add_assoc, range_succ, map_append, takeWhile_append, ih (by omega)]
    simp only [length_map, length_range, Nat.left_eq_add, map_cons, map_nil]
    split_ifs with hk
    · simp [hk]
    · rfl

lemma blankedLeaves_calculate (hr : r < t.tree.leafNodes.length) (hfull : (t.leaf r).isSome)
    (hlast : ∀ i, r < i → t.leaf i = none) :
    t.calculateBlankedLeaves.blankedLeaves =
      (List.range r).filter fun i => (t.leaf i).isNone := by
  show ((t.tree.leaves.takeWhile (·.1 < t.rightmostFullLeafComplete)).filter (·.2.isNone)).map
    (·.1) = _
  rw [rightmostFullLeafComplete_eq hr hfull hlast, leaves_eq, takeWhile_range_map _ (le_of_lt hr),
    filter_map, map_map]
  simp [Function.comp_def]

/-- The recounted leaves are those of the tree. -/
lemma wellFormed_counted (h : t.emptyDiff.diff.Shaped n) (hn : n ≤ 29)
    (hleaves : t.tree.leafNodes.length = 2 ^ n) (hfull : (t.leaf r).isSome)
    (hlast : ∀ i, r < i → t.leaf i = none) (hlower : 2 ^ n < 2 * (r + 1)) (hupper : r < 2 ^ n) :
    t.calculateNumMembers.calculateBlankedLeaves.emptyDiff.WellFormed n := by
  set t' := t.calculateNumMembers.calculateBlankedLeaves with ht'
  have hblanked : t'.emptyDiff.blankedLeaves = (List.range r).filter fun i => (t.leaf i).isNone :=
    blankedLeaves_calculate (t := t.calculateNumMembers) (by rw [← hleaves] at hupper; exact hupper)
      hfull hlast
  have hmembers : t'.emptyDiff.numMembers =
      ((List.range (r + 1)).filter fun i => (t.leaf i).isSome).length := by
    show (t.tree.leaves.filter (·.2.isSome)).length = _
    obtain ⟨k, hk⟩ := Nat.exists_eq_add_of_le (show r + 1 ≤ t.tree.leafNodes.length by omega)
    rw [leaves_eq, filter_map, length_map, hk, range_add, filter_append]
    have hrest : ((List.range k).map (r + 1 + ·)).filter
        ((fun e => e.2.isSome) ∘ fun i => (i, t.leaf i)) = [] := by
      refine filter_eq_nil_iff.mpr fun i hi => ?_
      obtain ⟨j, -, rfl⟩ := mem_map.mp hi
      simp [hlast (r + 1 + j) (by omega)]
    rw [hrest, append_nil]
    rfl
  have hslots : t'.emptyDiff.slots = r + 1 := by
    have hcount := length_eq_length_filter_add (l := List.range r) fun i => (t.leaf i).isSome
    rw [slots, hblanked, hmembers, range_succ, filter_append, length_append,
      filter_singleton, hfull, cond_true]
    simp only [length_range, Option.not_isSome, length_singleton] at hcount ⊢
    omega
  have hleaf : ∀ i, t'.emptyDiff.contents.leaf i = t.leaf i := fun i => t.contents_leaf h i
  exact {
    shaped := h
    depth := hn
    nodup := by
      rw [hblanked]
      exact nodup_range.filter _
    blanked := fun i hi => by
      rw [hblanked, mem_filter, mem_range] at hi
      rw [hslots, hleaf]
      exact ⟨by omega, Option.isNone_iff_eq_none.mp hi.2⟩
    full := fun i hi hnot => by
      rw [hslots] at hi
      rw [hleaf]
      rcases Nat.lt_succ_iff_lt_or_eq.mp hi with hlt | rfl
      · by_contra hnone
        refine hnot ?_
        rw [hblanked, mem_filter, mem_range]
        exact ⟨hlt, by simpa using hnone⟩
      · exact hfull
    beyond := fun i hi => by
      rw [hslots] at hi
      rw [hleaf]
      exact hlast i hi
    lower := by rwa [hslots]
    upper := by rwa [hslots] }

/-! ## A new tree -/

lemma new_spec (l : LeafNode D) :
    ∃ t, TreeSync.new H l = .ok t ∧ t.emptyDiff.WellFormed 0 ∧ t.Intact H 0 ∧
      t.contents = ⟨fun i => if i = 0 then some l else none, fun _ _ => none⟩ := by
  set t0 : TreeSync D := ⟨⟨[some l], []⟩, H.empty, [], [], 0⟩ with ht0
  have hshaped : t0.emptyDiff.diff.Shaped 0 := shaped_of_length rfl rfl
  obtain ⟨t1, hpopulate, hintact1, hcontents1, hblanked1, -⟩ :=
    populateTreeHashes_spec (H := H) hshaped
  obtain ⟨t2, hparents, hintact2, hcontents2, hblanked2, -⟩ := populateParentHashes_spec hintact1
  have hcontents : t2.contents = ⟨fun i => if i = 0 then some l else none, fun _ _ => none⟩ := by
    rw [hcontents2, hcontents1]
    ext1
    · funext i
      rw [contents_leaf hshaped]
      cases i <;> rfl
    · rfl
  have hleaf : ∀ i, t2.leaf i = if i = 0 then some l else none := fun i => by
    rw [← contents_leaf hintact2.shaped, hcontents]
  refine ⟨t2.calculateNumMembers, ?_, ?_, ?_, hcontents⟩
  · have hnew : ABinaryTree.new [TreeNode.leaf (some l)] =
        (.ok t0.tree : Except _ (ABinaryTree (TreeSyncLeafNode D) (TreeSyncParentNode D))) := rfl
    show (lift (populateTreeHashes H t0) >>= _) = _
    rw [hpopulate]
    show (lift t1.populateParentHashes >>= _) = _
    rw [hparents]
    rfl
  · -- the list of blanked leaves of a single leaf is the empty one
    have hscan := wellFormed_counted hintact2.shaped (by omega) hintact2.leaves (r := 0)
      (by rw [hleaf]; rfl) (fun i hi => by rw [hleaf, if_neg (by omega)]) (by simp) (by simp)
    refine hscan.congr hintact2.shaped ?_ rfl fun _ => rfl
    show t2.blankedLeaves = t2.calculateNumMembers.calculateBlankedLeaves.blankedLeaves
    rw [hblanked2, hblanked1, blankedLeaves_calculate (r := 0)]
    · rfl
    · exact lt_of_lt_of_eq Nat.one_pos hintact2.leaves.symm
    · show (t2.leaf 0).isSome
      rw [hleaf]
      rfl
    · intro i hi
      show t2.leaf i = none
      rw [hleaf, if_neg (by omega)]
  · exact ⟨hintact2.shaped, hintact2.leaves, hintact2.parents, hintact2.cached, hintact2.treeHash⟩

/-! ## Imported nodes -/

lemma length_toTreeNodes (i : ℕ) (nodes : List (Option (Node D))) :
    (toTreeNodes i nodes).length = nodes.length := by
  induction nodes generalizing i with
  | nil => rfl
  | cons x xs ih =>
    rcases x with _ | (_ | _) <;> simp [toTreeNodes, ih]

variable {i : ℕ}

lemma splitNodes_cons {x : Option (Node D)} {xs : List (Option (Node D))}
    (h : ABinaryTree.splitNodes i (toTreeNodes i (x :: xs)) = .ok (ls, qs)) :
    (i % 2 = 0 ∧ ∃ l ls', ls = l :: ls' ∧ x = l.map .leafNode ∧
        ABinaryTree.splitNodes (i + 1) (toTreeNodes (i + 1) xs) = .ok (ls', qs)) ∨
      i % 2 = 1 ∧ ∃ q qs', qs = q :: qs' ∧ x = q.map .parentNode ∧
        ABinaryTree.splitNodes (i + 1) (toTreeNodes (i + 1) xs) = .ok (ls, qs') := by
  have hleaf : ∀ l : TreeSyncLeafNode D,
      toTreeNodes i (x :: xs) = .leaf l :: toTreeNodes (i + 1) xs →
      i % 2 = 0 ∧ ∃ ls', ls = l :: ls' ∧
        ABinaryTree.splitNodes (i + 1) (toTreeNodes (i + 1) xs) = .ok (ls', qs) := by
    intro l hl
    rw [hl, ABinaryTree.splitNodes] at h
    split_ifs at h with hi
    obtain ⟨⟨ls', qs'⟩, hrest, hpure⟩ := bind_inv h
    cases hpure
    exact ⟨hi, ls', rfl, hrest⟩
  have hparent : ∀ q : TreeSyncParentNode D,
      toTreeNodes i (x :: xs) = .parent q :: toTreeNodes (i + 1) xs →
      i % 2 = 1 ∧ ∃ qs', qs = q :: qs' ∧
        ABinaryTree.splitNodes (i + 1) (toTreeNodes (i + 1) xs) = .ok (ls, qs') := by
    intro q hq
    rw [hq, ABinaryTree.splitNodes] at h
    split_ifs at h with hi
    obtain ⟨⟨ls', qs'⟩, hrest, hpure⟩ := bind_inv h
    cases hpure
    exact ⟨hi, qs', rfl, hrest⟩
  rcases x with _ | (l | q)
  · by_cases hi : i % 2 = 0
    · obtain ⟨hi, ls', heq, hrest⟩ := hleaf none (by simp [toTreeNodes, hi])
      exact .inl ⟨hi, none, ls', heq, rfl, hrest⟩
    · obtain ⟨hi, qs', heq, hrest⟩ := hparent none (by simp [toTreeNodes, hi])
      exact .inr ⟨hi, none, qs', heq, rfl, hrest⟩
  · obtain ⟨hi, ls', heq, hrest⟩ := hleaf (some l) rfl
    exact .inl ⟨hi, some l, ls', heq, rfl, hrest⟩
  · obtain ⟨hi, qs', heq, hrest⟩ := hparent (some q) rfl
    exact .inr ⟨hi, some q, qs', heq, rfl, hrest⟩

/-- The nodes are leaves and parents in turn. -/
lemma splitNodes_toTreeNodes {nodes : List (Option (Node D))}
    (h : ABinaryTree.splitNodes i (toTreeNodes i nodes) = .ok (ls, qs)) :
    ls.length = (nodes.length + 1 - i % 2) / 2 ∧ qs.length = (nodes.length + i % 2) / 2 ∧
      ((i + nodes.length) % 2 = 1 → ∀ x, nodes.getLast? = some (some x) →
        ∃ l, ls.getLast? = some (some l)) := by
  induction nodes generalizing i ls qs with
  | nil =>
    cases h
    simp only [length_nil, getLast?_nil]
    exact ⟨by omega, by omega, fun _ x hx => by cases hx⟩
  | cons x xs ih =>
    rcases splitNodes_cons h with ⟨hi, l, ls', rfl, rfl, hrest⟩ | ⟨hi, q, qs', rfl, rfl, hrest⟩
    · obtain ⟨hls, hqs, hlast⟩ := ih hrest
      simp only [length_cons]
      refine ⟨by omega, by omega, fun hodd y hy => ?_⟩
      cases xs with
      | nil =>
        obtain rfl : ls' = [] := length_eq_zero_iff.mp
          (by rw [hls, length_nil]; omega)
        cases l with
        | none => cases hy
        | some l => exact ⟨l, rfl⟩
      | cons x' xs' =>
        obtain ⟨l', hl'⟩ := hlast (by omega) y hy
        exact ⟨l', by rw [getLast?_cons, hl']; rfl⟩
    · obtain ⟨hls, hqs, hlast⟩ := ih hrest
      simp only [length_cons]
      refine ⟨by omega, by omega, fun hodd y hy => ?_⟩
      cases xs with
      | nil =>
        rw [length_nil] at hodd
        omega
      | cons x' xs' =>
        exact hlast (by omega) y hy

lemma new_toTreeNodes {r : RatchetTree D} (h : ABinaryTree.new (toTreeNodes 0 r.nodes) = .ok tree) :
    ∃ m, tree.leafNodes.length = m + 1 ∧ tree.parentNodes.length = m ∧ 2 * m + 1 ≤ 2 ^ 30 ∧
      (tree.leafByIndex m).isSome := by
  unfold ABinaryTree.new at h
  rw [length_toTreeNodes] at h
  split_ifs at h with hmax hodd
  obtain ⟨⟨ls, qs⟩, hsplit, hpure⟩ := bind_inv h
  cases hpure
  obtain ⟨hls, hqs, hlast⟩ := splitNodes_toTreeNodes hsplit
  have hmax' : r.nodes.length ≤ 2 ^ 30 := not_lt.mp hmax
  refine ⟨r.nodes.length / 2, by rw [hls]; omega, by rw [hqs]; omega, by omega, ?_⟩
  cases hnode : r.nodes.getLast? with
  | none =>
    rw [getLast?_eq_none_iff.mp hnode] at hodd
    exact absurd Nat.zero_ne_one hodd
  | some x =>
    obtain ⟨y, rfl⟩ := Option.isSome_iff_exists.mp (r.trimmed x hnode)
    obtain ⟨l, hl⟩ := hlast (by omega) y hnode
    have hget : ls[r.nodes.length / 2]? = some (some l) := by
      rw [← hl, getLast?_eq_getElem?]
      congr 1
      omega
    show (ls.getD (r.nodes.length / 2) default).isSome
    rw [getD_eq_getElem?_getD, hget]
    rfl

lemma exists_depth (h : 2 * m + 1 ≤ 2 ^ 30) :
    ∃ n ≤ 29, 2 ^ n < 2 * (m + 1) ∧ m < 2 ^ n ∧ TreeSize.new (m + 1 + m) = .ofDepth n := by
  set n := Nat.log2 (2 * m + 1) with hn
  obtain ⟨hlo, hhi⟩ := (Nat.log2_eq_iff (by omega)).mp hn.symm
  refine ⟨n, ?_, by omega, by omega, TreeSize.new_eq_ofDepth n (by omega) (by omega)⟩
  by_contra hlarge
  have hpow : 2 ^ 30 ≤ 2 ^ n := Nat.pow_le_pow_right (by omega) (by omega)
  omega

variable [DecidableEq D]

/-- **Import** only has to pass the check of the parent hashes. -/
lemma fromRatchetTree_eq {r : RatchetTree D}
    (hnew : ABinaryTree.new (toTreeNodes 0 r.nodes) = .ok tree) :
    ∃ (n : ℕ) (t t' : TreeSync D),
      fromRatchetTree H r = (t.emptyDiff.verifyParentHashes H >>= fun _ => .ok t') ∧
      (2 ^ n < 2 * tree.leafNodes.length ∧ tree.leafNodes.length ≤ 2 ^ n) ∧
      (t.emptyDiff.WellFormed n ∧ t.Intact H n) ∧ (t'.emptyDiff.WellFormed n ∧ t'.Intact H n) ∧
      t.contents = ⟨tree.leafByIndex, fun k p => tree.parentByIndex (inorder k p)⟩ ∧
      t'.contents = t.contents := by
  obtain ⟨m, hleaves, hparents, hmax, hlast⟩ := new_toTreeNodes hnew
  obtain ⟨n, hn, hlower, hupper, hsize⟩ := exists_depth hmax
  set t0 : TreeSync D := ⟨tree, H.empty, [], [], 0⟩ with ht0
  have hshaped : t0.emptyDiff.diff.Shaped n := {
    size := by
      show TreeSize.new (tree.leafNodes.length + tree.parentNodes.length) = _
      rw [hleaves, hparents, hsize]
    leaves := by
      show tree.leafNodes.length ≤ _
      omega
    parents := by
      show tree.parentNodes.length ≤ _
      omega
    leafKeys := fun i hi => absurd hi Std.TreeMap.not_mem_emptyc
    parentKeys := fun j hj => absurd hj Std.TreeMap.not_mem_emptyc }
  obtain ⟨t1, hpopulate, hintact1, hcontents1, -, -⟩ := populateTreeHashes_spec (H := H) hshaped
  have hcontents0 : t1.contents =
      ⟨tree.leafByIndex, fun k p => tree.parentByIndex (inorder k p)⟩ := by
    rw [hcontents1]
    ext1
    · funext i
      exact contents_leaf hshaped i
    · rfl
  have hleaf : ∀ i, t1.leaf i = tree.leafByIndex i := fun i => by
    rw [← contents_leaf hintact1.shaped, hcontents0]
  set t2 := t1.calculateNumMembers.calculateBlankedLeaves with ht2
  have hwf2 : t2.emptyDiff.WellFormed n := by
    refine wellFormed_counted hintact1.shaped hn hintact1.leaves (r := m) ?_ (fun i hi => ?_)
      hlower hupper
    · rw [hleaf]
      exact hlast
    · rw [hleaf, ABinaryTree.leafByIndex, getD_eq_default _ _ (by omega)]
      rfl
  have hintact2 : t2.Intact H n :=
    ⟨hintact1.shaped, hintact1.leaves, hintact1.parents, hintact1.cached, hintact1.treeHash⟩
  obtain ⟨t3, hparents3, hintact3, hcontents3, hblanked3, hmembers3⟩ :=
    populateParentHashes_spec hintact2
  refine ⟨n, t2, t3, ?_, by omega, ⟨hwf2, hintact2⟩,
    ⟨hwf2.congr hintact3.shaped hblanked3 hmembers3 fun j => ?_, hintact3⟩, hcontents0, hcontents3⟩
  · rw [fromRatchetTree, hnew]
    show (lift (populateTreeHashes H t0) >>= _) = _
    rw [hpopulate]
    show (t2.emptyDiff.verifyParentHashes H >>= fun _ => lift t2.populateParentHashes) = _
    rw [hparents3]
    rfl
  · show (t3.contents.leaf j).isSome = (t2.contents.leaf j).isSome
    rw [hcontents3]

/-- An imported tree is sound. -/
lemma fromRatchetTree_sound {r : RatchetTree D} (h : fromRatchetTree H r = .ok t) :
    ∃ n, t.emptyDiff.WellFormed n ∧ t.Intact H n := by
  cases hnew : ABinaryTree.new (toTreeNodes 0 r.nodes) with
  | error e =>
    rw [fromRatchetTree, hnew] at h
    cases h
  | ok tree =>
    obtain ⟨n, t1, t2, heq, -, -, ⟨hwf, hintact⟩, -⟩ := fromRatchetTree_eq (H := H) hnew
    rw [heq] at h
    obtain ⟨-, -, hok⟩ := bind_inv h
    cases hok
    exact ⟨n, hwf, hintact⟩

end TreeSync

namespace PublicGroup

/-- The group has just been made from an imported tree and a context with the hash of its root. -/
def Started [DecidableEq D] (H : HashSuite D) (g : PublicGroup D) : Prop :=
  ∃ r, TreeSync.fromRatchetTree H r = .ok g.treesync ∧ g.groupContext.treeHash = g.treesync.treeHash

variable {g : PublicGroup D}

lemma found_spec {l : LeafNode D} {extensions : Bytes} (h : found H l extensions = .ok g) :
    g.Sound H 0 ∧
      g.treesync.contents = ⟨fun i => if i = 0 then some l else none, fun _ _ => none⟩ := by
  obtain ⟨t, hnew, hwf, hintact, hcontents⟩ := TreeSync.new_spec (H := H) l
  rw [found, hnew] at h
  cases h
  exact ⟨⟨hwf, hintact, rfl⟩, hcontents⟩

lemma sound_of_founded (h : g.Founded H) : g.Sound H 0 := by
  obtain ⟨l, extensions, hfound⟩ := h
  exact (found_spec hfound).1

variable [DecidableEq D]

lemma sound_of_started (h : g.Started H) : ∃ n, g.Sound H n := by
  obtain ⟨r, himport, hcontext⟩ := h
  obtain ⟨n, hwf, hintact⟩ := TreeSync.fromRatchetTree_sound himport
  exact ⟨n, hwf, hintact, hcontext⟩

lemma started_of_fromExternal {joining : JoinRules D} {r : RatchetTree D} {info : GroupInfo D}
    (h : fromExternal H joining r info = .ok g) :
    TreeSync.fromRatchetTree H r = .ok g.treesync ∧ g.groupContext = info.groupContext ∧
      g.groupContext.treeHash = g.treesync.treeHash := by
  unfold fromExternal at h
  cases himport : TreeSync.fromRatchetTree H r with
  | error e =>
    rw [himport] at h
    cases h
  | ok t =>
    rw [himport] at h
    obtain ⟨keys, -, h⟩ := bind_inv h
    obtain ⟨-, -, h⟩ := bind_inv h
    cases hleaf : t.leaf info.signer with
    | none =>
      rw [hleaf] at h
      cases h
    | some l =>
      rw [hleaf] at h
      dsimp only at h
      split_ifs at h with hsig hhash hvalid
      cases h
      exact ⟨rfl, rfl, (not_not.mp hhash).symm⟩

end PublicGroup

end EmulatedMls
