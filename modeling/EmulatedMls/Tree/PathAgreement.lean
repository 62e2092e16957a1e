import EmulatedMls.Tree.TreeKem

/-!
# Agreement on a path

The author of a commit and its receivers do not run the same code.  A new member who commits puts a
placeholder into the tree and replaces it when the parent hashes are known, whereas a receiver puts
the leaf of the path there at once.  The caches differ along the path of the leaf then, until they
are updated for the second time.
-/

namespace EmulatedMls

variable {D : Type} {H : HashSuite D}

open Exec List TreeSyncDiff

/-! ## Caches that differ along a path -/

/-- The caches agree but for the path of leaf `i` from level `k` on. -/
structure AgreeUpTo (i k : ℕ) (v w : List D) : Prop where
  length : w.length = v.length
  entry : ∀ k' p, (k ≤ k' → p ≠ i / 2 ^ k') → w[inorder k' p]? = v[inorder k' p]?

variable {v' : List D}

namespace AgreeUpTo

variable {i k n : ℕ} {v w : List D}

lemma refl (i k : ℕ) (v : List D) : AgreeUpTo i k v v := ⟨rfl, fun _ _ _ => rfl⟩

variable {k' : ℕ} {a : D}

lemma mono (h : AgreeUpTo i k' v w) (hk : k ≤ k') : AgreeUpTo i k v w :=
  ⟨h.length, fun k1 p hp => h.entry k1 p fun hle => hp (hk.trans hle)⟩

section

variable (h : AgreeUpTo i k v w)
include h

lemma eq_of_root (hk : n < k) (hlength : v.length = 2 ^ (n + 1) - 1) : w = v := by
  refine ext_getElem? fun x => ?_
  by_cases hx : x < v.length
  · obtain ⟨k', p, rfl⟩ := exists_inorder x
    rw [hlength] at hx
    have hin := InTree.lt_iff.mp hx
    exact h.entry k' p fun hle => absurd hin.1 (by omega)
  · rw [getElem?_eq_none (Nat.not_lt.mp hx),
      getElem?_eq_none (by rw [h.length]; exact Nat.not_lt.mp hx)]

variable {p : ℕ}

lemma index_eq (hp : k ≤ k' → p ≠ i / 2 ^ k') :
    index w (inorder k' p) = index v (inorder k' p) := by
  unfold index
  rw [h.entry k' p hp]

lemma exists_index {x : ℕ} (ha : index v x = .ok a) : ∃ b, index w x = .ok b := by
  rw [index_eq_ok, List.getElem?_eq_some_iff] at ha
  obtain ⟨hx, -⟩ := ha
  have hx' : x < w.length := by rwa [h.length]
  exact ⟨w[x], by rw [index_eq_ok, getElem?_eq_getElem hx']⟩

lemma store {b : D} (hstore : EmulatedMls.store v (inorder k' p) a = .ok v')
    (hab : (k ≤ k' → p ≠ i / 2 ^ k') → b = a) :
    ∃ w', EmulatedMls.store w (inorder k' p) b = .ok w' ∧ AgreeUpTo i k v' w' := by
  obtain ⟨hlt, rfl⟩ := store_eq_ok.mp hstore
  refine ⟨w.set (inorder k' p) b, store_eq_ok.mpr ⟨by rwa [h.length], rfl⟩,
    by rw [length_set, length_set, h.length], fun k1 p1 hp1 => ?_⟩
  rw [getElem?_set, getElem?_set, h.length]
  split_ifs with heq
  · obtain ⟨rfl, rfl⟩ := inorder_inj heq
    rw [hab hp1]
  · exact h.entry k1 p1 hp1

lemma store_lowest (hstore : EmulatedMls.store v (inorder k (i / 2 ^ k)) a = .ok v') :
    ∃ w', EmulatedMls.store w (inorder k (i / 2 ^ k)) a = .ok w' ∧ AgreeUpTo i (k + 1) v' w' := by
  obtain ⟨hlt, rfl⟩ := store_eq_ok.mp hstore
  refine ⟨w.set (inorder k (i / 2 ^ k)) a, store_eq_ok.mpr ⟨by rwa [h.length], rfl⟩,
    by rw [length_set, length_set, h.length], fun k1 p1 hp1 => ?_⟩
  rw [getElem?_set, getElem?_set, h.length]
  split_ifs with heq
  · rfl
  · refine h.entry k1 p1 fun hle hp => ?_
    rcases Nat.eq_or_lt_of_le hle with rfl | hlt'
    · exact heq (by rw [hp])
    · exact hp1 hlt' hp

end

end AgreeUpTo

/-! ## Working off the queue -/

variable {j : ℕ} {queue : List ℕ}

section Queue

variable {d : AbDiff (TreeSyncLeafNode D) (TreeSyncParentNode D)} {n i k : ℕ} {v w : List D}

/-- One step of the loop over the queue, with what it reads and writes. -/
structure DrainStep (H : HashSuite D) (d : AbDiff (TreeSyncLeafNode D) (TreeSyncParentNode D))
    (j : ℕ) (v v' : List D) (lh rh : D) : Prop where
  leftHash : index v (left j).u32 = .ok lh
  rightHash : index v (right j).u32 = .ok rh
  written : store v (TreeNodeIndex.parent j).u32 (parentTreeHash H (d.parent j) lh rh []) = .ok v'

variable {fuel : ℕ} {r : List D}

lemma drainQueue_cons_eq_ok :
    drainQueue H d (fuel + 1) (j :: queue) v = .ok r ↔
      ∃ lh rh v', DrainStep H d j v v' lh rh ∧
        drainQueue H d fuel (if TreeNodeIndex.parent j ≠ root d.size
          then queue ++ [parent (.parent j)] else queue) v' = .ok r := by
  constructor
  · intro h
    obtain ⟨lh, hl, h⟩ := bind_inv h
    obtain ⟨rh, hr, h⟩ := bind_inv h
    obtain ⟨v', hstore, h⟩ := bind_inv h
    exact ⟨lh, rh, v', ⟨hl, hr, hstore⟩, h⟩
  · rintro ⟨lh, rh, v', ⟨hl, hr, hstore⟩, h⟩
    exact bind_ok hl (bind_ok hr (bind_eq_ok.mpr ⟨v', hstore, h⟩))

variable {v' : List D} {lh rh : D} {p : ℕ}

lemma DrainStep.length (h : DrainStep H d k v v' lh rh) : v'.length = v.length := by
  obtain ⟨-, rfl⟩ := store_eq_ok.mp h.written
  exact length_set

lemma DrainStep.agree_lowest (hstep : DrainStep H d (inorder k (i / 2 ^ (k + 1))) v v' lh rh)
    (h : AgreeUpTo i (k + 1) v w) :
    ∃ w', DrainStep H d (inorder k (i / 2 ^ (k + 1))) w w' lh rh ∧ AgreeUpTo i (k + 2) v' w' := by
  obtain ⟨hl, hr, hstore⟩ := hstep
  rw [u32_parent_inorder] at hstore
  obtain ⟨w', hstore', hagree⟩ := h.store_lowest hstore
  refine ⟨w', ⟨?_, ?_, by rwa [u32_parent_inorder]⟩, hagree⟩
  · rw [left_inorder, u32_at] at hl ⊢
    rwa [h.index_eq fun hle => absurd hle (by omega)]
  · rw [right_inorder, u32_at] at hr ⊢
    rwa [h.index_eq fun hle => absurd hle (by omega)]

lemma DrainStep.agree (hstep : DrainStep H d (inorder k p) v v' lh rh) {k' : ℕ}
    (h : AgreeUpTo i k' v w) :
    ∃ lh' rh' w', DrainStep H d (inorder k p) w w' lh' rh' ∧ AgreeUpTo i k' v' w' := by
  obtain ⟨hl, hr, hstore⟩ := hstep
  rw [u32_parent_inorder] at hstore
  obtain ⟨lh', hl'⟩ := h.exists_index hl
  obtain ⟨rh', hr'⟩ := h.exists_index hr
  have hsame : (k' ≤ k + 1 → p ≠ i / 2 ^ (k + 1)) →
      parentTreeHash H (d.parent (inorder k p)) lh' rh' [] =
        parentTreeHash H (d.parent (inorder k p)) lh rh [] := fun hoff => by
    have hchild : ∀ c, c / 2 = p → k' ≤ k → c ≠ i / 2 ^ k := fun c hc hle heq =>
      hoff (by omega) (by rw [div_two_pow_succ, ← heq, hc])
    rw [left_inorder, u32_at] at hl hl'
    rw [right_inorder, u32_at] at hr hr'
    rw [h.index_eq (hchild _ (by omega)), hl] at hl'
    rw [h.index_eq (hchild _ (by omega)), hr] at hr'
    rw [Except.ok.inj hl', Except.ok.inj hr']
  obtain ⟨w', hstore', hagree⟩ := h.store hstore hsame
  exact ⟨lh', rh', w', ⟨hl', hr', by rwa [u32_parent_inorder]⟩, hagree⟩

/-- **The same queue on both caches** makes them equal if the lowest node of the path is in it. -/
lemma drainQueue_agree (hsize : d.size = .ofDepth n) (h : AgreeUpTo i k v w)
    (hlength : v.length = 2 ^ (n + 1) - 1) (hok : drainQueue H d fuel queue v = .ok r) :
    ∃ r', drainQueue H d fuel queue w = .ok r' ∧ AgreeUpTo i k r r' ∧
      ∀ k0, k = k0 + 1 → inorder k0 (i / 2 ^ (k0 + 1)) ∈ queue → r' = r := by
  induction fuel generalizing queue v w k with
  | zero =>
    cases queue with
    | nil =>
      cases hok
      exact ⟨w, rfl, h, fun _ _ hmem => absurd hmem not_mem_nil⟩
    | cons j queue => cases hok
  | succ fuel ih =>
    cases queue with
    | nil =>
      cases hok
      exact ⟨w, rfl, h, fun _ _ hmem => absurd hmem not_mem_nil⟩
    | cons j queue =>
      obtain ⟨lh, rh, v', hstep, hrest⟩ := drainQueue_cons_eq_ok.mp hok
      obtain ⟨kj, p, rfl⟩ := exists_inorder j
      have hlength' : v'.length = 2 ^ (n + 1) - 1 := hstep.length.trans hlength
      by_cases hlow : k = kj + 1 ∧ p = i / 2 ^ (kj + 1)
      · obtain ⟨rfl, rfl⟩ := hlow
        obtain ⟨w', hstep', hagree⟩ := hstep.agree_lowest h
        by_cases hroot : TreeNodeIndex.parent (inorder kj (i / 2 ^ (kj + 1))) ≠ root d.size
        · -- the next node of the path is queued
          rw [if_pos hroot] at hrest
          obtain ⟨r', hok', hagree', hmeet⟩ := ih hagree hlength' hrest
          refine ⟨r', drainQueue_cons_eq_ok.mpr ⟨lh, rh, w', hstep', by rwa [if_pos hroot]⟩,
            hagree'.mono (by omega), fun _ _ _ => hmeet (kj + 1) rfl ?_⟩
          rw [← nodeAt_succ, parent_at, ← div_two_pow_succ]
          simp
        · have hn : kj + 1 = n := by
            rw [not_ne_iff, hsize, TreeSize.root_ofDepth, ← nodeAt_succ] at hroot
            have := congrArg TreeNodeIndex.u32 hroot
            rw [u32_at, u32_at] at this
            exact (inorder_inj this).1
          obtain rfl := hagree.eq_of_root (by omega) hlength'
          exact ⟨r, drainQueue_cons_eq_ok.mpr ⟨lh, rh, w', hstep', hrest⟩, .refl _ _ _,
            fun _ _ _ => rfl⟩
      · obtain ⟨lh', rh', w', hstep', hagree⟩ := hstep.agree h
        obtain ⟨r', hok', hagree', hmeet⟩ := ih hagree hlength' hrest
        refine ⟨r', drainQueue_cons_eq_ok.mpr ⟨lh', rh', w', hstep', hok'⟩, hagree',
          fun k0 hk0 hmem => hmeet k0 hk0 ?_⟩
        have hqueue : inorder k0 (i / 2 ^ (k0 + 1)) ∈ queue := by
          rcases mem_cons.mp hmem with heq | hmem
          · obtain ⟨rfl, rfl⟩ := inorder_inj heq
            exact absurd ⟨hk0, rfl⟩ hlow
          · exact hmem
        split_ifs
        · exact mem_append_left _ hqueue
        · exact hqueue

end Queue

/-! ## Updates of the cache -/

variable {α : Type} {t' : TreeSyncDiff D}

section Update

variable {i k n : ℕ} {v w : List D}

/-- The entry is for the same leaf, and if that is not leaf `i`, also the same. -/
def SameLeaf (i : ℕ) (e e' : ℕ × TreeSyncLeafNode D) : Prop := e'.1 = e.1 ∧ (e.1 ≠ i → e'.2 = e.2)

lemma getElem?_resize (v : List α) (m : ℕ) (a : α) (x : ℕ) :
    (resize v m a)[x]? = if x < m then some ((v[x]?).getD a) else none := by
  unfold resize
  rw [getElem?_append, length_take, getElem?_take, getElem?_replicate]
  by_cases hx : x < v.length
  · rw [getElem?_eq_getElem hx]
    split_ifs <;> first | rfl | omega
  · rw [getElem?_eq_none (Nat.not_lt.mp hx)]
    split_ifs <;> first | rfl | omega

lemma AgreeUpTo.resize (h : AgreeUpTo i k v w) (m : ℕ) (a : D) :
    AgreeUpTo i k (EmulatedMls.resize v m a) (EmulatedMls.resize w m a) :=
  ⟨by rw [length_resize, length_resize], fun k' p hp => by
    rw [getElem?_resize, getElem?_resize, h.entry k' p hp]⟩

lemma addFreshLeaves_eq [DecidableEq D] (hashes : List D) (leaves : ℕ)
    (ms : List (ℕ × TreeSyncLeafNode D)) :
    addFreshLeaves H hashes leaves ms = ms ++ ((List.range leaves).filter fun j =>
      hashes[2 * j]? = some H.empty ∧ ¬ ms.any (·.1 = j)).map fun j => (j, none) := by
  unfold addFreshLeaves
  induction leaves with
  | zero => simp
  | succ m ih =>
    set fresh : List (ℕ × TreeSyncLeafNode D) := ((List.range m).filter fun j =>
      hashes[2 * j]? = some H.empty ∧ ¬ ms.any (·.1 = j)).map fun j => (j, none) with hfresh
    have hany : (ms ++ fresh).any (·.1 = m) = ms.any (·.1 = m) := by
      have hnone : fresh.any (·.1 = m) = false := by
        refine any_eq_false.mpr fun e he => ?_
        obtain ⟨j, hj, rfl⟩ := mem_map.mp he
        have := mem_range.mp (mem_filter.mp hj).1
        simp only [decide_eq_true_eq]
        omega
      rw [any_append, hnone, Bool.or_false]
    rw [range_succ, foldl_append, ih, foldl_cons, foldl_nil, hany,
      filter_append, map_append, ← hfresh, filter_cons, filter_nil]
    by_cases hnew : hashes[2 * m]? = some H.empty ∧ ¬ ms.any (·.1 = m)
    · rw [if_pos hnew, if_pos (decide_eq_true hnew), append_assoc]
      rfl
    · rw [if_neg hnew, if_neg (by simpa using hnew), map_nil, append_nil]

variable {ms : List (ℕ × TreeSyncLeafNode D)}

lemma storeLeaves_agree {size : TreeSize} {ms' : List (ℕ × TreeSyncLeafNode D)} {queue' : List ℕ}
    (h : AgreeUpTo i k v w)
    (hms : List.Forall₂ (fun e e' => e'.1 = e.1 ∧ ((k ≤ 0 → e.1 ≠ i) → e'.2 = e.2)) ms ms')
    (hok : storeLeaves H size ms v queue = .ok (v', queue')) :
    ∃ w', storeLeaves H size ms' w queue = .ok (w', queue') ∧ AgreeUpTo i k v' w' ∧
      v'.length = v.length ∧ queue ⊆ queue' := by
  induction hms generalizing v w queue with
  | nil =>
    cases hok
    exact ⟨w, rfl, h, rfl, fun _ hx => hx⟩
  | @cons e e' ms ms' hfirst hrest ih =>
    obtain ⟨j, l⟩ := e
    obtain ⟨j', l'⟩ := e'
    obtain ⟨hj, hsame⟩ := hfirst
    dsimp only at hj hsame
    subst hj
    obtain ⟨v1, hstore, hok⟩ := bind_inv hok
    have hu32 : (TreeNodeIndex.leaf j').u32 = inorder 0 j' := u32_at 0 j'
    rw [hu32] at hstore
    obtain ⟨w1, hstore', hagree⟩ := h.store (b := leafTreeHash H j' l') hstore fun hoff => by
      rw [hsame fun hk => by simpa using hoff hk]
    have hlength : v1.length = v.length := by
      obtain ⟨-, rfl⟩ := store_eq_ok.mp hstore
      exact length_set
    obtain ⟨w', hok', hagree', hlength', hsub⟩ := ih hagree hok
    refine ⟨w', bind_eq_ok.mpr ⟨w1, by rwa [hu32], hok'⟩, hagree', hlength'.trans hlength,
      fun x hx => hsub ?_⟩
    split_ifs
    · exact mem_append_left _ hx
    · exact hx

variable {t : TreeSyncDiff D}

/-- The same diff with other leaves and another cache. -/
def TreeSyncDiff.variant (t : TreeSyncDiff D) (leaves : Std.TreeMap ℕ (TreeSyncLeafNode D))
    (w : List D) : TreeSyncDiff D :=
  { t with diff := { t.diff with leafDiff := leaves }, treeHashes := w }

lemma drainQueue_variant (d : AbDiff (TreeSyncLeafNode D) (TreeSyncParentNode D))
    (leaves : Std.TreeMap ℕ (TreeSyncLeafNode D)) (fuel : ℕ) (queue : List ℕ) (v : List D) :
    drainQueue H { d with leafDiff := leaves } fuel queue v = drainQueue H d fuel queue v := by
  induction fuel generalizing queue v with
  | zero => cases queue <;> rfl
  | succ fuel ih =>
    cases queue with
    | nil => rfl
    | cons j queue =>
      simp only [drainQueue, ih]
      rfl

lemma length_resized (hsize : t.diff.size = .ofDepth n) :
    (resize t.treeHashes (max t.leafCount minTreeSize * 2 - 1) H.empty).length =
      2 ^ (n + 1) - 1 := by
  have hleaves : max t.leafCount minTreeSize = 2 ^ n := by
    rw [leafCount, hsize, TreeSize.leafCount_ofDepth]
    exact Nat.max_eq_left (by positivity : 0 < 2 ^ n)
  rw [length_resize, hleaves, pow_succ]

variable [DecidableEq D]

/-- The leaves that an update of the cache stores. -/
def TreeSyncDiff.leavesToStore (H : HashSuite D) (t : TreeSyncDiff D)
    (ms : List (ℕ × TreeSyncLeafNode D)) : List (ℕ × TreeSyncLeafNode D) :=
  addFreshLeaves H (resize t.treeHashes (max t.leafCount minTreeSize * 2 - 1) H.empty)
    (max t.leafCount minTreeSize) ms

variable {rootHash : D} {t1 : TreeSyncDiff D}

lemma updateTreeHashes_eq_ok :
    t.updateTreeHashes H ms = .ok (t', rootHash) ↔
      ∃ stored queue hashes,
        storeLeaves H t.diff.size (t.leavesToStore H ms)
          (resize t.treeHashes (max t.leafCount minTreeSize * 2 - 1) H.empty) [] =
            .ok (stored, queue) ∧
        drainQueue H t.diff (queue.length * t.diff.size.u32) queue stored = .ok hashes ∧
        index hashes (root t.diff.size).u32 = .ok rootHash ∧
        t' = { t with treeHashes := hashes } := by
  constructor
  · intro h
    obtain ⟨⟨stored, queue⟩, hstored, h⟩ := bind_inv h
    obtain ⟨hashes, hdrain, h⟩ := bind_inv h
    obtain ⟨rootHash', hroot, h⟩ := bind_inv h
    cases h
    exact ⟨stored, queue, hashes, hstored, hdrain, hroot, rfl⟩
  · rintro ⟨stored, queue, hashes, hstored, hdrain, hroot, rfl⟩
    exact bind_ok hstored (bind_ok hdrain (bind_ok hroot rfl))

variable {leaves : Std.TreeMap ℕ (TreeSyncLeafNode D)} {ms ms' : List (ℕ × TreeSyncLeafNode D)}

lemma leavesToStore_variant (leaves : Std.TreeMap ℕ (TreeSyncLeafNode D))
    (h : AgreeUpTo i 0 t.treeHashes w)
    (hms : List.Forall₂ (SameLeaf i) ms ms') (hlisted : ∃ e ∈ ms, e.1 = i) :
    ∃ fresh, t.leavesToStore H ms = ms ++ fresh ∧
      (t.variant leaves w).leavesToStore H ms' = ms' ++ fresh := by
  refine ⟨_, addFreshLeaves_eq _ _ _, ?_⟩
  rw [TreeSyncDiff.leavesToStore, addFreshLeaves_eq]
  refine congrArg _ (congrArg _ (filter_congr fun j _ => ?_))
  have hkeys : ms'.any (·.1 = j) = ms.any (·.1 = j) := by
    clear hlisted
    induction hms with
    | nil => rfl
    | cons hfirst _ ih => rw [any_cons, any_cons, ih, hfirst.1]
  rw [hkeys, decide_eq_decide]
  by_cases hj : j = i
  · obtain ⟨e, he, rfl⟩ := hlisted
    have hany : ms.any (·.1 = j) = true := any_eq_true.mpr ⟨e, he, by simp [hj]⟩
    rw [hany]
    simp
  · have hentry := (h.resize (max t.leafCount minTreeSize * 2 - 1) H.empty).entry 0 j fun _ => by
      simpa using hj
    rw [inorder_zero] at hentry
    rw [← hentry]
    rfl

section

variable (hsize : t.diff.size = .ofDepth n) (h : AgreeUpTo i 0 t.treeHashes w)
include hsize h

/-- **An update of both caches** for the same leaves, of which leaf `i` may differ. -/
lemma updateTreeHashes_variant (hms : List.Forall₂ (SameLeaf i) ms ms')
    (hlisted : ∃ e ∈ ms, e.1 = i) (hok : t.updateTreeHashes H ms = .ok (t1, rootHash)) :
    ∃ hashes w1 rootHash', t1 = { t with treeHashes := hashes } ∧
      (t.variant leaves w).updateTreeHashes H ms' = .ok (t.variant leaves w1, rootHash') ∧
      AgreeUpTo i 0 hashes w1 := by
  obtain ⟨stored, queue, hashes, hstored, hdrain, hroot, rfl⟩ := updateTreeHashes_eq_ok.mp hok
  obtain ⟨fresh, heq, heq'⟩ := leavesToStore_variant (H := H) leaves h hms hlisted
  rw [heq] at hstored
  have hall : List.Forall₂ (fun e e' => e'.1 = e.1 ∧ ((0 ≤ 0 → e.1 ≠ i) → e'.2 = e.2))
      (ms ++ fresh) (ms' ++ fresh) := by
    refine rel_append ?_ ?_
    · exact hms.imp fun _ _ he => ⟨he.1, fun hne => he.2 (hne le_rfl)⟩
    · exact forall₂_same.mpr fun _ _ => ⟨rfl, fun _ => rfl⟩
  obtain ⟨stored', hstored', hagree, hlength, -⟩ := storeLeaves_agree (h.resize _ _) hall hstored
  rw [length_resized hsize] at hlength
  obtain ⟨w1, hdrain', hagree', -⟩ := drainQueue_agree hsize hagree hlength hdrain
  obtain ⟨rootHash', hroot'⟩ := hagree'.exists_index hroot
  refine ⟨hashes, w1, rootHash', rfl, updateTreeHashes_eq_ok.mpr
    ⟨stored', queue, w1, ?_, ?_, hroot', rfl⟩, hagree'⟩
  · rw [heq']
    exact hstored'
  · exact (drainQueue_variant _ _ _ _ _).trans hdrain'

/-- **The update for leaf `i`**, with the same leaf on both sides.  It makes the caches equal. -/
lemma updateTreeHashes_leaf_variant {l : TreeSyncLeafNode D}
    (hok : t.updateTreeHashes H [(i, l)] = .ok (t1, rootHash)) :
    ∃ hashes, t1 = { t with treeHashes := hashes } ∧
      (t.variant leaves w).updateTreeHashes H [(i, l)] =
        .ok (t.variant leaves hashes, rootHash) := by
  obtain ⟨stored, queue, hashes, hstored, hdrain, hroot, rfl⟩ := updateTreeHashes_eq_ok.mp hok
  have hsame : List.Forall₂ (SameLeaf i) [(i, l)] [(i, l)] :=
    forall₂_same.mpr fun _ _ => ⟨rfl, fun _ => rfl⟩
  obtain ⟨fresh, heq, heq'⟩ := leavesToStore_variant (H := H) leaves h hsame ⟨(i, l), by simp, rfl⟩
  rw [heq] at hstored
  obtain ⟨v1, hstore, hrest⟩ := bind_inv hstored
  have hu32 : (TreeNodeIndex.leaf i).u32 = inorder 0 (i / 2 ^ 0) := by
    rw [pow_zero, Nat.div_one]
    exact u32_at 0 i
  rw [hu32] at hstore
  have hlength1 : v1.length = 2 ^ (n + 1) - 1 := by
    rw [← length_resized (H := H) hsize]
    obtain ⟨-, rfl⟩ := store_eq_ok.mp hstore
    exact length_set
  obtain ⟨w1, hstore', hagree⟩ := (h.resize _ _).store_lowest hstore
  obtain ⟨stored', hrest', hagree', hlength, hsub⟩ := storeLeaves_agree hagree
    (forall₂_same.mpr fun _ _ => ⟨rfl, fun _ => rfl⟩) hrest
  have hdrain' : drainQueue H t.diff (queue.length * t.diff.size.u32) queue stored' =
      .ok hashes := by
    obtain ⟨r, hr, -, hmeet⟩ := drainQueue_agree hsize hagree' (hlength.trans hlength1) hdrain
    by_cases hroot : TreeNodeIndex.leaf i ≠ root t.diff.size
    · rw [hr, hmeet 0 rfl (hsub ?_)]
      rw [if_pos hroot, ← nodeAt_zero, parent_at]
      simp
    · -- the tree is a single leaf
      have hn : n = 0 := by
        rw [not_ne_iff, hsize, TreeSize.root_ofDepth, ← nodeAt_zero] at hroot
        have := congrArg TreeNodeIndex.u32 hroot
        rw [u32_at, u32_at] at this
        exact (inorder_inj this).1.symm
      rw [hagree'.eq_of_root (n := n) (by omega) (hlength.trans hlength1), hdrain]
  refine ⟨hashes, rfl, updateTreeHashes_eq_ok.mpr ⟨stored', queue, hashes, ?_, ?_, hroot, rfl⟩⟩
  · rw [heq']
    exact bind_eq_ok.mpr ⟨w1, by rwa [hu32], hrest'⟩
  · exact (drainQueue_variant _ _ _ _ _).trans hdrain'

end

end Update

/-! ## Diffs that differ in one leaf -/

lemma toList_insert (m : Std.TreeMap ℕ α) (i : ℕ) (x y : α) :
    (m.insert i y).toList = (m.insert i x).toList.map fun e => if e.1 = i then (i, y) else e := by
  have hequiv : (m.insert i y).Equiv ((m.insert i x).map fun k v => if k = i then y else v) := by
    refine Std.TreeMap.Equiv.of_forall_constGet?_eq fun k => ?_
    rw [Std.TreeMap.getElem?_map, getElem?_insert_eq, getElem?_insert_eq]
    by_cases hk : k = i
    · simp [hk]
    · cases m[k]? <;> simp [hk]
  rw [hequiv.toList_eq, Std.TreeMap.toList_map]
  refine map_congr_left fun e _ => ?_
  split_ifs with h
  · rw [h]
  · rfl

namespace TreeSyncDiff

variable {t t1 : TreeSyncDiff D} {i n : ℕ} {leaves : Std.TreeMap ℕ (TreeSyncLeafNode D)}

/-- The leaves come from the same writes but for the leaf `i`. -/
def Twins (i : ℕ) (t : TreeSyncDiff D) (leaves : Std.TreeMap ℕ (TreeSyncLeafNode D)) : Prop :=
  ∃ (m : Std.TreeMap ℕ (TreeSyncLeafNode D)) (x y : LeafNode D),
    t.diff.leafDiff = m.insert i (some x) ∧ leaves = m.insert i (some y)

section

variable (h : Twins i t leaves)
include h

lemma Twins.getElem? (hj : j ≠ i) : leaves[j]? = t.diff.leafDiff[j]? := by
  obtain ⟨m, x, y, hm, rfl⟩ := h
  rw [hm, getElem?_insert_eq, getElem?_insert_eq, if_neg hj, if_neg hj]

lemma Twins.leaf (w : List D) (hj : j ≠ i) : (t.variant leaves w).diff.leaf j = t.diff.leaf j := by
  unfold AbDiff.leaf
  rw [show (t.variant leaves w).diff.leafDiff[j]? = t.diff.leafDiff[j]? from h.getElem? hj]
  rfl

lemma Twins.diffLeaves (w : List D) :
    List.Forall₂ (SameLeaf i) t.diff.diffLeaves (t.variant leaves w).diff.diffLeaves := by
  obtain ⟨m, x, y, hm, rfl⟩ := h
  have hlist : (t.variant (m.insert i (some y)) w).diff.diffLeaves =
      t.diff.diffLeaves.map fun e => if e.1 = i then (i, some y) else e := by
    show (m.insert i (some y)).toList = t.diff.leafDiff.toList.map _
    rw [hm, toList_insert m i (some x) (some y)]
  rw [hlist, forall₂_map_right_iff]
  refine forall₂_same.mpr fun e _ => ?_
  split_ifs with he
  · exact ⟨he.symm, fun hne => absurd he hne⟩
  · exact ⟨rfl, fun _ => rfl⟩

lemma Twins.listed : ∃ e ∈ t.diff.diffLeaves, e.1 = i := by
  obtain ⟨m, x, y, hm, -⟩ := h
  refine ⟨(i, some x), ?_, rfl⟩
  show (i, some x) ∈ t.diff.leafDiff.toList
  rw [hm, Std.TreeMap.mem_toList_iff_getElem?_eq_some, getElem?_insert_eq, if_pos rfl]

lemma Twins.shaped (hshaped : t.diff.Shaped n) (w : List D) :
    (t.variant leaves w).diff.Shaped n where
  size := hshaped.size
  leaves := hshaped.leaves
  parents := hshaped.parents
  leafKeys j hj := by
    obtain ⟨m, x, y, hm, rfl⟩ := h
    refine hshaped.leafKeys j ?_
    rw [hm, Std.TreeMap.mem_insert]
    exact Std.TreeMap.mem_insert.mp hj
  parentKeys := hshaped.parentKeys

lemma Twins.agreeOff (w : List D) :
    Contents.AgreeOff {i} t.contents (t.variant leaves w).contents :=
  ⟨fun _ hj => h.leaf w (Set.notMem_singleton_iff.mp hj), fun _ _ _ => rfl⟩

end

/-! ## The path -/

lemma foldl_modifyParent_variant (d : AbDiff (TreeSyncLeafNode D) (TreeSyncParentNode D))
    (leaves : Std.TreeMap ℕ (TreeSyncLeafNode D)) (xs : List α) (j : α → ℕ)
    (f : α → TreeSyncParentNode D → TreeSyncParentNode D) :
    xs.foldl (fun d x => d.modifyParent (j x) (f x)) { d with leafDiff := leaves } =
      { xs.foldl (fun d x => d.modifyParent (j x) (f x)) d with leafDiff := leaves } := by
  induction xs generalizing d with
  | nil => rfl
  | cons x xs ih => exact ih (d.modifyParent (j x) (f x))

lemma foldl_modifyParent_frame (d : AbDiff (TreeSyncLeafNode D) (TreeSyncParentNode D))
    (xs : List α) (j : α → ℕ) (f : α → TreeSyncParentNode D → TreeSyncParentNode D) :
    ∃ m, xs.foldl (fun d x => d.modifyParent (j x) (f x)) d = { d with parentDiff := m } := by
  induction xs generalizing d with
  | nil => exact ⟨d.parentDiff, rfl⟩
  | cons x xs ih => exact ih (d.modifyParent (j x) (f x))

variable {l : LeafNode D} {parentHash : D} {path : List (ℕ × ParentNode D)} {nodes : List ℕ}
  {keys : ℕ → Key} {params : UpdateLeafNodeParams}

lemma addLeaf_variant (hok : t.addLeaf l = .ok (t1, i)) (l' : LeafNode D) :
    ∃ leaves, Twins i t1 leaves ∧ t.addLeaf l' = .ok (t1.variant leaves t1.treeHashes, i) ∧
      leaves[i]? = some (some l') := by
  obtain ⟨d, hgrow, hok⟩ := bind_inv hok
  obtain ⟨path, hpath, hok⟩ := bind_inv hok
  cases hok
  set j := t.freeLeafIndex with hj
  refine ⟨d.leafDiff.insert j (some l'), ⟨d.leafDiff, l, l', ?_, rfl⟩, ?_, ?_⟩
  · obtain ⟨m, hframe⟩ := foldl_modifyParent_frame (d.replaceLeaf j (some l)) path id
      fun _ => Option.map (ParentNode.addUnmergedLeaf j)
    exact congrArg AbDiff.leafDiff hframe
  · refine bind_ok hgrow (bind_ok hpath (?_))
    refine congrArg Except.ok (Prod.ext ?_ rfl)
    have hfold := foldl_modifyParent_variant (d.replaceLeaf j (some l))
      (d.leafDiff.insert j (some l')) path id fun _ => Option.map (ParentNode.addUnmergedLeaf j)
    exact congrArg (fun d' => (⟨d', t.treeHashes, t.blankedLeaves.filter (· ≠ j),
      t.numMembers + 1⟩ : TreeSyncDiff D)) hfold
  · rw [getElem?_insert_eq, if_pos rfl]

lemma linkParentHashes_congr {v w : List D} {es : List ((ℕ × ParentNode D) × TreeNodeIndex)}
    (h : ∀ e ∈ es, index w e.2.u32 = index v e.2.u32) (previous : D) :
    linkParentHashes H w es previous = linkParentHashes H v es previous := by
  induction es generalizing previous with
  | nil => rfl
  | cons e es ih =>
    obtain ⟨hfirst, hrest⟩ := forall_mem_cons.mp h
    simp only [linkParentHashes, hfirst, ih hrest]

variable [DecidableEq D]

section

variable (hshaped : t.diff.Shaped n) (hi : i < 2 ^ n) (h : Twins i t leaves)
include hshaped hi h

lemma setParentHashes_variant
    {nodes : List (ℕ × ParentNode D)}
    (hok : t.setParentHashes H path i = .ok (t1, nodes, parentHash)) :
    ∃ hashes w, t1 = { t with treeHashes := hashes } ∧
      (t.variant leaves t.treeHashes).setParentHashes H path i =
        .ok (t.variant leaves w, nodes, parentHash) ∧ AgreeUpTo i 0 hashes w := by
  unfold setParentHashes at hok ⊢
  split_ifs at hok ⊢ with hempty
  · obtain ⟨rfl, hrest⟩ := Prod.mk.inj (Except.ok.inj hok)
    obtain ⟨rfl, rfl⟩ := Prod.mk.inj hrest
    exact ⟨t.treeHashes, t.treeHashes, rfl, rfl, .refl _ _ _⟩
  · obtain ⟨xs, hxs, hok⟩ := bind_inv hok
    obtain ⟨⟨t2, rootHash⟩, hupdate, hok⟩ := bind_inv hok
    obtain ⟨⟨linked, hash⟩, hlink, hok⟩ := bind_inv hok
    obtain ⟨rfl, hrest⟩ := Prod.mk.inj (pure_eq_ok.mp hok)
    obtain ⟨rfl, rfl⟩ := Prod.mk.inj hrest
    obtain ⟨hashes, w, rootHash', rfl, hupdate', hagree⟩ := updateTreeHashes_variant hshaped.size
      (.refl i 0 _) (h.diffLeaves t.treeHashes) h.listed hupdate
    have hcopath : (t.variant leaves t.treeHashes).filteredCopath i = .ok xs := by
      rw [filteredCopath_eq hshaped hi] at hxs
      rw [filteredCopath_eq (h.shaped hshaped _) hi, pathLevels_congr (h.agreeOff _) rfl, hxs]
    refine ⟨hashes, w, rfl, ?_, hagree⟩
    refine bind_ok hcopath (bind_ok hupdate' (bind_eq_ok.mpr ⟨(linked, hash), ?_, rfl⟩))
    refine (linkParentHashes_congr (fun e he => ?_) _).trans hlink
    -- a copath node is not on the path
    have hmem := mem_reverse.mp (of_mem_zip he).2
    rw [filteredCopath_eq hshaped hi] at hxs
    cases hxs
    obtain ⟨k, -, heq⟩ := mem_map.mp hmem
    rw [← heq, u32_at]
    exact hagree.index_eq fun _ => sib_ne _

lemma processUpdatePath_variant (hok : t.processUpdatePath H i path = .ok (t1, parentHash)) :
    ∃ w, (t.variant leaves t.treeHashes).processUpdatePath H i path =
        .ok (t1.variant leaves w, parentHash) ∧ AgreeUpTo i 0 t1.treeHashes w ∧
      Twins i t1 leaves ∧ t1.diff.size = t.diff.size := by
  obtain ⟨⟨t2, nodes, hash⟩, hset, hok⟩ := bind_inv hok
  obtain ⟨direct, hdirect, hok⟩ := bind_inv hok
  cases hok
  obtain ⟨hashes, w, rfl, hset', hagree⟩ := setParentHashes_variant hshaped hi h hset
  set d := direct.foldl (fun d j => d.modifyParent j fun _ => none) t.diff
  obtain ⟨m, hblanked⟩ : ∃ m, d = { t.diff with parentDiff := m } :=
    foldl_modifyParent_frame t.diff direct id fun _ _ => none
  obtain ⟨m', hwritten⟩ := foldl_modifyParent_frame d nodes Prod.fst fun e _ => some e.2
  have hframe : nodes.foldl (fun d e => d.modifyParent e.1 fun _ => some e.2) d =
      { t.diff with parentDiff := m' } := hwritten.trans (by rw [hblanked])
  refine ⟨w, ?_, hagree, ?_, (congrArg AbDiff.size hframe).trans rfl⟩
  · refine bind_ok hset' (bind_ok hdirect (?_))
    refine congrArg Except.ok (Prod.ext ?_ rfl)
    have hblanked' := foldl_modifyParent_variant t.diff leaves direct id fun _ _ => none
    have hwritten' := foldl_modifyParent_variant d leaves nodes Prod.fst fun e _ => some e.2
    exact congrArg (fun d' => (⟨d', w, t.blankedLeaves, t.numMembers⟩ : TreeSyncDiff D))
      ((congrArg (nodes.foldl fun d e => d.modifyParent e.1 fun _ => some e.2) hblanked').trans
        hwritten')
  · obtain ⟨m, x, y, hx, hy⟩ := h
    exact ⟨m, x, y, (congrArg AbDiff.leafDiff hframe).trans hx, hy⟩

end

/-! ## Committer and receiver -/

/-- The path nodes for the keys of a committer. -/
def keyNodes (H : HashSuite D) (nodes : List ℕ) (keys : ℕ → Key) : List (ℕ × ParentNode D) :=
  nodes.zip (((List.range nodes.length).map keys).map (ParentNode.ofKey H))

lemma setOwnPath_eq_ok (hnodes : t.filteredDirectPath i = .ok nodes)
    (hok : t.setOwnPath H i params keys = .ok (t1, l)) :
    ∃ t2 t3 parentHash rootHash, t.processUpdatePath H i (keyNodes H nodes keys) =
        .ok (t2, parentHash) ∧
      l = LeafNode.newWithParentHash parentHash params ∧
      t2.updateTreeHashes H [(i, some l)] = .ok (t3, rootHash) ∧
      t1 = { t3 with diff := t3.diff.replaceLeaf i (some l) } := by
  obtain ⟨nodes', hnodes', hok⟩ := bind_inv hok
  obtain rfl := Exec.unique hnodes' hnodes
  obtain ⟨⟨t2, parentHash⟩, hprocess, hok⟩ := bind_inv hok
  obtain ⟨⟨t3, rootHash⟩, hupdate, hok⟩ := bind_inv hok
  cases hok
  exact ⟨t2, t3, parentHash, rootHash, hprocess, rfl, hupdate, rfl⟩

/-- The checks of a receiver pass for a path of the right length and the signed parent hash. -/
lemma applyReceivedUpdatePath_of_ok {t0 t2 t3 : TreeSyncDiff D} {rootHash : D}
    (hl : l = LeafNode.newWithParentHash parentHash params) (hadd : t0.addSender i l = .ok t)
    (hnodes : t.filteredDirectPath i = .ok nodes)
    (hprocess : t.processUpdatePath H i (keyNodes H nodes keys) = .ok (t2, parentHash))
    (hupdate : t2.updateTreeHashes H [(i, some l)] = .ok (t3, rootHash)) :
    t0.applyReceivedUpdatePath H i ⟨l, (List.range nodes.length).map keys⟩ =
      .ok { t3 with diff := t3.diff.replaceLeaf i (some l) } := by
  refine bind_ok hadd (bind_ok (lift_eq_ok.mpr hnodes) (?_))
  rw [if_neg (by simp)]
  refine bind_ok (lift_eq_ok.mpr hprocess) (?_)
  subst hl
  show (if parentHash ≠ parentHash then _ else _) = _
  rw [if_neg (not_not.mpr rfl)]
  exact bind_ok (lift_eq_ok.mpr hupdate) rfl

lemma receivedPath_of_own (h : t.WellFormed n) (hi : (t.contents.leaf i).isSome)
    (hnodes : t.filteredDirectPath i = .ok nodes)
    (hok : t.setOwnPath H i params keys = .ok (t1, l)) :
    t.applyReceivedUpdatePath H i ⟨l, (List.range nodes.length).map keys⟩ = .ok t1 := by
  obtain ⟨t2, t3, parentHash, rootHash, hprocess, hl, hupdate, rfl⟩ := setOwnPath_eq_ok hnodes hok
  exact applyReceivedUpdatePath_of_ok hl (addSender_of_full h hi l) hnodes hprocess hupdate

lemma receivedPath_of_external (h : t.WellFormed n) (hi : t.contents.leaf i = none)
    {placeholder : LeafNode D} (hadd : t.addLeaf placeholder = .ok (t1, i))
    (hnodes : t1.filteredDirectPath i = .ok nodes)
    (hok : t1.setOwnPath H i params keys = .ok (t', l)) :
    ∃ leaves, leaves.Equiv t'.diff.leafDiff ∧
      t.applyReceivedUpdatePath H i ⟨l, (List.range nodes.length).map keys⟩ =
        .ok (t'.variant leaves t'.treeHashes) := by
  obtain ⟨t2, t3, parentHash, rootHash, hprocess, hl, hupdate, rfl⟩ := setOwnPath_eq_ok hnodes hok
  obtain ⟨leaves, htwins, hadd', hleaf⟩ := addLeaf_variant hadd l
  have hsender : t.addSender i l = .ok (t1.variant leaves t1.treeHashes) := by
    rw [addSender, if_pos (.inl (by rw [show t.diff.leaf i = none from hi]; rfl)), hadd']
    show (if i ≠ i then _ else _) = _
    rw [if_neg (not_not.mpr rfl)]
    rfl
  obtain ⟨n1, hshaped, hlt⟩ : ∃ n1, t1.diff.Shaped n1 ∧ i < 2 ^ n1 := by
    rcases addLeaf_spec h placeholder with hfull | ⟨t2, n1, hadd2, hedit⟩
    · rw [hadd] at hfull
      cases hfull
    · obtain ⟨rfl, rfl⟩ := Prod.mk.inj (Exec.unique hadd hadd2)
      exact ⟨n1, hedit.wellFormed.shaped, hedit.inside⟩
  obtain ⟨w, hprocess', hagree, htwins2, hsize⟩ :=
    processUpdatePath_variant hshaped hlt htwins hprocess
  obtain ⟨hashes, rfl, hupdate'⟩ :=
    updateTreeHashes_leaf_variant (n := n1) (by rw [hsize]; exact hshaped.size) hagree hupdate
  have hnodes' : (t1.variant leaves t1.treeHashes).filteredDirectPath i = .ok nodes := by
    rw [filteredDirectPath_eq hshaped hlt] at hnodes
    rw [filteredDirectPath_eq (htwins.shaped hshaped _) hlt,
      pathLevels_congr (htwins.agreeOff _) rfl, hnodes]
  refine ⟨leaves.insert i (some l), ?_,
    applyReceivedUpdatePath_of_ok hl hsender hnodes' hprocess' hupdate'⟩
  refine Std.TreeMap.Equiv.of_forall_constGet?_eq fun j => ?_
  show (leaves.insert i (some l))[j]? = (t2.diff.leafDiff.insert i (some l))[j]?
  rw [getElem?_insert_eq, getElem?_insert_eq]
  split_ifs with hj
  · rfl
  · exact htwins2.getElem? hj

/-- The same diff, node for node, with the same cache and the same counters. -/
structure Same (t t' : TreeSyncDiff D) : Prop where
  size : t.diff.size = t'.diff.size
  leaf : ∀ i, t.diff.leaf i = t'.diff.leaf i
  parent : ∀ j, t.diff.parent j = t'.diff.parent j
  treeHashes : t.treeHashes = t'.treeHashes
  blankedLeaves : t.blankedLeaves = t'.blankedLeaves
  numMembers : t.numMembers = t'.numMembers

omit [DecidableEq D] in
lemma same_variant (h : leaves.Equiv t.diff.leafDiff) : (t.variant leaves t.treeHashes).Same t where
  size := rfl
  leaf i := by
    unfold AbDiff.leaf
    rw [show (t.variant leaves t.treeHashes).diff.leafDiff[i]? = t.diff.leafDiff[i]? from
      h.getElem?_eq]
    rfl
  parent _ := rfl
  treeHashes := rfl
  blankedLeaves := rfl
  numMembers := rfl

end TreeSyncDiff

namespace PublicGroup

variable [DecidableEq D] {S P C : Type} {K : KemSuite D S P C} {rules : GroupView D}
  {g : PublicGroup D} {m : ℕ} {params : LeafNodeParameters} {rand : PathRandomness K}
  {request : CommitRequest D} {c : EncryptedCommit K} {r : PathComputationResult K}

/-- **What a receiver stages**: the diff of the committer, written in another order. -/
lemma createEncrypted_received (hwf : g.treesync.emptyDiff.WellFormed m)
    (h : g.createEncrypted K H rules params rand request = .ok c) (hr : c.path = some r) :
    ∃ t leaves, leaves.Equiv c.diff.diff.diff.leafDiff ∧
      applyProposals g.treesync.emptyDiff (request.proposals g) (some (request.committer g)) =
        .ok (t, c.values) ∧
      t.applyReceivedUpdatePath H (request.committer g) r.updatePath =
        .ok (c.diff.diff.variant leaves c.diff.diff.treeHashes) ∧
      PublicGroupDiff.updateGroupContext ⟨c.diff.diff, g.groupContext⟩ c.values.extensions =
        .ok c.diff := by
  cases request with
  | member own es selfUpdate =>
    obtain ⟨⟨t, happly⟩, length, hfor, hcreate⟩ := createEncryptedCommit_eq_ok h hr
    obtain ⟨values, t', n, us, added, hbuilt, -, hmade, -⟩ := createCommit_built hwf hcreate
    obtain ⟨rfl, hvalues⟩ := Prod.mk.inj (Exec.unique happly hbuilt.apply)
    have hwf1 := hbuilt.applied.changes.wellFormed hwf
    obtain ⟨nodes, hnodes, hkeys⟩ := hmade.nodes
    obtain ⟨leafParams, hset⟩ := hmade.set
    refine ⟨t, c.diff.diff.diff.leafDiff, .rfl, happly, ?_, hvalues ▸ hmade.context⟩
    dsimp only at hkeys
    rw [hfor.updatePath_eq (hmade.step hwf1 hbuilt.full), hkeys]
    exact receivedPath_of_own hwf1 hbuilt.full hnodes hset
  | external kemOutput credential signatureKey =>
    obtain ⟨⟨t, happly⟩, r', length, hr', hfor, hcreate⟩ := createEncryptedExternalCommit_eq_ok h
    obtain rfl := Option.mem_unique hr hr'
    obtain ⟨t', t1, values, n, n1, us, added, happly', -, happlied, hadd, hedit, hmade⟩ :=
      createExternalCommit_made hwf rfl rfl hcreate
    obtain ⟨rfl, hvalues⟩ := Prod.mk.inj (Exec.unique happly happly')
    obtain ⟨nodes, hnodes, hkeys⟩ := hmade.nodes
    obtain ⟨leafParams, hset⟩ := hmade.set
    obtain ⟨leaves, hequiv, hreceived⟩ := receivedPath_of_external
      (happlied.changes.wellFormed hwf) hedit.applies hadd hnodes hset
    refine ⟨t, leaves, hequiv, happly, ?_, hvalues ▸ hmade.context⟩
    dsimp only at hkeys
    rw [hfor.updatePath_eq (hmade.step hedit.wellFormed hedit.full_of_add), hkeys]
    exact hreceived

variable {d : PublicGroupDiff D} {leaves : Std.TreeMap ℕ (TreeSyncLeafNode D)}

omit [DecidableEq D] in
lemma updateGroupContext_variant {t : TreeSyncDiff D} {groupContext : GroupContext D}
    {extensions : Option Bytes}
    (h : PublicGroupDiff.updateGroupContext ⟨t, groupContext⟩ extensions = .ok d) :
    PublicGroupDiff.updateGroupContext ⟨t.variant leaves t.treeHashes, groupContext⟩ extensions =
      .ok ⟨t.variant leaves t.treeHashes, d.groupContext⟩ := by
  obtain ⟨treeHash, hroot, rfl⟩ := PublicGroupDiff.updateGroupContext_eq_ok h
  exact bind_ok hroot rfl

omit [DecidableEq D] in
lemma mergeDiff_variant (h : leaves.Equiv d.diff.diff.leafDiff) :
    g.mergeDiff ⟨d.diff.variant leaves d.diff.treeHashes, d.groupContext⟩ = g.mergeDiff d := by
  have hflush : ∀ v, flush v leaves = flush v d.diff.diff.leafDiff := fun v => by
    rw [flush, flush, h.toList_eq]
  unfold mergeDiff TreeSyncDiff.intoStagedDiff
  simp only [TreeSyncDiff.variant]
  cases index d.diff.treeHashes (root d.diff.diff.size).u32 with
  | error e => rfl
  | ok x =>
    refine congrArg Except.ok ?_
    simp only [TreeSync.mergeDiff, ABinaryTree.mergeDiff, hflush]

/-- **Committer and receiver meet in the same tree.**  Every receiver accepts the encrypted path,
    has the diff and the context of the committer, and merges into the same group. -/
theorem path_agreement (H : HashSuite D) (K : KemSuite D S P C) (rules : GroupView D)
    {g : PublicGroup D}
    (h : (groupRuns H rules fun g => g.Founded H ∨ g.Started H).Reaches (fun _ _ => True) g)
    (request : CommitRequest D) (params : LeafNodeParameters) (rand : PathRandomness K)
    {c : EncryptedCommit K} {r : PathComputationResult K}
    (hc : g.createEncrypted K H rules params rand request = .ok c) (hr : c.path = some r)
    (receiver : Option ℕ) :
    ∃ t values t' d, applyProposals g.treesync.emptyDiff (request.proposals g) receiver =
        .ok (t, values) ∧
      t.applyReceivedUpdatePath H (request.committer g) r.updatePath = .ok t' ∧
      t'.Same c.diff.diff ∧
      PublicGroupDiff.updateGroupContext ⟨t', g.groupContext⟩ values.extensions = .ok d ∧
      d.groupContext = c.diff.groupContext ∧ g.mergeDiff d = g.mergeDiff c.diff := by
  obtain ⟨n, hformed⟩ := formed_of_reaches (fun _ hg => hg) h
  obtain ⟨t, leaves, hequiv, happly, hreceived, hcontext⟩ :=
    createEncrypted_received hformed.wellFormed hc hr
  exact ⟨t, _, _, _, applyProposals_eq_ok happly receiver, hreceived, same_variant hequiv,
    updateGroupContext_variant hcontext, rfl, mergeDiff_variant hequiv⟩

/-- One member is removed.  Then another one updates, or the removed one joins from outside. -/
theorem path_agreement_rejoin :
    ∃ g, smallRun (fun _ _ => true) [invites [1, 2, 3], memberCommit 0 [.remove 1] 2000] = some g ∧
      ∀ request ∈ [CommitRequest.member 2 [] true, .external [] "u" 201],
        ∃ c r t values t', g.createEncrypted plainKem plainHash lenientRules
            ⟨0, none, []⟩ (plainRandomness 3000) request = .ok c ∧ c.path = some r ∧
          r.encryptedPath.length = 2 ∧
          applyProposals g.treesync.emptyDiff (request.proposals g) none = .ok (t, values) ∧
          t.applyReceivedUpdatePath plainHash (request.committer g) r.updatePath =
            .ok t' ∧
          t'.Same c.diff.diff := by
  obtain ⟨g, hg, hcreated⟩ : ∃ g ∈ smallRun (fun _ _ => true)
      [invites [1, 2, 3], memberCommit 0 [.remove 1] 2000],
      ∀ request ∈ [CommitRequest.member 2 [] true, .external [] "u" 201],
        ∃ c ∈ (g.createEncrypted plainKem plainHash lenientRules ⟨0, none, []⟩
          (plainRandomness 3000) request).toOption, ∃ r ∈ c.path, r.encryptedPath.length = 2 := by
    decide +kernel
  refine ⟨g, hg, fun request hrequest => ?_⟩
  obtain ⟨c, hc, r, hr, hlength⟩ := hcreated request hrequest
  have hc := toOption_eq_some.mp hc
  obtain ⟨t, values, t', d, happly, hreceived, hsame, -⟩ :=
    path_agreement plainHash plainKem lenientRules
      (reaches_smallRun (fun _ hg => .inl ⟨_, _, hg⟩) (fun _ _ _ => trivial) hg) request _ _ hc hr
      none
  exact ⟨c, r, t, values, t', hc, hr, hlength, happly, hreceived, hsame⟩

end PublicGroup

end EmulatedMls
