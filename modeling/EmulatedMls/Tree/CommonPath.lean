import EmulatedMls.Tree.Resolution
import EmulatedMls.Tree.TreeKem

/-!
# Where two leaves meet

The paths of two leaves are apart up to a level and the same from there on.  Sender and receiver of
a path each compute that level, by other functions.
-/

namespace EmulatedMls

open List

/-- The nodes of level `m` above the leaves `i` and `j` are siblings. -/
def MeetAt (m i j : ℕ) : Prop := j / 2 ^ m = sib (i / 2 ^ m)

namespace MeetAt

variable {m i j k : ℕ}

protected lemma symm (h : MeetAt m i j) : MeetAt m j i := by
  unfold MeetAt at h ⊢
  rcases sib_cases (i / 2 ^ m) with ⟨_, _⟩ | ⟨_, _⟩ <;>
    rcases sib_cases (j / 2 ^ m) with ⟨_, _⟩ | ⟨_, _⟩ <;> omega

lemma above (h : MeetAt m i j) (hk : m < k) : j / 2 ^ k = i / 2 ^ k := by
  obtain ⟨d, rfl⟩ := Nat.exists_eq_add_of_le (Nat.succ_le_of_lt hk)
  have hnext : j / 2 ^ (m + 1) = i / 2 ^ (m + 1) := by
    rw [div_two_pow_succ, div_two_pow_succ, h, sib_div_two]
  rw [Nat.succ_eq_add_one, pow_add, ← Nat.div_div_eq_div_mul, ← Nat.div_div_eq_div_mul, hnext]

lemma below (h : MeetAt m i j) (hk : k ≤ m) : j / 2 ^ k ≠ i / 2 ^ k := fun heq => by
  obtain ⟨d, rfl⟩ := Nat.exists_eq_add_of_le hk
  refine sib_ne (i / 2 ^ (k + d)) (Eq.trans (Eq.symm h) ?_)
  rw [pow_add, ← Nat.div_div_eq_div_mul, ← Nat.div_div_eq_div_mul, heq]

end MeetAt

/-! ## Indices -/

variable {x y d : ℕ}

lemma shiftUntilEqual_eq {bits k : ℕ} (hd : d ≤ bits) (heq : x / 2 ^ d = y / 2 ^ d)
    (hne : ∀ e < d, x / 2 ^ e ≠ y / 2 ^ e) : shiftUntilEqual bits x y k = (x / 2 ^ d, k + d) := by
  induction d generalizing bits x y k with
  | zero =>
    rw [pow_zero, Nat.div_one, Nat.div_one] at heq
    rw [pow_zero, Nat.div_one]
    cases bits with
    | zero => rfl
    | succ bits => exact if_pos heq
  | succ d ih =>
    obtain ⟨bits, rfl⟩ := Nat.exists_eq_add_of_le' (Nat.one_le_of_lt hd)
    have hhalf : ∀ z e, z / 2 / 2 ^ e = z / 2 ^ (e + 1) := fun z e => by
      rw [Nat.div_div_eq_div_mul, ← pow_succ']
    have hxy : x ≠ y := by simpa using hne 0 (Nat.succ_pos d)
    rw [shiftUntilEqual, if_neg hxy, Nat.shiftRight_one, Nat.shiftRight_one,
      ih (Nat.le_of_succ_le_succ hd) (by rw [hhalf, hhalf, heq])
        fun e he => by rw [hhalf, hhalf]; exact hne (e + 1) (by omega), hhalf]
    exact congrArg (Prod.mk _) (by omega)

variable {D : Type} {m n i j : ℕ}

lemma lowestCommonAncestor_eq (h : MeetAt m i j) (hm : m < 31) :
    lowestCommonAncestor i j = inorder m (i / 2 ^ (m + 1)) := by
  have hu32 : ∀ i, (TreeNodeIndex.leaf i).u32 = 2 * i := u32_at 0
  have hlevel : ∀ i, level (2 * i) = 0 := fun i => level_inorder 0 i
  have hdiv : ∀ i e, 2 * i / 2 ^ (e + 1) = i / 2 ^ e := fun i e => by
    rw [pow_succ', Nat.mul_div_mul_left _ _ Nat.two_pos]
  have hne : i ≠ j := fun heq => h.below (Nat.zero_le m) (by rw [heq])
  have hloop : shiftUntilEqual 32 (2 * i) (2 * j) 0 = (i / 2 ^ (m + 1), m + 2) := by
    rw [shiftUntilEqual_eq (d := m + 2) (by omega) (by rw [hdiv, hdiv, h.above (by omega)]), hdiv]
    · simp
    · intro e he
      cases e with
      | zero => omega
      | succ e =>
        rw [hdiv, hdiv]
        exact (h.below (by omega)).symm
  unfold lowestCommonAncestor
  simp only [hu32, hlevel, Nat.zero_add, Nat.shiftRight_one, le_refl, true_and]
  rw [if_neg (by omega), if_neg (by omega), hloop]
  show ((i / 2 ^ (m + 1)) <<< (m + 2) + 1 <<< (m + 1) - 1 - 1) / 2 = _
  have hval := inorder_add_one m (i / 2 ^ (m + 1))
  rw [Nat.shiftLeft_eq, Nat.shiftLeft_eq, one_mul,
    show i / 2 ^ (m + 1) * 2 ^ (m + 2) + 2 ^ (m + 1) =
      2 * (2 ^ m * (2 * (i / 2 ^ (m + 1)) + 1)) by ring, ← hval]
  omega

lemma subtreeRootCopathNode_eq (h : MeetAt m i j) (hm : m < 31) :
    subtreeRootCopathNode i j = nodeAt m (j / 2 ^ m) := by
  have hj : j / 2 ^ m = sib (i / 2 ^ m) := h
  rw [subtreeRootCopathNode, lowestCommonAncestor_eq h hm, left_inorder, right_inorder,
    div_two_pow_succ, hj]
  rcases sib_cases (i / 2 ^ m) with ⟨hpos, hsib⟩ | ⟨hpos, hsib⟩
  · rw [if_neg, hsib]
    intro hlt
    have := Nat.div_le_div_right (c := 2 ^ m) (le_of_lt hlt)
    omega
  · rw [if_pos, hsib]
    by_contra hge
    have := Nat.div_le_div_right (c := 2 ^ m) (Nat.not_lt.mp hge)
    omega

/-! ## Common paths -/

lemma commonTop_append (zs xs ys : List ℕ) :
    commonTop (zs ++ xs) (zs ++ ys) = zs ++ commonTop xs ys := by
  induction zs with
  | nil => rfl
  | cons z zs ih => rw [cons_append, cons_append, commonTop, if_pos rfl, ih]; rfl

lemma commonTop_eq_nil {xs ys : List ℕ} (h : ∀ x ∈ xs, ∀ y ∈ ys, x ≠ y) : commonTop xs ys = [] := by
  cases xs with
  | nil => rfl
  | cons x xs =>
    cases ys with
    | nil => rfl
    | cons y ys => exact if_neg (h x (by simp) y (by simp))

variable {low high : List ℕ}

/-- The common part of two paths is that at the levels `high`. -/
lemma commonTop_levels (h : MeetAt m i j) {low' : List ℕ} (hlow : ∀ k ∈ low, k ∈ low' → k < m)
    (hhigh : ∀ k ∈ high, m ≤ k) :
    (commonTop ((low' ++ high).map fun k => inorder k (j / 2 ^ (k + 1))).reverse
      ((low ++ high).map fun k => inorder k (i / 2 ^ (k + 1))).reverse).reverse =
      high.map fun k => inorder k (i / 2 ^ (k + 1)) := by
  have hsame : (high.map fun k => inorder k (j / 2 ^ (k + 1))) =
      high.map fun k => inorder k (i / 2 ^ (k + 1)) := map_congr_left fun k hk => by
    rw [h.above (Nat.lt_succ_of_le (hhigh k hk))]
  have hapart : commonTop (low'.map fun k => inorder k (j / 2 ^ (k + 1))).reverse
      (low.map fun k => inorder k (i / 2 ^ (k + 1))).reverse = [] := by
    refine commonTop_eq_nil fun x hx y hy heq => ?_
    obtain ⟨k', hk', rfl⟩ := mem_map.mp (mem_reverse.mp hx)
    obtain ⟨k, hk, rfl⟩ := mem_map.mp (mem_reverse.mp hy)
    obtain ⟨rfl, hpos⟩ := inorder_inj heq
    exact h.below (hlow k' hk hk') hpos
  rw [map_append, map_append, reverse_append, reverse_append, hsame,
    commonTop_append, hapart, append_nil, reverse_reverse]

/-- The path of a leaf from level `m` on. -/
def upperPath (m n i : ℕ) : List ℕ :=
  (List.range' m (n - m)).map fun k => inorder k (i / 2 ^ (k + 1))

lemma range_split (hm : m < n) : List.range n = List.range m ++ List.range' m (n - m) := by
  have happend := range'_append_1 (s := 0) (m := m) (n := n - m)
  rw [Nat.zero_add, Nat.add_sub_of_le (le_of_lt hm)] at happend
  rw [range_eq_range', range_eq_range', happend]

/-- `common_direct_path`: the nodes from the level at which the leaves meet to the root. -/
lemma commonDirectPath_eq (h : MeetAt m i j) (hm : m < n) (hi : i < 2 ^ n) (hj : j < 2 ^ n) :
    commonDirectPath j i (.ofDepth n) = .ok (upperPath m n i) := by
  rw [commonDirectPath, directPath_ofDepth hi, directPath_ofDepth hj]
  refine congrArg Except.ok ?_
  rw [pathNodes, pathNodes, range_split hm]
  refine commonTop_levels h (fun k hk _ => mem_range.mp hk) fun k hk => ?_
  exact (mem_range'_1.mp hk).1

lemma pathNodes_split (hm : m < n) : pathNodes n i = pathNodes m i ++ upperPath m n i := by
  rw [pathNodes, range_split hm, map_append]
  rfl

lemma upperPath_cons (hm : m < n) :
    upperPath m n i = inorder m (i / 2 ^ (m + 1)) :: upperPath (m + 1) n i := by
  rw [upperPath, show n - m = n - (m + 1) + 1 by omega, range'_succ, map_cons]
  rfl

lemma dropWhile_pathNodes (hm : m < n) :
    (pathNodes n i).dropWhile (· ≠ inorder m (i / 2 ^ (m + 1))) = upperPath m n i := by
  have h := takeWhile_append_dropWhile (l := pathNodes n i)
    (p := fun j => decide (j ≠ inorder m (i / 2 ^ (m + 1))))
  rw [takeWhile_pathNodes hm, pathNodes_split hm] at h
  rw [pathNodes_split hm]
  exact append_cancel_left h

lemma MeetAt.upperPath (h : MeetAt m i j) : upperPath m n j = upperPath m n i :=
  map_congr_left fun k hk => by
    rw [h.above (Nat.lt_succ_of_le (mem_range'_1.mp hk).1)]

lemma find?_pathNodes (h : MeetAt m i j) (hm : m < n) :
    (pathNodes n i).find? (· ∈ pathNodes n j) = some (inorder m (i / 2 ^ (m + 1))) := by
  have hnone : (pathNodes m i).find? (· ∈ pathNodes n j) = none := by
    refine find?_eq_none.mpr fun x hx => ?_
    obtain ⟨k, hk, rfl⟩ := mem_map.mp hx
    rw [decide_eq_true_eq, mem_pathNodes]
    exact fun hmem => h.below (mem_range.mp hk) hmem.2.symm
  rw [pathNodes_split (i := i) hm, find?_append, hnone, upperPath_cons hm, find?_cons_of_pos]
  · rfl
  · rw [decide_eq_true_eq, mem_pathNodes]
    exact ⟨hm, (h.above (by omega)).symm⟩

namespace TreeSyncDiff

variable {t : TreeSyncDiff D}

/-! ## Filtered paths -/

lemma pairwise_pathLevels (t : TreeSyncDiff D) (n i : ℕ) : (t.pathLevels n i).Pairwise (· < ·) :=
  pairwise_lt_range.filter _

lemma exists_split_pathLevels (h : m ∈ t.pathLevels n i) :
    ∃ low high, t.pathLevels n i = low ++ m :: high ∧ (∀ k ∈ low, k < m) ∧ ∀ k ∈ high, m < k := by
  obtain ⟨low, high, heq⟩ := append_of_mem h
  have hsorted := pairwise_pathLevels t n i
  rw [heq, pairwise_append, pairwise_cons] at hsorted
  exact ⟨low, high, heq, fun k hk => hsorted.2.2 k hk m (by simp), hsorted.2.1.1⟩

lemma filter_split (hlow : ∀ k ∈ low, k < m) (hhigh : ∀ k ∈ high, m < k) :
    (low ++ m :: high).filter (m < ·) = high := by
  have hnil : low.filter (m < ·) = [] := filter_eq_nil_iff.mpr fun k hk => by
    simpa using le_of_lt (hlow k hk)
  have hself : high.filter (m < ·) = high := filter_eq_self.mpr (by simpa using hhigh)
  rw [filter_append, filter_cons_of_neg (by simp), hnil, hself, nil_append]

lemma filter_pathLevels (h : MeetAt m i j) :
    (t.pathLevels n j).filter (m < ·) = (t.pathLevels n i).filter (m < ·) := by
  rw [pathLevels, pathLevels, filter_filter, filter_filter]
  refine filter_congr fun k _ => ?_
  by_cases hk : m < k
  · rw [h.above hk]
  · simp [hk]

lemma WellFormed.le_rightmostFullLeaf (h : t.WellFormed n) (hj : (t.contents.leaf j).isSome) :
    j ≤ t.rightmostFullLeaf := by
  rw [h.rightmostFullLeaf]
  have := h.lt_slots hj
  omega

/-- The full leaves `i` and `j` meet at level `m` of the filtered path of `i`. -/
structure Meeting (t : TreeSyncDiff D) (n i j m : ℕ) (low high : List ℕ) : Prop where
  wellFormed : t.WellFormed n
  sender : (t.contents.leaf i).isSome
  receiver : (t.contents.leaf j).isSome
  meet : MeetAt m i j
  inside : m < n
  split : t.pathLevels n i = low ++ m :: high
  low : ∀ k ∈ low, k < m
  high : ∀ k ∈ high, m < k

lemma exists_meeting (hwf : t.WellFormed n) (hi : (t.contents.leaf i).isSome)
    (hj : (t.contents.leaf j).isSome) (hne : j ≠ i) : ∃ m low high, t.Meeting n i j m low high := by
  obtain ⟨m, hm, hmeet⟩ := exists_sib (hwf.lt_pow hi) (hwf.lt_pow hj) hne
  obtain ⟨low, high, hsplit, hlow, hhigh⟩ := exists_split_pathLevels
    (mem_pathLevels.mpr ⟨hm, resolution_ne_nil hj hmeet (hwf.le_rightmostFullLeaf hj)⟩)
  exact ⟨m, low, high, hwf, hi, hj, hmeet, hm, hsplit, hlow, hhigh⟩

namespace Meeting

variable {low high : List ℕ}

variable (h : t.Meeting n i j m low high)
include h

lemma lt : m < 31 := by
  have := h.inside
  have := h.wellFormed.depth
  omega

protected lemma symm : ∃ low', t.Meeting n j i m low' high := by
  obtain ⟨low', high', hsplit, hlow, hhigh⟩ := exists_split_pathLevels (mem_pathLevels.mpr
    ⟨h.inside, resolution_ne_nil h.sender h.meet.symm (h.wellFormed.le_rightmostFullLeaf h.sender)⟩)
  obtain rfl : high' = high := by
    have := filter_pathLevels (t := t) (n := n) h.meet
    rwa [h.split, hsplit, filter_split h.low h.high, filter_split hlow hhigh] at this
  exact ⟨low', h.wellFormed, h.receiver, h.sender, h.meet.symm, h.inside, hsplit, hlow, hhigh⟩

/-- `subtree_root_position`: the number of nodes below the one at which the leaves meet. -/
lemma subtreeRootPosition_eq : t.subtreeRootPosition i j = .ok low.length := by
  have hfind : (List.map (fun k => inorder k (i / 2 ^ (k + 1))) (low ++ m :: high)).findIdx?
      (· = inorder m (i / 2 ^ (m + 1))) = some low.length := by
    have hnone : (low.map fun k => inorder k (i / 2 ^ (k + 1))).findIdx?
        (· = inorder m (i / 2 ^ (m + 1))) = none := by
      refine findIdx?_eq_none_iff.mpr fun x hx => ?_
      obtain ⟨k, hk, rfl⟩ := mem_map.mp hx
      refine decide_eq_false fun heq => ?_
      exact absurd (inorder_inj heq).1 (ne_of_lt (h.low k hk))
    rw [map_append, findIdx?_append, hnone, map_cons, findIdx?_cons]
    simp
  rw [subtreeRootPosition, filteredDirectPath_eq h.wellFormed.shaped (h.wellFormed.lt_pow h.sender),
    lowestCommonAncestor_eq h.meet h.lt, h.split]
  simp only [TreeSyncDiffError.lift, bind, Except.bind, hfind]
  rfl

lemma lowestCommonAncestor_mem :
    ∃ nodes, t.filteredDirectPath i = .ok nodes ∧
      nodes[low.length]? = some (lowestCommonAncestor i j) := by
  refine ⟨_, filteredDirectPath_eq h.wellFormed.shaped (h.wellFormed.lt_pow h.sender), ?_⟩
  rw [h.split, getElem?_map, getElem?_append_right (le_refl _), Nat.sub_self,
    lowestCommonAncestor_eq h.meet h.lt]
  rfl

/-- `filtered_common_direct_path`: the filtered path from the node at which the leaves meet. -/
lemma filteredCommonDirectPath_eq :
    t.filteredCommonDirectPath j i =
      .ok ((m :: high).map fun k => inorder k (i / 2 ^ (k + 1))) := by
  obtain ⟨low', h'⟩ := h.symm
  rw [filteredCommonDirectPath,
    filteredDirectPath_eq h.wellFormed.shaped (h.wellFormed.lt_pow h.sender),
    filteredDirectPath_eq h.wellFormed.shaped (h.wellFormed.lt_pow h.receiver), h.split, h'.split]
  refine congrArg Except.ok (commonTop_levels h.meet (fun k hk _ => h.low k hk) fun k hk => ?_)
  rcases mem_cons.mp hk with rfl | hk
  · exact le_refl k
  · exact le_of_lt (h.high k hk)

end Meeting

/-- **The common part of two filtered paths** is what both have of the common path. -/
lemma filteredCommonDirectPath_eq_filter (h : MeetAt m i j) (hm : m < n) (hs : t.diff.Shaped n)
    (hi : i < 2 ^ n) (hj : j < 2 ^ n) :
    ∃ xs ys, t.filteredDirectPath i = .ok xs ∧ t.filteredDirectPath j = .ok ys ∧
      t.filteredCommonDirectPath j i = .ok ((upperPath m n i).filter fun x => x ∈ xs ∧ x ∈ ys) := by
  refine ⟨_, _, filteredDirectPath_eq hs hi, filteredDirectPath_eq hs hj, ?_⟩
  rw [filteredCommonDirectPath, filteredDirectPath_eq hs hi, filteredDirectPath_eq hs hj]
  refine congrArg Except.ok ?_
  -- the level `m` is common if neither of its children is empty; above it the paths agree
  set P := fun k => !(t.resolution (nodeAt k (sib (i / 2 ^ k))) [] t.rightmostFullLeaf).isEmpty
    with hP
  set Q := fun k => !(t.resolution (nodeAt k (sib (j / 2 ^ k))) [] t.rightmostFullLeaf).isEmpty
    with hQ
  have hPQ : ∀ k ∈ List.range' (m + 1) (n - (m + 1)), Q k = P k := fun k hk => by
    simp only [hP, hQ, h.above (mem_range'_1.mp hk).1]
  have hlevels (R R' : ℕ → Bool) : (List.range n).filter R = ((List.range m).filter R ++
      [m].filter fun k => R k && !R' k) ++ (([m].filter fun k => R k && R' k) ++
        (List.range' (m + 1) (n - (m + 1))).filter R) := by
    rw [range_split hm, show n - m = n - (m + 1) + 1 by omega, range'_succ]
    cases hR : R m <;> cases hR' : R' m <;> simp [hR, hR']
  have hi' := hlevels P Q
  have hj' := hlevels Q P
  rw [filter_congr hPQ, show (fun k => Q k && P k) = fun k => P k && Q k by
    simp only [Bool.and_comm]] at hj'
  unfold pathLevels
  rw [hi', hj', commonTop_levels h]
  · rw [← hi', ← hj', upperPath, filter_map]
    refine congrArg (List.map _) (Eq.trans (b := (List.range' m (n - m)).filter fun k => P k && Q k)
      ?_ (filter_congr fun k hk => ?_))
    · have hupper : (List.range' (m + 1) (n - (m + 1))).filter P =
          (List.range' (m + 1) (n - (m + 1))).filter fun k => P k && Q k :=
        filter_congr fun k hk => by rw [hPQ k hk, Bool.and_self]
      rw [hupper, ← filter_append, show n - m = n - (m + 1) + 1 by omega, range'_succ]
      rfl
    · obtain ⟨hmk, hkn⟩ := mem_range'_1.mp hk
      simp [-mem_map, mem_map_inorder, h.above (Nat.lt_succ_of_le hmk), show k < n by omega]
  · intro k hk hk'
    simp only [mem_append, mem_filter, mem_range, mem_singleton] at hk hk'
    grind
  · intro k hk
    simp only [mem_append, mem_filter, mem_range'_1, mem_singleton] at hk
    omega

/-! ## Resolutions -/

lemma filterResolution_eq (excluded : List ℕ) (rs : List (TreeNodeIndex × NodeReference D)) :
    filterResolution excluded rs = withoutLeaves excluded rs := by
  rw [filterResolution, withoutLeaves, ← filterMap_eq_filter]
  refine filterMap_congr fun e _ => ?_
  obtain ⟨x, q⟩ := e
  cases x with
  | leaf i => by_cases hi : i ∈ excluded <;> simp [Option.guard, hi]
  | parent i => simp [Option.guard]

end TreeSyncDiff

/-- **Where two leaves meet**, computed in four ways, in every session also on filtered paths. -/
theorem common_ancestors [DecidableEq D] (H : HashSuite D) (hd : d ≤ 29)
    (hx : x < (TreeSize.ofDepth d).leafCount) (hy : y < (TreeSize.ofDepth d).leafCount)
    (hne : x ≠ y) :
    ∃ xs ys, directPath x (.ofDepth d) = .ok xs ∧ directPath y (.ofDepth d) = .ok ys ∧
      xs.find? (· ∈ ys) = some (lowestCommonAncestor x y) ∧
      commonDirectPath x y (.ofDepth d) = .ok (xs.dropWhile (· ≠ lowestCommonAncestor x y)) ∧
      subtreeRootCopathNode x y ∈
        [left (lowestCommonAncestor x y), right (lowestCommonAncestor x y)] ∧
      subtreeRootCopathNode x y ∈ leafToRoot y ys ∧
      ∀ s, (sessions H).Reaches (fun s o => o.OfMember s) s → s.diff.diff.size = .ofDepth d →
        ∃ fx fy common, s.diff.filteredDirectPath x = .ok fx ∧
          s.diff.filteredDirectPath y = .ok fy ∧ commonDirectPath x y (.ofDepth d) = .ok common ∧
          s.diff.filteredCommonDirectPath x y = .ok (common.filter fun j => j ∈ fx ∧ j ∈ fy) := by
  rw [TreeSize.leafCount_ofDepth] at hx hy
  obtain ⟨m, hm, hmeet⟩ : ∃ m < d, MeetAt m x y := exists_sib hx hy hne.symm
  have hcommon := commonDirectPath_eq hmeet.symm hm hy hx
  rw [hmeet.upperPath] at hcommon
  refine ⟨_, _, directPath_ofDepth hx, directPath_ofDepth hy, ?_, ?_, ?_, ?_, fun s hs hsize => ?_⟩
  · rw [find?_pathNodes hmeet hm, lowestCommonAncestor_eq hmeet (by omega)]
  · rw [hcommon, lowestCommonAncestor_eq hmeet (by omega), dropWhile_pathNodes hm]
  · rw [subtreeRootCopathNode]
    split_ifs <;> simp
  · rw [subtreeRootCopathNode_eq hmeet (by omega), leafToRoot, leaf_cons_pathNodes]
    exact mem_map.mpr ⟨m, mem_range.mpr (by omega), rfl⟩
  · obtain ⟨⟨-, ⟨n, hn⟩, -⟩, -⟩ := Session.invariant stable_placed
      (fun _ _ hfresh hwf => TreeSync.placed_of_fresh hfresh hwf) hs
    obtain rfl : n = d := Nat.pow_right_injective (le_refl 2)
      (by simpa using congrArg TreeSize.leafCount (hn.shaped.size.symm.trans hsize))
    obtain ⟨fy, fx, hfy, hfx, heq⟩ :=
      TreeSyncDiff.filteredCommonDirectPath_eq_filter hmeet.symm hm hn.shaped hy hx
    refine ⟨fx, fy, _, hfx, hfy, hcommon, ?_⟩
    rw [heq, hmeet.upperPath]
    simp only [and_comm]

/-- In a tree with three members the first two share the two parents above them. -/
theorem common_ancestors_session :
    ∃ s, smallSession (fun s o => decide (o.OfMember s))
        [.addLeaf (memberLeaf 1), .addLeaf (memberLeaf 2)] = some s ∧
      s.diff.diff.size = .ofDepth 2 ∧
      ∃ fx fy common, s.diff.filteredDirectPath 0 = .ok fx ∧ s.diff.filteredDirectPath 1 = .ok fy ∧
        commonDirectPath 0 1 (.ofDepth 2) = .ok common ∧
        s.diff.filteredCommonDirectPath 0 1 = .ok (common.filter fun j => j ∈ fx ∧ j ∈ fy) := by
  obtain ⟨-, -, -, -, -, -, -, -, hcommon⟩ := common_ancestors plainHash (d := 2) (by decide)
    (show 0 < _ by decide) (show 1 < _ by decide) (by decide)
  exact exists_some_and (by decide +kernel) fun s hs hsize =>
    hcommon s (reaches_smallSession (fun _ _ h => of_decide_eq_true h) hs) hsize

end EmulatedMls
