import EmulatedMls.Lib.Exec
import EmulatedMls.Lib.InOrder
import EmulatedMls.Mls.Data
import Mathlib.Data.List.Nodup

/-!
# Tree arithmetic

The nodes of the ratchet tree are numbered in order, and the neighbours of a node are found by
operations on the binary digits of its number.

**Source.**  `binary_tree/array_representation/treemath.rs`.

**Machine integers.**  Indices and numbers of nodes are `u32` in the source.  A tree has at most
`2 ^ 30` nodes, so the operations below do not overflow on the nodes of a tree.

**Coordinates.**  The proofs speak of the node at position `p` of level `k`, which is
`nodeAt k p`.  The simp lemmas of this file say what each function does to coordinates;
no later proof looks at the digits.
-/

namespace EmulatedMls

open List

def maxTreeSize : ℕ := 1 <<< 30

def minTreeSize : ℕ := 1

/-- `TreeNodeIndex`.  Leaves and parents are counted separately. -/
inductive TreeNodeIndex where
  | leaf (i : ℕ)
  | parent (j : ℕ)
  deriving DecidableEq, Repr

namespace TreeNodeIndex

def new (x : ℕ) : TreeNodeIndex := if x % 2 = 0 then .leaf (x / 2) else .parent ((x - 1) / 2)

def u32 : TreeNodeIndex → ℕ
  | .leaf i => i * 2
  | .parent j => j * 2 + 1

end TreeNodeIndex

/-! ## Sizes -/

structure TreeSize where
  u32 : ℕ
  deriving DecidableEq, Repr

namespace TreeSize

/-- `TreeSize::new`: the smallest full tree with this many nodes. -/
def new (nodes : ℕ) : TreeSize := ⟨(1 <<< (Nat.log2 nodes + 1)) - 1⟩

def leafCount (s : TreeSize) : ℕ := s.u32 / 2 + 1

def parentCount (s : TreeSize) : ℕ := s.u32 / 2

def leafIsLeft (s : TreeSize) (i : ℕ) : Bool := decide (i < s.leafCount / 2)

def inc (s : TreeSize) : TreeSize := ⟨s.u32 * 2 + 1⟩

def dec (s : TreeSize) : TreeSize := if 2 ≤ s.u32 then ⟨(s.u32 + 1) / 2 - 1⟩ else ⟨0⟩

end TreeSize

/-! ## Neighbours -/

/-- The loop of `level`, for at most `fuel` digits. -/
def levelLoop (x : ℕ) : ℕ → ℕ → ℕ
  | 0, k => k
  | fuel + 1, k => if x >>> k &&& 1 = 1 then levelLoop x fuel (k + 1) else k

/-- `level`: the number of ones at the end.  It is at most `x`. -/
def level (x : ℕ) : ℕ := if x &&& 1 = 0 then 0 else levelLoop x x 0

def root (s : TreeSize) : TreeNodeIndex := .new ((1 <<< Nat.log2 s.u32) - 1)

def left (j : ℕ) : TreeNodeIndex :=
  let x := (TreeNodeIndex.parent j).u32
  .new (x ^^^ (1 <<< (level x - 1)))

/-- `leftmost`.  The source subtracts before it adds, which wraps around at the left edge. -/
def leftmost (j : ℕ) : TreeNodeIndex :=
  let x := (TreeNodeIndex.parent j).u32
  .new (x + 1 - (1 <<< level x))

def right (j : ℕ) : TreeNodeIndex :=
  let x := (TreeNodeIndex.parent j).u32
  .new (x ^^^ (3 <<< (level x - 1)))

/-- `parent`.  It does not know the size of the tree. -/
def parent (x : TreeNodeIndex) : ℕ :=
  let k := level x.u32
  let b := x.u32 >>> (k + 1) &&& 1
  (((x.u32 ||| (1 <<< k)) ^^^ (b <<< (k + 1))) - 1) / 2

def sibling (x : TreeNodeIndex) : TreeNodeIndex :=
  let p := parent x
  if x.u32 < (TreeNodeIndex.parent p).u32 then right p else left p

/-- The loop of `direct_path`, which ends at the root `r`. -/
def directPathLoop (r : ℕ) : ℕ → ℕ → Exec (List ℕ)
  | 0, x => if x = r then .ok [] else .error .fuel
  | fuel + 1, x =>
    if x = r then .ok []
    else
      let p := parent (.new x)
      do
        let rest ← directPathLoop r fuel (TreeNodeIndex.parent p).u32
        pure (p :: rest)

/-- `direct_path`.  For a leaf outside of the tree the loop never meets the root. -/
def directPath (i : ℕ) (s : TreeSize) : Exec (List ℕ) :=
  directPathLoop (root s).u32 s.u32 (TreeNodeIndex.leaf i).u32

def copath (i : ℕ) (s : TreeSize) : Exec (List TreeNodeIndex) := do
  let path ← directPath i s
  pure ((.leaf i :: path.dropLast.map TreeNodeIndex.parent).map sibling)

def isNodeInTree (x : TreeNodeIndex) (s : TreeSize) : Bool := decide (x.u32 < s.u32)

/-! ## Coordinates -/

/-- The node at position `p` of level `k`. -/
def nodeAt : ℕ → ℕ → TreeNodeIndex
  | 0, p => .leaf p
  | k + 1, p => .parent (inorder k p)

/-- The position next to `p` under the same parent. -/
def sib (p : ℕ) : ℕ := if p % 2 = 0 then p + 1 else p - 1

@[simp] lemma nodeAt_zero (p : ℕ) : nodeAt 0 p = .leaf p := rfl

@[simp] lemma nodeAt_succ (k p : ℕ) : nodeAt (k + 1) p = .parent (inorder k p) := rfl

@[simp] lemma u32_at (k p : ℕ) : (nodeAt k p).u32 = inorder k p := by
  cases k with
  | zero => simp [TreeNodeIndex.u32, mul_comm]
  | succ k => simp [TreeNodeIndex.u32, inorder_succ, mul_comm]

@[simp] lemma new_inorder (k p : ℕ) : TreeNodeIndex.new (inorder k p) = nodeAt k p := by
  cases k with
  | zero => simp [TreeNodeIndex.new]
  | succ k =>
    rw [inorder_succ, TreeNodeIndex.new, if_neg (by omega), nodeAt_succ,
      show (2 * inorder k p + 1 - 1) / 2 = inorder k p by omega]

lemma nodeAt_inj {k p k' p' : ℕ} (h : nodeAt k p = nodeAt k' p') : k = k' ∧ p = p' :=
  inorder_inj (by simpa using congrArg TreeNodeIndex.u32 h)

lemma exists_nodeAt (x : TreeNodeIndex) : ∃ k p, x = nodeAt k p := by
  cases x with
  | leaf i => exact ⟨0, i, rfl⟩
  | parent j =>
    obtain ⟨k, p, rfl⟩ := exists_inorder j
    exact ⟨k + 1, p, rfl⟩

variable {j fuel : ℕ}

section Coordinates

variable (k p : ℕ)

lemma levelLoop_inorder {k p : ℕ} (hj : j ≤ k) (hfuel : k ≤ j + fuel) :
    levelLoop (inorder k p) fuel j = k := by
  induction fuel generalizing j with
  | zero =>
    show j = k
    omega
  | succ fuel ih =>
    rw [levelLoop]
    by_cases hlt : j < k
    · rw [if_pos ((shiftRight_inorder_and_one hj).mpr hlt)]
      exact ih hlt (by omega)
    · rw [if_neg (fun h => hlt ((shiftRight_inorder_and_one hj).mp h))]
      omega

@[simp] lemma level_inorder : level (inorder k p) = k := by
  cases k with
  | zero => simp [level]
  | succ k =>
    have hodd : inorder (k + 1) p &&& 1 = 1 :=
      (shiftRight_inorder_and_one (Nat.zero_le _)).mpr (Nat.succ_pos k)
    have hle : k + 1 ≤ 0 + inorder (k + 1) p := by
      have hpow := Nat.lt_two_pow_self (n := k + 1)
      have := inorder_add_one (k + 1) p
      have : 2 ^ (k + 1) ≤ 2 ^ (k + 1) * (2 * p + 1) := Nat.le_mul_of_pos_right _ (by omega)
      omega
    rw [level, if_neg (by omega)]
    exact levelLoop_inorder (Nat.zero_le _) hle

lemma u32_parent_inorder : (TreeNodeIndex.parent (inorder k p)).u32 = inorder (k + 1) p :=
  u32_at (k + 1) p

@[simp] lemma left_inorder : left (inorder k p) = nodeAt k (2 * p) := by
  simp only [left, u32_parent_inorder, level_inorder, Nat.add_sub_cancel, xor_left, new_inorder]

@[simp] lemma right_inorder : right (inorder k p) = nodeAt k (2 * p + 1) := by
  simp only [right, u32_parent_inorder, level_inorder, Nat.add_sub_cancel, xor_right, new_inorder]

@[simp] lemma leftmost_inorder : leftmost (inorder k p) = .leaf (p * 2 ^ (k + 1)) := by
  simp only [leftmost, u32_parent_inorder, level_inorder, inorder_sub_leftmost]
  exact new_inorder 0 _

@[simp] lemma parent_at : parent (nodeAt k p) = inorder k (p / 2) := by
  simp only [parent, u32_at, level_inorder, shiftRight_inorder_succ_and_one,
    or_xor_parent, inorder_succ]
  exact Nat.mul_div_cancel_left _ (by omega)

@[simp] lemma sibling_at : sibling (nodeAt k p) = nodeAt k (sib p) := by
  have hk := inorder_add_one k p
  have hparent := inorder_add_one (k + 1) (p / 2)
  simp only [sibling, parent_at, u32_at, u32_parent_inorder, left_inorder, right_inorder, sib]
  rw [pow_succ] at hparent
  rcases Nat.even_or_odd' p with ⟨q, rfl | rfl⟩
  · rw [show 2 * q / 2 = q by omega] at hparent ⊢
    rw [if_pos (by nlinarith), if_pos (by omega)]
  · rw [show (2 * q + 1) / 2 = q by omega] at hparent ⊢
    rw [if_neg (by nlinarith), if_neg (by omega), Nat.add_sub_cancel]

end Coordinates

/-! ## Full trees -/

def TreeSize.ofDepth (n : ℕ) : TreeSize := ⟨2 ^ (n + 1) - 1⟩

namespace TreeSize

variable (n : ℕ)

@[simp] lemma leafCount_ofDepth : (ofDepth n).leafCount = 2 ^ n := by
  have : 0 < 2 ^ n := by positivity
  simp only [leafCount, ofDepth, pow_succ]
  omega

@[simp] lemma parentCount_ofDepth : (ofDepth n).parentCount = 2 ^ n - 1 := by
  simp only [parentCount, ofDepth, pow_succ]
  omega

@[simp] lemma inc_ofDepth : (ofDepth n).inc = ofDepth (n + 1) := by
  have : 0 < 2 ^ n := by positivity
  simp only [inc, ofDepth, pow_succ, mk.injEq]
  omega

lemma new_eq_ofDepth {m : ℕ} (hlo : 2 ^ n ≤ m) (hhi : m < 2 ^ (n + 1)) : new m = ofDepth n := by
  have hlog : Nat.log2 m = n := (Nat.log2_eq_iff (by omega)).mpr ⟨hlo, hhi⟩
  simp [new, ofDepth, hlog, Nat.one_shiftLeft]

@[simp] lemma new_ofDepth : new (ofDepth n).u32 = ofDepth n := by
  have : 0 < 2 ^ n := by positivity
  refine new_eq_ofDepth n ?_ ?_ <;> simp only [ofDepth, pow_succ] <;> omega

@[simp] lemma root_ofDepth : root (ofDepth n) = nodeAt n 0 := by
  have hpos : 0 < 2 ^ n := by positivity
  have hlog : Nat.log2 (ofDepth n).u32 = n := by
    refine (Nat.log2_eq_iff ?_).mpr ⟨?_, ?_⟩ <;> simp only [ofDepth, pow_succ] <;> omega
  rw [root, hlog, Nat.one_shiftLeft, ← inorder_root, new_inorder]

lemma leafIsLeft_ofDepth {i : ℕ} (h : 2 ^ n ≤ 2 * i + 1) : (ofDepth n).leafIsLeft i = false := by
  rw [leafIsLeft, leafCount_ofDepth, decide_eq_false_iff_not]
  omega

end TreeSize

/-! ## Paths -/

lemma div_two_pow_succ (i k : ℕ) : i / 2 ^ (k + 1) = i / 2 ^ k / 2 := by
  rw [pow_succ, Nat.div_div_eq_div_mul]

lemma sib_cases (p : ℕ) :
    p = 2 * (p / 2) ∧ sib p = 2 * (p / 2) + 1 ∨ p = 2 * (p / 2) + 1 ∧ sib p = 2 * (p / 2) := by
  unfold sib
  split_ifs <;> omega

lemma sib_two_mul (p : ℕ) : sib (2 * p) = 2 * p + 1 := by
  rcases sib_cases (2 * p) with ⟨h, h'⟩ | ⟨h, h'⟩ <;> omega

lemma sib_two_mul_add_one (p : ℕ) : sib (2 * p + 1) = 2 * p := by
  rcases sib_cases (2 * p + 1) with ⟨h, h'⟩ | ⟨h, h'⟩ <;> omega

lemma sib_ne (p : ℕ) : sib p ≠ p := by
  rcases sib_cases p with ⟨h, h'⟩ | ⟨h, h'⟩ <;> omega

@[simp] lemma sib_div_two (p : ℕ) : sib p / 2 = p / 2 := by
  rcases sib_cases p with ⟨-, h⟩ | ⟨-, h⟩ <;> omega

variable {n k i : ℕ}

lemma directPathLoop_inorder {p : ℕ} (hk : k ≤ n) (hp : p < 2 ^ (n - k)) (hfuel : n ≤ k + fuel) :
    directPathLoop (inorder n 0) fuel (inorder k p) =
      .ok ((List.range (n - k)).map fun j => inorder (k + j) (p / 2 ^ (j + 1))) := by
  induction fuel generalizing k p with
  | zero =>
    obtain rfl : k = n := by omega
    obtain rfl : p = 0 := by simpa using hp
    simp [directPathLoop]
  | succ fuel ih =>
    rw [directPathLoop]
    rcases Nat.eq_or_lt_of_le hk with rfl | hlt
    · obtain rfl : p = 0 := by simpa using hp
      simp
    · have hne : inorder k p ≠ inorder n 0 := fun h => by
        have := (inorder_inj h).1
        omega
      have hhalf : p / 2 < 2 ^ (n - (k + 1)) := by
        rw [show n - k = n - (k + 1) + 1 by omega, pow_succ] at hp
        omega
      rw [if_neg hne]
      simp only [new_inorder, parent_at, u32_parent_inorder,
        ih hlt hhalf (by omega), show n - k = n - (k + 1) + 1 by omega, range_succ_eq_map,
        map_cons, map_map]
      simp only [bind, Except.bind, pure, Except.pure, Except.ok.injEq, List.cons.injEq]
      refine ⟨by simp, map_congr_left fun j _ => ?_⟩
      show inorder (k + 1 + j) (p / 2 / 2 ^ (j + 1)) = inorder (k + (j + 1)) (p / 2 ^ (j + 1 + 1))
      rw [Nat.div_div_eq_div_mul, ← pow_succ', Nat.add_right_comm, Nat.add_assoc]

/-- The parents above leaf `i` in a tree of depth `n`, one for each level. -/
def pathNodes (n i : ℕ) : List ℕ :=
  (List.range n).map fun k => inorder k (i / 2 ^ (k + 1))

lemma directPath_ofDepth (h : i < 2 ^ n) : directPath i (.ofDepth n) = .ok (pathNodes n i) := by
  have hn : n ≤ (TreeSize.ofDepth n).u32 := by
    have := Nat.lt_two_pow_self (n := n)
    simp only [TreeSize.ofDepth, pow_succ]
    omega
  have hleaf : (TreeNodeIndex.leaf i).u32 = inorder 0 i := u32_at 0 i
  have := directPathLoop_inorder (Nat.zero_le n) (by simpa using h) (by simpa using hn)
  simpa [directPath, hleaf, pathNodes] using this

lemma mem_map_inorder {p : ℕ} {ks : List ℕ} :
    inorder k p ∈ (ks.map fun k => inorder k (i / 2 ^ (k + 1))) ↔ k ∈ ks ∧ p = i / 2 ^ (k + 1) := by
  rw [mem_map]
  constructor
  · rintro ⟨k', hk', heq⟩
    obtain ⟨rfl, rfl⟩ := inorder_inj heq
    exact ⟨hk', rfl⟩
  · rintro ⟨hk, rfl⟩
    exact ⟨k, hk, rfl⟩

lemma mem_pathNodes {p : ℕ} : inorder k p ∈ pathNodes n i ↔ k < n ∧ p = i / 2 ^ (k + 1) := by
  rw [pathNodes, mem_map_inorder, mem_range]

lemma nodup_pathNodes (n i : ℕ) : (pathNodes n i).Nodup :=
  List.Nodup.map_on (fun _ _ _ _ h => (inorder_inj h).1) nodup_range

lemma takeWhile_pathNodes (hk : k < n) :
    (pathNodes n i).takeWhile (· ≠ inorder k (i / 2 ^ (k + 1))) = pathNodes k i := by
  obtain ⟨d, rfl⟩ := Nat.exists_eq_add_of_lt hk
  have hsplit : List.range (k + d + 1) = List.range k ++ k :: (List.range d).map (k + 1 + ·) := by
    rw [Nat.add_assoc, range_add, Nat.add_comm d 1, range_add, map_append]
    simp [Nat.add_assoc]
  rw [pathNodes, hsplit, map_append, map_cons, takeWhile_append_of_pos,
    takeWhile_cons_of_neg (by simp), append_nil, pathNodes]
  intro j hj
  obtain ⟨k', hk', rfl⟩ := mem_map.mp hj
  refine decide_eq_true fun heq => ?_
  have := (inorder_inj heq).1
  rw [mem_range] at hk'
  omega

lemma div_two_pow_lt (h : i < 2 ^ n) (hk : k ≤ n) : i / 2 ^ k < 2 ^ (n - k) := by
  rw [Nat.div_lt_iff_lt_mul (by positivity), ← pow_add, Nat.sub_add_cancel hk]
  exact h

lemma lt_of_mem_pathNodes (h : i < 2 ^ n) (hj : j ∈ pathNodes n i) : j < 2 ^ n - 1 := by
  obtain ⟨k, hk, rfl⟩ := mem_map.mp hj
  have hkn := mem_range.mp hk
  obtain ⟨m, rfl⟩ := Nat.exists_eq_succ_of_ne_zero (by omega : n ≠ 0)
  have hpos := div_two_pow_lt h hkn
  rw [Nat.succ_sub_succ] at hpos
  have := inorder_lt_iff.mpr ⟨Nat.lt_succ_iff.mp hkn, hpos⟩
  simp only [Nat.succ_eq_add_one] at *
  omega

lemma leaf_cons_pathNodes (n i : ℕ) : TreeNodeIndex.leaf i :: (pathNodes n i).map .parent =
    (List.range (n + 1)).map fun k => nodeAt k (i / 2 ^ k) := by
  rw [pathNodes, map_map, range_succ_eq_map, map_cons, map_map]
  simp [Function.comp_def]

/-- The copath of a leaf: the siblings of the leaf and of its direct path below the root. -/
lemma copath_ofDepth (h : i < 2 ^ (n + 1)) :
    copath i (.ofDepth (n + 1)) =
      .ok ((List.range (n + 1)).map fun k => nodeAt k (sib (i / 2 ^ k))) := by
  have hpath : (TreeNodeIndex.leaf i ::
      (pathNodes (n + 1) i).dropLast.map TreeNodeIndex.parent) =
      (List.range (n + 1)).map fun k => nodeAt k (i / 2 ^ k) := by
    rw [← leaf_cons_pathNodes]
    simp [pathNodes, range_succ]
  simp only [copath, directPath_ofDepth h, bind, Except.bind, pure, Except.pure, hpath, map_map]
  simp [Function.comp_def]

/-! ## Recursion from a node to the leaves -/

section Fold

variable {α : Type} (leaf : ℕ → α) (node : ℕ → α → α → α) (a : α)

/-- Evaluate a node from its children, for at most `k` levels. -/
def foldTree : ℕ → TreeNodeIndex → α
  | _, .leaf i => leaf i
  | 0, .parent _ => a
  | k + 1, .parent j => node j (foldTree k (left j)) (foldTree k (right j))

/-- Evaluate a node from its children down to the leaves.  The value `a` is never used. -/
def TreeNodeIndex.fold (x : TreeNodeIndex) : α := foldTree leaf node a (level x.u32) x

@[simp] lemma fold_leaf (i : ℕ) : (TreeNodeIndex.leaf i).fold leaf node a = leaf i := by
  simp [TreeNodeIndex.fold, foldTree]

lemma fold_at_succ (k p : ℕ) :
    (nodeAt (k + 1) p).fold leaf node a =
      node (inorder k p) ((nodeAt k (2 * p)).fold leaf node a)
        ((nodeAt k (2 * p + 1)).fold leaf node a) := by
  unfold TreeNodeIndex.fold
  rw [u32_at, u32_at, u32_at, level_inorder,
    level_inorder, level_inorder, nodeAt_succ, foldTree, left_inorder, right_inorder]

end Fold

/-! ## The laws of the tree -/

/-- The leaves below a node, from left to right. -/
def TreeNodeIndex.leavesBelow (x : TreeNodeIndex) : List ℕ :=
  x.fold (fun i => [i]) (fun _ ls rs => ls ++ rs) []

lemma leavesBelow_at (k p : ℕ) : (nodeAt k p).leavesBelow = List.range' (p * 2 ^ k) (2 ^ k) := by
  induction k generalizing p with
  | zero => simp [TreeNodeIndex.leavesBelow]
  | succ k ih =>
    unfold TreeNodeIndex.leavesBelow at ih ⊢
    rw [fold_at_succ, ih, ih, show 2 * p * 2 ^ k = p * 2 ^ (k + 1) by ring,
      show (2 * p + 1) * 2 ^ k = p * 2 ^ (k + 1) + 2 ^ k by ring, range'_append_1,
      ← two_mul, ← pow_succ']

/-- The leaf and the subtrees next to its path, up to level `m`. -/
lemma perm_copath_leaves (i m : ℕ) :
    (i :: (List.range m).flatMap fun k => (nodeAt k (sib (i / 2 ^ k))).leavesBelow).Perm
      (nodeAt m (i / 2 ^ m)).leavesBelow := by
  induction m with
  | zero => simp [TreeNodeIndex.leavesBelow]
  | succ m ih =>
    rw [range_succ, flatMap_append, ← cons_append, flatMap_singleton]
    refine (ih.append_right _).trans ?_
    have hsplit (p : ℕ) : (nodeAt (m + 1) p).leavesBelow =
        (nodeAt m (2 * p)).leavesBelow ++ (nodeAt m (2 * p + 1)).leavesBelow :=
      fold_at_succ ..
    rw [hsplit, div_two_pow_succ]
    rcases sib_cases (i / 2 ^ m) with ⟨hp, hs⟩ | ⟨hp, hs⟩
    · rw [hs, ← hp]
    · rw [hs, ← hp]
      exact perm_append_comm

lemma copath_eq {d i : ℕ} (hi : i < 2 ^ d) : copath i (.ofDepth d) =
    .ok ((List.range (max d 1)).map fun k => nodeAt k (sib (i / 2 ^ k))) := by
  cases d with
  | zero =>
    obtain rfl : i = 0 := by simpa using hi
    rfl
  | succ d => rw [copath_ofDepth hi, max_eq_left (by omega)]

/-- The nodes from a leaf to the root. -/
def leafToRoot (i : ℕ) (path : List ℕ) : List TreeNodeIndex := .leaf i :: path.map .parent

/-- **The laws of the tree of depth `d`.**  The leaf and the subtrees of its copath are all leaves
    exactly if there is more than one leaf: the copath of a single leaf is outside of the tree. -/
theorem tree_laws (d : ℕ) :
    (∀ j, isNodeInTree (.parent j) (.ofDepth d) → parent (left j) = j ∧ parent (right j) = j) ∧
    (∀ x, isNodeInTree x (.ofDepth d) → x ≠ root (.ofDepth d) →
      isNodeInTree (sibling x) (.ofDepth d) ∧ sibling x ≠ root (.ofDepth d) ∧
        sibling x ≠ x ∧ sibling (sibling x) = x) ∧
    ∀ i < (TreeSize.ofDepth d).leafCount, ∃ path siblings, directPath i (.ofDepth d) = .ok path ∧
      copath i (.ofDepth d) = .ok siblings ∧ path.length = d ∧
      (∀ k < d, path[k]? = ((leafToRoot i path)[k]?).map parent) ∧
      (leafToRoot i path).getLast? = some (root (.ofDepth d)) ∧
      siblings = ((leafToRoot i path).take (max d 1)).map sibling ∧
      ((i :: siblings.flatMap (·.leavesBelow)).Perm (List.range (TreeSize.ofDepth d).leafCount) ↔
        0 < d) := by
  refine ⟨fun j _ => ?_, fun x hx hroot => ?_, fun i hi => ?_⟩
  · obtain ⟨k, p, rfl⟩ := exists_inorder j
    simp only [left_inorder, right_inorder, parent_at]
    exact ⟨congrArg _ (by omega), congrArg _ (by omega)⟩
  · obtain ⟨k, p, rfl⟩ := exists_nodeAt x
    have hin : InTree d k p := by
      rw [← InTree.lt_iff]
      simpa [isNodeInTree, TreeSize.ofDepth] using hx
    have hk : k < d := by
      refine lt_of_le_of_ne hin.1 fun heq => hroot ?_
      subst heq
      rw [TreeSize.root_ofDepth, hin.eq_root]
    have hsib : InTree d k (sib p) := by
      obtain ⟨hl, hr⟩ := (hin.parent hk).children
      rcases sib_cases p with ⟨-, hs⟩ | ⟨-, hs⟩ <;> rwa [hs]
    rw [sibling_at, sibling_at, TreeSize.root_ofDepth]
    refine ⟨?_, fun heq => ?_, fun heq => ?_, congrArg _ ?_⟩
    · simpa [isNodeInTree, TreeSize.ofDepth] using InTree.lt_iff.mpr hsib
    · exact hk.ne (nodeAt_inj heq).1
    · exact sib_ne p (nodeAt_inj heq).2
    · rcases sib_cases p with ⟨hp, hs⟩ | ⟨hp, hs⟩
      · rw [hs, sib_two_mul_add_one, ← hp]
      · rw [hs, sib_two_mul, ← hp]
  · rw [TreeSize.leafCount_ofDepth] at hi ⊢
    refine ⟨_, _, directPath_ofDepth hi, copath_eq hi, by simp [pathNodes], fun k hk => ?_, ?_,
      ?_, ?_⟩
    · rw [leafToRoot, leaf_cons_pathNodes]
      simp [pathNodes, hk, Nat.lt_succ_of_lt hk, div_two_pow_succ]
    · rw [leafToRoot, leaf_cons_pathNodes, range_succ]
      simp [Nat.div_eq_of_lt hi]
    · rw [leafToRoot, leaf_cons_pathNodes, ← map_take, take_range, map_map, min_eq_left (by omega)]
      simp [Function.comp_def]
    · constructor
      · intro hperm
        by_contra hzero
        obtain rfl : d = 0 := by omega
        simpa [TreeNodeIndex.leavesBelow] using hperm.length_eq
      · intro hpos
        rw [max_eq_left hpos, flatMap_map]
        refine (perm_copath_leaves i d).trans ?_
        rw [leavesBelow_at, Nat.div_eq_of_lt hi, Nat.zero_mul, range_eq_range']

/-- **The copath of a single leaf is outside of the tree.** -/
theorem copath_of_single_leaf :
    copath 0 (.ofDepth 0) = .ok [.leaf 1] ∧ isNodeInTree (.leaf 1) (.ofDepth 0) = false := by
  decide

end EmulatedMls
