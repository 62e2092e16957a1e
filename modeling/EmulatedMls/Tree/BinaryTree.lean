import EmulatedMls.Lib.Overlay
import EmulatedMls.Tree.TreeMath
import Mathlib.Algebra.Order.BigOperators.Group.List
import Mathlib.Data.List.Sort

/-!
# The array tree and its diffs

A tree is a vector of leaves and a vector of parents.  Changes are collected in a diff, which holds
the new nodes and the new size, and are merged into the vectors at the end.

**Source.**  `binary_tree/array_representation/tree.rs`, and `diff.rs`, `sorted_iter.rs` and
`reversed_sorted_iter.rs` of the same directory.

**Shape.**  `AbDiff.Shaped d n` says that the diff `d` is for a full tree of depth `n` and that
nothing lies outside of it.  Then growing and merging do not change what is read at any index.
-/

namespace EmulatedMls

open List TreeSize

/-- A node given to `ABinaryTree::new`. -/
inductive TreeNode (L P : Type) where
  | leaf (l : L)
  | parent (p : P)

inductive ABinaryTreeError where
  | outOfRange
  | invalidNumberOfNodes
  | wrongNodeType
  deriving DecidableEq, Repr

inductive ABinaryTreeDiffError where
  | treeTooLarge
  | treeTooSmall
  deriving DecidableEq, Repr

structure ABinaryTree (L P : Type) where
  leafNodes : List L
  parentNodes : List P

/-- The changes of a tree that are not merged yet. -/
structure AbDiff (L P : Type) where
  originalTree : ABinaryTree L P
  leafDiff : Std.TreeMap ℕ L
  parentDiff : Std.TreeMap ℕ P
  size : TreeSize

/-- `SortedIter` with the order `r`: two sorted sequences merged; the first one has precedence. -/
def mergeIter {α : Type} (r : ℕ → ℕ → Prop) [DecidableRel r] :
    List (ℕ × α) → List (ℕ × α) → ℕ → List (ℕ × α)
  | _, _, 0 => []
  | [], bs, size + 1 => bs.take (size + 1)
  | as, [], size + 1 => as.take (size + 1)
  | (i, a) :: as, (k, b) :: bs, size + 1 =>
    if r i k then (i, a) :: mergeIter r as ((k, b) :: bs) size
    else if i = k then (i, a) :: mergeIter r as bs size
    else (k, b) :: mergeIter r ((i, a) :: as) bs size

def sortedIter {α : Type} : List (ℕ × α) → List (ℕ × α) → ℕ → List (ℕ × α) := mergeIter (· < ·)

def reversedSortedIter {α : Type} : List (ℕ × α) → List (ℕ × α) → ℕ → List (ℕ × α) :=
  mergeIter (· > ·)

section

variable {L P : Type} [Inhabited L] [Inhabited P]

namespace ABinaryTree

/-- The loop of `ABinaryTree::new` that splits the nodes, from position `i` on. -/
def splitNodes : ℕ → List (TreeNode L P) → Except ABinaryTreeError (List L × List P)
  | _, [] => .ok ([], [])
  | i, .leaf l :: nodes =>
    if i % 2 = 0 then do
      let (ls, ps) ← splitNodes (i + 1) nodes
      pure (l :: ls, ps)
    else .error .wrongNodeType
  | i, .parent p :: nodes =>
    if i % 2 = 1 then do
      let (ls, ps) ← splitNodes (i + 1) nodes
      pure (ls, p :: ps)
    else .error .wrongNodeType

def new (nodes : List (TreeNode L P)) : Except ABinaryTreeError (ABinaryTree L P) :=
  if nodes.length > maxTreeSize then .error .outOfRange
  else if nodes.length % 2 ≠ 1 then .error .invalidNumberOfNodes
  else do
    let (ls, ps) ← splitNodes 0 nodes
    pure ⟨ls, ps⟩

/-- `leaf_by_index`: the default outside of the tree. -/
def leafByIndex (t : ABinaryTree L P) (i : ℕ) : L := t.leafNodes.getD i default

def parentByIndex (t : ABinaryTree L P) (j : ℕ) : P := t.parentNodes.getD j default

def treeSize (t : ABinaryTree L P) : TreeSize := .new (t.leafNodes.length + t.parentNodes.length)

/-- `leaves`, with their indices. -/
def leaves (t : ABinaryTree L P) : List (ℕ × L) :=
  t.leafNodes.zipIdx.map Prod.swap

/-- `parents`, with their indices. -/
def parents (t : ABinaryTree L P) : List (ℕ × P) :=
  t.parentNodes.zipIdx.map Prod.swap

def emptyDiff (t : ABinaryTree L P) : AbDiff L P := ⟨t, {}, {}, t.treeSize⟩

def mergeDiff (t : ABinaryTree L P) (d : AbDiff L P) : ABinaryTree L P where
  leafNodes := flush (resize t.leafNodes d.size.leafCount default) d.leafDiff
  parentNodes := flush (resize t.parentNodes d.size.parentCount default) d.parentDiff

end ABinaryTree

namespace AbDiff

variable (d : AbDiff L P)

def growTree : Except ABinaryTreeDiffError (AbDiff L P) :=
  if d.size.u32 > maxTreeSize / 2 then .error .treeTooLarge
  else .ok { d with size := d.size.inc }

def shrinkTree : Except ABinaryTreeDiffError (AbDiff L P) :=
  if d.size.u32 ≤ minTreeSize then .error .treeTooSmall
  else
    let size := d.size.dec
    .ok { d with
      leafDiff := d.leafDiff.filter fun i _ => i < size.leafCount
      parentDiff := d.parentDiff.filter fun j _ => j < size.parentCount
      size := size }

def replaceLeaf (i : ℕ) (l : L) : AbDiff L P :=
  { d with leafDiff := d.leafDiff.insert i l }

def replaceParent (j : ℕ) (p : P) : AbDiff L P :=
  { d with parentDiff := d.parentDiff.insert j p }

def leaf (i : ℕ) : L :=
  match d.leafDiff[i]? with
  | some l => l
  | none => if d.size.leafCount ≤ i then default else d.originalTree.leafByIndex i

/-- `parent`.  Unlike `leaf` it does not look at the size. -/
def parent (j : ℕ) : P :=
  match d.parentDiff[j]? with
  | some p => p
  | none => d.originalTree.parentByIndex j

/-- A write through `parent_mut`, which copies the node into the diff first. -/
def modifyParent (j : ℕ) (f : P → P) : AbDiff L P :=
  d.replaceParent j (f (d.parent j))

def diffLeaves : List (ℕ × L) := d.leafDiff.toList

def leaves (d : AbDiff L P) : List (ℕ × L) :=
  sortedIter d.leafDiff.toList d.originalTree.leaves d.size.leafCount

def parents (d : AbDiff L P) : List (ℕ × P) :=
  sortedIter d.parentDiff.toList d.originalTree.parents d.size.parentCount

def setDirectPathToNode (i : ℕ) (p : P) : Exec (AbDiff L P) := do
  let path ← directPath i d.size
  pure (path.foldl (fun d j => d.replaceParent j p) d)

/-! ## Reading after a write -/

variable {d : AbDiff L P}

omit [Inhabited P] in
lemma leaf_replaceLeaf (d : AbDiff L P) (i k : ℕ) (l : L) :
    (d.replaceLeaf i l).leaf k = if k = i then l else d.leaf k := by
  unfold leaf replaceLeaf
  rw [getElem?_insert_eq]
  by_cases h : k = i
  · rw [if_pos h, if_pos h]
  · rw [if_neg h, if_neg h]

variable {path : List ℕ}

section

omit [Inhabited L]

@[simp] lemma parent_replaceLeaf (d : AbDiff L P) (i : ℕ) (l : L) :
    (d.replaceLeaf i l).parent = d.parent := rfl

lemma parent_replaceParent (d : AbDiff L P) (j k : ℕ) (p : P) :
    (d.replaceParent j p).parent k = if k = j then p else d.parent k := by
  unfold parent replaceParent
  rw [getElem?_insert_eq]
  by_cases h : k = j
  · rw [if_pos h, if_pos h]
  · rw [if_neg h, if_neg h]

lemma parent_eq_overlay (d : AbDiff L P) (j : ℕ) :
    d.parent j = overlay d.originalTree.parentNodes d.parentDiff default j := by
  cases d.parentDiff[j]? <;> rfl

/-- Write the nodes of a path one after the other. -/
def modifyAlong (d : AbDiff L P) (path : List ℕ) (f : ℕ → P → P) : AbDiff L P :=
  path.foldl (fun d j => d.modifyParent j (f j)) d

lemma modifyAlong_cons (d : AbDiff L P) (j : ℕ) (path : List ℕ) (f : ℕ → P → P) :
    d.modifyAlong (j :: path) f = (d.modifyParent j (f j)).modifyAlong path f := rfl

lemma modifyAlong_frame (d : AbDiff L P) (path : List ℕ) (f : ℕ → P → P) :
    (d.modifyAlong path f).originalTree = d.originalTree ∧
      (d.modifyAlong path f).leafDiff = d.leafDiff ∧ (d.modifyAlong path f).size = d.size := by
  induction path generalizing d with
  | nil => exact ⟨rfl, rfl, rfl⟩
  | cons j path ih => exact ih (d.modifyParent j (f j))

lemma parent_modifyAlong (hpath : path.Nodup) (d : AbDiff L P) (f : ℕ → P → P) (k : ℕ) :
    (d.modifyAlong path f).parent k = if k ∈ path then f k (d.parent k) else d.parent k := by
  induction path generalizing d with
  | nil => rfl
  | cons j path ih =>
    obtain ⟨hj, hpath⟩ := nodup_cons.mp hpath
    rw [modifyAlong_cons, ih hpath, modifyParent, parent_replaceParent]
    by_cases hk : k = j
    · subst hk
      simp [hj]
    · simp [hk]

lemma foldl_modifyParent_eq {Q : Type} {path : List (ℕ × Q)} {g : Q → P} {f : ℕ → P}
    (h : ∀ e ∈ path, f e.1 = g e.2) (d : AbDiff L P) :
    path.foldl (fun d e => d.modifyParent e.1 fun _ => g e.2) d =
      d.modifyAlong (path.map Prod.fst) fun j _ => f j := by
  induction path generalizing d with
  | nil => rfl
  | cons e path ih =>
    rw [foldl_cons, ih fun e' he' => h e' (.tail _ he'), map_cons,
      modifyAlong_cons, h e mem_cons_self]

end

@[simp] lemma leaf_modifyAlong (d : AbDiff L P) (path : List ℕ) (f : ℕ → P → P) :
    (d.modifyAlong path f).leaf = d.leaf := by
  obtain ⟨htree, hleaf, hsize⟩ := modifyAlong_frame d path f
  funext i
  simp only [leaf, htree, hleaf, hsize]

/-! ## Shape -/

/-- The diff is for a full tree of depth `n`, and all its nodes lie inside. -/
structure Shaped (d : AbDiff L P) (n : ℕ) : Prop where
  size : d.size = .ofDepth n
  leaves : d.originalTree.leafNodes.length ≤ 2 ^ n
  parents : d.originalTree.parentNodes.length ≤ 2 ^ n - 1
  leafKeys : ∀ i ∈ d.leafDiff, i < 2 ^ n
  parentKeys : ∀ j ∈ d.parentDiff, j < 2 ^ n - 1

namespace Shaped

variable {n : ℕ}

section

variable (h : d.Shaped n)
include h

omit [Inhabited L] [Inhabited P] in
lemma replaceLeaf {i : ℕ} (hi : i < 2 ^ n) (l : L) : (d.replaceLeaf i l).Shaped n where
  size := h.size
  leaves := h.leaves
  parents := h.parents
  leafKeys k hk := by
    rcases Std.TreeMap.mem_insert.mp hk with hc | hk
    · exact Std.LawfulEqOrd.eq_of_compare hc ▸ hi
    · exact h.leafKeys k hk
  parentKeys := h.parentKeys

omit [Inhabited L] in
lemma modifyParent {j : ℕ} (hj : j < 2 ^ n - 1) (f : P → P) : (d.modifyParent j f).Shaped n where
  size := h.size
  leaves := h.leaves
  parents := h.parents
  leafKeys := h.leafKeys
  parentKeys k hk := by
    rcases Std.TreeMap.mem_insert.mp hk with hc | hk
    · exact Std.LawfulEqOrd.eq_of_compare hc ▸ hj
    · exact h.parentKeys k hk

omit [Inhabited L] in
lemma modifyAlong (hpath : ∀ j ∈ path, j < 2 ^ n - 1) (f : ℕ → P → P) :
    (d.modifyAlong path f).Shaped n := by
  induction path generalizing d with
  | nil => exact h
  | cons j path ih =>
    exact ih (h.modifyParent (hpath j mem_cons_self) (f j))
      fun k hk => hpath k (.tail _ hk)

omit [Inhabited P] in
lemma leaf_eq_overlay (i : ℕ) :
    d.leaf i = overlay d.originalTree.leafNodes d.leafDiff default i := by
  unfold leaf overlay
  cases d.leafDiff[i]? with
  | some l => rfl
  | none =>
    rw [h.size, leafCount_ofDepth]
    by_cases hi : 2 ^ n ≤ i
    · rw [if_pos hi, Option.getD_none, getD_eq_default _ _ (le_trans h.leaves hi)]
    · rw [if_neg hi]
      rfl

lemma growTree {d' : AbDiff L P} (hgrow : d.growTree = .ok d') :
    d'.Shaped (n + 1) ∧ d'.leaf = d.leaf ∧ d'.parent = d.parent ∧ d'.leafDiff = d.leafDiff ∧
      d'.originalTree = d.originalTree := by
  have hpow : 2 ^ (n + 1) = 2 * 2 ^ n := by rw [pow_succ, mul_comm]
  unfold AbDiff.growTree at hgrow
  split_ifs at hgrow with hmax
  cases hgrow
  have hshaped : ({ d with size := d.size.inc } : AbDiff L P).Shaped (n + 1) := {
    size := by
      rw [h.size, inc_ofDepth]
    leaves := le_trans h.leaves (by omega)
    parents := le_trans h.parents (by omega)
    leafKeys := fun i hi => lt_of_lt_of_le (h.leafKeys i hi) (by omega)
    parentKeys := fun j hj => lt_of_lt_of_le (h.parentKeys j hj) (by omega) }
  refine ⟨hshaped, ?_, rfl, rfl, rfl⟩
  funext i
  rw [hshaped.leaf_eq_overlay, h.leaf_eq_overlay]

omit [Inhabited L] [Inhabited P] in
lemma growTree_eq (hn : n < 29) : d.growTree = .ok { d with size := d.size.inc } := by
  have hpow : 2 ^ (n + 1) ≤ 2 ^ 29 := Nat.pow_le_pow_right (by omega) (by omega)
  have hsmall : ¬ d.size.u32 > maxTreeSize / 2 := by
    rw [h.size]
    show ¬ 2 ^ (n + 1) - 1 > 2 ^ 29
    omega
  rw [AbDiff.growTree, if_neg hsmall]

omit [Inhabited L] [Inhabited P] in
lemma growTree_error (hn : 29 ≤ n) : d.growTree = .error .treeTooLarge := by
  have hpow : 2 ^ 30 ≤ 2 ^ (n + 1) := Nat.pow_le_pow_right (by omega) (by omega)
  have hlarge : d.size.u32 > maxTreeSize / 2 := by
    rw [h.size]
    show 2 ^ (n + 1) - 1 > 2 ^ 29
    omega
  rw [AbDiff.growTree, if_pos hlarge]

end

/-! ### Merging -/

lemma length_mergeDiff (h : d.Shaped n) :
    (d.originalTree.mergeDiff d).leafNodes.length = 2 ^ n ∧
      (d.originalTree.mergeDiff d).parentNodes.length = 2 ^ n - 1 := by
  simp [ABinaryTree.mergeDiff, h.size]

/-- **Merging keeps every node.** -/
lemma leafByIndex_mergeDiff (h : d.Shaped n) (i : ℕ) :
    (d.originalTree.mergeDiff d).leafByIndex i = d.leaf i := by
  rw [h.leaf_eq_overlay, ABinaryTree.leafByIndex, ABinaryTree.mergeDiff, h.size,
    leafCount_ofDepth, getD_flush_resize default h.leaves h.leafKeys]

lemma parentByIndex_mergeDiff (h : d.Shaped n) (j : ℕ) :
    (d.originalTree.mergeDiff d).parentByIndex j = d.parent j := by
  rw [parent_eq_overlay, ABinaryTree.parentByIndex, ABinaryTree.mergeDiff, h.size,
    parentCount_ofDepth, getD_flush_resize default h.parents h.parentKeys]

end Shaped

end AbDiff

end

/-! ## The iterators -/

section Iterators

variable {α : Type} {r : ℕ → ℕ → Prop} [DecidableRel r] {as bs : List (ℕ × α)} {i n M : ℕ}

/-- `leaves_rev`. -/
def AbDiff.leavesRev {L P : Type} (d : AbDiff L P) : List (ℕ × L) :=
  reversedSortedIter d.leafDiff.toList.reverse d.originalTree.leaves.reverse d.size.leafCount

@[simp] lemma mergeIter_nil_left : mergeIter r [] bs n = bs.take n := by
  cases n <;> simp [mergeIter]

@[simp] lemma mergeIter_nil_right : mergeIter r as [] n = as.take n := by
  cases n <;> cases as <;> simp [mergeIter]

lemma mergeIter_cons_left (a : α) (h : ∀ e ∈ bs, r i e.1) :
    mergeIter r ((i, a) :: as) bs (n + 1) = (i, a) :: mergeIter r as bs n := by
  cases bs with
  | nil => simp
  | cons e bs => rw [mergeIter, if_pos (h e mem_cons_self)]

lemma mergeIter_cons_right [Std.Asymm r] (b : α) (h : ∀ e ∈ as, r i e.1) :
    mergeIter r as ((i, b) :: bs) (n + 1) = (i, b) :: mergeIter r as bs n := by
  cases as with
  | nil => simp
  | cons e as =>
    have hr := h e mem_cons_self
    have hne : e.1 ≠ i := fun heq => Std.Asymm.asymm _ _ hr (heq ▸ hr)
    rw [mergeIter, if_neg (Std.Asymm.asymm _ _ hr), if_neg hne]

/-- What there is at each index of a list. -/
def entries (f : ℕ → Option α) (is : List ℕ) : List (ℕ × α) :=
  is.filterMap fun i => (f i).map (Prod.mk i)

lemma mem_entries {f : ℕ → Option α} {is : List ℕ} {e : ℕ × α} :
    e ∈ entries f is ↔ e.1 ∈ is ∧ f e.1 = some e.2 := by
  obtain ⟨i, a⟩ := e
  simp only [entries, mem_filterMap, Option.map_eq_some_iff, Prod.mk.injEq]
  constructor
  · rintro ⟨_, hi, _, hf, rfl, rfl⟩
    exact ⟨hi, hf⟩
  · rintro ⟨hi, hf⟩
    exact ⟨i, hi, a, hf, rfl, rfl⟩

/-- **Merging two sequences** along the same indices. -/
lemma mergeIter_entries [Std.Asymm r] (f g : ℕ → Option α) {is : List ℕ} (his : is.Pairwise r)
    (n : ℕ) : mergeIter r (entries f is) (entries g is) n =
      (entries (fun i => f i <|> g i) is).take n := by
  induction is generalizing n with
  | nil => simp [entries]
  | cons i is ih =>
    obtain ⟨hi, his⟩ := pairwise_cons.mp his
    have hlater (f : ℕ → Option α) : ∀ e ∈ entries f is, r i e.1 := fun e he =>
      hi _ (mem_entries.mp he).1
    have hcons (f : ℕ → Option α) : entries f (i :: is) =
        ((f i).map (Prod.mk i)).toList ++ entries f is := by
      cases hf : f i <;> simp [entries, hf]
    cases n with
    | zero => simp [mergeIter]
    | succ n =>
      rw [hcons, hcons, hcons]
      cases f i with
      | none =>
        cases g i with
        | none => exact ih his _
        | some b => simpa [mergeIter_cons_right b (hlater f)] using ih his n
      | some a =>
        cases g i with
        | none => simpa [mergeIter_cons_left a (hlater g)] using ih his n
        | some b =>
          have hself : ¬ r i i := fun h => Std.Asymm.asymm _ _ h h
          simpa [mergeIter, hself] using ih his n

lemma eq_entries {f : ℕ → Option α} {l : List (ℕ × α)} (hl : l.Pairwise fun e e' => e.1 < e'.1)
    (hmem : ∀ e, e ∈ l ↔ f e.1 = some e.2) (hM : ∀ i, M ≤ i → f i = none) :
    l = entries f (List.range M) := by
  have hsorted : (entries f (List.range M)).Pairwise fun e e' => e.1 < e'.1 := by
    refine pairwise_filterMap.mpr (pairwise_lt_range.imp fun {i k} hik e he e' he' => ?_)
    obtain ⟨a, -, rfl⟩ := Option.map_eq_some_iff.mp he
    obtain ⟨a', -, rfl⟩ := Option.map_eq_some_iff.mp he'
    exact hik
  have : Std.Irrefl fun e e' : ℕ × α => e.1 < e'.1 := ⟨fun _ => lt_irrefl _⟩
  have : Std.Antisymm fun e e' : ℕ × α => e.1 < e'.1 := ⟨fun _ _ h h' => absurd h' h.asymm⟩
  refine hl.eq_of_mem_iff hsorted fun e => ?_
  rw [mem_entries, mem_range, hmem e]
  refine ⟨fun h => ⟨?_, h⟩, And.right⟩
  by_contra hle
  cases h.symm.trans (hM _ (not_lt.mp hle))

namespace AbDiff

variable {L P : Type} (d : AbDiff L P)

/-- The leaf that the diff holds for an index, or else the original one. -/
def current (i : ℕ) : Option L := d.leafDiff[i]? <|> d.originalTree.leafNodes[i]?

/-- **What the iterators read**: a part of all leaves that there are. -/
lemma exists_entries : ∃ k, (∀ i, d.size.leafCount + k ≤ i → d.current i = none) ∧
    d.leaves = (entries d.current (List.range (d.size.leafCount + k))).take d.size.leafCount ∧
    d.leavesRev =
      (entries d.current (List.range (d.size.leafCount + k))).reverse.take d.size.leafCount := by
  set k := d.leafDiff.keys.sum + 1 + d.originalTree.leafNodes.length with hk
  set M := d.size.leafCount + k with hM
  have hnone (i : ℕ) (hi : M ≤ i) : d.leafDiff[i]? = none := by
    refine Std.TreeMap.getElem?_eq_none fun hmem => ?_
    have hle := le_sum_of_mem (Std.TreeMap.mem_keys.mpr hmem)
    omega
  have hnone' (i : ℕ) (hi : M ≤ i) : d.originalTree.leafNodes[i]? = none :=
    getElem?_eq_none (by omega)
  have hdiff : d.leafDiff.toList = entries (d.leafDiff[·]?) (List.range M) :=
    eq_entries (Std.TreeMap.ordered_keys_toList.imp Nat.compare_eq_lt.mp)
      (fun _ => Std.TreeMap.mem_toList_iff_getElem?_eq_some) hnone
  have htree : d.originalTree.leaves = entries (d.originalTree.leafNodes[·]?) (List.range M) := by
    refine eq_entries ?_ (fun e => ?_) hnone'
    · rw [ABinaryTree.leaves, pairwise_map]
      have hsnd := pairwise_lt_range' (s := 0) (n := d.originalTree.leafNodes.length)
      rw [← zipIdx_map_snd, pairwise_map] at hsnd
      exact hsnd
    · obtain ⟨i, l⟩ := e
      rw [ABinaryTree.leaves, ← mk_mem_zipIdx_iff_getElem?]
      exact mem_map_of_injective Prod.swap_injective (a := (l, i))
  refine ⟨k, fun i hi => by rw [current, hnone i hi, hnone' i hi]; rfl, ?_, ?_⟩
  · rw [leaves, hdiff, htree]
    exact mergeIter_entries _ _ pairwise_lt_range _
  · have hrev (f : ℕ → Option L) : (entries f (List.range M)).reverse =
        entries f (List.range M).reverse := filterMap_reverse.symm
    rw [leavesRev, reversedSortedIter, hdiff, htree, hrev, hrev, hrev]
    exact mergeIter_entries _ _ (pairwise_reverse.mpr pairwise_lt_range) _

/-- **The iterators** are right exactly if no leaf of the diff or the tree lies behind the end. -/
theorem iterators_iff : (d.leaves = entries d.current (List.range d.size.leafCount) ∧
    d.leavesRev = d.leaves.reverse) ↔ ∀ i, d.size.leafCount ≤ i → d.current i = none := by
  obtain ⟨k, hk, hleaves, hrev⟩ := d.exists_entries
  set n := d.size.leafCount with hn
  set inside := entries d.current (List.range n) with hinside
  set behind := entries d.current (List.range' n k) with hbehind
  have hsplit : entries d.current (List.range (n + k)) = inside ++ behind := by
    rw [range_eq_range', ← range'_append_1]
    simp [hinside, hbehind, entries, range_eq_range']
  have hshort : inside.length ≤ n := (length_filterMap_le _ _).trans_eq length_range
  rw [hleaves, hrev, hsplit]
  constructor
  · rintro ⟨hforward, hback⟩ i hi
    by_contra hsome
    obtain ⟨l, hl⟩ := Option.ne_none_iff_exists'.mp hsome
    have hmem : (i, l) ∈ behind :=
      mem_entries.mpr ⟨mem_range'_1.mpr ⟨hi, not_le.mp fun hle => hsome (hk i hle)⟩, hl⟩
    -- the last leaf comes first in the reversed order, and it is not in the tree
    obtain ⟨before, e, hconcat⟩ := (eq_nil_or_concat behind).resolve_left
      (ne_nil_of_mem hmem)
    have hin : e ∈ inside.reverse := by
      rw [← hforward, ← hback, hconcat, hn, TreeSize.leafCount]
      simp
    have hout : e ∈ behind := by simp [hconcat]
    exact absurd (mem_range.mp (mem_entries.mp (mem_reverse.mp hin)).1)
      (mem_range'_1.mp (mem_entries.mp hout).1).1.not_gt
  · intro hnone
    have hnil : behind = [] := filterMap_eq_nil_iff.mpr fun i hi => by
      rw [hnone i (mem_range'_1.mp hi).1]
      rfl
    rw [hnil, append_nil, take_of_length_le hshort, take_of_length_le (by simpa using hshort)]
    exact ⟨rfl, rfl⟩

/-- A tree of four leaves is shrunk: from the back, the leaves that were cut off are read. -/
theorem shrunk_read_from_back :
    let t : ABinaryTree ℕ ℕ := ⟨[10, 11, 12, 13], [20, 21, 22]⟩
    ∃ d, t.emptyDiff.shrinkTree = .ok d ∧ d.leaves = [(0, 10), (1, 11)] ∧
      d.leavesRev = [(3, 13), (2, 12)] :=
  ⟨_, rfl, rfl, rfl⟩

end AbDiff

end Iterators

end EmulatedMls
