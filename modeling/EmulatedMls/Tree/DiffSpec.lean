import EmulatedMls.Tree.Contents
import EmulatedMls.Tree.TreeSyncDiff
import Mathlib.Data.List.Perm.Subperm

/-!
# What the proposals do to the tree

The operations that apply proposals, as edits of the abstract tree.
-/

namespace EmulatedMls

open Contents List TreeSize

variable {D : Type}

/-- What is read through a diff. -/
def AbDiff.contents (d : AbDiff (TreeSyncLeafNode D) (TreeSyncParentNode D)) : Contents D where
  leaf := d.leaf
  parent k p := d.parent (inorder k p)

/-- What a proposal does at its leaf. -/
inductive Change (D : Type) where
  | update (l : LeafNode D)
  | blank
  | add (l : LeafNode D)

namespace Change

def leaf : Change D → Option (LeafNode D)
  | .update l => some l
  | .blank => none
  | .add l => some l

/-- The effect on a parent above leaf `i`. -/
def node (i : ℕ) : Change D → Option (ParentNode D) → Option (ParentNode D)
  | .update _ => fun _ => none
  | .blank => fun _ => none
  | .add _ => Option.map (ParentNode.addUnmergedLeaf i)

/-- An update and a removal are for a member, an addition is for a blank leaf. -/
def Applies : Change D → Option (LeafNode D) → Prop
  | .update _, x => x.isSome
  | .blank, x => x.isSome
  | .add _, x => x = none

end Change

lemma AbDiff.contents_write (d : AbDiff (TreeSyncLeafNode D) (TreeSyncParentNode D)) (n i : ℕ)
    (x : Option (LeafNode D)) (f : Option (ParentNode D) → Option (ParentNode D)) :
    ((d.replaceLeaf i x).modifyAlong (pathNodes n i) fun _ => f).contents =
      d.contents.edit n i x fun _ => f := by
  ext1
  · funext j
    simp only [contents, leaf_modifyAlong, leaf_replaceLeaf, Contents.edit]
  · funext k p
    simp only [contents, parent_modifyAlong (nodup_pathNodes n i), parent_replaceLeaf,
      mem_pathNodes, Contents.edit]

variable {d : AbDiff (TreeSyncLeafNode D) (TreeSyncParentNode D)} {n i : ℕ}

lemma AbDiff.Shaped.write (h : d.Shaped n) (hi : i < 2 ^ n) (x : Option (LeafNode D))
    (f : Option (ParentNode D) → Option (ParentNode D)) :
    ((d.replaceLeaf i x).modifyAlong (pathNodes n i) fun _ => f).Shaped n :=
  (h.replaceLeaf hi x).modifyAlong (fun _ hj => lt_of_mem_pathNodes hi hj) _

lemma AbDiff.setDirectPathToNode_eq (h : d.Shaped n) (hi : i < 2 ^ n) (q : Option (ParentNode D)) :
    d.setDirectPathToNode i q = .ok (d.modifyAlong (pathNodes n i) fun _ _ => q) := by
  rw [setDirectPathToNode, h.size, directPath_ofDepth hi]
  rfl

lemma AbDiff.mem_leafDiff_write (d : AbDiff (TreeSyncLeafNode D) (TreeSyncParentNode D))
    (path : List ℕ) (i j : ℕ) (x : Option (LeafNode D))
    (f : ℕ → Option (ParentNode D) → Option (ParentNode D)) :
    j ∈ ((d.replaceLeaf i x).modifyAlong path f).leafDiff ↔ j = i ∨ j ∈ d.leafDiff := by
  rw [(modifyAlong_frame _ path f).2.1]
  show j ∈ d.leafDiff.insert i x ↔ _
  rw [Std.TreeMap.mem_insert, Std.LawfulEqOrd.compare_eq_iff_eq, eq_comm]

namespace TreeSyncDiff

def contents (t : TreeSyncDiff D) : Contents D := t.diff.contents

def slots (t : TreeSyncDiff D) : ℕ := t.numMembers + t.blankedLeaves.length

/-- The diff is for a tree of depth `n`, and the counters describe it. -/
structure WellFormed (t : TreeSyncDiff D) (n : ℕ) : Prop where
  shaped : t.diff.Shaped n
  depth : n ≤ 29
  nodup : t.blankedLeaves.Nodup
  blanked : ∀ i ∈ t.blankedLeaves, i < t.slots ∧ t.contents.leaf i = none
  full : ∀ i < t.slots, i ∉ t.blankedLeaves → (t.contents.leaf i).isSome
  beyond : ∀ i, t.slots ≤ i → t.contents.leaf i = none
  lower : 2 ^ n < 2 * t.slots
  upper : t.slots ≤ 2 ^ n

/-- One operation of the proposals, at leaf `i`. -/
structure Edited (t : TreeSyncDiff D) (n : ℕ) (c : Change D) (i : ℕ) (t' : TreeSyncDiff D)
    (n' : ℕ) : Prop where
  wellFormed : t'.WellFormed n'
  contents : t'.contents = t.contents.edit n' i c.leaf fun _ => c.node i
  applies : c.Applies (t.contents.leaf i)
  hashes : t'.treeHashes = t.treeHashes
  tree : t'.diff.originalTree = t.diff.originalTree
  keys : ∀ j, j ∈ t'.diff.leafDiff ↔ j = i ∨ j ∈ t.diff.leafDiff
  depth : n' = n ∨ n' = n + 1 ∧ i = 2 ^ n
  inside : i < 2 ^ n'

variable {t : TreeSyncDiff D} {n i : ℕ}

namespace WellFormed

variable (h : t.WellFormed n)
include h

lemma beyond_depth : ∀ j, 2 ^ n ≤ j → t.contents.leaf j = none :=
  fun j hj => h.beyond j (h.upper.trans hj)

lemma leafCount : t.leafCount = 2 ^ n := by
  rw [TreeSyncDiff.leafCount, h.shaped.size, leafCount_ofDepth]

lemma rightmostFullLeaf : t.rightmostFullLeaf = t.slots - 1 := by
  have hmax : 2 ^ n ≤ 2 ^ 29 := Nat.pow_le_pow_right (by omega) h.depth
  have hlow := h.lower
  have hup := h.upper
  show (t.slots + (2 ^ 64 - 1)) % 2 ^ 32 = t.slots - 1
  omega

section

variable (hi : (t.contents.leaf i).isSome)
include hi

lemma lt_slots : i < t.slots := by
  by_contra hle
  rw [h.beyond i (by omega)] at hi
  cases hi

lemma lt_pow : i < 2 ^ n :=
  lt_of_lt_of_le (h.lt_slots hi) h.upper

lemma notMem_blankedLeaves : i ∉ t.blankedLeaves := fun hmem => by
  rw [(h.blanked i hmem).2] at hi
  cases hi

lemma numMembers_pos : 0 < t.numMembers := by
  have hnodup : (i :: t.blankedLeaves).Nodup :=
    nodup_cons.mpr ⟨h.notMem_blankedLeaves hi, h.nodup⟩
  have hsub : (i :: t.blankedLeaves) ⊆ List.range t.slots := by
    intro j hj
    rcases mem_cons.mp hj with rfl | hj
    · exact mem_range.mpr (h.lt_slots hi)
    · exact mem_range.mpr (h.blanked j hj).1
  have hle := (hnodup.subperm hsub).length_le
  rw [length_cons, length_range, slots] at hle
  omega

end

lemma congr {t' : TreeSyncDiff D} (hshaped : t'.diff.Shaped n)
    (hblanked : t'.blankedLeaves = t.blankedLeaves) (hmembers : t'.numMembers = t.numMembers)
    (hleaf : ∀ j, (t'.contents.leaf j).isSome = (t.contents.leaf j).isSome) : t'.WellFormed n := by
  have hslots : t'.slots = t.slots := by rw [slots, slots, hblanked, hmembers]
  have hnone : ∀ j, t.contents.leaf j = none → t'.contents.leaf j = none := fun j hj => by
    have := hleaf j
    rw [hj, Option.isSome_none] at this
    simpa using this
  exact {
    shaped := hshaped
    depth := h.depth
    nodup := hblanked ▸ h.nodup
    blanked := fun j hj => by
      rw [hblanked] at hj
      rw [hslots]
      exact ⟨(h.blanked j hj).1, hnone j (h.blanked j hj).2⟩
    full := fun j hj hnot => by
      rw [hslots] at hj
      rw [hblanked] at hnot
      exact (hleaf j).trans (h.full j hj hnot)
    beyond := fun j hj => hnone j (h.beyond j (hslots ▸ hj))
    lower := hslots ▸ h.lower
    upper := hslots ▸ h.upper }

end WellFormed

lemma trimTree_eq (hsize : t.diff.size = .ofDepth n)
    (hright : 2 ^ n ≤ 2 * t.rightmostFullLeaf + 1) : t.trimTree = .ok t := by
  unfold trimTree
  split_ifs with hone
  · rfl
  · have hleft : t.diff.size.leafIsLeft t.rightmostFullLeaf = false := by
      rw [hsize, leafIsLeft_ofDepth n hright]
    obtain ⟨m, hm⟩ : ∃ m, t.leafCount = m + 1 := ⟨_, rfl⟩
    rw [hm, trimLoop, if_neg (by simp [hleft])]
    rfl

/-! ## Updates and removals -/

lemma updateLeaf_spec (h : t.WellFormed n) (hi : (t.contents.leaf i).isSome) (l : LeafNode D) :
    ∃ t', t.updateLeaf l i = .ok t' ∧ t.Edited n (.update l) i t' n := by
  have hlt := h.lt_pow hi
  set d := (t.diff.replaceLeaf i (some l)).modifyAlong (pathNodes n i) fun _ _ => none with hd
  have hcontents : d.contents = t.contents.edit n i (some l) fun _ _ => none :=
    AbDiff.contents_write _ n i _ _
  refine ⟨{ t with diff := d }, ?_, ?_⟩
  · rw [updateLeaf, AbDiff.setDirectPathToNode_eq (h.shaped.replaceLeaf hlt _) hlt]
    rfl
  · have hleaf : ∀ j, (d.contents.leaf j).isSome = (t.contents.leaf j).isSome := by
      intro j
      rw [hcontents]
      by_cases hj : j = i
      · subst hj
        simp [hi]
      · rw [leaf_edit_of_ne hj]
    exact {
      wellFormed := h.congr (h.shaped.write hlt _ _) rfl rfl hleaf
      contents := hcontents
      applies := hi
      hashes := rfl
      tree := (AbDiff.modifyAlong_frame _ _ _).1
      keys := fun j => AbDiff.mem_leafDiff_write _ _ i j _ _
      depth := .inl rfl
      inside := hlt }

variable {f : ℕ → Option (ParentNode D) → Option (ParentNode D)} {t' : TreeSyncDiff D} {j : ℕ}

lemma WellFormed.blank (h : t.WellFormed n) (hi : (t.contents.leaf i).isSome)
    (hshaped : t'.diff.Shaped n) (hcontents : t'.contents = t.contents.edit n i none f)
    (hblanked : t'.blankedLeaves = t.blankedLeaves ++ [i])
    (hmembers : t'.numMembers = t.numMembers - 1) : t'.WellFormed n := by
  have hslots : t'.slots = t.slots := by
    have := h.numMembers_pos hi
    rw [slots, slots, hblanked, hmembers, length_append, length_singleton]
    omega
  have hleaf : ∀ j, j ≠ i → t'.contents.leaf j = t.contents.leaf j := fun j hj => by
    rw [hcontents, leaf_edit_of_ne hj]
  have hself : t'.contents.leaf i = none := by rw [hcontents, leaf_edit_self]
  have hnone : ∀ j, t.contents.leaf j = none → t'.contents.leaf j = none := fun j hj => by
    by_cases hji : j = i
    · rw [hji, hself]
    · rw [hleaf j hji, hj]
  exact {
    shaped := hshaped
    depth := h.depth
    nodup := by
      rw [hblanked]
      refine nodup_append.mpr ⟨h.nodup, nodup_singleton i, ?_⟩
      rintro j hj k hk rfl
      rw [mem_singleton.mp hk] at hj
      exact h.notMem_blankedLeaves hi hj
    blanked := fun j hj => by
      rw [hblanked] at hj
      rw [hslots]
      rcases mem_append.mp hj with hj | hj
      · exact ⟨(h.blanked j hj).1, hnone j (h.blanked j hj).2⟩
      · rw [mem_singleton.mp hj]
        exact ⟨h.lt_slots hi, hself⟩
    full := fun j hj hnot => by
      rw [hslots] at hj
      rw [hblanked] at hnot
      have hji : j ≠ i := fun hji => hnot (by simp [hji])
      rw [hleaf j hji]
      exact h.full j hj fun hmem => hnot (mem_append_left _ hmem)
    beyond := fun j hj => hnone j (h.beyond j (hslots ▸ hj))
    lower := hslots ▸ h.lower
    upper := hslots ▸ h.upper }

lemma blankLeaf_spec (h : t.WellFormed n) (hi : (t.contents.leaf i).isSome) :
    ∃ t', t.blankLeaf i = .ok t' ∧ t.Edited n .blank i t' n := by
  have hlt := h.lt_pow hi
  set d := (t.diff.replaceLeaf i none).modifyAlong (pathNodes n i) fun _ _ => none with hd
  have hshaped : d.Shaped n := h.shaped.write hlt _ _
  have hcontents : d.contents = t.contents.edit n i none fun _ _ => none :=
    AbDiff.contents_write _ n i _ _
  have htrim : trimTree { t with diff := d } = .ok { t with diff := d } := by
    refine trimTree_eq hshaped.size ?_
    have hright : ({ t with diff := d } : TreeSyncDiff D).rightmostFullLeaf = t.slots - 1 :=
      h.rightmostFullLeaf
    have hlow := h.lower
    omega
  have hcount : (t.numMembers + (2 ^ 64 - 1)) % 2 ^ 64 = t.numMembers - 1 := by
    have hmembers := h.numMembers_pos hi
    have hmax : 2 ^ n ≤ 2 ^ 29 := Nat.pow_le_pow_right (by omega) h.depth
    have hup := h.upper
    have : t.numMembers ≤ t.slots := Nat.le_add_right _ _
    omega
  refine ⟨{ t with
    diff := d
    blankedLeaves := t.blankedLeaves ++ [i]
    numMembers := t.numMembers - 1 }, ?_, ?_⟩
  · rw [blankLeaf, AbDiff.setDirectPathToNode_eq (h.shaped.replaceLeaf hlt _) hlt]
    show (trimTree { t with diff := d } >>= _) = _
    rw [htrim, ← hcount]
    rfl
  · exact {
      wellFormed := h.blank hi hshaped hcontents rfl rfl
      contents := hcontents
      applies := hi
      hashes := rfl
      tree := (AbDiff.modifyAlong_frame _ _ _).1
      keys := fun j => AbDiff.mem_leafDiff_write _ _ i j _ _
      depth := .inl rfl
      inside := hlt }

/-! ## Additions -/

lemma foldl_min_mem (is : List ℕ) (i : ℕ) : is.foldl min i ∈ i :: is := by
  induction is generalizing i with
  | nil => simp
  | cons k ks ih =>
    rw [foldl_cons]
    rcases mem_cons.mp (ih (min i k)) with h | h
    · rw [h]
      rcases min_choice i k with hm | hm <;> simp [hm]
    · exact .tail _ (.tail _ h)

lemma freeLeafIndex_cases (t : TreeSyncDiff D) :
    t.freeLeafIndex ∈ t.blankedLeaves ∨ t.blankedLeaves = [] ∧ t.freeLeafIndex = t.slots := by
  unfold TreeSyncDiff.freeLeafIndex
  cases hb : t.blankedLeaves with
  | nil => exact .inr ⟨rfl, by simp [slots, hb]⟩
  | cons k ks => exact .inl (foldl_min_mem ks k)

lemma WellFormed.freeLeafIndex_le (h : t.WellFormed n) : t.freeLeafIndex ≤ t.slots := by
  rcases t.freeLeafIndex_cases with hmem | ⟨-, heq⟩
  · exact le_of_lt (h.blanked _ hmem).1
  · exact le_of_eq heq

lemma WellFormed.leaf_freeLeafIndex (h : t.WellFormed n) :
    t.contents.leaf t.freeLeafIndex = none := by
  rcases t.freeLeafIndex_cases with hmem | ⟨-, heq⟩
  · exact (h.blanked _ hmem).2
  · exact h.beyond _ (le_of_eq heq.symm)

lemma foldl_min_le {is : List ℕ} (hj : j ∈ i :: is) : is.foldl min i ≤ j := by
  induction is generalizing i j with
  | nil => exact le_of_eq (mem_singleton.mp hj).symm
  | cons k ks ih =>
    rcases mem_cons.mp hj with rfl | hj
    · exact (ih mem_cons_self).trans (min_le_left _ _)
    · rcases mem_cons.mp hj with rfl | hj
      · exact (ih mem_cons_self).trans (min_le_right _ _)
      · exact ih (.tail _ hj)

lemma WellFormed.full_of_lt_freeLeafIndex (h : t.WellFormed n) (hj : j < t.freeLeafIndex) :
    (t.contents.leaf j).isSome := by
  refine h.full j (lt_of_lt_of_le hj h.freeLeafIndex_le) fun hmem => ?_
  have hle : t.freeLeafIndex ≤ j := by
    unfold TreeSyncDiff.freeLeafIndex
    cases hb : t.blankedLeaves with
    | nil =>
      rw [hb] at hmem
      cases hmem
    | cons k ks =>
      rw [hb] at hmem
      exact foldl_min_le hmem
  omega

lemma WellFormed.freeLeafIndex_eq (h : t.WellFormed n) (hj : t.contents.leaf j = none)
    (hfull : ∀ k < j, (t.contents.leaf k).isSome) : t.freeLeafIndex = j := by
  rcases Nat.lt_trichotomy t.freeLeafIndex j with hlt | heq | hgt
  · have := hfull _ hlt
    rw [h.leaf_freeLeafIndex] at this
    cases this
  · exact heq
  · have := h.full_of_lt_freeLeafIndex hgt
    rw [hj] at this
    cases this

lemma growLoop_spec {d : AbDiff (TreeSyncLeafNode D) (TreeSyncParentNode D)} (h : d.Shaped n)
    (hn : n ≤ 29) (hi : i ≤ 2 ^ n) :
    growLoop i (i + 1) d = .error .treeFull ∨
      ∃ d' n', growLoop i (i + 1) d = .ok d' ∧ d'.Shaped n' ∧ n' ≤ 29 ∧ i < 2 ^ n' ∧
        d'.contents = d.contents ∧ d'.leafDiff = d.leafDiff ∧ d'.originalTree = d.originalTree ∧
        (n' = n ∨ n' = n + 1 ∧ i = 2 ^ n) := by
  have hcount : d.size.leafCount = 2 ^ n := by rw [h.size, leafCount_ofDepth]
  have hpos : 0 < 2 ^ n := by positivity
  rcases Nat.lt_or_ge i (2 ^ n) with hlt | hge
  · refine .inr ⟨d, n, ?_, h, hn, hlt, rfl, rfl, rfl, .inl rfl⟩
    rw [growLoop, hcount, if_neg (by omega)]
  · obtain rfl : i = 2 ^ n := by omega
    rw [growLoop, hcount, if_pos (le_refl _)]
    rcases Nat.lt_or_ge n 29 with hlt | hge
    · have hgrow := h.growTree_eq hlt
      obtain ⟨hshaped, hleaf, hparent, hdiff, htree⟩ := h.growTree hgrow
      have hpow : 2 ^ (n + 1) = 2 * 2 ^ n := by rw [pow_succ, mul_comm]
      have hcount' : ({ d with size := d.size.inc } : AbDiff (TreeSyncLeafNode D)
          (TreeSyncParentNode D)).size.leafCount = 2 * 2 ^ n := by
        rw [hshaped.size, leafCount_ofDepth, hpow]
      obtain ⟨m, hm⟩ : ∃ m, 2 ^ n = m + 1 := ⟨2 ^ n - 1, by omega⟩
      refine .inr ⟨{ d with size := d.size.inc }, n + 1, ?_, hshaped, hlt, by omega, ?_, hdiff,
        htree, .inr ⟨rfl, rfl⟩⟩
      · rw [hgrow]
        show growLoop (2 ^ n) (2 ^ n) _ = _
        nth_rewrite 2 [hm]
        rw [growLoop, hcount', if_neg (by omega)]
      · rw [AbDiff.contents, AbDiff.contents, hleaf, hparent]
    · rw [h.growTree_error hge]
      exact .inl rfl

lemma WellFormed.slots_add (h : t.WellFormed n) :
    t.freeLeafIndex < t.slots ∧
        t.numMembers + 1 + (t.blankedLeaves.filter (· ≠ t.freeLeafIndex)).length = t.slots ∨
      t.freeLeafIndex = t.slots ∧
        t.numMembers + 1 + (t.blankedLeaves.filter (· ≠ t.freeLeafIndex)).length = t.slots + 1 := by
  rcases t.freeLeafIndex_cases with hmem | ⟨hnil, heq⟩
  · refine .inl ⟨(h.blanked _ hmem).1, ?_⟩
    have herase : t.blankedLeaves.filter (· ≠ t.freeLeafIndex) =
        t.blankedLeaves.erase t.freeLeafIndex := by
      rw [h.nodup.erase_eq_filter]
      refine filter_congr fun j _ => ?_
      by_cases hj : j = t.freeLeafIndex <;> simp [hj]
    have hlen := length_pos_of_mem hmem
    rw [herase, length_erase_of_mem hmem, slots]
    omega
  · refine .inr ⟨heq, ?_⟩
    rw [hnil, slots, hnil]
    simp

lemma WellFormed.add (h : t.WellFormed n) (hi : i = t.freeLeafIndex) {l : LeafNode D} {n' : ℕ}
    (hshaped : t'.diff.Shaped n') (hn' : n' ≤ 29) (hdepth : n' = n ∨ n' = n + 1 ∧ i = 2 ^ n)
    (hlt : i < 2 ^ n') (hcontents : t'.contents = t.contents.edit n' i (some l) f)
    (hblanked : t'.blankedLeaves = t.blankedLeaves.filter (· ≠ i))
    (hmembers : t'.numMembers = t.numMembers + 1) : t'.WellFormed n' := by
  have hslots : i < t.slots ∧ t'.slots = t.slots ∨ i = t.slots ∧ t'.slots = t.slots + 1 := by
    have hcount : t'.slots =
        t.numMembers + 1 + (t.blankedLeaves.filter (· ≠ t.freeLeafIndex)).length := by
      rw [slots, hblanked, hmembers, hi]
    rw [hcount, hi]
    exact h.slots_add
  have hleaf : ∀ j, j ≠ i → t'.contents.leaf j = t.contents.leaf j := fun j hj => by
    rw [hcontents, leaf_edit_of_ne hj]
  have hup := h.upper
  have hlow := h.lower
  exact {
    shaped := hshaped
    depth := hn'
    nodup := by
      rw [hblanked]
      exact h.nodup.filter _
    blanked := fun j hj => by
      rw [hblanked] at hj
      obtain ⟨hj, hne⟩ := mem_filter.mp hj
      rw [hleaf j (by simpa using hne)]
      exact ⟨by have := (h.blanked j hj).1; omega, (h.blanked j hj).2⟩
    full := fun j hj hnot => by
      by_cases hji : j = i
      · rw [hji, hcontents, leaf_edit_self]
        rfl
      · rw [hleaf j hji]
        rw [hblanked] at hnot
        refine h.full j (by omega) fun hmem => hnot (mem_filter.mpr ⟨hmem, ?_⟩)
        simpa using hji
    beyond := fun j hj => by
      rw [hleaf j (by omega)]
      exact h.beyond j (by omega)
    lower := by
      rcases hdepth with rfl | ⟨rfl, hfull⟩ <;> omega
    upper := by
      rcases hdepth with rfl | ⟨rfl, hfull⟩ <;> omega }

lemma addLeaf_spec (h : t.WellFormed n) (l : LeafNode D) :
    t.addLeaf l = .error .treeFull ∨
      ∃ t' n', t.addLeaf l = .ok (t', t.freeLeafIndex) ∧
        t.Edited n (.add l) t.freeLeafIndex t' n' := by
  set i := t.freeLeafIndex with hi
  rcases growLoop_spec h.shaped h.depth (le_trans h.freeLeafIndex_le h.upper) with
    hfull | ⟨d, n', hgrow, hshaped, hn', hlt, hsame, hdiff, htree, hdepth⟩
  · left
    rw [addLeaf, hfull]
    rfl
  · right
    set d' := (d.replaceLeaf i (some l)).modifyAlong (pathNodes n' i)
      fun _ => Option.map (ParentNode.addUnmergedLeaf i) with hd'
    have hshaped' : d'.Shaped n' := hshaped.write hlt _ _
    have hcontents : d'.contents =
        t.contents.edit n' i (some l) fun _ => Option.map (ParentNode.addUnmergedLeaf i) := by
      rw [hd', AbDiff.contents_write, hsame]
      rfl
    refine ⟨{ t with
      diff := d'
      blankedLeaves := t.blankedLeaves.filter (· ≠ i)
      numMembers := t.numMembers + 1 }, n', ?_, ?_⟩
    · rw [addLeaf, ← hi, hgrow]
      show (lift (directPath i d.size) >>= _) = _
      rw [hshaped.size, directPath_ofDepth hlt]
      rfl
    · exact {
        wellFormed := h.add hi hshaped' hn' hdepth hlt hcontents rfl rfl
        contents := hcontents
        applies := h.leaf_freeLeafIndex
        hashes := rfl
        tree := (AbDiff.modifyAlong_frame _ _ _).1.trans htree
        keys := fun j => by
          have := AbDiff.mem_leafDiff_write d (pathNodes n' i) i j (some l)
            fun _ => Option.map (ParentNode.addUnmergedLeaf i)
          rwa [hdiff] at this
        depth := hdepth
        inside := hlt }

lemma Edited.full_of_add {t' : TreeSyncDiff D} {n' : ℕ} {l : LeafNode D}
    (h : t.Edited n (.add l) i t' n') : (t'.contents.leaf i).isSome := by
  rw [h.contents, leaf_edit_self]
  rfl

/-! ## Sequences of operations -/

/-- A sequence of operations, each with its leaf. -/
inductive Changes : TreeSyncDiff D → ℕ → List (ℕ × Change D) → TreeSyncDiff D → ℕ → Prop where
  | nil {t : TreeSyncDiff D} {n : ℕ} : Changes t n [] t n
  | cons {t t' t'' : TreeSyncDiff D} {n n' n'' i : ℕ} {c : Change D} {cs : List (ℕ × Change D)}
      (first : t.Edited n c i t' n') (rest : Changes t' n' cs t'' n'') :
      Changes t n ((i, c) :: cs) t'' n''

namespace Changes

variable {t' t'' : TreeSyncDiff D} {n' n'' : ℕ} {cs cs' : List (ℕ × Change D)}

lemma append (h : Changes t n cs t' n') (h' : Changes t' n' cs' t'' n'') :
    Changes t n (cs ++ cs') t'' n'' := by
  induction h with
  | nil => exact h'
  | cons first _ ih => exact .cons first (ih h')

lemma split (h : Changes t n (cs ++ cs') t'' n'') :
    ∃ t' n', Changes t n cs t' n' ∧ Changes t' n' cs' t'' n'' := by
  induction cs generalizing t n with
  | nil => exact ⟨t, n, .nil, h⟩
  | cons e cs ih =>
    cases h with
    | cons first rest =>
      obtain ⟨t', n', h1, h2⟩ := ih rest
      exact ⟨t', n', .cons first h1, h2⟩

variable (h : Changes t n cs t' n')
include h

lemma wellFormed (ht : t.WellFormed n) : t'.WellFormed n' := by
  induction h with
  | nil => exact ht
  | cons first _ ih => exact ih first.wellFormed

lemma frame :
    t'.treeHashes = t.treeHashes ∧ t'.diff.originalTree = t.diff.originalTree ∧ n ≤ n' := by
  induction h with
  | nil => exact ⟨rfl, rfl, le_refl _⟩
  | cons first _ ih =>
    refine ⟨ih.1.trans first.hashes, ih.2.1.trans first.tree, le_trans ?_ ih.2.2⟩
    rcases first.depth with hsame | ⟨hgrown, -⟩ <;> omega

lemma keys (j : ℕ) : j ∈ t'.diff.leafDiff ↔ j ∈ cs.map Prod.fst ∨ j ∈ t.diff.leafDiff := by
  induction h with
  | nil => simp
  | cons first _ ih =>
    rw [ih, first.keys, map_cons, mem_cons]
    tauto

lemma agreeOff : Contents.AgreeOff {j | j ∈ t'.diff.leafDiff} t.contents t'.contents := by
  induction h with
  | nil => exact .refl _ _
  | @cons t t1 t' n n1 n' i c cs first rest ih =>
    refine Contents.AgreeOff.trans ?_ ih
    rw [first.contents]
    refine (agreeOff_edit _ _ _ _ _).mono fun j hj => ?_
    rw [Set.mem_singleton_iff.mp hj]
    exact (rest.keys i).mpr (.inr ((first.keys i).mpr (.inl rfl)))

lemma full {j : ℕ} (hj : (t.contents.leaf j).isSome) (hcs : (j, Change.blank) ∉ cs) :
    (t'.contents.leaf j).isSome := by
  induction h with
  | nil => exact hj
  | @cons t t1 t' n n1 n' i c cs first _ ih =>
    refine ih ?_ fun hmem => hcs (.tail _ hmem)
    rw [first.contents]
    by_cases hji : j = i
    · subst hji
      rw [leaf_edit_self]
      cases c with
      | update l => rfl
      | blank => exact absurd mem_cons_self hcs
      | add l => rfl
    · rwa [leaf_edit_of_ne hji]

end Changes

/-- The operations of a commit: updates, then removals, then additions. -/
def operations (us : List (ℕ × LeafNode D)) (removes : List ℕ) (added : List (ℕ × LeafNode D)) :
    List (ℕ × Change D) :=
  us.map (fun e => (e.1, .update e.2)) ++ removes.map (fun i => (i, .blank)) ++
    added.map fun e => (e.1, .add e.2)

lemma blank_mem_operations {us added : List (ℕ × LeafNode D)} {removes : List ℕ} :
    (j, .blank) ∈ operations us removes added ↔ j ∈ removes := by
  simp [operations]

namespace Changes

variable {t' : TreeSyncDiff D} {n' : ℕ} {us added : List (ℕ × LeafNode D)} {removes : List ℕ}

lemma added_blank (h : Changes t n (added.map fun e => (e.1, .add e.2)) t' n') :
    (added.map Prod.fst).Nodup ∧
      ∀ e ∈ added, t.contents.leaf e.1 = none ∧ (t'.contents.leaf e.1).isSome := by
  induction added generalizing t n with
  | nil => exact ⟨nodup_nil, fun e he => absurd he not_mem_nil⟩
  | cons e added ih =>
    cases h with
    | @cons _ t1 _ _ n1 _ _ _ _ first rest =>
      obtain ⟨hnodup, hall⟩ := ih rest
      have hself : (t1.contents.leaf e.1).isSome := by
        rw [first.contents, leaf_edit_self]
        rfl
      have hne : ∀ e' ∈ added, e'.1 ≠ e.1 := fun e' he' heq => by
        rw [← heq, (hall e' he').1] at hself
        cases hself
      refine ⟨nodup_cons.mpr ⟨fun hmem => ?_, hnodup⟩, fun e' he' => ?_⟩
      · obtain ⟨e', he', heq⟩ := mem_map.mp hmem
        exact hne e' he' heq
      · rcases mem_cons.mp he' with rfl | he'
        · exact ⟨first.applies, rest.full hself (by simp)⟩
        · have hblank := (hall e' he').1
          rw [first.contents, leaf_edit_of_ne (hne e' he')] at hblank
          exact ⟨hblank, (hall e' he').2⟩

lemma new_members (h : Changes t n (operations us removes added) t' n') :
    (added.map Prod.fst).Nodup ∧ ∀ e ∈ added,
      (t.contents.leaf e.1 = none ∨ e.1 ∈ removes) ∧ (t'.contents.leaf e.1).isSome := by
  obtain ⟨t1, n1, hbefore, hafter⟩ := h.split
  obtain ⟨hnodup, hall⟩ := hafter.added_blank
  refine ⟨hnodup, fun e he => ⟨?_, (hall e he).2⟩⟩
  by_contra hcon
  rw [not_or, ← ne_eq, Option.ne_none_iff_isSome] at hcon
  have hfull := hbefore.full hcon.1 (by simpa using hcon.2)
  rw [(hall e he).1] at hfull
  cases hfull

end Changes

end TreeSyncDiff

end EmulatedMls
