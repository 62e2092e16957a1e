import EmulatedMls.Tree.Session

/-!
# Resolutions

The resolution of a node is the list of the nodes that are not blank and cover all full leaves below
it.  The implementation does not look below a blank parent that lies to the right of the last slot.
-/

namespace EmulatedMls

open Contents List

variable {D : Type} {H : HashSuite D}

namespace TreeSyncDiff

/-- The resolution of a node: full nodes are listed, a blank parent is opened. -/
def rfcResolution (t : TreeSyncDiff D) (x : TreeNodeIndex) :
    List (TreeNodeIndex × NodeReference D) :=
  x.fold
    (fun i => match t.diff.leaf i with
      | some l => [(.leaf i, .leaf l)]
      | none => [])
    (fun j ls rs => match t.diff.parent j with
      | some q => (.parent j, .parent q) :: q.unmergedLeaves.filterMap fun i =>
        (t.diff.leaf i).map fun l => (.leaf i, .leaf l)
      | none => ls ++ rs)
    []

def withoutLeaves (excluded : List ℕ) (xs : List (TreeNodeIndex × NodeReference D)) :
    List (TreeNodeIndex × NodeReference D) :=
  xs.filter fun e => match e.1 with
    | .leaf i => i ∉ excluded
    | .parent _ => true

end TreeSyncDiff

/-- Every parent has a slot below it. -/
def Contents.Placed (C : Contents D) (slots : ℕ) : Prop :=
  ∀ k p q, C.parent k p = some q → p * 2 ^ (k + 1) < slots

open TreeSyncDiff

section Placed

variable {C : Contents D} {n i slots slots' : ℕ} {x : Option (LeafNode D)}
  {f : ℕ → Option (ParentNode D) → Option (ParentNode D)}

lemma Contents.Placed.edit (h : C.Placed slots) (hslots : slots ≤ slots') (hi : i < slots') :
    (C.edit n i x f).Placed slots' := by
  intro k p q hq
  by_cases hp : i / 2 ^ (k + 1) = p
  · subst hp
    exact lt_of_le_of_lt (Nat.div_mul_le_self _ _) hi
  · rw [parent_edit_of_ne hp] at hq
    exact lt_of_lt_of_le (h k p q hq) hslots

lemma stable_placed : Stable (Contents.Placed (D := D)) where
  edit {t t' n n' i c} hwf hedit hslots h := by
    rw [hedit.contents]
    refine h.edit hslots ?_
    have happlies := hedit.applies
    cases c with
    | update l | blank => exact lt_of_lt_of_le (hwf.lt_slots happlies) hslots
    | add l => exact hedit.wellFormed.lt_slots hedit.full_of_add
  path {t t' n i ns l} hwf hi hpath h := by
    have hslots : t'.slots = t.slots := by rw [slots, slots, hpath.blankedLeaves, hpath.numMembers]
    rw [hpath.contents, hslots]
    exact h.edit (le_refl _) (hwf.lt_slots hi)

end Placed

namespace TreeSync

variable [DecidableEq D]

lemma placed_of_fresh {t : TreeSync D} {m : ℕ} (h : t.Fresh H) (hwf : t.emptyDiff.WellFormed m) :
    t.contents.Placed t.emptyDiff.slots := by
  rcases h with ⟨l, hnew⟩ | ⟨r, himport⟩
  · obtain ⟨t', hnew', -, -, hcontents⟩ := new_spec (H := H) l
    obtain rfl := Exec.unique hnew' hnew
    rw [hcontents]
    intro k p q hq
    cases hq
  · cases hnodes : ABinaryTree.new (toTreeNodes 0 r.nodes) with
    | error e =>
      rw [fromRatchetTree, hnodes] at himport
      cases himport
    | ok tree =>
      obtain ⟨n, t1, t2, heq, -, -, -, hcontents1, hcontents2⟩ :=
        fromRatchetTree_eq (H := H) hnodes
      rw [heq] at himport
      obtain ⟨-, -, hok⟩ := Exec.bind_inv himport
      obtain rfl := Except.ok.inj hok
      obtain ⟨m', hleaves, hparents, -, hlast⟩ := new_toTreeNodes hnodes
      have hslot : m' < t2.emptyDiff.slots := by
        refine hwf.lt_slots ?_
        show (t2.contents.leaf m').isSome
        rw [hcontents2, hcontents1]
        exact hlast
      intro k p q hq
      rw [hcontents2, hcontents1] at hq
      have hlt : inorder k p < m' := by
        by_contra hge
        have hnone : tree.parentByIndex (inorder k p) = none :=
          getD_eq_default _ _ (by rw [hparents]; exact Nat.not_lt.mp hge)
        rw [show tree.parentByIndex (inorder k p) = some q from hq] at hnone
        cases hnone
      have hleft : p * 2 ^ (k + 1) ≤ inorder k p + 1 := by
        rw [inorder_add_one, pow_succ]
        nlinarith [Nat.zero_le (2 ^ k), Nat.zero_le p]
      omega

end TreeSync

namespace TreeSyncDiff

variable {t : TreeSyncDiff D} {k p : ℕ}

lemma rfcResolution_leaf : t.rfcResolution (nodeAt 0 p) = (t.leafReference [] p).toList := by
  rw [nodeAt_zero, rfcResolution, fold_leaf, leafReference, exclude_nil]
  show _ = ((t.diff.leaf p).map _).toList
  cases t.diff.leaf p <;> rfl

lemma rfcResolution_of_some {q : ParentNode D} (h : t.contents.parent k p = some q) :
    t.rfcResolution (nodeAt (k + 1) p) =
      (.parent (inorder k p), .parent q) :: q.unmergedLeaves.filterMap (t.leafReference []) := by
  have hparent : t.diff.parent (inorder k p) = some q := h
  rw [rfcResolution, fold_at_succ, hparent]
  rfl

lemma rfcResolution_of_none (h : t.contents.parent k p = none) :
    t.rfcResolution (nodeAt (k + 1) p) =
      t.rfcResolution (nodeAt k (2 * p)) ++
        t.rfcResolution (nodeAt k (2 * p + 1)) := by
  have hparent : t.diff.parent (inorder k p) = none := h
  unfold rfcResolution
  rw [fold_at_succ, hparent]

lemma withoutLeaves_filterMap (excluded is : List ℕ) :
    withoutLeaves excluded (is.filterMap (t.leafReference [])) =
      is.filterMap (t.leafReference excluded) := by
  unfold withoutLeaves
  rw [filter_filterMap]
  refine filterMap_congr fun i _ => ?_
  simp only [leafReference, exclude_nil]
  simp only [Contents.exclude]
  cases t.contents.leaf i <;> by_cases hi : i ∈ excluded <;> simp [hi, Option.filter]

lemma resolution_excluded {r : ℕ} (excluded : List ℕ) :
    t.resolution (nodeAt k p) excluded r =
      withoutLeaves excluded (t.resolution (nodeAt k p) [] r) := by
  induction k generalizing p with
  | zero =>
    have hone := withoutLeaves_filterMap (t := t) excluded [p]
    rw [resolution_leaf, resolution_leaf]
    cases hl : t.leafReference [] p <;> cases hl' : t.leafReference excluded p <;>
      simp_all
  | succ k ih =>
    cases hq : t.contents.parent k p with
    | some q =>
      rw [resolution_of_some hq, resolution_of_some hq, ← withoutLeaves_filterMap]
      rfl
    | none =>
      rw [resolution_of_none hq, resolution_of_none hq]
      split_ifs
      · rfl
      · rw [ih, ih, withoutLeaves, withoutLeaves, withoutLeaves, filter_append]

variable {n : ℕ}

lemma rfcResolution_eq_nil (h : t.WellFormed n) (hplaced : t.contents.Placed t.slots)
    (hp : t.slots ≤ p * 2 ^ k) : t.rfcResolution (nodeAt k p) = [] := by
  induction k generalizing p with
  | zero =>
    rw [rfcResolution_leaf, leafReference, exclude_nil, h.beyond p (by simpa using hp)]
    rfl
  | succ k ih =>
    have hnone : t.contents.parent k p = none := by
      cases hq : t.contents.parent k p with
      | none => rfl
      | some q => exact absurd (hplaced k p q hq) (Nat.not_lt.mpr hp)
    have hpow : p * 2 ^ (k + 1) = 2 * p * 2 ^ k := by ring
    rw [hpow] at hp
    rw [rfcResolution_of_none hnone, ih hp, ih (hp.trans (Nat.mul_le_mul_right _ (by omega)))]
    rfl

/-- **Pruning costs nothing.** -/
lemma resolution_eq (h : t.WellFormed n) (hplaced : t.contents.Placed t.slots) (excluded : List ℕ) :
    t.resolution (nodeAt k p) excluded t.rightmostFullLeaf =
      withoutLeaves excluded (t.rfcResolution (nodeAt k p)) := by
  rw [resolution_excluded]
  refine congrArg _ ?_
  induction k generalizing p with
  | zero => rw [resolution_leaf, rfcResolution_leaf]
  | succ k ih =>
    cases hq : t.contents.parent k p with
    | some q => rw [resolution_of_some hq, rfcResolution_of_some hq]
    | none =>
      rw [resolution_of_none hq]
      split_ifs with hcut
      · have hlow := h.lower
        rw [h.rightmostFullLeaf] at hcut
        rw [rfcResolution_eq_nil h hplaced (by omega)]
      · rw [ih, ih, rfcResolution_of_none hq]

end TreeSyncDiff

/-- **Resolutions are exact.**  In every session the resolution of every node is that of the RFC
    without the excluded leaves, in the same order. -/
theorem resolution_exact [DecidableEq D] (H : HashSuite D) {s : Session D}
    (h : (sessions H).Reaches (fun s o => o.OfMember s) s) (x : TreeNodeIndex) (excluded : List ℕ) :
    s.diff.resolution x excluded s.diff.rightmostFullLeaf =
      withoutLeaves excluded (s.diff.rfcResolution x) := by
  obtain ⟨⟨-, ⟨n, hn⟩, -⟩, -, hplaced⟩ :=
    Session.invariant stable_placed (fun _ _ hfresh hwf => TreeSync.placed_of_fresh hfresh hwf) h
  cases x with
  | leaf i =>
    rw [← nodeAt_zero]
    exact resolution_eq hn hplaced excluded
  | parent j =>
    obtain ⟨k, p, rfl⟩ := exists_inorder j
    exact resolution_eq (k := k + 1) (p := p) hn hplaced excluded

/-- Five members, of whom the third is removed and the fourth is excluded. -/
theorem resolution_exact_blank_inside :
    ∃ s, smallSession (fun s o => decide (o.OfMember s))
        [.addLeaf (memberLeaf 1), .addLeaf (memberLeaf 2), .addLeaf (memberLeaf 3),
          .addLeaf (memberLeaf 4), .blankLeaf 2] = some s ∧
      s.diff.resolution (root s.diff.diff.size) [3] s.diff.rightmostFullLeaf =
        withoutLeaves [3] (s.diff.rfcResolution (root s.diff.diff.size)) := by
  refine exists_some_imp (P := fun s => s.diff.leafCount = 8) (by decide +kernel) fun s hs _ => ?_
  exact resolution_exact plainHash
    (reaches_smallSession (fun _ _ h => of_decide_eq_true h) hs) _ _

end EmulatedMls
