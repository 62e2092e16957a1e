import EmulatedMls.Tree.Hashes

/-!
# What a ratchet tree holds

The abstract ratchet tree: a leaf or a blank at every position, and a parent or a blank above every
pair of nodes.  Indices, sizes, diffs and caches of the implementation do not occur here.
-/

namespace EmulatedMls

/-- The nodes of a tree.  `parent k p` is the one at position `p` of level `k + 1`. -/
@[ext] structure Contents (D : Type) where
  leaf : ℕ → Option (LeafNode D)
  parent : ℕ → ℕ → Option (ParentNode D)

namespace Contents

variable {D : Type}

/-- The tree hash of the node at position `p` of level `k`. -/
def hashAt (H : HashSuite D) (C : Contents D) : ℕ → ℕ → D
  | 0, p => H.treeHash (.leaf p (C.leaf p))
  | k + 1, p => H.treeHash (.parent (C.parent k p) (hashAt H C k (2 * p))
      (hashAt H C k (2 * p + 1)))

/-- There is a full leaf below the node at position `p` of level `k`. -/
def HasLeaf (C : Contents D) (k p : ℕ) : Prop := ∃ i, i / 2 ^ k = p ∧ (C.leaf i).isSome

def exclude (excluded : List ℕ) (C : Contents D) : Contents D where
  leaf i := if i ∈ excluded then none else C.leaf i
  parent k p := (C.parent k p).map (ParentNode.exclude excluded)

/-- Put `x` at leaf `i` and change the parents above it up to level `n`. -/
def edit (C : Contents D) (n i : ℕ) (x : Option (LeafNode D))
    (f : ℕ → Option (ParentNode D) → Option (ParentNode D)) : Contents D where
  leaf j := if j = i then x else C.leaf j
  parent k p := if k < n ∧ p = i / 2 ^ (k + 1) then f k (C.parent k p) else C.parent k p

@[simp] lemma exclude_nil (C : Contents D) : C.exclude [] = C := by
  ext1
  · funext i
    simp [exclude]
  · funext k p
    have hid : (ParentNode.exclude [] : ParentNode D → ParentNode D) = id := by
      funext q
      simp [ParentNode.exclude]
    show (C.parent k p).map (ParentNode.exclude []) = _
    rw [hid, Option.map_id]
    rfl

variable {k p : ℕ}

lemma HasLeaf.parent {C : Contents D} {c : ℕ} (h : C.HasLeaf k c) (hc : c / 2 = p) :
    C.HasLeaf (k + 1) p := by
  obtain ⟨i, hi, hfull⟩ := h
  exact ⟨i, by rw [div_two_pow_succ, hi, hc], hfull⟩

section Edit

variable {C : Contents D} {n i : ℕ} {x : Option (LeafNode D)}
  {f : ℕ → Option (ParentNode D) → Option (ParentNode D)}

@[simp] lemma leaf_edit_self : (C.edit n i x f).leaf i = x := if_pos rfl

lemma leaf_edit_of_ne {j : ℕ} (h : j ≠ i) : (C.edit n i x f).leaf j = C.leaf j := if_neg h

variable {k p : ℕ}

lemma parent_edit_above (h : k < n) :
    (C.edit n i x f).parent k (i / 2 ^ (k + 1)) = f k (C.parent k (i / 2 ^ (k + 1))) :=
  if_pos ⟨h, rfl⟩

lemma parent_edit_of_ne (h : i / 2 ^ (k + 1) ≠ p) :
    (C.edit n i x f).parent k p = C.parent k p := if_neg fun hp => h hp.2.symm

/-- **A parent after an edit** is a changed one above the leaf, or it was there before. -/
lemma parent_edit_cases {q : ParentNode D} (h : (C.edit n i x f).parent k p = some q) :
    (k < n ∧ p = i / 2 ^ (k + 1) ∧ f k (C.parent k p) = some q) ∨
      (¬ (k < n ∧ p = i / 2 ^ (k + 1)) ∧ C.parent k p = some q) := by
  simp only [edit] at h
  split_ifs at h with hp
  · exact .inl ⟨hp.1, hp.2, h⟩
  · exact .inr ⟨hp, h⟩

lemma div_ne_of_div_succ_ne (h : i / 2 ^ (k + 1) ≠ p) :
    i / 2 ^ k ≠ 2 * p ∧ i / 2 ^ k ≠ 2 * p + 1 := by
  rw [div_two_pow_succ] at h
  omega

end Edit

/-! ## Trees that differ along some paths -/

/-- Off the paths of the leaves in `M` the second tree holds what the first one holds. -/
structure AgreeOff (M : Set ℕ) (C C' : Contents D) : Prop where
  leaf : ∀ i ∉ M, C'.leaf i = C.leaf i
  parent : ∀ k p, (∀ i ∈ M, i / 2 ^ (k + 1) ≠ p) → C'.parent k p = C.parent k p

lemma agreeOff_edit (C : Contents D) (n i : ℕ) (x : Option (LeafNode D))
    (f : ℕ → Option (ParentNode D) → Option (ParentNode D)) : AgreeOff {i} C (C.edit n i x f) where
  leaf _ hj := leaf_edit_of_ne hj
  parent _ _ hp := parent_edit_of_ne (hp i rfl)

namespace AgreeOff

variable {M M' : Set ℕ} {C C' C'' : Contents D}

lemma refl (M : Set ℕ) (C : Contents D) : AgreeOff M C C := ⟨fun _ _ => rfl, fun _ _ _ => rfl⟩

lemma trans (h : AgreeOff M C C') (h' : AgreeOff M C' C'') : AgreeOff M C C'' where
  leaf i hi := (h'.leaf i hi).trans (h.leaf i hi)
  parent k p hp := (h'.parent k p hp).trans (h.parent k p hp)

lemma mono (h : AgreeOff M C C') (hsub : M ⊆ M') : AgreeOff M' C C' where
  leaf i hi := h.leaf i fun hM => hi (hsub hM)
  parent k p hp := h.parent k p fun i hi => hp i (hsub hi)

/-- **The hashes off the paths are the same.** -/
lemma hashAt_eq (h : AgreeOff M C C') (H : HashSuite D) (hp : ∀ i ∈ M, i / 2 ^ k ≠ p) :
    C'.hashAt H k p = C.hashAt H k p := by
  induction k generalizing p with
  | zero =>
    have hleaf : p ∉ M := fun hM => hp p hM (by simp)
    simp only [hashAt, h.leaf p hleaf]
  | succ k ih =>
    have hl := ih fun i hi => (div_ne_of_div_succ_ne (hp i hi)).1
    have hr := ih fun i hi => (div_ne_of_div_succ_ne (hp i hi)).2
    simp only [hashAt, h.parent k p hp, hl, hr]

end AgreeOff

end Contents

end EmulatedMls
