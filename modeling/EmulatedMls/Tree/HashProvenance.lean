import EmulatedMls.Tree.ParentHashes

/-!
# Where the parent hashes come from

An injective hash may still have a value that occurs in its own input.  No such value gets into a
tree: the parent hashes of a tree are all computed from trees that were there before.
-/

namespace EmulatedMls

variable {D : Type} {H : HashSuite D}

open List TreeSyncDiff

namespace Contents

/-- The parent hash `x` occurs at or below the node at position `p` of level `k`. -/
def Occurs (C : Contents D) (x : D) : ℕ → ℕ → Prop
  | 0, p => C.LeafCarries x p
  | k + 1, p => (∃ q, C.parent k p = some q ∧ q.parentHash = x) ∨
      C.Occurs x k (2 * p) ∨ C.Occurs x k (2 * p + 1)

variable {C C' : Contents D} {x : D} {k p : ℕ}

lemma Occurs.parent {c : ℕ} (h : C.Occurs x k c) : C.Occurs x (k + 1) (c / 2) := by
  rcases sib_cases c with ⟨hc, -⟩ | ⟨hc, -⟩ <;> rw [hc] at h
  · exact .inr (.inl h)
  · exact .inr (.inr h)

lemma Carries.occurs (h : C.Carries x k p) : C.Occurs x k p := by
  induction k generalizing p with
  | zero => exact h
  | succ k ih =>
    rw [Carries] at h
    cases hq : C.parent k p with
    | some q =>
      rw [hq] at h
      rcases h with hx | ⟨i, -, rfl, hi⟩
      · exact .inl ⟨q, hq, hx⟩
      · clear hq ih
        induction k + 1 with
        | zero =>
          rw [pow_zero, Nat.div_one]
          exact hi
        | succ m ihm =>
          rw [div_two_pow_succ]
          exact ihm.parent
    | none =>
      rw [hq] at h
      exact .inr (h.imp ih ih)

/-- **Equal tree hashes have the same parent hashes below them.** -/
lemma Occurs.of_hashAt_eq (hfree : H.CollisionFree) {k' p' : ℕ} (h : C.Occurs x k p)
    (heq : C.hashAt H k p = C'.hashAt H k' p') : C'.Occurs x k' p' := by
  induction k generalizing p k' p' with
  | zero =>
    cases k' with
    | zero =>
      obtain ⟨rfl, hleaf⟩ := TreeHashInput.leaf.inj (hfree.treeHash heq)
      obtain ⟨l, hl, hx⟩ := h
      exact ⟨l, hleaf ▸ hl, hx⟩
    | succ k' => cases hfree.treeHash heq
  | succ k ih =>
    cases k' with
    | zero => cases hfree.treeHash heq
    | succ k' =>
      obtain ⟨hparent, hleft, hright⟩ := TreeHashInput.parent.inj (hfree.treeHash heq)
      rcases h with ⟨q, hq, hx⟩ | h | h
      · exact .inl ⟨q, hparent ▸ hq, hx⟩
      · exact .inr (.inl (ih h hleft))
      · exact .inr (.inr (ih h hright))

end Contents

/-- The parent hash `y` occurs in the subtree whose hash went into the parent hash `x`. -/
def Precedes (H : HashSuite D) (y x : D) : Prop :=
  ∃ (key : Key) (above : D) (C : Contents D) (k p : ℕ),
    x = H.parentHash ⟨key, above, C.hashAt H k p⟩ ∧ C.Occurs y k p

variable {x : D}

lemma not_precedes_of_acc {y : D} (hx : Acc (Precedes H) x) (hyx : Precedes H y x) :
    ¬ Precedes H x y := by
  induction hx generalizing y with
  | intro x _ ih => exact fun hxy => ih y hyx hxy hyx

variable {k p : ℕ}

/-- A parent hash can be traced back if all those below it can. -/
lemma acc_parentHash (hfree : H.CollisionFree) {C : Contents D}
    (h : ∀ y, C.Occurs y k p → Acc (Precedes H) y) (key : Key) (above : D) :
    Acc (Precedes H) (H.parentHash ⟨key, above, C.hashAt H k p⟩) := by
  refine .intro _ fun y hy => h y ?_
  obtain ⟨key', above', C', k', p', heq, hoccurs⟩ := hy
  obtain ⟨-, -, hhash⟩ := ParentHashInput.mk.inj (hfree.parentHash heq)
  exact hoccurs.of_hashAt_eq hfree hhash.symm

lemma acc_empty (hfree : H.CollisionFree) : Acc (Precedes H) H.empty :=
  .intro _ fun _ ⟨_, _, _, _, _, heq, _⟩ => absurd heq.symm (hfree.parentHash_ne_empty _)

namespace Contents

/-- The parent hashes of the tree, those of the leaves in `M` apart, can be traced back. -/
structure Grounded (H : HashSuite D) (M : Set ℕ) (C : Contents D) : Prop where
  leaf : ∀ i ∉ M, ∀ x, C.LeafCarries x i → Acc (Precedes H) x
  parent : ∀ k p q, C.parent k p = some q → Acc (Precedes H) q.parentHash

namespace Grounded

variable {C : Contents D} {M : Set ℕ} {n i : ℕ} {M' : Set ℕ}

lemma mono (h : C.Grounded H M) (hsub : M ⊆ M') : C.Grounded H M' :=
  ⟨fun i hi => h.leaf i fun hM => hi (hsub hM), h.parent⟩

lemma acc (h : C.Grounded H M) (hp : ∀ j ∈ M, j / 2 ^ k ≠ p) (hx : C.Occurs x k p) :
    Acc (Precedes H) x := by
  induction k generalizing p with
  | zero => exact h.leaf p (fun hM => hp p hM (by simp)) x hx
  | succ k ih =>
    rcases hx with ⟨q, hq, rfl⟩ | hx | hx
    · exact h.parent k p q hq
    · exact ih (fun j hj => (div_ne_of_div_succ_ne (hp j hj)).1) hx
    · exact ih (fun j hj => (div_ne_of_div_succ_ne (hp j hj)).2) hx

lemma exclude (h : C.Grounded H M) (excluded : List ℕ) : (C.exclude excluded).Grounded H M where
  leaf i hi x hx := by
    obtain ⟨l, hl, hx⟩ := hx
    simp only [Contents.exclude] at hl
    split_ifs at hl
    exact h.leaf i hi x ⟨l, hl, hx⟩
  parent k p q hq := by
    obtain ⟨q0, hq0, rfl⟩ := Option.map_eq_some_iff.mp hq
    exact h.parent k p q0 hq0

/-- **No parent has two children that carry its parent hash.** -/
lemma oneSided (h : C.Grounded H ∅) : C.OneSided H := by
  rintro k p q - ⟨hl, hr⟩
  set E := C.exclude q.unmergedLeaves with hE
  have hprecedes : ∀ c z, E.Carries z k (sib c) →
      Precedes H z (q.computeParentHash H (E.hashAt H k (sib c))) := fun c z hz =>
    ⟨q.encryptionKey, q.parentHash, E, k, sib c, rfl, hz.occurs⟩
  have hacc : Acc (Precedes H) (q.computeParentHash H (E.hashAt H k (sib (2 * p)))) :=
    (h.exclude q.unmergedLeaves).acc (fun j hj => absurd hj (Set.notMem_empty j)) hl.occurs
  refine not_precedes_of_acc hacc (hprecedes _ _ ?_) (hprecedes (2 * p + 1) _ ?_)
  · rw [sib_two_mul]
    exact hr
  · rw [sib_two_mul_add_one]
    exact hl

/-! ## Edits -/

/-- What is new in the tree can be traced back. -/
lemma edit (h : C.Grounded H M) {l : Option (LeafNode D)}
    {f : ℕ → Option (ParentNode D) → Option (ParentNode D)} (hM : ∀ j ∉ M', j ≠ i → j ∉ M)
    (hl : i ∉ M' → ∀ l' x, l = some l' → l'.parentHash = some x → Acc (Precedes H) x)
    (hf : ∀ k q, f k (C.parent k (i / 2 ^ (k + 1))) = some q → Acc (Precedes H) q.parentHash) :
    (C.edit n i l f).Grounded H M' where
  leaf j hj x hx := by
    obtain ⟨l', hl', hx⟩ := hx
    by_cases hji : j = i
    · subst hji
      exact hl hj l' x (leaf_edit_self.symm.trans hl') hx
    · rw [leaf_edit_of_ne hji] at hl'
      exact h.leaf j (hM j hj hji) x ⟨l', hl', hx⟩
  parent k p q hq := by
    rcases parent_edit_cases hq with ⟨-, rfl, hq⟩ | ⟨-, hq⟩
    · exact hf k q hq
    · exact h.parent k p q hq

lemma acc_linkPath (h : C.Grounded H {i}) (hfree : H.CollisionFree)
    (es : List (ℕ × Key)) : Acc (Precedes H) (linkPath H (C.siblingHash H i) es).2 ∧
      ∀ e ∈ (linkPath H (C.siblingHash H i) es).1, Acc (Precedes H) e.2.parentHash := by
  induction es with
  | nil => exact ⟨acc_empty hfree, fun e he => absurd he not_mem_nil⟩
  | cons e es ih =>
    obtain ⟨k, key⟩ := e
    refine ⟨acc_parentHash hfree (fun y hy => h.acc (fun j hj => ?_) hy) key _, fun e he => ?_⟩
    · rw [Set.mem_singleton_iff.mp hj]
      exact (sib_ne _).symm
    · rcases mem_cons.mp he with rfl | he
      · exact ih.1
      · exact ih.2 e he

lemma withPath (h : C.Grounded H {i}) (hfree : H.CollisionFree) {l : LeafNode D}
    {es : List (ℕ × Key)} (hl : l.parentHash = some (linkPath H (C.siblingHash H i) es).2) :
    (C.withPath H n i es l).Grounded H ∅ := by
  refine h.edit (fun j _ hji => hji) (fun _ l' x hl' hx => ?_) fun k q hq => ?_
  · cases hl'
    obtain rfl := Option.mem_unique hl hx
    exact (h.acc_linkPath hfree es).1
  · obtain ⟨ns1, ns2, hns, -⟩ := lookup_eq_some_iff.mp hq
    exact (h.acc_linkPath hfree es).2 (k, q) (by simp [hns])

end Grounded

end Contents

/-! ## Commits -/

namespace TreeSyncDiff

variable {t t' : TreeSyncDiff D} {n n' i : ℕ} {M : Set ℕ}

lemma Edited.grounded {c : Change D} (h : t.Edited n c i t' n') (ht : t.contents.Grounded H M)
    (hl : i ∉ M → ∀ l, c = .update l ∨ c = .add l → l.parentHash = none) :
    t'.contents.Grounded H M := by
  rw [h.contents]
  cases c with
  | update l =>
    refine ht.edit (fun _ hj _ => hj) (fun hi l' x hl' hx => ?_) nofun
    rw [← Option.some.inj hl', hl hi l (.inl rfl)] at hx
    cases hx
  | blank => exact ht.edit (fun _ hj _ => hj) nofun nofun
  | add l =>
    refine ht.edit (fun _ hj _ => hj) (fun hi l' x hl' hx => ?_) fun k q hq => ?_
    · rw [← Option.some.inj hl', hl hi l (.inr rfl)] at hx
      cases hx
    · obtain ⟨q', hq', rfl⟩ := Option.map_eq_some_iff.mp hq
      exact ht.parent k _ q' hq'

lemma Changes.grounded {cs : List (ℕ × Change D)} (h : t.Changes n cs t' n')
    (ht : t.contents.Grounded H M)
    (hl : ∀ e ∈ cs, e.1 ∉ M → ∀ l, e.2 = .update l ∨ e.2 = .add l → l.parentHash = none) :
    t'.contents.Grounded H M := by
  induction h with
  | nil => exact ht
  | cons first _ ih =>
    obtain ⟨hfirst, hrest⟩ := forall_mem_cons.mp hl
    exact ih (first.grounded ht hfirst) hrest

end TreeSyncDiff

end EmulatedMls
