import EmulatedMls.Tree.CommonPath
import EmulatedMls.Tree.UnmergedLeaves

/-!
# The private keys of a member

A member should have the private key of its leaf and of every parent above it that does not list it
as unmerged.
-/

namespace EmulatedMls

variable {D : Type}

open Contents List TreeSyncDiff

namespace Contents

/-- Among the keys in `owned` are those of the parents above leaf `j` that do not list it. -/
def HeldAbove (C : Contents D) (j : ℕ) (owned : Set Key) : Prop :=
  ∀ k q, C.parent k (j / 2 ^ (k + 1)) = some q → j ∉ q.unmergedLeaves → q.encryptionKey ∈ owned

/-- Among the keys in `owned` are all that belong to leaf `j`. -/
structure Held (C : Contents D) (j : ℕ) (owned : Set Key) : Prop where
  leaf : ∀ l, C.leaf j = some l → l.encryptionKey ∈ owned
  above : C.HeldAbove j owned

variable {C : Contents D} {n i j : ℕ} {owned : Set Key} {x : Option (LeafNode D)}
  {f : ℕ → Option (ParentNode D) → Option (ParentNode D)} {owned' : Set Key}

lemma HeldAbove.mono (h : C.HeldAbove j owned) (hsub : owned ⊆ owned') :
    C.HeldAbove j owned' := fun k q hq hj => hsub (h k q hq hj)

lemma Held.mono (h : C.Held j owned) (hsub : owned ⊆ owned') :
    C.Held j owned' := ⟨fun l hl => hsub (h.leaf l hl), h.above.mono hsub⟩

lemma HeldAbove.edit (h : C.HeldAbove j owned)
    (habove : ∀ k, i / 2 ^ (k + 1) = j / 2 ^ (k + 1) → ∀ q,
      f k (C.parent k (j / 2 ^ (k + 1))) = some q → j ∉ q.unmergedLeaves →
      q.encryptionKey ∈ owned) : (C.edit n i x f).HeldAbove j owned := by
  intro k q hq hj
  rcases parent_edit_cases hq with ⟨-, hpos, hq⟩ | ⟨-, hq⟩
  · exact habove k hpos.symm q hq hj
  · exact h k q hq hj

end Contents

namespace TreeSyncDiff

variable {t t' : TreeSyncDiff D} {n n' i j : ℕ} {owned : Set Key}

/-! ## Proposals -/

lemma Edited.heldAbove {c : Change D} (h : t.Edited n c i t' n')
    (hheld : t.contents.HeldAbove j owned) : t'.contents.HeldAbove j owned := by
  rw [h.contents]
  refine hheld.edit fun k _ q hq hj => ?_
  cases c with
  | update l => cases hq
  | blank => cases hq
  | add l =>
    obtain ⟨q0, hq0, rfl⟩ := Option.map_eq_some_iff.mp hq
    exact hheld k q0 hq0 fun hmem => hj (mem_addUnmergedLeaf.mpr (.inr hmem))

lemma Edited.heldAbove_add (h : t.Edited n (.add l) j t' n') (hwf : t.WellFormed n)
    (ht : t.contents.Tended) : t'.contents.HeldAbove j owned := by
  intro k q hq hj
  have hk : k < n' := (h.tended hwf ht).branching.lt_depth h.wellFormed.beyond_depth hq
  rw [h.contents, parent_edit_above hk] at hq
  obtain ⟨q0, -, rfl⟩ := Option.map_eq_some_iff.mp hq
  exact absurd (mem_addUnmergedLeaf.mpr (.inl rfl)) hj

section Changes

variable {cs : List (ℕ × Change D)} {l : LeafNode D}

section

variable (h : t.Changes n cs t' n')
include h

lemma Changes.heldAbove (hheld : t.contents.HeldAbove j owned) : t'.contents.HeldAbove j owned := by
  induction h with
  | nil => exact hheld
  | cons first _ ih => exact ih (first.heldAbove hheld)

lemma Changes.heldAbove_of_added (hwf : t.WellFormed n) (ht : t.contents.Tended)
    (hj : (j, .add l) ∈ cs) : t'.contents.HeldAbove j owned := by
  obtain ⟨cs1, cs2, rfl⟩ := append_of_mem hj
  obtain ⟨t1, n1, hbefore, hafter⟩ := h.split
  cases hafter with
  | cons first rest =>
    exact rest.heldAbove (first.heldAbove_add (hbefore.wellFormed hwf) (hbefore.tended hwf ht))

lemma Changes.leaf_origin (hl : t'.contents.leaf j = some l) :
    t.contents.leaf j = some l ∨ ∃ c, (j, c) ∈ cs ∧ c.leaf = some l := by
  induction h with
  | nil => exact .inl hl
  | @cons t t1 t' n n1 n' i c cs first rest ih =>
    rcases ih hl with hl | ⟨c', hc', hl⟩
    · rw [first.contents] at hl
      by_cases hij : j = i
      · subst hij
        exact .inr ⟨c, .head _, leaf_edit_self.symm.trans hl⟩
      · exact .inl (by rwa [leaf_edit_of_ne hij] at hl)
    · exact .inr ⟨c', .tail _ hc', hl⟩

lemma Changes.stays (hj : (t'.contents.leaf j).isSome) (hadd : ∀ l, (j, .add l) ∉ cs) :
    (t.contents.leaf j).isSome ∧ (j, .blank) ∉ cs := by
  induction h with
  | nil => exact ⟨hj, not_mem_nil⟩
  | @cons t t1 t' n n1 n' i c cs first rest ih =>
    obtain ⟨hfull, hblank⟩ := ih hj fun l hl => hadd l (.tail _ hl)
    rw [first.contents] at hfull
    by_cases hij : j = i
    · subst hij
      rw [leaf_edit_self] at hfull
      cases c with
      | update l => exact ⟨first.applies, by simpa using hblank⟩
      | blank => cases hfull
      | add l => exact absurd mem_cons_self (hadd l)
    · rw [leaf_edit_of_ne hij] at hfull
      exact ⟨hfull, by simp [hij, hblank]⟩

lemma Changes.leaf_of_notMem (hj : j ∉ cs.map Prod.fst) :
    t'.contents.leaf j = t.contents.leaf j := by
  induction h with
  | nil => rfl
  | cons first _ ih =>
    rw [map_cons, mem_cons, not_or] at hj
    rw [ih hj.2, first.contents, leaf_edit_of_ne hj.1]

end

lemma Changes.leaf_of_added {us added : List (ℕ × LeafNode D)} {removes : List ℕ}
    (h : t.Changes n (operations us removes added) t' n') (hj : (j, l) ∈ added) :
    t'.contents.leaf j = some l := by
  have hnodup := h.new_members.1
  obtain ⟨as1, as2, rfl⟩ := append_of_mem hj
  rw [operations, map_append, map_cons, ← append_assoc] at h
  obtain ⟨t1, n1, -, hafter⟩ := h.split
  cases hafter with
  | cons first rest =>
    rw [map_append, map_cons, nodup_append, nodup_cons] at hnodup
    rw [rest.leaf_of_notMem (by simpa using hnodup.2.1.1), first.contents, leaf_edit_self]
    rfl

end Changes

/-! ## Paths -/

variable {ns : List (ℕ × ParentNode D)} {l : LeafNode D}

lemma mem_of_lookup {α : Type} {ns : List (ℕ × α)} {k : ℕ} {a : α} (h : ns.lookup k = some a) :
    (k, a) ∈ ns := by
  obtain ⟨ns1, ns2, rfl, -⟩ := lookup_eq_some_iff.mp h
  simp

lemma PathWritten.heldAbove (h : t.PathWritten n i ns l t') (hheld : t.contents.HeldAbove j owned)
    (hns : ∀ e ∈ ns, i / 2 ^ (e.1 + 1) = j / 2 ^ (e.1 + 1) → e.2.encryptionKey ∈ owned) :
    t'.contents.HeldAbove j owned := by
  rw [h.contents]
  exact hheld.edit fun k hpos q hq _ => hns (k, q) (mem_of_lookup hq) hpos

lemma PathWritten.heldAbove_self (h : t.PathWritten n j ns l t') (hb : t'.contents.Branching)
    (hns : ∀ e ∈ ns, e.2.encryptionKey ∈ owned) : t'.contents.HeldAbove j owned := by
  intro k q hq _
  have hk : k < n := hb.lt_depth h.wellFormed.beyond_depth hq
  rw [h.contents, parent_edit_above hk] at hq
  exact hns (k, q) (mem_of_lookup hq)

/-! ## Resolutions -/

/-- **The resolution of a node above a member has a key that the member owns.** -/
lemma exists_owned {m r : ℕ} {excluded : List ℕ} (hleaf : t.contents.leaf j = some l)
    (hl : l.encryptionKey ∈ owned)
    (hparent : ∀ k < m, ∀ q, t.contents.parent k (j / 2 ^ (k + 1)) = some q →
      j ∉ q.unmergedLeaves → q.encryptionKey ∈ owned)
    (hj : j ∉ excluded) (hr : j ≤ r) :
    ∃ e ∈ t.resolution (nodeAt m (j / 2 ^ m)) excluded r,
      e.2.encryptionKey ∈ owned := by
  have hreference : t.leafReference excluded j = some (.leaf j, .leaf l) := by
    simp [leafReference, Contents.exclude, hj, hleaf]
  induction m with
  | zero =>
    refine ⟨(.leaf j, .leaf l), ?_, hl⟩
    rw [resolution_leaf, pow_zero, Nat.div_one, hreference]
    exact mem_singleton_self _
  | succ m ih =>
    cases hq : t.contents.parent m (j / 2 ^ (m + 1)) with
    | some q =>
      rw [resolution_of_some hq]
      by_cases hmem : j ∈ q.unmergedLeaves
      · refine ⟨(.leaf j, .leaf l), .tail _ ?_, hl⟩
        exact mem_filterMap.mpr ⟨j, hmem, hreference⟩
      · exact ⟨_, .head _, hparent m (Nat.lt_succ_self m) q hq hmem⟩
    | none =>
      obtain ⟨e, he, howned⟩ := ih fun k hk => hparent k (Nat.lt_succ_of_lt hk)
      refine ⟨e, ?_, howned⟩
      have hcut : ¬j / 2 ^ (m + 1) * 2 ^ (m + 1) > r :=
        Nat.not_lt.mpr ((Nat.div_mul_le_self _ _).trans hr)
      rw [resolution_of_none hq, if_neg hcut, mem_append]
      have hchild : j / 2 ^ m = 2 * (j / 2 ^ (m + 1)) ∨
          j / 2 ^ m = 2 * (j / 2 ^ (m + 1)) + 1 := by
        rw [div_two_pow_succ]
        omega
      rcases hchild with hchild | hchild <;> rw [hchild] at he
      · exact .inl he
      · exact .inr he

/-! ## Retention -/

/-- `encryption_keys` lists all keys that the owner of a leaf needs. -/
lemma held_encryptionKeys (hwf : t.WellFormed n) (hb : t.contents.Branching)
    (hj : (t.contents.leaf j).isSome) (hheld : t.contents.Held j owned) :
    ∃ pks, t.encryptionKeys j = .ok pks ∧ t.contents.Held j {pk ∈ owned | pk ∈ pks} := by
  refine ⟨_, by rw [encryptionKeys, filteredDirectPath_eq hwf.shaped (hwf.lt_pow hj)]; rfl,
    fun l hl => ⟨hheld.leaf l hl, ?_⟩, fun k q hq hmem => ⟨hheld.above k q hq hmem, ?_⟩⟩
  · have hleaf : t.diff.leaf j = some l := hl
    rw [hleaf]
    exact mem_append_left _ (mem_singleton_self _)
  · have hk : k < n := hb.lt_depth hwf.beyond_depth hq
    have hlevel : k ∈ t.pathLevels n j := by
      obtain ⟨hleft, hright⟩ := hb k _ q hq
      have hsib : t.contents.HasLeaf k (sib (j / 2 ^ k)) := by
        rw [div_two_pow_succ] at hleft hright
        rcases sib_cases (j / 2 ^ k) with ⟨-, heq⟩ | ⟨-, heq⟩ <;> rw [heq]
        · exact hright
        · exact hleft
      obtain ⟨a, ha, hfull⟩ := hsib
      exact mem_pathLevels.mpr ⟨hk, resolution_ne_nil hfull ha (hwf.le_rightmostFullLeaf hfull)⟩
    refine mem_append_right _ (mem_filterMap.mpr
      ⟨inorder k (j / 2 ^ (k + 1)), mem_map_of_mem hlevel, ?_⟩)
    have hparent : t.diff.parent (inorder k (j / 2 ^ (k + 1))) = some q := hq
    simp only [hparent, if_neg hmem]

end TreeSyncDiff

end EmulatedMls
