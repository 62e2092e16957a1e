import EmulatedMls.Orchestrator.Basic
import EmulatedMls.Tree.CacheSound
import Mathlib.Data.Finset.Max

/-!
# Who may commit

An independent agent asks `is_authorised` before it commits.  Under the policies `First` and `Last`
one member is meant to be chosen by its leaf: the test compares the own leaf index with 0, or with
the number of members minus one.

**Source.**  `is_authorised` of `user.rs`; `members` is `full_leave_members` of `treesync/mod.rs`.

**Gaps.**  Removing a member blanks its leaf and keeps the leaves to its right where they are, so
the smallest occupied leaf may be above 0 and the largest one above the number of members.

* `authorised_first`: the member at the smallest leaf is chosen exactly when leaf 0 is occupied.
* `authorised_last`: the member at the largest leaf is chosen exactly when there is no gap.

**Numbers.**  A tree has at most `2 ^ 30` nodes, so the number of its members is a `u32`.
-/

namespace EmulatedMls

open List

section

variable {D : Type}

/-- The group of a user: the public state, and the leaf of the user. -/
structure OwnGroup (D : Type) where
  publicGroup : PublicGroup D
  ownLeafIndex : ℕ

namespace PublicGroup

def members (g : PublicGroup D) : List (LeafNodeIndex × LeafNode D) :=
  fullLeaves g.treesync.tree.leafNodes

def IsMember (g : PublicGroup D) (i : ℕ) : Prop := (g.treesync.leaf i).isSome

instance (g : PublicGroup D) (i : ℕ) : Decidable (g.IsMember i) :=
  inferInstanceAs (Decidable (_ = true))

end PublicGroup

/-- `is_authorised`.  `active` is the entry of the group in the map of the same name. -/
def isAuthorised (active : Option (Bool × ℕ)) (group : Option (OwnGroup D))
    (policy : AuthorizationPolicy) : Except String Bool :=
  if !(active.getD (false, 0)).1 then .ok false
  else match group with
    | none => .error "Unknown group"
    | some group =>
      match policy with
      | .random => .ok true
      | .first => .ok (group.ownLeafIndex = 0)
      | .last => .ok (group.ownLeafIndex = group.publicGroup.members.length - 1)

variable {i : ℕ}

namespace PublicGroup

variable (g : PublicGroup D)

/-- The member at leaf `i` is authorised when it is active and in sync with the group. -/
def Authorised (policy : AuthorizationPolicy) (i : ℕ) : Prop :=
  g.IsMember i ∧ isAuthorised (some (true, 0)) (some ⟨g, i⟩) policy = .ok true

instance (policy : AuthorizationPolicy) (i : ℕ) : Decidable (g.Authorised policy i) :=
  inferInstanceAs (Decidable (_ ∧ _))

lemma authorised_first_iff : g.Authorised .first i ↔ g.IsMember i ∧ i = 0 := by
  simp [Authorised, isAuthorised]

lemma authorised_last_iff : g.Authorised .last i ↔ g.IsMember i ∧ i = g.members.length - 1 := by
  simp [Authorised, isAuthorised]

end PublicGroup

/-! ## The occupied leaves -/

lemma mem_fullLeaves_indices {leaves : List (Option (LeafNode D))} :
    i ∈ (fullLeaves leaves).map Prod.fst ↔ (leaves[i]?.join).isSome := by
  simp only [fullLeaves, mem_map, mem_filterMap, Option.map_eq_some_iff, Prod.exists,
    mem_zipIdx_iff_getElem?]
  constructor
  · rintro ⟨_, _, ⟨_, j, hj, l, rfl, heq⟩, rfl⟩
    obtain ⟨rfl, rfl⟩ := Prod.mk.inj heq
    simp [hj]
  · intro h
    obtain ⟨l, hl⟩ := Option.isSome_iff_exists.mp h
    exact ⟨i, l, ⟨some l, i, Option.join_eq_some_iff.mp hl, l, rfl, rfl⟩, rfl⟩

lemma nodup_fullLeaves_indices (leaves : List (Option (LeafNode D))) :
    ((fullLeaves leaves).map Prod.fst).Nodup := by
  have hindices : (leaves.zipIdx).Pairwise fun e e' => e.2 ≠ e'.2 := by
    rw [← pairwise_map, zipIdx_map_snd]
    exact nodup_range'
  refine pairwise_map.mpr (hindices.filterMap _ fun e e' hne x hx y hy => ?_)
  obtain ⟨l, -, rfl⟩ := Option.map_eq_some_iff.mp hx
  obtain ⟨l', -, rfl⟩ := Option.map_eq_some_iff.mp hy
  exact hne

namespace PublicGroup

variable (g : PublicGroup D)

def memberLeaves : Finset ℕ := (g.members.map Prod.fst).toFinset

lemma mem_memberLeaves : i ∈ g.memberLeaves ↔ g.IsMember i := by
  rw [memberLeaves, mem_toFinset, members, mem_fullLeaves_indices, IsMember, TreeSync.leaf,
    ABinaryTree.leafByIndex, getD_eq_getElem?_getD]
  cases g.treesync.tree.leafNodes[i]? <;> rfl

lemma card_memberLeaves : g.memberLeaves.card = g.members.length :=
  (toFinset_card_of_nodup (nodup_fullLeaves_indices _)).trans (length_map _)

def Gapless : Prop := ∀ i j, i < j → g.IsMember j → g.IsMember i

lemma gapless_iff (hi : g.IsMember i) (hlargest : ∀ j, g.IsMember j → j ≤ i) :
    g.Gapless ↔ i = g.members.length - 1 := by
  have hsub : g.memberLeaves ⊆ Finset.range (i + 1) := fun j hj =>
    Finset.mem_range_succ_iff.mpr (hlargest j (g.mem_memberLeaves.mp hj))
  have hpos : 0 < g.members.length := by
    rw [← g.card_memberLeaves]
    exact Finset.card_pos.mpr ⟨i, g.mem_memberLeaves.mpr hi⟩
  constructor
  · intro hgapless
    have hall : g.memberLeaves = Finset.range (i + 1) := by
      refine hsub.antisymm fun j hj => g.mem_memberLeaves.mpr ?_
      rcases Nat.lt_or_eq_of_le (Finset.mem_range_succ_iff.mp hj) with hlt | rfl
      · exact hgapless j i hlt hi
      · exact hi
    rw [← g.card_memberLeaves, hall, Finset.card_range, Nat.add_sub_cancel]
  · intro hcount j k hjk hk
    have hall : g.memberLeaves = Finset.range (i + 1) := by
      refine Finset.eq_of_subset_of_card_le hsub ?_
      rw [Finset.card_range, g.card_memberLeaves]
      omega
    rw [← g.mem_memberLeaves, hall, Finset.mem_range]
    have := hlargest k hk
    omega

/-! ## The two policies -/

/-- The policy chooses one member, at leaf `i`. -/
def Chooses (policy : AuthorizationPolicy) (i : ℕ) : Prop :=
  ∀ j, g.Authorised policy j ↔ j = i

lemma authorised_first :
    (∃ i, g.IsMember i ∧ (∀ j, g.IsMember j → i ≤ j) ∧ g.Chooses .first i) ↔ g.IsMember 0 := by
  constructor
  · rintro ⟨i, hi, -, hchosen⟩
    obtain rfl : i = 0 := (g.authorised_first_iff.mp ((hchosen i).mpr rfl)).2
    exact hi
  · intro h0
    refine ⟨0, h0, fun j _ => Nat.zero_le j, fun j => ?_⟩
    rw [authorised_first_iff]
    exact ⟨And.right, by rintro rfl; exact ⟨h0, rfl⟩⟩

lemma authorised_last :
    (∃ i, g.IsMember i ∧ (∀ j, g.IsMember j → j ≤ i) ∧ g.Chooses .last i) ↔
      (∃ i, g.IsMember i) ∧ g.Gapless := by
  constructor
  · rintro ⟨i, hi, hlargest, hchosen⟩
    have hcount := (g.authorised_last_iff.mp ((hchosen i).mpr rfl)).2
    exact ⟨⟨i, hi⟩, (g.gapless_iff hi hlargest).mpr hcount⟩
  · rintro ⟨⟨k, hk⟩, hgapless⟩
    obtain ⟨i, hi, hmax⟩ := g.memberLeaves.exists_max_image id ⟨k, g.mem_memberLeaves.mpr hk⟩
    rw [mem_memberLeaves] at hi
    have hlargest : ∀ j, g.IsMember j → j ≤ i := fun j hj => hmax j (g.mem_memberLeaves.mpr hj)
    have hcount := (g.gapless_iff hi hlargest).mp hgapless
    refine ⟨i, hi, hlargest, fun j => ?_⟩
    rw [authorised_last_iff, ← hcount]
    exact ⟨And.right, by rintro rfl; exact ⟨hi, rfl⟩⟩

end PublicGroup

/-- **Who is authorised.**  `First` chooses one member exactly if leaf 0 is occupied, and `Last`
    exactly if there are members and no leaf below an occupied one is blank. -/
theorem authorised_unique (g : PublicGroup D) :
    ((∃ i, g.IsMember i ∧ (∀ j, g.IsMember j → i ≤ j) ∧ g.Chooses .first i) ↔ g.IsMember 0) ∧
    ((∃ i, g.IsMember i ∧ (∀ j, g.IsMember j → j ≤ i) ∧ g.Chooses .last i) ↔
      (∃ i, g.IsMember i) ∧ ∀ i j, i < j → g.IsMember j → g.IsMember i) :=
  ⟨g.authorised_first, g.authorised_last⟩

end

open PublicGroup

/-- After the founder has been removed, nobody is authorised by either policy. -/
theorem nobody_authorised :
    ∃ g, smallGroup.Reaches (fun _ _ => True) g ∧ g.IsMember 1 ∧
      (∀ i, ¬ g.Authorised .first i) ∧ ∀ i, ¬ g.Authorised .last i := by
  obtain ⟨g, hg, hmember, hfirst, hcount⟩ : ∃ g ∈ smallRun (fun _ _ => true)
      [invites [1], memberCommit 1 [.remove 0] 2000],
      g.IsMember 1 ∧ ¬ g.IsMember 0 ∧ g.members.length = 1 := by
    decide +kernel
  refine ⟨g, reaches_smallRun (fun _ hg => ⟨_, _, hg⟩) (fun _ _ _ => trivial) hg, hmember,
    fun i hi => ?_,
    fun i hi => ?_⟩
  · obtain ⟨hi, rfl⟩ := g.authorised_first_iff.mp hi
    exact hfirst hi
  · obtain ⟨hi, rfl⟩ := g.authorised_last_iff.mp hi
    rw [hcount] at hi
    exact hfirst hi

end EmulatedMls
