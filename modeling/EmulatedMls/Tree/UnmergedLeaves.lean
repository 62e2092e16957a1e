import EmulatedMls.Tree.CommitAnatomy
import EmulatedMls.Tree.Export
import Mathlib.Data.List.Sort

/-!
# Unmerged leaves

A new member is listed in all parents above it that are not blank.  It is taken off a list only when
the parent is blanked or replaced as a whole.
-/

namespace EmulatedMls

open List

inductive UnmergedLeavesError where
  | notSorted
  deriving DecidableEq, Repr

def UnmergedLeaves.tryFrom (list : List ℕ) : Except UnmergedLeavesError (List ℕ) :=
  if list.IsChain (· < ·) then .ok list else .error .notSorted

variable {D : Type} {H : HashSuite D}

open TreeSyncDiff

variable {j : ℕ} {q : ParentNode D} {ns : List (ℕ × ParentNode D)}

namespace Contents

/-- What holds of the list of the parent `q` at position `p` of level `k + 1`. -/
structure TendedParent (C : Contents D) (k p : ℕ) (q : ParentNode D) : Prop where
  full : C.HasLeaf k (2 * p) ∧ C.HasLeaf k (2 * p + 1)
  sorted : q.unmergedLeaves.Pairwise (· < ·)
  unmerged : ∀ i ∈ q.unmergedLeaves, i / 2 ^ (k + 1) = p ∧ (C.leaf i).isSome
  between : ∀ i ∈ q.unmergedLeaves, ∀ k' < k, ∀ q',
    C.parent k' (i / 2 ^ (k' + 1)) = some q' → i ∈ q'.unmergedLeaves

def Tended (C : Contents D) : Prop := ∀ k p q, C.parent k p = some q → C.TendedParent k p q

variable {C C' : Contents D} {n i : ℕ} {x : Option (LeafNode D)}
  {f : ℕ → Option (ParentNode D) → Option (ParentNode D)}

lemma Tended.branching (h : C.Tended) : C.Branching := fun k p q hq => (h k p q hq).full

variable {k : ℕ}

lemma div_ne_of_le {k' : ℕ} (hk : k' ≤ k) (h : i / 2 ^ (k + 1) ≠ j / 2 ^ (k + 1)) :
    i / 2 ^ (k' + 1) ≠ j / 2 ^ (k' + 1) := fun heq => h (by
  obtain ⟨d, rfl⟩ := Nat.exists_eq_add_of_le hk
  rw [show k' + d + 1 = k' + 1 + d by omega, pow_add, ← Nat.div_div_eq_div_mul,
    ← Nat.div_div_eq_div_mul, heq])

lemma AgreeOff.tendedParent {M : Set ℕ} {p : ℕ} (h : AgreeOff M C C')
    (hp : ∀ j ∈ M, j / 2 ^ (k + 1) ≠ p) (hq : C.TendedParent k p q) : C'.TendedParent k p q := by
  have hchild : ∀ c, c / 2 = p → ∀ j ∈ M, j / 2 ^ k ≠ c := fun c hc j hj heq => by
    refine hp j hj ?_
    rw [div_two_pow_succ, heq, hc]
  refine ⟨⟨h.hasLeaf (hchild _ (by omega)) hq.full.1, h.hasLeaf (hchild _ (by omega)) hq.full.2⟩,
    hq.sorted, fun j hj => ?_, fun j hj k' hk' q' hq' => ?_⟩
  · obtain ⟨hbelow, hfull⟩ := hq.unmerged j hj
    exact ⟨hbelow, by rwa [h.leaf_below hp hbelow]⟩
  · rw [h.parent k' _ fun a ha => div_ne_of_le (le_of_lt hk') ?_] at hq'
    · exact hq.between j hj k' hk' q' hq'
    · rw [(hq.unmerged j hj).1]
      exact hp a ha

section

variable (h : C.Tended) (hbeyond : ∀ j, 2 ^ n ≤ j → C.leaf j = none)
include h hbeyond

lemma Tended.edit
    (habove : ∀ k < n, ∀ q, f k (C.parent k (i / 2 ^ (k + 1))) = some q →
      (C.edit n i x f).TendedParent k (i / 2 ^ (k + 1)) q) : (C.edit n i x f).Tended := by
  intro k p q hq
  rcases parent_edit_cases hq with ⟨hk, rfl, hq⟩ | ⟨hoff, hq⟩
  · exact habove k hk q hq
  · refine (agreeOff_edit C n i x f).tendedParent (fun j hj heq => hoff ⟨?_, ?_⟩) (h k p q hq)
    · exact h.branching.lt_depth hbeyond hq
    · rw [← heq, Set.mem_singleton_iff.mp hj]

lemma Tended.edit_blank :
    (C.edit n i x fun _ _ => none).Tended :=
  h.edit hbeyond fun _ _ _ hq => nomatch hq

end

/-! ## Additions -/

lemma addUnmergedLeaf_eq (i : ℕ) (us : List ℕ) :
    addUnmergedLeaf i us = us.orderedInsert (· ≤ ·) i := by
  induction us with
  | nil => rfl
  | cons u us ih =>
    rw [addUnmergedLeaf, orderedInsert_cons, ih]
    split_ifs <;> first | rfl | omega

lemma sorted_addUnmergedLeaf {us : List ℕ} (h : us.Pairwise (· < ·)) (hi : i ∉ us) :
    (addUnmergedLeaf i us).Pairwise (· < ·) := by
  rw [addUnmergedLeaf_eq]
  have hsorted := (h.imp le_of_lt).orderedInsert i us
  have hnodup : (us.orderedInsert (· ≤ ·) i).Nodup :=
    (perm_orderedInsert _ i us).nodup_iff.mpr
      (nodup_cons.mpr ⟨hi, h.imp fun hlt => ne_of_lt hlt⟩)
  exact (hsorted.and hnodup).imp fun hboth => lt_of_le_of_ne hboth.1 hboth.2

variable {l : LeafNode D}

section

variable (h : C.Tended) (hbeyond : ∀ j, 2 ^ n ≤ j → C.leaf j = none)
include h hbeyond

lemma Tended.edit_add
    (hblank : C.leaf i = none) :
    (C.edit n i (some l) fun _ => Option.map (ParentNode.addUnmergedLeaf i)).Tended := by
  refine h.edit hbeyond fun k hk q hq => ?_
  obtain ⟨q0, hq0, rfl⟩ := Option.map_eq_some_iff.mp hq
  obtain ⟨⟨⟨a, ha, hfa⟩, b, hb, hfb⟩, hsorted, hunmerged, hbetween⟩ := h k _ q0 hq0
  have hnot : i ∉ q0.unmergedLeaves := fun hi => by
    have := (hunmerged i hi).2
    rw [hblank] at this
    cases this
  refine ⟨⟨⟨a, ha, isSome_leaf_edit hfa⟩, b, hb, isSome_leaf_edit hfb⟩,
    sorted_addUnmergedLeaf hsorted hnot, fun j hj => ?_, fun j hj k' hk' q' hq' => ?_⟩
  · rcases mem_addUnmergedLeaf.mp hj with rfl | hj
    · exact ⟨rfl, by rw [leaf_edit_self]; rfl⟩
    · exact ⟨(hunmerged j hj).1, isSome_leaf_edit (hunmerged j hj).2⟩
  · by_cases hpos : i / 2 ^ (k' + 1) = j / 2 ^ (k' + 1)
    · -- a parent above both leaves, which lists the new one from now on
      rw [← hpos, parent_edit_above (lt_trans hk' hk)] at hq'
      obtain ⟨q1, hq1, rfl⟩ := Option.map_eq_some_iff.mp hq'
      refine mem_addUnmergedLeaf.mpr ?_
      rcases mem_addUnmergedLeaf.mp hj with rfl | hj
      · exact .inl rfl
      · exact .inr (hbetween j hj k' hk' q1 (hpos ▸ hq1))
    · rw [parent_edit_of_ne hpos] at hq'
      rcases mem_addUnmergedLeaf.mp hj with rfl | hj
      · exact absurd rfl hpos
      · exact hbetween j hj k' hk' q' hq'

/-! ## Paths -/

lemma Tended.edit_path
    (hfresh : ∀ e ∈ ns, e.2.unmergedLeaves = [])
    (hleaf : ∀ k ∈ ns.map Prod.fst, C.HasLeaf k (sib (i / 2 ^ k))) :
    (C.edit n i (some l) fun k _ => ns.lookup k).Tended := by
  refine h.edit hbeyond fun k hk q hq => ?_
  have hagree := agreeOff_edit C n i (some l) fun k _ => ns.lookup k
  obtain ⟨ns1, ns2, hns, -⟩ := lookup_eq_some_iff.mp hq
  have hmem : (k, q) ∈ ns := by simp [hns]
  have hnil : q.unmergedLeaves = [] := hfresh _ hmem
  have hself : (C.edit n i (some l) fun k _ => ns.lookup k).HasLeaf k (i / 2 ^ k) :=
    ⟨i, rfl, by rw [leaf_edit_self]; rfl⟩
  have hother := hagree.hasLeaf (fun j hj => by
    rw [Set.mem_singleton_iff.mp hj]
    exact (sib_ne _).symm) (hleaf k (mem_map_of_mem hmem))
  refine ⟨?_, by rw [hnil]; exact .nil, by simp [hnil], by simp [hnil]⟩
  rw [div_two_pow_succ]
  rcases sib_cases (i / 2 ^ k) with ⟨hpos, hsib⟩ | ⟨hpos, hsib⟩ <;>
    rw [hsib] at hother <;> rw [hpos] at hself
  · exact ⟨hself, hother⟩
  · exact ⟨hother, hself⟩

end

end Contents

/-! ## Commits -/

namespace TreeSyncDiff

variable {t t' : TreeSyncDiff D} {n n' i : ℕ}

lemma Edited.tended {c : Change D} (h : t.Edited n c i t' n') (hwf : t.WellFormed n)
    (ht : t.contents.Tended) : t'.contents.Tended := by
  have hbeyond := h.beyond hwf
  rw [h.contents]
  cases c with
  | update l | blank => exact ht.edit_blank hbeyond
  | add l => exact ht.edit_add hbeyond h.applies

lemma Changes.tended {cs : List (ℕ × Change D)} (h : t.Changes n cs t' n') (hwf : t.WellFormed n)
    (ht : t.contents.Tended) : t'.contents.Tended := by
  induction h with
  | nil => exact ht
  | cons first _ ih => exact ih first.wellFormed (first.tended hwf ht)

lemma PathWritten.tended {l : LeafNode D} (h : t.PathWritten n i ns l t') (hwf : t.WellFormed n)
    (ht : t.contents.Tended) : t'.contents.Tended := by
  rw [h.contents]
  refine ht.edit_path hwf.beyond_depth h.fresh fun k hk => ?_
  rw [h.levels] at hk
  exact hasLeaf_of_resolution ht.branching (mem_pathLevels.mp hk).2

end TreeSyncDiff

namespace PublicGroup

variable [DecidableEq D] {rules : GroupView D} {g g' : PublicGroup D} {m n : ℕ}

/-- The lists of the tree are tended, and somebody is left. -/
structure Tended (g : PublicGroup D) : Prop where
  lists : g.treesync.contents.Tended
  inhabited : ∃ i, (g.treesync.contents.leaf i).isSome

lemma CommitShape.tended {c : Commit D} {t : TreeSyncDiff D} (h : CommitShape H rules g m c t n)
    (hwf : g.treesync.emptyDiff.WellFormed m) (ht : g.Tended) :
    t.contents.Tended ∧ ∃ i, (t.contents.leaf i).isSome := by
  cases h with
  | untouched => exact ⟨ht.lists, ht.inhabited⟩
  | path fits changes updates adds invited sent step =>
    obtain ⟨ns, hwritten, -⟩ := step.written
    refine ⟨hwritten.tended step.wellFormed (changes.tended hwf ht.lists), c.committer g, ?_⟩
    rw [hwritten.contents, Contents.leaf_edit_self]
    rfl

end PublicGroup

lemma TreeSync.contents_import [DecidableEq D] {t t' : TreeSync D} {n : ℕ} (h : t.Sized n)
    (hwf : t.emptyDiff.WellFormed n) (hbranching : t.contents.Branching)
    (hinhabited : ∃ i, (t.contents.leaf i).isSome)
    (himport : fromRatchetTree H t.exportRatchetTree = .ok t') : t'.contents = t.contents := by
  obtain ⟨j, hj⟩ := hinhabited
  have hleaf := contents_leaf h.shaped
  rw [hleaf] at hj
  obtain ⟨r, hr, -, hfull, hlast⟩ := exists_last_leaf (n := n) (fun i hi => by
    rw [← hleaf]
    exact hwf.beyond_depth i hi) hj
  obtain ⟨m, t1, t2, heq, -, -, -, hcontents1, hcontents2⟩ :=
    fromRatchetTree_eq (H := H) (new_exportRatchetTree h hwf.depth hr hfull hlast)
  rw [heq] at himport
  obtain ⟨-, -, hok⟩ := Exec.bind_inv himport
  cases hok
  exact hcontents2.trans (hcontents1.trans (contents_take h hbranching hlast))

namespace PublicGroup

/-! ## The checks of a joiner -/

/-- The call does not complain about an unmerged leaf. -/
abbrev ListsAccepted {α : Type} : Except CreationFromExternalError α → Prop :=
  Ensures (fun e => e = .unmergedLeafNotADescendant ∨ e = .intermediateNodeMissingUnmergedLeaf)
    fun _ => True

variable {t : TreeSync D} {g : PublicGroup D} {n : ℕ}

lemma checkUnmergedLeaf_eq (h : t.Sized n) (hwf : t.emptyDiff.WellFormed n) (ht : t.contents.Tended)
    {i : ℕ} (hq : t.tree.parentByIndex j = some q) (hi : i ∈ q.unmergedLeaves) :
    checkUnmergedLeaf t j i = .ok () := by
  obtain ⟨k, p, rfl⟩ := exists_inorder j
  have htended := ht k p q hq
  obtain ⟨rfl, hfull⟩ := htended.unmerged i hi
  have hk : k < n := ht.branching.lt_depth hwf.beyond_depth hq
  have hpath : directPath i t.treeSize = .ok (pathNodes n i) := by
    rw [show t.treeSize = .ofDepth n from h.shaped.size]
    exact directPath_ofDepth (hwf.lt_pow hfull)
  have hmem : inorder k (i / 2 ^ (k + 1)) ∈ pathNodes n i := mem_pathNodes.mpr ⟨hk, rfl⟩
  unfold checkUnmergedLeaf
  rw [hpath]
  dsimp only
  rw [if_neg (not_not.mpr hmem), takeWhile_pathNodes hk, if_pos]
  refine all_eq_true.mpr fun j hj => ?_
  obtain ⟨k', hk', rfl⟩ := mem_map.mp hj
  cases hq' : t.tree.parentByIndex (inorder k' (i / 2 ^ (k' + 1))) with
  | none => rfl
  | some q' => exact decide_eq_true (htended.between i hi k' (mem_range.mp hk') q' hq')

variable [DecidableEq D] {rules : GroupView D}

lemma tended_of_reaches (h : (groupRuns H rules (·.Founded H)).Reaches (fun _ _ => True) g) :
    ∃ n, g.Formed n ∧ g.Tended := by
  have hstart : ∀ g : PublicGroup D, g.Founded H → ∃ n, g.Formed n ∧ g.Tended := fun g hg => by
    obtain ⟨l, extensions, hfound⟩ := hg
    obtain ⟨hsound, hcontents⟩ := found_spec hfound
    refine ⟨0, hsound.formed, ?_, 0, ?_⟩
    · rw [hcontents]
      exact fun k p q hq => nomatch hq
    · rw [hcontents]
      rfl
  refine h.invariant hstart ?_
  rintro g e g' ⟨m, hformed, htended⟩ - hstep
  cases e with
  | commit c =>
    obtain ⟨n, t, hformed', hshape, hcontents, -⟩ :=
      hformed.commit (Exec.toOption_eq_some.mp hstep)
    obtain ⟨hlists, hinhabited⟩ := hshape.tended hformed.wellFormed htended
    rw [← hcontents] at hlists hinhabited
    exact ⟨n, hformed', hlists, hinhabited⟩
  | join joining signer verifies =>
    have hjoin := Exec.toOption_eq_some.mp hstep
    obtain ⟨n, hformed'⟩ := Formed.join hjoin
    obtain ⟨himport, -, -⟩ := started_of_fromExternal hjoin
    have hcontents := TreeSync.contents_import hformed.sized hformed.wellFormed
      htended.lists.branching htended.inhabited himport
    exact ⟨n, hformed', hcontents ▸ htended.lists, hcontents ▸ htended.inhabited⟩

/-- **Unmerged leaves.**  The list of a parent is strictly increasing and lists full leaves below it
    that all parents between list as well, so that the checks of a joiner pass. -/
theorem unmerged_leaves_tended (H : HashSuite D) (rules : GroupView D) {g : PublicGroup D}
    (h : (groupRuns H rules (·.Founded H)).Reaches (fun _ _ => True) g) :
    (∀ k p q, g.treesync.tree.parentByIndex (inorder k p) = some q →
      q.unmergedLeaves.Pairwise (· < ·) ∧
      UnmergedLeaves.tryFrom q.unmergedLeaves = .ok q.unmergedLeaves ∧
      ∀ i ∈ q.unmergedLeaves, i / 2 ^ (k + 1) = p ∧ (g.treesync.leaf i).isSome ∧
        ∀ k' < k, ∀ q', g.treesync.tree.parentByIndex (inorder k' (i / 2 ^ (k' + 1))) = some q' →
          i ∈ q'.unmergedLeaves) ∧
    (∀ t, t = g.treesync ∨ TreeSync.fromRatchetTree H g.treesync.exportRatchetTree = .ok t →
      ∀ j q, t.tree.parentByIndex j = some q → ∀ i ∈ q.unmergedLeaves,
        checkUnmergedLeaf t j i = .ok ()) ∧
    ∀ joining info,
      fromExternal H joining g.treesync.exportRatchetTree info ≠
        .error .unmergedLeafNotADescendant ∧
      fromExternal H joining g.treesync.exportRatchetTree info ≠
        .error .intermediateNodeMissingUnmergedLeaf := by
  obtain ⟨n, hformed, htended⟩ := tended_of_reaches h
  have himported : ∀ t, TreeSync.fromRatchetTree H g.treesync.exportRatchetTree = .ok t →
      ∀ j q, t.tree.parentByIndex j = some q → ∀ i ∈ q.unmergedLeaves,
        checkUnmergedLeaf t j i = .ok () := fun t himport j q hq i hi => by
    have hcontents := TreeSync.contents_import hformed.sized hformed.wellFormed
      htended.lists.branching htended.inhabited himport
    obtain ⟨m, hwf, hintact⟩ := TreeSync.fromRatchetTree_sound himport
    exact checkUnmergedLeaf_eq ⟨hintact.leaves, hintact.parents⟩ hwf (hcontents ▸ htended.lists)
      hq hi
  refine ⟨fun k p q hq => ?_, fun t ht => ?_, fun joining info => ?_⟩
  · obtain ⟨-, hsorted, hunmerged, hbetween⟩ := htended.lists k p q hq
    refine ⟨hsorted, if_pos hsorted.isChain, fun i hi => ?_⟩
    obtain ⟨hbelow, hfull⟩ := hunmerged i hi
    rw [TreeSync.contents_leaf hformed.sized.shaped] at hfull
    exact ⟨hbelow, hfull, hbetween i hi⟩
  · rcases ht with rfl | himport
    · exact fun j q hq i hi =>
        checkUnmergedLeaf_eq hformed.sized hformed.wellFormed htended.lists hq hi
    · exact himported t himport
  · cases himport : TreeSync.fromRatchetTree H g.treesync.exportRatchetTree with
    | error e =>
      rw [fromExternal, himport]
      constructor <;> intro heq <;> cases heq
    | ok t =>
      have haccepted : ListsAccepted (fromExternal H joining g.treesync.exportRatchetTree info) :=
        ensures_fromExternal (fun e he => .inr he) himport
          (fun j q hq i hi => .of_ok (himported t himport j q hq i hi) trivial)
          fun hbad => by simp at hbad
      exact ⟨fun heq => haccepted.not_bad heq (.inl rfl),
        fun heq => haccepted.not_bad heq (.inr rfl)⟩

/-- The founder adds four members and removes one, and a new member gets its leaf. -/
def refill : List (Event (List ℕ)) :=
  [invites [1, 2, 3, 4], memberCommit 0 [.remove 3] 2000,
    memberCommit 4 [.add (memberPackage 5)] 3000]

/-- The new member is unmerged in a parent. -/
theorem unmerged_leaves_tended_refill :
    ∃ g q, smallRun (fun _ _ => true) refill = some g ∧
      g.treesync.tree.parentByIndex (inorder 1 0) = some q ∧ q.unmergedLeaves = [3] ∧
      checkUnmergedLeaf g.treesync (inorder 1 0) 3 = .ok () := by
  obtain ⟨g, hg, q, hq, hlist⟩ : ∃ g ∈ smallRun (fun _ _ => true) refill,
      ∃ q ∈ g.treesync.tree.parentByIndex (inorder 1 0), q.unmergedLeaves = [3] := by
    decide +kernel
  obtain ⟨-, hchecks, -⟩ := unmerged_leaves_tended plainHash lenientRules
    (reaches_smallRun (fun _ hg => ⟨_, _, hg⟩) (fun _ _ _ => trivial) hg)
  exact ⟨g, q, hg, hq, hlist, hchecks _ (.inl rfl) _ q hq 3 (by rw [hlist]; exact .head _)⟩

end PublicGroup

end EmulatedMls
