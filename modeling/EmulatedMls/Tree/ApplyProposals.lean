import EmulatedMls.Tree.DiffSpec
import EmulatedMls.Tree.PublicGroup

/-!
# Applying validated proposals

The loops that apply the proposals of a commit return for every queue that passes the validation,
or report that the tree is full, and they are sequences of edits.
-/

namespace EmulatedMls

variable {D : Type}

open Exec List TreeSyncDiff

/-! ## What the validation guarantees -/

@[simp] lemma require_eq_ok {b : Bool} {err : ProposalValidationError} {u : Unit} :
    require b err = .ok u ↔ b = true := by
  unfold require
  split_ifs with h <;> simp [h]

variable {is : List ℕ} {v : GroupView D} {us : List (LeafNode D × Sender)}
  {es : List (Proposal D × Sender)}

lemma checkRemoves_eq_ok {updates seen : List ℕ} (h : checkRemoves v updates seen is = .ok ()) :
    is.Nodup ∧ ∀ i ∈ is, i ∉ seen ∧ i ∉ updates ∧ (leafAt v.leaves i).isSome := by
  induction is generalizing seen with
  | nil => exact ⟨nodup_nil, fun i hi => absurd hi not_mem_nil⟩
  | cons i is ih =>
    simp only [checkRemoves, seq_eq_ok, require_eq_ok, decide_eq_true_eq] at h
    obtain ⟨-, hseen, hupdates, hleaf, hrest⟩ := h
    obtain ⟨hnodup, hall⟩ := ih hrest
    refine ⟨nodup_cons.mpr ⟨fun hi => (hall i hi).1 mem_cons_self, hnodup⟩, fun j hj => ?_⟩
    rcases mem_cons.mp hj with rfl | hj
    · exact ⟨hseen, hupdates, hleaf⟩
    · exact ⟨fun hmem => (hall j hj).1 (.tail _ hmem), (hall j hj).2⟩

lemma updateSenders_eq_ok (h : updateSenders us = .ok is) :
    ∀ u ∈ us, ∃ i ∈ is, u.2 = .member i := by
  induction us generalizing is with
  | nil => exact fun u hu => absurd hu not_mem_nil
  | cons u us ih =>
    obtain ⟨l, s⟩ := u
    cases s with
    | member i =>
      simp only [updateSenders, bind_eq_ok, pure_eq_ok] at h
      obtain ⟨is', his', rfl⟩ := h
      intro u hu
      rcases mem_cons.mp hu with rfl | hu
      · exact ⟨i, .head _, rfl⟩
      · obtain ⟨j, hj, heq⟩ := ih his' u hu
        exact ⟨j, .tail _ hj, heq⟩
    | external k => cases h
    | newMemberProposal => cases h
    | newMemberCommit => cases h

lemma validateRemoveProposals_eq_ok (h : validateRemoveProposals v es = .ok ()) :
    (removeProposals es).Nodup ∧ (∀ i ∈ removeProposals es, (leafAt v.leaves i).isSome) ∧
      ∀ u ∈ updateProposals es, ∃ i ∉ removeProposals es, u.2 = .member i := by
  obtain ⟨is, his, hcheck⟩ := bind_inv h
  obtain ⟨hnodup, hall⟩ := checkRemoves_eq_ok hcheck
  refine ⟨hnodup, fun i hi => (hall i hi).2.2, fun u hu => ?_⟩
  obtain ⟨i, hi, heq⟩ := updateSenders_eq_ok his u hu
  exact ⟨i, fun hmem => (hall i hmem).2.1 hi, heq⟩

lemma validateReceivedProposals_removes {committer : ℕ} {path : Option (UpdatePath D)}
    (h : validateReceivedProposals v committer es path = .ok ()) :
    validateRemoveProposals v es = .ok () := by
  cases path with
  | none =>
    simp only [validateReceivedProposals, seq_eq_ok] at h
    exact h.2.2.2.1
  | some p =>
    simp only [validateReceivedProposals, seq_eq_ok] at h
    exact h.2.2.2.2.1

structure Fits (C : Contents D) (es : List (Proposal D × Sender)) : Prop where
  updates : ∀ u ∈ updateProposals es,
    ∃ i ∉ removeProposals es, u.2 = .member i ∧ (C.leaf i).isSome
  removes : ∀ i ∈ removeProposals es, (C.leaf i).isSome
  nodup : (removeProposals es).Nodup

lemma Fits.updates_byNewMember {C : Contents D} {proposals : List (Proposal D)}
    (h : Fits C (PublicGroup.byNewMember proposals)) :
    updateProposals (PublicGroup.byNewMember proposals) = [] := by
  refine eq_nil_iff_forall_not_mem.mpr fun u hu => ?_
  obtain ⟨i, -, hi, -⟩ := h.updates u hu
  obtain ⟨e, he, hp⟩ := mem_filterMap.mp hu
  obtain ⟨p, -, rfl⟩ := mem_map.mp he
  cases p with
  | update l =>
    cases hp
    cases hi
  | _ => cases hp

/-! ## The loops -/

variable {t : TreeSyncDiff D} {n : ℕ}

lemma applyUpdates_spec (h : t.WellFormed n)
    (hus : ∀ u ∈ us, ∃ i, u.2 = .member i ∧ (t.contents.leaf i).isSome) :
    ∃ (t' : TreeSyncDiff D) (us' : List (ℕ × LeafNode D)), applyUpdates us t = .ok t' ∧
      Changes t n (us'.map fun e => (e.1, .update e.2)) t' n ∧
      ∀ e ∈ us', (e.2, Sender.member e.1) ∈ us := by
  induction us generalizing t with
  | nil => exact ⟨t, [], rfl, .nil, fun e he => absurd he not_mem_nil⟩
  | cons u us ih =>
    obtain ⟨l, s⟩ := u
    obtain ⟨i, rfl, hi⟩ : ∃ i, s = .member i ∧ (t.contents.leaf i).isSome :=
      hus (l, s) mem_cons_self
    obtain ⟨t1, heq1, hedit⟩ := updateLeaf_spec h hi l
    have hone : Changes t n [(i, .update l)] t1 n := .cons hedit .nil
    obtain ⟨t', us', heq, hchanges, hus'⟩ := ih hedit.wellFormed fun u hu => by
      obtain ⟨j, hj, hfull⟩ := hus u (.tail _ hu)
      exact ⟨j, hj, hone.full hfull (by simp)⟩
    refine ⟨t', (i, l) :: us', ?_, .cons hedit hchanges, fun e he => ?_⟩
    · rw [applyUpdates, heq1]
      exact heq
    · rcases mem_cons.mp he with rfl | he
      · exact .head _
      · exact .tail _ (hus' e he)

lemma applyRemoves_spec (h : t.WellFormed n) (hnodup : is.Nodup)
    (his : ∀ i ∈ is, (t.contents.leaf i).isSome) :
    ∃ t', applyRemoves is t = .ok t' ∧ Changes t n (is.map fun i => (i, .blank)) t' n := by
  induction is generalizing t with
  | nil => exact ⟨t, rfl, .nil⟩
  | cons i is ih =>
    obtain ⟨hi, hnodup⟩ := nodup_cons.mp hnodup
    obtain ⟨t1, heq1, hedit⟩ := blankLeaf_spec h (his i mem_cons_self)
    obtain ⟨t', heq, hchanges⟩ := ih hedit.wellFormed hnodup fun j hj => by
      have hne : j ≠ i := fun hji => hi (hji ▸ hj)
      rw [hedit.contents, Contents.leaf_edit_of_ne hne]
      exact his j (.tail _ hj)
    refine ⟨t', ?_, .cons hedit hchanges⟩
    rw [applyRemoves, heq1]
    exact heq

lemma applyAdds_spec (h : t.WellFormed n) (kps : List (KeyPackage D)) :
    applyAdds kps t = .error .treeFull ∨
      ∃ t' n' invited, ∃ added : List (ℕ × LeafNode D), applyAdds kps t = .ok (t', invited) ∧
        (invited.map Prod.snd = kps ∧ added = invited.map fun e => (e.1, e.2.leafNode)) ∧
        Changes t n (added.map fun e => (e.1, .add e.2)) t' n' := by
  induction kps generalizing t n with
  | nil => exact .inr ⟨t, n, [], [], rfl, ⟨rfl, rfl⟩, .nil⟩
  | cons kp kps ih =>
    rcases addLeaf_spec h kp.leafNode with hfull | ⟨t1, n1, heq1, hedit⟩
    · left
      rw [applyAdds, hfull]
    · rw [applyAdds, heq1]
      rcases ih hedit.wellFormed with hfull | ⟨t', n', invited, added, heq, hadded, hchanges⟩
      · left
        show (applyAdds kps t1 >>= _) = _
        rw [hfull]
        rfl
      · refine .inr ⟨t', n', (t.freeLeafIndex, kp) :: invited,
          (t.freeLeafIndex, kp.leafNode) :: added, ?_, ?_, .cons hedit hchanges⟩
        · show (applyAdds kps t1 >>= _) = _
          rw [heq]
          rfl
        · rw [map_cons, map_cons, hadded.1, hadded.2]
          exact ⟨rfl, rfl⟩

/-- What applying the proposals of a queue does: `us` are the updated and `added` the new leaves. -/
structure Applied (t : TreeSyncDiff D) (n : ℕ) (es : List (Proposal D × Sender))
    (us added : List (ℕ × LeafNode D)) (t' : TreeSyncDiff D) (n' : ℕ) : Prop where
  changes : t.Changes n (operations us (removeProposals es) added) t' n'
  updates : ∀ e ∈ us, (e.2, Sender.member e.1) ∈ updateProposals es
  adds : added.map Prod.snd = (addProposals es).map KeyPackage.leafNode

lemma applyProposals_spec (h : t.WellFormed n) (hfits : Fits t.contents es) (own : Option ℕ) :
    Ensures CommitError.IsFault (fun r => ∃ n' us added, Applied t n es us added r.1 n' ∧
        (r.2.pathRequired = false → es.any (·.1.isPathRequired) = false) ∧
        added = r.2.invitationList.map fun e => (e.1, e.2.leafNode)) (applyProposals t es own) := by
  obtain ⟨t1, us, heq1, hchanges1, hus⟩ := applyUpdates_spec h fun u hu => by
    obtain ⟨i, -, hi, hfull⟩ := hfits.updates u hu
    exact ⟨i, hi, hfull⟩
  have hwf1 := hchanges1.wellFormed h
  obtain ⟨t2, heq2, hchanges2⟩ := applyRemoves_spec hwf1 hfits.nodup fun i hi =>
    hchanges1.full (hfits.removes i hi) (by simp)
  simp only [applyProposals, heq1, heq2, bind, Except.bind]
  rcases applyAdds_spec (hchanges2.wellFormed hwf1) (addProposals es) with
    hfull | ⟨t', n', invited, added, heq3, hadded, hchanges3⟩
  · rw [hfull]
    rintro ⟨f, ⟨⟩⟩
  · have hadds : added.map Prod.snd = (addProposals es).map KeyPackage.leafNode := by
      rw [hadded.2, ← hadded.1, map_map, map_map]
      rfl
    rw [heq3]
    refine ⟨n', us, added, ⟨(hchanges1.append hchanges2).append hchanges3, hus, hadds⟩,
      fun hpath => ?_, hadded.2⟩
    simp only [Bool.or_eq_false_iff] at hpath
    exact hpath.1.1

namespace Applied

variable {es : List (Proposal D × Sender)} {us added : List (ℕ × LeafNode D)}
  {t' : TreeSyncDiff D} {n' : ℕ}

variable (h : Applied t n es us added t' n')
include h

lemma mem_adds {e : ℕ × LeafNode D} (he : e ∈ added) :
    e.2 ∈ (addProposals es).map KeyPackage.leafNode := h.adds ▸ mem_map_of_mem he

lemma length_added : added.length = (addProposals es).length := by
  simpa using congrArg List.length h.adds

lemma added_eq_nil (hadds : addProposals es = []) : added = [] :=
  length_eq_zero_iff.mp (h.length_added.trans (congrArg List.length hadds))

/-- Nobody is added but the joiner. -/
lemma join {i n2 : ℕ} {l : LeafNode D} {t2 : TreeSyncDiff D} (hadds : addProposals es = [])
    (hadd : t'.Edited n' (.add l) i t2 n2) :
    t.Changes n (operations us (removeProposals es) [(i, l)]) t2 n2 := by
  have hchanges := h.changes.append (.cons hadd .nil)
  rw [h.added_eq_nil hadds] at hchanges
  simpa [operations] using hchanges

lemma full {j : ℕ} (hj : (t.contents.leaf j).isSome) (hnot : j ∉ removeProposals es) :
    (t'.contents.leaf j).isSome :=
  h.changes.full hj fun hmem => hnot (blank_mem_operations.mp hmem)

/-- When leaf `i` is alone afterwards, only it has changed, unless members were removed. -/
lemma keys_eq_of_alone (hfits : Fits t.contents es) (hdiff : ∀ j, j ∉ t.diff.leafDiff) {i : ℕ}
    (hkept : (∀ j ∈ removeProposals es, j = i) ∨ addProposals es ≠ [] ∨
      ∃ j ≠ i, (t.contents.leaf j).isSome ∧ j ∉ removeProposals es)
    (hadds : addProposals es = [] ∨ (t.contents.leaf i).isSome ∧ i ∉ removeProposals es)
    (halone : ∀ j, (t'.contents.leaf j).isSome → j = i) : ∀ j ∈ t'.diff.leafDiff, j = i := by
  have hnil : added = [] := by
    rcases hadds with hnil | ⟨hi, hnot⟩
    · exact h.added_eq_nil hnil
    · -- a new leaf would be another one
      refine eq_nil_iff_forall_not_mem.mpr fun e he => ?_
      obtain ⟨hblank, hfull⟩ := h.changes.new_members.2 e he
      rw [halone e.1 hfull] at hblank
      rcases hblank with hblank | hmem
      · rw [hblank] at hi
        cases hi
      · exact hnot hmem
  have hremoves : ∀ j ∈ removeProposals es, j = i := by
    rcases hkept with hall | hne | ⟨j, hji, hj, hnot⟩
    · exact hall
    · have hlen := h.length_added
      rw [hnil] at hlen
      exact absurd (length_eq_zero_iff.mp hlen.symm) hne
    · exact absurd (halone j (h.full hj hnot)) hji
  intro j hj
  rcases (h.changes.keys j).mp hj with hmem | hmem
  · rw [operations, hnil, map_nil, append_nil, map_append, mem_append] at hmem
    rcases hmem with hmem | hmem
    · obtain ⟨e, he, rfl⟩ : ∃ e ∈ us, e.1 = j := by simpa using hmem
      obtain ⟨k, hk, heq, hfull⟩ := hfits.updates _ (h.updates e he)
      obtain rfl : e.1 = k := by simpa using heq
      exact halone _ (h.full hfull hk)
    · exact hremoves j (by simpa using hmem)
  · exact absurd hmem (hdiff j)

lemma eq_of_not_pathRequired (hes : es.any (·.1.isPathRequired) = false) :
    t' = t ∧ n' = n ∧ removeProposals es = [] ∧ addProposals es = [] := by
  have hnone : ∀ e ∈ es, e.1.isPathRequired = false := by simpa using hes
  obtain ⟨hupdates, hremoves, hadds⟩ :
      updateProposals es = [] ∧ removeProposals es = [] ∧ addProposals es = [] := by
    refine ⟨?_, ?_, ?_⟩ <;> refine filterMap_eq_nil_iff.mpr fun ⟨p, s⟩ he => ?_
    all_goals cases p <;> first | rfl | cases hnone _ he
  have hus : us = [] := eq_nil_iff_forall_not_mem.mpr fun e he => by
    have := h.updates e he
    rw [hupdates] at this
    cases this
  have hchanges := h.changes
  rw [hus, hremoves, h.added_eq_nil hadds] at hchanges
  cases hchanges
  exact ⟨rfl, rfl, hremoves, hadds⟩

end Applied

end EmulatedMls
