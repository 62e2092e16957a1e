import EmulatedMls.Logs.Format
import EmulatedMls.Mls.FilterRule
import Mathlib.Algebra.Ring.Nat
import Mathlib.Data.List.Perm.Subperm

/-!
# The record of a commit

`commit_to_proposals` drops removals of the own leaf and a random surplus from the pending
proposals, writes the list for the log from what is left, and then lets OpenMLS build a commit from
the same pending proposals.  OpenMLS filters them once more.

**Source.**  `invalid_proposals` and `commit_to_proposals` of `user.rs`, `remove_pending_proposal`
of `group/mls_group/proposal.rs`, `build` of `group/mls_group/commit_builder.rs`.

**What the record cannot know.**  The filter drops own updates and keeps one removal or update for
each leaf, and of two pending proposals with one reference it keeps one.

**Left out.**  The key store, which is not read again.  Path, signature and framing of the commit.
-/

namespace EmulatedMls

open Exec List

open Logs (CGKAAction)

inductive CommitToProposalsError where
  /-- "Failed to remove proposal". -/
  | removeProposal
  | queue (e : ProposalQueueError)
  | validation (e : ProposalValidationError)
  /-- An `unwrap` or the `unreachable!` of the record. -/
  | panicked
  deriving DecidableEq, Repr

section

variable {D Ref : Type}

/-! ## Choosing what is committed -/

/-- `choose_multiple`: any choice of indices, as many as asked for or all. -/
def chooseMultiple {α : Type} (choice : List ℕ) (xs : List α) (amount : ℕ) : List α :=
  let amount := min amount xs.length
  let indices := if choice.Nodup ∧ (∀ i ∈ choice, i < xs.length) ∧ choice.length = amount
    then choice else List.range amount
  indices.filterMap (xs[·]?)

/-- `pending_proposals.len() - amount`, which wraps around in a release build. -/
def amountToRemove (pending amount : ℕ) : ℕ :=
  if amount ≤ pending then pending - amount else 2 ^ 64 + pending - amount

section Store

variable [DecidableEq Ref]

/-- `remove_pending_proposal`: the first proposal with the reference. -/
def removePendingProposal (pending : List (QueuedProposal D Ref)) (r : Ref) :
    Except CommitToProposalsError (List (QueuedProposal D Ref)) :=
  if pending.any (·.proposalReference = r) then .ok (pending.eraseP (·.proposalReference = r))
  else .error .removeProposal

/-- The loops that call it. -/
def removePendingProposals :
    List (QueuedProposal D Ref) → List (QueuedProposal D Ref) →
      Except CommitToProposalsError (List (QueuedProposal D Ref))
  | pending, [] => .ok pending
  | pending, x :: xs => do
    let pending ← removePendingProposal pending x.proposalReference
    removePendingProposals pending xs

end Store

/-- `invalid_proposals`: removals of the own leaf. -/
def invalidProposals (own : LeafNodeIndex) (pending : List (QueuedProposal D Ref)) :
    List (QueuedProposal D Ref) :=
  pending.filter (QueuedProposal.isRemoveOf own)

/-! ## The record and the commit -/

/-- The action that is logged for a proposal; `none` is a panic. -/
def loggedAction (leaves : List (Option (LeafNode D))) (p : Proposal D) : Option CGKAAction :=
  match p with
  | .add kp => some (.invite kp.leafNode.credential 0)
  | .remove i => (leafAt leaves i).map fun l => .remove l.credential 0
  | .update _ => some (.update 0)
  | _ => none

def proposalsToCommit (leaves : List (Option (LeafNode D))) :
    List (QueuedProposal D Ref) → Except CommitToProposalsError (List CGKAAction)
  | [] => .ok []
  | x :: xs =>
    match loggedAction leaves x.proposal with
    | none => .error .panicked
    | some action => do
      let actions ← proposalsToCommit leaves xs
      pure (action :: actions)

/-- What `commit_to_proposals` has when the commit is built. -/
structure BuiltCommit (D Ref : Type) where
  pending : List (QueuedProposal D Ref)
  proposalsToCommit : List CGKAAction
  queue : ProposalQueue D Ref

/-- The actions of the proposals that a commit covers. -/
def ProposalQueue.actions (leaves : List (Option (LeafNode D))) (q : ProposalQueue D Ref) :
    List CGKAAction :=
  q.queuedProposals.filterMap fun x => loggedAction leaves x.proposal

/-! ## What the filter drops -/

/-- **Nothing is dropped** of the pending proposals. -/
structure NoneDropped (own : LeafNodeIndex) (xs : List (QueuedProposal D Ref)) : Prop where
  references : (xs.map (·.proposalReference)).Nodup
  updates : ∀ x ∈ xs, ∀ l, x.proposal = .update l → ∃ i ≠ own, x.sender = .member i
  perLeaf : ∀ i, (xs.filter (QueuedProposal.isRemoveOf i)).length +
    (xs.filter (QueuedProposal.isUpdateOf own i)).length ≤ 1

open QueuedProposal ProposalQueue

variable {O : MapOrder} {own : LeafNodeIndex} {xs : List (QueuedProposal D Ref)}
  {q : ProposalQueue D Ref} {flag : Bool}

variable {leaves : List (Option (LeafNode D))} {i : LeafNodeIndex} {x : QueuedProposal D Ref}

lemma loggedAction_isSome {p : Proposal D} (h : (loggedAction leaves p).isSome) :
    (∃ kp, p = .add kp) ∨ (∃ l, p = .update l) ∨ ∃ i, p = .remove i := by
  cases p with
  | add kp => exact .inl ⟨kp, rfl⟩
  | update l => exact .inr (.inl ⟨l, rfl⟩)
  | remove i => exact .inr (.inr ⟨i, rfl⟩)
  | _ => cases h

variable {α : Type}

lemma getLast?_of_length_le_one {ys : List α} {x : α} (hx : x ∈ ys) (h : ys.length ≤ 1) :
    ys.getLast? = some x := by
  match ys with
  | [y] => simpa using (mem_singleton.mp hx).symm

lemma length_le_one_of_getLast? {ys : List α} (hnd : ys.Nodup)
    (h : ∀ x ∈ ys, ys.getLast? = some x) : ys.length ≤ 1 := by
  match ys with
  | [] => simp
  | [_] => simp
  | y :: z :: ys =>
    have hyz : y = z := Option.mem_unique (h y (by simp)) (h z (by simp))
    exact absurd hnd (by simp [hyz])

lemma survives_iff (hrefs : (xs.map (·.proposalReference)).Nodup)
    (hlogged : ∀ x ∈ xs, (loggedAction leaves x.proposal).isSome) :
    (∀ x ∈ xs, Survives own xs x) ↔ NoneDropped own xs := by
  constructor
  · intro hall
    have hnodup : xs.Nodup := .of_map _ hrefs
    refine ⟨hrefs, fun x hx l hp => ?_, fun i => ?_⟩
    · obtain ⟨i, -, -, hne, hsender⟩ := (hall x hx).of_update hp
      exact ⟨i, hne, hsender⟩
    · have hremoves : (xs.filter (isRemoveOf i)).length ≤ 1 := by
        refine length_le_one_of_getLast? (hnodup.filter _) fun x hx => ?_
        obtain ⟨hx, hi⟩ := mem_filter.mp hx
        exact (hall x hx).of_isRemoveOf hi
      have hupdates : ∀ x ∈ xs.filter (isUpdateOf own i), xs.filter (isRemoveOf i) = [] ∧
          (xs.filter (isUpdateOf own i)).getLast? = some x := fun x hx => by
        obtain ⟨hx, hi⟩ := mem_filter.mp hx
        obtain ⟨l, hp, hsender⟩ := exists_of_isUpdateBy (isUpdateOf_iff.mp hi).1
        obtain ⟨j, hnil, hlast, -, hj⟩ := (hall x hx).of_update hp
        obtain rfl : i = j := Sender.member.inj (hsender.symm.trans hj)
        exact ⟨hnil, hlast⟩
      rcases hu : xs.filter (isUpdateOf own i) with - | ⟨x, us⟩
      · simpa using hremoves
      · rw [(hupdates x (by rw [hu]; exact .head _)).1, ← hu]
        simpa using length_le_one_of_getLast? (hnodup.filter _) fun y hy => (hupdates y hy).2
  · intro hnone x hx
    rcases loggedAction_isSome (hlogged x hx) with ⟨kp, hp⟩ | ⟨l, hp⟩ | ⟨i, hp⟩
    · exact .inl ⟨hx, .inl (by simp [isAdd, hp])⟩
    · obtain ⟨i, hi, hsender⟩ := hnone.updates x hx l hp
      have hmem : x ∈ xs.filter (isUpdateOf own i) :=
        mem_filter.mpr ⟨hx, by simp [isUpdateOf, hp, hsender, hi]⟩
      have hpos := length_pos_of_mem hmem
      have hone := hnone.perLeaf i
      refine .inr (.inr (.inr ⟨i, length_eq_zero_iff.mp (by omega), ?_⟩))
      exact getLast?_of_length_le_one hmem (by omega)
    · have hmem : x ∈ xs.filter (isRemoveOf i) :=
        mem_filter.mpr ⟨hx, by simp [isRemoveOf, hp]⟩
      have hone := hnone.perLeaf i
      refine .inr (.inr (.inl ⟨i, getLast?_of_length_le_one hmem (by omega)⟩))

lemma proposalsToCommit_eq_ok {actions : List CGKAAction}
    (h : proposalsToCommit leaves xs = .ok actions) :
    (∀ x ∈ xs, (loggedAction leaves x.proposal).isSome) ∧
      actions = xs.filterMap fun x => loggedAction leaves x.proposal := by
  induction xs generalizing actions with
  | nil => exact ⟨by simp, by simpa [proposalsToCommit] using h.symm⟩
  | cons x xs ih =>
    cases hx : loggedAction leaves x.proposal with
    | none => simp [proposalsToCommit, hx] at h
    | some action =>
      simp only [proposalsToCommit, hx] at h
      obtain ⟨rest, hrest, heq⟩ := bind_inv h
      obtain ⟨hall, rfl⟩ := ih hrest
      cases heq
      simpa [hx] using hall

variable [DecidableEq Ref]

/-- The pending proposals without the first one of the reference of each given proposal. -/
def withoutProposals (pending gone : List (QueuedProposal D Ref)) : List (QueuedProposal D Ref) :=
  gone.foldl (fun ps x => ps.eraseP (·.proposalReference = x.proposalReference)) pending

/-- What is left of the pending proposals: no removal of the own leaf and no surplus. -/
def remaining (choice : List ℕ) (own : LeafNodeIndex) (amount : ℕ)
    (pending : List (QueuedProposal D Ref)) : List (QueuedProposal D Ref) :=
  let valid := withoutProposals pending (invalidProposals own pending)
  withoutProposals valid
    (chooseMultiple choice valid (amountToRemove valid.length amount))

lemma removePendingProposals_eq_ok {pending gone left : List (QueuedProposal D Ref)}
    (h : removePendingProposals pending gone = .ok left) :
    left = withoutProposals pending gone := by
  induction gone generalizing pending with
  | nil => exact (Except.ok.inj h).symm
  | cons x gone ih =>
    obtain ⟨p, hp, hrest⟩ := bind_inv h
    unfold removePendingProposal at hp
    split_ifs at hp
    cases hp
    exact ih hrest

/-- `commit_to_proposals`, up to the end of `commit_to_pending_proposals`. -/
def commitToProposals (O : MapOrder) (v : GroupView D) (choice : List ℕ) (own : LeafNodeIndex)
    (amount : ℕ) (pending : List (QueuedProposal D Ref)) :
    Except CommitToProposalsError (BuiltCommit D Ref) := do
  let pending ← removePendingProposals pending (invalidProposals own pending)
  let surplus := chooseMultiple choice pending (amountToRemove pending.length amount)
  let pending ← removePendingProposals pending surplus
  let actions ← proposalsToCommit v.leaves pending
  match ProposalQueue.filterProposalsWithoutInline O pending own with
  | .error e => .error (.queue e)
  | .ok (queue, _) =>
    match validateOwnCommit v own queue.entries with
    | .error e => .error (.validation e)
    | .ok _ => .ok ⟨pending, actions, queue⟩

section

variable (hq : filterProposalsWithoutInline O xs own = .ok (q, flag))
include hq

lemma queuedProposals_subperm : q.queuedProposals.Subperm xs := by
  obtain ⟨hwf, -, hmem⟩ := filter_spec hq
  refine subperm_of_subset hwf.nodup_queuedProposals fun x hx => ?_
  obtain ⟨-, hget⟩ := mem_queuedProposals hwf hx
  exact hmem _ x hget

lemma queuedProposals_perm (hrefs : (xs.map (·.proposalReference)).Nodup)
    (hall : ∀ x ∈ xs, Survives own xs x) : q.queuedProposals.Perm xs := by
  obtain ⟨hwf, href, -⟩ := filter_spec hq
  have hperm : q.proposalReferences.Perm (xs.map (·.proposalReference)) := by
    refine (perm_ext_iff_of_nodup hwf.nodup hrefs).mpr fun r => ?_
    rw [href, mem_map]
    exact ⟨fun ⟨x, hx, hr⟩ => ⟨x, hx.mem, hr⟩, fun ⟨x, hx, hr⟩ => ⟨x, hall x hx, hr⟩⟩
  refine (queuedProposals_subperm hq).perm_of_length_le ?_
  have hlen := hperm.length_eq
  rw [← hwf.map_reference, length_map, length_map] at hlen
  exact hlen.ge

lemma survives_of_perm (hperm : q.queuedProposals.Perm xs) :
    (xs.map (·.proposalReference)).Nodup ∧ ∀ x ∈ xs, Survives own xs x := by
  obtain ⟨hwf, href, -⟩ := filter_spec hq
  have hrefs : q.proposalReferences.Perm (xs.map (·.proposalReference)) := by
    rw [← hwf.map_reference]
    exact hperm.map _
  have hnodup := hrefs.nodup_iff.mp hwf.nodup
  refine ⟨hnodup, fun x hx => ?_⟩
  obtain ⟨y, hy, hyx⟩ := (href x.proposalReference).mp (hrefs.mem_iff.mpr (mem_map_of_mem hx))
  rwa [← inj_on_of_nodup_map hnodup hy.mem hx hyx]

end

/-! ## The record -/

lemma commitToProposals_eq_ok {v : GroupView D} {choice : List ℕ} {amount : ℕ}
    {pending : List (QueuedProposal D Ref)} {c : BuiltCommit D Ref}
    (h : commitToProposals O v choice own amount pending = .ok c) :
    c.pending = remaining choice own amount pending ∧
      proposalsToCommit v.leaves c.pending = .ok c.proposalsToCommit ∧
      ∃ flag, filterProposalsWithoutInline O c.pending own = .ok (c.queue, flag) := by
  obtain ⟨p1, hvalid, h⟩ := bind_inv h
  obtain ⟨p2, hleft, h⟩ := bind_inv h
  obtain ⟨actions, hactions, h⟩ := bind_inv h
  cases hq : filterProposalsWithoutInline O p2 own with
  | error e => simp [hq] at h
  | ok r =>
    obtain ⟨queue, flag⟩ := r
    simp only [hq] at h
    split at h
    · cases h
    · cases h
      obtain rfl := removePendingProposals_eq_ok hvalid
      exact ⟨removePendingProposals_eq_ok hleft, hactions, flag, hq⟩

/-- **The logged commit** lists the proposals that the commit covers, and as many as it covers, if
    and only if the filter has nothing to drop of the remaining ones. -/
theorem logged_commit_iff {v : GroupView D} {choice : List ℕ} {amount : ℕ}
    {pending : List (QueuedProposal D Ref)} {c : BuiltCommit D Ref}
    (h : commitToProposals O v choice own amount pending = .ok c) :
    (c.proposalsToCommit.Perm (c.queue.actions v.leaves) ↔
      NoneDropped own (remaining choice own amount pending)) ∧
    (c.proposalsToCommit.length = c.queue.queuedProposals.length ↔
      NoneDropped own (remaining choice own amount pending)) := by
  obtain ⟨hleft, hrecord, flag, hq⟩ := commitToProposals_eq_ok h
  rw [← hleft]
  obtain ⟨hlogged, hactions⟩ := proposalsToCommit_eq_ok hrecord
  have hsub := queuedProposals_subperm hq
  have hqueue : (c.queue.actions v.leaves).length = c.queue.queuedProposals.length :=
    filterMap_length_eq_length.mpr fun x hx => hlogged x (hsub.subset hx)
  have hall : c.proposalsToCommit.length = c.pending.length := by
    rw [hactions, filterMap_length_eq_length.mpr hlogged]
  have hcount : c.proposalsToCommit.length = c.queue.queuedProposals.length →
      NoneDropped own c.pending := fun hlen => by
    have hperm := hsub.perm_of_length_le (by omega)
    obtain ⟨hrefs, hsurvive⟩ := survives_of_perm hq hperm
    exact (survives_iff hrefs hlogged).mp hsurvive
  have hsame : NoneDropped own c.pending → c.proposalsToCommit.Perm (c.queue.actions v.leaves) :=
    fun hnone => by
      have hperm := queuedProposals_perm hq hnone.references
        ((survives_iff hnone.references hlogged).mpr hnone)
      rw [hactions]
      exact (hperm.filterMap _).symm
  exact ⟨⟨fun hperm => hcount (hperm.length_eq.trans hqueue), hsame⟩,
    ⟨hcount, fun hnone => (hsame hnone).length_eq.trans hqueue⟩⟩

end

/-! ## Commits in a group of three -/

/-- Member `0` updates itself, and members `0` and `1` remove member `2`. -/
def doubledRemoval : ProposalStore ℕ :=
  [(⟨.member 0, .update (sampleLeaf 7), []⟩, .reference),
    (⟨.member 0, .remove 2, []⟩, .reference), (⟨.member 1, .remove 2, []⟩, .reference)]

/-- Of three proposals that member `0` logs its commit covers one. -/
theorem logged_three_covered_one :
    ∃ c, commitToProposals insertionOrder threeMembers [] 0 3
        (doubledRemoval.proposals plainRefs) = .ok c ∧
      c.proposalsToCommit = [.update 0, .remove "member" 0, .remove "member" 0] ∧
      c.queue.actions threeMembers.leaves = [.remove "member" 0] ∧
      c.queue.queuedProposals.length = 1 :=
  ⟨_, rfl, rfl, rfl, rfl⟩

/-- Member `0` commits its removal and an update of member `1`, and logs both. -/
theorem logged_commit_iff_two :
    ∃ c, commitToProposals insertionOrder threeMembers [] 0 2
        ((ownRemoval ++ foreignUpdate).proposals plainRefs) = .ok c ∧
      c.proposalsToCommit.length = 2 ∧
      c.proposalsToCommit.Perm (c.queue.actions threeMembers.leaves) := by
  obtain ⟨c, hc, hlogged, hcovered⟩ : ∃ c, commitToProposals insertionOrder threeMembers [] 0 2
      ((ownRemoval ++ foreignUpdate).proposals plainRefs) = .ok c ∧
      c.proposalsToCommit.length = 2 ∧ c.queue.queuedProposals.length = 2 := ⟨_, rfl, rfl, rfl⟩
  have hiff := logged_commit_iff hc
  exact ⟨c, hc, hlogged, hiff.1.mpr (hiff.2.mp (hlogged.trans hcovered.symm))⟩

end EmulatedMls
