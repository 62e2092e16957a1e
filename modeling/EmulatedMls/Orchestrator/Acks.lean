import EmulatedMls.Orchestrator.Lockstep
import Mathlib.Data.List.Infix
import Mathlib.Data.List.Perm.Subperm

/-!
# Waiting for acknowledgements

The winner of an election waits for an acknowledgement of every other new member before it commits.
It counts them down: a commit sets the counter, an acknowledgement takes one off, and the action
`Commit` is returned when the counter gets to zero.

**Source.**  The end of `process_commit` and `process_ack` of `orchestrator.rs`, and the check for
the own name in `process_ack` of `user.rs`.

**Order of delivery.**  The commit and the acknowledgements come over different topics, in any
order, and an acknowledgement may be delivered more than once.  The counter does not know who has
acknowledged, and it is zero before the commit.
-/

namespace EmulatedMls.Orchestrator

open Exec List

/-- The data of a commit that `process_commit` gets. -/
structure Election where
  seed : List UInt8
  total : ℕ
  newMembers : List String

/-- What is delivered: the commit, or an acknowledgement. -/
inductive Delivery where
  | commit
  | ack (sender : String)
  deriving DecidableEq, Repr

/-- An order of delivery: acknowledgements, the commit, acknowledgements. -/
def deliveries (early late : List String) : List Delivery :=
  early.map .ack ++ .commit :: late.map .ack

section

variable (R : Rng) (fuel : ℕ) (e : Election)

/-- One delivery with the action that is returned.  The user ignores its own acknowledgement. -/
def deliver (o : Orchestrator) : Delivery → Exec (Orchestrator × NextAction)
  | .commit => do
    let r ← processCommit R fuel o e.seed e.total e.newMembers
    pure (r.orchestrator, r.action)
  | .ack sender => pure (if sender = o.name then (o, .listen) else o.processAck)

/-- How often a list of deliveries yields `Commit`. -/
def commitsYielded : Orchestrator → List Delivery → Exec ℕ
  | _, [] => pure 0
  | o, d :: ds => do
    let (o, action) ← deliver R fuel e o d
    let n ← commitsYielded o ds
    pure ((if action = .commit then 1 else 0) + n)

/-- The replica wins the election of the commit. -/
def WinsElection (o : Orchestrator) : Prop :=
  ∃ r, processCommit R fuel o e.seed e.total e.newMembers = .ok r ∧ r.Wins

def Election.others (o : Orchestrator) : List String := e.newMembers.filter (· ≠ o.name)

end

variable {R : Rng} {fuel : ℕ} {e : Election} {o : Orchestrator}

/-! ## The counter -/

def counted (o : Orchestrator) (senders : List String) : ℕ := senders.countP (· ≠ o.name)

/-- What is left of the counter. -/
def afterAcks (o : Orchestrator) (k : ℕ) : Orchestrator :=
  { o with pendingAcks := o.pendingAcks - k }

lemma afterAcks_zero (o : Orchestrator) : o.afterAcks 0 = o := rfl

lemma afterAcks_afterAcks (o : Orchestrator) (k l : ℕ) :
    (o.afterAcks k).afterAcks l = o.afterAcks (k + l) := by
  simp [afterAcks, Nat.sub_sub]

lemma processAck_eq (o : Orchestrator) :
    o.processAck = (o.afterAcks 1, if o.pendingAcks = 1 then .commit else .listen) := by
  unfold processAck afterAcks
  rcases hc : o.pendingAcks with - | n
  · cases o
    simp_all
  · by_cases hn : n = 0 <;> simp [hn]

/-- The number of times a counter gets to zero while `k` are taken off. -/
def reachesZero (c k : ℕ) : ℕ := if 0 < c ∧ c ≤ k then 1 else 0

lemma reachesZero_succ (c k : ℕ) :
    reachesZero c (k + 1) = (if c = 1 then 1 else 0) + reachesZero (c - 1) k := by
  unfold reachesZero
  split_ifs <;> omega

variable {ds : List Delivery} {q early late : List String}

/-- **A list of acknowledgements** takes as many off the counter as there are. -/
lemma commitsYielded_acks {senders : List String} {n : ℕ}
    (h : commitsYielded R fuel e (o.afterAcks (o.counted senders)) ds = .ok n) :
    commitsYielded R fuel e o (senders.map .ack ++ ds) =
      .ok (reachesZero o.pendingAcks (o.counted senders) + n) := by
  induction senders generalizing o with
  | nil =>
    have hzero : reachesZero o.pendingAcks 0 = 0 := by
      unfold reachesZero
      split_ifs <;> omega
    simpa [counted, afterAcks_zero, hzero] using h
  | cons s senders ih =>
    by_cases hs : s = o.name
    · -- the own acknowledgement changes nothing
      have hcounted : o.counted (s :: senders) = o.counted senders := by
        simp [counted, hs]
      rw [hcounted] at h ⊢
      refine bind_eq_ok.mpr ⟨(o, .listen), by simp [deliver, hs], ?_⟩
      exact bind_ok (ih h) (by simp)
    · have hcounted : o.counted (s :: senders) = (o.afterAcks 1).counted senders + 1 := by
        rw [show (o.afterAcks 1).counted senders = o.counted senders from rfl]
        simp [counted, hs]
      rw [hcounted, Nat.add_comm, ← afterAcks_afterAcks] at h
      refine bind_eq_ok.mpr ⟨_, by simp only [deliver, hs, if_false]; rfl, ?_⟩
      rw [processAck_eq]
      refine bind_ok (ih h) (?_)
      rw [hcounted, reachesZero_succ]
      simp [afterAcks, Nat.add_assoc]

lemma processCommit_afterAcks {r : Outcome} (k : ℕ)
    (h : processCommit R fuel o e.seed e.total e.newMembers = .ok r) (hwins : r.Wins) :
    processCommit R fuel (o.afterAcks k) e.seed e.total e.newMembers = .ok r := by
  obtain ⟨⟨known, g⟩, hseat, h⟩ := bind_inv h
  refine bind_ok hseat (?_)
  cases hpos : position known o.name with
  | none =>
    simp only [hpos, pure_eq_ok] at h
    subst h
    simp [Outcome.Wins] at hwins
  | some pos =>
    simp only [hpos] at h
    obtain ⟨⟨w, g'⟩, hdraw, h⟩ := bind_inv h
    obtain ⟨who, hroll, h⟩ := bind_inv h
    cases h
    obtain rfl := conclude_wins.mp hwins
    have hname : (o.afterAcks k).name = o.name := rfl
    simp only [hname, hpos]
    refine bind_ok hdraw (bind_ok hroll (?_))
    simp [conclude, afterAcks]

lemma commitsYielded_only_acks (senders : List String) :
    commitsYielded R fuel e o (senders.map .ack) =
      .ok (reachesZero o.pendingAcks (o.counted senders)) := by
  have hnil : commitsYielded R fuel e (o.afterAcks (o.counted senders)) [] = .ok 0 := rfl
  simpa using commitsYielded_acks hnil

/-- **What the counter makes of any order.** -/
lemma commitsYielded_deliveries (hwins : o.WinsElection R fuel e) (early late : List String) :
    commitsYielded R fuel e o (deliveries early late) =
      .ok (reachesZero o.pendingAcks (o.counted early) +
        if (e.others o).length ≤ o.counted late then 1 else 0) := by
  obtain ⟨r, hr, hw⟩ := hwins
  have hrun := processCommit_afterAcks (o.counted early) hr hw
  rcases processCommit_acks hr with ⟨-, hpending, haction⟩ | ⟨hloses, -⟩
  · have hname : r.orchestrator.name = o.name := (processCommit_frame hr).1
    have hcounted : r.orchestrator.counted late = o.counted late := by
      simp only [counted, hname]
    refine commitsYielded_acks (bind_ok (bind_ok hrun rfl) (?_))
    refine bind_ok (commitsYielded_only_acks late) (?_)
    rw [hcounted, hpending, haction, pure_eq_ok]
    show _ = if (e.newMembers.filter (· ≠ o.name)).length ≤ _ then 1 else 0
    generalize (e.newMembers.filter (· ≠ o.name)).length = n
    unfold reachesZero
    rcases n with - | n <;> simp
  · exact absurd hw hloses

/-! ## The protocol -/

/-- What is delivered up to some moment, and the moment itself: the number of `Commit` actions is
    one if the commit and an acknowledgement of every other new member are among the deliveries,
    and zero otherwise. -/
def YieldsOnce (R : Rng) (fuel : ℕ) (e : Election) (o : Orchestrator) (ds : List Delivery) : Prop :=
  commitsYielded R fuel e o ds =
    .ok (if .commit ∈ ds ∧ ∀ x ∈ e.others o, .ack x ∈ ds then 1 else 0)

/-- The condition: the counter is not brought to zero by acknowledgements that come before the
    commit, and from the commit on the acknowledgements are as many as the other new members
    exactly when each of these has acknowledged. -/
def CountsRight (e : Election) (o : Orchestrator) (early late : List String) : Prop :=
  (o.pendingAcks = 0 ∨ o.counted early < o.pendingAcks) ∧
    ∀ q, q <+: late → ((e.others o).length ≤ o.counted q ↔ ∀ x ∈ e.others o, x ∈ early ++ q)

lemma commit_notMem_acks (senders : List String) : .commit ∉ senders.map Delivery.ack := by
  simp

lemma counted_le_of_prefix {p : List String} (h : p <+: q) : o.counted p ≤ o.counted q :=
  h.sublist.countP_le

lemma prefix_deliveries (h : ds <+: deliveries early late) :
    (∃ p, p <+: early ∧ ds = p.map .ack) ∨ ∃ q, q <+: late ∧ ds = deliveries early q := by
  rw [prefix_iff_eq_take.mp h, deliveries, take_append, length_map]
  rcases hn : ds.length - early.length with - | n
  · refine .inl ⟨early.take ds.length, take_prefix _ _, ?_⟩
    simp
  · refine .inr ⟨late.take n, take_prefix _ _, ?_⟩
    rw [take_of_length_le (by simp; omega)]
    simp [deliveries]

lemma deliveries_mono (h : q <+: late) : deliveries early q <+: deliveries early late := by
  obtain ⟨rest, rfl⟩ := h
  exact ⟨rest.map .ack, by simp [deliveries]⟩

/-- **The acknowledgement protocol.**  The winner's `Commit` is yielded once when the commit and all
    acknowledgements are there, and not before, if and only if `CountsRight` holds of the order. -/
theorem ack_protocol (hwins : o.WinsElection R fuel e) (early late : List String) :
    (∀ ds, ds <+: deliveries early late → YieldsOnce R fuel e o ds) ↔
      CountsRight e o early late := by
  have hearly : ∀ p, YieldsOnce R fuel e o (p.map .ack) ↔
      reachesZero o.pendingAcks (o.counted p) = 0 := fun p => by
    rw [YieldsOnce, commitsYielded_only_acks, if_neg fun h => commit_notMem_acks p h.1]
    simp
  have hlate : ∀ q, YieldsOnce R fuel e o (deliveries early q) ↔
      reachesZero o.pendingAcks (o.counted early) +
          (if (e.others o).length ≤ o.counted q then 1 else 0) =
        if ∀ x ∈ e.others o, x ∈ early ++ q then 1 else 0 := fun q => by
    rw [YieldsOnce, commitsYielded_deliveries hwins]
    simp [deliveries]
  have hidle : reachesZero o.pendingAcks (o.counted early) = 0 ↔
      o.pendingAcks = 0 ∨ o.counted early < o.pendingAcks := by
    unfold reachesZero
    split_ifs with h
    · simp only [false_iff]
      omega
    · simp only [true_iff]
      omega
  constructor
  · intro hall
    have hzero := (hearly early).mp (hall _ ⟨.commit :: late.map .ack, rfl⟩)
    refine ⟨hidle.mp hzero, fun q hq => ?_⟩
    have := (hlate q).mp (hall _ (deliveries_mono hq))
    rw [hzero, Nat.zero_add] at this
    split_ifs at this <;> tauto
  · rintro ⟨hcounter, hcounts⟩ ds hds
    have hzero := hidle.mpr hcounter
    rcases prefix_deliveries hds with ⟨p, hp, rfl⟩ | ⟨q, hq, rfl⟩
    · rw [hearly]
      have := counted_le_of_prefix (o := o) hp
      unfold reachesZero at hzero ⊢
      split_ifs at hzero ⊢ <;> omega
    · rw [hlate, hzero, Nat.zero_add]
      simp only [hcounts q hq]

/-- If the commit comes first and no acknowledgement is repeated, the count is right. -/
lemma countsRight_of_prompt (hnodup : (e.others o).Nodup) (hlate : ∀ x ∈ late, x ∈ e.others o)
    (honce : ∀ q, q <+: late → (∃ x ∈ e.others o, x ∉ q) → q.Nodup) : CountsRight e o [] late := by
  refine ⟨?_, fun q hq => ?_⟩
  · rcases Nat.eq_zero_or_pos o.pendingAcks with h | h
    · exact .inl h
    · exact .inr h
  · have hq' : q ⊆ e.others o := fun x hx => hlate x (hq.subset hx)
    have hcounted : o.counted q = q.length := by
      refine countP_eq_length.mpr fun x hx => ?_
      simpa using of_mem_filter (hq' hx)
    rw [hcounted, nil_append]
    constructor
    · intro hlen x hx
      by_contra hmissing
      -- the others would be more than those that have acknowledged
      have hsub : (x :: q).Subperm (e.others o) :=
        subperm_of_subset (nodup_cons.mpr ⟨hmissing, honce q hq ⟨x, hx, hmissing⟩⟩)
          (cons_subset.mpr ⟨hx, hq'⟩)
      have := hsub.length_le
      rw [length_cons] at this
      omega
    · intro hall
      exact (subperm_of_subset hnodup hall).length_le

def twoAdded : Election := ⟨[0, 0, 0], 3, ["B", "C"]⟩

def founderA : Orchestrator := new "A" threeSeats ["A"]

lemma founderA_wins : founderA.WinsElection Rng.scripted 1 twoAdded :=
  ⟨_, rfl, by decide⟩

/-- `B` and `C` acknowledge after the commit, and `C` once more. -/
theorem ack_protocol_prompt :
    (∀ ds, ds <+: deliveries [] ["B", "C", "C"] → YieldsOnce Rng.scripted 1 twoAdded founderA ds) ∧
      YieldsOnce Rng.scripted 1 twoAdded founderA (deliveries [] ["B", "C", "C"]) := by
  have honce : ∀ q ∈ ["B", "C", "C"].inits, (∃ x ∈ twoAdded.others founderA, x ∉ q) → q.Nodup := by
    decide
  have hall := (ack_protocol founderA_wins [] ["B", "C", "C"]).mpr
    (countsRight_of_prompt (by decide) (by decide)
      fun q hq => honce q ((mem_inits _ _).mpr hq))
  exact ⟨hall, hall _ prefix_rfl⟩

/-- An acknowledgement that overtakes the commit is lost, and a repeated one counts twice. -/
theorem ack_overtakes_commit :
    commitsYielded Rng.scripted 1 twoAdded founderA (deliveries ["B"] ["C"]) = .ok 0 ∧
      commitsYielded Rng.scripted 1 twoAdded founderA (deliveries [] ["B", "B"]) = .ok 1 ∧
      twoAdded.others founderA = ["B", "C"] := by
  decide

end EmulatedMls.Orchestrator
