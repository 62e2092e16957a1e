import EmulatedMls.Mls.FilterSpec
import EmulatedMls.Mls.Validation
import EmulatedMls.Lib.Exec
import Mathlib.Data.List.Nodup
import Mathlib.Data.Sum.Basic

/-!
# From the committer's queue to the receivers' queues

A commit covers every proposal by value, so a receiver attributes all of them to the committer and
identifies two proposals with the same content.  The reconstructed queue is the committer's queue
exactly when nothing is lost that way.
-/

namespace EmulatedMls

open Exec List

section RoundTrip

variable {D Ref : Type}

/-! ## Queues as lists -/

variable {s : Sender}

namespace ProposalQueue

variable {q : ProposalQueue D Ref} {x : QueuedProposal D Ref} {ps : List (Proposal D)}
  {store : ProposalStore D} {H : RefHash D Ref}

lemma WellFormed.exists_get (h : q.WellFormed) {r : Ref} (hr : r ∈ q.proposalReferences) :
    ∃ x ∈ q.queuedProposals, x.proposalReference = r := by
  obtain ⟨x, hx⟩ := Option.isSome_iff_exists.mp ((h.mem_iff r).mp hr)
  exact ⟨x, mem_filterMap.mpr ⟨r, hr, hx⟩, h.reference r x hx⟩

lemma mem_queuedProposals (h : q.WellFormed) (hx : x ∈ q.queuedProposals) :
    x.proposalReference ∈ q.proposalReferences ∧ q.get x.proposalReference = some x := by
  obtain ⟨r, hr, hget⟩ := mem_filterMap.mp hx
  obtain rfl := h.reference r x hget
  exact ⟨hr, hget⟩

lemma WellFormed.map_reference (h : q.WellFormed) :
    q.queuedProposals.map (·.proposalReference) = q.proposalReferences := by
  have hall : ∀ rs : List Ref, (∀ r ∈ rs, (q.get r).isSome) →
      (rs.filterMap q.get).map (·.proposalReference) = rs := by
    intro rs hrs
    induction rs with
    | nil => rfl
    | cons r rs ih =>
      obtain ⟨x, hx⟩ := Option.isSome_iff_exists.mp (hrs r mem_cons_self)
      rw [filterMap_cons_some hx, map_cons, h.reference r x hx, ih fun s hs => hrs s (.tail _ hs)]
  exact hall _ fun r hr => (h.mem_iff r).mp hr

lemma WellFormed.nodup_queuedProposals (h : q.WellFormed) : q.queuedProposals.Nodup := by
  apply List.Nodup.of_map (·.proposalReference)
  rw [h.map_reference]
  exact h.nodup

variable [DecidableEq Ref]

lemma queuedProposals_add (h : q.WellFormed) (hx : x.proposalReference ∉ q.proposalReferences) :
    (q.add x).queuedProposals = q.queuedProposals ++ [x] := by
  have hnone : q.get x.proposalReference = none := by
    simpa [h.mem_iff] using hx
  simp only [add, hnone, queuedProposals, filterMap_append, filterMap_cons,
    Function.update_self, filterMap_nil]
  congr 1
  refine filterMap_congr fun r hr => ?_
  have hne : r ≠ x.proposalReference := fun he => hx (he ▸ hr)
  rw [Function.update_of_ne hne]

/-- **The queue a receiver builds**: equal values become one. -/
lemma fromCommittedProposals_values :
    ∀ {q q' : ProposalQueue D Ref}, q.WellFormed →
      (∀ x ∈ q.queuedProposals, x = .fromProposalAndSender H x.proposal s) →
      fromCommittedProposals H store s (ps.map .proposal) q = .ok q' →
      q'.WellFormed ∧ (∀ x ∈ q'.queuedProposals, x = .fromProposalAndSender H x.proposal s) := by
  induction ps with
  | nil =>
    intro q q' hwf hq h
    obtain rfl : q = q' := by simpa [fromCommittedProposals] using h
    exact ⟨hwf, hq⟩
  | cons p ps ih =>
    intro q q' hwf hq h
    simp only [map_cons, fromCommittedProposals, fromCommitted] at h
    split_ifs at h with hself
    refine ih (hwf.add _) ?_ h
    intro x hx
    obtain ⟨-, hget⟩ := mem_queuedProposals (hwf.add _) hx
    rcases get_add hget with hget | rfl
    · exact hq x (mem_filterMap.mpr ⟨_, by simp [hwf.mem_iff, hget], hget⟩)
    · rfl

lemma fromCommittedProposals_of_nodup :
    ∀ {q : ProposalQueue D Ref}, q.WellFormed → ps.Nodup →
      (∀ p ∈ ps, isSelfRemoval s p = false) →
      (∀ p ∈ ps, H.fromRawProposal p ∉ q.proposalReferences) →
      ∃ q', fromCommittedProposals H store s (ps.map .proposal) q = .ok q' ∧
        q'.queuedProposals =
          q.queuedProposals ++ ps.map fun p => .fromProposalAndSender H p s := by
  induction ps with
  | nil => intro q _ _ _ _; exact ⟨q, rfl, by simp⟩
  | cons p ps ih =>
    intro q hwf hnd hself hnew
    obtain ⟨hp, hnd⟩ := nodup_cons.mp hnd
    have hpnew := hnew p mem_cons_self
    set x : QueuedProposal D Ref := .fromProposalAndSender H p s with hx
    have hrest : ∀ p' ∈ ps, H.fromRawProposal p' ∉ (q.add x).proposalReferences := by
      intro p' hp' hmem
      rcases (mem_add hwf).mp hmem with hmem | heq
      · exact hnew p' (.tail _ hp') hmem
      · exact hp (H.fromRawProposal_inj heq ▸ hp')
    obtain ⟨q', hq', hlist⟩ := ih (hwf.add x) hnd
      (fun p' hp' => hself p' (.tail _ hp')) hrest
    refine ⟨q', ?_, ?_⟩
    · simp only [map_cons, fromCommittedProposals, fromCommitted,
        hself p mem_cons_self, Bool.false_eq_true, if_false]
      exact hq'
    · rw [hlist, queuedProposals_add hwf hpnew]
      simp [hx]

end ProposalQueue

/-! ## The checks of the receiver -/

lemma insertFresh_eq_ok {α : Type} [DecidableEq α] {err : ProposalValidationError}
    {ks : List α} : ∀ {set set' : List α}, insertFresh err set ks = .ok set' ↔
      ks.Nodup ∧ (∀ k ∈ ks, k ∉ set) ∧ set' = ks.reverse ++ set := by
  induction ks with
  | nil => intro set set'; simp [insertFresh, eq_comm]
  | cons k ks ih =>
    intro set set'
    rw [insertFresh]
    split_ifs with hk
    · simp [hk]
    · rw [ih]
      simp only [nodup_cons, mem_cons, reverse_cons, append_assoc,
        singleton_append, forall_eq_or_imp, hk, not_false_eq_true, true_and]
      constructor
      · rintro ⟨hnd, hnot, rfl⟩
        exact ⟨⟨fun hmem => hnot k hmem (.inl rfl), hnd⟩,
          fun a ha hset => hnot a ha (.inr hset), rfl⟩
      · rintro ⟨⟨hknot, hnd⟩, hnot, rfl⟩
        refine ⟨hnd, fun a ha => ?_, rfl⟩
        rintro (rfl | hset)
        · exact hknot ha
        · exact hnot a ha hset

lemma checkInitKeys_eq_ok {encryptionKeys ks : List Key} : ∀ {initKeys : List Key},
    checkInitKeys encryptionKeys initKeys ks = .ok () ↔
      ks.Nodup ∧ ∀ k ∈ ks, k ∉ encryptionKeys ∧ k ∉ initKeys := by
  induction ks with
  | nil => intro initKeys; simp [checkInitKeys]
  | cons k ks ih =>
    intro initKeys
    rw [checkInitKeys]
    split_ifs with he hi
    · simp [he]
    · simp [hi]
    · rw [ih]
      simp only [nodup_cons, mem_cons, forall_eq_or_imp, he, hi, not_false_eq_true,
        true_and, and_self]
      constructor
      · rintro ⟨hnd, hall⟩
        exact ⟨⟨fun hmem => (hall k hmem).2 (.inl rfl), hnd⟩,
          fun a ha => ⟨(hall a ha).1, fun hin => (hall a ha).2 (.inr hin)⟩⟩
      · rintro ⟨⟨hknot, hnd⟩, hall⟩
        refine ⟨hnd, fun a ha => ⟨(hall a ha).1, ?_⟩⟩
        rintro (rfl | hin)
        · exact hknot ha
        · exact (hall a ha).2 hin

def UpdatePath.keys (p : UpdatePath D) : List Key := p.leafNode.encryptionKey :: p.nodes

/-- A valid leaf node, and keys that occur nowhere else. -/
def FreshPath (v : GroupView D) (es : List (Proposal D × Sender)) :
    Option (UpdatePath D) → Prop
  | none => True
  | some p => v.validateLeafNode p.leafNode = true ∧ p.keys.Nodup ∧ ∀ k ∈ p.keys,
      k ∉ (remainingMembers v es).map (·.encryptionKey) ∧ k ∉ newEncryptionKeys es none ∧
      k ∉ (addProposals es).map (·.hpkeInitKey)

instance (v : GroupView D) (es : List (Proposal D × Sender)) :
    ∀ path, Decidable (FreshPath v es path)
  | none => inferInstanceAs (Decidable True)
  | some _ => inferInstanceAs (Decidable (_ ∧ _ ∧ _))

variable {path : Option (UpdatePath D)} {es : List (Proposal D × Sender)} {v : GroupView D}
  {own : LeafNodeIndex} {inlineProposals : List (Proposal D)} {store : ProposalStore D}
  {H : RefHash D Ref} {flag : Bool} {q : ProposalQueue D Ref} {O : MapOrder}

lemma validateKeyUniqueness_path (h : validateKeyUniqueness v es none = .ok ())
    (hpath : FreshPath v es path) : validateKeyUniqueness v es path = .ok () := by
  cases path with
  | none => exact h
  | some p =>
    obtain ⟨-, hnd, hfresh⟩ := hpath
    have hkeys : newEncryptionKeys es (some p) = newEncryptionKeys es none ++ p.keys := by
      simp [newEncryptionKeys, UpdatePath.keys]
    obtain ⟨sigs, hsig, h⟩ := bind_inv h
    obtain ⟨encs, henc, h⟩ := bind_inv h
    obtain ⟨hnd', hnot, rfl⟩ := insertFresh_eq_ok.mp henc
    obtain ⟨hinit, hall⟩ := checkInitKeys_eq_ok.mp h
    refine bind_ok hsig (bind_eq_ok.mpr
      ⟨(newEncryptionKeys es (some p)).reverse ++ (remainingMembers v es).map (·.encryptionKey),
        ?_, ?_⟩)
    · rw [insertFresh_eq_ok, hkeys]
      refine ⟨nodup_append.mpr ⟨hnd', hnd, ?_⟩, ?_, rfl⟩
      · rintro a ha b hb rfl
        exact (hfresh a hb).2.1 ha
      · intro k hk
        rcases mem_append.mp hk with hk | hk
        · exact hnot k hk
        · exact (hfresh k hk).1
    · rw [checkInitKeys_eq_ok, hkeys]
      refine ⟨hinit, fun k hk => ⟨?_, (hall k hk).2⟩⟩
      have hold := (hall k hk).1
      simp only [reverse_append, mem_append, mem_reverse, not_or] at hold ⊢
      exact ⟨⟨fun hp => (hfresh k hp).2.2 hk, hold.1⟩, hold.2⟩

/-- **A receiver accepts what the committer accepted**, given the same proposals and senders. -/
lemma validateReceivedProposals_of_own (h : validateOwnCommit v own es = .ok ())
    (hpath : FreshPath v es path) (hinit : validateNoExternalInitProposals es = .ok ()) :
    validateReceivedProposals v own es path = .ok () := by
  simp only [validateOwnCommit, seq_eq_ok] at h
  obtain ⟨htype, hkeys, hadd, hcap, hremove, hpsk, hupdate, hgce, -⟩ := h
  have hrest := validateKeyUniqueness_path hkeys hpath
  cases path with
  | none =>
    simp only [validateReceivedProposals, seq_eq_ok]
    exact ⟨hrest, hadd, hcap, hremove, htype, hgce, hpsk, hupdate, hinit⟩
  | some p =>
    simp only [validateReceivedProposals, seq_eq_ok]
    refine ⟨?_, hrest, hadd, hcap, hremove, htype, hgce, hpsk, hupdate, hinit⟩
    simp [require, hpath.1]

/-! ## Agreement -/

/-- The list that `filter_proposals` filters for a committing member. -/
def candidates (H : RefHash D Ref) (store : ProposalStore D) (inlineProposals : List (Proposal D))
    (own : LeafNodeIndex) : List (QueuedProposal D Ref) :=
  store.proposals H ++ inlineProposals.map fun p => .fromProposalAndSender H p (.member own)

/-- The proposals of a list are stored contents and inline proposals of `s`. -/
def Made (H : RefHash D Ref) (s : Sender) (xs : List (QueuedProposal D Ref)) : Prop :=
  ∀ x ∈ xs, (∃ c t, x = .fromAuthenticatedContent H c t) ∨ ∃ p, x = .fromProposalAndSender H p s

lemma made_inline (H : RefHash D Ref) (s : Sender) (store : ProposalStore D)
    (inlineProposals : List (Proposal D)) :
    Made H s (store.proposals H ++ inlineProposals.map fun p => .fromProposalAndSender H p s) := by
  intro x hx
  simp only [ProposalStore.proposals, mem_append, mem_map] at hx
  rcases hx with ⟨c, -, rfl⟩ | ⟨p, -, rfl⟩
  · exact .inl ⟨c.1, c.2, rfl⟩
  · exact .inr ⟨p, rfl⟩

variable {xs : List (QueuedProposal D Ref)}

lemma Made.entry_eq {x y : QueuedProposal D Ref} (hxs : Made H s xs) (hx : x ∈ xs) (hy : y ∈ xs)
    (h : x.proposalReference = y.proposalReference) : x.entry = y.entry := by
  rcases hxs x hx with ⟨c, t, rfl⟩ | ⟨p, rfl⟩ <;> rcases hxs y hy with ⟨c', t', rfl⟩ | ⟨p', rfl⟩
  · have hc : c = c' := H.fromAuthenticatedContent_inj h
    simp [QueuedProposal.entry, QueuedProposal.fromAuthenticatedContent, hc]
  · exact absurd h (H.domains_disjoint _ _)
  · exact absurd h.symm (H.domains_disjoint _ _)
  · have hp : p = p' := H.fromRawProposal_inj h
    rw [hp]

/-- **The condition for agreement**, on the proposals that go into the filter: the survivors are
    the committer's own, no two different ones have the same content, and nobody proposes an
    external init. -/
def OwnDistinct (own : LeafNodeIndex) (xs : List (QueuedProposal D Ref)) : Prop :=
  (∀ x, Survives own xs x → x.sender = .member own) ∧
    (∀ x y, Survives own xs x → Survives own xs y → x.proposal = y.proposal →
      x.proposalReference = y.proposalReference) ∧
    ∀ x ∈ xs, x.isExternalInit = false

lemma commitList_eq (q : ProposalQueue D Ref) :
    q.commitList = (q.queuedProposals.map (·.proposal)).map .proposal := by
  simp [ProposalQueue.commitList]

variable [DecidableEq Ref]

lemma filtered_entries (hxs : Made H s xs)
    (hq : ProposalQueue.filterProposalsWithoutInline O xs own = .ok (q, flag)) :
    q.WellFormed ∧
      (∀ x, Survives own xs x →
        ∃ y ∈ q.queuedProposals, y.entry = x.entry ∧ y.proposalReference = x.proposalReference) ∧
      ∀ y ∈ q.queuedProposals, ∃ x, Survives own xs x ∧
        x.entry = y.entry ∧ x.proposalReference = y.proposalReference := by
  obtain ⟨hwf, hmem, hin⟩ := ProposalQueue.filter_spec hq
  refine ⟨hwf, fun x hx => ?_, fun y hy => ?_⟩
  · obtain ⟨y, hy, href⟩ := hwf.exists_get ((hmem _).mpr ⟨x, hx, rfl⟩)
    obtain ⟨-, hget⟩ := ProposalQueue.mem_queuedProposals hwf hy
    exact ⟨y, hy, hxs.entry_eq (hin _ _ hget) hx.mem href, href⟩
  · obtain ⟨hr, hget⟩ := ProposalQueue.mem_queuedProposals hwf hy
    obtain ⟨x, hx, href⟩ := (hmem _).mp hr
    exact ⟨x, hx, hxs.entry_eq hx.mem (hin _ _ hget) href, href⟩

lemma validateCommit_eq_ok {committer : LeafNodeIndex} {ps : List (ProposalOrRef D Ref)} :
    validateCommit H v store committer ps path = .ok q ↔
      ProposalQueue.fromCommittedProposals H store (.member committer) ps .empty = .ok q ∧
        validateReceivedProposals v committer q.entries path = .ok () := by
  unfold validateCommit
  cases ProposalQueue.fromCommittedProposals H store (.member committer) ps .empty with
  | error e => simp
  | ok q1 =>
    cases hval : validateReceivedProposals v committer q1.entries path with
    | error e =>
      simp only [hval, error_ne_ok, Except.ok.injEq, false_iff, not_and]
      rintro rfl
      simp [hval]
    | ok u =>
      simp only [hval, Except.ok.injEq, iff_self_and]
      rintro rfl
      exact hval

section

variable
  (hq : ProposalQueue.filterProposals H O (.member own) store inlineProposals own = .ok (q, flag))
include hq

/-- If a receiver accepts the queue, the survivors were the committer's own and distinct. -/
lemma ownDistinct_of_agrees {q' : ProposalQueue D Ref}
    (hcommit : validateCommit H v store own q.commitList path = .ok q')
    (hentries : q'.entries = q.entries) :
    OwnDistinct own (candidates H store inlineProposals own) := by
  obtain ⟨hwf, hsurv, -⟩ := filtered_entries (made_inline H _ store inlineProposals) hq
  obtain ⟨hfrom, hval⟩ := validateCommit_eq_ok.mp hcommit
  rw [commitList_eq] at hfrom
  obtain ⟨hwf', hall⟩ := ProposalQueue.fromCommittedProposals_values
    ProposalQueue.wellFormed_empty
    (by simp [ProposalQueue.queuedProposals, ProposalQueue.empty]) hfrom
  -- a proposal of the committer's queue stands in the receiver's queue under its sender
  have htwin : ∀ y ∈ q.queuedProposals, ∃ z ∈ q'.queuedProposals, z.entry = y.entry := by
    intro y hy
    have hmem : y.entry ∈ q'.entries := by
      rw [hentries]
      exact mem_map_of_mem hy
    simpa [ProposalQueue.entries] using hmem
  refine ⟨fun x hx => ?_, fun x y hx hy hp => ?_, fun x hx => ?_⟩
  · obtain ⟨y, hy, hxy, -⟩ := hsurv x hx
    obtain ⟨z, hz, hzy⟩ := htwin y hy
    have hsender : z.sender = .member own := by rw [hall z hz]; rfl
    have hxz : x.entry = z.entry := by rw [← hxy, hzy]
    rw [← hsender]
    exact congrArg Prod.snd hxz
  · obtain ⟨x', hx', hxe, hxr⟩ := hsurv x hx
    obtain ⟨y', hy', hye, hyr⟩ := hsurv y hy
    -- in the receiver's queue a proposal occurs once
    have hnodup : (q'.queuedProposals.map (·.proposal)).Nodup := by
      refine List.Nodup.map_on ?_ hwf'.nodup_queuedProposals
      intro a ha b hb hab
      rw [hall a ha, hall b hb, hab]
    have hnodup' : (q.queuedProposals.map (·.proposal)).Nodup := by
      have hfst : ∀ p : ProposalQueue D Ref,
          p.queuedProposals.map (·.proposal) = p.entries.map Prod.fst := by
        simp [ProposalQueue.entries, QueuedProposal.entry, Function.comp_def]
      rw [hfst, ← hentries, ← hfst]
      exact hnodup
    have hsame : x'.proposal = y'.proposal := by
      have h1 : x'.proposal = x.proposal := congrArg Prod.fst hxe
      have h2 : y'.proposal = y.proposal := congrArg Prod.fst hye
      rw [h1, h2, hp]
    have heq : x' = y' := inj_on_of_nodup_map hnodup' hx' hy' hsame
    rw [← hxr, ← hyr, heq]
  · -- the first external init would survive, and the receiver refuses it
    by_contra hinit
    have hsome : (candidates H store inlineProposals own).find?
        QueuedProposal.isExternalInit ≠ none := by
      intro hnone
      exact hinit (by simpa using find?_eq_none.mp hnone x hx)
    obtain ⟨z, hz⟩ := Option.ne_none_iff_exists'.mp hsome
    obtain ⟨y, hy, hye, -⟩ := hsurv z (.inr (.inl hz))
    have hzinit : z.isExternalInit = true := find?_some hz
    have hmem : z.entry ∈ q'.entries := by
      rw [hentries, ← hye]
      exact mem_map_of_mem hy
    have hnoinit : validateNoExternalInitProposals q'.entries = .ok () := by
      cases path <;> simp only [validateReceivedProposals, seq_eq_ok] at hval <;> tauto
    simp only [validateNoExternalInitProposals, require] at hnoinit
    split_ifs at hnoinit with hnone
    have hzentry := all_eq_true.mp hnone z.entry hmem
    unfold QueuedProposal.isExternalInit at hzinit
    cases hp : z.proposal <;> simp [hp, QueuedProposal.entry] at hzinit hzentry

lemma agrees_of_ownDistinct (hown : validateOwnCommit v own q.entries = .ok ())
    (hpath : FreshPath v q.entries path)
    (h : OwnDistinct own (candidates H store inlineProposals own)) :
    ∃ q', validateCommit H v store own q.commitList path = .ok q' ∧ q'.entries = q.entries := by
  obtain ⟨hsender, hdistinct, hinit⟩ := h
  obtain ⟨hwf, -, hqueue⟩ := filtered_entries (made_inline H _ store inlineProposals) hq
  have hsenderq : ∀ y ∈ q.queuedProposals, y.sender = .member own := by
    intro y hy
    obtain ⟨x, hx, hxy, -⟩ := hqueue y hy
    rw [← hsender x hx]
    exact (congrArg Prod.snd hxy).symm
  have hnodup : (q.queuedProposals.map (·.proposal)).Nodup := by
    refine List.Nodup.map_on ?_ hwf.nodup_queuedProposals
    intro a ha b hb hab
    obtain ⟨x, hx, hxa, hxr⟩ := hqueue a ha
    obtain ⟨y, hy, hyb, hyr⟩ := hqueue b hb
    have hxy : x.proposal = y.proposal :=
      (congrArg Prod.fst hxa).trans (hab.trans (congrArg Prod.fst hyb).symm)
    have href : a.proposalReference = b.proposalReference := by
      rw [← hxr, ← hyr, hdistinct x y hx hy hxy]
    exact inj_on_of_nodup_map (by rw [hwf.map_reference]; exact hwf.nodup) ha hb href
  have hself : ∀ p ∈ q.queuedProposals.map (·.proposal),
      ProposalQueue.isSelfRemoval (.member own) p = false := by
    intro p hp
    obtain ⟨y, hy, rfl⟩ := mem_map.mp hp
    simp only [validateOwnCommit, seq_eq_ok] at hown
    obtain ⟨-, -, -, -, -, -, -, -, hremove⟩ := hown
    simp only [require] at hremove
    split_ifs at hremove with hnot
    have hmem : y.entry ∈ q.entries := mem_map_of_mem hy
    cases hyp : y.proposal with
    | remove i =>
      have hi : i ≠ own := by
        rintro rfl
        refine of_decide_eq_true hnot (mem_filterMap.mpr ⟨y.entry, hmem, ?_⟩)
        simp [QueuedProposal.entry, hyp]
      simpa [ProposalQueue.isSelfRemoval] using hi
    | _ => rfl
  obtain ⟨q', hfrom, hlist⟩ := ProposalQueue.fromCommittedProposals_of_nodup (H := H)
    ProposalQueue.wellFormed_empty hnodup hself (by simp [ProposalQueue.empty])
  have hentries : q'.entries = q.entries := by
    simp only [ProposalQueue.entries, hlist, map_map, map_append]
    refine map_congr_left fun y hy => ?_
    simp [QueuedProposal.entry, QueuedProposal.fromProposalAndSender, hsenderq y hy]
  refine ⟨q', validateCommit_eq_ok.mpr ⟨?_, ?_⟩, hentries⟩
  · rw [commitList_eq]
    exact hfrom
  · rw [hentries]
    refine validateReceivedProposals_of_own hown hpath ?_
    refine if_pos (all_eq_true.mpr fun e he => ?_)
    obtain ⟨y, hy, rfl⟩ := mem_map.mp he
    obtain ⟨x, hx, hxy, -⟩ := hqueue y hy
    have hxinit := hinit x hx.mem
    rw [← hxy]
    unfold QueuedProposal.isExternalInit at hxinit
    cases hp : x.proposal <;> simp [hp, QueuedProposal.entry] at hxinit ⊢

end

/-- **Receivers agree with the committer exactly under `OwnDistinct`**: they reconstruct the same
    proposals with the same senders in the same order and accept the commit. -/
theorem committed_queue_iff (H : RefHash D Ref) (O : MapOrder) (v : GroupView D)
    {store : ProposalStore D} {inlineProposals : List (Proposal D)} {own : LeafNodeIndex}
    {q : ProposalQueue D Ref} {flag : Bool} {path : Option (UpdatePath D)}
    (hq : ProposalQueue.filterProposals H O (.member own) store inlineProposals own =
      .ok (q, flag))
    (hown : validateOwnCommit v own q.entries = .ok ()) (hpath : FreshPath v q.entries path) :
    (∃ q', validateCommit H v store own q.commitList path = .ok q' ∧ q'.entries = q.entries) ↔
      OwnDistinct own (candidates H store inlineProposals own) := by
  constructor
  · rintro ⟨q', hcommit, hentries⟩
    exact ownDistinct_of_agrees hq hcommit hentries
  · intro h
    exact agrees_of_ownDistinct hq hown hpath h

end RoundTrip

/-! ## A group of three -/

/-- References that are the hashed values themselves. -/
def plainRefs : RefHash ℕ (AuthenticatedContent ℕ ⊕ Proposal ℕ) where
  fromAuthenticatedContent := Sum.inl
  fromRawProposal := Sum.inr
  fromAuthenticatedContent_inj := Sum.inl_injective
  fromRawProposal_inj := Sum.inr_injective
  domains_disjoint _ _ := by simp

def insertionOrder : MapOrder := ⟨id, fun _ => .refl _⟩

def sampleLeaf (k : Key) : LeafNode ℕ := ⟨2 * k, 2 * k + 1, "member", .update, []⟩

/-- Three members whose leaf nodes pass every check. -/
def threeMembers : GroupView ℕ where
  leaves := [some (sampleLeaf 0), some (sampleLeaf 1), some (sampleLeaf 2)]
  ciphersuite := 1
  version := 1
  supportedProposals _ := []
  validateLeafNode _ := true
  validateLeafNodeCapabilities _ := true
  validatePskId _ := true
  validateExtensions _ := true

def ownRemoval : ProposalStore ℕ := [(⟨.member 0, .remove 2, []⟩, .reference)]

def foreignUpdate : ProposalStore ℕ := [(⟨.member 1, .update (sampleLeaf 7), []⟩, .reference)]

def samplePath : UpdatePath ℕ := ⟨sampleLeaf 8, [18]⟩

/-- Member `0` commits its own proposal: the others get the same queue and accept it. -/
theorem committed_queue_iff_own :
    ∃ q, ProposalQueue.filterProposals plainRefs insertionOrder (.member 0) ownRemoval [] 0 =
        .ok (q, false) ∧
      ∃ q', validateCommit plainRefs threeMembers ownRemoval 0 q.commitList (some samplePath) =
        .ok q' ∧ q'.entries = q.entries := by
  obtain ⟨q, hq, hentries⟩ : ∃ q, ProposalQueue.filterProposals plainRefs insertionOrder
      (.member 0) ownRemoval [] 0 = .ok (q, false) ∧
      q.entries = [(.remove 2, .member 0)] := ⟨_, rfl, rfl⟩
  refine ⟨q, hq, (committed_queue_iff plainRefs insertionOrder threeMembers hq ?_ ?_).mpr ?_⟩
  · rw [hentries]; decide
  · rw [hentries]; decide
  · refine ⟨fun x hx => ?_, fun x y hx hy _ => ?_, fun x hx => ?_⟩
    · obtain rfl := mem_singleton.mp hx.mem
      rfl
    · rw [mem_singleton.mp hx.mem, mem_singleton.mp hy.mem]
    · obtain rfl := mem_singleton.mp hx
      rfl

/-- **An update of another member cannot be committed.**  Every receiver takes it for one of the
    committer's and rejects the commit. -/
theorem committed_update_rejected :
    ∃ q, ProposalQueue.filterProposals plainRefs insertionOrder (.member 0) foreignUpdate [] 0 =
        .ok (q, false) ∧
      q.entries = [(.update (sampleLeaf 7), .member 1)] ∧
      validateOwnCommit threeMembers 0 q.entries = .ok () ∧
      FreshPath threeMembers q.entries (some samplePath) ∧
      validateCommit plainRefs threeMembers foreignUpdate 0 q.commitList (some samplePath) =
        .error (.proposalValidation .committerIncludedOwnUpdate) :=
  ⟨_, rfl, rfl, by decide, by decide, rfl⟩

end EmulatedMls
