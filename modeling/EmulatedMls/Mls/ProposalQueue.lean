import EmulatedMls.Mls.Data
import Mathlib.Data.List.Perm.Basic

/-!
# The proposal store and the proposal queue

Between two commits a member collects the proposals of the group in its proposal store.  A
committer filters them into a queue, the commit carries the list of the queue, and every other
member builds its own queue from that list.

**References.**  A proposal that arrives in a message is referred to by the hash of the whole
authenticated content, one that is given inline by the hash of the bare proposal.  `RefHash` takes
both as one injective hash with two domains.

**Iteration order.**  The removals and updates are collected in a `HashMap` by leaf and read out in
an order the standard library does not specify, so the order is a parameter, `MapOrder`.

**Source.**  `group/mls_group/proposal_store.rs`.
-/

namespace EmulatedMls

/-- The part of an authenticated message that its reference hashes. -/
structure AuthenticatedContent (D : Type) where
  sender : Sender
  proposal : Proposal D
  frame : Bytes
  deriving DecidableEq, Repr

/-- An injective hash of proposals, with separate domains for authenticated and bare ones. -/
structure RefHash (D Ref : Type) where
  fromAuthenticatedContent : AuthenticatedContent D → Ref
  fromRawProposal : Proposal D → Ref
  fromAuthenticatedContent_inj : Function.Injective fromAuthenticatedContent
  fromRawProposal_inj : Function.Injective fromRawProposal
  domains_disjoint : ∀ c p, fromAuthenticatedContent c ≠ fromRawProposal p

structure QueuedProposal (D Ref : Type) where
  proposal : Proposal D
  proposalReference : Ref
  sender : Sender
  proposalOrRefType : ProposalOrRefType
  deriving DecidableEq, Repr

/-- What the checks and the tree read of a queued proposal. -/
def QueuedProposal.entry {D Ref : Type} (x : QueuedProposal D Ref) : Proposal D × Sender :=
  (x.proposal, x.sender)

/-- An entry of a commit's proposal list. -/
inductive ProposalOrRef (D Ref : Type) where
  | proposal (proposal : Proposal D)
  | reference (reference : Ref)
  deriving DecidableEq, Repr

inductive ProposalQueueError where
  | proposalNotFound
  | updateFromExternalSender
  /-- The `unimplemented!` of an `AppAck`. -/
  | unimplemented
  deriving DecidableEq, Repr

inductive FromCommittedProposalsError where
  | selfRemoval
  | proposalNotFound
  deriving DecidableEq, Repr

section Queue

variable {D Ref : Type} [DecidableEq Ref]

def QueuedProposal.fromAuthenticatedContent (H : RefHash D Ref) (c : AuthenticatedContent D)
    (t : ProposalOrRefType) : QueuedProposal D Ref :=
  ⟨c.proposal, H.fromAuthenticatedContent c, c.sender, t⟩

/-- `QueuedProposal::from_proposal_and_sender`: the reference does not cover the sender. -/
def QueuedProposal.fromProposalAndSender (H : RefHash D Ref) (p : Proposal D) (s : Sender) :
    QueuedProposal D Ref :=
  ⟨p, H.fromRawProposal p, s, .proposal⟩

/-- The proposal store: the contents received or sent since the last commit. -/
abbrev ProposalStore (D : Type) := List (AuthenticatedContent D × ProposalOrRefType)

def ProposalStore.proposals (H : RefHash D Ref) (store : ProposalStore D) :
    List (QueuedProposal D Ref) :=
  store.map fun c => QueuedProposal.fromAuthenticatedContent H c.1 c.2

/-! ## The queue -/

/-- A queue: the references in order, and the proposal of each. -/
structure ProposalQueue (D Ref : Type) where
  proposalReferences : List Ref
  get : Ref → Option (QueuedProposal D Ref)

namespace ProposalQueue

def empty : ProposalQueue D Ref := ⟨[], fun _ => none⟩

/-- `ProposalQueue::add`: a reference that is already there is ignored. -/
def add (q : ProposalQueue D Ref) (x : QueuedProposal D Ref) : ProposalQueue D Ref :=
  match q.get x.proposalReference with
  | some _ => q
  | none => ⟨q.proposalReferences ++ [x.proposalReference],
      Function.update q.get x.proposalReference (some x)⟩

def queuedProposals (q : ProposalQueue D Ref) : List (QueuedProposal D Ref) :=
  q.proposalReferences.filterMap q.get

/-- The proposals of the queue with their senders, in order. -/
def entries (q : ProposalQueue D Ref) : List (Proposal D × Sender) :=
  q.queuedProposals.map QueuedProposal.entry

/-- `ProposalQueue::commit_list`: every proposal is covered by value. -/
def commitList (q : ProposalQueue D Ref) : List (ProposalOrRef D Ref) :=
  q.queuedProposals.map fun x => .proposal x.proposal

end ProposalQueue

/-- `OrderedProposalRefs::add`. -/
def addRef (refs : List Ref) (r : Ref) : List Ref := if r ∈ refs then refs else refs ++ [r]

/-! ## Filtering -/

/-- The updates and removals collected for one leaf. -/
structure MemberProposals (D Ref : Type) where
  updates : List (QueuedProposal D Ref)
  removes : List (QueuedProposal D Ref)

/-- The local variables of `filter_proposals`.  `memberKeys` are the keys of its map. -/
structure FilterState (D Ref : Type) where
  adds : List Ref
  validProposals : List Ref
  proposalPool : Ref → Option (QueuedProposal D Ref)
  memberKeys : List LeafNodeIndex
  members : LeafNodeIndex → MemberProposals D Ref
  containsOwnUpdates : Bool
  containsExternalInit : Bool

namespace FilterState

def empty : FilterState D Ref :=
  ⟨[], [], fun _ => none, [], fun _ => ⟨[], []⟩, false, false⟩

/-- `proposal_pool.insert`. -/
def pool (st : FilterState D Ref) (x : QueuedProposal D Ref) : FilterState D Ref :=
  { st with proposalPool := Function.update st.proposalPool x.proposalReference (some x) }

/-- `valid_proposals.add` followed by `proposal_pool.insert`. -/
def keep (st : FilterState D Ref) (x : QueuedProposal D Ref) : FilterState D Ref :=
  ({ st with validProposals := addRef st.validProposals x.proposalReference }).pool x

/-- `members.entry(i).or_default()` with a change of the entry. -/
def modifyMember (st : FilterState D Ref) (i : LeafNodeIndex)
    (f : MemberProposals D Ref → MemberProposals D Ref) : FilterState D Ref :=
  { st with
    memberKeys := if i ∈ st.memberKeys then st.memberKeys else st.memberKeys ++ [i]
    members := Function.update st.members i (f (st.members i)) }

/-- The body of the loop over the queued proposals. -/
def parse (ownIndex : LeafNodeIndex) (st : FilterState D Ref) (x : QueuedProposal D Ref) :
    Except ProposalQueueError (FilterState D Ref) :=
  match x.proposal with
  | .add _ => .ok (({ st with adds := addRef st.adds x.proposalReference }).pool x)
  | .update _ =>
    match x.sender with
    | .member i =>
      if i ≠ ownIndex then
        .ok ((st.modifyMember i fun m => { m with updates := m.updates ++ [x] }).pool x)
      else .ok (({ st with containsOwnUpdates := true }).pool x)
    | _ => .error .updateFromExternalSender
  | .remove i => .ok ((st.modifyMember i fun m => { m with removes := m.removes ++ [x] }).pool x)
  | .preSharedKey _ => .ok (st.keep x)
  | .reInit _ => .ok (st.pool x)
  | .externalInit _ =>
    if st.containsExternalInit then .ok st
    else .ok { st.keep x with containsExternalInit := true }
  | .groupContextExtensions _ => .ok (st.keep x)
  | .appAck _ => .error .unimplemented
  | .custom _ _ => .ok (st.keep x)

def parseAll (ownIndex : LeafNodeIndex) :
    FilterState D Ref → List (QueuedProposal D Ref) →
      Except ProposalQueueError (FilterState D Ref)
  | st, [] => .ok st
  | st, x :: xs =>
    match parse ownIndex st x with
    | .ok st => parseAll ownIndex st xs
    | .error e => .error e

end FilterState

/-- The loop over the members: the last removal, and otherwise the last update. -/
def selectMember (valid : List Ref) (m : MemberProposals D Ref) : List Ref :=
  match m.removes.getLast? with
  | some x => addRef valid x.proposalReference
  | none =>
    match m.updates.getLast? with
    | some x => addRef valid x.proposalReference
    | none => valid

/-- The order in which a `HashMap` with the given keys is read out. -/
structure MapOrder where
  order : List LeafNodeIndex → List LeafNodeIndex
  order_perm : ∀ keys, (order keys).Perm keys

namespace ProposalQueue

/-- The last loop: look every reference up in the pool. -/
def collect (pool : Ref → Option (QueuedProposal D Ref)) :
    ProposalQueue D Ref → List Ref → Except ProposalQueueError (ProposalQueue D Ref)
  | q, [] => .ok q
  | q, r :: rs =>
    match pool r with
    | some x => collect pool (q.add x) rs
    | none => .error .proposalNotFound

def filterProposalsWithoutInline (O : MapOrder) (iter : List (QueuedProposal D Ref))
    (ownIndex : LeafNodeIndex) : Except ProposalQueueError (ProposalQueue D Ref × Bool) :=
  match FilterState.empty.parseAll ownIndex iter with
  | .error e => .error e
  | .ok st =>
    let valid := ((O.order st.memberKeys).map st.members).foldl selectMember st.validProposals
    match collect st.proposalPool empty (st.adds ++ valid) with
    | .error e => .error e
    | .ok q => .ok (q, st.containsOwnUpdates)

/-- `ProposalQueue::filter_proposals`: the stored proposals, then the inline ones. -/
def filterProposals (H : RefHash D Ref) (O : MapOrder) (sender : Sender)
    (store : ProposalStore D) (inlineProposals : List (Proposal D)) (ownIndex : LeafNodeIndex) :
    Except ProposalQueueError (ProposalQueue D Ref × Bool) :=
  let queuedProposalList :=
    store.proposals H ++ inlineProposals.map fun p => .fromProposalAndSender H p sender
  match FilterState.empty.parseAll ownIndex queuedProposalList with
  | .error e => .error e
  | .ok st =>
    let valid := ((O.order st.memberKeys).map st.members).foldl selectMember st.validProposals
    match collect st.proposalPool empty (st.adds ++ valid) with
    | .error e => .error e
    | .ok q => .ok (q, st.containsOwnUpdates)

/-! ## Reconstructing a queue from a commit -/

/-- The self-removal check (ValSem200): a committing member does not remove itself. -/
def isSelfRemoval (sender : Sender) (p : Proposal D) : Bool :=
  match p, sender with
  | .remove i, .member j => i = j
  | _, _ => false

/-- One step of the loop over the committed proposals. -/
def fromCommitted (H : RefHash D Ref) (store : ProposalStore D) (sender : Sender) :
    ProposalOrRef D Ref → Except FromCommittedProposalsError (QueuedProposal D Ref)
  | .proposal p =>
    if isSelfRemoval sender p then .error .selfRemoval
    else .ok (.fromProposalAndSender H p sender)
  | .reference r =>
    -- the map of the stored proposals keeps the last one of a reference
    match (store.proposals H).reverse.find? (·.proposalReference = r) with
    | some x => if isSelfRemoval sender x.proposal then .error .selfRemoval else .ok x
    | none => .error .proposalNotFound

def fromCommittedProposals (H : RefHash D Ref) (store : ProposalStore D) (sender : Sender) :
    List (ProposalOrRef D Ref) → ProposalQueue D Ref →
      Except FromCommittedProposalsError (ProposalQueue D Ref)
  | [], q => .ok q
  | p :: ps, q =>
    match fromCommitted H store sender p with
    | .ok x => fromCommittedProposals H store sender ps (q.add x)
    | .error e => .error e

end ProposalQueue

end Queue

end EmulatedMls
