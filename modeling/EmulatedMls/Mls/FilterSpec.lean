import EmulatedMls.Mls.ProposalQueue

/-!
# What the filter keeps

`filter_proposals` walks over the proposals once and collects references, updates and removals by
leaf, and a pool of proposals by reference.  `Survives` says in terms of the input list alone which
proposals end up in the queue, and `filter_spec` is the proof.
-/

namespace EmulatedMls

open Function List

section Filter

variable {D Ref : Type}

namespace QueuedProposal

def isAdd (x : QueuedProposal D Ref) : Bool :=
  match x.proposal with | .add _ => true | _ => false

/-- Kinds that are kept whatever else is in the list. -/
def isKept (x : QueuedProposal D Ref) : Bool :=
  match x.proposal with
  | .preSharedKey _ | .groupContextExtensions _ | .custom _ _ => true
  | _ => false

def isExternalInit (x : QueuedProposal D Ref) : Bool :=
  match x.proposal with | .externalInit _ => true | _ => false

def isRemoveOf (i : LeafNodeIndex) (x : QueuedProposal D Ref) : Bool :=
  match x.proposal with | .remove j => j = i | _ => false

/-- An update of another member's leaf `i`. -/
def isUpdateOf (own i : LeafNodeIndex) (x : QueuedProposal D Ref) : Bool :=
  match x.proposal, x.sender with
  | .update _, .member j => j ≠ own ∧ j = i
  | _, _ => false

end QueuedProposal

open QueuedProposal

/-- **The proposals that survive the filter**: every add, pre-shared key, extension and custom
    proposal, the first external init, for each leaf the last removal, and the last update of
    another member's leaf that nobody removes. -/
def Survives (own : LeafNodeIndex) (xs : List (QueuedProposal D Ref))
    (x : QueuedProposal D Ref) : Prop :=
  (x ∈ xs ∧ (x.isAdd ∨ x.isKept)) ∨ xs.find? isExternalInit = some x ∨
    (∃ i, (xs.filter (isRemoveOf i)).getLast? = some x) ∨
    (∃ i, xs.filter (isRemoveOf i) = [] ∧ (xs.filter (isUpdateOf own i)).getLast? = some x)

variable {x : QueuedProposal D Ref} {xs : List (QueuedProposal D Ref)} {own i : LeafNodeIndex}
  {r : Ref} {f : Ref → Option (QueuedProposal D Ref)} {st st' : FilterState D Ref}

lemma Survives.mem (h : Survives own xs x) : x ∈ xs := by
  rcases h with ⟨h, -⟩ | h | ⟨i, h⟩ | ⟨i, -, h⟩
  · exact h
  · exact mem_of_find?_eq_some h
  · exact mem_of_mem_filter (mem_of_getLast? h)
  · exact mem_of_mem_filter (mem_of_getLast? h)

@[simp] lemma mem_addRef [DecidableEq Ref] {refs : List Ref} {s : Ref} :
    s ∈ addRef refs r ↔ s ∈ refs ∨ s = r := by
  unfold addRef
  split_ifs with h
  · exact ⟨Or.inl, fun hs => hs.elim id fun he => he ▸ h⟩
  · simp

/-! ## The loop over the proposals -/

/-- The pool holds the proposals of the list, up to external inits after the first. -/
def PoolOk (xs : List (QueuedProposal D Ref)) (f : Ref → Option (QueuedProposal D Ref)) : Prop :=
  (∀ r x, f r = some x → x ∈ xs ∧ x.proposalReference = r) ∧
    (∀ x ∈ xs, x.isExternalInit = false → (f x.proposalReference).isSome) ∧
    ∀ x, xs.find? isExternalInit = some x → (f x.proposalReference).isSome

/-- The local variables of the filter after the proposals `xs`. -/
structure Parsed (own : LeafNodeIndex) (xs : List (QueuedProposal D Ref))
    (st : FilterState D Ref) : Prop where
  adds : ∀ r, r ∈ st.adds ↔ ∃ x ∈ xs, x.isAdd ∧ x.proposalReference = r
  valid : ∀ r, r ∈ st.validProposals ↔ (∃ x ∈ xs, x.isKept ∧ x.proposalReference = r) ∨
    ∃ x, xs.find? isExternalInit = some x ∧ x.proposalReference = r
  updates : ∀ i, (st.members i).updates = xs.filter (isUpdateOf own i)
  removes : ∀ i, (st.members i).removes = xs.filter (isRemoveOf i)
  keys : ∀ i, i ∈ st.memberKeys ↔
    xs.filter (isUpdateOf own i) ≠ [] ∨ xs.filter (isRemoveOf i) ≠ []
  pool : PoolOk xs st.proposalPool
  init : st.containsExternalInit = xs.any isExternalInit

lemma parsed_empty (own : LeafNodeIndex) :
    Parsed own [] (FilterState.empty : FilterState D Ref) := by
  constructor <;> simp [FilterState.empty, PoolOk]

lemma PoolOk.skip (h : PoolOk xs f) (hx : x.isExternalInit = true)
    (hany : xs.any isExternalInit = true) : PoolOk (xs ++ [x]) f := by
  obtain ⟨hpool, hpooled, hinit⟩ := h
  refine ⟨fun r y hy => ?_, fun y hy hnot => ?_, fun y hy => ?_⟩
  · obtain ⟨hmem, href⟩ := hpool r y hy
    exact ⟨mem_append_left _ hmem, href⟩
  · rcases mem_append.mp hy with hy | hy
    · exact hpooled y hy hnot
    · obtain rfl := mem_singleton.mp hy
      simp [hx] at hnot
  · rw [find?_append] at hy
    rcases Option.or_eq_some_iff.mp hy with hy | ⟨hnone, -⟩
    · exact hinit y hy
    · obtain ⟨z, hz, hzi⟩ := any_eq_true.mp hany
      exact absurd hzi (by simpa using find?_eq_none.mp hnone z hz)

lemma mem_modifyMember_keys {j : LeafNodeIndex}
    {f : MemberProposals D Ref → MemberProposals D Ref} :
    j ∈ (st.modifyMember i f).memberKeys ↔ j ∈ st.memberKeys ∨ i = j := by
  simp only [FilterState.modifyMember]
  split_ifs with h
  · exact ⟨Or.inl, fun hj => hj.elim id fun he => he ▸ h⟩
  · simp [eq_comm]

lemma modifyMember_members (st : FilterState D Ref) (i j : LeafNodeIndex)
    (f : MemberProposals D Ref → MemberProposals D Ref) :
    (st.modifyMember i f).members j = if j = i then f (st.members i) else st.members j := by
  simp [FilterState.modifyMember, update_apply]

variable [DecidableEq Ref]

lemma PoolOk.insert (h : PoolOk xs f) (x : QueuedProposal D Ref) :
    PoolOk (xs ++ [x]) (Function.update f x.proposalReference (some x)) := by
  obtain ⟨hpool, hpooled, hinit⟩ := h
  have hkeep : ∀ y : QueuedProposal D Ref, (f y.proposalReference).isSome →
      (Function.update f x.proposalReference (some x) y.proposalReference).isSome := by
    intro y hy
    by_cases hr : y.proposalReference = x.proposalReference
    · simp [hr]
    · simpa [update_of_ne hr] using hy
  refine ⟨?_, ?_, ?_⟩
  · intro r y hy
    by_cases hr : r = x.proposalReference
    · subst hr
      obtain rfl : x = y := by simpa using hy
      simp
    · rw [update_of_ne hr] at hy
      obtain ⟨hmem, href⟩ := hpool r y hy
      exact ⟨mem_append_left _ hmem, href⟩
  · intro y hy hnot
    rcases mem_append.mp hy with hy | hy
    · exact hkeep y (hpooled y hy hnot)
    · obtain rfl := mem_singleton.mp hy
      simp
  · intro y hy
    rw [find?_append] at hy
    rcases Option.or_eq_some_iff.mp hy with hy | ⟨-, hy⟩
    · exact hkeep y (hinit y hy)
    · obtain rfl := mem_singleton.mp (mem_of_find?_eq_some hy)
      simp

/-- The effect of one iteration on the local variables, whatever the kind of the proposal. -/
structure ParseStep (own : LeafNodeIndex) (st st' : FilterState D Ref)
    (x : QueuedProposal D Ref) : Prop where
  adds : st'.adds = if x.isAdd then addRef st.adds x.proposalReference else st.adds
  valid : st'.validProposals = if x.isKept ∨ x.isExternalInit ∧ st.containsExternalInit = false
    then addRef st.validProposals x.proposalReference else st.validProposals
  updates : ∀ i, (st'.members i).updates = (st.members i).updates ++ [x].filter (isUpdateOf own i)
  removes : ∀ i, (st'.members i).removes = (st.members i).removes ++ [x].filter (isRemoveOf i)
  keys : ∀ i, i ∈ st'.memberKeys ↔ i ∈ st.memberKeys ∨ isUpdateOf own i x ∨ isRemoveOf i x
  pool : st'.proposalPool = if x.isExternalInit ∧ st.containsExternalInit then st.proposalPool
    else Function.update st.proposalPool x.proposalReference (some x)
  init : st'.containsExternalInit = (st.containsExternalInit || x.isExternalInit)

open FilterState in
lemma parse_step (hx : parse own st x = .ok st') : ParseStep own st st' x := by
  unfold parse at hx
  cases hp : x.proposal with
  | add _ | preSharedKey _ | reInit _ | groupContextExtensions _ | custom _ _ =>
    simp only [hp, Except.ok.injEq] at hx
    subst hx
    constructor <;> simp [FilterState.keep, FilterState.pool, isAdd, isKept, isExternalInit,
      isUpdateOf, isRemoveOf, hp]
  | update l =>
    cases hs : x.sender with
    | member i =>
      simp only [hp, hs] at hx
      split_ifs at hx with hi
      · simp only [Except.ok.injEq] at hx
        subst hx
        constructor
        · simp [FilterState.pool, modifyMember, isAdd, hp]
        · simp [FilterState.pool, modifyMember, isKept, isExternalInit, hp]
        · intro j
          simp only [FilterState.pool, modifyMember_members]
          by_cases hj : j = i
          · simp [hj, hi, isUpdateOf, hp, hs]
          · simp [hj, Ne.symm hj, isUpdateOf, hp, hs]
        · intro j
          simp only [FilterState.pool, modifyMember_members]
          by_cases hj : j = i <;> simp [hj, isRemoveOf, hp]
        · intro j
          simp only [FilterState.pool, mem_modifyMember_keys, isUpdateOf, isRemoveOf, hp, hs]
          simp [hi]
        · simp [FilterState.pool, modifyMember, isExternalInit, hp]
        · simp [FilterState.pool, modifyMember, isExternalInit, hp]
      · simp only [Except.ok.injEq] at hx
        subst hx
        have hown : i = own := not_not.mp hi
        constructor <;> simp [FilterState.pool, isAdd, isKept, isExternalInit, isUpdateOf,
          isRemoveOf, hp, hs, hown]
    | external i | newMemberProposal | newMemberCommit => simp [hp, hs] at hx
  | remove i =>
    simp only [hp, Except.ok.injEq] at hx
    subst hx
    constructor
    · simp [FilterState.pool, modifyMember, isAdd, hp]
    · simp [FilterState.pool, modifyMember, isKept, isExternalInit, hp]
    · intro j
      simp only [FilterState.pool, modifyMember_members]
      by_cases hj : j = i <;> simp [hj, isUpdateOf, hp]
    · intro j
      simp only [FilterState.pool, modifyMember_members]
      by_cases hj : j = i
      · simp [hj, isRemoveOf, hp]
      · simp [hj, Ne.symm hj, isRemoveOf, hp]
    · intro j
      simp only [FilterState.pool, mem_modifyMember_keys, isUpdateOf, isRemoveOf, hp]
      simp
    · simp [FilterState.pool, modifyMember, isExternalInit, hp]
    · simp [FilterState.pool, modifyMember, isExternalInit, hp]
  | externalInit k =>
    simp only [hp] at hx
    split_ifs at hx with hc <;> simp only [Except.ok.injEq] at hx <;> subst hx <;>
      constructor <;> simp [FilterState.keep, FilterState.pool, isAdd, isKept, isExternalInit,
        isUpdateOf, isRemoveOf, hp, hc]
  | appAck k => simp [hp] at hx

lemma Parsed.step (h : Parsed own xs st) (hstep : ParseStep own st st' x) :
    Parsed own (xs ++ [x]) st' where
  adds r := by
    rw [hstep.adds]
    split_ifs with hx <;> simp [h.adds, hx, or_and_right, exists_or, @eq_comm _ r]
  valid r := by
    have hfind : (∃ y, (xs ++ [x]).find? isExternalInit = some y ∧ y.proposalReference = r) ↔
        (∃ y, xs.find? isExternalInit = some y ∧ y.proposalReference = r) ∨
          (x.isExternalInit ∧ st.containsExternalInit = false) ∧ x.proposalReference = r := by
      rw [h.init, find?_append]
      cases hc : xs.find? isExternalInit with
      | none =>
        have hnone : xs.any isExternalInit = false := by
          simpa [any_eq_false] using hc
        simp only [hnone]
        cases hx : x.isExternalInit <;> simp [hx]
      | some y =>
        have hsome : xs.any isExternalInit = true :=
          any_eq_true.mpr ⟨y, mem_of_find?_eq_some hc, find?_some hc⟩
        simp [hsome]
    rw [hstep.valid, hfind]
    split_ifs with hx
    · simp only [mem_addRef, h.valid, mem_append, mem_singleton, or_and_right,
        exists_or, exists_eq_left]
      generalize (∃ y ∈ xs, y.isKept = true ∧ y.proposalReference = r) = kept
      generalize (∃ y, xs.find? isExternalInit = some y ∧ y.proposalReference = r) = first
      rcases hx with hx | hx <;> simp only [hx, @eq_comm _ r] <;> tauto
    · obtain ⟨hk, hi⟩ := not_or.mp hx
      simp [h.valid, hk, hi, or_and_right, exists_or]
  updates i := by rw [hstep.updates, h.updates, filter_append]
  removes i := by rw [hstep.removes, h.removes, filter_append]
  keys i := by
    rw [hstep.keys, h.keys]
    cases hu : isUpdateOf own i x <;> cases hr : isRemoveOf i x <;> simp [hu, hr]
  pool := by
    rw [hstep.pool]
    split_ifs with hx
    · exact h.pool.skip hx.1 (h.init ▸ hx.2)
    · exact h.pool.insert x
  init := by simp [hstep.init, h.init]

lemma parseAll_parsed {ys : List (QueuedProposal D Ref)} :
    ∀ {xs : List (QueuedProposal D Ref)} {st st' : FilterState D Ref}, Parsed own xs st →
      FilterState.parseAll own st ys = .ok st' → Parsed own (xs ++ ys) st' := by
  induction ys with
  | nil =>
    intro xs st st' h hall
    obtain rfl : st = st' := by simpa [FilterState.parseAll] using hall
    simpa using h
  | cons y ys ih =>
    intro xs st st' h hall
    rw [FilterState.parseAll] at hall
    cases hy : FilterState.parse own st y with
    | error e => simp [hy] at hall
    | ok st1 =>
      simp only [hy] at hall
      simpa using ih (h.step (parse_step hy)) hall

/-! ## The loop over the members -/

/-- The proposal that is kept for a member. -/
def MemberProposals.selected (m : MemberProposals D Ref) : Option (QueuedProposal D Ref) :=
  m.removes.getLast?.or m.updates.getLast?

lemma mem_selectMember {valid : List Ref} {m : MemberProposals D Ref} :
    r ∈ selectMember valid m ↔
      r ∈ valid ∨ ∃ x, m.selected = some x ∧ x.proposalReference = r := by
  unfold selectMember MemberProposals.selected
  cases m.removes.getLast? with
  | some x => simp [eq_comm]
  | none =>
    cases m.updates.getLast? with
    | some x => simp [eq_comm]
    | none => simp

lemma mem_selectMembers {ms : List (MemberProposals D Ref)} :
    ∀ {valid : List Ref}, r ∈ ms.foldl selectMember valid ↔
      r ∈ valid ∨ ∃ m ∈ ms, ∃ x, m.selected = some x ∧ x.proposalReference = r := by
  induction ms with
  | nil => intro valid; simp
  | cons m ms ih =>
    intro valid
    rw [foldl_cons, ih, mem_selectMember]
    simp [or_assoc]

omit [DecidableEq Ref] in
lemma Parsed.selected (h : Parsed own xs st) (i : LeafNodeIndex) (x : QueuedProposal D Ref) :
    (st.members i).selected = some x ↔ (xs.filter (isRemoveOf i)).getLast? = some x ∨
      xs.filter (isRemoveOf i) = [] ∧ (xs.filter (isUpdateOf own i)).getLast? = some x := by
  rw [MemberProposals.selected, h.updates, h.removes, Option.or_eq_some_iff, getLast?_eq_none_iff]

omit [DecidableEq Ref] in
lemma Parsed.mem_keys (h : Parsed own xs st) (hx : (st.members i).selected = some x) :
    i ∈ st.memberKeys := by
  rw [h.keys]
  rcases (h.selected i x).mp hx with hx | ⟨-, hx⟩
  · exact .inr fun hnil => by simp [hnil] at hx
  · exact .inl fun hnil => by simp [hnil] at hx

/-! ## The queue that is collected -/

/-- The references of a queue are distinct and are those of its proposals. -/
structure ProposalQueue.WellFormed (q : ProposalQueue D Ref) : Prop where
  nodup : q.proposalReferences.Nodup
  mem_iff : ∀ r, r ∈ q.proposalReferences ↔ (q.get r).isSome
  reference : ∀ r x, q.get r = some x → x.proposalReference = r

namespace ProposalQueue

omit [DecidableEq Ref] in
lemma wellFormed_empty : (empty : ProposalQueue D Ref).WellFormed := by
  constructor <;> simp [empty]

variable {q : ProposalQueue D Ref} {x : QueuedProposal D Ref}

lemma WellFormed.add (h : q.WellFormed) (x : QueuedProposal D Ref) : (q.add x).WellFormed := by
  unfold ProposalQueue.add
  cases hx : q.get x.proposalReference with
  | some y => exact h
  | none =>
    have hnot : x.proposalReference ∉ q.proposalReferences := by simp [h.mem_iff, hx]
    constructor
    · refine nodup_append.mpr ⟨h.nodup, by simp, ?_⟩
      intro a ha b hb hab
      obtain rfl := mem_singleton.mp hb
      exact hnot (hab ▸ ha)
    · intro r
      by_cases hr : r = x.proposalReference
      · simp [hr]
      · simp [h.mem_iff, hr]
    · intro r y hy
      by_cases hr : r = x.proposalReference
      · subst hr
        obtain rfl : x = y := by simpa using hy
        rfl
      · exact h.reference r y (by simpa [update_of_ne hr] using hy)

lemma mem_add (h : q.WellFormed) {r : Ref} :
    r ∈ (q.add x).proposalReferences ↔ r ∈ q.proposalReferences ∨ r = x.proposalReference := by
  unfold ProposalQueue.add
  cases hx : q.get x.proposalReference with
  | some y =>
    have hmem : x.proposalReference ∈ q.proposalReferences := by simp [h.mem_iff, hx]
    exact ⟨Or.inl, fun hr => hr.elim id fun he => he ▸ hmem⟩
  | none => simp

lemma get_add {y : QueuedProposal D Ref} {r : Ref} (hy : (q.add x).get r = some y) :
    q.get r = some y ∨ y = x := by
  unfold ProposalQueue.add at hy
  cases hx : q.get x.proposalReference with
  | some z => exact .inl (by simpa [hx] using hy)
  | none =>
    simp only [hx] at hy
    by_cases hr : r = x.proposalReference
    · subst hr
      exact .inr (by simpa using hy.symm)
    · exact .inl (by simpa [update_of_ne hr] using hy)

lemma collect_spec {pool : Ref → Option (QueuedProposal D Ref)}
    (hpool : ∀ r x, pool r = some x → x.proposalReference = r) {rs : List Ref} :
    ∀ {q q' : ProposalQueue D Ref}, q.WellFormed → collect pool q rs = .ok q' →
      q'.WellFormed ∧
      (∀ r, r ∈ q'.proposalReferences ↔ r ∈ q.proposalReferences ∨ r ∈ rs) ∧
      ∀ r x, q'.get r = some x → q.get r = some x ∨ pool r = some x := by
  induction rs with
  | nil =>
    intro q q' h hc
    obtain rfl : q = q' := by simpa [collect] using hc
    exact ⟨h, by simp, fun r x hx => .inl hx⟩
  | cons s rs ih =>
    intro q q' h hc
    cases hs : pool s with
    | none => simp [collect, hs] at hc
    | some y =>
      simp only [collect, hs] at hc
      obtain ⟨hwf, hmem, hget⟩ := ih (h.add y) hc
      have hys := hpool s y hs
      refine ⟨hwf, fun r => ?_, fun r x hx => ?_⟩
      · rw [hmem, mem_add h, hys]
        simp [or_assoc]
      · rcases hget r x hx with hx | hx
        · rcases get_add hx with hx' | rfl
          · exact .inl hx'
          · have hr : r = s := ((h.add x).reference r x hx).symm.trans hys
            exact .inr (hr ▸ hs)
        · exact .inr hx

/-- **What the filter keeps**: the proposals that survive. -/
theorem filter_spec {O : MapOrder} {xs : List (QueuedProposal D Ref)} {own : LeafNodeIndex}
    {q : ProposalQueue D Ref} {flag : Bool}
    (h : filterProposalsWithoutInline O xs own = .ok (q, flag)) :
    q.WellFormed ∧
      (∀ r, r ∈ q.proposalReferences ↔ ∃ x, Survives own xs x ∧ x.proposalReference = r) ∧
      ∀ r x, q.get r = some x → x ∈ xs := by
  unfold filterProposalsWithoutInline at h
  cases hall : FilterState.empty.parseAll own xs with
  | error e => simp [hall] at h
  | ok st =>
    simp only [hall] at h
    have hst : Parsed own xs st := by simpa using parseAll_parsed (parsed_empty own) hall
    cases hc : collect st.proposalPool empty (st.adds ++
        ((O.order st.memberKeys).map st.members).foldl selectMember st.validProposals) with
    | error e => simp [hc] at h
    | ok q1 =>
      simp only [hc, Except.ok.injEq, Prod.mk.injEq] at h
      obtain ⟨rfl, -⟩ := h
      obtain ⟨hwf, hmem, hget⟩ :=
        collect_spec (fun r x hx => (hst.pool.1 r x hx).2) wellFormed_empty hc
      refine ⟨hwf, fun r => ?_, fun r x hx => ?_⟩
      · have hsel : (∃ m ∈ (O.order st.memberKeys).map st.members,
            ∃ x, m.selected = some x ∧ x.proposalReference = r) ↔
            ∃ i x, (st.members i).selected = some x ∧ x.proposalReference = r := by
          constructor
          · rintro ⟨m, hm, x, hx⟩
            obtain ⟨i, -, rfl⟩ := mem_map.mp hm
            exact ⟨i, x, hx⟩
          · rintro ⟨i, x, hx⟩
            refine ⟨st.members i, mem_map_of_mem ?_, x, hx⟩
            exact (O.order_perm _).mem_iff.mpr (hst.mem_keys hx.1)
        rw [hmem, mem_append, mem_selectMembers, hst.adds, hst.valid, hsel]
        simp only [hst.selected, empty, not_mem_nil, false_or]
        constructor
        · rintro (⟨x, hx, ha, hr⟩ | (⟨x, hx, ha, hr⟩ | ⟨x, hx, hr⟩) | ⟨i, x, hx, hr⟩)
          · exact ⟨x, .inl ⟨hx, .inl ha⟩, hr⟩
          · exact ⟨x, .inl ⟨hx, .inr ha⟩, hr⟩
          · exact ⟨x, .inr (.inl hx), hr⟩
          · rcases hx with hx | hx
            · exact ⟨x, .inr (.inr (.inl ⟨i, hx⟩)), hr⟩
            · exact ⟨x, .inr (.inr (.inr ⟨i, hx⟩)), hr⟩
        · rintro ⟨x, ⟨hx, ha | ha⟩ | hx | ⟨i, hx⟩ | ⟨i, hx⟩, hr⟩
          · exact .inl ⟨x, hx, ha, hr⟩
          · exact .inr (.inl (.inl ⟨x, hx, ha, hr⟩))
          · exact .inr (.inl (.inr ⟨x, hx, hr⟩))
          · exact .inr (.inr ⟨i, x, .inl hx, hr⟩)
          · exact .inr (.inr ⟨i, x, .inr hx, hr⟩)
      · rcases hget r x hx with hx | hx
        · simp [empty] at hx
        · exact (hst.pool.1 r x hx).1

end ProposalQueue

end Filter

end EmulatedMls
