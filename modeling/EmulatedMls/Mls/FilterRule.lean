import EmulatedMls.Mls.CommitRoundTrip
import Mathlib.Data.List.Induction

/-!
# The rule of the filter

What a filtered queue holds for each leaf and of each kind, in which order, and how far the order
depends on the map it is read out of.  The two filters of the source have the same body, but each
reads its own map.

**Source.**  `filter_proposals` and `filter_proposals_without_inline` of
`group/mls_group/proposal_store.rs`.
-/

namespace EmulatedMls

open List

variable {D Ref : Type} {x y : QueuedProposal D Ref} {xs : List (QueuedProposal D Ref)}
  {own i : LeafNodeIndex}

namespace QueuedProposal

/-- An update that leaf `i` has sent. -/
def isUpdateBy (i : LeafNodeIndex) (x : QueuedProposal D Ref) : Bool :=
  match x.proposal, x.sender with
  | .update _, .member j => j = i
  | _, _ => false

/-- A removal of leaf `i` or an update sent by it. -/
def concerns (i : LeafNodeIndex) (x : QueuedProposal D Ref) : Bool :=
  x.isRemoveOf i || x.isUpdateBy i

/-- An update or a removal. -/
def isMemberChange (x : QueuedProposal D Ref) : Bool :=
  match x.proposal with
  | .update _ | .remove _ => true
  | _ => false

/-- The loop over the proposals goes on: no `AppAck`, and updates come from members. -/
def isParsed (x : QueuedProposal D Ref) : Bool :=
  match x.proposal, x.sender with
  | .appAck _, _ => false
  | .update _, .member _ => true
  | .update _, _ => false
  | _, _ => true

lemma isUpdateOf_iff : x.isUpdateOf own i = true ↔ x.isUpdateBy i = true ∧ i ≠ own := by
  unfold isUpdateOf isUpdateBy
  cases x.proposal <;> cases x.sender <;> simp
  exact ⟨fun h => ⟨h.2, h.2 ▸ h.1⟩, fun h => ⟨h.1 ▸ h.2, h.1⟩⟩

end QueuedProposal

open QueuedProposal

/-- The last removal of leaf `i`, and otherwise the last update of it, unless it is the own leaf. -/
def lastFor (own : LeafNodeIndex) (xs : List (QueuedProposal D Ref)) (i : LeafNodeIndex) :
    Option (QueuedProposal D Ref) :=
  (xs.filter (isRemoveOf i)).getLast?.or (xs.filter (isUpdateOf own i)).getLast?

/-- The same outcome, up to the order of the updates and removals. -/
inductive SameOutcome : Except ProposalQueueError (ProposalQueue D Ref × Bool) →
    Except ProposalQueueError (ProposalQueue D Ref × Bool) → Prop where
  | error (e : ProposalQueueError) : SameOutcome (.error e) (.error e)
  | ok {q q' : ProposalQueue D Ref} {flag : Bool}
      (perm : q.queuedProposals.Perm q'.queuedProposals)
      (others : q.queuedProposals.filter (!·.isMemberChange) =
        q'.queuedProposals.filter (!·.isMemberChange)) :
      SameOutcome (.ok (q, flag)) (.ok (q', flag))

/-! ## The survivors by kind -/

lemma Survives.of_isRemoveOf (h : Survives own xs x) (hx : isRemoveOf i x = true) :
    (xs.filter (isRemoveOf i)).getLast? = some x := by
  obtain ⟨j, hp, rfl⟩ : ∃ j, x.proposal = .remove j ∧ j = i := by
    unfold isRemoveOf at hx
    cases hp : x.proposal <;> simp_all
  rcases h with ⟨-, h | h⟩ | h | ⟨k, h⟩ | ⟨k, -, h⟩
  · simp [isAdd, hp] at h
  · simp [isKept, hp] at h
  · simpa [isExternalInit, hp] using find?_some h
  · have hk := of_mem_filter (mem_of_getLast? h)
    obtain rfl : j = k := by simpa [isRemoveOf, hp] using hk
    exact h
  · simpa [isUpdateOf, hp] using of_mem_filter (mem_of_getLast? h)

lemma exists_of_isUpdateBy (h : isUpdateBy i x = true) :
    ∃ l, x.proposal = .update l ∧ x.sender = .member i := by
  unfold isUpdateBy at h
  cases hp : x.proposal <;> cases hs : x.sender <;> simp_all

lemma Survives.of_update {l : LeafNode D} (h : Survives own xs x) (hp : x.proposal = .update l) :
    ∃ i, xs.filter (isRemoveOf i) = [] ∧ (xs.filter (isUpdateOf own i)).getLast? = some x ∧
      i ≠ own ∧ x.sender = .member i := by
  rcases h with ⟨-, h | h⟩ | h | ⟨k, h⟩ | ⟨k, hnil, h⟩
  · simp [isAdd, hp] at h
  · simp [isKept, hp] at h
  · simpa [isExternalInit, hp] using find?_some h
  · simpa [isRemoveOf, hp] using of_mem_filter (mem_of_getLast? h)
  · have hk := of_mem_filter (mem_of_getLast? h)
    refine ⟨k, hnil, h, ?_⟩
    cases hs : x.sender with
    | member j =>
      obtain ⟨hne, rfl⟩ : j ≠ own ∧ j = k := by simpa [isUpdateOf, hp, hs] using hk
      exact ⟨hne, rfl⟩
    | _ => simp [isUpdateOf, hp, hs] at hk

lemma Survives.lastFor_eq (h : Survives own xs x) (hx : x.concerns i = true) :
    lastFor own xs i = some x := by
  rw [lastFor, Option.or_eq_some_iff, getLast?_eq_none_iff]
  rcases (Bool.or_eq_true _ _).mp hx with hx | hx
  · exact .inl (h.of_isRemoveOf hx)
  · obtain ⟨l, hp, hs⟩ := exists_of_isUpdateBy hx
    obtain ⟨j, hnone, hlast, -, hj⟩ := h.of_update hp
    obtain rfl := Sender.member.inj (hj.symm.trans hs)
    exact .inr ⟨hnone, hlast⟩

lemma survives_of_lastFor (h : lastFor own xs i = some x) :
    Survives own xs x ∧ x.concerns i = true := by
  rw [lastFor, Option.or_eq_some_iff, getLast?_eq_none_iff] at h
  rcases h with h | ⟨hnone, h⟩
  · have hx := (mem_filter.mp (mem_of_getLast? h)).2
    exact ⟨.inr (.inr (.inl ⟨i, h⟩)), by simp [concerns, hx]⟩
  · have hx := isUpdateOf_iff.mp (mem_filter.mp (mem_of_getLast? h)).2
    exact ⟨.inr (.inr (.inr ⟨i, hnone, h⟩)), by simp [concerns, hx.1]⟩

lemma Survives.isUpdateBy_own (h : Survives own xs x) : x.isUpdateBy own = false := by
  by_contra hx
  obtain ⟨l, hp, hs⟩ := exists_of_isUpdateBy (Bool.eq_true_of_not_eq_false hx)
  obtain ⟨j, -, -, hne, hj⟩ := h.of_update hp
  exact hne (Sender.member.inj (hj.symm.trans hs))

lemma Survives.find?_eq (h : Survives own xs x) (hx : x.isExternalInit = true) :
    xs.find? isExternalInit = some x := by
  rcases h with ⟨-, hkind⟩ | hinit | ⟨j, hlast⟩ | ⟨j, -, hlast⟩
  · cases hp : x.proposal <;> simp [isAdd, isKept, isExternalInit, hp] at hkind hx
  · exact hinit
  all_goals
    have hj := (mem_filter.mp (mem_of_getLast? hlast)).2
    cases hp : x.proposal <;> simp [isRemoveOf, isUpdateOf, isExternalInit, hp] at hj hx

/-! ## Adding references -/

section

variable [DecidableEq Ref] {q q' : ProposalQueue D Ref} {flag : Bool} {st st' : FilterState D Ref}
  {O : MapOrder} {H : RefHash D Ref} {s : Sender}

lemma foldl_addRef (rs : List Ref) : ∀ acc : List Ref,
    ∃ rest, rs.foldl addRef acc = acc ++ rest ∧ ∀ r ∈ rest, r ∈ rs := by
  induction rs with
  | nil => exact fun acc => ⟨[], by simp⟩
  | cons r rs ih =>
    intro acc
    obtain ⟨rest, hrest, hmem⟩ := ih (addRef acc r)
    rw [foldl_cons, hrest, addRef]
    split_ifs with hr
    · exact ⟨rest, rfl, fun s hs => .tail _ (hmem s hs)⟩
    · refine ⟨r :: rest, by simp, fun s hs => ?_⟩
      rcases mem_cons.mp hs with rfl | hs
      · exact .head _
      · exact .tail _ (hmem s hs)

lemma foldl_addRef_eq_eraseDups (rs : List Ref) : rs.foldl addRef [] = rs.eraseDups := by
  induction rs using List.reverseRecOn with
  | nil => rfl
  | append_singleton rs r ih =>
    rw [foldl_append, ih, eraseDups_append]
    by_cases hr : r ∈ rs <;> simp [addRef, List.removeAll, hr, eraseDups_cons]

lemma foldl_addRef_idem (rs : List Ref) :
    (rs.foldl addRef []).foldl addRef [] = rs.foldl addRef [] := by
  induction rs using List.reverseRecOn with
  | nil => rfl
  | append_singleton rs r ih =>
    rw [foldl_append, foldl_cons, foldl_nil]
    by_cases hr : r ∈ rs.foldl addRef []
    · rw [addRef, if_pos hr, ih]
    · rw [addRef, if_neg hr, foldl_append, ih]
      exact if_neg hr

lemma selectMember_eq (valid : List Ref) (m : MemberProposals D Ref) :
    selectMember valid m = (m.selected.map (·.proposalReference)).toList.foldl addRef valid := by
  unfold selectMember MemberProposals.selected
  cases m.removes.getLast? with
  | some x => rfl
  | none => cases m.updates.getLast? <;> rfl

/-- The members only append to the references. -/
lemma foldl_selectMember (ms : List (MemberProposals D Ref)) : ∀ valid : List Ref,
    ∃ rest, ms.foldl selectMember valid = valid ++ rest ∧
      ∀ r ∈ rest, ∃ m ∈ ms, ∃ x, m.selected = some x ∧ x.proposalReference = r := by
  induction ms with
  | nil => exact fun valid => ⟨[], by simp⟩
  | cons m ms ih =>
    intro valid
    obtain ⟨rest1, hrest1, hmem1⟩ :=
      foldl_addRef (m.selected.map (·.proposalReference)).toList valid
    obtain ⟨rest2, hrest2, hmem2⟩ := ih (valid ++ rest1)
    refine ⟨rest1 ++ rest2, ?_, fun r hr => ?_⟩
    · rw [foldl_cons, selectMember_eq, hrest1, hrest2, append_assoc]
    · rcases mem_append.mp hr with hr | hr
      · exact ⟨m, .head _, by simpa using hmem1 r hr⟩
      · obtain ⟨m', hm', hx⟩ := hmem2 r hr
        exact ⟨m', .tail _ hm', hx⟩

/-! ## The loops in order -/

open FilterState in
lemma parse_flag (h : parse own st x = .ok st') :
    st'.containsOwnUpdates = (st.containsOwnUpdates || x.isUpdateBy own) := by
  unfold parse at h
  cases hp : x.proposal <;> simp only [hp, reduceCtorEq, Except.ok.injEq] at h
  case update l =>
    cases hs : x.sender <;> simp only [hs, reduceCtorEq] at h
    split_ifs at h with hi <;> obtain rfl := Except.ok.inj h <;>
      simp_all [isUpdateBy, FilterState.pool, modifyMember]
  case externalInit k =>
    split_ifs at h <;> obtain rfl := Except.ok.inj h <;>
      simp [isUpdateBy, hp, keep, FilterState.pool]
  all_goals
    subst h
    simp [isUpdateBy, hp, keep, FilterState.pool, modifyMember]

lemma parse_isOk (st : FilterState D Ref) (x : QueuedProposal D Ref) :
    (∃ st', st.parse own x = .ok st') ↔ x.isParsed = true := by
  unfold FilterState.parse isParsed
  cases x.proposal <;> cases x.sender <;> dsimp only <;> try split_ifs
  all_goals simp

lemma parseAll_flag_adds {xs : List (QueuedProposal D Ref)} :
    ∀ {st st' : FilterState D Ref}, st.parseAll own xs = .ok st' →
      st'.containsOwnUpdates = (st.containsOwnUpdates || xs.any (isUpdateBy own)) ∧
      st'.adds = ((xs.filter isAdd).map (·.proposalReference)).foldl addRef st.adds := by
  induction xs with
  | nil =>
    intro st st' h
    cases h
    simp
  | cons x xs ih =>
    intro st st' h
    rw [FilterState.parseAll] at h
    cases hx : st.parse own x with
    | error e => simp [hx] at h
    | ok st1 =>
      simp only [hx] at h
      obtain ⟨hflag, hadds⟩ := ih h
      rw [hflag, hadds, parse_flag hx, (parse_step hx).adds]
      cases hadd : x.isAdd <;> simp [hadd, Bool.or_assoc]

lemma parseAll_isOk {xs : List (QueuedProposal D Ref)} : ∀ st : FilterState D Ref,
    (∃ st', st.parseAll own xs = .ok st') ↔ ∀ x ∈ xs, x.isParsed = true := by
  induction xs with
  | nil => exact fun st => by simp [FilterState.parseAll]
  | cons x xs ih =>
    intro st
    rw [FilterState.parseAll, forall_mem_cons, ← parse_isOk st x]
    cases hx : st.parse own x with
    | error e => simp
    | ok st1 => simpa using ih st1

namespace ProposalQueue

lemma collect_eq {pool : Ref → Option (QueuedProposal D Ref)}
    (hpool : ∀ r x, pool r = some x → x.proposalReference = r) {rs : List Ref} :
    ∀ {q : ProposalQueue D Ref}, q.WellFormed → (∀ r ∈ rs, (pool r).isSome) →
      ∃ q', collect pool q rs = .ok q' ∧
        q'.proposalReferences = rs.foldl addRef q.proposalReferences := by
  induction rs with
  | nil => exact fun _ _ => ⟨_, rfl, rfl⟩
  | cons r rs ih =>
    intro q hwf hrs
    obtain ⟨x, hx⟩ := Option.isSome_iff_exists.mp (hrs r (.head _))
    obtain ⟨q', hq', hrefs⟩ := ih (hwf.add x) fun s hs => hrs s (.tail _ hs)
    refine ⟨q', by rw [collect, hx]; exact hq', ?_⟩
    have hadd : (q.add x).proposalReferences = addRef q.proposalReferences r := by
      rw [← hpool r x hx]
      unfold addRef add
      cases hget : q.get x.proposalReference <;> simp [hwf.mem_iff, hget]
    rw [hrefs, hadd, foldl_cons]

/-- **The queue in order**: the adds, the other kinds, and then one proposal for each leaf. -/
lemma filter_order (O : MapOrder) (h : FilterState.empty.parseAll own xs = .ok st) :
    ∃ q rest, filterProposalsWithoutInline O xs own = .ok (q, xs.any (isUpdateBy own)) ∧
      (∀ r ∈ q.proposalReferences, q.get r = st.proposalPool r) ∧
      q.proposalReferences = (st.adds ++ st.validProposals).foldl addRef [] ++ rest ∧
      ∀ r ∈ rest, ∃ i x, lastFor own xs i = some x ∧ x.proposalReference = r := by
  have hst : Parsed own xs st := by simpa using parseAll_parsed (parsed_empty own) h
  have hselected : ∀ i, (st.members i).selected = lastFor own xs i := fun i => by
    rw [MemberProposals.selected, hst.removes, hst.updates, lastFor]
  obtain ⟨sel, hsel, hmem⟩ :=
    foldl_selectMember ((O.order st.memberKeys).map st.members) st.validProposals
  have hlast : ∀ r ∈ sel, ∃ i x, lastFor own xs i = some x ∧ x.proposalReference = r := by
    intro r hr
    obtain ⟨m, hm, x, hx, href⟩ := hmem r hr
    obtain ⟨i, -, rfl⟩ := mem_map.mp hm
    exact ⟨i, x, hselected i ▸ hx, href⟩
  have hpooled : ∀ r ∈ st.adds ++ (st.validProposals ++ sel), (st.proposalPool r).isSome := by
    intro r hr
    rcases mem_append.mp hr with hr | hr
    · obtain ⟨x, hx, hadd, rfl⟩ := (hst.adds r).mp hr
      refine hst.pool.2.1 x hx ?_
      cases hp : x.proposal <;> simp [isAdd, isExternalInit, hp] at hadd ⊢
    rcases mem_append.mp hr with hr | hr
    · rcases (hst.valid r).mp hr with ⟨x, hx, hkept, rfl⟩ | ⟨x, hx, rfl⟩
      · refine hst.pool.2.1 x hx ?_
        cases hp : x.proposal <;> simp [isKept, isExternalInit, hp] at hkept ⊢
      · exact hst.pool.2.2 x hx
    · obtain ⟨i, x, hx, rfl⟩ := hlast r hr
      obtain ⟨hsurvives, hconcerns⟩ := survives_of_lastFor hx
      refine hst.pool.2.1 x hsurvives.mem ?_
      cases hp : x.proposal <;>
        simp [concerns, isRemoveOf, isUpdateBy, isExternalInit, hp] at hconcerns ⊢
  have hrefpool : ∀ r x, st.proposalPool r = some x → x.proposalReference = r :=
    fun r x hx => (hst.pool.1 r x hx).2
  obtain ⟨q, hq, hrefs⟩ := collect_eq hrefpool wellFormed_empty hpooled
  obtain ⟨hwf, -, hget⟩ := collect_spec hrefpool wellFormed_empty hq
  obtain ⟨rest, hrest, hsub⟩ := foldl_addRef sel ((st.adds ++ st.validProposals).foldl addRef [])
  refine ⟨q, rest, ?_, fun r hr => ?_, ?_, fun r hr => hlast r (hsub r hr)⟩
  · have hflag := (parseAll_flag_adds h).1
    simp only [filterProposalsWithoutInline, h, hsel, hq, hflag]
    rfl
  · obtain ⟨x, hx⟩ := Option.isSome_iff_exists.mp ((hwf.mem_iff r).mp hr)
    rw [hx, (hget r x hx).resolve_left (by simp [empty])]
  · rw [hrefs, ← append_assoc, foldl_append]
    exact hrest

lemma exists_parseAll {r : ProposalQueue D Ref × Bool}
    (hr : filterProposalsWithoutInline O xs own = .ok r) :
    ∃ st, FilterState.empty.parseAll own xs = .ok st := by
  cases h : FilterState.empty.parseAll own xs with
  | error e => simp [filterProposalsWithoutInline, h] at hr
  | ok st => exact ⟨st, rfl⟩

lemma filter_flag (hq : filterProposalsWithoutInline O xs own = .ok (q, flag)) :
    flag = xs.any (isUpdateBy own) ∧ ∀ x ∈ xs, x.isParsed = true := by
  obtain ⟨st, h⟩ := exists_parseAll hq
  obtain ⟨q1, -, hq1, -⟩ := filter_order O h
  exact ⟨(Prod.mk.inj (Exec.unique hq hq1)).2, (parseAll_isOk _).mp ⟨st, h⟩⟩

end ProposalQueue

/-! ## The rule -/

open ProposalQueue

lemma filter_entries_eq (hxs : Made H s xs)
    (hq : filterProposalsWithoutInline O xs own = .ok (q, flag)) {p : QueuedProposal D Ref → Bool}
    (hp : ∀ x y : QueuedProposal D Ref, x.entry = y.entry → p x = p y)
    {o : Option (QueuedProposal D Ref)} (ho : ∀ x, o = some x ↔ Survives own xs x ∧ p x = true) :
    (q.queuedProposals.filter p).map QueuedProposal.entry = o.toList.map QueuedProposal.entry := by
  obtain ⟨hwf, hsurvivors, hqueue⟩ := filtered_entries hxs hq
  have hkind : ∀ y ∈ q.queuedProposals, p y = true →
      ∃ x, o = some x ∧ x.proposalReference = y.proposalReference := fun y hy hpy => by
    obtain ⟨x, hx, hentry, href⟩ := hqueue y hy
    exact ⟨x, (ho x).mpr ⟨hx, (hp x y hentry).trans hpy⟩, href⟩
  cases o with
  | none =>
    rw [filter_eq_nil_iff.mpr fun y hy hpy => by simpa using hkind y hy hpy]
    rfl
  | some x =>
    obtain ⟨hx, hpx⟩ := (ho x).mp rfl
    obtain ⟨y, hy, hentry, href⟩ := hsurvivors x hx
    have hperm : (q.queuedProposals.filter p).Perm [y] := by
      refine (perm_ext_iff_of_nodup (hwf.nodup_queuedProposals.filter _)
        (nodup_singleton y)).mpr fun z => ?_
      rw [mem_filter, mem_singleton]
      constructor
      · rintro ⟨hz, hpz⟩
        obtain ⟨x', hx', href'⟩ := hkind z hz hpz
        cases hx'
        exact inj_on_of_nodup_map (by rw [hwf.map_reference]; exact hwf.nodup) hz hy
          (href'.symm.trans href.symm)
      · rintro rfl
        exact ⟨hy, (hp z x hentry).trans hpx⟩
    rw [perm_singleton.mp hperm]
    simp [hentry]

lemma isMemberChange_of_mem (hxs : Made H s xs) (hst : Parsed own xs st) {r : Ref}
    (hr : r ∈ (st.adds ++ st.validProposals).foldl addRef []) (hy : st.proposalPool r = some y) :
    y.isMemberChange = false := by
  obtain ⟨rest, hrest, hsub⟩ := foldl_addRef (st.adds ++ st.validProposals) []
  obtain ⟨hmem, href⟩ := hst.pool.1 r y hy
  have hkind : ∃ x ∈ xs, x.proposalReference = r ∧ x.isMemberChange = false := by
    rcases mem_append.mp (hsub r (by simpa [hrest] using hr)) with hr | hr
    · obtain ⟨x, hx, hadd, hr⟩ := (hst.adds r).mp hr
      refine ⟨x, hx, hr, ?_⟩
      cases hp : x.proposal <;> simp [isAdd, isMemberChange, hp] at hadd ⊢
    · rcases (hst.valid r).mp hr with ⟨x, hx, hkept, hr⟩ | ⟨x, hx, hr⟩
      · refine ⟨x, hx, hr, ?_⟩
        cases hp : x.proposal <;> simp [isKept, isMemberChange, hp] at hkept ⊢
      · have hinit := find?_some hx
        refine ⟨x, mem_of_find?_eq_some hx, hr, ?_⟩
        cases hp : x.proposal <;> simp [isExternalInit, isMemberChange, hp] at hinit ⊢
  obtain ⟨x, hx, hr, hchange⟩ := hkind
  have hentry := hxs.entry_eq hx hmem (hr.trans href.symm)
  have hproposal : x.proposal = y.proposal := congrArg Prod.fst hentry
  rwa [isMemberChange, ← hproposal]

/-- The order of the map shows in the order of the updates and removals only. -/
lemma sameOutcome_filter (hxs : Made H s xs) (O O' : MapOrder) :
    SameOutcome (filterProposalsWithoutInline O xs own)
      (filterProposalsWithoutInline O' xs own) := by
  cases h : FilterState.empty.parseAll own xs with
  | error e =>
    rw [filterProposalsWithoutInline, filterProposalsWithoutInline, h]
    exact .error e
  | ok st =>
    have hst : Parsed own xs st := by simpa using parseAll_parsed (parsed_empty own) h
    set base := (st.adds ++ st.validProposals).foldl addRef [] with hbase
    have hothers : ∀ {q : ProposalQueue D Ref} {rest : List Ref},
        (∀ r ∈ q.proposalReferences, q.get r = st.proposalPool r) →
        q.proposalReferences = base ++ rest →
        (∀ r ∈ rest, ∃ i x, lastFor own xs i = some x ∧ x.proposalReference = r) →
        q.queuedProposals.filter (!·.isMemberChange) = base.filterMap st.proposalPool := by
      intro q rest hget hrefs hrest
      have hpooled : q.queuedProposals = (base ++ rest).filterMap st.proposalPool := by
        rw [queuedProposals, ← hrefs]
        exact filterMap_congr hget
      rw [hpooled, filterMap_append, filter_append]
      have hbefore : (base.filterMap st.proposalPool).filter (!·.isMemberChange) =
          base.filterMap st.proposalPool := filter_eq_self.mpr fun y hy => by
        obtain ⟨r, hr, hy⟩ := mem_filterMap.mp hy
        simp [isMemberChange_of_mem hxs hst hr hy]
      have hafter : (rest.filterMap st.proposalPool).filter (!·.isMemberChange) = [] := by
        refine filter_eq_nil_iff.mpr fun y hy => ?_
        obtain ⟨r, hr, hy⟩ := mem_filterMap.mp hy
        obtain ⟨i, x, hx, hxr⟩ := hrest r hr
        obtain ⟨hsurvives, hconcerns⟩ := survives_of_lastFor hx
        obtain ⟨hmem, hyr⟩ := hst.pool.1 r y hy
        have hproposal : x.proposal = y.proposal :=
          congrArg Prod.fst (hxs.entry_eq hsurvives.mem hmem (hxr.trans hyr.symm))
        rw [isMemberChange, ← hproposal]
        cases hp : x.proposal <;> simp [concerns, isRemoveOf, isUpdateBy, hp] at hconcerns ⊢
      rw [hbefore, hafter, append_nil]
    obtain ⟨q, rest, hq, hget, hrefs, hrest⟩ := filter_order O h
    obtain ⟨q', rest', hq', hget', hrefs', hrest'⟩ := filter_order O' h
    obtain ⟨hwf, hmem, -⟩ := filter_spec hq
    obtain ⟨hwf', hmem', -⟩ := filter_spec hq'
    rw [hq, hq']
    refine .ok ?_ ((hothers hget hrefs hrest).trans (hothers hget' hrefs' hrest').symm)
    have hperm : q.proposalReferences.Perm q'.proposalReferences :=
      (perm_ext_iff_of_nodup hwf.nodup hwf'.nodup).mpr fun r => by rw [hmem, hmem']
    rw [queuedProposals, queuedProposals, filterMap_congr hget, filterMap_congr hget']
    exact hperm.filterMap _

/-- **The rule of the filter.**  It keeps for each leaf the last removal or else the last update,
    the first external init and every proposal of the other kinds, the adds in front and in order,
    and with inline proposals the same up to the order of updates and removals. -/
theorem filter_rule (H : RefHash D Ref) (O O' : MapOrder) (s : Sender) (own : LeafNodeIndex) :
    (∀ xs : List (QueuedProposal D Ref), Made H s xs →
      ((∃ r, filterProposalsWithoutInline O xs own = .ok r) ↔ ∀ x ∈ xs, x.isParsed = true) ∧
      ∀ q flag, filterProposalsWithoutInline O xs own = .ok (q, flag) →
        (∀ i, (q.queuedProposals.filter (concerns i)).map QueuedProposal.entry =
          (lastFor own xs i).toList.map QueuedProposal.entry) ∧
        (∀ x ∈ q.queuedProposals, x.isUpdateBy own = false) ∧
        flag = xs.any (isUpdateBy own) ∧
        (q.queuedProposals.filter isExternalInit).map QueuedProposal.entry =
          (xs.find? isExternalInit).toList.map QueuedProposal.entry ∧
        (∀ x ∈ xs, x.isAdd = true ∨ x.isKept = true → ∃ y ∈ q.queuedProposals,
          y.proposalReference = x.proposalReference ∧ y.entry = x.entry) ∧
        ∃ rest, q.proposalReferences =
            ((xs.filter isAdd).map (·.proposalReference)).eraseDups ++ rest ∧
          ∀ y ∈ q.queuedProposals, y.proposalReference ∈ rest → y.isAdd = false) ∧
    ∀ (store : ProposalStore D) (inlineProposals : List (Proposal D)),
      SameOutcome (filterProposals H O s store inlineProposals own)
        (filterProposalsWithoutInline O' (store.proposals H ++
          inlineProposals.map fun p => .fromProposalAndSender H p s) own) := by
  refine ⟨fun xs hxs => ⟨?_, fun q flag hq => ?_⟩, fun store inlineProposals =>
    sameOutcome_filter (made_inline H s store inlineProposals) O O'⟩
  · rw [← parseAll_isOk FilterState.empty]
    refine ⟨fun ⟨r, hr⟩ => exists_parseAll hr, fun ⟨st, h⟩ => ?_⟩
    obtain ⟨q, -, hq, -⟩ := filter_order O h
    exact ⟨_, hq⟩
  obtain ⟨hwf, hsurvivors, hqueue⟩ := filtered_entries hxs hq
  have hproposal : ∀ {x y : QueuedProposal D Ref}, x.entry = y.entry →
      x.proposal = y.proposal ∧ x.sender = y.sender :=
    fun h => ⟨congrArg Prod.fst h, congrArg Prod.snd h⟩
  obtain ⟨st, h⟩ := exists_parseAll hq
  obtain ⟨q1, rest, hq1, -, hrefs, hrest⟩ := filter_order O h
  obtain ⟨rfl, rfl⟩ := Prod.mk.inj (Exec.unique hq hq1)
  refine ⟨fun i => filter_entries_eq hxs hq (fun x y hxy => ?_) fun x => ⟨survives_of_lastFor,
    fun hx => hx.1.lastFor_eq hx.2⟩, fun y hy => ?_, rfl, filter_entries_eq hxs hq
    (fun x y hxy => ?_) fun x => ⟨fun hx => ⟨.inr (.inl hx), find?_some hx⟩,
    fun hx => hx.1.find?_eq hx.2⟩, fun x hx hkept => ?_, ?_⟩
  · obtain ⟨hp, hs⟩ := hproposal hxy
    simp [concerns, isRemoveOf, isUpdateBy, hp, hs]
  · obtain ⟨x, hx, hxy, -⟩ := hqueue y hy
    obtain ⟨hp, hs⟩ := hproposal hxy
    simpa [isUpdateBy, hp, hs] using hx.isUpdateBy_own
  · simp [isExternalInit, (hproposal hxy).1]
  · obtain ⟨y, hy, hentry, href⟩ := hsurvivors x (.inl ⟨hx, hkept⟩)
    exact ⟨y, hy, href, hentry⟩
  · have hst : Parsed own xs st := by simpa using parseAll_parsed (parsed_empty own) h
    have hadds : st.adds = ((xs.filter isAdd).map (·.proposalReference)).eraseDups := by
      rw [(parseAll_flag_adds h).2, ← foldl_addRef_eq_eraseDups]
      rfl
    obtain ⟨others, hothers, -⟩ := foldl_addRef st.validProposals st.adds
    have hqrefs : q.proposalReferences = st.adds ++ (others ++ rest) := by
      rw [hrefs, foldl_append, hadds, ← foldl_addRef_eq_eraseDups, foldl_addRef_idem,
        foldl_addRef_eq_eraseDups, ← hadds, hothers, append_assoc]
    refine ⟨others ++ rest, hadds ▸ hqrefs, fun y hy hr => ?_⟩
    -- the reference of an add is among the adds, and in the queue once
    by_contra hadd
    obtain ⟨x, hx, hxy, href⟩ := hqueue y hy
    have hin : y.proposalReference ∈ st.adds := (hst.adds _).mpr ⟨x, hx.mem, by
      simpa [isAdd, (hproposal hxy).1] using hadd, href⟩
    exact (nodup_append.mp (hqrefs ▸ hwf.nodup)).2.2 _ hin _ hr rfl

end

/-- **Two senders of one bare proposal.**  The reference of a bare proposal does not cover the
    sender, so that of the same update of two members only one is left. -/
theorem update_of_two_senders :
    ∃ q, ProposalQueue.filterProposalsWithoutInline insertionOrder
        [.fromProposalAndSender plainRefs (.update (sampleLeaf 5)) (.member 1),
          .fromProposalAndSender plainRefs (.update (sampleLeaf 5)) (.member 2)] 0 =
            .ok (q, false) ∧
      q.queuedProposals.filter (concerns 1) = [] ∧
      lastFor 0 [.fromProposalAndSender plainRefs (.update (sampleLeaf 5)) (.member 1),
        .fromProposalAndSender plainRefs (.update (sampleLeaf 5)) (.member 2)] 1 =
          some (.fromProposalAndSender plainRefs (.update (sampleLeaf 5)) (.member 1)) :=
  ⟨_, rfl, rfl, rfl⟩

/-- Two members want the third one out, which updates itself, and the own leaf updates itself. -/
def busyStore : ProposalStore ℕ :=
  [(⟨.member 1, .remove 2, []⟩, .reference), (⟨.member 0, .update (sampleLeaf 5), []⟩, .reference),
    (⟨.member 3, .remove 2, []⟩, .reference), (⟨.member 2, .update (sampleLeaf 6), []⟩, .reference)]

/-- The last removal is kept, and both updates are dropped. -/
theorem filter_rule_busyStore :
    ∃ q, ProposalQueue.filterProposalsWithoutInline insertionOrder
        (busyStore.proposals plainRefs) 0 = .ok (q, true) ∧
      (q.queuedProposals.filter (concerns 2)).map QueuedProposal.entry =
        [(.remove 2, .member 3)] := by
  have hmade : Made plainRefs (.member 0) (busyStore.proposals plainRefs) := by
    simpa using made_inline plainRefs (.member 0) busyStore []
  obtain ⟨hok, hrule⟩ :=
    (filter_rule plainRefs insertionOrder insertionOrder (.member 0) 0).1 _ hmade
  obtain ⟨⟨q, flag⟩, hq⟩ := hok.mpr (by decide)
  obtain ⟨hlast, -, hflag, -⟩ := hrule q flag hq
  obtain rfl : flag = true := hflag
  exact ⟨q, hq, hlast 2⟩

end EmulatedMls
