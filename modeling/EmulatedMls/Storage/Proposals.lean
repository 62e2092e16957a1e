import EmulatedMls.Storage.NullStorage

/-!
# Stored proposals

The proposals of a group are stored as a list of references and one entry for each reference.
`remove_proposal` does nothing and `clear_proposal_queue` looks for the entries under another key
than the one they are written to.
-/

namespace EmulatedMls.NullStorage

open Exec Function Json
open List hiding after

variable {G R P : Type} [Serde G]

/-! ## Keys -/

def refsKey (g : G) : List UInt8 := buildKeyFromVec "ProposalQueueRefs" (toVec g)

variable {g g' : G}

lemma refsKey_inj : refsKey g = refsKey g' ↔ g = g' := by
  rw [refsKey, refsKey, buildKeyFromVec_inj, toVec_injective.eq_iff]

lemma not_isPrefix_refsKey (g : G) : ¬ ascii "QueuedProposal" <+: refsKey g := by
  rintro ⟨r, hr⟩
  have hhead := congrArg List.head? hr
  simp [refsKey, buildKeyFromVec, ascii] at hhead

variable [Serde R]

def entryKey (g : G) (r : R) : List UInt8 := buildKeyFromVec "QueuedProposal" (toVec (g, r))

variable {r : R}

lemma entryKey_inj {r' : R} : entryKey g r = entryKey g' r' ↔ g = g' ∧ r = r' := by
  rw [entryKey, entryKey, buildKeyFromVec_inj, toVec_injective.eq_iff, Prod.mk.injEq]

lemma isPrefix_entryKey (g : G) (r : R) : ascii "QueuedProposal" <+: entryKey g r := by
  exact prefix_append _ _

lemma entryKey_ne_refsKey (g g' : G) (r : R) : entryKey g r ≠ refsKey g' := by
  intro h
  exact not_isPrefix_refsKey g' (h ▸ isPrefix_entryKey g r)

/-- The bare key of `clear_proposal_queue` is not the key of an entry. -/
lemma entryKey_ne_toVec (g g' : G) (r r' : R) : entryKey g r ≠ toVec (g', r') := by
  intro h
  have hhead := congrArg List.head? h
  simp [entryKey, buildKeyFromVec, ascii, toVec, Serde.write, pair] at hhead

/-! ## Lists -/

inductive ProposalOp (G R P : Type) where
  | queue (groupId : G) (proposalRef : R) (proposal : P)
  | remove (groupId : G) (proposalRef : R)
  | clear (groupId : G)

/-- The storage, and next to it the proposals of each group as `ProposalStore` keeps them. -/
structure Tracked (G R P : Type) where
  values : Values
  lists : G → List (R × P)

namespace Tracked

variable {s : Tracked G R P} [Serde P]

/-- Every entry is the entry of a proposal of some group. -/
def NoOrphans (s : Tracked G R P) : Prop :=
  ∀ key value, s.values key = some value → ascii "QueuedProposal" <+: key →
    ∃ g, ∃ x ∈ s.lists g, key = entryKey g x.1

/-- **The storage is the list of proposals of each group.** -/
def Refines (s : Tracked G R P) : Prop :=
  (∀ g, queuedProposals R P s.values g = .ok (s.lists g)) ∧ s.NoOrphans

/-- The condition on a call: only a proposal that is not queued is removed, only an empty queue is
    cleared, and a reference that is queued again comes with the same proposal. -/
def Fits (s : Tracked G R P) : ProposalOp G R P → Prop
  | .queue g r p => ∀ p', (r, p') ∈ s.lists g → p' = p
  | .remove g r => ∀ x ∈ s.lists g, x.1 ≠ r
  | .clear g => s.lists g = []

/-- How the lists are stored. -/
structure Represents (s : Tracked G R P) : Prop where
  refs : ∀ g, (s.values (refsKey g)).getD (ascii "[]") = toVec ((s.lists g).map (toVec ·.1))
  entries : ∀ g, ∀ x ∈ s.lists g, s.values (entryKey g x.1) = some (toVec x.2)
  noOrphans : s.NoOrphans

/-! ## Reading -/

lemma mapM_eq_ok {ε α β : Type} {f : α → Except ε β} {g : α → β} {l : List α}
    (h : ∀ a ∈ l, f a = .ok (g a)) : l.mapM f = .ok (l.map g) := by
  induction l with
  | nil => rfl
  | cons a l ih =>
    rw [mapM_cons, h a mem_cons_self, ih fun b hb => h b (.tail _ hb)]
    rfl

lemma Represents.fromSlice (h : s.Represents) (g : G) :
    fromSlice (List (List UInt8)) ((s.values (refsKey g)).getD (ascii "[]")) =
      some ((s.lists g).map (toVec ·.1)) := by
  rw [h.refs, fromSlice_toVec]

lemma Represents.readList (h : s.Represents) (g : G) :
    readList R s.values "ProposalQueueRefs" (toVec g) = .ok ((s.lists g).map (·.1)) := by
  have hlist : ((s.lists g).map (toVec ·.1)).mapM (decode R .serialization) =
      .ok ((s.lists g).map (·.1)) := by
    rw [mapM_map]
    exact mapM_eq_ok fun x _ => decode_toVec _ _
  have hrefs := h.refs g
  rw [← hlist, NullStorage.readList, ← refsKey]
  cases hv : s.values (refsKey g) with
  | none =>
    have hnil : toVec ([] : List (List UInt8)) = toVec ((s.lists g).map (toVec ·.1)) := by
      rw [← hrefs, hv]
      rfl
    rw [← toVec_injective hnil]
    rfl
  | some listBytes =>
    rw [hv, Option.getD_some] at hrefs
    simp only [hrefs, decode_toVec]
    rfl

variable {p : P}

lemma queuedProposal_of_entry (h : s.values (entryKey g r) = some (toVec p)) :
    queuedProposal P s.values g r = .ok (r, p) := by
  have h : s.values (buildKeyFromVec "QueuedProposal" (toVec (g, r))) = some (toVec p) := h
  simp only [queuedProposal, NullStorage.read, h, decode_toVec]
  rfl

lemma Represents.refines (h : s.Represents) : s.Refines := by
  refine ⟨fun g => ?_, h.noOrphans⟩
  unfold queuedProposals
  rw [h.readList g]
  show ((s.lists g).map (·.1)).mapM _ = _
  rw [mapM_map, mapM_eq_ok (g := id), map_id]
  exact fun x hx => queuedProposal_of_entry (h.entries g x hx)

lemma Refines.entry (h : s.Refines) {p' : P} (hmem : (r, p') ∈ s.lists g)
    (hentry : s.values (entryKey g r) = some (toVec p)) : p' = p := by
  obtain ⟨refs, -, hq⟩ := bind_inv (h.1 g)
  generalize s.lists g = l at hq hmem
  induction refs generalizing l with
  | nil =>
    cases hq
    cases hmem
  | cons r0 refs ih =>
    rw [mapM_cons] at hq
    obtain ⟨x, hx, hq⟩ := bind_inv hq
    obtain ⟨xs, hxs, hq⟩ := bind_inv hq
    cases hq
    rcases mem_cons.mp hmem with rfl | hmem
    · obtain ⟨o, -, hx'⟩ := bind_inv hx
      obtain rfl : r0 = r := by
        cases o with
        | none => cases hx'
        | some p0 => exact (Prod.mk.inj (pure_eq_ok.mp hx')).1
      rw [queuedProposal_of_entry hentry, Except.ok.injEq, Prod.mk.injEq] at hx
      exact hx.2.symm
    · exact ih xs hxs hmem

/-! ## Calls -/

lemma Represents.queueProposal (h : s.Represents) (g : G) (r : R) (p : P) :
    (queueProposal s.values g r p).1 =
      Function.update (Function.update s.values (entryKey g r) (some (toVec p))) (refsKey g)
        (some (toVec ((s.lists g ++ [(r, p)]).map (toVec ·.1)))) := by
  have hrefs := h.fromSlice g
  have hread : write s.values "QueuedProposal" (toVec (g, r)) (toVec p) (refsKey g) =
      s.values (refsKey g) :=
    update_of_ne (entryKey_ne_refsKey g g r).symm _ _
  unfold NullStorage.queueProposal append
  simp only
  rw [show buildKeyFromVec "ProposalQueueRefs" (toVec g) = refsKey g from rfl, hread, hrefs]
  simp only [map_append, map_cons, map_nil]
  rfl

lemma Represents.clearProposalQueue (h : s.Represents) (g : G) :
    (clearProposalQueue R s.values g).1 =
      Function.update (((s.lists g).map (·.1)).foldl (fun values r =>
        Function.update values (toVec (g, r)) none) s.values) (refsKey g) none := by
  unfold NullStorage.clearProposalQueue
  rw [h.readList g]
  rfl

variable [DecidableEq G] [DecidableEq R]

/-- `ProposalStore::add`, `remove` and `empty`, and the storage after the call. -/
def apply (s : Tracked G R P) : ProposalOp G R P → Tracked G R P
  | .queue g r p => ⟨(queueProposal s.values g r p).1,
      Function.update s.lists g (s.lists g ++ [(r, p)])⟩
  | .remove g r => ⟨(removeProposal s.values g r).1,
      Function.update s.lists g ((s.lists g).eraseP (·.1 = r))⟩
  | .clear g => ⟨(clearProposalQueue R s.values g).1, Function.update s.lists g []⟩

def after (ops : List (ProposalOp G R P)) : Tracked G R P := ops.foldl apply ⟨.empty, fun _ => []⟩

section

variable (h : s.Represents)
include h

lemma Represents.queue (hfit : s.Fits (.queue g r p)) :
    (s.apply (.queue g r p)).Represents := by
  have hmem : ∀ g' x, x ∈ Function.update s.lists g (s.lists g ++ [(r, p)]) g' ↔
      x ∈ s.lists g' ∨ g' = g ∧ x = (r, p) := by
    intro g' x
    rcases eq_or_ne g' g with rfl | hne
    · simp
    · simp [hne]
  unfold apply
  simp only [h.queueProposal g r p]
  refine ⟨fun g' => ?_, fun g' x hx => ?_, fun key value hvalue hprefix => ?_⟩
  · rcases eq_or_ne g' g with rfl | hne
    · simp
    · have hkey : refsKey g' ≠ refsKey g := fun hkey => hne (refsKey_inj.mp hkey)
      simp [hne, hkey, (entryKey_ne_refsKey g g' r).symm, h.refs g']
  · dsimp only at hx ⊢
    rw [update_of_ne (entryKey_ne_refsKey g' g x.1)]
    rcases (hmem g' x).mp hx with hold | ⟨rfl, rfl⟩
    · by_cases hkey : entryKey g' x.1 = entryKey g r
      · obtain ⟨rfl, hr⟩ := entryKey_inj.mp hkey
        rw [hkey, update_self, hfit x.2 (hr ▸ hold)]
      · rw [update_of_ne hkey, h.entries g' x hold]
    · exact update_self _ _ _
  · have hrefs : key ≠ refsKey g := fun hkey => not_isPrefix_refsKey g (hkey ▸ hprefix)
    by_cases hkey : key = entryKey g r
    · exact ⟨g, (r, p), (hmem g _).mpr (.inr ⟨rfl, rfl⟩), hkey⟩
    · obtain ⟨g', x, hx, rfl⟩ := h.noOrphans key value (by simpa [hrefs, hkey] using hvalue) hprefix
      exact ⟨g', x, (hmem g' x).mpr (.inl hx), rfl⟩

variable {op : ProposalOp G R P}

/-- **A call that fits keeps the representation.** -/
lemma Represents.apply (hfit : s.Fits op) : (s.apply op).Represents := by
  cases op with
  | queue g r p => exact h.queue hfit
  | remove g r =>
    have hlists : (s.lists g).eraseP (·.1 = r) = s.lists g :=
      eraseP_of_forall_not fun x hx => by simpa using hfit x hx
    unfold Tracked.apply
    simp only [hlists, update_eq_self, removeProposal]
    exact h
  | clear g =>
    have hfit : s.lists g = [] := hfit
    have hlists : Function.update s.lists g [] = s.lists := by
      rw [← hfit, update_eq_self]
    unfold Tracked.apply
    simp only [h.clearProposalQueue g, hfit, hlists, map_nil, foldl_nil]
    refine ⟨fun g' => ?_, fun g' x hx => ?_, fun key value hvalue hprefix => ?_⟩
    · rcases eq_or_ne g' g with rfl | hne
      · simp only [hfit, update_self]
        rfl
      · have hkey : refsKey g' ≠ refsKey g := fun hkey => hne (refsKey_inj.mp hkey)
        rw [← h.refs g']
        exact congrArg (Option.getD · _) (update_of_ne hkey _ _)
    · dsimp only
      rw [update_of_ne (entryKey_ne_refsKey g' g x.1), h.entries g' x hx]
    · have hrefs : key ≠ refsKey g := fun hkey => not_isPrefix_refsKey g (hkey ▸ hprefix)
      exact h.noOrphans key value ((update_of_ne hrefs _ _).symm.trans hvalue) hprefix

lemma Represents.entry_clear {x : R × P} (hx : x ∈ s.lists g) :
    (s.apply (.clear g)).values (entryKey g x.1) = some (toVec x.2) := by
  unfold Tracked.apply
  simp only [h.clearProposalQueue g]
  rw [update_of_ne (entryKey_ne_refsKey g g x.1), ← h.entries g x hx]
  generalize (s.lists g).map (·.1) = refs
  generalize s.values = values
  induction refs generalizing values with
  | nil => rfl
  | cons r refs ih =>
    rw [foldl_cons, ih]
    exact update_of_ne (entryKey_ne_toVec g g x.1 r) _ _

/-- **Only a call that fits leads to the right list.** -/
lemma Represents.fits (hop : (s.apply op).Refines) : s.Fits op := by
  cases op with
  | queue g r p =>
    intro p' hp'
    refine hop.entry (g := g) (r := r) ?_ ?_
    · simp [Tracked.apply, hp']
    · unfold Tracked.apply
      simp only [h.queueProposal g r p]
      rw [update_of_ne (entryKey_ne_refsKey g g r), update_self]
  | remove g r =>
    intro x hx hr
    have hq : (s.apply (.remove g r)).lists g = s.lists g :=
      Exec.unique (hop.1 g) (h.refines.1 g)
    have hlen : ((s.lists g).eraseP (·.1 = r)).length = (s.lists g).length := by
      simpa [Tracked.apply] using congrArg List.length hq
    have hlt := length_eraseP_of_mem hx (p := fun x : R × P => decide (x.1 = r)) (by simpa)
    have hpos := length_pos_of_mem hx
    omega
  | clear g =>
    refine eq_nil_iff_forall_not_mem.mpr fun x hx => ?_
    obtain ⟨g', y, hy, hkey⟩ := hop.2 _ _ (h.entry_clear hx) (isPrefix_entryKey g x.1)
    obtain ⟨rfl, -⟩ := entryKey_inj.mp hkey
    simp [Tracked.apply] at hy

end

end Tracked

/-! ## Sequences of calls -/

open Tracked

variable [DecidableEq G] [DecidableEq R] [Serde P]

lemma represents_empty : (after [] : Tracked G R P).Represents :=
  ⟨fun _ => rfl, fun _ _ hx => (not_mem_nil hx).elim, fun _ _ h => by cases h⟩

lemma after_concat (ops : List (ProposalOp G R P)) (op : ProposalOp G R P) :
    after (ops ++ [op]) = (after ops).apply op := by
  simp [after]

/-- **When the storage is the list of proposals**: no queued proposal is removed, no queue that is
    not empty is cleared, and no reference is queued again with another proposal. -/
theorem proposals_refine_iff (ops : List (ProposalOp G R P)) :
    (∀ pre, pre <+: ops → (after pre).Refines) ↔
      ∀ pre op, pre ++ [op] <+: ops → (after pre).Fits op := by
  constructor
  · intro h
    have hrep : ∀ pre, pre <+: ops → (after pre).Represents := by
      intro pre
      induction pre using List.reverseRecOn with
      | nil => exact fun _ => represents_empty
      | append_singleton pre op ih =>
        intro hpre
        have hrep := ih ((prefix_append pre [op]).trans hpre)
        have hop := h _ hpre
        rw [after_concat] at hop ⊢
        exact hrep.apply (hrep.fits hop)
    intro pre op hpre
    have hop := h _ hpre
    rw [after_concat] at hop
    exact (hrep pre ((prefix_append pre [op]).trans hpre)).fits hop
  · intro h pre hpre
    suffices hrep : (after pre).Represents from hrep.refines
    induction pre using List.reverseRecOn with
    | nil => exact represents_empty
    | append_singleton pre op ih =>
      rw [after_concat]
      exact (ih ((prefix_append pre [op]).trans hpre)).apply (h pre op hpre)

/-- One proposal is queued, and then something else happens. -/
def queuedThen (op : ProposalOp (List UInt8) UInt8 UInt8) : Tracked (List UInt8) UInt8 UInt8 :=
  after [.queue [1] 2 3, op]

/-- **A cleared entry stays in the map, a removed proposal stays in the queue.** -/
theorem cleared_entry_stays :
    ((queuedThen (.clear [1])).values (entryKey [(1 : UInt8)] (2 : UInt8)) = some (ascii "3") ∧
      (queuedThen (.clear [1])).lists [1] = []) ∧
    (queuedProposals UInt8 UInt8 (queuedThen (.remove [1] 2)).values [(1 : UInt8)] = .ok [(2, 3)] ∧
      (queuedThen (.remove [1] 2)).lists [1] = []) := by
  refine ⟨⟨?_, ?_⟩, ?_, ?_⟩ <;> decide +kernel

end EmulatedMls.NullStorage
