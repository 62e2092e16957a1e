import EmulatedMls.Orchestrator.NoPanic

/-!
# Who gets the committer slots

The first `max_active_committers` slots of the vector belong to the committers.  Under `first` a
new member is to stay behind them, and under `last` it is to be one of them.

**Source.**  The loop over `new_members` in `process_commit` of
`emulated_client/src/orchestrator.rs`.

**First.**  The samples start at `min(max_active_committers, total_members - 1)`.  The members of
the vector are usually members of the group, and then the total is larger than the committers as
soon as their slots are full.  A committer that commits to proposals does not tell its orchestrator
whom it removed, and then the total can be as small as the committers, and the sample hits them.

**Last.**  Every sample is 0.  Once the committer slots are full, each new member takes the first
slot from the new member before it.
-/

namespace EmulatedMls.Orchestrator

open List Reservoir

variable {R : Rng} {o : Orchestrator} {total : ℕ} {known xs names newMembers : List String}
  {seed : List UInt8}

/-- New members that are distinct and that the replica does not know yet. -/
structure Fresh (o : Orchestrator) (newMembers : List String) : Prop where
  distinct : newMembers.Nodup
  named : "" ∉ newMembers
  unknown : ∀ x ∈ newMembers, x ∉ o.knownMembers

/-- The vector that a commit leads to, whenever the call returns. -/
def Seats (R : Rng) (o : Orchestrator) (seed : List UInt8) (total : ℕ)
    (newMembers known : List String) : Prop :=
  (∃ g, seatMembers R o.parameters total newMembers
    (o.knownMembers, R.fromSeed (seedArray seed)) = .ok (known, g)) ∧
  ∀ fuel r, processCommit R fuel o seed total newMembers = .ok r →
    r.orchestrator.knownMembers = known

lemma seats_of_seatMembers {g : R.State}
    (h : seatMembers R o.parameters total newMembers
      (o.knownMembers, R.fromSeed (seedArray seed)) = .ok (known, g)) :
    Seats R o seed total newMembers known := by
  refine ⟨⟨g, h⟩, fun fuel r hr => ?_⟩
  obtain ⟨-, -, g', hseat⟩ := processCommit_frame hr
  exact (Prod.mk.inj (Exec.unique hseat h)).1

def activeMembers (known : List String) : List String := known.filter (· ≠ "")

def committers (p : OrchestratedParameters) (known : List String) : List String :=
  activeMembers (known.take p.maxActiveCommitters)

section

variable (h : Padded known xs)
include h

lemma Padded.activeMembers : activeMembers known = xs := by
  obtain ⟨hxs, m, rfl⟩ := h
  rw [Orchestrator.activeMembers, filter_append, filter_eq_self.mpr, filter_replicate]
  · simp
  · intro x hx
    have hne : x ≠ "" := fun he => hxs (he ▸ hx)
    simpa using hne

lemma Padded.take (n : ℕ) : Padded (known.take n) (xs.take n) := by
  obtain ⟨hxs, m, rfl⟩ := h
  refine ⟨fun hmem => hxs (mem_of_mem_take hmem), min (n - xs.length) m, ?_⟩
  rw [take_append, take_replicate]

lemma Padded.take_eq {n : ℕ} (hn : n ≤ xs.length) :
    known.take n = xs.take n := by
  obtain ⟨-, m, rfl⟩ := h
  exact take_append_of_le_length hn

lemma Padded.committers (p : OrchestratedParameters) :
    committers p known = xs.take p.maxActiveCommitters :=
  (h.take _).activeMembers

end

lemma seats_offers (ho : Reachable o) (h : Padded o.knownMembers xs)
    (hroom : o.parameters.maxActiveCommitters ≤ o.parameters.maxActiveProcessers ∨
      xs.length + newMembers.length ≤ o.parameters.maxActiveProcessers)
    (htotal : 0 < total) (hnamed : "" ∉ newMembers) (R : Rng) (seed : List UInt8) :
    ∃ offered known, Seats R o seed total newMembers known ∧
      offered.map Prod.snd = newMembers ∧ (∀ q ∈ offered, Sampled o.parameters total q.1) ∧
      Padded known (offers o.parameters.maxActiveCommitters o.parameters.maxActiveProcessers
        offered xs) := by
  obtain ⟨offered, known, g, hseat, hmap, hall, hpadded, -⟩ :=
    seatMembers_offers (R := R) hroom htotal h ho.padded.2 hnamed (R.fromSeed (seedArray seed))
  exact ⟨offered, known, seats_of_seatMembers hseat, hmap, hall, hpadded⟩

/-! ## The policy `first` -/

section First

variable {p : OrchestratedParameters} {offered : List (ℕ × String)} {s : ℕ}

lemma Sampled.committers_le (hfirst : p.authPolicy = .first) (h : Sampled p total s)
    (hlt : p.maxActiveCommitters < total) : p.maxActiveCommitters ≤ s := by
  simp only [Sampled, hfirst] at h
  omega

lemma Sampled.eq_pred (hfirst : p.authPolicy = .first) (h : Sampled p total s)
    (hle : total ≤ p.maxActiveCommitters) : s + 1 = total := by
  simp only [Sampled, hfirst] at h
  omega

/-- **The committer slots under `first`.** -/
lemma take_offers_first_iff (hp : Sized p) (hfirst : p.authPolicy = .first)
    (hall : ∀ q ∈ offered, Sampled p total q.1) (hnew : (offered.map Prod.snd).Nodup)
    (hfresh : ∀ x ∈ offered.map Prod.snd, x ∉ xs) :
    (offers p.maxActiveCommitters p.maxActiveProcessers offered xs).take p.maxActiveCommitters =
        (xs ++ offered.map Prod.snd).take p.maxActiveCommitters ↔
      offered = [] ∨ xs.length + offered.length ≤ p.maxActiveCommitters ∨
        p.maxActiveCommitters < total := by
  constructor
  · intro heq
    by_contra hnot
    simp only [not_or, not_le, not_lt] at hnot
    obtain ⟨hne, hover, htotal⟩ := hnot
    -- the last new member ends up in the sampled slot, which belonged to another member
    obtain ⟨front, ⟨s, z⟩, rfl⟩ := (eq_nil_or_concat offered).resolve_left hne
    simp only [concat_eq_append] at *
    have hs : s + 1 = total := (hall (s, z) (by simp)).eq_pred hfirst htotal
    simp only [length_append, length_singleton] at hover
    have hlast := getElem?_offers_concat (n := p.maxActiveProcessers) (x := z) (s := s)
      (show p.maxActiveCommitters ≤ xs.length + front.length by omega) (by omega)
      (by have := hp.2; omega)
    have hslot := congrArg (fun l => l[s]?) heq
    simp only [getElem?_take_of_lt (show s < p.maxActiveCommitters by omega), hlast,
      map_append, ← append_assoc] at hslot
    rw [getElem?_append_left (by simp; omega)] at hslot
    have hmem := mem_of_getElem? hslot.symm
    simp only [map_append, map_cons, map_nil] at hnew hfresh
    rcases mem_append.mp hmem with hx | hx
    · exact hfresh z (by simp) hx
    · exact (nodup_append.mp hnew).2.2 z hx z (by simp) rfl
  · rintro (rfl | hfits | hlt)
    · simp [offers]
    · rw [offers_of_le hfits]
    · exact take_offers fun q hq => (hall q hq).committers_le hfirst hlt

end First

/-- **The policy `first` protects the committers** from every reachable state exactly if no one is
    new, the committer slots have room for all, or the total is above the committers. -/
theorem first_protects_iff (ho : Reachable o) (hfirst : o.parameters.authPolicy = .first)
    (hp : Sized o.parameters) (hfresh : Fresh o newMembers) (htotal : 0 < total) (R : Rng)
    (seed : List UInt8) :
    ∃ known, Seats R o seed total newMembers known ∧
      (committers o.parameters known =
          (activeMembers o.knownMembers ++ newMembers).take o.parameters.maxActiveCommitters ↔
        newMembers = [] ∨
          activeCount o.knownMembers + newMembers.length ≤ o.parameters.maxActiveCommitters ∨
          o.parameters.maxActiveCommitters < total) ∧
      ((∀ i < o.parameters.maxActiveCommitters, o.knownMembers[i]? ≠ some "") →
        (known.take o.parameters.maxActiveCommitters =
            o.knownMembers.take o.parameters.maxActiveCommitters ↔
          newMembers = [] ∨ o.parameters.maxActiveCommitters < total)) := by
  obtain ⟨⟨xs, hxs⟩, hlen⟩ := ho.padded
  obtain ⟨offered, known, hseats, rfl, hall, hknown⟩ :=
    seats_offers ho hxs (.inl hp.2) htotal hfresh.named R seed
  have hiff := take_offers_first_iff hp hfirst hall hfresh.distinct
    fun x hx hmem => hfresh.unknown x hx (hxs.mem hmem)
  refine ⟨known, hseats, ?_, fun hfull => ?_⟩
  · rw [hknown.committers, hxs.activeMembers, hxs.activeCount, length_map, map_eq_nil_iff]
    exact hiff
  · -- the occupied slots reach past the committers
    have hle : o.parameters.maxActiveCommitters ≤ xs.length := by
      by_contra hlt
      exact hfull xs.length (Nat.lt_of_not_le hlt)
        (hxs.getElem?_eq_empty (le_refl _) (by have := hp.2; omega))
    have hgrown : xs.length ≤ (offers o.parameters.maxActiveCommitters
      o.parameters.maxActiveProcessers offered xs).length := length_offers.1
    rw [hknown.take_eq (hle.trans hgrown), hxs.take_eq hle, map_eq_nil_iff]
    rw [take_append_of_le_length hle] at hiff
    rw [hiff]
    constructor
    · rintro (h | h | h)
      · exact .inl h
      · exact .inl (length_eq_zero_iff.mp (by omega))
      · exact .inr h
    · rintro (h | h)
      · exact .inl h
      · exact .inr (.inr h)

def protectedPair : Client.Config := ⟨.orchestrator ⟨2, 2, .first⟩, Rng.scripted, 1, fun _ => []⟩

/-- `A` and `B` hold the two committer slots and keep them when `C` joins. -/
theorem first_protects_iff_third :
    ∃ r1 r2, processCommit Rng.scripted 1 (new "A" ⟨2, 2, .first⟩ []) [] 1 ["A"] = .ok r1 ∧
      processCommit Rng.scripted 1 r1.orchestrator [0, 1] 2 ["B"] = .ok r2 ∧
      ∀ (R : Rng) seed, ∃ known, Seats R r2.orchestrator seed 3 ["C"] known ∧
        known.take 2 = ["A", "B"] := by
  have h1 : processCommit Rng.scripted 1 (new "A" ⟨2, 2, .first⟩ []) [] 1 ["A"] =
      .ok ⟨⟨"A", 0, ⟨2, 2, .first⟩, ["A", ""]⟩, .commit, some 0, some 0, []⟩ := rfl
  have h2 : processCommit Rng.scripted 1 ⟨"A", 0, ⟨2, 2, .first⟩, ["A", ""]⟩ [0, 1] 2 ["B"] =
      .ok ⟨⟨"A", 0, ⟨2, 2, .first⟩, ["A", "B"]⟩, .listen, some 1, none, []⟩ := rfl
  refine ⟨_, _, h1, h2, fun R seed => ?_⟩
  have hreach : Reachable ⟨"A", 0, ⟨2, 2, .first⟩, ["A", "B"]⟩ :=
    ((Reachable.create "A" ⟨2, 2, .first⟩).commit (by decide) h1).commit (by decide) h2
  have hfresh : Fresh ⟨"A", 0, ⟨2, 2, .first⟩, ["A", "B"]⟩ ["C"] :=
    ⟨by decide, by decide, by decide⟩
  obtain ⟨known, hseats, -, hkept⟩ :=
    first_protects_iff hreach rfl ⟨by decide, by decide⟩ hfresh (show 0 < 3 by decide) R seed
  exact ⟨known, hseats, (hkept (by decide)).mpr (.inr (by decide))⟩

/-- **A committer slot that is taken away.**  `A` adds `B`, removes it, which its orchestrator is
    not told, and adds `C`, whose sample is the second committer slot. -/
theorem first_committer_replaced :
    ∃ r u u', (Client.User.new "A").createGroup protectedPair .fine = .ok r ∧
      r.user.calls protectedPair [(0, .propose (.add "B")), (1, .commitToProposals 1),
        (2, .propose (.remove "B")), (3, .commitToProposals 1)] = .ok u ∧
      u.calls protectedPair [(4, .propose (.add "C")), (5, .commitToProposals 1)] = .ok u' ∧
      u.orchestrator = some ⟨"A", 0, ⟨2, 2, .first⟩, ["A", "B"]⟩ ∧
      u'.group.map (·.members) = some ["A", "C"] ∧
      u'.orchestrator.map (·.knownMembers) = some ["A", "C"] := by
  refine ⟨_, _, _, rfl, rfl, rfl, ?_⟩
  decide +kernel

/-! ## The policy `last` -/

section Last

variable {c n : ℕ} {offered : List (ℕ × String)}

lemma mem_take_of_getElem? {l : List String} {i : ℕ} {x : String} (hi : i < c)
    (h : l[i]? = some x) : x ∈ l.take c :=
  mem_of_getElem? ((getElem?_take_of_lt hi).trans h)

lemma displaced_not_mem_take {w z : String} (hc : 0 < c) (hcn : c ≤ n) (hlen : c ≤ xs.length)
    (hw : w ∉ xs) (hne : w ≠ z) : w ∉ (offer c n 0 z (offer c n 0 w xs)).take c := by
  intro hmem
  obtain ⟨i, hi⟩ := mem_iff_getElem?.mp hmem
  have hic : i < c := by
    have := (List.getElem?_eq_some_iff.mp hi).1
    simp only [length_take] at this
    omega
  rw [getElem?_take_of_lt hic] at hi
  have hgrown : xs.length ≤ (offer c n 0 w xs).length := le_length_offer
  rcases Nat.eq_zero_or_pos i with rfl | hpos
  · rw [getElem?_offer_self (by omega) (by omega) (by omega)] at hi
    exact hne (Option.some.inj hi).symm
  · rw [getElem?_offer (by omega) fun _ => by omega, getElem?_offer (by omega) fun _ => by omega]
      at hi
    exact hw (mem_of_getElem? hi)

/-- **The new members in the first slots, when every sample is 0.** -/
lemma mem_take_offers_zero_iff (hcn : c ≤ n) (hzero : ∀ q ∈ offered, q.1 = 0)
    (hnew : (offered.map Prod.snd).Nodup) (hfresh : ∀ x ∈ offered.map Prod.snd, x ∉ xs)
    (hpos : 0 < offered.length) (hle : offered.length ≤ c) :
    (∀ x ∈ offered.map Prod.snd, x ∈ (offers c n offered xs).take c) ↔
      offered.length ≤ c - xs.length + 1 := by
  constructor
  · intro hall
    by_contra hmany
    obtain ⟨rest, ⟨s2, z⟩, rfl⟩ :=
      (eq_nil_or_concat offered).resolve_left (length_pos_iff.mp hpos)
    simp only [concat_eq_append, length_append, length_singleton] at *
    obtain ⟨front, ⟨s1, w⟩, rfl⟩ := (eq_nil_or_concat rest).resolve_left
      (length_pos_iff.mp (by omega))
    simp only [concat_eq_append, length_append, length_singleton] at *
    obtain rfl : s1 = 0 := hzero (s1, w) (by simp)
    obtain rfl : s2 = 0 := hzero (s2, z) (by simp)
    simp only [map_append, map_cons, map_nil] at hnew hfresh hall
    have hfull : c ≤ (offers c n front xs).length :=
      (Nat.le_min.mpr ⟨le_refl c, by omega⟩).trans length_offers.2
    have hw : w ∉ offers c n front xs := by
      intro hmem
      rcases mem_offers hmem with h | h
      · exact (nodup_append.mp (nodup_append.mp hnew).1).2.2 w h w (by simp) rfl
      · exact hfresh w (by simp) h
    have hne : w ≠ z := (nodup_append.mp hnew).2.2 w (by simp) z (by simp)
    have hin := hall w (by simp)
    rw [offers_append, offers_append] at hin
    exact displaced_not_mem_take (by omega) hcn hfull hw hne hin
  · intro hfew x hx
    rcases Nat.lt_or_ge c (xs.length + offered.length) with hover | hfits
    swap
    · rw [offers_of_le hfits, take_of_length_le (by simpa using hfits)]
      exact mem_append_right _ hx
    -- one member more than there are free slots: the last one takes the first slot
    obtain ⟨front, ⟨s, z⟩, rfl⟩ :=
      (eq_nil_or_concat offered).resolve_left (length_pos_iff.mp hpos)
    simp only [concat_eq_append, length_append, length_singleton] at *
    obtain rfl : s = 0 := hzero (s, z) (by simp)
    rw [map_append, mem_append] at hx
    rcases hx with hx | hx
    · have hfront : 0 < front.length := by
        rw [← length_map (f := Prod.snd)]
        exact length_pos_of_mem hx
      obtain ⟨j, hj⟩ := mem_iff_getElem?.mp hx
      have hjlt := (List.getElem?_eq_some_iff.mp hj).1
      simp only [length_map] at hjlt
      refine mem_take_of_getElem? (show xs.length + j < c by omega) ?_
      have happended : offers c n front xs = xs ++ front.map Prod.snd := offers_of_le (by omega)
      rw [offers_append, happended]
      refine (getElem?_offer (by simp; omega) fun _ => by omega).trans ?_
      rw [getElem?_append_right (by omega), Nat.add_sub_cancel_left, hj]
    · obtain rfl : x = z := by simpa using hx
      exact mem_take_of_getElem? (by omega)
        (getElem?_offers_concat (by omega) (by omega) (by omega))

end Last

/-- **The policy `last` promotes all new members** exactly if at most one of them finds the
    committer slots full, and the vector has room for them or for the committers. -/
theorem last_promotes_iff (ho : Reachable o) (hlast : o.parameters.authPolicy = .last)
    (hfresh : Fresh o newMembers) (hpos : 1 ≤ newMembers.length)
    (hle : newMembers.length ≤ o.parameters.maxActiveCommitters) (htotal : 0 < total) (R : Rng)
    (seed : List UInt8) :
    (∃ known, Seats R o seed total newMembers known ∧
      ∀ x ∈ newMembers, x ∈ committers o.parameters known) ↔
    newMembers.length ≤ o.parameters.maxActiveCommitters - activeCount o.knownMembers + 1 ∧
      (o.parameters.maxActiveCommitters ≤ o.parameters.maxActiveProcessers ∨
        activeCount o.knownMembers + newMembers.length ≤ o.parameters.maxActiveProcessers) := by
  obtain ⟨⟨xs, hxs⟩, hlen⟩ := ho.padded
  rw [hxs.activeCount]
  by_cases hroom : o.parameters.maxActiveCommitters ≤ o.parameters.maxActiveProcessers ∨
      xs.length + newMembers.length ≤ o.parameters.maxActiveProcessers
  swap
  · -- the vector overflows, and nobody is seated
    refine iff_of_false ?_ fun h => hroom h.2
    rintro ⟨known, ⟨⟨g, hseat⟩, -⟩, -⟩
    simp only [not_or, not_le] at hroom
    rw [seatMembers_overflow hroom.1 htotal hxs hlen hfresh.named hroom.2] at hseat
    cases hseat
  obtain ⟨offered, known, hseats, rfl, hall, hknown⟩ :=
    seats_offers ho hxs hroom htotal hfresh.named R seed
  have hzero : ∀ q ∈ offered, q.1 = 0 := by
    intro q hq
    simpa only [Sampled, hlast] using hall q hq
  have hunknown : ∀ x ∈ offered.map Prod.snd, x ∉ xs :=
    fun x hx hmem => hfresh.unknown x hx (hxs.mem hmem)
  have hunique : ∀ known', Seats R o seed total (offered.map Prod.snd) known' → known' = known := by
    rintro known' ⟨⟨g', hseat'⟩, -⟩
    obtain ⟨⟨g, hseat⟩, -⟩ := hseats
    exact (Prod.mk.inj (Exec.unique hseat' hseat)).1
  simp only [length_map] at hpos hle hroom ⊢
  have hiff : (∀ x ∈ offered.map Prod.snd, x ∈ committers o.parameters known) ↔
      offered.length ≤ o.parameters.maxActiveCommitters - xs.length + 1 := by
    rw [hknown.committers]
    rcases Nat.lt_or_ge o.parameters.maxActiveProcessers o.parameters.maxActiveCommitters with
      hpc | hcp
    · have hfits : xs.length + offered.length ≤ o.parameters.maxActiveCommitters := by omega
      rw [offers_of_le hfits, take_of_length_le (by simpa using hfits)]
      exact iff_of_true (fun x hx => mem_append_right _ hx) (by omega)
    · exact mem_take_offers_zero_iff hcp hzero hfresh.distinct hunknown hpos hle
  rw [← hiff]
  constructor
  · rintro ⟨known', hseats', hmem⟩
    obtain rfl := hunique known' hseats'
    exact ⟨hmem, hroom⟩
  · rintro ⟨hmem, -⟩
    exact ⟨known, hseats, hmem⟩

/-- The creator invites two members, which take the free committer slot and its own. -/
theorem last_promotes_iff_pair :
    ∃ r, processCommit Rng.scripted 1 (new "A" ⟨2, 2, .last⟩ []) [] 1 ["A"] = .ok r ∧
      ∀ (R : Rng) seed, ∃ known, Seats R r.orchestrator seed 3 ["B", "C"] known ∧
        ∀ x ∈ ["B", "C"], x ∈ committers ⟨2, 2, .last⟩ known := by
  have h : processCommit Rng.scripted 1 (new "A" ⟨2, 2, .last⟩ []) [] 1 ["A"] =
      .ok ⟨⟨"A", 0, ⟨2, 2, .last⟩, ["A", ""]⟩, .commit, some 0, some 0, []⟩ := rfl
  refine ⟨_, h, fun R seed => ?_⟩
  have hreach : Reachable ⟨"A", 0, ⟨2, 2, .last⟩, ["A", ""]⟩ :=
    (Reachable.create "A" ⟨2, 2, .last⟩).commit (by decide) h
  exact (last_promotes_iff hreach rfl ⟨by decide, by decide, by decide⟩ (by decide) (by decide)
    (show 0 < 3 by decide) R seed).mpr ⟨by decide, .inl (by decide)⟩

/-- **A displaced new member.**  `C` takes the slot of `A`, and `D` takes it from `C`. -/
theorem last_newcomer_displaced :
    ∃ r1 r2 r3,
      processCommit Rng.scripted 1 (new "A" ⟨2, 2, .last⟩ []) [] 1 ["A"] = .ok r1 ∧
      processCommit Rng.scripted 1 r1.orchestrator [1] 2 ["B"] = .ok r2 ∧
      r2.orchestrator.knownMembers = ["A", "B"] ∧ Fresh r2.orchestrator ["C", "D"] ∧
      processCommit Rng.scripted 1 r2.orchestrator [1] 4 ["C", "D"] = .ok r3 ∧
      r3.orchestrator.knownMembers = ["D", "B"] := by
  refine ⟨_, _, _, rfl, rfl, rfl, ⟨?_, ?_, ?_⟩, rfl, rfl⟩
  all_goals decide

end EmulatedMls.Orchestrator
