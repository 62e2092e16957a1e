import EmulatedMls.Orchestrator.Lockstep

/-!
# When an election finds a winner

The slot that acts is drawn from `0..min(max_active_committers, total_members)`.  The bound is
the size of the MLS group, which counts members without a seat, while the vector is shortened by
removals and refilled only by additions.  The draw may therefore hit an empty slot.
-/

namespace EmulatedMls.Orchestrator

open Exec List

/-! ## Vectors with the empty names at the end -/

/-- The vector holds the non-empty names `xs`, then only empty names. -/
def Padded (known xs : List String) : Prop :=
  "" ∉ xs ∧ ∃ m, known = xs ++ List.replicate m ""

variable {known xs known' newMembers : List String} {i s total hi : ℕ} {name x : String}
  {p : OrchestratedParameters} {R : Rng} {o : Orchestrator} {seed : List UInt8}

section

variable (h : Padded known xs)
include h

lemma Padded.activeCount : activeCount known = xs.length := by
  obtain ⟨hxs, m, rfl⟩ := h
  have hall : xs.filter (· ≠ "") = xs := by
    refine filter_eq_self.mpr fun x hx => ?_
    have hne : x ≠ "" := fun he => hxs (he ▸ hx)
    simpa using hne
  simp only [Orchestrator.activeCount, filter_append, hall, length_append]
  simp

lemma Padded.getElem?_ne_empty (hi : i < xs.length) : ∃ m, known[i]? = some m ∧ m ≠ "" := by
  obtain ⟨hxs, m, rfl⟩ := h
  refine ⟨xs[i], by simp [getElem?_append_left hi], fun he => hxs ?_⟩
  exact he ▸ getElem_mem hi

lemma Padded.getElem?_eq_empty (hi : xs.length ≤ i) (hlen : i < known.length) :
    known[i]? = some "" := by
  obtain ⟨hxs, m, rfl⟩ := h
  have him : i - xs.length < m := by
    simp only [length_append, length_replicate] at hlen
    omega
  simp [getElem?_append_right hi, him]

lemma Padded.set_length (hname : name ≠ "") (hlt : xs.length < known.length) :
    Padded (known.set xs.length name) (xs ++ [name]) := by
  obtain ⟨hxs, m, rfl⟩ := h
  obtain ⟨k, rfl⟩ : ∃ k, m = k + 1 := by
    simp only [length_append, length_replicate] at hlt
    exact ⟨m - 1, by omega⟩
  refine ⟨by simpa [hxs] using hname.symm, k, ?_⟩
  simp [replicate_succ]

lemma Padded.set_lt (hname : name ≠ "") (hi : i < xs.length) :
    Padded (known.set i name) (xs.set i name) := by
  obtain ⟨hxs, m, rfl⟩ := h
  refine ⟨fun hmem => ?_, m, set_append_left i name hi⟩
  rcases mem_or_eq_of_mem_set hmem with hx | hx
  · exact hxs hx
  · exact hname hx.symm

lemma Padded.resize (n : ℕ) : Padded (resize known n "") (xs.take n) := by
  obtain ⟨hxs, m, rfl⟩ := h
  refine ⟨fun hmem => hxs (mem_of_mem_take hmem), ?_⟩
  simp only [EmulatedMls.resize, take_append, take_replicate, append_assoc,
    replicate_append_replicate]
  exact ⟨_, rfl⟩

lemma Padded.filter (f : String → Bool) : Padded (known.filter f) (xs.filter f) := by
  obtain ⟨hxs, m, rfl⟩ := h
  refine ⟨fun hmem => hxs (mem_of_mem_filter hmem), if f "" then m else 0, ?_⟩
  simp only [filter_append, filter_replicate]
  cases f "" <;> simp

end

/-! ## Seating new members -/

lemma length_seat (h : seat p s x known = .ok known') : known'.length = known.length := by
  unfold seat at h
  simp only at h
  split_ifs at h
  · obtain ⟨-, rfl⟩ := store_eq_ok.mp h
    simp
  · obtain ⟨previous, -, h⟩ := bind_inv h
    obtain ⟨moved, hmoved, h⟩ := bind_inv h
    obtain ⟨-, rfl⟩ := store_eq_ok.mp h
    split_ifs at hmoved
    · obtain ⟨-, rfl⟩ := store_eq_ok.mp hmoved
      simp
    · cases hmoved
      simp
  · cases h
    rfl

variable {g g' : R.State}

lemma length_seatMembers {names : List String}
    (h : seatMembers R p total names (known, g) = .ok (known', g')) :
    known'.length = known.length := by
  induction names generalizing known g with
  | nil =>
    cases h
    rfl
  | cons x names ih =>
    obtain ⟨⟨s, g1⟩, -, h⟩ := bind_inv h
    obtain ⟨known1, hone, hrest⟩ := bind_inv h
    exact (ih hrest).trans (length_seat hone)

/-- **Seating one member** keeps the occupied slots a first segment. -/
lemma seat_padded (h : Padded known xs) (hname : name ≠ "")
    (hseat : seat p s name known = .ok known') :
    ∃ xs', Padded known' xs' ∧ xs.length ≤ xs'.length ∧
      (xs.length < p.maxActiveCommitters → xs' = xs ++ [name]) := by
  unfold seat at hseat
  simp only [h.activeCount] at hseat
  split_ifs at hseat with hc hp
  · obtain ⟨hlt, rfl⟩ := store_eq_ok.mp hseat
    exact ⟨xs ++ [name], h.set_length hname hlt, by simp, fun _ => rfl⟩
  · obtain ⟨previous, hprev, hseat⟩ := bind_inv hseat
    rw [index_eq_ok] at hprev
    obtain ⟨moved, hmoved, hseat⟩ := bind_inv hseat
    obtain ⟨hlt, rfl⟩ := store_eq_ok.mp hseat
    have hslen : s < known.length := List.getElem?_eq_some_iff.mp hprev |>.1
    by_cases hs : s < xs.length
    · -- the sampled slot is taken
      obtain ⟨m, hm, hmne⟩ := h.getElem?_ne_empty hs
      obtain rfl : m = previous := Option.mem_unique hm hprev
      rw [Nat.min_eq_right (Nat.le_of_lt hs)]
      split_ifs at hmoved with hroom
      · obtain ⟨hlt', rfl⟩ := store_eq_ok.mp hmoved
        refine ⟨(xs ++ [m]).set s name, (h.set_length hmne hlt').set_lt hname (by simp; omega),
          by simp, fun hlt => absurd hlt hc⟩
      · cases hmoved
        exact ⟨xs.set s name, h.set_lt hname hs, by simp, fun hlt => absurd hlt hc⟩
    · -- the sampled slot is empty: the member is appended
      have hempty := h.getElem?_eq_empty (Nat.le_of_not_lt hs) hslen
      obtain rfl : previous = "" := Option.mem_unique hprev hempty
      simp only [ne_eq, not_true_eq_false, false_and, if_false, pure_eq_ok] at hmoved
      subst hmoved
      rw [Nat.min_eq_left (Nat.le_of_not_lt hs)] at hlt ⊢
      exact ⟨xs ++ [name], h.set_length hname hlt, by simp, fun _ => rfl⟩
  · cases hseat
    exact ⟨xs, h, le_refl _, fun hlt => absurd hlt hc⟩

/-- **Seating the new members** covers as many committer slots as they can. -/
lemma seatMembers_padded :
    ∀ {known known' xs : List String} {g g' : R.State}, Padded known xs → "" ∉ newMembers →
      seatMembers R p total newMembers (known, g) = .ok (known', g') →
      ∃ xs', Padded known' xs' ∧ xs.length ≤ xs'.length ∧
        min p.maxActiveCommitters (xs.length + newMembers.length) ≤ xs'.length := by
  induction newMembers with
  | nil =>
    intro known known' xs g g' h _ hseat
    cases hseat
    exact ⟨xs, h, le_refl _, Nat.min_le_right _ _⟩
  | cons name names ih =>
    intro known known' xs g g' h hnew hseat
    obtain ⟨hname, hnames⟩ : "" ≠ name ∧ "" ∉ names := by simpa using hnew
    obtain ⟨⟨s, g1⟩, -, hseat⟩ := bind_inv hseat
    obtain ⟨known1, hone, hrest⟩ := bind_inv hseat
    obtain ⟨xs1, h1, hle1, happ⟩ := seat_padded h hname.symm hone
    obtain ⟨xs', h', hle', hmin⟩ := ih h1 hnames hrest
    refine ⟨xs', h', le_trans hle1 hle', ?_⟩
    by_cases hc : xs.length < p.maxActiveCommitters
    · rw [happ hc] at hmin
      simp only [length_append, length_cons, length_nil] at hmin ⊢
      omega
    · simp only [length_cons]
      omega

/-! ## Reachable orchestrators -/

/-- The orchestrators a client can hold: a group's creator starts with the empty vector and a
    joiner with the vector of a member, whatever their parameters, and every later call uses
    the generator and the totals of its commit. -/
inductive Reachable : Orchestrator → Prop
  | create (name : String) (p : OrchestratedParameters) : Reachable (new name p [])
  | join {o : Orchestrator} (name : String) (p : OrchestratedParameters) :
      Reachable o → Reachable (new name p o.knownMembers)
  | commit {o : Orchestrator} {R : Rng} {fuel : ℕ} {seed : List UInt8} {total : ℕ}
      {newMembers : List String} {r : Outcome} : Reachable o → "" ∉ newMembers →
      processCommit R fuel o seed total newMembers = .ok r → Reachable r.orchestrator
  | remove {o o' : Orchestrator} {names : List String} : Reachable o →
      removeMembers o names = .ok o' → Reachable o'

/-- In a reachable orchestrator the empty names are a suffix of the vector. -/
lemma Reachable.padded (h : Reachable o) :
    (∃ xs, Padded o.knownMembers xs) ∧
      o.knownMembers.length = o.parameters.maxActiveProcessers := by
  induction h with
  | create name p =>
    exact ⟨⟨[], by simp, p.maxActiveProcessers, by simp [new, resize]⟩, by simp [new]⟩
  | join name p _ ih =>
    obtain ⟨⟨xs, hxs⟩, -⟩ := ih
    exact ⟨⟨_, hxs.resize p.maxActiveProcessers⟩, by simp [new]⟩
  | commit _ hnew hcall ih =>
    obtain ⟨⟨xs, hxs⟩, hlen⟩ := ih
    obtain ⟨-, hparams, g, hseat⟩ := processCommit_frame hcall
    obtain ⟨xs', hxs', -, -⟩ := seatMembers_padded hxs hnew hseat
    exact ⟨⟨xs', hxs'⟩, by rw [length_seatMembers hseat, hlen, hparams]⟩
  | remove _ hcall ih =>
    obtain ⟨⟨xs, hxs⟩, hlen⟩ := ih
    obtain ⟨-, rfl⟩ | ⟨-, rfl⟩ := removeMembers_cases hcall
    · exact ⟨⟨xs, hxs⟩, hlen⟩
    · exact ⟨⟨_, (hxs.filter _).resize _⟩, by simp⟩

/-! ## The draw -/

lemma draw_lt {w : ℕ} (h : R.draw 0 hi g = .ok (w, g')) : w < hi := by
  unfold Rng.draw at h
  split_ifs at h with hlt
  obtain ⟨-, hw⟩ := R.genRange_mem g 0 hi hlt
  rwa [Except.ok.inj h] at hw

lemma reroll_lt :
    ∀ {fuel who : ℕ} {g : R.State} {w : ℕ}, who < hi →
      reroll R newMembers known hi fuel who g = .ok w → w < hi := by
  intro fuel
  induction fuel with
  | zero => intro who g w _ h; simp [reroll] at h
  | succ n ih =>
    intro who g w hwho h
    simp only [reroll] at h
    split_ifs at h with hlen
    · obtain ⟨m, -, h⟩ := bind_inv h
      split_ifs at h with hmem
      · obtain ⟨⟨who', g'⟩, hdraw, h⟩ := bind_inv h
        exact ih (draw_lt hdraw) h
      · exact pure_eq_ok.mp h ▸ hwho
    · exact pure_eq_ok.mp h ▸ hwho

variable {who : ℕ}

lemma Elects.lt (h : Elects R p seed total newMembers known known' who) :
    who < min p.maxActiveCommitters total := by
  obtain ⟨fuel, g, w, g', -, hdraw, hroll⟩ := h
  exact reroll_lt (draw_lt hdraw) hroll

/-- The call found a member at the slot that acts and logged no missing winner. -/
def Outcome.FindsWinner (r : Outcome) : Prop :=
  (∀ who, r.whoActs = some who → ∃ m, r.orchestrator.knownMembers[who]? = some m ∧ m ≠ "") ∧
    ∀ known, .winnerNotFound known ∉ r.errors

lemma winnerNotFound_notMem_inconsistencies (known known' : List String) :
    LogError.winnerNotFound known ∉ inconsistencies known' := by
  simp [inconsistencies]

lemma conclude_findsWinner {pos : ℕ} :
    (conclude o newMembers pos who).FindsWinner ↔
      ∃ m, o.knownMembers[who]? = some m ∧ m ≠ "" := by
  constructor
  · rintro ⟨hfound, -⟩
    simpa using hfound who (by simp)
  · rintro ⟨m, hm, hne⟩
    have herrors : (conclude o newMembers pos who).errors = inconsistencies o.knownMembers := by
      have hfound : o.knownMembers[who]? ≠ some "" := by simpa [hm] using hne
      simp only [conclude, if_neg hfound, append_nil]
      split_ifs <;> rfl
    refine ⟨?_, ?_⟩
    · intro w hw
      obtain rfl : who = w := by simpa using hw
      exact ⟨m, by simpa using hm, hne⟩
    · intro known
      rw [herrors]
      exact winnerNotFound_notMem_inconsistencies known _

/-- When the occupied slots cover the range of the draw, the slot that acts is occupied. -/
lemma findsWinner_of_covered {fuel : ℕ} (ho : Reachable o) (hnew : "" ∉ newMembers)
    (hcov : min o.parameters.maxActiveCommitters total ≤ activeCount o.knownMembers +
      newMembers.length)
    {r : Outcome} (h : processCommit R fuel o seed total newMembers = .ok r) :
    r.FindsWinner := by
  obtain ⟨⟨xs, hxs⟩, -⟩ := ho.padded
  rw [hxs.activeCount] at hcov
  obtain ⟨known, ⟨g, hseat⟩, ⟨-, rfl⟩ | ⟨pos, who, -, helects, rfl⟩⟩ := processCommit_cases h
  · exact ⟨by simp, by simp⟩
  · obtain ⟨xs', hxs', -, hmin⟩ := seatMembers_padded hxs hnew hseat
    have hwho := helects.lt
    exact conclude_findsWinner.mpr (hxs'.getElem?_ne_empty (by omega))

/-! ## Draws that miss -/

/-- The generator that always draws the last value of the range. -/
def highest : Rng where
  State := Unit
  fromSeed _ := ()
  genRange _ _ hi := (hi - 1, ())
  genRange_mem := by intro g lo hi h; exact ⟨by show lo ≤ hi - 1; omega, by show hi - 1 < hi; omega⟩

lemma highest_draw {lo : ℕ} (h : lo < hi) (g : highest.State) :
    highest.draw lo hi g = .ok (hi - 1, ()) := by
  simp [Rng.draw, h, highest]

lemma sample_highest (htotal : 0 < total) (g : highest.State) :
    ∃ s, sample highest p total g = .ok (s, ()) := by
  unfold sample
  cases p.authPolicy with
  | first => exact ⟨_, highest_draw (by omega) g⟩
  | last => exact ⟨0, rfl⟩
  | random => exact ⟨_, highest_draw htotal g⟩

lemma seatMembers_append (htotal : 0 < total) :
    ∀ {known xs : List String} (g : highest.State), Padded known xs → "" ∉ newMembers →
      xs.length + newMembers.length ≤ p.maxActiveCommitters →
      xs.length + newMembers.length ≤ known.length →
      ∃ known', seatMembers highest p total newMembers (known, g) = .ok (known', ()) ∧
        Padded known' (xs ++ newMembers) ∧ known'.length = known.length := by
  induction newMembers with
  | nil =>
    intro known xs g h _ _ _
    exact ⟨known, rfl, by simpa using h, rfl⟩
  | cons name names ih =>
    intro known xs g h hnew hc hlen
    obtain ⟨hname, hnames⟩ : "" ≠ name ∧ "" ∉ names := by simpa using hnew
    simp only [length_cons] at hc hlen
    have hseat : ∀ s, seat p s name known = .ok (known.set xs.length name) := by
      intro s
      unfold seat
      simp only [h.activeCount]
      rw [if_pos (by omega)]
      exact store_eq_ok.mpr ⟨by omega, rfl⟩
    obtain ⟨s, hs⟩ := sample_highest (p := p) htotal g
    obtain ⟨known', hrest, hpad, hlen'⟩ :=
      ih () (h.set_length hname.symm (by omega)) hnames (by simp; omega) (by simp; omega)
    refine ⟨known', ?_, by simpa using hpad, by simpa using hlen'⟩
    exact bind_ok hs (bind_ok (hseat s) hrest)

lemma exists_missed_winner (ho : Reachable o)
    (hcp : o.parameters.maxActiveCommitters ≤ o.parameters.maxActiveProcessers)
    (hnew : "" ∉ newMembers) (hin : o.name ∈ o.knownMembers ∨ o.name ∈ newMembers)
    (hmiss : activeCount o.knownMembers + newMembers.length < min o.parameters.maxActiveCommitters
      total) :
    ∃ r, processCommit highest 1 o [] total newMembers = .ok r ∧ ¬ r.FindsWinner := by
  obtain ⟨⟨xs, hxs⟩, hlen⟩ := ho.padded
  rw [hxs.activeCount] at hmiss
  have htotal : 0 < total := by omega
  obtain ⟨known', hseat, hpad, hlen'⟩ :=
    seatMembers_append (p := o.parameters) htotal (highest.fromSeed (seedArray [])) hxs hnew
      (by omega) (by omega)
  set hi := min o.parameters.maxActiveCommitters total with hhi
  have hempty : known'[hi - 1]? = some "" :=
    hpad.getElem?_eq_empty (by simp; omega) (by omega)
  -- the replica keeps or gets a seat
  have hmem : o.name ∈ known' := by
    obtain ⟨hxs0, m, hm⟩ := hxs
    obtain ⟨-, m', hm'⟩ := hpad
    have hpos : 0 < m' := by
      have := congrArg List.length hm'
      simp only [length_append, length_replicate] at this
      omega
    rw [hm] at hin
    rw [hm']
    simp only [mem_append, mem_replicate] at hin ⊢
    rcases hin with (h | ⟨-, h⟩) | h
    · exact .inl (.inl h)
    · exact .inr ⟨by omega, h⟩
    · exact .inl (.inr h)
  obtain ⟨pos, hpos⟩ : ∃ pos, position known' o.name = some pos := by
    cases hp : position known' o.name with
    | none => exact absurd hmem (position_eq_none.mp hp)
    | some pos => exact ⟨pos, rfl⟩
  have hroll : reroll highest newMembers known' hi 1 (hi - 1) () = .ok (hi - 1) := by
    simp only [reroll]
    split_ifs with hmany
    · exact bind_ok (index_eq_ok.mpr hempty) (by simp [hnew])
    · rfl
  refine ⟨conclude { o with knownMembers := known' } newMembers pos (hi - 1), ?_, ?_⟩
  · refine bind_ok hseat (?_)
    simp only [hpos]
    refine bind_ok (highest_draw (by omega) ()) (?_)
    exact bind_ok hroll rfl
  · rw [conclude_findsWinner]
    rintro ⟨m, hm, hne⟩
    exact hne (Option.mem_unique hm hempty)

/-! ## The exact condition -/

/-- The draw of a commit stays inside the occupied slots. -/
def Covered (o : Orchestrator) (total : ℕ) (newMembers : List String) : Prop :=
  (o.name ∉ o.knownMembers ∧ o.name ∉ newMembers) ∨
    min o.parameters.maxActiveCommitters total ≤ activeCount o.knownMembers + newMembers.length

instance (o : Orchestrator) (total : ℕ) (newMembers : List String) :
    Decidable (Covered o total newMembers) := inferInstanceAs (Decidable (_ ∨ _))

/-- **An election finds a winner exactly when its draw is covered.**  With at least as many
    processers as committers, any other draw misses for some generator. -/
theorem winner_found_iff {o : Orchestrator} (ho : Reachable o) (total : ℕ)
    {newMembers : List String} (hnew : "" ∉ newMembers) :
    (Covered o total newMembers → ∀ (R : Rng) fuel seed r,
      processCommit R fuel o seed total newMembers = .ok r → r.FindsWinner) ∧
    (o.parameters.maxActiveCommitters ≤ o.parameters.maxActiveProcessers →
      (∀ (R : Rng) fuel seed r,
        processCommit R fuel o seed total newMembers = .ok r → r.FindsWinner) →
      Covered o total newMembers) := by
  constructor
  · rintro (⟨hknown, hnotnew⟩ | hcov) R fuel seed r h
    · obtain ⟨known, ⟨g, hseat⟩, ⟨-, rfl⟩ | ⟨pos, who, hpos, -, rfl⟩⟩ := processCommit_cases h
      · exact ⟨by simp, by simp⟩
      · have hmem : o.name ∈ known := mem_of_getElem? (getElem?_of_position hpos)
        rcases mem_of_mem_seatMembers hseat hmem with hx | hx
        · exact absurd hx hknown
        · exact absurd hx hnotnew
    · exact findsWinner_of_covered ho hnew hcov h
  · intro hcp hfinds
    by_contra hnot
    simp only [Covered, not_or, not_and_or, not_not, not_le] at hnot
    obtain ⟨r, hr, hmiss⟩ := exists_missed_winner ho hcp hnew hnot.1 hnot.2
    exact hmiss (hfinds highest 1 [] r hr)

def twoSeats : OrchestratedParameters := ⟨2, 2, .random⟩

/-- `A` and `B` have the two seats, and `C` is added: the draw is covered. -/
theorem winner_found_iff_third :
    ∃ r1, processCommit Rng.scripted 1 (new "A" twoSeats []) [0, 0] 1 ["A"] = .ok r1 ∧
      ∃ r2, processCommit Rng.scripted 1 r1.orchestrator [0, 0] 2 ["B"] = .ok r2 ∧
        Covered r2.orchestrator 3 ["C"] ∧ ∀ (R : Rng) fuel seed r,
          processCommit R fuel r2.orchestrator seed 3 ["C"] = .ok r → r.FindsWinner := by
  obtain ⟨r1, h1, r2, h2, hcov⟩ :
      ∃ r1, processCommit Rng.scripted 1 (new "A" twoSeats []) [0, 0] 1 ["A"] = .ok r1 ∧
        ∃ r2, processCommit Rng.scripted 1 r1.orchestrator [0, 0] 2 ["B"] = .ok r2 ∧
          Covered r2.orchestrator 3 ["C"] := by decide
  have hreachable : Reachable r2.orchestrator :=
    .commit (.commit (.create "A" twoSeats) (by decide) h1) (by decide) h2
  exact ⟨r1, h1, r2, h2, hcov, (winner_found_iff hreachable 3 (by decide)).1 hcov⟩

/-- **A missing winner.**  `C` has got no seat and `B` is removed: the draw between two slots hits
    the empty one and no member commits. -/
theorem winner_missing :
    ∃ r1 r2 r3 o r,
      processCommit Rng.scripted 1 (new "A" twoSeats []) [0, 0] 1 ["A"] = .ok r1 ∧
      processCommit Rng.scripted 1 r1.orchestrator [0, 0] 2 ["B"] = .ok r2 ∧
      processCommit Rng.scripted 1 r2.orchestrator [2, 0] 3 ["C"] = .ok r3 ∧
      removeMembers r3.orchestrator ["B"] = .ok o ∧
      processCommit Rng.scripted 1 o [1] 2 [] = .ok r ∧
      "A" ∈ r.orchestrator.knownMembers ∧ r.whoActs = some 1 ∧
      r.orchestrator.knownMembers[1]? = some "" ∧ .winnerNotFound ["A", ""] ∈ r.errors := by
  refine ⟨_, _, _, _, _, rfl, rfl, rfl, rfl, rfl, ?_⟩
  decide

end EmulatedMls.Orchestrator
