import EmulatedMls.Orchestrator.Shape

/-!
# When the redraws of an election can stop

After a commit with several new members the slot that acts is redrawn until it holds none of
them.  The loop needs a slot in its range that holds another name, and seating the new members may
leave none.
-/

namespace EmulatedMls

open Exec List

/-- The draws from `0..hi` that a generator makes from a state on. -/
def Rng.stream (R : Rng) (hi : ℕ) : R.State → ℕ → ℕ
  | g, 0 => (R.genRange g 0 hi).1
  | g, n + 1 => Rng.stream R hi (R.genRange g 0 hi).2 n

def Rng.Covers (R : Rng) (hi : ℕ) (g : R.State) : Prop := ∀ v < hi, ∃ n, R.stream hi g n = v

def Rng.replay (script : List ℕ) : Rng := { Rng.scripted with fromSeed := fun _ => script }

namespace Orchestrator

open Reservoir

variable {R : Rng} {p : OrchestratedParameters} {total hi who u : ℕ}
  {known xs names newMembers : List String} {g : R.State}

/-! ## The loop -/

/-- A slot of the range holds a name that is not one of the new members. -/
def CanStop (newMembers known : List String) (hi : ℕ) : Prop :=
  ∃ i < hi, ∃ m, known[i]? = some m ∧ m ∉ newMembers

variable {m : String}

lemma reroll_of_not_mem (hm : known[who]? = some m) (hnew : m ∉ newMembers) (fuel : ℕ) :
    reroll R newMembers known hi (fuel + 1) who g = .ok who := by
  simp only [reroll, index_eq_ok.mpr hm, bind, Except.bind, if_neg hnew]
  split_ifs <;> rfl

section

variable (hmany : 1 < newMembers.length)
include hmany

lemma reroll_of_mem (hm : known[who]? = some m) (hnew : m ∈ newMembers) (fuel : ℕ) :
    reroll R newMembers known hi (fuel + 1) who g =
      R.draw 0 hi g >>= fun q => reroll R newMembers known hi fuel q.1 q.2 := by
  simp only [reroll, index_eq_ok.mpr hm, bind, Except.bind, if_pos hnew, if_pos hmany]

/-- **The loop returns** once the stream draws a slot it can stop at. -/
lemma reroll_of_stream (hlen : hi ≤ known.length) (hpos : 0 < hi)
    {n : ℕ} : ∀ {g : R.State} {m : String}, known[R.stream hi g n]? = some m → m ∉ newMembers →
      ∃ fuel w, (R.draw 0 hi g >>= fun q => reroll R newMembers known hi fuel q.1 q.2) = .ok w := by
  induction n with
  | zero =>
    intro g m hm hnew
    refine ⟨1, R.stream hi g 0, bind_ok (if_pos hpos) (?_)⟩
    exact reroll_of_not_mem hm hnew 0
  | succ n ih =>
    intro g m hm hnew
    obtain ⟨fuel, w, hrest⟩ := ih hm hnew
    have hlt := (R.genRange_mem g 0 hi hpos).2
    obtain ⟨m0, hm0⟩ : ∃ m0, known[(R.genRange g 0 hi).1]? = some m0 :=
      ⟨_, getElem?_eq_getElem (hlt.trans_le hlen)⟩
    by_cases hnew0 : m0 ∈ newMembers
    · refine ⟨fuel + 1, w, bind_ok (if_pos hpos) (?_)⟩
      rw [reroll_of_mem hmany hm0 hnew0]
      exact hrest
    · refine ⟨1, (R.genRange g 0 hi).1, bind_ok (if_pos hpos) (?_)⟩
      exact reroll_of_not_mem hm0 hnew0 0

/-- **The loop never returns** when every slot of its range holds a new member. -/
lemma reroll_endless (hlen : hi ≤ known.length) (hstuck : ¬ CanStop newMembers known hi) :
    ∀ {fuel who : ℕ} {g : R.State}, who < hi →
      reroll R newMembers known hi fuel who g = .error .fuel := by
  intro fuel
  induction fuel with
  | zero => intro who g _; rfl
  | succ fuel ih =>
    intro who g hwho
    obtain ⟨m, hm⟩ : ∃ m, known[who]? = some m :=
      ⟨_, getElem?_eq_getElem (by omega)⟩
    have hnew : m ∈ newMembers := by
      by_contra hnot
      exact hstuck ⟨who, hwho, m, hm, hnot⟩
    obtain ⟨who', g', hdraw, -, hlt⟩ := draw_of_lt (R := R) (show 0 < hi by omega) g
    rw [reroll_of_mem hmany hm hnew, hdraw]
    exact ih hlt

variable {o : Orchestrator} {offered : List (ℕ × String)} {log : List LogError}

lemma processCommit_returns {seed : List UInt8}
    (hseat : seatMembers R o.parameters total newMembers (o.knownMembers,
      R.fromSeed (seedArray seed)) = .ok (known, g))
    (hlen : min o.parameters.maxActiveCommitters total ≤ known.length)
    (hstop : CanStop newMembers known (min o.parameters.maxActiveCommitters total))
    (hcov : R.Covers (min o.parameters.maxActiveCommitters total) g) :
    ∃ fuel r, processCommit R fuel o seed total newMembers = .ok r := by
  obtain ⟨i, hi, m, hm, hnew⟩ := hstop
  obtain ⟨n, rfl⟩ := hcov i hi
  obtain ⟨fuel, w, hloop⟩ := reroll_of_stream hmany hlen (by omega) hm hnew
  obtain ⟨⟨who, g'⟩, hdraw, hroll⟩ := bind_inv hloop
  refine ⟨fuel, ?_⟩
  unfold processCommit
  simp only [hseat, bind, Except.bind]
  cases position known o.name with
  | none => exact ⟨_, rfl⟩
  | some pos =>
    simp only [hdraw]
    rw [hroll]
    exact ⟨_, rfl⟩

end

/-! ## Slots that survive the seating -/

/-- The new members leave a slot of the range to stop at. -/
def Stoppable (o : Orchestrator) (total : ℕ) (newMembers : List String) : Prop :=
  newMembers.length < min o.parameters.maxActiveCommitters total ∨
    (o.parameters.authPolicy = .first ∧ 0 < activeCount o.knownMembers) ∨
    (o.parameters.authPolicy = .last ∧
      2 ≤ min (activeCount o.knownMembers) o.parameters.maxActiveCommitters)

instance (o : Orchestrator) (total : ℕ) (newMembers : List String) :
    Decidable (Stoppable o total newMembers) := inferInstanceAs (Decidable (_ ∨ _))

lemma canStop_of_length_lt (hpad : Padded known xs) (hdup : xs.Nodup) (hlen : hi ≤ known.length)
    (hnamed : "" ∉ newMembers) (hlt : newMembers.length < hi) : CanStop newMembers known hi := by
  by_contra hstuck
  have hall : ∀ i < hi, ∃ m, known[i]? = some m ∧ m ∈ newMembers := by
    intro i hi'
    obtain ⟨m, hm⟩ : ∃ m, known[i]? = some m := ⟨_, getElem?_eq_getElem (by omega)⟩
    refine ⟨m, hm, ?_⟩
    by_contra hnot
    exact hstuck ⟨i, hi', m, hm, hnot⟩
  -- a slot past the occupied ones would hold the empty name
  have hocc : hi ≤ xs.length := by
    by_contra hgt
    obtain ⟨m, hm, hnew⟩ := hall xs.length (by omega)
    have hempty := hpad.getElem?_eq_empty (le_refl _) (by omega)
    exact hnamed (Option.mem_unique hm hempty ▸ hnew)
  have hsub : xs.take hi ⊆ newMembers := by
    intro x hx
    obtain ⟨i, hi', rfl⟩ := mem_take_iff_getElem.mp hx
    obtain ⟨m, hm, hnew⟩ := hall i (by omega)
    rw [hpad.getElem? (by omega), getElem?_eq_getElem (by omega)] at hm
    exact Option.some.inj hm ▸ hnew
  have hle := (subperm_of_subset (hdup.sublist (take_sublist _ _)) hsub).length_le
  rw [length_take] at hle
  omega

lemma canStop_of_kept {i : ℕ}
    (hpad : Padded known (offers p.maxActiveCommitters p.maxActiveProcessers offered xs))
    (hold : ∀ x ∈ xs, x ∉ newMembers) (hi' : i < hi) (hlt : i < xs.length)
    (hkept : (offers p.maxActiveCommitters p.maxActiveProcessers offered xs)[i]? = xs[i]?) :
    CanStop newMembers known hi := by
  refine ⟨i, hi', xs[i], ?_, hold _ (getElem_mem hlt)⟩
  rw [hpad.getElem? (hlt.trans_le length_offers.1), hkept, getElem?_eq_getElem hlt]

lemma kept_of_first (hfirst : p.authPolicy = .first) (hc : 1 ≤ p.maxActiveCommitters)
    (hall : ∀ q ∈ offered, Sampled p total q.1) (hcount : xs.length + offered.length ≤ total)
    (hlt : 0 < xs.length) :
    (offers p.maxActiveCommitters p.maxActiveProcessers offered xs)[0]? = xs[0]? := by
  by_cases hfull : p.maxActiveCommitters ≤ total - 1
  · refine getElem?_offers hlt fun q hq => ?_
    have hs := hall q hq
    simp only [Sampled, hfirst] at hs
    omega
  · -- the whole group fits among the committers
    rw [offers_of_le (by omega), getElem?_append_left hlt]

lemma kept_of_last (hlast : p.authPolicy = .last) (hall : ∀ q ∈ offered, Sampled p total q.1)
    (hlt : 1 < xs.length) :
    (offers p.maxActiveCommitters p.maxActiveProcessers offered xs)[1]? = xs[1]? := by
  refine getElem?_offers hlt fun q hq => ?_
  have hs := hall q hq
  simp only [Sampled, hlast] at hs
  omega

/-- **A slot to stop at is left, for every generator.** -/
lemma canStop_of_stoppable (h : Elections o log) (hadm : Admissible o total newMembers)
    (hmany : 2 ≤ newMembers.length) (hstop : Stoppable o total newMembers) (g : R.State) :
    ∃ known g', seatMembers R o.parameters total newMembers (o.knownMembers, g) = .ok (known, g') ∧
      CanStop newMembers known (min o.parameters.maxActiveCommitters total) ∧
      known.length = o.parameters.maxActiveProcessers := by
  obtain ⟨xs, hxs⟩ := h.seated
  obtain ⟨hc, hcp⟩ := h.sized
  obtain ⟨offered, known, g', hseat, hmap, hall, hpad, hdup, hlen⟩ :=
    seatMembers_seated (R := R) h.sized hxs hadm g
  have hcount := hadm.counted
  simp only [Stoppable, hxs.1.activeCount] at hstop hcount
  have hoff : offered.length = newMembers.length := by rw [← hmap, length_map]
  have hold : ∀ x ∈ xs, x ∉ newMembers := fun x hx hnew => hadm.unknown x hnew (hxs.1.mem hx)
  simp only at hpad hlen
  refine ⟨known, g', hseat, ?_, hlen⟩
  rcases hstop with hlt | ⟨hfirst, hpos⟩ | ⟨hlast, htwo⟩
  · exact canStop_of_length_lt hpad hdup (by omega) hadm.named hlt
  · exact canStop_of_kept hpad hold (by omega) hpos
      (kept_of_first hfirst hc hall (by omega) hpos)
  · exact canStop_of_kept hpad hold (by omega) (by omega)
      (kept_of_last hlast hall (by omega))

/-! ## Seatings that leave no slot -/

/-- The policy can sample the slot before `u`. -/
def Reaches (p : OrchestratedParameters) (u : ℕ) : Prop :=
  u = 0 ∨ p.authPolicy = .random ∨ (p.authPolicy = .last ∧ u = 1)

lemma Reaches.pred (h : Reaches p u) : Reaches p (u - 1) := by
  rcases h with rfl | h | ⟨-, rfl⟩
  · exact .inl rfl
  · exact .inr (.inl h)
  · exact .inl rfl

lemma sample_replay (h : Reaches p u) (hu : u ≤ total) (htotal : 0 < total) :
    ∃ script s, (0 < u → s + 1 = u) ∧ ∀ (q rest : List ℕ),
      sample (Rng.replay q) p total (script ++ rest) = .ok (s, rest) := by
  unfold sample
  cases hpol : p.authPolicy with
  | first =>
    have hzero : u = 0 := by simpa [Reaches, hpol] using h
    refine ⟨[0], min p.maxActiveCommitters (total - 1), by omega, fun q rest => ?_⟩
    have hlt : min p.maxActiveCommitters (total - 1) < total := by omega
    simp [Rng.draw, Rng.replay, Rng.scripted, hlt]
  | last =>
    have hone : u = 0 ∨ u = 1 := by simpa [Reaches, hpol] using h
    exact ⟨[], 0, by omega, fun q rest => rfl⟩
  | random =>
    refine ⟨[u - 1], u - 1, by omega, fun q rest => ?_⟩
    have hmod : (u - 1) % total = u - 1 := Nat.mod_eq_of_lt (by omega)
    simp [Rng.draw, Rng.replay, Rng.scripted, htotal, hmod]

/-- **Some draws put a new member in every slot of the committers.** -/
lemma seatMembers_fill (hcp : p.maxActiveCommitters ≤ p.maxActiveProcessers)
    (hsub : ∀ x ∈ names, x ∈ newMembers) (hnames : "" ∉ names) (h : Padded known xs)
    (hlen : known.length = p.maxActiveProcessers) (hreach : Reaches p u)
    (huc : u ≤ p.maxActiveCommitters) (hux : u ≤ xs.length)
    (hcount : xs.length + names.length ≤ total)
    (henough : p.maxActiveCommitters - xs.length + u ≤ names.length)
    (hfill : Filled p.maxActiveCommitters newMembers u xs) :
    ∃ script known' xs', (∀ q : List ℕ, ∃ g',
        seatMembers (Rng.replay q) p total names (known, script) = .ok (known', g')) ∧
      Padded known' xs' ∧ known'.length = p.maxActiveProcessers ∧
      p.maxActiveCommitters ≤ xs'.length ∧ Filled p.maxActiveCommitters newMembers 0 xs' := by
  induction names generalizing known xs u with
  | nil =>
    simp only [length_nil] at henough
    obtain rfl : u = 0 := by omega
    exact ⟨[], known, xs, fun q => ⟨_, rfl⟩, h, hlen, by omega, hfill⟩
  | cons name names ih =>
    obtain ⟨hname, hnames⟩ : "" ≠ name ∧ "" ∉ names := by simpa using hnames
    simp only [length_cons] at hcount henough
    obtain ⟨script1, s, hs, hsample⟩ := sample_replay hreach (by omega) (show 0 < total by omega)
    obtain ⟨known1, hseat, h1, hlen1⟩ := seat_offer h hlen (by omega) hname.symm s
    set u1 := if xs.length < p.maxActiveCommitters then u else u - 1 with hu1
    set xs1 := offer p.maxActiveCommitters p.maxActiveProcessers s name xs with hxs1
    have hfill1 : Filled p.maxActiveCommitters newMembers u1 xs1 :=
      hfill.offer (hsub name mem_cons_self) fun hpos => ⟨hs hpos, by omega⟩
    have hgrow : xs.length ≤ xs1.length := le_length_offer
    have hgrow1 : xs1.length ≤ xs.length + 1 := length_offer_le_succ
    have hfree : xs.length < p.maxActiveCommitters → xs1.length = xs.length + 1 := by
      intro hlt
      rw [hxs1, offer_of_lt hlt, length_append, length_singleton]
    have hreach1 : Reaches p u1 := by
      rw [hu1]
      split_ifs
      · exact hreach
      · exact hreach.pred
    have hle1 : u1 ≤ u ∧ (p.maxActiveCommitters ≤ xs.length → u1 = u - 1) := by
      rw [hu1]
      split_ifs <;> omega
    have henough1 : p.maxActiveCommitters - xs1.length + u1 ≤ names.length := by
      rcases Nat.lt_or_ge xs.length p.maxActiveCommitters with hlt | hge
      · have := hfree hlt
        omega
      · have := hle1.2 hge
        omega
    obtain ⟨script2, known', xs', hrest, hpad', hlen', hfull, hfill'⟩ :=
      ih (fun x hx => hsub x (.tail _ hx)) hnames h1 hlen1 hreach1
        (hle1.1.trans huc) (hle1.1.trans (hux.trans hgrow)) (by omega) henough1 hfill1
    refine ⟨script1 ++ script2, known', xs', fun q => ?_, hpad', hlen', hfull, hfill'⟩
    obtain ⟨g', hg'⟩ := hrest q
    exact ⟨g', bind_eq_ok.mpr ⟨(s, script2), hsample q script2, bind_ok hseat hg'⟩⟩

lemma not_canStop_of_filled {c : ℕ} (hpad : Padded known xs) (hle : hi ≤ c)
    (hocc : hi ≤ xs.length) (hfill : Filled c newMembers 0 xs) : ¬ CanStop newMembers known hi := by
  rintro ⟨i, hi', m, hm, hnew⟩
  rw [hpad.getElem? (by omega)] at hm
  exact hnew (hfill i (Nat.zero_le i) (by omega) m hm)

/-- **Otherwise some generator leaves no slot.** -/
lemma exists_stuck (h : Elections o log) (hadm : Admissible o total newMembers)
    (hstop : ¬ Stoppable o total newMembers) :
    ∃ (R : Rng) (seed : List UInt8) (known : List String) (g : R.State),
      seatMembers R o.parameters total newMembers
        (o.knownMembers, R.fromSeed (seedArray seed)) = .ok (known, g) ∧
      ¬ CanStop newMembers known (min o.parameters.maxActiveCommitters total) := by
  obtain ⟨xs, hxs⟩ := h.seated
  obtain ⟨hc, hcp⟩ := h.sized
  have hcount := hadm.counted
  simp only [Stoppable, hxs.1.activeCount, not_or, not_and, not_lt, not_le] at hstop hcount
  obtain ⟨hmany, hfirst, hlast⟩ := hstop
  by_cases hcommitters : o.parameters.maxActiveCommitters ≤ newMembers.length
  · have hreach : Reaches o.parameters (min xs.length o.parameters.maxActiveCommitters) := by
      cases hpol : o.parameters.authPolicy with
      | first => exact .inl (by have := hfirst hpol; omega)
      | last =>
        have := hlast hpol
        rcases Nat.eq_zero_or_pos (min xs.length o.parameters.maxActiveCommitters) with h0 | h0
        · exact .inl h0
        · exact .inr (.inr ⟨hpol, by omega⟩)
      | random => exact .inr (.inl hpol)
    have hfill : Filled o.parameters.maxActiveCommitters newMembers
        (min xs.length o.parameters.maxActiveCommitters) xs := by
      intro i hi hic y hy
      have hlt := (List.getElem?_eq_some_iff.mp hy).1
      omega
    obtain ⟨script, known, xs', hseat, hpad, -, hfull, hfill'⟩ :=
      seatMembers_fill hcp (fun x hx => hx) hadm.named hxs.1 hxs.2.2 hreach (by omega) (by omega)
        hcount (by omega) hfill
    obtain ⟨g, hg⟩ := hseat script
    exact ⟨Rng.replay script, [], known, g, hg,
      not_canStop_of_filled hpad (Nat.min_le_left _ _) (by omega) hfill'⟩
  · -- the whole group is new and fits among the committers
    obtain ⟨offered, known, g, hseat, hmap, -, hpad, -, -⟩ :=
      seatMembers_seated (R := Rng.scripted) h.sized hxs hadm (Rng.scripted.fromSeed (seedArray []))
    have hoff : offered.length = newMembers.length := by rw [← hmap, length_map]
    obtain rfl : xs = [] := length_eq_zero_iff.mp (by omega)
    have hall : offers o.parameters.maxActiveCommitters o.parameters.maxActiveProcessers offered
        [] = newMembers := by
      rw [offers_of_le (by simp only [length_nil]; omega), nil_append, hmap]
    simp only [hall] at hpad
    refine ⟨Rng.scripted, [], known, g, hseat,
      not_canStop_of_filled hpad (Nat.min_le_left _ _) (by omega) ?_⟩
    intro i _ _ y hy
    exact mem_of_getElem? hy

/-! ## The exact condition -/

/-- **The redraws can stop for every generator exactly if `Stoppable` holds**: the new members leave
    a slot that the loop can stop at. -/
theorem reroll_stops_iff {o : Orchestrator} {log : List LogError} (h : Elections o log)
    (hadm : Admissible o total newMembers) (hmany : 2 ≤ newMembers.length) :
    (∀ (R : Rng) (seed : List UInt8), ∃ (known : List String) (g : R.State),
      seatMembers R o.parameters total newMembers
        (o.knownMembers, R.fromSeed (seedArray seed)) = .ok (known, g) ∧
      CanStop newMembers known (min o.parameters.maxActiveCommitters total) ∧
      (R.Covers (min o.parameters.maxActiveCommitters total) g →
        ∃ fuel r, processCommit R fuel o seed total newMembers = .ok r)) ↔
    Stoppable o total newMembers := by
  constructor
  · intro hall
    by_contra hstop
    obtain ⟨R, seed, known, g, hseat, hstuck⟩ := exists_stuck h hadm hstop
    obtain ⟨known', g', hseat', hcan, -⟩ := hall R seed
    obtain ⟨rfl, -⟩ := Prod.mk.inj (Exec.unique hseat' hseat)
    exact hstuck hcan
  · intro hstop R seed
    obtain ⟨known, g, hseat, hcan, hlen⟩ :=
      canStop_of_stoppable (R := R) h hadm hmany hstop (R.fromSeed (seedArray seed))
    obtain ⟨hc, hcp⟩ := h.sized
    refine ⟨known, g, hseat, hcan, fun hcov => ?_⟩
    exact processCommit_returns (by omega) hseat (by omega) hcan hcov

def oneCommitter : OrchestratedParameters := ⟨1, 2, .last⟩

lemma elections_oneCommitter : Elections ⟨"A", 0, oneCommitter, ["A", ""]⟩ [] := by
  have hcreate : Elections (new "A" oneCommitter []) [] := .create "A" ⟨by decide, by decide⟩
  have hfirst : processCommit Rng.scripted 1 (new "A" oneCommitter []) [] 1 ["A"] =
      .ok ⟨⟨"A", 0, oneCommitter, ["A", ""]⟩, .commit, some 0, some 0, []⟩ := rfl
  exact hcreate.commit ⟨by decide, by decide, by decide, by decide⟩ hfirst

/-- The creator of a group under `first` keeps its slot when it invites two members. -/
theorem reroll_stops_iff_first :
    Stoppable ⟨"A", 0, ⟨1, 2, .first⟩, ["A", ""]⟩ 3 ["B", "C"] ∧
      ∀ (R : Rng) (seed : List UInt8), ∃ (known : List String) (g : R.State),
        seatMembers R ⟨1, 2, .first⟩ 3 ["B", "C"] (["A", ""], R.fromSeed (seedArray seed)) =
          .ok (known, g) ∧ CanStop ["B", "C"] known 1 := by
  have hcreate : Elections (new "A" ⟨1, 2, .first⟩ []) [] := .create "A" ⟨by decide, by decide⟩
  have hfirst : processCommit Rng.scripted 1 (new "A" ⟨1, 2, .first⟩ []) [] 1 ["A"] =
      .ok ⟨⟨"A", 0, ⟨1, 2, .first⟩, ["A", ""]⟩, .commit, some 0, some 0, []⟩ := rfl
  have hrun := hcreate.commit ⟨by decide, by decide, by decide, by decide⟩ hfirst
  have hstop : Stoppable ⟨"A", 0, ⟨1, 2, .first⟩, ["A", ""]⟩ 3 ["B", "C"] := by decide
  refine ⟨hstop, fun R seed => ?_⟩
  obtain ⟨known, g, hseat, hcan, -⟩ :=
    (reroll_stops_iff hrun ⟨by decide, by decide, by decide, by decide⟩ (by decide)).mpr hstop
      R seed
  exact ⟨known, g, hseat, hcan⟩

/-- **A loop that never ends.**  `C` holds the only slot that is drawn. -/
theorem reroll_never_returns :
    Elections ⟨"A", 0, oneCommitter, ["A", ""]⟩ [] ∧
      Admissible ⟨"A", 0, oneCommitter, ["A", ""]⟩ 3 ["B", "C"] ∧
      ∀ (R : Rng) (seed : List UInt8),
        (∃ g, seatMembers R oneCommitter 3 ["B", "C"]
          (["A", ""], R.fromSeed (seedArray seed)) = .ok (["C", "A"], g)) ∧
        ¬ CanStop ["B", "C"] ["C", "A"] (min 1 3) ∧
        ∀ fuel, processCommit R fuel ⟨"A", 0, oneCommitter, ["A", ""]⟩ seed 3 ["B", "C"] =
          .error .fuel := by
  refine ⟨elections_oneCommitter, ⟨by decide, by decide, by decide, by decide⟩, ?_⟩
  intro R seed
  have hseat : seatMembers R oneCommitter 3 ["B", "C"] (["A", ""], R.fromSeed (seedArray seed)) =
      .ok (["C", "A"], R.fromSeed (seedArray seed)) := rfl
  have hstuck : ¬ CanStop ["B", "C"] ["C", "A"] (min 1 3) := by
    rintro ⟨i, hi, m, hm, hnew⟩
    obtain rfl : i = 0 := by omega
    obtain rfl : "C" = m := by simpa using hm
    exact hnew (by decide)
  refine ⟨⟨_, hseat⟩, hstuck, fun fuel => ?_⟩
  obtain ⟨who, g, hdraw, -, hlt⟩ :=
    draw_of_lt (R := R) (show 0 < min 1 3 by decide) (R.fromSeed (seedArray seed))
  have hpos : position ["C", "A"] "A" = some 1 := by decide
  have hroll : reroll R ["B", "C"] ["C", "A"] (min 1 3) fuel who g = .error .fuel :=
    reroll_endless (by decide) (by decide) hstuck hlt
  have hone : oneCommitter.maxActiveCommitters = 1 := rfl
  unfold processCommit
  simp only [hseat, bind, Except.bind, hpos, hone, hdraw, hroll]

end Orchestrator

end EmulatedMls
