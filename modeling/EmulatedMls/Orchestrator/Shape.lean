import EmulatedMls.Lib.Reservoir
import EmulatedMls.Orchestrator.Winner

/-!
# The shape of the vector of active members

The vector keeps its length, its empty names stay at the end, and no member has two seats,
whatever is drawn.  Seating a member is an offer to the reservoir of the occupied slots
(`seat_offer`), so the shape follows from what a reservoir keeps.
-/

namespace EmulatedMls.Orchestrator

open List Reservoir

variable {R : Rng} {p : OrchestratedParameters} {total s : ℕ} {name : String}
  {known xs names : List String} {g : R.State}

/-! ## Seating as offers to a reservoir -/

/-- The samples that a policy can draw. -/
def Sampled (p : OrchestratedParameters) (total s : ℕ) : Prop :=
  match p.authPolicy with
  | .first => min p.maxActiveCommitters (total - 1) ≤ s ∧ s < total
  | .last => s = 0
  | .random => s < total

variable {hi : ℕ}

lemma draw_of_lt {lo : ℕ} (h : lo < hi) (g : R.State) :
    ∃ s g', R.draw lo hi g = .ok (s, g') ∧ lo ≤ s ∧ s < hi :=
  ⟨_, _, if_pos h, R.genRange_mem g lo hi h⟩

lemma sample_sampled (p : OrchestratedParameters) (htotal : 0 < total) (g : R.State) :
    ∃ s g', sample R p total g = .ok (s, g') ∧ Sampled p total s := by
  unfold sample Sampled
  cases p.authPolicy with
  | first => exact draw_of_lt (by omega) g
  | last => exact ⟨0, g, rfl, rfl⟩
  | random =>
    obtain ⟨s, g', hs, -, hlt⟩ := draw_of_lt htotal g
    exact ⟨s, g', hs, hlt⟩

section

variable (h : Padded known xs)
include h

lemma Padded.length_le : xs.length ≤ known.length := by
  obtain ⟨-, m, rfl⟩ := h
  simp

lemma Padded.getElem? {i : ℕ} (hi : i < xs.length) : known[i]? = xs[i]? := by
  obtain ⟨-, m, rfl⟩ := h
  exact getElem?_append_left hi

lemma Padded.mem {x : String} (hx : x ∈ xs) : x ∈ known := by
  obtain ⟨-, m, rfl⟩ := h
  exact mem_append_left _ hx

lemma Padded.mem_of_ne {x : String} (hmem : x ∈ known) (hx : x ≠ "") : x ∈ xs := by
  obtain ⟨-, m, rfl⟩ := h
  exact (mem_append.mp hmem).resolve_right fun hfree => hx (eq_of_mem_replicate hfree)

/-- **Seating a member is an offer to the occupied slots.** -/
lemma seat_offer (hlen : known.length = p.maxActiveProcessers)
    (hroom : xs.length < p.maxActiveCommitters → xs.length < p.maxActiveProcessers)
    (hname : name ≠ "") (s : ℕ) :
    ∃ known', seat p s name known = .ok known' ∧
      Padded known' (offer p.maxActiveCommitters p.maxActiveProcessers s name xs) ∧
      known'.length = p.maxActiveProcessers := by
  unfold seat offer
  simp only [h.activeCount]
  by_cases hc : xs.length < p.maxActiveCommitters
  · simp only [if_pos hc]
    have hlt : xs.length < known.length := hlen ▸ hroom hc
    exact ⟨_, store_eq_ok.mpr ⟨hlt, rfl⟩, h.set_length hname hlt, by simpa using hlen⟩
  simp only [if_neg hc]
  by_cases hp : s < p.maxActiveProcessers
  swap
  · simp only [if_neg hp, if_pos (Nat.le_of_not_lt hp)]
    exact ⟨known, rfl, h, hlen⟩
  simp only [if_pos hp, if_neg (Nat.not_le_of_lt hp)]
  by_cases hs : s < xs.length
  · -- the sampled slot is taken
    obtain ⟨m, hm, hmne⟩ := h.getElem?_ne_empty hs
    rw [← h.getElem? hs, hm]
    simp only [index_eq_ok.mpr hm, bind, Except.bind, hmne, ne_eq, not_false_eq_true, true_and,
      Nat.min_eq_right (Nat.le_of_lt hs)]
    by_cases hfree : xs.length < p.maxActiveProcessers
    · have hlt : xs.length < known.length := by omega
      simp only [if_pos hfree, store_eq_ok.mpr ⟨hlt, rfl⟩]
      refine ⟨_, store_eq_ok.mpr ⟨by simp; omega, rfl⟩, ?_, by simpa using hlen⟩
      exact (h.set_length hmne hlt).set_lt hname (by simp; omega)
    · simp only [if_neg hfree]
      exact ⟨_, store_eq_ok.mpr ⟨by omega, rfl⟩, h.set_lt hname hs, by simpa using hlen⟩
  · -- the sampled slot is empty
    have hge : xs.length ≤ s := Nat.le_of_not_lt hs
    have hempty := h.getElem?_eq_empty hge (by omega)
    have hlt : xs.length < known.length := by omega
    rw [getElem?_eq_none hge]
    simp only [index_eq_ok.mpr hempty, bind, Except.bind, ne_eq, not_true_eq_false, false_and,
      if_false, pure, Except.pure, Nat.min_eq_left hge]
    exact ⟨_, store_eq_ok.mpr ⟨hlt, rfl⟩, h.set_length hname hlt, by simpa using hlen⟩

/-- **A member keeps its seat** if there is room or another slot is sampled. -/
lemma mem_seat {known' : List String} {x : String}
    (hlen : known.length = p.maxActiveProcessers) (hname : name ≠ "") (hmem : x ∈ known)
    (hx : x ≠ "") (hkeeps : activeCount known < p.maxActiveProcessers ∨ known[s]? ≠ some x)
    (hseat : seat p s name known = .ok known') : x ∈ known' := by
  have hroom : xs.length < p.maxActiveCommitters → xs.length < p.maxActiveProcessers :=
    fun hc => by
      simp only [seat, h.activeCount, if_pos hc] at hseat
      exact hlen ▸ (store_eq_ok.mp hseat).1
  obtain ⟨known'', hseat', hpad, -⟩ := seat_offer h hlen hroom hname s
  obtain rfl := Exec.unique hseat hseat'
  rw [h.activeCount] at hkeeps
  refine hpad.mem (mem_offer_of_mem (h.mem_of_ne hmem hx) (hkeeps.imp_right fun hne hs => ?_))
  exact hne ((h.getElem? (List.getElem?_eq_some_iff.mp hs).1).trans hs)

end

/-- **The loop over the new members** offers every one of them if there is room. -/
lemma seatMembers_offers (hroom : p.maxActiveCommitters ≤ p.maxActiveProcessers ∨
      xs.length + names.length ≤ p.maxActiveProcessers)
    (htotal : 0 < total) (h : Padded known xs) (hlen : known.length = p.maxActiveProcessers)
    (hnames : "" ∉ names) (g : R.State) :
    ∃ offered known' g', seatMembers R p total names (known, g) = .ok (known', g') ∧
      offered.map Prod.snd = names ∧ (∀ o ∈ offered, Sampled p total o.1) ∧
      Padded known' (offers p.maxActiveCommitters p.maxActiveProcessers offered xs) ∧
      known'.length = p.maxActiveProcessers := by
  induction names generalizing known xs g with
  | nil => exact ⟨[], known, g, rfl, rfl, by simp, h, hlen⟩
  | cons name names ih =>
    obtain ⟨hname, hnames⟩ : "" ≠ name ∧ "" ∉ names := by simpa using hnames
    obtain ⟨s, g1, hsample, hs⟩ := sample_sampled (R := R) p htotal g
    simp only [length_cons] at hroom
    obtain ⟨known1, hseat, h1, hlen1⟩ := seat_offer h hlen (by omega) hname.symm s
    have hone : (offer p.maxActiveCommitters p.maxActiveProcessers s name xs).length ≤
        xs.length + 1 := length_offer_le_succ
    obtain ⟨offered, known', g', hrest, hmap, hall, h', hlen'⟩ :=
      ih (by omega) h1 hlen1 hnames g1
    refine ⟨(s, name) :: offered, known', g', ?_, by simp [hmap], ?_, h', hlen'⟩
    · exact Exec.bind_ok hsample (Exec.bind_ok hseat hrest)
    · rintro o ho
      rcases mem_cons.mp ho with rfl | ho
      · exact hs
      · exact hall o ho

/-! ## Runs of the replicas -/

/-- The lines that `remove_members` logs. -/
def removalErrors (o : Orchestrator) (membersToRemove : List String) : List LogError :=
  if o.name ∉ o.knownMembers then []
  else inconsistencies (resize (o.knownMembers.filter (· ∉ membersToRemove))
    o.parameters.maxActiveProcessers "")

/-- The parameters name at least one committer, and a processer for each. -/
def Sized (p : OrchestratedParameters) : Prop :=
  1 ≤ p.maxActiveCommitters ∧ p.maxActiveCommitters ≤ p.maxActiveProcessers

/-- A commit with distinct, unknown members in a group that has room for them. -/
structure Admissible (o : Orchestrator) (total : ℕ) (newMembers : List String) : Prop where
  distinct : newMembers.Nodup
  named : "" ∉ newMembers
  unknown : ∀ x ∈ newMembers, x ∉ o.knownMembers
  counted : activeCount o.knownMembers + newMembers.length ≤ total

/-- The runs of the replicas of a group, with the error lines logged on the way. -/
inductive Elections : Orchestrator → List LogError → Prop
  | create {p : OrchestratedParameters} (name : String) : Sized p → Elections (new name p []) []
  | join {p : OrchestratedParameters} {o : Orchestrator} {log : List LogError} (name : String) :
      Elections o log → Sized p → Elections (new name p o.knownMembers) []
  | commit {o : Orchestrator} {log : List LogError} {R : Rng} {fuel : ℕ} {seed : List UInt8}
      {total : ℕ} {newMembers : List String} {r : Outcome} : Elections o log →
      Admissible o total newMembers → processCommit R fuel o seed total newMembers = .ok r →
      Elections r.orchestrator (log ++ r.errors)
  | remove {o o' : Orchestrator} {log : List LogError} {names : List String} : Elections o log →
      removeMembers o names = .ok o' → Elections o' (log ++ removalErrors o names)

variable {log : List LogError} {o : Orchestrator} {newMembers : List String}

lemma Elections.sized (h : Elections o log) : Sized o.parameters := by
  induction h with
  | create name hp => exact hp
  | join name _ hp _ => exact hp
  | commit _ _ hcall ih =>
    obtain ⟨-, hparams, -⟩ := processCommit_frame hcall
    exact hparams ▸ ih
  | remove _ hcall ih =>
    obtain ⟨-, rfl⟩ | ⟨-, rfl⟩ := removeMembers_cases hcall
    · exact ih
    · exact ih

/-- The vector holds distinct names, then only empty names, in one slot for each processer. -/
def Seated (o : Orchestrator) (xs : List String) : Prop :=
  Padded o.knownMembers xs ∧ xs.Nodup ∧
    o.knownMembers.length = o.parameters.maxActiveProcessers

lemma Admissible.total_pos (h : Admissible o total newMembers) (hnew : newMembers ≠ []) :
    0 < total := by
  have hpos := length_pos_iff.mpr hnew
  have hcount := h.counted
  omega

/-- The new members of an admissible commit are offered to their reservoir. -/
lemma seatMembers_seated (hp : Sized o.parameters) (h : Seated o xs)
    (hadm : Admissible o total newMembers) (g : R.State) :
    ∃ offered known' g',
      seatMembers R o.parameters total newMembers (o.knownMembers, g) = .ok (known', g') ∧
      offered.map Prod.snd = newMembers ∧ (∀ q ∈ offered, Sampled o.parameters total q.1) ∧
      Seated { o with knownMembers := known' } (offers o.parameters.maxActiveCommitters
        o.parameters.maxActiveProcessers offered xs) := by
  obtain ⟨hpad, hdup, hlen⟩ := h
  by_cases hnil : newMembers = []
  · subst hnil
    exact ⟨[], o.knownMembers, g, rfl, rfl, by simp, hpad, hdup, hlen⟩
  · obtain ⟨offered, known', g', hseat, hmap, hall, hpad', hlen'⟩ :=
      seatMembers_offers (.inl hp.2) (hadm.total_pos hnil) hpad hlen hadm.named g
    refine ⟨offered, known', g', hseat, hmap, hall, hpad', ?_, hlen'⟩
    refine nodup_offers hdup (hmap ▸ hadm.distinct) fun x hx hmem => ?_
    exact hadm.unknown x (hmap ▸ hx) (hpad.mem hmem)

/-- **Every replica of a run is seated.** -/
lemma Elections.seated (h : Elections o log) : ∃ xs, Seated o xs := by
  induction h with
  | @create p name hp =>
    exact ⟨[], ⟨by simp, p.maxActiveProcessers, by simp [new, resize]⟩, by simp, by simp [new]⟩
  | @join p o log name _ hp ih =>
    obtain ⟨xs, hpad, hdup, -⟩ := ih
    exact ⟨_, hpad.resize p.maxActiveProcessers, hdup.sublist (take_sublist _ _), by simp [new]⟩
  | commit hrun hadm hcall ih =>
    obtain ⟨xs, hxs⟩ := ih
    obtain ⟨-, hparams, g, hseat⟩ := processCommit_frame hcall
    obtain ⟨offered, known', g', hseat', -, -, hpad, hdup, hlen⟩ :=
      seatMembers_seated hrun.sized hxs hadm _
    obtain ⟨hknown, -⟩ := Prod.mk.inj (Exec.unique hseat' hseat)
    subst hknown
    exact ⟨_, hpad, hdup, by rw [hparams]; exact hlen⟩
  | remove _ hcall ih =>
    obtain ⟨xs, hpad, hdup, hlen⟩ := ih
    obtain ⟨-, rfl⟩ | ⟨-, rfl⟩ := removeMembers_cases hcall
    · exact ⟨xs, hpad, hdup, hlen⟩
    · exact ⟨_, (hpad.filter _).resize _,
        (hdup.sublist filter_sublist).sublist (take_sublist _ _), by simp⟩

/-! ## The error lines -/

lemma Padded.inconsistencies_eq (h : Padded known xs) : inconsistencies known = [] := by
  rw [inconsistencies, map_eq_nil_iff, filter_eq_nil_iff]
  intro i hi
  simp only [mem_range] at hi
  simp only [ne_eq, decide_eq_true_eq, not_and, not_not]
  intro hempty
  have hge : xs.length ≤ i := by
    by_contra hlt
    obtain ⟨m, hm, hne⟩ := h.getElem?_ne_empty (Nat.lt_of_not_le hlt)
    exact hne (Option.mem_unique hm hempty)
  exact h.getElem?_eq_empty (by omega) (by omega)

lemma conclude_errors {pos who : ℕ} (h : Padded o.knownMembers xs) :
    .inconsistentState known ∉ (conclude o newMembers pos who).errors := by
  unfold conclude
  simp only [h.inconsistencies_eq, nil_append]
  split_ifs <;> simp

/-- **No `Inconsistent state` line is logged in a run.** -/
lemma Elections.consistent (h : Elections o log) (known : List String) :
    .inconsistentState known ∉ log := by
  induction h with
  | create name hp => simp
  | join name _ hp _ => simp
  | commit hrun hadm hcall ih =>
    have hrun' := Elections.commit hrun hadm hcall
    obtain ⟨xs, hpad, -, -⟩ := hrun'.seated
    rw [mem_append, not_or]
    refine ⟨ih, ?_⟩
    obtain ⟨known', -, ⟨-, rfl⟩ | ⟨pos, who, -, -, rfl⟩⟩ := processCommit_cases hcall
    · simp
    · exact conclude_errors (by simpa using hpad)
  | @remove o o' log names hrun hcall ih =>
    obtain ⟨xs, hpad, -, -⟩ := hrun.seated
    rw [mem_append, not_or]
    refine ⟨ih, ?_⟩
    unfold removalErrors
    split_ifs
    · rw [((hpad.filter _).resize _).inconsistencies_eq]
      simp
    · simp

/-! ## Calls that do not panic -/

lemma reroll_no_panic (hlen : hi ≤ known.length) :
    ∀ {fuel who : ℕ} {g : R.State}, who < hi →
      reroll R newMembers known hi fuel who g ≠ .error .panic := by
  intro fuel
  induction fuel with
  | zero => intro who g _; simp [reroll]
  | succ fuel ih =>
    intro who g hwho
    obtain ⟨m, hm⟩ : ∃ m, known[who]? = some m :=
      ⟨_, getElem?_eq_getElem (by omega)⟩
    obtain ⟨who', g', hdraw, -, hlt⟩ := draw_of_lt (R := R) (show 0 < hi by omega) g
    simp only [reroll, index_eq_ok.mpr hm, hdraw, bind, Except.bind]
    split_ifs
    · exact ih hlt
    · simp [pure, Except.pure]
    · simp [pure, Except.pure]

/-- Once its members are seated, a call does not panic if the range has slots. -/
lemma processCommit_no_panic_of_seat {fuel : ℕ} {seed : List UInt8}
    (hseat : seatMembers R o.parameters total newMembers (o.knownMembers,
      R.fromSeed (seedArray seed)) = .ok (known, g))
    (hrange : o.name ∈ known → 0 < min o.parameters.maxActiveCommitters total ∧
      min o.parameters.maxActiveCommitters total ≤ known.length) :
    processCommit R fuel o seed total newMembers ≠ .error .panic := by
  unfold processCommit
  simp only [hseat, bind, Except.bind]
  cases hpos : position known o.name with
  | none => simp [pure, Except.pure]
  | some pos =>
    obtain ⟨hdraws, hslots⟩ := hrange (mem_of_getElem? (getElem?_of_position hpos))
    obtain ⟨who, g1, hdraw, -, hlt⟩ := draw_of_lt (R := R) hdraws g
    simp only [hdraw]
    have hno : reroll R newMembers known (min o.parameters.maxActiveCommitters total) fuel who
        g1 ≠ .error .panic := reroll_no_panic hslots hlt
    cases hroll : reroll R newMembers known (min o.parameters.maxActiveCommitters total)
        fuel who g1 with
    | ok w => simp [pure, Except.pure]
    | error e =>
      rw [hroll] at hno
      simpa using hno

lemma processCommit_no_panic (h : Elections o log) (hadm : Admissible o total newMembers)
    (htotal : 0 < total) (R : Rng) (fuel : ℕ) (seed : List UInt8) :
    processCommit R fuel o seed total newMembers ≠ .error .panic := by
  obtain ⟨xs, hxs⟩ := h.seated
  obtain ⟨hc, hcp⟩ := h.sized
  obtain ⟨offered, known', g', hseat, -, -, -, -, hlen⟩ :=
    seatMembers_seated (R := R) h.sized hxs hadm (R.fromSeed (seedArray seed))
  refine processCommit_no_panic_of_seat hseat fun _ => ⟨by omega, ?_⟩
  simp only at hlen
  omega

lemma removeMembers_no_panic (hp : Sized o.parameters) (names : List String) :
    removeMembers o names ≠ .error .panic := by
  obtain ⟨hc, hcp⟩ := hp
  have hpos : o.parameters.maxActiveProcessers ≠ 0 := by omega
  unfold removeMembers
  simp only [length_resize, if_neg hpos]
  split_ifs <;> simp [pure, Except.pure]

/-! ## The shape -/

/-- A slot for each processer, no empty name before another, and no name in two slots. -/
structure Shape (o : Orchestrator) : Prop where
  length : o.knownMembers.length = o.parameters.maxActiveProcessers
  compact : ∀ (i j : ℕ) m, i < j → o.knownMembers[i]? = some "" →
    o.knownMembers[j]? = some m → m = ""
  distinct : ∀ (i j : ℕ) m, m ≠ "" → o.knownMembers[i]? = some m →
    o.knownMembers[j]? = some m → i = j

lemma Seated.shape (h : Seated o xs) : o.Shape := by
  obtain ⟨hpad, hdup, hlen⟩ := h
  have hslot : ∀ i m, m ≠ "" → o.knownMembers[i]? = some m → i < xs.length := by
    intro i m hm hi
    by_contra hge
    have hempty := hpad.getElem?_eq_empty (Nat.le_of_not_lt hge)
      (List.getElem?_eq_some_iff.mp hi).1
    exact hm (Option.mem_unique hi hempty)
  refine ⟨hlen, fun i j m hij hi hj => ?_, fun i j m hm hi hj => ?_⟩
  · by_contra hm
    have hlt := hslot j m hm hj
    obtain ⟨m', hm', hne⟩ := hpad.getElem?_ne_empty (hij.trans hlt)
    exact hne (Option.mem_unique hm' hi)
  · have hi' := hslot i m hm hi
    have hj' := hslot j m hm hj
    rw [hpad.getElem? hi'] at hi
    rw [hpad.getElem? hj'] at hj
    exact (getElem?_inj hi' hdup).mp (hi.trans hj.symm)

/-- **The vector keeps its shape**, no `Inconsistent state` line is logged, and neither an
    admissible commit nor a removal panics. -/
theorem vector_shape {o : Orchestrator} {log : List LogError} (h : Elections o log) :
    o.Shape ∧ (∀ known, .inconsistentState known ∉ log) ∧
      (∀ (R : Rng) fuel seed total newMembers, 0 < total → Admissible o total newMembers →
        processCommit R fuel o seed total newMembers ≠ .error .panic) ∧
      ∀ names, removeMembers o names ≠ .error .panic := by
  obtain ⟨xs, hxs⟩ := h.seated
  refine ⟨hxs.shape, h.consistent, ?_, removeMembers_no_panic h.sized⟩
  intro R fuel seed total newMembers htotal hadm
  exact processCommit_no_panic h hadm htotal R fuel seed

/-- The creator of a group takes the first seat, invites `B` and removes it again. -/
theorem vector_shape_removal :
    ∃ r1 r2 o, processCommit Rng.scripted 1 (new "A" twoSeats []) [0, 0] 1 ["A"] = .ok r1 ∧
      processCommit Rng.scripted 1 r1.orchestrator [0, 0] 2 ["B"] = .ok r2 ∧
      removeMembers r2.orchestrator ["B"] = .ok o ∧ o.Shape := by
  have hcreate : Elections (new "A" twoSeats []) [] := .create "A" ⟨by decide, by decide⟩
  have h1 : processCommit Rng.scripted 1 (new "A" twoSeats []) [0, 0] 1 ["A"] =
      .ok ⟨⟨"A", 0, twoSeats, ["A", ""]⟩, .commit, some 0, some 0, []⟩ := rfl
  have h2 : processCommit Rng.scripted 1 ⟨"A", 0, twoSeats, ["A", ""]⟩ [0, 0] 2 ["B"] =
      .ok ⟨⟨"A", 1, twoSeats, ["A", "B"]⟩, .listen, some 0, some 1, []⟩ := rfl
  have h3 : removeMembers ⟨"A", 1, twoSeats, ["A", "B"]⟩ ["B"] =
      .ok ⟨"A", 1, twoSeats, ["A", ""]⟩ := rfl
  have hfirst := hcreate.commit ⟨by decide, by decide, by decide, by decide⟩ h1
  have hsecond := hfirst.commit ⟨by decide, by decide, by decide, by decide⟩ h2
  exact ⟨_, _, _, h1, h2, h3, (vector_shape (hsecond.remove h3)).1⟩

end EmulatedMls.Orchestrator
