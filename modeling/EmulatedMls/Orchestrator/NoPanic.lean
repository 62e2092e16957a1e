import EmulatedMls.Client.User
import EmulatedMls.Orchestrator.Shape

/-!
# Settings under which the orchestrator can panic

The two sizes of the settings are read without a check, and the code takes for granted that the
committers are a non-empty part of the processers.  An index past the vector and a draw from an
empty range are both panics, and so is the check of a vector without slots.

**Source.**  `process_commit` and `remove_members` of `emulated_client/src/orchestrator.rs`, as
`create_group`, `process_in_message`, `process_protocol_message` and `confirm_commit` of
`emulated_client/src/user.rs` call them.

**Totals.**  The total of a call is the number of members after the commit.  The committer is one
of them, so it is positive.
-/

namespace EmulatedMls.Orchestrator

open List Reservoir

variable {R : Rng} {p : OrchestratedParameters} {total fuel : ℕ} {known xs names : List String}

/-! ## The calls of a client -/

/-- How a client comes to its orchestrator: it creates the group or is welcomed. -/
inductive Origin where
  | createGroup
  | welcome (activeMembers : List String) (total : ℕ) (recipients : List String)

/-- The vector that `Orchestrator::new` gets. -/
def Origin.activeMembers : Origin → List String
  | .createGroup => []
  | .welcome activeMembers _ _ => activeMembers

def Origin.call (name : String) (seed : List UInt8) : Origin → Call
  | .createGroup => .processCommit seed 1 [name]
  | .welcome _ total recipients => .processCommit seed total recipients

/-- A commit as a client that processes or confirms it tells its orchestrator. -/
structure CommitReport where
  removed : List String
  seed : List UInt8
  total : ℕ
  added : List String

def CommitReport.calls (c : CommitReport) : List Call :=
  [.removeMembers c.removed, .processCommit c.seed c.total c.added]

/-- All calls of a client on its orchestrator of one group. -/
def clientCalls (name : String) (seed : List UInt8) (origin : Origin)
    (commits : List CommitReport) : List Call :=
  origin.call name seed :: commits.flatMap CommitReport.calls

/-- The total of a call counts the committer. -/
def Call.Positive : Call → Prop
  | .processCommit _ total _ => 0 < total
  | .removeMembers _ => True

/-- No total of the client is zero. -/
def PositiveTotals (origin : Origin) (commits : List CommitReport) : Prop :=
  (∀ name seed, (origin.call name seed).Positive) ∧ ∀ c ∈ commits, 0 < c.total

lemma PositiveTotals.calls {origin : Origin} {commits : List CommitReport}
    (h : PositiveTotals origin commits) (name : String) (seed : List UInt8) :
    ∀ c ∈ clientCalls name seed origin commits, c.Positive := by
  intro c hc
  rcases mem_cons.mp hc with rfl | hc
  · exact h.1 name seed
  · obtain ⟨report, hreport, hc⟩ := mem_flatMap.mp hc
    rcases mem_pair.mp hc with rfl | rfl
    · trivial
    · exact h.2 report hreport

/-! ## Safe settings -/

/-- There is a committer, and a processer for each; or there are neither. -/
def Safe (p : OrchestratedParameters) : Prop :=
  Sized p ∨ p.maxActiveCommitters = 0 ∧ p.maxActiveProcessers = 0

instance (p : OrchestratedParameters) : Decidable (Safe p) :=
  inferInstanceAs (Decidable ((_ ∧ _) ∨ _))

lemma Safe.committers_le (h : Safe p) : p.maxActiveCommitters ≤ p.maxActiveProcessers := by
  rcases h with h | ⟨hc, hp⟩
  · exact h.2
  · omega

section

variable (hcp : p.maxActiveCommitters ≤ p.maxActiveProcessers)
include hcp

lemma seat_of_length
    (hlen : known.length = p.maxActiveProcessers) (s : ℕ) (name : String) :
    ∃ known', seat p s name known = .ok known' := by
  unfold seat
  by_cases hc : activeCount known < p.maxActiveCommitters
  · rw [if_pos hc]
    exact ⟨_, store_eq_ok.mpr ⟨by omega, rfl⟩⟩
  rw [if_neg hc]
  by_cases hs : s < p.maxActiveProcessers
  · rw [if_pos hs]
    obtain ⟨previous, hprevious⟩ : ∃ m, known[s]? = some m :=
      ⟨_, getElem?_eq_getElem (by omega)⟩
    simp only [index_eq_ok.mpr hprevious, bind, Except.bind]
    -- the sampled slot exists, and so does the free slot when there is one
    split_ifs with hroom
    · simp only [store_eq_ok.mpr (⟨by omega, rfl⟩ : activeCount known < known.length ∧ _)]
      exact ⟨_, store_eq_ok.mpr ⟨by rw [length_set]; omega, rfl⟩⟩
    · simp only [pure, Except.pure]
      exact ⟨_, store_eq_ok.mpr ⟨by omega, rfl⟩⟩
  · rw [if_neg hs]
    exact ⟨known, rfl⟩

lemma seatMembers_of_length
    (htotal : 0 < total) (hlen : known.length = p.maxActiveProcessers) (names : List String)
    (g : R.State) : ∃ known' g', seatMembers R p total names (known, g) = .ok (known', g') := by
  induction names generalizing known g with
  | nil => exact ⟨known, g, rfl⟩
  | cons name names ih =>
    obtain ⟨s, g1, hsample, -⟩ := sample_sampled (R := R) p htotal g
    obtain ⟨known1, hseat⟩ := seat_of_length hcp hlen s name
    obtain ⟨known', g', hrest⟩ := ih ((length_seat hseat).trans hlen) g1
    refine ⟨known', g', ?_⟩
    exact Exec.bind_ok hsample (Exec.bind_ok hseat hrest)

end

/-- What every call keeps: the settings, and a slot for each processer. -/
def Slotted (p : OrchestratedParameters) (o : Orchestrator) : Prop :=
  o.parameters = p ∧ o.knownMembers.length = p.maxActiveProcessers

lemma slotted_new (name : String) (p : OrchestratedParameters) (known : List String) :
    Slotted p (new name p known) := ⟨rfl, by simp [new]⟩

variable {o : Orchestrator}

lemma processCommit_safe (hp : Safe p) (ho : Slotted p o) (htotal : 0 < total) (seed : List UInt8)
    (newMembers : List String) : processCommit R fuel o seed total newMembers ≠ .error .panic := by
  obtain ⟨rfl, hlen⟩ := ho
  obtain ⟨known, g, hseat⟩ := seatMembers_of_length hp.committers_le htotal hlen newMembers
    (R.fromSeed (seedArray seed))
  have hlen' := (length_seatMembers hseat).trans hlen
  refine processCommit_no_panic_of_seat hseat fun hmem => ?_
  have hslots := length_pos_of_mem hmem
  rcases hp with ⟨hc, hcp⟩ | ⟨-, hzero⟩ <;> omega

lemma removeMembers_safe (ho : Slotted p o) (names : List String) :
    removeMembers o names ≠ .error .panic := by
  obtain ⟨rfl, hlen⟩ := ho
  unfold removeMembers
  by_cases hin : o.name ∈ o.knownMembers
  · -- a vector that holds the own name has a slot
    have hslots := length_pos_of_mem hin
    have hpos : o.parameters.maxActiveProcessers ≠ 0 := by omega
    simp [hin, hpos, pure, Except.pure]
  · simp [hin, pure, Except.pure]

lemma ensures_of_ne_panic {α : Type} {post : α → Prop} {x : Exec α} (hx : x ≠ .error .panic)
    (hpost : ∀ a, x = .ok a → post a) : Ensures (· = Fault.panic) post x := by
  cases x with
  | ok a => exact hpost a rfl
  | error e => exact fun he => hx (congrArg Except.error he)

lemma call_ensures (hp : Safe p) (ho : Slotted p o) {c : Call} (hc : c.Positive) :
    Ensures (· = Fault.panic) (fun q => Slotted p q.1) (call R fuel o c) := by
  cases c with
  | processCommit seed total newMembers =>
    have hcall : Ensures (· = Fault.panic) (fun r => Slotted p r.orchestrator)
        (processCommit R fuel o seed total newMembers) := by
      refine ensures_of_ne_panic (processCommit_safe hp ho hc seed newMembers) fun r hr => ?_
      obtain ⟨-, hparams, g, hseat⟩ := processCommit_frame hr
      exact ⟨hparams.trans ho.1, (length_seatMembers hseat).trans ho.2⟩
    exact hcall.bind fun r hr => .of_ok rfl hr
  | removeMembers names =>
    have hcall : Ensures (· = Fault.panic) (Slotted p) (removeMembers o names) := by
      refine ensures_of_ne_panic (removeMembers_safe ho names) fun o' ho' => ?_
      obtain ⟨-, rfl⟩ | ⟨-, rfl⟩ := removeMembers_cases ho'
      · exact ho
      · exact ⟨ho.1, by simp [ho.1]⟩
    exact hcall.bind fun o' ho' => .of_ok rfl ho'

lemma calls_ensures (hp : Safe p) {cs : List Call} (hcs : ∀ c ∈ cs, c.Positive) :
    ∀ {o : Orchestrator}, Slotted p o →
      Ensures (· = Fault.panic) (fun _ => True) (calls R fuel o cs) := by
  induction cs with
  | nil => intro o _; trivial
  | cons c cs ih =>
    intro o ho
    refine (call_ensures hp ho (hcs c mem_cons_self)).bind fun q hq => ?_
    refine (ih (fun c hc => hcs c (.tail _ hc)) hq).bind fun _ _ => ?_
    trivial

/-! ## Settings that panic -/

/-- **The vector overflows** with more committers than processers. -/
lemma seatMembers_overflow (hpc : p.maxActiveProcessers < p.maxActiveCommitters)
    (htotal : 0 < total) (h : Padded known xs) (hlen : known.length = p.maxActiveProcessers)
    (hnames : "" ∉ names) (hover : p.maxActiveProcessers < xs.length + names.length)
    (g : R.State) : seatMembers R p total names (known, g) = .error .panic := by
  induction names generalizing known xs g with
  | nil =>
    have := h.length_le
    simp only [length_nil] at hover
    omega
  | cons name names ih =>
    obtain ⟨hname, hnames⟩ : "" ≠ name ∧ "" ∉ names := by simpa using hnames
    obtain ⟨s, g1, hsample, -⟩ := sample_sampled (R := R) p htotal g
    have hle := h.length_le
    have hseat : seat p s name known = store known xs.length name := by
      unfold seat
      simp only [h.activeCount]
      rw [if_pos (by omega)]
    simp only [seatMembers, hsample, bind, Except.bind, hseat]
    by_cases hroom : xs.length < known.length
    · simp only [store_eq_ok.mpr ⟨hroom, rfl⟩]
      refine ih (h.set_length hname.symm hroom) (by simpa using hlen) hnames ?_ g1
      simp only [length_cons, length_append, length_nil] at hover ⊢
      omega
    · simp only [store, if_neg hroom]

def inventName (i : ℕ) : String := String.ofList (List.replicate (i + 1) 'B')

lemma inventName_ne_empty (i : ℕ) : inventName i ≠ "" := by
  intro h
  have := congrArg String.toList h
  simp [inventName, replicate_succ] at this

/-- A client with more committers than processers is welcomed with as many others as slots. -/
lemma welcome_overflows (R : Rng) (fuel : ℕ) (hpc : p.maxActiveProcessers < p.maxActiveCommitters) :
    ∃ origin, PositiveTotals origin [] ∧
      calls R fuel (new (inventName 0) p origin.activeMembers)
        (clientCalls (inventName 0) [] origin []) = .error .panic := by
  set names := (List.range (p.maxActiveProcessers + 1)).map inventName with hnames
  have hnamed : "" ∉ names := by
    rw [hnames, mem_map]
    rintro ⟨i, -, hi⟩
    exact inventName_ne_empty i hi
  have hlength : names.length = p.maxActiveProcessers + 1 := by simp [hnames]
  refine ⟨.welcome ["A"] (names.length + 1) names, ⟨fun _ _ => Nat.succ_pos _, by simp⟩, ?_⟩
  have hpadded : Padded (resize ["A"] p.maxActiveProcessers "")
      (["A"].take p.maxActiveProcessers) := Padded.resize ⟨by decide, 0, rfl⟩ _
  have hseat := seatMembers_overflow (R := R) hpc (Nat.succ_pos names.length) hpadded (by simp)
    hnamed (by omega) (R.fromSeed (seedArray []))
  simp only [clientCalls, Origin.call, Origin.activeMembers, new, calls, call, processCommit,
    Nat.succ_eq_add_one] at hseat ⊢
  simp only [hseat, bind, Except.bind]

lemma createGroup_panics (R : Rng) (fuel : ℕ) (hc : p.maxActiveCommitters = 0)
    (hp : 0 < p.maxActiveProcessers) :
    calls R fuel (new "A" p Origin.createGroup.activeMembers)
      (clientCalls "A" [] .createGroup []) = .error .panic := by
  have hpadded : Padded (resize [] p.maxActiveProcessers "") [] :=
    ⟨by simp, p.maxActiveProcessers, by simp [resize]⟩
  have hcp : p.maxActiveCommitters ≤ p.maxActiveProcessers := by omega
  obtain ⟨offered, known, g, hseat, hmap, hall, hknown, -⟩ :=
    seatMembers_offers (R := R) (.inl hcp) Nat.one_pos hpadded (by simp)
      (show "" ∉ ["A"] by decide) (R.fromSeed (seedArray []))
  obtain ⟨⟨s, name⟩, rfl, rfl⟩ : ∃ q : ℕ × String, offered = [q] ∧ q.2 = "A" := by
    obtain ⟨q, rest, rfl, hq, hrest⟩ := map_eq_cons_iff.mp hmap
    exact ⟨q, by rw [map_eq_nil_iff.mp hrest], hq⟩
  -- the only sample is the first slot, so the creator gets a seat
  obtain rfl : s = 0 := by
    have hs := hall _ mem_cons_self
    unfold Sampled at hs
    cases hpolicy : p.authPolicy <;> simp only [hpolicy] at hs <;> omega
  have hmem : "A" ∈ known := by
    refine hknown.mem ?_
    simp [offers, offer, hc, hp.ne']
  obtain ⟨pos, hpos⟩ : ∃ pos, position known "A" = some pos :=
    Option.ne_none_iff_exists'.mp fun hnone => position_eq_none.mp hnone hmem
  simp only [clientCalls, Origin.call, Origin.activeMembers, new, calls, call, processCommit]
  simp only [hseat, bind, Except.bind, hpos, hc, Rng.draw, Nat.zero_min, lt_irrefl, if_false]

/-! ## The exact condition -/

/-- **No sequence of calls panics exactly under safe settings.** -/
theorem no_panic_iff (p : OrchestratedParameters) :
    (∀ (R : Rng) fuel name seed origin commits, PositiveTotals origin commits →
      calls R fuel (new name p origin.activeMembers) (clientCalls name seed origin commits) ≠
        .error .panic) ↔ Safe p := by
  constructor
  · intro hall
    by_contra hunsafe
    rcases Nat.lt_or_ge p.maxActiveProcessers p.maxActiveCommitters with hpc | hcp
    · obtain ⟨origin, hpos, hpanic⟩ := welcome_overflows Rng.scripted 1 hpc
      exact hall _ _ _ _ _ _ hpos hpanic
    · have hzero : p.maxActiveCommitters = 0 ∧ 0 < p.maxActiveProcessers := by
        simp only [Safe, Sized, not_or, not_and] at hunsafe
        omega
      have hpos : PositiveTotals .createGroup [] := ⟨fun _ _ => Nat.one_pos, by simp⟩
      exact hall _ _ _ _ _ _ hpos
        (createGroup_panics Rng.scripted 1 hzero.1 hzero.2)
  · intro hp R fuel name seed origin commits hpos hpanic
    exact (calls_ensures hp (hpos.calls name seed) (slotted_new name p _)).not_bad hpanic rfl

def crowded : Client.Config := ⟨.orchestrator ⟨2, 1, .random⟩, Rng.scripted, 1, fun _ => []⟩

/-- **An index out of bounds.**  `A` takes the only slot, and `B` is to be stored in the second one
    when `A` confirms its invitation. -/
theorem invite_panics :
    ∃ r o, (Client.User.new "A").createGroup crowded .fine = .ok r ∧ r.error = none ∧
      r.user.orchestrator = some o ∧ o.knownMembers = ["A"] ∧
      (∀ (R : Rng) fuel seed, processCommit R fuel o seed 2 ["B"] = .error .panic) ∧
      r.user.invite crowded .fine 0 "B" = .error .panic := by
  refine ⟨_, ⟨"A", 0, ⟨2, 1, .random⟩, ["A"]⟩, rfl, rfl, rfl, rfl, ?_, rfl⟩
  intro R fuel seed
  have hfull : Padded ["A"] ["A"] := ⟨by decide, 0, rfl⟩
  have hseat : seatMembers R ⟨2, 1, .random⟩ 2 ["B"] (["A"], R.fromSeed (seedArray seed)) =
      .error .panic :=
    seatMembers_overflow (by decide) (by decide) hfull rfl (by decide) (by decide) _
  simp only [processCommit, hseat, bind, Except.bind]

end EmulatedMls.Orchestrator
