import EmulatedMls.Tree.Import

/-!
# The cache of tree hashes over whole runs

Members never compute the tree hash of the group from scratch: they keep a vector with the hash of
every node and bring it up to date along the paths of the changed leaves.
-/

namespace EmulatedMls

variable {D : Type} {H : HashSuite D}

open PublicGroup

/-- The commit of the event is accompanied. -/
def PublicGroup.Event.Accompanied (g : PublicGroup D) : Event D → Prop
  | .commit c => g.Accompanied c
  | .join _ _ _ => True

variable {n : ℕ}

section

variable [DecidableEq D]

variable {g : PublicGroup D} {rules : GroupView D}

lemma sound_step {g' : PublicGroup D} {e : Event D} (h : g.Sound H n) (he : e.Accompanied g)
    (hstep : g.step H rules e = some g') : ∃ n', g'.Sound H n' := by
  cases e with
  | commit c =>
    have hcommit := Exec.toOption_eq_some.mp hstep
    obtain ⟨n', hsound, -⟩ := (commit_spec h he).post_of_ok hcommit
    exact ⟨n', hsound⟩
  | join joining signer verifies =>
    have hjoin := Exec.toOption_eq_some.mp hstep
    obtain ⟨himport, -, hcontext⟩ := started_of_fromExternal hjoin
    exact sound_of_started ⟨_, himport, hcontext⟩

lemma sound_of_reaches
    (h : (groupRuns H rules fun g => g.Founded H ∨
      g.Started H).Reaches (fun g e => e.Accompanied g) g) :
    ∃ n, g.Sound H n := by
  have hinit : ∀ g : PublicGroup D, g.Founded H ∨ g.Started H → ∃ n, g.Sound H n := by
    rintro g (hfounded | hstarted)
    · exact ⟨0, sound_of_founded hfounded⟩
    · exact sound_of_started hstarted
  exact h.invariant hinit fun g e g' ⟨_, hsound⟩ he hstep => sound_step hsound he hstep

end

lemma PublicGroup.Sound.entry {g : PublicGroup D} (h : g.Sound H n) {x : TreeNodeIndex}
    (hx : x.u32 < g.treesync.treeHashes.length) :
    g.treesync.treeHashes[x.u32]? = some (g.treesync.emptyDiff.computeTreeHash H x []) := by
  obtain ⟨k, p, rfl⟩ := exists_nodeAt x
  rw [u32_at, h.intact.cached.length] at hx
  rw [u32_at, TreeSyncDiff.computeTreeHash_at]
  exact h.intact.cached.entry k p (InTree.lt_iff.mp hx)

/-- **Soundness of the cache.**  In every run of accompanied commits every entry of the cache is the
    hash of its node from scratch, and the group context has the hash of the root. -/
theorem tree_hashes_sound [DecidableEq D] (H : HashSuite D) (rules : GroupView D)
    {g : PublicGroup D}
    (h : (groupRuns H rules fun g => g.Founded H ∨ g.Started H).Reaches
      (fun g e => e.Accompanied g) g) :
    g.treesync.treeHashes.length = 2 * g.treesync.emptyDiff.leafCount - 1 ∧
      (∀ x : TreeNodeIndex, x.u32 < g.treesync.treeHashes.length →
        g.treesync.treeHashes[x.u32]? = some (g.treesync.emptyDiff.computeTreeHash H x [])) ∧
      g.groupContext.treeHash =
        g.treesync.emptyDiff.computeTreeHash H (root g.treesync.treeSize) [] ∧
      ∀ c, g.Accompanied c → ∀ e, g.commit H rules c = .error e → ¬ e.IsFault := by
  obtain ⟨n, hsound⟩ := sound_of_reaches h
  refine ⟨?_, fun x hx => hsound.entry hx, ?_, fun c hc e he => ?_⟩
  · rw [hsound.intact.cached.length, hsound.wellFormed.leafCount, pow_succ, mul_comm]
  · have hsize : g.treesync.treeSize = .ofDepth n := hsound.intact.shaped.size
    rw [hsize, TreeSize.root_ofDepth, TreeSyncDiff.computeTreeHash_at, hsound.context,
      hsound.intact.treeHash]
    rfl
  · exact (commit_spec hsound hc).not_bad he

/-! ## Runs of a small group -/

def lenientRules : GroupView (List ℕ) where
  leaves := []
  ciphersuite := 1
  version := 1
  supportedProposals _ := []
  validateLeafNode _ := true
  validateLeafNodeCapabilities _ := true
  validatePskId _ := true
  validateExtensions _ := true

def memberLeaf (n : ℕ) : LeafNode (List ℕ) := ⟨100 + n, 200 + n, "u", .keyPackage [], []⟩

def memberPackage (n : ℕ) : KeyPackage (List ℕ) := ⟨memberLeaf n, 300 + n, 1, 1⟩

/-- A member commits its own proposals, with keys that are counted from `fresh` on. -/
def memberCommit (own : ℕ) (ps : List (Proposal (List ℕ))) (fresh : ℕ) : Event (List ℕ) :=
  .commit (.own own (ps.map fun p => (p, .member own)) false ⟨fresh, none, []⟩
    fun k => fresh + 1 + k)

/-- The founder adds members. -/
def invites (ns : List ℕ) : Event (List ℕ) :=
  memberCommit 0 (ns.map fun n => .add (memberPackage n)) 1000

def smallGroup : Machine (PublicGroup (List ℕ)) (Event (List ℕ)) :=
  groupRuns plainHash lenientRules (·.Founded plainHash)

/-- The run of a founder, who has leaf 0, if all its events pass a test. -/
def smallRun (test : PublicGroup (List ℕ) → Event (List ℕ) → Bool) (es : List (Event (List ℕ))) :
    Option (PublicGroup (List ℕ)) :=
  (found plainHash (memberLeaf 0) []).toOption.bind fun g =>
    if smallGroup.allows test g es then smallGroup.run g es else none

variable {ok : PublicGroup (List ℕ) → Event (List ℕ) → Prop}

lemma reaches_smallRun {init : PublicGroup (List ℕ) → Prop}
    (hinit : ∀ g, found plainHash (memberLeaf 0) [] = .ok g → init g)
    {test : PublicGroup (List ℕ) → Event (List ℕ) → Bool} (htest : ∀ g e, test g e = true → ok g e)
    {es : List (Event (List ℕ))} {g : PublicGroup (List ℕ)} (h : smallRun test es = some g) :
    (groupRuns plainHash lenientRules init).Reaches ok g := by
  obtain ⟨g0, hg0, hrun⟩ := Option.bind_eq_some_iff.mp h
  split_ifs at hrun with hallows
  have hstart : (groupRuns plainHash lenientRules init).Reaches ok g0 :=
    .init (hinit _ (Exec.toOption_eq_some.mp hg0))
  have hstep : smallGroup.step = (groupRuns plainHash lenientRules init).step := rfl
  exact hstart.of_run_of_step_eq hstep (Machine.admits_of_allows htest hallows) hrun

lemma exists_smallRun {P : PublicGroup (List ℕ) → Prop}
    (test : PublicGroup (List ℕ) → Event (List ℕ) → Bool) (es : List (Event (List ℕ)))
    (htest : ∀ g e, test g e = true → ok g e) (h : ∃ g, smallRun test es = some g ∧ P g) :
    ∃ g, smallGroup.Reaches ok g ∧ P g := by
  obtain ⟨g, hg, hP⟩ := h
  exact ⟨g, reaches_smallRun (fun _ hg => ⟨_, _, hg⟩) htest hg, hP⟩

/-- The event is a commit that removes nobody, or one of another member that spares leaf `j`. -/
def sparesMember (j : ℕ) (g : PublicGroup (List ℕ)) : Event (List ℕ) → Bool
  | .commit c => (removeProposals (c.proposals g)).isEmpty ||
      decide (j ≠ c.committer g ∧ (g.treesync.leaf j).isSome ∧
        j ∉ removeProposals (c.proposals g))
  | .join _ _ _ => false

lemma accompanied_of_sparesMember {j : ℕ} (g : PublicGroup (List ℕ)) (e : Event (List ℕ))
    (h : sparesMember j g e = true) : e.Accompanied g := by
  cases e with
  | commit c =>
    rcases (Bool.or_eq_true _ _).mp h with hnobody | hspared
    · refine .inl fun i hi => ?_
      rw [List.isEmpty_iff.mp hnobody] at hi
      cases hi
    · obtain ⟨hother, hfull, hnot⟩ := of_decide_eq_true hspared
      exact .inr (.inr ⟨j, hother, hfull, hnot⟩)
  | join joining signer verifies => trivial

/-- The founder adds two members and removes one of them. -/
theorem tree_hashes_sound_removal :
    ∃ g, smallRun (sparesMember 1) [invites [1], memberCommit 0 [.add (memberPackage 2)] 2000,
        memberCommit 0 [.remove 2] 3000] = some g ∧
      (g.treesync.treeHashes.length = 7 ∧ g.treesync.leaf 2 = none) ∧
      g.groupContext.treeHash = g.treesync.emptyDiff.computeTreeHash plainHash
        (root g.treesync.treeSize) [] := by
  refine exists_some_and (by decide +kernel) fun g hg _ => ?_
  obtain ⟨-, -, hroot, -⟩ := tree_hashes_sound plainHash lenientRules
    (reaches_smallRun (fun _ hg => .inl ⟨_, _, hg⟩) accompanied_of_sparesMember hg)
  exact hroot

/-- The founder adds a member and removes it: the cache keeps the hash of the removed leaf. -/
theorem removal_leaves_stale_hash :
    ∃ g, smallGroup.Reaches (fun _ _ => True) g ∧
      g.treesync.leaf 1 = none ∧
      g.treesync.treeHashes[(TreeNodeIndex.leaf 1).u32]? =
        some (plainHash.treeHash (.leaf 1 (some (memberLeaf 1)))) ∧
      g.treesync.treeHashes[(TreeNodeIndex.leaf 1).u32]? ≠
        some (g.treesync.emptyDiff.computeTreeHash plainHash (.leaf 1) []) ∧
      g.groupContext.treeHash ≠ g.treesync.emptyDiff.computeTreeHash plainHash
        (root g.treesync.treeSize) [] :=
  exists_smallRun (fun _ _ => true) [invites [1], memberCommit 0 [.remove 1] 2000]
    (fun _ _ _ => trivial) (by decide +kernel)

end EmulatedMls
