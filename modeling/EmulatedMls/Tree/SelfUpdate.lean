import EmulatedMls.Mls.FilterRule
import EmulatedMls.Tree.TreeKem

/-!
# Self updates

A self update commits the proposals of the store with the default parameters for the own leaf.  It
has no flag of its own for the path: the path is there if the proposals require one.

**Source.**  `self_update` of `group/mls_group/updates.rs` and `build_internal` of
`group/mls_group/commit_builder.rs`.

**Left out.**  The check that no commit is pending and the loading of the pre-shared keys; both only
refuse calls.
-/

namespace EmulatedMls

open Exec List

variable {D Ref : Type}

inductive SelfUpdateError where
  | queue (e : ProposalQueueError)
  | commit (e : CommitError)

/-- A kind that is committed without a path. -/
def Proposal.goesWithoutPath : Proposal D → Bool
  | .preSharedKey _ | .custom _ _ => true
  | _ => false

namespace PublicGroup

open TreeSyncDiff

section Definitions

variable [DecidableEq D] [DecidableEq Ref]

/-- `self_update` with the default `LeafNodeParameters`. -/
def selfUpdate (H : HashSuite D) (rules : GroupView D) (R : RefHash D Ref) (O : MapOrder)
    (g : PublicGroup D) (own : ℕ) (store : ProposalStore D) (rest : Bytes) (key : Key)
    (keys : ℕ → Key) : Except SelfUpdateError (PublicGroupDiff D × Option (UpdatePath D)) :=
  match ProposalQueue.filterProposalsWithoutInline O (store.proposals R) own with
  | .error e => .error (.queue e)
  | .ok (queue, containsOwnUpdates) =>
    match g.createCommit H rules own queue.entries containsOwnUpdates ⟨key, none, rest⟩ keys with
    | .error e => .error (.commit e)
    | .ok r => .ok r

end Definitions

/-- The commit `d` carries a path, and in the group `g'` after it the own leaf and all nodes of its
    filtered direct path have the new keys. -/
def Refreshed (d : PublicGroupDiff D) (path : Option (UpdatePath D)) (g' : PublicGroup D) (own : ℕ)
    (key : Key) (keys : ℕ → Key) : Prop :=
  path.isSome ∧ (g'.treesync.leaf own).map (·.encryptionKey) = some key ∧
    ∃ nodes, d.diff.filteredDirectPath own = .ok nodes ∧
      nodes.map (fun x => (g'.treesync.tree.parentByIndex x).map (·.encryptionKey)) =
        (List.range nodes.length).map fun k => some (keys k)

/-- Something in the store requires a path, or nothing in it goes into the commit. -/
def Refreshing (store : ProposalStore D) : Prop :=
  (∃ c ∈ store, c.1.proposal.isPathRequired = true) ∨
    ∀ c ∈ store, c.1.proposal.goesWithoutPath = false

/-! ## When there is a path -/

section

variable {R : RefHash D Ref} {O : MapOrder} {own : ℕ} {store : ProposalStore D}
  {q : ProposalQueue D Ref} {flag : Bool}

open QueuedProposal

variable {xs : List (QueuedProposal D Ref)} {x : QueuedProposal D Ref}

lemma isPathRequired_of_concerns {i : ℕ} (h : x.concerns i = true) :
    x.proposal.isPathRequired = true := by
  cases hp : x.proposal <;> simp [concerns, isRemoveOf, isUpdateBy, hp] at h <;> rfl

lemma exists_survivor (hx : x ∈ xs) (hparsed : x.isParsed = true)
    (hpath : x.proposal.isPathRequired = true) (hown : xs.any (isUpdateBy own) = false) :
    ∃ y, Survives own xs y ∧ y.proposal.isPathRequired = true := by
  have hlast : ∀ i, x.concerns i = true →
      ∃ y, Survives own xs y ∧ y.proposal.isPathRequired = true := by
    intro i hi
    have hmem : x ∈ xs.filter (isRemoveOf i) ∨ x ∈ xs.filter (isUpdateOf own i) := by
      refine ((Bool.or_eq_true _ _).mp hi).imp (fun h => mem_filter.mpr ⟨hx, h⟩) fun h =>
        mem_filter.mpr ⟨hx, isUpdateOf_iff.mpr ⟨h, ?_⟩⟩
      rintro rfl
      exact Bool.eq_false_iff.mp hown (any_eq_true.mpr ⟨x, hx, h⟩)
    have hsome : lastFor own xs i ≠ none := by
      rw [lastFor, ne_eq, Option.or_eq_none_iff, getLast?_eq_none_iff,
        getLast?_eq_none_iff, not_and_or]
      exact hmem.imp ne_nil_of_mem ne_nil_of_mem
    obtain ⟨y, hy⟩ := Option.ne_none_iff_exists'.mp hsome
    obtain ⟨hsurvives, hconcerns⟩ := survives_of_lastFor hy
    exact ⟨y, hsurvives, isPathRequired_of_concerns hconcerns⟩
  cases hp : x.proposal with
  | add kp => exact ⟨x, .inl ⟨hx, .inl (by simp [isAdd, hp])⟩, hpath⟩
  | groupContextExtensions e => exact ⟨x, .inl ⟨hx, .inr (by simp [isKept, hp])⟩, hpath⟩
  | remove i => exact hlast i (by simp [concerns, isRemoveOf, hp])
  | update l =>
    cases hs : x.sender with
    | member i => exact hlast i (by simp [concerns, isUpdateBy, hp, hs])
    | _ => simp [isParsed, hp, hs] at hparsed
  | externalInit k =>
    have hsome : (xs.find? isExternalInit).isSome :=
      find?_isSome.mpr ⟨x, hx, by simp [isExternalInit, hp]⟩
    obtain ⟨y, hy⟩ := Option.isSome_iff_exists.mp hsome
    refine ⟨y, .inr (.inl hy), ?_⟩
    have hinit := find?_some hy
    cases hy : y.proposal <;> simp [isExternalInit, hy] at hinit
    rfl
  | _ => simp [hp, Proposal.isPathRequired] at hpath

lemma kind_of_survives (h : Survives own xs x) :
    x.proposal.isPathRequired = true ∨ x.proposal.goesWithoutPath = true := by
  rcases h with ⟨-, h⟩ | h | ⟨i, h⟩ | ⟨i, -, h⟩
  · cases hp : x.proposal <;> simp [isAdd, isKept, hp] at h <;>
      first | exact .inl rfl | exact .inr rfl
  · have hinit := find?_some h
    cases hp : x.proposal <;> simp [isExternalInit, hp] at hinit
    exact .inl rfl
  · have hi := (mem_filter.mp (mem_of_getLast? h)).2
    exact .inl (isPathRequired_of_concerns (i := i) (by simp [concerns, hi]))
  · have hi := isUpdateOf_iff.mp (mem_filter.mp (mem_of_getLast? h)).2
    exact .inl (isPathRequired_of_concerns (i := i) (by simp [concerns, hi.1]))

variable [DecidableEq Ref]

lemma refreshing_iff (hq : ProposalQueue.filterProposalsWithoutInline O (store.proposals R) own =
    .ok (q, flag)) :
    (q.entries.any (·.1.isPathRequired) = true ∨ q.entries = [] ∨ flag = true) ↔
      Refreshing store := by
  set xs := store.proposals R with hxs
  have hstore : Refreshing store ↔ (∃ x ∈ xs, x.proposal.isPathRequired = true) ∨
      ∀ x ∈ xs, x.proposal.goesWithoutPath = false := by
    rw [hxs, ProposalStore.proposals, forall_mem_map]
    simp only [mem_map, exists_exists_and_eq_and]
    rfl
  have hmade : Made R (.member own) xs := by simpa using made_inline R (.member own) store []
  obtain ⟨-, hsurvivors, hqueue⟩ := filtered_entries hmade hq
  obtain ⟨rfl, hparsed⟩ := ProposalQueue.filter_flag hq
  have hentry : ∀ y, Survives own xs y → ∃ e ∈ q.entries, e.1 = y.proposal := fun y hy => by
    obtain ⟨z, hz, hzy, -⟩ := hsurvivors y hy
    exact ⟨z.entry, mem_map_of_mem hz, congrArg Prod.fst hzy⟩
  rw [hstore]
  constructor
  · rintro (hany | hnil | hown)
    · obtain ⟨e, he, hpath⟩ := any_eq_true.mp hany
      obtain ⟨z, hz, rfl⟩ := mem_map.mp he
      obtain ⟨x, hx, hxz, -⟩ := hqueue z hz
      exact .inl ⟨x, hx.mem, (congrArg (·.1.isPathRequired) hxz).trans hpath⟩
    · refine .inr fun x hx => ?_
      by_contra hkind
      have hkept : x.isKept = true := by
        cases hp : x.proposal <;> simp [Proposal.goesWithoutPath, isKept, hp] at hkind ⊢
      obtain ⟨e, he, -⟩ := hentry x (.inl ⟨hx, .inr hkept⟩)
      rw [hnil] at he
      cases he
    · obtain ⟨x, hx, hupdate⟩ := any_eq_true.mp hown
      obtain ⟨l, hp, -⟩ := exists_of_isUpdateBy hupdate
      exact .inl ⟨x, hx, by rw [hp]; rfl⟩
  · intro h
    by_cases hown : xs.any (isUpdateBy own) = true
    · exact .inr (.inr hown)
    by_cases hpath : ∃ x ∈ xs, x.proposal.isPathRequired = true
    · obtain ⟨x, hx, hpath⟩ := hpath
      obtain ⟨y, hy, hrequired⟩ :=
        exists_survivor hx (hparsed x hx) hpath (Bool.eq_false_iff.mpr hown)
      obtain ⟨e, he, hey⟩ := hentry y hy
      exact .inl (any_eq_true.mpr ⟨e, he, by rw [hey, hrequired]⟩)
    · refine .inr (.inl (map_eq_nil_iff.mpr (eq_nil_iff_forall_not_mem.mpr fun z hz => ?_)))
      obtain ⟨x, hx, -⟩ := hqueue z hz
      rcases kind_of_survives hx with hkind | hkind
      · exact hpath ⟨x, hx.mem, hkind⟩
      · rw [h.resolve_left hpath x hx.mem] at hkind
        cases hkind

end

/-! ## The keys after it -/

section

variable [DecidableEq D] {H : HashSuite D} {rules : GroupView D} {g g' : PublicGroup D} {own m : ℕ}
  {es : List (Proposal D × Sender)} {selfUpdate : Bool} {params : LeafNodeParameters}
  {keys : ℕ → Key} {d : PublicGroupDiff D} {path : Option (UpdatePath D)}

omit [DecidableEq D] in
lemma pathRequired_iff {t t' : TreeSyncDiff D} {values : ApplyProposalsValues D} {o : Option ℕ}
    (h : applyProposals t es o = .ok (t', values)) :
    values.pathRequired = true ↔ es.any (·.1.isPathRequired) = true ∨ es = [] := by
  obtain ⟨t1, -, h⟩ := bind_inv h
  obtain ⟨t2, -, h⟩ := bind_inv h
  obtain ⟨⟨t3, invited⟩, -, h⟩ := bind_inv h
  cases h
  rw [Bool.or_eq_true, Bool.or_eq_true, List.isEmpty_iff]
  refine or_congr_left ⟨fun h => h.elim id fun hsome => ?_, .inl⟩
  -- an external init requires a path by itself
  obtain ⟨e, he, hk⟩ := findSome?_isSome_iff.mp hsome
  refine any_eq_true.mpr ⟨e, he, ?_⟩
  cases hp : e.1 <;> simp [hp] at hk
  rfl

lemma refreshed_of_path (hg : g.Formed m) {p : UpdatePath D}
    (h : g.createCommit H rules own es selfUpdate params keys = .ok (d, some p))
    (hmerge : g.mergeDiff d = .ok g') : Refreshed d (some p) g' own params.encryptionKey keys := by
  obtain ⟨values, t, n, us, added, hbuilt, -, hmade, hleaf⟩ := createCommit_built hg.wellFormed h
  have happlied := hbuilt.applied
  have hfull := hbuilt.full
  have hwf := happlied.changes.wellFormed hg.wellFormed
  obtain ⟨nodes, hnodes, hkeys⟩ := hmade.nodes
  obtain ⟨ns, hwritten, hns⟩ := (hmade.step hwf hfull).written
  obtain ⟨hformed, hcontents, -⟩ := Formed.of_mergeDiff hwritten.wellFormed
    (hwritten.tree.trans happlied.changes.frame.2.1) hmerge
  have hlt := hwf.lt_pow hfull
  rw [filteredDirectPath_eq hwf.shaped hlt] at hnodes
  have hlength : nodes.length = ns.length := by
    rw [← Except.ok.inj hnodes, length_map, ← hwritten.levels, length_map]
  refine ⟨rfl, ?_, _, filteredDirectPath_eq hwritten.wellFormed.shaped hlt, ?_⟩
  · rw [← TreeSync.contents_leaf hformed.sized.shaped, hcontents, hwritten.contents,
      Contents.leaf_edit_self, Option.map_some, hleaf]
  · rw [hwritten.pathLevels_eq, ← hwritten.levels, map_map, map_map, length_map,
      length_map, ← hlength]
    have hnodup : (ns.map Prod.fst).Nodup := hwritten.levels ▸ nodup_pathLevels t n own
    calc ns.map _ = ns.map fun e => some e.2.encryptionKey := map_congr_left fun e he => by
          have hlevel : e.1 < n :=
            (mem_pathLevels.mp (hwritten.levels ▸ mem_map_of_mem he)).1
          show (g'.treesync.contents.parent e.1 _).map _ = _
          rw [hcontents, hwritten.contents, Contents.parent_edit_above hlevel,
            lookup_of_mem hnodup he, Option.map_some]
      _ = ((ns.map (·.2.encryptionKey)).map some) := by rw [map_map]; rfl
      _ = _ := by rw [hns, hkeys, map_map]; rfl

end

/-- **A self update refreshes exactly if the store asks for it**: some stored proposal requires a
    path, or none is a pre-shared key or custom proposal. -/
theorem self_update_refreshes_iff [DecidableEq D] [DecidableEq Ref] (H : HashSuite D)
    (rules : GroupView D) (R : RefHash D Ref) (O : MapOrder) {g g' : PublicGroup D}
    (h : (groupRuns H rules fun g => g.Founded H ∨ g.Started H).Reaches (fun _ _ => True) g)
    {own : ℕ} {store : ProposalStore D} {rest : Bytes} {key : Key} {keys : ℕ → Key}
    {d : PublicGroupDiff D} {path : Option (UpdatePath D)}
    (hd : g.selfUpdate H rules R O own store rest key keys = .ok (d, path))
    (hmerge : g.mergeDiff d = .ok g') : Refreshed d path g' own key keys ↔ Refreshing store := by
  obtain ⟨m, hformed⟩ := formed_of_reaches (fun _ hg => hg) h
  unfold selfUpdate at hd
  split at hd
  · cases hd
  · rename_i queue flag hq
    split at hd
    · cases hd
    · rename_i r hcreate
      cases hd
      obtain ⟨values, t, n, us, added, hbuilt, hneeded, -⟩ :=
        createCommit_built hformed.wellFormed hcreate
      rw [← refreshing_iff hq, ← or_assoc, ← pathRequired_iff hbuilt.apply, ← Bool.or_eq_true,
        hneeded]
      refine ⟨fun hrefreshed => hrefreshed.1, fun hpath => ?_⟩
      obtain ⟨p, rfl⟩ := Option.isSome_iff_exists.mp hpath
      exact refreshed_of_path hformed hcreate hmerge

/-! ## A group of two -/

/-- References that are the hashed values themselves. -/
def contentRefs (D : Type) : RefHash D (AuthenticatedContent D ⊕ Proposal D) :=
  ⟨Sum.inl, Sum.inr, Sum.inl_injective, Sum.inr_injective, fun _ _ => by simp⟩

/-- The founder, who has added a second member, updates itself when that one has proposed `p`. -/
def founderUpdate (g : PublicGroup (List ℕ)) (p : Proposal (List ℕ)) :
    Except SelfUpdateError (PublicGroupDiff (List ℕ) × Option (UpdatePath (List ℕ))) :=
  g.selfUpdate plainHash lenientRules (contentRefs _) insertionOrder 0
    [(⟨.member 1, p, []⟩, .reference)] [] 2000 (2001 + ·)

/-- The proposal of an add is enough for a path. -/
theorem self_update_refreshes_iff_add :
    ∃ g d path g', smallRun (fun _ _ => true) [invites [1]] = some g ∧
      founderUpdate g (.add (memberPackage 2)) = .ok (d, path) ∧ g.mergeDiff d = .ok g' ∧
      Refreshed d path g' 0 2000 (2001 + ·) := by
  obtain ⟨g, hg, ⟨d, path⟩, hd, g', hg', -⟩ : ∃ g ∈ smallRun (fun _ _ => true) [invites [1]],
      ∃ r ∈ (founderUpdate g (.add (memberPackage 2))).toOption,
        ∃ g' ∈ (g.mergeDiff r.1).toOption, g'.groupContext.epoch = 2 := by
    decide +kernel
  rw [Option.mem_def, toOption_eq_some] at hd hg'
  refine ⟨g, d, path, g', hg, hd, hg', (self_update_refreshes_iff plainHash lenientRules
    (contentRefs _) insertionOrder ?_ hd hg').mpr (.inl ⟨_, .head _, rfl⟩)⟩
  exact reaches_smallRun (fun _ hg => .inl ⟨_, _, hg⟩) (fun _ _ _ => trivial) hg

/-- **A pre-shared key alone.**  The commit has no path, and the founder keeps its leaf. -/
theorem psk_update_keeps_leaf :
    ∃ g d g', smallGroup.Reaches (fun _ _ => True) g ∧
      founderUpdate g (.preSharedKey [7]) = .ok (d, none) ∧ g.mergeDiff d = .ok g' ∧
      g'.treesync.leaf 0 = g.treesync.leaf 0 := by
  obtain ⟨g, hg, ⟨d, path⟩, hd, hpath, g', hg', hleaf⟩ := exists_smallRun
    (P := fun g => ∃ r, founderUpdate g (.preSharedKey [7]) = .ok r ∧ r.2.isNone ∧
      ∃ g', g.mergeDiff r.1 = .ok g' ∧ g'.treesync.leaf 0 = g.treesync.leaf 0) (fun _ _ => true)
    [invites [1]] (fun _ _ _ => trivial) (by decide +kernel)
  obtain rfl := Option.isNone_iff_eq_none.mp hpath
  exact ⟨g, d, g', hg, hd, hg', hleaf⟩

end PublicGroup

end EmulatedMls
