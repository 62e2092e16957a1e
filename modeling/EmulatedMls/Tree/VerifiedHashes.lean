import EmulatedMls.Tree.UnmergedLeaves

/-!
# The check of the parent hashes

A parent's hash is computed when the parent is written, and `verify_parent_hashes` compares it with
the subtrees of a later tree.  It still finds the hash at exactly one child of the parent.
-/

namespace EmulatedMls

variable {D : Type} {H : HashSuite D}

open List TreeSyncDiff

namespace PublicGroup

/-- Everything that the check of the parent hashes depends on. -/
structure Traced (H : HashSuite D) (g : PublicGroup D) (n : ℕ) : Prop where
  formed : g.Formed n
  cached : Cached H g.treesync.contents n g.treesync.treeHashes
  linked : g.treesync.contents.Linked H
  grounded : g.treesync.contents.Grounded H ∅
  inhabited : ∃ i, (g.treesync.contents.leaf i).isSome

lemma traced_of_new {g : PublicGroup D} (h : g.New H) : g.Traced H 0 := by
  obtain ⟨hsound, hlinked, hgrounded, j, -, hj⟩ := exportable_of_new h
  exact ⟨hsound.formed, hsound.intact.cached, hlinked, hgrounded, j, hj⟩

variable [DecidableEq D] {rules : GroupView D} {g g' : PublicGroup D} {m : ℕ}

/-- A commit with proper leaves and a path that has a node, or a joiner. -/
def Event.Pathed (H : HashSuite D) (rules : GroupView D) (g : PublicGroup D) : Event D → Prop
  | .commit c => c.Sourced g ∧ ∃ p, c.updatePath H rules g = some p ∧ p.nodes ≠ []
  | .join _ _ _ => True

lemma Traced.commit (h : g.Traced H m) (hfree : H.CollisionFree) {c : Commit D}
    (hc : Event.Pathed H rules g (.commit c)) (hcommit : g.commit H rules c = .ok g') :
    ∃ n, g'.Traced H n := by
  obtain ⟨n, t', hformed, hshape, hcontents, hhashes⟩ := h.formed.commit hcommit
  obtain ⟨hsourced, p, hsent, hnodes⟩ := hc
  have hwf := h.formed.wellFormed
  cases hshape with
  | untouched hnone =>
    rw [hnone] at hsent
    cases hsent
  | @path us added t _ _ p' fits changes updates adds invited hsent' step =>
    obtain rfl := Option.mem_unique hsent hsent'
    have hlevels : t.pathLevels n (c.committer g) ≠ [] := fun hnil => by
      obtain ⟨ns, hwritten, hkeys⟩ := step.written
      have hns : ns = [] := map_eq_nil_iff.mp (hwritten.levels.trans hnil)
      exact hnodes (by rw [← hkeys, hns]; rfl)
    obtain ⟨es, hset⟩ := step.tracked _ m (tracks_of_changes hwf h.cached changes)
      changes.frame.2.2 fun hnil => absurd hnil hlevels
    have hgrounded := hsourced.grounded h.grounded changes updates fun e he =>
      (adds e he).imp_right And.right
    refine ⟨n, hformed, ?_, ?_, ?_, c.committer g, ?_⟩ <;> rw [hcontents]
    · rw [hhashes]
      exact hset.cached
    · exact hset.linked step.wellFormed (changes.linked hwf h.linked)
    · rw [hset.contents]
      exact hgrounded.withPath hfree hset.carries
    · rw [hset.contents, Contents.leaf_edit_self]
      rfl

lemma Traced.join (h : g.Traced H m) {joining : JoinRules D} {info : GroupInfo D}
    (hjoin : fromExternal H joining g.treesync.exportRatchetTree info = .ok g') :
    ∃ n, g'.Traced H n := by
  obtain ⟨himport, -, -⟩ := started_of_fromExternal hjoin
  obtain ⟨n, hwf, hintact⟩ := TreeSync.fromRatchetTree_sound himport
  have hcontents := TreeSync.contents_import h.formed.sized h.formed.wellFormed h.linked.branching
    h.inhabited himport
  exact ⟨n, ⟨⟨hintact.leaves, hintact.parents⟩, hwf⟩, hintact.cached, hcontents ▸ h.linked,
    hcontents ▸ h.grounded, hcontents ▸ h.inhabited⟩

lemma traced_of_reaches (hfree : H.CollisionFree)
    (h : (groupRuns H rules (·.New H)).Reaches (fun g e => e.Pathed H rules g) g) :
    ∃ n, g.Traced H n := by
  have hstart : ∀ g : PublicGroup D, g.New H → ∃ n, g.Traced H n := fun g hg =>
    ⟨0, traced_of_new hg⟩
  refine h.invariant hstart ?_
  rintro g e g' ⟨m, htraced⟩ hpathed hstep
  cases e with
  | commit c => exact htraced.commit hfree hpathed (Exec.toOption_eq_some.mp hstep)
  | join joining signer verifies => exact htraced.join (Exec.toOption_eq_some.mp hstep)

end PublicGroup

open PublicGroup

/-- **Parent hashes.**  In every run whose commits carry a path with a node, exactly one child of
    each parent carries its parent hash. -/
theorem parent_hashes_verified [DecidableEq D] (H : HashSuite D) (rules : GroupView D)
    (hfree : H.CollisionFree) {g : PublicGroup D}
    (h : (groupRuns H rules (·.New H)).Reaches (fun g e => e.Pathed H rules g) g) :
    g.treesync.emptyDiff.verifyParentHashes H = .ok () ∧
      ∀ k p q, g.treesync.contents.parent k p = some q →
        Xor (g.treesync.contents.CarriesFor H k q (2 * p))
          (g.treesync.contents.CarriesFor H k q (2 * p + 1)) := by
  obtain ⟨n, htraced⟩ := traced_of_reaches hfree h
  have hsided := htraced.grounded.oneSided
  refine ⟨verifyParentHashes_of_linked htraced.linked hsided htraced.formed.wellFormed
    htraced.cached fun e he => TreeSync.eq_parent_of_mem_parents he, fun k p q hq => ?_⟩
  have hboth := hsided k p q hq
  rcases (htraced.linked k p q hq).linked.carriesFor with hl | hr
  · exact .inl ⟨hl, fun hr => hboth ⟨hl, hr⟩⟩
  · exact .inr ⟨hr, fun hl => hboth ⟨hl, hr⟩⟩

/-- The event is a commit with proper leaves whose path has a node. -/
def hasPathNode (g : PublicGroup (List ℕ)) : Event (List ℕ) → Bool
  | .commit c => decide (c.Sourced g) &&
      (c.updatePath plainHash lenientRules g).any fun p => !p.nodes.isEmpty
  | .join _ _ _ => false

lemma pathed_of_hasPathNode (g : PublicGroup (List ℕ)) (e : Event (List ℕ))
    (h : hasPathNode g e = true) : e.Pathed plainHash lenientRules g := by
  cases e with
  | commit c =>
    simpa only [hasPathNode, Bool.and_eq_true, decide_eq_true_eq, Option.any_eq_true,
      Bool.not_eq_true', isEmpty_eq_false_iff, Event.Pathed] using h
  | join joining signer verifies => trivial

/-- The new member is unmerged in a parent. -/
theorem parent_hashes_verified_refill :
    ∃ g q, smallRun hasPathNode refill = some g ∧
      g.treesync.contents.parent 1 0 = some q ∧ q.unmergedLeaves = [3] ∧
      g.treesync.emptyDiff.verifyParentHashes plainHash = .ok () := by
  obtain ⟨g, hg, q, hq, hlist⟩ : ∃ g ∈ smallRun hasPathNode refill,
      ∃ q ∈ g.treesync.contents.parent 1 0, q.unmergedLeaves = [3] := by
    decide +kernel
  have hreaches : (groupRuns plainHash lenientRules
      (·.New plainHash)).Reaches _ g :=
    reaches_smallRun (fun _ hg => ⟨_, _, rfl, hg⟩) pathed_of_hasPathNode hg
  exact ⟨g, q, hg, hq, hlist,
    (parent_hashes_verified plainHash lenientRules plainHash_collisionFree hreaches).1⟩

end EmulatedMls
