import EmulatedMls.Tree.DiffSpec

/-!
# The cache of tree hashes

What the two functions that fill the cache leave in it.
-/

namespace EmulatedMls

open List TreeSize

variable {D : Type} {H : HashSuite D}

/-- The cache holds the hash of every node of the tree of depth `n`. -/
structure Cached (H : HashSuite D) (C : Contents D) (n : ℕ) (hashes : List D) : Prop where
  length : hashes.length = 2 ^ (n + 1) - 1
  entry : ∀ k p, InTree n k p → hashes[inorder k p]? = some (C.hashAt H k p)

variable {k p : ℕ}

lemma Cached.index_eq {C : Contents D} {n : ℕ} {hashes : List D} (h : Cached H C n hashes)
    (hp : InTree n k p) : index hashes (nodeAt k p).u32 = .ok (C.hashAt H k p) := by
  rw [u32_at, index_eq_ok]
  exact h.entry k p hp

namespace TreeSyncDiff

lemma computeTreeHash_exclude (t : TreeSyncDiff D) (k p : ℕ) (excluded : List ℕ) :
    t.computeTreeHash H (nodeAt k p) excluded =
      (t.contents.exclude excluded).hashAt H k p := by
  induction k generalizing p with
  | zero =>
    simp [computeTreeHash, leafTreeHash, Contents.hashAt, Contents.exclude, contents,
      AbDiff.contents]
  | succ k ih =>
    unfold computeTreeHash at ih ⊢
    rw [fold_at_succ, ih, ih, parentTreeHash, Contents.hashAt]
    split_ifs with hnone
    · rw [List.isEmpty_iff.mp hnone, Contents.exclude_nil]
      rfl
    · rfl

lemma computeTreeHash_at (t : TreeSyncDiff D) (k p : ℕ) :
    t.computeTreeHash H (nodeAt k p) [] = t.contents.hashAt H k p := by
  rw [computeTreeHash_exclude, Contents.exclude_nil]

/-! ## Working off the queue -/

/-- The parents that are still to be recomputed, lower levels first. -/
structure Pending (H : HashSuite D) (C : Contents D) (n : ℕ) (hashes : List D)
    (queue : List (ℕ × ℕ)) : Prop where
  length : hashes.length = 2 ^ (n + 1) - 1
  inside : ∀ e ∈ queue, InTree n (e.1 + 1) e.2
  sorted : queue.Pairwise fun e e' => e.1 ≤ e'.1 ∧ e'.1 ≤ e.1 + 1
  covers : ∀ k p, InTree n k p → hashes[inorder k p]? = some (C.hashAt H k p) ∨
    ∃ e ∈ queue, e.1 + 1 ≤ k ∧ e.2 / 2 ^ (k - (e.1 + 1)) = p

namespace Pending

variable {C : Contents D} {n : ℕ} {hashes : List D}

lemma cached (h : Pending H C n hashes []) : Cached H C n hashes where
  length := h.length
  entry k p hp := by simpa using h.covers k p hp

variable {queue : List (ℕ × ℕ)}

lemma entry_below (h : Pending H C n hashes ((k, p) :: queue)) {q : ℕ} (hq : InTree n k q) :
    hashes[inorder k q]? = some (C.hashAt H k q) := by
  rcases h.covers k q hq with hright | ⟨e, he, hle, -⟩
  · exact hright
  · exfalso
    rcases mem_cons.mp he with rfl | he
    · exact absurd hle (by simp)
    · have := ((pairwise_cons.mp h.sorted).1 e he).1
      omega

def rest (n k p : ℕ) (queue : List (ℕ × ℕ)) : List (ℕ × ℕ) :=
  if k + 1 = n then queue else queue ++ [(k + 1, p / 2)]

lemma step (h : Pending H C n hashes ((k, p) :: queue)) :
    Pending H C n (hashes.set (inorder (k + 1) p) (C.hashAt H (k + 1) p)) (rest n k p queue) := by
  obtain ⟨hfirst, hsorted⟩ := pairwise_cons.mp h.sorted
  have hin : InTree n (k + 1) p := h.inside _ mem_cons_self
  refine ⟨by simpa using h.length, fun e he => ?_, ?_, fun k' p' hp' => ?_⟩
  · unfold rest at he
    split_ifs at he with hroot
    · exact h.inside e (.tail _ he)
    · rcases mem_append.mp he with he | he
      · exact h.inside e (.tail _ he)
      · rw [mem_singleton.mp he]
        exact hin.parent (lt_of_le_of_ne hin.1 hroot)
  · unfold rest
    split_ifs with hroot
    · exact hsorted
    · refine pairwise_append.mpr ⟨hsorted, pairwise_singleton _ _, fun e he e' he' => ?_⟩
      rw [mem_singleton.mp he']
      have := hfirst e he
      exact ⟨this.2, Nat.succ_le_succ this.1⟩
  · by_cases hself : k' = k + 1 ∧ p' = p
    · obtain ⟨rfl, rfl⟩ := hself
      left
      rw [getElem?_set_self (by rw [h.length]; exact InTree.lt_iff.mpr hin)]
    · have hne : inorder (k + 1) p ≠ inorder k' p' := fun heq =>
        hself ⟨(inorder_inj heq).1.symm, (inorder_inj heq).2.symm⟩
      rw [getElem?_set_ne hne]
      rcases h.covers k' p' hp' with hright | ⟨e, he, hle, hpos⟩
      · exact .inl hright
      · right
        rcases mem_cons.mp he with rfl | he
        · -- the entry lies above the first node, so the parent of that node is queued
          have hlt : k + 1 < k' := lt_of_le_of_ne hle fun heq => by
            subst heq
            simp only [Nat.sub_self, pow_zero, Nat.div_one] at hpos
            exact hself ⟨rfl, hpos.symm⟩
          have hroot : k + 1 ≠ n := fun heq => by
            have := hp'.1
            omega
          refine ⟨(k + 1, p / 2), by simp [rest, hroot], hlt, ?_⟩
          rw [Nat.div_div_eq_div_mul, ← pow_succ', ← hpos]
          congr 2
          omega
        · refine ⟨e, ?_, hle, hpos⟩
          unfold rest
          split_ifs
          · exact he
          · exact mem_append_left _ he

end Pending

def workload (n : ℕ) (queue : List (ℕ × ℕ)) : ℕ := (queue.map fun e => n - e.1).sum

lemma workload_le (n : ℕ) (queue : List (ℕ × ℕ)) : workload n queue ≤ queue.length * n := by
  induction queue with
  | nil => simp [workload]
  | cons e queue ih =>
    simp only [workload, map_cons, sum_cons, length_cons, add_mul] at ih ⊢
    omega

variable {n k p m : ℕ} {hashes : List D} {C : Contents D}
  {d : AbDiff (TreeSyncLeafNode D) (TreeSyncParentNode D)} {ms : List (ℕ × TreeSyncLeafNode D)}

lemma workload_rest (h : InTree n (k + 1) p) (queue : List (ℕ × ℕ)) :
    workload n (Pending.rest n k p queue) + 1 = workload n ((k, p) :: queue) := by
  have hk := h.1
  unfold Pending.rest
  split_ifs with hroot
  · simp only [workload, map_cons, sum_cons]
    omega
  · simp only [workload, map_append, sum_append, map_cons, sum_cons, map_nil, sum_nil]
    omega

lemma map_rest (hin : InTree n (k + 1) p) (queue : List (ℕ × ℕ)) :
    (if TreeNodeIndex.parent (inorder k p) ≠ root (.ofDepth n) then
        queue.map (fun e => inorder e.1 e.2) ++ [parent (.parent (inorder k p))]
      else queue.map fun e => inorder e.1 e.2) =
      (Pending.rest n k p queue).map fun e => inorder e.1 e.2 := by
  rw [root_ofDepth, ← nodeAt_succ, parent_at]
  unfold Pending.rest
  by_cases hroot : k + 1 = n
  · subst hroot
    obtain rfl := hin.eq_root
    simp
  · have hne : nodeAt (k + 1) p ≠ nodeAt n 0 := fun heq => by
      have := congrArg TreeNodeIndex.u32 heq
      rw [u32_at, u32_at] at this
      exact hroot (inorder_inj this).1
    rw [if_pos hne, if_neg hroot, map_append, map_singleton]

/-- **The queue is worked off.** -/
lemma drainQueue_spec (hsize : d.size = .ofDepth n)
    (hparent : ∀ k p, d.parent (inorder k p) = C.parent k p) {fuel : ℕ} {queue : List (ℕ × ℕ)}
    (h : Pending H C n hashes queue) (hfuel : workload n queue ≤ fuel) :
    ∃ hashes', drainQueue H d fuel (queue.map fun e => inorder e.1 e.2) hashes = .ok hashes' ∧
      Cached H C n hashes' := by
  induction fuel generalizing queue hashes with
  | zero =>
    cases queue with
    | nil => exact ⟨hashes, rfl, h.cached⟩
    | cons e queue =>
      have hin := (h.inside e mem_cons_self).1
      simp only [workload, map_cons, sum_cons] at hfuel
      omega
  | succ fuel ih =>
    cases queue with
    | nil => exact ⟨hashes, rfl, h.cached⟩
    | cons e queue =>
      obtain ⟨k, p⟩ := e
      have hin : InTree n (k + 1) p := h.inside _ mem_cons_self
      have hwork := workload_rest hin queue
      obtain ⟨hashes', heq, hcached⟩ := ih h.step (by omega)
      refine ⟨hashes', ?_, hcached⟩
      have hl : index hashes (left (inorder k p)).u32 = .ok (C.hashAt H k (2 * p)) := by
        rw [left_inorder, u32_at, index_eq_ok]
        exact h.entry_below hin.children.1
      have hr : index hashes (right (inorder k p)).u32 = .ok (C.hashAt H k (2 * p + 1)) := by
        rw [right_inorder, u32_at, index_eq_ok]
        exact h.entry_below hin.children.2
      have hstore : store hashes (TreeNodeIndex.parent (inorder k p)).u32
          (C.hashAt H (k + 1) p) =
            .ok (hashes.set (inorder (k + 1) p) (C.hashAt H (k + 1) p)) := by
        rw [u32_parent_inorder, store_eq_ok]
        exact ⟨by rw [h.length]; exact InTree.lt_iff.mpr hin, rfl⟩
      rw [map_cons, drainQueue, hl, hr]
      rw [hparent]
      show (store hashes (TreeNodeIndex.parent (inorder k p)).u32 (C.hashAt H (k + 1) p) >>= _)
        = _
      rw [hstore]
      rw [hsize, map_rest hin]
      exact heq

/-! ## Storing the leaves -/

/-- The entries that a list of leaves gives. -/
def leafEntries (H : HashSuite D) (ms : List (ℕ × TreeSyncLeafNode D)) : List (ℕ × D) :=
  ms.map fun e => (inorder 0 e.1, leafTreeHash H e.1 e.2)

lemma storeLeaves_eq (hms : ∀ e ∈ ms, e.1 < 2 ^ n) (hlen : hashes.length = 2 ^ (n + 1) - 1)
    (queue : List ℕ) :
    storeLeaves H (.ofDepth n) ms hashes queue =
      .ok ((leafEntries H ms).foldl (fun v e => v.set e.1 e.2) hashes,
        queue ++ if n = 0 then [] else ms.map fun e => inorder 0 (e.1 / 2)) := by
  induction ms generalizing hashes queue with
  | nil => simp [storeLeaves, leafEntries]
  | cons e ms ih =>
    obtain ⟨i, l⟩ := e
    have hi : i < 2 ^ n := hms _ mem_cons_self
    have hstore : store hashes (TreeNodeIndex.leaf i).u32 (leafTreeHash H i l) =
        .ok (hashes.set (inorder 0 i) (leafTreeHash H i l)) := by
      rw [← nodeAt_zero, u32_at, store_eq_ok]
      exact ⟨by rw [hlen]; exact InTree.lt_iff.mpr (.leaf hi), rfl⟩
    rw [storeLeaves, hstore]
    show storeLeaves H _ ms _ (if _ then _ else _) = _
    rw [ih (fun e he => hms e (.tail _ he)) (by simpa using hlen),
      ← nodeAt_zero, parent_at, root_ofDepth]
    cases n with
    | zero =>
      obtain rfl : i = 0 := by simpa using hi
      simp [leafEntries]
    | succ n => simp [leafEntries]

lemma getElem?_leafEntries_of_mem (hms : ∀ e ∈ ms, e.1 < 2 ^ n ∧ C.leaf e.1 = e.2)
    (hlen : hashes.length = 2 ^ (n + 1) - 1) {e : ℕ × TreeSyncLeafNode D} (he : e ∈ ms) :
    ((leafEntries H ms).foldl (fun v e => v.set e.1 e.2) hashes)[inorder 0 e.1]? =
      some (C.hashAt H 0 e.1) := by
  have hvalue : ∀ e ∈ ms, leafTreeHash H e.1 e.2 = C.hashAt H 0 e.1 := fun e he => by
    rw [← (hms e he).2]
    rfl
  refine getElem?_foldl_set_of_mem ?_ ?_ fun b hb => ?_
  · rw [hlen]
    exact InTree.lt_iff.mpr (.leaf (hms e he).1)
  · rw [← hvalue e he]
    exact mem_map.mpr ⟨e, he, rfl⟩
  · obtain ⟨e', he', heq⟩ := mem_map.mp hb
    obtain ⟨hidx, rfl⟩ := Prod.mk.inj heq
    rw [hvalue e' he', (inorder_inj hidx).2]

lemma getElem?_leafEntries_of_notMem (h : ∀ e ∈ ms, e.1 / 2 ^ k ≠ p) :
    ((leafEntries H ms).foldl (fun v e => v.set e.1 e.2) hashes)[inorder k p]? =
      hashes[inorder k p]? := by
  refine getElem?_foldl_set_of_notMem fun b hb => ?_
  obtain ⟨e, he, heq⟩ := mem_map.mp hb
  obtain ⟨rfl, rfl⟩ := inorder_inj (Prod.mk.inj heq).1
  exact h e he (by simp)

lemma pending_storeLeaves (hms : ∀ e ∈ ms, e.1 < 2 ^ n ∧ C.leaf e.1 = e.2)
    (hlen : hashes.length = 2 ^ (n + 1) - 1)
    (hoff : ∀ k p, InTree n k p → (∀ e ∈ ms, e.1 / 2 ^ k ≠ p) → hashes[inorder k p]? =
      some (C.hashAt H k p)) :
    Pending H C n ((leafEntries H ms).foldl (fun v e => v.set e.1 e.2) hashes)
      (if n = 0 then [] else ms.map fun e => (0, e.1 / 2)) := by
  refine ⟨by rw [length_foldl_set, hlen], fun e he => ?_, ?_, fun k p hp => ?_⟩
  · split_ifs at he with hn
    · cases he
    · obtain ⟨e, hmem, rfl⟩ := mem_map.mp he
      exact (InTree.leaf (hms e hmem).1).parent (Nat.pos_of_ne_zero hn)
  · split_ifs
    · exact List.Pairwise.nil
    · exact pairwise_map.mpr (pairwise_of_forall fun _ _ => ⟨le_refl _, Nat.zero_le _⟩)
  · by_cases hbelow : ∀ e ∈ ms, e.1 / 2 ^ k ≠ p
    · left
      rw [getElem?_leafEntries_of_notMem hbelow, hoff k p hp hbelow]
    · push Not at hbelow
      obtain ⟨e, he, rfl⟩ := hbelow
      cases k with
      | zero =>
        left
        rw [pow_zero, Nat.div_one]
        exact getElem?_leafEntries_of_mem hms hlen he
      | succ k =>
        right
        have hn : n ≠ 0 := fun hn => by
          have := hp.1
          omega
        refine ⟨(0, e.1 / 2), ?_, by omega, ?_⟩
        · rw [if_neg hn]
          exact mem_map.mpr ⟨e, he, rfl⟩
        · show e.1 / 2 / 2 ^ (k + 1 - (0 + 1)) = e.1 / 2 ^ (k + 1)
          rw [Nat.div_div_eq_div_mul, ← pow_succ']
          rfl

lemma storeLeaves_drainQueue (hsize : d.size = .ofDepth n)
    (hparent : ∀ k p, d.parent (inorder k p) = C.parent k p)
    (hlen : hashes.length = 2 ^ (n + 1) - 1) (hms : ∀ e ∈ ms, e.1 < 2 ^ n ∧ C.leaf e.1 = e.2)
    (hoff : ∀ k p, InTree n k p → (∀ e ∈ ms, e.1 / 2 ^ k ≠ p) → hashes[inorder k p]? =
      some (C.hashAt H k p)) :
    ∃ stored queue hashes', storeLeaves H d.size ms hashes [] = .ok (stored, queue) ∧
      drainQueue H d (queue.length * d.size.u32) queue stored = .ok hashes' ∧
      Cached H C n hashes' := by
  have hstored := storeLeaves_eq (H := H) (fun e he => (hms e he).1) hlen []
  set queue := if n = 0 then [] else ms.map fun e => (0, e.1 / 2) with hqueue
  have hnodes : ([] ++ if n = 0 then [] else ms.map fun e => inorder 0 (e.1 / 2)) =
      queue.map fun e => inorder e.1 e.2 := by
    rw [hqueue]
    split_ifs
    · rfl
    · simp
  rw [hnodes, ← hsize] at hstored
  have hfuel : workload n queue ≤
      (queue.map fun e => inorder e.1 e.2).length * d.size.u32 := by
    have hdepth : n ≤ d.size.u32 := by
      rw [hsize]
      show n ≤ 2 ^ (n + 1) - 1
      have := Nat.lt_two_pow_self (n := n)
      omega
    rw [length_map]
    exact (workload_le n queue).trans (Nat.mul_le_mul_left _ hdepth)
  obtain ⟨hashes', hdrain, hcached⟩ :=
    drainQueue_spec hsize hparent (pending_storeLeaves hms hlen hoff) hfuel
  exact ⟨_, _, hashes', hstored, hdrain, hcached⟩

/-! ## Bringing the cache up to date -/

lemma getElem?_resize_cache (h : Cached H C m hashes) (hmn : m ≤ n) (hp : InTree n k p) :
    InTree m k p ∧ (resize hashes (2 ^ (n + 1) - 1) H.empty)[inorder k p]? =
        some (C.hashAt H k p) ∨
      ¬ InTree m k p ∧ (resize hashes (2 ^ (n + 1) - 1) H.empty)[inorder k p]? = some H.empty := by
  have hpow : 2 ^ (m + 1) ≤ 2 ^ (n + 1) := Nat.pow_le_pow_right (by omega) (by omega)
  have hlen := h.length
  have hlt := InTree.lt_iff.mpr hp
  rw [resize, take_of_length_le (by omega)]
  by_cases hin : InTree m k p
  · left
    rw [getElem?_append_left (by rw [hlen]; exact InTree.lt_iff.mpr hin)]
    exact ⟨hin, h.entry k p hin⟩
  · right
    have hge : hashes.length ≤ inorder k p := by
      rw [hlen, ← not_lt]
      exact fun hc => hin (InTree.lt_iff.mp hc)
    rw [getElem?_append_right hge, getElem?_replicate, if_pos (by omega)]
    exact ⟨hin, rfl⟩

lemma getElem?_resize_leaf {i : ℕ} (h : Cached H C m hashes) (hmn : m ≤ n) (hi : i < 2 ^ n) :
    (resize hashes (2 ^ (n + 1) - 1) H.empty)[2 * i]? = some H.empty ↔ 2 ^ m ≤ i := by
  rw [← inorder_zero]
  rcases getElem?_resize_cache h hmn (InTree.leaf hi) with ⟨hin, heq⟩ | ⟨hin, heq⟩
  · rw [heq]
    refine ⟨fun h => absurd (Option.some.inj h) (H.treeHash_ne_empty _), fun h => ?_⟩
    exact absurd hin.2 (by simpa using h)
  · rw [heq]
    exact ⟨fun _ => not_lt.mp fun hlt => hin (.leaf hlt), fun _ => rfl⟩

lemma exists_leaf_of_not_inTree (hp : InTree n k p) (hm : ¬ InTree m k p) :
    ∃ i, 2 ^ m ≤ i ∧ i < 2 ^ n ∧ i / 2 ^ k = p := by
  have hpos : 0 < 2 ^ k := by positivity
  refine ⟨p * 2 ^ k + (2 ^ k - 1), ?_, hp.last_leaf, ?_⟩
  · rcases Nat.lt_or_ge m k with hlt | hge
    · have : 2 ^ (m + 1) ≤ 2 ^ k := Nat.pow_le_pow_right (by omega) hlt
      omega
    · have hpm : 2 ^ (m - k) ≤ p := by
        by_contra hlt
        exact hm ⟨hge, by omega⟩
      have hmul := Nat.mul_le_mul_right (2 ^ k) hpm
      rw [← pow_add, Nat.sub_add_cancel hge] at hmul
      omega
  · rw [mul_comm, Nat.mul_add_div hpos, Nat.div_eq_of_lt (by omega), add_zero]

variable {t : TreeSyncDiff D}

section

variable [DecidableEq D]

lemma addFreshLeaves_spec (hashes : List D) (leaves : ℕ)
    (modified : List (ℕ × TreeSyncLeafNode D)) :
    modified ⊆ addFreshLeaves H hashes leaves modified ∧
      (∀ e ∈ addFreshLeaves H hashes leaves modified, e ∈ modified ∨
        e.1 < leaves ∧ e.2 = none ∧ hashes[2 * e.1]? = some H.empty ∧
          ∀ e' ∈ modified, e'.1 ≠ e.1) ∧
      ∀ i < leaves, hashes[2 * i]? = some H.empty →
        ∃ e ∈ addFreshLeaves H hashes leaves modified, e.1 = i := by
  induction leaves with
  | zero => exact ⟨fun _ h => h, fun e he => .inl he, fun i hi => absurd hi (by omega)⟩
  | succ m ih =>
    obtain ⟨hsub, hnew, hall⟩ := ih
    have hstep : addFreshLeaves H hashes (m + 1) modified =
        if hashes[2 * m]? = some H.empty ∧ ¬ (addFreshLeaves H hashes m modified).any (·.1 = m)
        then addFreshLeaves H hashes m modified ++ [(m, none)]
        else addFreshLeaves H hashes m modified := by
      rw [addFreshLeaves, range_succ, foldl_append, foldl_cons, foldl_nil]
      rfl
    rw [hstep]
    split_ifs with hfresh
    · obtain ⟨hempty, hnone⟩ := hfresh
      have hnone' : ∀ e ∈ addFreshLeaves H hashes m modified, e.1 ≠ m := fun e he heq =>
        hnone (any_eq_true.mpr ⟨e, he, by simpa using heq⟩)
      refine ⟨fun e he => mem_append_left _ (hsub he), fun e he => ?_, fun i hi hi' => ?_⟩
      · rcases mem_append.mp he with he | he
        · rcases hnew e he with h | ⟨hlt, h⟩
          · exact .inl h
          · exact .inr ⟨by omega, h⟩
        · rw [mem_singleton.mp he]
          exact .inr ⟨by simp, rfl, hempty, fun e' he' => hnone' e' (hsub he')⟩
      · rcases Nat.lt_succ_iff_lt_or_eq.mp hi with hlt | rfl
        · obtain ⟨e, he, heq⟩ := hall i hlt hi'
          exact ⟨e, mem_append_left _ he, heq⟩
        · exact ⟨(i, none), by simp, rfl⟩
    · refine ⟨hsub, fun e he => ?_, fun i hi hi' => ?_⟩
      · rcases hnew e he with h | ⟨hlt, h⟩
        · exact .inl h
        · exact .inr ⟨by omega, h⟩
      · rcases Nat.lt_succ_iff_lt_or_eq.mp hi with hlt | rfl
        · exact hall i hlt hi'
        · by_contra hcon
          push Not at hcon
          refine hfresh ⟨hi', fun hany => ?_⟩
          obtain ⟨e, he, heq⟩ := any_eq_true.mp hany
          exact hcon e he (by simpa using heq)

variable {modified : List (ℕ × TreeSyncLeafNode D)} {C C' : Contents D}

/-- One of the modified and new leaves lies below every entry that is wrong. -/
lemma addFreshLeaves_covers {m n : ℕ} {hashes : List D} (hcache : Cached H C m hashes)
    (hmn : m ≤ n) (hbeyond : ∀ i, 2 ^ m ≤ i → C.leaf i = none)
    (hmod : ∀ e ∈ modified, e.1 < 2 ^ n ∧ C'.leaf e.1 = e.2)
    (hagree : Contents.AgreeOff {i | ∃ e ∈ modified, e.1 = i} C C') {resized : List D}
    (hresized : resized = resize hashes (2 ^ (n + 1) - 1) H.empty) :
    (∀ e ∈ addFreshLeaves H resized (2 ^ n) modified, e.1 < 2 ^ n ∧ C'.leaf e.1 = e.2) ∧
      ∀ k p, InTree n k p →
        (∀ e ∈ addFreshLeaves H resized (2 ^ n) modified, e.1 / 2 ^ k ≠ p) →
        resized[inorder k p]? = some (C'.hashAt H k p) := by
  obtain ⟨hsub, hnew, hall⟩ := addFreshLeaves_spec (H := H) resized (2 ^ n) modified
  subst hresized
  refine ⟨fun e he => ?_, fun k p hp hnot => ?_⟩
  · rcases hnew e he with h | ⟨hlt, hnone, hblank, hnot⟩
    · exact hmod e h
    · refine ⟨hlt, ?_⟩
      have hold : C'.leaf e.1 = C.leaf e.1 :=
        hagree.leaf e.1 fun ⟨e', he', heq⟩ => hnot e' he' heq
      rw [hold, hnone, hbeyond _ ((getElem?_resize_leaf hcache hmn hlt).mp hblank)]
  · rcases getElem?_resize_cache hcache hmn hp with ⟨-, heq⟩ | ⟨hin, -⟩
    · rw [heq, hagree.hashAt_eq H]
      rintro i ⟨e, he, rfl⟩
      exact hnot e (hsub he)
    · obtain ⟨i, him, hin, hip⟩ := exists_leaf_of_not_inTree hp hin
      obtain ⟨e, he, rfl⟩ := hall i hin ((getElem?_resize_leaf hcache hmn hin).mpr him)
      exact absurd hip (hnot e he)

/-- **Update of the cache** after a change along the paths of the listed leaves. -/
lemma updateTreeHashes_spec {m n : ℕ} (hsize : t.diff.size = .ofDepth n)
    (hcache : Cached H C m t.treeHashes) (hmn : m ≤ n) (hbeyond : ∀ i, 2 ^ m ≤ i → C.leaf i = none)
    (hmod : ∀ e ∈ modified, e.1 < 2 ^ n ∧ C'.leaf e.1 = e.2)
    (hagree : Contents.AgreeOff {i | ∃ e ∈ modified, e.1 = i} C C')
    (hparent : C'.parent = t.contents.parent) :
    ∃ hashes, t.updateTreeHashes H modified =
        .ok ({ t with treeHashes := hashes }, C'.hashAt H n 0) ∧ Cached H C' n hashes := by
  have hleaves : max t.leafCount minTreeSize = 2 ^ n := by
    rw [leafCount, hsize, leafCount_ofDepth]
    exact Nat.max_eq_left (by positivity : 0 < 2 ^ n)
  have hcount : 2 ^ n * 2 - 1 = 2 ^ (n + 1) - 1 := by rw [pow_succ]
  obtain ⟨hms, hoff⟩ := addFreshLeaves_covers hcache hmn hbeyond hmod hagree rfl
  obtain ⟨stored, queue, hashes, hstored, hdrain, hcached⟩ := storeLeaves_drainQueue hsize
    (fun k p => (congrFun (congrFun hparent k) p).symm) (length_resize _ _ _) hms hoff
  refine ⟨hashes, ?_, hcached⟩
  have hroot : index hashes (root t.diff.size).u32 = .ok (C'.hashAt H n 0) := by
    rw [hsize, root_ofDepth]
    exact hcached.index_eq (.root n)
  rw [updateTreeHashes, hleaves, hcount]
  rw [hstored]
  show (drainQueue H t.diff _ queue stored >>= _) = _
  rw [hdrain]
  show (index hashes (root t.diff.size).u32 >>= _) = _
  rw [hroot]
  rfl

end

/-! ## Filling the cache -/

lemma below_children_iff {k' p' : ℕ} (hk : k' ≤ k) :
    p' / 2 ^ (k + 1 - k') = p ↔ p' / 2 ^ (k - k') = 2 * p ∨ p' / 2 ^ (k - k') = 2 * p + 1 := by
  rw [show k + 1 - k' = k - k' + 1 by omega, div_two_pow_succ]
  omega

lemma populateLoop_spec (hp : InTree n k p) (hlen : hashes.length = 2 ^ (n + 1) - 1) :
    ∃ hashes', populateLoop H d k (nodeAt k p) hashes =
        .ok (hashes', d.contents.hashAt H k p) ∧
      hashes'.length = 2 ^ (n + 1) - 1 ∧
      ∀ k' p', hashes'[inorder k' p']? =
        if k' ≤ k ∧ p' / 2 ^ (k - k') = p then some (d.contents.hashAt H k' p')
        else hashes[inorder k' p']? := by
  induction k generalizing p hashes with
  | zero =>
    have hlt : inorder 0 p < hashes.length := by
      rw [hlen]
      exact InTree.lt_iff.mpr hp
    refine ⟨hashes.set (inorder 0 p) (d.contents.hashAt H 0 p), ?_, by simpa using hlen,
      fun k' p' => ?_⟩
    · have hstore : store hashes (TreeNodeIndex.leaf p).u32 (leafTreeHash H p (d.leaf p)) =
          .ok (hashes.set (inorder 0 p) (d.contents.hashAt H 0 p)) := by
        rw [← nodeAt_zero, u32_at, store_eq_ok]
        exact ⟨hlt, rfl⟩
      rw [nodeAt_zero, populateLoop, hstore]
      rfl
    · split_ifs with hself
      · obtain ⟨hk, hpos⟩ := hself
        obtain rfl : k' = 0 := by omega
        obtain rfl : p' = p := by simpa using hpos
        rw [getElem?_set_self hlt]
      · refine getElem?_set_ne fun heq => hself ?_
        obtain ⟨rfl, rfl⟩ := inorder_inj heq
        simp
  | succ k ih =>
    obtain ⟨h1, heq1, hlen1, hget1⟩ := ih hp.children.1 hlen
    obtain ⟨h2, heq2, hlen2, hget2⟩ := ih hp.children.2 hlen1
    have hlt : inorder (k + 1) p < h2.length := by
      rw [hlen2]
      exact InTree.lt_iff.mpr hp
    refine ⟨h2.set (inorder (k + 1) p) (d.contents.hashAt H (k + 1) p), ?_, by simpa using hlen2,
      fun k' p' => ?_⟩
    · have hstore : store h2 (TreeNodeIndex.parent (inorder k p)).u32
          (parentTreeHash H (d.parent (inorder k p)) (d.contents.hashAt H k (2 * p))
            (d.contents.hashAt H k (2 * p + 1)) []) =
          .ok (h2.set (inorder (k + 1) p) (d.contents.hashAt H (k + 1) p)) := by
        rw [u32_parent_inorder, store_eq_ok]
        exact ⟨hlt, rfl⟩
      rw [nodeAt_succ, populateLoop, left_inorder, heq1]
      show (populateLoop H d k (right (inorder k p)) h1 >>= _) = _
      rw [right_inorder, heq2]
      show (store h2 _ _ >>= _) = _
      rw [hstore]
      rfl
    · by_cases hself : k' = k + 1
      · subst hself
        by_cases hpos : p' = p
        · subst hpos
          rw [getElem?_set_self hlt]
          simp
        · rw [getElem?_set_ne fun heq => hpos (inorder_inj heq).2.symm, hget2, hget1]
          simp [hpos]
      · rw [getElem?_set_ne fun heq => hself (inorder_inj heq).1.symm, hget2, hget1]
        by_cases hk : k' ≤ k
        · simp only [hk, true_and, show k' ≤ k + 1 by omega, below_children_iff hk]
          by_cases hr : p' / 2 ^ (k - k') = 2 * p + 1 <;> simp [hr]
        · simp [hk, show ¬ k' ≤ k + 1 by omega]

lemma populateTreeHashes_spec (hsize : t.diff.size = .ofDepth n)
    (hlen : t.treeHashes.length = 2 ^ (n + 1) - 1) :
    ∃ hashes, t.populateTreeHashes H (root t.diff.size) = .ok { t with treeHashes := hashes } ∧
      Cached H t.contents n hashes := by
  obtain ⟨hashes, heq, hlen', hget⟩ :=
    populateLoop_spec (H := H) (d := t.diff) (InTree.root n) hlen
  refine ⟨hashes, ?_, hlen', fun k p hp => ?_⟩
  · rw [populateTreeHashes, hsize, root_ofDepth, u32_at, level_inorder, heq]
    rfl
  · rw [hget, if_pos ⟨hp.1, Nat.div_eq_of_lt hp.2⟩]
    rfl

end TreeSyncDiff

end EmulatedMls
