import EmulatedMls.Tree.UpdatePath

/-!
# Parent hashes

A parent that is not blank was set by a commit, and the node below it on the path of the committer
carries its parent hash.  Members that were added since then are listed in the parent as unmerged
leaves; without them the subtree is what it was when the parent was set.
-/

namespace EmulatedMls

open List

variable {D : Type} {H : HashSuite D} {k i p : ℕ} {x : D} {q : ParentNode D}

namespace Contents

/-- A full leaf carries the parent hash `h`. -/
def LeafCarries (C : Contents D) (h : D) (i : ℕ) : Prop :=
  ∃ l, C.leaf i = some l ∧ l.parentHash = some h

/-- Some node in the resolution of the node at position `p` of level `k` carries `h`. -/
def Carries (C : Contents D) (h : D) : ℕ → ℕ → Prop
  | 0, p => C.LeafCarries h p
  | k + 1, p => match C.parent k p with
    | some q => q.parentHash = h ∨ ∃ i ∈ q.unmergedLeaves, i / 2 ^ (k + 1) = p ∧ C.LeafCarries h i
    | none => C.Carries h k (2 * p) ∨ C.Carries h k (2 * p + 1)

/-- The parent `q` is linked to one of its children, as the tree was when `q` was set. -/
def LinkedTo (H : HashSuite D) (C : Contents D) (k p : ℕ) (q : ParentNode D) : Prop :=
  ∃ c, c / 2 = p ∧ (C.exclude q.unmergedLeaves).Carries
    (q.computeParentHash H ((C.exclude q.unmergedLeaves).hashAt H k (sib c))) k c

/-- The child `c` of the parent `q` carries its parent hash, as the tree was when `q` was set. -/
def CarriesFor (H : HashSuite D) (C : Contents D) (k : ℕ) (q : ParentNode D) (c : ℕ) : Prop :=
  (C.exclude q.unmergedLeaves).Carries
    (q.computeParentHash H ((C.exclude q.unmergedLeaves).hashAt H k (sib c))) k c

/-- No parent has two children that carry its parent hash. -/
def OneSided (H : HashSuite D) (C : Contents D) : Prop :=
  ∀ k p q, C.parent k p = some q →
    ¬ (C.CarriesFor H k q (2 * p) ∧ C.CarriesFor H k q (2 * p + 1))

/-- What holds of the parent `q` at position `p` of level `k + 1`. -/
structure SoundParent (H : HashSuite D) (C : Contents D) (k p : ℕ) (q : ParentNode D) : Prop where
  full : C.HasLeaf k (2 * p) ∧ C.HasLeaf k (2 * p + 1)
  unmerged : ∀ i ∈ q.unmergedLeaves, i / 2 ^ (k + 1) = p ∧ (C.leaf i).isSome
  linked : C.LinkedTo H k p q

def Linked (H : HashSuite D) (C : Contents D) : Prop :=
  ∀ k p q, C.parent k p = some q → C.SoundParent H k p q

/-- Every parent has a full leaf on both sides. -/
def Branching (C : Contents D) : Prop :=
  ∀ k p q, C.parent k p = some q → C.HasLeaf k (2 * p) ∧ C.HasLeaf k (2 * p + 1)

variable {C C' : Contents D}

lemma Linked.branching (h : C.Linked H) : C.Branching := fun k p q hq => (h k p q hq).full

/-! ## Subtrees that agree -/

namespace AgreeOff

variable {M : Set ℕ} {k p : ℕ}

section

variable (h : AgreeOff M C C')
include h

lemma exclude (excluded : List ℕ) : AgreeOff M (C.exclude excluded) (C'.exclude excluded) where
  leaf i hi := by simp only [Contents.exclude, h.leaf i hi]
  parent k p hp := by simp only [Contents.exclude, h.parent k p hp]

section

variable (hp : ∀ i ∈ M, i / 2 ^ k ≠ p)
include hp

lemma leaf_below (hi : i / 2 ^ k = p) : C'.leaf i = C.leaf i := h.leaf i fun hM => hp i hM hi

lemma hasLeaf (hleaf : C.HasLeaf k p) : C'.HasLeaf k p := by
  obtain ⟨i, hi, hfull⟩ := hleaf
  exact ⟨i, hi, by rwa [h.leaf_below hp hi]⟩

lemma carries (hc : C.Carries x k p) : C'.Carries x k p := by
  induction k generalizing p with
  | zero =>
    obtain ⟨l, hl, hx⟩ := hc
    exact ⟨l, by rw [h.leaf_below hp (by simp), hl], hx⟩
  | succ k ih =>
    rw [Carries, h.parent k p hp]
    rw [Carries] at hc
    cases hq : C.parent k p with
    | some q =>
      rw [hq] at hc
      rcases hc with hq | ⟨i, hi, hbelow, l, hl, hx⟩
      · exact .inl hq
      · exact .inr ⟨i, hi, hbelow, l, by rw [h.leaf_below hp hbelow, hl], hx⟩
    | none =>
      rw [hq] at hc
      rcases hc with hc | hc
      · exact .inl (ih (fun i hi => (div_ne_of_div_succ_ne (hp i hi)).1) hc)
      · exact .inr (ih (fun i hi => (div_ne_of_div_succ_ne (hp i hi)).2) hc)

end

lemma soundParent (hp : ∀ i ∈ M, i / 2 ^ (k + 1) ≠ p)
    (hq : C.SoundParent H k p q) : C'.SoundParent H k p q := by
  have hchild : ∀ c, c / 2 = p → ∀ i ∈ M, i / 2 ^ k ≠ c := fun c hc i hi heq => by
    refine hp i hi ?_
    rw [div_two_pow_succ, heq, hc]
  refine ⟨⟨?_, ?_⟩, fun i hi => ?_, ?_⟩
  · exact h.hasLeaf (hchild _ (by omega)) hq.full.1
  · exact h.hasLeaf (hchild _ (by omega)) hq.full.2
  · obtain ⟨hbelow, hfull⟩ := hq.unmerged i hi
    exact ⟨hbelow, by rwa [h.leaf_below hp hbelow]⟩
  · obtain ⟨c, hc, hcarries⟩ := hq.linked
    have hsib : sib c / 2 = p := by rw [sib_div_two, hc]
    refine ⟨c, hc, ?_⟩
    rw [(h.exclude _).hashAt_eq H (hchild _ hsib)]
    exact (h.exclude _).carries (hchild c hc) hcarries

end

end AgreeOff

/-! ## Edits -/

section Edit

variable {n i : ℕ} {x : Option (LeafNode D)}
  {f : ℕ → Option (ParentNode D) → Option (ParentNode D)}

lemma Branching.lt_depth (h : C.Branching) (hbeyond : ∀ j, 2 ^ n ≤ j → C.leaf j = none)
    (hq : C.parent k p = some q) : k < n := by
  obtain ⟨j, hj, hfull⟩ := (h k p q hq).2
  by_contra hle
  have hpow : 2 ^ n ≤ 2 ^ k := Nat.pow_le_pow_right (by omega) (by omega)
  have hlarge : 2 ^ k ≤ j := by
    by_contra hlt
    rw [Nat.div_eq_of_lt (by omega)] at hj
    omega
  rw [hbeyond j (hpow.trans hlarge)] at hfull
  cases hfull

section

variable (h : C.Linked H) (hbeyond : ∀ j, 2 ^ n ≤ j → C.leaf j = none)
include h hbeyond

lemma Linked.edit
    (habove : ∀ k < n, ∀ q, f k (C.parent k (i / 2 ^ (k + 1))) = some q →
      (C.edit n i x f).SoundParent H k (i / 2 ^ (k + 1)) q) : (C.edit n i x f).Linked H := by
  intro k p q hq
  rcases parent_edit_cases hq with ⟨hk, rfl, hq⟩ | ⟨hoff, hq⟩
  · exact habove k hk q hq
  · refine (agreeOff_edit C n i x f).soundParent (fun j hj heq => hoff ⟨?_, ?_⟩) (h k p q hq)
    · exact h.branching.lt_depth hbeyond hq
    · rw [← heq, Set.mem_singleton_iff.mp hj]

lemma Linked.edit_blank :
    (C.edit n i x fun _ _ => none).Linked H :=
  h.edit hbeyond fun _ _ _ hq => nomatch hq

end

end Edit

/-! ## Additions -/

variable {j : ℕ} {us : List ℕ}

lemma mem_addUnmergedLeaf : j ∈ addUnmergedLeaf i us ↔ j = i ∨ j ∈ us := by
  induction us with
  | nil => simp [addUnmergedLeaf]
  | cons u us ih =>
    rw [addUnmergedLeaf]
    split_ifs <;> simp [ih, or_left_comm]

lemma filter_addUnmergedLeaf {vs : List ℕ} :
    (addUnmergedLeaf i us).filter (· ∉ addUnmergedLeaf i vs) =
      us.filter fun j => j ∉ addUnmergedLeaf i vs := by
  induction us with
  | nil => simp [addUnmergedLeaf, mem_addUnmergedLeaf]
  | cons u us ih =>
    rw [addUnmergedLeaf]
    split_ifs
    · rw [filter_cons, filter_cons, ih]
    · rw [filter_cons, if_neg (by simp [mem_addUnmergedLeaf])]

section Add

variable {n i : ℕ} {l : LeafNode D}

lemma isSome_leaf_edit {f : ℕ → Option (ParentNode D) → Option (ParentNode D)}
    (h : (C.leaf j).isSome) : ((C.edit n i (some l) f).leaf j).isSome := by
  by_cases hj : j = i
  · rw [hj, leaf_edit_self]
    rfl
  · rwa [leaf_edit_of_ne hj]

/-- **Without the new leaf the tree is what it was.** -/
lemma exclude_edit_add (hblank : C.leaf i = none)
    (hfree : ∀ k p q, C.parent k p = some q → i ∉ q.unmergedLeaves) (us : List ℕ) :
    (C.edit n i (some l) fun _ => Option.map (ParentNode.addUnmergedLeaf i)).exclude
      (addUnmergedLeaf i us) = C.exclude us := by
  have hsame : ∀ vs : List ℕ, i ∉ vs →
      (vs.filter fun j => j ∉ addUnmergedLeaf i us) = vs.filter (· ∉ us) := fun vs hvs =>
    filter_congr fun j hj => by
      have hne : j ≠ i := fun heq => hvs (heq ▸ hj)
      simp [mem_addUnmergedLeaf, hne]
  ext1
  · funext j
    by_cases hj : j = i
    · subst hj
      simp [exclude, mem_addUnmergedLeaf, hblank]
    · simp only [exclude, leaf_edit_of_ne hj, mem_addUnmergedLeaf, hj, false_or]
  · funext k p
    simp only [exclude, Contents.edit]
    cases hq : C.parent k p with
    | none => split_ifs <;> rfl
    | some q =>
      have hnot := hfree k p q hq
      split_ifs
      · simp only [Option.map_some, ParentNode.exclude, ParentNode.addUnmergedLeaf,
          filter_addUnmergedLeaf, hsame _ hnot]
      · simp only [Option.map_some, ParentNode.exclude, hsame _ hnot]

lemma Linked.edit_add (h : C.Linked H) (hbeyond : ∀ j, 2 ^ n ≤ j → C.leaf j = none)
    (hblank : C.leaf i = none) :
    (C.edit n i (some l) fun _ => Option.map (ParentNode.addUnmergedLeaf i)).Linked H := by
  set C' := C.edit n i (some l) fun _ => Option.map (ParentNode.addUnmergedLeaf i) with hC'
  have hfree : ∀ k p q, C.parent k p = some q → i ∉ q.unmergedLeaves := fun k p q hq hi => by
    have := ((h k p q hq).unmerged i hi).2
    rw [hblank] at this
    cases this
  refine h.edit hbeyond fun k hk q hq => ?_
  obtain ⟨q0, hq0, rfl⟩ := Option.map_eq_some_iff.mp hq
  obtain ⟨⟨⟨a, ha, hfa⟩, b, hb, hfb⟩, hunmerged, hlinked⟩ := h k _ q0 hq0
  refine ⟨⟨⟨a, ha, isSome_leaf_edit hfa⟩, b, hb, isSome_leaf_edit hfb⟩, fun j hj => ?_, ?_⟩
  · rcases mem_addUnmergedLeaf.mp hj with rfl | hj
    · exact ⟨rfl, by rw [leaf_edit_self]; rfl⟩
    · exact ⟨(hunmerged j hj).1, isSome_leaf_edit (hunmerged j hj).2⟩
  · have hexclude : C'.exclude (q0.addUnmergedLeaf i).unmergedLeaves =
        C.exclude q0.unmergedLeaves := exclude_edit_add hblank hfree _
    rw [LinkedTo, hexclude]
    exact hlinked

end Add

/-! ## Paths -/

end Contents

/-- The part of a path from level `k` on. -/
def pathFrom (k : ℕ) (es : List (ℕ × Key)) : List (ℕ × Key) := es.filter (k ≤ ·.1)

section Path

variable {sibling : ℕ → D} {es : List (ℕ × Key)}

lemma pathFrom_of_notMem (h : k ∉ es.map Prod.fst) : pathFrom k es = pathFrom (k + 1) es :=
  filter_congr fun e he => by
    have hne : e.1 ≠ k := fun heq => h (heq ▸ mem_map_of_mem he)
    rw [decide_eq_decide]
    omega

variable {e : ℕ × Key}

section

variable (hes : es.Pairwise fun e e' => e.1 < e'.1) (he : e ∈ es)
include hes he

lemma pathFrom_of_mem :
    pathFrom e.1 es = e :: pathFrom (e.1 + 1) es := by
  obtain ⟨es1, es2, rfl⟩ := append_of_mem he
  obtain ⟨-, hafter, hbefore⟩ := pairwise_append.mp hes
  have hlow : ∀ k, e.1 ≤ k → pathFrom k es1 = [] := fun k hk =>
    filter_eq_nil_iff.mpr fun e' he' => by
      have := hbefore e' he' e mem_cons_self
      simp only [decide_eq_true_eq]
      omega
  have hhigh : ∀ k, k ≤ e.1 + 1 → pathFrom k es2 = es2 := fun k hk =>
    filter_eq_self.mpr fun e' he' => by
      have := (pairwise_cons.mp hafter).1 e' he'
      simp only [decide_eq_true_eq]
      omega
  have hsplit : ∀ k, pathFrom k (es1 ++ e :: es2) =
      pathFrom k es1 ++ (if k ≤ e.1 then [e] else []) ++ pathFrom k es2 := fun k => by
    rw [pathFrom, filter_append, filter_cons]
    split_ifs with h1 h2 h2 <;> simp_all [pathFrom]
  rw [hsplit, hsplit, hlow _ (le_refl _), hlow _ (by omega), hhigh _ (by omega),
    hhigh _ (le_refl _), if_pos (le_refl _), if_neg (by omega)]
  rfl

lemma lookup_linkPath :
    (linkPath H sibling es).1.lookup e.1 = some { ParentNode.ofKey H e.2 with
      parentHash := (linkPath H sibling (pathFrom (e.1 + 1) es)).2 } := by
  induction es with
  | nil => cases he
  | cons e' es ih =>
    obtain ⟨hfirst, hrest⟩ := pairwise_cons.mp hes
    rcases mem_cons.mp he with rfl | he
    · have hfrom : pathFrom (e.1 + 1) (e :: es) = es := by
        have := pathFrom_of_mem hes mem_cons_self
        rw [pathFrom, filter_eq_self.mpr] at this
        · exact (List.cons.inj this).2.symm
        · intro e' he'
          rcases mem_cons.mp he' with rfl | he'
          · simp
          · simpa using le_of_lt (hfirst e' he')
      rw [hfrom, linkPath, lookup_cons_self]
    · have hlt := hfirst e he
      have hfrom : pathFrom (e.1 + 1) (e' :: es) = pathFrom (e.1 + 1) es := by
        rw [pathFrom, filter_cons, if_neg (by simp; omega)]
        rfl
      rw [hfrom, linkPath, lookup_cons, beq_false_of_ne (by omega)]
      exact ih hrest he

end

lemma lookup_linkPath_of_notMem (h : k ∉ es.map Prod.fst) :
    (linkPath H sibling es).1.lookup k = none :=
  lookup_of_notMem (by rwa [map_fst_linkPath])

end Path

variable {excluded : List ℕ}

namespace Contents

variable {C : Contents D}

section Path

variable {n i : ℕ} {l : LeafNode D} {es : List (ℕ × Key)}

def withPath (H : HashSuite D) (C : Contents D) (n i : ℕ) (es : List (ℕ × Key))
    (l : LeafNode D) : Contents D :=
  C.edit n i (some l) fun k _ => (linkPath H (C.siblingHash H i) es).1.lookup k

/-- **Each level of a new path carries the parent hash of the nodes above it.** -/
lemma carries_withPath (hes : es.Pairwise fun e e' => e.1 < e'.1)
    (hl : l.parentHash = some (linkPath H (C.siblingHash H i) es).2) (hk : k ≤ n) :
    (C.withPath H n i es l).Carries
      (linkPath H (C.siblingHash H i) (pathFrom k es)).2 k (i / 2 ^ k) := by
  induction k with
  | zero =>
    have hall : pathFrom 0 es = es := filter_eq_self.mpr fun e _ => by simp
    rw [hall, pow_zero, Nat.div_one]
    exact ⟨l, leaf_edit_self, hl⟩
  | succ k ih =>
    have hparent : (C.withPath H n i es l).parent k (i / 2 ^ (k + 1)) =
        (linkPath H (C.siblingHash H i) es).1.lookup k := parent_edit_above hk
    rw [Carries, hparent]
    by_cases hmem : k ∈ es.map Prod.fst
    · obtain ⟨e, he, rfl⟩ := mem_map.mp hmem
      rw [lookup_linkPath hes he]
      exact .inl rfl
    · rw [lookup_linkPath_of_notMem hmem, ← pathFrom_of_notMem hmem]
      have hbelow := ih (by omega)
      have hdiv := div_two_pow_succ i k
      rcases (by omega : i / 2 ^ k = 2 * (i / 2 ^ (k + 1)) ∨
        i / 2 ^ k = 2 * (i / 2 ^ (k + 1)) + 1) with heq | heq
      · exact .inl (heq ▸ hbelow)
      · exact .inr (heq ▸ hbelow)

lemma Linked.withPath (h : C.Linked H) (hbeyond : ∀ j, 2 ^ n ≤ j → C.leaf j = none)
    (hes : es.Pairwise fun e e' => e.1 < e'.1)
    (hl : l.parentHash = some (linkPath H (C.siblingHash H i) es).2)
    (hleaf : ∀ k ∈ es.map Prod.fst, C.HasLeaf k (sib (i / 2 ^ k))) :
    (C.withPath H n i es l).Linked H := by
  have hagree : AgreeOff {i} C (C.withPath H n i es l) := agreeOff_edit _ _ _ _ _
  refine h.edit hbeyond fun k hk q hq => ?_
  have hmem : k ∈ es.map Prod.fst := by
    by_contra hnot
    rw [lookup_linkPath_of_notMem hnot] at hq
    cases hq
  have hoff : ∀ j ∈ ({i} : Set ℕ), j / 2 ^ k ≠ sib (i / 2 ^ k) := fun j hj => by
    rw [Set.mem_singleton_iff.mp hj]
    exact (sib_ne _).symm
  have hself : (C.withPath H n i es l).HasLeaf k (i / 2 ^ k) :=
    ⟨i, rfl, by rw [Contents.withPath, leaf_edit_self]; rfl⟩
  have hother := hagree.hasLeaf hoff (hleaf k hmem)
  obtain ⟨e, he, rfl⟩ := mem_map.mp hmem
  rw [lookup_linkPath hes he] at hq
  cases hq
  refine ⟨?_, fun j hj => absurd hj not_mem_nil, i / 2 ^ e.1, (div_two_pow_succ i e.1).symm, ?_⟩
  · rw [div_two_pow_succ]
    rcases sib_cases (i / 2 ^ e.1) with ⟨hpos, hsib⟩ | ⟨hpos, hsib⟩ <;>
      rw [hsib] at hother <;> rw [hpos] at hself
    · exact ⟨hself, hother⟩
    · exact ⟨hother, hself⟩
  · -- the new node has no unmerged leaves
    show ((C.withPath H n i es l).exclude []).Carries (ParentNode.computeParentHash H _
      (((C.withPath H n i es l).exclude []).hashAt H e.1 (sib (i / 2 ^ e.1)))) e.1 (i / 2 ^ e.1)
    have hcarries := carries_withPath (n := n) hes hl (le_of_lt hk)
    rw [pathFrom_of_mem hes he] at hcarries
    rw [exclude_nil, hagree.hashAt_eq H hoff]
    exact hcarries

end Path

/-! ## Verification -/

variable {q : ParentNode D} {k p : ℕ}

lemma Branching.inTree (h : C.Branching) {n : ℕ} (hbeyond : ∀ j, 2 ^ n ≤ j → C.leaf j = none)
    (hq : C.parent k p = some q) : InTree n (k + 1) p := by
  have hk := h.lt_depth hbeyond hq
  obtain ⟨j, hj, hfull⟩ := (h k p q hq).2
  have hlt : j < 2 ^ n := by
    by_contra hge
    rw [hbeyond j (Nat.not_lt.mp hge)] at hfull
    cases hfull
  refine ⟨hk, ?_⟩
  have hpos := div_two_pow_lt hlt (show k + 1 ≤ n from hk)
  rwa [div_two_pow_succ, hj, show (2 * p + 1) / 2 = p by omega] at hpos

lemma Branching.hasLeaf_of_carries (h : C.Branching) (hc : (C.exclude excluded).Carries x k p) :
    C.HasLeaf k p := by
  induction k generalizing p with
  | zero =>
    obtain ⟨l, hl, -⟩ := hc
    refine ⟨p, by simp, ?_⟩
    simp only [exclude] at hl
    split_ifs at hl
    rw [hl]
    rfl
  | succ k ih =>
    cases hq : C.parent k p with
    | some q => exact (h k p q hq).1.parent (by omega)
    | none =>
      have hq' : (C.exclude excluded).parent k p = none := by simp [exclude, hq]
      rw [Carries, hq'] at hc
      rcases hc with hc | hc
      · exact (ih hc).parent (by omega)
      · exact (ih hc).parent (by omega)

lemma LinkedTo.carriesFor (h : C.LinkedTo H k p q) :
    C.CarriesFor H k q (2 * p) ∨ C.CarriesFor H k q (2 * p + 1) := by
  obtain ⟨c, rfl, hcarries⟩ := h
  rcases sib_cases c with ⟨hpos, -⟩ | ⟨hpos, -⟩
  · exact .inl (hpos ▸ hcarries)
  · exact .inr (hpos ▸ hcarries)

end Contents

namespace TreeSyncDiff

section Resolution

variable {t : TreeSyncDiff D} {k p r : ℕ}

lemma hasLeaf_of_resolution (h : t.contents.Branching)
    (hne : t.resolution (nodeAt k p) [] r ≠ []) : t.contents.HasLeaf k p := by
  induction k generalizing p with
  | zero =>
    refine ⟨p, by simp, ?_⟩
    rw [resolution_leaf, leafReference, Contents.exclude_nil] at hne
    cases hl : t.contents.leaf p with
    | none =>
      rw [hl] at hne
      exact absurd rfl hne
    | some l => rfl
  | succ k ih =>
    cases hq : t.contents.parent k p with
    | some q => exact (h k p q hq).1.parent (by omega)
    | none =>
      rw [resolution_of_none hq] at hne
      split_ifs at hne with hcut
      · exact absurd rfl hne
      · rw [ne_eq, append_eq_nil_iff, not_and_or] at hne
        rcases hne with hne | hne
        · exact (ih hne).parent (by omega)
        · exact (ih hne).parent (by omega)

variable [DecidableEq D]

lemma any_leafReference :
    (∃ y, t.leafReference excluded i = some y ∧ y.2.carries x = true) ↔
      (t.contents.exclude excluded).LeafCarries x i := by
  unfold leafReference Contents.LeafCarries
  cases (t.contents.exclude excluded).leaf i <;> simp [NodeReference.carries]

/-- **The resolution of the implementation**, which is cut after the last full leaf. -/
lemma any_resolution_iff (h : t.contents.Linked H) (hr : ∀ i, (t.contents.leaf i).isSome → i ≤ r) :
    (t.resolution (nodeAt k p) excluded r).any (·.2.carries x) = true ↔
      (t.contents.exclude excluded).Carries x k p := by
  induction k generalizing p with
  | zero =>
    rw [resolution_leaf, Contents.Carries, ← any_leafReference]
    simp
  | succ k ih =>
    have hparent : (t.contents.exclude excluded).parent k p =
        (t.contents.parent k p).map (ParentNode.exclude excluded) := rfl
    cases hq : t.contents.parent k p with
    | some q =>
      rw [resolution_of_some hq, Contents.Carries, hparent, hq, any_cons, Bool.or_eq_true]
      refine or_congr (by simp [NodeReference.carries, ParentNode.exclude]) ⟨fun hany => ?_, ?_⟩
      · obtain ⟨y, hy, hcarries⟩ := any_eq_true.mp hany
        obtain ⟨i, hi, href⟩ := mem_filterMap.mp hy
        have hleaf := any_leafReference.mp ⟨y, href, hcarries⟩
        refine ⟨i, mem_filter.mpr ⟨hi, ?_⟩, ((h k p q hq).unmerged i hi).1, hleaf⟩
        obtain ⟨l, hl, -⟩ := hleaf
        by_contra hmem
        simp only [decide_eq_true_eq, not_not] at hmem
        simp [Contents.exclude, hmem] at hl
      · rintro ⟨i, hi, -, hleaf⟩
        obtain ⟨y, href, hcarries⟩ := any_leafReference.mpr hleaf
        exact any_eq_true.mpr
          ⟨y, mem_filterMap.mpr ⟨i, (mem_filter.mp hi).1, href⟩, hcarries⟩
    | none =>
      rw [resolution_of_none hq]
      split_ifs with hcut
      · refine iff_of_false (by simp) fun hcarries => ?_
        obtain ⟨i, hi, hfull⟩ := h.branching.hasLeaf_of_carries hcarries
        have hle := Nat.div_mul_le_self i (2 ^ (k + 1))
        rw [hi] at hle
        exact absurd (hle.trans (hr i hfull)) (Nat.not_le.mpr hcut)
      · rw [any_append, Bool.or_eq_true, ih, ih, Contents.Carries, hparent, hq]
        rfl

end Resolution

section Verify

variable {t : TreeSyncDiff D} {n : ℕ}

lemma originalTreeHash_eq (hcached : Cached H t.contents n t.treeHashes) (q : ParentNode D)
    (hp : InTree n k p) : t.originalTreeHash H q (nodeAt k p) =
      .ok ((t.contents.exclude q.unmergedLeaves).hashAt H k p) := by
  unfold originalTreeHash
  split_ifs with hnone
  · rw [List.isEmpty_iff.mp hnone, Contents.exclude_nil, treeHash, hcached.index_eq hp]
  · rw [computeTreeHash_exclude]

variable [DecidableEq D]

section

variable (h : t.contents.Linked H) (hsided : t.contents.OneSided H) (hwf : t.WellFormed n)
  (hcached : Cached H t.contents n t.treeHashes)
include h hsided hwf hcached

lemma verifyParentHash_eq
    (hq : t.contents.parent k p = some q) : t.verifyParentHash H (inorder k p) q = .ok () := by
  have hright : ∀ i, (t.contents.leaf i).isSome → i ≤ t.rightmostFullLeaf := fun i hi => by
    have := hwf.lt_slots hi
    rw [hwf.rightmostFullLeaf]
    omega
  have hin : InTree n (k + 1) p :=
    h.branching.inTree hwf.beyond_depth hq
  have hone := (h k p q hq).linked.carriesFor
  have hboth := hsided k p q hq
  rw [Contents.CarriesFor, Contents.CarriesFor, sib_two_mul, sib_two_mul_add_one,
    ← any_resolution_iff h hright, ← any_resolution_iff h hright] at hone hboth
  rw [verifyParentHash, left_inorder, right_inorder, originalTreeHash_eq hcached q hin.children.1,
    originalTreeHash_eq hcached q hin.children.2]
  show (if _ then _ else _) = _
  revert hone hboth
  generalize (t.resolution (nodeAt k (2 * p)) q.unmergedLeaves t.rightmostFullLeaf).any
    (·.2.carries (q.computeParentHash H
      ((t.contents.exclude q.unmergedLeaves).hashAt H k (2 * p + 1)))) = a
  generalize (t.resolution (nodeAt k (2 * p + 1)) q.unmergedLeaves
    t.rightmostFullLeaf).any (·.2.carries (q.computeParentHash H
      ((t.contents.exclude q.unmergedLeaves).hashAt H k (2 * p)))) = b
  cases a <;> cases b <;> simp

/-- **A linked tree passes the check of its parent hashes.** -/
lemma verifyParentHashes_of_linked (hparents : ∀ e ∈ t.diff.parents, e.2 = t.diff.parent e.1) :
    t.verifyParentHashes H = .ok () := by
  unfold verifyParentHashes
  generalize t.diff.parents = nodes at hparents
  induction nodes with
  | nil => rfl
  | cons e nodes ih =>
    obtain ⟨hfirst, hrest⟩ := forall_mem_cons.mp hparents
    obtain ⟨j, _ | q⟩ := e
    · exact ih hrest
    · obtain ⟨k, p, rfl⟩ := exists_inorder j
      rw [verifyLoop, verifyParentHash_eq h hsided hwf hcached hfirst.symm]
      exact ih hrest

end

end Verify

/-! ## Commits -/

section Operations

variable {t t' : TreeSyncDiff D} {n n' i : ℕ} {c : Change D}

lemma Edited.beyond (h : t.Edited n c i t' n') (hwf : t.WellFormed n) :
    ∀ j, 2 ^ n' ≤ j → t.contents.leaf j = none := fun j hj => by
  have hle : n ≤ n' := by
    rcases h.depth with hsame | ⟨hgrown, -⟩ <;> omega
  exact hwf.beyond_depth j ((Nat.pow_le_pow_right (by omega) hle).trans hj)

lemma Edited.linked (h : t.Edited n c i t' n') (hwf : t.WellFormed n) (hl : t.contents.Linked H) :
    t'.contents.Linked H := by
  have hbeyond := h.beyond hwf
  rw [h.contents]
  cases c with
  | update l | blank => exact hl.edit_blank hbeyond
  | add l => exact hl.edit_add hbeyond h.applies

lemma Changes.linked {cs : List (ℕ × Change D)} (h : t.Changes n cs t' n') (hwf : t.WellFormed n)
    (hl : t.contents.Linked H) : t'.contents.Linked H := by
  induction h with
  | nil => exact hl
  | cons first _ ih => exact ih first.wellFormed (first.linked hwf hl)

lemma PathSet.linked {es : List (ℕ × Key)} {l : LeafNode D} (h : PathSet H t n i es l t')
    (hwf : t.WellFormed n) (hl : t.contents.Linked H) : t'.contents.Linked H := by
  have hsorted : es.Pairwise fun e e' => e.1 < e'.1 := by
    have hlevels : (es.map Prod.fst).Pairwise (· < ·) := by
      rw [h.levels]
      exact pairwise_lt_range.filter _
    exact pairwise_map.mp hlevels
  rw [h.contents]
  refine hl.withPath hwf.beyond_depth hsorted h.carries fun k hk => ?_
  rw [h.levels] at hk
  exact hasLeaf_of_resolution hl.branching (mem_pathLevels.mp hk).2

end Operations

end TreeSyncDiff

end EmulatedMls
