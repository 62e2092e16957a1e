import EmulatedMls.Tree.KeyOwnership
import EmulatedMls.Tree.PathAgreement

/-!
# Reading an update path

The sender of a path encrypts a secret at each node of its filtered path to the keys of a
resolution.  A receiver computes the node at which the two paths meet and the first key of that
resolution that it owns.
-/

namespace EmulatedMls

variable {D S P C : Type} {H : HashSuite D}

open List TreeSyncDiff

/-! ## Chains -/

def ownedKeys {K : KemSuite D S P C} (keypairs : List (EncryptionKeyPair K)) : Set Key :=
  {pk | ∃ keypair ∈ keypairs, keypair.publicKey = pk}

variable {α : Type}

lemma drop_iterate (f : α → α) (a : α) (m n : ℕ) :
    (List.iterate f a (m + n)).drop m = List.iterate f (f^[m] a) n := by
  rw [iterate_add, drop_left' (length_iterate f a m)]

variable {path : List (PlainUpdatePathNode S)} {pks : List Key}

namespace KemSuite

variable {K : KemSuite D S P C}

lemma pathKeys_eq (s : S) (length : ℕ) : (List.range length).map (K.pathKey s) =
    (List.iterate K.derivePathSecret s length).map fun s => (K.deriveKeyPair s).publicKey := by
  rw [← range_map_iterate, map_map]
  rfl

/-- **The rest of a chain**: its secrets and key pairs, and the commit secret at its end. -/
lemma derivePath_rest (s : S) (position : ℕ) (nodes : List ℕ) :
    (K.derivePath H (K.derivePathSecret^[position] s) nodes).2 =
      (((List.iterate K.derivePathSecret s (position + nodes.length)).map fun s =>
          ⟨(K.deriveKeyPair s).publicKey, s⟩).drop position,
        ((List.iterate K.derivePathSecret s (position + nodes.length)).map K.deriveKeyPair).drop
          position, K.derivePathSecret^[position + nodes.length] s) := by
  rw [← map_drop, ← map_drop, drop_iterate, Nat.add_comm position, Function.iterate_add_apply]
  rfl

lemma derivePath_publicKeys (s : S) (nodes : List ℕ) :
    (K.derivePath H s nodes).1.map (·.2.encryptionKey) =
      (K.derivePath H s nodes).2.1.map (·.publicKey) := by
  refine ext_getElem (by simp [derivePath]) fun k _ _ => ?_
  simp [derivePath, ParentNode.ofKey]

lemma exists_encryptPath {resolutions : List (List Key)} {k x : ℕ} {node : PlainUpdatePathNode S}
    {pk : Key} (hnode : path[k]? = some node) (hpks : resolutions[k]? = some pks)
    (hpk : pks[x]? = some pk) (groupContext : GroupContext D) (coins : ℕ → ℕ → Bytes) :
    ∃ e, (K.encryptPath path groupContext resolutions coins)[k]? = some e ∧
      e.encryptedPathSecrets[x]? = some (K.encryptWithLabel pk (.updatePathNode groupContext)
        (.pathSecret node.pathSecret) (coins k x)) := by
  refine ⟨K.encryptNode node pks groupContext (coins k), ?_, ?_⟩
  · simp [encryptPath, getElem?_zip_eq_some, hnode, hpks]
  · simp [encryptNode, hpk]

end KemSuite

/-- The loop of `decryption_key` finds the first key that is owned. -/
lemma TreeSyncDiff.findKeypair_eq_some {K : KemSuite D S P C}
    {keypairs : List (EncryptionKeyPair K)} (h : ∃ pk ∈ pks, pk ∈ ownedKeys keypairs)
    (position : ℕ) :
    ∃ keypair x, findKeypair keypairs pks position = some (keypair, position + x) ∧
      keypair ∈ keypairs ∧ pks[x]? = some keypair.publicKey := by
  induction pks generalizing position with
  | nil => obtain ⟨pk, hpk, -⟩ := h; cases hpk
  | cons pk pks ih =>
    cases hfind : keypairs.find? (·.publicKey = pk) with
    | some keypair =>
      have hkey : keypair.publicKey = pk := by simpa using find?_some hfind
      refine ⟨keypair, 0, by rw [findKeypair, hfind]; rfl, mem_of_find?_eq_some hfind, ?_⟩
      rw [hkey]
      rfl
    | none =>
      have hrest : ∃ pk ∈ pks, pk ∈ ownedKeys keypairs := by
        obtain ⟨pk', hpk', keypair, hmem, rfl⟩ := h
        rcases mem_cons.mp hpk' with rfl | hpk'
        · exact absurd (find?_eq_none.mp hfind keypair hmem) (by simp)
        · exact ⟨_, hpk', keypair, hmem, rfl⟩
      obtain ⟨keypair, x, heq, hmem, hx⟩ := ih hrest (position + 1)
      refine ⟨keypair, x + 1, ?_, hmem, hx⟩
      rw [findKeypair, hfind, show position + (x + 1) = position + 1 + x by omega]
      exact heq

/-! ## Receivers -/

/-- The receiver `j` of a path of `i` reads it: the position in the path that it computes and the
    key pair that it finds are those of an encryption of the secret there, and it derives the rest
    of the path from that secret as the sender did. -/
structure PathComputationResult.ReadBy {K : KemSuite D S P C} (H : HashSuite D)
    (r : PathComputationResult K) (d : PublicGroupDiff D) (i j : ℕ) (exclusionList : List ℕ)
    (keypairs : List (EncryptionKeyPair K)) (position : ℕ) (node : PlainUpdatePathNode S) :
    Prop where
  located : d.diff.subtreeRootPosition i j = .ok position
  secret : r.plainPath[position]? = some node
  ciphertext : ∃ keypair x e coins,
    d.diff.decryptionKey i exclusionList keypairs j = .ok (keypair, x) ∧ keypair ∈ keypairs ∧
    r.encryptedPath[position]? = some e ∧
    e.encryptedPathSecrets[x]? = some (K.encryptWithLabel keypair.publicKey
      (.updatePathNode d.groupContext) (.pathSecret node.pathSecret) coins)
  rest : ∃ nodes, d.diff.filteredCommonDirectPath j i = .ok nodes ∧
    (K.derivePath H node.pathSecret nodes).2 =
      (r.plainPath.drop position, r.newKeypairs.tail.drop position, r.commitSecret)
  publicKeys : r.encryptedPath.map (·.publicKey) = r.plainPath.map (·.publicKey)

namespace PathComputationResult

variable {K : KemSuite D S P C} {r : PathComputationResult K} {d : PublicGroupDiff D}
  {rand : PathRandomness K} {exclusionList low high : List ℕ} {n i j m length position : ℕ}
  {keypairs : List (EncryptionKeyPair K)} {node : PlainUpdatePathNode S}

section

variable (h : r.For d i exclusionList rand length) (hmeet : d.diff.Meeting n i j m low high)
include h hmeet

section

variable (hlength : (d.diff.pathLevels n i).length = length)
include hlength

lemma For.node_at :
    r.plainPath[low.length]? = some ⟨K.pathKey rand.pathSecret low.length,
      K.derivePathSecret^[low.length] rand.pathSecret⟩ := by
  have hlt : low.length < length := by
    rw [← hlength, hmeet.split]
    simp
  rw [h.plainPath, getElem?_map, getElem?_iterate _ _ _ _ hlt]
  rfl

lemma For.rest {nodes : List ℕ} (hnodes : nodes.length = (m :: high).length) :
    (K.derivePath H (K.derivePathSecret^[low.length] rand.pathSecret) nodes).2 =
      (r.plainPath.drop low.length, r.newKeypairs.tail.drop low.length, r.commitSecret) := by
  have hsum : length = low.length + (m :: high).length := by
    rw [← hlength, hmeet.split, length_append]
  rw [KemSuite.derivePath_rest, hnodes, ← hsum, h.plainPath, h.newKeypairs, h.commitSecret,
    tail_cons]

/-- **A receiver that has its keys reads the path**, unless it is excluded. -/
lemma For.readBy (hj : j ∉ exclusionList)
    {l : LeafNode D} (hleaf : d.diff.contents.leaf j = some l)
    (hl : l.encryptionKey ∈ ownedKeys keypairs)
    (hparent : ∀ k < m, ∀ q, d.diff.contents.parent k (j / 2 ^ (k + 1)) = some q →
      j ∉ q.unmergedLeaves → q.encryptionKey ∈ ownedKeys keypairs) :
    ∃ node, r.ReadBy H d i j exclusionList keypairs low.length node := by
  have hwf := hmeet.wellFormed
  obtain ⟨resolutions, hresolutions, hencrypted⟩ := h.encryptedPath
  rw [filteredCopathResolutions_eq hwf.shaped (hwf.lt_pow hmeet.sender)] at hresolutions
  cases hresolutions
  have hnode := h.node_at hmeet hlength
  -- the resolution of the receiver is that of the sender at the node where the paths meet
  set rs := d.diff.resolution (nodeAt m (j / 2 ^ m)) exclusionList
    d.diff.rightmostFullLeaf with hrs
  have hsame : filterResolution exclusionList (d.diff.resolution
      (nodeAt m (sib (i / 2 ^ m))) [] d.diff.rightmostFullLeaf) = rs := by
    rw [filterResolution_eq, ← resolution_excluded, hrs, show j / 2 ^ m = _ from hmeet.meet]
  obtain ⟨e, he, howned⟩ :=
    exists_owned hleaf hl hparent hj (hwf.le_rightmostFullLeaf hmeet.receiver)
  have hkey : ∃ pk ∈ rs.map (·.2.encryptionKey), pk ∈ ownedKeys keypairs :=
    ⟨_, mem_map_of_mem he, howned⟩
  obtain ⟨keypair, x, hfind, hmem, hx⟩ := findKeypair_eq_some hkey 0
  rw [Nat.zero_add] at hfind
  have hpks : (((d.diff.pathLevels n i).map fun k => filterResolution exclusionList
      (d.diff.resolution (nodeAt k (sib (i / 2 ^ k))) [] d.diff.rightmostFullLeaf)).map
      fun rs => rs.map (·.2.encryptionKey))[low.length]? = some (rs.map (·.2.encryptionKey)) := by
    rw [hmeet.split, getElem?_map, getElem?_map,
      getElem?_append_right (le_refl _), Nat.sub_self, ← hsame]
    rfl
  obtain ⟨e', he', hcipher⟩ :=
    KemSuite.exists_encryptPath (K := K) hnode hpks hx d.groupContext rand.coins
  refine ⟨_, hmeet.subtreeRootPosition_eq, hnode, ⟨keypair, x, e', _, ?_, hmem, ?_, hcipher⟩,
    ⟨_, hmeet.filteredCommonDirectPath_eq, h.rest hmeet hlength (by rw [length_map])⟩, ?_⟩
  · rw [decryptionKey, subtreeRootCopathNode_eq hmeet.meet hmeet.lt, ← hrs, hfind]
  · rw [hencrypted, he']
  · rw [hencrypted]
    refine K.publicKeys_encryptPath ?_ rand.coins
    rw [h.plainPath, length_map, length_iterate, length_map, length_map, hlength]

end

end

lemma all_zip_of_map_eq {β : Type} {xs : List α} {ys : List β} {f : α → Key} {g : β → Key}
    (h : xs.map f = ys.map g) : ((xs.zip ys).all fun e => f e.1 = g e.2) = true := by
  induction xs generalizing ys with
  | nil => rfl
  | cons x xs ih =>
    cases ys with
    | nil => rfl
    | cons y ys =>
      rw [map_cons, map_cons, List.cons.injEq] at h
      simp [h.1, all_cons, ih h.2]

/-- **A receiver that reads the path has the secrets of the sender.** -/
lemma ReadBy.decryptPath_eq (h : r.ReadBy H d i j exclusionList keypairs position node) :
    d.decryptPath H keypairs j i r.encryptedPath exclusionList =
      .ok (r.newKeypairs.tail.drop position, r.commitSecret) := by
  obtain ⟨keypair, x, e, coins, hkey, -, he, hcipher⟩ := h.ciphertext
  obtain ⟨nodes, hnodes, hrest⟩ := h.rest
  have hopen : K.decryptWithLabel keypair.privateKey (.updatePathNode d.groupContext)
      (K.encryptWithLabel keypair.publicKey (.updatePathNode d.groupContext)
        (.pathSecret node.pathSecret) coins) = some (.pathSecret node.pathSecret) := by
    rw [← keypair.paired]
    exact K.decrypt_encrypt _ _ _ _
  have hcheck : (((r.encryptedPath.drop position).zip
      (K.derivePath H node.pathSecret nodes).1).all fun e =>
        e.1.publicKey = e.2.2.encryptionKey) = true := by
    refine all_zip_of_map_eq (f := UpdatePathNode.publicKey)
      (g := fun e : ℕ × ParentNode D => e.2.encryptionKey) ?_
    rw [map_drop, h.publicKeys, KemSuite.derivePath_publicKeys, hrest, map_drop]
  rw [PublicGroupDiff.decryptPath, h.located, hnodes]
  simp only [TreeSyncDiffError.toLibraryError, ApplyUpdatePathError.lift, bind, Except.bind, he,
    hkey, hcipher, hopen]
  rw [if_pos hcheck]
  exact congrArg (fun e => Except.ok (e.2.1, e.2.2)) hrest

end PathComputationResult

/-! ## Diffs that are the same -/

namespace TreeSyncDiff

variable {t t' : TreeSyncDiff D}

lemma Same.resolution (h : t'.Same t) : t'.resolution = t.resolution := by
  funext x excluded r
  simp only [TreeSyncDiff.resolution, h.leaf, h.parent]

lemma Same.rightmostFullLeaf (h : t'.Same t) : t'.rightmostFullLeaf = t.rightmostFullLeaf := by
  rw [TreeSyncDiff.rightmostFullLeaf, TreeSyncDiff.rightmostFullLeaf, h.numMembers, h.blankedLeaves]

lemma Same.filteredDirectPath (h : t'.Same t) : t'.filteredDirectPath = t.filteredDirectPath := by
  funext i
  have hcount : t'.leafCount = t.leafCount := by rw [leafCount, leafCount, h.size]
  have hresolutions : t'.copathResolutions i = t.copathResolutions i := by
    rw [copathResolutions, copathResolutions, hcount, h.size, h.resolution, h.rightmostFullLeaf]
  rw [TreeSyncDiff.filteredDirectPath, TreeSyncDiff.filteredDirectPath, h.size, hresolutions]

end TreeSyncDiff

namespace PathComputationResult

variable {K : KemSuite D S P C} {r : PathComputationResult K} {d d' : PublicGroupDiff D}
  {exclusionList : List ℕ} {i j position : ℕ} {keypairs : List (EncryptionKeyPair K)}
  {node : PlainUpdatePathNode S}

lemma ReadBy.congr (h : r.ReadBy H d i j exclusionList keypairs position node)
    (hsame : d'.diff.Same d.diff) (hcontext : d'.groupContext = d.groupContext) :
    r.ReadBy H d' i j exclusionList keypairs position node where
  located := by
    rw [subtreeRootPosition, hsame.filteredDirectPath]
    exact h.located
  secret := h.secret
  ciphertext := by
    rw [hcontext, decryptionKey, hsame.resolution, hsame.rightmostFullLeaf]
    exact h.ciphertext
  rest := by
    rw [filteredCommonDirectPath, hsame.filteredDirectPath]
    exact h.rest
  publicKeys := h.publicKeys

end PathComputationResult

/-! ## New members -/

/-- The path secret that `encrypt_group_secrets` picks for a new member. -/
def TreeSyncDiff.pathSecretFor (t : TreeSyncDiff D) (path : List (PlainUpdatePathNode S))
    (encryptor i : ℕ) : Option S :=
  (t.subtreeRootPosition encryptor i).toOption.bind fun position =>
    path[position]?.map (·.pathSecret)

section Welcome

variable {K : KemSuite D S P C}

lemma TreeSyncDiff.encryptGroupSecrets_eq {t : TreeSyncDiff D} {encryptor : ℕ}
    {invited : List (ℕ × KeyPackage D)}
    (h : ∀ e ∈ invited, (t.pathSecretFor path encryptor e.1).isSome) (joinerSecret : Bytes)
    (presharedkeys : List Bytes) (info : Bytes) (coins : ℕ → Bytes) (k : ℕ) :
    t.encryptGroupSecrets K joinerSecret (some path) presharedkeys info encryptor coins invited k =
      .ok (invited.mapIdx fun x e => ⟨e.2, K.encryptWithLabel e.2.hpkeInitKey (.welcome info)
        (.groupSecrets ⟨joinerSecret, t.pathSecretFor path encryptor e.1, presharedkeys⟩)
        (coins (k + x))⟩) := by
  induction invited generalizing k with
  | nil => rfl
  | cons e invited ih =>
    obtain ⟨i, kp⟩ := e
    have hrest := ih (fun e he => h e (.tail _ he)) (k + 1)
    obtain ⟨s, hs⟩ := Option.isSome_iff_exists.mp (h (i, kp) mem_cons_self)
    obtain ⟨position, hposition, hsecret⟩ := Option.bind_eq_some_iff.mp hs
    obtain ⟨node, hnode, rfl⟩ := Option.map_eq_some_iff.mp hsecret
    rw [encryptGroupSecrets, hrest, Exec.toOption_eq_some.mp hposition, mapIdx_cons, hs]
    simp only [TreeSyncDiffError.toLibraryError, bind, Except.bind, hnode, pure, Except.pure]
    simp [Nat.add_assoc, Nat.add_comm 1]

variable {length : ℕ} {s : S}

/-- The loop of `derive_path_secrets` derives a chain for the nodes that are there. -/
lemma TreeSync.deriveLoop_eq {t : TreeSync D} {own : ℕ} {js : List ℕ}
    (hkeys : (js.filterMap t.tree.parentByIndex).map (·.encryptionKey) =
      (List.range length).map (K.pathKey s))
    (hfresh : ∀ q ∈ js.filterMap t.tree.parentByIndex, own ∉ q.unmergedLeaves) :
    t.deriveLoop K own js s = .ok ((List.iterate K.derivePathSecret s length).map K.deriveKeyPair,
      K.derivePathSecret^[length] s) := by
  induction js generalizing s length with
  | nil =>
    obtain rfl : length = 0 := by simpa using (congrArg List.length hkeys).symm
    rfl
  | cons j js ih =>
    cases hq : t.tree.parentByIndex j with
    | none =>
      rw [filterMap_cons_none hq] at hkeys hfresh
      rw [deriveLoop, hq]
      exact ih hkeys hfresh
    | some q =>
      rw [filterMap_cons_some hq] at hkeys hfresh
      obtain ⟨length, rfl⟩ : ∃ length', length = length' + 1 := by
        have := congrArg List.length hkeys
        simp only [map_cons, length_cons, length_map, length_range] at this
        exact ⟨_, this.symm⟩
      rw [range_succ_eq_map, map_cons, map_cons, List.cons.injEq, map_map] at hkeys
      have hrest := ih (s := K.derivePathSecret s) hkeys.2 fun q hq =>
        hfresh q (.tail _ hq)
      have hkey : q.encryptionKey = (K.deriveKeyPair s).publicKey := hkeys.1
      rw [deriveLoop, hq]
      dsimp only
      rw [if_neg (hfresh q mem_cons_self), if_neg (not_not.mpr hkey), hrest]
      rfl

lemma filterMap_lookup {ns : List (ℕ × α)} {ks : List ℕ} (hns : (ns.map Prod.fst).Pairwise (· < ·))
    (hks : ks.Pairwise (· < ·)) (hsub : ∀ k ∈ ns.map Prod.fst, k ∈ ks) :
    (ks.filterMap fun k => ns.lookup k) = ns.map Prod.snd := by
  have hfilter : ks.filter (· ∈ ns.map Prod.fst) = ns.map Prod.fst :=
    (hks.filter _).eq_of_mem_iff hns fun k => by
      rw [mem_filter, decide_eq_true_eq]
      exact ⟨fun h => h.2, fun h => ⟨hsub k h, h⟩⟩
  calc (ks.filterMap fun k => ns.lookup k)
      = (ks.filter (· ∈ ns.map Prod.fst)).filterMap fun k => ns.lookup k := by
        rw [filterMap_filter]
        refine filterMap_congr fun k _ => ?_
        split_ifs with hk
        · rfl
        · exact lookup_of_notMem (by simpa using hk)
    _ = ns.map Prod.snd := by
        rw [hfilter, filterMap_map, ← filterMap_eq_map]
        refine filterMap_congr fun e he => ?_
        exact lookup_of_mem (hns.imp ne_of_lt) he

variable {t t' : TreeSyncDiff D} {tree : TreeSync D} {ns : List (ℕ × ParentNode D)}
  {l : LeafNode D} {n n' i j m : ℕ} {low high : List ℕ}

lemma TreeSyncDiff.PathWritten.filterMap_parent (h : t.PathWritten n i ns l t')
    (hmeet : t'.Meeting n i j m low high) (htree : tree.contents = t'.contents)
    (hwf : tree.emptyDiff.WellFormed n') (hb : tree.contents.Branching) :
    ((List.range' m (n' - m)).map fun k => inorder k (i / 2 ^ (k + 1))).filterMap
      tree.tree.parentByIndex = (ns.drop low.length).map Prod.snd := by
  have hlevels : ns.map Prod.fst = low ++ m :: high := by
    rw [h.levels, ← h.pathLevels_eq, hmeet.split]
  have hdrop : (ns.drop low.length).map Prod.fst = m :: high := by
    rw [map_drop, hlevels, drop_left]
  have hsorted : (ns.map Prod.fst).Pairwise (· < ·) := by
    rw [h.levels]
    exact pairwise_pathLevels t n i
  have hparent : ∀ k, tree.tree.parentByIndex (inorder k (i / 2 ^ (k + 1))) = ns.lookup k := by
    intro k
    show tree.contents.parent k (i / 2 ^ (k + 1)) = _
    rw [htree] at hb ⊢
    by_cases hk : k < n
    · rw [h.contents, Contents.parent_edit_above hk]
    · have hnone : k ∉ ns.map Prod.fst := fun hmem => hk (by
        rw [h.levels] at hmem
        exact (mem_pathLevels.mp hmem).1)
      rw [lookup_of_notMem hnone, Option.eq_none_iff_forall_ne_some]
      exact fun q hq => hk (hb.lt_depth hmeet.wellFormed.beyond_depth hq)
  have hhigh : ∀ k ∈ List.range' m (n' - m), ns.lookup k = (ns.drop low.length).lookup k := by
    intro k hk
    have hlow : (ns.take low.length).lookup k = none := lookup_of_notMem fun hmem => by
      rw [map_take, hlevels, take_left] at hmem
      exact absurd (hmeet.low k hmem) (Nat.not_lt.mpr (mem_range'_1.mp hk).1)
    conv_lhs => rw [← take_append_drop low.length ns, lookup_append, hlow]
    rfl
  rw [filterMap_map]
  refine (filterMap_congr fun k hk => (hparent k).trans (hhigh k hk)).trans
    (filterMap_lookup ?_ pairwise_lt_range' fun k hk => ?_)
  · rw [map_drop]
    exact hsorted.sublist (drop_sublist _ _)
  · have hm : m ≤ k := by
      rw [hdrop] at hk
      rcases mem_cons.mp hk with rfl | hk
      · exact le_refl k
      · exact le_of_lt (hmeet.high k hk)
    obtain ⟨e, he, rfl⟩ := mem_map.mp hk
    have hlt : e.1 < n' := hb.lt_depth hwf.beyond_depth
      ((hparent e.1).trans (lookup_of_mem (hsorted.imp ne_of_lt) (mem_of_mem_drop he)))
    exact mem_range'_1.mpr ⟨hm, by omega⟩

lemma MeetAt.lt_depth (h : MeetAt m i j) (hi : i < 2 ^ n) (hj : j < 2 ^ n) : m < n := by
  by_contra hle
  have hpow : 2 ^ n ≤ 2 ^ m := Nat.pow_le_pow_right (by omega) (Nat.not_lt.mp hle)
  refine h.below (le_refl m) ?_
  rw [Nat.div_eq_of_lt (hi.trans_le hpow), Nat.div_eq_of_lt (hj.trans_le hpow)]

/-- **A new member derives the key pairs of the sender** from the secret of the common node. -/
lemma TreeSync.derivePathSecrets_eq (h : t.PathWritten n i ns l t')
    (hkeys : ns.map (·.2.encryptionKey) = (List.range length).map (K.pathKey s))
    (hmeet : t'.Meeting n i j m low high) (htree : tree.contents = t'.contents)
    (hwf : tree.emptyDiff.WellFormed n') (hb : tree.contents.Branching) :
    tree.derivePathSecrets K (K.derivePathSecret^[low.length] s) i j =
      .ok (((List.iterate K.derivePathSecret s length).map K.deriveKeyPair).drop low.length,
        K.derivePathSecret^[length] s) := by
  have hfull : ∀ {a}, (t'.contents.leaf a).isSome → a < 2 ^ n' := fun {a} ha =>
    hwf.lt_pow (show (tree.contents.leaf a).isSome by rwa [htree])
  have hi := hfull hmeet.sender
  have hj := hfull hmeet.receiver
  have hlength : length = low.length + (m :: high).length := by
    rw [← length_append, ← hmeet.split, h.pathLevels_eq, ← h.levels, length_map]
    simpa using (congrArg List.length hkeys).symm
  have hnodes := h.filterMap_parent hmeet htree hwf hb
  have hsize : tree.treeSize = .ofDepth n' := hwf.shaped.size
  rw [derivePathSecrets, hsize, commonDirectPath_eq hmeet.meet (hmeet.meet.lt_depth hi hj) hi hj,
    upperPath, ← map_drop, hlength, drop_iterate, Nat.add_comm low.length,
    Function.iterate_add_apply]
  refine deriveLoop_eq ?_ ?_
  · rw [hnodes, map_map]
    show (ns.drop low.length).map (·.2.encryptionKey) = _
    rw [map_drop, hkeys, KemSuite.pathKeys_eq, KemSuite.pathKeys_eq, hlength,
      ← map_drop, drop_iterate]
  · rw [hnodes]
    intro q hq
    obtain ⟨e, he, rfl⟩ := mem_map.mp hq
    rw [h.fresh e (mem_of_mem_drop he)]
    exact not_mem_nil

end Welcome

end EmulatedMls
