import EmulatedMls.Tree.PathCommit

/-!
# Groups with the private keys of their members

A run of a group in which every member stores the key pairs of the current epoch: the committer
those of its path, a receiver those that it decrypts, a new member those that it derives from its
Welcome.

**Source.**  `stage_commit` and `merge_commit` of `group/mls_group/staged_commit.rs`,
`into_staged_welcome` and `into_group` of `group/mls_group/creation.rs`, and the creation of a group
in `group/mls_group/builder.rs`.

**Trees.**  All members have the tree of the group.  A new member derives its key pairs in that
tree; the theorem says the same of the tree that it imports.
-/

namespace EmulatedMls

variable {D S P C : Type}

open Exec List PublicGroup TreeSyncDiff

/-! ## Key pairs in use -/

/-- `KeyPackageBundle`: a key package with the key pairs of its two public keys. -/
structure KeyPackageBundle (K : KemSuite D S P C) where
  keyPackage : KeyPackage D
  initKeypair : EncryptionKeyPair K
  leafKeypair : EncryptionKeyPair K
  init : initKeypair.publicKey = keyPackage.hpkeInitKey
  leaf : leafKeypair.publicKey = keyPackage.leafNode.encryptionKey

/-- A commit, with what is drawn at random for it.  Who proposed to update a leaf has the key pair
    of the new leaf, and who made a key package has its key pairs. -/
structure KeyedCommit (K : KemSuite D S P C) where
  request : CommitRequest D
  params : LeafNodeParameters
  rand : PathRandomness K
  joinerSecret : Bytes
  encryptedGroupInfo : Bytes
  welcomeCoins : ℕ → Bytes
  leafNodeKeypairs : ℕ → List (EncryptionKeyPair K)
  bundles : List (KeyPackageBundle K)
  updated : ∀ g, ∀ e ∈ updateProposals (request.proposals g), ∀ i, e.2 = .member i →
    e.1.encryptionKey ∈ ownedKeys (leafNodeKeypairs i)
  bundled : ∀ g, ∀ kp ∈ addProposals (request.proposals g), ∃ b ∈ bundles, b.keyPackage = kp

/-- A group, with the key pairs that the owner of each leaf has stored for the epoch. -/
structure KeyedGroup (K : KemSuite D S P C) where
  group : PublicGroup D
  keypairs : ℕ → List (EncryptionKeyPair K)

inductive KeyedEvent (K : KemSuite D S P C) where
  | commit (e : KeyedCommit K)
  | join (joining : JoinRules D) (signer : ℕ) (verifies : Key → Bool)

variable {K : KemSuite D S P C}

/-- The key pairs that a new member stores. -/
def KeyPackageBundle.groupKeypairs (b : KeyPackageBundle K) (tree : TreeSync D)
    (encryptedGroupInfo : Bytes) (secrets : EncryptedGroupSecrets D C) (sender own : ℕ) :
    Option (List (EncryptionKeyPair K)) :=
  match K.decryptWithLabel b.initKeypair.privateKey (.welcome encryptedGroupInfo)
      secrets.encryptedGroupSecrets with
  | some (.groupSecrets groupSecrets) =>
    match groupSecrets.pathSecret with
    | none => some [b.leafKeypair]
    | some s => (tree.derivePathSecrets K s sender own).toOption.map fun e => b.leafKeypair :: e.1
  | _ => none

namespace KeyedCommit

variable [DecidableEq D] (H : HashSuite D) (e : KeyedCommit K)

/-- `encrypt_group_secrets` for the members that a commit invites. -/
def welcome (e : KeyedCommit K) (g : PublicGroup D) (c : EncryptedCommit K) :
    Except ApplyUpdatePathError (List (EncryptedGroupSecrets D C)) :=
  c.diff.diff.encryptGroupSecrets K e.joinerSecret (c.path.map (·.plainPath))
    c.values.presharedkeys e.encryptedGroupInfo (e.request.committer g) e.welcomeCoins
    c.values.invitationList 0

/-- What the committer keeps.  An external committer has stored nothing here; one that resyncs may
    still find old key pairs under its leaf, which only adds to what it keeps. -/
def committerKeypairs (st : KeyedGroup K) (c : EncryptedCommit K) (g : PublicGroup D) :
    Exec (List (EncryptionKeyPair K)) :=
  let own := e.request.committer st.group
  let oldEpochKeypairs := match e.request with
    | .member _ _ _ => st.keypairs own
    | .external _ _ _ => []
  g.retainKeypairs own (oldEpochKeypairs ++ ((c.path.map (·.newKeypairs)).getD []))

def receiverKeypairs (st : KeyedGroup K) (c : EncryptedCommit K) (g : PublicGroup D) (own : ℕ) :
    Except MemberStageError (List (EncryptionKeyPair K)) :=
  match c.path with
  | none => MemberStageError.liftCommit (liftTree (lift (g.retainKeypairs own (st.keypairs own))))
  | some r => do
    let staged ← st.group.stageEncryptedCommit H own (e.request.committer st.group)
      (e.request.proposals st.group) r (st.keypairs own) (e.leafNodeKeypairs own)
    match staged with
    | .publicState _ => pure []
    | .groupMember _ newKeypairs newLeafKeypair _ =>
      MemberStageError.liftCommit (liftTree (lift
        (g.retainKeypairs own (st.keypairs own ++ newKeypairs ++ newLeafKeypair.toList))))

/-- What is stored for leaf `own` after the commit; nothing, if a call fails. -/
def nextKeypairs (st : KeyedGroup K) (c : EncryptedCommit K)
    (welcome : List (EncryptedGroupSecrets D C)) (g : PublicGroup D) (own : ℕ) :
    List (EncryptionKeyPair K) :=
  let sender := e.request.committer st.group
  if own = sender then (e.committerKeypairs st c g).toOption.getD []
  else match (c.values.invitationList.zip welcome).find? (·.1.1 = own) with
    | some (invited, secrets) =>
      ((e.bundles.find? (·.keyPackage = invited.2)).bind fun b =>
        b.groupKeypairs g.treesync e.encryptedGroupInfo secrets sender own).getD []
    | none => (e.receiverKeypairs H st c g own).toOption.getD []

end KeyedCommit

section

variable [DecidableEq D] (K) (H : HashSuite D) (rules : GroupView D)

/-- One step: a commit is made, sent and merged by everybody, or the group is handed to a joiner. -/
def KeyedGroup.step (st : KeyedGroup K) : KeyedEvent K → Option (KeyedGroup K)
  | .commit e => do
    let c ← (st.group.createEncrypted K H rules e.params e.rand e.request).toOption
    let welcome ← (e.welcome st.group c).toOption
    let g ← (st.group.mergeDiff c.diff).toOption
    pure ⟨g, e.nextKeypairs H st c welcome g⟩
  | .join joining signer verifies => do
    let g ← (fromExternal H joining st.group.treesync.exportRatchetTree
      ⟨st.group.groupContext, signer, verifies⟩).toOption
    pure { st with group := g }

/-- A group has been created, and the founder has stored the key pair of its leaf. -/
def KeyedGroup.Founded (st : KeyedGroup K) : Prop :=
  ∃ l extensions keypair, found H l extensions = .ok st.group ∧
    keypair.publicKey = l.encryptionKey ∧ st.keypairs 0 = [keypair]

def keyedRuns : Machine (KeyedGroup K) (KeyedEvent K) where
  init := KeyedGroup.Founded K H
  step := KeyedGroup.step K H rules

end

/-! ## New members -/

section NewMembers

variable {g : PublicGroup D} {m n n' length j k : ℕ} {request : CommitRequest D}
  {rand : PathRandomness K} {c : EncryptedCommit K} {r : PathComputationResult K}
  {us added : List (ℕ × LeafNode D)} {t : TreeSyncDiff D} {ns : List (ℕ × ParentNode D)}
  {low high : List ℕ} {node : PlainUpdatePathNode S}

namespace PathCommit

variable (h : PathCommit g m request rand c r n length us added t ns)
include h

lemma sender_full : (c.diff.diff.contents.leaf (request.committer g)).isSome := by
  rw [h.written.contents, Contents.leaf_edit_self]
  rfl

lemma exists_meeting (hj : (c.diff.diff.contents.leaf j).isSome) (hne : j ≠ request.committer g) :
    ∃ k low high, c.diff.diff.Meeting n (request.committer g) j k low high :=
  TreeSyncDiff.exists_meeting h.written.wellFormed h.sender_full hj hne

lemma leaf_invited {e : ℕ × KeyPackage D} (he : e ∈ c.values.invitationList)
    (hne : e.1 ≠ request.committer g) : c.diff.diff.contents.leaf e.1 = some e.2.leafNode :=
  (h.leaf_eq hne).trans (h.changes.leaf_of_added (h.mem_added he))

/-- The secret of the node at which a leaf meets the path, and what is derived from it. -/
lemma exists_secret (hmeet : c.diff.diff.Meeting n (request.committer g) j k low high) :
    ∃ node, r.plainPath[low.length]? = some node ∧
      c.diff.diff.pathSecretFor r.plainPath (request.committer g) j = some node.pathSecret ∧
      ∀ {tree : TreeSync D} {n' : ℕ}, tree.contents = c.diff.diff.contents →
        tree.emptyDiff.WellFormed n' → tree.contents.Branching →
        tree.derivePathSecrets K node.pathSecret (request.committer g) j =
          .ok (r.newKeypairs.tail.drop low.length, r.commitSecret) := by
  have hnode := h.computed.node_at hmeet h.length_pathLevels
  refine ⟨_, hnode, ?_, fun htree hwf hb => ?_⟩
  · rw [pathSecretFor, hmeet.subtreeRootPosition_eq]
    show Option.map _ (r.plainPath[low.length]?) = _
    rw [hnode]
    rfl
  · rw [TreeSync.derivePathSecrets_eq h.written h.keys hmeet htree hwf hb, h.computed.newKeypairs,
      h.computed.commitSecret, tail_cons]

end PathCommit

variable [DecidableEq D] {H : HashSuite D} {rules : GroupView D} {e : KeyedCommit K}

/-- **The Welcome**: every new member is sent the secret of the node at which it meets the path. -/
lemma KeyedCommit.welcome_eq (hwf : g.treesync.emptyDiff.WellFormed m)
    (hc : g.createEncrypted K H rules e.params e.rand e.request = .ok c) (hr : c.path = some r)
    (h : PathCommit g m e.request e.rand c r n length us added t ns) :
    e.welcome g c = .ok (c.values.invitationList.mapIdx fun x invited => ⟨invited.2,
      K.encryptWithLabel invited.2.hpkeInitKey (.welcome e.encryptedGroupInfo)
        (.groupSecrets ⟨e.joinerSecret,
          c.diff.diff.pathSecretFor r.plainPath (e.request.committer g) invited.1,
          c.values.presharedkeys⟩) (e.welcomeCoins x)⟩) := by
  rw [welcome, hr, Option.map_some, encryptGroupSecrets_eq fun invited hinvited => ?_]
  · simp only [Nat.zero_add]
  · have hne := createEncrypted_apart hwf hc hinvited
    have hleaf := h.leaf_invited hinvited hne
    obtain ⟨k, low, high, hmeet⟩ := h.exists_meeting (by rw [hleaf]; rfl) hne
    obtain ⟨node, -, hsecret, -⟩ := h.exists_secret hmeet
    rw [hsecret]
    rfl

omit [DecidableEq D] in
lemma KeyPackageBundle.groupKeypairs_eq (b : KeyPackageBundle K) {tree : TreeSync D} {info : Bytes}
    {joinerSecret : Bytes} {s : S} {psks : List Bytes} {coins : Bytes} {kp : KeyPackage D}
    {sender own : ℕ} {keypairs : List (EncryptionKeyPair K)} {commitSecret : S}
    (hderive : tree.derivePathSecrets K s sender own = .ok (keypairs, commitSecret)) :
    b.groupKeypairs tree info ⟨kp, K.encryptWithLabel b.keyPackage.hpkeInitKey (.welcome info)
      (.groupSecrets ⟨joinerSecret, some s, psks⟩) coins⟩ sender own =
      some (b.leafKeypair :: keypairs) := by
  have hopen : K.decryptWithLabel b.initKeypair.privateKey (.welcome info)
      (K.encryptWithLabel b.keyPackage.hpkeInitKey (.welcome info)
        (.groupSecrets ⟨joinerSecret, some s, psks⟩) coins) =
      some (.groupSecrets ⟨joinerSecret, some s, psks⟩) := by
    rw [← b.init, ← b.initKeypair.paired]
    exact K.decrypt_encrypt _ _ _ _
  rw [groupKeypairs, hopen]
  dsimp only
  rw [hderive]
  rfl

end NewMembers

/-! ## The keys of all members -/

/-- Every member has stored the keys that belong to its leaf. -/
structure KeyedGroup.Kept (st : KeyedGroup K) (n : ℕ) : Prop where
  formed : st.group.Formed n
  tended : st.group.Tended
  held : ∀ i, (st.group.treesync.contents.leaf i).isSome →
    st.group.treesync.contents.Held i (ownedKeys (st.keypairs i))

section Kept

variable {g g' : PublicGroup D} {n j : ℕ} {keypairs : List (EncryptionKeyPair K)}

lemma ownedKeys_mono {keypairs' : List (EncryptionKeyPair K)} (h : keypairs ⊆ keypairs') :
    ownedKeys keypairs ⊆ ownedKeys keypairs' :=
  fun _ ⟨keypair, hmem, hkey⟩ => ⟨keypair, h hmem, hkey⟩

/-- `merge_commit` keeps the keys that are needed. -/
lemma retainKeypairs_held (hformed : g.Formed n) (htended : g.Tended)
    (hj : (g.treesync.contents.leaf j).isSome)
    (hheld : g.treesync.contents.Held j (ownedKeys keypairs)) :
    ∃ kept, g.retainKeypairs j keypairs = .ok kept ∧
      g.treesync.contents.Held j (ownedKeys kept) := by
  obtain ⟨pks, hpks, hheld'⟩ :=
    held_encryptionKeys hformed.wellFormed htended.lists.branching hj hheld
  refine ⟨keypairs.filter (·.publicKey ∈ pks), by rw [retainKeypairs, hpks]; rfl, ?_⟩
  have hsub : {pk ∈ ownedKeys keypairs | pk ∈ pks} ⊆
      ownedKeys (keypairs.filter (·.publicKey ∈ pks)) := by
    rintro pk ⟨⟨keypair, hmem, rfl⟩, hpk⟩
    exact ⟨keypair, mem_filter.mpr ⟨hmem, decide_eq_true hpk⟩, rfl⟩
  exact hheld'.mono hsub

end Kept

variable {invited : ℕ × KeyPackage D}

section Merged

variable [DecidableEq D] {H : HashSuite D} {rules : GroupView D} {st : KeyedGroup K}
  {e : KeyedCommit K} {c : EncryptedCommit K} {r : PathComputationResult K} {g : PublicGroup D}
  {m n length j : ℕ} {us added : List (ℕ × LeafNode D)} {t : TreeSyncDiff D}
  {ns : List (ℕ × ParentNode D)}

variable (hkept : st.Kept m)
  (hc : st.group.createEncrypted K H rules e.params e.rand e.request = .ok c)
  (hr : c.path = some r)
  (h : PathCommit st.group m e.request e.rand c r n length us added t ns)
  (hformed : g.Formed n) (htended : g.Tended)
  (hcontents : g.treesync.contents = c.diff.diff.contents)

include hr h hformed htended hcontents

omit [DecidableEq D] in
lemma committerKeypairs_held : ∃ kept, e.committerKeypairs st c g = .ok kept ∧
    g.treesync.contents.Held (e.request.committer st.group) (ownedKeys kept) := by
  have hfull : (g.treesync.contents.leaf (e.request.committer st.group)).isSome := by
    rw [hcontents]
    exact h.sender_full
  have hheld : g.treesync.contents.Held (e.request.committer st.group)
      (ownedKeys r.newKeypairs) := by
    rw [hcontents, h.computed.newKeypairs]
    refine ⟨fun l hl => ?_, h.written.heldAbove_self (hcontents ▸ htended.lists.branching)
      fun a ha => ?_⟩
    · rw [h.written.contents, Contents.leaf_edit_self] at hl
      rw [← Option.some.inj hl, h.computed.leafKey]
      exact ⟨e.rand.leafKeypair, .head _, rfl⟩
    · have hkey := mem_map_of_mem (f := fun e : ℕ × ParentNode D => e.2.encryptionKey) ha
      rw [h.keys, KemSuite.pathKeys_eq] at hkey
      obtain ⟨s, hs, hkey⟩ := mem_map.mp hkey
      exact ⟨K.deriveKeyPair s, .tail _ (mem_map_of_mem hs), hkey⟩
  exact retainKeypairs_held hformed htended hfull
    (hheld.mono (ownedKeys_mono fun a ha => mem_append_right _ (by rwa [hr])))

include hkept hc

lemma receiverKeypairs_held (hj : (c.diff.diff.contents.leaf j).isSome)
    (hne : j ≠ e.request.committer st.group) (hexcluded : j ∉ c.values.exclusionList) :
    ∃ kept, e.receiverKeypairs H st c g j = .ok kept ∧
      g.treesync.contents.Held j (ownedKeys kept) := by
  have hreceiver : Receiver st.group e.request c (st.keypairs j) (e.leafNodeKeypairs j) j :=
    ⟨hkept.held j, fun u hu => e.updated st.group u hu j, hne, hexcluded⟩
  obtain ⟨k, low, high, hmeet⟩ := h.exists_meeting hj hne
  obtain ⟨d, node, hstage, -⟩ := stageEncryptedCommit_eq hkept.formed.wellFormed hc hr h
    hreceiver hmeet
  obtain ⟨l, hl⟩ := Option.isSome_iff_exists.mp hj
  have hl' := h.leaf_eq hne ▸ hl
  obtain ⟨habove, -, hleaf⟩ := h.held hreceiver (by rw [hl']; rfl)
  set newLeaf := (c.diff.diff.diff.leaf j).bind fun l =>
    (e.leafNodeKeypairs j).find? (·.publicKey = l.encryptionKey) with hnewLeaf
  set all := st.keypairs j ++ r.newKeypairs.tail.drop low.length ++ newLeaf.toList with hall
  have hold : st.keypairs j ⊆ all := fun a ha =>
    mem_append_left _ (mem_append_left _ ha)
  have hnew : r.newKeypairs.tail.drop low.length ⊆ all := fun a ha =>
    mem_append_left _ (mem_append_right _ ha)
  have hheld : g.treesync.contents.Held j (ownedKeys all) := by
    rw [hcontents]
    refine ⟨fun l' hl1 => ?_, h.written.heldAbove (habove.mono (ownedKeys_mono hold))
      fun a ha hpos => ownedKeys_mono hnew (h.shared hmeet ha hpos)⟩
    obtain rfl := Option.mem_unique hl hl1
    rcases hleaf l hl' with hkey | ⟨keypair, hmem, hkey⟩
    · exact ownedKeys_mono hold hkey
    · -- the key pair of an update that was proposed before
      have hfound : ((e.leafNodeKeypairs j).find? (·.publicKey = l.encryptionKey)).isSome :=
        find?_isSome.mpr ⟨keypair, hmem, decide_eq_true hkey⟩
      obtain ⟨found, hfound⟩ := Option.isSome_iff_exists.mp hfound
      have hsome : newLeaf = some found := by
        rw [hnewLeaf, show c.diff.diff.diff.leaf j = some l from hl]
        exact hfound
      exact ⟨found, by simp [hall, hsome], by simpa using find?_some hfound⟩
  obtain ⟨kept, hretain, hheld⟩ := retainKeypairs_held hformed htended
    (by rw [hcontents]; exact hj) hheld
  refine ⟨kept, ?_, hheld⟩
  rw [KeyedCommit.receiverKeypairs, hr]
  dsimp only
  rw [hstage]
  show MemberStageError.liftCommit (liftTree (lift (g.retainKeypairs j all))) = _
  rw [hretain]
  rfl

omit hr in
lemma groupKeypairs_held (hinvited : invited ∈ c.values.invitationList) (coins : Bytes) :
    ∃ b kept, e.bundles.find? (·.keyPackage = invited.2) = some b ∧
      b.groupKeypairs g.treesync e.encryptedGroupInfo ⟨invited.2,
        K.encryptWithLabel invited.2.hpkeInitKey (.welcome e.encryptedGroupInfo)
          (.groupSecrets ⟨e.joinerSecret, c.diff.diff.pathSecretFor r.plainPath
            (e.request.committer st.group) invited.1, c.values.presharedkeys⟩) coins⟩
        (e.request.committer st.group) invited.1 = some kept ∧
      g.treesync.contents.Held invited.1 (ownedKeys kept) := by
  have hne := createEncrypted_apart hkept.formed.wellFormed hc hinvited
  have hleaf := h.leaf_invited hinvited hne
  obtain ⟨k, low, high, hmeet⟩ := h.exists_meeting (by rw [hleaf]; rfl) hne
  obtain ⟨node, -, hsecret, hderive⟩ := h.exists_secret hmeet
  have hderive := hderive hcontents hformed.wellFormed htended.lists.branching
  obtain ⟨b, hb⟩ : ∃ b, e.bundles.find? (·.keyPackage = invited.2) = some b := by
    obtain ⟨b, hmem, hb⟩ := e.bundled st.group invited.2 (h.packages invited hinvited)
    exact Option.isSome_iff_exists.mp (find?_isSome.mpr ⟨b, hmem, decide_eq_true hb⟩)
  have hpackage : b.keyPackage = invited.2 := by simpa using find?_some hb
  refine ⟨b, b.leafKeypair :: r.newKeypairs.tail.drop low.length, hb, ?_, ?_⟩
  · rw [hsecret, ← hpackage]
    exact b.groupKeypairs_eq hderive
  · have hadded : (invited.1, .add invited.2.leafNode) ∈
        operations us (removeProposals (e.request.proposals st.group)) added := by
      simpa [operations] using h.mem_added hinvited
    rw [hcontents]
    refine ⟨fun l hl => ?_, h.written.heldAbove (h.changes.heldAbove_of_added
      hkept.formed.wellFormed hkept.tended.lists hadded) fun a ha hpos =>
        ownedKeys_mono (subset_cons_self _ _) (h.shared hmeet ha hpos)⟩
    obtain rfl := Option.mem_unique hleaf hl
    exact ⟨b.leafKeypair, .head _, by rw [b.leaf, hpackage]⟩

end Merged

variable {α β : Type}

lemma mem_zip_mapIdx {xs : List α} {f : ℕ → α → β} {a : α} {b : β}
    (h : (a, b) ∈ xs.zip (xs.mapIdx f)) : ∃ x, a ∈ xs ∧ b = f x a := by
  obtain ⟨x, hx⟩ := mem_iff_getElem?.mp h
  obtain ⟨hx1, hx2⟩ := getElem?_zip_eq_some.mp hx
  rw [getElem?_mapIdx, hx1, Option.map_some] at hx2
  exact ⟨x, mem_of_getElem? hx1, (Option.some.inj hx2).symm⟩

lemma exists_mem_zip_mapIdx {xs : List α} {a : α} (f : ℕ → α → β) (h : a ∈ xs) :
    ∃ b, (a, b) ∈ xs.zip (xs.mapIdx f) := by
  obtain ⟨x, hx⟩ := mem_iff_getElem?.mp h
  exact ⟨f x a, mem_of_getElem? (getElem?_zip_eq_some.mpr
    ⟨hx, by rw [getElem?_mapIdx, hx, Option.map_some]⟩)⟩

section Runs

variable [DecidableEq D] {H : HashSuite D} {rules : GroupView D} {st st' : KeyedGroup K}
  {e : KeyedCommit K} {c : EncryptedCommit K} {r : PathComputationResult K} {g : PublicGroup D}
  {m : ℕ} {welcome : List (EncryptedGroupSecrets D C)}

namespace KeyedGroup.Kept

variable (hkept : st.Kept m)
  (hc : st.group.createEncrypted K H rules e.params e.rand e.request = .ok c)
include hkept hc

lemma untouched (hr : c.path = none) (hmerge : st.group.mergeDiff c.diff = .ok g) :
    Kept ⟨g, e.nextKeypairs H st c welcome g⟩ m := by
  obtain ⟨hdiff, hinvited⟩ := createEncrypted_untouched hkept.formed.wellFormed hc hr
  obtain ⟨hformed, hcontents, -⟩ := Formed.of_mergeDiff (n := m)
    (by rw [hdiff]; exact hkept.formed.wellFormed) (by rw [hdiff]; rfl) hmerge
  have hcontents : g.treesync.contents = st.group.treesync.contents := by
    rw [hcontents, hdiff]
    rfl
  have htended : g.Tended := ⟨hcontents ▸ hkept.tended.lists, hcontents ▸ hkept.tended.inhabited⟩
  refine ⟨hformed, htended, fun j hj => ?_⟩
  dsimp only at hj ⊢
  have hheld : g.treesync.contents.Held j (ownedKeys (st.keypairs j)) := by
    rw [hcontents] at hj ⊢
    exact hkept.held j hj
  obtain ⟨kept, hretain, hheld'⟩ := retainKeypairs_held hformed htended hj hheld
  have hnext : e.nextKeypairs H st c welcome g j = kept := by
    rw [KeyedCommit.nextKeypairs, hinvited]
    split_ifs with hown
    · subst hown
      have hmember : e.committerKeypairs st c g = .ok kept := by
        rw [KeyedCommit.committerKeypairs, hr]
        cases hrequest : e.request with
        | member own es selfUpdate =>
          rw [hrequest] at hretain
          simpa using hretain
        | external kemOutput credential signatureKey =>
          rw [hrequest] at hc
          obtain ⟨-, r, length, hr', -⟩ := createEncryptedExternalCommit_eq_ok hc
          rw [hr] at hr'
          cases hr'
      rw [hmember]
      rfl
    · rw [KeyedCommit.receiverKeypairs, hr]
      rw [hretain]
      rfl
  rw [hnext]
  exact hheld'

lemma path (hr : c.path = some r) (hwelcome : e.welcome st.group c = .ok welcome)
    (hmerge : st.group.mergeDiff c.diff = .ok g) :
    ∃ n, Kept ⟨g, e.nextKeypairs H st c welcome g⟩ n := by
  obtain ⟨n, length, us, added, t, ns, h, hshape⟩ :=
    exists_pathCommit hkept.formed.wellFormed hc hr
  obtain ⟨hwf, htree⟩ := hshape.wellFormed hkept.formed.wellFormed
  obtain ⟨hformed, hcontents, -⟩ := Formed.of_mergeDiff hwf htree hmerge
  have htended : g.Tended := by
    obtain ⟨hlists, hinhabited⟩ := hshape.tended hkept.formed.wellFormed hkept.tended
    exact ⟨hcontents ▸ hlists, hcontents ▸ hinhabited⟩
  rw [e.welcome_eq hkept.formed.wellFormed hc hr h] at hwelcome
  cases hwelcome
  refine ⟨n, hformed, htended, fun j hj => ?_⟩
  dsimp only at hj ⊢
  rw [KeyedCommit.nextKeypairs]
  split_ifs with hown
  · subst hown
    obtain ⟨kept, hkeypairs, hheld⟩ := committerKeypairs_held hr h hformed htended hcontents
    rw [hkeypairs]
    exact hheld
  · split
    · rename_i invited secrets hfind
      have hpos : invited.1 = j := by simpa using find?_some hfind
      subst hpos
      obtain ⟨x, hinvited, rfl⟩ := mem_zip_mapIdx (mem_of_find?_eq_some hfind)
      obtain ⟨b, kept, hb, hkeypairs, hheld⟩ := groupKeypairs_held hkept hc h hformed htended
        hcontents hinvited (e.welcomeCoins x)
      rw [hb, Option.bind_some, hkeypairs]
      exact hheld
    · rename_i hfind
      have hexcluded : j ∉ c.values.exclusionList := fun hmem => by
        obtain ⟨invited, hinvited, rfl⟩ := mem_map.mp hmem
        obtain ⟨secrets, hmem⟩ := exists_mem_zip_mapIdx _ hinvited
        exact find?_eq_none.mp hfind _ hmem (decide_eq_true rfl)
      obtain ⟨kept, hkeypairs, hheld⟩ := receiverKeypairs_held hkept hc hr h hformed htended
        hcontents (hcontents ▸ hj) hown hexcluded
      rw [hkeypairs]
      exact hheld

end KeyedGroup.Kept

/-- **Everybody has its keys**, in every run. -/
lemma kept_of_reaches (h : (keyedRuns K H rules).Reaches (fun _ _ => True) st) :
    ∃ n, st.Kept n := by
  have hstart : ∀ st, KeyedGroup.Founded K H st → ∃ n, st.Kept n := by
    rintro st ⟨l, extensions, keypair, hfound, hkey, hkeypairs⟩
    obtain ⟨hsound, hcontents⟩ := found_spec hfound
    refine ⟨0, hsound.formed, ⟨?_, 0, ?_⟩, fun i hi => ?_⟩
    · rw [hcontents]
      exact fun k p q hq => nomatch hq
    · rw [hcontents]
      rfl
    · rw [hcontents] at hi ⊢
      obtain rfl : i = 0 := by
        by_contra hne
        simp [hne] at hi
      refine ⟨fun l' hl' => ⟨keypair, by rw [hkeypairs]; exact mem_singleton_self _, ?_⟩,
        fun k q hq => nomatch hq⟩
      rw [hkey, ← Option.some.inj hl']
  refine h.invariant hstart ?_
  rintro st e st' ⟨m, hkept⟩ - hstep
  cases e with
  | commit e =>
    obtain ⟨c, hc, hstep⟩ := Option.bind_eq_some_iff.mp hstep
    obtain ⟨welcome, hwelcome, hstep⟩ := Option.bind_eq_some_iff.mp hstep
    obtain ⟨g, hmerge, hstep⟩ := Option.bind_eq_some_iff.mp hstep
    cases hstep
    rw [toOption_eq_some] at hc hwelcome hmerge
    cases hr : c.path with
    | none => exact ⟨m, hkept.untouched hc hr hmerge⟩
    | some r => exact hkept.path hc hr hwelcome hmerge
  | join joining signer verifies =>
    obtain ⟨g, hjoin, hstep⟩ := Option.bind_eq_some_iff.mp hstep
    cases hstep
    rw [toOption_eq_some] at hjoin
    obtain ⟨n, hformed⟩ := Formed.join hjoin
    obtain ⟨himport, -, -⟩ := started_of_fromExternal hjoin
    have hcontents := TreeSync.contents_import hkept.formed.sized hkept.formed.wellFormed
      hkept.tended.lists.branching hkept.tended.inhabited himport
    refine ⟨n, hformed, ⟨hcontents ▸ hkept.tended.lists, hcontents ▸ hkept.tended.inhabited⟩,
      fun i hi => ?_⟩
    rw [hcontents] at hi ⊢
    exact hkept.held i hi

end Runs

/-! ## Decryption -/

/-- The new member `invited`, number `x` of the Welcome, is served: it is sent the secret of its
    lowest common ancestor with the committer, and derives from it the key pairs of the committer
    from that node up, in the new tree and in its import. -/
structure KeyedCommit.Serves [DecidableEq D] (H : HashSuite D) (e : KeyedCommit K)
    (g : PublicGroup D) (c : EncryptedCommit K) (r : PathComputationResult K)
    (secrets : EncryptedGroupSecrets D C) (invited : ℕ × KeyPackage D) (coins : Bytes)
    (position : ℕ) (node : PlainUpdatePathNode S) : Prop where
  located : c.diff.diff.subtreeRootPosition (e.request.committer g) invited.1 = .ok position
  ancestor : ∃ nodes, c.diff.diff.filteredDirectPath (e.request.committer g) = .ok nodes ∧
    nodes[position]? = some (lowestCommonAncestor (e.request.committer g) invited.1)
  secret : r.plainPath[position]? = some node
  ciphertext : secrets = ⟨invited.2, K.encryptWithLabel invited.2.hpkeInitKey
    (.welcome e.encryptedGroupInfo) (.groupSecrets ⟨e.joinerSecret, some node.pathSecret,
      c.values.presharedkeys⟩) coins⟩
  derived : ∀ g', g.mergeDiff c.diff = .ok g' → ∀ tree, tree = g'.treesync ∨
    TreeSync.fromRatchetTree H g'.treesync.exportRatchetTree = .ok tree →
      tree.derivePathSecrets K node.pathSecret (e.request.committer g) invited.1 =
        .ok (r.newKeypairs.tail.drop position, r.commitSecret) ∧
      ∀ b : KeyPackageBundle K, b.keyPackage = invited.2 →
        b.groupKeypairs tree e.encryptedGroupInfo secrets (e.request.committer g) invited.1 =
          some (b.leafKeypair :: r.newKeypairs.tail.drop position)

section Theorem

variable [DecidableEq D]

lemma serves_of_kept {H : HashSuite D} {rules : GroupView D} {st : KeyedGroup K} {e : KeyedCommit K}
    {c : EncryptedCommit K} {r : PathComputationResult K} {m n length : ℕ}
    {us added : List (ℕ × LeafNode D)} {t : TreeSyncDiff D} {ns : List (ℕ × ParentNode D)}
    (hkept : st.Kept m) (hc : st.group.createEncrypted K H rules e.params e.rand e.request = .ok c)
    (h : PathCommit st.group m e.request e.rand c r n length us added t ns)
    (hshape : CommitShape H rules st.group m (e.request.toCommit e.params e.rand) c.diff.diff n)
    (hinvited : invited ∈ c.values.invitationList) (coins : Bytes) :
    ∃ position node, e.Serves H st.group c r ⟨invited.2,
      K.encryptWithLabel invited.2.hpkeInitKey (.welcome e.encryptedGroupInfo)
        (.groupSecrets ⟨e.joinerSecret, c.diff.diff.pathSecretFor r.plainPath
          (e.request.committer st.group) invited.1, c.values.presharedkeys⟩) coins⟩
      invited coins position node := by
  have hwf := hkept.formed.wellFormed
  have hne := createEncrypted_apart hwf hc hinvited
  obtain ⟨k, low, high, hmeet⟩ :=
    h.exists_meeting (by rw [h.leaf_invited hinvited hne]; rfl) hne
  obtain ⟨node, hnode, hsecret, hderive⟩ := h.exists_secret hmeet
  refine ⟨low.length, node, hmeet.subtreeRootPosition_eq, hmeet.lowestCommonAncestor_mem, hnode,
    by rw [hsecret], fun g hmerge tree htree => ?_⟩
  obtain ⟨hwf', horiginal⟩ := hshape.wellFormed hwf
  obtain ⟨hformed, hcontents, -⟩ := Formed.of_mergeDiff hwf' horiginal hmerge
  obtain ⟨hlists, hinhabited⟩ := hshape.tended hwf hkept.tended
  rw [← hcontents] at hlists hinhabited
  have hnodes : tree.contents = g.treesync.contents ∧ ∃ n', tree.emptyDiff.WellFormed n' := by
    rcases htree with rfl | himport
    · exact ⟨rfl, n, hformed.wellFormed⟩
    · obtain ⟨n', hwf', -⟩ := TreeSync.fromRatchetTree_sound himport
      exact ⟨TreeSync.contents_import hformed.sized hformed.wellFormed hlists.branching hinhabited
        himport, n', hwf'⟩
  obtain ⟨hsame, n', hwf1⟩ := hnodes
  have hderived := hderive (hsame.trans hcontents) hwf1 (hsame ▸ hlists.branching)
  refine ⟨hderived, fun b hb => ?_⟩
  rw [hsecret, ← hb]
  exact b.groupKeypairs_eq hderived

/-- **Everybody can decrypt.**  Every old member stages the commit and gets the key pairs of the
    path above its leaf and the commit secret, and every new one is served by the Welcome. -/
theorem everyone_decrypts (H : HashSuite D) (K : KemSuite D S P C) (rules : GroupView D)
    {st : KeyedGroup K} (h : (keyedRuns K H rules).Reaches (fun _ _ => True) st)
    (e : KeyedCommit K) {c : EncryptedCommit K} {r : PathComputationResult K}
    (hc : st.group.createEncrypted K H rules e.params e.rand e.request = .ok c)
    (hr : c.path = some r) :
    (∀ j, (c.diff.diff.diff.leaf j).isSome → j ≠ e.request.committer st.group →
      j ∉ c.values.exclusionList →
      ∃ d newLeafKeypair position node,
        st.group.stageEncryptedCommit H j (e.request.committer st.group)
            (e.request.proposals st.group) r (st.keypairs j) (e.leafNodeKeypairs j) =
          .ok (.groupMember d (r.newKeypairs.tail.drop position) newLeafKeypair r.commitSecret) ∧
        d.diff.Same c.diff.diff ∧ d.groupContext = c.diff.groupContext ∧
        r.ReadBy H d (e.request.committer st.group) j c.values.exclusionList
          (st.keypairs j ++ e.leafNodeKeypairs j) position node) ∧
    ∃ welcome, e.welcome st.group c = .ok welcome ∧
      ∀ x invited, c.values.invitationList[x]? = some invited →
        ∃ secrets position node, welcome[x]? = some secrets ∧
          e.Serves H st.group c r secrets invited (e.welcomeCoins x) position node := by
  obtain ⟨m, hkept⟩ := kept_of_reaches h
  have hwf := hkept.formed.wellFormed
  obtain ⟨n, length, us, added, t, ns, hpath, hshape⟩ := exists_pathCommit hwf hc hr
  refine ⟨fun j hj hne hexcluded => ?_, _, e.welcome_eq hwf hc hr hpath, fun x invited hx => ?_⟩
  · obtain ⟨k, low, high, hmeet⟩ := hpath.exists_meeting hj hne
    obtain ⟨d, node, hstage, hsame, hcontext, -, hread⟩ := stageEncryptedCommit_eq hwf hc hr hpath
      ⟨hkept.held j, fun u hu => e.updated st.group u hu j, hne, hexcluded⟩ hmeet
    exact ⟨d, _, low.length, node, hstage, hsame, hcontext, hread⟩
  · obtain ⟨position, node, hserves⟩ :=
      serves_of_kept hkept hc hpath hshape (mem_of_getElem? hx) (e.welcomeCoins x)
    exact ⟨_, position, node, by rw [getElem?_mapIdx, hx, Option.map_some], hserves⟩

/-- **Everybody has the keys it needs**: the key pair of its leaf, and of every parent above it that
    does not list it as unmerged. -/
theorem members_hold_keys (H : HashSuite D) (K : KemSuite D S P C) (rules : GroupView D)
    {st : KeyedGroup K} (h : (keyedRuns K H rules).Reaches (fun _ _ => True) st) {i : ℕ}
    {l : LeafNode D} (hl : st.group.treesync.leaf i = some l) :
    (∃ keypair ∈ st.keypairs i, keypair.publicKey = l.encryptionKey) ∧
      ∀ k q, st.group.treesync.contents.parent k (i / 2 ^ (k + 1)) = some q →
        i ∉ q.unmergedLeaves → ∃ keypair ∈ st.keypairs i, keypair.publicKey = q.encryptionKey := by
  obtain ⟨n, hkept⟩ := kept_of_reaches h
  rw [← TreeSync.contents_leaf hkept.formed.wellFormed.shaped] at hl
  have hheld := hkept.held i (Option.isSome_iff_exists.mpr ⟨l, hl⟩)
  exact ⟨hheld.leaf l hl, hheld.above⟩

end Theorem

/-! ## A small group -/

/-- The keys of a key package, which are their own private keys. -/
def memberBundle (n : ℕ) : KeyPackageBundle plainKem :=
  ⟨memberPackage n, ⟨300 + n, 300 + n, rfl⟩, ⟨100 + n, 100 + n, rfl⟩, rfl, rfl⟩

/-- Member `own` adds and removes members, and commits the updates of others. -/
def plainCommit (own : ℕ) (adds removes : List ℕ) (updates : List (ℕ × ℕ)) (fresh : ℕ) :
    KeyedCommit plainKem where
  request := .member own (adds.map (fun n => (.add (memberPackage n), .member own)) ++
    removes.map (fun i => (.remove i, .member own)) ++
    updates.map fun u => (.update ⟨u.2, 200 + u.1, "u", .update, []⟩, .member u.1)) false
  params := ⟨0, none, []⟩
  rand := plainRandomness fresh
  joinerSecret := []
  encryptedGroupInfo := []
  welcomeCoins _ := []
  leafNodeKeypairs i := (updates.filter (·.1 = i)).map fun u => ⟨u.2, u.2, rfl⟩
  bundles := adds.map memberBundle
  updated g u hu i hi := by
    obtain ⟨p, hp, hu⟩ := mem_filterMap.mp hu
    simp only [CommitRequest.proposals, mem_append, mem_map] at hp
    rcases hp with (⟨n, -, rfl⟩ | ⟨n, -, rfl⟩) | ⟨v, hv, rfl⟩
    · cases hu
    · cases hu
    · obtain rfl := Option.some.inj hu
      obtain rfl := Sender.member.inj hi
      exact ⟨⟨v.2, v.2, rfl⟩, mem_map.mpr ⟨v, mem_filter.mpr ⟨hv, decide_eq_true rfl⟩, rfl⟩, rfl⟩
  bundled g kp hkp := by
    obtain ⟨p, hp, hkp⟩ := mem_filterMap.mp hkp
    simp only [CommitRequest.proposals, mem_append, mem_map] at hp
    rcases hp with (⟨n, hn, rfl⟩ | ⟨n, -, rfl⟩) | ⟨v, -, rfl⟩
    · exact ⟨memberBundle n, mem_map_of_mem hn, Option.some.inj hkp⟩
    · cases hkp
    · cases hkp

def plainRun (es : List (KeyedCommit plainKem)) : Option (KeyedGroup plainKem) :=
  (found plainHash (memberLeaf 0) []).toOption.bind fun g =>
    (keyedRuns plainKem plainHash lenientRules).run
      ⟨g, fun _ => [⟨100, 100, rfl⟩]⟩ (es.map .commit)

lemma reaches_plainRun {es : List (KeyedCommit plainKem)} {st : KeyedGroup plainKem}
    (h : plainRun es = some st) :
    (keyedRuns plainKem plainHash lenientRules).Reaches (fun _ _ => True) st := by
  obtain ⟨g, hg, hrun⟩ := Option.bind_eq_some_iff.mp h
  exact .of_run (.init ⟨memberLeaf 0, [], _, toOption_eq_some.mp hg, rfl, rfl⟩)
    (Machine.admits_of_forall (fun _ _ => trivial) _ _) hrun

/-- Member 2 stays when member 1 is removed, and has the key of the root. -/
theorem members_hold_keys_root :
    ∃ st, plainRun [plainCommit 0 [1, 2, 3] [] [] 1000, plainCommit 0 [] [1] [] 2000] = some st ∧
      ∃ q ∈ st.group.treesync.contents.parent 1 0,
        ∃ keypair ∈ st.keypairs 2, keypair.publicKey = q.encryptionKey := by
  refine exists_some_imp (P := fun st => (st.group.treesync.leaf 2).isSome ∧
    ∃ q ∈ st.group.treesync.contents.parent 1 0, 2 ∉ q.unmergedLeaves) (by decide +kernel) ?_
  rintro st hst ⟨hfull, q, hq, hnot⟩
  obtain ⟨l, hl⟩ := Option.isSome_iff_exists.mp hfull
  exact ⟨q, hq, (members_hold_keys _ _ _ (reaches_plainRun hst) hl).2 1 q hq hnot⟩

/-- Three members join and the first is removed.  The second adds one, while the third updates. -/
theorem everyone_decrypts_mixed :
    ∃ st c r, plainRun [plainCommit 0 [1, 2, 3] [] [] 1000, plainCommit 0 [] [1] [] 2000] =
        some st ∧
      st.group.createEncrypted plainKem plainHash lenientRules ⟨0, none, []⟩
        (plainRandomness 3000) (plainCommit 2 [4] [] [(3, 5000)] 3000).request = .ok c ∧
      c.path = some r ∧ c.values.invitationList = [(1, memberPackage 4)] ∧
      (∀ j ∈ [0, 3], ∃ d newLeafKeypair position node,
        st.group.stageEncryptedCommit plainHash j 2
            ((plainCommit 2 [4] [] [(3, 5000)] 3000).request.proposals st.group) r (st.keypairs j)
            ((plainCommit 2 [4] [] [(3, 5000)] 3000).leafNodeKeypairs j) =
          .ok (.groupMember d (r.newKeypairs.tail.drop position) newLeafKeypair r.commitSecret) ∧
        r.ReadBy plainHash d 2 j [1]
          (st.keypairs j ++ (plainCommit 2 [4] [] [(3, 5000)] 3000).leafNodeKeypairs j)
          position node) ∧
      ∃ secrets position node, (plainCommit 2 [4] [] [(3, 5000)] 3000).Serves
        plainHash st.group c r secrets (1, memberPackage 4) [] position node := by
  obtain ⟨st, hst, c, hc, r, hr, hinvited, hfull⟩ : ∃ st ∈ plainRun
      [plainCommit 0 [1, 2, 3] [] [] 1000, plainCommit 0 [] [1] [] 2000],
      ∃ c ∈ (st.group.createEncrypted plainKem plainHash lenientRules ⟨0, none, []⟩
        (plainRandomness 3000) (plainCommit 2 [4] [] [(3, 5000)] 3000).request).toOption,
        ∃ r ∈ c.path, c.values.invitationList = [(1, memberPackage 4)] ∧
          ∀ j ∈ [0, 3], (c.diff.diff.diff.leaf j).isSome := by
    decide +kernel
  have hcreate := toOption_eq_some.mp hc
  obtain ⟨hreceivers, welcome, -, hserved⟩ := everyone_decrypts plainHash plainKem
    lenientRules (reaches_plainRun hst) (plainCommit 2 [4] [] [(3, 5000)] 3000) hcreate hr
  have hexcluded : c.values.exclusionList = [1] := by
    rw [ApplyProposalsValues.exclusionList, hinvited]
    rfl
  refine ⟨st, c, r, hst, hcreate, hr, hinvited, fun j hj => ?_, ?_⟩
  · have hother : j ≠ 2 ∧ j ∉ [1] := by
      rcases mem_pair.mp hj with rfl | rfl <;> decide
    obtain ⟨d, new, position, node, hstage, -, -, hread⟩ :=
      hreceivers j (hfull j hj) hother.1 (hexcluded ▸ hother.2)
    exact ⟨d, new, position, node, hstage, hexcluded ▸ hread⟩
  · obtain ⟨secrets, position, node, -, hserves⟩ :=
      hserved 0 (1, memberPackage 4) (by rw [hinvited]; rfl)
    exact ⟨secrets, position, node, hserves⟩

end EmulatedMls
