import EmulatedMls.Secrets.SenderRatchet
import EmulatedMls.Tree.TreeMath

/-!
# The secret tree

The secret of an epoch is the root of a tree whose leaves give every member a pair of sender
ratchets.  Secrets are derived downwards when a leaf is first used, and a secret is deleted once
those below it are derived.

**Source.**  `tree/secret_tree.rs`.

**Errors.**  A helper that can fail returns the changed tree or an error.  On the trees that the
calls lead to, `initialize_sender_ratchets` does not fail for a leaf of the tree
(`initializeSenderRatchets_spec`), so no change is lost with an error.
-/

namespace EmulatedMls

open List

inductive ContentType where
  | application
  | commit
  | proposal
  deriving DecidableEq, Repr

inductive SecretType where
  | handshakeSecret
  | applicationSecret
  deriving DecidableEq, Repr

/-- `SecretType::from(&ContentType)`. -/
def SecretType.ofContentType : ContentType → SecretType
  | .application => .applicationSecret
  | .commit => .handshakeSecret
  | .proposal => .handshakeSecret

inductive SenderRatchet (S K N : Type) where
  | encryptionRatchet (r : RatchetSecret S)
  | decryptionRatchet (d : DecryptionRatchet S K N)

structure SecretTree (S K N : Type) where
  ownIndex : ℕ
  leafNodes : List (Option S)
  parentNodes : List (Option S)
  handshakeSenderRatchets : List (Option (SenderRatchet S K N))
  applicationSenderRatchets : List (Option (SenderRatchet S K N))
  size : TreeSize

namespace SecretTree

variable {S K N : Type}

variable (kdf : Kdf S K N) (t : SecretTree S K N)

def getNode : TreeNodeIndex → Except SecretTreeError (Option S)
  | .leaf i => (t.leafNodes[i]?).elim (.error .indexOutOfBounds) .ok
  | .parent j => (t.parentNodes[j]?).elim (.error .indexOutOfBounds) .ok

def setNode (x : TreeNodeIndex) (node : Option S) : Except SecretTreeError (SecretTree S K N) :=
  match x with
  | .leaf i =>
    if i < t.leafNodes.length then .ok { t with leafNodes := t.leafNodes.set i node }
    else .error .indexOutOfBounds
  | .parent j =>
    if j < t.parentNodes.length then .ok { t with parentNodes := t.parentNodes.set j node }
    else .error .indexOutOfBounds

/-- `SecretTree::new`.  The result of setting the root is ignored. -/
def new (encryptionSecret : S) (size : TreeSize) (ownIndex : ℕ) : SecretTree S K N :=
  let t : SecretTree S K N :=
    { ownIndex := ownIndex
      leafNodes := List.replicate size.leafCount none
      parentNodes := List.replicate size.leafCount none
      handshakeSenderRatchets := List.replicate size.leafCount none
      applicationSenderRatchets := List.replicate size.leafCount none
      size := size }
  match t.setNode (root size) (some encryptionSecret) with
  | .ok t => t
  | .error _ => t

def ratchets : SecretType → List (Option (SenderRatchet S K N))
  | .handshakeSecret => t.handshakeSenderRatchets
  | .applicationSecret => t.applicationSenderRatchets

/-- A write through `ratchet_mut`. -/
def setRatchet (i : ℕ) (ty : SecretType) (r : SenderRatchet S K N) : SecretTree S K N :=
  match ty with
  | .handshakeSecret =>
    { t with handshakeSenderRatchets := t.handshakeSenderRatchets.set i (some r) }
  | .applicationSecret =>
    { t with applicationSenderRatchets := t.applicationSenderRatchets.set i (some r) }

def ratchetOpt (i : ℕ) (ty : SecretType) : Except SecretTreeError (Option (SenderRatchet S K N)) :=
  ((t.ratchets ty)[i]?).elim (.error .indexOutOfBounds) .ok

/-- A read through `ratchet_mut`. -/
def ratchetMut (i : ℕ) (ty : SecretType) : Except SecretTreeError (SenderRatchet S K N) :=
  ((t.ratchets ty)[i]?).join.elim (.error .indexOutOfBounds) .ok

/-- The secrets of the two children. -/
def leftSecret (secret : S) : S :=
  kdf.expandLabel secret "tree" "left".toUTF8.data.toList kdf.hashLength

@[inherit_doc leftSecret]
def rightSecret (secret : S) : S :=
  kdf.expandLabel secret "tree" "right".toUTF8.data.toList kdf.hashLength

def deriveDown (j : ℕ) : Except SecretTreeError (SecretTree S K N) := do
  match ← t.getNode (.parent j) with
  | none => .error .libraryError
  | some secret =>
    let t ← t.setNode (left j) (some (leftSecret kdf secret))
    let t ← t.setNode (right j) (some (rightSecret kdf secret))
    t.setNode (.parent j) none

/-- The empty nodes of a path up to the first one that is not empty, which is included. -/
def emptyNodes (t : SecretTree S K N) : List ℕ → Except SecretTreeError (List ℕ)
  | [] => .ok []
  | j :: path => do
    match ← t.getNode (.parent j) with
    | some _ => pure [j]
    | none =>
      let rest ← emptyNodes t path
      pure (j :: rest)

/-- Derive the secrets down to a leaf.  The path of a leaf of the tree always ends. -/
def derivePath (index : ℕ) : Except SecretTreeError (SecretTree S K N) :=
  match directPath index t.size with
  | .error _ => .error .libraryError
  | .ok path => do
    let nodes ← t.emptyNodes path
    nodes.reverse.foldlM (deriveDown kdf) t

/-- Derive the secret of a leaf if it is not there. -/
def deriveLeaf (index : ℕ) : Except SecretTreeError (SecretTree S K N) := do
  match ← t.getNode (.leaf index) with
  | some _ => pure t
  | none => t.derivePath kdf index

/-- The first secret of a ratchet. -/
def ratchetSecret (nodeSecret : S) : SecretType → S
  | .handshakeSecret => kdf.expandLabel nodeSecret "handshake" [] kdf.hashLength
  | .applicationSecret => kdf.expandLabel nodeSecret "application" [] kdf.hashLength

/-- A new ratchet: for encryption at the own leaf, for decryption at the others. -/
def newRatchet (index : ℕ) (secret : S) : SenderRatchet S K N :=
  if index = t.ownIndex then .encryptionRatchet (.initialRatchetSecret secret)
  else .decryptionRatchet (.new secret)

/-- Replace the secret of a leaf by its two ratchets. -/
def installRatchets (index : ℕ) : Except SecretTreeError (SecretTree S K N) := do
  match ← t.getNode (.leaf index) with
  | none => .error .libraryError
  | some nodeSecret =>
    if t.handshakeSenderRatchets.length ≤ index then .error .indexOutOfBounds
    else if t.applicationSenderRatchets.length ≤ index then .error .indexOutOfBounds
    else
      let handshake := t.newRatchet index (ratchetSecret kdf nodeSecret .handshakeSecret)
      let application := t.newRatchet index (ratchetSecret kdf nodeSecret .applicationSecret)
      let t := t.setRatchet index .handshakeSecret handshake
      let t := t.setRatchet index .applicationSecret application
      t.setNode (.leaf index) none

def initializeSenderRatchets (index : ℕ) : Except SecretTreeError (SecretTree S K N) :=
  if t.size.leafCount ≤ index then .error .indexOutOfBounds
  else do
    let handshake ← t.ratchetOpt index .handshakeSecret
    let application ← t.ratchetOpt index .applicationSecret
    if handshake.isSome ∧ application.isSome then pure t
    else
      let t ← t.deriveLeaf kdf index
      t.installRatchets kdf index

/-- Initialize the ratchets of a leaf when they are missing. -/
def ensureRatchet (index : ℕ) (ty : SecretType) : Except SecretTreeError (SecretTree S K N) := do
  match ← t.ratchetOpt index ty with
  | some _ => pure t
  | none => t.initializeSenderRatchets kdf index

def secretForDecryption (kdf : Kdf S K N) (cfg : SenderRatchetConfiguration)
    (t : SecretTree S K N) (index : ℕ) (ty : SecretType) (generation : ℕ) :
    Except SecretTreeError (K × N) × SecretTree S K N :=
  if t.size.leafCount ≤ index then (.error .indexOutOfBounds, t)
  else match t.ensureRatchet kdf index ty with
    | .error e => (.error e, t)
    | .ok t =>
      match t.ratchetMut index ty with
      | .error e => (.error e, t)
      | .ok (.encryptionRatchet _) => (.error .ratchetTypeError, t)
      | .ok (.decryptionRatchet d) =>
        let (result, d) := d.secretForDecryption kdf generation cfg
        (result, t.setRatchet index ty (.decryptionRatchet d))

def secretForEncryption (index : ℕ) (ty : SecretType) :
    Except SecretTreeError (ℕ × (K × N)) × SecretTree S K N :=
  match t.ensureRatchet kdf index ty with
  | .error e => (.error e, t)
  | .ok t =>
    match t.ratchetMut index ty with
    | .error e => (.error e, t)
    | .ok (.decryptionRatchet _) => (.error .ratchetTypeError, t)
    | .ok (.encryptionRatchet r) =>
      match r.ratchetForward kdf with
      | .error e => (.error e, t)
      | .ok (result, r) => (.ok result, t.setRatchet index ty (.encryptionRatchet r))

/-! ## Reading and writing secrets -/

/-- The secret at position `p` of level `k`. -/
def node (t : SecretTree S K N) : ℕ → ℕ → Option S
  | 0, p => (t.leafNodes[p]?).join
  | k + 1, p => (t.parentNodes[inorder k p]?).join

/-- The vectors of a tree of depth `n`. -/
structure Sized (t : SecretTree S K N) (n : ℕ) : Prop where
  size : t.size = .ofDepth n
  leaves : t.leafNodes.length = 2 ^ n
  parents : t.parentNodes.length = 2 ^ n
  ratchets : ∀ ty, (t.ratchets ty).length = 2 ^ n

variable {kdf : Kdf S K N} {t t' : SecretTree S K N} {n k p i : ℕ}

lemma inorder_lt_of_inTree (h : InTree n (k + 1) p) : inorder k p < 2 ^ n := by
  have hlt := InTree.lt_iff.mpr h
  rw [inorder_succ, pow_succ] at hlt
  omega

lemma Sized.getNode_at (h : t.Sized n) (hin : InTree n k p) :
    t.getNode (nodeAt k p) = .ok (t.node k p) := by
  cases k with
  | zero =>
    have hlt : p < t.leafNodes.length := by
      rw [h.leaves]
      exact hin.2
    simp [getNode, node, getElem?_eq_getElem hlt]
  | succ k =>
    have hlt : inorder k p < t.parentNodes.length := by
      rw [h.parents]
      exact inorder_lt_of_inTree hin
    simp [getNode, node, getElem?_eq_getElem hlt]

/-- Everything but the secrets is kept. -/
structure Frame (t t' : SecretTree S K N) : Prop where
  own : t'.ownIndex = t.ownIndex
  ratchets : ∀ ty, t'.ratchets ty = t.ratchets ty

lemma Frame.refl (t : SecretTree S K N) : Frame t t := ⟨rfl, fun _ => rfl⟩

variable {t'' : SecretTree S K N}

lemma Frame.trans (h : Frame t t') (h' : Frame t' t'') : Frame t t'' :=
  ⟨h'.own.trans h.own, fun ty => (h'.ratchets ty).trans (h.ratchets ty)⟩

lemma Sized.setNode_at (h : t.Sized n) (hin : InTree n k p) (x : Option S) :
    ∃ t', t.setNode (nodeAt k p) x = .ok t' ∧ t'.Sized n ∧ Frame t t' ∧
      ∀ k' p', t'.node k' p' = if k' = k ∧ p' = p then x else t.node k' p' := by
  cases k with
  | zero =>
    have hlt : p < t.leafNodes.length := by
      rw [h.leaves]
      exact hin.2
    refine ⟨_, if_pos hlt, ⟨h.size, by simpa using h.leaves, h.parents, h.ratchets⟩,
      ⟨rfl, fun ty => by cases ty <;> rfl⟩, fun k' p' => ?_⟩
    cases k' with
    | zero =>
      simp only [node, getElem?_set]
      by_cases hp : p = p'
      · subst hp
        simp [hlt]
      · simp [hp, Ne.symm hp]
    | succ k' => simp [node]
  | succ k =>
    have hlt : inorder k p < t.parentNodes.length := by
      rw [h.parents]
      exact inorder_lt_of_inTree hin
    refine ⟨_, if_pos hlt, ⟨h.size, h.leaves, by simpa using h.parents, h.ratchets⟩,
      ⟨rfl, fun ty => by cases ty <;> rfl⟩, fun k' p' => ?_⟩
    cases k' with
    | zero => simp [node]
    | succ k' =>
      simp only [node, getElem?_set]
      by_cases hx : inorder k p = inorder k' p'
      · obtain ⟨rfl, rfl⟩ := inorder_inj hx
        simp [hlt]
      · have hne : ¬ (k' + 1 = k + 1 ∧ p' = p) := by
          rintro ⟨hk, rfl⟩
          obtain rfl : k' = k := by omega
          exact hx rfl
        rw [if_neg hx, if_neg hne]

/-! ## Deriving secrets -/

/-- The secret of the node at position `p`, `j` levels below the root. -/
def secretAt (kdf : Kdf S K N) (encryptionSecret : S) : ℕ → ℕ → S
  | 0, _ => encryptionSecret
  | j + 1, p =>
    if p % 2 = 0 then leftSecret kdf (secretAt kdf encryptionSecret j (p / 2))
    else rightSecret kdf (secretAt kdf encryptionSecret j (p / 2))

variable {secret : S}

/-- Every secret in the tree is the one that the root gives. -/
def Derived (kdf : Kdf S K N) (secret : S) (n : ℕ) (t : SecretTree S K N) : Prop :=
  ∀ k p x, k ≤ n → t.node k p = some x → x = secretAt kdf secret (n - k) p

def Covered (t : SecretTree S K N) (n i : ℕ) : Prop := ∃ k ≤ n, (t.node k (i / 2 ^ k)).isSome

/-- At most one node above the leaf has its secret. -/
def Sole (t : SecretTree S K N) (n i : ℕ) : Prop :=
  ∀ k k', k ≤ n → k' ≤ n → (t.node k (i / 2 ^ k)).isSome → (t.node k' (i / 2 ^ k')).isSome → k = k'

/-- Secrets were derived downwards, which covers the same leaves, by one secret each if it was so
    before. -/
structure Deepened (kdf : Kdf S K N) (secret : S) (n : ℕ) (t t' : SecretTree S K N) : Prop where
  sized : t'.Sized n
  frame : Frame t t'
  derived : Derived kdf secret n t'
  covered : ∀ i, Covered t' n i ↔ Covered t n i
  sole : ∀ i, Sole t n i → Sole t' n i

lemma Deepened.refl (h : t.Sized n) (hder : Derived kdf secret n t) : Deepened kdf secret n t t :=
  ⟨h, .refl t, hder, fun _ => Iff.rfl, fun _ => id⟩

lemma Deepened.trans (h : Deepened kdf secret n t t') (h' : Deepened kdf secret n t' t'') :
    Deepened kdf secret n t t'' :=
  ⟨h'.sized, h.frame.trans h'.frame, h'.derived, fun i => (h'.covered i).trans (h.covered i),
    fun i hi => h'.sole i (h.sole i hi)⟩

lemma eq_child {q : ℕ} (h : q / 2 = p) : q = 2 * p ∨ q = 2 * p + 1 := by omega

/-- **Deriving the children of a node.** -/
lemma deriveDown_spec (h : t.Sized n) (hder : Derived kdf secret n t) (hin : InTree n (k + 1) p)
    (hsome : (t.node (k + 1) p).isSome) :
    ∃ t', deriveDown kdf t (inorder k p) = .ok t' ∧ Deepened kdf secret n t t' ∧
      ∀ q, q / 2 = p → (t'.node k q).isSome := by
  obtain ⟨x, hx⟩ := Option.isSome_iff_exists.mp hsome
  obtain ⟨hl, hr⟩ := hin.children
  have hk : k + 1 ≤ n := hin.1
  obtain ⟨t1, ht1, hs1, hf1, hn1⟩ := h.setNode_at hl (some (leftSecret kdf x))
  obtain ⟨t2, ht2, hs2, hf2, hn2⟩ := hs1.setNode_at hr (some (rightSecret kdf x))
  obtain ⟨t3, ht3, hs3, hf3, hn3⟩ := hs2.setNode_at hin none
  have hget := h.getNode_at hin
  rw [nodeAt_succ, hx] at hget
  rw [nodeAt_succ] at ht3
  have hnode : ∀ k' p', t3.node k' p' = if k' = k + 1 ∧ p' = p then none
      else if k' = k ∧ p' = 2 * p + 1 then some (rightSecret kdf x)
      else if k' = k ∧ p' = 2 * p then some (leftSecret kdf x) else t.node k' p' := by
    intro k' p'
    rw [hn3, hn2, hn1]
  have hchild : ∀ q, q / 2 = p → (t3.node k q).isSome := by
    intro q hq
    rw [hnode, if_neg (by omega)]
    rcases eq_child hq with rfl | rfl <;> simp
  -- above a leaf, the secret of the node is replaced by that of its child
  have hback : ∀ i k', (t3.node k' (i / 2 ^ k')).isSome ↔
      (k' = k ∧ i / 2 ^ (k + 1) = p) ∨
        ¬ (k' = k + 1 ∧ i / 2 ^ (k + 1) = p) ∧ (t.node k' (i / 2 ^ k')).isSome := by
    intro i k'
    have hhalf := div_two_pow_succ i k
    rw [hnode]
    by_cases hsame : k' = k
    · subst hsame
      rw [if_neg (by omega)]
      by_cases hp : i / 2 ^ k' / 2 = p
      · rcases eq_child hp with hq | hq <;> simp [hq, hhalf]
        omega
      · rw [if_neg (by omega), if_neg (by omega), hhalf]
        simp [hp]
    · by_cases hup : k' = k + 1
      · subst hup
        by_cases hp : i / 2 ^ (k + 1) = p <;> simp [hp]
      · simp [hsame, hup]
  refine ⟨t3, ?_, ⟨hs3, (hf1.trans hf2).trans hf3, ?_, fun i => ?_, fun i hsole => ?_⟩, hchild⟩
  · simp only [deriveDown, hget, bind, Except.bind, left_inorder, right_inorder, ht1, ht2, ht3]
  · intro k' p' y hk' hy
    have hx' := hder (k + 1) p x hk hx
    rw [hnode] at hy
    split_ifs at hy with h1 h2 h3
    · obtain ⟨rfl, rfl⟩ := h2
      rw [show n - k' = n - (k' + 1) + 1 by omega, secretAt, if_neg (by omega),
        show (2 * p + 1) / 2 = p by omega, ← hx']
      exact (Option.some.inj hy).symm
    · obtain ⟨rfl, rfl⟩ := h3
      rw [show n - k' = n - (k' + 1) + 1 by omega, secretAt, if_pos (by omega),
        show 2 * p / 2 = p by omega, ← hx']
      exact (Option.some.inj hy).symm
    · exact hder k' p' y hk' hy
  · constructor
    · rintro ⟨k', hk', hs⟩
      rcases (hback i k').mp hs with ⟨rfl, hp⟩ | ⟨-, hs⟩
      · exact ⟨k' + 1, hk, by rwa [hp]⟩
      · exact ⟨k', hk', hs⟩
    · rintro ⟨k', hk', hs⟩
      by_cases hhit : k' = k + 1 ∧ i / 2 ^ (k + 1) = p
      · exact ⟨k, by omega, (hback i k).mpr (.inl ⟨rfl, hhit.2⟩)⟩
      · exact ⟨k', hk', (hback i k').mpr (.inr ⟨hhit, hs⟩)⟩
  · have hparent (k' : ℕ) (hk' : k' ≤ n) (hp : i / 2 ^ (k + 1) = p)
        (hs : (t.node k' (i / 2 ^ k')).isSome) : k' = k + 1 :=
      hsole k' (k + 1) hk' hk hs (by rwa [hp])
    intro k1 k2 hk1 hk2 hs1 hs2
    rcases (hback i k1).mp hs1 with ⟨rfl, hp⟩ | ⟨hne1, hs1⟩
    · rcases (hback i k2).mp hs2 with ⟨rfl, -⟩ | ⟨hne2, hs2⟩
      · rfl
      · exact absurd ⟨hparent k2 hk2 hp hs2, hp⟩ hne2
    · rcases (hback i k2).mp hs2 with ⟨rfl, hp⟩ | ⟨-, hs2⟩
      · exact absurd ⟨hparent k1 hk1 hp hs1, hp⟩ hne1
      · exact hsole k1 k2 hk1 hk2 hs1 hs2

lemma deriveAll_spec {m : ℕ} (hm : m ≤ n) (hi : i < 2 ^ n) (h : t.Sized n)
    (hder : Derived kdf secret n t) (hsome : (t.node m (i / 2 ^ m)).isSome) :
    ∃ t', ((List.range m).map fun k => inorder k (i / 2 ^ (k + 1))).reverse.foldlM
        (deriveDown kdf) t = .ok t' ∧ Deepened kdf secret n t t' ∧ (t'.node 0 i).isSome := by
  induction m generalizing t with
  | zero => exact ⟨t, rfl, .refl h hder, by simpa using hsome⟩
  | succ m ih =>
    obtain ⟨t1, ht1, hdeep, hchild⟩ := deriveDown_spec h hder ⟨hm, div_two_pow_lt hi hm⟩ hsome
    obtain ⟨t', ht', hdeep', hleaf⟩ := ih (by omega) hdeep.sized hdeep.derived
      (hchild _ (div_two_pow_succ i m).symm)
    refine ⟨t', ?_, hdeep.trans hdeep', hleaf⟩
    rw [range_succ, map_append, reverse_append]
    simp only [map_cons, map_nil, reverse_cons, reverse_nil, nil_append,
      singleton_append, foldlM_cons, ht1, bind, Except.bind]
    exact ht'

variable {x : S}

lemma emptyNodes_append {as bs : List ℕ} {j : ℕ} (has : ∀ a ∈ as, t.getNode (.parent a) = .ok none)
    (hj : t.getNode (.parent j) = .ok (some x)) :
    t.emptyNodes (as ++ j :: bs) = .ok (as ++ [j]) := by
  induction as with
  | nil => simp [emptyNodes, hj, bind, Except.bind, pure, Except.pure]
  | cons a as ih =>
    have hrest := ih fun b hb => has b (.tail _ hb)
    simp only [cons_append, emptyNodes, has a mem_cons_self, hrest, bind, Except.bind]
    rfl

section

variable (hi : i < 2 ^ n) (h : t.Sized n) (hder : Derived kdf secret n t) (hcov : Covered t n i)
include hi h hder hcov

lemma derivePath_spec (hempty : t.node 0 i = none) :
    ∃ t', derivePath kdf t i = .ok t' ∧ Deepened kdf secret n t t' ∧ (t'.node 0 i).isSome := by
  classical
  -- the lowest node above the leaf that still has its secret
  obtain ⟨hm, hsome⟩ := Nat.find_spec hcov
  set m := Nat.find hcov with hmdef
  have hbelow : ∀ k < m, t.node k (i / 2 ^ k) = none := by
    intro k hk
    by_contra hne
    exact Nat.find_min hcov hk ⟨by omega, Option.isSome_iff_ne_none.mpr hne⟩
  obtain ⟨l, hl⟩ : ∃ l, m = l + 1 := by
    cases hzero : m with
    | zero =>
      rw [hzero] at hsome
      simp [hempty] at hsome
    | succ l => exact ⟨l, rfl⟩
  obtain ⟨t', ht', hspec⟩ := deriveAll_spec hm hi h hder hsome
  refine ⟨t', ?_, hspec⟩
  have hpath : pathNodes n i = ((List.range l).map fun k => inorder k (i / 2 ^ (k + 1))) ++
      inorder l (i / 2 ^ (l + 1)) ::
        ((List.range (n - m)).map fun k => inorder (m + k) (i / 2 ^ (m + k + 1))) := by
    rw [pathNodes, show n = m + (n - m) by omega, range_add, map_append, map_map]
    simp only [hl, range_succ, map_append, append_assoc, map_cons,
      map_nil, singleton_append, Function.comp_def]
    rw [show l + 1 + (n - (l + 1)) - (l + 1) = n - (l + 1) by omega]
  have hnodes : t.emptyNodes (pathNodes n i) =
      .ok ((List.range m).map fun k => inorder k (i / 2 ^ (k + 1))) := by
    obtain ⟨x, hx⟩ := Option.isSome_iff_exists.mp hsome
    have htop := h.getNode_at (k := m) (p := i / 2 ^ m) ⟨hm, div_two_pow_lt hi hm⟩
    rw [hx] at htop
    simp only [hl, nodeAt_succ] at htop
    rw [hpath, emptyNodes_append ?_ htop, hl, range_succ, map_append]
    · rfl
    · intro a ha
      obtain ⟨k, hk, rfl⟩ := mem_map.mp ha
      have hkl := mem_range.mp hk
      have hget := h.getNode_at (k := k + 1) (p := i / 2 ^ (k + 1))
        ⟨by omega, div_two_pow_lt hi (by omega)⟩
      rwa [hbelow (k + 1) (by omega), nodeAt_succ] at hget
  rw [derivePath, h.size, directPath_ofDepth hi]
  simp only [hnodes, bind, Except.bind]
  exact ht'

/-- **A covered leaf gets the secret that the root gives it.** -/
lemma deriveLeaf_spec :
    ∃ t', deriveLeaf kdf t i = .ok t' ∧ Deepened kdf secret n t t' ∧
      t'.node 0 i = some (secretAt kdf secret n i) := by
  have hget := h.getNode_at (InTree.leaf hi)
  rw [nodeAt_zero] at hget
  cases hnode : t.node 0 i with
  | some x =>
    refine ⟨t, ?_, .refl h hder, ?_⟩
    · simp only [deriveLeaf, hget, hnode, bind, Except.bind]
      rfl
    · rw [hder 0 i x (Nat.zero_le n) hnode] at hnode
      exact hnode
  | none =>
    obtain ⟨t', ht', hdeep, hsome⟩ := derivePath_spec hi h hder hcov hnode
    obtain ⟨x, hx⟩ := Option.isSome_iff_exists.mp hsome
    refine ⟨t', ?_, hdeep, ?_⟩
    · simp only [deriveLeaf, hget, hnode, bind, Except.bind]
      exact ht'
    · rw [hx, hdeep.derived 0 i x (Nat.zero_le n) hx]
      rfl

end

/-! ## Ratchets -/

def ratchet (t : SecretTree S K N) (ty : SecretType) (i : ℕ) : Option (SenderRatchet S K N) :=
  ((t.ratchets ty)[i]?).join

variable {ty : SecretType}

lemma Sized.ratchetOpt_eq (h : t.Sized n) (hi : i < 2 ^ n) (ty : SecretType) :
    t.ratchetOpt i ty = .ok (t.ratchet ty i) := by
  have hlt : i < (t.ratchets ty).length := by
    rw [h.ratchets]
    exact hi
  simp [ratchetOpt, ratchet, getElem?_eq_getElem hlt]

lemma ratchetMut_eq {r : SenderRatchet S K N} (h : t.ratchet ty i = some r) :
    t.ratchetMut i ty = .ok r := by
  simp only [ratchet] at h
  simp [ratchetMut, h]

lemma Sized.ratchetOpt_error (h : t.Sized n) (hi : 2 ^ n ≤ i) (ty : SecretType) :
    t.ratchetOpt i ty = .error .indexOutOfBounds := by
  have hge : (t.ratchets ty).length ≤ i := by
    rw [h.ratchets]
    exact hi
  simp [ratchetOpt, getElem?_eq_none hge]

lemma ratchets_setRatchet (t : SecretTree S K N) (i : ℕ) (ty ty' : SecretType)
    (r : SenderRatchet S K N) : (t.setRatchet i ty r).ratchets ty' =
      if ty' = ty then (t.ratchets ty).set i (some r) else t.ratchets ty' := by
  cases ty <;> cases ty' <;> rfl

lemma Sized.setRatchet_spec (h : t.Sized n) (hi : i < 2 ^ n) (ty : SecretType)
    (r : SenderRatchet S K N) :
    (t.setRatchet i ty r).Sized n ∧ (t.setRatchet i ty r).ownIndex = t.ownIndex ∧
      (t.setRatchet i ty r).node = t.node ∧
      ∀ ty' j, (t.setRatchet i ty r).ratchet ty' j =
        if ty' = ty ∧ j = i then some r else t.ratchet ty' j := by
  refine ⟨⟨?_, ?_, ?_, ?_⟩, ?_, ?_, ?_⟩
  · cases ty <;> exact h.size
  · cases ty <;> exact h.leaves
  · cases ty <;> exact h.parents
  · intro ty'
    rw [ratchets_setRatchet]
    split_ifs
    · rw [length_set, h.ratchets]
    · exact h.ratchets ty'
  · cases ty <;> rfl
  · cases ty <;> funext k p <;> cases k <;> rfl
  · intro ty' j
    rw [ratchet, ratchets_setRatchet]
    by_cases hty : ty' = ty
    · subst hty
      rw [if_pos rfl, getElem?_set, h.ratchets]
      by_cases hj : i = j
      · subst hj
        simp [hi]
      · simp [hj, Ne.symm hj, ratchet]
    · simp [hty, ratchet]

lemma installRatchets_spec (hi : i < 2 ^ n) (h : t.Sized n) (hx : t.node 0 i = some x) :
    ∃ t', installRatchets kdf t i = .ok t' ∧ t'.Sized n ∧ t'.ownIndex = t.ownIndex ∧
      (∀ k p, t'.node k p = if k = 0 ∧ p = i then none else t.node k p) ∧
      (∀ ty, t'.ratchet ty i = some (t.newRatchet i (ratchetSecret kdf x ty))) ∧
      ∀ ty j, j ≠ i → t'.ratchet ty j = t.ratchet ty j := by
  have hget := h.getNode_at (InTree.leaf hi)
  rw [hx, nodeAt_zero] at hget
  have hlenh := h.ratchets .handshakeSecret
  have hlena := h.ratchets .applicationSecret
  simp only [ratchets] at hlenh hlena
  set rh := t.newRatchet i (ratchetSecret kdf x .handshakeSecret) with hrh
  set ra := t.newRatchet i (ratchetSecret kdf x .applicationSecret) with hra
  obtain ⟨hs1, ho1, hn1, hr1⟩ := h.setRatchet_spec hi .handshakeSecret rh
  obtain ⟨hs2, ho2, hn2, hr2⟩ := hs1.setRatchet_spec hi .applicationSecret ra
  obtain ⟨t', ht', hs', hf', hn'⟩ := hs2.setNode_at (InTree.leaf hi) none
  have hkeep : ∀ ty j, t'.ratchet ty j =
      ((t.setRatchet i .handshakeSecret rh).setRatchet i .applicationSecret ra).ratchet ty j :=
    fun ty j => by simp only [ratchet, hf'.ratchets]
  refine ⟨t', ?_, hs', ?_, ?_, ?_, ?_⟩
  · simp only [installRatchets, hget, bind, Except.bind, hlenh, hlena, if_neg (Nat.not_le_of_lt hi)]
    exact ht'
  · rw [hf'.own, ho2, ho1]
  · intro k p
    rw [hn', hn2, hn1]
  · intro ty
    rw [hkeep, hr2, hr1]
    cases ty <;> simp [hrh, hra]
  · intro ty j hj
    rw [hkeep, hr2, hr1, if_neg (by simp [hj]), if_neg (by simp [hj])]

/-- **The first use of a leaf** starts its ratchets with the secret that the root gives it. -/
theorem initializeSenderRatchets_spec (hi : i < 2 ^ n) (h : t.Sized n)
    (hder : Derived kdf secret n t) (hcov : Covered t n i) (hnone : t.ratchet ty i = none) :
    ∃ t', initializeSenderRatchets kdf t i = .ok t' ∧ t'.Sized n ∧ t'.ownIndex = t.ownIndex ∧
      Derived kdf secret n t' ∧
      (∀ ty', t'.ratchet ty' i =
        some (t.newRatchet i (ratchetSecret kdf (secretAt kdf secret n i) ty'))) ∧
      (∀ ty' j, j ≠ i → t'.ratchet ty' j = t.ratchet ty' j) ∧
      (∀ j, j ≠ i → (Covered t' n j ↔ Covered t n j) ∧ (Sole t n j → Sole t' n j)) ∧
      (Sole t n i → ¬ Covered t' n i) := by
  have hmissing : ¬ ((t.ratchet .handshakeSecret i).isSome ∧
      (t.ratchet .applicationSecret i).isSome) := by
    rintro ⟨hh, ha⟩
    cases ty
    · simp [hnone] at hh
    · simp [hnone] at ha
  obtain ⟨t1, ht1, hdeep, hx⟩ := deriveLeaf_spec hi h hder hcov
  obtain ⟨t', ht', hs', ho', hn', hr', hkeep⟩ := installRatchets_spec hi hdeep.sized hx
  have hsize : ¬ t.size.leafCount ≤ i := by
    rw [h.size, TreeSize.leafCount_ofDepth]
    omega
  have hnew : ∀ y, t1.newRatchet i y = t.newRatchet i y := fun y => by
    simp only [newRatchet, hdeep.frame.own]
  have hother : ∀ j, j ≠ i → ∀ k, t'.node k (j / 2 ^ k) = t1.node k (j / 2 ^ k) := by
    intro j hj k
    rw [hn', if_neg]
    rintro ⟨rfl, hp⟩
    exact hj (by simpa using hp)
  refine ⟨t', ?_, hs', ho'.trans hdeep.frame.own, ?_, fun ty' => (hr' ty').trans (by rw [hnew]), ?_,
    fun j hj => ?_, ?_⟩
  · rw [initializeSenderRatchets, if_neg hsize]
    simp only [h.ratchetOpt_eq hi, bind, Except.bind, if_neg hmissing, ht1]
    exact ht'
  · intro k p y hk hy
    rw [hn'] at hy
    split_ifs at hy
    exact hdeep.derived k p y hk hy
  · intro ty' j hj
    rw [hkeep ty' j hj]
    simp only [ratchet, hdeep.frame.ratchets]
  · simp only [Covered, Sole, hother j hj]
    exact ⟨hdeep.covered j, hdeep.sole j⟩
  · rintro hsole ⟨k, hk, hsome⟩
    rw [hn'] at hsome
    split_ifs at hsome with hleaf
    · cases hsome
    · obtain rfl := hdeep.sole i hsole k 0 hk (Nat.zero_le n) hsome (by simp [hx])
      exact hleaf ⟨rfl, by simp⟩

end SecretTree

end EmulatedMls
