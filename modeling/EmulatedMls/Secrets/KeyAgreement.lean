import EmulatedMls.Secrets.SecretTree
import Mathlib.Data.List.Induction

/-!
# Sender and receivers derive the same message keys

A sender and a receiver of one epoch start from the same secret and use their trees independently:
the sender takes its keys in order, the receiver asks for generations in any order, and both use
other leaves in between.
-/

namespace EmulatedMls.SecretTree

open List TreeSize

variable {S K N : Type}

inductive Call where
  | encrypt (index : ℕ) (ty : SecretType)
  | decrypt (index : ℕ) (ty : SecretType) (generation : ℕ)
  deriving DecidableEq, Repr

/-- The key material that was handed out, and the generations that were answered. -/
structure Ledger (K N : Type) where
  sent : SecretType → List (ℕ × (K × N))
  answered : ℕ → SecretType → List ℕ

def Ledger.empty : Ledger K N := ⟨fun _ => [], fun _ _ => []⟩

def Ledger.send (L : Ledger K N) (ty : SecretType) (out : ℕ × (K × N)) : Ledger K N :=
  { L with sent := fun ty' => if ty' = ty then L.sent ty ++ [out] else L.sent ty' }

def Ledger.answer (L : Ledger K N) (i : ℕ) (ty : SecretType) (g : ℕ) : Ledger K N :=
  { L with answered := fun i' ty' =>
      if i' = i ∧ ty' = ty then g :: L.answered i ty else L.answered i' ty' }

/-- One call, and its entry in the ledger if it succeeds. -/
def call (kdf : Kdf S K N) (cfg : SenderRatchetConfiguration) :
    SecretTree S K N × Ledger K N → Call → SecretTree S K N × Ledger K N
  | (t, L), .encrypt i ty =>
    match t.secretForEncryption kdf i ty with
    | (.ok out, t) => (t, L.send ty out)
    | (.error _, t) => (t, L)
  | (t, L), .decrypt i ty g =>
    match t.secretForDecryption kdf cfg i ty g with
    | (.ok _, t) => (t, L.answer i ty g)
    | (.error _, t) => (t, L)

/-- The calls of a member of the epoch, from the start. -/
def run (kdf : Kdf S K N) (cfg : SenderRatchetConfiguration) (secret : S) (n own : ℕ)
    (calls : List Call) : SecretTree S K N × Ledger K N :=
  calls.foldl (call kdf cfg) (.new secret (.ofDepth n) own, .empty)

/-- Generations stay below `u32::MAX`. -/
def Call.Bounded : Call → Prop
  | .encrypt _ _ => True
  | .decrypt _ _ g => g < u32Max

variable {kdf : Kdf S K N} {cfg : SenderRatchetConfiguration} {secret : S} {n own i g : ℕ}
  {ty : SecretType} {t t' : SecretTree S K N} {L : Ledger K N}

/-- The first secret of the ratchet of a leaf. -/
def base (kdf : Kdf S K N) (secret : S) (n i : ℕ) (ty : SecretType) : S :=
  ratchetSecret kdf (secretAt kdf secret n i) ty

/-! ## The agreement -/

/-- The leaf has not been used. -/
structure Unused (t : SecretTree S K N) (L : Ledger K N) (n own i : ℕ) : Prop where
  covered : Covered t n i
  missing : ∀ ty, t.ratchet ty i = none
  sent : i = own → ∀ ty, L.sent ty = []
  answered : ∀ ty, L.answered i ty = []

/-- The ratchets of the leaf stand where the ledger says. -/
structure Used (kdf : Kdf S K N) (cfg : SenderRatchetConfiguration) (secret : S)
    (t : SecretTree S K N) (L : Ledger K N) (n own i : ℕ) : Prop where
  encryption : i = own → ∀ ty, t.ratchet ty i = some (.encryptionRatchet
    ⟨kdf.chain (base kdf secret n i ty) (L.sent ty).length, (L.sent ty).length⟩)
  decryption : i ≠ own → ∀ ty, ∃ d, t.ratchet ty i = some (.decryptionRatchet d) ∧
    d.Tracks kdf (base kdf secret n i ty) cfg (L.answered i ty)

/-- The tree of a member and what it has taken from it. -/
structure Agrees (kdf : Kdf S K N) (cfg : SenderRatchetConfiguration) (secret : S) (n own : ℕ)
    (t : SecretTree S K N) (L : Ledger K N) : Prop where
  sized : t.Sized n
  ownIndex : t.ownIndex = own
  derived : Derived kdf secret n t
  leaves : ∀ i < 2 ^ n, Unused t L n own i ∨ Used kdf cfg secret t L n own i
  sent : ∀ ty, (L.sent ty).length ≤ u32Max ∧ L.sent ty =
    (List.range (L.sent ty).length).map fun g => (g, kdf.material (base kdf secret n own ty) g)

lemma node_new (secret : S) (n own : ℕ) (k p : ℕ) :
    (new secret (.ofDepth n) own : SecretTree S K N).Sized n ∧
      (new secret (.ofDepth n) own : SecretTree S K N).ownIndex = own ∧
      (∀ ty i, (new secret (.ofDepth n) own : SecretTree S K N).ratchet ty i = none) ∧
      (new secret (.ofDepth n) own : SecretTree S K N).node k p =
        if k = n ∧ p = 0 then some secret else none := by
  let blank : SecretTree S K N :=
    { ownIndex := own
      leafNodes := List.replicate (2 ^ n) none
      parentNodes := List.replicate (2 ^ n) none
      handshakeSenderRatchets := List.replicate (2 ^ n) none
      applicationSenderRatchets := List.replicate (2 ^ n) none
      size := .ofDepth n }
  have hblank : blank.Sized n :=
    ⟨rfl, by simp [blank], by simp [blank], fun ty => by cases ty <;> simp [ratchets, blank]⟩
  obtain ⟨t, ht, hs, hf, hn⟩ := hblank.setNode_at (InTree.root n) (some secret)
  have hnew : (new secret (.ofDepth n) own : SecretTree S K N) = t := by
    simp only [new, leafCount_ofDepth, root_ofDepth]
    rw [ht]
  have hnone : ∀ (j : ℕ), ((List.replicate (2 ^ n) (none : Option S))[j]?).join = none := by
    intro j
    rw [getElem?_replicate]
    split_ifs <;> rfl
  rw [hnew]
  refine ⟨hs, hf.own, fun ty i => ?_, ?_⟩
  · rw [ratchet, hf.ratchets]
    cases ty
    all_goals
      simp only [ratchets, blank, getElem?_replicate]
      split_ifs <;> rfl
  · rw [hn]
    split_ifs
    · rfl
    · cases k <;> simp only [node, blank, hnone]

lemma covered_new (secret : S) (own : ℕ) (hi : i < 2 ^ n) :
    Covered (new secret (.ofDepth n) own : SecretTree S K N) n i := by
  refine ⟨n, le_refl n, ?_⟩
  rw [(node_new secret n own n _).2.2.2, if_pos ⟨rfl, Nat.div_eq_of_lt hi⟩]
  rfl

lemma agrees_new (kdf : Kdf S K N) (cfg : SenderRatchetConfiguration) (secret : S) (n own : ℕ) :
    Agrees kdf cfg secret n own (new secret (.ofDepth n) own) .empty where
  sized := (node_new secret n own 0 0).1
  ownIndex := (node_new secret n own 0 0).2.1
  derived := by
    intro k p x hk hx
    rw [(node_new secret n own k p).2.2.2] at hx
    split_ifs at hx with hroot
    obtain ⟨rfl, rfl⟩ := hroot
    rw [Nat.sub_self]
    exact (Option.some.inj hx).symm
  leaves := by
    intro i hi
    exact .inl ⟨covered_new secret own hi, fun ty => (node_new secret n own 0 0).2.2.1 ty i,
      fun _ _ => rfl, fun _ => rfl⟩
  sent := fun ty => ⟨Nat.zero_le _, rfl⟩

/-- **A leaf of the tree gets its ratchets when they are missing.** -/
lemma Agrees.ensureRatchet (h : Agrees kdf cfg secret n own t L) (hi : i < 2 ^ n)
    (ty : SecretType) :
    ∃ t', t.ensureRatchet kdf i ty = .ok t' ∧ Agrees kdf cfg secret n own t' L ∧
      Used kdf cfg secret t' L n own i := by
  rcases h.leaves i hi with hun | hused
  · obtain ⟨t', ht', hs, ho, hd, hnew, hkeep, hcov, -⟩ :=
      initializeSenderRatchets_spec hi h.sized h.derived hun.covered (hun.missing ty)
    have hused : Used kdf cfg secret t' L n own i := by
      refine ⟨fun heq ty' => ?_, fun hne ty' => ?_⟩
      · rw [hnew ty', newRatchet, h.ownIndex, if_pos heq, hun.sent heq ty']
        rfl
      · refine ⟨_, by rw [hnew ty', newRatchet, h.ownIndex, if_neg hne], ?_⟩
        rw [hun.answered ty']
        exact DecryptionRatchet.tracks_new kdf _ cfg
    refine ⟨t', ?_, ⟨hs, ho.trans h.ownIndex, hd, ?_, h.sent⟩, hused⟩
    · simp only [SecretTree.ensureRatchet, h.sized.ratchetOpt_eq hi, hun.missing ty, bind,
        Except.bind]
      exact ht'
    · intro j hj
      by_cases hji : j = i
      · subst hji
        exact .inr hused
      · rcases h.leaves j hj with hun' | hused'
        · exact .inl ⟨(hcov j hji).1.mpr hun'.covered,
            fun ty' => by rw [hkeep ty' j hji, hun'.missing], hun'.sent, hun'.answered⟩
        · refine .inr ⟨fun heq ty' => ?_, fun hne ty' => ?_⟩
          · rw [hkeep ty' j hji]
            exact hused'.encryption heq ty'
          · rw [hkeep ty' j hji]
            exact hused'.decryption hne ty'
  · refine ⟨t, ?_, h, hused⟩
    have hsome : ∃ r, t.ratchet ty i = some r := by
      by_cases heq : i = own
      · exact ⟨_, hused.encryption heq ty⟩
      · obtain ⟨d, hd, -⟩ := hused.decryption heq ty
        exact ⟨_, hd⟩
    obtain ⟨r, hr⟩ := hsome
    simp only [SecretTree.ensureRatchet, h.sized.ratchetOpt_eq hi, hr, bind, Except.bind]
    rfl

lemma Agrees.setRatchet {L' : Ledger K N} {r : SenderRatchet S K N}
    (h : Agrees kdf cfg secret n own t L) (hi : i < 2 ^ n) (hused : Used kdf cfg secret t L n own i)
    (hsent : ∀ ty', ty' ≠ ty ∨ i ≠ own → L'.sent ty' = L.sent ty')
    (hanswered : ∀ j ty', ty' ≠ ty ∨ j ≠ i → L'.answered j ty' = L.answered j ty')
    (henc : i = own → r = .encryptionRatchet
      ⟨kdf.chain (base kdf secret n i ty) (L'.sent ty).length, (L'.sent ty).length⟩)
    (hdec : i ≠ own → ∃ d, r = .decryptionRatchet d ∧
      d.Tracks kdf (base kdf secret n i ty) cfg (L'.answered i ty))
    (hlist : ∀ ty, (L'.sent ty).length ≤ u32Max ∧ L'.sent ty =
      (List.range (L'.sent ty).length).map fun g =>
        (g, kdf.material (base kdf secret n own ty) g)) :
    Agrees kdf cfg secret n own (t.setRatchet i ty r) L' := by
  obtain ⟨hs, ho, hn, hr⟩ := h.sized.setRatchet_spec hi ty r
  refine ⟨hs, ho.trans h.ownIndex, ?_, ?_, hlist⟩
  · intro k p x hk hx
    rw [hn] at hx
    exact h.derived k p x hk hx
  · intro j hj
    by_cases hji : j = i
    · subst hji
      refine .inr ⟨fun heq ty' => ?_, fun hne ty' => ?_⟩
      · by_cases hty : ty' = ty
        · subst hty
          rw [hr, if_pos ⟨rfl, rfl⟩, henc heq]
        · rw [hr, if_neg (fun hc => hty hc.1), hsent ty' (.inl hty)]
          exact hused.encryption heq ty'
      · by_cases hty : ty' = ty
        · subst hty
          obtain ⟨d, rfl, hd⟩ := hdec hne
          exact ⟨d, by rw [hr, if_pos ⟨rfl, rfl⟩], hd⟩
        · rw [hr, if_neg (fun hc => hty hc.1), hanswered j ty' (.inl hty)]
          exact hused.decryption hne ty'
    · have hkeep : ∀ ty', (t.setRatchet i ty r).ratchet ty' j = t.ratchet ty' j :=
        fun ty' => by rw [hr, if_neg (fun hc => hji hc.2)]
      have hsent' : j = own → ∀ ty', L'.sent ty' = L.sent ty' :=
        fun heq ty' => hsent ty' (.inr fun hio => hji (heq.trans hio.symm))
      rcases h.leaves j hj with hun | hused'
      · refine .inl ⟨?_, fun ty' => by rw [hkeep, hun.missing], fun heq ty' => ?_, fun ty' => ?_⟩
        · obtain ⟨k, hk, hsome⟩ := hun.covered
          exact ⟨k, hk, by rwa [hn]⟩
        · rw [hsent' heq, hun.sent heq]
        · rw [hanswered j ty' (.inr hji), hun.answered]
      · refine .inr ⟨fun heq ty' => ?_, fun hne ty' => ?_⟩
        · rw [hkeep, hsent' heq]
          exact hused'.encryption heq ty'
        · rw [hkeep, hanswered j ty' (.inr hji)]
          exact hused'.decryption hne ty'

/-! ## Calls -/

/-- A generation of another leaf that the member's tree answers. -/
def Answerable (cfg : SenderRatchetConfiguration) (answered : List ℕ) (g : ℕ) : Prop :=
  Within cfg (headOf answered) g ∧ g ∉ answered ∧ Near (headOf answered) g

lemma Sized.lt_leafCount (h : t.Sized n) (hi : i < 2 ^ n) : ¬ t.size.leafCount ≤ i := by
  rw [h.size, leafCount_ofDepth]
  omega

section

variable (h : Agrees kdf cfg secret n own t L)
include h

/-- **A request for the key of another member.** -/
lemma Agrees.decrypt (hi : i < 2 ^ n) (hne : i ≠ own) (hg : g < u32Max) (ty : SecretType) :
    (Answerable cfg (L.answered i ty) g → ∃ t', t.secretForDecryption kdf cfg i ty g =
      (.ok (kdf.material (base kdf secret n i ty) g), t') ∧
        Agrees kdf cfg secret n own t' (L.answer i ty g)) ∧
    (¬ Answerable cfg (L.answered i ty) g → ∃ e t', t.secretForDecryption kdf cfg i ty g =
      (.error e, t') ∧ Agrees kdf cfg secret n own t' L) := by
  obtain ⟨t1, ht1, h1, hused⟩ := h.ensureRatchet hi ty
  obtain ⟨d, hd, htracks⟩ := hused.decryption hne ty
  obtain ⟨hanswer, hrefuse⟩ := DecryptionRatchet.secretForDecryption_spec htracks hg
  have hcall : t.secretForDecryption kdf cfg i ty g =
      ((d.secretForDecryption kdf g cfg).1,
        t1.setRatchet i ty (.decryptionRatchet (d.secretForDecryption kdf g cfg).2)) := by
    simp only [secretForDecryption, if_neg (h.sized.lt_leafCount hi), ht1, ratchetMut_eq hd]
  rw [hcall]
  constructor
  · intro hok
    obtain ⟨d', hd', htracks'⟩ := hanswer hok
    rw [hd']
    refine ⟨_, rfl, h1.setRatchet hi hused (fun _ _ => rfl) ?_ (fun heq => absurd heq hne) ?_
      h1.sent⟩
    · intro j ty' hother
      refine if_neg fun hc => ?_
      rcases hother with hty | hj
      · exact hty hc.2
      · exact hj hc.1
    · intro _
      refine ⟨d', rfl, ?_⟩
      rwa [show (L.answer i ty g).answered i ty = g :: L.answered i ty from if_pos ⟨rfl, rfl⟩]
  · intro hno
    obtain ⟨e, he⟩ := hrefuse hno
    rw [he]
    exact ⟨e, _, rfl, h1.setRatchet hi hused (fun _ _ => rfl) (fun _ _ _ => rfl)
      (fun heq => absurd heq hne) (fun _ => ⟨d, rfl, htracks⟩) h1.sent⟩

lemma Agrees.decrypt_other (hi : 2 ^ n ≤ i ∨ i = own) (ty : SecretType) (g : ℕ) :
    ∃ e t', t.secretForDecryption kdf cfg i ty g = (.error e, t') ∧
      Agrees kdf cfg secret n own t' L := by
  by_cases hout : 2 ^ n ≤ i
  · have hsize : t.size.leafCount ≤ i := by
      rw [h.sized.size, leafCount_ofDepth]
      exact hout
    exact ⟨_, t, if_pos hsize, h⟩
  · have hlt : i < 2 ^ n := by omega
    obtain ⟨t1, ht1, h1, hused⟩ := h.ensureRatchet hlt ty
    have hr := hused.encryption (hi.resolve_left hout) ty
    refine ⟨.ratchetTypeError, t1, ?_, h1⟩
    simp only [secretForDecryption, if_neg (h.sized.lt_leafCount hlt), ht1, ratchetMut_eq hr]

/-- **The next key of the member itself** is the next one of the chain. -/
lemma Agrees.encrypt (hi : own < 2 ^ n) (ty : SecretType) :
    (∃ t', t.secretForEncryption kdf own ty = (.ok ((L.sent ty).length,
        kdf.material (base kdf secret n own ty) (L.sent ty).length), t') ∧
      Agrees kdf cfg secret n own t' (L.send ty ((L.sent ty).length,
        kdf.material (base kdf secret n own ty) (L.sent ty).length))) ∨
    ∃ e t', t.secretForEncryption kdf own ty = (.error e, t') ∧
      Agrees kdf cfg secret n own t' L := by
  obtain ⟨t1, ht1, h1, hused⟩ := h.ensureRatchet hi ty
  have hr := hused.encryption rfl ty
  obtain ⟨hmax, hlist⟩ := h.sent ty
  set c := (L.sent ty).length with hc
  rcases Nat.lt_or_eq_of_le hmax with hlt | hend
  · refine .inl ⟨t1.setRatchet own ty (.encryptionRatchet
      ⟨kdf.chain (base kdf secret n own ty) (c + 1), c + 1⟩), ?_, ?_⟩
    · simp only [secretForEncryption, ht1, ratchetMut_eq hr, ratchetForward_chain hlt]
    · have hsend : ∀ out, (L.send ty out).sent ty = L.sent ty ++ [out] := fun out => if_pos rfl
      refine h1.setRatchet hi hused ?_ (fun _ _ _ => rfl) ?_ (fun hne => absurd rfl hne) ?_
      · intro ty' hother
        rcases hother with hty | hne
        · exact if_neg hty
        · exact absurd rfl hne
      · intro _
        rw [hsend, length_append, length_singleton, ← hc]
      · intro ty'
        by_cases hty : ty' = ty
        · subst hty
          rw [hsend, length_append, length_singleton, ← hc, range_succ, map_append, ← hlist]
          exact ⟨hlt, rfl⟩
        · have hkeep : ∀ out, (L.send ty out).sent ty' = L.sent ty' := fun out => if_neg hty
          rw [hkeep]
          exact h.sent ty'
  · refine .inr ⟨.ratchetTooLong, t1, ?_, h1⟩
    rw [hend] at hr
    simp only [secretForEncryption, ht1, ratchetMut_eq hr, ratchetForward_max]

lemma Agrees.encrypt_other (hi : 2 ^ n ≤ i ∨ i ≠ own) (ty : SecretType) :
    ∃ e t', t.secretForEncryption kdf i ty = (.error e, t') ∧ Agrees kdf cfg secret n own t' L := by
  by_cases hout : 2 ^ n ≤ i
  · refine ⟨.indexOutOfBounds, t, ?_, h⟩
    simp only [secretForEncryption, SecretTree.ensureRatchet, h.sized.ratchetOpt_error hout, bind,
      Except.bind]
  · have hlt : i < 2 ^ n := by omega
    obtain ⟨t1, ht1, h1, hused⟩ := h.ensureRatchet hlt ty
    obtain ⟨d, hr, -⟩ := hused.decryption (hi.resolve_left hout) ty
    refine ⟨.ratchetTypeError, t1, ?_, h1⟩
    simp only [secretForEncryption, ht1, ratchetMut_eq hr]

end

lemma call_decrypt_ok {m : K × N} (h : t.secretForDecryption kdf cfg i ty g = (.ok m, t')) :
    call kdf cfg (t, L) (.decrypt i ty g) = (t', L.answer i ty g) := by
  simp only [call, h]

lemma Agrees.call (h : Agrees kdf cfg secret n own t L) {c : Call} (hc : c.Bounded) :
    Agrees kdf cfg secret n own (call kdf cfg (t, L) c).1 (call kdf cfg (t, L) c).2 := by
  cases c with
  | encrypt i ty =>
    by_cases hi : i < 2 ^ n ∧ i = own
    · obtain ⟨hlt, rfl⟩ := hi
      obtain ⟨t', ht', h'⟩ | ⟨e, t', ht', h'⟩ := h.encrypt hlt ty
      all_goals simpa only [SecretTree.call, ht'] using h'
    · obtain ⟨e, t', ht', h'⟩ := h.encrypt_other (i := i) (by omega) ty
      simpa only [SecretTree.call, ht'] using h'
  | decrypt i ty g =>
    by_cases hi : i < 2 ^ n ∧ i ≠ own
    · obtain ⟨hanswer, hrefuse⟩ := h.decrypt hi.1 hi.2 hc ty
      by_cases hok : Answerable cfg (L.answered i ty) g
      · obtain ⟨t', ht', h'⟩ := hanswer hok
        rwa [call_decrypt_ok ht']
      · obtain ⟨e, t', ht', h'⟩ := hrefuse hok
        simpa only [SecretTree.call, ht'] using h'
    · obtain ⟨e, t', ht', h'⟩ := h.decrypt_other (i := i) (by omega) ty g
      simpa only [SecretTree.call, ht'] using h'

theorem run_agrees (kdf : Kdf S K N) (cfg : SenderRatchetConfiguration) (secret : S) (n own : ℕ)
    {calls : List Call} (hcalls : ∀ c ∈ calls, c.Bounded) :
    Agrees kdf cfg secret n own (run kdf cfg secret n own calls).1
      (run kdf cfg secret n own calls).2 := by
  unfold run
  generalize hst : (new secret (.ofDepth n) own, Ledger.empty) = st
  have hagrees : Agrees kdf cfg secret n own st.1 st.2 := by
    rw [← hst]
    exact agrees_new kdf cfg secret n own
  clear hst
  induction calls generalizing st with
  | nil => exact hagrees
  | cons c calls ih =>
    exact ih (fun c' hc' => hcalls c' (.tail _ hc')) _
      (hagrees.call (hcalls c mem_cons_self))

/-! ## Forward secrecy -/

/-- A ratchet of a leaf before its first key. -/
def startRatchet (kdf : Kdf S K N) (secret : S) (n own i : ℕ) (ty : SecretType) :
    SenderRatchet S K N :=
  if i = own then .encryptionRatchet (.initialRatchetSecret (base kdf secret n i ty))
  else .decryptionRatchet (.new (base kdf secret n i ty))

/-- A leaf has its ratchets and no secret above it, or one secret above it and no ratchets. -/
structure Tidy (kdf : Kdf S K N) (secret : S) (n own : ℕ) (t : SecretTree S K N) : Prop where
  sized : t.Sized n
  ownIndex : t.ownIndex = own
  derived : Derived kdf secret n t
  leaves : ∀ i < 2 ^ n,
    (∀ ty, t.ratchet ty i = some (startRatchet kdf secret n own i ty)) ∧ ¬ Covered t n i ∨
    (∀ ty, t.ratchet ty i = none) ∧ Covered t n i ∧ Sole t n i

lemma tidy_new (kdf : Kdf S K N) (secret : S) (n own : ℕ) :
    Tidy kdf secret n own (new secret (.ofDepth n) own) := by
  have hagrees := agrees_new kdf .default secret n own
  refine ⟨hagrees.sized, hagrees.ownIndex, hagrees.derived, fun i hi => .inr
    ⟨fun ty => (node_new secret n own 0 0).2.2.1 ty i, covered_new secret own hi,
      fun k k' _ _ hk hk' => ?_⟩⟩
  rw [(node_new secret n own _ _).2.2.2] at hk hk'
  split_ifs at hk hk' with h1 h2
  · exact h1.1.trans h2.1.symm
  all_goals simp at hk hk'

lemma Tidy.initialize (h : Tidy kdf secret n own t) (hi : i < 2 ^ n) :
    ∃ t', t.initializeSenderRatchets kdf i = .ok t' ∧ Tidy kdf secret n own t' ∧
      ∀ ty, t'.ratchet ty i = some (startRatchet kdf secret n own i ty) := by
  obtain ⟨hused, -⟩ | ⟨hnone, hcov, hsole⟩ := h.leaves i hi
  · refine ⟨t, ?_, h, hused⟩
    rw [initializeSenderRatchets, if_neg (h.sized.lt_leafCount hi)]
    simp [h.sized.ratchetOpt_eq hi, bind, Except.bind, hused, pure, Except.pure]
  · obtain ⟨t', ht', hs, ho, hd, hnew, hkeep, hother, hbare⟩ :=
      initializeSenderRatchets_spec hi h.sized h.derived hcov (hnone .handshakeSecret)
    have hstart : ∀ ty, t'.ratchet ty i = some (startRatchet kdf secret n own i ty) := fun ty => by
      rw [hnew, newRatchet, h.ownIndex, startRatchet, base]
    refine ⟨t', ht', ⟨hs, ho.trans h.ownIndex, hd, fun j hj => ?_⟩, hstart⟩
    by_cases hji : j = i
    · subst hji
      exact .inl ⟨hstart, hbare hsole⟩
    · simp only [hkeep _ j hji, (hother j hji).1]
      refine (h.leaves j hj).imp_right ?_
      rintro ⟨hnone, hcov, hsole⟩
      exact ⟨hnone, hcov, (hother j hji).2 hsole⟩

/-- The tree after the ratchets of these leaves and types were asked for. -/
def initialized (kdf : Kdf S K N) (secret : S) (n own : ℕ) (order : List (ℕ × SecretType)) :
    SecretTree S K N :=
  order.foldl (fun t e => (t.ensureRatchet kdf e.1 e.2).toOption.getD t)
    (new secret (.ofDepth n) own)

lemma Tidy.getD_ensureRatchet (h : Tidy kdf secret n own t) (i : ℕ) (ty : SecretType) :
    Tidy kdf secret n own ((t.ensureRatchet kdf i ty).toOption.getD t) := by
  by_cases hi : i < 2 ^ n
  · simp only [SecretTree.ensureRatchet, h.sized.ratchetOpt_eq hi, bind, Except.bind]
    obtain ⟨t', ht', h', -⟩ := h.initialize hi
    cases t.ratchet ty i with
    | some r => exact h
    | none => rwa [ht']
  · simp only [SecretTree.ensureRatchet, h.sized.ratchetOpt_error (Nat.not_lt.mp hi), bind,
      Except.bind]
    exact h

lemma tidy_initialized (kdf : Kdf S K N) (secret : S) (n own : ℕ) (order : List (ℕ × SecretType)) :
    Tidy kdf secret n own (initialized kdf secret n own order) := by
  induction order using List.reverseRecOn with
  | nil => exact tidy_new kdf secret n own
  | append_singleton order e ih =>
    rw [initialized, foldl_concat]
    exact ih.getD_ensureRatchet e.1 e.2

/-- **The secrets above the leaves.**  In every order of first uses, a leaf has the ratchets that
    start from the secret that the root gives it and no secret is left above it, or it has none and
    exactly one secret is left above it.  No secret is found missing. -/
theorem secrets_above_leaves (kdf : Kdf S K N) (secret : S) (n own : ℕ)
    (order : List (ℕ × SecretType)) :
    (∀ i < 2 ^ n,
      (∀ ty, (initialized kdf secret n own order).ratchet ty i =
          some (startRatchet kdf secret n own i ty)) ∧
        (∀ k ≤ n, (initialized kdf secret n own order).node k (i / 2 ^ k) = none) ∨
      (∀ ty, (initialized kdf secret n own order).ratchet ty i = none) ∧
        ∃! k, k ≤ n ∧ ((initialized kdf secret n own order).node k (i / 2 ^ k)).isSome) ∧
    ∀ i, (2 ^ n ≤ i → (initialized kdf secret n own order).initializeSenderRatchets kdf i =
        .error .indexOutOfBounds) ∧
      (i < 2 ^ n → ∃ t, (initialized kdf secret n own order).initializeSenderRatchets kdf i =
        .ok t ∧ ∀ ty, t.ratchet ty i = some (startRatchet kdf secret n own i ty)) := by
  have h := tidy_initialized kdf secret n own order
  generalize initialized kdf secret n own order = t at h ⊢
  refine ⟨fun i hi => ?_, fun i => ⟨fun hi => ?_, fun hi => ?_⟩⟩
  · refine (h.leaves i hi).imp (fun ⟨hsome, hbare⟩ => ⟨hsome, fun k hk => ?_⟩)
      fun ⟨hnone, ⟨k, hk, hsome⟩, hsole⟩ => ⟨hnone, k, ⟨hk, hsome⟩, fun k' hk' =>
        hsole k' k hk'.1 hk hk'.2 hsome⟩
    by_contra hne
    exact hbare ⟨k, hk, Option.isSome_iff_ne_none.mpr hne⟩
  · rw [initializeSenderRatchets, if_pos (by rwa [h.sized.size, leafCount_ofDepth])]
  · obtain ⟨t', ht', -, hnew⟩ := h.initialize hi
    exact ⟨t', ht', hnew⟩

/-! ## Sender and receiver -/

/-- The receiver's answer for generation `g` and what the sender took at its call number `g`: the
    answer is that key material and is given once, and it is given within the bounds. -/
def DeliversSent (cfg : SenderRatchetConfiguration) (answered : List ℕ) (g : ℕ)
    (out : ℕ × (K × N)) (result : Except SecretTreeError (K × N)) : Prop :=
  out.1 = g ∧ (∀ m, result = .ok m → m = out.2 ∧ g ∉ answered) ∧
    (Within cfg (headOf answered) g ∧ g ∉ answered → result = .ok out.2)

/-- **Message keys agree exactly for generations near the head**, for every two leaves and every
    content type, after any calls of the sender and of the receiver. -/
theorem message_keys_agree_iff (kdf : Kdf S K N) (cfg cfg' : SenderRatchetConfiguration)
    (secret : S) {n sender receiver : ℕ} (hsender : sender < 2 ^ n) (hne : sender ≠ receiver)
    (content : ContentType) {sends asks : List Call} (hsends : ∀ c ∈ sends, c.Bounded)
    (hasks : ∀ c ∈ asks, c.Bounded) (hg : g < u32Max) {out : ℕ × (K × N)}
    (hout : ((run kdf cfg' secret n sender sends).2.sent (.ofContentType content))[g]? =
      some out) :
    DeliversSent cfg ((run kdf cfg secret n receiver asks).2.answered sender
        (.ofContentType content)) g out
      ((run kdf cfg secret n receiver asks).1.secretForDecryption kdf cfg sender
        (.ofContentType content) g).1 ↔
    (Within cfg (headOf ((run kdf cfg secret n receiver asks).2.answered sender
          (.ofContentType content))) g ∧
        g ∉ (run kdf cfg secret n receiver asks).2.answered sender (.ofContentType content) →
      Near (headOf ((run kdf cfg secret n receiver asks).2.answered sender
        (.ofContentType content))) g) := by
  set ty := SecretType.ofContentType content
  have hs := run_agrees kdf cfg' secret n sender hsends
  have hr := run_agrees kdf cfg secret n receiver hasks
  generalize run kdf cfg secret n receiver asks = st at hr ⊢
  obtain ⟨t, L⟩ := st
  obtain ⟨hanswer, hrefuse⟩ := hr.decrypt hsender hne hg ty
  -- what the sender was given is the key material of the chain
  obtain rfl : out = (g, kdf.material (base kdf secret n sender ty) g) := by
    obtain ⟨-, hlist⟩ := hs.sent ty
    rw [hlist, getElem?_map] at hout
    obtain ⟨j, hj, rfl⟩ := Option.map_eq_some_iff.mp hout
    obtain ⟨-, rfl⟩ := List.getElem?_eq_some_iff.mp hj
    simp
  by_cases hok : Answerable cfg (L.answered sender ty) g
  · obtain ⟨t', ht', -⟩ := hanswer hok
    rw [ht']
    refine iff_of_true ⟨rfl, fun m hm => ⟨(Except.ok.inj hm).symm, hok.2.1⟩, fun _ => rfl⟩ ?_
    exact fun _ => hok.2.2
  · obtain ⟨e, t', ht', -⟩ := hrefuse hok
    rw [ht']
    constructor
    · rintro ⟨-, -, hgive⟩ hin
      cases hgive hin
    · intro hnear
      refine ⟨rfl, fun m hm => (by cases hm), fun hin => ?_⟩
      exact absurd ⟨hin.1, hin.2, hnear hin⟩ hok

/-- A derivation that tells the labels apart by their length. -/
def plainKdf : Kdf ℕ ℕ ℕ where
  expandLabel secret label _ _ := 100 * secret + label.length
  aeadKey secret := secret
  aeadNonce secret := secret
  hashLength := 32
  aeadKeyLength := 16
  aeadNonceLength := 12

/-- Of two messages the second one arrives first; the key of the first one is still given. -/
theorem message_keys_agree_iff_late :
    ((run plainKdf .default 7 1 0 [.encrypt 0 .applicationSecret,
        .encrypt 0 .applicationSecret]).2.sent .applicationSecret)[0]? =
      some (0, (7041103, 7041105)) ∧
    ((run plainKdf .default 7 1 1 [.decrypt 0 .applicationSecret 1]).1.secretForDecryption plainKdf
      .default 0 .applicationSecret 0).1 = .ok (7041103, 7041105) := by
  have hsent : ((run plainKdf .default 7 1 0 [.encrypt 0 .applicationSecret,
      .encrypt 0 .applicationSecret]).2.sent .applicationSecret)[0]? =
        some (0, (7041103, 7041105)) := by decide +kernel
  have hanswered : (run plainKdf .default 7 1 1 [.decrypt 0 .applicationSecret 1]).2.answered 0
      .applicationSecret = [1] := by decide +kernel
  refine ⟨hsent, ?_⟩
  have hdelivers := (message_keys_agree_iff plainKdf .default .default 7 (by decide)
    (show 0 ≠ 1 by decide) .application (by simp [Call.Bounded])
    (show ∀ c ∈ [Call.decrypt 0 .applicationSecret 1], c.Bounded by simp [Call.Bounded, u32Max])
    (by decide) hsent).mpr (by
      rintro -
      show Near (headOf ((run plainKdf .default 7 1 1 _).2.answered 0 .applicationSecret)) 0
      rw [hanswered]
      simp [Near, headOf])
  refine hdelivers.2.2 ?_
  show Within .default
      (headOf ((run plainKdf .default 7 1 1 _).2.answered 0 .applicationSecret)) 0 ∧
    0 ∉ (run plainKdf .default 7 1 1 _).2.answered 0 .applicationSecret
  rw [hanswered]
  simp [Within, headOf, SenderRatchetConfiguration.default]

/-- A window of more than `2 ^ 31` generations. -/
def wideWindow : SenderRatchetConfiguration where
  outOfOrderTolerance := 2 ^ 31 + 1
  maximumForwardDistance := 2 ^ 31
  tolerance_le := by norm_num [u32Max]
  distance_le := by norm_num [u32Max]

/-- **A key that is refused.**  The distance `2 ^ 31 + 1` to the head is negative as an `i32`. -/
theorem far_key_refused :
    ((run plainKdf wideWindow 7 1 0 [.encrypt 0 .applicationSecret]).2.sent
      .applicationSecret)[0]? = some (0, (7041103, 7041105)) ∧
    (run plainKdf wideWindow 7 1 1 [.decrypt 0 .applicationSecret (2 ^ 31)]).2.answered 0
      .applicationSecret = [2 ^ 31] ∧
    Within wideWindow (headOf [2 ^ 31]) 0 ∧ 0 ∉ [2 ^ 31] ∧
    ∃ e, ((run plainKdf wideWindow 7 1 1
      [.decrypt 0 .applicationSecret (2 ^ 31)]).1.secretForDecryption plainKdf wideWindow 0
        .applicationSecret 0).1 = .error e := by
  have hstart := agrees_new plainKdf wideWindow 7 1 1
  have hskip : Answerable wideWindow [] (2 ^ 31) := by
    refine ⟨⟨?_, ?_⟩, by simp, ?_⟩ <;> simp [wideWindow, Near]
  obtain ⟨t, ht, h⟩ :=
    (hstart.decrypt (i := 0) (by norm_num) (by norm_num) (by norm_num [u32Max])
      .applicationSecret).1 hskip
  have hrun : run plainKdf wideWindow 7 1 1 [.decrypt 0 .applicationSecret (2 ^ 31)] =
      (t, Ledger.empty.answer 0 .applicationSecret (2 ^ 31)) := by
    rw [run, foldl_cons, foldl_nil, call_decrypt_ok ht]
  have hanswered : (Ledger.empty.answer 0 .applicationSecret (2 ^ 31) : Ledger ℕ ℕ).answered 0
      .applicationSecret = [2 ^ 31] := by simp [Ledger.answer, Ledger.empty]
  rw [hrun]
  refine ⟨by decide +kernel, hanswered, ?_, by norm_num, ?_⟩
  · simp [Within, headOf, wideWindow]
  · have hfar : ¬ Answerable wideWindow [2 ^ 31] 0 := by
      rintro ⟨-, -, hnear⟩
      simp [Near, headOf] at hnear
    have hzero : 0 < u32Max := by norm_num [u32Max]
    obtain ⟨e, t', ht', -⟩ := (h.decrypt (i := 0) (by norm_num) (by norm_num) hzero
      .applicationSecret).2 (by rwa [hanswered])
    exact ⟨e, by rw [ht']⟩

end EmulatedMls.SecretTree
