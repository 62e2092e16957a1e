import EmulatedMls.Lib.Window
import Mathlib.Algebra.Ring.Nat

/-!
# Sender ratchets

The keys of the messages of one sender form a chain.  The sender derives them one after the other.
A receiver asks for them by their generation, in the order in which the messages arrive, and keeps
the keys that it has skipped in a queue of bounded length.

**Source.**  `tree/sender_ratchet.rs`, with the labels of `tree/secret_tree.rs`.

**Derivation.**  The key derivation is a parameter, `Kdf`.

**Machine integers.**  Generations are `u32` in the source and natural numbers here; a ratchet
stops at `u32::MAX`.  The position in the queue is computed in `i32`, which wraps around in the
release build (`windowIndex`).
-/

namespace EmulatedMls

def u32Max : ℕ := 2 ^ 32 - 1

def toBeBytes (x : ℕ) : List UInt8 :=
  [(x / 2 ^ 24).toUInt8, (x / 2 ^ 16).toUInt8, (x / 2 ^ 8).toUInt8, x.toUInt8]

structure Kdf (S K N : Type) where
  expandLabel : S → String → List UInt8 → ℕ → S
  aeadKey : S → K
  aeadNonce : S → N
  hashLength : ℕ
  aeadKeyLength : ℕ
  aeadNonceLength : ℕ

inductive SecretTreeError where
  | tooDistantInThePast
  | tooDistantInTheFuture
  | indexOutOfBounds
  | secretReuseError
  | ratchetTypeError
  | ratchetTooLong
  | libraryError
  deriving DecidableEq, Repr

/-- How many keys a receiver keeps and how many it may skip. -/
structure SenderRatchetConfiguration where
  outOfOrderTolerance : ℕ
  maximumForwardDistance : ℕ
  tolerance_le : outOfOrderTolerance ≤ u32Max
  distance_le : maximumForwardDistance ≤ u32Max

def SenderRatchetConfiguration.default : SenderRatchetConfiguration where
  outOfOrderTolerance := 5
  maximumForwardDistance := 1000
  tolerance_le := by decide
  distance_le := by decide

/-- The head of a chain. -/
structure RatchetSecret (S : Type) where
  secret : S
  generation : ℕ

structure DecryptionRatchet (S K N : Type) where
  pastSecrets : List (Option (K × N))
  ratchetHead : RatchetSecret S

variable {S K N : Type}

def Kdf.deriveTreeSecret (kdf : Kdf S K N) (secret : S) (label : String) (generation length : ℕ) :
    S :=
  kdf.expandLabel secret label (toBeBytes generation) length

namespace RatchetSecret

def initialRatchetSecret (secret : S) : RatchetSecret S := ⟨secret, 0⟩

/-- `ratchet_forward`: the generation and its key material, and the next head. -/
def ratchetForward (kdf : Kdf S K N) (r : RatchetSecret S) :
    Except SecretTreeError ((ℕ × (K × N)) × RatchetSecret S) :=
  if r.generation = u32Max then .error .ratchetTooLong
  else
    let nonce := kdf.deriveTreeSecret r.secret "nonce" r.generation kdf.aeadNonceLength
    let key := kdf.deriveTreeSecret r.secret "key" r.generation kdf.aeadKeyLength
    let secret := kdf.deriveTreeSecret r.secret "secret" r.generation kdf.hashLength
    .ok ((r.generation, (kdf.aeadKey key, kdf.aeadNonce nonce)), ⟨secret, r.generation + 1⟩)

end RatchetSecret

/-- `((head - generation) as i32) - 1`, for the distance `n` of a past generation to the head. -/
def windowIndex (n : ℕ) : ℤ := (Int.bmod (Int.bmod n (2 ^ 32) - 1) (2 ^ 32))

namespace DecryptionRatchet

def new (secret : S) : DecryptionRatchet S K N := ⟨[], .initialRatchetSecret secret⟩

def generation (d : DecryptionRatchet S K N) : ℕ := d.ratchetHead.generation

def prunePastSecrets (d : DecryptionRatchet S K N) (cfg : SenderRatchetConfiguration) :
    DecryptionRatchet S K N :=
  { d with pastSecrets := d.pastSecrets.take cfg.outOfOrderTolerance }

/-- The loop that skips generations and keeps their keys. -/
def skip (kdf : Kdf S K N) :
    ℕ → DecryptionRatchet S K N → Except SecretTreeError Unit × DecryptionRatchet S K N
  | 0, d => (.ok (), d)
  | n + 1, d =>
    match d.ratchetHead.ratchetForward kdf with
    | .error e => (.error e, d)
    | .ok ((_, material), head) => skip kdf n ⟨some material :: d.pastSecrets, head⟩

/-- The answer to a request for a past generation: its entry is taken out of the queue. -/
def takePast (d : DecryptionRatchet S K N) (generation : ℕ) :
    Except SecretTreeError (K × N) × DecryptionRatchet S K N :=
  let index := windowIndex (d.generation - generation)
  if index < 0 then (.error .tooDistantInThePast, d)
  else
    match d.pastSecrets[index.toNat]? with
    | none => (.error .indexOutOfBounds, d)
    | some none => (.error .secretReuseError, d)
    | some (some material) =>
      (.ok material, { d with pastSecrets := d.pastSecrets.set index.toNat none })

/-- `secret_for_decryption`: the answer and the ratchet that is left. -/
def secretForDecryption (kdf : Kdf S K N) (d : DecryptionRatchet S K N) (generation : ℕ)
    (cfg : SenderRatchetConfiguration) : Except SecretTreeError (K × N) × DecryptionRatchet S K N :=
  if d.generation < u32Max - cfg.maximumForwardDistance ∧
      d.generation + cfg.maximumForwardDistance < generation then
    (.error .tooDistantInTheFuture, d)
  else if generation < d.generation ∧ cfg.outOfOrderTolerance < d.generation - generation then
    (.error .tooDistantInThePast, d)
  else if d.generation ≤ generation then
    match skip kdf (generation - d.generation) d with
    | (.error e, d) => (.error e, d)
    | (.ok (), d) =>
      match d.ratchetHead.ratchetForward kdf with
      | .error e => (.error e, d)
      | .ok ((_, material), head) =>
        (.ok material, prunePastSecrets ⟨none :: d.pastSecrets, head⟩ cfg)
  else takePast d generation

end DecryptionRatchet

/-! ## The chain of a sender -/

/-- The secret of the chain at a generation. -/
def Kdf.chain (kdf : Kdf S K N) (secret : S) : ℕ → S
  | 0 => secret
  | g + 1 => kdf.deriveTreeSecret (Kdf.chain kdf secret g) "secret" g kdf.hashLength

/-- The key material of a generation. -/
def Kdf.material (kdf : Kdf S K N) (secret : S) (g : ℕ) : K × N :=
  (kdf.aeadKey (kdf.deriveTreeSecret (kdf.chain secret g) "key" g kdf.aeadKeyLength),
    kdf.aeadNonce (kdf.deriveTreeSecret (kdf.chain secret g) "nonce" g kdf.aeadNonceLength))

variable {kdf : Kdf S K N} {secret : S} {g : ℕ} {cfg : SenderRatchetConfiguration}
  {d : DecryptionRatchet S K N} {taken : List ℕ}

lemma ratchetForward_chain (h : g < u32Max) :
    RatchetSecret.ratchetForward kdf ⟨kdf.chain secret g, g⟩ =
      .ok ((g, kdf.material secret g), ⟨kdf.chain secret (g + 1), g + 1⟩) :=
  if_neg (Nat.ne_of_lt h)

lemma ratchetForward_max :
    RatchetSecret.ratchetForward kdf ⟨secret, u32Max⟩ = .error .ratchetTooLong := if_pos rfl

variable {n : ℕ}

/-- **The index into the queue** is negative from the distance `2 ^ 31 + 1` on. -/
lemma windowIndex_eq (hpos : 0 < n) (hn : n ≤ 2 ^ 31) : windowIndex n = (n : ℤ) - 1 := by
  unfold windowIndex
  rcases Nat.lt_or_ge n (2 ^ 31) with hlt | hge
  · have hin : Int.bmod n (2 ^ 32) = n := Int.bmod_eq_of_le (by omega) (by omega)
    rw [hin]
    exact Int.bmod_eq_of_le (by omega) (by omega)
  · obtain rfl : n = 2 ^ 31 := Nat.le_antisymm hn hge
    decide

lemma windowIndex_neg (hn : 2 ^ 31 < n) (hmax : n ≤ u32Max) : windowIndex n < 0 := by
  simp only [u32Max] at hmax
  unfold windowIndex
  have hin : Int.bmod n (2 ^ 32) = (n : ℤ) - 2 ^ 32 := by
    rw [← Int.sub_bmod_right]
    exact Int.bmod_eq_of_le (by omega) (by omega)
  rw [hin, Int.bmod_eq_of_le (by omega) (by omega)]
  omega

/-! ## The receiver's ratchet -/

/-- A generation within the tolerance and the forward distance of a ratchet at `head`. -/
def Within (cfg : SenderRatchetConfiguration) (head g : ℕ) : Prop :=
  g ≤ head + cfg.maximumForwardDistance ∧ head ≤ g + cfg.outOfOrderTolerance

/-- A generation whose distance to the head is a position of the queue in `i32`. -/
def Near (head g : ℕ) : Prop := head ≤ g + 2 ^ 31

namespace DecryptionRatchet

/-- The ratchet has answered the generations in `taken`. -/
structure Tracks (kdf : Kdf S K N) (secret : S) (cfg : SenderRatchetConfiguration)
    (taken : List ℕ) (d : DecryptionRatchet S K N) : Prop where
  head : d.ratchetHead = ⟨kdf.chain secret (headOf taken), headOf taken⟩
  past : d.pastSecrets = window (kdf.material secret) taken (headOf taken)
    (min cfg.outOfOrderTolerance (headOf taken))
  bound : headOf taken ≤ u32Max

lemma tracks_new (kdf : Kdf S K N) (secret : S) (cfg : SenderRatchetConfiguration) :
    Tracks kdf secret cfg [] (new secret) where
  head := rfl
  past := by simp [new, window]
  bound := by simp

lemma skip_window {head m : ℕ} (htaken : ∀ i ∈ taken, i < head) (hm : m ≤ head)
    (hmax : head + n ≤ u32Max) :
    skip kdf n ⟨window (kdf.material secret) taken head m, ⟨kdf.chain secret head, head⟩⟩ =
      (.ok (), ⟨window (kdf.material secret) taken (head + n) (m + n),
        ⟨kdf.chain secret (head + n), head + n⟩⟩) := by
  induction n generalizing head m with
  | zero => rfl
  | succ n ih =>
    have hout : head ∉ taken := fun hmem => Nat.lt_irrefl _ (htaken head hmem)
    rw [skip, ratchetForward_chain (by omega)]
    simp only [cons_window hout hm]
    rw [ih (fun i hi => Nat.lt_succ_of_lt (htaken i hi)) (by omega) (by omega),
      show head + 1 + n = head + (n + 1) by omega, show m + 1 + n = m + (n + 1) by omega]

lemma answer_ahead (hd : Tracks kdf secret cfg taken d) (hg : g < u32Max)
    (hwithin : Within cfg (headOf taken) g) (hahead : headOf taken ≤ g) :
    ∃ d', d.secretForDecryption kdf g cfg = (.ok (kdf.material secret g), d') ∧
      Tracks kdf secret cfg (g :: taken) d' := by
  obtain ⟨hhead, hpast, hbound⟩ := hd
  obtain ⟨past, head⟩ := d
  subst hhead hpast
  have hnew : headOf (g :: taken) = g + 1 := by rw [headOf_cons]; omega
  have hg' : headOf taken + (g - headOf taken) = g := by omega
  have hskip : skip kdf (g - headOf taken) ⟨window (kdf.material secret) taken (headOf taken)
      (min cfg.outOfOrderTolerance (headOf taken)), ⟨kdf.chain secret (headOf taken),
        headOf taken⟩⟩ = (.ok (), ⟨window (kdf.material secret) taken g
      (min cfg.outOfOrderTolerance (headOf taken) + (g - headOf taken)),
        ⟨kdf.chain secret g, g⟩⟩) := by
    rw [skip_window (fun i hi => lt_headOf hi) (Nat.min_le_right _ _) (by omega), hg']
  have hfuture : ¬ (headOf taken < u32Max - cfg.maximumForwardDistance ∧
      headOf taken + cfg.maximumForwardDistance < g) := fun h => by
    have := hwithin.1
    omega
  have hpast : ¬ (g < headOf taken ∧ cfg.outOfOrderTolerance < headOf taken - g) := by omega
  unfold secretForDecryption
  simp only [generation, if_neg hfuture, if_neg hpast, if_pos hahead, hskip,
    ratchetForward_chain hg]
  refine ⟨_, rfl, by rw [hnew]; rfl, ?_, by omega⟩
  rw [hnew]
  simp only [prunePastSecrets]
  rw [gap_cons_window (by omega), take_window]
  congr 1
  omega

lemma secretForDecryption_past (hold : d.generation ≤ g + cfg.outOfOrderTolerance)
    (hpast : g < d.generation) : d.secretForDecryption kdf g cfg = d.takePast g := by
  have hfuture : ¬ (d.generation < u32Max - cfg.maximumForwardDistance ∧
      d.generation + cfg.maximumForwardDistance < g) := by omega
  have htol : ¬ (g < d.generation ∧ cfg.outOfOrderTolerance < d.generation - g) := by omega
  rw [secretForDecryption, if_neg hfuture, if_neg htol, if_neg (Nat.not_le_of_lt hpast)]

variable (hd : Tracks kdf secret cfg taken d)
include hd

lemma Tracks.entry_past (hold : headOf taken ≤ g + cfg.outOfOrderTolerance)
    (hnear : Near (headOf taken) g) (hpast : g < headOf taken) :
    windowIndex (headOf taken - g) = ((headOf taken - g - 1 : ℕ) : ℤ) ∧
      d.pastSecrets[headOf taken - g - 1]? = some (entry (kdf.material secret) taken g) := by
  simp only [Near] at hnear
  constructor
  · rw [windowIndex_eq (by omega) (by omega)]
    omega
  · rw [hd.past, getElem?_window (by omega),
      show headOf taken - 1 - (headOf taken - g - 1) = g by omega]

lemma Tracks.generation_eq : d.generation = headOf taken := by
  rw [generation, hd.head]

lemma answer_past (hwithin : Within cfg (headOf taken) g) (hnear : Near (headOf taken) g)
    (htaken : g ∉ taken) (hpast : g < headOf taken) :
    ∃ d', d.secretForDecryption kdf g cfg = (.ok (kdf.material secret g), d') ∧
      Tracks kdf secret cfg (g :: taken) d' := by
  obtain ⟨hindex, hread⟩ := hd.entry_past hwithin.2 hnear hpast
  rw [entry, if_neg htaken] at hread
  have hnew : headOf (g :: taken) = headOf taken := by rw [headOf_cons]; omega
  have hgen := hd.generation_eq
  rw [secretForDecryption_past (hgen ▸ hwithin.2) (hgen ▸ hpast), takePast, hgen]
  simp only [hindex, if_neg (Int.not_lt.mpr (Int.natCast_nonneg _)), Int.toNat_natCast, hread]
  refine ⟨_, rfl, by rw [hnew]; exact hd.head, ?_, by rw [hnew]; exact hd.bound⟩
  rw [hnew, ← set_window hpast (Nat.min_le_right _ _), ← hd.past]

lemma refuse (hout : ¬ (Within cfg (headOf taken) g ∧ g ∉ taken ∧ Near (headOf taken) g))
    (hg : g < u32Max) : ∃ e, d.secretForDecryption kdf g cfg = (.error e, d) := by
  have hgen := hd.generation_eq
  have hbound := hd.bound
  by_cases hfuture : d.generation < u32Max - cfg.maximumForwardDistance ∧
      d.generation + cfg.maximumForwardDistance < g
  · exact ⟨.tooDistantInTheFuture, if_pos hfuture⟩
  by_cases hold : g < d.generation ∧ cfg.outOfOrderTolerance < d.generation - g
  · exact ⟨.tooDistantInThePast, (if_neg hfuture).trans (if_pos hold)⟩
  have hwithin : Within cfg (headOf taken) g := ⟨by omega, by omega⟩
  rcases Nat.lt_or_ge g (headOf taken) with hpast | hahead
  swap
  · -- a request ahead of the head is always answered
    refine absurd ⟨hwithin, fun hmem => ?_, ?_⟩ hout
    · have := lt_headOf hmem
      omega
    · simp only [Near]
      omega
  rw [secretForDecryption_past (hgen ▸ hwithin.2) (hgen ▸ hpast), takePast, hgen]
  by_cases hnear : Near (headOf taken) g
  · have htaken : g ∈ taken := by
      by_contra hnot
      exact hout ⟨hwithin, hnot, hnear⟩
    obtain ⟨hindex, hread⟩ := hd.entry_past hwithin.2 hnear hpast
    rw [entry, if_pos htaken] at hread
    refine ⟨.secretReuseError, ?_⟩
    simp only [hindex, if_neg (Int.not_lt.mpr (Int.natCast_nonneg _)), Int.toNat_natCast, hread]
  · have hneg : windowIndex (headOf taken - g) < 0 := by
      simp only [Near] at hnear
      exact windowIndex_neg (by omega) (by omega)
    exact ⟨.tooDistantInThePast, if_pos hneg⟩

/-- **What a ratchet answers**: generations within its bounds and near the head, each once. -/
theorem secretForDecryption_spec (hg : g < u32Max) :
    (Within cfg (headOf taken) g ∧ g ∉ taken ∧ Near (headOf taken) g →
      ∃ d', d.secretForDecryption kdf g cfg = (.ok (kdf.material secret g), d') ∧
        Tracks kdf secret cfg (g :: taken) d') ∧
    (¬ (Within cfg (headOf taken) g ∧ g ∉ taken ∧ Near (headOf taken) g) →
      ∃ e, d.secretForDecryption kdf g cfg = (.error e, d)) := by
  refine ⟨fun ⟨hwithin, htaken, hnear⟩ => ?_, fun hout => refuse hd hout hg⟩
  rcases Nat.lt_or_ge g (headOf taken) with hpast | hahead
  · exact answer_past hd hwithin hnear htaken hpast
  · exact answer_ahead hd hg hwithin hahead

end DecryptionRatchet

end EmulatedMls
