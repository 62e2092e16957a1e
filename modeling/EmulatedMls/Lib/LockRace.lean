import Mathlib.Data.List.Nodup
import Mathlib.Data.List.Perm.Subperm
import Mathlib.Data.List.Range

/-!
# Threads that race for a lock

Every piece of work gets a thread of its own, which takes the lock of its key and works while it
holds it.  The threads of a key are not ordered in any way.  Others may hold the lock in between, a
thread that panics poisons the lock, and a thread that finds a poisoned lock gives up.
-/

namespace EmulatedMls

open List

namespace LockRace

/-- Who holds a lock. -/
inductive Lock where
  | free
  | held (i : ℕ)
  | others
  | poisoned
  deriving DecidableEq, Repr

end LockRace

/-- The threads, the locks, and the order in which the threads have got them. -/
structure LockRace (κ α : Type*) where
  threads : List (κ × α)
  lock : κ → LockRace.Lock
  started : List ℕ
  refused : List ℕ

namespace LockRace

variable {κ α : Type*} {c c' : LockRace κ α} {k : κ} {i j : ℕ}

def empty : LockRace κ α := ⟨[], fun _ => .free, [], []⟩

def spawn (ts : List (κ × α)) (c : LockRace κ α) : LockRace κ α :=
  { c with threads := c.threads ++ ts }

variable (c)

def key (i : ℕ) : Option κ := (c.threads[i]?).map Prod.fst

/-- The thread has neither got the lock nor given up. -/
def Waiting (c : LockRace κ α) (i : ℕ) : Prop :=
  i < c.threads.length ∧ i ∉ c.started ∧ i ∉ c.refused

instance : Decidable (c.Waiting i) := inferInstanceAs (Decidable (_ ∧ _ ∧ _))

variable [DecidableEq κ]

/-- The steps of the threads and of the others that use the locks. -/
inductive Step (κ : Type*) where
  | acquire (i : ℕ)
  | finish (i : ℕ)
  | panic (i : ℕ)
  | hold (k : κ)
  | release (k : κ)

def setLock (k : κ) (l : Lock) : LockRace κ α :=
  { c with lock := Function.update c.lock k l }

/-- A thread gets the lock of its key. -/
def enter (k : κ) (i : ℕ) : LockRace κ α :=
  { c.setLock k (.held i) with started := c.started ++ [i] }

def step : Step κ → Option (LockRace κ α)
  | .acquire i =>
    match c.key i with
    | none => none
    | some k =>
      if c.Waiting i then
        match c.lock k with
        | .free => some (c.enter k i)
        | .poisoned => some { c with refused := c.refused ++ [i] }
        | _ => none
      else none
  | .finish i =>
    match c.key i with
    | none => none
    | some k => if c.lock k = .held i then some (c.setLock k .free) else none
  | .panic i =>
    match c.key i with
    | none => none
    | some k => if c.lock k = .held i then some (c.setLock k .poisoned) else none
  | .hold k => if c.lock k = .free then some (c.setLock k .others) else none
  | .release k => if c.lock k = .others then some (c.setLock k .free) else none

/-! ## What a step can do -/

/-- A step lets a thread in or turns it away, or it changes a lock that is not poisoned. -/
inductive Moves (c : LockRace κ α) : Step κ → LockRace κ α → Prop where
  | acquired {i : ℕ} {k : κ} (hkey : c.key i = some k) (hwait : c.Waiting i)
      (hlock : c.lock k = .free) : Moves c (.acquire i) (c.enter k i)
  | refused {i : ℕ} {k : κ} (hkey : c.key i = some k) (hwait : c.Waiting i)
      (hlock : c.lock k = .poisoned) : Moves c (.acquire i) { c with refused := c.refused ++ [i] }
  | locked {e : Step κ} (k : κ) (l : Lock) (he : ∀ i, e ≠ .acquire i)
      (hlock : c.lock k ≠ .poisoned) : Moves c e (c.setLock k l)

variable {c} {e : Step κ}

lemma step_cases (h : c.step e = some c') : Moves c e c' := by
  cases e with
  | acquire i =>
    simp only [step] at h
    split at h
    · cases h
    · next k hkey =>
      split_ifs at h with hwait
      cases hlock : c.lock k with
      | free => simp only [hlock] at h; cases h; exact .acquired hkey hwait hlock
      | poisoned => simp only [hlock] at h; cases h; exact .refused hkey hwait hlock
      | held j | others => simp [hlock] at h
  | finish i =>
    simp only [step] at h
    split at h
    · cases h
    · next k hkey =>
      split_ifs at h with hlock
      cases h
      exact .locked k .free (by simp) (by simp [hlock])
  | panic i =>
    simp only [step] at h
    split at h
    · cases h
    · next k hkey =>
      split_ifs at h with hlock
      cases h
      exact .locked k .poisoned (by simp) (by simp [hlock])
  | hold k =>
    simp only [step] at h
    split_ifs at h with hlock
    cases h
    exact .locked k .others (by simp) (by simp [hlock])
  | release k =>
    simp only [step] at h
    split_ifs at h with hlock
    cases h
    exact .locked k .free (by simp) (by simp [hlock])

/-! ## The invariant -/

omit [DecidableEq κ] in
lemma key_eq_none_iff : c.key i = none ↔ c.threads.length ≤ i := by
  simp [key]

omit [DecidableEq κ] in
lemma lt_of_key (h : c.key i = some k) : i < c.threads.length := by
  by_contra hlt
  rw [key_eq_none_iff.mpr (not_lt.mp hlt)] at h
  cases h

omit [DecidableEq κ] in
lemma key_spawn (ts : List (κ × α)) (hi : i < c.threads.length) : (c.spawn ts).key i = c.key i := by
  simp only [key, spawn, getElem?_append_left hi]

/-- A thread gets the lock once, and only a poisoned lock refuses a thread. -/
structure Fair (c : LockRace κ α) : Prop where
  nodup : c.started.Nodup
  lt : ∀ i ∈ c.started, i < c.threads.length
  refused : ∀ i ∈ c.refused, ∃ k, c.key i = some k ∧ c.lock k = .poisoned

omit [DecidableEq κ] in
lemma fair_empty : Fair (empty : LockRace κ α) := by
  constructor <;> simp [empty]

omit [DecidableEq κ] in
lemma Fair.spawn (h : Fair c) (ts : List (κ × α)) : Fair (c.spawn ts) := by
  refine ⟨h.nodup, fun i hi => ?_, fun i hi => ?_⟩
  · have hlt := h.lt i hi
    simp only [LockRace.spawn, length_append]
    omega
  · obtain ⟨k, hkey, hlock⟩ := h.refused i hi
    exact ⟨k, (key_spawn ts (lt_of_key hkey)).trans hkey, hlock⟩

lemma Fair.step (h : Fair c) (hs : c.step e = some c') : Fair c' := by
  cases step_cases hs with
  | @acquired i k hkey hwait hlock =>
    refine ⟨?_, ?_, ?_⟩
    · rw [enter, ← concat_eq_append]
      exact h.nodup.concat hwait.2.1
    · intro j hj
      rcases mem_append.mp hj with hj | hj
      · exact h.lt j hj
      · rw [mem_singleton.mp hj]
        exact hwait.1
    · intro j hj
      obtain ⟨k', hkey', hpoisoned⟩ := h.refused j hj
      refine ⟨k', hkey', ?_⟩
      have hne : k' ≠ k := by
        rintro rfl
        simp [hlock] at hpoisoned
      exact (Function.update_of_ne hne ..).trans hpoisoned
  | @refused i k hkey hwait hlock =>
    refine ⟨h.nodup, h.lt, fun j hj => ?_⟩
    rcases mem_append.mp hj with hj | hj
    · exact h.refused j hj
    · rw [mem_singleton.mp hj]
      exact ⟨k, hkey, hlock⟩
  | locked k l he hlock =>
    refine ⟨h.nodup, h.lt, fun j hj => ?_⟩
    obtain ⟨k', hkey', hpoisoned⟩ := h.refused j hj
    refine ⟨k', hkey', ?_⟩
    have hne : k' ≠ k := by
      rintro rfl
      exact hlock hpoisoned
    exact (Function.update_of_ne hne ..).trans hpoisoned

/-! ## Order -/

/-- The threads of a key, in the order in which they were spawned. -/
def threadsOf (c : LockRace κ α) (k : κ) : List ℕ :=
  (List.range c.threads.length).filter (c.key · = some k)

/-- The threads of a key that have got the lock, in that order. -/
def startedOf (c : LockRace κ α) (k : κ) : List ℕ := c.started.filter (c.key · = some k)

/-- The threads of the key have got the lock in the order in which they were spawned. -/
def InOrder (c : LockRace κ α) (k : κ) : Prop := c.startedOf k <+: c.threadsOf k

/-- A thread that gets the lock has no waiting thread of its key before it. -/
def InTurn (c : LockRace κ α) : Step κ → Prop
  | .acquire i => ∀ k, c.key i = some k → c.lock k = .free →
      ∀ j < i, c.key j = some k → ¬ c.Waiting j
  | _ => True

lemma mem_threadsOf : i ∈ c.threadsOf k ↔ c.key i = some k := by
  simp only [threadsOf, mem_filter, mem_range, decide_eq_true_eq]
  exact ⟨And.right, fun h => ⟨lt_of_key h, h⟩⟩

lemma pairwise_threadsOf (c : LockRace κ α) (k : κ) : (c.threadsOf k).Pairwise (· < ·) :=
  pairwise_lt_range.filter _

lemma concat_isPrefix_iff {l m : List ℕ} (hm : m.Pairwise (· < ·)) (hl : l <+: m) (hi : i ∈ m)
    (hnot : i ∉ l) : l ++ [i] <+: m ↔ ∀ j ∈ m, j < i → j ∈ l := by
  obtain ⟨r, rfl⟩ := hl
  constructor
  · rintro ⟨r', hr'⟩ j hj hlt
    rw [append_assoc, append_cancel_left_eq] at hr'
    subst hr'
    rcases mem_append.mp hj with hj | hj
    · exact hj
    · rcases mem_cons.mp hj with rfl | hj
      · exact absurd hlt (lt_irrefl _)
      · have hafter := (pairwise_cons.mp (pairwise_append.mp hm).2.1).1 j hj
        omega
  · intro hfirst
    have hir : i ∈ r := (mem_append.mp hi).resolve_left hnot
    cases r with
    | nil => cases hir
    | cons a r =>
      -- the element after the initial part is not larger than `i`, and it is not in it
      obtain rfl : i = a := by
        rcases mem_cons.mp hir with rfl | hir
        · rfl
        · have hlt : a < i := (pairwise_cons.mp (pairwise_append.mp hm).2.1).1 i hir
          have hmem : a ∈ l := hfirst a (by simp) hlt
          exact absurd ((pairwise_append.mp hm).2.2 a hmem a (by simp)) (lt_irrefl _)
      exact ⟨r, by simp⟩

lemma inOrder_concat_iff (hkey : c.key i = some k) (hnot : i ∉ c.started) (hc : c.InOrder k) :
    c.startedOf k ++ [i] <+: c.threadsOf k ↔ ∀ j < i, c.key j = some k → j ∈ c.started := by
  have hfilter : ∀ j, j ∈ c.startedOf k ↔ j ∈ c.started ∧ c.key j = some k := by
    simp [startedOf]
  rw [concat_isPrefix_iff (c.pairwise_threadsOf k) hc (mem_threadsOf.mpr hkey)
    fun hmem => hnot ((hfilter i).mp hmem).1]
  constructor
  · intro hall j hlt hj
    exact ((hfilter j).mp (hall j (mem_threadsOf.mpr hj) hlt)).1
  · intro hall j hj hlt
    have hj := mem_threadsOf.mp hj
    exact (hfilter j).mpr ⟨hall j hlt hj, hj⟩

lemma startedOf_enter_self (hkey : c.key i = some k) :
    (c.enter k i).startedOf k = c.startedOf k ++ [i] := by
  show (c.started ++ [i]).filter (c.key · = some k) = _
  simp [startedOf, hkey]

lemma startedOf_enter_of_ne {k' : κ} (hkey : c.key i = some k) (hne : k' ≠ k) :
    (c.enter k i).startedOf k' = c.startedOf k' := by
  show (c.started ++ [i]).filter (c.key · = some k') = _
  simp [startedOf, hkey, hne.symm]

lemma inOrder_enter_iff (h : Fair c) (hkey : c.key i = some k) (hwait : c.Waiting i)
    (hlock : c.lock k = .free) (hc : c.InOrder k) :
    (c.enter k i).InOrder k ↔ c.InTurn (.acquire i) := by
  rw [InOrder, startedOf_enter_self hkey]
  refine (inOrder_concat_iff hkey hwait.2.1 hc).trans ⟨?_, ?_⟩
  · intro hall k' hkey' _ j hlt hj hwaiting
    obtain rfl := Option.mem_unique hkey hkey'
    exact hwaiting.2.1 (hall j hlt hj)
  · intro hturn j hlt hj
    by_contra hnot
    refine hturn k hkey hlock j hlt hj ⟨lt_of_key hj, hnot, fun hrefused => ?_⟩
    -- a refused thread would have found this lock poisoned
    obtain ⟨k', hkey', hpoisoned⟩ := h.refused j hrefused
    obtain rfl := Option.mem_unique hj hkey'
    simp [hlock] at hpoisoned

/-- **A step keeps the order exactly if it is in turn.** -/
lemma inOrder_step_iff (h : Fair c) (hs : c.step e = some c') :
    (∀ k, c'.InOrder k) ↔ (∀ k, c.InOrder k) ∧ c.InTurn e := by
  cases step_cases hs with
  | @acquired i k hkey hwait hlock =>
    have hother : ∀ k', k' ≠ k → ((c.enter k i).InOrder k' ↔ c.InOrder k') := by
      intro k' hne
      rw [InOrder, startedOf_enter_of_ne hkey hne]
      rfl
    constructor
    · intro hc'
      have hc : ∀ k', c.InOrder k' := by
        intro k'
        rcases eq_or_ne k' k with rfl | hne
        · have hk := hc' k'
          rw [InOrder, startedOf_enter_self hkey] at hk
          exact (prefix_append _ _).trans hk
        · exact (hother k' hne).mp (hc' k')
      exact ⟨hc, (inOrder_enter_iff h hkey hwait hlock (hc k)).mp (hc' k)⟩
    · rintro ⟨hc, hturn⟩ k'
      rcases eq_or_ne k' k with rfl | hne
      · exact (inOrder_enter_iff h hkey hwait hlock (hc k')).mpr hturn
      · exact (hother k' hne).mpr (hc k')
  | @refused i k hkey hwait hlock =>
    refine (and_iff_left ?_).symm
    intro k' hkey' hfree
    obtain rfl := Option.mem_unique hkey hkey'
    simp [hlock] at hfree
  | locked k l he hlock =>
    refine (and_iff_left ?_).symm
    cases e with
    | acquire i => exact absurd rfl (he i)
    | _ => trivial

lemma threadsOf_spawn (ts : List (κ × α)) (k : κ) :
    ∃ more, (c.spawn ts).threadsOf k = c.threadsOf k ++ more ∧
      ∀ i ∈ more, c.threads.length ≤ i := by
  refine ⟨((List.range ts.length).map (c.threads.length + ·)).filter
    ((c.spawn ts).key · = some k), ?_, fun i hi => ?_⟩
  · have hlen : (c.spawn ts).threads.length = c.threads.length + ts.length := by simp [spawn]
    rw [threadsOf, hlen, range_add, filter_append, threadsOf]
    congr 1
    refine filter_congr fun i hi => ?_
    rw [key_spawn ts (mem_range.mp hi)]
  · obtain ⟨n, -, rfl⟩ := mem_map.mp (mem_of_mem_filter hi)
    exact Nat.le_add_right ..

lemma inOrder_spawn_iff (h : Fair c) (ts : List (κ × α)) (k : κ) :
    (c.spawn ts).InOrder k ↔ c.InOrder k := by
  have hstarted : (c.spawn ts).startedOf k = c.startedOf k := by
    refine filter_congr fun i hi => ?_
    rw [key_spawn ts (h.lt i hi)]
  obtain ⟨more, hmore, hge⟩ := c.threadsOf_spawn ts k
  rw [InOrder, hstarted, hmore]
  refine ⟨fun hc => ?_, fun hc => hc.trans (prefix_append _ _)⟩
  refine prefix_of_prefix_length_le hc (prefix_append _ _) ?_
  refine (subperm_of_subset (h.nodup.filter _) fun i hi => ?_).length_le
  exact mem_threadsOf.mpr (by simpa using (mem_filter.mp hi).2)

/-! ## Work -/

/-- What the threads of a key were spawned for. -/
def spawned (c : LockRace κ α) (k : κ) : List α := (c.threads.filter (·.1 = k)).map Prod.snd

/-- What the threads of a key have worked on, in the order in which they got the lock. -/
def worked (c : LockRace κ α) (k : κ) : List α :=
  (c.startedOf k).filterMap fun i => (c.threads[i]?).map Prod.snd

lemma filterMap_threadsOf (c : LockRace κ α) (k : κ) :
    (c.threadsOf k).filterMap (fun i => (c.threads[i]?).map Prod.snd) = c.spawned k := by
  have hall : ∀ ts : List (κ × α),
      ((List.range ts.length).filter fun i => (ts[i]?).map Prod.fst = some k).filterMap
        (fun i => (ts[i]?).map Prod.snd) = (ts.filter (·.1 = k)).map Prod.snd := by
    intro ts
    induction ts using List.reverseRecOn with
    | nil => rfl
    | append_singleton ts t ih =>
      have hold : ∀ i ∈ List.range ts.length, (ts ++ [t])[i]? = ts[i]? := fun i hi =>
        getElem?_append_left (mem_range.mp hi)
      rw [length_append, length_singleton, range_succ, filter_append,
        filterMap_append, filter_append, map_append, ← ih]
      congr 1
      · rw [filter_congr fun i hi => by rw [hold i hi]]
        exact filterMap_congr fun i hi => by rw [hold i (mem_of_mem_filter hi)]
      · by_cases hk : t.1 = k <;> simp [hk]
  exact hall c.threads

/-- **What is worked on in order is an initial part of what was spawned.** -/
lemma InOrder.worked_isPrefix (h : c.InOrder k) : c.worked k <+: c.spawned k := by
  rw [← filterMap_threadsOf]
  exact h.filterMap _

end LockRace

end EmulatedMls
