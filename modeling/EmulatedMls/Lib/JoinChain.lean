import Mathlib.Data.List.Nodup
import Mathlib.Data.Nat.Find
import Mathlib.Order.MinMax

/-!
# Threads that join their predecessors

Work for a key is given to threads.  A new thread takes over the handle of the last thread of its
key, joins that thread, takes the lock of the key and runs.  Others may hold the lock in between.
A thread that panics poisons the lock, and a thread that joins a panicked one panics as well.
-/

namespace EmulatedMls

open Function List Option

namespace JoinChain

/-- Where a thread is. -/
inductive Phase where
  | joining
  | ready
  | running
  | done
  | panicked
  deriving DecidableEq, Repr

/-- Who holds a lock. -/
inductive Lock where
  | free
  | thread
  | others
  | poisoned
  deriving DecidableEq, Repr

/-- A thread, with the handle of the thread that it joins. -/
structure Thread (κ α : Type*) where
  key : κ
  item : α
  previous : Option ℕ

end JoinChain

/-- The threads in the order of their spawning, the handles and locks, and what is finished. -/
structure JoinChain (κ α : Type*) where
  threads : List (JoinChain.Thread κ α)
  phase : ℕ → JoinChain.Phase
  handles : κ → Option ℕ
  lock : κ → JoinChain.Lock
  finished : κ → List α

namespace JoinChain

variable {κ α : Type*} [DecidableEq κ] {c c' : JoinChain κ α} {k k' : κ}

def empty : JoinChain κ α := ⟨[], fun _ => .joining, fun _ => none, fun _ => .free, fun _ => []⟩

/-- A new thread, which takes over the handle of the last one. -/
def spawn (a : α) (c : JoinChain κ α) (k : κ) : JoinChain κ α :=
  { c with
    threads := c.threads ++ [⟨k, a, c.handles k⟩]
    handles := Function.update c.handles k (some c.threads.length) }

/-- One new thread for each key of a list. -/
def spawnAll (a : α) (ks : List κ) (c : JoinChain κ α) : JoinChain κ α := ks.foldl (spawn a) c

variable (c)

/-- What the threads of a key were spawned for. -/
def spawned (k : κ) : List α :=
  (c.threads.filter (·.key = k)).map (·.item)

/-- The steps of the threads and of the others that use the locks. -/
inductive Step (κ : Type*) where
  | join (i : ℕ)
  | acquire (i : ℕ)
  | finish (i : ℕ)
  | panic (i : ℕ)
  | hold (k : κ)
  | release (k : κ)

def setPhase (i : ℕ) (p : Phase) : JoinChain κ α :=
  { c with phase := Function.update c.phase i p }

def setLock (k : κ) (l : Lock) : JoinChain κ α :=
  { c with lock := Function.update c.lock k l }

/-- The phase of a thread after it has tried to join its predecessor. -/
def joined (t : Thread κ α) : Option Phase :=
  match t.previous with
  | none => some .ready
  | some j =>
    match c.phase j with
    | .done => some .ready
    | .panicked => some .panicked
    | _ => none

def step : Step κ → Option (JoinChain κ α)
  | .join i =>
    match c.threads[i]?, c.phase i with
    | some t, .joining => (c.joined t).map (c.setPhase i)
    | _, _ => none
  | .acquire i =>
    match c.threads[i]?, c.phase i with
    | some t, .ready =>
      match c.lock t.key with
      | .free => some ((c.setPhase i .running).setLock t.key .thread)
      | .poisoned => some (c.setPhase i .panicked)
      | _ => none
    | _, _ => none
  | .finish i =>
    match c.threads[i]?, c.phase i with
    | some t, .running => some { (c.setPhase i .done).setLock t.key .free with
        finished := Function.update c.finished t.key (c.finished t.key ++ [t.item]) }
    | _, _ => none
  | .panic i =>
    match c.threads[i]?, c.phase i with
    | some t, .running => some ((c.setPhase i .panicked).setLock t.key .poisoned)
    | _, _ => none
  | .hold k => if c.lock k = .free then some (c.setLock k .others) else none
  | .release k => if c.lock k = .others then some (c.setLock k .free) else none

/-! ## What a step can do -/

/-- A step moves one thread on, or only changes a lock that no thread holds. -/
inductive Moves (c : JoinChain κ α) : Step κ → JoinChain κ α → Prop where
  | joined {i : ℕ} {t : Thread κ α} {p : Phase} (ht : c.threads[i]? = some t)
      (hp : c.phase i = .joining) (hjoin : c.joined t = some p) :
      Moves c (.join i) (c.setPhase i p)
  | acquired {i : ℕ} {t : Thread κ α} (ht : c.threads[i]? = some t) (hp : c.phase i = .ready)
      (hlock : c.lock t.key = .free) :
      Moves c (.acquire i) ((c.setPhase i .running).setLock t.key .thread)
  | refused {i : ℕ} {t : Thread κ α} (ht : c.threads[i]? = some t) (hp : c.phase i = .ready)
      (hlock : c.lock t.key = .poisoned) : Moves c (.acquire i) (c.setPhase i .panicked)
  | finished {i : ℕ} {t : Thread κ α} (ht : c.threads[i]? = some t) (hp : c.phase i = .running) :
      Moves c (.finish i) { (c.setPhase i .done).setLock t.key .free with
        finished := Function.update c.finished t.key (c.finished t.key ++ [t.item]) }
  | panicked {i : ℕ} {t : Thread κ α} (ht : c.threads[i]? = some t) (hp : c.phase i = .running) :
      Moves c (.panic i) ((c.setPhase i .panicked).setLock t.key .poisoned)
  | held {e : Step κ} (k : κ) (l : Lock) (hlock : c.lock k ≠ .thread)
      (hl : l = .others ∨ l = .free) : Moves c e (c.setLock k l)

variable {c} {e : Step κ} {p : Phase} {t : Thread κ α} {i : ℕ}

lemma step_cases (h : c.step e = some c') : Moves c e c' := by
  cases e with
  | join i =>
    simp only [step] at h
    split at h
    · next t ht hp =>
      obtain ⟨p, hjoin, rfl⟩ := map_eq_some_iff.mp h
      exact .joined ht hp hjoin
    · cases h
  | acquire i =>
    simp only [step] at h
    split at h
    · next t ht hp =>
      cases hlock : c.lock t.key with
      | free => simp only [hlock] at h; cases h; exact .acquired ht hp hlock
      | poisoned => simp only [hlock] at h; cases h; exact .refused ht hp hlock
      | thread | others => simp [hlock] at h
    · cases h
  | finish i =>
    simp only [step] at h
    split at h
    · next t ht hp => cases h; exact .finished ht hp
    · cases h
  | panic i =>
    simp only [step] at h
    split at h
    · next t ht hp => cases h; exact .panicked ht hp
    · cases h
  | hold k =>
    simp only [step] at h
    split_ifs at h with hlock
    cases h
    exact .held k .others (by simp [hlock]) (.inl rfl)
  | release k =>
    simp only [step] at h
    split_ifs at h with hlock
    cases h
    exact .held k .free (by simp [hlock]) (.inr rfl)

lemma threads_step (h : c.step e = some c') : c'.threads = c.threads := by
  cases step_cases h <;> rfl

lemma spawned_step (h : c.step e = some c') : c'.spawned k = c.spawned k := by
  rw [spawned, threads_step h, spawned]

omit [DecidableEq κ] in
lemma joined_eq_some (h : c.joined t = some p) : p = .ready ∨ p = .panicked := by
  unfold joined at h
  split at h
  · exact .inl (some.inj h).symm
  · split at h
    · exact .inl (some.inj h).symm
    · exact .inr (some.inj h).symm
    · cases h

/-! ## Handles -/

/-- The number of the last thread of a key among some threads. -/
def LastOf (k : κ) (ts : List (Thread κ α)) : Option ℕ → Prop
  | none => ∀ t ∈ ts, t.key ≠ k
  | some j => ∃ t, ts[j]? = some t ∧ t.key = k ∧
      ∀ i t', j < i → ts[i]? = some t' → t'.key ≠ k

/-- Each thread joins the last thread before it, and each handle is that of the last one. -/
structure Linked (c : JoinChain κ α) : Prop where
  handle : ∀ k, LastOf k c.threads (c.handles k)
  previous : ∀ i t, c.threads[i]? = some t → LastOf t.key (c.threads.take i) t.previous
  fresh : ∀ i, c.threads.length ≤ i → c.phase i = .joining

omit [DecidableEq κ] in
lemma linked_empty : Linked (empty : JoinChain κ α) := by
  constructor <;> simp [empty, LastOf]

variable {a : α}

lemma getElem?_spawn :
    (c.spawn a k).threads[i]? = some t ↔
      c.threads[i]? = some t ∨ (i = c.threads.length ∧ t = ⟨k, a, c.handles k⟩) := by
  rcases Nat.lt_trichotomy i c.threads.length with hi | rfl | hi
  · simp [spawn, getElem?_append_left hi, hi.ne]
  · simp [spawn, eq_comm]
  · simp [spawn, hi.ne', List.getElem?_eq_none_iff.mpr hi.le, getElem?_append_right hi.le,
      Nat.sub_ne_zero_of_lt hi]

omit [DecidableEq κ] in
lemma lt_length_of_getElem? (h : c.threads[i]? = some t) :
    i < c.threads.length := (List.getElem?_eq_some_iff.mp h).1

lemma LastOf.spawn_other {h : Option ℕ} (hlast : LastOf k' c.threads h) (hk : k ≠ k') :
    LastOf k' (c.spawn a k).threads h := by
  cases h with
  | none =>
    intro t ht
    rcases mem_append.mp ht with ht | ht
    · exact hlast t ht
    · rw [mem_singleton.mp ht]
      exact hk
  | some j =>
    obtain ⟨t, ht, hkey, hafter⟩ := hlast
    refine ⟨t, getElem?_spawn.mpr (.inl ht), hkey, fun i t' hi ht' => ?_⟩
    rcases getElem?_spawn.mp ht' with ht' | ⟨-, rfl⟩
    · exact hafter i t' hi ht'
    · exact hk

lemma Linked.spawn (h : Linked c) (a : α) (k : κ) : Linked (c.spawn a k) := by
  refine ⟨fun k' => ?_, fun i t ht => ?_, fun i hi => ?_⟩
  · by_cases hk : k' = k
    · subst hk
      rw [show (c.spawn a k').handles k' = some c.threads.length from update_self ..]
      refine ⟨_, getElem?_spawn.mpr (.inr ⟨rfl, rfl⟩), rfl, fun i t' hi ht' => ?_⟩
      rcases getElem?_spawn.mp ht' with ht' | ⟨rfl, -⟩
      · exact absurd (lt_length_of_getElem? ht') (by omega)
      · exact absurd hi (lt_irrefl _)
    · rw [show (c.spawn a k).handles k' = c.handles k' from update_of_ne hk ..]
      exact (h.handle k').spawn_other (Ne.symm hk)
  · rcases getElem?_spawn.mp ht with ht | ⟨rfl, rfl⟩
    · have hi := lt_length_of_getElem? ht
      simp only [JoinChain.spawn, take_append_of_le_length hi.le]
      exact h.previous i t ht
    · simp only [JoinChain.spawn, take_left]
      exact h.handle k
  · refine h.fresh i ?_
    simp only [JoinChain.spawn, length_append, length_singleton] at hi
    omega

lemma Linked.step (h : Linked c) (hs : c.step e = some c') : Linked c' := by
  have hfresh : ∀ i t p, c.threads[i]? = some t → ∀ j, c.threads.length ≤ j →
      Function.update c.phase i p j = .joining := by
    intro i t p ht j hj
    have hi := lt_length_of_getElem? ht
    exact (update_of_ne (by omega) ..).trans (h.fresh j hj)
  cases step_cases hs with
  | joined ht hp hx | acquired ht hp hx | refused ht hp hx =>
    exact ⟨h.handle, h.previous, hfresh _ _ _ ht⟩
  | finished ht hp | panicked ht hp => exact ⟨h.handle, h.previous, hfresh _ _ _ ht⟩
  | held k l hlock hl => exact ⟨h.handle, h.previous, h.fresh⟩

/-! ## Turns -/

/-- The threads of a key below `b` are done, and only the first of the others may have joined. -/
structure InTurn (c : JoinChain κ α) (k : κ) (b : ℕ) : Prop where
  le : b ≤ c.threads.length
  done_iff : ∀ i t, c.threads[i]? = some t → t.key = k → (c.phase i = .done ↔ i < b)
  next : ∀ i t, c.threads[i]? = some t → t.key = k → c.phase i = .ready ∨ c.phase i = .running →
    ∀ i' t', b ≤ i' → i' < i → c.threads[i']? = some t' → t'.key ≠ k
  finished : c.finished k = ((c.threads.take b).filter (·.key = k)).map (·.item)

variable {b : ℕ}

lemma inTurn_empty (k : κ) : InTurn (empty : JoinChain κ α) k 0 := by
  constructor <;> simp [empty]

lemma InTurn.spawn (h : InTurn c k b) (hlinked : Linked c) (a : α) (k' : κ) :
    InTurn (c.spawn a k') k b := by
  refine ⟨?_, fun i t ht hkey => ?_, fun i t ht hkey hphase i' t' hb hi' ht' => ?_, ?_⟩
  · have hle := h.le
    simp only [JoinChain.spawn, length_append]
    omega
  · rcases getElem?_spawn.mp ht with ht | ⟨rfl, -⟩
    · exact h.done_iff i t ht hkey
    · have hjoining : (c.spawn a k').phase c.threads.length = .joining := hlinked.fresh _ le_rfl
      rw [hjoining]
      exact iff_of_false (by simp) (not_lt.mpr h.le)
  · rcases getElem?_spawn.mp ht with ht | ⟨rfl, -⟩
    · rcases getElem?_spawn.mp ht' with ht' | ⟨rfl, -⟩
      · exact h.next i t ht hkey hphase i' t' hb hi' ht'
      · exact absurd (lt_length_of_getElem? ht) (by omega)
    · have hjoining : (c.spawn a k').phase c.threads.length = .joining := hlinked.fresh _ le_rfl
      simp [hjoining] at hphase
  · simp only [JoinChain.spawn, take_append_of_le_length h.le]
    exact h.finished

/-- A thread of another key has moved, or one that is not done and has its turn if it goes on. -/
lemma InTurn.moved (h : InTurn c k b) (ht : c.threads[i]? = some t)
    (hmove : t.key = k → c.phase i ≠ .done ∧ p ≠ .done ∧ (p = .ready ∨ p = .running →
      ∀ i' t', b ≤ i' → i' < i → c.threads[i']? = some t' → t'.key ≠ k))
    (hthreads : c'.threads = c.threads) (hphase : c'.phase = Function.update c.phase i p)
    (hfinished : c'.finished k = c.finished k) : InTurn c' k b := by
  refine ⟨hthreads ▸ h.le, fun j t' ht' hkey => ?_, fun j t' ht' hkey hready => ?_, ?_⟩
  · rw [hthreads] at ht'
    rw [hphase, ← h.done_iff j t' ht' hkey]
    rcases eq_or_ne j i with rfl | hne
    · obtain rfl := mem_unique ht ht'
      obtain ⟨hbefore, hp, -⟩ := hmove hkey
      rw [update_self]
      exact iff_of_false hp hbefore
    · rw [update_of_ne hne]
  · rw [hthreads] at ht' ⊢
    rw [hphase] at hready
    rcases eq_or_ne j i with rfl | hne
    · obtain rfl := mem_unique ht ht'
      rw [update_self] at hready
      exact (hmove hkey).2.2 hready
    · rw [update_of_ne hne] at hready
      exact h.next j t' ht' hkey hready
  · rw [hfinished, hthreads, h.finished]

lemma InTurn.turn_of_joined (h : InTurn c k b) (hlinked : Linked c) (ht : c.threads[i]? = some t)
    (hkey : t.key = k) (hjoin : c.joined t = some .ready) :
    ∀ i' t', b ≤ i' → i' < i → c.threads[i']? = some t' → t'.key ≠ k := by
  subst hkey
  intro i' t' hb hi' ht'
  have htake : (c.threads.take i)[i']? = some t' := by rw [getElem?_take_of_lt hi', ht']
  have hlast := hlinked.previous i t ht
  cases hprev : t.previous with
  | none =>
    rw [hprev] at hlast
    exact hlast t' (mem_of_getElem? htake)
  | some j =>
    rw [hprev] at hlast
    obtain ⟨t0, ht0, hkey0, hafter⟩ := hlast
    have hdone : c.phase j = .done := by
      simp only [joined, hprev] at hjoin
      split at hjoin <;> simp_all
    -- the predecessor is done, so it is below `b`, and no thread of the key comes after it
    have hj : c.threads[j]? = some t0 := by
      rw [getElem?_take] at ht0
      split_ifs at ht0
      exact ht0
    have hlt : j < b := (h.done_iff j t0 hj hkey0).mp hdone
    exact hafter i' t' (by omega) htake

lemma filter_take_eq (hb : b ≤ i)
    (hnone : ∀ i' t', b ≤ i' → i' < i → c.threads[i']? = some t' → t'.key ≠ k) :
    (c.threads.take i).filter (·.key = k) = (c.threads.take b).filter (·.key = k) := by
  have hsplit : c.threads.take i = c.threads.take b ++ (c.threads.take i).drop b := by
    have hall := take_append_drop b (c.threads.take i)
    rw [take_take, min_eq_left hb] at hall
    exact hall.symm
  have hrest : ((c.threads.take i).drop b).filter (·.key = k) = [] := by
    refine filter_eq_nil_iff.mpr fun t ht => ?_
    obtain ⟨n, hn⟩ := mem_iff_getElem?.mp ht
    rw [getElem?_drop, getElem?_take] at hn
    split_ifs at hn with hlt
    simpa using hnone (b + n) t (Nat.le_add_right b n) hlt hn
  rw [hsplit, filter_append, hrest, append_nil]

section

variable (h : InTurn c k b)
include h

lemma InTurn.finish (ht : c.threads[i]? = some t) (hkey : t.key = k)
    (hp : c.phase i = .running) (hthreads : c'.threads = c.threads)
    (hphase : c'.phase = Function.update c.phase i .done)
    (hfinished : c'.finished k = c.finished k ++ [t.item]) : InTurn c' k (i + 1) := by
  have hlt := lt_length_of_getElem? ht
  have hnext := h.next i t ht hkey (.inr hp)
  have hle : b ≤ i := by
    by_contra hlt
    have hdone := (h.done_iff i t ht hkey).mpr (not_le.mp hlt)
    simp [hp] at hdone
  refine ⟨by rw [hthreads]; omega, fun j t' ht' hkey' => ?_, fun j t' ht' hkey' hready => ?_, ?_⟩
  · rw [hthreads] at ht'
    rcases eq_or_ne j i with rfl | hne
    · simp [hphase]
    · rw [hphase, update_of_ne hne, h.done_iff j t' ht' hkey']
      refine ⟨fun hj => by omega, fun hj => ?_⟩
      by_contra hb
      exact hnext j t' (not_lt.mp hb) (by omega) ht' hkey'
  · rw [hthreads] at ht'
    rcases eq_or_ne j i with rfl | hne
    · simp [hphase] at hready
    · rw [hphase, update_of_ne hne] at hready
      intro i' t'' hi' hij
      rw [hthreads]
      exact h.next j t' ht' hkey' hready i' t'' (by omega) hij
  · have htake : c.threads.take (i + 1) = c.threads.take i ++ [t] := by
      rw [take_add_one, ht, toList_some]
    rw [hfinished, hthreads, htake, filter_append, filter_take_eq hle hnext, h.finished]
    simp [hkey]

lemma InTurn.step (hlinked : Linked c) (hs : c.step e = some c') :
    ∃ b', InTurn c' k b' := by
  cases step_cases hs with
  | @joined i t p ht hp hjoin =>
    refine ⟨b, h.moved ht (fun hkey => ?_) rfl rfl rfl⟩
    obtain rfl | rfl := joined_eq_some hjoin
    · exact ⟨by simp [hp], by simp, fun _ => h.turn_of_joined hlinked ht hkey hjoin⟩
    · exact ⟨by simp [hp], by simp, by simp⟩
  | @acquired i t ht hp hlock =>
    refine ⟨b, h.moved ht (fun hkey => ⟨by simp [hp], by simp, fun _ => ?_⟩) rfl rfl rfl⟩
    exact h.next i t ht hkey (.inl hp)
  | refused ht hp hlock | panicked ht hp =>
    exact ⟨b, h.moved ht (fun _ => ⟨by simp [hp], by simp, by simp⟩) rfl rfl rfl⟩
  | @finished i t ht hp =>
    by_cases hkey : t.key = k
    · exact ⟨i + 1, h.finish ht hkey hp rfl rfl (by simp [hkey])⟩
    · exact ⟨b, h.moved ht (fun heq => absurd heq hkey) rfl rfl (update_of_ne (Ne.symm hkey) ..)⟩
  | held k' l hlock hl => exact ⟨b, h.le, h.done_iff, h.next, h.finished⟩

/-- **First in, first out.** -/
lemma InTurn.finished_isPrefix : c.finished k <+: c.spawned k := by
  rw [h.finished]
  exact ((List.take_prefix b c.threads).filter _).map _

lemma InTurn.finished_eq
    (hdone : ∀ i t, c.threads[i]? = some t → t.key = k → c.phase i = .done) :
    c.finished k = c.spawned k := by
  have hnone : ∀ i' t', b ≤ i' → i' < c.threads.length → c.threads[i']? = some t' → t'.key ≠ k := by
    intro i' t' hb _ ht' hkey
    exact absurd ((h.done_iff i' t' ht' hkey).mp (hdone i' t' ht' hkey)) (not_lt.mpr hb)
  rw [h.finished, spawned, ← filter_take_eq h.le hnone, take_length]

end

/-! ## Progress -/

/-- Some thread of the key is in the phase. -/
def HasPhase (c : JoinChain κ α) (k : κ) (p : Phase) : Prop :=
  ∃ i t, c.threads[i]? = some t ∧ t.key = k ∧ c.phase i = p

omit [DecidableEq κ] in
lemma HasPhase.setPhase {q : Phase} (h : HasPhase c k p) (ht : c.threads[i]? = some t)
    (hother : c.phase i ≠ p ∨ t.key ≠ k) : HasPhase (c.setPhase i q) k p := by
  obtain ⟨j, t', ht', hkey, hp⟩ := h
  refine ⟨j, t', ht', hkey, ?_⟩
  have hne : j ≠ i := by
    rintro rfl
    obtain rfl := mem_unique ht ht'
    exact hother.elim (fun hne => hne hp) fun hne => hne hkey
  exact (update_of_ne hne ..).trans hp

/-- A lock that is held by a thread is held by a running one. -/
def Locked (c : JoinChain κ α) (k : κ) : Prop := c.lock k = .thread → HasPhase c k .running

lemma Locked.step (h : Locked c k) (hs : c.step e = some c') : Locked c' k := by
  cases step_cases hs with
  | joined ht hp hjoin => exact fun hlock => (h hlock).setPhase ht (.inl (by simp [hp]))
  | refused ht hp hlock => exact fun hheld => (h hheld).setPhase ht (.inl (by simp [hp]))
  | @acquired i t ht hp hlock =>
    intro hheld
    by_cases hkey : t.key = k
    · exact ⟨i, t, ht, hkey, update_self ..⟩
    · have hsame := (update_of_ne (Ne.symm hkey) ..).symm.trans hheld
      exact (h hsame).setPhase ht (.inr hkey)
  | @finished i t ht hp | @panicked i t ht hp =>
    intro hheld
    by_cases hkey : t.key = k
    · simp [setLock, hkey] at hheld
    · have hsame := (update_of_ne (Ne.symm hkey) ..).symm.trans hheld
      exact (h hsame).setPhase ht (.inr hkey)
  | held k' l hlock hl =>
    intro hheld
    by_cases hkey : k = k'
    · subst hkey
      obtain rfl | rfl := hl <;> simp [setLock] at hheld
    · exact h ((update_of_ne hkey ..).symm.trans hheld)

lemma Locked.spawn (h : Locked c k) (a : α) (k' : κ) : Locked (c.spawn a k') k := by
  intro hheld
  obtain ⟨i, t, ht, hkey, hp⟩ := h hheld
  exact ⟨i, t, getElem?_spawn.mpr (.inl ht), hkey, hp⟩

structure Calm (c : JoinChain κ α) : Prop where
  phase : ∀ i, c.phase i ≠ .panicked
  lock : ∀ k, c.lock k ≠ .poisoned

omit [DecidableEq κ] in
lemma Calm.setPhase (h : Calm c) (hp : p ≠ .panicked) : Calm (c.setPhase i p) := by
  refine ⟨(forall_update_iff c.phase fun _ q => q ≠ .panicked).mpr ?_, h.lock⟩
  exact ⟨hp, fun j _ => h.phase j⟩

lemma Calm.setLock {l : Lock} (h : Calm c) (k : κ) (hl : l ≠ .poisoned) : Calm (c.setLock k l) := by
  refine ⟨h.phase, (forall_update_iff c.lock fun _ m => m ≠ .poisoned).mpr ?_⟩
  exact ⟨hl, fun k' _ => h.lock k'⟩

lemma Calm.step (h : Calm c) (he : ∀ i, e ≠ .panic i) (hs : c.step e = some c') : Calm c' := by
  cases step_cases hs with
  | @joined i t p ht hp hjoin =>
    refine h.setPhase ?_
    rintro rfl
    unfold joined at hjoin
    split at hjoin
    · simp at hjoin
    · split at hjoin
      · simp at hjoin
      · next hprev => exact h.phase _ hprev
      · cases hjoin
  | acquired ht hp hlock => exact (h.setPhase (by simp)).setLock _ (by simp)
  | refused ht hp hlock => exact absurd hlock (h.lock _)
  | @finished i t ht hp =>
    have hmoved : Calm ((c.setPhase i .done).setLock t.key .free) :=
      (h.setPhase (by simp)).setLock _ (by simp)
    exact ⟨hmoved.phase, hmoved.lock⟩
  | panicked ht hp => exact absurd rfl (he _)
  | held k l hlock hl => exact h.setLock k (by obtain rfl | rfl := hl <;> simp)

lemma exists_first (hrest : ∃ i t, c.threads[i]? = some t ∧ t.key = k ∧ c.phase i ≠ .done) :
    ∃ i t, c.threads[i]? = some t ∧ t.key = k ∧ c.phase i ≠ .done ∧
      ∀ i' t', i' < i → c.threads[i']? = some t' → t'.key = k → c.phase i' = .done := by
  classical
  obtain ⟨t, ht, hkey, hp⟩ := Nat.find_spec hrest
  refine ⟨Nat.find hrest, t, ht, hkey, hp, fun i' t' hi' ht' hkey' => ?_⟩
  by_contra hp'
  exact Nat.find_min hrest hi' ⟨t', ht', hkey', hp'⟩

/-- **Some thread can go on** as long as one is not done and no lock is held by others. -/
lemma InTurn.exists_step (h : InTurn c k b) (hlinked : Linked c) (hlocked : Locked c k)
    (hcalm : Calm c) (hothers : c.lock k ≠ .others)
    (hrest : ∃ i t, c.threads[i]? = some t ∧ t.key = k ∧ c.phase i ≠ .done) :
    ∃ i, (c.step (.join i)).isSome ∨ (c.step (.acquire i)).isSome ∨
      (c.step (.finish i)).isSome := by
  obtain ⟨i, t, ht, hkey, hp, hfirst⟩ := exists_first hrest
  refine ⟨i, ?_⟩
  cases hphase : c.phase i with
  | done => exact absurd hphase hp
  | panicked => exact absurd hphase (hcalm.phase i)
  | running => exact .inr (.inr (by simp [JoinChain.step, ht, hphase]))
  | joining =>
    have hlast := hlinked.previous i t ht
    cases hprev : t.previous with
    | none => simp [JoinChain.step, ht, hphase, joined, hprev]
    | some j =>
      rw [hprev] at hlast
      obtain ⟨t', ht', hkey', -⟩ := hlast
      rw [getElem?_take] at ht'
      split_ifs at ht' with hj
      have hdone := hfirst j t' hj ht' (hkey'.trans hkey)
      simp [JoinChain.step, ht, hphase, joined, hprev, hdone]
  | ready =>
    have hfree : c.lock t.key = .free := by
      rw [hkey]
      cases hlock : c.lock k with
      | free => rfl
      | others => exact absurd hlock hothers
      | poisoned => exact absurd hlock (hcalm.lock k)
      | thread =>
        -- the holder is running, and both threads are the next one of the key
        obtain ⟨j, t', ht', hkey', hrunning⟩ := hlocked hlock
        have hnot : c.phase j ≠ .done := by simp [hrunning]
        rcases Nat.lt_trichotomy i j with hij | rfl | hij
        · have hb : b ≤ i := not_lt.mp fun hlt => hp ((h.done_iff i t ht hkey).mpr hlt)
          exact absurd hkey (h.next j t' ht' hkey' (.inr hrunning) i t hb hij ht)
        · simp [hphase] at hrunning
        · exact absurd (hfirst j t' hij ht' hkey') hnot
    simp [JoinChain.step, ht, hphase, hfree]

/-! ## Several threads at once -/

lemma spawned_spawn (a : α) (k' : κ) :
    (c.spawn a k').spawned k = c.spawned k ++ if k' = k then [a] else [] := by
  by_cases hk : k' = k <;> simp [spawned, spawn, hk]

lemma spawned_spawnAll (a : α) {ks : List κ} (hks : ks.Nodup) (c : JoinChain κ α) :
    (c.spawnAll a ks).spawned k = c.spawned k ++ if k ∈ ks then [a] else [] := by
  induction ks generalizing c with
  | nil => simp [spawnAll]
  | cons k' ks ih =>
    obtain ⟨hnot, hks⟩ := nodup_cons.mp hks
    change ((c.spawn a k').spawnAll a ks).spawned k = _
    rw [ih hks, spawned_spawn, append_assoc]
    rcases eq_or_ne k' k with rfl | hne
    · simp [hnot]
    · simp [hne, hne.symm]

lemma Calm.spawnAll (h : Calm c) (a : α) (ks : List κ) : Calm (c.spawnAll a ks) :=
  List.foldlRecOn ks _ h fun _ hc _ _ => ⟨hc.phase, hc.lock⟩

/-! ## The invariant -/

/-- Threads are linked, and every key has its turns. -/
structure Orderly (c : JoinChain κ α) : Prop where
  linked : Linked c
  turn : ∀ k, ∃ b, InTurn c k b
  locked : ∀ k, Locked c k

lemma orderly_empty : Orderly (empty : JoinChain κ α) :=
  ⟨linked_empty, fun k => ⟨0, inTurn_empty k⟩, fun k hk => by simp [empty] at hk⟩

lemma Orderly.spawn (h : Orderly c) (a : α) (k' : κ) : Orderly (c.spawn a k') := by
  refine ⟨h.linked.spawn a k', fun k => ?_, fun k => (h.locked k).spawn a k'⟩
  obtain ⟨b, hb⟩ := h.turn k
  exact ⟨b, hb.spawn h.linked a k'⟩

lemma Orderly.spawnAll (h : Orderly c) (a : α) (ks : List κ) : Orderly (c.spawnAll a ks) :=
  List.foldlRecOn ks _ h fun _ hc k _ => hc.spawn a k

lemma Orderly.step (h : Orderly c) (hs : c.step e = some c') : Orderly c' := by
  refine ⟨h.linked.step hs, fun k => ?_, fun k => (h.locked k).step hs⟩
  obtain ⟨b, hb⟩ := h.turn k
  exact hb.step h.linked hs

end JoinChain

end EmulatedMls
