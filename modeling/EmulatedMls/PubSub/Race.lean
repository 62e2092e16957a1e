import EmulatedMls.Lib.LockRace
import EmulatedMls.PubSub.GossipSub

/-!
# Messages out of order

On GossipSub `deliver_to_users` spawns a thread for each user that lists the topic and keeps no
handle of it.  The thread takes the lock of the user and calls `parse_message`.  When several
threads of a user wait, any of them may get the lock next, so a commit can overtake the proposal or
the commit before it.

**Source.**  `handle_gossipsub_event` and `deliver_to_users` of
`emulated_client/src/pubsub/gossipsub_updater.rs`.

**Threads.**  The threads of all users are a `LockRace`.  `handed` of the updater says for whom and
for which message they were spawned.  An agent takes the lock of its user at any time, and a thread
in which `parse_message` panics or fails poisons it.
-/

namespace EmulatedMls.Updater

open List

/-- A process on GossipSub with the threads of `deliver_to_users`. -/
structure Racing (μ : Type) where
  process : GossipSub μ
  race : LockRace String (Delivery μ)

namespace Racing

variable {μ : Type} {s s' : Racing μ}

def new (users : List String) (h : users.Nodup) : Racing μ := ⟨.new users h, .empty⟩

/-- The updater handles a command or a message, or a thread makes a step. -/
inductive Event (μ : Type) where
  | updater (e : GossipSub.Event μ)
  | thread (e : LockRace.Step String)

/-- The updater spawns the threads of the messages that it hands over. -/
def update (s : Racing μ) (process : GossipSub μ) : Racing μ :=
  ⟨process, s.race.spawn (process.handed.drop s.process.handed.length)⟩

def step (s : Racing μ) : Event μ → Option (Racing μ)
  | .updater e => (s.process.step e).map s.update
  | .thread e => (s.race.step e).map fun race => { s with race := race }

/-- No thread gets the lock of its user while an earlier thread of this user waits for it. -/
def InTurn (s : Racing μ) : Event μ → Prop
  | .updater _ => True
  | .thread e => s.race.InTurn e

/-- The messages of the user are processed in the order of the calls of `deliver_to_users`. -/
def InOrder (s : Racing μ) (user : String) : Prop := s.race.InOrder user

def processed (s : Racing μ) (user : String) : List (Delivery μ) := s.race.worked user

end Racing

def racing (μ : Type) : Machine (Racing μ) (Racing.Event μ) where
  init s := ∃ users h, s = Racing.new users h
  step := Racing.step

namespace GossipSub

variable {μ : Type} {s s' : GossipSub μ}

lemma handed_isPrefix {e : Event μ} (hs : s.step e = some s') : s.handed <+: s'.handed := by
  cases e with
  | message d | received d => cases hs; exact prefix_append _ _
  | unsubscribe user topic =>
    obtain rfl := unsubscribe_eq_ok (Exec.toOption_eq_some.mp hs)
    exact prefix_refl _
  | subscribe user topic =>
    obtain ⟨registry, -, -, ⟨-, rfl⟩ | ⟨-, rfl⟩⟩ :=
      subscribe_eq_ok (Exec.toOption_eq_some.mp hs)
    · exact prefix_refl _
    · exact prefix_append _ _

end GossipSub

namespace Racing

variable {μ : Type} {s s' : Racing μ}

/-- The threads are those of the messages that the updater has handed over. -/
structure Tracked (s : Racing μ) : Prop where
  threads : s.race.threads = s.process.handed
  fair : s.race.Fair

lemma tracked_new {users : List String} (h : users.Nodup) : Tracked (new users h : Racing μ) :=
  ⟨rfl, LockRace.fair_empty⟩

/-- **What a step can do**, and what it does to the order. -/
lemma Tracked.step {e : Event μ} (h : Tracked s) (hs : s.step e = some s') :
    Tracked s' ∧ ((∀ user, s'.InOrder user) ↔ (∀ user, s.InOrder user) ∧ s.InTurn e) := by
  cases e with
  | updater e =>
    obtain ⟨process, hprocess, rfl⟩ := Option.map_eq_some_iff.mp hs
    refine ⟨⟨?_, h.fair.spawn _⟩, ?_⟩
    · show s.race.threads ++ process.handed.drop s.process.handed.length = process.handed
      rw [h.threads]
      exact prefix_iff_eq_append.mp (GossipSub.handed_isPrefix hprocess)
    · refine (forall_congr' fun user => ?_).trans (and_iff_left trivial).symm
      exact LockRace.inOrder_spawn_iff h.fair _ user
  | thread e =>
    obtain ⟨race, hrace, rfl⟩ := Option.map_eq_some_iff.mp hs
    have hthreads : race.threads = s.race.threads := by
      cases LockRace.step_cases hrace <;> rfl
    exact ⟨⟨hthreads.trans h.threads, h.fair.step hrace⟩, LockRace.inOrder_step_iff h.fair hrace⟩

/-- **The order after a run**: it holds exactly if it held before and every step was in turn. -/
lemma Tracked.run {es : List (Event μ)} (h : Tracked s) (hrun : (racing μ).run s es = some s') :
    Tracked s' ∧ ((∀ user, s'.InOrder user) ↔
      (∀ user, s.InOrder user) ∧ (racing μ).Admits InTurn s es) := by
  induction es generalizing s with
  | nil =>
    obtain rfl : s = s' := by simpa [Machine.run] using hrun
    exact ⟨h, (and_iff_left trivial).symm⟩
  | cons e es ih =>
    obtain ⟨s1, hs1, hrest⟩ := Option.bind_eq_some_iff.mp hrun
    obtain ⟨h1, hstep⟩ := h.step hs1
    obtain ⟨h', hrun'⟩ := ih h1 hrest
    refine ⟨h', hrun'.trans ?_⟩
    rw [hstep, and_assoc, Machine.Admits, hs1]

/-- **In order exactly if nothing is overtaken**: no thread has ever got the lock of its user while
    an earlier thread of this user was waiting. -/
theorem gossip_fifo_iff {users : List String} (h : users.Nodup) {es : List (Event μ)}
    (hrun : (racing μ).run (new users h) es = some s) :
    ((∀ user, s.InOrder user) ↔ (racing μ).Admits InTurn (new users h) es) ∧
    ((racing μ).Admits InTurn (new users h) es →
      ∀ user, s.processed user <+: s.process.handedTo user) := by
  obtain ⟨htracked, horder⟩ := (tracked_new h).run hrun
  have hiff : (∀ user, s.InOrder user) ↔ (racing μ).Admits InTurn (new users h) es :=
    horder.trans (and_iff_right fun _ => prefix_refl _)
  refine ⟨hiff, fun hturn user => ?_⟩
  have hprefix := (hiff.mpr hturn user).worked_isPrefix
  rwa [LockRace.spawned, htracked.threads] at hprefix

/-! ## Two messages for one user -/

/-- `A` lists the topic of a group, and two messages of the group arrive. -/
def twoMessages : List (Event ℕ) :=
  [.updater (.subscribe "A" "cgka/group/G"), .thread (.acquire 0), .thread (.finish 0),
    .updater (.received ⟨"cgka/group/G", .groupMessage 0⟩),
    .updater (.received ⟨"cgka/group/G", .groupMessage 1⟩)]

/-- A test for `InTurn`: no earlier thread of any user waits. -/
def noneBefore (s : Racing μ) : Event μ → Bool
  | .thread (.acquire i) => (List.range i).all fun j => !decide (s.race.Waiting j)
  | _ => true

lemma inTurn_of_noneBefore {e : Event μ} (h : s.noneBefore e = true) : s.InTurn e := by
  cases e with
  | updater e => trivial
  | thread e =>
    cases e with
    | acquire i =>
      intro k _ _ j hlt _
      have hj := all_eq_true.mp h j (mem_range.mpr hlt)
      simpa using hj
    | _ => trivial

/-- The thread of the first message gets the lock first. -/
theorem gossip_fifo_iff_inTurn :
    ∃ s, (racing ℕ).run (new ["A"] (by decide)) (twoMessages ++ [.thread (.acquire 1)]) = some s ∧
      s.processed "A" <+: s.process.handedTo "A" ∧ (s.processed "A").length = 2 := by
  refine exists_some_imp (P := fun s => (s.processed "A").length = 2) ⟨_, rfl, rfl⟩
    fun s hs hlen => ⟨(gossip_fifo_iff _ hs).2 ?_ "A", hlen⟩
  exact Machine.admits_of_allows (fun _ _ => inTurn_of_noneBefore) (by decide +kernel)

/-- **A message that is overtaken.**  The thread of the second message is first at the lock. -/
theorem message_overtaken :
    ∃ s, (racing ℕ).run (new ["A"] (by decide)) (twoMessages ++
        [.thread (.acquire 2), .thread (.finish 2), .thread (.acquire 1), .thread (.finish 1)]) =
          some s ∧
      s.process.handedTo "A" = [GossipSub.ack "A" "cgka/group/G" "cgka/group/G",
        ⟨"cgka/group/G", .groupMessage 0⟩, ⟨"cgka/group/G", .groupMessage 1⟩] ∧
      s.processed "A" = [GossipSub.ack "A" "cgka/group/G" "cgka/group/G",
        ⟨"cgka/group/G", .groupMessage 1⟩, ⟨"cgka/group/G", .groupMessage 0⟩] := by
  refine ⟨_, rfl, ?_, ?_⟩ <;> decide +kernel

end Racing

end EmulatedMls.Updater
