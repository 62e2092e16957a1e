import EmulatedMls.PubSub.Mqtt

/-!
# Messages in order

`deliver_to_users` only spawns threads.  The order in which a user gets its messages is that of the
handles: each thread gets the handle of the thread before it from `current_handles`, joins it, and
only then takes the lock of the user.

**Source.**  `deliver_to_users` of `emulated_client/src/pubsub/mqtt_updater.rs`.
-/

namespace EmulatedMls.Updater

namespace Mqtt

variable {μ : Type} {s s' : Mqtt μ}

/-- The messages whose topic was in the list of the user when `deliver_to_users` was called. -/
def handed (s : Mqtt μ) (user : String) : List (Delivery μ) :=
  (s.calls.filter fun call => call.2.Lists user call.1.topic).map Prod.fst

def NoPanic (_ : Mqtt μ) (e : Event μ) : Prop := ∀ i, e ≠ .thread (.panic i)

structure InOrder (s : Mqtt μ) : Prop where
  orderly : s.deliveries.Orderly
  calm : s.deliveries.Calm
  spawned : ∀ user, s.deliveries.spawned user = s.handed user

lemma inOrder_new {users : List String} (h : users.Nodup) : InOrder (new users h : Mqtt μ) :=
  ⟨JoinChain.orderly_empty, ⟨by simp [new, JoinChain.empty], by simp [new, JoinChain.empty]⟩,
    fun _ => rfl⟩

/-- A call of `deliver_to_users` hands the message to the users that list its topic. -/
lemma handed_deliverToUsers (d : Delivery μ) (user : String) :
    (s.deliverToUsers d).handed user =
      s.handed user ++ if s.registry.subscriptions.Lists user d.topic then [d] else [] := by
  by_cases h : s.registry.subscriptions.Lists user d.topic <;>
    simp [handed, deliverToUsers, h]

lemma spawned_deliverToUsers (d : Delivery μ) (user : String) :
    (s.deliverToUsers d).deliveries.spawned user = s.deliveries.spawned user ++
      if s.registry.subscriptions.Lists user d.topic then [d] else [] := by
  simp only [deliverToUsers,
    JoinChain.spawned_spawnAll d (s.registry.subscriptions.nodup_receivers d.topic),
    Subscriptions.mem_receivers]

lemma InOrder.step {e : Event μ} (h : InOrder s) (he : NoPanic s e) (hs : s.step e = some s') :
    InOrder s' := by
  cases step_cases hs with
  | subscribe hr | unsubscribe user topic | outgoing hqueue hid =>
    exact ⟨h.orderly, h.calm, h.spawned⟩
  | @subAck id r hr =>
    have hsame : (s.subAck id).deliveries = s.deliveries ∧ (s.subAck id).calls = s.calls := by
      unfold subAck
      split <;> exact ⟨rfl, rfl⟩
    refine ⟨hsame.1.symm ▸ h.orderly, hsame.1.symm ▸ h.calm, fun user => ?_⟩
    simp only [handed, hsame.1, hsame.2]
    exact h.spawned user
  | publish d =>
    refine ⟨h.orderly.spawnAll d _, h.calm.spawnAll d _, fun user => ?_⟩
    rw [spawned_deliverToUsers, handed_deliverToUsers, h.spawned]
  | thread hstep =>
    refine ⟨h.orderly.step hstep, h.calm.step (fun i hi => he i (by rw [hi])) hstep, ?_⟩
    exact fun user => (JoinChain.spawned_step hstep).trans (h.spawned user)

lemma inOrder_of_reaches (h : (mqtt μ).Reaches NoPanic s) : InOrder s := by
  have hinit : ∀ s, (mqtt μ).init s → InOrder s := by
    rintro _ ⟨users, hn, rfl⟩
    exact inOrder_new hn
  exact h.invariant hinit fun _ _ _ hinv hok hs => hinv.step hok hs

/-- **First in, first out.**  Without a panic each user has processed an initial part of the
    messages handed to it, and its threads can go on unless the agent holds its lock. -/
theorem fifo_delivery (h : (mqtt μ).Reaches NoPanic s) (user : String) :
    s.deliveries.finished user <+: s.handed user ∧
    ((∀ i t, s.deliveries.threads[i]? = some t → t.key = user → s.deliveries.phase i = .done) →
      s.deliveries.finished user = s.handed user) ∧
    ((∃ i t, s.deliveries.threads[i]? = some t ∧ t.key = user ∧ s.deliveries.phase i ≠ .done) →
      s.deliveries.lock user ≠ .others →
      ∃ i, ∃ e ∈ [.join i, .acquire i, .finish i], ((mqtt μ).step s (.thread e)).isSome) := by
  have hinv := inOrder_of_reaches h
  obtain ⟨b, hturn⟩ := hinv.orderly.turn user
  rw [← hinv.spawned user]
  refine ⟨hturn.finished_isPrefix, hturn.finished_eq, fun hrest hothers => ?_⟩
  obtain ⟨i, hstep⟩ :=
    hturn.exists_step hinv.orderly.linked (hinv.orderly.locked user) hinv.calm hothers hrest
  have henabled : ∀ e, (s.deliveries.step e).isSome → ((mqtt μ).step s (.thread e)).isSome := by
    intro e he
    simpa [mqtt, step] using he
  rcases hstep with hstep | hstep | hstep
  · exact ⟨i, .join i, by simp, henabled _ hstep⟩
  · exact ⟨i, .acquire i, by simp, henabled _ hstep⟩
  · exact ⟨i, .finish i, by simp, henabled _ hstep⟩

/-! ## Two messages for one user -/

/-- Two messages for `A`, whose threads are scheduled one after the other. -/
def twoMessages : List (Event ℕ) :=
  [.subscribe "A" "cgka/group/G", .publish ⟨"cgka/group/G", .groupMessage 0⟩,
    .publish ⟨"cgka/group/G", .groupMessage 1⟩, .thread (.join 0), .thread (.acquire 0),
    .thread (.finish 0), .thread (.join 1)]

/-- The first message is processed, and the thread of the second one can take the lock. -/
theorem fifo_delivery_twoMessages :
    ∃ s, (mqtt ℕ).run (new ["A"] (by decide)) twoMessages = some s ∧
      s.deliveries.finished "A" = [⟨"cgka/group/G", .groupMessage 0⟩] ∧
      s.deliveries.finished "A" <+: s.handed "A" ∧ (s.handed "A").length = 2 := by
  have hinit : (mqtt ℕ).Reaches NoPanic (new ["A"] (by decide)) := .init ⟨_, _, rfl⟩
  have hok : (mqtt ℕ).Admits NoPanic (new ["A"] (by decide)) twoMessages := by
    refine ⟨?_, ?_, ?_, ?_, ?_, ?_, ?_, trivial⟩ <;> simp [NoPanic]
  refine exists_some_and ⟨_, rfl, rfl⟩ fun s hs _ =>
    ⟨(fifo_delivery (hinit.of_run hok hs) "A").1, ?_⟩
  cases hs
  rfl

end Mqtt

end EmulatedMls.Updater
