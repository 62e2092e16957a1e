import EmulatedMls.Lib.Exec

/-!
# The orchestrator of the emulated client

In the orchestrated mode every user keeps an `Orchestrator` per group: a vector of the names of
the active members, of fixed length `max_active_processers` and padded with empty names.  The
first `max_active_committers` slots are the committers.  A commit seeds a generator with the
transcript hash, seats the new members by reservoir sampling and draws which slot acts next.

**Source.**  `emulated_client/src/orchestrator.rs`, with the parameters of
`emulated_client/src/config/mod.rs`.

**Randomness.**  `StdRng` is a parameter: an `Rng` is a deterministic generator whose draws lie
in the range asked for, which is all that `gen_range` documents.

**Redraws.**  The loop that redraws `who_acts` may run for ever, so `processCommit` takes the
number of redraws it may make.
-/

namespace EmulatedMls

/-- `AuthorizationPolicy` of the settings. -/
inductive AuthorizationPolicy where
  | random
  | first
  | last
  deriving DecidableEq, Repr

/-- `OrchestratedParameters` of the settings. -/
structure OrchestratedParameters where
  maxActiveCommitters : ℕ
  maxActiveProcessers : ℕ
  authPolicy : AuthorizationPolicy
  deriving DecidableEq, Repr

inductive NextAction where
  | inactive
  | listen
  | commit
  deriving DecidableEq, Repr

/-- The error lines that the orchestrator logs, each with the vector it prints. -/
inductive LogError where
  | inconsistentState (known : List String)
  | winnerNotFound (known : List String)
  deriving DecidableEq, Repr

/-- A seeded generator.  `genRange g lo hi` is the draw from `lo..hi` and the next state. -/
structure Rng where
  State : Type
  fromSeed : List UInt8 → State
  genRange : State → ℕ → ℕ → ℕ × State
  genRange_mem : ∀ g lo hi, lo < hi → lo ≤ (genRange g lo hi).1 ∧ (genRange g lo hi).1 < hi

/-- `rng.gen_range(lo..hi)`: panics on an empty range. -/
def Rng.draw (R : Rng) (lo hi : ℕ) (g : R.State) : Exec (ℕ × R.State) :=
  if lo < hi then .ok (R.genRange g lo hi) else .error .panic

/-- A generator that reads its draws off the seed, one byte after the other. -/
def Rng.scripted : Rng where
  State := List ℕ
  fromSeed seed := seed.map UInt8.toNat
  genRange g lo hi := (lo + g.headD 0 % (hi - lo), g.tail)
  genRange_mem := by
    intro g lo hi h
    have hlt : g.headD 0 % (hi - lo) < hi - lo := Nat.mod_lt _ (by omega)
    exact ⟨by omega, by omega⟩

structure Orchestrator where
  name : String
  pendingAcks : ℕ
  parameters : OrchestratedParameters
  knownMembers : List String
  deriving DecidableEq, Repr

namespace Orchestrator

def new (name : String) (parameters : OrchestratedParameters) (knownMembers : List String) :
    Orchestrator where
  name := name
  pendingAcks := 0
  parameters := parameters
  knownMembers := resize knownMembers parameters.maxActiveProcessers ""

def seedArray (seed : List UInt8) : List UInt8 := resize seed 32 0

/-- The number of non-empty names, the source's `current_amount_of_active`. -/
def activeCount (known : List String) : ℕ := (known.filter (· ≠ "")).length

/-- `known_members.iter().position(..)`: the first slot that holds the name. -/
def position (known : List String) (name : String) : Option ℕ :=
  known.findIdx? (· = name)

/-- The reservoir sample of one new member.  Under `last` nothing is drawn. -/
def sample (R : Rng) (p : OrchestratedParameters) (total : ℕ) (g : R.State) : Exec (ℕ × R.State) :=
  match p.authPolicy with
  | .first => R.draw (min p.maxActiveCommitters (total - 1)) total g
  | .last => .ok (0, g)
  | .random => R.draw 0 total g

/-- Seat one new member: append it, or let it take the sampled slot. -/
def seat (p : OrchestratedParameters) (s : ℕ) (name : String) (known : List String) :
    Exec (List String) :=
  let active := activeCount known
  if active < p.maxActiveCommitters then
    store known active name
  else if s < p.maxActiveProcessers then do
    let previous ← index known s
    let moved ← (if previous ≠ "" ∧ active < p.maxActiveProcessers then
      store known active previous else pure known)
    store moved (min active s) name
  else pure known

/-- The loop over `new_members`: one sample and one seat for each. -/
def seatMembers (R : Rng) (p : OrchestratedParameters) (total : ℕ) :
    List String → List String × R.State → Exec (List String × R.State)
  | [], st => .ok st
  | name :: names, (known, g) => do
    let (s, g) ← sample R p total g
    let known ← seat p s name known
    seatMembers R p total names (known, g)

/-- The `while` loop that redraws `who_acts` as long as it is one of several new members. -/
def reroll (R : Rng) (newMembers known : List String) (hi : ℕ) :
    ℕ → ℕ → R.State → Exec ℕ
  | 0, _, _ => .error .fuel
  | fuel + 1, who, g =>
    if 1 < newMembers.length then do
      let m ← index known who
      if m ∈ newMembers then
        let (who, g) ← R.draw 0 hi g
        reroll R newMembers known hi fuel who g
      else pure who
    else pure who

/-- One `Inconsistent state` line for each empty slot before an occupied one. -/
def inconsistencies (known : List String) : List LogError :=
  ((List.range (known.length - 1)).filter
    (fun i => known[i]? = some "" ∧ known[i + 1]? ≠ some "")).map
      (fun _ => .inconsistentState known)

/-- What a call of `process_commit` leaves behind. -/
structure Outcome where
  orchestrator : Orchestrator
  action : NextAction
  whoActs : Option ℕ
  assignedAcks : Option ℕ
  errors : List LogError
  deriving DecidableEq, Repr

def Outcome.Wins (r : Outcome) : Prop := r.action = .commit ∨ r.assignedAcks.isSome

instance (r : Outcome) : Decidable r.Wins := inferInstanceAs (Decidable (_ ∨ _))

/-- The last part of `process_commit`: the replica at `who_acts` waits for acknowledgements. -/
def conclude (o : Orchestrator) (newMembers : List String) (pos who : ℕ) : Outcome :=
  let lost := if o.knownMembers[who]? = some "" then [.winnerNotFound o.knownMembers] else []
  let errors := inconsistencies o.knownMembers ++ lost
  if pos = who then
    let acks := (newMembers.filter (· ≠ o.name)).length
    ⟨{ o with pendingAcks := acks }, if acks = 0 then .commit else .listen, some who, some acks,
      errors⟩
  else ⟨o, .listen, some who, none, errors⟩

def processCommit (R : Rng) (fuel : ℕ) (o : Orchestrator) (seed : List UInt8) (total : ℕ)
    (newMembers : List String) : Exec Outcome := do
  let (known, g) ← seatMembers R o.parameters total newMembers
    (o.knownMembers, R.fromSeed (seedArray seed))
  let o := { o with knownMembers := known }
  match position known o.name with
  | none => pure ⟨o, .inactive, none, none, []⟩
  | some pos =>
    let hi := min o.parameters.maxActiveCommitters total
    let (who, g) ← R.draw 0 hi g
    let who ← reroll R newMembers known hi fuel who g
    pure (conclude o newMembers pos who)

/-- `Orchestrator::remove_members`.  A replica that has no seat skips the removal. -/
def removeMembers (o : Orchestrator) (membersToRemove : List String) : Exec Orchestrator :=
  if o.name ∉ o.knownMembers then pure o
  else
    let retained := o.knownMembers.filter (· ∉ membersToRemove)
    let known := resize retained o.parameters.maxActiveProcessers ""
    if known.length = 0 then .error .panic else pure { o with knownMembers := known }

def processAck (o : Orchestrator) : Orchestrator × NextAction :=
  if o.pendingAcks = 0 then (o, .listen)
  else
    let acks := o.pendingAcks - 1
    ({ o with pendingAcks := acks }, if acks = 0 then .commit else .listen)

end Orchestrator

end EmulatedMls
