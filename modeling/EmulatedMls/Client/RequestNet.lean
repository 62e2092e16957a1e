import EmulatedMls.Client.Independent
import EmulatedMls.Lib.Log

/-!
# Independent users on the request delivery service

Any number of independent users share one group over the delivery service that is polled by
requests.  A user fetches its queues in one request and then handles the fetched messages one
after the other, Welcomes first; between two fetches it makes calls.

**Source.**  `msg_send`, `send_welcome` and `msg_recv` of `delivery-service/ds/src/main.rs`,
`fetch_updates` of `emulated_client/src/user.rs` and the loop of
`emulated_client/src/client_agent/independent.rs`.

**Queues.**  The service appends an accepted message to the queues of its recipients and of its
sender under one lock.  The queues are therefore represented by one log of accepted messages and,
for each user, the number of entries it has gone through.

**Errors.**  The agent calls `expect` on the result of `fetch_updates`, so a user whose handling
of a message returns an error or panics stops for good.  An error of a call is only logged.
-/

namespace EmulatedMls.Client

open List

/-- A message that the delivery service has accepted, with those it is addressed to. -/
structure Accepted where
  message : GroupMessage
  recipients : List String
  deriving DecidableEq, Repr

/-- Proposals and commits are handshake messages. -/
def GroupMessage.isHandshake (m : GroupMessage) : Bool :=
  match m.content with
  | .application _ => false
  | _ => true

def Accepted.IsCommit (a : Accepted) : Prop := ∃ c, a.message.content = .commit c

/-- The data of the delivery service for one group. -/
structure Server where
  epoch : Option ℕ
  log : List Accepted
  welcomeQueue : String → List WelcomeMessage

namespace Server

/-- The epoch check of `msg_send`: a handshake message of a smaller epoch is a conflict. -/
def accepts (srv : Server) (m : GroupMessage) : Bool :=
  match srv.epoch with
  | some e => !(m.isHandshake && decide (m.epoch < e))
  | none => true

def msgSend (srv : Server) (m : GroupMessage) (recipients : List String) : Server :=
  if srv.accepts m then
    { srv with
      epoch := if m.isHandshake then some m.epoch else srv.epoch
      log := srv.log ++ [⟨m, recipients⟩] }
  else srv

def sendWelcome (srv : Server) (recipient : String) (w : WelcomeMessage) : Server :=
  let queue := srv.welcomeQueue recipient ++ [w]
  { srv with welcomeQueue := Function.update srv.welcomeQueue recipient queue }

/-- What an output of a user does at the service. -/
def deliver (srv : Server) : Output → Server
  | .toGroup m recipients => srv.msgSend m recipients
  | .welcome recipient w => srv.sendWelcome recipient w
  | _ => srv

end Server

/-- A user with its place in the log; `welcomes` are fetched and not yet handled. -/
structure Node where
  user : User
  alive : Bool
  pos : ℕ
  drained : ℕ
  welcomes : List WelcomeMessage

def Node.Idle (n : Node) : Prop := n.pos = n.drained ∧ n.welcomes = []

instance (n : Node) : Decidable n.Idle := inferInstanceAs (Decidable (_ ∧ _))

structure Net where
  nodes : String → Node
  server : Server

namespace Net

inductive Event where
  | recv (name : String)
  | handle (name : String) (env : Env)
  | act (name : String) (env : Env) (id : ℕ) (k : User.Call)

def setNode (net : Net) (name : String) (n : Node) : Net :=
  { net with nodes := Function.update net.nodes name n }

/-- A fetched message has been handled: an error or a panic stops the user. -/
def handled (net : Net) (name : String) (n : Node) : Exec Result → Net
  | .ok r => {
      nodes := Function.update net.nodes name
        { n with user := r.user, alive := r.error.isNone }
      server := r.outputs.foldl Server.deliver net.server }
  | .error _ => net.setNode name { n with alive := false }

/-- A call has been made: an error is only logged, a panic stops the user. -/
def acted (net : Net) (name : String) (n : Node) : Exec Result → Net
  | .ok r => {
      nodes := Function.update net.nodes name { n with user := r.user }
      server := r.outputs.foldl Server.deliver net.server }
  | .error _ => net.setNode name { n with alive := false }

/-- The environment of a call: whether a message is accepted is up to the service. -/
def answer (srv : Server) (env : Env) : Env :=
  { env with delivers := fun
      | .toGroup m _ => srv.accepts m
      | o => env.delivers o }

def step (cfg : Config) (net : Net) : Event → Option Net
  | .recv name =>
    let n := net.nodes name
    if n.alive ∧ n.Idle then
      some {
        nodes := Function.update net.nodes name { n with
          drained := net.server.log.length
          welcomes := net.server.welcomeQueue name }
        server := { net.server with
          welcomeQueue := Function.update net.server.welcomeQueue name [] } }
    else none
  | .handle name env =>
    let n := net.nodes name
    if n.alive then
      match n.welcomes with
      | w :: ws =>
        some (net.handled name { n with welcomes := ws }
          (n.user.processInMessage cfg env (.welcome w)))
      | [] =>
        if n.pos < n.drained then
          match net.server.log[n.pos]? with
          | none => none
          | some a =>
            let n' := { n with pos := n.pos + 1 }
            if name ∈ a.recipients ∨ a.message.sender = name then
              some (net.handled name n' (n.user.processInMessage cfg env (.group a.message)))
            else some (net.setNode name n')
        else none
    else none
  | .act name env id k =>
    let n := net.nodes name
    if n.alive ∧ n.Idle then
      some (net.acted name n (n.user.call cfg (answer net.server env) id k))
    else none

end Net

/-- The runs of independent users in a group that `creator` has created. -/
def requestNet (cfg : Config) (creator : String) : Machine Net Net.Event where
  init net := net.server = ⟨none, [], fun _ => []⟩ ∧
    ∀ name, net.nodes name =
      ⟨if name = creator then { User.new name with
          group := some (MlsGroup.create creator), active := some (true, 0) } else User.new name,
        true, 0, 0, []⟩
  step := Net.step cfg

/-! ## The chain of first commits -/

/-- The first accepted commit of each epoch extends the chain. -/
def extendChain (t : Transcript) (a : Accepted) : Transcript :=
  match a.message.content with
  | .commit c => if a.message.epoch = t.length then c :: t else t
  | _ => t

def chain (log : List Accepted) : Transcript := log.foldl extendChain []

lemma chain_append (log : List Accepted) (a : Accepted) :
    chain (log ++ [a]) = extendChain (chain log) a := by
  simp [chain]

lemma grows_extendChain : Grows extendChain := by
  intro t a
  unfold extendChain
  split
  · split_ifs
    · exact suffix_cons _ _
    · exact suffix_rfl
  · exact suffix_rfl

lemma chain_suffix_append (log more : List Accepted) : chain log <:+ chain (log ++ more) :=
  grows_extendChain.foldl_suffix_append [] log more

variable {i : ℕ}

lemma chain_take_suffix (log : List Accepted) {j : ℕ} (h : i ≤ j) :
    chain (log.take i) <:+ chain (log.take j) :=
  grows_extendChain.foldl_take_suffix [] log h

lemma chain_take_suffix_self (log : List Accepted) (i : ℕ) : chain (log.take i) <:+ chain log :=
  grows_extendChain.foldl_take_suffix_self [] log i

variable {log : List Accepted}

lemma chain_take_succ {a : Accepted} (h : log[i]? = some a) :
    chain (log.take (i + 1)) = extendChain (chain (log.take i)) a :=
  foldl_take_succ h

/-- **A chain that is longer than an epoch has seen a commit of that epoch.** -/
lemma exists_commit_of_lt {p k : ℕ} (h : k < (chain (log.take p)).length) :
    ∃ j a, j < p ∧ log[j]? = some a ∧ a.IsCommit ∧ a.message.epoch = k := by
  induction p with
  | zero => simp [chain] at h
  | succ p ih =>
    by_cases hk : k < (chain (log.take p)).length
    · obtain ⟨j, a, hj, ha⟩ := ih hk
      exact ⟨j, a, by omega, ha⟩
    cases hp : log[p]? with
    | none =>
      rw [take_add_one, hp] at h
      simp at h
      exact absurd h hk
    | some a =>
      rw [chain_take_succ hp] at h
      unfold extendChain at h
      cases hm : a.message.content with
      | commit c =>
        simp only [hm] at h
        split_ifs at h with he
        · exact ⟨p, a, by omega, hp, ⟨c, hm⟩, by simp at h; omega⟩
        · exact absurd h hk
      | application id | proposal q => simp only [hm] at h; exact absurd h hk

end EmulatedMls.Client
