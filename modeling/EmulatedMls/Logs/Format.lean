import EmulatedMls.Lib.Words
import Mathlib.Data.Int.Notation

/-!
# Writing and reading the logs

A user appends one line for each of its actions to its log file.  Another program reads the files
into a table with one row for each line.

**Source.**  `ActionRecord` and `Display for CGKAAction` of
`emulated_client/src/client_agent/mod.rs`, `flush_logs` of `emulated_client/src/user.rs` and
`read_log_file` of `log_scripts/log_parser.py`.

**Reader.**  The local variables of `read_log_file` live as long as the whole loop, so a branch that
does not assign one of them leaves the value of an earlier line, or none at all.  `Vars` are those
variables.  `size`, `other_size` and `target_user_id` get a default for each line.

**Python.**  `split` cuts at the white space of `str.split`, a file is read line by line with any of
the three line ends (the empty line that this model sees inside a `\r\n` is skipped like every
short line), and `int` reads an optional sign and decimal digits that may be grouped by
underscores.  Digits of other scripts are left out.
-/

namespace EmulatedMls.Logs

/-! ## Records -/

structure CryptoTime where
  total : ℕ
  validation : ℕ
  applyProposals : ℕ
  tree : ℕ
  path : ℕ
  treeHash : ℕ
  parentHash : ℕ
  encryptPath : ℕ
  sign : ℕ
  schedule : ℕ
  welcome : ℕ
  storage : ℕ
  encrypt : ℕ
  exported : ℕ

structure ProcessCryptoTime where
  total : ℕ
  decrypt : ℕ
  verify : ℕ
  validation : ℕ
  applyProposals : ℕ
  tree : ℕ
  path : ℕ
  treeHash : ℕ
  parentHash : ℕ
  decryptPath : ℕ
  schedule : ℕ

structure MergeTime where
  total : ℕ
  storage : ℕ
  merge : ℕ

inductive CGKAAction where
  | propose (action : CGKAAction)
  | commit (proposals : List CGKAAction) (size : ℕ)
  | join (commitSize groupInfoSize : ℕ)
  | update (size : ℕ)
  | invite (user : String) (size : ℕ)
  | remove (user : String) (size : ℕ)
  | process (user : String)
  | storeProp (user : String)
  | welcome (user : String) (size : ℕ)
  | deepCommit (size : ℕ) (crypto : CryptoTime) (merge : MergeTime)
  | deepProcess (user : String) (crypto : ProcessCryptoTime) (merge : MergeTime)
  | create
  | commitAttempt (action : CGKAAction)

/-- `ActionRecord`, with the two fields of its `EpochChange`. -/
structure ActionRecord where
  groupName : String
  action : CGKAAction
  epoch : ℕ
  timestamp : ℤ
  elapsedTime : ℕ
  numUsers : ℕ

/-! ## Writing -/

def joined (texts : List String) : String := " ".intercalate texts

/-- The texts that `Display for CGKAAction` writes with a blank between each two of them. -/
def CGKAAction.fields : CGKAAction → List String
  | .propose action => "Propose" :: action.fields
  | .commit proposals size => ["Commit", toString proposals.length, toString size]
  | .join cSize giSize => ["Join", toString cSize, toString giSize]
  | .update size => ["Update", toString size]
  | .invite user size => ["Invite", user, toString size]
  | .remove user size => ["Remove", user, toString size]
  | .process user => if user = "" then ["Process"] else ["Process", user]
  | .welcome user size => if user = "" then ["Welcome"] else ["Welcome", user, toString size]
  | .storeProp user => if user = "" then ["StoreProp"] else ["StoreProp", user]
  | .create => ["Create"]
  | .commitAttempt action => "CommitAttempt" :: action.fields
  | .deepCommit size c m => ["DeepCommit", toString size, "||", toString c.total,
      toString c.validation, toString c.applyProposals, toString c.tree, toString c.path,
      toString c.treeHash, toString c.parentHash, toString c.encryptPath, toString c.sign,
      toString c.schedule, toString c.welcome, "||", toString c.storage, toString c.encrypt, "||",
      toString c.exported, "||", toString m.total, toString m.merge, toString m.storage]
  | .deepProcess user c m => ["DeepProcess", user, "||", toString c.total, toString c.decrypt,
      toString c.verify, toString c.validation, toString c.applyProposals, toString c.tree,
      toString c.path, toString c.treeHash, toString c.parentHash, toString c.decryptPath,
      toString c.schedule, "||", toString m.total, toString m.merge, toString m.storage]

/-- `Display for CGKAAction`. -/
def CGKAAction.display (action : CGKAAction) : String := joined action.fields

/-- The line of a record in the log of a user. -/
def ActionRecord.line (username : String) (r : ActionRecord) : String :=
  joined [r.groupName, toString r.epoch, toString r.numUsers, username, r.action.display,
    toString r.timestamp, toString r.elapsedTime]

/-- `flush_logs`: what it appends to the file for the records of the buffer. -/
def flushLogs (username : String) (buffer : List ActionRecord) : String :=
  "\n".intercalate (buffer.map (·.line username)) ++ "\n"

/-- The file after some calls of `flush_logs`. -/
def logFile (username : String) (buffers : List (List ActionRecord)) : String :=
  String.join (buffers.map (flushLogs username))

/-! ## Reading -/

/-- The white space of `str.split`. -/
def isSpace (c : Char) : Bool :=
  let n := c.toNat
  (9 ≤ n && n ≤ 13) || (28 ≤ n && n ≤ 32) || n == 0x85 || n == 0xa0 || n == 0x1680 ||
    (0x2000 ≤ n && n ≤ 0x200a) || n == 0x2028 || n == 0x2029 || n == 0x202f || n == 0x205f ||
    n == 0x3000

/-- `str.split`. -/
def split (line : String) : List String := (words isSpace line.toList).map String.ofList

def isLineEnd (c : Char) : Bool := c == '\n' || c == '\r'

def lines (file : String) : List String := (file.toList.splitOnP isLineEnd).map String.ofList

/-- The decimal digits of a numeral, in groups that underscores separate. -/
def digits (t : List Char) : Option ℕ :=
  let groups := t.splitOn '_'
  if groups.all (fun g => !g.isEmpty && g.all Char.isDigit) then
    some (Nat.ofDigitChars 10 groups.flatten 0)
  else none

def int (t : String) : Option ℤ :=
  match t.toList with
  | '-' :: ds => (digits ds).map fun n => -(n : ℤ)
  | '+' :: ds => (digits ds).map fun n => (n : ℤ)
  | ds => (digits ds).map fun n => (n : ℤ)

/-- A value that is a number or a text to be read as one. -/
inductive Value where
  | number (n : ℤ)
  | text (t : String)
  deriving DecidableEq, Repr

def Value.int : Value → Option ℤ
  | .number n => some n
  | .text t => Logs.int t

/-- The `options` of the parser that `read_log_file` looks at. -/
structure Options where
  ignoreRemove : Bool
  ignoreZeros : Bool

def options : Options := ⟨false, true⟩

structure Row where
  group : String
  epoch : ℤ
  numUsers : ℤ
  userId : String
  operation : String
  targetUserId : Option String
  size : ℤ
  otherSize : ℤ
  numberOfProposals : ℤ
  timestamp : ℤ
  elapsedTime : ℤ
  deriving DecidableEq, Repr

/-- The variables that keep their values from line to line; `none` is an unbound one. -/
structure Vars where
  group : Option String
  epoch : Option String
  numUsers : Option String
  userId : Option String
  timestamp : Option String
  elapsed : Option String
  numberOfProposals : Option Value
  deriving DecidableEq, Repr

def Vars.unbound : Vars := ⟨none, none, none, none, none, none, none⟩

/-- The variables of one line when the row is made. -/
structure Locals where
  vars : Vars
  operation : String
  targetUserId : Option String
  size : Value
  otherSize : Value

/-- The values that every unpacking assigns. -/
def Vars.assigned (group epoch numUsers userId timestamp elapsed : String)
    (numberOfProposals : Option Value) : Vars :=
  ⟨group, epoch, numUsers, userId, timestamp, elapsed, numberOfProposals⟩

/-- Why a line gives no row: `continue`, a `ValueError` or another exception. -/
inductive Escape where
  | skipped
  | valueError
  | raised
  deriving DecidableEq, Repr

def readPropose (opts : Options) (vars : Vars) (parts : List String) : Except Escape Locals :=
  match parts[5]? with
  | none => .error .raised
  | some subOperation =>
    if subOperation = "Invite" ∨ subOperation = "Remove" then
      if subOperation = "Remove" ∧ opts.ignoreRemove then .error .skipped
      else match parts with
        | [group, epoch, numUsers, userId, operation, _, targetUserId, size, timestamp, elapsed] =>
          .ok ⟨.assigned group epoch numUsers userId timestamp elapsed (some (.number 0)),
            operation, targetUserId, .text size, .number 0⟩
        | _ => .error .valueError
    else if subOperation = "Update" then
      match parts with
      | [group, epoch, numUsers, userId, operation, _, size, timestamp, elapsed] =>
        .ok ⟨.assigned group epoch numUsers userId timestamp elapsed (some (.number 0)),
          operation, none, .text size, .number 0⟩
      | _ => .error .valueError
    -- no branch is taken: all variables are those of an earlier line
    else .ok ⟨vars, "Propose", none, .number 0, .number 0⟩

def readCommitAttempt (opts : Options) (vars : Vars) (parts : List String) : Except Escape Locals :=
  match parts[5]? with
  | none => .error .raised
  | some subOperation =>
    if subOperation = "Commit" then
      match parts with
      | [group, epoch, numUsers, userId, operation, _, numberOfProposals, size, timestamp,
          elapsed] =>
        .ok ⟨.assigned group epoch numUsers userId timestamp elapsed
          (some (.text numberOfProposals)),
          operation, none, .text size, .number 0⟩
      | _ => .error .valueError
    else if subOperation = "Invite" ∨ subOperation = "Remove" then
      if subOperation = "Remove" ∧ opts.ignoreRemove then .error .skipped
      else match parts with
        | [group, epoch, numUsers, userId, operation, _, targetUserId, size, timestamp, elapsed] =>
          .ok ⟨.assigned group epoch numUsers userId timestamp elapsed (some (.number 1)),
            operation, targetUserId, .text size, .number 0⟩
        | _ => .error .valueError
    else if subOperation = "Update" then
      match parts with
      | [group, epoch, numUsers, userId, operation, _, size, timestamp, elapsed] =>
        .ok ⟨.assigned group epoch numUsers userId timestamp elapsed (some (.number 1)),
          operation, none, .text size, .number 0⟩
      | _ => .error .valueError
    else if subOperation = "Join" then
      match parts with
      | [group, epoch, numUsers, userId, operation, _, size, otherSize, timestamp, elapsed] =>
        .ok ⟨.assigned group epoch numUsers userId timestamp elapsed (some (.number 1)),
          operation, none, .text size, .text otherSize⟩
      | _ => .error .valueError
    else .ok ⟨vars, "CommitAttempt", none, .number 0, .number 0⟩

/-- The operation of a line decides how its parts are unpacked. -/
def readParts (opts : Options) (vars : Vars) (parts : List String) : Except Escape Locals :=
  match parts[4]? with
  | none => .error .skipped
  | some operation =>
    if operation = "Create" then
      match parts with
      | [group, epoch, numUsers, userId, operation, timestamp, elapsed] =>
        .ok ⟨.assigned group epoch numUsers userId timestamp elapsed (some (.number 1)),
          operation, none, .number 0, .number 0⟩
      | _ => .error .valueError
    else if operation = "Commit" then
      match parts with
      | [group, epoch, numUsers, userId, operation, numberOfProposals, size, timestamp, elapsed] =>
        .ok ⟨.assigned group epoch numUsers userId timestamp elapsed
          (some (.text numberOfProposals)),
          operation, none, .text size, .number 0⟩
      | _ => .error .valueError
    else if operation = "DeepCommit" then
      match parts with
      | [group, epoch, numUsers, userId, operation, size, _, _, _, _, _, _, _, _, _, _, _, _, _, _,
          _, _, _, _, _, _, _, timestamp, elapsed] =>
        .ok ⟨.assigned group epoch numUsers userId timestamp elapsed (some (.number 1)),
          operation, none, .text size, .number 0⟩
      | _ => .error .valueError
    else if operation = "DeepProcess" then
      match parts with
      -- the bars and the target are taken in the wrong order, and the number of proposals is
      -- not assigned
      | [group, epoch, numUsers, userId, operation, _, targetUserId, _, _, _, _, _, _, _, _, _, _,
          _, _, _, _, _, timestamp, elapsed] =>
        .ok ⟨.assigned group epoch numUsers userId timestamp elapsed vars.numberOfProposals,
          operation, targetUserId, .number 0, .number 0⟩
      | _ => .error .valueError
    else if operation = "Update" then
      match parts with
      | [group, epoch, numUsers, userId, operation, size, timestamp, elapsed] =>
        .ok ⟨.assigned group epoch numUsers userId timestamp elapsed (some (.number 1)),
          operation, none, .text size, .number 0⟩
      | _ => .error .valueError
    else if operation = "Join" then
      match parts with
      | [group, epoch, numUsers, userId, operation, size, otherSize, timestamp, elapsed] =>
        .ok ⟨.assigned group epoch numUsers userId timestamp elapsed (some (.number 1)),
          operation, none, .text size, .text otherSize⟩
      | _ => .error .valueError
    else if operation = "Invite" ∨ operation = "Remove" then
      if operation = "Remove" ∧ opts.ignoreRemove then .error .skipped
      else match parts with
        | [group, epoch, numUsers, userId, operation, targetUserId, size, timestamp, elapsed] =>
          .ok ⟨.assigned group epoch numUsers userId timestamp elapsed (some (.number 1)),
            operation, targetUserId, .text size, .number 0⟩
        | _ => .error .valueError
    else if operation = "Process" ∨ operation = "StoreProp" then
      match parts.getLast?.bind int with
      | none => .error .valueError
      | some last =>
        if last = 0 ∧ opts.ignoreZeros then .error .skipped
        else match parts with
          | [group, epoch, numUsers, userId, operation, targetUserId, timestamp, elapsed] =>
            .ok ⟨.assigned group epoch numUsers userId timestamp elapsed (some (.number 0)),
              operation, targetUserId, .number 0, .number 0⟩
          | _ => .error .valueError
    else if operation = "Welcome" then
      match parts with
      | [group, epoch, numUsers, userId, operation, targetUserId, otherSize, timestamp, elapsed] =>
        .ok ⟨.assigned group epoch numUsers userId timestamp elapsed (some (.number 0)),
          operation, targetUserId, .number 0, .text otherSize⟩
      | _ => .error .valueError
    else if operation = "Propose" then readPropose opts vars parts
    else if operation = "CommitAttempt" then readCommitAttempt opts vars parts
    else .error .skipped

/-- The value of a variable. -/
def bound {α : Type} : Option α → Except Escape α
  | none => .error .raised
  | some a => .ok a

/-- `int`, which raises a `ValueError`. -/
def toInt (v : Value) : Except Escape ℤ :=
  match v.int with
  | none => .error .valueError
  | some n => .ok n

/-- The row that is appended to the data, its entries in their order of evaluation. -/
def appendRow (l : Locals) : Except Escape Row := do
  let group ← bound l.vars.group
  let epoch ← toInt (.text (← bound l.vars.epoch))
  let numUsers ← toInt (.text (← bound l.vars.numUsers))
  let userId ← bound l.vars.userId
  let size ← toInt l.size
  let otherSize ← toInt l.otherSize
  let numberOfProposals ← toInt (← bound l.vars.numberOfProposals)
  let timestamp ← toInt (.text (← bound l.vars.timestamp))
  let elapsed ← toInt (.text (← bound l.vars.elapsed))
  pure ⟨group, epoch, numUsers, userId, l.operation, l.targetUserId, size, otherSize,
    numberOfProposals, timestamp, elapsed⟩

/-- One pass of the loop: the variables afterwards, and the row. -/
def readLine (opts : Options) (vars : Vars) (line : String) : Vars × Except Escape Row :=
  match readParts opts vars (split line) with
  | .error e => (vars, .error e)
  | .ok l => (l.vars, appendRow l)

/-- The loop over the lines; `none` is an exception that leaves it. -/
def readLines (opts : Options) : Vars → List String → Option (List Row)
  | _, [] => some []
  | vars, line :: rest =>
    match readLine opts vars line with
    | (vars, .ok row) => (readLines opts vars rest).map (row :: ·)
    | (_, .error .raised) => none
    | (vars, .error _) => readLines opts vars rest

def readLogFile (opts : Options) (file : String) : Option (List Row) :=
  readLines opts .unbound (lines file)

end EmulatedMls.Logs
