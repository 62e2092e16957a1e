import EmulatedMls.Logs.RoundTrip

/-!
# The deep log

A second program reads the same log files and keeps only the lines with the times of the single
steps of a commit, in one table for those that made it and another one for those that processed it.

**Source.**  `read_log_file` of `log_scripts/deep_log_parser.py`.
-/

namespace EmulatedMls.Logs

open List

/-! ## Reading -/

/-- `int` of a part of the line. -/
def number (t : String) : Except Escape Value := Value.number <$> toInt (.text t)

/-- The branch of a `DeepCommit` line: the entries of its row. -/
def readDeepCommit : List String → Except Escape (List Value)
  | [group, epoch, numUsers, userId, "DeepCommit", _size, _bars, totalCommit, validation,
      applyProposals, tree, path, treeHash, parentHash, encryptPath, sign, schedule, welcome,
      _bars2, storageCommit, encrypt, _bars3, exported, _bars4, totalMerge, merge, storageMerge,
      timestamp, elapsed] => do
    let counts ← [epoch, numUsers].mapM number
    let times ← [totalCommit, validation, applyProposals, tree, path, treeHash, parentHash,
      encryptPath, sign, schedule, welcome, storageCommit, encrypt, exported, totalMerge, merge,
      storageMerge, timestamp, elapsed].mapM number
    pure (.text group :: counts ++ [.text userId, .text "DeepCommit"] ++ times)
  | _ => .error .skipped

def readDeepProcess : List String → Except Escape (List Value)
  | [group, epoch, numUsers, userId, "DeepProcess", _targetUserId, _bars, totalProcess, decrypt,
      verify, validation, applyProposals, tree, path, treeHash, parentHash, decryptPath, schedule,
      _bars2, totalMerge, merge, storage, timestamp, elapsed] => do
    let counts ← [epoch, numUsers].mapM number
    let times ← [totalProcess, decrypt, verify, validation, applyProposals, tree, path, treeHash,
      parentHash, decryptPath, schedule, totalMerge, merge, storage, timestamp, elapsed].mapM number
    pure (.text group :: counts ++ [.text userId, .text "DeepProcess"] ++ times)
  | _ => .error .skipped

def commitColumns : List String :=
  ["group", "epoch", "num_users", "user_id", "operation", "total_commit", "validation",
    "apply_proposals", "tree", "path", "tree_hash", "parent_hash", "encrypt_path", "sign",
    "schedule", "welcome", "storage_commit", "encrypt", "export", "total_merge", "merge",
    "storage_merge", "timestamp", "elapsed"]

def processColumns : List String :=
  ["group", "epoch", "num_users", "user_id", "operation", "total_process", "decrypt", "verify",
    "validation", "apply_proposals", "tree", "path", "tree_hash", "parent_hash", "decrypt_path",
    "schedule", "total_merge", "merge", "storage", "timestamp", "elapsed"]

/-- The rows of a table: those of the lines that `read` takes, with the names of their entries. -/
def table (columns : List String) (read : List String → Except Escape (List Value))
    (file : String) : List (List (String × Value)) :=
  (lines file).filterMap fun line => (columns.zip <$> read (split line)).toOption

/-- `read_log_file`.  A line that neither branch takes gives no row. -/
def readDeepLogFile (file : String) : List (List (String × Value)) × List (List (String × Value)) :=
  (table commitColumns readDeepCommit file, table processColumns readDeepProcess file)

/-! ## Rows -/

def count (n : ℕ) : Value := .number n

/-- What the table of commits should say about a record. -/
def deepCommitRow (username : String) (r : ActionRecord) : Option (List (String × Value)) :=
  match r.action with
  | .deepCommit _ c m => some
    [("group", .text r.groupName), ("epoch", count r.epoch), ("num_users", count r.numUsers),
      ("user_id", .text username), ("operation", .text "DeepCommit"),
      ("total_commit", count c.total), ("validation", count c.validation),
      ("apply_proposals", count c.applyProposals), ("tree", count c.tree), ("path", count c.path),
      ("tree_hash", count c.treeHash), ("parent_hash", count c.parentHash),
      ("encrypt_path", count c.encryptPath), ("sign", count c.sign),
      ("schedule", count c.schedule), ("welcome", count c.welcome),
      ("storage_commit", count c.storage), ("encrypt", count c.encrypt),
      ("export", count c.exported), ("total_merge", count m.total), ("merge", count m.merge),
      ("storage_merge", count m.storage), ("timestamp", .number r.timestamp),
      ("elapsed", count r.elapsedTime)]
  | _ => none

/-- What the table of processed commits should say about a record. -/
def deepProcessRow (username : String) (r : ActionRecord) : Option (List (String × Value)) :=
  match r.action with
  | .deepProcess _ c m => some
    [("group", .text r.groupName), ("epoch", count r.epoch), ("num_users", count r.numUsers),
      ("user_id", .text username), ("operation", .text "DeepProcess"),
      ("total_process", count c.total), ("decrypt", count c.decrypt), ("verify", count c.verify),
      ("validation", count c.validation), ("apply_proposals", count c.applyProposals),
      ("tree", count c.tree), ("path", count c.path), ("tree_hash", count c.treeHash),
      ("parent_hash", count c.parentHash), ("decrypt_path", count c.decryptPath),
      ("schedule", count c.schedule), ("total_merge", count m.total), ("merge", count m.merge),
      ("storage", count m.storage), ("timestamp", .number r.timestamp),
      ("elapsed", count r.elapsedTime)]
  | _ => none

variable {username : String} {r : ActionRecord} {buffers : List (List ActionRecord)}

lemma number_toString (n : ℕ) : number (toString n) = .ok (count n) := by
  simp only [number, toInt, Value.int, int_toString]
  rfl

lemma number_toString_int (n : ℤ) : number (toString n) = .ok (.number n) := by
  simp only [number, toInt, Value.int, int_toString_int]
  rfl

/-- **A line gives the row of its record**, or none. -/
lemma readDeepCommit_line (hn : r.Named) (hu : Word username) :
    (commitColumns.zip <$> readDeepCommit (split (r.line username))).toOption =
      deepCommitRow username r := by
  rw [split_line hn hu, deepCommitRow]
  obtain ⟨-, huser⟩ := hn
  cases haction : r.action with
  | deepCommit size c m =>
    simp only [CGKAAction.fields, cons_append, nil_append, readDeepCommit,
      mapM_cons, mapM_nil, number_toString, number_toString_int]
    rfl
  | process user | storeProp user | welcome user _ =>
    rw [haction] at huser
    simp only [CGKAAction.fields, (huser user rfl).ne_empty, if_false]
    rfl
  | _ => rfl

lemma readDeepProcess_line (hn : r.Named) (hu : Word username) :
    (processColumns.zip <$> readDeepProcess (split (r.line username))).toOption =
      deepProcessRow username r := by
  rw [split_line hn hu, deepProcessRow]
  obtain ⟨-, huser⟩ := hn
  cases haction : r.action with
  | deepProcess user c m =>
    simp only [CGKAAction.fields, cons_append, nil_append, readDeepProcess,
      mapM_cons, mapM_nil, number_toString, number_toString_int]
    rfl
  | process user | storeProp user | welcome user _ =>
    rw [haction] at huser
    simp only [CGKAAction.fields, (huser user rfl).ne_empty, if_false]
    rfl
  | _ => rfl

lemma table_logFile {columns : List String} {read : List String → Except Escape (List Value)}
    (hu : Word username) (hn : ∀ b ∈ buffers, ∀ r ∈ b, r.Named)
    (hempty : (columns.zip <$> read []).toOption = none) :
    table columns read (logFile username buffers) =
      buffers.flatten.filterMap fun r =>
        (columns.zip <$> read (split (r.line username))).toOption := by
  rw [table, lines_logFile hu hn, filterMap_map, filterMap_flushed hempty]
  rfl

/-- **Deep log round trip.**  The reader makes one row for each `DeepCommit` and one for each
    `DeepProcess`, in order and with every entry in the column of its name. -/
theorem deep_log_round_trip (hu : Word username) (hn : ∀ b ∈ buffers, ∀ r ∈ b, r.Named) :
    readDeepLogFile (logFile username buffers) =
      (buffers.flatten.filterMap (deepCommitRow username),
        buffers.flatten.filterMap (deepProcessRow username)) := by
  have hnamed : ∀ r ∈ buffers.flatten, r.Named := fun r hr => by
    obtain ⟨b, hb, hr⟩ := mem_flatten.mp hr
    exact hn b hb r hr
  rw [readDeepLogFile, table_logFile hu hn rfl, table_logFile hu hn rfl,
    filterMap_congr fun r hr => readDeepCommit_line (hnamed r hr) hu,
    filterMap_congr fun r hr => readDeepProcess_line (hnamed r hr) hu]

/-- The record of a processed commit behind that of a plain commit. -/
theorem deep_log_round_trip_process :
    (readDeepLogFile (logFile "B" [[commitRecord 3, deepProcessRecord]])).2.map (·.map Prod.snd) =
      [[.text "G", .number 2, .number 2, .text "B", .text "DeepProcess"] ++
        [9, 1, 2, 3, 4, 5, 6, 7, 8, 9, 10, 3, 12, 11, 1005, 8].map .number] := by
  have hread : readDeepLogFile (logFile "B" [[commitRecord 3, deepProcessRecord]]) = _ :=
    deep_log_round_trip (by decide +kernel) (by
      simp only [forall_mem_cons]
      refine ⟨⟨⟨by decide +kernel, by simp [commitRecord, CGKAAction.details]⟩,
        ⟨by decide +kernel, ?_⟩, by simp⟩, by simp⟩
      rintro user ⟨rfl⟩
      decide +kernel)
  rw [hread]
  decide +kernel

end EmulatedMls.Logs
