import EmulatedMls.Logs.Format

/-!
# What the parser reads back

The reader gets back what the writer has written, record by record and whatever stands in front of
it, for the actions whose tokens it unpacks as they are laid out.
-/

namespace EmulatedMls.Logs

open List

/-! ## Tokens -/

/-- A text that `split` gives back as its only part. -/
def Word (t : String) : Prop := IsWord isSpace t.toList

variable {t username : String} {action : CGKAAction} {opts : Options} {r : ActionRecord}

lemma word_iff : (!t.toList.isEmpty && t.toList.all fun c => !isSpace c) = true ↔ Word t := by
  simp [Word, IsWord]

instance (t : String) : Decidable (Word t) := decidable_of_iff _ word_iff

lemma split_of_word (h : Word t) : split t = [t] := by
  rw [split, words_of_isWord h, map_singleton, String.ofList_toList]

lemma split_joined (ts : List String) : split (joined ts) = ts.flatMap split := by
  rw [split, joined, String.toList_intercalate, show " ".toList = [' '] from rfl,
    words_intercalate (by decide), map_flatMap, flatMap_map]
  rfl

lemma isSpace_of_isDigit {c : Char} (h : c.isDigit = true) : isSpace c = false := by
  simp only [Char.isDigit, ge_iff_le, Bool.and_eq_true, decide_eq_true_eq,
    UInt32.le_iff_toNat_le] at h
  have h1 : 48 ≤ c.toNat := h.1
  have h2 : c.toNat ≤ 57 := h.2
  simp only [isSpace, Bool.or_eq_false_iff, Bool.and_eq_false_iff, decide_eq_false_iff_not,
    beq_eq_false_iff_ne]
  omega

lemma word_digits (n : ℕ) : IsWord isSpace (Nat.toDigits 10 n) :=
  ⟨Nat.toDigits_ne_nil, fun _ hc =>
    isSpace_of_isDigit (Nat.isDigit_of_mem_toDigits (by decide) (by decide) hc)⟩

lemma toList_toString (n : ℕ) : (toString n).toList = Nat.toDigits 10 n := by
  rw [Nat.toString_eq_ofList_toDigits, String.toList_ofList]

lemma word_toString (n : ℕ) : Word (toString n) := by
  rw [Word, toList_toString]
  exact word_digits n

@[simp] lemma word_repr (n : ℕ) : Word n.repr := word_toString n

lemma word_toString_int (n : ℤ) : Word (toString n) := by
  cases n with
  | ofNat n => exact word_toString n
  | negSucc n =>
    show IsWord isSpace ("-" ++ toString (n + 1)).toList
    rw [String.toList_append, toList_toString]
    obtain ⟨-, h⟩ := word_digits (n + 1)
    refine ⟨by simp, fun c hc => ?_⟩
    rcases mem_append.mp hc with hc | hc
    · obtain rfl : c = '-' := by simpa using hc
      rfl
    · exact h c hc

lemma digits_toDigits (n : ℕ) : digits (Nat.toDigits 10 n) = some n := by
  have hsingle : (Nat.toDigits 10 n).splitOn '_' = [Nat.toDigits 10 n] := by
    refine splitOnP_eq_singleton fun c hc => ?_
    simp only [beq_eq_false_iff_ne]
    rintro rfl
    exact Nat.underscore_not_in_toDigits hc
  have hall : (Nat.toDigits 10 n).all Char.isDigit = true := all_eq_true.mpr fun c hc =>
    Nat.isDigit_of_mem_toDigits (by decide) (by decide) hc
  simp [digits, hsingle, hall, Nat.ofDigitChars_toDigits]

/-- **`int` is inverse to printing.** -/
lemma int_toString (n : ℕ) : int (toString n) = some (n : ℤ) := by
  have hdigit : ∀ c ∈ Nat.toDigits 10 n, c.isDigit = true := fun c hc =>
    Nat.isDigit_of_mem_toDigits (by decide) (by decide) hc
  rw [int, toList_toString]
  split
  · next ds h => exact absurd (hdigit '-' (by simp [h])) (by decide)
  · next ds h => exact absurd (hdigit '+' (by simp [h])) (by decide)
  · rw [digits_toDigits]
    rfl

lemma int_toString_int (n : ℤ) : int (toString n) = some n := by
  cases n with
  | ofNat n => exact int_toString n
  | negSucc n =>
    have h : (toString (Int.negSucc n)).toList = '-' :: Nat.toDigits 10 (n + 1) := by
      show ("-" ++ toString (n + 1)).toList = _
      rw [String.toList_append, toList_toString]
      rfl
    simp only [int, h, digits_toDigits]
    rfl

/-! ## Rows -/

/-- What a row should say about an action. -/
structure Details where
  operation : String
  targetUserId : Option String
  size : ℕ
  otherSize : ℕ
  numberOfProposals : ℕ

/-- The entries of an action.  A wrapped action keeps those of the inner one. -/
def CGKAAction.details : CGKAAction → Details
  | .propose action => { action.details with operation := "Propose", numberOfProposals := 0 }
  | .commit proposals size => ⟨"Commit", none, size, 0, proposals.length⟩
  | .join cSize giSize => ⟨"Join", none, cSize, giSize, 1⟩
  | .update size => ⟨"Update", none, size, 0, 1⟩
  | .invite user size => ⟨"Invite", user, size, 0, 1⟩
  | .remove user size => ⟨"Remove", user, size, 0, 1⟩
  | .process user => ⟨"Process", user, 0, 0, 0⟩
  | .storeProp user => ⟨"StoreProp", user, 0, 0, 0⟩
  | .welcome user size => ⟨"Welcome", user, 0, size, 0⟩
  | .deepCommit size _ _ => ⟨"DeepCommit", none, size, 0, 1⟩
  | .deepProcess user _ _ => ⟨"DeepProcess", user, 0, 0, 0⟩
  | .create => ⟨"Create", none, 0, 0, 1⟩
  | .commitAttempt action => { action.details with operation := "CommitAttempt" }

/-- The row of a record, field by field. -/
def ActionRecord.row (username : String) (r : ActionRecord) : Row where
  group := r.groupName
  epoch := r.epoch
  numUsers := r.numUsers
  userId := username
  operation := r.action.details.operation
  targetUserId := r.action.details.targetUserId
  size := r.action.details.size
  otherSize := r.action.details.otherSize
  numberOfProposals := r.action.details.numberOfProposals
  timestamp := r.timestamp
  elapsedTime := r.elapsedTime

/-- The names of a record are words. -/
def ActionRecord.Named (r : ActionRecord) : Prop :=
  Word r.groupName ∧ ∀ user ∈ r.action.details.targetUserId, Word user

/-- The actions whose tokens are unpacked as they are laid out. -/
def CGKAAction.Readable : CGKAAction → Prop
  | .propose action => match action with
    | .invite _ _ | .remove _ _ | .update _ => True
    | _ => False
  | .commitAttempt action => match action with
    | .commit _ _ | .invite _ _ | .remove _ _ | .update _ | .join _ _ => True
    | _ => False
  | .deepProcess _ _ _ => False
  | _ => True

/-- The lines that the options leave out. -/
def CGKAAction.ignored (opts : Options) (elapsed : ℕ) : CGKAAction → Bool
  | .remove _ _ => opts.ignoreRemove
  | .propose action | .commitAttempt action => match action with
    | .remove _ _ => opts.ignoreRemove
    | _ => false
  | .process _ | .storeProp _ => opts.ignoreZeros && elapsed == 0
  | _ => false

/-- What the reader should make of a line. -/
def ActionRecord.outcome (opts : Options) (username : String) (r : ActionRecord) :
    Except Escape Row :=
  if r.action.ignored opts r.elapsedTime then .error .skipped else .ok (r.row username)

lemma Word.ne_empty (h : Word t) : t ≠ "" := by
  rintro rfl
  exact h.1 rfl

lemma word_keywords : Word "Propose" ∧ Word "Commit" ∧ Word "Join" ∧ Word "Update" ∧ Word "Invite" ∧
    Word "Remove" ∧ Word "Process" ∧ Word "StoreProp" ∧ Word "Welcome" ∧ Word "DeepCommit" ∧
    Word "DeepProcess" ∧ Word "Create" ∧ Word "CommitAttempt" ∧ Word "||" := by
  decide +kernel

lemma word_fields : ∀ {action : CGKAAction},
    (∀ user ∈ action.details.targetUserId, Word user) → ∀ t ∈ action.fields, Word t
  | .propose action, h => forall_mem_cons.mpr ⟨word_keywords.1, @word_fields action h⟩
  | .commitAttempt action, h =>
    forall_mem_cons.mpr ⟨by simp only [word_keywords], @word_fields action h⟩
  | .process user, h | .storeProp user, h | .welcome user _, h => by
      have huser := h user rfl
      simp only [CGKAAction.fields, huser.ne_empty, if_false]
      simp [huser, word_keywords]
  | .invite user _, h | .remove user _, h | .deepProcess user _ _, h => by
      have huser := h user rfl
      simp [CGKAAction.fields, huser, word_keywords]
  | .commit _ _, _ | .join _ _, _ | .update _, _ | .deepCommit _ _ _, _ | .create, _ => by
      simp [CGKAAction.fields, word_keywords]

lemma split_display (h : ∀ user ∈ action.details.targetUserId, Word user) :
    split action.display = action.fields := by
  have hwords : ∀ ts : List String, (∀ t ∈ ts, Word t) → ts.flatMap split = ts := by
    intro ts hts
    induction ts with
    | nil => rfl
    | cons t ts ih =>
      obtain ⟨ht, hts⟩ := forall_mem_cons.mp hts
      rw [flatMap_cons, split_of_word ht, ih hts, singleton_append]
  rw [CGKAAction.display, split_joined, hwords _ (word_fields h)]

variable {group userId operation : String} {elapsed : ℕ}

lemma toInt_toString (n : ℕ) : toInt (.text (toString n)) = .ok (n : ℤ) := by
  simp only [toInt, Value.int, int_toString]

lemma appendRow_assigned {target : Option String} {epoch numUsers : ℕ}
    {timestamp size otherSize number : ℤ} {v s o : Value} (hv : v.int = some number)
    (hs : s.int = some size) (ho : o.int = some otherSize) :
    appendRow ⟨.assigned group (toString epoch) (toString numUsers) userId (toString timestamp)
      (toString elapsed) (some v), operation, target, s, o⟩ =
      .ok ⟨group, epoch, numUsers, userId, operation, target, size, otherSize, number, timestamp,
        elapsed⟩ := by
  have hint (n : ℤ) : toInt (.text (toString n)) = .ok n := by
    simp only [toInt, Value.int, int_toString_int]
  have hval {w : Value} {n : ℤ} (hw : w.int = some n) : toInt w = .ok n := by
    simp only [toInt, hw]
  simp only [appendRow, Vars.assigned, bound, bind, Except.bind, toInt_toString, hint, hval hv,
    hval hs, hval ho]
  rfl

lemma readParts_process {vars : Vars} {epoch numUsers : String} {user timestamp : String}
    (h : operation = "Process" ∨ operation = "StoreProp") :
    readParts opts vars [group, epoch, numUsers, userId, operation, user, timestamp,
        toString elapsed] =
      if opts.ignoreZeros && elapsed == 0 then .error .skipped
      else .ok ⟨.assigned group epoch numUsers userId timestamp (toString elapsed)
        (some (.number 0)), operation, user, .number 0, .number 0⟩ := by
  have hint : int elapsed.repr = some (elapsed : ℤ) := int_toString elapsed
  cases hzeros : opts.ignoreZeros <;> rcases h with rfl | rfl <;> simp [readParts, hint, hzeros]

/-- **How the parts of a line are unpacked.** -/
lemma readParts_fields (hr : action.Readable) (ht : ∀ user ∈ action.details.targetUserId, Word user)
    (vars : Vars) (group epoch numUsers userId timestamp : String) (elapsed : ℕ) :
    ∃ v s o, v.int = some (action.details.numberOfProposals : ℤ) ∧
      s.int = some (action.details.size : ℤ) ∧ o.int = some (action.details.otherSize : ℤ) ∧
      readParts opts vars (group :: epoch :: numUsers :: userId ::
          (action.fields ++ [timestamp, toString elapsed])) =
        if action.ignored opts elapsed then .error .skipped
        else .ok ⟨.assigned group epoch numUsers userId timestamp (toString elapsed) (some v),
          action.details.operation, action.details.targetUserId, s, o⟩ := by
  obtain ⟨ignoreRemove, ignoreZeros⟩ := opts
  cases action with
  | create => exact ⟨.number 1, .number 0, .number 0, rfl, rfl, rfl, rfl⟩
  | commit proposals size =>
    exact ⟨.text (toString proposals.length), .text (toString size), .number 0, int_toString _,
      int_toString _, rfl, rfl⟩
  | join cSize giSize =>
    exact ⟨.number 1, .text (toString cSize), .text (toString giSize), rfl, int_toString _,
      int_toString _, rfl⟩
  | update size | invite user size | deepCommit size crypto merge =>
    exact ⟨.number 1, .text (toString size), .number 0, rfl, int_toString _, rfl, rfl⟩
  | remove user size =>
    refine ⟨.number 1, .text (toString size), .number 0, rfl, int_toString _, rfl, ?_⟩
    cases ignoreRemove <;> rfl
  | deepProcess user crypto merge => exact hr.elim
  | welcome user size =>
    refine ⟨.number 0, .number 0, .text (toString size), rfl, rfl, int_toString _, ?_⟩
    simp only [CGKAAction.fields, (ht user rfl).ne_empty, if_false]
    rfl
  | process user =>
    refine ⟨.number 0, .number 0, .number 0, rfl, rfl, rfl, ?_⟩
    simp only [CGKAAction.fields, (ht user rfl).ne_empty, if_false]
    exact readParts_process (.inl rfl)
  | storeProp user =>
    refine ⟨.number 0, .number 0, .number 0, rfl, rfl, rfl, ?_⟩
    simp only [CGKAAction.fields, (ht user rfl).ne_empty, if_false]
    exact readParts_process (.inr rfl)
  | propose action =>
    cases action with
    | invite user size | update size =>
      exact ⟨.number 0, .text (toString size), .number 0, rfl, int_toString _, rfl, rfl⟩
    | remove user size =>
      refine ⟨.number 0, .text (toString size), .number 0, rfl, int_toString _, rfl, ?_⟩
      cases ignoreRemove <;> rfl
    | _ => exact hr.elim
  | commitAttempt action =>
    cases action with
    | commit proposals size =>
      exact ⟨.text (toString proposals.length), .text (toString size), .number 0,
        int_toString _, int_toString _, rfl, rfl⟩
    | invite user size | update size =>
      exact ⟨.number 1, .text (toString size), .number 0, rfl, int_toString _, rfl, rfl⟩
    | remove user size =>
      refine ⟨.number 1, .text (toString size), .number 0, rfl, int_toString _, rfl, ?_⟩
      cases ignoreRemove <;> rfl
    | join cSize giSize =>
      exact ⟨.number 1, .text (toString cSize), .text (toString giSize), rfl, int_toString _,
        int_toString _, rfl⟩
    | _ => exact hr.elim

section

variable (hn : r.Named) (hu : Word username)
include hn hu

lemma split_line :
    split (r.line username) = r.groupName :: toString r.epoch :: toString r.numUsers ::
      username :: (r.action.fields ++ [toString r.timestamp, toString r.elapsedTime]) := by
  simp only [ActionRecord.line, split_joined, flatMap_cons, flatMap_nil,
    split_of_word hn.1, split_of_word hu, split_of_word (word_toString _),
    split_of_word (word_toString_int _), split_display hn.2, singleton_append]

/-- **One line is read back**, in any state of the reader. -/
lemma readLine_line (hr : r.action.Readable) (vars : Vars) :
    (readLine opts vars (r.line username)).2 = r.outcome opts username := by
  obtain ⟨v, s, o, hv, hs, ho, hread⟩ := readParts_fields hr hn.2 vars r.groupName
    (toString r.epoch) (toString r.numUsers) username (toString r.timestamp) r.elapsedTime
  rw [readLine, split_line hn hu, hread, ActionRecord.outcome]
  split_ifs
  · rfl
  · exact appendRow_assigned hv hs ho

/-- **Any other line raises an exception at the start of a file**: a variable is not bound. -/
lemma readLine_unreadable (hr : ¬ r.action.Readable) :
    (readLine opts .unbound (r.line username)).2 = .error .raised := by
  have hword : ∀ user ∈ r.action.details.targetUserId, user ≠ "" :=
    fun user h => (hn.2 user h).ne_empty
  rw [readLine, split_line hn hu]
  cases ha : r.action with
  | deepProcess user crypto merge =>
    simp only [CGKAAction.fields, cons_append, nil_append]
    show appendRow _ = _
    simp only [appendRow, Vars.assigned, bound, bind, Except.bind, toInt_toString]
    rfl
  | propose action =>
    cases action with
    | invite | remove | update => simp [ha, CGKAAction.Readable] at hr
    | process user | storeProp user | welcome user _ =>
      simp only [CGKAAction.fields, hword user (by rw [ha]; rfl), if_false]
      rfl
    | _ => rfl
  | commitAttempt action =>
    cases action with
    | commit | invite | remove | update | join => simp [ha, CGKAAction.Readable] at hr
    | process user | storeProp user | welcome user _ =>
      simp only [CGKAAction.fields, hword user (by rw [ha]; rfl), if_false]
      rfl
    | _ => rfl
  | _ => simp [ha, CGKAAction.Readable] at hr

end

/-! ## Files -/

def Inline (t : String) : Prop := ∀ c ∈ t.toList, isLineEnd c = false

lemma Word.inline (h : Word t) : Inline t := by
  intro c hc
  have hspace := h.2 c hc
  by_contra hend
  have hcases : c = '\n' ∨ c = '\r' := by
    simpa only [isLineEnd, Bool.not_eq_false, Bool.or_eq_true, beq_iff_eq] using hend
  rcases hcases with rfl | rfl
  · exact absurd hspace (by decide)
  · exact absurd hspace (by decide)

lemma inline_joined {ts : List String} (h : ∀ t ∈ ts, Inline t) : Inline (joined ts) := by
  have hchars : ∀ ls : List (List Char), (∀ l ∈ ls, ∀ c ∈ l, isLineEnd c = false) →
      ∀ c ∈ [' '].intercalate ls, isLineEnd c = false := by
    intro ls hls
    induction ls with
    | nil => simp [List.intercalate]
    | cons l ls ih =>
      obtain ⟨hl, hls⟩ := forall_mem_cons.mp hls
      cases ls with
      | nil => simpa [List.intercalate] using hl
      | cons l' ls =>
        intro c hc
        rw [intercalate_cons_cons, mem_append, mem_append] at hc
        rcases hc with (hc | hc) | hc
        · exact hl c hc
        · rw [mem_singleton.mp hc]
          rfl
        · exact ih hls c hc
  intro c hc
  rw [joined, String.toList_intercalate] at hc
  refine hchars _ (fun l hl => ?_) c hc
  obtain ⟨t, ht, rfl⟩ := mem_map.mp hl
  exact h t ht

lemma inline_line (hn : r.Named) (hu : Word username) : Inline (r.line username) := by
  refine inline_joined ?_
  simp only [forall_mem_cons]
  exact ⟨hn.1.inline, (word_toString _).inline, (word_toString _).inline, hu.inline,
    inline_joined fun t ht => (word_fields hn.2 t ht).inline, (word_toString_int _).inline,
    (word_toString _).inline, by simp⟩

/-- The lines that a call of `flush_logs` writes: an empty one for an empty buffer. -/
def flushed (buffer : List ActionRecord) : List (Option ActionRecord) :=
  if buffer = [] then [none] else buffer.map some

/-- The text of a line, and what the reader should make of it. -/
def lineText (username : String) : Option ActionRecord → String
  | none => ""
  | some r => r.line username

def lineOutcome (opts : Options) (username : String) : Option ActionRecord → Except Escape Row
  | none => .error .skipped
  | some r => r.outcome opts username

lemma mem_flushed {buffer : List ActionRecord} (h : some r ∈ flushed buffer) : r ∈ buffer := by
  unfold flushed at h
  split_ifs at h
  · simp at h
  · simpa using h

/-- Every line that `flush_logs` writes is ended. -/
lemma toList_flushLogs (username : String) (buffer : List ActionRecord) :
    (flushLogs username buffer).toList =
      (((flushed buffer).map fun x => (lineText username x).toList).flatMap
        fun l => l ++ ['\n']) := by
  rw [flushLogs, String.toList_append, String.toList_intercalate]
  unfold flushed
  split_ifs with h
  · rw [h]
    rfl
  · rw [show "\n".toList = ['\n'] from rfl, intercalate_append_singleton (by simpa using h)]
    simp [map_map, Function.comp_def, lineText]

/-- **The lines of a file are the lines that were written**, and an empty one. -/
lemma lines_logFile {buffers : List (List ActionRecord)} (hu : Word username)
    (hn : ∀ b ∈ buffers, ∀ r ∈ b, r.Named) :
    lines (logFile username buffers) =
      (buffers.flatMap flushed ++ [none]).map (lineText username) := by
  have hfile : (logFile username buffers).toList =
      ((buffers.flatMap flushed).map fun x => (lineText username x).toList).flatMap
        fun l => l ++ ['\n'] := by
    rw [logFile, String.toList_join, flatMap_map]
    simp only [toList_flushLogs, map_flatMap, flatMap_assoc]
  have hinline : ∀ l ∈ (buffers.flatMap flushed).map fun x => (lineText username x).toList,
      ∀ c ∈ l, isLineEnd c = false := by
    intro l hl
    obtain ⟨x, hx, rfl⟩ := mem_map.mp hl
    obtain ⟨b, hb, hx⟩ := mem_flatMap.mp hx
    cases x with
    | none => simp [lineText]
    | some r => exact inline_line (hn b hb r (mem_flushed hx)) hu
  rw [lines, hfile, ← append_nil (List.flatMap _ _), splitOnP_terminated (by decide) hinline]
  simp [map_map, Function.comp_def, lineText]

lemma readLines_map {ι : Type} {text : ι → String} {outcome : ι → Except Escape Row} {is : List ι}
    (h : ∀ i ∈ is, ∀ vars, (readLine opts vars (text i)).2 = outcome i)
    (hraised : ∀ i ∈ is, outcome i ≠ .error .raised) (vars : Vars) :
    readLines opts vars (is.map text) = some (is.filterMap fun i => (outcome i).toOption) := by
  induction is generalizing vars with
  | nil => rfl
  | cons i is ih =>
    obtain ⟨hi, h⟩ := forall_mem_cons.mp h
    obtain ⟨hi', hraised⟩ := forall_mem_cons.mp hraised
    rcases hread : readLine opts vars (text i) with ⟨vars', out⟩
    obtain rfl : out = outcome i := by rw [← hi vars, hread]
    rw [map_cons, readLines, hread]
    rcases hout : outcome i with e | row
    · cases e with
      | raised => exact absurd hout hi'
      | _ => simp [ih h hraised, hout, Except.toOption]
    · simp [ih h hraised, hout, Except.toOption]

lemma filterMap_flushed {α : Type} {f : Option ActionRecord → Option α} (hf : f none = none)
    (buffers : List (List ActionRecord)) :
    (buffers.flatMap flushed ++ [none]).filterMap f = buffers.flatten.filterMap (f ∘ some) := by
  have hflushed (b : List ActionRecord) : (flushed b).filterMap f = b.filterMap (f ∘ some) := by
    unfold flushed
    split_ifs with h
    · simp [h, hf]
    · rw [filterMap_map]
  rw [filterMap_append, filterMap_cons_none hf, filterMap_nil, append_nil,
    filterMap_flatMap, filterMap_flatten]
  simp only [hflushed]
  rfl

lemma filterMap_outcome (opts : Options) (username : String) (buffers : List (List ActionRecord)) :
    ((buffers.flatMap flushed ++ [none]).filterMap
        fun x => (lineOutcome opts username x).toOption) =
      (buffers.flatten.filter fun r => !r.action.ignored opts r.elapsedTime).map
        (·.row username) := by
  have hrow (r : ActionRecord) : (r.outcome opts username).toOption =
      if !r.action.ignored opts r.elapsedTime then some (r.row username) else none := by
    cases h : r.action.ignored opts r.elapsedTime <;>
      simp [ActionRecord.outcome, h, Except.toOption]
  rw [filterMap_flushed rfl, ← filterMap_eq_map, filterMap_filter]
  exact filterMap_congr fun r _ => hrow r

lemma outcome_ne_raised (opts : Options) (username : String) (r : ActionRecord) :
    r.outcome opts username ≠ .error .raised := by
  unfold ActionRecord.outcome
  split_ifs <;> simp

/-- **Log round trip.**  The rows are those of the records, apart from the ones that the options
    leave out, and each line is read alike whatever stands before it, if and only if every action is
    readable. -/
theorem log_round_trip (opts : Options) {username : String} {buffers : List (List ActionRecord)}
    (hu : Word username) (hn : ∀ b ∈ buffers, ∀ r ∈ b, r.Named) :
    (readLogFile opts (logFile username buffers) =
        some ((buffers.flatten.filter fun r => !r.action.ignored opts r.elapsedTime).map
          (·.row username)) ∧
      ∀ b ∈ buffers, ∀ r ∈ b, ∀ vars,
        (readLine opts vars (r.line username)).2 = r.outcome opts username) ↔
    ∀ b ∈ buffers, ∀ r ∈ b, r.action.Readable := by
  constructor
  · rintro ⟨-, hlines⟩ b hb r hrb
    by_contra hr
    exact outcome_ne_raised opts username r
      ((hlines b hb r hrb _).symm.trans (readLine_unreadable (hn b hb r hrb) hu hr))
  intro hr
  have hlines : ∀ b ∈ buffers, ∀ r ∈ b, ∀ vars,
      (readLine opts vars (r.line username)).2 = r.outcome opts username :=
    fun b hb r hrb => readLine_line (hn b hb r hrb) hu (hr b hb r hrb)
  refine ⟨?_, hlines⟩
  have hread : ∀ x ∈ buffers.flatMap flushed ++ [none], ∀ vars,
      (readLine opts vars (lineText username x)).2 = lineOutcome opts username x := by
    intro x hx vars
    cases x with
    | none => rfl
    | some r =>
      obtain ⟨b, hb, hrb⟩ := mem_flatMap.mp (by simpa using hx)
      exact hlines b hb r (mem_flushed hrb) vars
  have hraised : ∀ x ∈ buffers.flatMap flushed ++ [none],
      lineOutcome opts username x ≠ .error .raised := by
    rintro (_ | r) -
    · simp [lineOutcome]
    · exact outcome_ne_raised opts username r
  rw [readLogFile, lines_logFile hu hn, readLines_map hread hraised, filterMap_outcome]

def commitRecord (proposals : ℕ) : ActionRecord :=
  ⟨"G", .commit (List.replicate proposals (.update 0)) 300, 1, 1000, 7, 2⟩

def deepProcessRecord : ActionRecord :=
  ⟨"G", .deepProcess "A" ⟨9, 1, 2, 3, 4, 5, 6, 7, 8, 9, 10⟩ ⟨3, 11, 12⟩, 2, 1005, 8, 2⟩

/-- **A `DeepProcess` is misread.**  The sender is read as the bars behind it, and the number of
    proposals is that of the line in front. -/
theorem deepProcess_misread :
    deepProcessRecord.Named ∧
      (readLogFile options (logFile "B" [[commitRecord 3, deepProcessRecord]])).map (fun rows =>
        rows.map fun row => (row.operation, row.targetUserId, row.numberOfProposals)) =
          some [("Commit", none, 3), ("DeepProcess", some "||", 3)] ∧
      (readLogFile options (logFile "B" [[commitRecord 5, deepProcessRecord]])).map (fun rows =>
        rows.map fun row => (row.operation, row.targetUserId, row.numberOfProposals)) =
          some [("Commit", none, 5), ("DeepProcess", some "||", 5)] ∧
      readLogFile options (logFile "B" [[deepProcessRecord]]) = none := by
  refine ⟨⟨by decide +kernel, ?_⟩, by decide +kernel, by decide +kernel, by decide +kernel⟩
  decide +kernel

/-- A commit and a fast `Process`, which the options leave out. -/
theorem log_round_trip_commit :
    readLogFile options (logFile "B" [[commitRecord 3], [⟨"G", .process "A", 2, 1005, 0, 2⟩]]) =
      some [⟨"G", 1, 2, "B", "Commit", none, 300, 0, 3, 1000, 7⟩] := by
  refine ((log_round_trip options (by decide +kernel) ?_).mpr ?_).1
  · simp only [forall_mem_cons]
    refine ⟨⟨⟨by decide +kernel, by simp [commitRecord, CGKAAction.details]⟩, by simp⟩,
      ⟨⟨by decide +kernel, ?_⟩, by simp⟩, by simp⟩
    rintro user ⟨rfl⟩
    decide +kernel
  · simp [commitRecord, CGKAAction.Readable]

end EmulatedMls.Logs
