import Mathlib.Data.List.Basic

/-!
# Logs with a buffer

The entries of a log wait in a buffer until it is flushed to a file.  A flush is made on request,
when the buffer has reached its limit, or right after an urgent entry.  A flush that the file
refuses loses what is in the buffer.
-/

namespace EmulatedMls

/-- A log with its buffer and the entries of its file. -/
structure BufferedLog (α : Type*) where
  buffer : List α
  file : List α
  deriving DecidableEq

namespace BufferedLog

variable {α : Type*}

inductive Op (α : Type*) where
  | flush
  | push (a : α)
  deriving DecidableEq

def Op.entry : Op α → Option α
  | .flush => none
  | .push a => some a

/-- Write the buffer to the file. -/
def flush (ok : Bool) (l : BufferedLog α) : BufferedLog α :=
  ⟨[], if ok then l.file ++ l.buffer else l.file⟩

variable (limit : ℕ) (urgent : α → Bool)

/-- Append an entry to the buffer, and flush it if it is full or the entry is urgent. -/
def push (ok : Bool) (a : α) (l : BufferedLog α) : BufferedLog α :=
  let l := { l with buffer := l.buffer ++ [a] }
  if limit ≤ l.buffer.length ∨ urgent a = true then l.flush ok else l

def apply (ok : Bool) (l : BufferedLog α) : Op α → BufferedLog α
  | .flush => l.flush ok
  | .push a => l.push limit urgent ok a

def run (ok : Bool) (l : BufferedLog α) (ops : List (Op α)) : BufferedLog α :=
  ops.foldl (apply limit urgent ok) l

/-- What is written and what waits, in this order. -/
def entries (l : BufferedLog α) : List α := l.file ++ l.buffer

@[simp] lemma entries_flush (l : BufferedLog α) : (l.flush true).entries = l.entries := by
  simp [entries, flush]

lemma entries_apply (l : BufferedLog α) (op : Op α) :
    (apply limit urgent true l op).entries = l.entries ++ op.entry.toList := by
  cases op with
  | flush => simp [apply, Op.entry]
  | push a =>
    simp only [apply, push]
    split_ifs <;> simp [entries, flush, Op.entry]

/-- **No entry is lost, repeated or out of order**, as long as the file takes what is flushed. -/
lemma entries_run (l : BufferedLog α) (ops : List (Op α)) :
    (run limit urgent true l ops).entries = l.entries ++ ops.filterMap Op.entry := by
  induction ops generalizing l with
  | nil => simp [run]
  | cons op ops ih =>
    have hrest : (run limit urgent true (apply limit urgent true l op) ops).entries =
        l.entries ++ op.entry.toList ++ ops.filterMap Op.entry := by
      rw [ih, entries_apply]
    refine hrest.trans ?_
    cases h : op.entry <;> simp [h]

variable {a : α}

lemma buffer_push_of_urgent (h : urgent a = true) (ok : Bool) (l : BufferedLog α) :
    (l.push limit urgent ok a).buffer = [] := by
  simp [push, h, flush]

lemma buffer_push_flush (h : urgent a = false) (hlimit : 1 < limit) (ok ok' : Bool)
    (l : BufferedLog α) : ((l.flush ok).push limit urgent ok' a).buffer = [a] := by
  have hroom : ¬ limit ≤ 1 := by omega
  simp [push, h, flush, hroom]

end BufferedLog

end EmulatedMls
