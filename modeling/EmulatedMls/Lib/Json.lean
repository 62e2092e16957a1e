import EmulatedMls.Lib.Framing
import Mathlib.Data.Nat.Digits.Lemmas

/-!
# JSON texts

The compact texts of numbers, arrays and objects with one field, as bytes.  A JSON text can be
told from what follows it unless the value is a number and the next byte is a digit.

**Format.**  It is what `serde_json` documents for `to_vec`: decimal numbers without superfluous
zeros, a byte vector as an array of numbers, and no blanks.  The readers accept this form only.
-/

namespace EmulatedMls.Json

open List

/-! ## Bytes -/

/-- The bytes of an ASCII text. -/
def ascii (s : String) : List UInt8 := s.toList.map fun c => UInt8.ofNat c.toNat

def isDigit (b : UInt8) : Bool := 48 ≤ b && b ≤ 57

/-- The text does not go on with a digit. -/
def NoDigit (r : List UInt8) : Prop := ∀ b ∈ r.head?, isDigit b = false

lemma noDigit_nil : NoDigit [] := by simp [NoDigit]

lemma noDigit_cons {b : UInt8} (hb : isDigit b = false) (r : List UInt8) : NoDigit (b :: r) := by
  simp [NoDigit, hb]

variable {r : List UInt8}

lemma takeWhile_isDigit {w : List UInt8} (hw : ∀ b ∈ w, isDigit b = true) (hr : NoDigit r) :
    (w ++ r).takeWhile isDigit = w := by
  have hrest : r.takeWhile isDigit = [] := by
    cases r with
    | nil => rfl
    | cons b r => simp [hr b rfl]
  rw [takeWhile_append_of_pos hw, hrest, append_nil]

abbrev Reader := StateT (List UInt8) Option

def byte (b : UInt8) : Reader Unit
  | [] => none
  | c :: cs => if c = b then some ((), cs) else none

def text (w : List UInt8) : Reader Unit := w.forM byte

lemma reads_byte (b : UInt8) : Reads Anything (byte b) [b] () := by
  intro r _
  simp [byte]

lemma reads_text (w : List UInt8) : Reads Anything (text w) w () := by
  induction w with
  | nil => exact Reads.pure ()
  | cons b w ih => exact (reads_byte b).bind ih fun _ _ => trivial

/-! ## Numbers -/

/-- The decimal digits of a number, the leading one first. -/
def decimal (n : ℕ) : List UInt8 :=
  if n = 0 then [48] else (Nat.digits 10 n).reverse.map fun d => UInt8.ofNat (48 + d)

/-- The number with these digits. -/
def value (w : List UInt8) : ℕ := w.foldl (fun n b => 10 * n + (b.toNat - 48)) 0

/-- A number, without superfluous zeros in front. -/
def number : Reader ℕ := fun bs =>
  let w := bs.takeWhile isDigit
  if w = [] ∨ (w.head? = some 48 ∧ w.length ≠ 1) then none else some (value w, bs.drop w.length)

/-- A number of a type with `bound` values. -/
def bounded (bound : ℕ) : Reader ℕ := do
  let n ← number
  if n < bound then pure n else fun _ => none

variable {d : ℕ}

lemma toNat_digit (hd : d < 10) : (UInt8.ofNat (48 + d)).toNat = 48 + d := by
  rw [UInt8.toNat_ofNat']
  omega

lemma isDigit_digit (hd : d < 10) : isDigit (UInt8.ofNat (48 + d)) = true := by
  simp only [isDigit, Bool.and_eq_true, decide_eq_true_eq, UInt8.le_iff_toNat_le, toNat_digit hd]
  refine ⟨?_, ?_⟩
  · exact Nat.le_add_right 48 d
  · show 48 + d ≤ 57
    omega

lemma isDigit_decimal (n : ℕ) : ∀ b ∈ decimal n, isDigit b = true := by
  intro b hb
  unfold decimal at hb
  split_ifs at hb
  · simp only [mem_singleton] at hb
    subst hb
    decide
  · obtain ⟨d, hd, rfl⟩ := mem_map.mp hb
    exact isDigit_digit (Nat.digits_lt_base (by norm_num) (mem_reverse.mp hd))

lemma value_digits {ds : List ℕ} (hds : ∀ d ∈ ds, d < 10) :
    value (ds.reverse.map fun d => UInt8.ofNat (48 + d)) = Nat.ofDigits 10 ds := by
  unfold value
  rw [map_reverse, foldl_reverse, foldr_map]
  induction ds with
  | nil => rfl
  | cons d ds ih =>
    rw [foldr_cons, ih fun d hd => hds d (.tail _ hd), Nat.ofDigits_cons,
      toNat_digit (hds d mem_cons_self)]
    omega

lemma value_decimal (n : ℕ) : value (decimal n) = n := by
  unfold decimal
  split_ifs with hn
  · subst hn
    decide
  · rw [value_digits fun d hd => Nat.digits_lt_base (by norm_num) hd, Nat.ofDigits_digits]

lemma decimal_ne_nil (n : ℕ) : decimal n ≠ [] := by
  unfold decimal
  split_ifs with hn
  · simp
  · simpa using Nat.digits_ne_nil_iff_ne_zero.mpr hn

variable {n : ℕ}

lemma head?_decimal (hn : n ≠ 0) : (decimal n).head? ≠ some 48 := by
  have hne : Nat.digits 10 n ≠ [] := Nat.digits_ne_nil_iff_ne_zero.mpr hn
  rw [decimal, if_neg hn, map_reverse, head?_reverse, getLast?_map, getLast?_eq_some_getLast hne]
  intro h
  have hlast := Nat.getLast_digit_ne_zero 10 hn
  have hlt := Nat.digits_lt_base (by norm_num) (getLast_mem hne)
  have heq : (UInt8.ofNat (48 + (Nat.digits 10 n).getLast hne)).toNat = 48 := by
    rw [Option.map_some, Option.some.injEq] at h
    rw [h]
    rfl
  rw [toNat_digit hlt] at heq
  omega

lemma reads_number (n : ℕ) : Reads NoDigit number (decimal n) n := by
  intro r hr
  have hzero : ¬ ((decimal n).head? = some 48 ∧ (decimal n).length ≠ 1) := by
    rintro ⟨hhead, hlen⟩
    rcases eq_or_ne n 0 with rfl | hn
    · exact hlen rfl
    · exact head?_decimal hn hhead
  simp only [number, takeWhile_isDigit (isDigit_decimal n) hr, decimal_ne_nil, hzero, or_self,
    if_false, value_decimal, drop_left]

lemma reads_bounded {bound : ℕ} (hn : n < bound) : Reads NoDigit (bounded bound) (decimal n) n := by
  rw [← append_nil (decimal n)]
  refine (reads_number n).bind ?_ fun r hr => hr
  simpa only [if_pos hn] using Reads.pure n

/-! ## Arrays and objects -/

section

variable {α β : Type} (write : α → List UInt8) (read : Reader α)

/-- What follows the first element of an array. -/
def arrayTail (as : List α) : List UInt8 := as.flatMap (fun a => 44 :: write a) ++ [93]

/-- `[`, the elements with `,` between them, `]`. -/
def array : List α → List UInt8
  | [] => [91, 93]
  | a :: as => 91 :: (write a ++ arrayTail write as)

def readTail : ℕ → Reader (List α)
  | 0 => fun _ => none
  | fuel + 1 => fun bs => match bs with
    | 93 :: bs => some ([], bs)
    | 44 :: bs => (do
        let a ← read
        let as ← readTail fuel
        pure (a :: as) : Reader (List α)) bs
    | _ => none

def readItems (fuel : ℕ) : Reader (List α) := do
  let a ← read
  let as ← readTail read fuel
  pure (a :: as)

def readArray : Reader (List α) := fun bs => match bs with
  | 91 :: bs => if bs.head? = some 93 then some ([], bs.tail) else readItems read bs.length bs
  | _ => none

def field (name : String) (w : List UInt8) : List UInt8 :=
  ascii ("\x7b\"" ++ name ++ "\":") ++ w ++ [125]

def readField (name : String) : Reader α := do
  text (ascii ("\x7b\"" ++ name ++ "\":"))
  let a ← read
  byte 125
  pure a

/-- An array of two elements of different types. -/
def pair (w v : List UInt8) : List UInt8 := 91 :: (w ++ 44 :: (v ++ [93]))

def readPair (read' : Reader β) : Reader (α × β) := do
  byte 91
  let a ← read
  byte 44
  let b ← read'
  byte 93
  pure (a, b)

variable {write read} {a : α} {w v : List UInt8}

lemma noDigit_arrayTail (as : List α) (r : List UInt8) : NoDigit (arrayTail write as ++ r) := by
  cases as <;> exact noDigit_cons (by decide) _

variable {fuel : ℕ}

lemma readItems_arrayTail {as : List α} (h : Reads NoDigit read (write a) a)
    (htail : readTail read fuel (arrayTail write as ++ r) = some (as, r)) :
    readItems read fuel (write a ++ (arrayTail write as ++ r)) = some (a :: as, r) := by
  show (read (write a ++ (arrayTail write as ++ r))).bind _ = _
  rw [h _ (noDigit_arrayTail as r)]
  show (readTail read fuel (arrayTail write as ++ r)).bind _ = _
  rw [htail]
  rfl

lemma readTail_arrayTail (h : ∀ a, Reads NoDigit read (write a) a) (as : List α)
    (hfuel : as.length < fuel) (r : List UInt8) :
    readTail read fuel (arrayTail write as ++ r) = some (as, r) := by
  induction as generalizing fuel with
  | nil =>
    obtain ⟨n, rfl⟩ := Nat.exists_eq_add_of_lt hfuel
    rfl
  | cons a as ih =>
    obtain ⟨n, rfl⟩ : ∃ n, fuel = n + 1 := ⟨fuel - 1, by omega⟩
    have hitems := readItems_arrayTail (h a) (ih (Nat.lt_of_succ_lt_succ hfuel))
    have htext : arrayTail write (a :: as) ++ r = 44 :: (write a ++ (arrayTail write as ++ r)) := by
      simp [arrayTail]
    rw [htext]
    exact hitems

lemma length_lt_arrayTail (as : List α) : as.length < (arrayTail write as).length := by
  induction as with
  | nil => simp [arrayTail]
  | cons a as ih =>
    simp only [arrayTail, flatMap_cons, append_assoc, length_append, length_cons] at ih ⊢
    omega

lemma reads_array (h : ∀ a, Reads NoDigit read (write a) a)
    (hfirst : ∀ a, ∃ b w, write a = b :: w ∧ b ≠ 93) (as : List α) :
    Reads Anything (readArray read) (array write as) as := by
  intro r _
  cases as with
  | nil => rfl
  | cons a as =>
    obtain ⟨b, w, hw, hb⟩ := hfirst a
    have hlen : as.length < (write a ++ (arrayTail write as ++ r)).length := by
      have htail : as.length < (arrayTail write as).length := length_lt_arrayTail as
      simp only [length_append]
      omega
    show readArray read (91 :: (write a ++ arrayTail write as) ++ r) = _
    rw [cons_append, append_assoc, readArray, if_neg (by simp [hw, hb])]
    exact readItems_arrayTail (h a) (readTail_arrayTail h as hlen r)

lemma reads_field (h : Reads NoDigit read w a) (name : String) :
    Reads Anything (readField read name) (field name w) a := by
  unfold field readField
  rw [append_assoc]
  refine (reads_text _).bind (h.bind ?_ fun r _ => noDigit_cons (by decide) r) fun _ _ => trivial
  exact (reads_byte 125).bind (v := []) (Reads.pure a) fun _ _ => trivial

lemma reads_pair {read' : Reader β} {b : β} (h : Reads NoDigit read w a)
    (h' : Reads NoDigit read' v b) : Reads Anything (readPair read read') (pair w v) (a, b) := by
  refine (reads_byte 91).bind (h.bind ?_ fun r _ => noDigit_cons (by decide) _) fun _ _ => trivial
  refine (reads_byte 44).bind (h'.bind ?_ fun r _ => noDigit_cons (by decide) r) fun _ _ => trivial
  exact (reads_byte 93).bind (v := []) (Reads.pure _) fun _ _ => trivial

end

/-! ## Types with a JSON text -/

/-- `Serialize` and `Deserialize`.  No text starts with a closing bracket. -/
class Serde (α : Type) where
  write : α → List UInt8
  read : Reader α
  reads : ∀ a, Reads NoDigit read (write a) a
  first : ∀ a, ∃ b w, write a = b :: w ∧ b ≠ 93

lemma first_decimal (n : ℕ) : ∃ b w, decimal n = b :: w ∧ b ≠ 93 := by
  cases hw : decimal n with
  | nil => exact absurd hw (decimal_ne_nil n)
  | cons b w =>
    refine ⟨b, w, rfl, ?_⟩
    rintro rfl
    have hdigit := isDigit_decimal n 93 (by simp [hw])
    simp [isDigit] at hdigit

instance : Serde UInt8 where
  write b := decimal b.toNat
  read := UInt8.ofNat <$> bounded (2 ^ 8)
  reads b := by simpa using (reads_bounded b.toNat_lt).map UInt8.ofNat
  first b := first_decimal b.toNat

instance : Serde UInt32 where
  write n := decimal n.toNat
  read := UInt32.ofNat <$> bounded (2 ^ 32)
  reads n := by simpa using (reads_bounded n.toNat_lt).map UInt32.ofNat
  first n := first_decimal n.toNat

instance : Serde UInt64 where
  write n := decimal n.toNat
  read := UInt64.ofNat <$> bounded (2 ^ 64)
  reads n := by simpa using (reads_bounded n.toNat_lt).map UInt64.ofNat
  first n := first_decimal n.toNat

instance {α : Type} [Serde α] : Serde (List α) where
  write := array Serde.write
  read := readArray Serde.read
  reads as := (reads_array Serde.reads Serde.first as).mono fun _ _ => trivial
  first as := by cases as <;> exact ⟨91, _, rfl, by decide⟩

instance {α β : Type} [Serde α] [Serde β] : Serde (α × β) where
  write x := pair (Serde.write x.1) (Serde.write x.2)
  read := readPair Serde.read Serde.read
  reads x := (reads_pair (Serde.reads x.1) (Serde.reads x.2)).mono fun _ _ => trivial
  first _ := ⟨91, _, rfl, by decide⟩

def toVec {α : Type} [Serde α] (a : α) : List UInt8 := Serde.write a

/-- `serde_json::from_slice`: nothing may follow the value. -/
def fromSlice (α : Type) [Serde α] (bs : List UInt8) : Option α :=
  match (Serde.read : Reader α) bs with
  | some (a, []) => some a
  | _ => none

variable {α : Type}

@[simp] lemma fromSlice_toVec [Serde α] (a : α) : fromSlice α (toVec a) = some a := by
  have hread := Serde.reads a [] noDigit_nil
  rw [append_nil] at hread
  rw [fromSlice, toVec, hread]

lemma toVec_injective [Serde α] : Function.Injective (toVec : α → List UInt8) := by
  intro a b h
  have hread := fromSlice_toVec a
  rw [h, fromSlice_toVec, Option.some.injEq] at hread
  exact hread.symm

end EmulatedMls.Json
