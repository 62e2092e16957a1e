import EmulatedMls.Lib.Exec
import EmulatedMls.Lib.Machine
import Mathlib.Data.List.Nodup
import Mathlib.Data.List.Perm.Basic
import Mathlib.Order.Basic

/-!
# Handing over a record of the Kademlia directory

Without a server the group info of a group is a record of a distributed table.  A peer that wants it
asks for the record and, when the answer arrives and is not empty, overwrites it with an empty one.
Between the two the record is still there.

**Source.**  `Publish`, `Get` and `Peek` in `handle_command` and `handle_kademlia_event` of
`emulated_client/src/pubsub/gossipsub_updater.rs`.

**Queries.**  A command only starts a query.  The query is carried out later, as one step on a table
that all peers share, and the answer to a `Get` arrives at its peer later still.

**Versions.**  The publications of a record that is not empty are counted, and an answer says which
of them it has seen.
-/

namespace EmulatedMls.Updater

open List

abbrev Value := List UInt8

/-- A query for a record.  `remove` is the flag of `Get`; a `Peek` does not have it. -/
structure GetQuery where
  peer : ℕ
  key : String
  remove : Bool
  deriving DecidableEq, Repr

/-- The answer to a query on its way to the peer, with the number of the publication it has seen. -/
structure Found where
  query : GetQuery
  value : Option Value
  version : ℕ
  deriving DecidableEq, Repr

/-- Why a `Get` returns an error: there is no record, or an empty one. -/
inductive GetError where
  | notFound
  | forbidden
  deriving DecidableEq, Repr

structure Returned where
  query : GetQuery
  result : Except GetError Value
  version : ℕ

/-- The answer of `handle_kademlia_event`, and the record that it overwrites. -/
def handleFound (f : Found) : Except GetError Value × List (String × Value) :=
  match f.value with
  | none => (.error .notFound, [])
  | some value =>
    if f.query.remove then
      if value.isEmpty then (.error .forbidden, []) else (.ok value, [(f.query.key, [])])
    else (.ok value, [])

/-- The table with the queries of all peers and their answers. -/
structure Kademlia where
  store : String → Option Value
  publications : String → ℕ
  puts : List (String × Value)
  gets : List GetQuery
  found : List Found
  returned : List Returned

namespace Kademlia

variable {s s' : Kademlia} {key : String}

def empty : Kademlia := ⟨fun _ => none, fun _ => 0, [], [], [], []⟩

/-- What can happen next: a command of a peer, a query is carried out, or an answer arrives. -/
inductive Event where
  | publish (key : String) (value : Value)
  | get (q : GetQuery)
  | runPut (i : ℕ)
  | runGet (i : ℕ)
  | progressed (i : ℕ)

def put (s : Kademlia) (key : String) (value : Value) : Kademlia :=
  { s with
    store := Function.update s.store key (some value)
    publications := if value.isEmpty then s.publications
      else Function.update s.publications key (s.publications key + 1) }

def answer (s : Kademlia) (q : GetQuery) : Found := ⟨q, s.store q.key, s.publications q.key⟩

def handle (s : Kademlia) (f : Found) : Kademlia :=
  { s with
    puts := s.puts ++ (handleFound f).2
    returned := s.returned ++ [⟨f.query, (handleFound f).1, f.version⟩] }

def step (s : Kademlia) : Event → Option Kademlia
  | .publish key value => some { s with puts := s.puts ++ [(key, value)] }
  | .get q => some { s with gets := s.gets ++ [q] }
  | .runPut i =>
    match s.puts[i]? with
    | none => none
    | some (key, value) => some { s.put key value with puts := s.puts.eraseIdx i }
  | .runGet i =>
    match s.gets[i]? with
    | none => none
    | some q => some { s with gets := s.gets.eraseIdx i, found := s.found ++ [s.answer q] }
  | .progressed i =>
    match s.found[i]? with
    | none => none
    | some f => some { s.handle f with found := s.found.eraseIdx i }

/-! ## Who takes a record -/

end Kademlia

/-- The answer to a query that takes the record away. -/
def Found.takes (key : String) (f : Found) : Bool :=
  f.query.key = key && f.query.remove && f.value.any (!·.isEmpty)

/-- A `Get` that has taken the record. -/
def Returned.took (key : String) (r : Returned) : Bool :=
  r.query.key = key && r.query.remove && r.result.toOption.isSome

namespace Kademlia

variable {s s' : Kademlia} {key : String}

/-- The publications of the record that a `Get` with the flag has returned. -/
def taken (s : Kademlia) (key : String) : List ℕ :=
  (s.returned.filter (·.took key)).map (·.version)

/-- Those that are returned, or whose answer is on its way. -/
def takers (s : Kademlia) (key : String) : List ℕ :=
  (s.found.filter (·.takes key)).map (·.version) ++ s.taken key

/-- Somebody has seen the record and has not overwritten it yet. -/
def Outstanding (s : Kademlia) (key : String) : Prop :=
  (∃ f ∈ s.found, f.takes key) ∨ (key, []) ∈ s.puts

/-- No query takes a record away that another one has seen and not overwritten. -/
def Serial (s : Kademlia) : Event → Prop
  | .runGet i => ∀ q ∈ s.gets[i]?, q.remove → ¬ s.Outstanding q.key
  | _ => True

end Kademlia

def kademlia : Machine Kademlia Kademlia.Event where
  init s := s = .empty
  step := Kademlia.step

namespace Kademlia

variable {s s' : Kademlia} {key : String} {f : Found}

lemma handleFound_of_takes (h : f.takes key = true) :
    ∃ value, handleFound f = (.ok value, [(key, [])]) := by
  simp only [Found.takes, Bool.and_eq_true, decide_eq_true_eq] at h
  obtain ⟨⟨rfl, hremove⟩, hvalue⟩ := h
  cases hv : f.value with
  | none => simp [hv] at hvalue
  | some value =>
    have hne : value.isEmpty = false := by simpa [hv] using hvalue
    exact ⟨value, by simp [handleFound, hv, hremove, hne]⟩

lemma took_handle (f : Found) :
    Returned.took key ⟨f.query, (handleFound f).1, f.version⟩ = f.takes key := by
  unfold Returned.took Found.takes handleFound
  cases hv : f.value with
  | none => simp [Except.toOption]
  | some value =>
    cases hremove : f.query.remove with
    | false => simp
    | true => cases hempty : value.isEmpty <;> simp [hempty, Except.toOption]

/-- A publication is taken once at most, and a taken record is about to be overwritten. -/
structure Exclusive (s : Kademlia) (key : String) : Prop where
  nodup : (s.takers key).Nodup
  le : ∀ n ∈ s.takers key, n ≤ s.publications key
  marked : (∃ value, s.store key = some value ∧ value.isEmpty = false) →
    s.publications key ∈ s.takers key → s.Outstanding key

lemma exclusive_empty (key : String) : Exclusive empty key := by
  constructor <;> simp [empty, takers, taken]

section

variable (h : Exclusive s key)
include h

lemma Exclusive.mono (hstore : s'.store = s.store)
    (hpub : s'.publications = s.publications) (hfound : s'.found = s.found)
    (hreturned : s'.returned = s.returned) (hputs : ∀ p ∈ s.puts, p ∈ s'.puts) :
    Exclusive s' key := by
  have htakers : s'.takers key = s.takers key := by
    simp only [takers, taken, hfound, hreturned]
  refine ⟨htakers ▸ h.nodup, by rw [htakers, hpub]; exact h.le, fun hvalue hmem => ?_⟩
  rw [hstore] at hvalue
  rw [hpub, htakers] at hmem
  rcases h.marked hvalue hmem with ⟨f, hf, htakes⟩ | hput
  · exact .inl ⟨f, hfound ▸ hf, htakes⟩
  · exact .inr (hputs _ hput)

variable {i : ℕ}

lemma Exclusive.runPut {key' : String} {value : Value}
    (hi : s.puts[i]? = some (key', value)) :
    Exclusive { s.put key' value with puts := s.puts.eraseIdx i } key := by
  have hle : ∀ n ∈ s.takers key, n ≤ (s.put key' value).publications key := by
    intro n hn
    refine Nat.le_trans (h.le n hn) ?_
    simp only [put]
    split_ifs
    · exact Nat.le_refl _
    · by_cases hkey : key = key' <;> simp [hkey]
  refine ⟨h.nodup, hle, ?_⟩
  rintro ⟨v, hv, hvalue⟩ hmem
  rcases eq_or_ne key key' with rfl | hne
  · -- the record is this one, so a new publication has a number that nobody has seen
    obtain rfl : value = v := by simpa [put] using hv
    have hbound : s.publications key + 1 ≤ s.publications key := by
      simpa [put, hvalue] using h.le _ hmem
    omega
  · have hstore : s.store key = some v := by simpa [put, hne] using hv
    have hpub : (s.put key' value).publications key = s.publications key := by
      simp only [put]
      split_ifs <;> simp [hne]
    rw [hpub] at hmem
    rcases h.marked ⟨v, hstore, hvalue⟩ hmem with hfound | hput
    · exact .inl hfound
    · obtain ⟨j, hj⟩ := mem_iff_getElem?.mp hput
      refine .inr (mem_eraseIdx_iff_getElem?.mpr ⟨j, ?_, hj⟩)
      rintro rfl
      rw [hi, Option.some.injEq, Prod.mk.injEq] at hj
      exact hne hj.1.symm

/-- **A query is carried out**, in a serial run. -/
lemma Exclusive.runGet {q : GetQuery} {gets : List GetQuery}
    (hserial : q.remove → ¬ s.Outstanding q.key) :
    Exclusive { s with gets := gets, found := s.found ++ [s.answer q] } key := by
  have htakers : ({ s with gets := gets, found := s.found ++ [s.answer q] } : Kademlia).takers key
      = (s.found.filter (·.takes key)).map (·.version) ++
        ([s.answer q].filter (·.takes key)).map (·.version) ++ s.taken key := by
    simp [takers, taken]
  cases htakes : (s.answer q).takes key with
  | false =>
    have hsame : ({ s with gets := gets, found := s.found ++ [s.answer q] } : Kademlia).takers key
        = s.takers key := by
      rw [htakers]
      simp [htakes, takers]
    refine ⟨hsame ▸ h.nodup, fun n hn => h.le n (hsame ▸ hn), fun hvalue hmem => ?_⟩
    rcases h.marked hvalue (hsame ▸ hmem) with ⟨f, hf, hft⟩ | hput
    · exact .inl ⟨f, mem_append_left _ hf, hft⟩
    · exact .inr hput
  | true =>
    obtain ⟨⟨hkey, hremove⟩, hvalue⟩ :
        (q.key = key ∧ q.remove = true) ∧ (s.store q.key).any (!·.isEmpty) = true := by
      simp only [Found.takes, Bool.and_eq_true, decide_eq_true_eq] at htakes
      exact htakes
    subst hkey
    -- nobody has seen this publication, since the record is not about to be overwritten
    have hfresh : s.publications q.key ∉ s.takers q.key := by
      intro hmem
      refine hserial hremove (h.marked ?_ hmem)
      cases hv : s.store q.key with
      | none => simp [hv] at hvalue
      | some value => exact ⟨value, rfl, by simpa [hv] using hvalue⟩
    have hperm : (({ s with gets := gets, found := s.found ++ [s.answer q] } :
        Kademlia).takers q.key).Perm (s.publications q.key :: s.takers q.key) := by
      rw [htakers]
      simp only [htakes, filter_cons_of_pos, filter_nil, map_cons, map_nil,
        append_assoc, singleton_append]
      exact perm_middle
    refine ⟨hperm.nodup_iff.mpr (nodup_cons.mpr ⟨hfresh, h.nodup⟩), fun n hn => ?_, ?_⟩
    · rcases mem_cons.mp (hperm.mem_iff.mp hn) with rfl | hn
      · exact Nat.le_refl _
      · exact h.le n hn
    · exact fun _ _ => .inl ⟨s.answer q, by simp, htakes⟩

lemma Exclusive.progressed (hi : s.found[i]? = some f) :
    Exclusive { s.handle f with found := s.found.eraseIdx i } key := by
  have hfound : s.found.Perm (f :: s.found.eraseIdx i) := by
    obtain ⟨hlt, rfl⟩ := List.getElem?_eq_some_iff.mp hi
    exact (getElem_cons_eraseIdx_perm hlt).symm
  have htakers : (({ s.handle f with found := s.found.eraseIdx i } : Kademlia).takers key).Perm
      (s.takers key) := by
    have htaken : (s.handle f).taken key =
        s.taken key ++ ([f].filter (·.takes key)).map (·.version) := by
      simp only [taken, handle, filter_append, map_append]
      cases htakes : f.takes key <;> simp [took_handle, htakes]
    have hmap := (hfound.filter (·.takes key)).map (·.version)
    calc _ = ((s.found.eraseIdx i).filter (·.takes key)).map (·.version) ++
          (s.taken key ++ ([f].filter (·.takes key)).map (·.version)) := by
            rw [← htaken]
            rfl
      List.Perm _ (([f].filter (·.takes key)).map (·.version) ++
          ((s.found.eraseIdx i).filter (·.takes key)).map (·.version) ++ s.taken key) := by
            rw [← append_assoc]
            exact perm_append_comm.trans (by rw [append_assoc])
      List.Perm _ (s.takers key) := by
            rw [← map_append, ← filter_append]
            exact (hmap.symm).append_right _
  refine ⟨htakers.nodup_iff.mpr h.nodup, fun n hn => h.le n (htakers.mem_iff.mp hn),
    fun hvalue hmem => ?_⟩
  rcases h.marked hvalue (htakers.mem_iff.mp hmem) with ⟨f', hf', hft⟩ | hput
  · rcases mem_cons.mp (hfound.mem_iff.mp hf') with rfl | hf'
    · -- the record is overwritten next
      obtain ⟨value, hhandle⟩ := handleFound_of_takes hft
      refine .inr ?_
      simp [handle, hhandle]
    · exact .inl ⟨f', hf', hft⟩
  · exact .inr (mem_append_left _ hput)

end

variable {e : Event}

lemma Exclusive.step (h : ∀ key, Exclusive s key) (he : s.Serial e) (hs : s.step e = some s')
    (key : String) : Exclusive s' key := by
  cases e with
  | publish key' value =>
    cases hs
    exact (h key).mono rfl rfl rfl rfl fun p hp => mem_append_left _ hp
  | get q =>
    cases hs
    exact (h key).mono rfl rfl rfl rfl fun p hp => hp
  | runPut i =>
    simp only [Kademlia.step] at hs
    split at hs
    · cases hs
    · next key' value hi => cases hs; exact (h key).runPut hi
  | runGet i =>
    simp only [Kademlia.step] at hs
    split at hs
    · cases hs
    · next q hi => cases hs; exact (h key).runGet (he q hi)
  | progressed i =>
    simp only [Kademlia.step] at hs
    split at hs
    · cases hs
    · next f hi => cases hs; exact (h key).progressed hi

/-- **A publication is handed to one peer at most**, as long as no query takes a record away that
    another one has seen and not overwritten yet. -/
theorem handover_exclusive (h : kademlia.Reaches Serial s) (key : String) :
    (s.taken key).Nodup := by
  have hinit : ∀ s, kademlia.init s → ∀ key, Exclusive s key := by
    rintro _ rfl
    exact exclusive_empty
  have hinv := h.invariant hinit fun _ _ _ hinv hok hs => Exclusive.step hinv hok hs
  exact (nodup_append.mp (hinv key).nodup).2.1

/-! ## Two peers -/

def isSerial (s : Kademlia) : Event → Bool
  | .runGet i => s.gets[i]?.all fun q =>
    !q.remove || (s.found.all fun f => !f.takes q.key) && !s.puts.contains (q.key, [])
  | _ => true

lemma serial_of_isSerial (h : s.isSerial e = true) : s.Serial e := by
  cases e with
  | runGet i =>
    intro q hq hremove
    rw [isSerial, Option.mem_def.mp hq] at h
    rintro (⟨f, hf, htakes⟩ | hput)
    · have hall : ∀ f ∈ s.found, f.takes q.key = false := by
        simpa [hremove] using fun f hf => by simp [hremove] at h; exact h.1 f hf
      simp [hall f hf] at htakes
    · simp [hremove, hput] at h
  | _ => trivial

def query (peer : ℕ) : GetQuery := ⟨peer, "group_info/G", true⟩

/-- A group info is published; one peer gets it and overwrites it, then the other one asks. -/
def oneByOne : List Event :=
  [.publish "group_info/G" [1], .runPut 0, .get (query 0), .runGet 0, .progressed 0, .runPut 0,
    .get (query 1), .runGet 0, .progressed 0]

/-- Both queries are carried out before the first peer has overwritten the record. -/
def overlapping : List Event :=
  [.publish "group_info/G" [1], .runPut 0, .get (query 0), .get (query 1), .runGet 0, .runGet 0,
    .progressed 0, .progressed 0]

/-- One peer after the other: the second one finds an empty record. -/
theorem handover_exclusive_oneByOne :
    ∃ s ∈ kademlia.run empty oneByOne,
      s.taken "group_info/G" = [1] ∧ (s.taken "group_info/G").Nodup := by
  refine exists_some_and (by decide +kernel) fun s hs _ => ?_
  have hserial : kademlia.Admits Serial empty oneByOne :=
    Machine.admits_of_allows (fun _ _ => serial_of_isSerial) (by decide +kernel)
  exact handover_exclusive (.of_run (.init rfl) hserial hs) _

/-- **Two peers get the same group info.** -/
theorem both_peers_take :
    ∃ s ∈ kademlia.run empty overlapping,
      s.returned.map (fun r => (r.query.peer, r.result.toOption)) =
        [(0, some [1]), (1, some [1])] ∧
      s.taken "group_info/G" = [1, 1] := by
  decide +kernel

end Kademlia

end EmulatedMls.Updater
