import Gbasic.Cow
import Gbasic.OpenHash
import Mathlib.Data.List.Range
/-!
# RecordIndex — a record's names found by a hash

Sixteen fields and more are looked for through a table of slots, built at the first lookup and kept as fields come, in
front of the field list.  It says a name's slot wherever it is as long as the list (`Current`); then it holds the first
field of each name and no other, so a lookup answers the first field of a name (`slotOf_eq`).  A probe that does not
come to an end is none; none is.
-/
namespace Gbasic
namespace Records

open Cow (Name)
open OpenHash (slotAt walk Holds)

variable {buckets : List Nat} {names : List Name} {count : Nat}

def RECORD_INDEX_MIN_FIELDS : Nat := 16
def RECORD_INDEX_MIN_BUCKETS : Nat := 32

/-- `RecordHeader`, but for its references: the slots by bucket, each a number more, and how many fields they are of. -/
structure RecordHeader where
  capacity : Nat
  buckets : Option (List Nat)
  indexed : Nat

/-- `record_hash_n`. -/
def recordHash (name : Name) : Nat :=
  name.foldl (fun h x => (h ^^^ x.val) * 1099511628211 % 2 ^ 64) 1469598103934665603

def nameOf (names : List Name) (s : Nat) : Name := (names[s - 1]?).getD []

/-- A probe, from a bucket on, for one that is free or has the name; as many steps as there are buckets. -/
def probe (buckets : List Nat) (hit : Nat → Bool) : Nat → Nat → Option Nat
  | 0, _ => none
  | fuel + 1, p =>
    if slotAt buckets p = 0 ∨ hit (slotAt buckets p) = true then some p
    else probe buckets hit fuel ((p + 1) &&& (buckets.length - 1))

def probeFor (names : List Name) (buckets : List Nat) (name : Name) : Option Nat :=
  probe buckets (fun s => decide (nameOf names s = name)) buckets.length (recordHash name &&& (buckets.length - 1))

def indexInsert (names : List Name) (buckets : List Nat) (slot : Nat) : Option (List Nat) :=
  match probeFor names buckets (nameOf names (slot + 1)) with
  | none => none
  | some p => if slotAt buckets p ≠ 0 then some buckets else some (buckets.set p (slot + 1))

def indexInserts (names : List Name) : List Nat → List Nat → Option (List Nat)
  | buckets, [] => some buckets
  | buckets, i :: l =>
    match indexInsert names buckets i with
    | none => none
    | some buckets => indexInserts names buckets l

def doubled (count buckets : Nat) : Nat :=
  if 0 < buckets ∧ buckets < count * 2 then doubled count (buckets * 2) else buckets
termination_by count * 2 - buckets

def indexBuild (header : RecordHeader) (names : List Name) (count : Nat) : Option RecordHeader :=
  match indexInserts names (List.replicate (doubled count RECORD_INDEX_MIN_BUCKETS) 0) (List.range count) with
  | none => none
  | some buckets => some { header with buckets := some buckets, indexed := count }

def indexFor (header : RecordHeader) (names : List Name) (count : Nat) : Option (RecordHeader × List Nat) :=
  match header.buckets with
  | some buckets =>
    if header.indexed ≠ count then (indexBuild header names count).map (fun h => (h, h.buckets.getD []))
    else some (header, buckets)
  | none => (indexBuild header names count).map (fun h => (h, h.buckets.getD []))

/-- `record_slot_of_n`: the slot of a name, or the count, and the header it leaves. -/
def slotOf (header : RecordHeader) (names : List Name) (count : Nat) (name : Name) : Option (Nat × RecordHeader) :=
  if count < RECORD_INDEX_MIN_FIELDS then some ((names.take count).findIdx (fun n => decide (n = name)), header)
  else
    match indexFor header names count with
    | none => none
    | some (header, buckets) =>
      match probeFor names buckets name with
      | none => none
      | some p => some (if slotAt buckets p ≠ 0 then slotAt buckets p - 1 else count, header)

/-! ## Probes are walks -/

theorem and_mask {k : Nat} (h : buckets.length = 2 ^ k) (x : Nat) :
    x &&& (buckets.length - 1) = x % buckets.length := by
  rw [h, Nat.and_two_pow_sub_one_eq_mod]

theorem probe_eq {k : Nat} {buckets : List Nat} (h : buckets.length = 2 ^ k) (hit : Nat → Bool) :
    ∀ fuel p, probe buckets hit fuel p = walk buckets hit fuel p
  | 0, _ => rfl
  | fuel + 1, p => by rw [probe, walk, and_mask h, probe_eq h hit fuel]

theorem probeFor_eq {k : Nat} (h : buckets.length = 2 ^ k) (names : List Name) (name : Name) :
    probeFor names buckets name = walk buckets (fun s => decide (nameOf names s = name)) buckets.length
      (recordHash name % buckets.length) := by
  rw [probeFor, probe_eq h, and_mask h]

/-! ## The first field of each name -/

def IsFirst (names : List Name) (i : Nat) : Prop := ∀ j < i, names[j]? ≠ names[i]?

instance (names : List Name) (i : Nat) : Decidable (IsFirst names i) := inferInstanceAs (Decidable (∀ j < i, _))

def firstSlots (names : List Name) (count : Nat) : List Nat :=
  ((List.range count).filter (fun i => decide (IsFirst names i))).map (· + 1)

theorem mem_firstSlots {s : Nat} : s ∈ firstSlots names count ↔ ∃ i < count, IsFirst names i ∧ s = i + 1 := by
  rw [firstSlots, List.mem_map]
  constructor
  · rintro ⟨i, hi, rfl⟩
    rw [List.mem_filter, List.mem_range] at hi
    exact ⟨i, hi.1, of_decide_eq_true hi.2, rfl⟩
  · rintro ⟨i, hi, hf, rfl⟩
    exact ⟨i, List.mem_filter.2 ⟨List.mem_range.2 hi, decide_eq_true hf⟩, rfl⟩

theorem firstSlots_succ (names : List Name) (count : Nat) :
    firstSlots names (count + 1) =
      if IsFirst names count then firstSlots names count ++ [count + 1] else firstSlots names count := by
  rw [firstSlots, List.range_succ, List.filter_append, List.map_append, firstSlots]
  by_cases h : IsFirst names count
  · rw [if_pos h, List.filter_cons_of_pos (by simpa using h)]
    rfl
  · rw [if_neg h, List.filter_cons_of_neg (by simpa using h)]
    exact List.append_nil _

theorem firstSlots_length (names : List Name) (count : Nat) : (firstSlots names count).length ≤ count := by
  rw [firstSlots, List.length_map]
  exact (List.length_filter_le _ _).trans (le_of_eq List.length_range)

theorem nameOf_succ {i : Nat} (hi : i < names.length) : names[i]? = some (nameOf names (i + 1)) := by
  rw [nameOf, Nat.add_sub_cancel, List.getElem?_eq_getElem hi, Option.getD_some]

theorem exists_first {names : List Name} {i : Nat} (hi : i < names.length) :
    ∃ j ≤ i, IsFirst names j ∧ nameOf names (j + 1) = nameOf names (i + 1) := by
  by_cases h : IsFirst names i
  · exact ⟨i, le_rfl, h, rfl⟩
  · rw [IsFirst] at h
    push Not at h
    obtain ⟨j, hj, hsame⟩ := h
    obtain ⟨f, hf, hfirst, hname⟩ := @exists_first names j (hj.trans hi)
    refine ⟨f, hf.trans hj.le, hfirst, hname.trans ?_⟩
    rw [nameOf_succ hi, nameOf_succ (hj.trans hi)] at hsame
    exact Option.some.inj hsame
termination_by i

theorem first_injective (hcount : count ≤ names.length) :
    ∀ s ∈ firstSlots names count, ∀ t ∈ firstSlots names count, nameOf names s = nameOf names t → s = t := by
  intro s hs t ht hname
  obtain ⟨i, hi, hfi, rfl⟩ := mem_firstSlots.1 hs
  obtain ⟨j, hj, hfj, rfl⟩ := mem_firstSlots.1 ht
  have hsame : names[i]? = names[j]? := by rw [nameOf_succ (by omega), nameOf_succ (by omega), hname]
  rcases lt_trichotomy i j with hlt | rfl | hgt
  · exact absurd hsame (hfj i hlt)
  · rfl
  · exact absurd hsame.symm (hfi j hgt)

/-! ## What a table holds -/

/-- A table of the first so many fields: a power of two buckets, twice as many as the fields at the least. -/
structure Table (names : List Name) (count : Nat) (buckets : List Nat) : Prop where
  power : ∃ k, buckets.length = 2 ^ k
  holds : Holds recordHash (nameOf names) buckets (firstSlots names count)

theorem Table.lookup_held {i : Nat} (h : Table names count buckets) (hcount : count ≤ names.length) (hi : i < count) :
    ∃ j ≤ i, IsFirst names j ∧
      nameOf names (j + 1) = nameOf names (i + 1) ∧
      ∃ p, probeFor names buckets (nameOf names (i + 1)) = some p ∧ slotAt buckets p = j + 1 := by
  obtain ⟨k, hk⟩ := h.power
  obtain ⟨j, hj, hfirst, hname⟩ := @exists_first names i (by omega)
  obtain ⟨p, hp, hat⟩ := h.holds.walk_held (first_injective hcount)
    (mem_firstSlots.2 ⟨j, by omega, hfirst, rfl⟩)
  refine ⟨j, hj, hfirst, hname, p, ?_, hat⟩
  rw [probeFor_eq hk, ← hname]
  exact hp

/-- **A slot inserted**: the table is of one field more. -/
theorem Table.insert {i : Nat} (h : Table names i buckets) (hi : i < names.length) (hroom : i < buckets.length) :
    ∃ buckets', indexInsert names buckets i = some buckets' ∧ Table names (i + 1) buckets' ∧
      buckets'.length = buckets.length := by
  obtain ⟨k, hk⟩ := h.power
  rw [indexInsert]
  by_cases hfirst : IsFirst names i
  · have hno : ∀ s ∈ firstSlots names i, nameOf names s ≠ nameOf names (i + 1) := by
      intro s hs hname
      obtain ⟨j, hj, -, rfl⟩ := mem_firstSlots.1 hs
      exact hfirst j hj (by rw [nameOf_succ hi, nameOf_succ (hj.trans hi), hname])
    obtain ⟨e, he, hw, hfree, htaken⟩ := h.holds.walk_fresh
      (lt_of_le_of_lt (firstSlots_length names i) hroom) hno
    rw [probeFor_eq hk, hw]
    dsimp only
    rw [if_neg (not_not.2 hfree)]
    refine ⟨_, rfl, ⟨⟨k, by rw [List.length_set, hk]⟩, ?_⟩, List.length_set⟩
    rw [firstSlots_succ, if_pos hfirst]
    exact (h.holds.insert (Nat.succ_ne_zero i) he hfree htaken).of_perm (List.perm_append_singleton _ _).symm
  · have hsame := hfirst
    rw [IsFirst] at hsame
    push Not at hsame
    obtain ⟨j, hj, hname⟩ := hsame
    rw [nameOf_succ hi, nameOf_succ (hj.trans hi)] at hname
    obtain ⟨f, -, -, -, p, hp, hat⟩ := h.lookup_held hi.le hj
    rw [← Option.some.inj hname, hp]
    dsimp only
    rw [if_pos (by rw [hat]; exact Nat.succ_ne_zero f)]
    refine ⟨buckets, rfl, ⟨⟨k, hk⟩, ?_⟩, rfl⟩
    rw [firstSlots_succ, if_neg hfirst]
    exact h.holds

theorem Table.inserts {names : List Name} : ∀ (n i : Nat) {buckets : List Nat}, Table names i buckets →
    i + n ≤ names.length → i + n ≤ buckets.length → ∃ buckets', indexInserts names buckets (List.range' i n) =
      some buckets' ∧ Table names (i + n) buckets' ∧ buckets'.length = buckets.length
  | 0, i, buckets, h, _, _ => ⟨buckets, rfl, h, rfl⟩
  | n + 1, i, buckets, h, hlen, hroom => by
    obtain ⟨next, hins, htable, hsize⟩ := h.insert (by omega) (by omega)
    obtain ⟨last, hrest, hlast, hlsize⟩ := Table.inserts n (i + 1) htable (by omega) (by omega)
    refine ⟨last, ?_, ?_, hlsize.trans hsize⟩
    · rw [List.range'_succ, indexInserts, hins]
      exact hrest
    · rw [show i + (n + 1) = i + 1 + n by omega]
      exact hlast

theorem doubled_spec (count k : Nat) : ∃ j, doubled count (2 ^ k) = 2 ^ j ∧ count * 2 ≤ 2 ^ j := by
  rw [doubled]
  have hpos : 0 < 2 ^ k := Nat.two_pow_pos k
  split_ifs with h
  · rw [← Nat.pow_succ]
    exact doubled_spec count (k + 1)
  · exact ⟨k, rfl, by omega⟩
termination_by count * 2 - 2 ^ k
decreasing_by
  rw [Nat.pow_succ]
  omega

/-- **A table is built**, of all the fields. -/
theorem indexBuild_spec (header : RecordHeader) {names : List Name} {count : Nat} (hcount : count ≤ names.length) :
    ∃ buckets, indexBuild header names count = some { header with buckets := some buckets, indexed := count } ∧
      Table names count buckets ∧ count * 2 ≤ buckets.length := by
  obtain ⟨j, hj, hle⟩ := doubled_spec count 5
  have hmin : RECORD_INDEX_MIN_BUCKETS = 2 ^ 5 := rfl
  have hempty : Table names 0 (List.replicate (2 ^ j) 0) := by
    refine ⟨⟨j, List.length_replicate⟩, ?_, fun s hs => by cases hs⟩
    rw [List.filter_eq_nil_iff.2 (fun s hs => by simp [List.eq_of_mem_replicate hs])]
    exact List.Perm.refl _
  obtain ⟨buckets, hins, htable, hsize⟩ := hempty.inserts count 0 (by omega) (by rw [List.length_replicate]; omega)
  rw [Nat.zero_add] at htable
  rw [List.length_replicate] at hsize
  rw [indexBuild, hmin, hj, List.range_eq_range', hins]
  exact ⟨buckets, rfl, htable, by omega⟩

/-! ## Lookups -/

def Current (header : RecordHeader) (names : List Name) : Prop :=
  ∀ buckets, header.buckets = some buckets → header.indexed = names.length →
    Table names names.length buckets ∧ names.length * 2 ≤ buckets.length

theorem indexFor_spec {header : RecordHeader} (h : Current header names) :
    ∃ header' buckets, indexFor header names names.length = some (header', buckets) ∧
      header'.buckets = some buckets ∧ Current header' names ∧ Table names names.length buckets ∧
      names.length * 2 ≤ buckets.length := by
  obtain ⟨buckets, hbuild, htable, hsize⟩ := @indexBuild_spec header names _ le_rfl
  have hcur : Current { header with buckets := some buckets, indexed := names.length } names := by
    intro b hb _
    cases hb
    exact ⟨htable, hsize⟩
  unfold indexFor
  rcases hb : header.buckets with _ | old
  · dsimp only
    rw [hbuild]
    exact ⟨_, _, rfl, rfl, hcur, htable, hsize⟩
  · dsimp only
    by_cases hi : header.indexed = names.length
    · rw [if_neg (not_not.2 hi)]
      obtain ⟨hold, holdsize⟩ := h old hb hi
      exact ⟨header, old, rfl, hb, h, hold, holdsize⟩
    · rw [if_pos hi, hbuild]
      exact ⟨_, _, rfl, rfl, hcur, htable, hsize⟩

theorem findIdx_first {j : Nat} (hj : j < names.length) (hfirst : IsFirst names j) :
    names.findIdx (fun n => decide (n = nameOf names (j + 1))) = j := by
  have hat := nameOf_succ hj
  rw [List.getElem?_eq_getElem hj] at hat
  rw [List.findIdx_eq hj]
  refine ⟨decide_eq_true (Option.some.inj hat), fun i hi => decide_eq_false (fun hname => hfirst i hi ?_)⟩
  rw [List.getElem?_eq_getElem (hi.trans hj), List.getElem?_eq_getElem hj, hname, Option.some.inj hat]

/-- **A lookup answers the first field of the name**, or the count, and comes to an end. -/
theorem slotOf_eq {header : RecordHeader} (h : Current header names) (name : Name) :
    ∃ header', slotOf header names names.length name = some (names.findIdx (fun n => decide (n = name)), header') ∧
      Current header' names := by
  rw [slotOf]
  by_cases hsmall : names.length < RECORD_INDEX_MIN_FIELDS
  · rw [if_pos hsmall, List.take_length]
    exact ⟨header, rfl, h⟩
  rw [if_neg hsmall]
  obtain ⟨header', buckets, hfor, hb, hcur, htable, hsize⟩ := indexFor_spec h
  obtain ⟨k, hk⟩ := htable.power
  rw [hfor]
  dsimp only
  have hmin : RECORD_INDEX_MIN_FIELDS = 16 := rfl
  by_cases hmem : name ∈ names
  · obtain ⟨i, hi, rfl⟩ := List.getElem_of_mem hmem
    have hname : names[i] = nameOf names (i + 1) := by
      have := nameOf_succ hi
      rw [List.getElem?_eq_getElem hi] at this
      exact Option.some.inj this
    obtain ⟨j, hj, hfirst, hsame, p, hp, hat⟩ := htable.lookup_held le_rfl hi
    rw [hname, hp]
    dsimp only
    rw [hat, if_pos (Nat.succ_ne_zero j), ← hsame, findIdx_first (by omega) hfirst, Nat.add_sub_cancel]
    exact ⟨header', rfl, hcur⟩
  · have hno : ∀ s ∈ firstSlots names names.length, nameOf names s ≠ name := by
      rintro s hs rfl
      obtain ⟨i, hi, -, rfl⟩ := mem_firstSlots.1 hs
      exact hmem (List.mem_of_getElem? (nameOf_succ hi))
    have hroom : (firstSlots names names.length).length < buckets.length := by
      have := firstSlots_length names names.length
      omega
    obtain ⟨e, -, hw, hfree, -⟩ := htable.holds.walk_fresh hroom hno
    rw [probeFor_eq hk, hw]
    dsimp only
    rw [if_neg (not_not.2 hfree),
      List.findIdx_eq_length_of_false (fun n hn => decide_eq_false (fun hsame : n = name => hmem (hsame ▸ hn)))]
    exact ⟨header', rfl, hcur⟩

end Records
end Gbasic
