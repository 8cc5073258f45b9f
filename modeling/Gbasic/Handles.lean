import Mathlib.Data.List.Perm.Basic
import Mathlib.Data.List.Nodup
/-!
# Handles — transactions and cursors, by the calls made with them (library)

Some calls start a thing under a number of its own, some stop one; what is started and not stopped is open (`opened`).
A program asks an engine with handles of two kinds so kept: transactions it begins, and cursors opened on them.  Its
calls, the newest first, are lawful when each uses what is open, no transaction ends under a cursor, and no two
transactions that write are open at once.  What one holder has open stands beside what others have (`Holds`): each call
changes the one and leaves the other.  Nothing here names a repository.
-/
namespace Gbasic

open List (mem_cons_of_mem mem_cons mem_cons_self map_cons nodup_cons mem_map mem_append_left mem_append)

variable {n : Nat}

/-! ## Started and stopped -/

section
variable {κ α : Type} (start : κ → Option α) (stop : κ → Option Nat) (num : α → Nat)

/-- What is started and not stopped. -/
def opened : List κ → List α
  | [] => []
  | c :: l =>
    match start c, stop c with
    | some a, _ => a :: opened l
    | none, some n => (opened l).filter (fun a => num a ≠ n)
    | none, none => opened l

def WellKept : List κ → Prop
  | [] => True
  | c :: l =>
    WellKept l ∧ (∀ a, start c = some a → ∀ d ∈ l, ∀ b, start d = some b → num b ≠ num a) ∧
      ∀ n, start c = none → stop c = some n → ∃ a ∈ opened start stop num l, num a = n

variable {start stop num}

theorem opened_start {c : κ} {a : α} (h : start c = some a) (l : List κ) :
    opened start stop num (c :: l) = a :: opened start stop num l := by
  rw [opened, h]

theorem opened_stop {c : κ} (h : start c = none) (hs : stop c = some n) (l : List κ) :
    opened start stop num (c :: l) = (opened start stop num l).filter (fun a => num a ≠ n) := by
  rw [opened, h, hs]

theorem opened_other {c : κ} (h : start c = none) (hs : stop c = none) (l : List κ) :
    opened start stop num (c :: l) = opened start stop num l := by
  rw [opened, h, hs]

theorem started_of_mem_opened {a : α} : ∀ {l : List κ}, a ∈ opened start stop num l → ∃ d ∈ l, start d = some a
  | [], h => by cases h
  | c :: l, h => by
    have hrest : a ∈ opened start stop num l → ∃ d ∈ c :: l, start d = some a := fun hl => by
      obtain ⟨d, hd, hda⟩ := started_of_mem_opened hl
      exact ⟨d, mem_cons_of_mem _ hd, hda⟩
    rcases hs : start c with _ | b
    · rcases hp : stop c with _ | n
      · rw [opened_other hs hp] at h
        exact hrest h
      · rw [opened_stop hs hp] at h
        exact hrest (List.mem_of_mem_filter h)
    · rw [opened_start hs] at h
      rcases mem_cons.1 h with rfl | h
      · exact ⟨c, mem_cons_self, hs⟩
      · exact hrest h

theorem WellKept.nodup : ∀ {l : List κ}, WellKept start stop num l → ((opened start stop num l).map num).Nodup
  | [], _ => List.nodup_nil
  | c :: l, ⟨hl, hnew, _⟩ => by
    rcases hs : start c with _ | a
    · rcases hp : stop c with _ | n
      · rw [opened_other hs hp]
        exact hl.nodup
      · rw [opened_stop hs hp]
        exact hl.nodup.sublist (List.filter_sublist.map num)
    · rw [opened_start hs, map_cons, nodup_cons]
      refine ⟨fun hmem => ?_, hl.nodup⟩
      obtain ⟨b, hb, hnum⟩ := mem_map.1 hmem
      obtain ⟨d, hd, hdb⟩ := started_of_mem_opened hb
      exact hnew a hs d hd b hdb hnum

theorem WellKept.started_of_stopped : ∀ {l : List κ}, WellKept start stop num l →
    ∀ {c : κ}, c ∈ l → start c = none → stop c = some n → ∃ d ∈ l, ∃ a, start d = some a ∧ num a = n
  | d :: l, ⟨hl, _, hstop⟩, c, hc, hs, hp => by
    rcases mem_cons.1 hc with rfl | hc
    · obtain ⟨a, ha, hnum⟩ := hstop n hs hp
      obtain ⟨d, hd, hda⟩ := started_of_mem_opened ha
      exact ⟨d, mem_cons_of_mem _ hd, a, hda, hnum⟩
    · obtain ⟨e, he, a, hea, hnum⟩ := hl.started_of_stopped hc hs hp
      exact ⟨e, mem_cons_of_mem _ he, a, hea, hnum⟩

theorem WellKept.not_opened_of_stopped : ∀ {l : List κ}, WellKept start stop num l →
    ∀ {c : κ}, c ∈ l → start c = none → stop c = some n → ∀ a ∈ opened start stop num l, num a ≠ n
  | d :: l, ⟨hl, hnew, _⟩, c, hc, hs, hp, a, ha => by
    rcases hd : start d with _ | b
    · rcases hq : stop d with _ | m
      · rw [opened_other hd hq] at ha
        rcases mem_cons.1 hc with rfl | hc
        · rw [hp] at hq
          cases hq
        · exact hl.not_opened_of_stopped hc hs hp a ha
      · rw [opened_stop hd hq] at ha
        obtain ⟨hmem, hne⟩ := List.mem_filter.1 ha
        rcases mem_cons.1 hc with rfl | hc
        · rw [hp] at hq
          cases hq
          simpa using hne
        · exact hl.not_opened_of_stopped hc hs hp a hmem
    · have hcl : c ∈ l := by
        rcases mem_cons.1 hc with rfl | hc
        · rw [hs] at hd
          cases hd
        · exact hc
      rw [opened_start hd] at ha
      rcases mem_cons.1 ha with rfl | ha
      · obtain ⟨e, he, x, hex, hnum⟩ := hl.started_of_stopped hcl hs hp
        rw [← hnum]
        exact (hnew a hd e he x hex).symm
      · exact hl.not_opened_of_stopped hcl hs hp a ha

def Stops (start : κ → Option α) (stop : κ → Option Nat) (n : Nat) (c : κ) : Bool :=
  (start c).isNone && stop c == some n

/-- **What started is open, or was stopped once.** -/
theorem WellKept.stopped_once [DecidableEq α] {a : α} :
    ∀ {l : List κ}, WellKept start stop num l → (∃ d ∈ l, start d = some a) →
    l.countP (Stops start stop (num a)) = if a ∈ opened start stop num l then 0 else 1
  | [], _, ⟨d, hd, _⟩ => by cases hd
  | c :: l, hk@⟨hl, hnew, hstop⟩, ⟨d, hd, hda⟩ => by
    rcases hs : start c with _ | b
    · have hdl : d ∈ l := by
        rcases mem_cons.1 hd with rfl | hd
        · rw [hs] at hda
          cases hda
        · exact hd
      have ih := hl.stopped_once ⟨d, hdl, hda⟩
      rcases hp : stop c with _ | n
      · rw [opened_other hs hp, List.countP_cons_of_neg (by simp [Stops, hp]), ih]
      · rw [opened_stop hs hp]
        by_cases hn : n = num a
        · -- what stops is this one: it is open, and nothing open has its number after
          subst hn
          obtain ⟨x, hx, hnum⟩ := hstop _ hs hp
          have hin : a ∈ opened start stop num l := by
            by_contra hout
            rw [if_neg hout] at ih
            have hpos : 0 < l.countP (Stops start stop (num a)) := by omega
            obtain ⟨e, he, hstops⟩ := List.countP_pos_iff.1 hpos
            rw [Stops, Bool.and_eq_true, Option.isNone_iff_eq_none, beq_iff_eq] at hstops
            exact hl.not_opened_of_stopped he hstops.1 hstops.2 x hx hnum
          rw [if_pos hin] at ih
          rw [List.countP_cons_of_pos (by simp [Stops, hs, hp]), ih, if_neg (by simp)]
        · rw [List.countP_cons_of_neg (by simp [Stops, hp, hn]), ih]
          have hiff : a ∈ (opened start stop num l).filter (fun x => num x ≠ n) ↔ a ∈ opened start stop num l := by
            rw [List.mem_filter]
            exact ⟨fun h => h.1, fun h => ⟨h, by simpa using fun he => hn he.symm⟩⟩
          simp only [hiff]
    · rw [opened_start hs, List.countP_cons_of_neg (by simp [Stops, hs])]
      by_cases hab : a = b
      · subst hab
        rw [if_pos mem_cons_self, List.countP_eq_zero]
        intro e he hstops
        rw [Stops, Bool.and_eq_true, Option.isNone_iff_eq_none, beq_iff_eq] at hstops
        obtain ⟨f, hf, x, hfx, hnum⟩ := hl.started_of_stopped he hstops.1 hstops.2
        exact hnew a hs f hf x hfx hnum
      · have hdl : d ∈ l := by
          rcases mem_cons.1 hd with rfl | hd
          · rw [hs] at hda
            exact absurd (Option.some.inj hda).symm hab
          · exact hd
        rw [hl.stopped_once ⟨d, hdl, hda⟩]
        simp [hab]

end

/-! ## Transactions and cursors -/

structure Txn where
  id : Nat
  write : Bool
  deriving DecidableEq, Repr

variable {t : Txn}

structure Cur where
  id : Nat
  txn : Nat
  deriving DecidableEq, Repr

variable {k : Cur}

inductive Call where
  | begins (t : Txn)
  | uses (t : Nat)
  | ends (t : Nat)
  | opens (k : Cur)
  | looks (k : Nat)
  | closes (k : Nat)
  deriving DecidableEq, Repr

namespace Call

def begun : Call → Option Txn
  | begins t => some t
  | _ => none

def ended : Call → Option Nat
  | ends t => some t
  | _ => none

def started : Call → Option Cur
  | opens k => some k
  | _ => none

def closed : Call → Option Nat
  | closes k => some k
  | _ => none

/-- The transactions begun and not ended. -/
def txns : List Call → List Txn := opened begun ended Txn.id

/-- The cursors opened and not closed. -/
def cursors : List Call → List Cur := opened started closed Cur.id

def Allowed (l : List Call) : Call → Prop
  | begins t => (∀ u, begins u ∈ l → u.id ≠ t.id) ∧ (t.write = true → ∀ u ∈ txns l, u.write = false)
  | uses t => ∃ u ∈ txns l, u.id = t
  | ends t => (∃ u ∈ txns l, u.id = t) ∧ ∀ c ∈ cursors l, c.txn ≠ t
  | opens k => (∀ c, opens c ∈ l → c.id ≠ k.id) ∧ ∃ u ∈ txns l, u.id = k.txn
  | looks k => ∃ c ∈ cursors l, c.id = k ∧ ∃ u ∈ txns l, u.id = c.txn
  | closes k => ∃ c ∈ cursors l, c.id = k ∧ ∃ u ∈ txns l, u.id = c.txn

/-- Every call was one that might be made. -/
def Lawful : List Call → Prop
  | [] => True
  | c :: l => Lawful l ∧ Allowed l c

theorem begins_of_begun {c : Call} (h : c.begun = some t) : c = begins t := by
  cases c <;> simp_all [begun]

theorem opens_of_started {c : Call} (h : c.started = some k) : c = opens k := by
  cases c <;> simp_all [started]

theorem Lawful.kept_txns : ∀ {l : List Call}, Lawful l → WellKept begun ended Txn.id l
  | [], _ => trivial
  | c :: l, ⟨hl, hc⟩ => by
    refine ⟨hl.kept_txns, fun t ht d hd u hu => ?_, fun n _ hn => ?_⟩
    · rw [begins_of_begun ht] at hc
      rw [begins_of_begun hu] at hd
      exact hc.1 u hd
    · cases c with
      | ends t =>
        cases hn
        exact hc.1
      | _ => cases hn

theorem Lawful.kept_cursors : ∀ {l : List Call}, Lawful l → WellKept started closed Cur.id l
  | [], _ => trivial
  | c :: l, ⟨hl, hc⟩ => by
    refine ⟨hl.kept_cursors, fun k hk d hd x hx => ?_, fun n _ hn => ?_⟩
    · rw [opens_of_started hk] at hc
      rw [opens_of_started hx] at hd
      exact hc.1 x hd
    · cases c with
      | closes k =>
        cases hn
        obtain ⟨x, hx, hid, -⟩ := hc
        exact ⟨x, hx, hid⟩
      | _ => cases hn

theorem ended_once {l : List Call} : l.countP (Stops begun ended n) = l.count (.ends n) := by
  refine List.countP_congr (fun c _ => ?_)
  cases c <;> simp [Stops, begun, ended]

theorem closed_once {l : List Call} : l.countP (Stops started closed n) = l.count (.closes n) := by
  refine List.countP_congr (fun c _ => ?_)
  cases c <;> simp [Stops, started, closed]

/-- **At most one transaction that writes is open.** -/
theorem Lawful.one_writes : ∀ {l : List Call}, Lawful l →
    ∀ t ∈ txns l, ∀ u ∈ txns l, t.write = true → u.write = true → t = u
  | [], _, t, ht, _, _, _, _ => by cases ht
  | c :: l, ⟨hl, hc⟩, t, ht, u, hu, hwt, hwu => by
    cases c with
    | begins v =>
      rcases mem_cons.1 ht with htv | htl
      · rcases mem_cons.1 hu with huv | hul
        · rw [htv, huv]
        · have hnot := hc.2 (htv ▸ hwt) u hul
          rw [hwu] at hnot
          cases hnot
      · rcases mem_cons.1 hu with huv | hul
        · have hnot := hc.2 (huv ▸ hwu) t htl
          rw [hwt] at hnot
          cases hnot
        · exact hl.one_writes t htl u hul hwt hwu
    | ends v => exact hl.one_writes t (List.mem_of_mem_filter ht) u (List.mem_of_mem_filter hu) hwt hwu
    | _ => exact hl.one_writes t ht u hu hwt hwu

/-! ## One holder beside others -/

structure Part where
  txns : List Txn
  cursors : List Cur

/-- A holder has these transactions and cursors open, others have theirs, and nothing else is open. -/
structure Holds (l : List Call) (next : Nat) (T : List Txn) (K : List Cur) (R : Part) : Prop where
  lawful : Lawful l
  begunBelow : ∀ t, begins t ∈ l → t.id < next
  openedBelow : ∀ k, opens k ∈ l → k.id < next
  txns : (txns l).Perm (T ++ R.txns)
  cursors : (Call.cursors l).Perm (K ++ R.cursors)
  inside : ∀ k ∈ R.cursors, ∃ t ∈ R.txns, t.id = k.txn

section
variable {l : List Call} {next : Nat} {T T' : List Txn} {K K' : List Cur} {R : Part}

theorem Holds.perm (h : Holds l next T K R) (hT : T.Perm T') (hK : K.Perm K') : Holds l next T' K' R :=
  { h with txns := h.txns.trans (hT.append_right _), cursors := h.cursors.trans (hK.append_right _) }

theorem Holds.mem_txns (h : Holds l next T K R) (ht : t ∈ T) : t ∈ Call.txns l :=
  h.txns.mem_iff.2 (mem_append_left _ ht)

theorem Holds.mem_cursors (h : Holds l next T K R) (hk : k ∈ K) : k ∈ Call.cursors l :=
  h.cursors.mem_iff.2 (mem_append_left _ hk)

theorem Holds.begins (h : Holds l next T K R) (w : Bool)
    (hw : w = true → (∀ t ∈ T, t.write = false) ∧ ∀ t ∈ R.txns, t.write = false) :
    Holds (.begins ⟨next, w⟩ :: l) (next + 1) (⟨next, w⟩ :: T) K R where
  lawful := by
    refine ⟨h.lawful, fun u hu => Nat.ne_of_lt (h.begunBelow u hu), fun hwt u hu => ?_⟩
    rcases mem_append.1 (h.txns.mem_iff.1 hu) with hu | hu
    · exact (hw hwt).1 u hu
    · exact (hw hwt).2 u hu
  begunBelow t ht := by
    rcases mem_cons.1 ht with ht | ht
    · cases ht
      exact Nat.lt_succ_self _
    · exact Nat.lt_succ_of_lt (h.begunBelow t ht)
  openedBelow k hk := by
    rcases mem_cons.1 hk with hk | hk
    · cases hk
    · exact Nat.lt_succ_of_lt (h.openedBelow k hk)
  txns := h.txns.cons _
  cursors := h.cursors
  inside := h.inside

theorem Holds.other (h : Holds l next T K R) {c : Call} (hc : Allowed l c) (hb : c.begun = none) (he : c.ended = none)
    (hs : c.started = none) (hd : c.closed = none) : Holds (c :: l) next T K R where
  lawful := ⟨h.lawful, hc⟩
  begunBelow t ht := by
    rcases mem_cons.1 ht with rfl | ht
    · cases hb
    · exact h.begunBelow t ht
  openedBelow k hk := by
    rcases mem_cons.1 hk with rfl | hk
    · cases hs
    · exact h.openedBelow k hk
  txns := by
    rw [Call.txns, opened_other hb he]
    exact h.txns
  cursors := by
    rw [Call.cursors, opened_other hs hd]
    exact h.cursors
  inside := h.inside

theorem Holds.uses (h : Holds l next T K R) (ht : t ∈ T) : Holds (.uses t.id :: l) next T K R :=
  h.other ⟨t, h.mem_txns ht, rfl⟩ rfl rfl rfl rfl

theorem Holds.looks (h : Holds l next T K R) (hk : k ∈ K) (ht : t ∈ T) (hkt : t.id = k.txn) :
    Holds (.looks k.id :: l) next T K R :=
  h.other ⟨k, h.mem_cursors hk, rfl, t, h.mem_txns ht, hkt⟩ rfl rfl rfl rfl

theorem Holds.opens (h : Holds l next T K R) (ht : t ∈ T) :
    Holds (.opens ⟨next, t.id⟩ :: l) (next + 1) T (⟨next, t.id⟩ :: K) R where
  lawful := ⟨h.lawful, fun k hk => Nat.ne_of_lt (h.openedBelow k hk), t, h.mem_txns ht, rfl⟩
  begunBelow u hu := by
    rcases mem_cons.1 hu with hu | hu
    · cases hu
    · exact Nat.lt_succ_of_lt (h.begunBelow u hu)
  openedBelow k hk := by
    rcases mem_cons.1 hk with hk | hk
    · cases hk
      exact Nat.lt_succ_self _
    · exact Nat.lt_succ_of_lt (h.openedBelow k hk)
  txns := h.txns
  cursors := h.cursors.cons _
  inside := h.inside

theorem filter_of_perm_cons {α : Type} {num : α → Nat} {l m : List α} {a : α} (h : l.Perm (a :: m))
    (hn : (l.map num).Nodup) : (l.filter (fun x => num x ≠ num a)).Perm m := by
  have hnodup := (h.map num).nodup_iff.1 hn
  rw [map_cons, nodup_cons] at hnodup
  have hall : m.filter (fun x => num x ≠ num a) = m := by
    rw [List.filter_eq_self]
    intro x hx
    simpa using fun he => hnodup.1 (mem_map.2 ⟨x, hx, he⟩)
  have hfilter := h.filter (fun x => num x ≠ num a)
  rw [List.filter_cons_of_neg (by simp), hall] at hfilter
  exact hfilter

theorem Holds.closes (h : Holds l next T (k :: K) R) (ht : t ∈ T) (hkt : t.id = k.txn) :
    Holds (.closes k.id :: l) next T K R where
  lawful := ⟨h.lawful, k, h.mem_cursors mem_cons_self, rfl, t, h.mem_txns ht, hkt⟩
  begunBelow u hu := h.begunBelow u (by simpa using hu)
  openedBelow c hc := h.openedBelow c (by simpa using hc)
  txns := h.txns
  cursors := filter_of_perm_cons h.cursors h.lawful.kept_cursors.nodup
  inside := h.inside

def Inside (T : List Txn) (K : List Cur) : Prop := ∀ k ∈ K, ∃ t ∈ T, t.id = k.txn

theorem Inside.append {K₁ K₂ : List Cur} (h₁ : Inside T K₁) (h₂ : Inside T K₂) : Inside T (K₁ ++ K₂) := fun k hk => by
  rcases mem_append.1 hk with hk | hk
  · exact h₁ k hk
  · exact h₂ k hk

theorem Inside.mono {T₁ T₂ : List Txn} (h : Inside T₁ K) (hT : T₁ ⊆ T₂) : Inside T₂ K := fun k hk => by
  obtain ⟨t, ht, hid⟩ := h k hk
  exact ⟨t, hT ht, hid⟩

theorem Holds.ends (h : Holds l next (t :: T) K R) (hK : Inside T K) : Holds (.ends t.id :: l) next T K R where
  lawful := by
    -- numbers differ, so what is on another transaction is not on this one
    have hnodup := (h.txns.map Txn.id).nodup_iff.1 h.lawful.kept_txns.nodup
    rw [List.cons_append, map_cons, nodup_cons] at hnodup
    have hne : ∀ u ∈ T ++ R.txns, u.id ≠ t.id := fun u hu he => hnodup.1 (mem_map.2 ⟨u, hu, he⟩)
    refine ⟨h.lawful, ⟨t, h.mem_txns mem_cons_self, rfl⟩, fun k hk => ?_⟩
    rcases mem_append.1 (h.cursors.mem_iff.1 hk) with hk | hk
    · obtain ⟨u, hu, hid⟩ := hK k hk
      rw [← hid]
      exact hne u (mem_append_left _ hu)
    · obtain ⟨u, hu, hid⟩ := h.inside k hk
      rw [← hid]
      exact hne u (List.mem_append_right _ hu)
  begunBelow u hu := h.begunBelow u (by simpa using hu)
  openedBelow c hc := h.openedBelow c (by simpa using hc)
  txns := filter_of_perm_cons h.txns h.lawful.kept_txns.nodup
  cursors := h.cursors
  inside := h.inside

/-! ## Every holder -/

/-- The holders have everything that is open, and nothing twice. -/
structure Split (l : List Call) (next : Nat) (parts : List Part) : Prop where
  lawful : Lawful l
  begunBelow : ∀ t, begins t ∈ l → t.id < next
  openedBelow : ∀ k, opens k ∈ l → k.id < next
  txns : (Call.txns l).Perm (parts.flatMap Part.txns)
  cursors : (Call.cursors l).Perm (parts.flatMap Part.cursors)
  inside : ∀ p ∈ parts, Inside p.txns p.cursors

/-- What several holders have open, as one. -/
def Part.all (parts : List Part) : Part := ⟨parts.flatMap Part.txns, parts.flatMap Part.cursors⟩

theorem flatMap_middle {α β : Type} (f : α → List β) (pre post : List α) (a : α) :
    ((pre ++ a :: post).flatMap f).Perm (f a ++ (pre ++ post).flatMap f) := by
  rw [List.flatMap_append, List.flatMap_cons, List.flatMap_append]
  exact List.perm_append_comm_assoc _ _ _

theorem Split.holds {pre post : List Part} {p : Part} (h : Split l next (pre ++ p :: post)) :
    Holds l next p.txns p.cursors (Part.all (pre ++ post)) where
  lawful := h.lawful
  begunBelow := h.begunBelow
  openedBelow := h.openedBelow
  txns := h.txns.trans (flatMap_middle _ _ _ _)
  cursors := h.cursors.trans (flatMap_middle _ _ _ _)
  inside k hk := by
    obtain ⟨q, hq, hkq⟩ := List.mem_flatMap.1 hk
    have hmem : q ∈ pre ++ p :: post := by
      rcases mem_append.1 hq with hq | hq
      · exact mem_append_left _ hq
      · exact List.mem_append_right _ (mem_cons_of_mem _ hq)
    obtain ⟨t, ht, hid⟩ := h.inside q hmem k hkq
    exact ⟨t, List.mem_flatMap.2 ⟨q, hq, ht⟩, hid⟩

theorem Holds.split {pre post : List Part} (h : Holds l next T K (Part.all (pre ++ post)))
    (hothers : ∀ p ∈ pre ++ post, Inside p.txns p.cursors) (hin : Inside T K) :
    Split l next (pre ++ ⟨T, K⟩ :: post) where
  lawful := h.lawful
  begunBelow := h.begunBelow
  openedBelow := h.openedBelow
  txns := h.txns.trans (flatMap_middle Part.txns pre post ⟨T, K⟩).symm
  cursors := h.cursors.trans (flatMap_middle Part.cursors pre post ⟨T, K⟩).symm
  inside q hq := by
    rcases mem_append.1 hq with hq | hq
    · exact hothers q (mem_append_left _ hq)
    · rcases mem_cons.1 hq with rfl | hq
      · exact hin
      · exact hothers q (List.mem_append_right _ hq)

end

end Call
end Gbasic
