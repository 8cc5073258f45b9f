import Gbasic.LsmBase
import Gbasic.Bytes
import Gbasic.SortedMap
/-!
# Engine — the storage interface, as a write transaction sees it

A transaction sees trees by their names, each a map of keys to values in the order of memory.  A call that refuses
leaves every tree as it was, and what it refuses is told by its arguments: a key over the limit, a tree that is not
there, a key that is.
-/
namespace Gbasic
namespace Engine

open Lsm (Status GS_MAX_KEY)

abbrev Bytes := List Byte
abbrev Tree := SortedMap Bytes Bytes

/-- The trees by their names. -/
abbrev Trees := Bytes → Option Tree

/-- `GS_NO_OVERWRITE` or none. -/
inductive PutFlags where
  | none | noOverwrite
  deriving DecidableEq, Repr

def Trees.set (t : Trees) (name : Bytes) (m : Option Tree) : Trees := fun n => if n = name then m else t n

def treeFind (t : Trees) (name : Bytes) : Except Status Tree :=
  if GS_MAX_KEY < name.length then .error .tooLarge
  else
    match t name with
    | some m => .ok m
    | none => .error .notFound

def treeCreate (t : Trees) (name : Bytes) : Status × Trees :=
  match treeFind t name with
  | .ok _ => (.exists, t)
  | .error .notFound => (.ok, t.set name (some .empty))
  | .error rc => (rc, t)

def treeDrop (t : Trees) (name : Bytes) : Status × Trees :=
  match treeFind t name with
  | .ok _ => (.ok, t.set name none)
  | .error rc => (rc, t)

def get (t : Trees) (tree key : Bytes) : Except Status Bytes :=
  match treeFind t tree with
  | .error rc => .error rc
  | .ok m =>
    if GS_MAX_KEY < key.length then .error .notFound
    else
      match m.get key with
      | some v => .ok v
      | none => .error .notFound

def put (t : Trees) (tree key value : Bytes) (flags : PutFlags) : Status × Trees :=
  if GS_MAX_KEY < key.length then (.tooLarge, t)
  else
    match treeFind t tree with
    | .error rc => (rc, t)
    | .ok m =>
      if flags = .noOverwrite ∧ (m.get key).isSome then (.exists, t)
      else (.ok, t.set tree (some (m.put key value)))

def del (t : Trees) (tree key : Bytes) : Status × Trees :=
  if GS_MAX_KEY < key.length then (.tooLarge, t)
  else
    match treeFind t tree with
    | .error rc => (rc, t)
    | .ok m => if (m.get key).isSome then (.ok, t.set tree (some (m.del key))) else (.notFound, t)

/-- A cursor opened on a tree and set at or before a key: one too long for any key to reach finds nothing. -/
def seekLe (m : Tree) (key : Bytes) : Option (Bytes × Bytes) :=
  if GS_MAX_KEY + 1 < key.length then none else m.floor key

/-! ## One tree changes at a time -/

@[simp] theorem set_self (t : Trees) (name : Bytes) (m : Option Tree) : t.set name m name = m := by simp [Trees.set]

theorem set_of_ne (t : Trees) {name n : Bytes} (h : n ≠ name) (m : Option Tree) : t.set name m n = t n := by
  rw [Trees.set, if_neg h]

/-! ## What each call answers

A tree's name is within the limit; whether a call is refused is then told by the key's length and by what is there. -/

section
variable {t : Trees} {tree key value : Bytes} {m : Tree}

def Room (t : Trees) (tree key : Bytes) : Prop := key.length ≤ GS_MAX_KEY ∧ (t tree).isSome

def Present (t : Trees) (tree key : Bytes) : Prop :=
  key.length ≤ GS_MAX_KEY ∧ ∃ m, t tree = some m ∧ (m.get key).isSome

def Vacant (t : Trees) (tree key : Bytes) : Prop := key.length ≤ GS_MAX_KEY ∧ ∃ m, t tree = some m ∧ m.get key = none

theorem treeFind_some (hn : tree.length ≤ GS_MAX_KEY) (ht : t tree = some m) : treeFind t tree = .ok m := by
  rw [treeFind, if_neg (not_lt.2 hn), ht]

theorem treeFind_none (hn : tree.length ≤ GS_MAX_KEY) (ht : t tree = none) : treeFind t tree = .error .notFound := by
  rw [treeFind, if_neg (not_lt.2 hn), ht]

theorem get_eq (hn : tree.length ≤ GS_MAX_KEY) (t : Trees) (key : Bytes) :
    get t tree key = match (if key.length ≤ GS_MAX_KEY then (t tree).bind (fun m => m.get key) else none) with
      | some v => .ok v
      | none => .error .notFound := by
  rcases ht : t tree with _ | m
  · rw [get, treeFind_none hn ht]
    split_ifs <;> rfl
  · rw [get, treeFind_some hn ht]
    dsimp only
    by_cases hk : key.length ≤ GS_MAX_KEY
    · rw [if_neg (not_lt.2 hk), if_pos hk]
      rfl
    · rw [if_pos (not_le.1 hk), if_neg hk]

theorem get_eq_ok (hn : tree.length ≤ GS_MAX_KEY) :
    get t tree key = .ok value ↔ key.length ≤ GS_MAX_KEY ∧ ∃ m, t tree = some m ∧ m.get key = some value := by
  rw [get_eq hn]
  by_cases hk : key.length ≤ GS_MAX_KEY
  · rw [if_pos hk]
    rcases ht : t tree with _ | m
    · simp
    · rcases hg : m.get key with _ | v
      · simp [hg]
      · simp [hg, hk]
  · simp [hk]

theorem put_room (hn : tree.length ≤ GS_MAX_KEY) (hk : key.length ≤ GS_MAX_KEY) (ht : t tree = some m) :
    put t tree key value .none = (.ok, t.set tree (some (m.put key value))) := by
  rw [put, if_neg (not_lt.2 hk), treeFind_some hn ht]
  simp

theorem put_vacant (hn : tree.length ≤ GS_MAX_KEY) (hk : key.length ≤ GS_MAX_KEY) (ht : t tree = some m)
    (hg : m.get key = none) : put t tree key value .noOverwrite = (.ok, t.set tree (some (m.put key value))) := by
  rw [put, if_neg (not_lt.2 hk), treeFind_some hn ht]
  simp [hg]

theorem put_refused (hn : tree.length ≤ GS_MAX_KEY) (h : ¬ Room t tree key) (value : Bytes) :
    ∃ rc, rc ≠ .ok ∧ put t tree key value .none = (rc, t) := by
  by_cases hk : key.length ≤ GS_MAX_KEY
  · rcases ht : t tree with _ | m
    · exact ⟨.notFound, by simp, by rw [put, if_neg (not_lt.2 hk), treeFind_none hn ht]⟩
    · exact absurd ⟨hk, by simp [ht]⟩ h
  · exact ⟨.tooLarge, by simp, by rw [put, if_pos (not_le.1 hk)]⟩

theorem put_new_refused (hn : tree.length ≤ GS_MAX_KEY) (h : ¬ Vacant t tree key) (value : Bytes) :
    ∃ rc, rc ≠ .ok ∧ put t tree key value .noOverwrite = (rc, t) := by
  by_cases hk : key.length ≤ GS_MAX_KEY
  · rcases ht : t tree with _ | m
    · exact ⟨.notFound, by simp, by rw [put, if_neg (not_lt.2 hk), treeFind_none hn ht]⟩
    · rcases hg : m.get key with _ | v
      · exact absurd ⟨hk, m, ht, hg⟩ h
      · exact ⟨.exists, by simp, by rw [put, if_neg (not_lt.2 hk), treeFind_some hn ht]; simp [hg]⟩
  · exact ⟨.tooLarge, by simp, by rw [put, if_pos (not_le.1 hk)]⟩

theorem del_present (hn : tree.length ≤ GS_MAX_KEY) (hk : key.length ≤ GS_MAX_KEY) (ht : t tree = some m)
    (hg : (m.get key).isSome) : del t tree key = (.ok, t.set tree (some (m.del key))) := by
  rw [del, if_neg (not_lt.2 hk), treeFind_some hn ht]
  dsimp only
  rw [if_pos hg]

theorem del_refused (hn : tree.length ≤ GS_MAX_KEY) (h : ¬ Present t tree key) :
    ∃ rc, rc ≠ .ok ∧ del t tree key = (rc, t) := by
  by_cases hk : key.length ≤ GS_MAX_KEY
  · rcases ht : t tree with _ | m
    · exact ⟨.notFound, by simp, by rw [del, if_neg (not_lt.2 hk), treeFind_none hn ht]⟩
    · by_cases hg : (m.get key).isSome
      · exact absurd ⟨hk, m, ht, hg⟩ h
      · refine ⟨.notFound, by simp, ?_⟩
        rw [del, if_neg (not_lt.2 hk), treeFind_some hn ht]
        dsimp only
        rw [if_neg hg]
  · exact ⟨.tooLarge, by simp, by rw [del, if_pos (not_le.1 hk)]⟩

/-! ## Trees made and dropped -/

theorem treeCreate_cases (hn : tree.length ≤ GS_MAX_KEY) (t : Trees) :
    ((t tree).isSome ∧ treeCreate t tree = (.exists, t)) ∨
      (t tree = none ∧ treeCreate t tree = (.ok, t.set tree (some .empty))) := by
  rcases ht : t tree with _ | m
  · exact .inr ⟨rfl, by rw [treeCreate, treeFind_none hn ht]⟩
  · exact .inl ⟨rfl, by rw [treeCreate, treeFind_some hn ht]⟩

theorem treeDrop_some (hn : tree.length ≤ GS_MAX_KEY) (h : (t tree).isSome) :
    treeDrop t tree = (.ok, t.set tree none) := by
  obtain ⟨m, hm⟩ := Option.isSome_iff_exists.1 h
  rw [treeDrop, treeFind_some hn hm]

end

end Engine
end Gbasic
