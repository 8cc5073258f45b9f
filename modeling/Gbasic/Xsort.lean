import Mathlib.Algebra.Order.BigOperators.Group.List
import Gbasic.Bytes
import Gbasic.Sift
/-!
# Xsort — the external sorter

Entries are held until they pass the budget, then sorted and written as a run, a file of the sorter's own directory.
At the end a run is merged with the others through a heap of their current entries, at most `XSORT_FAN` at once: past
that, consecutive runs are merged into longer ones first.  Memory and the file operations do not fail here, and the
sizes of what is held in memory do not wrap; the entries' lengths and the runs' numbers are of thirty-two bits.
-/
namespace Gbasic
namespace Xsort

abbrev Bytes := List Byte

def DEFAULT_BUDGET : Nat := 64 * 2 ^ 20
def XSORT_FAN : Nat := 128
def UINT32_MAX : Nat := 2 ^ 32 - 1

def entSize : Nat := 24

/-- What a call answers but zero; `fault` is a read of what is not there. -/
inductive Errno where
  | einval | enomem | eio | enoent | fault
  deriving DecidableEq

structure Ent where
  key : Bytes
  value : Bytes
  seq : Nat

structure Run where
  rest : Bytes
  buf : Bytes
  kn : Nat
  vn : Nat
  live : Bool

structure Merge where
  runs : List Run
  heap : List Nat

/-- The sorter; `nextAt` is its `at`, and its runs are as many as `ids`. -/
structure GsXsort where
  budget : Nat
  ents : List Ent
  used : Nat
  seq : Nat
  ids : List Nat
  capids : Nat
  nextid : Nat
  written : Nat
  passes : Nat
  finished : Bool
  nextAt : Nat
  merge : Merge
  files : Nat → Option Bytes

/-- `gs_xsort_open`. -/
def opened (budget : Nat) : GsXsort where
  budget := if budget ≠ 0 then budget else DEFAULT_BUDGET
  ents := []
  used := 0
  seq := 0
  ids := []
  capids := 0
  nextid := 0
  written := 0
  passes := 0
  finished := false
  nextAt := 0
  merge := ⟨[], []⟩
  files := fun _ => none

/-! ## Runs written -/

/-- `memcmp` of the keys as far as both go, then their lengths, then a tie. -/
def keyCmp (k l : Bytes) (tie : Ordering) : Ordering :=
  let n := min k.length l.length
  match memcmp (k.take n) (l.take n) with
  | .eq => if k.length ≠ l.length then (if k.length < l.length then .lt else .gt) else tie
  | c => c

def entCmp (x y : Ent) : Ordering := keyCmp x.key y.key (cmp x.seq y.seq)

def sortArena (ents : List Ent) : List Ent := ents.mergeSort (fun x y => decide (entCmp x y ≠ .gt))

def putEnt (kn vn : Nat) (bytes : Bytes) : Bytes :=
  lePut 4 kn ++ lePut 4 vn ++ (if (kn + vn) % 2 ^ 32 ≠ 0 then bytes else [])

def Ent.put (e : Ent) : Bytes := putEnt e.key.length e.value.length (e.key ++ e.value)

def setFile (files : Nat → Option Bytes) (id : Nat) (b : Option Bytes) : Nat → Option Bytes :=
  fun i => if i = id then b else files i

def capNext (capids : Nat) : Nat := if capids ≠ 0 then capids * 2 % 2 ^ 32 else 64

/-- `run_new`: the next run's file number.  There is no memory of a size that wraps to zero. -/
def runNew (s : GsXsort) : Except Errno (Nat × GsXsort) :=
  if s.ids.length = s.capids ∧ capNext s.capids = 0 then .error .enomem
  else .ok (s.nextid, { s with
    capids := if s.ids.length = s.capids then capNext s.capids else s.capids
    nextid := (s.nextid + 1) % 2 ^ 32
    ids := s.ids ++ [s.nextid] })

def spill (s : GsXsort) : Except Errno GsXsort :=
  match runNew s with
  | .error e => .error e
  | .ok (id, s') => .ok { s' with
      files := setFile s.files id (some ((sortArena s.ents).flatMap Ent.put))
      written := s.written + 1
      used := 0
      ents := [] }

def add (s : GsXsort) (k v : Bytes) : Except Errno GsXsort :=
  if s.finished = true ∨ UINT32_MAX < k.length ∨ UINT32_MAX < v.length then .error .einval
  else
    let need := k.length + v.length
    match (if s.ents ≠ [] ∧ s.budget < s.used + need + s.ents.length * entSize then spill s else .ok s) with
    | .error e => .error e
    | .ok s => .ok { s with ents := s.ents ++ [⟨k, v, s.seq⟩], seq := s.seq + 1, used := s.used + need }

/-! ## Runs read -/

/-- `run_step`: the run's next entry, or none where its file ends before one begins. -/
def runStep (r : Run) : Except Errno Run :=
  match leGet 4 r.rest with
  | none => .ok { r with rest := [], live := false }
  | some (kn, l) =>
    match leGet 4 l with
    | none => .ok { r with rest := [], kn := kn, live := false }
    | some (vn, l) =>
      if l.length < kn + vn then .error .eio
      else .ok ⟨l.drop (kn + vn), l.take (kn + vn), kn, vn, true⟩

def Run.key (r : Run) : Bytes := r.buf.take r.kn

def Run.value (r : Run) : Bytes := (r.buf.drop r.kn).take r.vn

def keyAt (runs : List Run) (i : Nat) : Bytes := ((runs[i]?).map Run.key).getD []

def runLess (runs : List Run) (a b : Nat) : Bool :=
  decide (keyCmp (keyAt runs a) (keyAt runs b) (if a < b then .lt else .gt) = .lt)

def openEach (files : Nat → Option Bytes) : List Nat → Except Errno (List Run)
  | [] => .ok []
  | id :: ids =>
    match files id with
    | none => .error .enoent
    | some b =>
      match runStep ⟨b, [], 0, 0, false⟩ with
      | .error e => .error e
      | .ok r =>
        match openEach files ids with
        | .error e => .error e
        | .ok rs => .ok (r :: rs)

def liveFrom : Nat → List Run → List Nat
  | _, [] => []
  | i, r :: rs => if r.live then i :: liveFrom (i + 1) rs else liveFrom (i + 1) rs

def openRuns (files : Nat → Option Bytes) (ids : List Nat) : Except Errno Merge :=
  match openEach files ids with
  | .error e => .error e
  | .ok runs => .ok ⟨runs, Sift.heapify (runLess runs) (liveFrom 0 runs)⟩

def dropTop : List Nat → List Nat
  | [] => []
  | [_] => []
  | _ :: a :: l => (a :: l).getLast (List.cons_ne_nil a l) :: (a :: l).dropLast

def advance (m : Merge) : Except Errno Merge :=
  match m.heap with
  | [] => .error .fault
  | top :: _ =>
    match m.runs[top]? with
    | none => .error .fault
    | some r =>
      match runStep r with
      | .error e => .error e
      | .ok r =>
        let runs := m.runs.set top r
        .ok ⟨runs, Sift.siftDown (runLess runs) (if r.live then m.heap else dropTop m.heap) 0⟩

def Merge.top (m : Merge) : Option Run := m.heap.head?.bind (fun i => m.runs[i]?)

/-! ## A merge ends -/

def Merge.size (m : Merge) : Nat := (m.runs.map (fun r => r.rest.length)).sum + m.heap.length

theorem sum_set {α : Type} (f : α → Nat) : ∀ {l : List α} {i : Nat} {a : α} (b : α), l[i]? = some a →
    ((l.set i b).map f).sum + f a = (l.map f).sum + f b
  | [], _, _, _, h => by cases h
  | x :: l, 0, a, b, h => by
    cases h
    rw [List.set_cons_zero, List.map_cons, List.map_cons, List.sum_cons, List.sum_cons]
    omega
  | x :: l, i + 1, a, b, h => by
    have ih := sum_set f b (show l[i]? = some a from h)
    rw [List.set_cons_succ, List.map_cons, List.map_cons, List.sum_cons, List.sum_cons]
    omega

theorem length_dropTop : ∀ h : List Nat, (dropTop h).length = h.length - 1
  | [] => rfl
  | [_] => rfl
  | _ :: a :: l => by
    rw [dropTop, List.length_cons, List.length_dropLast]
    rfl

theorem runStep_ok {r r' : Run} (h : runStep r = .ok r') :
    (r'.live = true ∧ r.rest.length = 8 + (r'.kn + r'.vn) + r'.rest.length) ∨ (r'.live = false ∧ r'.rest = []) := by
  unfold runStep at h
  split at h
  · cases h
    exact Or.inr ⟨rfl, rfl⟩
  rename_i kn l hkn
  split at h
  · cases h
    exact Or.inr ⟨rfl, rfl⟩
  rename_i vn l' hvn
  split at h
  · cases h
  rename_i hlen
  cases h
  obtain ⟨p, hp, hrest⟩ := leGet_rest 4 _ hkn
  obtain ⟨q, hq, hl⟩ := leGet_rest 4 _ hvn
  refine Or.inl ⟨rfl, ?_⟩
  dsimp only
  rw [hrest, hl, List.length_append, List.length_append, List.length_drop, hp, hq]
  omega

theorem advance_size {m m' : Merge} (h : advance m = .ok m') : m'.size < m.size := by
  unfold advance at h
  split at h
  · cases h
  rename_i top l hheap
  split at h
  · cases h
  rename_i r hr
  split at h
  · cases h
  rename_i r' hstep
  cases h
  have hsum := sum_set (fun r : Run => r.rest.length) r' hr
  have hsift : ∀ hp : List Nat, (Sift.siftDown (runLess (m.runs.set top r')) hp 0).length = hp.length :=
    fun hp => (Sift.perm_siftFrom _ hp 0).length_eq
  unfold Merge.size
  dsimp only
  rw [hsift]
  rcases runStep_ok hstep with ⟨hlive, hlen⟩ | ⟨hlive, hrest⟩
  · rw [hlive, if_pos rfl]
    omega
  · rw [hlive, if_neg Bool.false_ne_true, length_dropTop, hheap, List.length_cons]
    rw [hrest, List.length_nil] at hsum
    omega

/-! ## Merging -/

def mergeAll (m : Merge) (out : Bytes) : Except Errno Bytes :=
  match m.top with
  | none => if m.heap = [] then .ok out else .error .fault
  | some r =>
    match _h : advance m with
    | .error e => .error e
    | .ok m' => mergeAll m' (out ++ putEnt r.kn r.vn r.buf)
termination_by m.size
decreasing_by exact advance_size _h

def mergeGroup (s : GsXsort) (group : List Nat) : Except Errno GsXsort :=
  match openRuns s.files group with
  | .error e => .error e
  | .ok m =>
    match runNew s with
    | .error e => .error e
    | .ok (id, s') =>
      match mergeAll m [] with
      | .error e => .error e
      | .ok out => .ok { s' with
          files := fun i => if i ∈ group then none else setFile s.files id (some out) i }

/-- Each `XSORT_FAN` of some runs merged, in order. -/
def mergeGroups (s : GsXsort) (old : List Nat) : Except Errno GsXsort :=
  if _h : old = [] then .ok s
  else
    match mergeGroup s (old.take XSORT_FAN) with
    | .error e => .error e
    | .ok s => mergeGroups s (old.drop XSORT_FAN)
termination_by old.length
decreasing_by
  have := List.length_pos_iff.2 _h
  rw [List.length_drop, XSORT_FAN]
  omega

def mergePass (s : GsXsort) : Except Errno GsXsort :=
  match mergeGroups { s with ids := [], capids := 0 } s.ids with
  | .error e => .error e
  | .ok s => .ok { s with passes := s.passes + 1 }

theorem runNew_ids {s s' : GsXsort} {id : Nat} (h : runNew s = .ok (id, s')) :
    s'.ids = s.ids ++ [id] ∧ id = s.nextid := by
  unfold runNew at h
  split at h
  · cases h
  · cases h
    exact ⟨rfl, rfl⟩

theorem mergeGroup_ids {s s' : GsXsort} {group : List Nat} (h : mergeGroup s group = .ok s') :
    s'.ids.length = s.ids.length + 1 := by
  unfold mergeGroup at h
  split at h
  · cases h
  split at h
  · cases h
  rename_i id s₁ hnew
  split at h
  · cases h
  cases h
  dsimp only
  rw [(runNew_ids hnew).1, List.length_append]
  rfl

theorem mergeGroups_ids : ∀ {n : Nat} {old : List Nat} {s s' : GsXsort}, old.length = n → mergeGroups s old = .ok s' →
    s'.ids.length = s.ids.length + (n + 127) / 128 := by
  intro n
  induction n using Nat.strong_induction_on with
  | _ n ih =>
    intro old s s' hn h
    rw [mergeGroups] at h
    split at h
    · rename_i hnil
      cases h
      rw [hnil] at hn
      subst hn
      rfl
    · rename_i hne
      have hpos := List.length_pos_iff.2 hne
      split at h
      · cases h
      rename_i s₁ hgroup
      have hdrop : (old.drop XSORT_FAN).length = n - 128 := by
        rw [List.length_drop, hn]
        rfl
      rw [ih (n - 128) (by omega) hdrop h, mergeGroup_ids hgroup]
      omega

theorem mergePass_ids {s s' : GsXsort} (h : mergePass s = .ok s') : s'.ids.length = (s.ids.length + 127) / 128 := by
  unfold mergePass at h
  split at h
  · cases h
  rename_i s₁ hgroups
  cases h
  dsimp only
  rw [mergeGroups_ids rfl hgroups]
  simp

def mergePasses (s : GsXsort) : Except Errno GsXsort :=
  if _h : XSORT_FAN < s.ids.length then
    match _hp : mergePass s with
    | .error e => .error e
    | .ok s' => mergePasses s'
  else .ok s
termination_by s.ids.length
decreasing_by
  rw [mergePass_ids _hp]
  rw [XSORT_FAN] at _h
  omega

def finish (s : GsXsort) : Except Errno GsXsort :=
  if s.finished = true then .error .einval
  else if s.ids = [] then .ok { s with finished := true, ents := sortArena s.ents }
  else
    match (if s.ents ≠ [] then spill s else .ok s) with
    | .error e => .error e
    | .ok s =>
      match mergePasses s with
      | .error e => .error e
      | .ok s =>
        match openRuns s.files s.ids with
        | .error e => .error e
        | .ok m => .ok { s with finished := true, ents := [], merge := m, nextAt := 0 }

/-- `gs_xsort_next`: the next entry, or none at the end.  The entry handed out last is still at the top, and a call past
the end would step a run that is not there. -/
def next (s : GsXsort) : Except Errno (Option (Bytes × Bytes) × GsXsort) :=
  if s.finished = false then .error .einval
  else if s.ids = [] then
    match s.ents[s.nextAt]? with
    | none => .ok (none, s)
    | some e => .ok (some (e.key, e.value), { s with nextAt := s.nextAt + 1 })
  else
    match (if s.nextAt ≠ 0 then advance s.merge else .ok s.merge) with
    | .error e => .error e
    | .ok m => .ok (m.top.map (fun r => (r.key, r.value)), { s with merge := m, nextAt := 1 })

/-- What is left to hand out. -/
def GsXsort.rest (s : GsXsort) : Nat :=
  if s.ids = [] then s.ents.length - s.nextAt else 2 * s.merge.size + (if s.nextAt = 0 then 1 else 0)

theorem next_rest {s s' : GsXsort} {p : Bytes × Bytes} (h : next s = .ok (some p, s')) : s'.rest < s.rest := by
  unfold next at h
  split at h
  · cases h
  split at h
  · rename_i hids
    split at h
    · cases h
    · rename_i e he
      cases h
      have hlt := (List.getElem?_eq_some_iff.1 he).1
      rw [GsXsort.rest, GsXsort.rest, if_pos hids, if_pos hids]
      dsimp only
      omega
  · rename_i hids
    split at h
    · cases h
    rename_i m hm
    injection h with h
    injection h with _ hs
    subst hs
    rw [GsXsort.rest, GsXsort.rest, if_neg hids, if_neg hids, if_neg Nat.one_ne_zero]
    dsimp only
    by_cases hat : s.nextAt = 0
    · rw [if_neg (not_not.2 hat)] at hm
      cases hm
      rw [if_pos hat]
      omega
    · rw [if_pos hat] at hm
      have := advance_size hm
      rw [if_neg hat]
      omega

/-- Pairs given one after another. -/
def addAll (s : GsXsort) : List (Bytes × Bytes) → Except Errno GsXsort
  | [] => .ok s
  | p :: ps =>
    match add s p.1 p.2 with
    | .error e => .error e
    | .ok s => addAll s ps

def Yields (s : GsXsort) : List (Bytes × Bytes) → Prop
  | [] => ∃ s', next s = .ok (none, s')
  | p :: ps => ∃ s', next s = .ok (some p, s') ∧ Yields s' ps

end Xsort
end Gbasic
