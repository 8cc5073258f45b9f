import Gbasic.XsortAdd
/-!
# XsortWeight — a merge hands out no more than its files have

An entry weighs its lengths and the eight bytes they are spelled in.  What a merge hands out or writes weighs no more
than what its runs have left (`load`), and that no more than their files: passes make files no longer, and what is
handed out of runs that are too short is not everything.
-/
namespace Gbasic
namespace Xsort

/-! ## Merges -/

def Run.entry (r : Run) : Nat := if r.live then 8 + (r.kn + r.vn) else 0

def Run.load (r : Run) : Nat := r.entry + r.rest.length

def Merge.load (m : Merge) : Nat := (m.runs.map Run.load).sum

def Run.Filled (r : Run) : Prop := r.live = true → r.buf.length = r.kn + r.vn

structure Sound (m : Merge) : Prop where
  nodup : m.heap.Nodup
  live : ∀ i ∈ m.heap, ∃ r, m.runs[i]? = some r ∧ r.live = true
  filled : ∀ r ∈ m.runs, r.Filled

theorem runStep_load {r r' : Run} (h : runStep r = .ok r') : r'.load ≤ r.rest.length ∧ r'.Filled := by
  constructor
  · rw [Run.load, Run.entry]
    rcases runStep_ok h with ⟨hlive, hlen⟩ | ⟨hlive, hrest⟩
    · rw [if_pos hlive]
      omega
    · rw [hlive, if_neg Bool.false_ne_true, hrest]
      exact Nat.zero_le _
  · intro hlive
    unfold runStep at h
    split at h
    · cases h
      cases hlive
    split at h
    · cases h
      cases hlive
    split at h
    · cases h
    rename_i l hlen
    cases h
    dsimp only
    rw [List.length_take]
    omega

theorem Sound.top {m : Merge} (h : Sound m) {r : Run} (hr : m.top = some r) :
    r.live = true ∧ r.buf.length = r.kn + r.vn ∧ ∃ i l, m.heap = i :: l ∧ m.runs[i]? = some r := by
  rcases hheap : m.heap with _ | ⟨i, l⟩
  · rw [Merge.top, hheap] at hr
    cases hr
  · rw [Merge.top, hheap] at hr
    have hi : m.runs[i]? = some r := hr
    obtain ⟨r', hr', hlive⟩ := h.live i (by rw [hheap]; exact List.mem_cons_self ..)
    rw [hi] at hr'
    cases hr'
    exact ⟨hlive, h.filled r (List.mem_of_getElem? hi) hlive, i, l, rfl, hi⟩

/-- **A step** takes the top's weight of what is left. -/
theorem advance_load {m m' : Merge} (h : Sound m) (ha : advance m = .ok m') :
    ∃ r, m.top = some r ∧ r.entry + m'.load ≤ m.load ∧ Sound m' := by
  unfold advance at ha
  split at ha
  · cases ha
  rename_i i l hheap
  split at ha
  · cases ha
  rename_i r hr
  split at ha
  · cases ha
  rename_i r' hstep
  cases ha
  have htop : m.top = some r := by
    rw [Merge.top, hheap]
    exact hr
  obtain ⟨hload, hfilled⟩ := runStep_load hstep
  have hsum := sum_set Run.load r' hr
  have hsame : ∀ hp : List Nat, (Sift.siftDown (runLess (m.runs.set i r')) hp 0).Perm hp :=
    fun hp => Sift.perm_siftFrom _ hp 0
  have hnd := h.nodup
  have hget : (m.runs.set i r')[i]? = some r' := List.getElem?_set_self (List.getElem?_eq_some_iff.1 hr).1
  refine ⟨r, htop, ?_, ?_, ?_, ?_⟩
  · rw [Merge.load, Merge.load]
    dsimp only
    have hr' : r.load = r.entry + r.rest.length := rfl
    omega
  · dsimp only
    refine (hsame _).nodup_iff.2 ?_
    split
    · exact hnd
    · refine (dropTop_perm m.heap).nodup_iff.2 ?_
      rw [hheap] at hnd ⊢
      exact (List.nodup_cons.1 hnd).2
  · intro j hj
    dsimp only at hj ⊢
    rw [(hsame _).mem_iff] at hj
    by_cases hji : j = i
    · subst hji
      refine ⟨r', hget, ?_⟩
      by_contra hdead
      rw [if_neg hdead, (dropTop_perm m.heap).mem_iff, hheap, List.tail_cons] at hj
      rw [hheap] at hnd
      exact (List.nodup_cons.1 hnd).1 hj
    · have hold : j ∈ m.heap := by
        split at hj
        · exact hj
        · exact List.mem_of_mem_tail ((dropTop_perm m.heap).mem_iff.1 hj)
      rw [List.getElem?_set_ne (Ne.symm hji)]
      exact h.live j hold
  · intro q hq
    rcases List.mem_or_eq_of_mem_set hq with hq | rfl
    · exact h.filled q hq
    · exact hfilled

theorem putEnt_length (r : Run) (hlive : r.live = true) (hfilled : r.buf.length = r.kn + r.vn) :
    (putEnt r.kn r.vn r.buf).length ≤ r.entry := by
  rw [putEnt, List.length_append, List.length_append, length_lePut, length_lePut, Run.entry, if_pos hlive]
  split
  · omega
  · rw [List.length_nil]
    omega

/-- **What is written of a merge** is no longer than what is left of it. -/
theorem mergeAll_length : ∀ {n : Nat} {m : Merge} {acc out : Bytes}, m.size ≤ n → Sound m → mergeAll m acc = .ok out →
    out.length ≤ acc.length + m.load := by
  intro n
  induction n with
  | zero =>
    intro m acc out hn _ hout
    have hheap : m.heap = [] := by
      unfold Merge.size at hn
      exact List.length_eq_zero_iff.1 (by omega)
    rw [mergeAll, show m.top = none by rw [Merge.top, hheap]; rfl] at hout
    dsimp only at hout
    rw [if_pos hheap] at hout
    cases hout
    omega
  | succ n ih =>
    intro m acc out hn h hout
    rw [mergeAll] at hout
    split at hout
    · split at hout
      · cases hout
        omega
      · cases hout
    rename_i r hr
    split at hout
    · cases hout
    rename_i m' hadv
    obtain ⟨r', hr', hload, hm'⟩ := advance_load h hadv
    rw [hr] at hr'
    cases hr'
    obtain ⟨hlive, hfilled, -⟩ := h.top hr
    have hlen := ih (by have := advance_size hadv; omega) hm' hout
    have hput := putEnt_length r hlive hfilled
    rw [List.length_append] at hlen
    omega

/-! ## Files -/

def fileSize (files : Nat → Option Bytes) (id : Nat) : Nat := ((files id).getD []).length

def filesSize (files : Nat → Option Bytes) (ids : List Nat) : Nat := (ids.map (fileSize files)).sum

theorem filesSize_append (files : Nat → Option Bytes) (ids ids' : List Nat) :
    filesSize files (ids ++ ids') = filesSize files ids + filesSize files ids' := by
  rw [filesSize, List.map_append, List.sum_append]
  rfl

theorem filesSize_congr {files files' : Nat → Option Bytes} {ids : List Nat} (h : ∀ i ∈ ids, files' i = files i) :
    filesSize files' ids = filesSize files ids := by
  rw [filesSize, filesSize]
  refine congrArg List.sum (List.map_congr_left (fun i hi => ?_))
  rw [fileSize, fileSize, h i hi]

theorem openEach_load {files : Nat → Option Bytes} : ∀ {ids : List Nat} {runs : List Run},
    openEach files ids = .ok runs → (runs.map Run.load).sum ≤ filesSize files ids ∧ ∀ r ∈ runs, r.Filled
  | [], runs, h => by
    cases h
    exact ⟨Nat.le_refl _, fun r hr => by cases hr⟩
  | id :: ids, runs, h => by
    unfold openEach at h
    split at h
    · cases h
    rename_i b hb
    split at h
    · cases h
    rename_i r hstep
    split at h
    · cases h
    rename_i rs hrest
    cases h
    obtain ⟨hload, hfilled⟩ := runStep_load hstep
    obtain ⟨hrs, hall⟩ := openEach_load hrest
    have hb' : fileSize files id = b.length := by rw [fileSize, hb, Option.getD_some]
    constructor
    · have hsize : filesSize files (id :: ids) = fileSize files id + filesSize files ids := rfl
      rw [List.map_cons, List.sum_cons, hsize, hb']
      dsimp only at hload
      omega
    · intro q hq
      rcases List.mem_cons.1 hq with rfl | hq
      · exact hfilled
      · exact hall q hq

/-- **Runs opened** have no more left than their files. -/
theorem openRuns_load {files : Nat → Option Bytes} {ids : List Nat} {m : Merge} (h : openRuns files ids = .ok m) :
    Sound m ∧ m.load ≤ filesSize files ids := by
  unfold openRuns at h
  split at h
  · cases h
  rename_i runs hopen
  cases h
  obtain ⟨hload, hfilled⟩ := openEach_load hopen
  have hsame : (Sift.heapify (runLess runs) (liveFrom 0 runs)).Perm (liveFrom 0 runs) := Sift.perm_siftAll _ _
  refine ⟨⟨hsame.nodup_iff.2 (liveFrom_nodup runs 0), ?_, hfilled⟩, hload⟩
  intro i hi
  obtain ⟨-, r, hr, hlive⟩ := liveFrom_mem.1 (hsame.mem_iff.1 hi)
  exact ⟨r, hr, hlive⟩

theorem mergeGroup_inv {s s' : GsXsort} {group : List Nat} (h : mergeGroup s group = .ok s') :
    ∃ m out, openRuns s.files group = .ok m ∧ mergeAll m [] = .ok out := by
  unfold mergeGroup at h
  split at h
  · cases h
  rename_i m hm
  split at h
  · cases h
  split at h
  · cases h
  rename_i out hout
  exact ⟨m, out, hm, hout⟩

/-- **Groups merged** make no longer files. -/
theorem mergeGroups_size : ∀ {n : Nat} {s s' : GsXsort} {old : List Nat}, old.length = n → Names s old →
    mergeGroups s old = .ok s' → Names s' [] ∧ s'.nextid = s.nextid + (n + 127) / 128 ∧
      filesSize s'.files s'.ids ≤ filesSize s.files (s.ids ++ old) := by
  intro n
  induction n using Nat.strong_induction_on with
  | _ n ih =>
    intro s s' old hn hnames h
    by_cases hnil : old = []
    · subst hnil
      rw [mergeGroups, dif_pos rfl] at h
      cases h
      refine ⟨hnames, ?_, ?_⟩
      · rw [← hn]
        rfl
      · rw [List.append_nil]
    · rw [mergeGroups, dif_neg hnil] at h
      split at h
      · cases h
      rename_i s₁ hs₁
      have hpos := List.length_pos_iff.2 hnil
      have hsplit : old.take XSORT_FAN ++ old.drop XSORT_FAN = old := List.take_append_drop _ _
      obtain ⟨hgroup, hlen, hfull⟩ := take_group hnil
      obtain ⟨m, out, hm, hout⟩ := mergeGroup_inv hs₁
      rw [← hsplit] at hnames
      obtain ⟨s₂, hs₂, hnames₂, hids, hnext, hfile, hsame⟩ := mergeGroup_eq hnames hgroup hlen hfull hm hout
      rw [hs₁] at hs₂
      cases hs₂
      have hdrop : (old.drop XSORT_FAN).length = n - 128 := by
        rw [List.length_drop, hn]
        rfl
      obtain ⟨hnames', hnext', hsize⟩ := ih (n - 128) (by omega) hdrop hnames₂ h
      refine ⟨hnames', by omega, ?_⟩
      obtain ⟨hsound, hload⟩ := openRuns_load hm
      have hwritten := mergeAll_length (Nat.le_refl _) hsound hout
      rw [List.length_nil] at hwritten
      have hmade : filesSize s₁.files [s.nextid] = out.length := by
        rw [filesSize, List.map_singleton, List.sum_singleton, fileSize, hfile, Option.getD_some]
      have hleft : filesSize s₁.files (s.ids ++ old.drop XSORT_FAN) = filesSize s.files (s.ids ++ old.drop XSORT_FAN) :=
        filesSize_congr hsame
      have hold : filesSize s.files old =
          filesSize s.files (old.take XSORT_FAN) + filesSize s.files (old.drop XSORT_FAN) := by
        rw [← filesSize_append, hsplit]
      rw [hids, filesSize_append, filesSize_append, hmade] at hsize
      rw [filesSize_append, filesSize_append] at hleft
      rw [filesSize_append, hold]
      omega

theorem mergePass_size {s s' : GsXsort} (hroom : Room s) (hmany : 128 < s.ids.length) (h : mergePass s = .ok s') :
    Room s' ∧ filesSize s'.files s'.ids ≤ filesSize s.files s.ids := by
  have hids := mergePass_ids h
  unfold mergePass at h
  split at h
  · cases h
  rename_i s₁ hs₁
  cases h
  obtain ⟨hnames, hnext, hsize⟩ := mergeGroups_size rfl (hroom.names hmany) hs₁
  have hroom' := hnames.room_of hroom hmany hids hnext
  exact ⟨⟨hroom'.nodup, hroom'.below, hroom'.room, hroom'.few⟩, hsize⟩

/-- **Passes** make no longer files. -/
theorem mergePasses_size : ∀ {n : Nat} {s s' : GsXsort}, s.ids.length = n → Room s → s.ids ≠ [] →
    mergePasses s = .ok s' → s'.ids ≠ [] ∧ filesSize s'.files s'.ids ≤ filesSize s.files s.ids := by
  intro n
  induction n using Nat.strong_induction_on with
  | _ n ih =>
    intro s s' hn hroom hne h
    rw [mergePasses] at h
    split at h
    · rename_i hmany
      split at h
      · cases h
      rename_i s₁ hs₁
      have hids := mergePass_ids hs₁
      have hmany' : 128 < s.ids.length := hmany
      have hne₁ : s₁.ids ≠ [] := by
        rw [← List.length_pos_iff]
        omega
      obtain ⟨hroom₁, hsize₁⟩ := mergePass_size hroom hmany' hs₁
      obtain ⟨hne', hsize⟩ := ih s₁.ids.length (by omega) rfl hroom₁ hne₁ h
      exact ⟨hne', hsize.trans hsize₁⟩
    · cases h
      exact ⟨hne, Nat.le_refl _⟩

/-! ## What is handed out -/

def pairsSize (out : List Pair) : Nat := (out.map (fun p => 8 + pairSize p)).sum

/-- Where the merge stands when the next entry is asked for: the one handed out last is stepped past. -/
def GsXsort.left (s : GsXsort) : Nat :=
  if s.nextAt = 0 then s.merge.load else s.merge.load - ((s.merge.top.map Run.entry).getD 0)

theorem entry_le {m : Merge} (h : Sound m) {r : Run} (hr : m.top = some r) : r.entry ≤ m.load := by
  obtain ⟨-, -, i, l, -, hi⟩ := h.top hr
  have hmem : r.load ∈ m.runs.map Run.load := List.mem_map_of_mem (List.mem_of_getElem? hi)
  have hle := List.le_sum_of_mem hmem
  have : r.entry ≤ r.load := Nat.le_add_right _ _
  exact this.trans hle

/-- **What is handed out** weighs no more than what is left. -/
theorem yields_size : ∀ {out : List Pair} {s : GsXsort}, s.finished = true → s.ids ≠ [] → Sound s.merge → Yields s out →
    pairsSize out ≤ s.left := by
  intro out
  induction out with
  | nil =>
    intro s _ _ _ _
    exact Nat.zero_le _
  | cons p out ih =>
    intro s hfin hids hsound h
    obtain ⟨s', hnext, hrest⟩ := h
    rw [next, hfin, if_neg (by simp), if_neg hids] at hnext
    split at hnext
    · cases hnext
    rename_i m hm
    injection hnext with hnext
    injection hnext with hp hs'
    have hm' : Sound m ∧ m.load ≤ s.left := by
      by_cases hat : s.nextAt = 0
      · rw [if_neg (not_not.2 hat)] at hm
        cases hm
        refine ⟨hsound, ?_⟩
        rw [GsXsort.left, if_pos hat]
      · rw [if_pos hat] at hm
        obtain ⟨r, hr, hload, hsound'⟩ := advance_load hsound hm
        refine ⟨hsound', ?_⟩
        rw [GsXsort.left, if_neg hat, hr, Option.map_some, Option.getD_some]
        omega
    rcases htop : m.top with _ | r
    · rw [htop] at hp
      cases hp
    rw [htop, Option.map_some] at hp
    injection hp with hp
    obtain ⟨hlive, hfilled, -⟩ := hm'.1.top htop
    have hsize : 8 + pairSize p = r.entry := by
      rw [Run.entry, if_pos hlive, ← hp, pairSize, Run.key, Run.value, List.length_take, List.length_take,
        List.length_drop, hfilled]
      omega
    have hih := ih (by rw [← hs']) (by rw [← hs']; exact hids) (by rw [← hs']; exact hm'.1) hrest
    have hleft : s'.left = m.load - r.entry := by
      rw [← hs', GsXsort.left, if_neg Nat.one_ne_zero, htop, Option.map_some, Option.getD_some]
    have hle := entry_le hm'.1 htop
    have hcons : pairsSize (p :: out) = 8 + pairSize p + pairsSize out := rfl
    have hm'' := hm'.2
    rw [hcons, hsize]
    omega

end Xsort
end Gbasic
