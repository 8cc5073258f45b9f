import Mathlib.Tactic.Positivity
import Mathlib.Tactic.Ring
import Gbasic.XsortMerge
/-!
# XsortRuns — the runs a sorter merges

A run's number is free as long as fewer than `2 ^ 31` runs are written: their numbers' array can double, and with those
the passes make they stay below `2 ^ 32` (`Names`).  A pass leaves each group's stable merge in its place.
-/
namespace Gbasic
namespace Xsort

open StableSort (Ascends IsStableSort SameByKey)
open List (length_pos_iff append_assoc mem_append_right mem_append length_nil mem_append_left append_nil)

variable {s : GsXsort} {ls : List (List Pair)}

/-! ## The runs' numbers -/

def CapOk (n cap : Nat) : Prop := n ≤ cap ∧ (cap = 0 ∨ ∃ k ≤ 25, cap = 64 * 2 ^ k)

theorem CapOk.le {n cap : Nat} (h : CapOk n cap) : n ≤ 2 ^ 31 := by
  rcases h.2 with h0 | ⟨k, hk, rfl⟩
  · have := h.1
    omega
  · have hpow : 2 ^ k ≤ 2 ^ 25 := Nat.pow_le_pow_right (by decide) hk
    have := h.1
    omega

theorem runNew_cases (h : CapOk s.ids.length s.capids) :
    (s.ids.length < 2 ^ 31 ∧ ∃ cap, CapOk (s.ids.length + 1) cap ∧ runNew s = .ok (s.nextid, { s with
      capids := cap, nextid := (s.nextid + 1) % 2 ^ 32, ids := s.ids ++ [s.nextid] })) ∨
    (s.ids.length = 2 ^ 31 ∧ runNew s = .error .enomem) := by
  have hle := h.le
  obtain ⟨hn, hcap⟩ := h
  unfold runNew
  by_cases hfull : s.ids.length = s.capids
  · rcases hcap with h0 | ⟨k, hk, hpow⟩
    · have hnext : capNext s.capids = 64 := if_neg (not_not.2 h0)
      refine Or.inl ⟨by omega, 64, ⟨by omega, Or.inr ⟨0, by omega, rfl⟩⟩, ?_⟩
      rw [hnext, if_neg (by omega), if_pos hfull]
    · have hpos : 0 < 2 ^ k := by positivity
      have hne : s.capids ≠ 0 := by omega
      have hnext : capNext s.capids = s.capids * 2 % 2 ^ 32 := if_pos hne
      by_cases h25 : k = 25
      · subst h25
        refine Or.inr ⟨by omega, ?_⟩
        rw [if_pos ⟨hfull, by rw [hnext, hpow]; rfl⟩]
      · have hlt : 2 ^ (k + 1) ≤ 2 ^ 25 := Nat.pow_le_pow_right (by decide) (by omega)
        have hdouble : s.capids * 2 % 2 ^ 32 = 64 * 2 ^ (k + 1) := by
          rw [pow_succ] at hlt ⊢
          rw [hpow, Nat.mod_eq_of_lt (by omega)]
          ring
        have hpos' : 0 < 2 ^ (k + 1) := by positivity
        refine Or.inl ⟨?_, 64 * 2 ^ (k + 1), ⟨?_, Or.inr ⟨k + 1, by omega, rfl⟩⟩, ?_⟩
        · rw [pow_succ] at hlt
          omega
        · rw [pow_succ]
          omega
        · rw [hnext, hdouble, if_neg (by omega), if_pos hfull]
  · refine Or.inl ⟨?_, s.capids, ⟨by omega, hcap⟩, ?_⟩
    · rcases hcap with h0 | ⟨k, hk, hpow⟩
      · omega
      · have : 2 ^ k ≤ 2 ^ 25 := Nat.pow_le_pow_right (by decide) hk
        omega
    · rw [if_neg (fun hc => hfull hc.1), if_neg hfull]

/-- The numbers of the runs to be merged and of those made: none twice, and the next is above them. -/
structure Names (s : GsXsort) (old : List Nat) : Prop where
  nodup : (old ++ s.ids).Nodup
  below : ∀ id ∈ old ++ s.ids, id < s.nextid
  room : s.nextid + (old.length + 127) / 128 < 2 ^ 32
  cap : CapOk s.ids.length s.capids
  few : s.ids.length + old.length ≤ 2 ^ 31

/-! ## A group merged -/

/-- A group's merge, where its runs are read to their ends and its numbers are free. -/
theorem mergeGroup_eq {group rest : List Nat} (h : Names s (group ++ rest)) (hne : group ≠ [])
    (hlen : group.length ≤ 128) (hrest : rest ≠ [] → group.length = 128) {m : Merge} {out : Bytes}
    (hm : openRuns s.files group = .ok m) (hout : mergeAll m [] = .ok out) :
    ∃ s', mergeGroup s group = .ok s' ∧ Names s' rest ∧ s'.ids = s.ids ++ [s.nextid] ∧
      s'.nextid = s.nextid + 1 ∧ s'.files s.nextid = some out ∧ ∀ i ∈ s.ids ++ rest, s'.files i = s.files i := by
  have hgpos := length_pos_iff.2 hne
  have hfew := h.few
  have hroom := h.room
  rw [List.length_append] at hfew hroom
  rcases runNew_cases h.cap with ⟨hlt, cap, hcap, hnew⟩ | ⟨hfull, -⟩
  · have hnext : (s.nextid + 1) % 2 ^ 32 = s.nextid + 1 := Nat.mod_eq_of_lt (by omega)
    have hnodup := h.nodup
    have hbelow := h.below
    have hfresh : ∀ i ∈ group ++ rest ++ s.ids, i ≠ s.nextid := fun i hi he => by
      have := hbelow i hi
      omega
    refine ⟨{ s with
      capids := cap
      nextid := s.nextid + 1
      ids := s.ids ++ [s.nextid]
      files := fun i => if i ∈ group then none else setFile s.files s.nextid (some out) i }, ?_, ?_, rfl, rfl, ?_, ?_⟩
    · rw [mergeGroup, hm]
      dsimp only
      rw [hnew]
      dsimp only
      rw [hout, hnext]
    · refine ⟨?_, ?_, ?_, ?_, ?_⟩
      · dsimp only
        rw [← append_assoc]
        refine List.nodup_append.2 ⟨?_, List.nodup_singleton _, ?_⟩
        · rw [append_assoc] at hnodup
          exact (List.nodup_append.1 hnodup).2.1
        · intro a ha b hb
          rw [List.mem_singleton.1 hb]
          refine hfresh a ?_
          rw [append_assoc]
          exact mem_append_right _ ha
      · intro i hi
        dsimp only at hi ⊢
        rw [← append_assoc] at hi
        rcases mem_append.1 hi with hi | hi
        · have := hbelow i (by rw [append_assoc]; exact mem_append_right _ hi)
          omega
        · rw [List.mem_singleton.1 hi]
          exact Nat.lt_succ_self _
      · dsimp only
        by_cases hr : rest = []
        · subst hr
          rw [length_nil] at hroom ⊢
          omega
        · have := hrest hr
          omega
      · dsimp only
        rw [List.length_append]
        exact hcap
      · dsimp only
        rw [List.length_append, List.length_singleton]
        omega
    · dsimp only
      rw [if_neg (fun hi => hfresh s.nextid (mem_append_left _ (mem_append_left _ hi)) rfl), setFile, if_pos rfl]
    · intro i hi
      dsimp only
      have hnot : i ∉ group := by
        intro hg
        rw [append_assoc] at hnodup
        refine (List.nodup_append.1 hnodup).2.2 i hg i ?_ rfl
        rcases mem_append.1 hi with hi | hi
        · exact mem_append_right _ hi
        · exact mem_append_left _ hi
      have hne' : i ≠ s.nextid := by
        refine hfresh i ?_
        rcases mem_append.1 hi with hi | hi
        · exact mem_append_right _ hi
        · exact mem_append_left _ (mem_append_right _ hi)
      rw [if_neg hnot, setFile, if_neg hne']
  · omega

/-! ## Passes -/

theorem FilesHold.congr {files files' : Nat → Option Bytes} {ids : List Nat} (h : FilesHold files ids ls)
    (hsame : ∀ i ∈ ids, files' i = files i) : FilesHold files' ids ls := by
  induction h with
  | nil => exact List.Forall₂.nil
  | cons hhead _ ih =>
    refine .cons ?_ (ih (fun i hi => hsame i (List.mem_cons_of_mem _ hi)))
    rw [hsame _ (List.mem_cons_self ..)]
    exact hhead

theorem FilesHold.snoc {files : Nat → Option Bytes} {ids : List Nat} {id : Nat} {l : List Pair}
    (h : FilesHold files ids ls) (hid : files id = some (l.flatMap putPair)) :
    FilesHold files (ids ++ [id]) (ls ++ [l]) :=
  List.rel_append h (.cons hid .nil)

structure Runnable (ls : List (List Pair)) : Prop where
  ascends : ∀ l ∈ ls, Ascends Prod.fst l
  whole : ∀ l ∈ ls, ∀ p ∈ l, Whole p

theorem Runnable.sub {ms : List (List Pair)} (h : Runnable ls) (hsub : ∀ l ∈ ms, l ∈ ls) : Runnable ms :=
  ⟨fun l hl => h.ascends l (hsub l hl), fun l hl => h.whole l (hsub l hl)⟩

theorem take_group {old : List Nat} (h : old ≠ []) : old.take XSORT_FAN ≠ [] ∧ (old.take XSORT_FAN).length ≤ 128 ∧
    (old.drop XSORT_FAN ≠ [] → (old.take XSORT_FAN).length = 128) := by
  have hpos := length_pos_iff.2 h
  refine ⟨?_, List.length_take_le _ _, fun hd => ?_⟩
  · rw [← length_pos_iff, List.length_take, XSORT_FAN]
    omega
  · have := length_pos_iff.2 hd
    rw [List.length_drop, XSORT_FAN] at this
    rw [List.length_take, XSORT_FAN]
    omega

/-- **Groups merged in order** hold what their runs did, of each key in the order it stood. -/
theorem mergeGroups_at : ∀ {n : Nat} {s : GsXsort} {old : List Nat} {ls made : List (List Pair)}, old.length = n →
    Names s old → FilesHold s.files old ls → FilesHold s.files s.ids made → Runnable ls →
    ∃ s' ms, mergeGroups s old = .ok s' ∧ Names s' [] ∧ FilesHold s'.files s'.ids (made ++ ms) ∧
      SameByKey Prod.fst ms.flatten ls.flatten ∧ Runnable ms ∧ s'.nextid = s.nextid + (n + 127) / 128 := by
  intro n
  induction n using Nat.strong_induction_on with
  | _ n ih =>
    intro s old ls made hn hnames hold hmade hrun
    by_cases hnil : old = []
    · subst hnil
      cases hold
      refine ⟨s, [], ?_, hnames, ?_, SameByKey.refl _, ⟨?_, ?_⟩, ?_⟩
      · rw [mergeGroups, dif_pos rfl]
      · rw [append_nil]
        exact hmade
      · intro l hl
        cases hl
      · intro l hl
        cases hl
      · rw [← hn]
        rfl
    · have hpos := length_pos_iff.2 hnil
      have hsplit : old.take XSORT_FAN ++ old.drop XSORT_FAN = old := List.take_append_drop _ _
      have hls : ls.take XSORT_FAN ++ ls.drop XSORT_FAN = ls := List.take_append_drop _ _
      obtain ⟨hgroup, hlen, hfull⟩ := take_group hnil
      have hholdG : FilesHold s.files (old.take XSORT_FAN) (ls.take XSORT_FAN) := List.forall₂_take XSORT_FAN hold
      have hholdR : FilesHold s.files (old.drop XSORT_FAN) (ls.drop XSORT_FAN) := List.forall₂_drop XSORT_FAN hold
      have hrunG : Runnable (ls.take XSORT_FAN) := hrun.sub (fun l hl => List.mem_of_mem_take hl)
      have hrunR : Runnable (ls.drop XSORT_FAN) := hrun.sub (fun l hl => List.mem_of_mem_drop hl)
      obtain ⟨m, hopen, hm⟩ := openRuns_at hholdG hrunG.whole
      obtain ⟨out, hmerged, hall⟩ := mergeAll_at (Nat.le_refl _) hm
      have hsort := hmerged.isStableSort hrunG.ascends
      have hbytes := hall []
      rw [List.nil_append] at hbytes
      rw [← hsplit] at hnames
      obtain ⟨s₁, hs₁, hnames₁, hids₁, hnext₁, hfile₁, hsame₁⟩ := mergeGroup_eq hnames hgroup hlen hfull hopen hbytes
      have hmade₁ : FilesHold s₁.files s₁.ids (made ++ [out]) := by
        rw [hids₁]
        exact (hmade.congr (fun i hi => hsame₁ i (mem_append_left _ hi))).snoc hfile₁
      have hhold₁ := hholdR.congr (fun i hi => hsame₁ i (mem_append_right _ hi))
      have hdrop : (old.drop XSORT_FAN).length = n - 128 := by
        rw [List.length_drop, hn]
        rfl
      obtain ⟨s', ms, hs', hnames', hhold', hsame', hrun', hnext'⟩ :=
        ih (n - 128) (by omega) hdrop hnames₁ hhold₁ hmade₁ hrunR
      refine ⟨s', out :: ms, ?_, hnames', ?_, ?_, ⟨?_, ?_⟩, ?_⟩
      · rw [mergeGroups, dif_neg hnil, hs₁]
        exact hs'
      · rw [append_assoc] at hhold'
        exact hhold'
      · rw [← hls, List.flatten_cons, List.flatten_append]
        exact hsort.same.append hsame'
      · intro l hl
        rcases List.mem_cons.1 hl with rfl | hl
        · exact hsort.ascends
        · exact hrun'.ascends l hl
      · intro l hl p hp
        rcases List.mem_cons.1 hl with rfl | hl
        · obtain ⟨l', hl', hp'⟩ := List.mem_flatten.1 (hsort.same.mem.1 hp)
          exact hrunG.whole l' hl' p hp'
        · exact hrun'.whole l hl p hp
      · rw [hnext', hnext₁]
        omega

structure Room (s : GsXsort) : Prop where
  nodup : s.ids.Nodup
  below : ∀ id ∈ s.ids, id < s.nextid
  room : s.nextid + s.ids.length / 64 < 2 ^ 32
  few : s.ids.length ≤ 2 ^ 31

theorem Room.names (h : Room s) (hmany : 128 < s.ids.length) : Names { s with ids := [], capids := 0 } s.ids := by
  have hroom := h.room
  have hfew := h.few
  refine ⟨?_, ?_, ?_, ⟨Nat.le_refl 0, Or.inl rfl⟩, ?_⟩
  · dsimp only
    rw [append_nil]
    exact h.nodup
  · dsimp only
    rw [append_nil]
    exact h.below
  · dsimp only
    omega
  · dsimp only
    rw [length_nil]
    omega

theorem Names.room_of {s' : GsXsort} (h : Room s) (hmany : 128 < s.ids.length) (hnames : Names s' [])
    (hids : s'.ids.length = (s.ids.length + 127) / 128) (hnext : s'.nextid = s.nextid + (s.ids.length + 127) / 128) :
    Room s' := by
  have hroom := h.room
  have hfew := h.few
  refine ⟨hnames.nodup, hnames.below, ?_, ?_⟩
  · rw [hids, hnext]
    omega
  · rw [hids]
    omega

/-- The runs a sorter has, and what they hold. -/
structure Runs (s : GsXsort) (ls : List (List Pair)) : Prop where
  files : FilesHold s.files s.ids ls
  room : Room s

/-- **A pass** leaves fewer runs that hold the same, of each key in the order it stood. -/
theorem mergePass_at (h : Runs s ls) (hrun : Runnable ls) (hmany : 128 < s.ids.length) :
    ∃ s' ms, mergePass s = .ok s' ∧ Runs s' ms ∧ SameByKey Prod.fst ms.flatten ls.flatten ∧ Runnable ms := by
  have hnone : FilesHold s.files [] [] := List.Forall₂.nil
  obtain ⟨s₁, ms, hs₁, hnames, hfiles, hsame, hrun', hnext⟩ :=
    mergeGroups_at (s := { s with ids := [], capids := 0 }) rfl (h.room.names hmany) h.files hnone hrun
  have hids := mergeGroups_ids rfl hs₁
  dsimp only at hids hnext
  rw [length_nil, Nat.zero_add] at hids
  have hpass : mergePass s = .ok { s₁ with passes := s₁.passes + 1 } := by rw [mergePass, hs₁]
  have hroom := hnames.room_of h.room hmany hids hnext
  exact ⟨_, ms, hpass, ⟨hfiles, hroom.nodup, hroom.below, hroom.room, hroom.few⟩, hsame, hrun'⟩

/-- **Passes end** with few enough runs, that hold the same. -/
theorem mergePasses_at : ∀ {n : Nat} {s : GsXsort} {ls : List (List Pair)}, s.ids.length = n → s.ids ≠ [] → Runs s ls →
    Runnable ls → ∃ s' ms, mergePasses s = .ok s' ∧ s'.ids ≠ [] ∧ Runs s' ms ∧
      SameByKey Prod.fst ms.flatten ls.flatten ∧ Runnable ms := by
  intro n
  induction n using Nat.strong_induction_on with
  | _ n ih =>
    intro s ls hn hne h hrun
    by_cases hmany : XSORT_FAN < s.ids.length
    · obtain ⟨s₁, ms, hs₁, hruns₁, hsame₁, hrun₁⟩ := mergePass_at h hrun hmany
      have hids := mergePass_ids hs₁
      have hmany' : 128 < s.ids.length := hmany
      have hne₁ : s₁.ids ≠ [] := by
        rw [← length_pos_iff]
        omega
      obtain ⟨s', ms', hs', hne', hruns', hsame', hrun'⟩ := ih s₁.ids.length (by omega) rfl hne₁ hruns₁ hrun₁
      refine ⟨s', ms', ?_, hne', hruns', hsame'.trans hsame₁, hrun'⟩
      rw [mergePasses, dif_pos hmany]
      split
      · rename_i e he
        rw [hs₁] at he
        cases he
      · rename_i s₂ he
        rw [hs₁] at he
        cases he
        exact hs'
    · refine ⟨s, ls, ?_, hne, h, SameByKey.refl _, hrun⟩
      rw [mergePasses, dif_neg hmany]

end Xsort
end Gbasic
