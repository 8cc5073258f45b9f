import Gbasic.Utf8
import Mathlib.Data.List.Range
/-!
# StringIndex — a string's positions, remembered

A string's header remembers how many code points it has, where the last lookup stopped, and, once lookups go back, an
offset every so many code points.  Copies share the header, so each lookup finds what the others left.  `after` is where
decoding from the start comes to; a header whose memory agrees with it (`Right`) answers as walking does and goes on
agreeing, so a heap of such strings answers as one that remembers nothing (`positions`).
-/
namespace Gbasic
namespace Strings

open Utf8 (Bytes decodeFirst codepoints codepoints_nil)

def STRING_INDEX_STRIDE : Nat := 64
def STRING_INDEX_MIN_CP : Nat := 512

/-! ## Headers -/

structure StringHeader where
  refs : Nat
  data : Bytes
  cpCount : Option Nat
  cursorCp : Nat
  cursorByte : Nat
  samples : Option (List Nat)

variable {h : StringHeader}

def stringNew (bytes : Bytes) : StringHeader := ⟨1, bytes, none, 0, 0, none⟩

theorem decodeFirst_drop_pos {data : Bytes} {pos : Nat} (h : pos < data.length) : 0 < (decodeFirst (data.drop pos)).2 :=
  Utf8.decodeFirst_pos (fun hnil => absurd (List.drop_eq_nil_iff.1 hnil) (not_le.2 h))

/-- `string_codepoint_count`, from a position and a count on. -/
def codepointCountFrom (data : Bytes) (pos count : Nat) : Nat :=
  if _h : pos < data.length then codepointCountFrom data (pos + (decodeFirst (data.drop pos)).2) (count + 1) else count
termination_by data.length - pos
decreasing_by
  have := decodeFirst_drop_pos _h
  omega

def stringCodepointCount (data : Bytes) : Nat := codepointCountFrom data 0 0

def StringHeader.count (h : StringHeader) : Nat × StringHeader :=
  match h.cpCount with
  | some n => (n, h)
  | none => (stringCodepointCount h.data, { h with cpCount := some (stringCodepointCount h.data) })

/-- The walk of `string_build_index`: an offset more each time so many code points have gone by. -/
def sampled (data : Bytes) (count slots pos seen : Nat) (samples : List Nat) : List Nat :=
  if pos < data.length ∧ seen < count then
    sampled data count slots (pos + (decodeFirst (data.drop pos)).2) (seen + 1)
      (if (seen + 1) % STRING_INDEX_STRIDE = 0 ∧ samples.length < slots then
        samples ++ [pos + (decodeFirst (data.drop pos)).2]
      else samples)
  else samples ++ List.replicate (slots - samples.length) data.length
termination_by count - seen

def StringHeader.buildIndex (h : StringHeader) (alloc : Bool) : StringHeader :=
  let (count, h) := h.count
  if alloc then { h with samples := some (sampled h.data count (count / STRING_INDEX_STRIDE + 1) 0 0 [0]) } else h

def walk (data : Bytes) (cpIndex pos seen : Nat) : Nat × Nat :=
  if pos < data.length ∧ seen < cpIndex then walk data cpIndex (pos + (decodeFirst (data.drop pos)).2) (seen + 1)
  else (pos, seen)
termination_by cpIndex - seen

def StringHeader.sample (h : StringHeader) (cpIndex : Nat) : Nat × Nat :=
  match h.samples with
  | some l => (l.getD (cpIndex / STRING_INDEX_STRIDE) 0, cpIndex / STRING_INDEX_STRIDE * STRING_INDEX_STRIDE)
  | none => (0, 0)

/-- Where a lookup starts from: the cursor, if it is nearer than the sample. -/
def StringHeader.start (h : StringHeader) (cpIndex : Nat) : Nat × Nat :=
  if h.cursorCp ≤ cpIndex ∧ (h.sample cpIndex).2 ≤ h.cursorCp then (h.cursorByte, h.cursorCp) else h.sample cpIndex

/-- The end of `string_cp_offset`, for a code point inside a string that is not all single bytes. -/
def StringHeader.seek (h : StringHeader) (cpIndex : Nat) : Nat × StringHeader :=
  let (pos, seen) := walk h.data cpIndex (h.start cpIndex).1 (h.start cpIndex).2
  (pos, { h with cursorCp := seen, cursorByte := pos })

def StringHeader.offset (h : StringHeader) (cpIndex : Nat) (alloc : Bool) : Nat × StringHeader :=
  let (count, h) := h.count
  if count ≤ cpIndex then (h.data.length, h)
  else if count = h.data.length then (cpIndex, h)
  else if h.samples = none ∧ cpIndex < h.cursorCp ∧ STRING_INDEX_MIN_CP ≤ count then (h.buildIndex alloc).seek cpIndex
  else h.seek cpIndex

def StringHeader.indexAtByte (h : StringHeader) (off : Nat) : Nat × StringHeader :=
  let (count, h) := h.count
  if count = h.data.length then (off, h) else (stringCodepointCount (h.data.take off), h)

/-! ## Walking -/

/-- The offset reached by decoding so many code points from the start. -/
def after : Nat → Bytes → Nat
  | 0, _ => 0
  | k + 1, s => (decodeFirst s).2 + after k (s.drop (decodeFirst s).2)

theorem after_le : ∀ (k : Nat) (s : Bytes), after k s ≤ s.length
  | 0, s => Nat.zero_le _
  | k + 1, s => by
    have h := after_le k (s.drop (decodeFirst s).2)
    have hle := Utf8.decodeFirst_le s
    rw [List.length_drop] at h
    rw [after]
    omega

theorem after_succ : ∀ (k : Nat) (s : Bytes), after (k + 1) s = after k s + (decodeFirst (s.drop (after k s))).2
  | 0, s => by
    rw [after, after, after, List.drop_zero, Nat.zero_add]
    rfl
  | k + 1, s => by
    rw [after, after_succ k, after, List.drop_drop, Nat.add_assoc]

theorem codepoints_cons {s : Bytes} (h : s ≠ []) :
    (codepoints s).length = (codepoints (s.drop (decodeFirst s).2)).length + 1 := by
  rcases s with _ | ⟨b, l⟩
  · exact absurd rfl h
  · rw [codepoints, List.length_cons]

theorem codepoints_after : ∀ (k : Nat) (s : Bytes),
    (codepoints (s.drop (after k s))).length = (codepoints s).length - k
  | 0, s => rfl
  | k + 1, s => by
    rcases eq_or_ne s [] with rfl | hs
    · rw [List.drop_nil, codepoints_nil]
      exact (Nat.zero_sub _).symm
    · rw [after, ← List.drop_drop, codepoints_after k, codepoints_cons hs, Nat.add_sub_add_right]

theorem after_lt (k : Nat) (s : Bytes) : after k s < s.length ↔ k < (codepoints s).length := by
  have h := codepoints_after k s
  constructor
  · intro hlt
    have hne : s.drop (after k s) ≠ [] := fun hnil => absurd (List.drop_eq_nil_iff.1 hnil) (not_le.2 hlt)
    have := codepoints_cons hne
    omega
  · intro hk
    by_contra hge
    rw [List.drop_eq_nil_iff.2 (not_lt.1 hge), codepoints_nil] at h
    have : (([] : List Nat)).length = 0 := rfl
    omega

theorem codepoints_length_le (s : Bytes) : (codepoints s).length ≤ s.length := by
  rcases eq_or_ne s [] with rfl | hs
  · rw [codepoints_nil]
    exact le_rfl
  · have hpos := Utf8.decodeFirst_pos hs
    have hlen := List.length_pos_iff.2 hs
    have ih := codepoints_length_le (s.drop (decodeFirst s).2)
    rw [List.length_drop] at ih
    rw [codepoints_cons hs]
    omega
termination_by s.length
decreasing_by
  rw [List.length_drop]
  omega

/-! ## What the walks find -/

theorem codepointCountFrom_after (data : Bytes) (k : Nat) (hk : k ≤ (codepoints data).length) :
    codepointCountFrom data (after k data) k = (codepoints data).length := by
  rw [codepointCountFrom]
  split_ifs with h
  · rw [← after_succ]
    exact codepointCountFrom_after data (k + 1) ((after_lt k data).1 h)
  · rw [after_lt] at h
    omega
termination_by (codepoints data).length - k
decreasing_by
  have := (after_lt k data).1 h
  omega

/-- **The count is the number of code points.** -/
theorem stringCodepointCount_eq (data : Bytes) : stringCodepointCount data = (codepoints data).length :=
  codepointCountFrom_after data 0 (Nat.zero_le _)

/-- **A walk comes to the code point it is for**, from any before it. -/
theorem walk_after (data : Bytes) {target k : Nat} (hk : k ≤ target) (ht : target < (codepoints data).length) :
    walk data target (after k data) k = (after target data, target) := by
  rw [walk]
  split_ifs with h
  · rw [← after_succ]
    exact walk_after data h.2 ht
  · have hlt := (after_lt k data).2 (by omega)
    obtain rfl : k = target := by omega
    rfl
termination_by target - k

def samplesBy (data : Bytes) (k : Nat) : List Nat :=
  (List.range (k / STRING_INDEX_STRIDE + 1)).map (fun j => after (STRING_INDEX_STRIDE * j) data)

theorem samplesBy_length (data : Bytes) (k : Nat) : (samplesBy data k).length = k / STRING_INDEX_STRIDE + 1 := by
  rw [samplesBy, List.length_map, List.length_range]

theorem samplesBy_succ (data : Bytes) (k n : Nat) (hk : k < n) :
    (if (k + 1) % STRING_INDEX_STRIDE = 0 ∧ (samplesBy data k).length < n / STRING_INDEX_STRIDE + 1 then
      samplesBy data k ++ [after (k + 1) data] else samplesBy data k) = samplesBy data (k + 1) := by
  have hstride : STRING_INDEX_STRIDE = 64 := rfl
  rw [samplesBy_length, hstride]
  by_cases h : (k + 1) % 64 = 0
  · have hdiv : (k + 1) / 64 = k / 64 + 1 := by omega
    have hat : 64 * (k / 64 + 1) = k + 1 := by omega
    rw [if_pos ⟨h, by omega⟩, samplesBy, samplesBy, hstride, hdiv, List.range_succ (n := k / 64 + 1), List.map_append,
      List.map_singleton, hat]
  · have hdiv : (k + 1) / 64 = k / 64 := by omega
    rw [if_neg (fun hc => h hc.1), samplesBy, samplesBy, hstride, hdiv]

/-- **The index holds an offset every so many code points.** -/
theorem sampled_eq (data : Bytes) (k : Nat) (hk : k ≤ (codepoints data).length) :
    sampled data (codepoints data).length ((codepoints data).length / STRING_INDEX_STRIDE + 1) (after k data) k
      (samplesBy data k) = samplesBy data (codepoints data).length := by
  rw [sampled]
  by_cases h : after k data < data.length ∧ k < (codepoints data).length
  · rw [if_pos h, ← after_succ, samplesBy_succ data k _ h.2]
    exact sampled_eq data (k + 1) h.2
  · obtain rfl : k = (codepoints data).length := by
      rw [after_lt] at h
      omega
    rw [if_neg h, samplesBy_length, Nat.sub_self, List.replicate_zero, List.append_nil]
termination_by (codepoints data).length - k

theorem after_single {k : Nat} {s : Bytes} (h : (codepoints s).length = s.length) (hk : k ≤ s.length) :
    after k s = k := by
  have hrest := codepoints_after k s
  have hle := codepoints_length_le (s.drop (after k s))
  have hlen := after_le k s
  have hge : k ≤ after k s := by
    clear hrest hle hlen
    induction k with
    | zero => exact Nat.zero_le _
    | succ k ih =>
      have hlt := (after_lt k s).2 (by omega)
      have := decodeFirst_drop_pos hlt
      have := ih (by omega)
      rw [after_succ]
      omega
  rw [List.length_drop] at hle
  omega

/-! ## Positions in a prefix -/

theorem continued_append {v : Nat} (m : Bytes) : ∀ {k u : Nat} {l : Bytes}, Utf8.continued k u l = some v →
    Utf8.continued k u (l ++ m) = some v
  | 0, _, _, h => h
  | k + 1, u, [], h => by cases h
  | k + 1, u, b :: l, h => by
    rw [Utf8.continued] at h
    rw [List.cons_append, Utf8.continued]
    split_ifs at h with hb
    rw [if_pos hb]
    exact continued_append m h

theorem decodeFirst_append {s : Bytes} (m : Bytes) (h : (decodeFirst s).2 ≠ 1) (hs : s ≠ []) :
    (decodeFirst (s ++ m)).2 = (decodeFirst s).2 := by
  rcases s with _ | ⟨b, l⟩
  · exact absurd rfl hs
  rw [decodeFirst] at h
  rw [List.cons_append, decodeFirst, decodeFirst]
  split_ifs at h ⊢ with hb
  · rfl
  rcases hl : Utf8.lead b with _ | ⟨need, v⟩
  · rfl
  rw [hl] at h
  dsimp only at h ⊢
  split_ifs at h with hn
  · exact absurd rfl h
  rw [if_neg hn, if_neg (by rw [List.length_append]; omega)]
  rcases hc : Utf8.continued need v l with _ | cp
  · rw [hc] at h
    exact absurd rfl h
  · rw [continued_append m hc]

theorem codepoints_take : ∀ (off : Nat) {s : Bytes}, (codepoints s).length = s.length → off ≤ s.length →
    (codepoints (s.take off)).length = off
  | 0, s, _, _ => by
    rw [List.take_zero, codepoints_nil]
    rfl
  | off + 1, s, h, hoff => by
    have hs : s ≠ [] := fun hnil => by
      rw [hnil] at hoff
      cases hoff
    have htake : s.take (off + 1) ≠ [] := by
      rw [Ne, List.take_eq_nil_iff]
      exact not_or.2 ⟨Nat.succ_ne_zero off, hs⟩
    have hone : (decodeFirst s).2 = 1 := by
      have := after_single h (k := 1) (by omega)
      rw [after, after] at this
      exact this
    have hfirst : (decodeFirst (s.take (off + 1))).2 = 1 := by
      by_contra hne
      have := decodeFirst_append (s.drop (off + 1)) hne htake
      rw [List.take_append_drop] at this
      exact hne (this.symm.trans hone)
    have hrest : (codepoints (s.drop 1)).length = (s.drop 1).length := by
      have := codepoints_cons hs
      rw [hone] at this
      rw [List.length_drop]
      omega
    have hdrop : (s.take (off + 1)).drop 1 = (s.drop 1).take off := by rw [List.drop_take, Nat.add_sub_cancel]
    rw [codepoints_cons htake, hfirst, hdrop, codepoints_take off hrest (by rw [List.length_drop]; omega)]

/-! ## A header that is right -/

/-- What a header remembers is so. -/
structure StringHeader.Right (h : StringHeader) : Prop where
  count : ∀ n, h.cpCount = some n → n = (codepoints h.data).length
  inside : h.cursorCp ≤ (codepoints h.data).length
  cursor : h.cursorByte = after h.cursorCp h.data
  samples : ∀ l, h.samples = some l → l = samplesBy h.data (codepoints h.data).length

theorem stringNew_right (bytes : Bytes) : (stringNew bytes).Right where
  count _ h := by cases h
  inside := Nat.zero_le _
  cursor := rfl
  samples _ h := by cases h

/-- A lookup leaves a header right, of the same string and as many references. -/
structure Keeps (h h' : StringHeader) : Prop where
  right : h'.Right
  data : h'.data = h.data
  refs : h'.refs = h.refs

theorem Keeps.trans {h' h'' : StringHeader} (a : Keeps h h') (b : Keeps h' h'') : Keeps h h'' :=
  ⟨b.right, b.data.trans a.data, b.refs.trans a.refs⟩

theorem count_spec (hr : h.Right) :
    h.count.1 = (codepoints h.data).length ∧ Keeps h h.count.2 ∧ h.count.2.cpCount = some
    (codepoints h.data).length := by
  unfold StringHeader.count
  rcases hc : h.cpCount with _ | n
  · have heq := stringCodepointCount_eq h.data
    exact ⟨heq, ⟨⟨fun n hn => (Option.some.inj hn).symm.trans heq, hr.inside, hr.cursor, hr.samples⟩, rfl, rfl⟩,
      congrArg some heq⟩
  · have hn := hr.count n hc
    exact ⟨hn, ⟨hr, rfl, rfl⟩, hc.trans (congrArg some hn)⟩

theorem buildIndex_keeps (hr : h.Right) (alloc : Bool) : Keeps h (h.buildIndex alloc) := by
  obtain ⟨hcount, hk, hcp⟩ := count_spec hr
  unfold StringHeader.buildIndex
  rcases hpair : h.count with ⟨n, g⟩
  rw [hpair] at hcount hk hcp
  dsimp only at hcount hk hcp ⊢
  cases alloc with
  | false => exact hk
  | true =>
    have hs := sampled_eq g.data 0 (Nat.zero_le _)
    have hlen : n = (codepoints g.data).length := by rw [hcount, hk.data]
    refine ⟨⟨hk.right.count, hk.right.inside, hk.right.cursor, fun l hl => ?_⟩, hk.data, hk.refs⟩
    rw [← Option.some.inj hl, hlen]
    exact hs

theorem sample_after (hr : h.Right) {i : Nat} (hi : i < (codepoints h.data).length) :
    (h.sample i).1 = after (h.sample i).2 h.data ∧ (h.sample i).2 ≤ i := by
  unfold StringHeader.sample
  rcases hs : h.samples with _ | l
  · exact ⟨rfl, Nat.zero_le _⟩
  · have hl := hr.samples l hs
    have hstride : STRING_INDEX_STRIDE = 64 := rfl
    have hj : i / STRING_INDEX_STRIDE < (codepoints h.data).length / STRING_INDEX_STRIDE + 1 := by
      rw [hstride]
      omega
    refine ⟨?_, Nat.div_mul_le_self _ _⟩
    dsimp only
    rw [hl, samplesBy, List.getD_eq_getElem?_getD, List.getElem?_map, List.getElem?_range hj, Nat.mul_comm]
    rfl

theorem start_after (hr : h.Right) {i : Nat} (hi : i < (codepoints h.data).length) :
    (h.start i).1 = after (h.start i).2 h.data ∧ (h.start i).2 ≤ i := by
  unfold StringHeader.start
  split_ifs with hc
  · exact ⟨hr.cursor, hc.1⟩
  · exact sample_after hr hi

theorem seek_spec (hr : h.Right) {i : Nat} (hi : i < (codepoints h.data).length) :
    (h.seek i).1 = after i h.data ∧ Keeps h (h.seek i).2 := by
  obtain ⟨hpos, hle⟩ := start_after hr hi
  unfold StringHeader.seek
  rw [hpos, walk_after h.data hle hi]
  exact ⟨rfl, ⟨hr.count, hi.le, rfl, hr.samples⟩, rfl, rfl⟩

/-- **A lookup answers as walking does**, and leaves the header right. -/
theorem offset_spec (hr : h.Right) (i : Nat) (alloc : Bool) :
    (h.offset i alloc).1 = after i h.data ∧ Keeps h (h.offset i alloc).2 := by
  obtain ⟨hcount, hk, -⟩ := count_spec hr
  unfold StringHeader.offset
  rcases hpair : h.count with ⟨n, g⟩
  rw [hpair] at hcount hk
  dsimp only at hcount hk ⊢
  have hdata := hk.data
  rw [← hdata] at hcount ⊢
  split_ifs with hpast hsingle hback
  · have hge : ¬ after i g.data < g.data.length := fun hlt => by
      have := (after_lt i g.data).1 hlt
      omega
    exact ⟨le_antisymm (not_lt.1 hge) (after_le i g.data), hk⟩
  · exact ⟨(after_single (hcount.symm.trans hsingle) (by omega)).symm, hk⟩
  · have hb := buildIndex_keeps hk.right alloc
    have hi : i < (codepoints (g.buildIndex alloc).data).length := by
      rw [hb.data]
      omega
    obtain ⟨hans, hkeep⟩ := seek_spec hb.right hi
    exact ⟨by rw [hans, hb.data], (hk.trans hb).trans hkeep⟩
  · obtain ⟨hans, hkeep⟩ := seek_spec hk.right (i := i) (by omega)
    exact ⟨hans, hk.trans hkeep⟩

theorem indexAtByte_spec (hr : h.Right) {off : Nat} (hoff : off ≤ h.data.length) :
    (h.indexAtByte off).1 = (codepoints (h.data.take off)).length ∧ Keeps h (h.indexAtByte off).2 := by
  obtain ⟨hcount, hk, -⟩ := count_spec hr
  unfold StringHeader.indexAtByte
  rcases hpair : h.count with ⟨n, g⟩
  rw [hpair] at hcount hk
  dsimp only at hcount hk ⊢
  rw [← hk.data] at hcount hoff ⊢
  split_ifs with hsingle
  · exact ⟨(codepoints_take off (hcount.symm.trans hsingle) hoff).symm, hk⟩
  · exact ⟨stringCodepointCount_eq _, hk⟩

/-! ## A heap of strings -/

/-- What a program does to its strings: a lookup says whether there is memory for an index. -/
inductive Op where
  | new (bytes : Bytes)
  | retain (a : Nat)
  | free (a : Nat)
  | count (a : Nat)
  | offset (a cpIndex : Nat) (alloc : Bool)
  | indexAtByte (a off : Nat)

abbrev Heap := List (Option StringHeader)

def onLive {α : Type} (heap : List (Option α)) (a : Nat) (f : α → Nat × Option α) :
    List (Option α) × Option Nat :=
  match heap[a]?.join with
  | none => (heap, none)
  | some h => (heap.set a (f h).2, some (f h).1)

/-- A byte offset is inside the string, or at its end. -/
def step (heap : Heap) : Op → Heap × Option Nat
  | .new bytes => (heap ++ [some (stringNew bytes)], some heap.length)
  | .retain a => onLive heap a (fun h => (a, some { h with refs := h.refs + 1 }))
  | .free a => onLive heap a (fun h => (a, if h.refs = 1 then none else some { h with refs := h.refs - 1 }))
  | .count a => onLive heap a (fun h => (h.count.1, some h.count.2))
  | .offset a cpIndex alloc => onLive heap a (fun h => ((h.offset cpIndex alloc).1, some (h.offset cpIndex alloc).2))
  | .indexAtByte a off =>
    onLive heap a (fun h =>
      if off ≤ h.data.length then ((h.indexAtByte off).1, some (h.indexAtByte off).2) else (0, some h))

/-- A string that remembers nothing: its references and its bytes. -/
structure Plain where
  refs : Nat
  data : Bytes

/-- The same, answered by walking. -/
def plainStep (heap : List (Option Plain)) : Op → List (Option Plain) × Option Nat
  | .new bytes => (heap ++ [some ⟨1, bytes⟩], some heap.length)
  | .retain a => onLive heap a (fun h => (a, some ⟨h.refs + 1, h.data⟩))
  | .free a => onLive heap a (fun h => (a, if h.refs = 1 then none else some ⟨h.refs - 1, h.data⟩))
  | .count a => onLive heap a (fun h => ((codepoints h.data).length, some h))
  | .offset a cpIndex _ => onLive heap a (fun h => (after cpIndex h.data, some h))
  | .indexAtByte a off =>
    onLive heap a (fun h => (if off ≤ h.data.length then (codepoints (h.data.take off)).length else 0, some h))

/-- Every answer of a run, in order. -/
def run {α : Type} (step : List (Option α) → Op → List (Option α) × Option Nat) :
    List (Option α) → List Op → List (Option α) × List (Option Nat)
  | heap, [] => (heap, [])
  | heap, op :: ops =>
    let r := run step (step heap op).1 ops
    (r.1, (step heap op).2 :: r.2)

/-- What a header is without its memory. -/
def StringHeader.plain (h : StringHeader) : Plain := ⟨h.refs, h.data⟩

def forget (heap : Heap) : List (Option Plain) := heap.map (Option.map StringHeader.plain)

def AllRight (heap : Heap) : Prop := ∀ h, some h ∈ heap → h.Right

theorem Keeps.plain {h' : StringHeader} (k : Keeps h h') : h'.plain = h.plain := by
  rw [StringHeader.plain, StringHeader.plain, k.refs, k.data]

theorem onLive_forget {heap : Heap} (hr : AllRight heap) (a : Nat) {f : StringHeader → Nat × Option StringHeader}
    {g : Plain → Nat × Option Plain}
    (hfg : ∀ h, h.Right → (f h).1 = (g h.plain).1 ∧ (f h).2.map StringHeader.plain = (g h.plain).2 ∧
      ∀ h', (f h).2 = some h' → h'.Right) :
    (onLive heap a f).2 = (onLive (forget heap) a g).2 ∧ forget (onLive heap a f).1 = (onLive (forget heap) a g).1 ∧
      AllRight (onLive heap a f).1 := by
  have hget : (forget heap)[a]?.join = heap[a]?.join.map StringHeader.plain := by
    rw [forget, List.getElem?_map]
    rcases heap[a]? with _ | x <;> rfl
  unfold onLive
  rw [hget]
  rcases hx : heap[a]?.join with _ | h
  · exact ⟨rfl, rfl, hr⟩
  · have hmem : some h ∈ heap := List.mem_of_getElem? (Option.join_eq_some_iff.1 hx)
    obtain ⟨hans, hkept, hright⟩ := hfg h (hr h hmem)
    refine ⟨congrArg some hans, ?_, fun h' hh' => ?_⟩
    · dsimp only [Option.map_some]
      rw [forget, List.map_set, hkept]
      rfl
    · rcases List.mem_or_eq_of_mem_set hh' with hold | hnew
      · exact hr h' hold
      · exact hright h' hnew.symm

/-- A step answers alike with the memory and without it, and leaves every header right. -/
theorem step_forget {heap : Heap} (hr : AllRight heap) (op : Op) :
    (step heap op).2 = (plainStep (forget heap) op).2 ∧ forget (step heap op).1 = (plainStep (forget heap) op).1 ∧
      AllRight (step heap op).1 := by
  have hsome : ∀ {h h' : StringHeader}, h.Right → Keeps h h' →
      (some h').map StringHeader.plain = some h.plain ∧ ∀ g, some h' = some g → g.Right := by
    intro h h' _ hk
    exact ⟨congrArg some hk.plain, fun g hg => Option.some.inj hg ▸ hk.right⟩
  cases op with
  | new bytes =>
    refine ⟨?_, ?_, fun h hh => ?_⟩
    · rw [step, plainStep, forget, List.length_map]
    · rw [step, plainStep, forget, List.map_append]
      rfl
    · rcases List.mem_append.1 hh with hh | hh
      · exact hr h hh
      · rw [Option.some.inj (List.mem_singleton.1 hh)]
        exact stringNew_right bytes
  | retain a =>
    refine onLive_forget hr a (fun h hh => ⟨rfl, rfl, fun g hg => ?_⟩)
    cases hg
    exact ⟨hh.count, hh.inside, hh.cursor, hh.samples⟩
  | free a =>
    refine onLive_forget hr a (fun h hh => ⟨rfl, ?_, fun g hg => ?_⟩)
    · by_cases hone : h.refs = 1
      · rw [if_pos hone, if_pos (show h.plain.refs = 1 from hone)]
        rfl
      · rw [if_neg hone, if_neg (show ¬ h.plain.refs = 1 from hone)]
        rfl
    · dsimp only at hg
      split_ifs at hg
      cases hg
      exact ⟨hh.count, hh.inside, hh.cursor, hh.samples⟩
  | count a =>
    refine onLive_forget hr a (fun h hh => ?_)
    obtain ⟨hans, hk, -⟩ := count_spec hh
    exact ⟨hans, hsome hh hk⟩
  | offset a cpIndex alloc =>
    refine onLive_forget hr a (fun h hh => ?_)
    obtain ⟨hans, hk⟩ := offset_spec hh cpIndex alloc
    exact ⟨hans, hsome hh hk⟩
  | indexAtByte a off =>
    refine onLive_forget hr a (fun h hh => ?_)
    dsimp only [StringHeader.plain]
    split_ifs with hoff
    · obtain ⟨hans, hk⟩ := indexAtByte_spec hh hoff
      exact ⟨hans, hsome hh hk⟩
    · exact ⟨rfl, hsome hh ⟨hh, rfl, rfl⟩⟩

theorem run_forget : ∀ (ops : List Op) {heap : Heap}, AllRight heap →
    (run step heap ops).2 = (run plainStep (forget heap) ops).2 ∧ AllRight (run step heap ops).1
  | [], _, hr => ⟨rfl, hr⟩
  | op :: ops, heap, hr => by
    obtain ⟨hans, hkept, hright⟩ := step_forget hr op
    obtain ⟨hrest, hall⟩ := run_forget ops hright
    refine ⟨?_, hall⟩
    rw [run, run, hans, hrest, hkept]

/-- **In every run, each lookup answers as walking from the start does**, whatever earlier lookups on the string or on
its copies left; and every cursor and every sample is at a code point with so many before it. -/
theorem positions (ops : List Op) :
    (run step [] ops).2 = (run plainStep [] ops).2 ∧ ∀ h, some h ∈ (run step [] ops).1 → h.Right :=
  run_forget ops (fun _ hh => absurd hh List.not_mem_nil)

end Strings
end Gbasic
