import Gbasic.Refusal
import Mathlib.Data.List.Range
/-!
# SqlWindow — a window over a partition's rows

A partition's rows stand in its order, each with its peers (`peersAt`).  A frame is a range of them (`Frame.bounds`): an
aggregate's running fold goes on from row to row where the frame keeps one end at the partition's, forwards from its
start or backwards from its end, and elsewhere each row's frame is folded afresh.  Either way a row's answer is what the
function comes to over the rows that its frame's words say (`win_partition_afresh`).  The values are the host's.
-/
namespace Gbasic
namespace Window

open List (range' length_range' mem_range'_1 pairwise_lt_range')

variable {V ε : Type}

/-! ## Partitions and frames -/

/-- The end of the peer group that is open at `j`, with `n` rows to go. -/
def peerEnd (brk : Nat → Bool) : (n j : Nat) → Nat
  | 0, j => j
  | n + 1, j => if brk j then j else peerEnd brk n (j + 1)

variable {b : Nat → Bool} {m n i j q : Nat}

theorem peerEnd_spec : ∀ {n j : Nat}, j ≤ peerEnd b n j ∧ peerEnd b n j ≤ j + n ∧
    (peerEnd b n j = j + n ∨ b (peerEnd b n j) = true) ∧ ∀ k, j ≤ k → k < peerEnd b n j → b k = false
  | 0, j => ⟨Nat.le_refl _, Nat.le_refl _, .inl rfl, fun k h1 h2 => absurd h2 (Nat.not_lt.2 h1)⟩
  | n + 1, j => by
    obtain ⟨h1, h2, h3, h4⟩ := peerEnd_spec (n := n) (j := j + 1)
    rw [peerEnd]
    split
    · rename_i hj
      exact ⟨Nat.le_refl _, by omega, .inr hj, fun k h1 h2 => absurd h2 (Nat.not_lt.2 h1)⟩
    · rename_i hj
      refine ⟨by omega, by omega, h3.imp (fun h => by omega) id, fun k hk hk' => ?_⟩
      rcases Nat.eq_or_lt_of_le hk with rfl | hk
      · simpa using hj
      · exact h4 k hk hk'

/-- The peer group that row `q` falls in, `plo` and `phi`, of those from row `i` on; the rows end at `m`. -/
def peersAt (brk : Nat → Bool) (m i q : Nat) : Nat × Nat :=
  if i < m ∧ peerEnd brk (m - (i + 1)) (i + 1) ≤ q then peersAt brk m (peerEnd brk (m - (i + 1)) (i + 1)) q
  else (i, peerEnd brk (m - (i + 1)) (i + 1))
termination_by m - i
decreasing_by
  have := (peerEnd_spec (b := brk) (n := m - (i + 1)) (j := i + 1)).1
  omega

theorem peersAt_spec {s : Nat} (hs : s ≤ q) (hq : q < m) (hstart : s = n ∨ b s = true) :
    (peersAt b m s q).1 ≤ q ∧ q < (peersAt b m s q).2 ∧ (peersAt b m s q).2 ≤ m ∧ s ≤ (peersAt b m s q).1 ∧
      ((peersAt b m s q).1 = n ∨ b (peersAt b m s q).1 = true) ∧
      ((peersAt b m s q).2 = m ∨ b (peersAt b m s q).2 = true) ∧
      ∀ k, (peersAt b m s q).1 < k → k < (peersAt b m s q).2 → b k = false := by
  obtain ⟨h1, h2, h3, h4⟩ := peerEnd_spec (n := m - (s + 1)) (j := s + 1)
  have hend : s + 1 + (m - (s + 1)) = m := by omega
  rw [hend] at h2 h3
  unfold peersAt
  split
  · rename_i h
    obtain ⟨g1, g2, g3, g4, g⟩ := peersAt_spec h.2 hq (.inr (h3.resolve_left (by omega)))
    exact ⟨g1, g2, g3, by omega, g⟩
  · rename_i h
    exact ⟨hs, by dsimp only; omega, h2, Nat.le_refl _, hstart, h3, h4⟩
termination_by m - s

/-- A partition's rows, `ps` to `pe` in the window's order, and where a row is not the one before it's peer. -/
structure Partition where
  ps : Nat
  pe : Nat
  brk : Nat → Bool

def Partition.plo (t : Partition) (i : Nat) : Nat := (peersAt t.brk t.pe t.ps i).1

def Partition.phi (t : Partition) (i : Nat) : Nat := (peersAt t.brk t.pe t.ps i).2

inductive Bound where
  | unboundedPreceding | preceding | current | following | unboundedFollowing
  deriving DecidableEq

def Bound.rank : Bound → Nat
  | .unboundedPreceding => 0
  | .preceding => 1
  | .current => 2
  | .following => 3
  | .unboundedFollowing => 4

/-- ROWS or RANGE, the bounds, and the counts of `n` PRECEDING and `n` FOLLOWING. -/
structure Frame where
  rows : Bool
  start : Bound
  stop : Bound
  nstart : Nat
  nstop : Nat

structure Frame.Accepted (f : Frame) : Prop where
  start : f.start ≠ .unboundedFollowing
  stop : f.stop ≠ .unboundedPreceding
  order : f.start.rank ≤ f.stop.rank
  range : f.rows = false → (f.start = .unboundedPreceding ∨ f.start = .current) ∧
    (f.stop = .current ∨ f.stop = .unboundedFollowing)

/-- RANGE UNBOUNDED PRECEDING .. CURRENT ROW, where none is written. -/
def Frame.unwritten : Frame := ⟨false, .unboundedPreceding, .current, 0, 0⟩

theorem Frame.unwritten_accepted : unwritten.Accepted := ⟨by decide, by decide, by decide, by decide⟩

def Frame.bounds (f : Frame) (t : Partition) (i : Nat) : Nat × Nat :=
  let fs := match f.start with
    | .unboundedPreceding => t.ps
    | .preceding => if f.nstart ≤ i - t.ps then i - f.nstart else t.ps
    | .current => if f.rows then i else t.plo i
    | _ => if f.nstart < t.pe - i then i + f.nstart else t.pe
  let fe := match f.stop with
    | .preceding => if f.nstop ≤ i - t.ps then i - f.nstop + 1 else t.ps
    | .current => if f.rows then i + 1 else t.phi i
    | .following => if f.nstop < t.pe - i then i + f.nstop + 1 else t.pe
    | _ => t.pe
  (fs, if fe < fs then fs else fe)

/-- **What a frame's words say**: whether row `j` is in row `i`'s; a row of RANGE has its peers in with it. -/
def Frame.has (f : Frame) (t : Partition) (i j : Nat) : Bool :=
  (match f.start with
    | .unboundedPreceding => true
    | .preceding => decide (i ≤ j + f.nstart)
    | .current => decide (if f.rows then i ≤ j else ∀ k < i + 1, j < k → t.brk k = false)
    | .following => decide (i + f.nstart ≤ j)
    | .unboundedFollowing => false) &&
  match f.stop with
    | .unboundedPreceding => false
    | .preceding => decide (j + f.nstop ≤ i)
    | .current => decide (if f.rows then j ≤ i else ∀ k < j + 1, i < k → t.brk k = false)
    | .following => decide (j ≤ i + f.nstop)
    | .unboundedFollowing => true

def Partition.rows (t : Partition) : List Nat := range' t.ps (t.pe - t.ps)

def Frame.rowsOf (f : Frame) (t : Partition) (i : Nat) : List Nat := t.rows.filter (f.has t i)

def Partition.Row (t : Partition) (i : Nat) : Prop := t.ps ≤ i ∧ i < t.pe

variable {f : Frame} {t : Partition}

namespace Partition

theorem mem_rows : i ∈ t.rows ↔ t.Row i := by
  rw [rows, mem_range'_1, Row]
  omega

theorem peers (hi : t.Row i) : (t.ps ≤ t.plo i ∧ t.plo i ≤ i) ∧ i < t.phi i ∧ t.phi i ≤ t.pe := by
  obtain ⟨h1, h2, h3, h4, -⟩ := peersAt_spec (b := t.brk) (n := t.ps) hi.1 hi.2 (.inl rfl)
  exact ⟨⟨h4, h1⟩, h2, h3⟩

theorem plo_le (hi : t.Row i) (hj : t.ps ≤ j) : t.plo i ≤ j ↔ ∀ k < i + 1, j < k → t.brk k = false := by
  obtain ⟨h1, h2, -, -, h5, -, h7⟩ := peersAt_spec (b := t.brk) (n := t.ps) hi.1 hi.2 (.inl rfl)
  constructor
  · intro h k hk hjk
    exact h7 k (Nat.lt_of_le_of_lt h hjk) (Nat.lt_of_lt_of_le hk h2)
  · intro h
    refine Nat.not_lt.1 (fun hlt => ?_)
    rcases h5 with h5 | h5
    · exact absurd hlt (Nat.not_lt.2 (h5.trans_le hj))
    · exact absurd (h5.symm.trans (h _ (Nat.lt_succ_of_le h1) hlt)) Bool.noConfusion

theorem lt_phi (hi : t.Row i) (hj : j < t.pe) : j < t.phi i ↔ ∀ k < j + 1, i < k → t.brk k = false := by
  obtain ⟨h1, h2, -, -, -, h6, h7⟩ := peersAt_spec (b := t.brk) (n := t.ps) hi.1 hi.2 (.inl rfl)
  constructor
  · intro h k hk hik
    exact h7 k (Nat.lt_of_le_of_lt h1 hik) (Nat.lt_of_le_of_lt (Nat.le_of_lt_succ hk) h)
  · intro h
    refine Nat.not_le.1 (fun hle => ?_)
    rcases h6 with h6 | h6
    · exact absurd hj (Nat.not_lt.2 (h6.symm.trans_le hle))
    · exact absurd (h6.symm.trans (h _ (Nat.lt_succ_of_le hle) h2)) Bool.noConfusion

theorem peers_mono (hi : t.Row i) (hj : t.Row j) (hij : i ≤ j) : t.plo i ≤ t.plo j ∧ t.phi i ≤ t.phi j := by
  constructor
  · exact (plo_le hi (peers hj).1.1).2 (fun k hk h => (plo_le hj (peers hj).1.1).1 (Nat.le_refl _) k (by omega) h)
  · refine Nat.not_lt.1 (fun h => ?_)
    have hpe := Nat.lt_of_lt_of_le h (peers hi).2.2
    exact Nat.lt_irrefl _ ((lt_phi hj hpe).2 (fun k hk hjk => (lt_phi hi hpe).1 h k hk (by omega)))

end Partition

namespace Frame

open Window.Partition (peers peers_mono plo_le lt_phi)

theorem has_iff (hf : f.Accepted) (hi : t.Row i) (hj : t.Row j) :
    f.has t i j = true ↔ (f.bounds t i).1 ≤ j ∧ j < (f.bounds t i).2 := by
  have hp := peers hi
  have hlo := plo_le hi hj.1
  have hhi := lt_phi hi hj.2
  have h1 := hf.start
  have h2 := hf.stop
  obtain ⟨hs, he⟩ := hi
  obtain ⟨hs', he'⟩ := hj
  simp only [has, bounds, ← hlo, ← hhi]
  cases hstart : f.start <;> cases hstop : f.stop <;> cases f.rows <;>
    simp [hstart, hstop] at h1 h2 ⊢ <;> (try split_ifs) <;> omega

theorem bounds_le (hi : t.Row i) :
    t.ps ≤ (f.bounds t i).1 ∧ (f.bounds t i).1 ≤ (f.bounds t i).2 ∧ (f.bounds t i).2 ≤ t.pe := by
  have hp := peers hi
  obtain ⟨hs, he⟩ := hi
  rw [bounds]
  cases f.start <;> cases f.stop <;> cases f.rows <;> simp <;> (try split_ifs) <;> omega

end Frame

theorem filter_range' {p : Nat → Bool} {a e : Nat} (ha : m ≤ a) (hae : a ≤ e) (he : e ≤ m + n)
    (hp : ∀ j, m ≤ j → j < m + n → (p j = true ↔ a ≤ j ∧ j < e)) : (range' m n).filter p = range' a (e - a) := by
  have hleft : ((range' m n).filter p).Pairwise (· < ·) := (pairwise_lt_range' 1 Nat.one_pos).filter p
  have hright : (range' a (e - a)).Pairwise (· < ·) := pairwise_lt_range' 1 Nat.one_pos
  refine List.Perm.eq_of_pairwise (fun i j _ _ h h' => absurd h (Nat.lt_asymm h')) hleft hright ?_
  refine (List.perm_ext_iff_of_nodup (hleft.imp Nat.ne_of_lt) (hright.imp Nat.ne_of_lt)).2 (fun j => ?_)
  rw [List.mem_filter, mem_range'_1, mem_range'_1]
  constructor
  · rintro ⟨⟨hj, hj'⟩, hpj⟩
    have := (hp j hj hj').1 hpj
    omega
  · intro hj
    exact ⟨by omega, (hp j (by omega) (by omega)).2 (by omega)⟩

theorem Frame.rowsOf_eq (hf : f.Accepted) (hi : t.Row i) :
    f.rowsOf t i = range' (f.bounds t i).1 ((f.bounds t i).2 - (f.bounds t i).1) := by
  obtain ⟨h1, h2, h3⟩ := bounds_le (f := f) hi
  obtain ⟨hs, he⟩ := hi
  exact filter_range' h1 h2 (by omega) (fun j hj hj' => has_iff hf ⟨hs, he⟩ ⟨hj, by omega⟩)

/-! ## The functions -/

inductive Agg where
  | countStar | count | sum | avg | min | max
  deriving DecidableEq

/-- What the values do: `whole` is `hv_whole` of one or more, and `arithmetic`, `add` and `order` check their kinds. -/
structure Host (V ε : Type) where
  isNull : V → Bool
  unknown : V
  count : Nat → Except ε V
  whole : V → Except ε {k : Nat // 0 < k}
  arithmetic : V → Except ε Unit
  add : V → V → Except ε V
  div : V → V → Except ε V
  order : V → V → Except ε Ordering

structure Acc (V : Type) where
  count : Nat
  v : Option V

variable (H : Host V ε)

/-- `fold_value`, not of DISTINCT, which a window's aggregate does not take. -/
def foldValue (op : Agg) (acc : Acc V) (v : V) : Except ε (Acc V) :=
  if H.isNull v then .ok acc
  else if op = .count then .ok ⟨acc.count + 1, acc.v⟩
  else match acc.v with
    | none => do
      if op = .sum ∨ op = .avg then H.arithmetic v
      .ok ⟨acc.count + 1, some v⟩
    | some a =>
      if op = .sum ∨ op = .avg then do
        let sum ← H.add a v
        .ok ⟨acc.count + 1, some sum⟩
      else do
        let cmp ← H.order v a
        .ok ⟨acc.count + 1, some (if op = .min ∧ cmp = .lt ∨ op = .max ∧ cmp = .gt then v else a)⟩

def finish (op : Agg) (acc : Acc V) : Except ε V :=
  if op = .countStar ∨ op = .count then H.count acc.count
  else match acc.v with
    | none => .ok H.unknown
    | some v => if op = .avg then H.count acc.count >>= H.div v else .ok v

abbrev Args (V : Type) := Nat → Nat → V

def foldRows (op : Agg) (arg : Args V) (acc : Acc V) (rows : List Nat) : Except ε (Acc V) :=
  rows.foldlM (fun acc j => if op = .countStar then .ok ⟨acc.count + 1, acc.v⟩ else foldValue H op acc (arg j 0)) acc

/-- The functions that read a frame. -/
inductive Fn where
  | firstValue | lastValue | nthValue
  | agg (op : Agg)

/-- `acc`, and the ends of what the running fold has in it, `folded_lo` and `folded_hi`. -/
structure Run (V : Type) where
  acc : Acc V
  lo : Nat
  hi : Nat

def Frame.backward (f : Frame) : Bool := decide (f.start ≠ .unboundedPreceding ∧ f.stop = .unboundedFollowing)

def foldAt (op : Agg) (f : Frame) (t : Partition) (arg : Args V) (s : Run V) (i : Nat) : Except ε (Run V) := do
  let (fs, fe) := f.bounds t i
  if f.start = .unboundedPreceding then
    let acc ← foldRows H op arg s.acc (range' s.hi (fe - s.hi))
    .ok ⟨acc, s.lo, max s.hi fe⟩
  else if f.backward then
    let acc ← foldRows H op arg s.acc (range' fs (s.lo - fs)).reverse
    .ok ⟨acc, min s.lo fs, s.hi⟩
  else
    let acc ← foldRows H op arg ⟨0, none⟩ (range' fs (fe - fs))
    .ok ⟨acc, s.lo, s.hi⟩

def winRow (e : Fn) (f : Frame) (t : Partition) (arg : Args V) (s : Run V) (i : Nat) : Except ε (V × Run V) :=
  let (fs, fe) := f.bounds t i
  match e with
  | .firstValue => .ok (if fs < fe then arg fs 0 else H.unknown, s)
  | .lastValue => .ok (if fs < fe then arg (fe - 1) 0 else H.unknown, s)
  | .nthValue =>
    if H.isNull (arg i 1) then .ok (H.unknown, s)
    else do
      let k ← H.whole (arg i 1)
      .ok (if k ≤ fe - fs then arg (fs + k - 1) 0 else H.unknown, s)
  | .agg op => do
    let s ← foldAt H op f t arg s i
    let r ← finish H op s.acc
    .ok (r, s)

def winRows (e : Fn) (f : Frame) (t : Partition) (arg : Args V) : Run V → List Nat → Except ε (List (Nat × V))
  | _, [] => .ok []
  | s, i :: is => do
    let (r, s) ← winRow H e f t arg s i
    let rs ← winRows e f t arg s is
    .ok ((i, r) :: rs)

/-- The rows in the order that they are answered. -/
def Frame.turns (f : Frame) (t : Partition) : List Nat := if f.backward then t.rows.reverse else t.rows

/-- `win_partition`, of a function that reads a frame: each row with its answer. -/
def winPartition (e : Fn) (f : Frame) (t : Partition) (arg : Args V) : Except ε (List (Nat × V)) :=
  winRows H e f t arg (if f.backward then ⟨⟨0, none⟩, t.pe, t.pe⟩ else ⟨⟨0, none⟩, t.ps, t.ps⟩) (f.turns t)

def Frame.folded (f : Frame) (rows : List Nat) : List Nat := if f.backward then rows.reverse else rows

/-- **What a function comes to** at row `i` over its frame's rows alone. -/
def Fn.over (e : Fn) (f : Frame) (arg : Args V) (i : Nat) (rows : List Nat) : Except ε V :=
  match e with
  | .firstValue => .ok (rows.head?.elim H.unknown (arg · 0))
  | .lastValue => .ok (rows.getLast?.elim H.unknown (arg · 0))
  | .nthValue =>
    if H.isNull (arg i 1) then .ok H.unknown
    else do
      let k ← H.whole (arg i 1)
      .ok (rows[k.1 - 1]?.elim H.unknown (arg · 0))
  | .agg op => foldRows H op arg ⟨0, none⟩ (f.folded rows) >>= finish H op

/-! ## The running fold -/

variable {H} {op : Agg} {arg : Args V} {s : Run V} {is : List Nat}

theorem foldRows_append (acc : Acc V) (l r : List Nat) :
    foldRows H op arg acc (l ++ r) = foldRows H op arg acc l >>= fun acc => foldRows H op arg acc r :=
  List.foldlM_append

theorem range'_split {a c e : Nat} (hac : a ≤ c) (hce : c ≤ e) :
    range' a (e - a) = range' a (c - a) ++ range' c (e - c) := by
  rw [show e - a = (c - a) + (e - c) by omega, ← List.range'_append_1, show a + (c - a) = c by omega]

/-- What the running fold has in it: the rows up to the frame's end so far, or down to its start. -/
structure Has (H : Host V ε) (op : Agg) (f : Frame) (t : Partition) (arg : Args V) (s : Run V) (is : List Nat) :
    Prop where
  up : f.start = .unboundedPreceding → foldRows H op arg ⟨0, none⟩ (range' t.ps (s.hi - t.ps)) = .ok s.acc ∧
    t.ps ≤ s.hi ∧ ∀ i ∈ is, s.hi ≤ (f.bounds t i).2
  down : f.backward = true → foldRows H op arg ⟨0, none⟩ (range' s.lo (t.pe - s.lo)).reverse = .ok s.acc ∧
    s.lo ≤ t.pe ∧ ∀ i ∈ is, (f.bounds t i).1 ≤ s.lo

def Later (f : Frame) (i j : Nat) : Prop := if f.backward then j ≤ i else i ≤ j

theorem Frame.bounds_later (hi : t.Row i) (hj : t.Row j) (h : Later f i j) :
    (f.start = .unboundedPreceding → (f.bounds t i).2 ≤ (f.bounds t j).2) ∧
      (f.backward = true → (f.bounds t j).1 ≤ (f.bounds t i).1) := by
  have hp := Partition.peers hi
  have hp' := Partition.peers hj
  have hm := Partition.peers_mono hi hj
  have hm' := Partition.peers_mono hj hi
  rw [Later] at h
  obtain ⟨hs, he⟩ := hi
  obtain ⟨hs', he'⟩ := hj
  rw [bounds, bounds]
  cases hstart : f.start <;> cases hstop : f.stop <;> cases f.rows <;> simp [backward, hstart, hstop] at h ⊢ <;>
    (try split_ifs) <;> omega

/-- **A row's running fold is its frame's**, and goes on to the next row's. -/
theorem foldAt_eq (hf : f.Accepted) (hi : t.Row i) (h : Has H op f t arg s (i :: is))
    (hnext : ∀ j ∈ is, t.Row j ∧ Later f i j) : ∃ lo hi,
      foldAt H op f t arg s i =
        (foldRows H op arg ⟨0, none⟩ (f.folded (f.rowsOf t i)) >>= fun acc => .ok ⟨acc, lo, hi⟩) ∧
      ∀ acc, foldRows H op arg ⟨0, none⟩ (f.folded (f.rowsOf t i)) = .ok acc → Has H op f t arg ⟨acc, lo, hi⟩ is := by
  obtain ⟨hle, hfe, hpe⟩ := f.bounds_le hi
  have hlater := fun j hj => f.bounds_later hi (hnext j hj).1 (hnext j hj).2
  rw [f.rowsOf_eq hf hi, foldAt, Frame.folded]
  by_cases hup : f.start = .unboundedPreceding
  · have hfs : (f.bounds t i).1 = t.ps := by simp [Frame.bounds, hup]
    obtain ⟨hsum, hlo, hall⟩ := h.up hup
    have hhi := hall i (List.mem_cons_self ..)
    have hback : f.backward = false := by simp [Frame.backward, hup]
    have hwhole : foldRows H op arg ⟨0, none⟩ (range' t.ps ((f.bounds t i).2 - t.ps)) =
        foldRows H op arg s.acc (range' s.hi ((f.bounds t i).2 - s.hi)) := by
      rw [range'_split hlo hhi, foldRows_append, hsum]
      rfl
    rw [hback, hfs]
    simp only [if_pos hup, Bool.false_eq_true, if_false]
    refine ⟨s.lo, max s.hi (f.bounds t i).2, by rw [hwhole], fun acc hacc => ⟨fun _ => ?_, fun hb => ?_⟩⟩
    · rw [Nat.max_eq_right hhi]
      exact ⟨hacc, hlo.trans hhi, fun j hj => (hlater j hj).1 hup⟩
    · exact absurd (hback.symm.trans hb) Bool.noConfusion
  · simp only [if_neg hup]
    by_cases hback : f.backward = true
    · obtain ⟨hsum, hlo, hall⟩ := h.down hback
      have hfs := hall i (List.mem_cons_self ..)
      have hend : (f.bounds t i).2 = t.pe := by
        have hstop : f.stop = .unboundedFollowing := (of_decide_eq_true hback).2
        refine Nat.le_antisymm hpe ?_
        rw [Frame.bounds, hstop]
        dsimp only
        split_ifs <;> omega
      have hwhole : foldRows H op arg ⟨0, none⟩ (range' (f.bounds t i).1 (t.pe - (f.bounds t i).1)).reverse =
          foldRows H op arg s.acc (range' (f.bounds t i).1 (s.lo - (f.bounds t i).1)).reverse := by
        rw [range'_split hfs hlo, List.reverse_append, foldRows_append, hsum]
        rfl
      rw [hend, if_pos hback, if_pos hback]
      refine ⟨min s.lo (f.bounds t i).1, s.hi, by rw [hwhole], fun acc hacc => ⟨fun h => absurd h hup, fun _ => ?_⟩⟩
      rw [Nat.min_eq_right hfs]
      exact ⟨hacc, hfe.trans hpe, fun j hj => (hlater j hj).2 hback⟩
    · rw [if_neg hback, if_neg hback]
      exact ⟨s.lo, s.hi, rfl, fun acc _ => ⟨fun h => absurd h hup, fun h => absurd h hback⟩⟩

theorem at_range' {a e k : Nat} : (range' a (e - a))[k]?.elim H.unknown (arg · 0) =
    if a + k < e then arg (a + k) 0 else H.unknown := by
  by_cases hk : k < e - a
  · rw [List.getElem?_range' hk, if_pos (by omega), Nat.one_mul]
    rfl
  · rw [List.getElem?_eq_none (by rw [length_range']; omega), if_neg (by omega)]
    rfl

theorem winRow_eq {e : Fn} (hf : f.Accepted) (hi : t.Row i) (h : ∀ op, e = .agg op → Has H op f t arg s (i :: is))
    (hnext : ∀ j ∈ is, t.Row j ∧ Later f i j) : ∃ s',
      winRow H e f t arg s i = (e.over H f arg i (f.rowsOf t i) >>= fun r => .ok (r, s')) ∧
      ∀ r, e.over H f arg i (f.rowsOf t i) = .ok r → ∀ op, e = .agg op → Has H op f t arg s' is := by
  cases e with
  | firstValue =>
    refine ⟨s, ?_, fun r _ op hop => by cases hop⟩
    rw [winRow, Fn.over, f.rowsOf_eq hf hi, List.head?_eq_getElem?, at_range', Nat.add_zero]
    rfl
  | lastValue =>
    refine ⟨s, ?_, fun r _ op hop => by cases hop⟩
    rw [winRow, Fn.over, f.rowsOf_eq hf hi, List.getLast?_eq_getElem?, at_range', length_range']
    obtain ⟨fs, fe⟩ := f.bounds t i
    refine congrArg (fun v => Except.ok (v, s)) ?_
    by_cases hlt : fs < fe
    · rw [if_pos hlt, if_pos (by omega), show fs + (fe - fs - 1) = fe - 1 by omega]
    · rw [if_neg hlt, if_neg (by omega)]
  | nthValue =>
    refine ⟨s, ?_, fun r _ op hop => by cases hop⟩
    rw [winRow, Fn.over, f.rowsOf_eq hf hi]
    obtain ⟨fs, fe⟩ := f.bounds t i
    dsimp only
    split
    · rfl
    · cases H.whole (arg i 1) with
      | error x => rfl
      | ok k =>
        have hk := k.2
        have hiff : fs + (k.1 - 1) < fe ↔ k.1 ≤ fe - fs := by omega
        refine congrArg (fun v => Except.ok (v, s)) ?_
        rw [at_range', if_congr hiff rfl rfl, Nat.add_sub_assoc hk]
  | agg op =>
    obtain ⟨lo, hi', heq, hkeep⟩ := foldAt_eq hf hi (h op rfl) hnext
    rw [winRow, Fn.over]
    dsimp only
    rw [heq]
    cases hacc : foldRows H op arg ⟨0, none⟩ (f.folded (f.rowsOf t i)) with
    | error x => exact ⟨s, rfl, fun r hr => by cases hr⟩
    | ok acc =>
      refine ⟨⟨acc, lo, hi'⟩, rfl, fun r _ op' hop => ?_⟩
      cases hop
      exact hkeep acc hacc

theorem winRows_eq {e : Fn} (hf : f.Accepted) : ∀ {is : List Nat} {s : Run V},
    (∀ op, e = .agg op → Has H op f t arg s is) → (∀ i ∈ is, t.Row i) → is.Pairwise (Later f) →
      winRows H e f t arg s is = is.mapM (fun i => do let r ← e.over H f arg i (f.rowsOf t i); .ok (i, r))
  | [], _, _, _, _ => rfl
  | i :: is, s, h, hin, hpair => by
    obtain ⟨hi, hin⟩ := List.forall_mem_cons.1 hin
    obtain ⟨hlater, hpair⟩ := List.pairwise_cons.1 hpair
    obtain ⟨s', heq, hkeep⟩ := winRow_eq hf hi h (fun j hj => ⟨hin j hj, hlater j hj⟩)
    rw [winRows, heq, List.mapM_cons]
    cases hr : e.over H f arg i (f.rowsOf t i) with
    | error x => rfl
    | ok r =>
      change (winRows H e f t arg s' is >>= _) = _
      rw [winRows_eq hf (hkeep r hr) hin hpair]
      rfl

/-- **A window's answers are its frames'.**  Over every partition and every frame that the plan accepts, each row is
answered with what the function comes to over the rows that the frame's words say, folded alone; so is an error. -/
theorem win_partition_afresh (H : Host V ε) (e : Fn) (t : Partition) (arg : Args V) (hf : f.Accepted) :
    winPartition H e f t arg =
      (f.turns t).mapM (fun i => do let r ← e.over H f arg i (f.rowsOf t i); .ok (i, r)) := by
  have hrange : ∀ i ∈ f.turns t, t.Row i := by
    intro i hi
    rw [Frame.turns] at hi
    split at hi
    · exact t.mem_rows.1 (List.mem_reverse.1 hi)
    · exact t.mem_rows.1 hi
  have hpair : (f.turns t).Pairwise (Later f) := by
    have hrows : t.rows.Pairwise (· < ·) := pairwise_lt_range' 1 Nat.one_pos
    rw [Frame.turns]
    by_cases hback : f.backward = true
    · rw [if_pos hback, List.pairwise_reverse]
      exact hrows.imp (fun h => by rw [Later, if_pos hback]; exact Nat.le_of_lt h)
    · rw [if_neg hback]
      exact hrows.imp (fun h => by rw [Later, if_neg hback]; exact Nat.le_of_lt h)
  refine winRows_eq hf (fun op _ => ⟨fun hup => ?_, fun hback => ?_⟩) hrange hpair
  · have hback : f.backward = false := by simp [Frame.backward, hup]
    rw [hback]
    refine ⟨by simp [foldRows, pure, Except.pure], Nat.le_refl _, fun i hi => ?_⟩
    obtain ⟨h1, h2, -⟩ := f.bounds_le (hrange i hi)
    exact h1.trans h2
  · rw [if_pos hback]
    refine ⟨by simp [foldRows, pure, Except.pure], Nat.le_refl _, fun i hi => ?_⟩
    obtain ⟨-, h2, h3⟩ := f.bounds_le (hrange i hi)
    exact h2.trans h3

/-- Whole numbers, NULL among them. -/
def sums : Host (Option Nat) Unit :=
  ⟨Option.isNone, none, fun n => .ok n, fun _ => .error (), fun _ => .ok (), fun a v => .ok (a.getD 0 + v.getD 0),
    fun _ _ => .error (), fun _ _ => .error ()⟩

theorem win_partition_afresh_sums :
    winPartition sums (.agg .sum) ⟨true, .current, .unboundedFollowing, 0, 0⟩ ⟨0, 3, fun _ => true⟩
        (fun i _ => some (i + 1)) = .ok [(2, some 3), (1, some 5), (0, some 6)] :=
  (win_partition_afresh sums _ _ _ ⟨by decide, by decide, by decide, by decide⟩).trans rfl

end Window
end Gbasic
