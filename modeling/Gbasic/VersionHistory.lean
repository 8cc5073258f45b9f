import Gbasic.History
import Gbasic.Version
/-!
# VersionHistory — as-of reads answer history as it was

A run is write transactions that begin with `versionBegin`, under ids that ascend, and then set, replace, remove and
reinsert values; a call that is refused leaves the value as it was, and whatever the transactions write to other trees
is between them.  `past` is what a reader would have seen: each transaction's stamp and the values current at its end,
the last first.  The history tree's records of a column are `keptOf`, over which `Faithful` is kept by every act.
-/
namespace Gbasic
namespace Version

open Lsm (Status GS_MAX_KEY)
open Engine (Trees Tree Bytes put treeCreate treeFind seekLe)
open SortedMap (get_put floor_eq_none floor_eq_some)
open Engine (set_self set_of_ne)

variable {m : Tree} {t : Trees} {c c' : Cell} {s : Unsigned 8} {now : Stamp}

abbrev Current := Cell → Option (Stamp × Bytes)

structure World where
  trees : Trees
  current : Current
  past : List (Stamp × Current)

variable {past : List (Stamp × Current)} {w : World} {cur : Current}

inductive Act where
  | set (c : Cell) (value : Bytes)
  | remove (c : Cell)

def act (now : Stamp) (w : World) : Act → World
  | .set c value =>
    match w.current c with
    | none => { w with current := Function.update w.current c (some (now, value)) }
    | some (was, old) =>
      match versionKeep w.trees c was old now with
      | (.ok, t) => { w with trees := t, current := Function.update w.current c (some (now, value)) }
      | (_, t) => { w with trees := t }
  | .remove c =>
    match w.current c with
    | none => w
    | some (was, old) =>
      match versionKeep w.trees c was old now with
      | (.ok, t) =>
        match versionRemove t c now with
        | (.ok, t) => { w with trees := t, current := Function.update w.current c none }
        | (_, t) => { w with trees := t }
      | (_, t) => { w with trees := t }

/-- A transaction: begun, its changes one after another, and what is current at its end. -/
def transaction (w : World) (id second : Unsigned 8) (author : Unsigned 4) (acts : List Act) : World :=
  match versionBegin w.trees id second author with
  | (.ok now, t) =>
    let w' := acts.foldl (act now) { w with trees := t }
    { w' with past := (now, w'.current) :: w'.past }
  | (.error _, _) => w

/-- A store as it is after some write transactions. -/
inductive Reached : World → Prop
  | start (t : Trees) (hist : t HIST_NAME = none) (time : t TIME_NAME = none) : Reached ⟨t, fun _ => none, []⟩
  | transaction {w : World} (h : Reached w) (id second : Unsigned 8) (author : Unsigned 4) (acts : List Act)
      (later : ∀ p ∈ w.past, p.1.start < id) : Reached (transaction w id second author acts)
  | others {w : World} (h : Reached w) (t : Trees) (hist : t HIST_NAME = w.trees HIST_NAME)
      (time : t TIME_NAME = w.trees TIME_NAME) : Reached { w with trees := t }

/-! ## What there was -/

/-- The value current after the last transaction with an id at or before `a`. -/
def valueAt (past : List (Stamp × Current)) (a : Unsigned 8) (c : Cell) : Option (Stamp × Bytes) :=
  (past.find? (fun p => decide (p.1.start ≤ a))).bind (fun p => p.2 c)

/-- The id of the last transaction stamped at or before `second`, zero where there is none. -/
def idAt (past : List (Stamp × Current)) (second : Unsigned 8) : Unsigned 8 :=
  ((past.find? (fun p => decide (p.1.second ≤ second))).map (fun p => p.1.start)).getD (toUnsigned 8 0)

/-- A value, or `GS_NOT_FOUND`. -/
def answer : Option (Stamp × Bytes) → Except Status (Stamp × Bytes)
  | some x => .ok x
  | none => .error .notFound

theorem valueAt_cons (now : Stamp) (cur : Current) (past : List (Stamp × Current)) (a : Unsigned 8) (c : Cell) :
    valueAt ((now, cur) :: past) a c = heldAt now.start (cur c) (fun a => valueAt past a c) a := by
  unfold valueAt heldAt
  by_cases h : now.start ≤ a
  · rw [List.find?_cons_of_pos (by simpa using h), if_pos h]
    rfl
  · rw [List.find?_cons_of_neg (by simpa using h), if_neg h]

/-! ## The keys of the history tree -/

theorem histPrefix_injective {u v : Bytes} (h : histPrefix c ++ u = histPrefix c' ++ v) : c = c' ∧ u = v := by
  have h32 : ∀ n : Unsigned 4, n.val < 2 ^ 64 := fun n => n.isLt.trans (by decide)
  obtain ⟨table, row, column, ht, hr⟩ := c
  obtain ⟨table', row', column', ht', hr'⟩ := c'
  unfold histPrefix at h
  simp only [List.append_assoc] at h
  have h1 := congrArg (ulebGet 10 0 0) h
  rw [ulebGet_uleb _ _ ht, ulebGet_uleb _ _ ht'] at h1
  simp only [Option.some.injEq, Prod.mk.injEq] at h1
  obtain ⟨htable, h2⟩ := List.append_inj h1.2 h1.1
  have h3 := congrArg (ulebGet 10 0 0) h2
  rw [ulebGet_uleb _ _ hr, ulebGet_uleb _ _ hr'] at h3
  simp only [Option.some.injEq, Prod.mk.injEq] at h3
  obtain ⟨hrow, h4⟩ := List.append_inj h3.2 h3.1
  have h5 := congrArg (ulebGet 10 0 0) h4
  rw [ulebGet_uleb _ _ (h32 column), ulebGet_uleb _ _ (h32 column')] at h5
  simp only [Option.some.injEq, Prod.mk.injEq] at h5
  have hcolumn := Fin.ext h5.1
  subst htable hrow hcolumn
  exact ⟨rfl, h5.2⟩

theorem histKey_injective {s' : Unsigned 8} (h : histKey c s = histKey c' s') : c = c' ∧ s = s' := by
  obtain ⟨hc, hs⟩ := histPrefix_injective h
  exact ⟨hc, Fin.ext (bePut_injective s.isLt s'.isLt hs)⟩

theorem histKey_le {s' : Unsigned 8} : histKey c s ≤ histKey c s' ↔ s ≤ s' :=
  append_bePut_le s.isLt s'.isLt _

@[simp] theorem length_histKey (c : Cell) (s : Unsigned 8) : (histKey c s).length = (histPrefix c).length + 8 := by
  rw [histKey, List.length_append, length_bePut]

theorem histKey_between {a b : Unsigned 8} (ha : histKey c a ≤ histKey c' s) (hb : histKey c' s ≤ histKey c b) :
    c = c' := by
  obtain ⟨d, hd⟩ := begins_of_between ha hb
  exact (histPrefix_injective hd).1.symm

/-! ## The records -/

def versionOf (start : Unsigned 8) (v : Bytes) : Option (Stamp × Bytes) :=
  if (v.headD 0).val % 2 = V_REMOVED then none
  else some (⟨start, toUnsigned 8 (leNat ((v.drop 1).take 8)), toUnsigned 4 (leNat ((v.drop 9).take 4))⟩, v.drop V_HDR)

theorem versionOf_kept (was : Stamp) (old : Bytes) :
    versionOf was.start (versionBytes 0 was.second was.author old) = some (was, old) := by
  have hsecond : leNat (lePut 8 was.second.val) = was.second.val := leNat_lePut 8 _ was.second.isLt
  have hauthor : leNat (lePut 4 was.author.val) = was.author.val := leNat_lePut 4 _ was.author.isLt
  have h1 : ((versionBytes 0 was.second was.author old).drop 1).take 8 = lePut 8 was.second.val := by
    rw [versionBytes, List.drop_one, List.tail_cons, List.take_left' (length_lePut 8 _)]
  have h9 : ((versionBytes 0 was.second was.author old).drop 9).take 4 = lePut 4 was.author.val := by
    rw [versionBytes, List.drop_succ_cons, List.drop_left' (length_lePut 8 _), List.take_left' (length_lePut 4 _)]
  have h13 : (versionBytes 0 was.second was.author old).drop V_HDR = old := by
    rw [versionBytes, V_HDR, List.drop_succ_cons, ← List.append_assoc, List.drop_left' (by simp)]
  have hflag : ¬ (((versionBytes 0 was.second was.author old).headD 0).val % 2 = V_REMOVED) :=
    show ¬ ((byte 0).val % 2 = V_REMOVED) by decide
  rw [versionOf, if_neg hflag, h1, h9, h13, hsecond, hauthor, toUnsigned_val, toUnsigned_val]

theorem versionOf_removed (start : Unsigned 8) (now : Stamp) :
    versionOf start (versionBytes V_REMOVED now.second now.author []) = none := by
  have hflag : ((versionBytes V_REMOVED now.second now.author []).headD 0).val % 2 = V_REMOVED :=
    show (byte V_REMOVED).val % 2 = V_REMOVED by decide
  rw [versionOf, if_pos hflag]

theorem versionBytes_length (flags : Nat) (second : Unsigned 8) (author : Unsigned 4) (value : Bytes) :
    V_HDR ≤ (versionBytes flags second author value).length := by
  simp [versionBytes, V_HDR]
  omega

def keptOf (m : Tree) (c : Cell) : Kept (Unsigned 8) (Stamp × Bytes) :=
  fun s => (m.get (histKey c s)).map (versionOf s)

structure HistOk (m : Tree) : Prop where
  key : ∀ k v, m.get k = some v → ∃ c s, k = histKey c s
  header : ∀ k v, m.get k = some v → V_HDR ≤ v.length
  short : ∀ k v, m.get k = some v → k.length ≤ GS_MAX_KEY

theorem HistOk.empty : HistOk .empty where
  key k v h := by cases h
  header k v h := by cases h
  short k v h := by cases h

theorem HistOk.put (h : HistOk m) {v : Bytes} (hv : V_HDR ≤ v.length) (hk : (histKey c s).length ≤ GS_MAX_KEY) :
    HistOk (m.put (histKey c s) v) := by
  have hcases : ∀ k w, (m.put (histKey c s) v).get k = some w → (k = histKey c s ∧ w = v) ∨ m.get k = some w := by
    intro k w hw
    rw [get_put] at hw
    split_ifs at hw with hkey
    · exact .inl ⟨hkey, (Option.some.inj hw).symm⟩
    · exact .inr hw
  refine ⟨fun k w hw => ?_, fun k w hw => ?_, fun k w hw => ?_⟩ <;> rcases hcases k w hw with ⟨rfl, rfl⟩ | hold
  · exact ⟨c, s, rfl⟩
  · exact h.key k w hold
  · exact hv
  · exact h.header k w hold
  · exact hk
  · exact h.short k w hold

theorem keptOf_put (m : Tree) (c : Cell) (s : Unsigned 8) (v : Bytes) :
    keptOf (m.put (histKey c s) v) c = Function.update (keptOf m c) s (some (versionOf s v)) := by
  funext s'
  rw [keptOf, get_put]
  by_cases hs : s' = s
  · rw [hs, if_pos rfl, Function.update_self]
    rfl
  · rw [if_neg (fun he => hs (histKey_injective he).2), Function.update_of_ne hs]
    rfl

theorem keptOf_put_of_ne (m : Tree) (hc : c' ≠ c) (s : Unsigned 8) (v : Bytes) :
    keptOf (m.put (histKey c s) v) c' = keptOf m c' := by
  funext s'
  rw [keptOf, get_put, if_neg (fun he => hc (histKey_injective he).1)]
  rfl

theorem floorOf_ok {name : Bytes} (ht : t name = some m) (hn : ¬ GS_MAX_KEY < name.length) (key : Bytes) :
    floorOf t name key = .ok (seekLe m key) := by
  rw [floorOf, treeFind, if_neg hn, ht]

/-- **The floor seek answers the last record of the column at or before the id.** -/
theorem fromHistory_answers (ht : t HIST_NAME = some m) (h : HistOk m) (c : Cell) (a : Unsigned 8) :
    ∃ r, (keptOf m c).Answers a r ∧ versionAsof.fromHistory t c a = answer r := by
  have habsent : (∀ s, s ≤ a → m.get (histKey c s) = none) → (keptOf m c).Answers a none := by
    intro hnone
    exact .inr ⟨rfl, fun s hs => by rw [keptOf, hnone s hs]; rfl⟩
  unfold versionAsof.fromHistory
  dsimp only
  rw [floorOf_ok ht (by decide)]
  unfold seekLe
  by_cases hlong : GS_MAX_KEY + 1 < (histKey c a).length
  · rw [if_pos hlong]
    refine ⟨none, habsent (fun s _ => ?_), rfl⟩
    rcases hg : m.get (histKey c s) with _ | v
    · rfl
    · have hshort := h.short _ _ hg
      rw [length_histKey] at hshort hlong
      omega
  rw [if_neg hlong]
  rcases hfloor : m.floor (histKey c a) with _ | ⟨k, v⟩
  · refine ⟨none, habsent (fun s hs => ?_), rfl⟩
    rcases hg : m.get (histKey c s) with _ | v
    · rfl
    · exact absurd (histKey_le.2 hs) (floor_eq_none hfloor _ _ hg)
  obtain ⟨hget, hle, hgreatest⟩ := floor_eq_some hfloor
  obtain ⟨c', s, rfl⟩ := h.key k v hget
  by_cases hc : c' = c
  · subst hc
    have htake : ∀ s, (histKey c' s).take ((histKey c' a).length - 8) = histPrefix c' := by
      intro s
      rw [length_histKey, Nat.add_sub_cancel, histKey, List.take_left]
    have hdrop : (histKey c' s).drop ((histKey c' s).length - 8) = bePut 8 s.val := by
      rw [length_histKey, Nat.add_sub_cancel, histKey, List.drop_left]
    refine ⟨versionOf s v, .inl ⟨s, histKey_le.1 hle, ?_, fun s' hs hsa => ?_⟩, ?_⟩
    · rw [keptOf, hget]
      rfl
    · rcases hg : m.get (histKey c' s') with _ | w
      · rw [keptOf, hg]
        rfl
      · exact absurd (histKey_le.1 (hgreatest _ _ hg (histKey_le.2 hsa))) (not_le.2 hs)
    · dsimp only
      rw [htake, htake, hdrop, beNat_bePut 8 _ s.isLt, toUnsigned_val, if_neg (by simp),
        if_neg (not_lt.2 (h.header _ _ hget)), versionOf]
      split_ifs <;> rfl
  · refine ⟨none, habsent (fun s' hs' => ?_), ?_⟩
    · rcases hg : m.get (histKey c s') with _ | w
      · rfl
      · exact absurd (histKey_between (hgreatest _ _ hg (histKey_le.2 hs')) hle).symm hc
    · dsimp only
      rw [if_pos]
      · rfl
      by_contra hsame
      push Not at hsame
      obtain ⟨hlen, htake⟩ := hsame
      rw [length_histKey, length_histKey] at hlen
      have hplen : (histPrefix c').length = (histPrefix c).length := by omega
      rw [length_histKey, Nat.add_sub_cancel] at htake
      have hpre : histPrefix c' = histPrefix c := by
        rw [histKey, histKey, List.take_left, ← hplen, List.take_left] at htake
        exact htake
      have happ : histPrefix c' ++ [] = histPrefix c ++ [] := by rw [hpre]
      exact hc (histPrefix_injective happ).1

/-! ## What the writes do -/

theorem putCreating_ok {name : Bytes} (ht : t name = some m) (hn : ¬ GS_MAX_KEY < name.length) (key value : Bytes) :
    putCreating t name key value =
      if GS_MAX_KEY < key.length then (.tooLarge, t) else (.ok, t.set name (some (m.put key value))) := by
  have hput : put t name key value .none =
      if GS_MAX_KEY < key.length then (.tooLarge, t) else (.ok, t.set name (some (m.put key value))) := by
    rw [put, treeFind, if_neg hn, ht]
    simp
  rw [putCreating, hput]
  split_ifs <;> rfl

def startOf (x : Stamp × Bytes) : Unsigned 8 := x.1.start

/-- **The history tree and the current values answer what was current**, in a transaction stamped `now`. -/
structure Recorded (now : Stamp) (past : List (Stamp × Current)) (m : Tree) (cur : Current) : Prop where
  hist : HistOk m
  cells : ∀ c, Faithful startOf now.start (fun a => valueAt past a c) (keptOf m c) (cur c)

theorem putVersion_cases (ht : t HIST_NAME = some m) (hm : HistOk m) (c : Cell) (start : Unsigned 8) (flags : Nat)
    (second : Unsigned 8) (author : Unsigned 4) (value : Bytes) :
    putVersion t c start flags second author value = (.tooLarge, t) ∨
    putVersion t c start flags second author value =
        (.ok, t.set HIST_NAME (some (m.put (histKey c start) (versionBytes flags second author value)))) ∧
      HistOk (m.put (histKey c start) (versionBytes flags second author value)) := by
  rw [putVersion, putCreating_ok ht (by decide)]
  by_cases hlong : GS_MAX_KEY < (histKey c start).length
  · exact .inl (if_pos hlong)
  · exact .inr ⟨if_neg hlong, hm.put (versionBytes_length ..) (not_lt.1 hlong)⟩

/-- The trees after a call: the history tree `m`, every other as it was. -/
structure Left (t t' : Trees) (m : Tree) : Prop where
  hist : t' HIST_NAME = some m
  other : ∀ n, n ≠ HIST_NAME → t' n = t n

theorem Left.refl (ht : t HIST_NAME = some m) : Left t t m := ⟨ht, fun _ _ => rfl⟩

theorem Left.set (t : Trees) (m : Tree) : Left t (t.set HIST_NAME (some m)) m :=
  ⟨set_self .., fun _ hn => set_of_ne t hn _⟩

theorem Left.trans {t' t'' : Trees} {m' : Tree} (h : Left t t' m) (h' : Left t' t'' m') : Left t t'' m' :=
  ⟨h'.hist, fun n hn => (h'.other n hn).trans (h.other n hn)⟩

theorem versionKeep_recorded (ht : t HIST_NAME = some m) (hr : Recorded now past m cur) {was : Stamp} {old : Bytes}
    (hc : cur c = some (was, old)) : ∃ m', Left t (versionKeep t c was old now).2 m' ∧ Recorded now past m' cur ∧
      ((versionKeep t c was old now).1 = .ok → was.start < now.start →
        keptOf m' c was.start = some (some (was, old))) := by
  rw [versionKeep]
  by_cases hlt : now.start ≤ was.start
  · rw [if_pos hlt]
    exact ⟨m, .refl ht, hr, fun _ h => absurd h (not_lt.2 hlt)⟩
  rw [if_neg hlt]
  rcases putVersion_cases ht hr.hist c was.start 0 was.second was.author old with hput | ⟨hput, hok⟩
  · rw [hput]
    exact ⟨m, .refl ht, hr, fun h => by cases h⟩
  · rw [hput]
    refine ⟨_, .set t _, ⟨hok, fun c' => ?_⟩, fun _ _ => ?_⟩
    · have hcell := hr.cells c'
      by_cases hcc : c' = c
      · subst hcc
        rw [keptOf_put, versionOf_kept]
        rw [hc] at hcell ⊢
        exact hcell.keep
      · rw [keptOf_put_of_ne m hcc]
        exact hcell
    · rw [keptOf_put, Function.update_self, versionOf_kept]

theorem Recorded.update {m' : Tree} (hr : Recorded now past m cur) (hist : HistOk m')
    (hother : ∀ c', c' ≠ c → keptOf m' c' = keptOf m c') {x : Option (Stamp × Bytes)}
    (hc : Faithful startOf now.start (fun a => valueAt past a c) (keptOf m' c) x) :
    Recorded now past m' (Function.update cur c x) := by
  refine ⟨hist, fun c' => ?_⟩
  by_cases hcc : c' = c
  · subst hcc
    rw [Function.update_self]
    exact hc
  · rw [Function.update_of_ne hcc, hother c' hcc]
    exact hr.cells c'

/-- **A change keeps the history**, refused or not. -/
theorem act_recorded (ht : w.trees HIST_NAME = some m) (hr : Recorded now past m w.current) (a : Act) :
    ∃ m', Left w.trees (act now w a).trees m' ∧ Recorded now past m' (act now w a).current ∧
      (act now w a).past = w.past := by
  cases a with
  | set c value =>
    rw [act]
    have hcell := hr.cells c
    rcases hc : w.current c with _ | ⟨was, old⟩
    · rw [hc] at hcell
      exact ⟨m, .refl ht, hr.update hr.hist (fun _ _ => rfl) (hcell.set rfl), rfl⟩
    obtain ⟨m', hleft, hr', hkept⟩ := versionKeep_recorded ht hr hc
    dsimp only
    rcases hkeep : versionKeep w.trees c was old now with ⟨rc, t⟩
    rw [hkeep] at hleft hkept
    have hcell' := hr'.cells c
    rw [hc] at hcell'
    by_cases hrc : rc = .ok
    · subst hrc
      exact ⟨m', hleft, hr'.update hr'.hist (fun _ _ => rfl) (hcell'.replace (hkept rfl) rfl), rfl⟩
    · cases rc <;> first | exact absurd rfl hrc | exact ⟨m', hleft, hr', rfl⟩
  | remove c =>
    rw [act]
    rcases hc : w.current c with _ | ⟨was, old⟩
    · exact ⟨m, .refl ht, hr, rfl⟩
    obtain ⟨m', hleft, hr', hkept⟩ := versionKeep_recorded ht hr hc
    dsimp only
    rcases hkeep : versionKeep w.trees c was old now with ⟨rc, t⟩
    rw [hkeep] at hleft hkept
    have hcell' := hr'.cells c
    rw [hc] at hcell'
    by_cases hrc : rc = .ok
    · subst hrc
      dsimp only
      rw [versionRemove]
      rcases putVersion_cases hleft.hist hr'.hist c now.start V_REMOVED now.second now.author [] with hput | ⟨hput, hok⟩
      · rw [hput]
        exact ⟨m', hleft, hr', rfl⟩
      · rw [hput]
        refine ⟨_, hleft.trans (.set t _), hr'.update hok (fun c' hcc => keptOf_put_of_ne m' hcc _ _) ?_, rfl⟩
        rw [keptOf_put, versionOf_removed]
        exact hcell'.remove (hkept rfl)
    · cases rc <;> first | exact absurd rfl hrc | exact ⟨m', hleft, hr', rfl⟩

theorem acts_recorded {now : Stamp} {past : List (Stamp × Current)} : ∀ (acts : List Act) {m : Tree} {w : World},
    w.trees HIST_NAME = some m → Recorded now past m w.current →
    ∃ m', Left w.trees (acts.foldl (act now) w).trees m' ∧ Recorded now past m' (acts.foldl (act now) w).current ∧
      (acts.foldl (act now) w).past = w.past
  | [], m, w, ht, hr => ⟨m, .refl ht, hr, rfl⟩
  | a :: acts, m, w, ht, hr => by
    obtain ⟨m₁, hleft, hr₁, hpast⟩ := act_recorded ht hr a
    obtain ⟨m₂, hleft₂, hr₂, hpast₂⟩ := acts_recorded acts hleft.hist hr₁
    exact ⟨m₂, hleft.trans hleft₂, hr₂, hpast₂.trans hpast⟩

/-! ## The index of seconds -/

def Falling (past : List (Stamp × Current)) : Prop := past.Pairwise (fun p q => q.1.second ≤ p.1.second)

structure TimeOk (past : List (Stamp × Current)) (m : Tree) : Prop where
  key : ∀ k v, m.get k = some v → ∃ s : Unsigned 8, k = bePut 8 s.val
  get : ∀ s : Unsigned 8,
    m.get (bePut 8 s.val) = (past.find? (fun p => decide (p.1.second = s))).map (fun p => lePut 8 p.1.start.val)

def TimeHolds (t : Trees) (past : List (Stamp × Current)) : Prop :=
  (t TIME_NAME = none ∧ past = []) ∨ ∃ m, t TIME_NAME = some m ∧ TimeOk past m

theorem find_second (hf : Falling past) {p : Stamp × Current}
    (hp : past.find? (fun p => decide (p.1.second ≤ s)) = some p) :
    past.find? (fun q => decide (q.1.second = p.1.second)) = some p ∧
      ∀ q ∈ past, q.1.second ≤ s → q.1.second ≤ p.1.second := by
  obtain ⟨hps, before, after, rfl, hbefore⟩ := List.find?_eq_some_iff_append.1 hp
  have hps := of_decide_eq_true hps
  have hlate : ∀ q ∈ before, ¬ q.1.second ≤ s := by
    intro q hq
    simpa using hbefore q hq
  constructor
  · refine List.find?_eq_some_iff_append.2 ⟨by simp, before, after, rfl, fun q hq => ?_⟩
    have hne : q.1.second ≠ p.1.second := fun he => hlate q hq (he ▸ hps)
    simpa using hne
  · intro q hq hqs
    rcases List.mem_append.1 hq with hq | hq
    · exact absurd hqs (hlate q hq)
    rcases List.mem_cons.1 hq with rfl | hq
    · exact le_rfl
    · exact (List.pairwise_cons.1 (List.pairwise_append.1 hf).2.1).1 q hq

/-- **The floor seek in the time tree finds the last transaction at or before a second.** -/
theorem floorOf_time (hf : Falling past) (ht : TimeHolds t past) (s : Unsigned 8) :
    floorOf t TIME_NAME (bePut 8 s.val) = .ok ((past.find? (fun p => decide (p.1.second ≤ s))).map
      (fun p => (bePut 8 p.1.second.val, lePut 8 p.1.start.val))) := by
  rcases ht with ⟨hnone, rfl⟩ | ⟨m, hm, hok⟩
  · rw [floorOf, treeFind, if_neg (by decide), hnone]
    rfl
  have hle : ∀ u v : Unsigned 8, bePut 8 u.val ≤ bePut 8 v.val ↔ u ≤ v := fun u v => append_bePut_le u.isLt v.isLt []
  have hpresent : ∀ p, past.find? (fun p => decide (p.1.second ≤ s)) = some p →
      m.get (bePut 8 p.1.second.val) = some (lePut 8 p.1.start.val) := by
    intro p hp
    rw [hok.get, (find_second hf hp).1]
    rfl
  rw [floorOf_ok hm (by decide), seekLe, if_neg (by rw [length_bePut]; decide)]
  refine congrArg Except.ok ?_
  rcases hp : past.find? (fun p => decide (p.1.second ≤ s)) with _ | p
  · rw [hp, Option.map_none]
    rcases hfloor : m.floor (bePut 8 s.val) with _ | ⟨k, v⟩
    · rfl
    obtain ⟨hget, hks, -⟩ := floor_eq_some hfloor
    obtain ⟨u, rfl⟩ := hok.key k v hget
    rw [hok.get] at hget
    obtain ⟨q, hq, -⟩ := Option.map_eq_some_iff.1 hget
    have hqu : q.1.second = u := by simpa using List.find?_some hq
    have hnot := List.find?_eq_none.1 hp q (List.mem_of_find?_eq_some hq)
    exact absurd ((hle u s).1 hks) (by simpa [hqu] using hnot)
  · rw [hp, Option.map_some]
    have hps : p.1.second ≤ s := by simpa using List.find?_some hp
    rcases hfloor : m.floor (bePut 8 s.val) with _ | ⟨k, v⟩
    · exact absurd ((hle _ _).2 hps) (floor_eq_none hfloor _ _ (hpresent p hp))
    obtain ⟨hget, hks, hgreatest⟩ := floor_eq_some hfloor
    obtain ⟨u, rfl⟩ := hok.key k v hget
    have hpu : p.1.second ≤ u := (hle _ _).1 (hgreatest _ _ (hpresent p hp) ((hle _ _).2 hps))
    obtain ⟨q, hq, -⟩ := Option.map_eq_some_iff.1 ((hok.get u).symm.trans hget)
    have hqu : q.1.second = u := by simpa using List.find?_some hq
    have hup : u ≤ p.1.second :=
      hqu ▸ (find_second hf hp).2 q (List.mem_of_find?_eq_some hq) (hqu ▸ (hle u s).1 hks)
    have hu : u = p.1.second := le_antisymm hup hpu
    subst hu
    rw [hpresent p hp] at hget
    cases hget
    rfl

theorem TimeOk.put (h : TimeOk past m) (now : Stamp) (cur : Current) :
    TimeOk ((now, cur) :: past) (m.put (bePut 8 now.second.val) (lePut 8 now.start.val)) := by
  have hinj : ∀ u v : Unsigned 8, bePut 8 u.val = bePut 8 v.val → u = v :=
    fun u v he => Fin.ext (bePut_injective u.isLt v.isLt he)
  refine ⟨fun k v hg => ?_, fun s => ?_⟩
  · rw [get_put] at hg
    split_ifs at hg with hk
    · exact ⟨now.second, hk⟩
    · exact h.key k v hg
  · rw [get_put, h.get]
    by_cases hs : now.second = s
    · rw [List.find?_cons_of_pos (by simpa using hs), if_pos (by rw [hs])]
      rfl
    · rw [List.find?_cons_of_neg (by simpa using hs), if_neg (fun he => hs (hinj _ _ he).symm)]

theorem TimeOk.empty : TimeOk [] .empty where
  key k v h := by cases h
  get s := rfl

/-! ## Beginning a transaction -/

theorem putCreating_any (t : Trees) (name : Bytes) {key : Bytes} (hn : ¬ GS_MAX_KEY < name.length)
    (hk : ¬ GS_MAX_KEY < key.length) (value : Bytes) :
    ∃ t', putCreating t name key value = (.ok, t') ∧ t' name = some (((t name).getD .empty).put key value) ∧
      ∀ n, n ≠ name → t' n = t n := by
  rcases ht : t name with _ | m
  · have hput : put t name key value .none = (.notFound, t) := by
      rw [put, if_neg hk, treeFind, if_neg hn, ht]
    have hcreate : treeCreate t name = (.ok, t.set name (some .empty)) := by
      rw [treeCreate, treeFind, if_neg hn, ht]
    have hput' : put (t.set name (some .empty)) name key value .none =
        (.ok, (t.set name (some .empty)).set name (some (SortedMap.put .empty key value))) := by
      rw [put, if_neg hk, treeFind, if_neg hn, set_self]
      simp
    refine ⟨_, by rw [putCreating, hput]; dsimp only; rw [hcreate]; exact hput', set_self .., fun n hne => ?_⟩
    rw [set_of_ne _ hne, set_of_ne _ hne]
  · have hput : putCreating t name key value = (.ok, t.set name (some (m.put key value))) := by
      rw [putCreating_ok ht hn, if_neg hk]
    exact ⟨_, hput, set_self .., fun n hne => set_of_ne _ hne _⟩

/-- The trees after the beginning of a transaction: its second indexed, and the history tree there. -/
structure Begun (t : Trees) (past : List (Stamp × Current)) (now : Stamp) (t' : Trees) : Prop where
  time : ∀ cur, TimeHolds t' ((now, cur) :: past)
  hist : t' HIST_NAME = some ((t HIST_NAME).getD .empty)
  later : ∀ p ∈ past, p.1.second ≤ now.second

/-- **A transaction begins**, at a second no earlier than the last. -/
theorem versionBegin_ok (hf : Falling past) (ht : TimeHolds t past) (id second : Unsigned 8) (author : Unsigned 4) :
    ∃ now t', versionBegin t id second author = (.ok now, t') ∧ now.start = id ∧ now.author = author ∧
      Begun t past now t' := by
  have hmax : (List.replicate 8 255 : Bytes) = bePut 8 (toUnsigned 8 (2 ^ 64 - 1)).val := by decide
  have hall : ∀ p : Stamp × Current, p.1.second ≤ toUnsigned 8 (2 ^ 64 - 1) := by
    intro p
    have hlt := p.1.second.isLt
    show p.1.second.val ≤ (2 ^ 64 - 1) % 256 ^ 8
    omega
  have hhead : past.find? (fun p => decide (p.1.second ≤ toUnsigned 8 (2 ^ 64 - 1))) = past.head? := by
    cases past with
    | nil => rfl
    | cons p past => rw [List.find?_cons_of_pos (by simpa using hall p), List.head?_cons]
  have hfloor := floorOf_time hf ht (toUnsigned 8 (2 ^ 64 - 1))
  rw [hhead, ← hmax] at hfloor
  have hrecord : ∀ second : Unsigned 8, (∀ p ∈ past, p.1.second ≤ second) →
      ∃ now t', versionBegin.record id author t second = (.ok now, t') ∧ now.start = id ∧ now.author = author ∧
        Begun t past now t' := by
    intro second hlater
    obtain ⟨t₁, hput, htime, hother⟩ := putCreating_any t TIME_NAME (by decide)
      (show ¬ GS_MAX_KEY < (bePut 8 second.val).length by rw [length_bePut]; decide) (lePut 8 id.val)
    have hokm : TimeOk past ((t TIME_NAME).getD .empty) := by
      rcases ht with ⟨hnone, rfl⟩ | ⟨m, hm, hok⟩
      · rw [hnone]
        exact TimeOk.empty
      · rw [hm]
        exact hok
    have hhist : t₁ HIST_NAME = t HIST_NAME := hother _ (by decide)
    unfold versionBegin.record
    rw [hput]
    dsimp only
    rw [treeFind, if_neg (by decide), hhist]
    rcases hh : t HIST_NAME with _ | m
    · dsimp only
      rw [treeCreate, treeFind, if_neg (by decide), hhist, hh]
      refine ⟨_, _, rfl, rfl, rfl, fun cur => .inr ⟨_, ?_, hokm.put ⟨id, second, author⟩ cur⟩, ?_, hlater⟩
      · rw [set_of_ne _ (by decide)]
        exact htime
      · rw [set_self, hh]
        rfl
    · refine ⟨_, _, rfl, rfl, rfl, fun cur => .inr ⟨_, htime, hokm.put ⟨id, second, author⟩ cur⟩, ?_, hlater⟩
      rw [hhist, hh]
      rfl
  unfold versionBegin
  rw [hfloor]
  cases past with
  | nil => exact hrecord second (fun p hp => by cases hp)
  | cons p past =>
    dsimp only [List.head?_cons, Option.map_some]
    rw [if_neg (by simp), beNat_bePut 8 _ p.1.second.isLt, toUnsigned_val]
    have hle : ∀ q ∈ p :: past, q.1.second ≤ p.1.second := by
      intro q hq
      rcases List.mem_cons.1 hq with rfl | hq
      · exact le_rfl
      · exact (List.pairwise_cons.1 hf).1 q hq
    split_ifs with hlt
    · exact hrecord _ hle
    · exact hrecord _ (fun q hq => (hle q hq).trans (not_lt.1 hlt))

/-! ## The run -/

structure Holds (w : World) : Prop where
  falling : Falling w.past
  time : TimeHolds w.trees w.past
  hist : (w.past = [] ∧ w.trees HIST_NAME = none ∧ w.current = fun _ => none) ∨
    ∃ now past m, w.past = (now, w.current) :: past ∧ w.trees HIST_NAME = some m ∧ Recorded now past m w.current

theorem Holds.recorded (h : Holds w) (later : ∀ p ∈ w.past, p.1.start < now.start) :
    Recorded now w.past ((w.trees HIST_NAME).getD .empty) w.current := by
  rcases h.hist with ⟨hpast, htree, hcur⟩ | ⟨last, past, m, hpast, htree, hr⟩
  · rw [hpast, htree, hcur]
    exact ⟨.empty, fun c => Faithful.empty (fun s => rfl) now.start⟩
  · rw [hpast, htree]
    have hlt : last.start < now.start := later (last, w.current) (hpast ▸ List.mem_cons_self ..)
    refine ⟨hr.hist, fun c => ?_⟩
    have hheld : (fun a => valueAt ((last, w.current) :: past) a c) =
        heldAt last.start (w.current c) (fun a => valueAt past a c) := by
      funext a
      exact valueAt_cons last w.current past a c
    rw [hheld]
    exact (hr.cells c).advance hlt

/-- **A transaction begins, and its end is one more moment of the past.** -/
theorem transaction_holds (h : Holds w) (id second : Unsigned 8) (author : Unsigned 4) (acts : List Act)
    (later : ∀ p ∈ w.past, p.1.start < id) : Holds (transaction w id second author acts) ∧
      ∃ now, now.start = id ∧ now.author = author ∧ (transaction w id second author acts).past =
        (now, (transaction w id second author acts).current) :: w.past := by
  obtain ⟨now, t, hbegin, hid, hauthor, hb⟩ := versionBegin_ok h.falling h.time id second author
  have hrec : Recorded now w.past ((w.trees HIST_NAME).getD .empty) w.current := h.recorded (hid ▸ later)
  obtain ⟨m', hleft, hrec', hpast⟩ := acts_recorded acts (w := { w with trees := t }) hb.hist hrec
  rw [transaction, hbegin]
  dsimp only
  rw [hpast]
  refine ⟨⟨List.pairwise_cons.2 ⟨hb.later, h.falling⟩, ?_, .inr ⟨now, w.past, m', rfl, hleft.hist, hrec'⟩⟩,
    now, hid, hauthor, rfl⟩
  have htime := hleft.other TIME_NAME (by decide)
  unfold TimeHolds
  dsimp only
  rw [htime]
  exact hb.time _

theorem Reached.holds (h : Reached w) : Holds w := by
  induction h with
  | start t hist time => exact ⟨List.Pairwise.nil, .inl ⟨time, rfl⟩, .inl ⟨rfl, hist, rfl⟩⟩
  | transaction _ id second author acts later ih => exact (transaction_holds ih id second author acts later).1
  | others _ t hist time ih =>
    refine ⟨ih.falling, ?_, ?_⟩
    · have htime := ih.time
      unfold TimeHolds at htime ⊢
      dsimp only
      rw [time]
      exact htime
    · have hhist := ih.hist
      dsimp only
      rw [hist]
      exact hhist

theorem Holds.asof (h : Holds w) (c : Cell) (a : Unsigned 8) :
    versionAsof w.trees c a (w.current c) = answer (valueAt w.past a c) := by
  rcases h.hist with ⟨hpast, htree, hcur⟩ | ⟨now, past, m, hpast, htree, hr⟩
  · rw [hpast, hcur]
    unfold versionAsof versionAsof.fromHistory
    dsimp only
    rw [floorOf, treeFind, if_neg (by decide), htree]
    rfl
  obtain ⟨r, hanswers, hfrom⟩ := fromHistory_answers htree hr.hist c a
  have hasof := (hr.cells c).asOf a
  rw [hpast, valueAt_cons]
  unfold versionAsof
  unfold Kept.AsOf at hasof
  rcases hc : w.current c with _ | ⟨was, v⟩
  · rw [hc] at hasof
    rw [← hasof.unique hanswers] at hfrom
    exact hfrom
  · rw [hc] at hasof
    dsimp only at hasof ⊢
    unfold startOf at hasof
    split_ifs at hasof ⊢ with hle
    · rw [hasof]
      rfl
    · rw [← hasof.unique hanswers] at hfrom
      exact hfrom

/-- **As-of reads return history as it was.**  After every run, a column read as of any id answers the value and the
stamp current after the last transaction at or before it, and none where there was none; every second maps to the last
transaction stamped at or before it, and stamped seconds never fall; and every transaction begins. -/
theorem asof_reached {w : World} (h : Reached w) :
    (∀ c a, versionAsof w.trees c a (w.current c) = answer (valueAt w.past a c)) ∧
    (∀ s, versionAt w.trees s = .ok (idAt w.past s)) ∧
    w.past.Pairwise (fun p q => q.1.second ≤ p.1.second) ∧
    ∀ id second author acts, (∀ p ∈ w.past, p.1.start < id) →
      ∃ now, now.start = id ∧ now.author = author ∧ (transaction w id second author acts).past =
        (now, (transaction w id second author acts).current) :: w.past := by
  have hw := h.holds
  refine ⟨hw.asof, fun s => ?_, hw.falling, fun id second author acts later =>
    (transaction_holds hw id second author acts later).2⟩
  rw [versionAt, floorOf_time hw.falling hw.time, idAt]
  rcases hp : w.past.find? (fun p => decide (p.1.second ≤ s)) with _ | p
  · rw [hp]
    rfl
  · rw [hp]
    dsimp only [Option.map_some]
    rw [if_neg (by simp), leNat_lePut 8 _ p.1.start.isLt, toUnsigned_val]
    rfl

/-- A value set, removed while the clock goes back, and set again: the past still answers. -/
theorem asof_reached_three :
    let c : Cell := ⟨[116], [1], toUnsigned 4 2, by decide, by decide⟩
    let u : Nat → Unsigned 8 := toUnsigned 8
    let w := transaction (transaction (transaction ⟨fun _ => none, fun _ => none, []⟩
      (u 1) (u 100) (toUnsigned 4 0) [.set c [7]])
      (u 5) (u 90) (toUnsigned 4 0) [.remove c])
      (u 9) (u 120) (toUnsigned 4 0) [.set c [8]]
    versionAsof w.trees c (u 3) (w.current c) = .ok (⟨u 1, u 100, toUnsigned 4 0⟩, [7]) ∧
      versionAsof w.trees c (u 6) (w.current c) = .error .notFound ∧ versionAt w.trees (u 110) = .ok (u 5) := by
  intro c u w
  have h : Reached w := ((Reached.start (fun _ => none) rfl rfl).transaction _ _ _ _ (by simp)).transaction _ _ _ _
    (by decide) |>.transaction _ _ _ _ (by decide)
  have h3 : valueAt w.past (u 3) c = some (⟨u 1, u 100, toUnsigned 4 0⟩, [7]) := by decide +kernel
  have h6 : valueAt w.past (u 6) c = none := by decide +kernel
  have h110 : idAt w.past (u 110) = u 5 := by decide +kernel
  obtain ⟨hasof, hat, -⟩ := asof_reached h
  exact ⟨by rw [hasof, h3]; rfl, by rw [hasof, h6]; rfl, by rw [hat, h110]⟩

end Version
end Gbasic
