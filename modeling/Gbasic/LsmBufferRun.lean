import Gbasic.LsmBuffer
/-!
# LsmBufferRun — the bound over a run of operations

Over runs of an open store: a transaction no failure has ended is within the bound after every operation, as long as
each change of the catalog and each change through a cursor comes when its transaction's buffer is at most half the
cache (`Timely`).  A transaction that only makes such changes goes past every bound.
-/
namespace Gbasic
namespace Lsm

open Prog

/-- The transaction a write operation changes the buffer of. -/
def writer (s : Sys) : Op → Option Nat
  | .put h _ _ _ _ | .del h _ _ | .treeCreate h _ | .treeDrop h _ | .treeReplace h _ _ | .rollback h => some h
  | .cursorPut c _ | .cursorDelete c => (s.curs c).map (·.1)
  | _ => none

/-- What a transaction's buffer holds whenever an operation puts an entry that no spill test follows: a replacement of
a tree puts two. -/
def untested (t : Txn) : Op → List Nat
  | .treeCreate _ _ | .treeDrop _ _ | .cursorPut _ _ | .cursorDelete _ => [t.buf.bytes]
  | .treeReplace _ target _ => [t.buf.bytes, (targetPut t target (.put (.id64 0))).bytes]
  | _ => []

/-- An operation that ends in no spill test meets at most half the cache. -/
def Timely (s : Sys) (op : Op) : Prop :=
  ∀ h ∈ writer s op, ∀ t ∈ s.txns h, ∀ n ∈ untested t op, n ≤ s.db.cfg.cacheBytes / 2

instance (s : Sys) (op : Op) : Decidable (Timely s op) :=
  inferInstanceAs (Decidable (∀ h ∈ writer s op, ∀ t ∈ s.txns h, ∀ n ∈ untested t op, n ≤ s.db.cfg.cacheBytes / 2))

def Held (db : Store) (s : Sys) : Prop := ∀ h t, s.txns h = some t → Sound db t

/-- What an operation leaves: every transaction sound, and the one it changed within the bound if it answers OK. -/
structure Fits (s : Sys) (op : Op) (r : Sys × Answer) : Prop where
  held : Held s.db r.1
  bounded : ∀ h t, writer s op = some h → r.2.1 = some .ok → r.1.txns h = some t → Bounded s.db t

section
variable {s : Sys} {op : Op}

theorem Held.setTxn {db : Store} (hs : Held db s) (h : Nat) {t : Option Txn} (ht : ∀ t', t = some t' → Sound db t') :
    Held db (s.setTxn h t) := by
  intro h' t' ht'
  simp only [Sys.setTxn] at ht'
  split at ht'
  · exact ht t' ht'
  · exact hs h' t' ht'

theorem Fits.of_held (hw : writer s op = none) {r : Sys × Answer} (hr : Held s.db r.1) : Fits s op r :=
  ⟨hr, fun h t hw' => by rw [hw] at hw'; cases hw'⟩

theorem Fits.none (hs : Held s.db s) (o : Out) : Fits s op (s, Option.none, o) :=
  ⟨hs, fun _ _ _ hrc => by cases hrc⟩

theorem fits_bind {α : Type} {p : M α} {k : α → M (Sys × Answer)}
    (hk : ∀ a w', wp exec (fun _ => True) (k a) (fun r _ => Fits s op r) w') (w : World) :
    wp exec (fun _ => True) (p >>= k) (fun r _ => Fits s op r) w := by
  rw [wp_bind]
  exact wp_any (fun a w' => hk a w') w

theorem fits_onTxn (hs : Held s.db s) (h : Nat) (f : Rd → Store → Txn → Txn × Answer)
    (hf : ∀ rd t, s.txns h = some t → Sound s.db (f rd s.db t).1)
    (hb : writer s op = none ∨ writer s op = some h ∧ ∀ rd t, s.txns h = some t → Bounded s.db (f rd s.db t).1)
    (w : World) : wp exec (fun _ => True) (onTxn s h f) (fun r _ => Fits s op r) w := by
  unfold onTxn
  cases ht : s.txns h with
  | none => exact Fits.none hs _
  | some t =>
    refine fits_bind (fun rd w' => ?_) w
    refine ⟨hs.setTxn h (fun t' ht' => ?_), fun h' t' hw _ ht' => ?_⟩
    · cases ht'
      exact hf rd t ht
    · rcases hb with hb | ⟨hb, hb'⟩
      · rw [hb] at hw
        cases hw
      · rw [hb] at hw
        cases hw
        simp only [Sys.setTxn, if_true] at ht'
        cases ht'
        exact hb' rd t ht

theorem fits_onCur (hs : Held s.db s) (c : Nat) (f : Rd → Store → Txn → Cur → Txn × Cur × Answer)
    (hf : ∀ rd h t x, s.curs c = some (h, x) → s.txns h = some t → Sound s.db (f rd s.db t x).1)
    (hb : writer s op = none ∨ writer s op = (s.curs c).map (·.1) ∧
      ∀ rd h t x, s.curs c = some (h, x) → s.txns h = some t → Bounded s.db (f rd s.db t x).1)
    (w : World) : wp exec (fun _ => True) (onCur s c f) (fun r _ => Fits s op r) w := by
  unfold onCur
  cases hx : s.curs c with
  | none => exact Fits.none hs _
  | some x =>
    obtain ⟨h, x⟩ := x
    dsimp only
    cases ht : s.txns h with
    | none => exact Fits.none hs _
    | some t =>
      refine fits_bind (fun rd w' => ?_) w
      refine ⟨fun h' t' ht' => hs.setTxn h (fun t' ht' => ?_) h' t' ht', fun h' t' hw _ ht' => ?_⟩
      · cases ht'
        exact hf rd h t x hx ht
      · rcases hb with hb | ⟨hb, hb'⟩
        · rw [hb] at hw
          cases hw
        · rw [hb, hx] at hw
          cases hw
          simp only [Sys.setTxn, Sys.setCur, if_true] at ht'
          cases ht'
          exact hb' rd h t x hx ht

theorem fits_onMove (hs : Held s.db s) (hw : writer s op = none) (c : Nat)
    (f : Rd → Store → Txn → Cur → Cur × Status × Bool) (w : World) :
    wp exec (fun _ => True) (onMove s c f) (fun r _ => Fits s op r) w :=
  fits_onCur hs c _ (fun _ h t _ _ ht => hs h t ht) (.inl hw) w

theorem fits_onWrite (hs : Held s.db s) (h : Nat) (f : Store → Txn → M (Store × Txn × Status))
    (hf : ∀ t w, Sound s.db t → wp exec (fun _ => True) (f s.db t) (fun r _ => Spilt s.db r) w) (w : World)
    (hw : writer s op = some h) : wp exec (fun _ => True) (onWrite s h f) (fun r _ => Fits s op r) w := by
  unfold onWrite
  cases ht : s.txns h with
  | none => exact Fits.none hs _
  | some t =>
    dsimp only
    rw [wp_bind]
    refine wp_use (hf t w (hs h t ht)) (fun ⟨db, t', rc⟩ w' ⟨hsound, hhalf⟩ => ?_)
    refine ⟨fun h' t'' ht' => hs.setTxn h (fun _ ht' => ?_) h' t'' ht', fun h' t'' hw' hrc ht' => ?_⟩
    · cases ht'
      exact hsound
    · rw [hw] at hw'
      cases hw'
      simp only [Sys.setTxn, if_true] at ht'
      cases ht'
      exact .inl (hhalf (Option.some.inj hrc))

theorem targetPut_mono (t : Txn) (target : Bytes) (v v' : EVal) (h : v.vn ≤ v'.vn) :
    (targetPut t target v).bytes ≤ (targetPut t target v').bytes := by
  unfold targetPut skInsert
  generalize skHeight SK_MAX 1 t.buf.rng = x
  obtain ⟨n, r⟩ := x
  have hpos : (⟨catKey target, .max, v⟩ : Ent).pos = (⟨catKey target, .max, v'⟩ : Ent).pos := rfl
  rw [hpos]
  cases t.buf.ents.find? (fun x => x.pos = (⟨catKey target, .max, v'⟩ : Ent).pos) with
  | none | some =>
    dsimp only
    omega

theorem treeReplace_sound (rd : Rd) {db : Store} {t : Txn} {target : Bytes} (source : Bytes) (ht : Tidy t.buf)
    (h : t.buf.bytes ≤ db.cfg.cacheBytes / 2)
    (h' : (targetPut t target (.put (.id64 0))).bytes ≤ db.cfg.cacheBytes / 2) :
    Tidy (treeReplace rd db t target source).1.buf ∧ Bounded db (treeReplace rd db t target source).1 := by
  rcases adds_treeReplace rd db t target source with hb | ⟨v, hv, hadd⟩
  · exact ⟨hb ▸ ht, .inl (hb ▸ h)⟩
  · have hle := (targetPut_mono t target v (.put (.id64 0)) hv).trans h'
    exact ⟨hadd.tidy (ht.skInsert _), hadd.bounded hle⟩

theorem sound_txnNew (db : Store) (write : Bool) (snap : Nat) (v : Version) : Sound db (txnNew write snap v) :=
  ⟨tidy_skInit, fun _ => .inl (Nat.zero_le _)⟩

theorem beginWrite_sound (fenced : Bool) (db : Store) : ∀ t, (beginWrite fenced db).2.2 = some t → Sound db t := by
  unfold beginWrite
  split
  · exact fun _ h => by cases h
  split
  · exact fun _ h => by cases h
  split
  · exact fun _ h => by cases h
  · intro t h
    cases h
    exact sound_txnNew ..

theorem beginRead_sound (db : Store) (w : World) :
    wp exec (fun _ => True) (beginRead db) (fun r _ => ∀ t, r.2.2 = some t → Sound db t) w := by
  unfold beginRead
  split
  · exact fun _ h => by cases h
  · rw [wp_bind]
    refine wp_any (fun db' w' => ?_) w
    intro t h
    cases h
    exact sound_txnNew ..

theorem openStep_fits (hs : Held s.db s) (ht : Timely s op) (w : World) :
    wp exec (fun _ => True) (openStep s op) (fun r _ => Fits s op r) w := by
  cases op <;> dsimp only [openStep]
  case beginRead h =>
    split
    · exact Fits.none hs _
    · rw [wp_bind]
      refine wp_use (beginRead_sound s.db w) (fun ⟨db, rc, t⟩ w' hnew => ?_)
      exact Fits.of_held rfl (fun h' t' ht' => hs.setTxn h hnew h' t' ht')
  case beginWrite h =>
    split
    · exact Fits.none hs _
    · exact Fits.of_held rfl (fun h' t' ht' => hs.setTxn h (beginWrite_sound s.fenced s.db) h' t' ht')
  case commit h sync =>
    cases s.txns h with
    | none => exact Fits.none hs _
    | some t =>
      refine fits_bind (fun ⟨db, rc⟩ w' => ?_) w
      dsimp only
      split
      · exact Fits.of_held rfl hs
      · exact Fits.of_held rfl (fun h' t' ht' => hs.setTxn h (fun _ he => by cases he) h' t' ht')
  case abort h =>
    cases s.txns h with
    | none => exact Fits.none hs _
    | some t =>
      refine fits_bind (fun db w' => ?_) w
      exact Fits.of_held rfl (fun h' t' ht' => hs.setTxn h (fun _ he => by cases he) h' t' ht')
  case sync | flush => exact fits_bind (fun ⟨db, rc⟩ _ => Fits.of_held rfl hs) w
  case treeCreate h name =>
    have hadd := fun rd t => adds_treeCreate rd s.db t name
    refine fits_onTxn hs h _ (fun rd t ht' => ?_) (.inr ⟨rfl, fun rd t ht' => ?_⟩) w
    · exact (hadd rd t).sound (hs h t ht').tidy (ht h rfl t ht' _ (List.mem_singleton.2 rfl))
    · exact (hadd rd t).bounded (ht h rfl t ht' _ (List.mem_singleton.2 rfl))
  case treeDrop h name =>
    have hadd := fun rd t => adds_treeDrop rd s.db t name
    refine fits_onTxn hs h _ (fun rd t ht' => ?_) (.inr ⟨rfl, fun rd t ht' => ?_⟩) w
    · exact (hadd rd t).sound (hs h t ht').tidy (ht h rfl t ht' _ (List.mem_singleton.2 rfl))
    · exact (hadd rd t).bounded (ht h rfl t ht' _ (List.mem_singleton.2 rfl))
  case treeReplace h target source =>
    have hrep := fun rd t (ht' : s.txns h = some t) =>
      treeReplace_sound rd source (hs h t ht').tidy (ht h rfl t ht' _ (List.mem_cons_self ..))
        (ht h rfl t ht' _ (List.mem_cons_of_mem _ (List.mem_cons_self ..)))
    refine fits_onTxn hs h _ (fun rd t ht' => ?_) (.inr ⟨rfl, fun rd t ht' => (hrep rd t ht').2⟩) w
    exact ⟨(hrep rd t ht').1, fun _ => (hrep rd t ht').2⟩
  case get h tree key =>
    exact fits_onTxn hs h _ (fun rd t ht' => (sameBuf_get rd s.db t tree key).sound (hs h t ht')) (.inl rfl) w
  case put h tree key value fl =>
    exact fits_onWrite hs h _ (fun t w hs => put_spilt hs tree key value fl w) w rfl
  case del h tree key => exact fits_onWrite hs h _ (fun t w hs => del_spilt hs tree key w) w rfl
  case cursorOpen h c tree =>
    cases ht' : s.txns h with
    | none => exact Fits.none hs _
    | some t =>
      dsimp only
      split
      · exact Fits.none hs _
      · refine fits_bind (fun rd w' => ?_) w
        refine Fits.of_held rfl (fun h' t' he => hs.setTxn h (fun t'' he' => ?_) h' t' he)
        cases he'
        exact (sameBuf_cursorOpen rd s.db t tree).sound (hs h t ht')
  case cursorClose c =>
    cases s.curs c with
    | none => exact Fits.none hs _
    | some x =>
      obtain ⟨h, x⟩ := x
      refine Fits.of_held rfl (fun h' t' he => hs.setTxn h (fun t'' he' => ?_) h' t' he)
      obtain ⟨t, ht', rfl⟩ := Option.map_eq_some_iff.1 he'
      exact ⟨(hs h t ht').tidy, (hs h t ht').bounded⟩
  case seek c _ _ | first c | last c | next c | prev c => exact fits_onMove hs rfl c _ w
  case key c | value c => exact fits_onCur hs c _ (fun _ h t _ _ ht => hs h t ht) (.inl rfl) w
  case cursorPut c v =>
    have hadd := fun rd t x => adds_cursorPut rd s.db t x v
    have hhalf := fun h t x (hx : s.curs c = some (h, x)) ht' =>
      ht h (by rw [writer, hx]; rfl) t ht' _ (List.mem_singleton.2 rfl)
    refine fits_onCur hs c _ (fun rd h t x hx ht' => ?_) (.inr ⟨rfl, fun rd h t x hx ht' => ?_⟩) w
    · exact (hadd rd t x).sound (hs h t ht').tidy (hhalf h t x hx ht')
    · exact (hadd rd t x).bounded (hhalf h t x hx ht')
  case cursorDelete c =>
    have hadd := fun rd t x => adds_cursorDelete rd s.db t x
    have hhalf := fun h t x (hx : s.curs c = some (h, x)) ht' =>
      ht h (by rw [writer, hx]; rfl) t ht' _ (List.mem_singleton.2 rfl)
    refine fits_onCur hs c _ (fun rd h t x hx ht' => ?_) (.inr ⟨rfl, fun rd h t x hx ht' => ?_⟩) w
    · exact (hadd rd t x).sound (hs h t ht').tidy (hhalf h t x hx ht')
    · exact (hadd rd t x).bounded (hhalf h t x hx ht')
  case savepoint h =>
    exact fits_onTxn hs h _ (fun rd t ht' => (sameBuf_savepoint s.db t).sound (hs h t ht')) (.inl rfl) w
  case rollback h => exact fits_onWrite hs h _ (fun t w hs => rollbackSavepoint_spilt hs w) w rfl
  case release h =>
    exact fits_onTxn hs h _ (fun rd t ht' => (sameBuf_releaseSavepoint t).sound (hs h t ht')) (.inl rfl) w
  case backupBegin h b dest =>
    cases s.txns h with
    | none => exact Fits.none hs _
    | some t =>
      dsimp only
      split
      · exact Fits.none hs _
      · exact fits_bind (fun ⟨_, _⟩ _ => Fits.of_held rfl hs) w
  case backupStep b budget =>
    cases s.baks b with
    | none => exact Fits.none hs _
    | some bk => exact fits_bind (fun ⟨_, _⟩ _ => Fits.of_held rfl hs) w
  case backupEnd b => exact Fits.of_held rfl hs
  case treeList h stop => exact fits_onTxn hs h _ (fun rd t ht' => hs h t ht') (.inl rfl) w
  case estimate h tree =>
    exact fits_onTxn hs h _ (fun rd t ht' => (sameBuf_estimate rd s.db t tree).sound (hs h t ht')) (.inl rfl) w
  case txnId h => exact fits_onTxn hs h _ (fun rd t ht' => hs h t ht') (.inl rfl) w
  case check garbage =>
    refine fits_bind (fun rc _ => ?_) w
    exact Fits.of_held rfl hs
  case leaseKeep renewed =>
    refine Fits.of_held rfl (fun h t ht' => hs h t ?_)
    unfold leaseKeep at ht'
    split at ht' <;> exact ht'
  case close => exact fits_bind (fun ⟨_, _, _⟩ _ => Fits.of_held rfl hs) w

/-- **One operation** keeps the bound. -/
theorem apiStep_fits (hs : Held s.db s) (ht : Timely s op) (w : World) :
    wp exec (fun _ => True) (apiStep s op) (fun r _ => Fits s op r) w := by
  unfold apiStep
  split
  · exact Fits.none hs _
  · exact openStep_fits hs ht w

/-- **One operation observed**: the state after holds, for the configuration it was begun with. -/
theorem apiObs_fits (haway : Away s) (hs : Held s.db s) (w : World) (ht : Timely s op) :
    Fits s op ((apiObs s w op).after, (apiObs s w op).ans) ∧ Away (apiObs s w op).after ∧
      (apiObs s w op).after.db.cfg = s.db.cfg := by
  have hfits := wp_run _ w (apiStep_fits hs ht w)
  have hstays := apiObs_stays haway w op
  exact ⟨⟨hfits.held, hfits.bounded⟩, hstays.away, hstays.cfg⟩

theorem Bounded.of_cfg {db db' : Store} (h : db'.cfg = db.cfg) {t : Txn} (hb : Bounded db t) : Bounded db' t := by
  unfold Bounded at hb ⊢
  rw [h]
  exact hb

theorem Held.of_cfg {db db' : Store} (h : db'.cfg = db.cfg) (hs : Held db s) : Held db' s :=
  fun i t ht => ⟨(hs i t ht).tidy, fun hf => ((hs i t ht).bounded hf).of_cfg h⟩

end

/-- **A run** keeps the bound: after each operation of the run, a transaction no failure has ended is within it, and
so is the one a write operation that answered OK changed. -/
theorem run_bounded : ∀ (ops : List Op) (s : Sys) (w : World), Away s → Held s.db s →
    (∀ o ∈ apiRun ops s w, Timely o.before o.op) →
    ∀ o ∈ apiRun ops s w, (∀ h t, o.after.txns h = some t → t.failed = .ok → Bounded o.after.db t) ∧
      ∀ h t, writer o.before o.op = some h → o.ans.1 = some .ok → o.after.txns h = some t → Bounded o.after.db t
  | [], _, _, _, _, _, _, ho => by cases ho
  | op :: ops, s, w, haway, hs, ht, o, ho => by
    rw [apiRun] at ht ho
    obtain ⟨hfits, haway', hcfg⟩ := apiObs_fits haway hs w (ht _ (List.mem_cons_self ..))
    have hs' := hfits.held.of_cfg hcfg
    rcases List.mem_cons.1 ho with rfl | ho
    · refine ⟨fun h t ht' hf => (hs' h t ht').bounded hf, fun h t hw hrc ht' => ?_⟩
      exact (hfits.bounded h t hw hrc ht').of_cfg hcfg
    · exact run_bounded ops _ _ haway' hs' (fun o ho => ht o (List.mem_cons_of_mem _ ho)) o ho

/-- **A write transaction's buffer stays within half the cache and one entry** in every run whose changes of the
catalog and changes through cursors come when the buffer is at most half the cache. -/
theorem buffer_bounded (ops : List Op) (db : Store) (w : World)
    (ht : ∀ o ∈ apiRun ops (sysNew db) w, Timely o.before o.op) : ∀ o ∈ apiRun ops (sysNew db) w,
      (∀ h t, o.after.txns h = some t → t.failed = .ok → Bounded o.after.db t) ∧
      ∀ h t, writer o.before o.op = some h → o.ans.1 = some .ok → o.after.txns h = some t → Bounded o.after.db t :=
  run_bounded ops (sysNew db) w (fun _ _ h => by cases h) (fun _ _ h => by cases h) ht

/-- With a cache of one byte every put spills; the second tree is created when the buffer is empty again. -/
def spillingOps : List Op :=
  [.beginWrite 0, .treeCreate 0 [1], .put 0 [1] [2] [3] ⟨false, false⟩, .put 0 [1] [4] [5] ⟨false, false⟩,
    .treeCreate 0 [6], .put 0 [6] [7] [8] ⟨true, false⟩, .commit 0 true]

theorem buffer_bounded_put :
    let x := created ⟨0, 1, 0, 0, 1, true⟩ []
    let r := apiRun spillingOps (sysNew x.1) x.2
    (∀ o ∈ r, Timely o.before o.op ∧ o.ans.1 = some .ok) ∧
      r.map (fun o => (o.after.txns 0).map (fun t => t.runs.length)) =
        [some 0, some 0, some 2, some 3, some 3, some 5, none] ∧
      ∀ o ∈ r, (∀ h t, o.after.txns h = some t → t.failed = .ok → Bounded o.after.db t) ∧
        ∀ h t, writer o.before o.op = some h → o.ans.1 = some .ok → o.after.txns h = some t → Bounded o.after.db t :=
  have ht : ∀ o ∈ apiRun spillingOps (sysNew (created ⟨0, 1, 0, 0, 1, true⟩ []).1) (created ⟨0, 1, 0, 0, 1, true⟩ []).2,
      Timely o.before o.op ∧ o.ans.1 = some .ok := by
    decide +kernel
  ⟨ht, by decide +kernel, buffer_bounded _ _ _ (fun o ho => (ht o ho).1)⟩

def catalogRun : List Obs :=
  let x := created ⟨0, 1, 0, 0, 1, true⟩ []
  apiRun [.beginWrite 0, .treeCreate 0 [1], .treeCreate 0 [2], .treeCreate 0 [3], .treeCreate 0 [4]] (sysNew x.1) x.2

/-- The handle an observed operation writes to, when it answered OK and its transaction is past the bound. -/
def Obs.past (o : Obs) : Bool :=
  decide (o.ans.1 = some .ok) &&
    ((writer o.before o.op).bind o.after.txns).any (fun t => decide (¬ Bounded o.after.db t))

theorem catalogRun_past : catalogRun.map Obs.past = [false, false, false, true, true] := by decide +kernel

/-- **Every operation answers OK and none spills**: the buffer is past half the cache and an entry. -/
theorem catalog_buffer_grows : ¬ ∀ (ops : List Op) (db : Store) (w : World), ∀ o ∈ apiRun ops (sysNew db) w,
    ∀ h t, writer o.before o.op = some h → o.ans.1 = some .ok → o.after.txns h = some t → Bounded o.after.db t := by
  intro hall
  have hpast : true ∈ catalogRun.map Obs.past := by
    rw [catalogRun_past]
    decide
  obtain ⟨o, ho, hp⟩ := List.mem_map.1 hpast
  unfold Obs.past at hp
  rw [Bool.and_eq_true, Option.any_eq_true_iff_get] at hp
  obtain ⟨hok, hsome, hb⟩ := hp
  obtain ⟨t, ht⟩ := Option.isSome_iff_exists.1 hsome
  obtain ⟨h, hw, ht'⟩ := Option.bind_eq_some_iff.1 ht
  simp only [ht, Option.get_some, decide_eq_true_eq] at hb
  exact hb (hall _ _ _ o ho h t hw (of_decide_eq_true hok) ht')

end Lsm
end Gbasic
