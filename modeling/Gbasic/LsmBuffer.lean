import Gbasic.LsmNoRetry
/-!
# LsmBuffer — what bounds a write transaction's buffer

A put, a delete and a rollback end in `maybeSpill`, which leaves at most half the cache in the buffer.  The changes of
the catalog, and those made through a cursor, insert and do not end in it: each adds its entry to what the buffer
holds, whatever that is.  `Timely` says when that is at most half the cache; nothing in the code sees to it.
-/
namespace Gbasic
namespace Lsm

open Prog

/-! ## What an entry adds -/

theorem skHeight_le : ∀ (f h r : Nat), h ≤ SK_MAX → (skHeight f h r).1 ≤ SK_MAX
  | 0, _, _, hh => hh
  | f + 1, h, r, hh => by
    rw [skHeight]
    dsimp only
    split
    · split
      · exact skHeight_le f (h + 1) _ ‹_›
      · exact hh
    · exact hh

/-- The most `sk_insert` counts an entry as: its node is of the greatest height. -/
def Ent.most (e : Ent) : Nat := e.key.len + e.val.vn + 48 + SK_MAX * 8

theorem mem_insertEnt (e : Ent) : ∀ l, e ∈ insertEnt e l
  | [] => List.mem_singleton.2 rfl
  | x :: l => by
    rw [insertEnt]
    split
    · exact List.mem_cons_of_mem _ (mem_insertEnt e l)
    · exact List.mem_cons_self ..

theorem skInsert_cases (s : Skip) (e : Ent) :
    (∃ x ∈ s.ents, x.pos = e.pos ∧ (skInsert s e true).ents = replaceEnt e s.ents ∧
      (skInsert s e true).count = s.count ∧ (skInsert s e true).bytes = s.bytes - x.val.vn + e.val.vn) ∨
    ∃ h ≤ SK_MAX, (skInsert s e true).ents = insertEnt e s.ents ∧ (skInsert s e true).count = s.count + 1 ∧
      (skInsert s e true).bytes = s.bytes + (e.key.len + e.val.vn + 48 + h * 8) := by
  have hh := skHeight_le SK_MAX 1 s.rng (by decide)
  unfold skInsert
  generalize skHeight SK_MAX 1 s.rng = x at hh ⊢
  obtain ⟨h, r⟩ := x
  cases hx : s.ents.find? (fun x => x.pos = e.pos) with
  | none => exact .inr ⟨h, hh, rfl, rfl, rfl⟩
  | some x =>
    have hpos := List.find?_some hx
    exact .inl ⟨x, List.mem_of_find?_eq_some hx, of_decide_eq_true hpos, rfl, rfl, rfl⟩

theorem skInsert_bytes (s : Skip) (e : Ent) : (skInsert s e true).bytes ≤ s.bytes + e.most := by
  unfold Ent.most
  rcases skInsert_cases s e with ⟨x, -, -, -, -, hb⟩ | ⟨h, hh, -, -, hb⟩
  · rw [hb]
    omega
  · rw [hb]
    omega

theorem mem_skInsert (s : Skip) (e : Ent) : e ∈ (skInsert s e true).ents := by
  rcases skInsert_cases s e with ⟨x, hx, hpos, he, -, -⟩ | ⟨h, -, he, -, -⟩
  · rw [he]
    exact List.mem_map.2 ⟨x, hx, if_pos hpos⟩
  · rw [he]
    exact mem_insertEnt e _

structure Tidy (s : Skip) : Prop where
  count : s.count = s.ents.length
  empty : s.ents = [] → s.bytes = 0

theorem tidy_skInit : Tidy skInit := ⟨rfl, fun _ => rfl⟩

theorem length_insertEnt (e : Ent) : ∀ l, (insertEnt e l).length = l.length + 1
  | [] => rfl
  | x :: l => by
    rw [insertEnt]
    split
    · rw [List.length_cons, length_insertEnt e l, List.length_cons]
    · rfl

theorem Tidy.skInsert {s : Skip} (h : Tidy s) (e : Ent) : Tidy (skInsert s e true) := by
  have hmem := mem_skInsert s e
  refine ⟨?_, fun he => ?_⟩
  · rcases skInsert_cases s e with ⟨x, -, -, he, hc, -⟩ | ⟨n, -, he, hc, -⟩
    · rw [hc, he, h.count]
      exact (List.length_map ..).symm
    · rw [hc, he, h.count, length_insertEnt]
  · rw [he] at hmem
    cases hmem

/-! ## The bound -/

/-- **The bound**: half the cache, and one of the buffer's entries. -/
def Bounded (db : Store) (t : Txn) : Prop :=
  t.buf.bytes ≤ db.cfg.cacheBytes / 2 ∨ ∃ e ∈ t.buf.ents, t.buf.bytes ≤ db.cfg.cacheBytes / 2 + e.most

instance (db : Store) (t : Txn) : Decidable (Bounded db t) := inferInstanceAs (Decidable (_ ∨ _))

structure Sound (db : Store) (t : Txn) : Prop where
  tidy : Tidy t.buf
  bounded : t.failed = .ok → Bounded db t

def SameBuf (t t' : Txn) : Prop := t'.buf = t.buf ∧ t'.failed = t.failed

def Adds (b b' : Skip) : Prop := b' = b ∨ ∃ e, b' = skInsert b e true

section
variable {db : Store} {t t' : Txn}

theorem SameBuf.refl (t : Txn) : SameBuf t t := ⟨rfl, rfl⟩

theorem SameBuf.trans {t'' : Txn} (h : SameBuf t t') (h' : SameBuf t' t'') : SameBuf t t'' :=
  ⟨h'.1.trans h.1, h'.2.trans h.2⟩

theorem SameBuf.sound (h : SameBuf t t') (hs : Sound db t) : Sound db t' := by
  refine ⟨h.1 ▸ hs.tidy, fun hf => ?_⟩
  have hb := hs.bounded (h.2 ▸ hf)
  unfold Bounded at hb ⊢
  rw [h.1]
  exact hb

theorem Adds.tidy {b b' : Skip} (h : Adds b b') (hb : Tidy b) : Tidy b' := by
  rcases h with rfl | ⟨e, rfl⟩
  · exact hb
  · exact hb.skInsert e

theorem Adds.bounded {b : Skip} (h : Adds b t.buf) (hb : b.bytes ≤ db.cfg.cacheBytes / 2) : Bounded db t := by
  rcases h with h | ⟨e, h⟩
  · exact .inl (h ▸ hb)
  · refine .inr ⟨e, h ▸ mem_skInsert .., ?_⟩
    rw [h]
    exact (skInsert_bytes b e).trans (Nat.add_le_add_right hb _)

theorem Adds.sound {b : Skip} (h : Adds b t.buf) (ht : Tidy b) (hb : b.bytes ≤ db.cfg.cacheBytes / 2) : Sound db t :=
  ⟨h.tidy ht, fun _ => h.bounded hb⟩

end

/-! ## Functions that leave the buffer alone -/

theorem sameBuf_treeFind (rd : Rd) (db : Store) (t : Txn) (name : Bytes) : SameBuf t (treeFind rd db t name).1 := by
  unfold treeFind
  split
  · exact .refl t
  · split
    · exact .refl t
    · dsimp only
      split <;> exact .refl t

theorem sameBuf_undoNote (rd : Rd) (db : Store) (t : Txn) (k : IKey) : SameBuf t (undoNote rd db t k).1 := by
  unfold undoNote
  split
  · exact .refl t
  · dsimp only
    split
    · exact .refl t
    · split <;> exact ⟨rfl, rfl⟩

theorem sameBuf_computeNextId (rd : Rd) (db : Store) (t : Txn) : SameBuf t (computeNextId rd db t) := by
  unfold computeNextId
  split <;> exact ⟨rfl, rfl⟩

theorem sameBuf_get (rd : Rd) (db : Store) (t : Txn) (tree key : Bytes) : SameBuf t (get rd db t tree key).1 := by
  unfold get
  split
  · exact .refl t
  · have hfind := sameBuf_treeFind rd db t tree
    split
    · rename_i heq
      rw [heq] at hfind
      split
      · exact hfind
      · split <;> exact hfind
    · rename_i heq
      rw [heq] at hfind
      exact hfind

theorem sameBuf_estimate (rd : Rd) (db : Store) (t : Txn) (tree : Bytes) : SameBuf t (estimate rd db t tree).1 := by
  unfold estimate
  split
  · exact .refl t
  · have hfind := sameBuf_treeFind rd db t tree
    split
    · rename_i heq
      rw [heq] at hfind
      dsimp only
      split <;> exact hfind
    · rename_i heq
      rw [heq] at hfind
      exact hfind

theorem sameBuf_putRefuses (rd : Rd) (db : Store) (t : Txn) (i : Nat) (tree key : Bytes) (fl : PutFlags) :
    SameBuf t (putRefuses rd db t i tree key fl).1 := by
  unfold putRefuses
  have hget := sameBuf_get rd db t tree key
  split
  · exact .refl t
  · dsimp only
    split
    · exact hget
    · split
      · exact hget
      · split
        · split
          · exact hget
          · split
            · split <;> exact hget
            · exact hget
        · exact hget

theorem sameBuf_cursorOpen (rd : Rd) (db : Store) (t : Txn) (tree : Bytes) : SameBuf t (cursorOpen rd db t tree).1 := by
  unfold cursorOpen
  have hfind := sameBuf_treeFind rd db t tree
  split
  · exact .refl t
  · split
    · rename_i heq
      rw [heq] at hfind
      split <;> exact hfind
    · rename_i heq
      rw [heq] at hfind
      exact hfind

theorem sameBuf_savepoint (db : Store) (t : Txn) : SameBuf t (savepoint db t).1 := by
  unfold savepoint
  split <;> exact ⟨rfl, rfl⟩

theorem sameBuf_markPop (t : Txn) : SameBuf t (markPop t) := by
  unfold markPop
  dsimp only
  split <;> exact ⟨rfl, rfl⟩

theorem sameBuf_releaseSavepoint (t : Txn) : SameBuf t (releaseSavepoint t).1 := by
  unfold releaseSavepoint
  split
  · exact .refl t
  · exact sameBuf_markPop t

/-! ## Changes that end in no spill -/

theorem buf_bufPut (rd : Rd) (db : Store) (t : Txn) (k : IKey) (v : EVal) :
    (bufPut rd db t k v).1.buf = skInsert t.buf ⟨k, .max, v⟩ true ∨
      (bufPut rd db t k v).1.buf = t.buf ∧ (bufPut rd db t k v).2 ≠ .ok := by
  unfold bufPut
  have hnote := sameBuf_undoNote rd db t k
  split
  · rename_i heq
    rw [heq] at hnote
    exact .inl (congrArg (fun b => skInsert b _ true) hnote.1)
  · rename_i hne heq
    rw [heq] at hnote
    exact .inr ⟨hnote.1, hne⟩

theorem adds_catalogSet (rd : Rd) (db : Store) (t : Txn) (name : Bytes) (id : Nat) :
    Adds t.buf (catalogSet rd db t name id).1.buf := by
  rcases buf_bufPut rd db t (catKey name) (if id ≠ 0 then .put (.id64 id) else .del) with h | ⟨h, -⟩
  · exact .inr ⟨_, h⟩
  · exact .inl h

theorem adds_treeCreate (rd : Rd) (db : Store) (t : Txn) (name : Bytes) :
    Adds t.buf (treeCreate rd db t name).1.buf := by
  unfold treeCreate
  have hfind := sameBuf_treeFind rd db t name
  split
  · exact .inl rfl
  split
  · rename_i t₁ i heq
    rw [heq] at hfind
    split
    · exact .inl hfind.1
    · have hnext := (hfind.trans (sameBuf_computeNextId rd db t₁)).1
      generalize computeNextId rd db t₁ = t₂ at hnext
      have hset := adds_catalogSet rd db { t₂ with nextId := t₂.nextId + 1 } name t₂.nextId
      rw [← hnext]
      dsimp only at hset ⊢
      split <;> rename_i heq' <;> rw [heq'] at hset <;> exact hset
  · rename_i heq
    rw [heq] at hfind
    exact .inl hfind.1

theorem adds_treeDrop (rd : Rd) (db : Store) (t : Txn) (name : Bytes) :
    Adds t.buf (treeDrop rd db t name).1.buf := by
  unfold treeDrop
  have hfind := sameBuf_treeFind rd db t name
  split
  · exact .inl rfl
  split
  · rename_i t₁ i heq
    rw [heq] at hfind
    split
    · exact .inl hfind.1
    · have hset := adds_catalogSet rd db t₁ name 0
      rw [hfind.1] at hset
      split <;> rename_i heq' <;> rw [heq'] at hset <;> exact hset
  · rename_i heq
    rw [heq] at hfind
    exact .inl hfind.1

def targetPut (t : Txn) (target : Bytes) (v : EVal) : Skip := skInsert t.buf ⟨catKey target, .max, v⟩ true

theorem adds_treeReplace (rd : Rd) (db : Store) (t : Txn) (target source : Bytes) :
    (treeReplace rd db t target source).1.buf = t.buf ∨
      ∃ v : EVal, v.vn ≤ 8 ∧ Adds (targetPut t target v) (treeReplace rd db t target source).1.buf := by
  unfold treeReplace
  have hfind := sameBuf_treeFind rd db t target
  split
  · exact .inl rfl
  split
  · exact .inl rfl
  split
  · rename_i t₁ ti heq
    rw [heq] at hfind
    have hfind' := hfind.trans (sameBuf_treeFind rd db t₁ source)
    split
    · rename_i t₂ si heq
      rw [heq] at hfind'
      split
      · exact .inl hfind'.1
      · dsimp only
        have hret : SameBuf t (if (t₂.tree ti).id ≠ 0 then { t₂ with retired := t₂.retired ++ [(t₂.tree ti).id] }
            else t₂) := by
          split
          · exact hfind'
          · exact hfind'
        generalize (if (t₂.tree ti).id ≠ 0 then { t₂ with retired := t₂.retired ++ [(t₂.tree ti).id] } else t₂) = t₃
          at hret ⊢
        have hvn : (if (t₃.tree si).id ≠ 0 then EVal.put (.id64 (t₃.tree si).id) else .del).vn ≤ 8 := by
          split
          · exact le_rfl
          · exact Nat.zero_le 8
        have hset := buf_bufPut rd db t₃ (catKey target)
          (if (t₃.tree si).id ≠ 0 then .put (.id64 (t₃.tree si).id) else .del)
        rw [hret.1] at hset
        split
        · rename_i t₄ heq₁
          rw [catalogSet] at heq₁
          rw [heq₁] at hset
          rcases hset with hset | ⟨-, hset⟩
          · refine .inr ⟨_, hvn, ?_⟩
            have hsrc := adds_catalogSet rd db t₄ source 0
            rw [targetPut, ← hset]
            split <;> rename_i heq₂ <;> rw [heq₂] at hsrc <;> exact hsrc
          · exact absurd rfl hset
        · rename_i heq₁
          rw [catalogSet] at heq₁
          rw [heq₁] at hset
          rcases hset with hset | ⟨hset, -⟩
          · exact .inr ⟨_, hvn, .inl hset⟩
          · exact .inl hset
    · rename_i heq
      rw [heq] at hfind'
      exact .inl hfind'.1
  · rename_i heq
    rw [heq] at hfind
    exact .inl hfind.1

theorem adds_cursorPut (rd : Rd) (db : Store) (t : Txn) (c : Cur) (v : Bytes) :
    Adds t.buf (cursorPut rd db t c v).1.buf := by
  unfold cursorPut
  split
  · exact .inl rfl
  split
  · rename_i c₁ heq
    split
    · exact .inl rfl
    · have hnote := sameBuf_undoNote rd db t c₁.at
      split <;> rename_i heq' <;> rw [heq'] at hnote
      · exact .inr ⟨_, congrArg (fun b => skInsert b _ true) hnote.1⟩
      · exact .inl hnote.1
  · exact .inl rfl

theorem adds_cursorDelete (rd : Rd) (db : Store) (t : Txn) (c : Cur) :
    Adds t.buf (cursorDelete rd db t c).1.buf := by
  unfold cursorDelete
  split
  · exact .inl rfl
  split
  · rename_i c₁ heq
    split
    · exact .inl rfl
    · have hnote := sameBuf_undoNote rd db t c₁.at
      split <;> rename_i heq' <;> rw [heq'] at hnote
      · exact .inr ⟨_, congrArg (fun b => skInsert b _ true) hnote.1⟩
      · exact .inl hnote.1
  · exact .inl rfl

/-! ## Changes that end in a spill -/

abbrev Holds {α : Type} (b : Skip) (p : M α) (out : α → Skip) : Prop :=
  Moves exec (fun x y => y.1 = x.1) b p out

theorem Holds.bind {α β : Type} {b : Skip} {p : M α} {out : α → Skip} {f : α → M β} {out' : β → Skip}
    (hp : Holds b p out) (hf : ∀ a, Holds (out a) (f a) out') : Holds b (p >>= f) out' :=
  Moves.bind (fun _ _ _ h h' => h'.trans h) hp hf

theorem Holds.pure {α : Type} {b : Skip} {a : α} {out : α → Skip} (h : out a = b) :
    Holds b (Pure.pure a : M α) out := Moves.pure (fun _ => h)

theorem Holds.ite {α : Type} {b : Skip} {c : Prop} [Decidable c] {p q : M α} {out : α → Skip} (hp : Holds b p out)
    (hq : Holds b q out) : Holds b (if c then p else q) out := Moves.ite (fun _ => hp) (fun _ => hq)

theorem Holds.aside {α : Type} (b : Skip) (p : M α) : Holds b p (fun _ => b) :=
  fun w => wp_any (fun _ _ => rfl) w

theorem holds_runAdd (db : Store) (t : Txn) (b : Builder) : Holds t.buf (runAdd db t b) (·.2.1.buf) := by
  refine .bind (.aside _ _) (fun ⟨db, fm, rc⟩ => ?_)
  cases fm with
  | none | some => exact .pure rfl

theorem holds_spillTurn (db : Store) (t : Txn) (cur : Option (Builder × Nat)) (id : Nat) :
    Holds t.buf (spillTurn db t cur id) (·.2.1.buf) := by
  unfold spillTurn
  cases cur with
  | none => exact .pure rfl
  | some x =>
    obtain ⟨b, tree⟩ := x
    exact .ite (.pure rfl) (.bind (holds_runAdd db t b) (fun _ => .pure rfl))

theorem holds_spillLoop : ∀ (l : List Ent) (db : Store) (t : Txn) (cur : Option (Builder × Nat)),
    Holds t.buf (spillLoop l db t cur) (·.2.1.buf)
  | [], _, _, _ => .pure rfl
  | e :: l, db, t, cur => by
    refine .bind (holds_spillTurn db t cur _) (fun ⟨db, t, cur, rc⟩ => .ite (.pure rfl) ?_)
    refine .bind (.aside _ _) (fun ⟨db, b, tree⟩ => .ite (.pure rfl) ?_)
    refine .bind (.aside _ _) (fun ⟨db, b⟩ => .ite (.pure rfl) ?_)
    exact holds_spillLoop l db t _

theorem holds_spillLast (db : Store) (t : Txn) (cur : Option Builder) (rc : Status) :
    Holds t.buf (spillLast db t cur rc) (·.2.1.buf) := by
  unfold spillLast
  cases cur with
  | none => exact .pure rfl
  | some b =>
    refine .ite (holds_runAdd db t b) ?_
    exact .bind (.aside _ _) (fun _ => .bind (.aside _ _) (fun _ => .pure rfl))

theorem spillBuffer_buf (db : Store) (t : Txn) (ht : Tidy t.buf) (w : World) :
    wp exec (fun _ => True) (spillBuffer db t) (fun r _ => Tidy r.2.1.buf ∧ (r.2.2 = .ok → r.2.1.buf.bytes = 0)) w := by
  unfold spillBuffer
  split
  · rename_i hc
    have hnil : t.buf.ents = [] := List.length_eq_zero_iff.1 (ht.count ▸ hc)
    exact ⟨ht, fun _ => ht.empty hnil⟩
  · rw [wp_bind]
    refine wp_use (holds_spillLoop t.buf.ents db t none w) (fun ⟨db, t₁, cur, rc⟩ w' h => ?_)
    rw [wp_bind]
    refine wp_use (holds_spillLast db t₁ cur rc w') (fun ⟨db, t₂, rc⟩ w'' h' => ?_)
    have hb : t₂.buf = t.buf := Eq.trans h' h
    dsimp only
    split
    · rename_i hrc
      exact ⟨hb ▸ ht, fun h => absurd h hrc⟩
    · exact ⟨tidy_skInit, fun _ => rfl⟩

/-- **A spill test** leaves at most half the cache, or has failed the transaction. -/
theorem maybeSpill_half {db : Store} {t : Txn} (ht : Tidy t.buf) (w : World) :
    wp exec (fun _ => True) (maybeSpill db t) (fun r _ => Tidy r.2.1.buf ∧
      (r.2.2 = .ok ∧ r.2.1.buf.bytes ≤ db.cfg.cacheBytes / 2 ∨ r.2.2 ≠ .ok ∧ r.2.1.failed ≠ .ok)) w := by
  unfold maybeSpill
  split
  · rename_i hle
    exact ⟨ht, .inl ⟨rfl, hle⟩⟩
  · rw [wp_bind]
    refine wp_use (spillBuffer_buf db t ht w) (fun ⟨db', t', rc⟩ w' ⟨ht', hz⟩ => ?_)
    dsimp only at ht' hz ⊢
    split
    · rename_i hrc
      exact ⟨ht', .inr ⟨hrc, hrc⟩⟩
    · rename_i hrc
      refine ⟨ht', .inl ⟨rfl, ?_⟩⟩
      rw [hz (not_not.1 hrc)]
      exact Nat.zero_le _

/-- What a change that may spill comes to: within the bound, and if it answers OK at most half the cache. -/
def Spilt (db : Store) (r : Store × Txn × Status) : Prop :=
  Sound db r.2.1 ∧ (r.2.2 = .ok → r.2.1.buf.bytes ≤ db.cfg.cacheBytes / 2)

theorem maybeSpill_spilt {db : Store} {t : Txn} (ht : Tidy t.buf) (w : World) :
    wp exec (fun _ => True) (maybeSpill db t) (fun r _ => Spilt db r) w := by
  refine wp_use (maybeSpill_half ht w) (fun r w' ⟨ht', h⟩ => ?_)
  rcases h with ⟨hok, hle⟩ | ⟨hne, hf⟩
  · exact ⟨⟨ht', fun _ => .inl hle⟩, fun _ => hle⟩
  · exact ⟨⟨ht', fun h => absurd h hf⟩, fun h => absurd h hne⟩

section
variable {db : Store} {t t' : Txn}

theorem Spilt.refused (h : SameBuf t t') (hs : Sound db t) {db' : Store} {rc : Status} (hrc : rc ≠ .ok) :
    Spilt db (db', t', rc) := ⟨h.sound hs, fun h => absurd h hrc⟩

theorem txnSet_spilt (rd : Rd) (ht : Tidy t.buf) (i : Nat) (key : Bytes) (v : EVal) (w : World) :
    wp exec (fun _ => True) (txnSet rd db t i key v) (fun r _ => Spilt db r) w := by
  unfold txnSet
  have hput := buf_bufPut rd db t ⟨(t.tree i).id, key⟩ v
  split
  · rename_i t₁ heq
    rw [heq] at hput
    rcases hput with hput | ⟨-, hne⟩
    · have ht₁ : Tidy (t₁.touch i).buf := (congrArg Tidy hput).mpr (ht.skInsert _)
      exact maybeSpill_spilt ht₁ w
    · exact absurd rfl hne
  · rename_i t₁ rc hne heq
    rw [heq] at hput
    have ht₁ : Tidy t₁.buf := by
      rcases hput with hput | ⟨hput, -⟩
      · exact (congrArg Tidy hput).mpr (ht.skInsert _)
      · exact (congrArg Tidy hput).mpr ht
    exact ⟨⟨ht₁, fun h => absurd h hne⟩, fun h => absurd h hne⟩

theorem put_spilt (hs : Sound db t) (tree key value : Bytes) (fl : PutFlags) (w : World) :
    wp exec (fun _ => True) (put db t tree key value fl) (fun r _ => Spilt db r) w := by
  unfold put
  split
  · exact Spilt.refused (.refl t) hs ‹_›
  split
  · exact Spilt.refused (.refl t) hs (by decide)
  rw [wp_bind]
  refine wp_any (fun rd w' => ?_) w
  have hfind := sameBuf_treeFind rd db t tree
  generalize treeFind rd db t tree = r at hfind ⊢
  obtain ⟨t₁, rc, i⟩ := r
  dsimp only at hfind ⊢
  split
  · exact Spilt.refused hfind hs ‹_›
  split
  · exact Spilt.refused hfind hs (by decide)
  have href := hfind.trans (sameBuf_putRefuses rd db t₁ i tree key fl)
  generalize putRefuses rd db t₁ i tree key fl = r at href ⊢
  obtain ⟨t₂, rc'⟩ := r
  dsimp only at href ⊢
  split
  · exact Spilt.refused href hs ‹_›
  · exact txnSet_spilt rd (href.sound hs).tidy i key _ w'

theorem del_spilt (hs : Sound db t) (tree key : Bytes) (w : World) :
    wp exec (fun _ => True) (del db t tree key) (fun r _ => Spilt db r) w := by
  unfold del
  split
  · exact Spilt.refused (.refl t) hs ‹_›
  split
  · exact Spilt.refused (.refl t) hs (by decide)
  rw [wp_bind]
  refine wp_any (fun rd w' => ?_) w
  have hfind := sameBuf_treeFind rd db t tree
  generalize treeFind rd db t tree = r at hfind ⊢
  obtain ⟨t₁, rc, i⟩ := r
  dsimp only at hfind ⊢
  split
  · exact Spilt.refused hfind hs ‹_›
  split
  · exact Spilt.refused hfind hs (by decide)
  have hget := hfind.trans (sameBuf_get rd db t₁ tree key)
  generalize get rd db t₁ tree key = r at hget ⊢
  obtain ⟨t₂, rc', v⟩ := r
  dsimp only at hget ⊢
  split
  · exact Spilt.refused hget hs ‹_›
  · exact txnSet_spilt rd (hget.sound hs).tidy i key _ w'

theorem tidy_undoBack (l : List UndoEnt) (ht : Tidy t.buf) : Tidy (undoBack t l).buf := by
  unfold undoBack
  generalize l.reverse = l
  induction l generalizing t with
  | nil => exact ht
  | cons u l ih =>
    rw [List.foldl_cons]
    exact ih (ht.skInsert _)

theorem rollbackSavepoint_spilt (hs : Sound db t) (w : World) :
    wp exec (fun _ => True) (rollbackSavepoint db t) (fun r _ => Spilt db r) w := by
  unfold rollbackSavepoint
  split
  · exact Spilt.refused (.refl t) hs ‹_›
  split
  · exact Spilt.refused (.refl t) hs (by decide)
  split
  · exact Spilt.refused (sameBuf_markPop t) hs (by decide)
  split
  · exact Spilt.refused (.refl t) hs (by decide)
  · refine maybeSpill_spilt ?_ w
    rw [(sameBuf_markPop _).1]
    exact tidy_undoBack _ hs.tidy

end

end Lsm
end Gbasic
