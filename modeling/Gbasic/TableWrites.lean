import Gbasic.TableRow
/-!
# TableWrites — what the writes of a row operation do

The indexes of a table have trees of their own (`Table.Ok`), so writes to them in turn succeed exactly when each would
alone (`inTurn_ok`), and leave every other tree as it was (`inTurn_same`).  An entry is put where there is room, and
taken out where it is present.
-/
namespace Gbasic
namespace Gsql

open Lsm (Status GS_MAX_KEY)
open Engine (Trees Bytes Room Present Vacant)
open Engine (Tree put_room set_of_ne set_self)

variable {t : Trees} {e : Entry} {x : Index} {tb : Table} {rowkey : Bytes}

/-- What a table's record says: no more columns than a record has, and indexes with ids of their own. -/
structure Table.Ok (tb : Table) : Prop where
  cols : tb.cols.length ≤ MAX_ITEMS
  ids : ∀ x ∈ tb.idx, x.id < 2 ^ 64
  distinct : (tb.idx.map Index.id).Nodup

/-! ## The trees' names -/

@[simp] theorem length_treeName (letter : Char) (id : Nat) : (treeName letter id).length = 10 := by
  simp [treeName]

theorem treeName_short (letter : Char) (id : Nat) : (treeName letter id).length ≤ GS_MAX_KEY := by
  rw [length_treeName]
  decide

theorem Index.tree_short (x : Index) : x.tree.length ≤ GS_MAX_KEY := treeName_short 'i' x.id

theorem Table.rowsTree_short (tb : Table) : tb.rowsTree.length ≤ GS_MAX_KEY := treeName_short 'r' tb.id

theorem Table.serialTree_short (tb : Table) : tb.serialTree.length ≤ GS_MAX_KEY := treeName_short 'q' tb.id

theorem treeName_inj {letter : Char} {i j : Nat} (hi : i < 2 ^ 64) (hj : j < 2 ^ 64)
    (h : treeName letter i = treeName letter j) : i = j := by
  simp only [treeName, List.cons.injEq, true_and] at h
  exact bePut_injective (w := 8) hi hj h

theorem rowsTree_ne_tree (tb : Table) (x : Index) : tb.rowsTree ≠ x.tree := by
  intro h
  simp only [Table.rowsTree, Index.tree, treeName, List.cons.injEq] at h
  exact absurd h.2.1 (by decide)

theorem META_short : META.length ≤ GS_MAX_KEY := by decide

theorem META_ne_treeName (letter : Char) (id : Nat) : META ≠ treeName letter id := by
  intro h
  have hlen := congrArg List.length h
  rw [length_treeName] at hlen
  exact absurd hlen (by decide)

theorem META_ne_tree (x : Index) : META ≠ x.tree := META_ne_treeName 'i' x.id

theorem Table.Ok.trees (h : tb.Ok) : (tb.idx.map Index.tree).Nodup := by
  have hids := h.distinct
  have hmap : ∀ idx : List Index, (∀ x ∈ idx, x.id < 2 ^ 64) → (idx.map Index.id).Nodup →
      (idx.map Index.tree).Nodup := by
    intro idx
    induction idx with
    | nil => intro _ _; exact List.nodup_nil
    | cons x idx ih =>
      intro hlt hnd
      rw [List.map_cons, List.nodup_cons] at hnd ⊢
      refine ⟨fun hmem => ?_, ih (fun y hy => hlt y (List.mem_cons_of_mem _ hy)) hnd.2⟩
      obtain ⟨y, hy, he⟩ := List.mem_map.1 hmem
      have hid : y.id = x.id :=
        treeName_inj (hlt y (List.mem_cons_of_mem _ hy)) (hlt x (List.mem_cons_self ..)) he
      exact hnd.1 (List.mem_map.2 ⟨y, hy, hid⟩)
  exact hmap tb.idx h.ids hids

/-! ## Writes in turn, each to a tree of its own -/

section
variable {ε : Type} {f : Trees → ε → Except Error Unit × Trees} {tree : ε → Bytes} {P : Trees → ε → Prop}

/-- A write that succeeds where a condition on its own tree holds, and leaves the other trees as they were. -/
structure Writes (f : Trees → ε → Except Error Unit × Trees) (tree : ε → Bytes) (P : Trees → ε → Prop) : Prop where
  ok : ∀ t a, (f t a).1 = .ok () ↔ P t a
  same : ∀ t a n, n ≠ tree a → (f t a).2 n = t n
  own : ∀ t t' a, t (tree a) = t' (tree a) → (P t a ↔ P t' a)

theorem inTurn_cons_ok {a : ε} (h : (f t a).1 = .ok ()) (as : List ε) :
    inTurn f t (a :: as) = inTurn f (f t a).2 as := by
  rcases hf : f t a with ⟨_ | ⟨⟩, t'⟩
  · rw [hf] at h
    cases h
  · rw [inTurn, hf]

theorem inTurn_cons_error {a : ε} {e : Error} (h : (f t a).1 = .error e) (as : List ε) :
    inTurn f t (a :: as) = (.error e, (f t a).2) := by
  rcases hf : f t a with ⟨_ | ⟨⟩, t'⟩
  · rw [hf] at h
    cases h
    rw [inTurn, hf]
  · rw [hf] at h
    cases h

theorem inTurn_same (hw : Writes f tree P) : ∀ (as : List ε) (t : Trees) (n : Bytes), n ∉ as.map tree →
    (inTurn f t as).2 n = t n
  | [], _, _, _ => rfl
  | a :: as, t, n, hn => by
    rw [List.map_cons, List.mem_cons, not_or] at hn
    rcases hf : (f t a).1 with e | ⟨⟩
    · rw [inTurn_cons_error hf]
      exact hw.same t a n hn.1
    · rw [inTurn_cons_ok hf, inTurn_same hw as _ n hn.2]
      exact hw.same t a n hn.1

/-- **In turn they succeed when each would alone.** -/
theorem inTurn_ok (hw : Writes f tree P) : ∀ (as : List ε) (t : Trees), (as.map tree).Nodup →
    ((inTurn f t as).1 = .ok () ↔ ∀ a ∈ as, P t a)
  | [], t, _ => by
    constructor
    · intro _ a ha
      cases ha
    · intro _
      rfl
  | a :: as, t, hnd => by
    rw [List.map_cons, List.nodup_cons] at hnd
    rcases hf : (f t a).1 with e | ⟨⟩
    · rw [inTurn_cons_error hf]
      constructor
      · intro h
        cases h
      · intro h
        have hok := (hw.ok t a).2 (h a (List.mem_cons_self ..))
        rw [hf] at hok
        cases hok
    · have hown : ∀ b ∈ as, (P (f t a).2 b ↔ P t b) := by
        intro b hb
        refine hw.own _ _ b (hw.same t a _ (fun he => hnd.1 ?_))
        exact he ▸ List.mem_map_of_mem hb
      rw [inTurn_cons_ok hf, inTurn_ok hw as _ hnd.2, List.forall_mem_cons]
      constructor
      · intro h
        exact ⟨(hw.ok t a).1 hf, fun b hb => (hown b hb).1 (h b hb)⟩
      · rintro ⟨-, h⟩ b hb
        exact (hown b hb).2 (h b hb)

theorem inTurn_tree {g : ε → Option Tree → Option Tree} (hw : Writes f tree P)
    (hg : ∀ t a, P t a → (f t a).2 (tree a) = g a (t (tree a))) : ∀ (as : List ε) (t : Trees), (as.map tree).Nodup →
    (∀ a ∈ as, P t a) → ∀ a ∈ as, (inTurn f t as).2 (tree a) = g a (t (tree a))
  | [], _, _, _, _, ha => by cases ha
  | b :: as, t, hnd, hP, a, ha => by
    rw [List.map_cons, List.nodup_cons] at hnd
    have hb : P t b := hP b (List.mem_cons_self ..)
    have hne : ∀ c ∈ as, tree c ≠ tree b := by
      intro c hc he
      exact hnd.1 (he ▸ List.mem_map_of_mem hc)
    rw [inTurn_cons_ok ((hw.ok t b).2 hb)]
    rcases List.mem_cons.1 ha with rfl | ha
    · rw [inTurn_same hw as _ _ hnd.1]
      exact hg t a hb
    · have hsame : ∀ c ∈ as, (f t b).2 (tree c) = t (tree c) := fun c hc => hw.same t b _ (hne c hc)
      rw [inTurn_tree hw hg as _ hnd.2 (fun c hc => ?_) a ha, hsame a ha]
      exact (hw.own _ _ c (hsame c hc)).2 (hP c (List.mem_cons_of_mem _ hc))

end

/-! ## One entry -/

theorem putEntry_ok : (putEntry t x e rowkey).1 = .ok () ↔ Room t x.tree e.key := by
  have hn := x.tree_short
  by_cases h : Room t x.tree e.key
  · obtain ⟨hk, hsome⟩ := h
    obtain ⟨m, hm⟩ := Option.isSome_iff_exists.1 hsome
    rw [putEntry, put_room hn hk hm]
    exact ⟨fun _ => ⟨hk, hsome⟩, fun _ => rfl⟩
  · obtain ⟨rc, hrc, hput⟩ := Engine.put_refused hn h (if e.uniqueForm then rowkey else [])
    rw [putEntry, hput]
    constructor
    · intro hok
      cases rc <;> first | exact absurd rfl hrc | cases hok
    · intro hroom
      exact absurd hroom h

theorem putEntry_tree {m : Tree} (hk : e.key.length ≤ GS_MAX_KEY) (hm : t x.tree = some m) :
    putEntry t x e rowkey = (.ok (), t.set x.tree (some (m.put e.key (if e.uniqueForm then rowkey else [])))) := by
  rw [putEntry, put_room x.tree_short hk hm]

theorem putEntry_refused (h : ¬ Room t x.tree e.key) (rowkey : Bytes) : (putEntry t x e rowkey).2 = t := by
  obtain ⟨rc, hrc, hput⟩ := Engine.put_refused x.tree_short h (if e.uniqueForm then rowkey else [])
  rw [putEntry, hput]
  cases rc <;> rfl

theorem putEntry_same {n : Bytes} (hne : n ≠ x.tree) : (putEntry t x e rowkey).2 n = t n := by
  by_cases h : Room t x.tree e.key
  · obtain ⟨m, hm⟩ := Option.isSome_iff_exists.1 h.2
    rw [putEntry_tree h.1 hm]
    exact set_of_ne t hne _
  · rw [putEntry_refused h]

theorem delEntry_tree {m : Tree} (hk : e.key.length ≤ GS_MAX_KEY) (hm : t x.tree = some m)
    (hg : (m.get e.key).isSome) : delEntry t tb x e = (.ok (), t.set x.tree (some (m.del e.key))) := by
  rw [delEntry, Engine.del_present x.tree_short hk hm hg]

theorem delEntry_refused (tb : Table) (h : ¬ Present t x.tree e.key) :
    (delEntry t tb x e).2 = t ∧ ∃ err, (delEntry t tb x e).1 = .error err := by
  obtain ⟨rc, hrc, hdel⟩ := Engine.del_refused x.tree_short h
  rw [delEntry, hdel]
  cases rc <;> first | exact absurd rfl hrc | exact ⟨rfl, _, rfl⟩

theorem delEntry_ok : (delEntry t tb x e).1 = .ok () ↔ Present t x.tree e.key := by
  by_cases h : Present t x.tree e.key
  · obtain ⟨hk, m, hm, hg⟩ := h
    rw [delEntry_tree hk hm hg]
    exact ⟨fun _ => ⟨hk, m, hm, hg⟩, fun _ => rfl⟩
  · obtain ⟨-, err, herr⟩ := delEntry_refused tb h
    rw [herr]
    constructor
    · intro hok
      cases hok
    · intro hp
      exact absurd hp h

theorem delEntry_same {n : Bytes} (hne : n ≠ x.tree) : (delEntry t tb x e).2 n = t n := by
  by_cases h : Present t x.tree e.key
  · obtain ⟨hk, m, hm, hg⟩ := h
    rw [delEntry_tree hk hm hg]
    exact set_of_ne t hne _
  · rw [(delEntry_refused tb h).1]

theorem room_own {t' : Trees} {tree key : Bytes} (h : t tree = t' tree) : Room t tree key ↔ Room t' tree key := by
  unfold Room
  rw [h]

theorem present_own {t' : Trees} {tree key : Bytes} (h : t tree = t' tree) :
    Present t tree key ↔ Present t' tree key := by
  unfold Present
  rw [h]

theorem put_writes (rowkey : Bytes) : Writes (fun t (p : Index × Entry) => putEntry t p.1 p.2 rowkey)
    (fun p => p.1.tree) (fun t p => Room t p.1.tree p.2.key) where
  ok _ _ := putEntry_ok
  same _ _ _ hn := putEntry_same hn
  own _ _ _ h := room_own h

theorem del_writes (tb : Table) : Writes (fun t (p : Index × Entry) => delEntry t tb p.1 p.2)
    (fun p => p.1.tree) (fun t p => Present t p.1.tree p.2.key) where
  ok _ _ := delEntry_ok
  same _ _ _ hn := delEntry_same hn
  own _ _ _ h := present_own h

/-- What an update asks of an index: nothing where the row stays and its entry too; else the old entry is there and the
new one fits. -/
def ChangeFits (moved : Bool) (t : Trees) (c : Change) : Prop :=
  (moved = false ∧ c.old = c.new) ∨ (Present t c.index.tree c.old.key ∧ c.new.key.length ≤ GS_MAX_KEY)

theorem change_writes (tb : Table) (moved : Bool) (k : Bytes) :
    Writes (changeEntry tb moved k) (fun c => c.index.tree) (ChangeFits moved) where
  ok t c := by
    unfold changeEntry ChangeFits
    by_cases hskip : moved = false ∧ c.old = c.new
    · rw [if_pos (by simpa using hskip)]
      exact ⟨fun _ => .inl hskip, fun _ => rfl⟩
    rw [if_neg (by simpa using hskip)]
    by_cases hp : Present t c.index.tree c.old.key
    · obtain ⟨hk, m, hm, hg⟩ := hp
      rw [delEntry_tree hk hm hg]
      dsimp only
      rw [putEntry_ok]
      constructor
      · intro hroom
        exact .inr ⟨⟨hk, m, hm, hg⟩, hroom.1⟩
      · rintro (h | ⟨-, h⟩)
        · exact absurd h hskip
        · exact ⟨h, by rw [set_self]; rfl⟩
    · obtain ⟨-, err, herr⟩ := delEntry_refused tb hp
      rcases hd : delEntry t tb c.index c.old with ⟨r, t'⟩
      rw [hd] at herr
      dsimp only at herr ⊢
      subst herr
      constructor
      · intro h
        cases h
      · rintro (h | ⟨h, -⟩)
        · exact absurd h hskip
        · exact absurd h hp
  same t c n hn := by
    unfold changeEntry
    split_ifs
    · rfl
    have hdel : (delEntry t tb c.index c.old).2 n = t n := delEntry_same hn
    rcases hd : delEntry t tb c.index c.old with ⟨_ | ⟨⟩, t'⟩
    · rw [hd] at hdel
      exact hdel
    · rw [hd] at hdel
      dsimp only
      rw [putEntry_same hn]
      exact hdel
  own t t' c h := by
    unfold ChangeFits
    rw [present_own h]

/-! ## What each leaves in its tree -/

theorem putEntry_leaves (p : Index × Entry) (h : Room t p.1.tree p.2.key) : (putEntry t p.1 p.2 rowkey).2 p.1.tree =
      (t p.1.tree).map (fun i => i.put p.2.key (if p.2.uniqueForm then rowkey else [])) := by
  obtain ⟨i, hi⟩ := Option.isSome_iff_exists.1 h.2
  rw [putEntry_tree h.1 hi, hi]
  exact set_self ..

theorem delEntry_leaves (p : Index × Entry) (h : Present t p.1.tree p.2.key) :
    (delEntry t tb p.1 p.2).2 p.1.tree = (t p.1.tree).map (fun i => i.del p.2.key) := by
  obtain ⟨hk, i, hi, hg⟩ := h
  rw [delEntry_tree hk hi hg, hi]
  exact set_self ..

def changedTree (moved : Bool) (k : Bytes) (c : Change) (i : Option Tree) : Option Tree :=
  if moved = false ∧ c.old = c.new then i
  else i.map (fun i => (i.del c.old.key).put c.new.key (if c.new.uniqueForm then k else []))

theorem changeEntry_leaves {moved : Bool} {k : Bytes} (c : Change) (h : ChangeFits moved t c) :
    (changeEntry tb moved k t c).2 c.index.tree = changedTree moved k c (t c.index.tree) := by
  unfold changeEntry changedTree
  by_cases hskip : moved = false ∧ c.old = c.new
  · rw [if_pos (by simpa using hskip), if_pos hskip]
  · rw [if_neg (by simpa using hskip), if_neg hskip]
    rcases h with h | ⟨⟨hk, i, hi, hg⟩, hnew⟩
    · exact absurd h hskip
    · rw [delEntry_tree hk hi hg]
      dsimp only
      rw [putEntry_tree hnew (set_self ..), hi]
      exact set_self ..

end Gsql
end Gbasic
