import Gbasic.HashJoinBuild
import Gbasic.Refusal
import Gbasic.SqlSetOp
import Mathlib.Logic.Relation
/-!
# SqlRecursive — the rows of a WITH RECURSIVE query, round by round

The anchor's rows are the first round's, and each round after it runs the step over what the round before added, until
one adds nothing (`recursiveRows`).  UNION drops a row whose key was kept in any round.  CYCLE gives a row its route,
what it watches of each row from the anchor's down, and a row that closes a cycle is answered and goes no further.  The
two queries are cursors, the step's given the rows that it reads; rows held are read back as they were written.
-/
namespace Gbasic
namespace Recursive

open Key (serialize SER_ARRAY keyAppend component leGet_one)
open SetOp (Bytes Row keyItems)
open HashJoin (Run Table keyHash slotsTo slotsTo_mem keyOf_append keyOf_last keyOf_mem keyOf_inj exists_slot)
open OpenHash (find_held find_fresh)
open List (append_nil nil_append append_assoc mem_append_left mem_append_right mem_append mem_cons_self mem_cons_of_mem
  mem_singleton_self mem_map_of_mem forall_mem_nil forall_mem_cons forall_mem_append map_append length_append Forall₂)

/-- What ends the statement: a query's own refusal, a row that does not hold its columns, a value without a key, and the
limits of memory and of rounds. -/
inductive Refused where
  | query (e : HashJoin.Errno)
  | columns | keyless | grew | rounds
  deriving DecidableEq

def Refused.code : Refused → HashJoin.Errno
  | .query e => e
  | .columns => .misuse
  | _ => .expression

/-- `rec_all`, `rec_ncols`, and the columns that CYCLE watches, none without it. -/
structure Plan where
  all : Bool
  ncols : Nat
  cycle : List Nat

def Plan.Distinct (p : Plan) : Prop := p.all = false ∧ p.cycle = []

structure Full where
  row : Row
  marked : Bool
  route : List Row
  deriving DecidableEq

variable {r : Run (Option Full × Row)}

/-- `rec_limit` and `rec_bytes`, and what a row held costs. -/
structure Cfg where
  recLimit : Nat
  recBytes : Nat
  cost : Full → Nat

/-! ## Keys -/

/-- What has no key is refused. -/
def keyed (items : Row) : Except Refused Bytes :=
  match keyItems [] items with
  | .ok key => .ok key
  | .error _ => .error .keyless

structure RecSeen where
  keys : List Bytes
  map : OpenHash.Map

def recFirst (s : RecSeen) (items : Row) : Except Refused (Bool × RecSeen) :=
  if 1024 < items.length then .error .columns
  else do
    let key ← keyed items
    let (map, g) := OpenHash.find keyHash (Table.keyOf s.keys) s.map key 0
    if g ≠ 0 then .ok (false, ⟨s.keys, map⟩)
    else
      let keys := s.keys ++ [key]
      .ok (true, ⟨keys, (OpenHash.find keyHash (Table.keyOf keys) map key keys.length).1⟩)

/-! ## CYCLE -/

/-- What CYCLE watches of a row. -/
def Plan.watched (p : Plan) (row : Row) : Row := p.cycle.map (fun i => row.getD i [])

def onRoute (mine : Bytes) : List Row → Except Refused Bool
  | [] => .ok false
  | el :: route => do
    let theirs ← keyed el
    if theirs = mine then .ok true else onRoute mine route

def cycleRow (p : Plan) (row : Row) (parent : Option Full) : Except Refused Full :=
  if p.cycle = [] then .ok ⟨row, false, []⟩
  else if row.length ≠ p.ncols then .error .columns
  else do
    let mine ← keyed (p.watched row)
    let route := (parent.map Full.route).getD []
    let marked ← onRoute mine route
    .ok ⟨row, marked, route ++ [p.watched row]⟩

def arrayBytes (items : Row) : Bytes := byte SER_ARRAY :: (uleb items.length ++ items.flatten)

def element : Row → Bytes
  | [v] => v
  | vs => arrayBytes vs

/-- The columns of a full row. -/
def Full.items (p : Plan) (f : Full) : Row :=
  if p.cycle = [] then f.row else f.row ++ [serialize (.bool f.marked), arrayBytes (f.route.map element)]

/-! ## Rounds -/

/-- What is answered so far, what the next round reads, the keys kept, and the memory that rows take. -/
structure St where
  all : List Full
  next : List Full
  seen : RecSeen
  held : Nat

def isFirst (p : Plan) (seen : RecSeen) (f : Full) : Except Refused (Bool × RecSeen) :=
  if p.all then .ok (true, seen) else recFirst seen (f.items p)

def addRow (p : Plan) (q : Cfg) (s : St) (x : Option Full × Row) : Except Refused St := do
  let f ← cycleRow p x.2 x.1
  let (first, seen) ← isFirst p s.seen f
  if first = false then .ok { s with seen := seen }
  else
    let s : St := if f.marked then ⟨s.all ++ [f], s.next, seen, s.held + q.cost f⟩
      else ⟨s.all ++ [f], s.next ++ [f], seen, s.held + q.cost f + q.cost f⟩
    if q.recBytes < s.held then .error .grew else .ok s

def addRows (p : Plan) (q : Cfg) : List (Option Full × Row) → St → Except Refused St
  | [], s => .ok s
  | x :: xs, s => do
    let s ← addRow p q s x
    addRows p q xs s

def round (p : Plan) (q : Cfg) (c : Run (Option Full × Row)) (s : St) : Except Refused St := do
  let s ← addRows p q c.rows s
  match c.refused with
  | some e => .error (.query e)
  | none => .ok s

def costs (q : Cfg) (l : List Full) : Nat := (l.map q.cost).sum

def rounds (p : Plan) (q : Cfg) (step : List Full → Run (Option Full × Row)) : Nat → List Full → St →
    Except Refused (List Full)
  | _, [], s => .ok s.all
  | 0, w :: work, s => do
    let s ← round p q (step (w :: work)) s
    if s.next = [] then .ok s.all else .error .rounds
  | k + 1, w :: work, s => do
    let s ← round p q (step (w :: work)) s
    -- the copies that the round read are dropped
    rounds p q step k s.next ⟨s.all, [], s.seen, s.held - costs q (w :: work)⟩

def recursiveRows (p : Plan) (q : Cfg) (anchor : Run Row) (step : List Full → Run (Option Full × Row)) :
    Except Refused (List Full) := do
  let s ← round p q ⟨anchor.rows.map (fun row => (none, row)), anchor.refused⟩ ⟨[], [], ⟨[], ⟨[], 0⟩⟩, 0⟩
  rounds p q step q.recLimit s.next ⟨s.all, [], s.seen, s.held⟩

theorem round_ok {p : Plan} {q : Cfg} {s t : St} (h : round p q r s = .ok t) :
    r.refused = none ∧ addRows p q r.rows s = .ok t := by
  obtain ⟨u, hu, hend⟩ := bind_ok.1 h
  rcases he : r.refused with _ | e
  · rw [he] at hend
    exact ⟨rfl, by rw [hu]; exact hend⟩
  · rw [he] at hend
    cases hend

/-! ## Keys kept -/

structure RecSeen.Ok (s : RecSeen) : Prop where
  map : s.map.Ok keyHash (Table.keyOf s.keys) (slotsTo s.keys.length)
  nodup : s.keys.Nodup

variable {p : Plan} {q : Cfg} {anchor : Run Row} {step : List Full → Run (Option Full × Row)}

/-- **A row is first where its key was not kept**, and its key is kept then. -/
theorem recFirst_eq {s : RecSeen} (h : s.Ok) {items : Row} {key : Bytes} (hlen : items.length ≤ 1024)
    (hkey : keyed items = .ok key) : ∃ s' : RecSeen, s'.Ok ∧ recFirst s items = .ok (decide (key ∉ s.keys), s') ∧
      s'.keys = if key ∈ s.keys then s.keys else s.keys ++ [key] := by
  rw [recFirst, if_neg (by omega), hkey]
  by_cases hmem : key ∈ s.keys
  · obtain ⟨n, hn, rfl⟩ := exists_slot hmem
    obtain ⟨hfound, hok⟩ := find_held h.map (fun s' hs' t ht he => keyOf_inj h.nodup hs' ht he) hn 0
    have hn0 : n ≠ 0 := by have := slotsTo_mem.1 hn; omega
    refine ⟨⟨s.keys, (OpenHash.find keyHash (Table.keyOf s.keys) s.map (Table.keyOf s.keys n) 0).1⟩, ⟨hok, h.nodup⟩, ?_,
      (if_pos hmem).symm⟩
    simp [bind, Except.bind, hfound, hn0, hmem]
  · have hno : ∀ n ∈ slotsTo s.keys.length, Table.keyOf s.keys n ≠ key := fun n hn he => hmem (he ▸ keyOf_mem hn)
    obtain ⟨hzero, hok⟩ := find_fresh h.map hno (fun h0 : (0 : Nat) ≠ 0 => absurd rfl h0)
    rw [if_neg (not_not.2 rfl)] at hok
    have hkeep : ∀ n ∈ slotsTo s.keys.length, Table.keyOf (s.keys ++ [key]) n = Table.keyOf s.keys n := fun n hn =>
      keyOf_append hn
    obtain ⟨-, hput⟩ := find_fresh (hok.congr hkeep) (fun n hn => by rw [hkeep n hn]; exact hno n hn)
      (fun _ : (s.keys ++ [key]).length ≠ 0 => by rw [length_append]; exact keyOf_last s.keys key)
    have hslots : slotsTo (s.keys ++ [key]).length = (s.keys ++ [key]).length :: slotsTo s.keys.length := by
      rw [length_append]
      rfl
    rw [if_pos (by simp), ← hslots] at hput
    refine ⟨⟨s.keys ++ [key], _⟩, ⟨hput, List.nodup_append_comm.1 (List.nodup_cons.2 ⟨hmem, h.nodup⟩)⟩, ?_,
      (if_neg hmem).symm⟩
    simp [bind, Except.bind, hzero, hmem]

/-! ## UNION -/

/-- What a row of the query leads to by the step, of a step that reads one row of the round before for each row it
gives: each is led to from a row it was given, and what a row that it was given leads to is given, or a row of that
key. -/
structure Linear (step : List Full → Run (Option Full × Row)) (D : Row → Row → Prop) : Prop where
  sound : ∀ work, ∀ x ∈ (step work).rows, ∃ f ∈ work, D f.row x.2
  complete : ∀ work, (step work).refused = none → ∀ f ∈ work, ∀ r, D f.row r → ∃ x ∈ (step work).rows,
  keyed x.2 = keyed r

/-- The rows that the anchor's lead to. -/
def Reached (anchor : Run Row) (D : Row → Row → Prop) (r : Row) : Prop := ∃ a ∈ anchor.rows, Relation.ReflTransGen D a r

def St.Has (s : St) (r : Row) : Prop := ∃ key ∈ s.seen.keys, keyed r = .ok key

/-- Between two rows of a round. -/
structure St.Kept (s : St) (R : Row → Prop) : Prop where
  ok : s.seen.Ok
  keys : s.all.map (fun f => keyed f.row) = s.seen.keys.map .ok
  reached : ∀ f ∈ s.all, R f.row

theorem St.Kept.has {s : St} {R : Row → Prop} (h : s.Kept R) {r : Row} :
    s.Has r ↔ ∃ f ∈ s.all, keyed f.row = keyed r := by
  have hmem : ∀ y, y ∈ s.all.map (fun f => keyed f.row) ↔ y ∈ s.seen.keys.map Except.ok := fun y => by rw [h.keys]
  constructor
  · rintro ⟨key, hk, hr⟩
    obtain ⟨f, hf, he⟩ := List.mem_map.1 ((hmem _).2 (mem_map_of_mem hk))
    exact ⟨f, hf, he.trans hr.symm⟩
  · rintro ⟨f, hf, he⟩
    obtain ⟨key, hk, hr⟩ := List.mem_map.1 ((hmem _).1 (mem_map_of_mem hf))
    exact ⟨key, hk, he.symm.trans hr.symm⟩

structure Adds (q : Cfg) (R : Row → Prop) (s t : St) (l : List Full) : Prop where
  kept : t.Kept R
  has : ∀ r, s.Has r → t.Has r
  all : t.all = s.all ++ l
  next : t.next = s.next ++ l
  held : t.held = s.held + 2 * costs q l

variable {R : Row → Prop} {D : Row → Row → Prop} {s t : St} {old work l : List Full} {rows : List Full} {c : Nat}

/-- **A row of a round is dropped where its key was kept, and added where not**, if there is memory. -/
theorem addRow_adds (hp : p.Distinct) (h : s.Kept R) {x : Option Full × Row} (hx : R x.2)
    {key : Bytes} (hlen : x.2.length ≤ 1024) (hkey : keyed x.2 = .ok key) :
    ∃ t l, Adds q R s t l ∧ t.Has x.2 ∧ (addRow p q s x = .ok t ∨ q.recBytes < t.held ∧
      addRow p q s x = .error .grew) := by
  obtain ⟨seen, hok, hfirst, hkeys⟩ := recFirst_eq h.ok hlen hkey
  obtain ⟨f, hf⟩ : ∃ f : Full, f = ⟨x.2, false, []⟩ := ⟨_, rfl⟩
  have hadd : addRow p q s x = if decide (key ∉ s.seen.keys) = false then .ok { s with seen := seen }
      else if q.recBytes < s.held + q.cost f + q.cost f then .error .grew
      else .ok ⟨s.all ++ [f], s.next ++ [f], seen, s.held + q.cost f + q.cost f⟩ := by
    simp [addRow, cycleRow, hp.2, isFirst, hp.1, Full.items, hfirst, bind, Except.bind, hf]
  have hrow : f.row = x.2 := by rw [hf]
  by_cases hmem : key ∈ s.seen.keys
  · rw [if_pos hmem] at hkeys
    refine ⟨{ s with seen := seen }, [], ⟨⟨hok, by rw [hkeys]; exact h.keys, h.reached⟩,
      fun r ⟨k, hk, hr⟩ => ⟨k, ?_, hr⟩, (append_nil _).symm, (append_nil _).symm, rfl⟩, ⟨key, ?_, hkey⟩, Or.inl ?_⟩
    · rw [hkeys]
      exact hk
    · rw [hkeys]
      exact hmem
    · rw [hadd, if_pos (by simp [hmem])]
  · rw [if_neg hmem] at hkeys
    refine ⟨⟨s.all ++ [f], s.next ++ [f], seen, s.held + q.cost f + q.cost f⟩, [f], ⟨⟨hok, ?_, ?_⟩, fun r ⟨k, hk, hr⟩ =>
      ⟨k, ?_, hr⟩, rfl, rfl, by simp [costs]; omega⟩, ⟨key, ?_, hkey⟩, ?_⟩
    · rw [hkeys, map_append, map_append, h.keys, List.map_singleton, hrow, hkey]
      rfl
    · exact forall_mem_append.2 ⟨h.reached, List.forall_mem_singleton.2 (by rw [hrow]; exact hx)⟩
    · rw [hkeys]
      exact mem_append_left _ hk
    · rw [hkeys]
      exact mem_append_right _ (mem_singleton_self _)
    · rw [hadd, if_neg (by simp [hmem])]
      by_cases hlt : q.recBytes < s.held + q.cost f + q.cost f
      · exact Or.inr ⟨hlt, if_pos hlt⟩
      · exact Or.inl (if_neg hlt)

theorem addRows_adds (hp : p.Distinct) : ∀ (xs : List (Option Full × Row)) {s : St}, s.Kept R →
    (∀ x ∈ xs, R x.2 ∧ x.2.length ≤ 1024 ∧ ∃ key, keyed x.2 = .ok key) → ∃ t l, Adds q R s t l ∧
      ((∀ x ∈ xs, t.Has x.2) ∧ addRows p q xs s = .ok t ∨ q.recBytes < t.held ∧ addRows p q xs s = .error .grew)
  | [], s, h, _ => ⟨s, [], ⟨h, fun _ hr => hr, (append_nil _).symm, (append_nil _).symm, rfl⟩,
    Or.inl ⟨forall_mem_nil _, rfl⟩⟩
  | x :: xs, s, h, hxs => by
    obtain ⟨hx, hxs⟩ := forall_mem_cons.1 hxs
    obtain ⟨hR, hlen, key, hkey⟩ := hx
    obtain ⟨t, l, ht, hhas, hok | ⟨hlt, herr⟩⟩ := addRow_adds (q := q) hp h hR hlen hkey
    · obtain ⟨u, m, hu, hend⟩ := addRows_adds hp xs ht.kept hxs
      have hadds : Adds q R s u (l ++ m) := ⟨hu.kept, fun r hr => hu.has r (ht.has r hr),
        by rw [hu.all, ht.all, append_assoc],
        by rw [hu.next, ht.next, append_assoc], by rw [hu.held, ht.held]; simp [costs]; omega⟩
      refine ⟨u, l ++ m, hadds, ?_⟩
      rw [addRows, hok]
      exact hend.imp_left (fun ⟨hall', he⟩ => ⟨forall_mem_cons.2 ⟨hu.has _ hhas, hall'⟩, he⟩)
    · exact ⟨t, l, ht, Or.inr ⟨hlt, by rw [addRows, herr]; rfl⟩⟩

theorem addRows_keyed (hp : p.Distinct) : ∀ {xs : List (Option Full × Row)} {s t : St},
    addRows p q xs s = .ok t → ∀ x ∈ xs, x.2.length ≤ 1024 ∧ ∃ key, keyed x.2 = .ok key
  | [], _, _, _ => forall_mem_nil _
  | x :: xs, s, t, h => by
    obtain ⟨u, hu, hxs⟩ := bind_ok.1 h
    refine forall_mem_cons.2 ⟨?_, addRows_keyed hp hxs⟩
    simp only [addRow, cycleRow, if_pos hp.2, isFirst, hp.1, Full.items, Bool.false_eq_true, if_false, bind_ok] at hu
    obtain ⟨f, hf, ⟨first, seen⟩, hfirst, -⟩ := hu
    rw [← Except.ok.inj hf, recFirst] at hfirst
    by_cases hlong : 1024 < x.2.length
    · rw [if_pos hlong] at hfirst
      cases hfirst
    · rw [if_neg hlong] at hfirst
      obtain ⟨key, hkey, -⟩ := bind_ok.1 hfirst
      exact ⟨by omega, key, hkey⟩

structure St.Going (s : St) (anchor : Run Row) (D : Row → Row → Prop) (old work : List Full) : Prop where
  kept : s.Kept (Reached anchor D)
  all : s.all = old ++ work
  next : s.next = []
  anchors : ∀ a ∈ anchor.rows, s.Has a
  closed : ∀ f ∈ old, ∀ r, D f.row r → s.Has r

theorem Linear.reached (hlin : Linear step D) (h : ∀ f ∈ work, Reached anchor D f.row) :
    ∀ x ∈ (step work).rows, Reached anchor D x.2 := by
  intro x hx
  obtain ⟨f, hf, hd⟩ := hlin.sound work x hx
  obtain ⟨a, ha, hr⟩ := h f hf
  exact ⟨a, ha, hr.tail hd⟩

/-- **What a recursive query answers**: rows that are reached, no two of one key, the anchor's and what any of them
leads to among them. -/
structure Answer (anchor : Run Row) (D : Row → Row → Prop) (rows : List Full) : Prop where
  reached : ∀ f ∈ rows, Reached anchor D f.row
  apart : rows.Pairwise (fun f g => keyed f.row ≠ keyed g.row)
  anchors : ∀ a ∈ anchor.rows, ∃ f ∈ rows, keyed f.row = keyed a
  closed : ∀ f ∈ rows, ∀ r, D f.row r → ∃ g ∈ rows, keyed g.row = keyed r

theorem St.Going.answer (h : s.Going anchor D old []) : Answer anchor D s.all where
  reached := h.kept.reached
  apart := by
    have hn : (s.all.map (fun f => keyed f.row)).Nodup := by
      rw [h.kept.keys]
      exact h.kept.ok.nodup.map (fun a b he => Except.ok.inj he)
    exact List.pairwise_map.1 hn
  anchors a ha := h.kept.has.1 (h.anchors a ha)
  closed f hf r hr := h.kept.has.1 (h.closed f (by rw [h.all, append_nil] at hf; exact hf) r hr)

theorem Answer.covers (h : Answer anchor D rows)
    (hkeys : ∀ a b r, keyed a = keyed b → D a r → ∃ r', D b r' ∧ keyed r' = keyed r) {r : Row}
    (hr : Reached anchor D r) :
    ∃ f ∈ rows, keyed f.row = keyed r := by
  obtain ⟨a, ha, hr⟩ := hr
  induction hr with
  | refl => exact h.anchors a ha
  | tail _ hd ih =>
    obtain ⟨f, hf, he⟩ := ih
    obtain ⟨r', hd', he'⟩ := hkeys _ _ _ he.symm hd
    obtain ⟨g, hg, heg⟩ := h.closed f hf r' hd'
    exact ⟨g, hg, heg.trans he'⟩

theorem round_adds (hp : p.Distinct) (h : s.Kept R) (hR : ∀ x ∈ r.rows, R x.2) (hr : round p q r s = .ok t) :
    r.refused = none ∧ (∀ x ∈ r.rows, t.Has x.2) ∧ ∃ l, Adds q R s t l := by
  obtain ⟨href, hu⟩ := round_ok hr
  obtain ⟨v, l, hadd, ⟨hhas, hok⟩ | ⟨-, herr⟩⟩ := addRows_adds (q := q) hp r.rows h
    (fun x hx => ⟨hR x hx, addRows_keyed hp hu x hx⟩)
  · obtain rfl := Except.ok.inj (hu.symm.trans hok)
    exact ⟨href, hhas, l, hadd⟩
  · rw [herr] at hu
    cases hu

/-- **A round goes on from what the round before added.** -/
theorem St.Going.round (hp : p.Distinct) (hlin : Linear step D) (h : s.Going anchor D old work)
    (hr : round p q (step work) s = .ok t) (m : Nat) : St.Going ⟨t.all, [], t.seen, m⟩ anchor D
    (old ++ work) t.next := by
  have hreach : ∀ x ∈ (step work).rows, Reached anchor D x.2 := hlin.reached (fun f hf =>
    h.kept.reached f (by rw [h.all]; exact mem_append_right _ hf))
  obtain ⟨href, hhas, l, hadd⟩ := round_adds hp h.kept hreach hr
  refine ⟨⟨hadd.kept.ok, hadd.kept.keys, hadd.kept.reached⟩, ?_, rfl, fun a ha => hadd.has a (h.anchors a ha),
    fun f hf r hr => ?_⟩
  · rw [hadd.next, h.next, nil_append, ← h.all]
    exact hadd.all
  · rcases mem_append.1 hf with hf | hf
    · exact hadd.has r (h.closed f hf r hr)
    · obtain ⟨x, hx, he⟩ := hlin.complete work href f hf r hr
      obtain ⟨key, hk, hkey⟩ := hhas x hx
      exact ⟨key, hk, he.symm.trans hkey⟩

theorem rounds_answer (hp : p.Distinct) (hlin : Linear step D) :
    ∀ (k : Nat) {work old : List Full} {s : St}, s.Going anchor D old work → rounds p q step k work s = .ok rows →
      Answer anchor D rows
  | k, [], old, s, h, hr => by
    rw [rounds] at hr
    rw [← Except.ok.inj hr]
    exact h.answer
  | 0, w :: work, old, s, h, hr => by
    obtain ⟨t, ht, hend⟩ := bind_ok.1 hr
    by_cases hnext : t.next = []
    · have hgo := h.round hp hlin ht t.held
      rw [if_pos hnext] at hend
      rw [hnext] at hgo
      rw [← Except.ok.inj hend]
      exact hgo.answer
    · rw [if_neg hnext] at hend
      cases hend
  | k + 1, w :: work, old, s, h, hr => by
    obtain ⟨t, ht, hend⟩ := bind_ok.1 hr
    exact rounds_answer hp hlin k (h.round hp hlin ht _) hend

theorem start_going (hp : p.Distinct) (h : round p q ⟨anchor.rows.map (fun row => (none, row)), anchor.refused⟩ ⟨[], [],
      ⟨[], ⟨[], 0⟩⟩, 0⟩ = .ok t) :
    anchor.refused = none ∧ St.Going ⟨t.all, [], t.seen, t.held⟩ anchor D [] t.next := by
  have hstart : St.Kept ⟨[], [], ⟨[], ⟨[], 0⟩⟩, 0⟩ (Reached anchor D) :=
    ⟨⟨OpenHash.ok_empty, List.nodup_nil⟩, rfl, forall_mem_nil _⟩
  obtain ⟨href, hhas, l, hadd⟩ := round_adds hp hstart
    (List.forall_mem_map.2 (fun a ha => ⟨a, ha, Relation.ReflTransGen.refl⟩)) h
  refine ⟨href, ⟨hadd.kept.ok, hadd.kept.keys, hadd.kept.reached⟩, ?_, rfl, fun a ha => hhas _ (mem_map_of_mem ha),
    forall_mem_nil _⟩
  rw [hadd.next]
  exact hadd.all

/-- **UNION answers the least fixpoint, each row once.**  What a recursive query answers without CYCLE is reached from
the anchor's rows, has no two rows of one key, and has the anchor's rows and whatever the step gives of any row in it;
so its keys are those of every row that is reached, where rows of one key lead to rows of one key. -/
theorem union_fixpoint (hp : p.Distinct) (hlin : Linear step D)
    (h : recursiveRows p q anchor step = .ok rows) : Answer anchor D rows ∧
      ((∀ a b r, keyed a = keyed b → D a r → ∃ r', D b r' ∧ keyed r' = keyed r) →
        ∀ r, Reached anchor D r → ∃ f ∈ rows, keyed f.row = keyed r) := by
  obtain ⟨t, ht, hend⟩ := bind_ok.1 h
  have ha := rounds_answer hp hlin _ (start_going hp ht).2 hend
  exact ⟨ha, fun hkeys r hr => ha.covers hkeys hr⟩

/-- A step from each truth value to the other. -/
def other (row : Row) : Row := if row = [serialize (.bool true)] then [serialize (.bool false)] else
    [serialize (.bool true)]

def turn (work : List Full) : Run (Option Full × Row) := ⟨work.map (fun f => (some f, other f.row)), none⟩

def isTrue : Run Row := ⟨[[serialize (.bool true)]], none⟩

def small : Cfg := ⟨2, 4, fun _ => 1⟩

theorem turn_linear : Linear turn (fun a r => r = other a) where
  sound work x hx := by
    obtain ⟨f, hf, rfl⟩ := List.mem_map.1 hx
    exact ⟨f, hf, rfl⟩
  complete work _ f hf r hr := ⟨(some f, other f.row), mem_map_of_mem hf, by rw [hr]⟩

theorem union_fixpoint_turn : ∃ rows, recursiveRows ⟨false, 1, []⟩ small isTrue turn = .ok rows ∧
    Answer isTrue (fun a r => r = other a) rows :=
  have h : recursiveRows ⟨false, 1, []⟩ small isTrue turn =
      .ok [⟨[serialize (.bool true)], false, []⟩, ⟨[serialize (.bool false)], false, []⟩] := by decide +kernel
  ⟨_, h, (union_fixpoint ⟨rfl, rfl⟩ turn_linear h).1⟩

/-! ## It ends -/

/-- Rows that are finitely many by key, and fit. -/
structure Fits (q : Cfg) (R : Row → Prop) (K : List Bytes) (c : Nat) : Prop where
  keys : ∀ r, R r → r.length ≤ 1024 ∧ ∃ key ∈ K, keyed r = .ok key
  cost : ∀ f : Full, R f.row → q.cost f ≤ c
  bytes : 2 * (c * K.length) ≤ q.recBytes

variable {K : List Bytes}

theorem Fits.length_le (hf : Fits q R K c) (h : s.Kept R) : s.all.length ≤ K.length := by
  have hlen : s.all.length = s.seen.keys.length := by
    have := congrArg List.length h.keys
    rwa [List.length_map, List.length_map] at this
  have hsub : s.seen.keys ⊆ K := by
    intro key hk
    obtain ⟨f, hfa, he⟩ : ∃ f ∈ s.all, keyed f.row = .ok key := List.mem_map.1 (by rw [h.keys]; exact mem_map_of_mem hk)
    obtain ⟨-, key', hk', he'⟩ := hf.keys f.row (h.reached f hfa)
    exact Except.ok.inj (he.symm.trans he') ▸ hk'
  rw [hlen]
  exact (h.ok.nodup.subperm hsub).length_le

theorem Fits.held (hf : Fits q R K c) (hadd : Adds q R s t l) (h : s.held ≤ 2 * (c * s.all.length)) :
    t.held ≤ 2 * (c * t.all.length) := by
  have hl : costs q l ≤ l.length * c := by
    rw [costs, ← List.length_map q.cost]
    refine List.sum_le_card_nsmul _ _ (List.forall_mem_map.2 (fun f hfl => hf.cost f (hadd.kept.reached f ?_)))
    rw [hadd.all]
    exact mem_append_right _ hfl
  rw [hadd.held, hadd.all, length_append, Nat.mul_add, Nat.mul_comm c l.length]
  omega

theorem Fits.runs (hp : p.Distinct) (hf : Fits q R K c) (h : s.Kept R) (hR : ∀ x ∈ r.rows, R x.2)
    (href : r.refused = none) (hheld : s.held ≤ 2 * (c * s.all.length)) :
    ∃ t, round p q r s = .ok t ∧ t.held ≤ 2 * (c * t.all.length) := by
  obtain ⟨t, l, hadd, ⟨-, hok⟩ | ⟨hlt, -⟩⟩ := addRows_adds (q := q) hp r.rows h
    (fun x hx => ⟨hR x hx, (hf.keys x.2 (hR x hx)).imp_right (fun ⟨key, _, he⟩ => ⟨key, he⟩)⟩)
  · refine ⟨t, ?_, hf.held hadd hheld⟩
    rw [round, hok, href]
    rfl
  · have h1 := hf.held hadd hheld
    have h2 := Nat.mul_le_mul_left c (hf.length_le hadd.kept)
    have h3 := hf.bytes
    omega

/-- **Rounds end** before there are more of them than keys. -/
theorem rounds_end (hp : p.Distinct) (hlin : Linear step D) (hf : Fits q (Reached anchor D) K c)
    (hstep : ∀ work, (∀ f ∈ work, Reached anchor D f.row) → (step work).refused = none) :
    ∀ (k : Nat) {work old : List Full} {s : St}, s.Going anchor D old work → s.held ≤ 2 * (c * s.all.length) →
      (work ≠ [] → K.length ≤ k + s.all.length) → ∃ rows, rounds p q step k work s = .ok rows
  | k, [], old, s, _, _, _ => ⟨s.all, by rw [rounds]⟩
  | k, w :: work, old, s, h, hheld, hk => by
    have hwork : ∀ f ∈ w :: work, Reached anchor D f.row := fun f hfw => h.kept.reached f (by
      rw [h.all]; exact mem_append_right _ hfw)
    obtain ⟨t, ht, hroom⟩ := hf.runs hp h.kept (hlin.reached hwork) (hstep _ hwork) hheld
    obtain ⟨-, -, l, hadd⟩ := round_adds hp h.kept (hlin.reached hwork) ht
    have hgo := h.round hp hlin ht
    have hlen : t.all.length = s.all.length + t.next.length := by
      rw [hadd.all, length_append, hadd.next, h.next, nil_append]
    have hmax := hf.length_le hadd.kept
    have hmin := hk (List.cons_ne_nil _ _)
    cases k with
    | zero =>
      have hnext : t.next = [] := List.eq_nil_of_length_eq_zero (by omega)
      exact ⟨t.all, by rw [rounds, ht]; exact if_pos hnext⟩
    | succ k =>
      obtain ⟨rows, hrows⟩ := rounds_end hp hlin hf hstep k (hgo (t.held - costs q (w :: work)))
        (Nat.le_trans (Nat.sub_le _ _) hroom) (fun hne => by have := List.length_pos_iff.2 hne; dsimp only; omega)
      exact ⟨rows, by rw [rounds, ht]; exact hrows⟩

/-- **A recursion over finitely many rows ends**: where the rows reached have no more keys than the limit of rounds has
rounds, and fit in memory, UNION answers them. -/
theorem union_ends (hp : p.Distinct) (hlin : Linear step D)
    (hf : Fits q (Reached anchor D) K c) (hrounds : K.length ≤ q.recLimit + 1) (hanchor : anchor.refused = none)
    (hstep : ∀ work, (∀ f ∈ work, Reached anchor D f.row) → (step work).refused = none) :
    ∃ rows, recursiveRows p q anchor step = .ok rows ∧ Answer anchor D rows := by
  have hstart : St.Kept ⟨[], [], ⟨[], ⟨[], 0⟩⟩, 0⟩ (Reached anchor D) :=
    ⟨⟨OpenHash.ok_empty, List.nodup_nil⟩, rfl, forall_mem_nil _⟩
  obtain ⟨t, ht, hheld⟩ := hf.runs (r := ⟨anchor.rows.map (fun row => (none, row)), anchor.refused⟩) hp hstart
    (List.forall_mem_map.2 (fun a ha => ⟨a, ha, Relation.ReflTransGen.refl⟩)) hanchor (Nat.zero_le _)
  have hgo := (start_going (D := D) hp ht).2
  obtain ⟨rows, hrows⟩ := rounds_end hp hlin hf hstep q.recLimit hgo hheld (fun hne => by
    have := List.length_pos_iff.2 hne
    have := congrArg List.length hgo.all
    rw [nil_append] at this
    dsimp only at this ⊢
    omega)
  refine ⟨rows, ?_, rounds_answer hp hlin _ hgo hrows⟩
  rw [recursiveRows, ht]
  exact hrows

theorem union_ends_turn : ∃ rows, recursiveRows ⟨false, 1, []⟩ small isTrue turn = .ok rows ∧
    Answer isTrue (fun a r => r = other a) rows := by
  have hreach : ∀ r, Reached isTrue (fun a r => r = other a) r → r = [serialize (.bool true)] ∨
      r = [serialize (.bool false)] := by
    rintro r ⟨a, ha, hr⟩
    induction hr with
    | refl => exact Or.inl (List.mem_singleton.1 ha)
    | tail _ hd _ =>
      rw [hd, other]
      split
      · exact Or.inr rfl
      · exact Or.inl rfl
  refine union_ends (K := [[byte 16, byte 1], [byte 16, byte 0]]) (c := 1) ⟨rfl, rfl⟩ turn_linear ⟨fun r hr => ?_,
    fun _ _ => Nat.le_refl _, by decide⟩ (by decide) rfl (fun _ _ => rfl)
  rcases hreach r hr with rfl | rfl
  · exact ⟨by decide, _, mem_cons_self .., by decide +kernel⟩
  · exact ⟨by decide, _, mem_cons_of_mem _ (mem_singleton_self _), by decide +kernel⟩

/-! ## UNION ALL -/

def Made (p : Plan) (xs : List (Option Full × Row)) (fs : List Full) :
    Prop := Forall₂ (fun x f => cycleRow p x.2 x.1 = .ok f) xs fs

/-- Rows that close no cycle. -/
def onward (fs : List Full) : List Full := fs.filter (fun f => !f.marked)

/-- The rows of the rounds after the first: each runs the step over the rows of the round before that close no cycle. -/
inductive Runs (p : Plan) (step : List Full → Run (Option Full × Row)) : List Full → List (List Full) → Prop
  | done : Runs p step [] []
  | more {work fs : List Full} {rest : List (List Full)} : work ≠ [] → (step work).refused = none →
      Made p (step work).rows fs →
      Runs p step (onward fs) rest → Runs p step work (fs :: rest)

theorem addRows_all (hall : p.all = true) : ∀ {xs : List (Option Full × Row)} {s t : St}, addRows p q xs s = .ok t →
    ∃ fs, Made p xs fs ∧ t.all = s.all ++ fs ∧
      t.next = s.next ++ onward fs
  | [], s, t, h => by
    obtain rfl := Except.ok.inj h
    exact ⟨[], .nil, (append_nil _).symm, (append_nil _).symm⟩
  | x :: xs, s, t, h => by
    obtain ⟨u, hu, hxs⟩ := bind_ok.1 h
    obtain ⟨fs, hfs, hall', hnext⟩ := addRows_all hall hxs
    obtain ⟨f, hf, hu⟩ := bind_ok.1 hu
    obtain ⟨⟨first, seen⟩, hfirst, hu⟩ := bind_ok.1 hu
    obtain ⟨rfl, rfl⟩ : first = true ∧ seen = s.seen := by
      rw [isFirst, hall] at hfirst
      exact Prod.mk.inj (Except.ok.inj hfirst).symm
    have hadd : u.all = s.all ++ [f] ∧ u.next = s.next ++ onward [f] := by
      cases hm : f.marked <;> simp [hm] at hu <;> split at hu <;> cases hu <;> simp [hm, onward]
    refine ⟨f :: fs, .cons hf hfs, ?_, ?_⟩
    · rw [hall', hadd.1, append_assoc]
      rfl
    · rw [hnext, hadd.2, append_assoc, onward, onward, ← List.filter_append]
      rfl

theorem round_all (hall : p.all = true) (h : round p q r s = .ok t) : r.refused = none ∧
    ∃ fs, Made p r.rows fs ∧ t.all = s.all ++ fs ∧
      t.next = s.next ++ onward fs := by
  obtain ⟨href, hadd⟩ := round_ok h
  exact ⟨href, addRows_all hall hadd⟩

theorem rounds_runs (hall : p.all = true) : ∀ (k : Nat) {work : List Full} {s : St}, s.next = [] →
    rounds p q step k work s = .ok rows → ∃ rest, Runs p step work rest ∧ rows = s.all ++ rest.flatten ∧
    rest.length ≤ k + 1
  | k, [], s, _, h => by
    rw [rounds] at h
    exact ⟨[], .done, by rw [← Except.ok.inj h]; simp, Nat.zero_le _⟩
  | 0, w :: work, s, hs, h => by
    obtain ⟨t, ht, hend⟩ := bind_ok.1 h
    obtain ⟨href, fs, hfs, hall', hnext⟩ := round_all hall ht
    rw [hs, nil_append] at hnext
    by_cases ht0 : t.next = []
    · rw [if_pos ht0] at hend
      exact ⟨[fs], .more (List.cons_ne_nil _ _) href hfs (by rw [← hnext, ht0]; exact .done),
        by rw [← Except.ok.inj hend, hall']; simp, Nat.le_refl _⟩
    · rw [if_neg ht0] at hend
      cases hend
  | k + 1, w :: work, s, hs, h => by
    obtain ⟨t, ht, hend⟩ := bind_ok.1 h
    obtain ⟨href, fs, hfs, hall', hnext⟩ := round_all hall ht
    rw [hs, nil_append] at hnext
    obtain ⟨rest, hrest, hrows, hlen⟩ := rounds_runs hall k rfl hend
    rw [hnext] at hrest
    exact ⟨fs :: rest, .more (List.cons_ne_nil _ _) href hfs hrest, by rw [hrows, hall']; simp, by simp; omega⟩

/-- **UNION ALL answers its rounds**, one after another and every row of each, and no more rounds than the limit. -/
theorem all_rounds (hall : p.all = true) (h : recursiveRows p q anchor step = .ok rows) : anchor.refused = none ∧
    ∃ first rest, Forall₂ (fun row f => cycleRow p row none = .ok f) anchor.rows first ∧
      Runs p step (onward first) rest ∧ rows = first ++ rest.flatten ∧ rest.length ≤ q.recLimit + 1 := by
  obtain ⟨t, ht, hend⟩ := bind_ok.1 h
  obtain ⟨href, first, hfirst, hall', hnext⟩ := round_all hall ht
  obtain ⟨rest, hrest, hrows, hlen⟩ := rounds_runs hall _ rfl hend
  exact ⟨href, first, rest, List.forall₂_map_left_iff.1 hfirst,
    by rw [← nil_append (onward first), ← hnext]; exact hrest, by rw [hrows, hall']; rfl, hlen⟩

theorem turn_cycle : recursiveRows ⟨true, 1, [0]⟩ small isTrue turn = .ok
    [⟨[serialize (.bool true)], false, [[serialize (.bool true)]]⟩,
    ⟨[serialize (.bool false)], false, [[serialize (.bool true)], [serialize (.bool false)]]⟩,
    ⟨[serialize (.bool true)], true,
      [[serialize (.bool true)], [serialize (.bool false)], [serialize (.bool true)]]⟩] := by decide +kernel

theorem all_rounds_turn : ∃ rows, recursiveRows ⟨true, 1, [0]⟩ small isTrue turn = .ok rows ∧ ∃ first rest,
    Runs ⟨true, 1, [0]⟩ turn (onward first) rest ∧ rows = first ++ rest.flatten ∧ rest.length ≤ 3 := by
  obtain ⟨-, first, rest, -, hruns, hrows, hlen⟩ := all_rounds rfl turn_cycle
  exact ⟨_, turn_cycle, first, rest, hruns, hrows, hlen⟩

/-! ## Chains -/

/-- A row that is answered, and the rows that it was derived from, the anchor's first. -/
inductive Chain (p : Plan) (anchor : Run Row) (step : List Full → Run (Option Full × Row)) : List Row → Full → Prop
  | anchor {row : Row} {f : Full} : row ∈ anchor.rows → cycleRow p row none = .ok f → Chain p anchor step [row] f
  | step {rs : List Row} {work : List Full} {g f : Full} {row : Row} :
      Chain p anchor step rs g → g.marked = false → g ∈ work →
      (some g, row) ∈ (step work).rows → cycleRow p row (some g) = .ok f → Chain p anchor step (rs ++ [row]) f

theorem mem_of_forall₂ {α β : Type} {R : α → β → Prop} : ∀ {l : List α} {m : List β}, Forall₂ R l m →
    ∀ b ∈ m, ∃ a ∈ l, R a b
  | _, _, .nil => forall_mem_nil _
  | _, _, .cons h hs => forall_mem_cons.2 ⟨⟨_, mem_cons_self .., h⟩, fun b hb =>
    (mem_of_forall₂ hs b hb).imp (fun _ ha => ⟨mem_cons_of_mem _ ha.1, ha.2⟩)⟩

theorem Runs.chains (hparent : ∀ work, ∀ x ∈ (step work).rows, ∃ g ∈ work, x.1 = some g) {rest : List (List Full)}
    (h : Runs p step work rest) (hwork : ∀ g ∈ work, g.marked = false ∧ ∃ rs, Chain p anchor step rs g) :
    ∀ f ∈ rest.flatten, ∃ rs, Chain p anchor step rs f := by
  induction h with
  | done => exact forall_mem_nil _
  | @more work fs rest _ _ hfs _ ih =>
    have hnew : ∀ f ∈ fs, ∃ rs, Chain p anchor step rs f := fun f hf => by
      obtain ⟨⟨o, row⟩, hx, hf⟩ := mem_of_forall₂ hfs f hf
      obtain ⟨g, hg, rfl⟩ := hparent work _ hx
      obtain ⟨hm, rs, hrs⟩ := hwork g hg
      exact ⟨rs ++ [row], .step hrs hm hg hx hf⟩
    refine forall_mem_append.2 ⟨hnew, ih (fun g hg => ?_)⟩
    obtain ⟨hgf, hm⟩ := List.mem_filter.1 hg
    exact ⟨by simpa using hm, hnew g hgf⟩

theorem onRoute_iff {mine : Bytes} : ∀ {route : List Row} {b : Bool}, onRoute mine route = .ok b →
    (b = true ↔ ∃ el ∈ route, keyed el = .ok mine)
  | [], b, h => by
    obtain rfl := Except.ok.inj h
    simp
  | el :: route, b, h => by
    obtain ⟨theirs, hel, h⟩ := bind_ok.1 h
    by_cases he : theirs = mine
    · rw [if_pos he] at h
      obtain rfl := Except.ok.inj h
      exact iff_of_true rfl ⟨el, mem_cons_self .., by rw [hel, he]⟩
    · rw [if_neg he] at h
      rw [onRoute_iff h, List.exists_mem_cons_iff, hel]
      simp [he]

theorem cycleRow_ok (hcycle : p.cycle ≠ []) {row : Row} {parent : Option Full} {f : Full}
    (h : cycleRow p row parent = .ok f) : f.row = row ∧ f.route = (parent.map Full.route).getD [] ++ [p.watched row] ∧
      (f.marked = true ↔ ∃ el ∈ (parent.map Full.route).getD [], keyed el = keyed (p.watched row)) := by
  rw [cycleRow, if_neg hcycle] at h
  split at h
  · cases h
  · obtain ⟨mine, hmine, h⟩ := bind_ok.1 h
    obtain ⟨m, hm, h⟩ := bind_ok.1 h
    rw [← Except.ok.inj h, hmine]
    exact ⟨rfl, rfl, onRoute_iff hm⟩

/-- **A row's route is what CYCLE watches of the rows it was derived from**, and it is marked just where an earlier
one's is its own. -/
theorem Chain.route (hcycle : p.cycle ≠ []) {rs : List Row} {f : Full} (h : Chain p anchor step rs f) :
    rs.getLast? = some f.row ∧ f.route = rs.map p.watched ∧
      (f.marked = true ↔ ∃ r ∈ rs.dropLast, keyed (p.watched r) = keyed (p.watched f.row)) := by
  induction h with
  | anchor _ hf =>
    obtain ⟨rfl, hroute, hm⟩ := cycleRow_ok hcycle hf
    exact ⟨rfl, hroute, by rw [hm]; simp⟩
  | step _ _ _ _ hf ih =>
    obtain ⟨rfl, hroute, hm⟩ := cycleRow_ok hcycle hf
    rw [Option.map_some, Option.getD_some, ih.2.1] at hroute hm
    exact ⟨by simp, by rw [hroute, map_append]; rfl, by rw [hm, List.dropLast_concat]; simp⟩

/-- **CYCLE marks what closes a cycle.**  Every row answered was derived from an anchor's row by rows that are not
marked; its route is what is watched of them and of itself, and it is marked just where an earlier one's is its own. -/
theorem cycle_marks (hall : p.all = true) (hcycle : p.cycle ≠ [])
    (hparent : ∀ work, ∀ x ∈ (step work).rows, ∃ g ∈ work, x.1 = some g)
    (h : recursiveRows p q anchor step = .ok rows) :
    ∀ f ∈ rows, ∃ rs, Chain p anchor step rs f ∧ rs.getLast? = some f.row ∧ f.route = rs.map p.watched ∧
      (f.marked = true ↔ ∃ r ∈ rs.dropLast, keyed (p.watched r) = keyed (p.watched f.row)) := by
  obtain ⟨t, ht, hend⟩ := bind_ok.1 h
  obtain ⟨-, first, hfirst, hall', hnext⟩ := round_all hall ht
  obtain ⟨rest, hrest, rfl, -⟩ := rounds_runs hall _ rfl hend
  have hanchor : ∀ f ∈ first, ∃ rs, Chain p anchor step rs f := fun f hf => by
    obtain ⟨row, hrow, hf⟩ := mem_of_forall₂ (List.forall₂_map_left_iff.1 hfirst) f hf
    exact ⟨[row], .anchor hrow hf⟩
  have hchains : ∀ f ∈ rest.flatten, ∃ rs, Chain p anchor step rs f := hrest.chains hparent (fun g hg => by
    rw [hnext, nil_append] at hg
    obtain ⟨hgf, hm⟩ := List.mem_filter.1 hg
    exact ⟨by simpa using hm, hanchor g hgf⟩)
  intro f hf
  rw [hall', nil_append] at hf
  obtain ⟨rs, hrs⟩ := (mem_append.1 hf).elim (hanchor f) (hchains f)
  exact ⟨rs, hrs, hrs.route hcycle⟩

theorem cycle_marks_turn : ∃ rows, recursiveRows ⟨true, 1, [0]⟩ small isTrue turn = .ok rows ∧ rows.length = 3 ∧
    ∀ f ∈ rows, ∃ rs, Chain ⟨true, 1, [0]⟩ isTrue turn rs f ∧ f.route.length = rs.length := by
  refine ⟨_, turn_cycle, rfl, fun f hf => ?_⟩
  obtain ⟨rs, hrs, -, hroute, -⟩ := cycle_marks rfl (by decide) (fun work x hx => by
    obtain ⟨g, hg, rfl⟩ := List.mem_map.1 hx
    exact ⟨g, hg, rfl⟩) turn_cycle f hf
  exact ⟨rs, hrs, by rw [hroute, List.length_map]⟩

theorem keyItems_array {l : Bytes} : ∀ {items : Row} (key : Bytes), byte SER_ARRAY :: l ∈ items → ∃ e,
    keyItems key items = .error e
  | [], _, h => by cases h
  | v :: vs, key, h => by
    rw [keyItems]
    rcases List.mem_cons.1 h with rfl | h
    · rw [show keyAppend key (byte SER_ARRAY :: l) ⟨false, false⟩ = (.notIndexable, key, 0) by
        rw [keyAppend, component, leGet_one]
        rfl]
      exact ⟨_, rfl⟩
    · split
      · exact keyItems_array _ h
      · exact ⟨_, rfl⟩

/-- **UNION with CYCLE answers no row**: a row's key would have its route, an array, which has none. -/
theorem union_cycle_refused (hall : p.all = false) (hcycle : p.cycle ≠ []) (hrows : anchor.rows ≠ []) :
    ∃ e, recursiveRows p q anchor step = .error e := by
  obtain ⟨row, more, hmore⟩ := List.exists_cons_of_ne_nil hrows
  rcases h : recursiveRows p q anchor step with e | rows
  · exact ⟨e, rfl⟩
  · obtain ⟨t, ht, -⟩ := bind_ok.1 h
    have hadds := (round_ok ht).2
    rw [hmore, List.map_cons] at hadds
    obtain ⟨u, hu, -⟩ := bind_ok.1 hadds
    obtain ⟨f, -, hu⟩ := bind_ok.1 hu
    obtain ⟨b, hb, -⟩ := bind_ok.1 hu
    have hitems : ∃ e, keyItems [] (f.items p) = .error e := by
      rw [Full.items, if_neg hcycle]
      exact keyItems_array [] (mem_append_right _ (mem_cons_of_mem _ (mem_singleton_self _)))
    obtain ⟨e, he⟩ := hitems
    simp only [isFirst, hall, Bool.false_eq_true, if_false, recFirst, keyed, he] at hb
    split at hb <;> cases hb

theorem union_cycle_refused_turn : ∃ e, recursiveRows ⟨false, 1, [0]⟩ small isTrue turn = .error e :=
  union_cycle_refused rfl (by decide) (by decide)

end Recursive
end Gbasic
