import Gbasic.ValueEqual
/-!
# ValueEqualSame — where equality is one relation

A value that is neither an array nor a record is compared by what it stands for (`leafOf`), so the deep comparison is an
equivalence as far as records let it be: a record is found equal to itself just where the first field of a name is what
every field of that name is, so where records have no name twice.  The operator and the deep comparison differ on two
kinds, durations and times of day.
-/
namespace Gbasic
namespace Same

open Eval (CString DateTime RegexFlags)
open List (forall_mem_cons mem_cons_self mem_cons_of_mem mem_map)

/-! ## Leaves -/

inductive Leaf where
  | null
  | unknown
  | number (d : Double)
  | string (s : Bytes)
  | bool (b : Bool)
  | datetime (dt : DateTime)
  | duration (d : Eval.Duration)
  | money (m : Eval.MoneyValue)
  | file (path : CString)
  | dir (path : CString)
  | handle (k : Handle) (id : Nat)
  | function (name : CString) (library : Option CString)
  | regex (pattern flags : Bytes)
  | watcher (id : Nat)

def leafOf : Value → Option Leaf
  | .null => some .null
  | .unknown => some .unknown
  | .number n => some (.number (key n))
  | .string s => some (.string s)
  | .bool b => some (.bool b)
  | .array _ _ => none
  | .record _ => none
  | .datetime dt => some (.datetime dt)
  | .duration d => some (.duration d)
  | .money m => some (.money m)
  | .file p => some (.file p)
  | .dir p => some (.dir p)
  | .handle k id => some (.handle k id)
  | .function n l => some (.function n l)
  | .regex p f => some (.regex p f.text)
  | .watcher id => some (.watcher id)

theorem isNan_iff (d : Double) : d.isNan = true ↔ d = .nan := by simp [Double.isNan]

theorem numberIsNan_iff (n : Eval.Number) : numberIsNan n = true ↔ key n = .nan := by
  cases n with
  | exact n => simp [numberIsNan, key]
  | inexact b => exact isNan_iff _

theorem toInt_bounds (n : BitVec 64) : -2 ^ 63 ≤ n.toInt ∧ n.toInt < 2 ^ 63 := by
  have h₁ := BitVec.le_toInt n
  have h₂ := BitVec.toInt_lt (x := n)
  exact ⟨by simpa using h₁, by simpa using h₂⟩

theorem numberCompareExactly_eq {l r : Eval.Number} (hl : key l ≠ .nan) (hr : key r ≠ .nan) :
    numberCompareExactly l r = some .eq ↔ key l = key r := by
  cases l with
  | exact x =>
    cases r with
    | exact y => simp [numberCompareExactly, key]
    | inexact b =>
      rw [numberCompareExactly, Double.compareInt_eq (toInt_bounds x), eq_comm]
      rfl
  | inexact a =>
    cases r with
    | exact y =>
      have h : (Double.compareInt y.toInt (.ofBits a)).map Ordering.swap = some .eq ↔
          Double.compareInt y.toInt (.ofBits a) = some .eq := by
        rcases Double.compareInt y.toInt (.ofBits a) with _ | o
        · simp
        · cases o <;> simp
      rw [numberCompareExactly, h, Double.compareInt_eq (toInt_bounds y)]
      rfl
    | inexact b =>
      have hl : Double.ofBits a ≠ .nan := hl
      have hr : Double.ofBits b ≠ .nan := hr
      have ha : (Double.ofBits a).isNan = false := by simpa [Double.isNan] using hl
      have hb : (Double.ofBits b).isNan = false := by simpa [Double.isNan] using hr
      show _ ↔ Double.ofBits a = .ofBits b
      rw [numberCompareExactly, ha, hb]
      constructor
      · intro h
        by_cases h₁ : (Double.ofBits b).lt (.ofBits a) = true
        · simp [h₁] at h
        · by_cases h₂ : (Double.ofBits a).lt (.ofBits b) = true
          · simp [h₁, h₂] at h
          · exact Double.eq_of_not_lt ha hb (by simpa using h₂) (by simpa using h₁)
      · intro h
        simp [h, Double.lt_irrefl]

theorem numberSameValue_iff (l r : Eval.Number) : numberSameValue l r = true ↔ key l = key r := by
  rw [numberSameValue]
  by_cases hl : key l = .nan
  · rw [(numberIsNan_iff l).2 hl, Bool.true_or, if_pos rfl, Bool.true_and, numberIsNan_iff, hl, eq_comm]
  · by_cases hr : key r = .nan
    · have hln : numberIsNan l = false := by
        rw [← Bool.not_eq_true, numberIsNan_iff]
        exact hl
      rw [(numberIsNan_iff r).2 hr, hln, hr]
      simpa using hl
    · have hln : numberIsNan l = false := by
        rw [← Bool.not_eq_true, numberIsNan_iff]
        exact hl
      have hrn : numberIsNan r = false := by
        rw [← Bool.not_eq_true, numberIsNan_iff]
        exact hr
      rw [hln, hrn, ← numberCompareExactly_eq hl hr]
      simp

theorem functionEqual_iff (n n' : CString) (l l' : Option CString) :
    functionEqual n n' l l' = true ↔ n = n' ∧ l = l' := by
  by_cases h : n = n'
  · cases l <;> cases l' <;> simp [functionEqual, h]
  · simp [functionEqual, h]

/-- **A leaf is equal to what stands for the same.** -/
theorem storageEqual_leaf {v : Value} {a : Leaf} (h : leafOf v = some a) (w : Value) :
    storageEqual v w = true ↔ leafOf w = some a := by
  cases v with
  | array s l => cases h
  | record f => cases h
  | number n =>
    cases h
    cases w with
    | number m =>
      rw [storageEqual, numberSameValue_iff]
      simp [leafOf, eq_comm]
    | _ => simp [storageEqual, leafOf]
  | datetime dt =>
    cases h
    cases w with
    | datetime dt' =>
      cases dt
      cases dt'
      simp [storageEqual, leafOf]
      tauto
    | _ => simp [storageEqual, leafOf]
  | duration d =>
    cases h
    cases w with
    | duration d' =>
      cases d
      cases d'
      simp [storageEqual, leafOf]
      tauto
    | _ => simp [storageEqual, leafOf]
  | money m =>
    cases h
    cases w with
    | money m' =>
      cases m
      cases m'
      simp [storageEqual, leafOf]
      tauto
    | _ => simp [storageEqual, leafOf]
  | function n l =>
    cases h
    cases w with
    | function n' l' =>
      rw [storageEqual, functionEqual_iff]
      simp [leafOf]
      tauto
    | _ => simp [storageEqual, leafOf]
  | regex p f =>
    cases h
    cases w with
    | regex p' f' =>
      simp [storageEqual, leafOf, regexEqual]
      tauto
    | _ => simp [storageEqual, leafOf]
  | _ =>
    cases h
    cases w <;> simp [storageEqual, leafOf] <;> tauto

/-! ## Arrays and records -/

mutual

theorem Value.rec_on {P : Value → Prop} (leaf : ∀ v a, leafOf v = some a → P v)
    (array : ∀ s l, (∀ v ∈ l, P v) → P (.array s l))
    (record : ∀ f : List (Bytes × Value), (∀ p ∈ f, P p.2) → P (.record f)) : ∀ v, P v
  | .array s l => array s l (Value.rec_items leaf array record l)
  | .record f => record f (Value.rec_fields leaf array record f)
  | .null => leaf _ _ rfl
  | .unknown => leaf _ _ rfl
  | .number _ => leaf _ _ rfl
  | .string _ => leaf _ _ rfl
  | .bool _ => leaf _ _ rfl
  | .datetime _ => leaf _ _ rfl
  | .duration _ => leaf _ _ rfl
  | .money _ => leaf _ _ rfl
  | .file _ => leaf _ _ rfl
  | .dir _ => leaf _ _ rfl
  | .handle _ _ => leaf _ _ rfl
  | .function _ _ => leaf _ _ rfl
  | .regex _ _ => leaf _ _ rfl
  | .watcher _ => leaf _ _ rfl

theorem Value.rec_items {P : Value → Prop} (leaf : ∀ v a, leafOf v = some a → P v)
    (array : ∀ s l, (∀ v ∈ l, P v) → P (.array s l))
    (record : ∀ f : List (Bytes × Value), (∀ p ∈ f, P p.2) → P (.record f)) : ∀ l : List Value, ∀ v ∈ l, P v
  | [] => by simp
  | w :: l => forall_mem_cons.2 ⟨Value.rec_on leaf array record w, Value.rec_items leaf array record l⟩

theorem Value.rec_fields {P : Value → Prop} (leaf : ∀ v a, leafOf v = some a → P v)
    (array : ∀ s l, (∀ v ∈ l, P v) → P (.array s l))
    (record : ∀ f : List (Bytes × Value), (∀ p ∈ f, P p.2) → P (.record f)) :
    ∀ f : List (Bytes × Value), ∀ p ∈ f, P p.2
  | [] => by simp
  | (_, w) :: f => forall_mem_cons.2 ⟨Value.rec_on leaf array record w, Value.rec_fields leaf array record f⟩

end

def Deep (v w : Value) : Prop := storageEqual v w = true

theorem itemsEqual_iff : ∀ l r : List Value, (l.length = r.length ∧ itemsEqual l r = true) ↔ List.Forall₂ Deep l r
  | [], [] => by simp [itemsEqual]
  | [], w :: r => by simp
  | v :: l, [] => by simp
  | v :: l, w :: r => by
    rw [List.forall₂_cons, ← itemsEqual_iff l r, itemsEqual, Bool.and_eq_true, List.length_cons, List.length_cons,
      Nat.add_right_cancel_iff]
    exact ⟨fun h => ⟨h.2.1, h.1, h.2.2⟩, fun h => ⟨h.2.1, h.1, h.2.2⟩⟩

theorem fieldsEqual_iff : ∀ l r : List (Bytes × Value),
    fieldsEqual l r = true ↔ ∀ p ∈ l, ∃ w, findField p.1 r = some w ∧ Deep p.2 w
  | [], r => by simp [fieldsEqual]
  | (n, v) :: l, r => by
    rw [fieldsEqual, Bool.and_eq_true, fieldsEqual_iff l r, forall_mem_cons]
    refine and_congr ?_ Iff.rfl
    rcases findField n r with _ | w
    · simp
    · simp [Deep]

theorem eq_array {s : Nat} {l : List Value} {w : Value} :
    Deep (.array s l) w ↔ ∃ t r, w = .array t r ∧ (s = t ∨ List.Forall₂ Deep l r) := by
  constructor
  · intro h
    cases w with
    | array t r =>
      refine ⟨t, r, rfl, ?_⟩
      by_cases hs : s = t
      · exact .inl hs
      · rw [Deep, storageEqual, if_neg hs, Bool.and_eq_true, decide_eq_true_eq] at h
        exact .inr ((itemsEqual_iff l r).1 h)
    | _ => cases h
  · rintro ⟨t, r, rfl, h⟩
    by_cases hs : s = t
    · rw [Deep, storageEqual, if_pos hs]
    · rw [Deep, storageEqual, if_neg hs, Bool.and_eq_true, decide_eq_true_eq]
      exact (itemsEqual_iff l r).2 (h.resolve_left hs)

theorem eq_record {l : List (Bytes × Value)} {w : Value} :
    Deep (.record l) w ↔
      ∃ r, w = .record r ∧ l.length = r.length ∧ ∀ p ∈ l, ∃ b, findField p.1 r = some b ∧ Deep p.2 b := by
  constructor
  · intro h
    cases w with
    | record r =>
      rw [Deep, storageEqual, Bool.and_eq_true, decide_eq_true_eq, fieldsEqual_iff] at h
      exact ⟨r, rfl, h⟩
    | _ => cases h
  · rintro ⟨r, rfl, h⟩
    rw [Deep, storageEqual, Bool.and_eq_true, decide_eq_true_eq, fieldsEqual_iff]
    exact h

theorem eq_leaf {v w : Value} {a : Leaf} (h : leafOf v = some a) : Deep v w ↔ leafOf w = some a := storageEqual_leaf h w

theorem findField_mem {n : Bytes} {w : Value} : ∀ {r : List (Bytes × Value)}, findField n r = some w → (n, w) ∈ r
  | [], h => by cases h
  | (m, v) :: r, h => by
    rw [findField] at h
    split_ifs at h with hm
    · cases h
      rw [← hm]
      exact mem_cons_self ..
    · exact mem_cons_of_mem _ (findField_mem h)

theorem findField_nodup {p : Bytes × Value} : ∀ {r : List (Bytes × Value)}, (r.map (·.1)).Nodup → p ∈ r →
    findField p.1 r = some p.2
  | [], _, h => by cases h
  | (m, v) :: r, hn, h => by
    obtain ⟨hm, hr⟩ := List.nodup_cons.1 hn
    rcases List.mem_cons.1 h with rfl | h
    · exact if_pos rfl
    · have hne : m ≠ p.1 := fun he => hm (by
        rw [he]
        exact mem_map.2 ⟨p, h, rfl⟩)
      rw [findField, if_neg hne]
      exact findField_nodup hr h

/-! ## One state's values -/

mutual

/-- A value of a state whose stores hold `h`, with the field names of its records among `F`. -/
def Lies (h : Nat → List Value) (F : List Bytes → Prop) : Value → Prop
  | .array s l => h s = l ∧ LieItems h F l
  | .record f => F (f.map (·.1)) ∧ LieFields h F f
  | _ => True

def LieItems (h : Nat → List Value) (F : List Bytes → Prop) : List Value → Prop
  | [] => True
  | v :: l => Lies h F v ∧ LieItems h F l

def LieFields (h : Nat → List Value) (F : List Bytes → Prop) : List (Bytes × Value) → Prop
  | [] => True
  | (_, v) :: l => Lies h F v ∧ LieFields h F l

end

variable {h : Nat → List Value} {F : List Bytes → Prop}

theorem lieItems_iff : ∀ l : List Value, LieItems h F l ↔ ∀ v ∈ l, Lies h F v
  | [] => by simp [LieItems]
  | v :: l => by rw [LieItems, lieItems_iff l, forall_mem_cons]

theorem lieFields_iff : ∀ l : List (Bytes × Value), LieFields h F l ↔ ∀ p ∈ l, Lies h F p.2
  | [] => by simp [LieFields]
  | (n, v) :: l => by rw [LieFields, lieFields_iff l, forall_mem_cons]

theorem eq_refl (hF : ∀ s, F s → s.Nodup) : ∀ v, Lies h F v → Deep v v := by
  refine Value.rec_on (fun v a ha _ => (eq_leaf ha).2 ha) (fun s l _ _ => eq_array.2 ⟨s, l, rfl, .inl rfl⟩)
    (fun f ih hv => ?_)
  rw [Lies, lieFields_iff] at hv
  exact eq_record.2 ⟨f, rfl, rfl, fun p hp => ⟨p.2, findField_nodup (hF _ hv.1) hp, ih p hp (hv.2 p hp)⟩⟩

theorem forall₂_symm {l : List Value} : (∀ v ∈ l, ∀ w, Lies h F v → Lies h F w → Deep v w → Deep w v) →
    ∀ {r : List Value}, (∀ v ∈ l, Lies h F v) → (∀ w ∈ r, Lies h F w) → List.Forall₂ Deep l r →
    List.Forall₂ Deep r l := by
  induction l with
  | nil =>
    intro _ r _ _ hl
    cases hl
    exact .nil
  | cons v l ih =>
    intro hi r hv hr hl
    cases hl with
    | cons hvw ht =>
      refine .cons (hi v (mem_cons_self ..) _ (hv v (mem_cons_self ..)) (hr _ (mem_cons_self ..)) hvw) ?_
      exact ih (fun x hx => hi x (mem_cons_of_mem v hx)) (fun x hx => hv x (mem_cons_of_mem v hx))
        (fun x hx => hr x (mem_cons_of_mem _ hx)) ht

theorem eq_symm (hF : ∀ s, F s → s.Nodup) : ∀ v w, Lies h F v → Lies h F w → Deep v w → Deep w v := by
  refine Value.rec_on (fun v a ha w _ _ he => ?_) (fun s l ih w hv hw he => ?_) (fun f ih w hv hw he => ?_)
  · exact (eq_leaf ((eq_leaf ha).1 he)).2 ha
  · obtain ⟨t, r, rfl, hd⟩ := eq_array.1 he
    rw [Lies, lieItems_iff] at hv hw
    exact eq_array.2 ⟨s, l, rfl, hd.imp (fun hs => hs.symm) (forall₂_symm ih hv.2 hw.2)⟩
  · obtain ⟨r, rfl, hlen, hd⟩ := eq_record.1 he
    rw [Lies, lieFields_iff] at hv hw
    have hf := hF _ hv.1
    have hr := hF _ hw.1
    refine eq_record.2 ⟨f, rfl, hlen.symm, fun q hq => ?_⟩
    -- the names are the same, so a field of the one has its fellow in the other
    have hsub : f.map (·.1) ⊆ r.map (·.1) := by
      intro n hn
      obtain ⟨p, hp, rfl⟩ := mem_map.1 hn
      obtain ⟨b, hb, -⟩ := hd p hp
      exact mem_map.2 ⟨_, findField_mem hb, rfl⟩
    have hperm : (f.map (·.1)).Perm (r.map (·.1)) :=
      (hf.subperm hsub).perm_of_length_le (by rw [List.length_map, List.length_map, hlen])
    obtain ⟨p, hp, hpq⟩ := mem_map.1 (hperm.symm.subset (mem_map.2 ⟨q, hq, rfl⟩))
    obtain ⟨b, hb, hpb⟩ := hd p hp
    have hb' : b = q.2 := by
      have hq' := findField_nodup hr hq
      rw [← hpq, hb] at hq'
      exact Option.some.inj hq'
    subst hb'
    refine ⟨p.2, ?_, ih p hp q.2 (hv.2 p hp) (hw.2 q hq) hpb⟩
    rw [← hpq]
    exact findField_nodup hf hp

theorem forall₂_trans {l : List Value} : (∀ v ∈ l, ∀ w z, Lies h F v → Lies h F w → Lies h F z → Deep v w → Deep w z →
      Deep v z) → ∀ {r q : List Value}, (∀ v ∈ l, Lies h F v) → (∀ w ∈ r, Lies h F w) → (∀ z ∈ q, Lies h F z) →
      List.Forall₂ Deep l r → List.Forall₂ Deep r q → List.Forall₂ Deep l q := by
  induction l with
  | nil =>
    intro _ r q _ _ _ hl hr
    cases hl
    cases hr
    exact .nil
  | cons v l ih =>
    intro hi r q hv hw hz hl hr
    cases hl with
    | cons hvw ht =>
      cases hr with
      | cons hwz ht' =>
        refine .cons (hi v (mem_cons_self ..) _ _ (hv v (mem_cons_self ..)) (hw _ (mem_cons_self ..))
          (hz _ (mem_cons_self ..)) hvw hwz) ?_
        exact ih (fun x hx => hi x (mem_cons_of_mem v hx)) (fun x hx => hv x (mem_cons_of_mem v hx))
          (fun x hx => hw x (mem_cons_of_mem _ hx)) (fun x hx => hz x (mem_cons_of_mem _ hx)) ht ht'

theorem eq_trans : ∀ v w z, Lies h F v → Lies h F w → Lies h F z → Deep v w → Deep w z → Deep v z := by
  refine Value.rec_on (fun v a ha w z _ _ _ he hz => ?_) (fun s l ih w z hv hw hz he he' => ?_)
    (fun f ih w z hv hw hz he he' => ?_)
  · exact (eq_leaf ha).2 ((eq_leaf ((eq_leaf ha).1 he)).1 hz)
  · obtain ⟨t, r, rfl, hd⟩ := eq_array.1 he
    obtain ⟨u, q, rfl, hd'⟩ := eq_array.1 he'
    rw [Lies, lieItems_iff] at hv hw hz
    refine eq_array.2 ⟨u, q, rfl, ?_⟩
    -- arrays of one store have the same items
    rcases hd with rfl | hd
    · obtain rfl : l = r := hv.1.symm.trans hw.1
      exact hd'
    · rcases hd' with rfl | hd'
      · obtain rfl : r = q := hw.1.symm.trans hz.1
        exact .inr hd
      · exact .inr (forall₂_trans ih hv.2 hw.2 hz.2 hd hd')
  · obtain ⟨r, rfl, hlen, hd⟩ := eq_record.1 he
    obtain ⟨q, rfl, hlen', hd'⟩ := eq_record.1 he'
    rw [Lies, lieFields_iff] at hv hw hz
    refine eq_record.2 ⟨q, rfl, hlen.trans hlen', fun p hp => ?_⟩
    obtain ⟨b, hb, hpb⟩ := hd p hp
    have hbr := findField_mem hb
    obtain ⟨c, hc, hbc⟩ := hd' _ hbr
    exact ⟨c, hc, ih p hp b c (hv.2 p hp) (hw.2 _ hbr) (hz.2 _ (findField_mem hc)) hpb hbc⟩

/-! ## Names that come twice -/

def staircase : List Bytes → List (Bytes × Value)
  | [] => []
  | n :: s => (n, .string (List.replicate s.length (byte 0))) :: staircase s

theorem staircase_names : ∀ s : List Bytes, (staircase s).map (·.1) = s
  | [] => rfl
  | n :: s => by rw [staircase, List.map_cons, staircase_names s]

theorem staircase_mem {p : Bytes × Value} : ∀ {s : List Bytes}, p ∈ staircase s →
    ∃ k < s.length, p.2 = .string (List.replicate k (byte 0))
  | [], hp => by cases hp
  | n :: s, hp => by
    rcases List.mem_cons.1 hp with rfl | hp
    · exact ⟨s.length, Nat.lt_succ_self _, rfl⟩
    · obtain ⟨k, hk, he⟩ := staircase_mem hp
      exact ⟨k, Nat.lt_succ_of_lt hk, he⟩

theorem staircase_lies (h : Nat → List Value) (F : List Bytes → Prop) : ∀ s : List Bytes, LieFields h F (staircase s)
  | [] => trivial
  | _ :: s => ⟨trivial, staircase_lies h F s⟩

theorem nodup_of_staircase : ∀ s : List Bytes,
    (∀ p ∈ staircase s, ∃ w, findField p.1 (staircase s) = some w ∧ Deep p.2 w) → s.Nodup
  | [], _ => .nil
  | n :: s, hs => by
    have hfirst : ∀ p ∈ staircase s, p.1 ≠ n := by
      intro p hp hpn
      obtain ⟨w, hw, he⟩ := hs p (mem_cons_of_mem _ hp)
      obtain ⟨k, hk, hv⟩ := staircase_mem hp
      rw [staircase, findField, if_pos hpn.symm] at hw
      cases hw
      rw [hv, eq_leaf rfl, leafOf] at he
      injection he with he
      injection he with he
      have hl := congrArg List.length he
      rw [List.length_replicate, List.length_replicate] at hl
      omega
    refine List.nodup_cons.2 ⟨fun hn => ?_, nodup_of_staircase s (fun p hp => ?_)⟩
    · rw [← staircase_names s] at hn
      obtain ⟨p, hp, hpn⟩ := mem_map.1 hn
      exact hfirst p hp hpn
    · obtain ⟨w, hw, he⟩ := hs p (mem_cons_of_mem _ hp)
      rw [staircase, findField, if_neg (hfirst p hp).symm] at hw
      exact ⟨w, hw, he⟩

/-- The deep comparison is an equivalence of a state's values. -/
structure Equality (h : Nat → List Value) (F : List Bytes → Prop) : Prop where
  refl : ∀ v, Lies h F v → Deep v v
  symm : ∀ v w, Lies h F v → Lies h F w → Deep v w → Deep w v
  trans : ∀ v w z, Lies h F v → Lies h F w → Lies h F z → Deep v w → Deep w z → Deep v z

/-- **It is one just where no record has a name twice.** -/
theorem equality_iff (h : Nat → List Value) (F : List Bytes → Prop) : Equality h F ↔ ∀ s, F s → s.Nodup := by
  constructor
  · intro he s hs
    have hl : Lies h F (.record (staircase s)) := by
      rw [Lies, staircase_names]
      exact ⟨hs, staircase_lies h F s⟩
    obtain ⟨r, hr, -, hd⟩ := eq_record.1 (he.refl _ hl)
    cases hr
    exact nodup_of_staircase s hd
  · exact fun hF => ⟨eq_refl hF, eq_symm hF, eq_trans⟩

/-! ## The operator -/

inductive Kind where
  | null | unknown | number | string | bool | array | record | datetime | duration | money | file | dir
  | handle (k : Handle)
  | function | regex | watcher

def Value.kind : Value → Kind
  | .null => .null
  | .unknown => .unknown
  | .number _ => .number
  | .string _ => .string
  | .bool _ => .bool
  | .array _ _ => .array
  | .record _ => .record
  | .datetime _ => .datetime
  | .duration _ => .duration
  | .money _ => .money
  | .file _ => .file
  | .dir _ => .dir
  | .handle k _ => .handle k
  | .function _ _ => .function
  | .regex _ _ => .regex
  | .watcher _ => .watcher

/-- Neither unknown nor a NaN. -/
def Value.plain : Value → Bool
  | .unknown => false
  | .number n => !numberIsNan n
  | _ => true

/-- Two durations of the same months and seconds in other parts, or two times of day of the same time whose dates,
which they do not use, differ. -/
def Split : Value → Value → Prop
  | .duration d, .duration e => durationTotals d = durationTotals e ∧ d ≠ e
  | .datetime d, .datetime e =>
    (d.timeOnly ≠ 0 ∧ e.timeOnly ≠ 0) ∧
      (d.hour = e.hour ∧ d.minute = e.minute ∧ d.second = e.second ∧ d.precision = e.precision) ∧
      ¬ (d.year = e.year ∧ d.month = e.month ∧ d.day = e.day ∧ d.timeOnly = e.timeOnly)
  | _, _ => False

theorem stringCompare_eq : ∀ l m : Bytes, stringCompare l m = .eq ↔ l = m
  | [], [] => by simp [stringCompare]
  | [], _ :: _ => by simp [stringCompare]
  | _ :: _, [] => by simp [stringCompare]
  | a :: l, b :: m => by
    rw [stringCompare]
    rcases lt_trichotomy a b with h | h | h
    · simp [h, h.ne]
    · subst h
      simp [stringCompare_eq l m]
    · simp [h, h.ne', not_lt.2 h.le]

theorem datetimeCompareExact_eq (d e : DateTime) : datetimeCompareExact d e = .eq ↔
    (d.timeOnly ≠ 0 ↔ e.timeOnly ≠ 0) ∧
      (d.timeOnly = 0 → d.year = e.year ∧ d.month = e.month ∧ d.day = e.day) ∧
      d.hour = e.hour ∧ d.minute = e.minute ∧ d.second = e.second ∧ d.precision = e.precision := by
  have ht : compare (if d.timeOnly ≠ 0 then (1 : Int) else 0) (if e.timeOnly ≠ 0 then 1 else 0) = .eq ↔
      (d.timeOnly ≠ 0 ↔ e.timeOnly ≠ 0) := by
    by_cases h₁ : d.timeOnly ≠ 0
    · by_cases h₂ : e.timeOnly ≠ 0
      · rw [if_pos h₁, if_pos h₂]
        exact iff_of_true (by decide) (iff_of_true h₁ h₂)
      · rw [if_pos h₁, if_neg h₂]
        exact iff_of_false (by decide) (fun hi => h₂ (hi.1 h₁))
    · by_cases h₂ : e.timeOnly ≠ 0
      · rw [if_neg h₁, if_pos h₂]
        exact iff_of_false (by decide) (fun hi => h₁ (hi.2 h₂))
      · rw [if_neg h₁, if_neg h₂]
        exact iff_of_true (by decide) (iff_of_false h₁ h₂)
  have hdate : (if d.timeOnly ≠ 0 then Ordering.eq
      else (compare d.year.toInt e.year.toInt).then <|
        (compare d.month.toInt e.month.toInt).then (compare d.day.toInt e.day.toInt)) = .eq ↔
      (d.timeOnly = 0 → d.year = e.year ∧ d.month = e.month ∧ d.day = e.day) := by
    by_cases h₁ : d.timeOnly = 0 <;> simp [h₁, Ordering.then_eq_eq, BitVec.toInt_inj]
  rw [datetimeCompareExact]
  dsimp only
  rw [Ordering.then_eq_eq, Ordering.then_eq_eq, ht, hdate]
  simp only [Ordering.then_eq_eq, Int.compare_eq_eq, BitVec.toInt_inj]

/-- **The operator answers what the deep comparison does but of values that are split.** -/
theorem evalEquals_iff {x y : Value} (hk : x.kind = y.kind) (hx : x.plain = true) (hy : y.plain = true) :
    evalEquals x y = .bool (storageEqual x y) ↔ ¬ Split x y := by
  cases x with
  | unknown => cases hx
  | null =>
    cases y with
    | null => simp [evalEquals, storageEqual, Split]
    | _ => cases hk
  | number n =>
    cases y with
    | number m =>
      have hn : key n ≠ .nan := by simpa [Value.plain, ← numberIsNan_iff] using hx
      have hm : key m ≠ .nan := by simpa [Value.plain, ← numberIsNan_iff] using hy
      have hsame : numberSameValue n m = decide (key n = key m) := by
        rw [Bool.eq_iff_iff, numberSameValue_iff, decide_eq_true_eq]
      have hcmp : decide (numberCompareExactly n m = some .eq) = decide (key n = key m) :=
        decide_eq_decide.2 (numberCompareExactly_eq hn hm)
      have heq : (key n).eq (key m) = decide (key n = key m) := by
        have hnan : (key n).isNan = false := by simpa [Double.isNan] using hn
        rw [Double.eq, hnan]
        rfl
      simp only [Split, not_false_iff, iff_true]
      cases n <;> cases m <;> simp only [evalEquals, storageEqual, hsame, hcmp, heq]
    | _ => cases hk
  | string s =>
    cases y with
    | string t => simp [evalEquals, storageEqual, Split, stringCompare_eq]
    | _ => cases hk
  | bool b =>
    cases y with
    | bool c => cases b <;> cases c <;> simp [evalEquals, storageEqual, Split, numberOrZero, Double.eq, Double.isNan]
    | _ => cases hk
  | array s l =>
    cases y with
    | array t r => simp [evalEquals, Split]
    | _ => cases hk
  | record f =>
    cases y with
    | record r => simp [evalEquals, Split]
    | _ => cases hk
  | datetime d =>
    cases y with
    | datetime e =>
      rw [evalEquals, storageEqual, Split, Answer.bool.injEq, Bool.eq_iff_iff, decide_eq_true_eq,
        datetimeCompareExact_eq]
      simp only [Bool.and_eq_true, decide_eq_true_eq]
      by_cases h₁ : d.timeOnly = 0 <;> by_cases h₂ : e.timeOnly = 0
      · simp only [h₁, h₂]
        tauto
      · have h₃ : ¬ d.timeOnly = e.timeOnly := fun he => h₂ (he ▸ h₁)
        simp only [h₁, h₁ ▸ h₃]
        tauto
      · have h₃ : ¬ d.timeOnly = e.timeOnly := fun he => h₁ (he.trans h₂)
        simp only [h₁]
        tauto
      · simp only [h₁]
        tauto
    | _ => cases hk
  | duration d =>
    cases y with
    | duration e =>
      have hd : storageEqual (.duration d) (.duration e) = decide (d = e) := by
        rw [Bool.eq_iff_iff, decide_eq_true_eq, storageEqual_leaf rfl]
        simp [leafOf, eq_comm]
      rw [evalEquals, hd, Split, Answer.bool.injEq, decide_eq_decide]
      constructor
      · intro h hs
        exact hs.2 (h.1 hs.1)
      · intro h
        refine ⟨fun ht => by_contra (fun hne => h ⟨ht, hne⟩), fun he => by rw [he]⟩
    | _ => cases hk
  | money m =>
    cases y with
    | money m' =>
      simp only [evalEquals, storageEqual, Split, Answer.bool.injEq, not_false_iff, iff_true]
      rw [Bool.eq_iff_iff]
      simp
      tauto
    | _ => cases hk
  | file p =>
    cases y with
    | file q => simp [evalEquals, Split]
    | _ => cases hk
  | dir p =>
    cases y with
    | dir q => simp [evalEquals, Split]
    | _ => cases hk
  | handle k i =>
    cases y with
    | handle k' i' => simp [evalEquals, Split]
    | _ => cases hk
  | function n l =>
    cases y with
    | function n' l' => simp [evalEquals, storageEqual, Split]
    | _ => cases hk
  | regex p f =>
    cases y with
    | regex p' f' => simp [evalEquals, storageEqual, Split]
    | _ => cases hk
  | watcher i =>
    cases y with
    | watcher j => simp [evalEquals, storageEqual, Split]
    | _ => cases hk

/-! ## Equality -/

theorem evalEquals_singleton {s t : Nat} (h : s ≠ t) (x y : Value) :
    evalEquals (.array s [x]) (.array t [y]) = .bool (storageEqual x y) := by
  simp [evalEquals, storageEqual, itemsEqual, h]

theorem evalEquals_field (f : Bytes) (x y : Value) :
    evalEquals (.record [(f, x)]) (.record [(f, y)]) = .bool (storageEqual x y) := by
  simp [evalEquals, storageEqual, fieldsEqual, findField]

/-- `1 hour` and `60 minutes`. -/
def hour : Value := .duration ⟨0, 0, 0, 0, 1, 0, 0⟩
def sixtyMinutes : Value := .duration ⟨0, 0, 0, 0, 0, 60, 0⟩

end Same
end Gbasic
