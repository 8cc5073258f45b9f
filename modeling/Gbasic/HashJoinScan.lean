import Gbasic.HashJoinBuild
import Gbasic.KeySame
/-!
# HashJoinScan — a hash join gives what the nested loop gives

A row that a probe is not offered has another key, so the hashed condition is not true of it, and the nested loop drops
it too (`hash_join`).  That is so where the loop evaluates the probe, where no value is converted to be equal, and where
the conditions of WHERE refuse no NULL-extended row that the loop has not.  A refusal on a row that is not offered is
not met.
-/
namespace Gbasic
namespace HashJoin

open Key (Value serialize SameColumn Named code_eq_iff code_ne_of_rank SER_NULL SER_UNKNOWN SER_BOOL SER_NUMBER
  SER_STRING SER_ARRAY SER_RECORD SER_DATETIME SER_DURATION SER_MONEY SER_FILE SER_DIR SER_ACTOR SER_FUNCTION
  SER_REGEX)

variable {d : Datum} {h : Host} {col : Nat}

/-! ## Values and their keys -/

theorem isNull_keyed (v : Value) : (Datum.keyed v).isNull = decide (v.rank = 5) := by
  cases v <;> rfl

theorem kind_keyed {v w : Value} (h : (Datum.keyed v).kind = (Datum.keyed w).kind) : v.rank = w.rank := by
  revert h
  cases v <;> cases w <;> simp [Datum.kind, Datum.said, Value.said, hostKind, Value.rank] <;> decide

theorem kind_of_keyed (v : Value) : (Datum.keyed v).kind ∈
    [SER_UNKNOWN, SER_BOOL, SER_NUMBER, SER_STRING, SER_MONEY, SER_DATETIME] := by
  cases v <;> simp [Datum.kind, Datum.said, Value.said, hostKind]

theorem kind_of_keyless (k : Keyless) : (Datum.keyless k).kind ∈
    [0, SER_ARRAY, SER_RECORD, SER_DURATION, SER_FILE, SER_DIR] := by
  obtain ⟨said, tag, body, hkind⟩ := k
  rw [Datum.kind, Datum.said]
  cases said <;> first
    | (cases hkind; done)
    | simp [hostKind]

theorem kind_keyless (k : Keyless) (v : Value) : (Datum.keyless k).kind ≠ (Datum.keyed v).kind := by
  have hapart : ∀ n ∈ [0, SER_ARRAY, SER_RECORD, SER_DURATION, SER_FILE, SER_DIR],
      n ∉ [SER_UNKNOWN, SER_BOOL, SER_NUMBER, SER_STRING, SER_MONEY, SER_DATETIME] := by decide
  exact fun h => hapart _ (kind_of_keyless k) (h ▸ kind_of_keyed v)

theorem isNull_keyless (k : Keyless) : (Datum.keyless k).isNull = false := by
  have hapart : ∀ n ∈ [0, SER_ARRAY, SER_RECORD, SER_DURATION, SER_FILE, SER_DIR],
      ¬(n = SER_UNKNOWN ∨ n = SER_NULL) := by
    decide
  exact decide_eq_false (hapart _ (kind_of_keyless k))

theorem append_keyless (k : Keyless) :
    Key.keyAppend [] (Datum.keyless k).bytes ⟨false, false⟩ = (.notIndexable, [], 0) := by
  obtain ⟨said, tag, body, hkind⟩ := k
  have htag : tag = SER_DURATION ∨ tag = SER_ARRAY ∨ tag = SER_RECORD ∨ tag = SER_FILE ∨ tag = SER_DIR ∨
      tag = SER_ACTOR ∨ tag = SER_FUNCTION ∨ tag = SER_REGEX := by
    cases said <;> simp only [Same.Value.kind, keylessTag] at hkind
    all_goals first
      | (cases hkind; done)
      | (cases hkind; simp)
      | (split at hkind <;> cases hkind <;> simp)
  rw [Datum.bytes, Key.keyAppend, Key.component, Key.leGet_one]
  rcases htag with rfl | rfl | rfl | rfl | rfl | rfl | rfl | rfl <;> rfl

theorem groupKey_keyless (k : Keyless) : groupKey (.keyless k) = none := by
  rw [groupKey]
  split
  · rfl
  · rw [append_keyless]

theorem groupKey_keyed {v : Value} (h : v.rank ≠ 5) : groupKey (.keyed v) = some (v.code ⟨false, false⟩) := by
  have htag : ¬(((serialize v).headD 0).val = SER_UNKNOWN ∨ ((serialize v).headD 0).val = SER_NULL) := by
    cases v <;> first
      | exact absurd rfl h
      | (rw [serialize, List.headD_cons]; decide)
  rw [groupKey, Datum.bytes, if_neg htag, Key.keyAppend_serialize]
  rfl

theorem groupKey_null {v : Value} (h : v.rank = 5) : groupKey (.keyed v) = none := by
  cases v <;> first
    | rfl
    | cases h

theorem said_keyed {v : Value} (h : v.rank ≠ 5) : (Datum.keyed v).said = v.said := by
  cases v <;> first
    | exact absurd rfl h
    | rfl

theorem said_null (h : d.isNull = true) : d.said = .unknown := by
  cases d with
  | keyed v =>
    rw [isNull_keyed, decide_eq_true_eq] at h
    cases v <;> first
      | rfl
      | cases h
  | keyless k =>
    rw [isNull_keyless] at h
    cases h

/-! ## What the comparison finds equal -/

theorem equals_alike {a b : Datum} (hkind : a.kind = b.kind) (heq : equals h a b = .ok .yes) :
    Same.evalEquals a.said b.said = .bool true := by
  rw [equals, alignKinds, if_pos (Or.inl hkind)] at heq
  dsimp only at heq
  split at heq
  · split at heq
    · cases heq
    · assumption
    · cases heq
    · cases heq
  · cases heq

theorem equals_null {a b : Datum} (hnull : a.isNull = true ∨ b.isNull = true) : equals h a b = .ok .unknown := by
  have halign : alignKinds h a b = .ok (a, b) := by
    rw [alignKinds, if_pos (Or.inr hnull)]
  have hcomp : comparable a b = true := by
    rw [comparable]
    rcases hnull with hn | hn <;> simp [hn]
  have hans : Same.evalEquals a.said b.said = .unknown := by
    rcases hnull with hn | hn
    · rw [said_null hn, Same.evalEquals]
    · rw [said_null hn]
      cases a.said <;> simp [Same.evalEquals]
  rw [equals, halign]
  dsimp only
  rw [hcomp, if_pos rfl, hans]

def NamedData : Datum → Datum → Prop
  | .keyed v, .keyed w => Named v w
  | _, _ => True

/-- **Two values of one kind that are equal have one key**, if either has one. -/
theorem groupKey_of_equal {a b : Datum} (hkind : a.kind = b.kind) (hname : NamedData a b)
    (heq : Same.evalEquals a.said b.said = .bool true ∨ Same.evalEquals b.said a.said = .bool true) :
    groupKey a = groupKey b := by
  cases a with
  | keyed v =>
    cases b with
    | keyed w =>
      have hrank := kind_keyed hkind
      by_cases hv : v.rank = 5
      · rw [groupKey_null hv, groupKey_null (hrank ▸ hv)]
      · have hw : w.rank ≠ 5 := fun h5 => hv (hrank.trans h5)
        rw [said_keyed hv, said_keyed hw] at heq
        rw [groupKey_keyed hv, groupKey_keyed hw, Option.some.injEq]
        have hname' : Named v w := hname
        rcases heq with heq | heq
        · exact (code_eq_iff hname').2 (Or.inr (Or.inr ⟨hrank, heq⟩))
        · refine ((code_eq_iff (v := w) (w := v) ?_).2 (Or.inr (Or.inr ⟨hrank.symm, heq⟩))).symm
          cases v with
          | money m =>
            cases w with
            | money m' =>
              obtain ⟨hm, hm', hone⟩ := hname'
              exact ⟨hm', hm, ⟨⟨fun ha => (hone.1.1 ha.symm).symm, fun hn => (hone.1.2 hn.symm).symm⟩,
                fun hn => (hone.2 hn.symm).symm⟩⟩
            | _ => trivial
          | _ => cases w <;> trivial
    | keyless k => exact absurd hkind.symm (kind_keyless k v)
  | keyless k =>
    cases b with
    | keyed w => exact absurd hkind (kind_keyless k w)
    | keyless k' => rw [groupKey_keyless, groupKey_keyless]

/-! ## One opening -/

/-- A run follows another: it gives what the other gives before a refusal, and the same where the other has none. -/
structure Follows {β : Type} (s r : Run β) : Prop where
  begins : s.rows <+: r.rows
  same : s.refused = none → r = s

theorem Follows.refl {β : Type} (r : Run β) : Follows r r := ⟨List.prefix_refl _, fun _ => rfl⟩

theorem Follows.refused {β : Type} (e : Errno) (r : Run β) : Follows ⟨[], some e⟩ r :=
  ⟨List.nil_prefix, fun h => by cases h⟩

theorem Follows.cons {β : Type} {s r : Run β} (h : Follows s r) (b : β) :
    Follows ⟨b :: s.rows, s.refused⟩ ⟨b :: r.rows, r.refused⟩ where
  begins := List.cons_prefix_cons.2 ⟨rfl, h.begins⟩
  same hs := by rw [h.same hs]

theorem Follows.andThen {β : Type} {s r s' r' : Run β} (h : Follows s r) (h' : Follows s' r') :
    Follows (s.andThen s') (r.andThen r') := by
  cases hs : s.refused with
  | none =>
    rw [h.same hs, Run.andThen, Run.andThen, hs]
    exact ⟨(List.prefix_append_right_inj _).2 h'.begins, fun hn => by rw [h'.same hn]⟩
  | some e =>
    refine ⟨?_, fun hn => ?_⟩
    · rw [Run.andThen, hs]
      dsimp only
      rw [Run.andThen]
      split
      · exact h.begins
      · exact h.begins.trans (List.prefix_append _ _)
    · rw [Run.andThen, hs] at hn
      cases hn

variable {Ω : Type}

variable {ω : Ω} {probe : Ω → Except Errno Datum}

/-- Rows that are not offered are dropped: ON is not true of them, or WHERE is not, and WHERE is not true of the
NULL-extended row either. -/
def Dropped (h : Host) (left : Bool) (on rest : List (Cond Ω)) (ω : Ω) (r : Inner) : Prop :=
  check h ω (some r) on ≠ .ok true ∨
    check h ω (some r) rest ≠ .ok true ∧ (left = true → check h ω none rest = .ok false)

/-- **An opening that leaves out rows that are dropped** gives what the whole does. -/
theorem level_filter {h : Host} {left : Bool} {on rest : List (Cond Ω)} {ω : Ω} {p : Inner → Bool} :
    ∀ {rows : List Inner} {m m' : Bool}, (∀ r ∈ rows, p r = false → Dropped h left on rest ω r) →
      (m' = true → m = true) → (m ≠ m' → left = true → check h ω none rest = .ok false) →
      Follows (level h left on rest ω rows m) (level h left on rest ω (rows.filter p) m')
  | [], m, m', _, hm, hnull => by
    rw [List.filter_nil]
    by_cases he : m = m'
    · rw [he]
      exact .refl _
    · have hmm : m = true ∧ m' = false := by
        cases m' with
        | true => exact absurd (hm rfl) he
        | false => exact ⟨by simpa using he, rfl⟩
      obtain ⟨rfl, rfl⟩ := hmm
      rw [level, level, if_neg (by simp)]
      by_cases hl : left = true
      · rw [if_pos ⟨hl, rfl⟩, hnull he hl]
        exact .refl _
      · rw [if_neg (fun hc => hl hc.1)]
        exact .refl _
  | r :: rows, m, m', hdrop, hm, hnull => by
    have hrest : ∀ {m m' : Bool}, (m' = true → m = true) → (m ≠ m' → left = true → check h ω none rest = .ok false) →
        Follows (level h left on rest ω rows m) (level h left on rest ω (rows.filter p) m') := fun hm hnull =>
      level_filter (fun r' hr' => hdrop r' (List.mem_cons_of_mem r hr')) hm hnull
    rw [level]
    cases hp : p r with
    | true =>
      rw [List.filter_cons_of_pos hp, level]
      cases hon : check h ω (some r) on with
      | error e => exact .refl _
      | ok b =>
        cases b with
        | false => exact hrest hm hnull
        | true =>
          dsimp only
          cases hr : check h ω (some r) rest with
          | error e => exact .refl _
          | ok b =>
            cases b with
            | false => exact hrest (fun _ => rfl) (fun hne => absurd rfl hne)
            | true =>
              have hboth : Follows (level h left on rest ω rows true) (level h left on rest ω (rows.filter p) true) :=
                hrest (fun _ => rfl) (fun hne => absurd rfl hne)
              exact hboth.cons (some r)
    | false =>
      rw [List.filter_cons_of_neg (by rw [hp]; exact Bool.false_ne_true)]
      cases hon : check h ω (some r) on with
      | error e => exact .refused e _
      | ok b =>
        cases b with
        | false => exact hrest hm hnull
        | true =>
          dsimp only
          obtain ⟨hno, hnull'⟩ := (hdrop r (List.mem_cons_self ..) hp).resolve_left (not_not.2 hon)
          cases hr : check h ω (some r) rest with
          | error e => exact .refused e _
          | ok b =>
            cases b with
            | false => exact hrest (fun _ => rfl) (fun _ => hnull')
            | true => exact absurd hr hno

/-! ## The hashed condition -/

def Hashed (c : Cond Ω) (col : Nat) (probe : Ω → Except Errno Datum) : Prop :=
  c = .eq (.col col) (.before probe) ∨ c = .eq (.before probe) (.col col)

theorem chooseHash_mem {col : Nat} {probe : Ω → Except Errno Datum} : ∀ {cs : List (Cond Ω)},
    chooseHash cs = some (col, probe) → ∃ c ∈ cs, Hashed c col probe
  | [], h => by cases h
  | c :: cs, h => by
    have hmore : chooseHash cs = some (col, probe) → ∃ c' ∈ c :: cs, Hashed c' col probe := by
      intro h
      obtain ⟨c', hc', hh⟩ := chooseHash_mem h
      exact ⟨c', List.mem_cons_of_mem c hc', hh⟩
    rw [chooseHash.eq_def] at h
    split at h
    · rename_i heq
      cases heq
    · rename_i i f cs' heq
      cases heq
      cases h
      exact ⟨_, List.mem_cons_self .., Or.inl rfl⟩
    · rename_i f i cs' heq
      cases heq
      cases h
      exact ⟨_, List.mem_cons_self .., Or.inr rfl⟩
    · rename_i c' cs' _ _ heq
      cases heq
      exact hmore h

theorem chooseHash_append {on rest : List (Cond Ω)} :
    chooseHash (on ++ rest) = (chooseHash on).or (chooseHash rest) := by
  induction on with
  | nil => rfl
  | cons c cs ih =>
    rw [List.cons_append, chooseHash.eq_def, chooseHash.eq_def (c :: cs)]
    split
    · rename_i heq
      cases heq
    · rename_i heq
      cases heq
      rfl
    · rename_i heq
      cases heq
      rfl
    · rename_i h1 h2 heq
      cases heq
      split
      · rename_i heq
        cases heq
      · rename_i heq
        cases heq
        exact (h1 _ _ rfl).elim
      · rename_i heq
        cases heq
        exact (h2 _ _ rfl).elim
      · rename_i heq
        cases heq
        exact ih

theorem check_ne_true {h : Host} {ω : Ω} {row : Option Inner} {c : Cond Ω} (hc : c.truth h ω row ≠ .ok .yes) :
    ∀ {cs : List (Cond Ω)}, c ∈ cs → check h ω row cs ≠ .ok true
  | c' :: cs, hmem => by
    rw [check]
    rcases List.mem_cons.1 hmem with rfl | hmem
    · split
      · intro he
        cases he
      · intro he
        cases he
      · rename_i hyes
        exact absurd hyes hc
      · intro he
        cases he
    · split
      · intro he
        cases he
      · intro he
        cases he
      · exact check_ne_true hc hmem
      · intro he
        cases he

/-- What the nested loop and the hash both go by, at an outer row: the loop's probe answers, no value is converted to be
equal to it, money is named by its letters, and where the hashed condition is one of WHERE, WHERE refuses no
NULL-extended row. -/
structure Clean (h : Host) (left : Bool) (on rest : List (Cond Ω)) (col : Nat) (probe : Ω → Except Errno Datum)
    (rows : List Inner) (ω : Ω) : Prop where
  answers : ∃ d, probe ω = .ok d
  alike : ∀ d, probe ω = .ok d → ∀ r ∈ rows,
    equals h (r col) d = .ok .yes ∨ equals h d (r col) = .ok .yes → (r col).kind = d.kind
  named : ∀ d, probe ω = .ok d → ∀ r ∈ rows, NamedData (r col) d
  nulls : left = true → (chooseHash on).isSome = true ∨ ∀ e, check h ω none rest ≠ .error e

theorem hashed_null {c : Cond Ω} (hc : Hashed c col probe) : c.truth h ω none ≠ .ok .yes := by
  have hnull : (Datum.keyed .unknown).isNull = true := rfl
  rcases hc with rfl | rfl
  · rw [Cond.truth, Operand.eval, Operand.eval]
    dsimp only
    split
    · intro he
      cases he
    · rw [equals_null (Or.inl hnull)]
      intro he
      cases he
  · rw [Cond.truth, Operand.eval, Operand.eval]
    split
    · intro he
      cases he
    · dsimp only
      rw [equals_null (Or.inr hnull)]
      intro he
      cases he

theorem hashed_truth {r : Inner} {c : Cond Ω} (hc : Hashed c col probe) (hd : probe ω = .ok d) :
    c.truth h ω (some r) = equals h (r col) d ∨ c.truth h ω (some r) = equals h d (r col) := by
  rcases hc with rfl | rfl
  · refine Or.inl ?_
    rw [Cond.truth, Operand.eval, Operand.eval]
    dsimp only
    rw [hd]
  · refine Or.inr ?_
    rw [Cond.truth, Operand.eval, Operand.eval, hd]

def offers (col : Nat) (d : Datum) (r : Inner) : Bool :=
  if d.isNull then false
  else
    match groupKey d with
    | some key => decide (groupKey (r col) = some key)
    | none => true

theorem probe_offers {xs : XScan} (htable : xs.table.getD (hashBuild col xs.rows) = hashBuild col xs.rows)
    (hd : probe ω = .ok d) :
    hashProbe col probe xs ω = (.ok (xs.rows.filter (offers col d)), ⟨xs.rows, some (hashBuild col xs.rows)⟩) := by
  have hrows : (offered (hashBuild col xs.rows) xs.rows.length d).filterMap (fun i => xs.rows[i]?) =
      xs.rows.filter (offers col d) := by
    by_cases hnull : d.isNull = true
    · have hnone : offers col d = fun _ => false := by
        funext r
        rw [offers, if_pos hnull]
      rw [offered, if_pos hnull, hnone, List.filter_false]
      rfl
    · have hnot : d.isNull = false := by simpa using hnull
      cases hkey : groupKey d with
      | some key =>
        have hkeyed : offers col d = fun r => decide (groupKey (r col) = some key) := by
          funext r
          rw [offers, if_neg hnull, hkey]
        rw [offered_keyed hnot hkey, rows_group, hkeyed]
      | none =>
        have hall : offers col d = fun _ => true := by
          funext r
          rw [offers, if_neg hnull, hkey]
        have hkeyless : ∃ k, d = .keyless k := by
          cases d with
          | keyed v =>
            rw [isNull_keyed, decide_eq_false_iff_not] at hnot
            rw [groupKey_keyed hnot] at hkey
            cases hkey
          | keyless k => exact ⟨k, rfl⟩
        obtain ⟨k, rfl⟩ := hkeyless
        rw [offered, if_neg hnull, append_keyless, hall, List.filter_true]
        have hrange := filterMap_group xs.rows (fun _ => true)
        rw [List.filter_true, List.filter_eq_self.2] at hrange
        · exact hrange
        · intro i hi
          rw [List.getElem?_eq_getElem (List.mem_range.1 hi)]
          rfl
  rw [hashProbe, htable, hd]
  dsimp only
  rw [hrows]

/-- **A row that is not offered is dropped.** -/
theorem dropped_of_not_offered {left : Bool} {on rest : List (Cond Ω)} {rows : List Inner}
    (hhash : chooseHash (on ++ rest) = some (col, probe)) (hclean : Clean h left on rest col probe rows ω)
    (hd : probe ω = .ok d) {r : Inner} (hr : r ∈ rows) (hnot : offers col d r = false) :
    Dropped h left on rest ω r := by
  -- the comparison does not find it equal, whichever way round
  have hne : equals h (r col) d ≠ .ok .yes ∧ equals h d (r col) ≠ .ok .yes := by
    rw [offers] at hnot
    by_cases hnull : d.isNull = true
    · rw [equals_null (Or.inr hnull), equals_null (Or.inl hnull)]
      exact ⟨(fun he => by cases he), (fun he => by cases he)⟩
    · rw [if_neg hnull] at hnot
      cases hkey : groupKey d with
      | none =>
        rw [hkey] at hnot
        cases hnot
      | some key =>
        rw [hkey, decide_eq_false_iff_not] at hnot
        have hboth : ¬(equals h (r col) d = .ok .yes ∨ equals h d (r col) = .ok .yes) := by
          intro heq
          have hkind := hclean.alike d hd r hr heq
          refine hnot ((groupKey_of_equal hkind (hclean.named d hd r hr) ?_).trans hkey)
          rcases heq with heq | heq
          · exact Or.inl (equals_alike hkind heq)
          · exact Or.inr (equals_alike hkind.symm heq)
        exact not_or.1 hboth
  have htruth : ∀ {c : Cond Ω}, Hashed c col probe → c.truth h ω (some r) ≠ .ok .yes := by
    intro c hc
    rcases hashed_truth (h := h) (r := r) hc hd with he | he
    · rw [he]
      exact hne.1
    · rw [he]
      exact hne.2
  rw [chooseHash_append] at hhash
  cases hon : chooseHash on with
  | some p =>
    rw [hon, Option.some_or] at hhash
    obtain ⟨c, hmem, hc⟩ := chooseHash_mem (hon.trans hhash)
    exact Or.inl (check_ne_true (htruth hc) hmem)
  | none =>
    rw [hon, Option.none_or] at hhash
    obtain ⟨c, hmem, hc⟩ := chooseHash_mem hhash
    refine Or.inr ⟨check_ne_true (htruth hc) hmem, fun hl => ?_⟩
    have hno := (hclean.nulls hl).resolve_left (by rw [hon]; exact Bool.false_ne_true)
    have hnt := check_ne_true (h := h) (ω := ω) (hashed_null hc) hmem
    cases hcheck : check h ω none rest with
    | error e => exact absurd hcheck (hno e)
    | ok b =>
      cases b with
      | true => exact absurd hcheck hnt
      | false => rfl

theorem hashJoin_follows {h : Host} {left : Bool} {on rest : List (Cond Ω)} {col : Nat} {probe : Ω → Except Errno Datum}
    {rows : List Inner} (hhash : chooseHash (on ++ rest) = some (col, probe)) : ∀ {outer : List Ω} {xs : XScan},
      (∀ ω ∈ outer, Clean h left on rest col probe rows ω) → xs.rows = rows →
      xs.table.getD (hashBuild col rows) = hashBuild col rows →
      Follows (scanJoin h left on rest rows outer) (hashJoin h left on rest col probe xs outer)
  | [], _, _, _, _ => .refl _
  | ω :: ωs, xs, hclean, hrows, htable => by
    have hω := hclean ω (List.mem_cons_self ..)
    obtain ⟨d, hd⟩ := hω.answers
    subst hrows
    rw [scanJoin, hashJoin, probe_offers htable hd]
    dsimp only
    refine Follows.andThen ?_ (hashJoin_follows hhash (fun ω' hω' => hclean ω' (List.mem_cons_of_mem ω hω')) rfl rfl)
    have hlevel : Follows (level h left on rest ω xs.rows false)
        (level h left on rest ω (xs.rows.filter (offers col d)) false) :=
      level_filter (fun r hr hnot => dropped_of_not_offered hhash hω hd hr hnot) (fun he => he)
      (fun hne => absurd rfl hne)
    exact ⟨hlevel.begins.map _, fun hs => by rw [hlevel.same hs]⟩

/-- **A hash join gives what the nested loop gives**, in the order and as often as it does, the NULL-extended rows with
them, up to where the loop refuses; it refuses only if the loop does. -/
theorem hash_join {h : Host} {left : Bool} {on rest : List (Cond Ω)} {col : Nat} {probe : Ω → Except Errno Datum}
    {rows : List Inner} {outer : List Ω} (hhash : chooseHash (on ++ rest) = some (col, probe))
    (hclean : ∀ ω ∈ outer, Clean h left on rest col probe rows ω) :
    Follows (scanJoin h left on rest rows outer) (hashJoin h left on rest col probe ⟨rows, none⟩ outer) :=
  hashJoin_follows hhash hclean rfl rfl

/-- A host that reads no text but the digit three. -/
def threes : Host := ⟨fun t _ => if t = [byte 51] then some (.number (.exact 3)) else none, fun _ _ => none⟩

/-- `on b.k = a.k`. -/
def sameKey : List (Cond (Except Errno Datum)) := [.eq (.col 0) (.before id)]

def three : Datum := .keyed (.number (.exact 3))

def column (l : List Datum) : List Inner := l.map (fun d _ => d)

/-- A LEFT join of 3 with 3.0, NULL and 3. -/
theorem hash_join_three :
    Follows (scanJoin threes true sameKey [] (column [.keyed (.number (.inexact 0x4008000000000000)), .keyed .unknown,
      three])
        [.ok three])
      (hashJoin threes true sameKey [] 0 id
        ⟨column [.keyed (.number (.inexact 0x4008000000000000)), .keyed .unknown, three], none⟩ [.ok three]) := by
  refine hash_join rfl (fun ω hω => ?_)
  rw [List.mem_singleton] at hω
  subst hω
  refine ⟨⟨three, rfl⟩, fun d hd r hr heq => ?_, fun d hd r hr => ?_, fun _ => Or.inl rfl⟩
  · cases hd
    simp only [column, List.map_cons, List.map_nil, List.mem_cons, List.not_mem_nil, or_false] at hr
    rcases hr with rfl | rfl | rfl
    · rfl
    · rw [equals_null (Or.inl rfl), equals_null (Or.inr rfl)] at heq
      rcases heq with heq | heq <;> cases heq
    · rfl
  · cases hd
    simp only [column, List.map_cons, List.map_nil, List.mem_cons, List.not_mem_nil, or_false] at hr
    rcases hr with rfl | rfl | rfl <;> trivial

def text (l : List (Fin 256)) (h : l.length < 2 ^ 64) : Datum := .keyed (.string ⟨l, h⟩)

/-- **Text that is no number is refused by the nested loop** and never met by the hash. -/
theorem refusals_differ :
    (scanJoin threes false sameKey [] (column [text [byte 120] (by decide)]) [.ok three]).refused = some .expression ∧
      (hashJoin threes false sameKey [] 0 id ⟨column [text [byte 120] (by decide)], none⟩ [.ok three]).refused =
      none := by
  refine ⟨?_, ?_⟩ <;> decide +kernel

/-! ## Where the two part -/

/-- **A value of another kind has another key**, and its row is not offered, also where the comparison converts it and
finds it equal. -/
theorem other_kind_lost {v w : Value} {r : Inner} (hr : r col = .keyed v) (hrank : v.rank ≠ w.rank) :
    offers col (.keyed w) r = false := by
  rw [offers, isNull_keyed]
  by_cases hw : w.rank = 5
  · rw [decide_eq_true hw, if_pos rfl]
  · rw [decide_eq_false hw, if_neg Bool.false_ne_true, groupKey_keyed hw, hr]
    dsimp only
    refine decide_eq_false (fun hkey => ?_)
    by_cases hv : v.rank = 5
    · rw [groupKey_null hv] at hkey
      cases hkey
    · rw [groupKey_keyed hv] at hkey
      exact code_ne_of_rank hrank (Option.some.inj hkey)

/-- Text that reads as 3 is equal to 3, and has another key. -/
example : (scanJoin threes false sameKey [] (column [text [byte 51] (by decide)]) [.ok three]).rows.length = 1 ∧
    (hashJoin threes false sameKey [] 0 id ⟨column [text [byte 51] (by decide)], none⟩ [.ok three]).rows.length =
    0 := by
  refine ⟨?_, ?_⟩ <;> decide +kernel

/-- **A probe that is refused refuses the join before any row**, of which the loop may have none to evaluate it for. -/
theorem probe_refused_first (h : Host) (on rest : List (Cond Ω)) (col : Nat) {probe : Ω → Except Errno Datum}
    (xs : XScan)
    {ω : Ω} {outer : List Ω} {e : Errno} (he : probe ω = .error e) (left : Bool) :
    hashJoin h left on rest col probe xs (ω :: outer) = ⟨[], some e⟩ ∧
      scanJoin h false on rest [] (ω :: outer) = ⟨[], none⟩ := by
  refine ⟨?_, ?_⟩
  · rw [hashJoin, hashProbe, he]
  · generalize ω :: outer = ωs
    induction ωs with
    | nil => rfl
    | cons ω' ωs ih =>
      rw [scanJoin, ih, level, if_neg (by simp)]
      rfl

/-- **WHERE is asked of a row that NULLs extend** where the hashed condition is one of it and no row is offered, and may
refuse it; the loop finds every row to match and extends none. -/
theorem where_refused_extended {h : Host} {rest : List (Cond Ω)} {probe : Ω → Except Errno Datum} {rows : List Inner}
    {ω : Ω} {e : Errno} (hd : probe ω = .ok d) (hnone : ∀ r ∈ rows, offers col d r = false)
    (hrefused : check h ω none rest = .error e) (hsome : rows ≠ [])
    (hfalse : ∀ r ∈ rows, check h ω (some r) rest = .ok false) :
    (hashJoin h true [] rest col probe ⟨rows, none⟩ [ω]).refused = some e ∧
      (scanJoin h true [] rest rows [ω]).refused = none := by
  have hmatched : ∀ rows : List Inner, (∀ r ∈ rows, check h ω (some r) rest = .ok false) →
      level h true [] rest ω rows true = ⟨[], none⟩ := by
    intro rows
    induction rows with
    | nil => exact fun _ => rfl
    | cons r rows ih =>
      intro hrows
      rw [level, check, hrows r (List.mem_cons_self ..)]
      exact ih (fun r' hr' => hrows r' (List.mem_cons_of_mem r hr'))
  refine ⟨?_, ?_⟩
  · rw [hashJoin, probe_offers rfl hd, List.filter_eq_nil_iff.2
      (fun r hr => by rw [hnone r hr]; exact Bool.false_ne_true)]
    dsimp only
    rw [level, if_pos ⟨rfl, rfl⟩, hrefused]
    rfl
  · obtain ⟨r, rows, rfl⟩ := List.exists_cons_of_ne_nil hsome
    rw [scanJoin, level, check, hfalse r (List.mem_cons_self ..)]
    dsimp only
    rw [hmatched rows (fun r' hr' => hfalse r' (List.mem_cons_of_mem r hr'))]
    rfl

end HashJoin
end Gbasic
