import Gbasic.CsvReader
/-!
# CsvMoves — what the reader's loops do

A loop that has a turn for every byte that is unread stops (`plain_stops`, `quoted_stops`), and so does a call where the
delimiter is not the byte that is the end's as a `char` (`next_stops`); where it is, a call that comes to the end of the
input within a record never does (`next_spins`).
-/
namespace Gbasic
namespace Csv

namespace Reader

variable {r r' : Reader} {c : Byte} {b : Nat}

theorem peek_fst (r : Reader) : r.peek.1 = r.src.unread.head? := r.src.peek_fst

@[simp] theorem unread_peek (r : Reader) : r.peek.2.src.unread = r.src.unread := r.src.unread_peek

def Looked (r : Reader) : Prop := r.src.take.unread = r.src.unread.tail

theorem looked_peek (r : Reader) : r.peek.2.Looked := by
  unfold Looked
  rw [unread_peek]
  exact r.src.unread_take

theorem Looked.take (h : r.Looked) : r.take.src.unread = r.src.unread.tail := h

theorem unread_take (r : Reader) : r.peek.2.take.src.unread = r.src.unread.tail := r.src.unread_take

/-- How many bytes are unread. -/
def left (r : Reader) : Nat := r.src.unread.length

theorem left_take (h : r.peek.1 = some c) : r.peek.2.take.left + 1 = r.left := by
  rw [peek_fst] at h
  unfold left
  rw [unread_take, List.length_tail]
  rcases hu : r.src.unread with _ | ⟨b, l⟩
  · rw [hu] at h
    cases h
  · rfl

theorem left_peek (r : Reader) : r.peek.2.left = r.left := by
  unfold left
  rw [unread_peek]

theorem put_src (h : r.put c = .ok r') : r'.src = r.src := by
  unfold put at h
  split_ifs at h <;> rw [← Except.ok.inj h]

theorem put_left (h : r.put c = .ok r') : r'.left = r.left := by
  unfold left
  rw [put_src h]

theorem put_cases (r : Reader) (c : Byte) :
    (∃ r', r.put c = .ok r') ∨ ∃ f, r.put c = .error (.failed f) := by
  rcases hput : r.put c with e | r'
  · unfold put at hput
    split_ifs at hput
    exact .inr ⟨_, by rw [← Except.error.inj hput]⟩
  · exact .inl ⟨r', rfl⟩

/-! ## What no loop changes -/

def CapOk (r : Reader) : Prop :=
  r.fieldBuf.length ≤ r.fieldCap ∧ (r.fieldCap = 0 ∨ ∃ k ≤ 18, r.fieldCap = 2 ^ (8 + k))

theorem CapOk.le (h : r.CapOk) : r.fieldBuf.length ≤ GB_CSV_MAX_RECORD := by
  obtain ⟨hle, hzero | ⟨k, hk, hcap⟩⟩ := h
  · omega
  · have hpow : 2 ^ (8 + k) ≤ 2 ^ 26 := Nat.pow_le_pow_right (by decide) (by omega)
    unfold GB_CSV_MAX_RECORD
    omega

theorem put_ok (hlen : r.fieldBuf.length < GB_CSV_MAX_RECORD) :
    ∃ cap, r.put c = .ok { r with fieldBuf := r.fieldBuf ++ [c], fieldCap := cap } := by
  unfold put
  by_cases hfull : r.fieldBuf.length = r.fieldCap
  · rw [if_pos hfull, if_neg (by omega)]
    exact ⟨_, rfl⟩
  · rw [if_neg hfull]
    exact ⟨r.fieldCap, rfl⟩

structure Kept (r r' : Reader) : Prop where
  delimiter : r'.delimiter = r.delimiter
  quote : r'.quote = r.quote
  starts : r'.starts = r.starts
  recLine : r'.recLine = r.recLine
  recOffset : r'.recOffset = r.recOffset
  started : r'.started = r.started
  held : r.fieldBuf <+: r'.fieldBuf
  cap : r.CapOk → r'.CapOk
  sound : r.src.Sound → r'.src.Sound

theorem Kept.trans {r'' : Reader} (h : Kept r r') (h' : Kept r' r'') : Kept r r'' :=
  ⟨h'.delimiter.trans h.delimiter, h'.quote.trans h.quote, h'.starts.trans h.starts, h'.recLine.trans h.recLine,
    h'.recOffset.trans h.recOffset, h'.started.trans h.started, h.held.trans h'.held, fun hc => h'.cap (h.cap hc),
    fun hs => h'.sound (h.sound hs)⟩

theorem Kept.refl (r : Reader) : Kept r r :=
  ⟨rfl, rfl, rfl, rfl, rfl, rfl, List.prefix_rfl, id, id⟩

theorem kept_peek (r : Reader) : Kept r r.peek.2 := ⟨rfl, rfl, rfl, rfl, rfl, rfl, List.prefix_rfl, id, fun h => h.peek⟩

theorem kept_take (r : Reader) : Kept r r.take := ⟨rfl, rfl, rfl, rfl, rfl, rfl, List.prefix_rfl, id, fun h => h.take⟩

theorem kept_newLine (r : Reader) : Kept r r.newLine :=
  ⟨rfl, rfl, rfl, rfl, rfl, rfl, List.prefix_rfl, id, id⟩

theorem kept_put (h : r.put c = .ok r') : Kept r r' := by
  unfold put at h
  split_ifs at h with hfull hmax hzero
  · obtain rfl := Except.ok.inj h
    refine ⟨rfl, rfl, rfl, rfl, rfl, rfl, List.prefix_append _ _, fun hcap => ⟨?_, .inr ⟨0, by omega, by rfl⟩⟩, id⟩
    change (r.fieldBuf ++ [c]).length ≤ 256
    rw [List.length_append, hfull, hzero, List.length_singleton]
    omega
  · obtain rfl := Except.ok.inj h
    refine ⟨rfl, rfl, rfl, rfl, rfl, rfl, List.prefix_append _ _, fun hcap => ?_, id⟩
    obtain ⟨hle, hz | ⟨k, hk, hcap⟩⟩ := hcap
    · exact absurd hz hzero
    · have hlt : k ≠ 18 := by
        rintro rfl
        exact hmax (by rw [hcap]; decide)
      refine ⟨?_, .inr ⟨k + 1, by omega, ?_⟩⟩
      · change (r.fieldBuf ++ [c]).length ≤ r.fieldCap * 2
        have hpos : 0 < 2 ^ (8 + k) := Nat.two_pow_pos _
        rw [List.length_append, hfull, hcap, List.length_singleton]
        omega
      · change r.fieldCap * 2 = _
        rw [hcap, ← Nat.pow_succ]
        rfl
  · obtain rfl := Except.ok.inj h
    refine ⟨rfl, rfl, rfl, rfl, rfl, rfl, List.prefix_append _ _, fun hcap => ⟨?_, hcap.2⟩, id⟩
    have hle := hcap.1
    change (r.fieldBuf ++ [c]).length ≤ r.fieldCap
    rw [List.length_append, List.length_singleton]
    omega

theorem kept_takeBreak (r : Reader) (c : Option Byte) : Kept r (r.takeBreak c) := by
  unfold takeBreak
  dsimp only
  split_ifs
  · exact ((kept_take r).trans (kept_peek _)).trans ((kept_take _).trans (kept_newLine _))
  · exact ((kept_take r).trans (kept_peek _)).trans (kept_newLine _)
  · exact (kept_take r).trans (kept_newLine _)

/-! ## The loops stop -/

def Stops {α : Type} (left : α → Nat) (bound : Nat) (x : Except Stop α) : Prop :=
  (∃ a, x = .ok a ∧ left a ≤ bound) ∨ ∃ f, x = .error (.failed f)

theorem Stops.put {α : Type} {left : α → Nat} {bound : Nat} {f : Reader → Except Stop α}
    (h : ∀ r', r.put c = .ok r' → r'.left = r.left → Stops left bound (f r')) : Stops left bound (r.put c >>= f) := by
  rcases r.put_cases c with ⟨r', hr'⟩ | ⟨e, he⟩
  · rw [hr']
    exact h r' hr' (put_left hr')
  · rw [he]
    exact .inr ⟨e, rfl⟩

theorem Stops.mono {α : Type} {left : α → Nat} {b' : Nat} {x : Except Stop α} (h : Stops left b x) (hle : b ≤ b') :
    Stops left b' x := by
  rcases h with ⟨a, ha, hb⟩ | hf
  · exact .inl ⟨a, ha, hb.trans hle⟩
  · exact .inr hf

theorem Stops.bind {α β : Type} {left : α → Nat} {left' : β → Nat} {b' : Nat} {x : Except Stop α}
    {f : α → Except Stop β} (h : Stops left b x) (hf : ∀ a, x = .ok a → left a ≤ b → Stops left' b' (f a)) :
    Stops left' b' (x >>= f) := by
  rcases h with ⟨a, ha, hb⟩ | ⟨e, he⟩
  · rw [ha]
    exact hf a ha hb
  · rw [he]
    exact .inr ⟨e, rfl⟩

theorem Stops.ne {α : Type} {left : α → Nat} {x : Except Stop α} (h : Stops left b x) : x ≠ .error .turns :=
    by
  intro hx
  rcases h with ⟨a, ha, -⟩ | ⟨f, hf⟩
  · rw [hx] at ha
    cases ha
  · rw [hx] at hf
    cases hf

theorem put_bind {α : Type} {f : Reader → Except Stop α} {a : α} (h : (r.put c >>= f) = .ok a) :
    ∃ r', r.put c = .ok r' ∧ f r' = .ok a := by
  rcases hput : r.put c with e | r'
  · rw [hput] at h
    cases h
  · rw [hput] at h
    exact ⟨r', rfl, h⟩

theorem plain_kept : ∀ {n : Nat} {r r' : Reader} {c : Option Byte}, r.plain n = .ok (c, r') →
    Kept r r' ∧ r'.Looked ∧ c = r'.src.unread.head? ∧ (c = none ∨ cint c = schar r.delimiter ∨ isBreak c = true)
  | 0, _, _, _, h => by cases h
  | n + 1, r, r', c, h => by
    unfold plain at h
    rcases hpeek : r.peek with ⟨_ | b, s⟩ <;> rw [hpeek] at h <;> dsimp only at h
    · obtain ⟨rfl, rfl⟩ := Prod.mk.inj (Except.ok.inj h)
      have hs : s = r.peek.2 := by rw [hpeek]
      have hc : r.peek.1 = none := by rw [hpeek]
      subst hs
      refine ⟨kept_peek r, looked_peek r, ?_, .inl rfl⟩
      rw [unread_peek, ← peek_fst, hc]
    · have hs : s = r.peek.2 := by rw [hpeek]
      have hc : r.peek.1 = some b := by rw [hpeek]
      subst hs
      split_ifs at h with hstop
      · obtain ⟨rfl, rfl⟩ := Prod.mk.inj (Except.ok.inj h)
        refine ⟨kept_peek r, looked_peek r, ?_, .inr hstop⟩
        rw [unread_peek, ← peek_fst, hc]
      · obtain ⟨r₁, hput, h⟩ := put_bind h
        obtain ⟨hkept, hlooked, hhead, hstops⟩ := plain_kept h
        have hk := ((kept_peek r).trans (kept_take _)).trans (kept_put hput)
        rw [hk.delimiter] at hstops
        exact ⟨hk.trans hkept, hlooked, hhead, hstops⟩

theorem quoted_kept {opened : Nat} : ∀ {n : Nat} {r r' : Reader}, r.quoted opened n = .ok r' → Kept r r' ∧ r'.Looked
  | 0, _, _, h => by cases h
  | n + 1, r, r', h => by
    unfold quoted at h
    rcases hpeek : r.peek with ⟨_ | b, s⟩ <;> rw [hpeek] at h <;> dsimp only at h
    · cases h
    · have hs : s = r.peek.2 := by rw [hpeek]
      subst hs
      have hk := (kept_peek r).trans (kept_take _)
      have hk' := hk.trans (kept_peek _)
      split_ifs at h with hquote hpair hlf hcr hcrlf
      · obtain ⟨r₁, hput, h⟩ := put_bind h
        obtain ⟨hkept, hlooked⟩ := quoted_kept h
        exact ⟨(hk'.trans ((kept_take _).trans (kept_put hput))).trans hkept, hlooked⟩
      · rw [← Except.ok.inj h]
        exact ⟨hk', looked_peek _⟩
      · obtain ⟨r₁, hput, h⟩ := put_bind h
        obtain ⟨hkept, hlooked⟩ := quoted_kept h
        exact ⟨(hk.trans ((kept_newLine _).trans (kept_put hput))).trans hkept, hlooked⟩
      · obtain ⟨r₁, hput, h⟩ := put_bind h
        obtain ⟨r₂, hput₂, h⟩ := put_bind h
        obtain ⟨hkept, hlooked⟩ := quoted_kept h
        have hk₁ := hk'.trans (kept_put hput)
        exact ⟨(hk₁.trans (((kept_take _).trans (kept_newLine _)).trans (kept_put hput₂))).trans hkept, hlooked⟩
      · obtain ⟨r₁, hput, h⟩ := put_bind h
        obtain ⟨hkept, hlooked⟩ := quoted_kept h
        exact ⟨(hk'.trans ((kept_newLine _).trans (kept_put hput))).trans hkept, hlooked⟩
      · obtain ⟨r₁, hput, h⟩ := put_bind h
        obtain ⟨hkept, hlooked⟩ := quoted_kept h
        exact ⟨(hk.trans (kept_put hput)).trans hkept, hlooked⟩

theorem plain_stops : ∀ {n : Nat} {r : Reader}, r.left < n → Stops (fun x => x.2.left) r.left (r.plain n)
  | n + 1, r, h => by
    unfold plain
    rcases hpeek : r.peek with ⟨_ | c, s⟩
    · have hs : s = r.peek.2 := by rw [hpeek]
      subst hs
      exact .inl ⟨_, rfl, r.left_peek.le⟩
    · have hc : r.peek.1 = some c := by rw [hpeek]
      have hs : s = r.peek.2 := by rw [hpeek]
      subst hs
      dsimp only
      split_ifs
      · exact .inl ⟨_, rfl, r.left_peek.le⟩
      · have htake := left_take hc
        apply Stops.put
        intro r' _ hr'
        exact (plain_stops (by omega)).mono (by omega)

theorem quoted_stops {o : Nat} : ∀ {n : Nat} {r : Reader}, r.left < n → Stops left r.left (r.quoted o n)
  | n + 1, r, h => by
    unfold quoted
    rcases hpeek : r.peek with ⟨_ | c, s⟩
    · exact .inr ⟨_, rfl⟩
    · have hc : r.peek.1 = some c := by rw [hpeek]
      have hs : s = r.peek.2 := by rw [hpeek]
      subst hs
      have htake := left_take hc
      have hlook := r.peek.2.take.left_peek
      dsimp only
      split_ifs with hquote hpair hlf hcr hcrlf
      · have hnext : r.peek.2.take.peek.2.take.left ≤ r.peek.2.take.left := by
          unfold left
          rw [unread_take, List.length_tail]
          omega
        apply Stops.put
        intro r' _ hr'
        exact (quoted_stops (by omega)).mono (by omega)
      · exact .inl ⟨_, rfl, by omega⟩
      · apply Stops.put
        intro r' _ hr'
        have hline : r.peek.2.take.newLine.left = r.peek.2.take.left := rfl
        exact (quoted_stops (by omega)).mono (by omega)
      · apply Stops.put
        intro r₁ h₁ hr₁
        have hnext : r₁.take.newLine.left ≤ r₁.left := by
          have hlooked : r₁.Looked := by
            unfold Looked
            rw [put_src h₁]
            exact r.peek.2.take.looked_peek
          unfold left
          change r₁.take.src.unread.length ≤ _
          rw [hlooked.take, List.length_tail]
          omega
        apply Stops.put
        intro r₂ _ hr₂
        exact (quoted_stops (by omega)).mono (by omega)
      · apply Stops.put
        intro r' _ hr'
        have hline : r.peek.2.take.peek.2.newLine.left = r.peek.2.take.peek.2.left := rfl
        exact (quoted_stops (by omega)).mono (by omega)
      · apply Stops.put
        intro r' _ hr'
        exact (quoted_stops (by omega)).mono (by omega)

theorem takeBreak_left {c : Option Byte} (hlook : r.Looked) (hc : r.src.unread ≠ []) :
    (r.takeBreak c).left + 1 ≤ r.left := by
  have htake : r.take.left + 1 = r.left := by
    unfold left
    rw [hlook.take, List.length_tail]
    have hpos := List.length_pos_of_ne_nil hc
    omega
  have hpeek := r.take.left_peek
  have hnext : r.take.peek.2.take.left ≤ r.take.left := by
    unfold left
    rw [unread_take, List.length_tail]
    omega
  unfold takeBreak
  dsimp only
  split_ifs
  · change r.take.peek.2.take.left + 1 ≤ _
    omega
  · change r.take.peek.2.left + 1 ≤ _
    omega
  · change r.take.left + 1 ≤ _
    omega

theorem afterQuote_src (r : Reader) : r.afterQuote.src = r.peek.2.src := by
  unfold afterQuote
  dsimp only
  split_ifs <;> rfl

theorem kept_afterQuote (r : Reader) : Kept r r.afterQuote := by
  unfold afterQuote
  dsimp only
  split_ifs
  · exact ⟨rfl, rfl, rfl, rfl, rfl, rfl, List.prefix_rfl, id, fun h => h.peek⟩
  · exact kept_peek r

theorem field_stops {n : Nat} (h : r.left < n) : Stops (fun x => x.2.left) r.left (r.field n) := by
  unfold field
  have hpeek : r.beginField.peek.2.left = r.left := left_peek _
  dsimp only
  split_ifs with hquote
  · have htake : r.beginField.peek.2.take.left ≤ r.left := by
      change (r.beginField.peek.2.take.src.unread).length ≤ _
      rw [unread_take, List.length_tail]
      exact Nat.sub_le ..
    have hstops := quoted_stops (o := r.beginField.peek.2.line) (by omega : r.beginField.peek.2.take.left < n)
    apply hstops.bind
    intro r₁ _ hle
    have hafter : r₁.afterQuote.left = r₁.left := by
      unfold left
      rw [afterQuote_src]
      exact congrArg List.length r₁.unread_peek
    exact (plain_stops (by omega)).mono (by omega)
  · exact (plain_stops (by omega)).mono (by omega)

theorem field_kept {n : Nat} {c : Option Byte} (h : r.field n = .ok (c, r')) :
    Kept r.beginField r' ∧ r'.Looked ∧ c = r'.src.unread.head? ∧
      (c = none ∨ cint c = schar r.delimiter ∨ isBreak c = true) := by
  unfold field at h
  dsimp only at h
  split_ifs at h with hquote
  · rcases hq : r.beginField.peek.2.take.quoted r.beginField.peek.2.line n with e | r₁
    · rw [hq] at h
      cases h
    · rw [hq] at h
      obtain ⟨hkept, hlooked, hhead, hstops⟩ := plain_kept h
      have hk := (((kept_peek r.beginField).trans (kept_take _)).trans (quoted_kept hq).1).trans (kept_afterQuote r₁)
      rw [hk.delimiter] at hstops
      exact ⟨hk.trans hkept, hlooked, hhead, hstops⟩
  · obtain ⟨hkept, hlooked, hhead, hstops⟩ := plain_kept h
    exact ⟨(kept_peek _).trans hkept, hlooked, hhead, hstops⟩

theorem cint_none (d : Byte) : cint none = schar d ↔ d.val = 255 := by
  have hd := d.isLt
  change (-1 : Int) = (if d.val < 128 then (d.val : Int) else d.val - 256) ↔ d.val = 255
  by_cases h : d.val < 128
  · rw [if_pos h]
    constructor <;> intro hv <;> omega
  · rw [if_neg h]
    constructor <;> intro hv <;> omega

/-- **A record stops**, unless the delimiter is the end's own `int`. -/
theorem fields_stops : ∀ {n : Nat} {r : Reader}, r.delimiter.val ≠ 255 → r.left + 1 < n → Stops left r.left (r.fields n)
  | n + 1, r, hd, h => by
    unfold fields
    apply (field_stops (by omega : r.left < n)).bind
    rintro ⟨c, r₁⟩ hfield hle
    obtain ⟨hkept, hlooked, hhead, -⟩ := field_kept hfield
    have hd₁ : r₁.delimiter = r.delimiter := hkept.delimiter
    dsimp only at hle ⊢
    split_ifs with hfailed hdelim hbreak
    · exact .inr ⟨_, rfl⟩
    · have hne : r₁.src.unread ≠ [] := by
        intro hnil
        rw [hhead, hnil, hd₁] at hdelim
        exact hd ((cint_none _).1 hdelim)
      have htake : r₁.take.left + 1 = r₁.left := by
        unfold left
        rw [hlooked.take, List.length_tail]
        have hpos := List.length_pos_of_ne_nil hne
        omega
      have hd₂ : r₁.take.delimiter.val ≠ 255 := by
        change r₁.delimiter.val ≠ 255
        rw [hd₁]
        exact hd
      exact (fields_stops hd₂ (by omega)).mono (by omega)
    · refine .inl ⟨_, rfl, ?_⟩
      have hne : r₁.src.unread ≠ [] := by
        intro hnil
        rw [hhead, hnil] at hbreak
        cases hbreak
      have := takeBreak_left (c := c) hlooked hne
      omega
    · exact .inl ⟨_, rfl, hle⟩

theorem skipBlank_stops : ∀ {n : Nat} {r : Reader}, r.left < n → Stops (fun x => x.2.left) r.left (r.skipBlank n)
  | n + 1, r, h => by
    unfold skipBlank
    split_ifs with hbreak
    · have hne : r.peek.2.src.unread ≠ [] := by
        intro hnil
        rw [unread_peek] at hnil
        rw [peek_fst, hnil] at hbreak
        cases hbreak
      have htake := takeBreak_left (c := r.peek.1) (looked_peek r) hne
      have hpeek := r.left_peek
      exact (skipBlank_stops (by omega)).mono (by omega)
    · exact .inl ⟨_, rfl, r.left_peek.le⟩

theorem skipBlank_kept : ∀ {n : Nat} {r r' : Reader} {c : Option Byte}, r.skipBlank n = .ok (c, r') →
    Kept r r' ∧ r'.Looked ∧ c = r'.src.unread.head? ∧ isBreak c = false
  | 0, _, _, _, h => by cases h
  | n + 1, r, r', c, h => by
    unfold skipBlank at h
    split_ifs at h with hbreak
    · obtain ⟨hkept, hrest⟩ := skipBlank_kept h
      exact ⟨((kept_peek r).trans (kept_takeBreak _ _)).trans hkept, hrest⟩
    · obtain rfl : r.peek.1 = c := congrArg Prod.fst (Except.ok.inj h)
      obtain rfl : r.peek.2 = r' := congrArg Prod.snd (Except.ok.inj h)
      refine ⟨kept_peek r, looked_peek r, ?_, eq_false_of_ne_true hbreak⟩
      rw [unread_peek, peek_fst]

/-- A call has an answer, however many turns beyond some. -/
def Terminates (r : Reader) : Prop := ∃ m, ∀ n ≥ m, r.gbCsvNext n ≠ .error .turns

theorem start_delimiter (r : Reader) : r.start.delimiter = r.delimiter := by
  unfold start
  dsimp only
  split_ifs <;> rfl

/-- **Every call has an answer** where the delimiter is not `0xFF`, of whatever is read. -/
theorem next_stops (hd : r.delimiter.val ≠ 255) : r.Terminates := by
  refine ⟨r.start.left + 2, fun n hn => ?_⟩
  have hstops : Stops (fun _ => 0) 0 (r.gbCsvNext n) := ?_
  · exact hstops.ne
  unfold gbCsvNext
  apply (skipBlank_stops (by omega : r.start.left < n)).bind
  rintro ⟨c, r₁⟩ hskip hle
  obtain ⟨hkept, -, -, -⟩ := skipBlank_kept hskip
  dsimp only at hle ⊢
  split_ifs with hfailed hnone
  · exact .inr ⟨_, rfl⟩
  · exact .inl ⟨_, rfl, le_rfl⟩
  · have hd₁ : r₁.delimiter.val ≠ 255 := by
      rw [hkept.delimiter, start_delimiter]
      exact hd
    have hleft : r₁.left + 1 < n := by
      omega
    have hfields := fields_stops (r := r₁.beginRecord) hd₁ hleft
    apply hfields.bind
    intro a _ _
    exact .inl ⟨_, rfl, le_rfl⟩

end Reader
end Csv
end Gbasic
