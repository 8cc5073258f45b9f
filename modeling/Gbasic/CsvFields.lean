import Gbasic.CsvMoves
/-!
# CsvFields — what is read of a field as it is written

A field is written plain, or between quotes with each quote of its own twice.  Read back, it is the bytes that it was,
and the reader stands behind it, so many bytes and lines on (`plain_reads`, `quoted_reads`).
-/
namespace Gbasic
namespace Csv

variable {r r' : Reader} {c q : Byte} {n opened m : Nat} {l a b : Bytes}

def breaks : Bytes → Nat
  | [] => 0
  | [c] => if c = cr ∨ c = lf then 1 else 0
  | c :: c' :: l =>
    if c = cr ∧ c' = lf then 1 + breaks l
    else if c = cr ∨ c = lf then 1 + breaks (c' :: l)
    else breaks (c' :: l)

/-- How a quote is told and written: what the options accept. -/
structure Format where
  delimiter : Byte
  quote : Option Byte
  delimiter_ne : isBreak (some delimiter) = false
  quote_ne : isBreak quote = false
  differ : quote ≠ some delimiter

def Format.quoteInt (F : Format) : Int := cint F.quote

def double (q : Byte) (s : Bytes) : Bytes := s.flatMap (fun c => if c = q then [c, c] else [c])

def between (q : Byte) (s : Bytes) : Bytes := q :: double q s ++ [q]

theorem breaks_lf (s : Bytes) : breaks (lf :: s) = 1 + breaks s := by
  cases s with
  | nil => rfl
  | cons c s =>
    rw [breaks, if_neg (by simp [show lf ≠ cr by decide]), if_pos (.inr rfl)]

theorem breaks_crlf (s : Bytes) : breaks (cr :: lf :: s) = 1 + breaks s := by
  rw [breaks, if_pos ⟨rfl, rfl⟩]

theorem breaks_cr {s : Bytes} (h : s.head? ≠ some lf) : breaks (cr :: s) = 1 + breaks s := by
  cases s with
  | nil => rfl
  | cons c s =>
    rw [breaks, if_neg (fun hc => h (by rw [hc.2]; rfl)), if_pos (.inl rfl)]

theorem breaks_else (hc : isBreak (some c) = false) (s : Bytes) : breaks (c :: s) = breaks s := by
  have hne : ¬(c = cr ∨ c = lf) := by simpa [isBreak] using hc
  cases s with
  | nil => exact if_neg hne
  | cons c' s =>
    rw [breaks, if_neg (fun h => hne (.inl h.1)), if_neg hne]

theorem double_quote (q : Byte) (s : Bytes) : double q (q :: s) = q :: q :: double q s := by
  unfold double
  rw [List.flatMap_cons, if_pos rfl]
  rfl

theorem double_ne (h : c ≠ q) (s : Bytes) : double q (c :: s) = c :: double q s := by
  unfold double
  rw [List.flatMap_cons, if_neg h]
  rfl

theorem double_head {s : Bytes} (rest : Bytes) (hq : isBreak (some q) = false) (h : s.head? ≠ some lf) :
    (double q s ++ q :: rest).head? ≠ some lf := by
  have hlf : some q ≠ some lf := by
    rintro hq'
    rw [Option.some.inj hq'] at hq
    cases hq
  cases s with
  | nil => exact hlf
  | cons c s =>
    by_cases hc : c = q
    · rw [hc, double_quote]
      exact hlf
    · rw [double_ne hc]
      exact h

namespace Reader

structure Moved (r r' : Reader) (read added : Bytes) (lines : Nat) : Prop extends Kept r r' where
  unread : r.src.unread = read ++ r'.src.unread
  consumed : r'.consumed = r.consumed + read.length
  line : r'.line = r.line + lines
  buf : r'.fieldBuf = r.fieldBuf ++ added
  problem : r'.problem = r.problem

theorem Moved.trans {r'' : Reader} {a' b' : Bytes} {m' : Nat} (h : Moved r r' a b m) (h' : Moved r' r'' a' b' m') :
    Moved r r'' (a ++ a') (b ++ b') (m + m') := by
  refine ⟨h.toKept.trans h'.toKept, ?_, ?_, ?_, ?_, h'.problem.trans h.problem⟩
  · rw [h.unread, h'.unread, List.append_assoc]
  · rw [h'.consumed, h.consumed, List.length_append, Nat.add_assoc]
  · rw [h'.line, h.line, Nat.add_assoc]
  · rw [h'.buf, h.buf, List.append_assoc]

theorem moved_peek (r : Reader) : Moved r r.peek.2 [] [] 0 :=
  ⟨kept_peek r, (unread_peek r).symm, rfl, rfl, (List.append_nil _).symm, rfl⟩

theorem Looked.moved (h : r.Looked) (hu : r.src.unread = c :: l) : Moved r r.take [c] [] 0 := by
  refine ⟨kept_take r, ?_, rfl, rfl, (List.append_nil _).symm, rfl⟩
  rw [h.take, hu]
  rfl

theorem moved_newLine (r : Reader) : Moved r r.newLine [] [] 1 := ⟨kept_newLine r, rfl, rfl, rfl,
    (List.append_nil _).symm, rfl⟩

theorem moved_put (h : r.put c = .ok r') : Moved r r' [] [c] 0 := by
  refine ⟨kept_put h, ?_, ?_, ?_, ?_, ?_⟩ <;> unfold put at h <;> split_ifs at h <;> rw [← Except.ok.inj h] <;> rfl

theorem moved_take (hu : r.src.unread = c :: l) : Moved r r.peek.2.take [c] [] 0 := by
  have hpu : r.peek.2.src.unread = c :: l := by
    rw [unread_peek, hu]
  exact (moved_peek r).trans ((looked_peek r).moved hpu)

theorem Moved.unread_eq (h : Moved r r' a b m) (hu : r.src.unread = a ++ l) :
    r'.src.unread = l := List.append_cancel_left (h.unread.symm.trans hu)

theorem Moved.put (h : Moved r r' a b m) (c : Byte) (hlen : r.fieldBuf.length + b.length < GB_CSV_MAX_RECORD) :
    ∃ r'', r'.put c = .ok r'' ∧ Moved r r'' a (b ++ [c]) m ∧ r''.src = r'.src := by
  have hlen' : r'.fieldBuf.length < GB_CSV_MAX_RECORD := by
    rw [h.buf, List.length_append]
    exact hlen
  obtain ⟨cap, hput⟩ := put_ok (c := c) hlen'
  have hmoved := h.trans (moved_put hput)
  rw [List.append_nil] at hmoved
  exact ⟨_, hput, hmoved, rfl⟩

theorem head_peek (hu : r.src.unread = c :: l) : r.peek.1 = some c := by
  rw [peek_fst, hu]
  rfl

def StopsAt (d : Byte) (c : Option Byte) : Prop := c = none ∨ cint c = schar d ∨ isBreak c = true

theorem plain_stop (h : StopsAt r.delimiter r.peek.1) : r.plain (n + 1) = .ok r.peek := by
  unfold plain
  rcases hpeek : r.peek with ⟨_ | c, p⟩
  · rfl
  · have hp : p = r.peek.2 := by rw [hpeek]
    rw [hpeek] at h
    subst hp
    rcases h with h | h
    · cases h
    · exact if_pos h

theorem plain_go (hc : r.peek.1 = some c) (h : ¬StopsAt r.delimiter (some c)) :
    r.plain (n + 1) = r.peek.2.take.put c >>= plain n := by
  unfold plain
  rcases hpeek : r.peek with ⟨_ | b, p⟩ <;> rw [hpeek] at hc
  · cases hc
  · obtain rfl : b = c := Option.some.inj hc
    have hp : p = r.peek.2 := by rw [hpeek]
    subst hp
    exact if_neg (fun hstop => h (.inr hstop))

/-- **Plain text is read to where it stops.** -/
theorem plain_reads : ∀ {s rest : Bytes} {n : Nat} {r : Reader}, s.length < n → r.src.unread = s ++ rest →
    (∀ c ∈ s, ¬StopsAt r.delimiter (some c)) → StopsAt r.delimiter rest.head? →
    r.fieldBuf.length + s.length ≤ GB_CSV_MAX_RECORD → ∃ r', r.plain n = .ok (rest.head?, r') ∧ Moved r r' s s 0
  | [], rest, n + 1, r, _, hu, _, hstop, _ => by
    have hfst : r.peek.1 = rest.head? := by
      rw [peek_fst, hu]
      rfl
    rw [← hfst] at hstop ⊢
    exact ⟨r.peek.2, plain_stop hstop, moved_peek r⟩
  | c :: s, rest, n + 1, r, hn, hu, hs, hstop, hlen => by
    rw [List.length_cons] at hn hlen
    obtain ⟨r₁, hput, hmoved, -⟩ := (moved_take hu).put c (by rw [List.length_nil]; omega)
    have hbuf : r₁.fieldBuf.length = r.fieldBuf.length + 1 := by
      rw [hmoved.buf, List.length_append]
      rfl
    have hgo := plain_go (n := n) (head_peek hu) (hs c (List.mem_cons_self ..))
    rw [← hmoved.delimiter] at hs hstop
    obtain ⟨r', hplain, hm'⟩ := plain_reads (n := n) (by omega) (hmoved.unread_eq hu)
      (fun b hb => hs b (List.mem_cons_of_mem _ hb)) hstop (by omega)
    refine ⟨r', ?_, hmoved.trans hm'⟩
    rw [hgo, hput]
    exact hplain

/-! ## Between quotes -/

theorem quoted_go (hc : r.peek.1 = some c) (hq : cint (some c) ≠ r.quote) (hlf : c ≠ lf) (hcr : c ≠ cr) :
    r.quoted opened (n + 1) = r.peek.2.take.put c >>= quoted opened n := by
  unfold quoted
  rcases hpeek : r.peek with ⟨_ | b, p⟩ <;> rw [hpeek] at hc
  · cases hc
  · obtain rfl : b = c := Option.some.inj hc
    have hp : p = r.peek.2 := by rw [hpeek]
    subst hp
    exact (if_neg hq).trans ((if_neg hlf).trans (if_neg hcr))

theorem quoted_lf (hc : r.peek.1 = some lf) (hq : cint (some lf) ≠ r.quote) :
    r.quoted opened (n + 1) = r.peek.2.take.newLine.put lf >>= quoted opened n := by
  unfold quoted
  rcases hpeek : r.peek with ⟨_ | b, p⟩ <;> rw [hpeek] at hc
  · cases hc
  · obtain rfl : b = lf := Option.some.inj hc
    have hp : p = r.peek.2 := by rw [hpeek]
    subst hp
    exact (if_neg hq).trans (if_pos rfl)

theorem quoted_cr (hc : r.peek.1 = some cr) (hq : cint (some cr) ≠ r.quote) :
    r.quoted opened (n + 1) = if r.peek.2.take.peek.1 = some lf then
        r.peek.2.take.peek.2.put cr >>= fun r => r.take.newLine.put lf >>= quoted opened n
      else r.peek.2.take.peek.2.newLine.put cr >>= quoted opened n := by
  unfold quoted
  rcases hpeek : r.peek with ⟨_ | b, p⟩ <;> rw [hpeek] at hc
  · cases hc
  · obtain rfl : b = cr := Option.some.inj hc
    have hp : p = r.peek.2 := by rw [hpeek]
    subst hp
    exact (if_neg hq).trans ((if_neg (by decide)).trans (if_pos rfl))

theorem quoted_quote (hc : r.peek.1 = some c) (hq : cint (some c) = r.quote) :
    r.quoted opened (n + 1) = if cint r.peek.2.take.peek.1 = r.quote then
        r.peek.2.take.peek.2.take.put c >>= quoted opened n
      else .ok r.peek.2.take.peek.2 := by
  unfold quoted
  rcases hpeek : r.peek with ⟨_ | b, p⟩ <;> rw [hpeek] at hc
  · cases hc
  · obtain rfl : b = c := Option.some.inj hc
    have hp : p = r.peek.2 := by rw [hpeek]
    subst hp
    exact if_pos hq

theorem cint_quote : cint (some c) = (q.val : Int) ↔ c = q := by
  constructor
  · intro h
    have hval : (c.val : Int) = q.val := h
    exact Fin.ext (by exact_mod_cast hval)
  · rintro rfl
    rfl

theorem cint_head : cint l.head? = (q.val : Int) ↔ l.head? = some q := by
  cases l with
  | nil =>
    constructor
    · intro h
      exact absurd h (by change (-1 : Int) ≠ q.val; omega)
    · intro h
      cases h
  | cons c l => exact cint_quote.trans (by rw [List.head?_cons, Option.some.injEq])

/-- **What is between quotes is read to the one that closes them.** -/
theorem quoted_reads {q : Byte} (hq : isBreak (some q) = false) {opened : Nat} :
    ∀ {n : Nat} {s rest : Bytes} {r : Reader},
    (double q s).length < n → r.quote = q.val → r.src.unread = double q s ++ q :: rest → rest.head? ≠ some q →
      r.fieldBuf.length + s.length ≤ GB_CSV_MAX_RECORD →
      ∃ r', r.quoted opened n = .ok r' ∧ Moved r r' (double q s ++ [q]) s (breaks s)
  | n + 1, [], rest, r, hn, hquote, hu, hrest, hlen => by
    have htake := moved_take (r := r) (c := q) (l := rest) hu
    refine ⟨r.peek.2.take.peek.2, ?_, htake.trans (moved_peek _)⟩
    rw [quoted_quote (head_peek (l := rest) hu) (by rw [hquote]; rfl), peek_fst, htake.unread_eq (l := rest) hu, hquote,
      if_neg]
    rw [cint_head]
    exact hrest
  | n + 1, c :: s, rest, r, hn, hquote, hu, hrest, hlen => by
    rw [List.length_cons] at hlen
    have hqb : q ≠ cr ∧ q ≠ lf := by simpa [isBreak] using hq
    have hroom : r.fieldBuf.length + 0 < GB_CSV_MAX_RECORD := by omega
    -- The rest of the field, from a reader that has put a byte, or a line break of two.
    have hon : ∀ {a b s' : Bytes} {m : Nat} {r₁ : Reader}, Moved r r₁ a b m → (double q s').length < n →
        r.src.unread = a ++ (double q s' ++ q :: rest) → b.length + s'.length ≤ s.length + 1 →
        ∃ r', r₁.quoted opened n = .ok r' ∧ Moved r r' (a ++ (double q s' ++ [q])) (b ++ s') (m + breaks s') := by
      intro a b s' m r₁ hmoved hn' hu' hlen'
      have hbuf : r₁.fieldBuf.length = r.fieldBuf.length + b.length := by
        rw [hmoved.buf, List.length_append]
      obtain ⟨r', hquoted, hm'⟩ := quoted_reads hq (n := n) hn' (hmoved.quote.trans hquote) (hmoved.unread_eq hu') hrest
        (by omega)
      exact ⟨r', hquoted, hmoved.trans hm'⟩
    by_cases hcq : c = q
    · -- A quote of the field's own, which is written twice.
      subst hcq
      rw [double_quote] at hn hu
      have htake := moved_take hu
      have hu₁ := htake.unread_eq (l := c :: (double c s ++ c :: rest)) hu
      obtain ⟨r₁, hput, hmoved, -⟩ := (htake.trans (moved_take hu₁)).put c hroom
      obtain ⟨r', hquoted, hm'⟩ := hon hmoved (by simp at hn; omega) hu (Nat.add_comm 1 s.length).le
      refine ⟨r', ?_, ?_⟩
      · rw [quoted_quote (head_peek hu) (by rw [hquote]; rfl), head_peek hu₁, hquote, if_pos (cint_quote.2 rfl), hput]
        exact hquoted
      · rw [double_quote, breaks_else hq]
        rw [Nat.zero_add] at hm'
        exact hm'
    · have hqc : cint (some c) ≠ r.quote := by
        rw [hquote]
        exact fun h => hcq (cint_quote.1 h)
      rw [double_ne hcq] at hn hu
      rw [double_ne hcq]
      have htake := moved_take hu
      have hu₁ := htake.unread_eq (l := double q s ++ q :: rest) hu
      by_cases hlf : c = lf
      · subst hlf
        obtain ⟨r₁, hput, hmoved, -⟩ := (htake.trans (moved_newLine _)).put lf hroom
        obtain ⟨r', hquoted, hm'⟩ := hon hmoved (by simp at hn; omega) hu (Nat.add_comm 1 s.length).le
        refine ⟨r', ?_, ?_⟩
        · rw [quoted_lf (head_peek hu) hqc, hput]
          exact hquoted
        · rw [breaks_lf]
          exact hm'
      · by_cases hcr : c = cr
        · subst hcr
          rw [quoted_cr (head_peek hu) hqc, peek_fst, hu₁]
          by_cases hnext : s.head? = some lf
          · -- A carriage return and a line feed are one line.
            obtain ⟨s, rfl⟩ : ∃ s', s = lf :: s' := by
              cases s with
              | nil => cases hnext
              | cons c s => exact ⟨s, by rw [Option.some.inj hnext]⟩
            rw [double_ne hqb.2.symm] at hn hu hu₁
            rw [double_ne hqb.2.symm]
            rw [List.length_cons] at hlen
            obtain ⟨r₁, hput, hmoved, hsrc⟩ := (htake.trans (moved_peek _)).put cr hroom
            have hlooked : r₁.Looked := by
              unfold Looked
              rw [hsrc]
              exact r.peek.2.take.looked_peek
            have hu₂ := hmoved.unread_eq (l := lf :: (double q s ++ q :: rest)) hu
            obtain ⟨r₂, hput₂, hmoved₂, -⟩ := ((hmoved.trans (hlooked.moved hu₂)).trans (moved_newLine _)).put lf
              (show r.fieldBuf.length + 1 < GB_CSV_MAX_RECORD by omega)
            obtain ⟨r', hquoted, hm'⟩ := hon hmoved₂ (by simp at hn; omega) hu (Nat.add_comm 2 s.length).le
            have hhead : (lf :: double q s ++ q :: rest).head? = some lf := rfl
            refine ⟨r', ?_, ?_⟩
            · rw [if_pos hhead, hput]
              change (r₁.take.newLine.put lf >>= quoted opened n) = _
              rw [hput₂]
              exact hquoted
            · rw [breaks_crlf]
              exact hm'
          · obtain ⟨r₁, hput, hmoved, -⟩ := ((htake.trans (moved_peek _)).trans (moved_newLine _)).put cr hroom
            obtain ⟨r', hquoted, hm'⟩ := hon hmoved (by simp at hn; omega) hu (Nat.add_comm 1 s.length).le
            refine ⟨r', ?_, ?_⟩
            · rw [if_neg (double_head rest hq hnext), hput]
              exact hquoted
            · rw [breaks_cr hnext]
              exact hm'
        · obtain ⟨r₁, hput, hmoved, -⟩ := htake.put c hroom
          obtain ⟨r', hquoted, hm'⟩ := hon hmoved (by simp at hn; omega) hu (Nat.add_comm 1 s.length).le
          refine ⟨r', ?_, ?_⟩
          · rw [quoted_go (head_peek hu) hqc hlf hcr, hput]
            exact hquoted
          · rw [breaks_else (by simp [isBreak, hcr, hlf])]
            rw [Nat.zero_add] at hm'
            exact hm'

end Reader
end Csv
end Gbasic
