import Gbasic.CsvFields
/-!
# CsvRecord — what is read of a record as it is written

The fields of a record stand between delimiters, and a line break is after the last.  Read back, they are the fields
that they were (`fields_reads`), as long as the delimiter is a byte that a `char` has as it is or there is only one.
-/
namespace Gbasic
namespace Csv

open List (cons_append length_append append_assoc append_nil)

variable {r r' : Reader} {F : Format} {m : Nat} {c : Byte} {t a : Bytes}

/-! ## Line breaks -/

theorem breaks_plain {s : Bytes} (h : ∀ c ∈ s, isBreak (some c) = false) : breaks s = 0 := by
  induction s with
  | nil => rfl
  | cons c s ih =>
    rw [breaks_else (h c (List.mem_cons_self ..)), ih (fun b hb => h b (List.mem_cons_of_mem _ hb))]

theorem breaks_append : ∀ {s l : Bytes}, l.head? ≠ some lf ∨ s.getLast? ≠ some cr →
    breaks (s ++ l) = breaks s + breaks l
  | [], l, _ => by
    rw [List.nil_append, breaks, Nat.zero_add]
  | [c], l, h => by
    by_cases hcr : c = cr
    · subst hcr
      have hhead : l.head? ≠ some lf := h.resolve_right (fun h => h rfl)
      rw [List.singleton_append, breaks_cr hhead]
      rfl
    · by_cases hlf : c = lf
      · rw [hlf, List.singleton_append, breaks_lf]
        rfl
      · have hb : isBreak (some c) = false := by simp [isBreak, hcr, hlf]
        rw [List.singleton_append, breaks_else hb, breaks_plain (s := [c]) (by simpa using hb), Nat.zero_add]
  | c :: c' :: s, l, h => by
    rw [List.getLast?_cons_cons] at h
    have ih := breaks_append (s := c' :: s) h
    rw [cons_append] at ih
    by_cases hcrlf : c = cr ∧ c' = lf
    · have hs : l.head? ≠ some lf ∨ s.getLast? ≠ some cr := by
        cases s with
        | nil =>
          right
          intro h
          cases h
        | cons b s => exact h.imp_right (fun h => by rwa [List.getLast?_cons_cons] at h)
      rw [hcrlf.1, hcrlf.2, cons_append, cons_append, breaks_crlf, breaks_crlf, breaks_append hs,
        Nat.add_assoc]
    · by_cases hcr : c = cr
      · have hne : c' ≠ lf := fun h => hcrlf ⟨hcr, h⟩
        rw [hcr, cons_append, cons_append, breaks_cr (by simpa using hne), breaks_cr (by simpa using hne), ih,
          Nat.add_assoc]
      · by_cases hlf : c = lf
        · rw [hlf, cons_append, cons_append, breaks_lf, breaks_lf, ih, Nat.add_assoc]
        · have hb : isBreak (some c) = false := by simp [isBreak, hcr, hlf]
          rw [cons_append, cons_append, breaks_else hb, breaks_else hb, ih]

theorem breaks_double {q : Byte} (hq : isBreak (some q) = false) : ∀ s : Bytes, breaks (double q s) = breaks s
  | [] => rfl
  | c :: s => by
    have ih := breaks_double hq s
    by_cases hcq : c = q
    · rw [hcq, double_quote, breaks_else hq, breaks_else hq, breaks_else hq, ih]
    · rw [double_ne hcq]
      by_cases hlf : c = lf
      · rw [hlf, breaks_lf, breaks_lf, ih]
      · by_cases hcr : c = cr
        · subst hcr
          match s with
          | [] => rfl
          | c' :: s' =>
            by_cases hnext : c' = lf
            · have hne : lf ≠ q := by
                rintro rfl
                cases hq
              rw [hnext, double_ne hne, breaks_crlf, breaks_crlf, breaks_double hq s']
            · have hhead := double_head (q := q) (s := c' :: s') [] hq (by simpa using hnext)
              have hdouble : (double q (c' :: s')).head? ≠ some lf := by
                by_cases hc' : c' = q
                · rw [hc', double_quote]
                  rintro h
                  rw [Option.some.inj h] at hq
                  cases hq
                · rw [double_ne hc']
                  simpa using hnext
              rw [breaks_cr hdouble, breaks_cr (by simpa using hnext), ih]
        · have hb : isBreak (some c) = false := by simp [isBreak, hcr, hlf]
          rw [breaks_else hb, breaks_else hb, ih]

theorem breaks_between {q : Byte} (hq : isBreak (some q) = false) (s : Bytes) : breaks (between q s) = breaks s := by
  have hhead : ([q] : Bytes).head? ≠ some lf := by
    rintro h
    rw [Option.some.inj h] at hq
    cases hq
  unfold between
  rw [cons_append, breaks_else hq, breaks_append (.inl hhead), breaks_double hq,
    breaks_plain (s := [q]) (by simpa using hq), Nat.add_zero]

/-! ## A field -/

def Format.Form (F : Format) (w t : Bytes) : Prop :=
  w = t ∧ gbCsvNeedsQuote t F.delimiter F.quoteInt = false ∨ ∃ q, F.quote = some q ∧ w = between q t

theorem schar_cint {d : Byte} (h : cint (some c) = schar d) : c = d := by
  have hval : (c.val : Int) = schar d := h
  apply Fin.ext
  unfold schar at hval
  have hc := c.isLt
  split_ifs at hval <;> omega

theorem schar_inj {d : Byte} : schar c = schar d ↔ c = d := by
  constructor
  · intro h
    apply Fin.ext
    unfold schar at h
    have hc := c.isLt
    have hd := d.isLt
    split_ifs at h <;> omega
  · rintro rfl
    rfl

theorem needs_not (h : gbCsvNeedsQuote t F.delimiter F.quoteInt = false) (hc : c ∈ t) :
    c ≠ F.delimiter ∧ isBreak (some c) = false ∧ F.quote ≠ some c := by
  unfold gbCsvNeedsQuote at h
  rw [List.any_eq_false] at h
  have hne := h c hc
  rw [decide_eq_true_eq, not_or, not_or, not_or] at hne
  obtain ⟨hd, hcr, hlf, hq⟩ := hne
  refine ⟨fun heq => hd (schar_inj.2 heq), by simp [isBreak, hcr, hlf], fun hquote => hq ?_⟩
  unfold Format.quoteInt
  rw [hquote]
  exact ⟨Int.natCast_nonneg _, rfl⟩

def LineBreak (brk : Bytes) : Prop := brk = [lf] ∨ brk = [cr, lf]

theorem LineBreak.head {brk : Bytes} (h : LineBreak brk) : isBreak brk.head? = true := by
  rcases h with rfl | rfl <;> rfl

def joinFields (d : Byte) : List Bytes → Bytes
  | [] => []
  | [w] => w
  | w :: ws => w ++ d :: joinFields d ws

theorem joinFields_cons (d : Byte) (w w' : Bytes) (ws : List Bytes) :
    joinFields d (w :: w' :: ws) = w ++ d :: joinFields d (w' :: ws) := rfl

namespace Reader

/-- A reader's delimiter and quote are a format's. -/
structure Of (F : Format) (r : Reader) : Prop where
  delimiter : r.delimiter = F.delimiter
  quote : r.quote = F.quoteInt

theorem Of.kept (h : r.Of F) (hk : Kept r r') : r'.Of F :=
  ⟨hk.delimiter.trans h.delimiter, hk.quote.trans h.quote⟩

theorem quote_iff (h : r.Of F) {l : Bytes} : 0 ≤ r.quote ∧ cint l.head? = r.quote ↔
    ∃ q, F.quote = some q ∧ l.head? = some q := by
  rw [h.quote]
  unfold Format.quoteInt
  rcases hq : F.quote with _ | q
  · constructor
    · rintro ⟨hpos, -⟩
      exact absurd hpos (by decide)
    · rintro ⟨q, hq', -⟩
      cases hq'
  · rw [show cint (some q) = (q.val : Int) from rfl, cint_head]
    constructor
    · rintro ⟨-, hhead⟩
      exact ⟨q, rfl, hhead⟩
    · rintro ⟨q', hq', hhead⟩
      rw [Option.some.inj hq']
      exact ⟨Int.natCast_nonneg _, hhead⟩

/-- What is after a field: the delimiter, where it is seen, or a line break. -/
def Follows (F : Format) (c : Option Byte) : Prop := c = some F.delimiter ∧ F.delimiter.val < 128 ∨ isBreak c = true

theorem Follows.stops {c : Option Byte} (h : Follows F c) : StopsAt F.delimiter c := by
  rcases h with ⟨rfl, hd⟩ | h
  · exact .inr (.inl (if_pos hd).symm)
  · exact .inr (.inr h)

theorem Follows.ne_quote {c : Option Byte} (h : Follows F c) : ¬∃ q, F.quote = some q ∧ c = some q := by
  rintro ⟨q, hq, rfl⟩
  rcases h with ⟨hd, -⟩ | h
  · exact F.differ (by rw [hq, Option.some.inj hd])
  · have hne := F.quote_ne
    rw [hq, h] at hne
    cases hne

theorem afterQuote_stops (h : StopsAt r.delimiter r.peek.1) : r.afterQuote = r.peek.2 := by
  unfold afterQuote
  refine if_neg ?_
  rintro ⟨hsome, hdelim, hbreak, -⟩
  rcases h with h | h | h
  · exact hsome h
  · exact hdelim h
  · rw [h] at hbreak
    cases hbreak

/-- **A field is read as it was**, wherever it is written plain or between quotes. -/
theorem field_reads {w rest : Bytes} (hform : F.Form w t) {n : Nat} (hof : r.Of F) (hn : w.length < n)
    (hu : r.src.unread = w ++ rest) (hrest : Follows F rest.head?)
    (hlen : r.fieldBuf.length + t.length ≤ GB_CSV_MAX_RECORD) :
    ∃ r', r.field n = .ok (rest.head?, r') ∧ Moved r.beginField r' w t (breaks w) := by
  have hfst : r.beginField.peek.1 = (w ++ rest).head? := by
    rw [peek_fst]
    exact congrArg List.head? hu
  have hstop := hrest.stops
  rw [← hof.delimiter] at hstop
  unfold field
  dsimp only
  rcases hform with ⟨rfl, hneeds⟩ | ⟨q, hq, rfl⟩
  · have hplain : ¬∃ q, F.quote = some q ∧ (w ++ rest).head? = some q := by
      rintro ⟨q, hq, hhead⟩
      cases w with
      | nil => exact hrest.ne_quote ⟨q, hq, hhead⟩
      | cons c w =>
        rw [cons_append, List.head?_cons] at hhead
        exact (needs_not hneeds (List.mem_cons_self ..)).2.2 (hq.trans hhead.symm)
    have hquote : ¬(0 ≤ r.beginField.peek.2.quote ∧ cint r.beginField.peek.1 = r.beginField.peek.2.quote) := by
      rw [hfst]
      exact fun h => hplain ((quote_iff hof).1 h)
    rw [if_neg hquote]
    have hpu : r.beginField.peek.2.src.unread = w ++ rest := (unread_peek _).trans hu
    obtain ⟨r', hread, hmoved⟩ := plain_reads (r := r.beginField.peek.2) hn hpu
      (fun c hc => by
        rintro (h | h | h)
        · cases h
        · exact (needs_not hneeds hc).1 ((schar_cint h).trans hof.delimiter)
        · rw [(needs_not hneeds hc).2.1] at h
          cases h) hstop hlen
    refine ⟨r', hread, ?_⟩
    rw [breaks_plain (fun c hc => (needs_not hneeds hc).2.1)]
    exact (moved_peek _).trans hmoved
  · have hqb : isBreak (some q) = false := hq ▸ F.quote_ne
    have hlenw : (between q t).length = (double q t).length + 2 := by
      unfold between
      rw [cons_append, List.length_cons, length_append, List.length_singleton]
    have hquote : 0 ≤ r.beginField.peek.2.quote ∧ cint r.beginField.peek.1 = r.beginField.peek.2.quote := by
      rw [hfst]
      exact (quote_iff hof).2 ⟨q, hq, rfl⟩
    have hqi : r.quote = q.val := by
      rw [hof.quote, Format.quoteInt, hq]
      rfl
    rw [if_pos hquote]
    have hu' : r.beginField.src.unread = q :: (double q t ++ q :: rest) := by
      refine Eq.trans hu ?_
      unfold between
      rw [cons_append, cons_append, append_assoc]
      rfl
    have htake := moved_take hu'
    have hrest' : rest.head? ≠ some q := fun h => hrest.ne_quote ⟨q, hq, h⟩
    obtain ⟨r₁, hread, hmoved⟩ := quoted_reads hqb (r := r.beginField.peek.2.take) (n := n) (s := t) (by omega) hqi
      (htake.unread_eq hu') hrest' hlen
    have hu₁ : r₁.src.unread = rest := by
      refine hmoved.unread_eq ?_
      rw [htake.unread_eq (l := double q t ++ q :: rest) hu', append_assoc]
      rfl
    have hstop₁ : StopsAt r₁.delimiter r₁.peek.1 := by
      rw [hmoved.delimiter, peek_fst, hu₁]
      exact hstop
    have hstop₂ : StopsAt r₁.peek.2.delimiter r₁.peek.2.peek.1 := by
      rw [peek_fst, unread_peek, ← peek_fst]
      exact hstop₁
    obtain ⟨n, rfl⟩ : ∃ m, n = m + 1 := ⟨n - 1, by omega⟩
    have hplain := plain_stop (n := n) hstop₂
    refine ⟨r₁.peek.2.peek.2, ?_, ?_⟩
    · rw [hread]
      change plain (n + 1) r₁.afterQuote = _
      rw [afterQuote_stops hstop₁, hplain, ← hu₁, ← peek_fst, show r₁.peek.2.peek = (r₁.peek.2.peek.1,
        r₁.peek.2.peek.2) from rfl,
        peek_fst, unread_peek, ← peek_fst]
    · rw [breaks_between hqb]
      have hall := (htake.trans hmoved).trans ((moved_peek r₁).trans (moved_peek _))
      rw [append_nil, append_nil, append_nil, Nat.zero_add] at hall
      exact hall

/-! ## The fields of a record -/

def offsets : Nat → List Bytes → List Nat
  | _, [] => []
  | n, t :: ts => n :: offsets (n + t.length) ts

structure Begun (r r' : Reader) (read : Bytes) (ts : List Bytes) (lines : Nat) : Prop where
  starts : r'.starts = r.starts ++ offsets r.fieldBuf.length ts
  moved : Moved { r with starts := r'.starts } r' read ts.flatten lines

theorem Moved.withStarts {b : Bytes} (h : Moved r r' a b m) (l : List Nat) :
    Moved { r with starts := l } { r' with starts := l } a b m :=
  ⟨⟨h.delimiter, h.quote, rfl, h.recLine, h.recOffset, h.started, h.held, h.cap, h.sound⟩, h.unread, h.consumed,
    h.line, h.buf,
    h.problem⟩

theorem Begun.one {w : Bytes} (h : Moved r.beginField r' w t m) : Begun r r' w [t] m := by
  refine ⟨h.starts, ?_⟩
  rw [h.toKept.starts, List.flatten_singleton]
  exact h

theorem Begun.trans {r'' : Reader} {a' : Bytes} {ts ts' : List Bytes} {m' : Nat} (h : Begun r r' a ts m)
    (h' : Begun r' r'' a' ts' m') : Begun r r'' (a ++ a') (ts ++ ts') (m + m') := by
  have hoffsets : ∀ (ts ts' : List Bytes) (n : Nat),
      offsets n (ts ++ ts') = offsets n ts ++ offsets (n + ts.flatten.length) ts' := by
    intro ts ts'
    induction ts with
    | nil => intro n; rfl
    | cons t ts ih =>
      intro n
      rw [cons_append, offsets, ih, offsets, cons_append, List.flatten_cons, length_append,
        Nat.add_assoc]
  have hbuf : r'.fieldBuf.length = r.fieldBuf.length + ts.flatten.length := by
    rw [h.moved.buf, length_append]
  refine ⟨?_, ?_⟩
  · rw [h'.starts, h.starts, hoffsets, hbuf, append_assoc]
  · rw [List.flatten_append]
    exact (h.moved.withStarts r''.starts).trans h'.moved

theorem Begun.moving {r'' : Reader} {a' : Bytes} {ts : List Bytes} {m' : Nat} (h : Begun r r' a ts m)
    (h' : Moved r' r'' a' [] m') : Begun r r'' (a ++ a') ts (m + m') := by
  have hm := (h.moved.withStarts r''.starts).trans (h'.withStarts r''.starts)
  rw [append_nil] at hm
  exact ⟨h'.starts.trans h.starts, hm⟩

theorem takeBreak_reads {brk rest : Bytes} (hbrk : LineBreak brk) (hlook : r.Looked) (hu : r.src.unread = brk ++ rest) :
    Moved r (r.takeBreak brk.head?) brk [] 1 := by
  rcases hbrk with rfl | rfl
  · exact (hlook.moved hu).trans (moved_newLine _)
  · have htake := hlook.moved (c := cr) (l := lf :: rest) hu
    have hu₁ := htake.unread_eq (l := lf :: rest) hu
    unfold takeBreak
    dsimp only
    rw [if_pos (show ([cr, lf] : Bytes).head? = some cr from rfl), if_pos (head_peek hu₁)]
    exact (htake.trans (moved_take hu₁)).trans (moved_newLine _)

/-- **The fields of a record are read as they were**, and the line break after them. -/
theorem fields_reads {F : Format} {brk rest : Bytes} (hbrk : LineBreak brk) :
    ∀ {n : Nat} {ws ts : List Bytes} {r : Reader},
    List.Forall₂ F.Form ws ts → ws ≠ [] → F.delimiter.val < 128 ∨ ws.length = 1 → r.Of F → r.src.Sound →
      (joinFields F.delimiter ws).length + 1 < n → r.src.unread = joinFields F.delimiter ws ++ (brk ++ rest) →
      r.fieldBuf.length + ts.flatten.length ≤ GB_CSV_MAX_RECORD →
      ∃ r', r.fields n = .ok r' ∧
        Begun r r' (joinFields F.delimiter ws ++ brk) ts (breaks (joinFields F.delimiter ws) + 1)
  | n + 1, [w], _, r, .cons (b := t) hform .nil, _, _, hof, hsound, hn, hu, hlen => by
    have hhead : (brk ++ rest).head? = brk.head? := by
      rcases hbrk with rfl | rfl <;> rfl
    have hfollows : Follows F (brk ++ rest).head? := by
      rw [hhead]
      exact .inr hbrk.head
    rw [List.flatten_singleton] at hlen
    have hwlen : w.length < n := Nat.lt_of_succ_lt_succ hn
    obtain ⟨r₁, hfield, hmoved⟩ := field_reads hform hof hwlen hu hfollows hlen
    obtain ⟨hkept, hlooked, -, -⟩ := field_kept hfield
    have hu₁ := hmoved.unread_eq (l := brk ++ rest) hu
    refine ⟨r₁.takeBreak brk.head?, ?_, (Begun.one hmoved).moving (takeBreak_reads hbrk hlooked hu₁)⟩
    unfold fields
    rw [hfield, hhead]
    change (if r₁.src.failed = true then _ else if cint brk.head? = schar r₁.delimiter then _ else _) = _
    have hne : cint brk.head? ≠ schar r₁.delimiter := by
      rw [hkept.delimiter, show r.beginField.delimiter = F.delimiter from hof.delimiter]
      intro h
      have hd := F.delimiter_ne
      rcases hbrk with rfl | rfl <;> rw [← schar_cint h] at hd <;> cases hd
    rw [if_neg (by rw [(hkept.sound hsound).1]; decide), if_neg hne, if_pos hbrk.head]
    rfl
  | n + 1, w :: w' :: ws, _, r, @List.Forall₂.cons _ _ _ _ t _ ts hform hforms, _, hd, hof, hsound, hn, hu, hlen => by
    have hsmall : F.delimiter.val < 128 := by
      rcases hd with hd | hd
      · exact hd
      · simp at hd
    have hu' : r.src.unread = w ++ (F.delimiter :: (joinFields F.delimiter (w' :: ws) ++ (brk ++ rest))) := by
      rw [hu, joinFields_cons, append_assoc]
      rfl
    rw [joinFields_cons, length_append, List.length_cons] at hn
    rw [List.flatten_cons, length_append] at hlen
    obtain ⟨r₁, hfield, hmoved⟩ := field_reads (n := n) hform hof (by omega) hu' (.inl ⟨rfl, hsmall⟩) (by omega)
    obtain ⟨hkept, hlooked, -, -⟩ := field_kept hfield
    have hu₁ := hmoved.unread_eq hu'
    have hone := (Begun.one hmoved).moving (hlooked.moved hu₁)
    have hbuf : r₁.take.fieldBuf.length + ts.flatten.length ≤ GB_CSV_MAX_RECORD := by
      have heq : r₁.take.fieldBuf.length = r.fieldBuf.length + t.length := by
        rw [(hlooked.moved hu₁).buf, hmoved.buf, append_nil, length_append]
        rfl
      omega
    have hof' : r.beginField.Of F := ⟨hof.delimiter, hof.quote⟩
    have hof₁ : r₁.take.Of F := (hof'.kept hkept).kept (kept_take r₁)
    obtain ⟨r', hfields, hbegun⟩ := fields_reads hbrk (n := n) (r := r₁.take) hforms (by simp) (.inl hsmall) hof₁
      ((kept_take r₁).sound (hkept.sound hsound)) (by omega) ((hlooked.moved hu₁).unread_eq hu₁)
      hbuf
    refine ⟨r', ?_, ?_⟩
    · unfold fields
      rw [hfield]
      change (if r₁.src.failed = true then _ else if cint (some F.delimiter) = schar r₁.delimiter then _ else _) = _
      have hdelim : cint (some F.delimiter) = schar r₁.delimiter := by
        rw [hkept.delimiter, show r.beginField.delimiter = F.delimiter from hof.delimiter]
        exact (if_pos hsmall).symm
      rw [if_neg (by rw [(hkept.sound hsound).1]; decide), if_pos hdelim]
      exact hfields
    · have hjoin : breaks (joinFields F.delimiter (w :: w' :: ws)) =
          breaks w + breaks (joinFields F.delimiter (w' :: ws)) := by
        have hhead : (F.delimiter :: joinFields F.delimiter (w' :: ws)).head? ≠ some lf := by
          intro h
          have hd := F.delimiter_ne
          rw [Option.some.inj h] at hd
          cases hd
        rw [joinFields_cons, breaks_append (.inl hhead), breaks_else F.delimiter_ne]
      have hall := hone.trans hbegun
      rw [Nat.add_zero, ← Nat.add_assoc, ← hjoin, append_assoc, ← append_assoc [F.delimiter],
        ← append_assoc w] at hall
      exact hall

end Reader
end Csv
end Gbasic
