import Gbasic.CsvRows
/-!
# CsvText — the text of records, and reading it to the end

A record's text begins and ends with what is no line break, so that lines are counted as they are written.  The
records of a text are read back in order, each where it was written, from text or from a file that comes in pieces
(`reads_placed`).
-/
namespace Gbasic
namespace Csv

open List (Forall₂ mem_cons_self append_nil append_assoc)

namespace Format

variable {F : Format}

def field (F : Format) (t : Bytes) : Bytes :=
  if gbCsvNeedsQuote t F.delimiter F.quoteInt then between (F.quote.getD 0) t else t

/-- A record as it is written. -/
def line (F : Format) (ts : List Bytes) : Bytes :=
  if ts = [[]] then between (F.quote.getD 0) [] else joinFields F.delimiter (ts.map F.field)

def Writable (F : Format) (ts : List Bytes) : Prop :=
  F.quote = none → ts ≠ [[]] ∧ ∀ t ∈ ts, gbCsvNeedsQuote t F.delimiter F.quoteInt = false

theorem field_form {t : Bytes} (h : F.quote = none → gbCsvNeedsQuote t F.delimiter F.quoteInt = false) :
    F.Form (F.field t) t := by
  unfold field
  by_cases hneeds : gbCsvNeedsQuote t F.delimiter F.quoteInt = true
  · rw [if_pos hneeds]
    rcases hq : F.quote with _ | q
    · rw [h hq] at hneeds
      cases hneeds
    · exact .inr ⟨q, hq, rfl⟩
  · rw [if_neg hneeds]
    exact .inl ⟨rfl, eq_false_of_ne_true hneeds⟩

theorem line_forms {ts : List Bytes} (h : F.Writable ts) :
    ∃ ws, Forall₂ F.Form ws ts ∧ F.line ts = joinFields F.delimiter ws ∧ ∀ w ∈ ws, ws = [w] → w ≠ [] := by
  unfold line
  by_cases hone : ts = [[]]
  · rw [if_pos hone, hone]
    rcases hq : F.quote with _ | q
    · exact absurd hone (h hq).1
    · refine ⟨[between q []], .cons (.inr ⟨q, hq, rfl⟩) .nil, rfl, ?_⟩
      intro w hw _
      rw [List.mem_singleton.1 hw]
      intro h
      cases h
  · rw [if_neg hone]
    have hforms : ∀ (l : List Bytes), (∀ t ∈ l, t ∈ ts) → Forall₂ F.Form (l.map F.field) l := by
      intro l
      induction l with
      | nil => exact fun _ => .nil
      | cons t l ih =>
        intro hl
        exact .cons (field_form (fun hq => (h hq).2 t (hl t (mem_cons_self ..))))
          (ih (fun t' ht' => hl t' (List.mem_cons_of_mem _ ht')))
    refine ⟨ts.map F.field, hforms ts (fun _ ht => ht), rfl, ?_⟩
    intro w _ hmap hw
    obtain ⟨t, rfl, ht⟩ : ∃ t, ts = [t] ∧ F.field t = w := by
      rcases ts with _ | ⟨t, _ | ⟨t', ts⟩⟩
      · cases hmap
      · exact ⟨t, rfl, (List.cons.inj hmap).1⟩
      · cases hmap
    rcases field_form (F := F) (t := t) (fun hq => (h hq).2 t (mem_cons_self ..)) with ⟨hplain, -⟩ | ⟨q, -,
      hquoted⟩
    · exact hone (by rw [← hplain, ht, hw])
    · rw [ht, hw] at hquoted
      cases hquoted

/-! ## Where a record begins and ends -/

theorem form_head {w t l : Bytes} (h : F.Form w t) (hl : isBreak l.head? = false) : isBreak (w ++ l).head? = false := by
  rcases h with ⟨rfl, hneeds⟩ | ⟨q, hq, rfl⟩
  · cases w with
    | nil => exact hl
    | cons c w => exact (needs_not hneeds (mem_cons_self ..)).2.1
  · have hqb := F.quote_ne
    rw [hq] at hqb
    exact hqb

theorem form_last {w t l : Bytes} (h : F.Form w t) (hl : l.getLast? ≠ some cr) : (l ++ w).getLast? ≠ some cr := by
  rcases h with ⟨rfl, hneeds⟩ | ⟨q, hq, rfl⟩
  · rcases List.eq_nil_or_concat w with rfl | ⟨w', c, rfl⟩
    · rw [append_nil]
      exact hl
    · rw [List.concat_eq_append, ← append_assoc, List.getLast?_concat]
      intro hc
      have hbreak := (needs_not hneeds (c := c) (by simp)).2.1
      rw [Option.some.inj hc] at hbreak
      cases hbreak
  · have hqb := F.quote_ne
    rw [hq] at hqb
    unfold between
    rw [← append_assoc, List.getLast?_concat]
    intro hc
    rw [Option.some.inj hc] at hqb
    cases hqb

theorem join_head : ∀ {ws ts : List Bytes}, Forall₂ F.Form ws ts →
    isBreak (joinFields F.delimiter ws).head? = false
  | [], _, _ => rfl
  | [w], _, .cons hform _ => by
    have h := form_head (l := []) hform rfl
    rwa [append_nil] at h
  | w :: w' :: ws, _, .cons hform _ => by
    rw [joinFields_cons]
    exact form_head hform F.delimiter_ne

theorem join_last : ∀ {ws ts : List Bytes}, Forall₂ F.Form ws ts → ∀ l : Bytes, l.getLast? ≠ some cr →
    (l ++ joinFields F.delimiter ws).getLast? ≠ some cr
  | [], _, _, l, hl => by
    rw [joinFields, append_nil]
    exact hl
  | [w], _, .cons hform _, l, hl => form_last hform hl
  | w :: w' :: ws, _, .cons _ hforms, l, _ => by
    have hd : (l ++ w ++ [F.delimiter]).getLast? ≠ some cr := by
      rw [List.getLast?_concat]
      intro h
      have hdelim := F.delimiter_ne
      rw [Option.some.inj h] at hdelim
      cases hdelim
    have ih := join_last hforms _ hd
    rw [joinFields_cons]
    rwa [append_assoc, append_assoc, List.singleton_append] at ih

theorem join_nil : ∀ {ws ts : List Bytes}, Forall₂ F.Form ws ts → ws ≠ [] → (∀ w ∈ ws, ws = [w] → w ≠ []) →
    joinFields F.delimiter ws ≠ []
  | [], _, _, h, _ => absurd rfl h
  | [w], _, _, _, h => h w (mem_cons_self ..) rfl
  | w :: w' :: ws, _, _, _, _ => by
    rw [joinFields_cons]
    simp

theorem line_breaks {ws ts : List Bytes} {brk : Bytes} (hforms : Forall₂ F.Form ws ts) (hbrk : LineBreak brk) :
    breaks (joinFields F.delimiter ws ++ brk) = breaks (joinFields F.delimiter ws) + 1 := by
  have hlast := join_last hforms [] (by simp)
  rw [List.nil_append] at hlast
  rw [breaks_append (.inr hlast)]
  rcases hbrk with rfl | rfl <;> rfl

/-! ## Many records -/

/-- The text of records, each with a line ending. -/
def text (F : Format) (lineEnd : Bytes) (recs : List (List Bytes)) : Bytes :=
  (recs.map (fun ts => F.line ts ++ lineEnd)).flatten

theorem text_cons (lineEnd : Bytes) (ts : List Bytes) (recs : List (List Bytes)) :
    F.text lineEnd (ts :: recs) = F.line ts ++ (lineEnd ++ F.text lineEnd recs) := by
  unfold text
  rw [List.map_cons, List.flatten_cons, append_assoc]

/-- The records where they are written, after some text. -/
def placed (F : Format) (lineEnd : Bytes) : Bytes → List (List Bytes) → List Row
  | _, [] => []
  | before, ts :: recs =>
    ⟨ts, 1 + breaks before, before.length, .ok⟩ :: placed F lineEnd (before ++ (F.line ts ++ lineEnd)) recs

end Format

/-- The records that calls give, to the end. -/
inductive Reads : Reader → List Row → Prop
  | done {r r' : Reader} : r.Next false r' → Reads r []
  | more {r r' : Reader} {rows : List Row} : r.Next true r' → Reads r' rows → Reads r (r'.row :: rows)

namespace Reader

structure Behind (F : Format) (before rest : Bytes) (r : Reader) : Prop where
  of : r.Of F
  sound : r.src.Sound
  started : r.started = true
  unread : r.src.unread = rest
  consumed : r.consumed = before.length
  line : r.line = 1 + breaks before

/-- **One record is read where it is written**, and the reader stands behind it. -/
theorem Behind.next {F : Format} {before rest brk : Bytes} {ts : List Bytes} {r : Reader} (hw : F.Writable ts)
    (hne : ts ≠ [])
    (hd : F.delimiter.val < 128 ∨ ts.length = 1) (hlen : ts.flatten.length ≤ GB_CSV_MAX_RECORD) (hbrk : LineBreak brk)
    (h : Behind F before (F.line ts ++ (brk ++ rest)) r) : ∃ r', Next r true r' ∧
      r'.row = ⟨ts, 1 + breaks before, before.length, .ok⟩ ∧ Behind F (before ++ (F.line ts ++ brk)) rest r' := by
  obtain ⟨ws, hforms, hline, hsingle⟩ := Format.line_forms hw
  have hwlen := hforms.length_eq
  have hwne : ws ≠ [] := by
    rintro rfl
    exact hne (List.length_eq_zero_iff.1 hwlen.symm)
  have hu := h.unread
  rw [hline] at hu ⊢
  obtain ⟨r', hnext, hrow, hof, hsound, hstarted, hrest, hconsumed, hlines⟩ := next_reads hbrk hforms hwne
    (by rw [hwlen]; exact hd) h.of h.sound h.started (Format.join_head hforms)
      (Format.join_nil hforms hwne hsingle) hu hlen
  refine ⟨r', hnext, ?_, hof, hsound, hstarted, hrest, ?_, ?_⟩
  · rw [hrow, h.line, h.consumed]
  · rw [hconsumed, h.consumed, ← List.length_append]
  · have hhead : (joinFields F.delimiter ws ++ brk).head? ≠ some lf := by
      obtain ⟨c, w, hcw⟩ := List.exists_cons_of_ne_nil (Format.join_nil hforms hwne hsingle)
      have hb := Format.join_head hforms
      rw [hcw] at hb ⊢
      rw [List.cons_append, List.head?_cons]
      intro hc
      rw [List.head?_cons, hc] at hb
      cases hb
    rw [hlines, h.line, breaks_append (.inl hhead), Format.line_breaks hforms hbrk, Nat.add_assoc]

/-- **The records of a text are read to the end**, each where it is written. -/
theorem reads_placed {F : Format} {brk : Bytes} (hbrk : LineBreak brk) : ∀ {recs : List (List Bytes)} {before : Bytes}
    {r : Reader}, (∀ ts ∈ recs, F.Writable ts ∧ ts ≠ [] ∧ (F.delimiter.val < 128 ∨ ts.length = 1) ∧
      ts.flatten.length ≤ GB_CSV_MAX_RECORD) → Behind F before (F.text brk recs) r → Reads r (F.placed brk before recs)
  | [], before, r, _, h => .done (next_end h.started h.sound h.unread)
  | ts :: recs, before, r, hrecs, h => by
    obtain ⟨hw, hne, hd, hlen⟩ := hrecs ts (mem_cons_self ..)
    rw [Format.text_cons] at h
    obtain ⟨r', hnext, hrow, hbehind⟩ := h.next hw hne hd hlen hbrk
    have hrest := reads_placed hbrk (fun ts' hts' => hrecs ts' (List.mem_cons_of_mem _ hts')) hbehind
    rw [Format.placed, ← hrow]
    exact .more hnext hrest

end Reader
end Csv
end Gbasic
