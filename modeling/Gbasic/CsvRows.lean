import Gbasic.CsvRecord
/-!
# CsvRows — one call, and the calls to the end

More turns change no answer (`next_mono`), so that a call has one.  A call on a record as it is written gives its
fields, the line and the byte that it begins at, and stands behind its line break (`next_reads`).
-/
namespace Gbasic
namespace Csv

namespace Reader

/-! ## More turns -/

def Extends {α : Type} (x y : Except Stop α) : Prop := x ≠ .error .turns → y = x

theorem Extends.refl {α : Type} (x : Except Stop α) : Extends x x := fun _ => rfl

theorem Extends.bind {α β : Type} {x y : Except Stop α} {f g : α → Except Stop β} (h : Extends x y)
    (hfg : ∀ a, Extends (f a) (g a)) : Extends (x >>= f) (y >>= g) := by
  intro hne
  rcases x with e | a
  · have hx : (Except.error e : Except Stop α) ≠ .error .turns := by
      rintro heq
      rw [Except.error.inj heq] at hne
      exact hne rfl
    rw [h hx]
    rfl
  · rw [h (by intro heq; cases heq)]
    exact hfg a hne

theorem plain_mono : ∀ (n : Nat) (r : Reader), Extends (r.plain n) (r.plain (n + 1))
  | 0, _ => fun h => absurd rfl h
  | n + 1, r => by
    rw [plain, plain]
    rcases r.peek with ⟨_ | c, s⟩
    · exact .refl _
    · dsimp only
      split_ifs
      · exact .refl _
      · exact (Extends.refl _).bind (plain_mono n)

theorem quoted_mono {o : Nat} : ∀ (n : Nat) (r : Reader), Extends (r.quoted o n) (r.quoted o (n + 1))
  | 0, _ => fun h => absurd rfl h
  | n + 1, r => by
    have ih := quoted_mono (o := o) n
    rw [quoted, quoted]
    rcases r.peek with ⟨_ | c, s⟩
    · exact .refl _
    · dsimp only
      split_ifs
      · exact (Extends.refl _).bind ih
      · exact .refl _
      · exact (Extends.refl _).bind ih
      · exact (Extends.refl _).bind (fun _ => (Extends.refl _).bind ih)
      · exact (Extends.refl _).bind ih
      · exact (Extends.refl _).bind ih

theorem field_mono (n : Nat) (r : Reader) : Extends (r.field n) (r.field (n + 1)) := by
  unfold field
  dsimp only
  split_ifs
  · exact (quoted_mono n _).bind (fun _ => plain_mono n _)
  · exact plain_mono n _

theorem fields_mono : ∀ (n : Nat) (r : Reader), Extends (r.fields n) (r.fields (n + 1))
  | 0, _ => fun h => absurd rfl h
  | n + 1, r => by
    rw [fields, fields]
    apply (field_mono n r).bind
    rintro ⟨c, s⟩
    dsimp only
    split_ifs
    · exact .refl _
    · exact fields_mono n _
    · exact .refl _
    · exact .refl _

theorem skipBlank_mono : ∀ (n : Nat) (r : Reader), Extends (r.skipBlank n) (r.skipBlank (n + 1))
  | 0, _ => fun h => absurd rfl h
  | n + 1, r => by
    rw [skipBlank, skipBlank]
    split_ifs
    · exact skipBlank_mono n _
    · exact .refl _

theorem next_mono (n : Nat) (r : Reader) : Extends (r.gbCsvNext n) (r.gbCsvNext (n + 1)) := by
  unfold gbCsvNext
  apply (skipBlank_mono n _).bind
  rintro ⟨c, s⟩
  dsimp only
  split_ifs
  · exact .refl _
  · exact .refl _
  · exact (fields_mono n _).bind (fun _ => .refl _)

theorem next_later {n : Nat} {r : Reader} {a : Bool × Reader} (h : r.gbCsvNext n = .ok a) :
    ∀ k, r.gbCsvNext (n + k) = .ok a
  | 0 => h
  | k + 1 => by
    have ih := next_later h k
    have hmono := next_mono (n + k) r (by rw [ih]; intro heq; cases heq)
    rw [← Nat.add_assoc, hmono, ih]

def Next (r : Reader) (more : Bool) (r' : Reader) : Prop := ∃ n, r.gbCsvNext n = .ok (more, r')

/-- **A call has one answer.** -/
theorem Next.unique {r r₁ r₂ : Reader} {b₁ b₂ : Bool} (h₁ : Next r b₁ r₁) (h₂ : Next r b₂ r₂) : b₁ = b₂ ∧ r₁ = r₂ := by
  obtain ⟨n, hn⟩ := h₁
  obtain ⟨m, hm⟩ := h₂
  have hn' := next_later hn m
  have hm' := next_later hm n
  rw [Nat.add_comm, hm'] at hn'
  obtain ⟨hb, hr⟩ := Prod.mk.inj (Except.ok.inj hn')
  exact ⟨hb.symm, hr.symm⟩

/-! ## The record in hand -/

end Reader

structure Row where
  fields : List Bytes
  line : Nat
  offset : Nat
  problem : Problem

namespace Reader

def row (r : Reader) : Row := ⟨(List.range r.starts.length).map r.gbCsvField, r.recLine, r.recOffset, r.problem⟩

theorem offsets_length : ∀ (n : Nat) (ts : List Bytes), (offsets n ts).length = ts.length
  | _, [] => rfl
  | n, t :: ts => by rw [offsets, List.length_cons, offsets_length, List.length_cons]

theorem offsets_get : ∀ (n : Nat) (ts : List Bytes) (i : Nat), i < ts.length →
    (offsets n ts).getD i 0 = n + (ts.take i).flatten.length
  | _, [], _, h => absurd h (Nat.not_lt_zero _)
  | n, t :: ts, 0, _ => rfl
  | n, t :: ts, i + 1, h => by
    rw [offsets, List.getD_cons_succ, offsets_get _ ts i (Nat.lt_of_succ_lt_succ h), List.take_succ_cons,
      List.flatten_cons,
      List.length_append, Nat.add_assoc]

theorem row_fields {r : Reader} {ts : List Bytes} (hstarts : r.starts = offsets 0 ts) (hbuf : r.fieldBuf = ts.flatten) :
    (List.range r.starts.length).map r.gbCsvField = ts := by
  have hlen : r.starts.length = ts.length := by rw [hstarts, offsets_length]
  apply List.ext_getElem
  · rw [List.length_map, List.length_range, hlen]
  · intro i hi hi'
    rw [List.getElem_map, List.getElem_range]
    have hsplit : ts.flatten = (ts.take i).flatten ++ (ts[i] ++ (ts.drop (i + 1)).flatten) := by
      rw [← List.flatten_cons, ← List.drop_eq_getElem_cons hi', ← List.flatten_append, List.take_append_drop]
    have htake : (ts.take (i + 1)).flatten.length = (ts.take i).flatten.length + ts[i].length := by
      rw [List.take_succ_eq_append_getElem hi', List.flatten_append, List.length_append, List.flatten_singleton]
    have hfinish : (if i + 1 < r.starts.length then r.starts.getD (i + 1) 0 else r.fieldBuf.length) =
        (ts.take i).flatten.length + ts[i].length := by
      rw [hlen]
      split_ifs with hlast
      · rw [hstarts, offsets_get 0 ts (i + 1) hlast, Nat.zero_add, htake]
      · have hdrop : ts.drop (i + 1) = [] := List.drop_eq_nil_of_le (Nat.le_of_not_lt hlast)
        rw [hbuf, hsplit, hdrop, List.flatten_nil, List.append_nil, List.length_append]
    unfold gbCsvField
    dsimp only
    rw [hfinish, hstarts, offsets_get 0 ts i hi', Nat.zero_add, hbuf, Nat.add_sub_cancel_left, hsplit, List.drop_left,
      List.take_left]

/-! ## One call -/

theorem skipBlank_none {n : Nat} {r : Reader} (h : isBreak r.src.unread.head? = false) :
    r.skipBlank (n + 1) = .ok r.peek := by
  unfold skipBlank
  rw [peek_fst, h]
  rfl

theorem start_started {r : Reader} (h : r.started = true) : r.start = r := if_pos h

theorem next_end {r : Reader} (hstart : r.started = true) (hsound : r.src.Sound) (hu : r.src.unread = []) :
    Next r false r.peek.2 := by
  refine ⟨1, ?_⟩
  have hskip := skipBlank_none (n := 0) (r := r) (by rw [hu]; rfl)
  unfold gbCsvNext
  rw [start_started hstart, hskip]
  have hfst : r.peek.1 = none := by rw [peek_fst, hu]; rfl
  change (if r.peek.2.src.failed = true then _ else if r.peek.1 = none then _ else _) = _
  rw [if_neg (by rw [((kept_peek r).sound hsound).1]; decide), if_pos hfst]
  rfl

/-- **A call on a record as it is written** gives its fields and where it begins. -/
theorem next_reads {F : Format} {brk rest : Bytes} (hbrk : LineBreak brk) {ws ts : List Bytes} {r : Reader}
    (hforms : List.Forall₂ F.Form ws ts) (hne : ws ≠ []) (hd : F.delimiter.val < 128 ∨ ws.length = 1) (hof : r.Of F)
    (hsound : r.src.Sound) (hstart : r.started = true) (hhead : isBreak (joinFields F.delimiter ws).head? = false)
    (hnil : joinFields F.delimiter ws ≠ []) (hu : r.src.unread = joinFields F.delimiter ws ++ (brk ++ rest))
    (hlen : ts.flatten.length ≤ GB_CSV_MAX_RECORD) : ∃ r', Next r true r' ∧ r'.row = ⟨ts, r.line, r.consumed, .ok⟩ ∧
      r'.Of F ∧ r'.src.Sound ∧ r'.started = true ∧ r'.src.unread = rest ∧
      r'.consumed = r.consumed + (joinFields F.delimiter ws ++ brk).length ∧
      r'.line = r.line + (breaks (joinFields F.delimiter ws) + 1) := by
  obtain ⟨c, w, hw⟩ := List.exists_cons_of_ne_nil hnil
  have hfst : r.peek.1 = some c := by
    rw [peek_fst, hu, hw]
    rfl
  have hskip := skipBlank_none (n := (joinFields F.delimiter ws).length + 1) (r := r) (by
    rw [hu, hw]
    rw [hw] at hhead
    exact hhead)
  have hsound₁ := (kept_peek r).sound hsound
  have hof₁ : r.peek.2.beginRecord.Of F := ⟨hof.delimiter, hof.quote⟩
  have hbuf₁ : r.peek.2.beginRecord.fieldBuf = [] := rfl
  have hu₁ : r.peek.2.beginRecord.src.unread = joinFields F.delimiter ws ++ (brk ++ rest) := (unread_peek r).trans hu
  obtain ⟨r', hfields, hbegun⟩ := fields_reads hbrk (n := (joinFields F.delimiter ws).length + 2)
    (r := r.peek.2.beginRecord) hforms hne hd hof₁ hsound₁ (by omega) hu₁ (by rw [hbuf₁, List.length_nil]; omega)
  obtain ⟨hstarts, hmoved⟩ := hbegun
  refine ⟨r', ⟨(joinFields F.delimiter ws).length + 2, ?_⟩, ?_, ⟨hmoved.delimiter.trans hof.delimiter,
    hmoved.quote.trans hof.quote⟩, hmoved.sound hsound₁, hmoved.started.trans hstart, ?_, hmoved.consumed, hmoved.line⟩
  · unfold gbCsvNext
    rw [start_started hstart, hskip]
    change (if r.peek.2.src.failed = true then _ else if r.peek.1 = none then _ else _) = _
    rw [if_neg (by rw [hsound₁.1]; decide), if_neg (by rw [hfst]; intro h; cases h)]
    change (do return (true, ← fields _ r.peek.2.beginRecord)) = _
    rw [hfields]
    rfl
  · unfold row
    rw [row_fields hstarts hmoved.buf, hmoved.recLine, hmoved.recOffset, hmoved.problem]
    rfl
  · refine hmoved.unread_eq ?_
    rw [List.append_assoc]
    exact hu₁

end Reader
end Csv
end Gbasic
