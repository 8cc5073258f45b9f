import Gbasic.CsvEnds
import Gbasic.CsvWriter
/-!
# CsvRound — what is read of what is written

Records that `csv.line` or `csv.write` writes are read back as they were where the delimiter is a byte that a `char`
has as it is or every record is one field, the text does not begin with a byte order mark, each record fits and the
line ending is the break that it was taken for and no more (`csv_round`).
-/
namespace Gbasic
namespace Csv

open Eval (Raise)
open Same (Value findField)
open Csv.Reader (Opens Behind Next mark)
open List (mem_cons mem_cons_self append_assoc Forall₂ map_map length_map)

variable {v row : Value} {w : Bytes} {names : Option (List Bytes)}

/-! ## When records are read back -/

/-- What survives the way through a text and back. -/
structure Survives (F : Format) (lineEnd : Bytes) (recs : List (List Bytes)) : Prop where
  one : F.delimiter.val < 128 ∨ ∀ ts ∈ recs, ts.length = 1
  mark : ¬mark <+: F.text lineEnd recs
  size : ∀ ts ∈ recs, ts.flatten.length ≤ GB_CSV_MAX_RECORD
  ending : recs = [] ∨ LineBreak lineEnd

theorem placed_fields (F : Format) (lineEnd : Bytes) : ∀ (recs : List (List Bytes)) (before : Bytes) (ts : List Bytes),
    ts ∈ recs → ∃ row ∈ F.placed lineEnd before recs, row.fields = ts
  | ts' :: recs, before, ts, h => by
    rw [Format.placed]
    rcases mem_cons.1 h with rfl | h
    · exact ⟨_, mem_cons_self .., rfl⟩
    · obtain ⟨row, hrow, hfields⟩ := placed_fields F lineEnd recs _ ts h
      exact ⟨row, List.mem_cons_of_mem _ hrow, hfields⟩

theorem lineEnd_junk {le : Bytes} (h : LineBreak (cString le)) (hne : ¬LineBreak le) :
    ∃ b junk, le = cString le ++ b :: junk ∧ b.val = 0 := by
  have hsplit : cString le ++ le.dropWhile (fun b => decide (b.val ≠ 0)) = le := List.takeWhile_append_dropWhile
  rcases hdrop : le.dropWhile (fun b => decide (b.val ≠ 0)) with _ | ⟨b, junk⟩
  · rw [hdrop, List.append_nil] at hsplit
    rw [hsplit] at h
    exact absurd h hne
  · rw [hdrop] at hsplit
    refine ⟨b, junk, hsplit.symm, ?_⟩
    have hhead := List.head_dropWhile_not (fun b : Byte => decide (b.val ≠ 0)) (l := le) (by rw [hdrop]; simp)
    simp only [hdrop, List.head_cons] at hhead
    simpa using hhead

/-- **When what is written is read back**: every record in order, each where it was written. -/
theorem reads_iff {F : Format} {le : Bytes} {recs : List (List Bytes)} {r : Reader}
    (hopens : Opens F (F.text le recs) r)
    (hle : LineBreak (cString le)) (hrecs : ∀ ts ∈ recs, F.Writable ts ∧ ts ≠ []) :
    Reads r (F.placed le [] recs) ↔ Survives F le recs := by
  constructor
  · intro h
    obtain ⟨hof, -, -, -, -, -, hcap⟩ := hopens.fresh
    have hany := h.any hcap
    have hone : F.delimiter.val < 128 ∨ ∀ ts ∈ recs, ts.length = 1 := by
      by_cases hd : F.delimiter.val < 128
      · exact .inl hd
      · right
        intro ts hts
        obtain ⟨row, hrow, hfields⟩ := placed_fields F le recs [] ts hts
        rw [← hfields]
        exact (hany row hrow).1 (by rw [hof.delimiter]; omega)
    have hsize : ∀ ts ∈ recs, ts.flatten.length ≤ GB_CSV_MAX_RECORD := by
      intro ts hts
      obtain ⟨row, hrow, hfields⟩ := placed_fields F le recs [] ts hts
      rw [← hfields]
      exact (hany row hrow).2
    rcases recs with _ | ⟨ts, recs⟩
    · refine ⟨hone, ?_, hsize, .inl rfl⟩
      rw [show F.text le [] = [] from rfl, mark]
      simp
    rw [Format.placed] at h
    obtain ⟨r₁, hnext, hrow, hrest⟩ : ∃ r₁, Next r true r₁ ∧ r₁.row = ⟨ts, 1 + breaks [], ([] : Bytes).length, .ok⟩ ∧
        Reads r₁ (F.placed le ([] ++ (F.line ts ++ le)) recs) := by
      generalize hrows : (⟨ts, 1 + breaks [], ([] : Bytes).length, .ok⟩ : Row) ::
        F.placed le ([] ++ (F.line ts ++ le)) recs = rows at h
      cases h with
      | done => cases hrows
      | more hnext hrest =>
        obtain ⟨hrow, rfl⟩ := List.cons.inj hrows
        exact ⟨_, hnext, hrow.symm, hrest⟩
    have hoffset : r₁.recOffset = 0 := congrArg Row.offset hrow
    have hmark : ¬mark <+: F.text le (ts :: recs) := by
      intro hmark
      obtain ⟨-, -, -, -, -, hge, -⟩ := Reader.next_any hnext
      rw [(Reader.start_mark hopens hmark).1, hoffset] at hge
      exact absurd hge (by decide)
    refine ⟨hone, hmark, hsize, ?_⟩
    by_contra hending
    obtain ⟨b, junk, hjunk, hb⟩ := lineEnd_junk hle (fun h => hending (.inr h))
    have hbehind := Reader.start_behind hopens hmark
    have htext : F.text le (ts :: recs) = F.line ts ++ (cString le ++ (b :: junk ++ F.text le recs)) := by
      have hend : le ++ F.text le recs = cString le ++ (b :: junk ++ F.text le recs) := by
        rw [← append_assoc, ← hjunk]
      rw [Format.text_cons, hend]
    rw [htext] at hbehind
    obtain ⟨hw, hne⟩ := hrecs ts (mem_cons_self ..)
    have hd : F.delimiter.val < 128 ∨ ts.length = 1 := hone.imp_right (fun h => h ts (mem_cons_self ..))
    obtain ⟨r₂, hnext₂, -, hbehind₂⟩ := hbehind.next hw hne hd (hsize ts (mem_cons_self ..)) hle
    obtain ⟨-, rfl⟩ := ((Reader.next_start hbehind.started).1 hnext).unique hnext₂
    have hstart := Reader.start_started hbehind₂.started
    have hbreak : isBreak r₁.start.src.unread.head? = false := by
      rw [hstart, hbehind₂.unread]
      have hne : b ≠ cr ∧ b ≠ lf := by
        constructor
        · rintro rfl
          exact absurd hb (by decide)
        · rintro rfl
          exact absurd hb (by decide)
      simp [isBreak, hne]
    rcases recs with _ | ⟨ts', recs⟩
    · cases hrest with
      | done hend =>
        have hnil := Reader.next_none hend hbreak
        rw [hstart, hbehind₂.unread] at hnil
        cases hnil
    · rw [Format.placed] at hrest
      generalize hrows : (⟨ts', 1 + breaks ([] ++ (F.line ts ++ le)), ([] ++ (F.line ts ++ le)).length, .ok⟩ : Row) ::
        F.placed le ([] ++ (F.line ts ++ le) ++ (F.line ts' ++ le)) recs = rows at hrest
      cases hrest with
      | done => cases hrows
      | more hnext' _ =>
        have hoff := congrArg Row.offset (List.cons.inj hrows).1
        obtain ⟨-, -, -, -, -, -, hsame⟩ := Reader.next_any hnext'
        have hplace := hsame hbreak
        rw [hstart, hbehind₂.consumed] at hplace
        change _ = Reader.recOffset _ at hoff
        rw [hplace] at hoff
        have hlen : le.length = (cString le).length + (junk.length + 1) := by
          conv_lhs => rw [hjunk]
          rw [List.length_append, List.length_cons]
        simp only [List.nil_append, List.length_append] at hoff
        omega
  · rintro ⟨hone, hmark, hsize, hending⟩
    have hbehind := Reader.start_behind hopens hmark
    rcases hending with rfl | hbrk
    · exact .done ((Reader.next_start hbehind.started).2 (Reader.next_end hbehind.started hbehind.sound hbehind.unread))
    · have hreads := Reader.reads_placed hbrk (fun ts hts => ⟨(hrecs ts hts).1, (hrecs ts hts).2,
        hone.imp_right (fun h => h ts hts), hsize ts hts⟩) hbehind
      generalize F.placed le [] recs = rows at hreads ⊢
      cases hreads with
      | done hnext => exact .done ((Reader.next_start hbehind.started).2 hnext)
      | more hnext hrest => exact .more ((Reader.next_start hbehind.started).2 hnext) hrest

/-! ## What the options accept -/

/-- Options that are a format's. -/
structure CsvOptions.For (o : CsvOptions) (F : Format) : Prop where
  delimiter : o.delimiter = F.delimiter.val
  quote : o.quote = F.quoteInt

structure CsvOptions.Checked (o : CsvOptions) : Prop where
  delimiter : ∃ d : Byte, o.delimiter = d.val ∧ isBreak (some d) = false
  quote : ∃ q : Option Byte, o.quote = cint q ∧ isBreak q = false
  lineEnd : LineBreak (cString o.lineEnd)

theorem csvOptionByte_ok {verb option : String} {allowEmpty : Bool} {c : Int}
    (h : csvOptionByte verb option v allowEmpty = .ok c) :
    ∃ q : Option Byte, c = cint q ∧ isBreak q = false ∧ (allowEmpty = false → q ≠ none) := by
  unfold csvOptionByte at h
  cases v with
  | string s =>
    dsimp only at h
    split_ifs at h with hempty hlen hallow hbreak
    · rw [← Except.ok.inj h]
      exact ⟨none, rfl, rfl, fun hf => absurd hempty.2 (by rw [hf]; decide)⟩
    · cases h
    · cases h
    · cases h
    · rw [← Except.ok.inj h]
      exact ⟨some (s.headD 0), rfl, by simpa [isBreak] using hbreak, fun _ h => by cases h⟩
  | _ => cases h

theorem CsvOptions.Checked.start : CsvOptions.start.Checked :=
  ⟨⟨44, rfl, rfl⟩, ⟨some 34, rfl, rfl⟩, .inl rfl⟩

/-- **Each option keeps the checks.** -/
theorem csvOption_ok {verb : String} {writing : Bool} {o o' : CsvOptions × Bool} {name : Bytes} (ho : o.1.Checked)
    (h : csvOption verb writing o name v = .ok o') : o'.1.Checked := by
  unfold csvOption at h
  split_ifs at h with hdelimiter hquote hnames hheader hproblems hline
  · rcases hbyte : csvOptionByte verb "delimiter" v false with e | c <;> rw [hbyte] at h
    · cases h
    · obtain ⟨q, hc, hb, hne⟩ := csvOptionByte_ok hbyte
      obtain ⟨d, rfl⟩ := Option.ne_none_iff_exists'.1 (hne rfl)
      rw [← Except.ok.inj h]
      exact ⟨⟨d, hc, hb⟩, ho.quote, ho.lineEnd⟩
  · rcases hbyte : csvOptionByte verb "quote" v true with e | c <;> rw [hbyte] at h
    · cases h
    · obtain ⟨q, hc, hb, -⟩ := csvOptionByte_ok hbyte
      rw [← Except.ok.inj h]
      exact ⟨ho.delimiter, ⟨q, hc, hb⟩, ho.lineEnd⟩
  · split at h
    · rename_i item items
      rcases hread : csvNames verb [] (item :: items) with e | names <;> rw [hread] at h
      · cases h
      · rw [← Except.ok.inj h]
        exact ⟨ho.delimiter, ho.quote, ho.lineEnd⟩
    · cases h
  · split at h
    · rw [← Except.ok.inj h]
      exact ⟨ho.delimiter, ho.quote, ho.lineEnd⟩
    · cases h
  · split at h
    · split_ifs at h
      · rw [← Except.ok.inj h]
        exact ⟨ho.delimiter, ho.quote, ho.lineEnd⟩
      · rw [← Except.ok.inj h]
        exact ⟨ho.delimiter, ho.quote, ho.lineEnd⟩
      · cases h
    · cases h
  · split at h
    · split_ifs at h with hend
      · rw [← Except.ok.inj h]
        exact ⟨ho.delimiter, ho.quote, hend⟩
      · cases h
    · cases h
  · cases h
  · cases h

theorem csvOptionsFrom_ok {verb : String} {writing : Bool} : ∀ {fields : List (Bytes × Value)}
    {o o' : CsvOptions × Bool},
    o.1.Checked → csvOptionsFrom verb writing o fields = .ok o' → o'.1.Checked
  | [], o, o', ho, h => by
    rw [← Except.ok.inj h]
    exact ho
  | (name, v) :: fields, o, o', ho, h => by
    unfold csvOptionsFrom at h
    rcases hone : csvOption verb writing o name v with e | o₁ <;> rw [hone] at h
    · cases h
    · exact csvOptionsFrom_ok (csvOption_ok ho hone) h

/-- **Options that are accepted are a format's**, and their line ending begins with a line break. -/
theorem csvReadOptions_ok {verb : String} {options : Option Value} {writing : Bool} {o : CsvOptions}
    (h : csvReadOptions verb options writing = .ok o) : (∃ F, o.For F) ∧ LineBreak (cString o.lineEnd) := by
  have hformat : ∀ {o : CsvOptions}, o.Checked → ¬(0 ≤ o.quote ∧ o.quote = o.delimiter) → ∃ F, o.For F := by
    rintro o ⟨⟨d, hd, hdb⟩, ⟨q, hq, hqb⟩, -⟩ hdiffer
    refine ⟨⟨d, q, hdb, hqb, ?_⟩, hd, hq⟩
    rintro rfl
    rw [hq, hd] at hdiffer
    exact hdiffer ⟨Int.natCast_nonneg _, rfl⟩
  unfold csvReadOptions at h
  split at h
  · rw [← Except.ok.inj h]
    exact ⟨hformat .start (by decide), .inl rfl⟩
  · rename_i fields
    rcases hfields : csvOptionsFrom verb writing (CsvOptions.start, false) fields with e | ⟨o₁,
      given⟩ <;> rw [hfields] at h
    · cases h
    · have hchecked := csvOptionsFrom_ok .start hfields
      change (if 0 ≤ o₁.quote ∧ o₁.quote = o₁.delimiter then _ else _) = _ at h
      split_ifs at h with hsame hread hgiven
      · cases h
      · cases h
      · rw [← Except.ok.inj h]
        obtain ⟨F, hF⟩ := hformat hchecked hsame
        exact ⟨⟨F, hF.delimiter, hF.quote⟩, hchecked.lineEnd⟩
      · rw [← Except.ok.inj h]
        exact ⟨hformat hchecked hsame, hchecked.lineEnd⟩
  · cases h

/-! ## What is written -/

def rowValues (names : Option (List Bytes)) : Value → Option (List Value)
  | .array _ items => some items
  | .record fields =>
    match names with
    | some names => names.mapM (fun name => findField (cString name) fields)
    | none => some (fields.map Prod.snd)
  | _ => none

/-- The texts of a row's values. -/
def Tells (env : Env) (names : Option (List Bytes)) (row : Value) (ts : List Bytes) : Prop :=
  ∃ vs, rowValues names row = some vs ∧ Forall₂ (fun v t => fieldText env v = .ok t) vs ts

section
variable {env : Env} {verb : String} {o : CsvOptions} {F : Format}

theorem charOf_delimiter (ho : o.For F) : charOf o.delimiter = F.delimiter := by
  unfold charOf
  rw [ho.delimiter, Int.toNat_natCast]
  exact byte_of_val F.delimiter

theorem charOf_quote (ho : o.For F) {q : Byte} (hq : F.quote = some q) : charOf o.quote = q := by
  unfold charOf
  rw [ho.quote, Format.quoteInt, hq]
  exact byte_of_val q

theorem quote_neg (ho : o.For F) : o.quote < 0 ↔ F.quote = none := by
  rw [ho.quote, Format.quoteInt]
  rcases F.quote with _ | q
  · exact ⟨fun _ => rfl, fun _ => by decide⟩
  · constructor
    · intro h
      exact absurd h (not_lt.2 (Int.natCast_nonneg _))
    · intro h
      cases h

/-- **A field is written as its format writes it.** -/
theorem csvPutField_ok (ho : o.For F) {location : Bytes} (h : csvPutField env verb v o location = .ok w) :
    ∃ t, fieldText env v = .ok t ∧ w = F.field t ∧
      (F.quote = none → gbCsvNeedsQuote t F.delimiter F.quoteInt = false) := by
  have hempty : F.field [] = [] := by
    unfold Format.field
    rw [if_neg (by unfold gbCsvNeedsQuote; simp)]
  have hput : ∀ x : Except Raise Bytes, (x >>= fun t =>
      if gbCsvNeedsQuote t (charOf o.delimiter) o.quote then
        if o.quote < 0 then
          csvRaise 256 (text (verb ++ ": ") ++ location ++
            text " holds the delimiter or a line break, and with quote: \"\" it cannot be written")
        else
          let q := charOf o.quote
          return q :: t.flatMap (fun c => if c = q then [c, q] else [c]) ++ [q]
      else return t) = .ok w → ∃ t, x = .ok t ∧ w = F.field t ∧
        (F.quote = none → gbCsvNeedsQuote t F.delimiter F.quoteInt = false) := by
    rintro (e | t) hx
    · cases hx
    refine ⟨t, rfl, ?_⟩
    rw [charOf_delimiter ho] at hx
    change (if gbCsvNeedsQuote t F.delimiter o.quote = true then _ else _) = _ at hx
    rw [ho.quote] at hx
    unfold Format.field
    split_ifs at hx with hneeds hneg
    · cases hx
    · rw [if_pos hneeds]
      rw [← ho.quote, quote_neg ho] at hneg
      obtain ⟨q, hq⟩ := Option.ne_none_iff_exists'.1 hneg
      have hc := charOf_quote ho hq
      rw [ho.quote] at hc
      rw [← Except.ok.inj hx, hc, hq, Option.getD_some]
      refine ⟨?_, fun h => by cases h⟩
      unfold between double
      congr 2
      apply List.flatMap_congr
      intro c _
      by_cases hcq : c = q
      · rw [if_pos hcq, if_pos hcq, hcq]
      · rw [if_neg hcq, if_neg hcq]
    · rw [if_neg hneeds, ← Except.ok.inj hx]
      exact ⟨rfl, fun _ => eq_false_of_ne_true hneeds⟩
  unfold csvPutField at h
  cases v with
  | null | unknown =>
    rw [← Except.ok.inj h]
    exact ⟨[], rfl, hempty.symm, fun _ => by unfold gbCsvNeedsQuote; rfl⟩
  | array store items => cases h
  | record fields => cases h
  | _ => exact hput _ h

/-- **Fields are written as their format joins them.** -/
theorem csvPutFields_ok (ho : o.For F) : ∀ {items : List (Except Raise Value × Bytes)} {w : Bytes},
    csvPutFields env verb o items = .ok w → ∃ vs ts, items.map Prod.fst = vs.map Except.ok ∧
      Forall₂ (fun v t => fieldText env v = .ok t) vs ts ∧ w = joinFields F.delimiter (ts.map F.field) ∧
      (F.quote = none → ∀ t ∈ ts, gbCsvNeedsQuote t F.delimiter F.quoteInt = false)
  | [], w, h => by
    rw [← Except.ok.inj h]
    exact ⟨[], [], rfl, .nil, rfl, fun _ t ht => by cases ht⟩
  | [(x, location)], w, h => by
    rcases x with e | v
    · cases h
    obtain ⟨t, ht, hw, hneeds⟩ := csvPutField_ok ho h
    refine ⟨[v], [t], rfl, .cons ht .nil, hw, fun hq t' ht' => ?_⟩
    rw [List.mem_singleton.1 ht']
    exact hneeds hq
  | (x, location) :: item :: items, w, h => by
    rcases x with e | v
    · cases h
    unfold csvPutFields at h
    rcases hfield : csvPutField env verb v o location with e | w₁
    · change (csvPutField env verb v o location >>= _) = _ at h
      rw [hfield] at h
      cases h
    rcases hmore : csvPutFields env verb o (item :: items) with e | w₂
    · change (csvPutField env verb v o location >>= fun t => csvPutFields env verb o (item :: items) >>= _) = _ at h
      rw [hfield, hmore] at h
      cases h
    change (csvPutField env verb v o location >>= fun t => csvPutFields env verb o (item :: items) >>= _) = _ at h
    rw [hfield, hmore, charOf_delimiter ho] at h
    obtain ⟨t, ht, hw, hneeds⟩ := csvPutField_ok ho hfield
    obtain ⟨vs, ts, hvs, hts, hw', hneeds'⟩ := csvPutFields_ok ho hmore
    refine ⟨v :: vs, t :: ts, congrArg (Except.ok v :: ·) hvs, .cons ht hts, ?_, ?_⟩
    · rw [← Except.ok.inj h, hw, hw']
      cases ts with
      | nil =>
        cases hts
        cases hvs
      | cons t' ts => rfl
    · intro hq t' ht'
      rcases mem_cons.1 ht' with rfl | ht'
      · exact hneeds hq
      · exact hneeds' hq t' ht'

theorem mapM_find {fields : List (Bytes × Value)} {rowno : Nat} : ∀ {names : List Bytes} {vs : List Value},
    names.map (namedField verb fields rowno) = vs.map Except.ok →
      names.mapM (fun name => findField (cString name) fields) = some vs
  | [], [], _ => rfl
  | name :: names, v :: vs, h => by
    rw [List.map_cons, List.map_cons] at h
    obtain ⟨hname, hnames⟩ := List.cons.inj h
    have hfind : findField (cString name) fields = some v := by
      unfold namedField at hname
      rcases hf : findField (cString name) fields with _ | v'
      · rw [hf] at hname
        cases hname
      · rw [hf] at hname
        rw [Except.ok.inj hname]
    rw [List.mapM_cons, hfind, mapM_find hnames]
    rfl

theorem map_ok_inj {α : Type} : ∀ {vs ws : List α}, vs.map (@Except.ok Raise α) = ws.map Except.ok → vs = ws := by
  intro vs ws h
  exact List.map_injective_iff.2 (fun _ _ h => Except.ok.inj h) h

/-- **A row's values are written as their format joins them.** -/
theorem csvPutRecordFields_ok (ho : o.For F) {rowno : Nat} (h : csvPutRecordFields env verb row names o rowno = .ok w) :
    ∃ ts, Tells env names row ts ∧
      ts.length = rowCount row ∧
      w = joinFields F.delimiter (ts.map F.field) ∧
      (F.quote = none → ∀ t ∈ ts, gbCsvNeedsQuote t F.delimiter F.quoteInt = false) := by
  unfold csvPutRecordFields at h
  split at h
  · rename_i store items
    obtain ⟨vs, ts, hvs, hts, hw, hneeds⟩ := csvPutFields_ok ho h
    have hmap : (items.zipIdx.map (fun x => ((.ok x.1 : Except Raise Value), fieldAt rowno x.2))).map Prod.fst =
        items.map Except.ok := by
      have hfst := congrArg (List.map (@Except.ok Raise Value)) (List.zipIdx_map_fst 0 items)
      rw [map_map] at hfst ⊢
      exact hfst
    obtain rfl := map_ok_inj (hmap.symm.trans hvs)
    exact ⟨ts, ⟨_, rfl, hts⟩, hts.length_eq.symm, hw, hneeds⟩
  · rename_i fields
    split at h
    · rename_i names
      by_cases hcount : fields.length ≠ names.length
      · rw [if_pos hcount] at h
        cases h
      rw [if_neg hcount] at h
      obtain ⟨vs, ts, hvs, hts, hw, hneeds⟩ := csvPutFields_ok ho h
      rw [map_map] at hvs
      refine ⟨ts, ⟨vs, mapM_find hvs, hts⟩, ?_, hw, hneeds⟩
      have hlen := congrArg List.length hvs
      rw [length_map, length_map] at hlen
      rw [← hts.length_eq, ← hlen]
      exact (not_not.1 hcount).symm
    · obtain ⟨vs, ts, hvs, hts, hw, hneeds⟩ := csvPutFields_ok ho h
      have hmap : (fields.map (fun f => ((.ok f.2 : Except Raise Value),
        text "field '" ++ f.1.take 40 ++ text "'"))).map
          Prod.fst = (fields.map Prod.snd).map Except.ok := by
        rw [map_map, map_map]
        rfl
      obtain rfl := map_ok_inj (hmap.symm.trans hvs)
      refine ⟨ts, ⟨_, rfl, hts⟩, ?_, hw, hneeds⟩
      rw [← hts.length_eq, length_map]
      rfl
  · cases h

/-- **A record is written as its format writes it.** -/
theorem csvPutRecord_ok (ho : o.For F) {rowno : Nat} (h : csvPutRecord env verb row names o rowno = .ok w) :
    ∃ ts, Tells env names row ts ∧ w = F.line ts ∧
      F.Writable ts := by
  unfold csvPutRecord at h
  rcases hput : csvPutRecordFields env verb row names o rowno with e | written <;> rw [hput] at h
  · cases h
  obtain ⟨ts, htells, hcount, hw, hneeds⟩ := csvPutRecordFields_ok ho hput
  -- One field that is written as nothing is nothing.
  have hone : written.length = 0 ∧ rowCount row = 1 ↔ ts = [[]] := by
    rw [← hcount, hw]
    constructor
    · rintro ⟨hnil, hlen⟩
      obtain ⟨t, rfl⟩ := List.length_eq_one_iff.1 hlen
      have hfield : F.field t = [] := List.length_eq_zero_iff.1 hnil
      unfold Format.field at hfield
      split_ifs at hfield with hq
      · cases hfield
      · rw [hfield]
    · rintro rfl
      exact ⟨rfl, rfl⟩
  change (if written.length = 0 ∧ rowCount row = 1 then _ else _) = _ at h
  refine ⟨ts, htells, ?_⟩
  unfold Format.line Format.Writable
  by_cases hempty : ts = [[]]
  · rw [if_pos (hone.2 hempty)] at h
    rw [if_pos hempty]
    split_ifs at h with hneg
    · cases h
    · rw [quote_neg ho] at hneg
      obtain ⟨q, hq⟩ := Option.ne_none_iff_exists'.1 hneg
      rw [← Except.ok.inj h, charOf_quote ho hq, hq]
      exact ⟨rfl, fun h => by cases h⟩
  · rw [if_neg (fun h => hempty (hone.1 h))] at h
    rw [if_neg hempty, ← Except.ok.inj h]
    exact ⟨hw, fun hq => ⟨hempty, hneeds hq⟩⟩

end

/-! ## Writing and reading -/

/-- Records that are written a line at a time. -/
def LinesWritten (env : Env) (options : Option Value) (o : CsvOptions) (recs : List (List Bytes)) (s : Bytes) : Prop :=
  csvReadOptions "csv.line" options true = .ok o ∧ ∃ rows ws, Forall₂ (Tells env o.names) rows recs ∧
    Forall₂ (fun row w => csvLine env row options = .ok w) rows ws ∧ s = ws.flatten

/-- Records that are written as a file, of which the first is its header where it has one. -/
def FileWritten (env : Env) (options : Option Value) (o : CsvOptions) (recs : List (List Bytes)) (s : Bytes) : Prop :=
  csvReadOptions "csv.write" options true = .ok o ∧ ∃ store rows body,
    csvWrite env (.array store rows) options = .ok s ∧ Forall₂ (Tells env (headerNames o rows)) rows body ∧
    recs = (headerNames o rows).toList ++ body

theorem Tells.unique {env : Env} {ts ts' : List Bytes} (h : Tells env names row ts) (h' : Tells env names row ts') :
    ts = ts' := by
  obtain ⟨vs, hvs, hts⟩ := h
  obtain ⟨vs', hvs', hts'⟩ := h'
  obtain rfl := Option.some.inj (hvs.symm.trans hvs')
  clear hvs hvs'
  induction hts generalizing ts' with
  | nil =>
    cases hts'
    rfl
  | cons ht _ ih =>
    cases hts' with
    | cons ht' hts' =>
      rw [Except.ok.inj (ht.symm.trans ht'), ih hts']

theorem lines_text {env : Env} {options : Option Value} {o : CsvOptions} {F : Format} (ho : o.For F)
    (hoptions : csvReadOptions "csv.line" options true = .ok o) : ∀ {rows : List Value} {recs : List (List Bytes)}
    {ws : List Bytes}, Forall₂ (Tells env o.names) rows recs →
      Forall₂ (fun row w => csvLine env row options = .ok w) rows ws →
      ws.flatten = F.text o.lineEnd recs ∧ ∀ ts ∈ recs, F.Writable ts
  | [], _, _, .nil, .nil => ⟨rfl, fun ts h => by cases h⟩
  | row :: rows, _, _, .cons (b := ts) htells hrest, .cons (b := w) hw hws => by
    obtain ⟨htext, hwritable⟩ := lines_text ho hoptions hrest hws
    unfold csvLine at hw
    rw [hoptions] at hw
    change (csvPutRecord env "csv.line" row o.names o 0 >>= fun written => .ok (written ++ o.lineEnd)) = _ at hw
    rcases hput : csvPutRecord env "csv.line" row o.names o 0 with e | written <;> rw [hput] at hw
    · cases hw
    obtain ⟨ts', htells', hline, hwrite⟩ := csvPutRecord_ok ho hput
    obtain rfl := htells.unique htells'
    have hw' : written ++ o.lineEnd = w := Except.ok.inj hw
    refine ⟨?_, fun t ht => ?_⟩
    · rw [List.flatten_cons, htext, ← hw', hline, Format.text_cons, append_assoc]
    · rcases mem_cons.1 ht with rfl | ht
      · exact hwrite
      · exact hwritable t ht

theorem rows_text {env : Env} {o : CsvOptions} {F : Format} (ho : o.For F) {names : Option (List Bytes)} :
    ∀ {rows : List Value} {recs : List (List Bytes)} {i : Nat} {s : Bytes}, Forall₂ (Tells env names) rows recs →
      csvPutRows env names o i rows = .ok s → s = F.text o.lineEnd recs ∧ ∀ ts ∈ recs, F.Writable ts
  | [], _, _, _, .nil, h => by
    rw [← Except.ok.inj h]
    exact ⟨rfl, fun ts h => by cases h⟩
  | row :: rows, _, i, s, .cons (b := ts) htells hrest, h => by
    have hbind : (csvPutRecord env "csv.write" row names o (i + 1) >>= fun written =>
        csvPutRows env names o (i + 1) rows >>= fun more => .ok (written ++ o.lineEnd ++ more)) = .ok s := by
      unfold csvPutRows at h
      split at h
      · cases h
      · exact h
    rcases hput : csvPutRecord env "csv.write" row names o (i + 1) with e | written <;> rw [hput] at hbind
    · cases hbind
    change (csvPutRows env names o (i + 1) rows >>= _) = _ at hbind
    rcases hmore : csvPutRows env names o (i + 1) rows with e | more <;> rw [hmore] at hbind
    · cases hbind
    obtain ⟨ts', htells', hline, hwrite⟩ := csvPutRecord_ok ho hput
    obtain rfl := htells.unique htells'
    obtain ⟨htext, hwritable⟩ := rows_text ho hrest hmore
    have hs : written ++ o.lineEnd ++ more = s := Except.ok.inj hbind
    refine ⟨?_, fun t ht => ?_⟩
    · rw [← hs, hline, htext, Format.text_cons, append_assoc]
    · rcases mem_cons.1 ht with rfl | ht
      · exact hwrite
      · exact hwritable t ht

/-- **What is written is the text of the records**, which can be written. -/
theorem written_text {env : Env} {options : Option Value} {o : CsvOptions} {recs : List (List Bytes)} {s : Bytes}
    (h : LinesWritten env options o recs s ∨ FileWritten env options o recs s) : ∃ F, o.For F ∧
      LineBreak (cString o.lineEnd) ∧ s = F.text o.lineEnd recs ∧ ∀ ts ∈ recs, F.Writable ts := by
  rcases h with ⟨hoptions, rows, ws, htells, hws, rfl⟩ | ⟨hoptions, store, rows, body, hwrite, htells, rfl⟩
  · obtain ⟨⟨F, ho⟩, hend⟩ := csvReadOptions_ok hoptions
    exact ⟨F, ho, hend, lines_text ho hoptions htells hws⟩
  · obtain ⟨⟨F, ho⟩, hend⟩ := csvReadOptions_ok hoptions
    refine ⟨F, ho, hend, ?_⟩
    unfold csvWrite at hwrite
    rw [hoptions] at hwrite
    change (match headerNames o rows with
      | some names => csvPutRecord env "csv.write" (.array 0 (names.map Value.string)) none o 0 >>= fun header =>
          csvPutRows env (some names) o 0 rows >>= fun body => .ok (header ++ o.lineEnd ++ body)
      | none => csvPutRows env none o 0 rows) = _ at hwrite
    rcases hnames : headerNames o rows with _ | names <;> rw [hnames] at hwrite htells <;> dsimp only at hwrite
    · exact rows_text ho htells hwrite
    · rcases hput : csvPutRecord env "csv.write" (.array 0 (names.map Value.string)) none o 0 with e | header <;>
        rw [hput] at hwrite
      · cases hwrite
      change (csvPutRows env (some names) o 0 rows >>= _) = _ at hwrite
      rcases hbody : csvPutRows env (some names) o 0 rows with e | written <;> rw [hbody] at hwrite
      · cases hwrite
      have htold : Tells env none (.array 0 (names.map Value.string)) names := by
        refine ⟨_, rfl, ?_⟩
        rw [List.forall₂_map_left_iff]
        exact List.forall₂_same.2 (fun _ _ => rfl)
      obtain ⟨ts', htells', hline, hwrite'⟩ := csvPutRecord_ok ho hput
      obtain rfl := htold.unique htells'
      obtain ⟨htext, hwritable⟩ := rows_text ho htells hbody
      have hs : header ++ o.lineEnd ++ written = s := Except.ok.inj hwrite
      refine ⟨?_, fun t ht => ?_⟩
      · rw [← hs, hline, htext, Option.toList_some, List.singleton_append, Format.text_cons, append_assoc]
      · rcases mem_cons.1 ht with rfl | ht
        · exact hwrite'
        · exact hwritable t ht

theorem terminates_iff (F : Format) : (∀ r : Reader, r.Of F → r.Terminates) ↔ F.delimiter.val ≠ 255 := by
  constructor
  · intro h hd
    -- One of two letters is no quote.
    obtain ⟨b, hb, hq⟩ : ∃ b : Byte, isBreak (some b) = false ∧ F.quote ≠ some b := by
      by_cases hq : F.quote = some 97
      · exact ⟨98, rfl, by rw [hq]; decide⟩
      · exact ⟨97, rfl, hq⟩
    exact Reader.next_spins hd hb hq (h _ ⟨rfl, rfl⟩)
  · intro hd r hof
    exact Reader.next_stops (by rw [hof.delimiter]; exact hd)

def plainEnv : Env := ⟨fun _ => .ok []⟩

def pair : Value := .array 0 [.string (text "a"), .string (text "b")]

def semicolon : Option Value := some (.record [(text "delimiter", .string (text ";"))])

/-- Fields with the delimiter, the quote and a line's end in them, and an empty one. -/
def quotedRecords : List (List Bytes) :=
  [[text "a", text "b;c"], [text "say \"hi\"", text "x\ny"], [[], text "d"]]

def quotedText : Bytes := text "a;\"b;c\"\n\"say \"\"hi\"\"\";\"x\ny\"\n;d\n"

/-- `é` of one byte between the fields. -/
def latin : Format := ⟨233, some 34, rfl, rfl, by decide⟩

def latinOptions : Option Value := some (.record [(text "delimiter", .string [233])])

end Csv
end Gbasic
