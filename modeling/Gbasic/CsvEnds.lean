import Gbasic.CsvText
/-!
# CsvEnds — what is so of every call

Whatever is read, a record holds no more than it may, and one field where the delimiter is a byte that a `char` has as a
negative (`next_any`); a byte order mark at the start is passed over (`start_mark`); and where the delimiter is `0xFF`,
a record at the end of the input has no end (`next_spins`).
-/
namespace Gbasic
namespace Csv

namespace Reader

variable {r : Reader} {F : Format} {s : Bytes}

/-! ## A delimiter that is the end's -/

theorem field_none {n : Nat} (hu : r.src.unread = []) : r.field (n + 1) = .ok (none, r.beginField.peek.2.peek.2) := by
  have hfst : ∀ s : Reader, s.src.unread = [] → s.peek.1 = none := by
    intro s hs
    rw [peek_fst, hs]
    rfl
  have hu₁ : r.beginField.peek.2.src.unread = [] := (unread_peek _).trans hu
  have hquote : ¬(0 ≤ r.beginField.peek.2.quote ∧ cint r.beginField.peek.1 = r.beginField.peek.2.quote) := by
    rw [hfst r.beginField hu]
    rintro ⟨hpos, heq⟩
    rw [← heq] at hpos
    exact absurd hpos (by decide)
  have hpeek := hfst _ hu₁
  have hplain := plain_stop (n := n) (r := r.beginField.peek.2) (.inl hpeek)
  unfold field
  dsimp only
  rw [if_neg hquote, hplain]
  exact congrArg Except.ok (Prod.ext hpeek rfl)

theorem fields_spin : ∀ (n : Nat) {r : Reader}, r.delimiter.val = 255 → r.src.unread = [] →
    (∀ r', r.fields n ≠ .ok r') ∧ (r.src.Sound → r.fields n = .error .turns)
  | 0, _, _, _ => ⟨fun _ h => (by cases h), fun _ => rfl⟩
  | 1, _, _, _ => by
    unfold fields
    have hturns : ∀ r : Reader, r.field 0 = .error .turns := by
      intro r
      unfold field
      dsimp only
      split_ifs
      · rfl
      · rfl
    rw [hturns]
    exact ⟨fun _ h => (by cases h), fun _ => rfl⟩
  | n + 2, r, hd, hu => by
    have hu₁ : r.beginField.peek.2.peek.2.src.unread = [] := by
      rw [unread_peek, unread_peek]
      exact hu
    have htake : r.beginField.peek.2.peek.2.take.src.unread = [] := by
      rw [unread_take, unread_peek]
      exact congrArg List.tail hu
    have hdelim : cint none = schar r.beginField.peek.2.peek.2.delimiter := (cint_none _).2 hd
    obtain ⟨hok, hturns⟩ := fields_spin (n + 1) (r := r.beginField.peek.2.peek.2.take) hd htake
    have hstep : r.fields (n + 2) = if r.beginField.peek.2.peek.2.src.failed then .error (.failed .readFailed)
        else r.beginField.peek.2.peek.2.take.fields (n + 1) := by
      rw [fields, field_none hu]
      change (if r.beginField.peek.2.peek.2.src.failed then _
        else if cint none = schar r.beginField.peek.2.peek.2.delimiter then _ else _) = _
      rw [if_pos hdelim]
    rw [hstep]
    split_ifs with hfailed
    · refine ⟨fun _ h => (by cases h), fun hsound => ?_⟩
      have hs := (kept_peek _).sound ((kept_peek r.beginField).sound hsound)
      rw [hs.1] at hfailed
      cases hfailed
    · exact ⟨hok, fun hsound => hturns ((kept_peek _).sound ((kept_peek r.beginField).sound hsound))⟩

/-! ## The first call -/

def mark : Bytes := [byte 0xEF, byte 0xBB, byte 0xBF]

structure Delivers (reads : List Bytes) (s : Bytes) : Prop where
  whole : reads.flatten = s
  some : ∀ piece ∈ reads, piece ≠ []
  first : ∀ piece more, reads = piece :: more → 3 ≤ piece.length ∨ more = []

/-- A reader of some text, or of a file that is read in pieces. -/
def Opens (F : Format) (s : Bytes) (r : Reader) : Prop :=
  r = openText s F.delimiter F.quoteInt ∨ ∃ reads, Delivers reads s ∧ r = openFile reads false F.delimiter F.quoteInt

theorem start_of (h : r.started = false) : r.start = if r.peek.1 = some (byte 0xEF) ∧
    3 ≤ r.peek.2.src.held.length - r.peek.2.src.pos ∧ r.peek.2.src.held[r.peek.2.src.pos + 1]? = some (byte 0xBB) ∧
    r.peek.2.src.held[r.peek.2.src.pos + 2]? = some (byte 0xBF) then { r.peek.2 with started := true }.take.take.take
    else { r.peek.2 with started := true } := by
  unfold start
  rw [h]
  rfl

theorem Opens.shows (h : Opens F s r) :
    ∃ piece, r.peek.2.src.held.drop r.peek.2.src.pos = piece ∧ piece <+: s ∧ (3 ≤ piece.length ∨ piece = s) := by
  refine ⟨_, rfl, ?_⟩
  rcases h with rfl | ⟨reads, hreads, rfl⟩
  · have hpeek : (openText s F.delimiter F.quoteInt).peek.2.src.held = s ∧
        (openText s F.delimiter F.quoteInt).peek.2.src.pos = 0 := by
      cases s with
      | nil | cons => exact ⟨rfl, rfl⟩
    rw [hpeek.1, hpeek.2, List.drop_zero]
    exact ⟨List.prefix_rfl, .inr rfl⟩
  · obtain ⟨hwhole, hsome, hfirst⟩ := hreads
    rcases reads with _ | ⟨_ | ⟨c, piece⟩, more⟩
    · rw [← hwhole]
      exact ⟨List.prefix_rfl, .inr rfl⟩
    · exact absurd rfl (hsome [] (List.mem_cons_self ..))
    · have hpeek : (openFile ((c :: piece) :: more) false F.delimiter F.quoteInt).peek.2.src.held = c :: piece ∧
          (openFile ((c :: piece) :: more) false F.delimiter F.quoteInt).peek.2.src.pos = 0 := ⟨rfl, rfl⟩
      rw [hpeek.1, hpeek.2, List.drop_zero, ← hwhole, List.flatten_cons]
      refine ⟨List.prefix_append _ _, ?_⟩
      rcases hfirst _ _ rfl with hlen | rfl
      · exact .inl hlen
      · exact .inr (by rw [List.flatten_nil, List.append_nil])

theorem Opens.fresh (h : Opens F s r) : r.Of F ∧ r.src.Sound ∧ r.src.unread = s ∧
    r.started = false ∧ r.consumed = 0 ∧ r.line = 1 ∧ r.CapOk := by
  have hcap : ∀ src : Inflow Byte, (readerNew src F.delimiter F.quoteInt).CapOk := fun _ => ⟨le_rfl, .inl rfl⟩
  rcases h with rfl | ⟨reads, hreads, rfl⟩
  · exact ⟨⟨rfl, rfl⟩, ⟨rfl, rfl⟩, Inflow.unread_ofList s, rfl, rfl, rfl, hcap _⟩
  · exact ⟨⟨rfl, rfl⟩, ⟨rfl, rfl⟩, (Inflow.unread_ofReads hreads.some false).trans hreads.whole, rfl, rfl, rfl, hcap _⟩

theorem Opens.mark_iff (h : Opens F s r) : mark <+: s ↔
    r.peek.1 = some (byte 0xEF) ∧ 3 ≤ r.peek.2.src.held.length - r.peek.2.src.pos ∧
      r.peek.2.src.held[r.peek.2.src.pos + 1]? = some (byte 0xBB) ∧
      r.peek.2.src.held[r.peek.2.src.pos + 2]? = some (byte 0xBF) := by
  obtain ⟨piece, hpiece, hprefix, hlen⟩ := h.shows
  have hat : ∀ i, r.peek.2.src.held[r.peek.2.src.pos + i]? = piece[i]? := by
    intro i
    rw [← hpiece, List.getElem?_drop]
  have hfst : r.peek.1 = s.head? := by rw [peek_fst, h.fresh.2.2.1]
  rw [hfst, hat, hat, ← List.length_drop, hpiece]
  obtain ⟨rest, rfl⟩ := hprefix
  rcases piece with _ | ⟨a, _ | ⟨b, _ | ⟨c, piece⟩⟩⟩
  · rcases hlen with hlen | hlen
    · exact absurd hlen (by decide)
    · rw [← hlen]
      simp [mark]
  · rcases hlen with hlen | hlen
    · exact absurd hlen (by simp)
    · rw [← hlen]
      simp [mark]
  · rcases hlen with hlen | hlen
    · exact absurd hlen (by simp)
    · rw [← hlen]
      simp [mark]
  · simp [mark, List.cons_prefix_cons, eq_comm]

theorem start_mark (h : Opens F s r) (hmark : mark <+: s) : r.start.consumed = 3 ∧ r.start.started = true := by
  rw [start_of h.fresh.2.2.2.1, if_pos (h.mark_iff.1 hmark)]
  exact ⟨congrArg (· + 3) h.fresh.2.2.2.2.1, rfl⟩

theorem start_behind (h : Opens F s r) (hmark : ¬mark <+: s) : Behind F [] s r.start := by
  obtain ⟨hof, hsound, hu, hstarted, hconsumed, hline, -⟩ := h.fresh
  rw [start_of hstarted, if_neg (fun ht => hmark (h.mark_iff.2 ht))]
  exact ⟨⟨hof.delimiter, hof.quote⟩, (kept_peek r).sound hsound, rfl, (unread_peek r).trans hu, hconsumed, hline⟩

theorem next_start {r' : Reader} {b : Bool} (h : r.start.started = true) : Next r b r' ↔ Next r.start b r' := by
  have heq : ∀ n, r.gbCsvNext n = r.start.gbCsvNext n := by
    intro n
    unfold gbCsvNext
    rw [start_started h]
  unfold Next
  simp only [heq]

/-- A byte and the end of the input, where the delimiter is `0xFF`. -/
theorem next_spins {b : Byte} (hd : F.delimiter.val = 255) (hb : isBreak (some b) = false) (hq : F.quote ≠ some b) :
    ¬(openText [b] F.delimiter F.quoteInt).Terminates := by
  rintro ⟨m, hm⟩
  refine hm (m + 3) (Nat.le_add_right ..) ?_
  have hopens : Opens F [b] (openText [b] F.delimiter F.quoteInt) := .inl rfl
  have hmark : ¬mark <+: [b] := by
    simp [mark]
  obtain ⟨hof, hsound, hstarted, hu, -, -⟩ := start_behind hopens hmark
  generalize hr : (openText [b] F.delimiter F.quoteInt).start = r at hof hsound hstarted hu
  have hskip := skipBlank_none (n := m + 2) (r := r) (by rw [hu]; exact hb)
  have hsound₁ := (kept_peek r).sound hsound
  have hu₁ : r.peek.2.beginRecord.beginField.peek.2.src.unread = [b] ++ [] := by
    rw [unread_peek]
    exact (unread_peek r).trans hu
  have hnq : ¬(0 ≤ r.peek.2.beginRecord.beginField.peek.2.quote ∧
      cint r.peek.2.beginRecord.beginField.peek.1 = r.peek.2.beginRecord.beginField.peek.2.quote) := by
    have hfst : r.peek.2.beginRecord.beginField.peek.1 = ([b] : Bytes).head? := by
      rw [peek_fst]
      exact congrArg List.head? ((unread_peek r).trans hu)
    rw [hfst]
    intro h
    obtain ⟨q, hq', hhead⟩ := (quote_iff hof).1 h
    exact hq (hq'.trans hhead.symm)
  obtain ⟨r₁, hplain, hmoved⟩ := plain_reads (n := m + 2) (by simp) hu₁ (by
    rintro c hc (h | h | h)
    · cases h
    · have hval : (c.val : Int) = schar F.delimiter := h.trans (congrArg schar hof.delimiter)
      unfold schar at hval
      rw [if_neg (by omega)] at hval
      omega
    · rw [List.mem_singleton.1 hc, hb] at h
      cases h) (.inl rfl) (by
    change ([] : Bytes).length + 1 ≤ _
    decide)
  have hu₂ : r₁.take.src.unread = [] := by
    rw [(plain_kept hplain).2.1.take, hmoved.unread_eq hu₁]
    rfl
  have hd₁ : r₁.delimiter = F.delimiter := hmoved.delimiter.trans hof.delimiter
  have hsound₂ := hmoved.sound ((kept_peek r.peek.2.beginRecord.beginField).sound hsound₁)
  have hd₂ : r₁.take.delimiter.val = 255 := (congrArg Fin.val hd₁).trans hd
  have hspin := (fields_spin (m + 2) hd₂ hu₂).2 hsound₂
  have hfields : r.peek.2.beginRecord.fields (m + 3) = .error .turns := by
    unfold fields field
    dsimp only
    rw [if_neg hnq, hplain]
    change (if r₁.src.failed = true then _ else if cint none = schar r₁.delimiter then _ else _) = _
    rw [if_neg (by rw [hsound₂.1]; decide), if_pos ((cint_none _).2 (by rw [hd₁]; exact hd))]
    exact hspin
  have hfst : r.peek.1 = some b := by rw [peek_fst, hu]; rfl
  unfold gbCsvNext
  rw [hr, hskip]
  change (if r.peek.2.src.failed = true then _ else if r.peek.1 = none then _ else _) = _
  rw [if_neg (by rw [hsound₁.1]; decide), if_neg (by rw [hfst]; intro h; cases h)]
  change (do return (true, ← fields (m + 3) r.peek.2.beginRecord)) = _
  rw [hfields]
  rfl

/-! ## Every record -/

structure Told (r r' : Reader) (ts : List Bytes) : Prop where
  starts : r'.starts = r.starts ++ offsets r.fieldBuf.length ts
  buf : r'.fieldBuf = r.fieldBuf ++ ts.flatten
  delimiter : r'.delimiter = r.delimiter
  recOffset : r'.recOffset = r.recOffset
  started : r'.started = r.started
  cap : r.CapOk → r'.CapOk
  one : 128 ≤ r.delimiter.val → ts.length = 1

theorem fields_any : ∀ {n : Nat} {r r' : Reader}, r.fields n = .ok r' → ∃ ts, Told r r' ts
  | 0, _, _, h => by cases h
  | n + 1, r, r', h => by
    unfold fields at h
    rcases hfield : r.field n with e | ⟨c, r₁⟩ <;> rw [hfield] at h
    · cases h
    obtain ⟨hkept, hlooked, hhead, -⟩ := field_kept hfield
    obtain ⟨t, ht⟩ := hkept.held
    have hbuf : r₁.fieldBuf = r.fieldBuf ++ t := ht.symm
    have hstarts : r₁.starts = r.starts ++ [r.fieldBuf.length] := hkept.starts
    -- A reader that has the field and no other.
    have hlast : ∀ r₂, Kept r₁ r₂ → r₂.fieldBuf = r₁.fieldBuf → Told r r₂ [t] := by
      intro r₂ hk hb
      refine ⟨hk.starts.trans hstarts, ?_, hk.delimiter.trans hkept.delimiter, hk.recOffset.trans hkept.recOffset,
        hk.started.trans hkept.started, fun hc => hk.cap (hkept.cap hc), fun _ => rfl⟩
      rw [hb, hbuf, List.flatten_singleton]
    change (if r₁.src.failed = true then _ else if cint c = schar r₁.delimiter then fields n r₁.take else
      Except.ok (if isBreak c = true then r₁.takeBreak c else r₁)) = _ at h
    split_ifs at h with hfailed hdelim hbreak
    · obtain ⟨ts, htold⟩ := fields_any h
      have hd : r₁.take.delimiter = r.delimiter := hkept.delimiter
      have hbuf₁ : r₁.take.fieldBuf = r.fieldBuf ++ t := hbuf
      refine ⟨t :: ts, ?_, ?_, htold.delimiter.trans hd, htold.recOffset.trans hkept.recOffset,
        htold.started.trans hkept.started, fun hc => htold.cap ((kept_take r₁).cap (hkept.cap hc)), ?_⟩
      · rw [htold.starts, hbuf₁, List.length_append, show r₁.take.starts = _ from hstarts, List.append_assoc]
        rfl
      · rw [htold.buf, hbuf₁, List.flatten_cons, List.append_assoc]
      · -- A `char` that is negative is the end alone, after which there is no record.
        intro hbig
        exfalso
        have hneg : schar r₁.delimiter < 0 := by
          rw [show r₁.delimiter = r.delimiter from hkept.delimiter]
          unfold schar
          have hlt := r.delimiter.isLt
          rw [if_neg (by omega)]
          omega
        rcases c with _ | b
        · have hu : r₁.src.unread = [] := List.head?_eq_none_iff.1 hhead.symm
          have htake : r₁.take.src.unread = [] := by
            rw [hlooked.take, hu]
            rfl
          exact (fields_spin n (r := r₁.take) ((cint_none _).1 hdelim) htake).1 r' h
        · rw [← hdelim] at hneg
          exact absurd hneg (not_lt.2 (Int.natCast_nonneg _))
    · refine ⟨[t], hlast r' ?_ ?_⟩
      · rw [← Except.ok.inj h]
        exact kept_takeBreak r₁ c
      · rw [← Except.ok.inj h]
        unfold takeBreak
        dsimp only
        split_ifs <;> rfl
    · exact ⟨[t], hlast r' (Except.ok.inj h ▸ Kept.refl r₁) (Except.ok.inj h ▸ rfl)⟩

theorem takeBreak_consumed (r : Reader) (c : Option Byte) : r.consumed ≤ (r.takeBreak c).consumed := by
  have h₁ : r.take.consumed = r.consumed + 1 := rfl
  have h₂ : r.take.peek.2.take.consumed = r.consumed + 1 + 1 := rfl
  unfold takeBreak
  dsimp only
  split_ifs
  · change r.consumed ≤ r.take.peek.2.take.consumed
    omega
  · change r.consumed ≤ r.take.consumed
    omega
  · change r.consumed ≤ r.take.consumed
    omega

theorem skipBlank_consumed : ∀ {n : Nat} {r r' : Reader} {c : Option Byte}, r.skipBlank n = .ok (c, r') →
    r.consumed ≤ r'.consumed ∧ (isBreak r.src.unread.head? = false → r'.consumed = r.consumed ∧ c = r.src.unread.head?)
  | 0, _, _, _, h => by cases h
  | n + 1, r, r', c, h => by
    unfold skipBlank at h
    rw [peek_fst] at h
    split_ifs at h with hbreak
    · obtain ⟨hle, -⟩ := skipBlank_consumed h
      have hpeek : r.peek.2.consumed = r.consumed := rfl
      have hfirst := takeBreak_consumed r.peek.2 r.src.unread.head?
      refine ⟨by omega, fun hfalse => ?_⟩
      rw [hfalse] at hbreak
      cases hbreak
    · have hc : r.peek.1 = c := congrArg Prod.fst (Except.ok.inj h)
      have hr : r.peek.2 = r' := congrArg Prod.snd (Except.ok.inj h)
      rw [← hr, ← hc, peek_fst]
      exact ⟨le_rfl, fun _ => ⟨rfl, rfl⟩⟩

/-- **What is so of any call that gives a record.** -/
theorem next_any {r' : Reader} (h : Next r true r') : ∃ ts, r'.row.fields = ts ∧ r'.delimiter = r.delimiter ∧
    (128 ≤ r.delimiter.val → ts.length = 1) ∧ (r.CapOk → r'.CapOk ∧ ts.flatten.length ≤ GB_CSV_MAX_RECORD) ∧
    r.start.consumed ≤ r'.recOffset ∧
    (isBreak r.start.src.unread.head? = false → r'.recOffset = r.start.consumed) := by
  obtain ⟨n, h⟩ := h
  unfold gbCsvNext at h
  rcases hskip : r.start.skipBlank n with e | ⟨c, r₁⟩ <;> rw [hskip] at h
  · cases h
  change (if r₁.src.failed = true then _ else if c = none then (Except.ok (false, r₁)) else
    (do return (true, ← fields n r₁.beginRecord))) = _ at h
  obtain ⟨hkept, -, -, -⟩ := skipBlank_kept hskip
  obtain ⟨hle, hsame⟩ := skipBlank_consumed hskip
  have hcapstart : r.CapOk → r.start.CapOk := by
    intro hc
    unfold start
    dsimp only
    split_ifs
    · exact hc
    · exact hc
    · exact hc
  split_ifs at h with hfailed hnone
  · obtain ⟨hfalse, -⟩ := Prod.mk.inj (Except.ok.inj h)
    cases hfalse
  · rcases hfields : fields n r₁.beginRecord with e | r₂ <;> rw [hfields] at h
    · cases h
    obtain ⟨-, rfl⟩ := Prod.mk.inj (Except.ok.inj h)
    obtain ⟨ts, htold⟩ := fields_any hfields
    have hd : r₁.delimiter = r.delimiter := hkept.delimiter.trans (start_delimiter r)
    have hoffset : r₂.recOffset = r₁.consumed := htold.recOffset
    refine ⟨ts, row_fields htold.starts htold.buf, htold.delimiter.trans hd, ?_, ?_, ?_, ?_⟩
    · intro hbig
      exact htold.one (by rw [show r₁.beginRecord.delimiter = r.delimiter from hd]; exact hbig)
    · intro hc
      have hcap : r₁.beginRecord.CapOk := ⟨Nat.zero_le _, (hkept.cap (hcapstart hc)).2⟩
      have hle' := (htold.cap hcap).le
      rw [htold.buf] at hle'
      exact ⟨htold.cap hcap, hle'⟩
    · rw [hoffset]
      exact hle
    · intro hbreak
      rw [hoffset]
      exact (hsame hbreak).1

theorem next_none {r' : Reader} (h : Next r false r') (hbreak : isBreak r.start.src.unread.head? = false) :
    r.start.src.unread = [] := by
  obtain ⟨n, h⟩ := h
  unfold gbCsvNext at h
  rcases hskip : r.start.skipBlank n with e | ⟨c, r₁⟩ <;> rw [hskip] at h
  · cases h
  change (if r₁.src.failed = true then _ else if c = none then (Except.ok (false, r₁)) else
    (do return (true, ← fields n r₁.beginRecord))) = _ at h
  have hc := ((skipBlank_consumed hskip).2 hbreak).2
  split_ifs at h with hfailed hnone
  · exact List.head?_eq_none_iff.1 (hc.symm.trans hnone)
  · rcases hfields : fields n r₁.beginRecord with e | r₂ <;> rw [hfields] at h
    · cases h
    · obtain ⟨htrue, -⟩ := Prod.mk.inj (Except.ok.inj h)
      cases htrue

end Reader

theorem Reads.any {r : Reader} {rows : List Row} (h : Reads r rows) (hcap : r.CapOk) : ∀ row ∈ rows,
    (128 ≤ r.delimiter.val → row.fields.length = 1) ∧ row.fields.flatten.length ≤ GB_CSV_MAX_RECORD := by
  induction h with
  | done => intro row hrow; cases hrow
  | more hnext _ ih =>
    obtain ⟨ts, hts, hd, hone, hfits, -⟩ := Reader.next_any hnext
    obtain ⟨hcap', hlen⟩ := hfits hcap
    rw [hd] at ih
    intro row hrow
    rcases List.mem_cons.1 hrow with rfl | hrow
    · rw [hts]
      exact ⟨hone, hlen⟩
    · exact ih hcap' row hrow

end Csv
end Gbasic
