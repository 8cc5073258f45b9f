import Gbasic.SqlToken
/-!
# SqlTokenAppend — a token is told by the text as far as past it

What is read off a text is read off it with more after it, where the token ends before the end of the text, or the more
begins with a semicolon, which continues nothing (`Parts`, `next_append`).
-/
namespace Gbasic
namespace SqlText

open List (cons_append length_cons cons_ne_nil tail_append_of_ne_nil)

variable {tok : Tok} {start u start' : Bytes} {c : Byte} {e : Except Fault (Bytes × Bytes)}

def SEMI : Byte := 59

/-- More text after what a token leaves: nothing is left only before a semicolon, and no `&` before a quote. -/
structure Parts (r s : Bytes) : Prop where
  semi : r = [] → begins (· = SEMI) s = true
  unicode : r = text "&" → begins (· = QUOTE) s = false

theorem Parts.of_semi (r s : Bytes) : Parts r (SEMI :: s) :=
  ⟨fun _ => rfl, fun _ => rfl⟩

section
variable {p : Byte → Bool} {l m r s t : Bytes}

theorem begins_append (h : l ≠ []) : begins p (l ++ s) = begins p l := by
  cases l with
  | nil => exact absurd rfl h
  | cons b l => rfl

theorem begins_cons {b : Byte} (h : begins (· = b) l = true) : l = b :: l.tail := by
  cases l with
  | nil => cases h
  | cons c l =>
    obtain rfl : c = b := by simpa [begins] using h
    rfl

theorem semi_begins (hs : begins (· = SEMI) s = true) (hp : p SEMI = false) : begins p s = false := by
  rw [begins_cons hs]
  exact hp

theorem begins_parts (hs : l = [] → begins (· = SEMI) s = true) (hp : p SEMI = false) :
    begins p (l ++ s) = begins p l := by
  cases l with
  | nil => exact semi_begins (hs rfl) hp
  | cons b l => rfl

theorem dropWhile_parts (hp : p SEMI = false) (hs : l.dropWhile p = [] → begins (· = SEMI) s = true) :
    (l ++ s).dropWhile p = l.dropWhile p ++ s ∧ (l ++ s).takeWhile p = l.takeWhile p := by
  induction l with
  | nil =>
    rw [begins_cons (hs rfl)]
    simp [hp]
  | cons b l ih =>
    by_cases hb : p b = true
    · rw [List.dropWhile_cons_of_pos hb] at hs
      obtain ⟨h1, h2⟩ := ih hs
      rw [cons_append, List.dropWhile_cons_of_pos hb, List.takeWhile_cons_of_pos hb, List.dropWhile_cons_of_pos hb,
        List.takeWhile_cons_of_pos hb, h1, h2]
      exact ⟨rfl, rfl⟩
    · rw [cons_append, List.dropWhile_cons_of_neg hb, List.takeWhile_cons_of_neg hb, List.dropWhile_cons_of_neg hb,
        List.takeWhile_cons_of_neg hb]
      exact ⟨rfl, rfl⟩

theorem dropWhile_append_ne (h : l.dropWhile p ≠ []) : (l ++ s).dropWhile p = l.dropWhile p ++ s := by
  rw [List.dropWhile_append, if_neg (by simpa using h)]

/-! ## Space and comments -/

theorem skip_line (h : l.dropWhile isSpace = byte '-'.toNat :: byte '-'.toNat :: m) :
    skipSpace l = skipSpace (m.dropWhile (· ≠ byte '\n'.toNat)) := by
  rw [skipSpace]
  split
  next a b m' hl =>
    rw [h] at hl
    obtain ⟨rfl, htail⟩ := List.cons.inj hl
    obtain ⟨rfl, rfl⟩ := List.cons.inj htail
    rw [if_pos ⟨rfl, rfl⟩]
  next hno => exact absurd h (hno _ _ _)

theorem skip_block (h : l.dropWhile isSpace = byte '/'.toNat :: byte '*'.toNat :: m) :
    skipSpace l = match commentEnd m with
      | none => .error ⟨byte '/'.toNat :: byte '*'.toNat :: m, text "a /* comment is never closed"⟩
      | some r => skipSpace r := by
  rw [skipSpace]
  split
  next a b m' hl =>
    rw [h] at hl
    obtain ⟨rfl, htail⟩ := List.cons.inj hl
    obtain ⟨rfl, rfl⟩ := List.cons.inj htail
    rw [if_neg (by decide), if_pos ⟨rfl, rfl⟩]
    split
    next hm => rw [hm]
    next r hm => rw [hm]
  next hno => exact absurd h (hno _ _ _)

theorem take_two {a b : Byte} (h : l.take 2 = [a, b]) : ∃ m, l = a :: b :: m := by
  rcases l with _ | ⟨c, _ | ⟨d, m⟩⟩
  · cases h
  · cases h
  · cases h
    exact ⟨m, rfl⟩

/-- A text begins neither with space nor with a comment. -/
structure Settled (l : Bytes) : Prop where
  space : begins isSpace l = false
  line : l.take 2 ≠ text "--"
  block : l.take 2 ≠ text "/*"

theorem skip_settled (h : Settled (l.dropWhile isSpace)) : skipSpace l = .ok (l.dropWhile isSpace) := by
  rw [skipSpace]
  split
  next a b m hl =>
    rw [hl] at h ⊢
    rw [if_neg (fun hab => h.line (by rw [hab.1, hab.2]; rfl)), if_neg (fun hab => h.block (by rw [hab.1, hab.2]; rfl))]
  next hno => rfl

theorem dropWhile_space (l : Bytes) : begins isSpace (l.dropWhile isSpace) = false := by
  have h := List.head?_dropWhile_not isSpace l
  unfold begins
  cases hl : (l.dropWhile isSpace).head? with
  | none => rfl
  | some b =>
    rw [hl] at h
    simpa using h

theorem skip_congr (h : l.dropWhile isSpace = m.dropWhile isSpace) : skipSpace l = skipSpace m := by
  rw [skipSpace, skipSpace]
  rw [h]

theorem commentEnd_append : ∀ {l r : Bytes}, commentEnd l = some r → commentEnd (l ++ s) = some (r ++ s)
  | a :: b :: l, r, h => by
    rw [commentEnd] at h
    rw [cons_append, cons_append, commentEnd]
    split_ifs at h ⊢
    · cases h
      rfl
    · exact commentEnd_append h

theorem skip_append {l r : Bytes} (h : skipSpace l = .ok r) (hr : r ≠ [])
    (hs : Settled r → Settled (r ++ s)) : skipSpace (l ++ s) = .ok (r ++ s) := by
  induction hn : l.length using Nat.strong_induction_on generalizing l with
  | _ n ih =>
    subst hn
    by_cases hline : (l.dropWhile isSpace).take 2 = text "--"
    · obtain ⟨m, hm⟩ := take_two hline
      have hshort : m.length < l.length := by
        have := dropWhile_length isSpace l
        rw [hm, length_cons, length_cons] at this
        omega
      rw [skip_line hm] at h
      have hne : m.dropWhile (· ≠ byte '\n'.toNat) ≠ [] := by
        intro hnil
        rw [hnil, skip_settled ⟨rfl, by decide, by decide⟩] at h
        cases h
        exact hr rfl
      have happ : (l ++ s).dropWhile isSpace = byte '-'.toNat :: byte '-'.toNat :: (m ++ s) := by
        rw [dropWhile_append_ne (by rw [hm]; exact cons_ne_nil _ _), hm]
        rfl
      rw [skip_line happ, dropWhile_append_ne hne]
      exact ih _ (lt_of_le_of_lt (dropWhile_length _ m) hshort) h rfl
    by_cases hblock : (l.dropWhile isSpace).take 2 = text "/*"
    · obtain ⟨m, hm⟩ := take_two hblock
      have hshort : m.length < l.length := by
        have := dropWhile_length isSpace l
        rw [hm, length_cons, length_cons] at this
        omega
      have happ : (l ++ s).dropWhile isSpace = byte '/'.toNat :: byte '*'.toNat :: (m ++ s) := by
        rw [dropWhile_append_ne (by rw [hm]; exact cons_ne_nil _ _), hm]
        rfl
      rw [skip_block hm] at h
      rcases hend : commentEnd m with _ | q
      · rw [hend] at h
        cases h
      · rw [hend] at h
        rw [skip_block happ, commentEnd_append hend]
        exact ih _ ((commentEnd_length hend).trans hshort) h rfl
    · have hset : Settled (l.dropWhile isSpace) := ⟨dropWhile_space l, hline, hblock⟩
      rw [skip_settled hset] at h
      cases h
      have happ := dropWhile_append_ne (s := s) hr
      have := hs hset
      rw [← happ] at this ⊢
      exact skip_settled this

/-! ## Bodies -/

theorem hexDigits_append : ∀ {k cp : Nat} {l r : Bytes} {v : Nat}, hexDigits k cp l = some (v, r) →
    hexDigits k cp (l ++ s) = some (v, r ++ s)
  | 0, _, _, _, _, h => by
    cases h
    rfl
  | k + 1, cp, b :: l, r, v, h => by
    rw [hexDigits] at h
    rw [cons_append, hexDigits]
    split_ifs at h ⊢
    exact hexDigits_append h

theorem escape_append (h : escape l = some (u, r)) : escape (l ++ s) = some (u, r ++ s) := by
  have hne : l ≠ [] := by
    rintro rfl
    cases h
  have htail : (l ++ s).tail = l.tail ++ s := tail_append_of_ne_nil hne
  unfold escape at h ⊢
  rw [begins_append hne, begins_append hne, htail]
  have hpoint : ∀ {d d' : Option (Nat × Bytes)}, (∀ v q, d = some (v, q) → d' = some (v, q ++ s)) →
      codePoint d = some (u, r) → codePoint d' = some (u, r ++ s) := by
    intro d d' hd hc
    obtain ⟨v, rfl⟩ := codePoint_some hc
    rw [hd v r rfl]
    unfold codePoint at hc ⊢
    dsimp only at hc ⊢
    split_ifs at hc ⊢
    cases hc
    rfl
  split_ifs at h ⊢
  · cases h
    rfl
  · exact hpoint (fun v q => hexDigits_append) h
  · exact hpoint (fun v q => hexDigits_append) h

theorem unicodeBody_append : ∀ {acc : Bytes}, unicodeBody start acc l = .ok (u, r) →
    (r = [] → begins (· = SEMI) s = true) → unicodeBody start' acc (l ++ s) = .ok (u, r ++ s) := by
  induction hn : l.length using Nat.strong_induction_on generalizing l with
  | _ n ih =>
    subst hn
    intro acc h hs
    cases l with
    | nil =>
      rw [unicodeBody] at h
      cases h
    | cons b l =>
      rw [unicodeBody] at h
      rw [cons_append, unicodeBody]
      by_cases hb : b = QUOTE
      · rw [if_pos hb] at h ⊢
        by_cases hq : begins (· = QUOTE) l = true
        · have hne : l ≠ [] := by
            rintro rfl
            cases hq
          rw [if_pos hq] at h
          rw [begins_append hne, if_pos hq, tail_append_of_ne_nil hne]
          exact ih _ (by rw [List.length_tail, length_cons]; omega) rfl h hs
        · rw [if_neg hq] at h
          cases h
          rw [begins_parts hs (by decide), if_neg hq]
      · rw [if_neg hb] at h ⊢
        by_cases hback : b = BACKSLASH
        · rw [if_pos hback] at h ⊢
          split at h
          next => cases h
          next p hp =>
            have happ := escape_append (s := s) (u := p.1) (r := p.2) hp
            split
            next hnone => rw [hnone] at happ; cases happ
            next q hq =>
              rw [hq] at happ
              cases happ
              exact ih _ (lt_of_le_of_lt (escape_length hp) (Nat.lt_succ_self _)) rfl h hs
        · rw [if_neg hback] at h ⊢
          exact ih _ (Nat.lt_succ_self _) rfl h hs

theorem quotedBody_append {q : Byte} (hq : q ≠ SEMI) : ∀ {acc : Bytes},
    quotedBody start q acc l = .ok (u, r) → (r = [] → begins (· = SEMI) s = true) →
      quotedBody start' q acc (l ++ s) = .ok (u, r ++ s) := by
  induction hn : l.length using Nat.strong_induction_on generalizing l with
  | _ n ih =>
    subst hn
    intro acc h hs
    cases l with
    | nil =>
      rw [quotedBody] at h
      cases h
    | cons b l =>
      rw [quotedBody] at h
      rw [cons_append, quotedBody]
      by_cases hb : b = q
      · rw [if_pos hb] at h ⊢
        by_cases hq' : begins (· = q) l = true
        · have hne : l ≠ [] := by
            rintro rfl
            cases hq'
          rw [if_pos hq'] at h
          rw [begins_append hne, if_pos hq', tail_append_of_ne_nil hne]
          exact ih _ (by rw [List.length_tail, length_cons]; omega) rfl h hs
        · rw [if_neg hq'] at h
          cases h
          rw [begins_parts hs (by simpa using fun h => hq h.symm), if_neg hq']
      · rw [if_neg hb] at h ⊢
        exact ih _ (Nat.lt_succ_self _) rfl h hs

/-! ## Numbers -/

theorem pastExponent_append (hname : begins identStart (pastExponent l) = false)
    (hs : pastExponent l = [] → begins (· = SEMI) s = true) : pastExponent (l ++ s) = pastExponent l ++ s := by
  by_cases he : begins (fun b => b = byte 'e'.toNat ∨ b = byte 'E'.toNat) l = true
  · have hne : l ≠ [] := by
      rintro rfl
      cases he
    unfold pastExponent at hname hs ⊢
    rw [if_pos he] at hname hs ⊢
    rw [begins_append hne, if_pos he, tail_append_of_ne_nil hne]
    by_cases hd : begins isDigit (pastSign l.tail) = true
    · rw [if_pos hd] at hs ⊢
      have hsign : pastSign (l.tail ++ s) = pastSign l.tail ++ s := by
        have htail : l.tail ≠ [] := by
          intro h
          rw [h] at hd
          cases hd
        unfold pastSign at hd ⊢
        rw [begins_append htail]
        split_ifs with hsg
        · exact tail_append_of_ne_nil htail
        · rfl
      have hne' : pastSign l.tail ≠ [] := by
        intro h
        rw [h] at hd
        cases hd
      rw [hsign, begins_append hne', if_pos hd]
      exact (dropWhile_parts (by decide) hs).1
    · rw [if_neg hd] at hname
      exfalso
      rcases l with _ | ⟨b, l⟩
      · exact hne rfl
      · have hb : b = byte 'e'.toNat ∨ b = byte 'E'.toNat := by simpa [begins] using he
        rcases hb with rfl | rfl
        · exact absurd hname (show ¬ identStart (byte 'e'.toNat) = false by decide)
        · exact absurd hname (show ¬ identStart (byte 'E'.toNat) = false by decide)
  · have hno : pastExponent l = l := by
      unfold pastExponent
      rw [if_neg he]
    rw [hno] at hs ⊢
    unfold pastExponent
    rw [begins_parts hs (by decide), if_neg he]

theorem pastNumber_append (hname : begins identStart (pastNumber l) = false)
    (hs : pastNumber l = [] → begins (· = SEMI) s = true) : pastNumber (l ++ s) = pastNumber l ++ s := by
  unfold pastNumber at *
  have hdigits : l.dropWhile isDigit = [] → begins (· = SEMI) s = true := by
    intro h
    rw [h] at hs
    exact hs rfl
  rw [(dropWhile_parts (by decide) hdigits).1]
  generalize l.dropWhile isDigit = m at *
  have hpoint : pastPoint (m ++ s) = pastPoint m ++ s := by
    by_cases hdot : begins (· = byte '.'.toNat) m = true
    · have hne : m ≠ [] := by
        rintro rfl
        cases hdot
      unfold pastPoint at hs ⊢
      rw [if_pos hdot] at hs ⊢
      rw [begins_append hne, if_pos hdot, tail_append_of_ne_nil hne]
      refine (dropWhile_parts (by decide) (fun h => ?_)).1
      rw [h] at hs
      exact hs rfl
    · unfold pastPoint
      rw [begins_parts hdigits (by decide), if_neg hdot, if_neg hdot]
  rw [hpoint]
  exact pastExponent_append hname hs

/-! ## Tokens -/

theorem stringTok_append {e' : Except Fault (Bytes × Bytes)} (h : stringTok e = .ok (tok, r))
    (he : ∀ u, e = .ok (u, r) → e' = .ok (u, r ++ s)) : stringTok e' = .ok (tok, r ++ s) := by
  rcases e with f | ⟨u, q⟩
  · cases h
  · cases h
    rw [he u rfl]
    rfl

theorem nameTok_append {e' : Except Fault (Bytes × Bytes)} (h : nameTok start e = .ok (tok, r))
    (he : ∀ u, e = .ok (u, r) → e' = .ok (u, r ++ s)) : nameTok start' e' = .ok (tok, r ++ s) := by
  rcases e with f | ⟨u, q⟩
  · cases h
  · unfold nameTok at h
    dsimp only at h
    split_ifs at h with hbad
    cases h
    rw [he u rfl, nameTok, if_neg hbad]

theorem two_length : ∀ t ∈ TWO, t.length = 2 := by decide

theorem two_first : ∀ t ∈ TWO, t.head? ≠ some SEMI := by decide

theorem two_second : ∀ t ∈ TWO, t[1]? ≠ some SEMI := by decide

theorem token_take {q : Bytes} :
    (c :: (l ++ s)).take ((c :: (l ++ s)).length - (q ++ s).length) = (c :: l).take ((c :: l).length - q.length) := by
  have hlen : (c :: (l ++ s)).length - (q ++ s).length = (c :: l).length - q.length := by
    rw [length_cons, List.length_append, List.length_append, length_cons]
    omega
  rw [hlen, ← cons_append, List.take_append_of_le_length (Nat.sub_le _ _)]

/-- **A token is read with more after it as without.** -/
theorem token_append (h : token c l = .ok (tok, r)) (hs : Parts r s) : token c (l ++ s) = .ok (tok, r ++ s) := by
  unfold token at h ⊢
  by_cases hU : (c = byte 'u'.toNat ∨ c = byte 'U'.toNat) ∧ l.take 2 = text "&'"
  · obtain ⟨m, rfl⟩ := take_two hU.2
    rw [if_pos hU] at h
    rw [if_pos ⟨hU.1, rfl⟩]
    exact stringTok_append h (fun u hu => unicodeBody_append hu hs.semi)
  rw [if_neg hU] at h
  by_cases hname : identStart c = true
  · rw [if_pos hname] at h
    cases h
    obtain ⟨hdrop, htake⟩ := dropWhile_parts (p := identChar) (by decide) hs.semi
    have hno : ¬ ((c = byte 'u'.toNat ∨ c = byte 'U'.toNat) ∧ (l ++ s).take 2 = text "&'") := by
      rintro ⟨hc, htwo⟩
      rcases l with _ | ⟨a, _ | ⟨b, l⟩⟩
      · rw [begins_cons (hs.semi rfl)] at htwo
        exact absurd (List.cons.inj htwo).1 (by decide)
      · obtain ⟨rfl, htail⟩ := List.cons.inj htwo
        have hquote := hs.unicode rfl
        rcases s with _ | ⟨d, s⟩
        · cases htail
        · obtain ⟨rfl, -⟩ := List.cons.inj htail
          cases hquote
      · exact hU ⟨hc, htwo⟩
    rw [if_neg hno, if_pos hname, hdrop, htake]
  rw [if_neg hname] at h
  have hno : ¬ ((c = byte 'u'.toNat ∨ c = byte 'U'.toNat) ∧ (l ++ s).take 2 = text "&'") := by
    rintro ⟨rfl | rfl, -⟩
    · exact hname (by decide)
    · exact hname (by decide)
  rw [if_neg hno, if_neg hname]
  by_cases hquote : c = QUOTE
  · rw [if_pos hquote] at h ⊢
    exact stringTok_append h (fun u hu => quotedBody_append (by rw [hquote]; decide) hu hs.semi)
  rw [if_neg hquote] at h ⊢
  by_cases hdquote : c = DQUOTE
  · rw [if_pos hdquote] at h ⊢
    exact nameTok_append h (fun u hu => quotedBody_append (by rw [hdquote]; decide) hu hs.semi)
  rw [if_neg hdquote] at h ⊢
  -- past the strings a byte after the first is asked for only by what it begins
  by_cases hnumber : isDigit c = true ∨ c = byte '.'.toNat ∧ begins isDigit l = true
  · rw [if_pos hnumber] at h
    have hnumber' : isDigit c = true ∨ c = byte '.'.toNat ∧ begins isDigit (l ++ s) = true := by
      rcases hnumber with hc | ⟨hc, hl⟩
      · exact .inl hc
      · exact .inr ⟨hc, by rw [begins_append (fun hnil => by rw [hnil] at hl; cases hl)]; exact hl⟩
    rw [if_pos hnumber']
    dsimp only at h ⊢
    split_ifs at h with hrun
    cases h
    have happ := pastNumber_append (l := c :: l) (by simpa using hrun) hs.semi
    rw [cons_append] at happ
    rw [happ, begins_parts hs.semi (by decide), if_neg hrun, token_take]
  rw [if_neg hnumber] at h
  -- nothing is left after a token of one byte at the end of the text
  have hnil : l = [] → r = [] := by
    rintro rfl
    have hone : [c] ∉ TWO := fun hmem => Nat.succ_ne_zero 0 (Nat.succ.inj (two_length _ hmem)).symm
    rw [if_neg (fun h => by cases h.2), if_neg (fun h => by cases h.2), List.take_nil, if_neg hone] at h
    split_ifs at h
    cases h
    rfl
  have hsame : ∀ p : Byte → Bool, p SEMI = false → begins p (l ++ s) = begins p l :=
    fun p hp => begins_parts (fun hl => hs.semi (hnil hl)) hp
  rw [hsame isDigit (by decide), if_neg hnumber, hsame identStart (by decide)]
  by_cases hpname : c = byte ':'.toNat ∧ begins identStart l = true
  · rw [if_pos hpname] at h ⊢
    cases h
    obtain ⟨hdrop, htake⟩ := dropWhile_parts (p := identChar) (by decide) hs.semi
    rw [hdrop, htake]
  rw [if_neg hpname] at h ⊢
  by_cases hpnum : c = byte '$'.toNat ∧ begins isDigit l = true
  · rw [if_pos hpnum] at h ⊢
    cases h
    obtain ⟨hdrop, htake⟩ := dropWhile_parts (p := isDigit) (by decide) hs.semi
    rw [hdrop, htake]
  rw [if_neg hpnum] at h ⊢
  by_cases htwo : c :: l.take 1 ∈ TWO
  · rw [if_pos htwo] at h
    cases h
    have hone : 1 ≤ l.length := by
      have := two_length _ htwo
      rw [length_cons, List.length_take] at this
      omega
    rw [List.take_append_of_le_length hone, if_pos htwo, List.drop_append_of_le_length hone]
  have htwo' : c :: (l ++ s).take 1 ∉ TWO := by
    rcases l with _ | ⟨b, l⟩
    · rw [List.nil_append, begins_cons (hs.semi (hnil rfl))]
      exact fun hmem => two_second _ hmem rfl
    · exact htwo
  rw [if_neg htwo] at h
  rw [if_neg htwo']
  split_ifs at h ⊢
  cases h
  rfl

theorem token_semi (l : Bytes) : token SEMI l = .ok (⟨.sym, [SEMI]⟩, l) := by
  have htwo : SEMI :: l.take 1 ∉ TWO := fun hmem => two_first _ hmem rfl
  unfold token
  rw [if_neg (fun h => absurd h.1 (by decide)), if_neg (by decide), if_neg (by decide), if_neg (by decide),
    if_neg (fun h => h.elim (by decide) (fun h => absurd h.1 (by decide))), if_neg (fun h => absurd h.1 (by decide)),
    if_neg (fun h => absurd h.1 (by decide)), if_neg htwo, if_pos (by decide)]

theorem token_of_semi (h : token c l = .ok (tok, r)) (ht : atSym tok SEMI = true) : c = SEMI := by
  unfold atSym at ht
  obtain ⟨hkind, htext⟩ := of_decide_eq_true ht
  have hstring : ∀ {e : Except Fault (Bytes × Bytes)}, stringTok e = .ok (tok, r) → False := by
    intro e he
    rcases e with f | ⟨u, q⟩
    · cases he
    · cases he
      cases hkind
  unfold token at h
  split_ifs at h with hU hid hq hdq hnum hpn hpp htwo hone
  · exact (hstring h).elim
  · cases h
    cases hkind
  · exact (hstring h).elim
  · unfold nameTok at h
    split at h
    · cases h
    · split_ifs at h
      cases h
      cases hkind
  · dsimp only at h
    split_ifs at h
    cases h
    cases hkind
  · cases h
    cases hkind
  · cases h
    cases hkind
  · cases h
    have hlen := two_length _ htwo
    rw [show c :: l.take 1 = [SEMI] from htext] at hlen
    cases hlen
  · cases h
    exact (List.cons.inj htext).1

/-! ## What is left is shorter -/

theorem tail_length (l : Bytes) : l.tail.length ≤ l.length := by
  rw [List.length_tail]
  exact Nat.sub_le _ _

theorem unicodeBody_length : ∀ {acc : Bytes}, unicodeBody start acc l = .ok (u, r) →
    r.length ≤ l.length := by
  induction hn : l.length using Nat.strong_induction_on generalizing l with
  | _ n ih =>
    subst hn
    intro acc h
    cases l with
    | nil =>
      rw [unicodeBody] at h
      cases h
    | cons b l =>
      rw [unicodeBody] at h
      have htail : l.tail.length < (b :: l).length := Nat.lt_succ_of_le (tail_length l)
      split_ifs at h
      · exact (ih _ htail rfl h).trans htail.le
      · cases h
        exact Nat.le_succ _
      · split at h
        next => cases h
        next p hp =>
          have hlt : p.2.length < (b :: l).length := Nat.lt_succ_of_le (escape_length hp)
          exact (ih _ hlt rfl h).trans hlt.le
      · exact (ih _ (Nat.lt_succ_self _) rfl h).trans (Nat.le_succ _)

theorem quotedBody_length {q : Byte} : ∀ {acc : Bytes}, quotedBody start q acc l = .ok (u, r) →
    r.length ≤ l.length := by
  induction hn : l.length using Nat.strong_induction_on generalizing l with
  | _ n ih =>
    subst hn
    intro acc h
    cases l with
    | nil =>
      rw [quotedBody] at h
      cases h
    | cons b l =>
      rw [quotedBody] at h
      have htail : l.tail.length < (b :: l).length := Nat.lt_succ_of_le (tail_length l)
      split_ifs at h
      · exact (ih _ htail rfl h).trans htail.le
      · cases h
        exact Nat.le_succ _
      · exact (ih _ (Nat.lt_succ_self _) rfl h).trans (Nat.le_succ _)

theorem pastNumber_length (h : isDigit c = true ∨ c = byte '.'.toNat ∧ begins isDigit l = true) :
    (pastNumber (c :: l)).length ≤ l.length := by
  have hsign : ∀ m : Bytes, (pastSign m).length ≤ m.length := fun m => by
    unfold pastSign
    split_ifs
    · exact tail_length m
    · exact le_rfl
  have hexp : ∀ m : Bytes, (pastExponent m).length ≤ m.length := fun m => by
    unfold pastExponent
    split_ifs
    · exact (dropWhile_length _ _).trans ((hsign _).trans (tail_length m))
    · exact le_rfl
    · exact le_rfl
  refine (hexp _).trans ?_
  by_cases hc : isDigit c = true
  · rw [List.dropWhile_cons_of_pos hc]
    unfold pastPoint
    split_ifs
    · exact (dropWhile_length _ _).trans ((tail_length _).trans (dropWhile_length _ l))
    · exact dropWhile_length _ l
  · obtain ⟨rfl, -⟩ := h.resolve_left hc
    rw [List.dropWhile_cons_of_neg hc, pastPoint, if_pos (by simp [begins])]
    exact dropWhile_length _ l

theorem stringTok_ok (h : stringTok e = .ok (tok, r)) : ∃ u, e = .ok (u, r) := by
  rcases e with f | ⟨u, q⟩
  · cases h
  · cases h
    exact ⟨u, rfl⟩

theorem nameTok_ok (h : nameTok start e = .ok (tok, r)) : ∃ u, e = .ok (u, r) := by
  rcases e with f | ⟨u, q⟩
  · cases h
  · unfold nameTok at h
    dsimp only at h
    split_ifs at h
    cases h
    exact ⟨u, rfl⟩

theorem token_length (h : token c l = .ok (tok, r)) : r.length ≤ l.length := by
  unfold token at h
  split_ifs at h with hU hid hq hdq hnum
  · obtain ⟨u, hu⟩ := stringTok_ok h
    refine (unicodeBody_length hu).trans ?_
    rw [List.length_drop]
    exact Nat.sub_le _ _
  · cases h
    exact dropWhile_length _ l
  · obtain ⟨u, hu⟩ := stringTok_ok h
    exact quotedBody_length hu
  · obtain ⟨u, hu⟩ := nameTok_ok h
    exact quotedBody_length hu
  · dsimp only at h
    split_ifs at h
    cases h
    exact pastNumber_length hnum
  · cases h
    exact dropWhile_length _ l
  · cases h
    exact dropWhile_length _ l
  · cases h
    rw [List.length_drop]
    exact Nat.sub_le _ _
  · cases h
    exact le_rfl

/-! ## `next` -/

theorem next_ok (h : next l = .ok (tok, r)) (ht : tok.kind ≠ .eof) :
    ∃ c m, skipSpace l = .ok (c :: m) ∧ token c m = .ok (tok, r) := by
  unfold next at h
  split at h
  · cases h
  · cases h
    exact absurd rfl ht
  next c m hskip => exact ⟨c, m, hskip, h⟩

theorem next_of (h : skipSpace l = .ok (c :: m)) : next l = token c m := by
  unfold next
  rw [h]

theorem skip_length {l r : Bytes} (h : skipSpace l = .ok r) : r.length ≤ l.length := by
  induction hn : l.length using Nat.strong_induction_on generalizing l with
  | _ n ih =>
    subst hn
    have hdrop := dropWhile_length isSpace l
    by_cases hline : (l.dropWhile isSpace).take 2 = text "--"
    · obtain ⟨m, hm⟩ := take_two hline
      rw [hm, length_cons, length_cons] at hdrop
      have hm' := dropWhile_length (· ≠ byte '\n'.toNat) m
      rw [skip_line hm] at h
      exact (ih _ (by omega) h rfl).trans (by omega)
    by_cases hblock : (l.dropWhile isSpace).take 2 = text "/*"
    · obtain ⟨m, hm⟩ := take_two hblock
      rw [hm, length_cons, length_cons] at hdrop
      rw [skip_block hm] at h
      rcases hend : commentEnd m with _ | q
      · rw [hend] at h
        cases h
      · rw [hend] at h
        have hq := commentEnd_length hend
        exact (ih _ (by omega) h rfl).trans (by omega)
    · rw [skip_settled ⟨dropWhile_space l, hline, hblock⟩] at h
      cases h
      exact hdrop

theorem next_length (h : next l = .ok (tok, r)) (ht : tok.kind ≠ .eof) : r.length < l.length := by
  obtain ⟨c, m, hskip, htok⟩ := next_ok h ht
  exact lt_of_le_of_lt (token_length htok) (skip_length hskip)

/-- **The lexer reads a token with more after it as without.** -/
theorem next_append (h : next l = .ok (tok, r)) (ht : tok.kind ≠ .eof) (hs : Parts r s) :
    next (l ++ s) = .ok (tok, r ++ s) := by
  obtain ⟨c, m, hskip, htok⟩ := next_ok h ht
  have hsettled : Settled (c :: m) → Settled (c :: m ++ s) := by
    rintro ⟨hspace, hline, hblock⟩
    cases m with
    | nil =>
      have hr : r = [] := List.length_eq_zero_iff.1 (Nat.le_zero.1 (token_length htok))
      rw [begins_cons (hs.semi hr)]
      refine ⟨hspace, fun h => ?_, fun h => ?_⟩
      · exact absurd (List.cons.inj (List.cons.inj h).2).1 (by decide)
      · exact absurd (List.cons.inj (List.cons.inj h).2).1 (by decide)
    | cons b m => exact ⟨hspace, hline, hblock⟩
  rw [next_of (skip_append hskip (cons_ne_nil _ _) hsettled)]
  exact token_append htok hs

theorem next_semi (h : next l = .ok (tok, r)) (ht : atSym tok SEMI = true) (s : Bytes) :
    next (l ++ s) = .ok (tok, r ++ s) := by
  have hkind : tok.kind ≠ .eof := by
    unfold atSym at ht
    rw [(of_decide_eq_true ht).1]
    decide
  obtain ⟨c, m, hskip, htok⟩ := next_ok h hkind
  obtain rfl := token_of_semi htok ht
  rw [token_semi] at htok
  cases htok
  have hsettled : Settled (SEMI :: r) → Settled (SEMI :: r ++ s) := fun _ =>
    ⟨rfl, fun h => absurd (List.cons.inj h).1 (by decide), fun h => absurd (List.cons.inj h).1 (by decide)⟩
  rw [next_of (skip_append hskip (cons_ne_nil _ _) hsettled)]
  exact token_semi _

end

end SqlText
end Gbasic
