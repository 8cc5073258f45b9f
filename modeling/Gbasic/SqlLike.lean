import Gbasic.Bytes
import Gbasic.Wildcard
/-!
# SqlLike — LIKE

`like` walks the text's bytes with one place to go back to, the last `%` of the pattern.  Read by its first bytes
(`utf8Len`) a text is code points (`points`); against a pattern that is UTF-8 the walk is a search of them
(`likeLoop_open`), so it answers whether they are in the pattern's language.
-/
namespace Gbasic
namespace Sql

open List (length_cons forall_mem_cons cons_append head?_cons tail_cons)

/-! ## UTF-8 -/

def utf8Len (c : Byte) : Nat :=
  if c.val < 0x80 then 1
  else if c.val / 32 = 6 then 2
  else if c.val / 16 = 14 then 3
  else if c.val / 8 = 30 then 4
  else 1

theorem utf8Len_pos (c : Byte) : 0 < utf8Len c := by
  unfold utf8Len
  split
  · exact Nat.one_pos
  split
  · exact Nat.two_pos
  split
  · exact Nat.succ_pos _
  split <;> exact Nat.succ_pos _

def utf8 (c : Char) : List Byte :=
  let n := c.toNat
  if n < 0x80 then [byte n]
  else if n < 0x800 then [byte (0xC0 + n / 64), byte (0x80 + n % 64)]
  else if n < 0x10000 then [byte (0xE0 + n / 4096), byte (0x80 + n / 64 % 64), byte (0x80 + n % 64)]
  else [byte (0xF0 + n / 262144), byte (0x80 + n / 4096 % 64), byte (0x80 + n / 64 % 64), byte (0x80 + n % 64)]

def utf8Text (t : List Char) : List Byte := t.flatMap utf8

/-- Bytes read as code points: each first byte with as many as it begins, the last with what there is. -/
def points : List Byte → List (List Byte)
  | [] => []
  | c :: s => (c :: s).take (utf8Len c) :: points ((c :: s).drop (utf8Len c))
  termination_by s => s.length
  decreasing_by
    have := utf8Len_pos c
    rw [List.length_drop, length_cons]
    omega

/-! ## The walk -/

def PERCENT : Byte := 0x25
def UNDERSCORE : Byte := 0x5F

def pointOn : List Byte → List Byte
  | [] => []
  | c :: s => (c :: s).drop (utf8Len c)

/-- The loop of `like`: what is left of the text and of the pattern, and what was after the last `%` and where it
stood. -/
def likeLoop : Nat → List Byte → List Byte → Option (List Byte × List Byte) → Option Bool
  | 0, _, _, _ => none
  | _ + 1, [], p, _ => some (decide (p.dropWhile (· = PERCENT) = []))
  | f + 1, c :: s, p, star =>
    if p.head? = some PERCENT then likeLoop f (c :: s) p.tail (some (p.tail, c :: s))
    else if p.head? = some UNDERSCORE then likeLoop f (pointOn (c :: s)) p.tail star
    else if p.head? = some c then likeLoop f s p.tail star
    else
      match star with
      | some (starP, starS) => likeLoop f (pointOn starS) starP (some (starP, pointOn starS))
      | none => some false

/-- `like`, with turns enough for any text and pattern. -/
def like (s p : List Byte) : Option Bool := likeLoop ((p.length + 2) * ((s.length + 1) * (s.length + 1))) s p none

/-! ## It ends -/

theorem length_pointOn_cons (c : Byte) (s : List Byte) : (pointOn (c :: s)).length ≤ s.length := by
  have := utf8Len_pos c
  rw [pointOn, List.length_drop, length_cons]
  omega

theorem likeLoop_cons (f : Nat) (c : Byte) (s p : List Byte) (star : Option (List Byte × List Byte)) :
    likeLoop (f + 1) (c :: s) p star =
      if p.head? = some PERCENT then likeLoop f (c :: s) p.tail (some (p.tail, c :: s))
      else if p.head? = some UNDERSCORE then likeLoop f (pointOn (c :: s)) p.tail star
      else if p.head? = some c then likeLoop f s p.tail star
      else
        match star with
        | some (starP, starS) => likeLoop f (pointOn starS) starP (some (starP, pointOn starS))
        | none => some false := rfl

/-- What bounds the turns left: the pattern after the last `%`, then the text after it, then the text. -/
def likeRank (n : Nat) (s p : List Byte) (star : Option (List Byte × List Byte)) : Nat :=
  match star with
  | none => (p.length + 1) * ((n + 1) * (n + 1)) + s.length
  | some (starP, starS) => (starP.length + 1) * ((n + 1) * (n + 1)) + (starS.length * (n + 1) + s.length)

/-- The place gone back to is not past the text, and what is left of the pattern is in what was after the `%`. -/
def Ranked (n : Nat) (s p : List Byte) (star : Option (List Byte × List Byte)) : Prop :=
  s.length ≤ n ∧ ∀ x ∈ star, p.length ≤ x.1.length ∧ s.length ≤ x.2.length ∧ x.2.length ≤ n

theorem rank_lt {n a a' b : Nat} (h : a < a') (hb : b ≤ n * (n + 1) + n) :
    a * ((n + 1) * (n + 1)) + b < a' * ((n + 1) * (n + 1)) := by
  have hle : (a + 1) * ((n + 1) * (n + 1)) ≤ a' * ((n + 1) * (n + 1)) := Nat.mul_le_mul_right _ h
  have hn : (n + 1) * (n + 1) = n * (n + 1) + n + 1 := by ring
  rw [Nat.succ_mul] at hle
  omega

theorem head?_tail {p : List Byte} {x : Byte} (h : p.head? = some x) : p = x :: p.tail :=
  List.eq_cons_of_mem_head? h

section
variable {n : Nat} {c : Byte} {s s' p : List Byte} {star : Option (List Byte × List Byte)}

theorem rank_percent (hr : Ranked n (c :: s) p star) (hp : p.head? = some PERCENT) :
    Ranked n (c :: s) p.tail (some (p.tail, c :: s)) ∧
      likeRank n (c :: s) p.tail (some (p.tail, c :: s)) < likeRank n (c :: s) p star := by
  obtain ⟨hs, hstar⟩ := hr
  have hlen : p.tail.length + 1 = p.length := by rw [head?_tail hp]; rfl
  have hb : (c :: s).length * (n + 1) + (c :: s).length ≤ n * (n + 1) + n :=
    Nat.add_le_add (Nat.mul_le_mul_right _ hs) hs
  refine ⟨⟨hs, ?_⟩, ?_⟩
  · rintro x ⟨⟩
    exact ⟨le_rfl, le_rfl, hs⟩
  · unfold likeRank
    rcases star with _ | ⟨sp, ss⟩
    · exact (rank_lt (by omega) hb).trans_le (Nat.le_add_right _ _)
    · have hle : p.length ≤ sp.length := (hstar _ rfl).1
      exact (rank_lt (by omega) hb).trans_le (Nat.le_add_right _ _)

theorem rank_take (hr : Ranked n (c :: s) p star) (hs' : s'.length ≤ s.length) :
    Ranked n s' p.tail star ∧ likeRank n s' p.tail star < likeRank n (c :: s) p star := by
  obtain ⟨hs, hstar⟩ := hr
  rw [length_cons] at hs hstar
  have hp : p.tail.length ≤ p.length := by
    rw [List.length_tail]
    exact Nat.sub_le _ _
  refine ⟨⟨by omega, fun x hx => ?_⟩, ?_⟩
  · obtain ⟨h1, h2, h3⟩ := hstar x hx
    exact ⟨hp.trans h1, by omega, h3⟩
  · unfold likeRank
    rw [length_cons]
    rcases star with _ | ⟨sp, ss⟩
    · have := Nat.mul_le_mul_right ((n + 1) * (n + 1)) (Nat.succ_le_succ hp)
      dsimp only [Nat.succ_eq_add_one] at this ⊢
      omega
    · dsimp only
      omega

theorem rank_back {starP starS : List Byte} (hr : Ranked n (c :: s) p (some (starP, starS))) :
    Ranked n (pointOn starS) starP (some (starP, pointOn starS)) ∧
      likeRank n (pointOn starS) starP (some (starP, pointOn starS)) < likeRank n (c :: s) p (some (starP, starS)) := by
  obtain ⟨hs, hstar⟩ := hr
  obtain ⟨-, h2, h3⟩ := hstar _ rfl
  have hlt : (pointOn starS).length + 1 ≤ starS.length := by
    rcases starS with _ | ⟨d, ss⟩
    · cases h2
    · exact Nat.succ_le_succ (length_pointOn_cons d ss)
  have hle : (pointOn starS).length ≤ n := (Nat.le_succ _).trans (hlt.trans h3)
  refine ⟨⟨hle, ?_⟩, ?_⟩
  · rintro x ⟨⟩
    exact ⟨le_rfl, le_rfl, hle⟩
  · have hmul := Nat.mul_le_mul_right (n + 1) hlt
    rw [Nat.succ_mul] at hmul
    unfold likeRank
    dsimp only
    omega

end

/-- **The walk ends** within as many turns as its rank. -/
theorem likeLoop_ends (n : Nat) : ∀ (f : Nat) (s p : List Byte) (star : Option (List Byte × List Byte)),
    Ranked n s p star → likeRank n s p star < f → ∃ b, likeLoop f s p star = some b
  | 0, _, _, _, _, h => absurd h (Nat.not_lt_zero _)
  | f + 1, [], p, star, _, _ => ⟨_, rfl⟩
  | f + 1, c :: s, p, star, hr, h => by
    rw [likeLoop_cons]
    split
    · obtain ⟨hr', hlt⟩ := rank_percent hr ‹_›
      exact likeLoop_ends n f _ _ _ hr' (by omega)
    split
    · obtain ⟨hr', hlt⟩ := rank_take hr (length_pointOn_cons c s)
      exact likeLoop_ends n f _ _ _ hr' (by omega)
    split
    · obtain ⟨hr', hlt⟩ := rank_take hr le_rfl
      exact likeLoop_ends n f _ _ _ hr' (by omega)
    rcases star with _ | ⟨starP, starS⟩
    · exact ⟨false, rfl⟩
    · obtain ⟨hr', hlt⟩ := rank_back hr
      exact likeLoop_ends n f _ _ _ hr' (by omega)

theorem like_ends (s p : List Byte) : ∃ b, like s p = some b := by
  refine likeLoop_ends s.length _ s p none ⟨le_rfl, fun _ h => by cases h⟩ ?_
  exact rank_lt (a := p.length + 1) (Nat.lt_succ_self _) (Nat.le_add_left _ _)

/-! ## Code points -/

theorem toNat_lt (c : Char) : c.toNat < 0x110000 := by
  rcases c.valid with h | ⟨-, h⟩
  · exact h.trans (by decide)
  · exact h

def low (b : Byte) : Nat := b.val - 0x80

theorem low_byte {n : Nat} (h : n < 64) : low (byte (0x80 + n)) = n := by
  unfold low
  rw [byte_of_lt (by omega)]
  omega

def utf8Back : List Byte → Nat
  | [a] => a.val
  | [a, b] => (a.val - 0xC0) * 64 + low b
  | [a, b, c] => ((a.val - 0xE0) * 64 + low b) * 64 + low c
  | [a, b, c, d] => (((a.val - 0xF0) * 64 + low b) * 64 + low c) * 64 + low d
  | _ => 0

theorem utf8Back_utf8 (c : Char) : utf8Back (utf8 c) = c.toNat := by
  have hc := toNat_lt c
  unfold utf8
  generalize c.toNat = n at hc
  dsimp only
  by_cases h1 : n < 0x80
  · rw [if_pos h1]
    exact byte_of_lt (by omega)
  rw [if_neg h1]
  by_cases h2 : n < 0x800
  · rw [if_pos h2]
    show ((byte _).val - 0xC0) * 64 + low _ = n
    rw [byte_of_lt (by omega), low_byte (by omega)]
    omega
  rw [if_neg h2]
  by_cases h3 : n < 0x10000
  · rw [if_pos h3]
    show (((byte _).val - 0xE0) * 64 + low _) * 64 + low _ = n
    rw [byte_of_lt (by omega), low_byte (by omega), low_byte (by omega)]
    omega
  · rw [if_neg h3]
    show ((((byte _).val - 0xF0) * 64 + low _) * 64 + low _) * 64 + low _ = n
    rw [byte_of_lt (by omega), low_byte (by omega), low_byte (by omega), low_byte (by omega)]
    omega

theorem utf8_injective : Function.Injective utf8 := by
  intro c d h
  have := congrArg utf8Back h
  rw [utf8Back_utf8, utf8Back_utf8] at this
  exact Char.ext (UInt32.toNat_inj.1 this)

theorem utf8_spec (c : Char) : ∃ b l, utf8 c = b :: l ∧ utf8Len b = l.length + 1 ∧
    (b.val = c.toNat ∧ l = [] ∨ ∀ x ∈ b :: l, 0x80 ≤ x.val) := by
  have hc := toNat_lt c
  unfold utf8
  generalize c.toNat = n at hc
  dsimp only
  split
  · refine ⟨_, _, rfl, ?_, .inl ⟨byte_of_lt (by omega), rfl⟩⟩
    simp (disch := omega) only [utf8Len, byte_of_lt]
    rw [if_pos (by omega)]
    rfl
  split
  · refine ⟨_, _, rfl, ?_, .inr ?_⟩
    · simp (disch := omega) only [utf8Len, byte_of_lt]
      rw [if_neg (by omega), if_pos (by omega)]
      rfl
    · simp (disch := omega) only [forall_mem_cons, byte_of_lt]
      exact ⟨by omega, by omega, fun _ h => by cases h⟩
  split
  · refine ⟨_, _, rfl, ?_, .inr ?_⟩
    · simp (disch := omega) only [utf8Len, byte_of_lt]
      rw [if_neg (by omega), if_neg (by omega), if_pos (by omega)]
      rfl
    · simp (disch := omega) only [forall_mem_cons, byte_of_lt]
      exact ⟨by omega, by omega, by omega, fun _ h => by cases h⟩
  · refine ⟨_, _, rfl, ?_, .inr ?_⟩
    · simp (disch := omega) only [utf8Len, byte_of_lt]
      rw [if_neg (by omega), if_neg (by omega), if_neg (by omega), if_pos (by omega)]
      rfl
    · simp (disch := omega) only [forall_mem_cons, byte_of_lt]
      exact ⟨by omega, by omega, by omega, by omega, fun _ h => by cases h⟩

theorem points_append {b : Byte} {l : List Byte} (h : utf8Len b = l.length + 1) (s : List Byte) :
    points (b :: l ++ s) = (b :: l) :: points s := by
  rw [cons_append, points, h, List.take_succ_cons, List.drop_succ_cons, List.take_left, List.drop_left]

/-- **UTF-8 read** is the code points it was written from. -/
theorem points_utf8Text : ∀ t : List Char, points (utf8Text t) = t.map utf8
  | [] => by rw [utf8Text, List.flatMap_nil, points, List.map_nil]
  | c :: t => by
    obtain ⟨b, l, hb, hlen, -⟩ := utf8_spec c
    have ht : points (t.flatMap utf8) = t.map utf8 := points_utf8Text t
    rw [utf8Text, List.flatMap_cons, hb, points_append hlen, List.map_cons, hb, ht]

/-! ## The language of a pattern -/

/-- What a character of a pattern stands for. -/
def tok (c : Char) : Tok Char :=
  if c = '%' then .run
  else if c = '_' then .one
  else .lit c

/-- The same of code points' bytes. -/
def byteTok (c : Char) : Tok (List Byte) := (tok c).map utf8

theorem utf8_plain {c : Char} (h1 : c ≠ '%') (h2 : c ≠ '_') : ∀ b ∈ utf8 c, b ≠ PERCENT ∧ b ≠ UNDERSCORE := by
  obtain ⟨b, l, hb, -, h⟩ := utf8_spec c
  rw [hb]
  rcases h with ⟨h, rfl⟩ | h
  · intro x hx
    rw [List.mem_singleton.1 hx]
    refine ⟨fun hx => h1 ?_, fun hx => h2 ?_⟩
    · rw [hx] at h
      exact Char.ext (UInt32.toNat_inj.1 h.symm)
    · rw [hx] at h
      exact Char.ext (UInt32.toNat_inj.1 h.symm)
  · intro x hx
    have := h x hx
    refine ⟨?_, ?_⟩
    · rintro rfl
      exact absurd this (by decide)
    · rintro rfl
      exact absurd this (by decide)

/-! ## Against a pattern in UTF-8 -/

theorem likeLoop_lit : ∀ (bs : List Byte) (f : Nat) (s p : List Byte) (star : Option (List Byte × List Byte))
    (b : Bool), (∀ x ∈ bs, x ≠ PERCENT ∧ x ≠ UNDERSCORE) → likeLoop f (bs ++ s) (bs ++ p) star = some b →
    ∃ f', f' + bs.length = f ∧ likeLoop f' s p star = some b
  | [], f, _, _, _, _, _, h => ⟨f, rfl, h⟩
  | x :: bs, 0, _, _, _, _, _, h => by cases h
  | x :: bs, f + 1, s, p, star, b, hx, h => by
    obtain ⟨⟨h1, h2⟩, hx⟩ := forall_mem_cons.1 hx
    rw [cons_append, cons_append, likeLoop_cons, head?_cons, tail_cons,
      if_neg (fun h => h1 (Option.some.inj h)), if_neg (fun h => h2 (Option.some.inj h)), if_pos rfl] at h
    obtain ⟨f', hf, h⟩ := likeLoop_lit bs f s p star b hx h
    exact ⟨f', congrArg (· + 1) hf, h⟩

def goBack (f : Nat) : Option (List Byte × List Byte) → Option Bool
  | some (starP, starS) => likeLoop f (pointOn starS) starP (some (starP, pointOn starS))
  | none => some false

theorem likeLoop_miss : ∀ (bs u : List Byte) (f : Nat) (s p : List Byte) (star : Option (List Byte × List Byte))
    (b : Bool), (∀ x ∈ bs, x ≠ PERCENT ∧ x ≠ UNDERSCORE) → u ≠ bs →
    u.length = bs.length ∨ u.length < bs.length ∧ s = [] → likeLoop f (u ++ s) (bs ++ p) star = some b →
    b = false ∧ s = [] ∨ ∃ f' < f, goBack f' star = some b
  | [], u, f, s, p, star, b, _, hne, hlen, h => by
    rcases hlen with hlen | ⟨hlen, -⟩
    · exact absurd (List.length_eq_zero_iff.1 hlen) hne
    · cases hlen
  | x :: bs, u, 0, _, _, _, _, _, _, _, h => by cases h
  | x :: bs, [], f + 1, s, p, star, b, hx, _, hlen, h => by
    rcases hlen with hlen | ⟨-, rfl⟩
    · cases hlen
    · refine .inl ⟨?_, rfl⟩
      have hne := (hx x (List.mem_cons_self ..)).1
      rw [List.nil_append, cons_append, likeLoop, List.dropWhile_cons_of_neg (by simpa using hne)] at h
      exact (Option.some.inj h).symm
  | x :: bs, y :: u, f + 1, s, p, star, b, hx, hne, hlen, h => by
    obtain ⟨⟨h1, h2⟩, hx⟩ := forall_mem_cons.1 hx
    rw [cons_append, cons_append, likeLoop_cons, head?_cons, tail_cons,
      if_neg (fun h => h1 (Option.some.inj h)), if_neg (fun h => h2 (Option.some.inj h))] at h
    by_cases hxy : x = y
    · subst hxy
      rw [if_pos rfl] at h
      have hne' : u ≠ bs := fun h => hne (congrArg _ h)
      have hlen' : u.length = bs.length ∨ u.length < bs.length ∧ s = [] := by
        rcases hlen with hlen | ⟨hlen, hs⟩
        · exact .inl (Nat.succ.inj hlen)
        · exact .inr ⟨Nat.lt_of_succ_lt_succ hlen, hs⟩
      rcases likeLoop_miss bs u f s p star b hx hne' hlen' h with h | ⟨f', hf, h⟩
      · exact .inl h
      · exact .inr ⟨f', hf.trans (Nat.lt_succ_self f), h⟩
    · rw [if_neg (fun h => hxy (Option.some.inj h))] at h
      exact .inr ⟨f, Nat.lt_succ_self f, h⟩

def starBytes (star : Option (List Char × List Byte)) : Option (List Byte × List Byte) :=
  star.map (fun x => (utf8Text x.1, x.2))

def starToks (star : Option (List Char × List Byte)) : Option (List (Tok (List Byte)) × List (List Byte)) :=
  star.map (fun x => (x.1.map byteTok, points x.2))

theorem points_nil : points [] = [] := by rw [points]

theorem points_cons (c : Byte) (s : List Byte) :
    points (c :: s) = (c :: s).take (utf8Len c) :: points (pointOn (c :: s)) := by
  rw [points, pointOn]

theorem byteTok_underscore : byteTok '_' = .one := rfl

theorem byteTok_lit {c : Char} (h1 : c ≠ '%') (h2 : c ≠ '_') : byteTok c = .lit (utf8 c) := by
  unfold byteTok tok
  rw [if_neg h1, if_neg h2]
  rfl

theorem byteTok_eq_run {c : Char} : byteTok c = .run ↔ c = '%' := by
  unfold byteTok tok
  constructor
  · intro h
    by_contra hc
    rw [if_neg hc] at h
    split at h <;> cases h
  · rintro rfl
    rfl

theorem utf8Text_cons (c : Char) (p : List Char) : utf8Text (c :: p) = utf8 c ++ utf8Text p := rfl

theorem dropWhile_percent : ∀ p : List Char,
    (utf8Text p).dropWhile (· = PERCENT) = [] ↔ ∀ t ∈ p.map byteTok, t = .run
  | [] => by simp [utf8Text]
  | c :: p => by
    rw [utf8Text_cons, List.map_cons, forall_mem_cons, byteTok_eq_run, ← dropWhile_percent p]
    by_cases hc : c = '%'
    · subst hc
      have hd : utf8 '%' = [PERCENT] := by decide
      rw [hd, List.singleton_append, List.dropWhile_cons_of_pos (by decide)]
      exact ⟨fun h => ⟨rfl, h⟩, fun h => h.2⟩
    · refine ⟨fun h => ?_, fun h => absurd h.1 hc⟩
      obtain ⟨b, l, hb, -, hspec⟩ := utf8_spec c
      have hne : b ≠ PERCENT := by
        rintro rfl
        rcases hspec with ⟨h1, -⟩ | h1
        · exact hc (Char.ext (UInt32.toNat_inj.1 h1.symm))
        · exact absurd (h1 _ (List.mem_cons_self ..)) (by decide)
      rw [hb, cons_append, List.dropWhile_cons_of_neg (by simpa using hne)] at h
      cases h

theorem goBack_open {f : Nat} {c : Byte} {s : List Byte} {p : List Char} {star : Option (List Char × List Byte)}
    {b : Bool} (ih : ∀ (s : List Byte) (p : List Char) (star : Option (List Char × List Byte)),
      Tok.Linked (p.map byteTok) (points s) (starToks star) →
      likeLoop f s (utf8Text p) (starBytes star) = some b →
      (b = true ↔ Tok.Open (p.map byteTok) (points s) (starToks star)))
    (hl : Tok.Linked (p.map byteTok) (points (c :: s)) (starToks star))
    (hm : ¬ Tok.Matches (p.map byteTok) (points (c :: s))) (h : goBack f (starBytes star) = some b) :
    b = true ↔ Tok.Open (p.map byteTok) (points (c :: s)) (starToks star) := by
  rcases star with _ | ⟨sp, ss⟩
  · cases h
    rw [starToks, Option.map_none, Tok.open_none]
    exact ⟨fun h => (by cases h), fun h => absurd h hm⟩
  · obtain ⟨seg, l, -, -, -, hss⟩ := hl _ rfl
    rcases ss with _ | ⟨d, ss⟩
    · -- a place gone back to has a code point to leave out
      have hnil : points [] = l ++ points (c :: s) := hss
      rw [points_nil, points_cons] at hnil
      exact absurd hnil.symm (List.append_ne_nil_of_right_ne_nil _ (List.cons_ne_nil _ _))
    · have hopen := ih (pointOn (d :: ss)) sp (some (sp, pointOn (d :: ss))) (Tok.linked_start _ _) h
      rw [hopen]
      simp only [starToks, Option.map_some]
      rw [points_cons d ss, Tok.open_back hm]

/-- **The walk is the search** of the text's code points. -/
theorem likeLoop_open (f : Nat) : ∀ (s : List Byte) (p : List Char) (star : Option (List Char × List Byte)) (b : Bool),
    Tok.Linked (p.map byteTok) (points s) (starToks star) →
    likeLoop f s (utf8Text p) (starBytes star) = some b →
    (b = true ↔ Tok.Open (p.map byteTok) (points s) (starToks star)) := by
  induction f using Nat.strong_induction_on with
  | _ f ih =>
    intro s p star b hl h
    obtain _ | f := f
    · cases h
    rcases s with _ | ⟨c, s⟩
    · cases h
      rw [decide_eq_true_eq, dropWhile_percent]
      rw [points] at hl ⊢
      exact (Tok.open_end hl).symm
    have hback := fun f' (hf : f' < f + 1) => goBack_open (fun s p star => ih f' hf s p star b) hl
    rcases p with _ | ⟨d, p⟩
    · rw [utf8Text, List.flatMap_nil, likeLoop_cons, List.head?_nil, if_neg (by simp), if_neg (by simp),
        if_neg (by simp)] at h
      exact hback f (Nat.lt_succ_self f) (fun h => by rw [points_cons] at h; cases h) h
    rw [utf8Text_cons] at h
    by_cases h1 : d = '%'
    · subst h1
      have hd : utf8 '%' = [PERCENT] := by decide
      rw [hd, List.singleton_append, likeLoop_cons, head?_cons, if_pos rfl, tail_cons] at h
      rw [ih f (Nat.lt_succ_self f) (c :: s) p (some (p, c :: s)) b (Tok.linked_start _ _) h]
      exact (Tok.open_run hl).symm
    by_cases h2 : d = '_'
    · subst h2
      have hd : utf8 '_' = [UNDERSCORE] := by decide
      rw [hd, List.singleton_append, likeLoop_cons, head?_cons, if_neg (by decide), if_pos rfl,
        tail_cons] at h
      rw [points_cons] at hl ⊢
      have hne : byteTok '_' ≠ .run := by rw [byteTok_underscore]; exact fun h => by cases h
      rw [ih f (Nat.lt_succ_self f) _ p star b (hl.cons hne) h]
      exact (Tok.open_take hne trivial).symm
    -- a character of its own: the bytes of the next code point are its bytes, or not
    have hne : byteTok d ≠ .run := fun h => h1 (byteTok_eq_run.1 h)
    have hs : (c :: s) = (c :: s).take (utf8Len c) ++ pointOn (c :: s) := (List.take_append_drop ..).symm
    by_cases hu : (c :: s).take (utf8Len c) = utf8 d
    · rw [hs, hu] at h
      obtain ⟨f', hf, h⟩ := likeLoop_lit _ _ _ _ _ _ (utf8_plain h1 h2) h
      rw [points_cons] at hl ⊢
      have hlt : f' < f + 1 := by
        obtain ⟨x, l, hx, -⟩ := utf8_spec d
        rw [hx, length_cons] at hf
        omega
      rw [ih f' hlt _ p star b (hl.cons hne) h]
      refine (Tok.open_take hne ?_).symm
      rw [byteTok_lit h1 h2]
      exact hu.symm
    · have hta : ¬ (byteTok d).Takes ((c :: s).take (utf8Len c)) := by
        rw [byteTok_lit h1 h2]
        exact fun h => hu h.symm
      have hm : ¬ Tok.Matches ((d :: p).map byteTok) (points (c :: s)) := by
        rw [points_cons]
        refine Tok.not_matches_cons (fun t q hq => ?_)
        obtain ⟨rfl, rfl⟩ := List.cons.inj hq
        exact ⟨hne, hta⟩
      obtain ⟨x, l, hx, hlen, -⟩ := utf8_spec d
      have hplain := utf8_plain h1 h2
      by_cases hxc : x = c
      · -- the first bytes agree, so both are as long unless the text is out
        subst hxc
        have hcut : ((x :: s).take (utf8Len x)).length = (utf8 d).length ∨
            ((x :: s).take (utf8Len x)).length < (utf8 d).length ∧ pointOn (x :: s) = [] := by
          rw [hx, pointOn, List.length_take, length_cons, length_cons, List.drop_eq_nil_iff,
            length_cons]
          omega
        rw [hs] at h
        rcases likeLoop_miss _ _ _ _ _ _ _ hplain hu hcut h with ⟨rfl, hend⟩ | ⟨f', hf, h⟩
        · refine ⟨(fun h => by cases h), fun hopen => ?_⟩
          rw [points_cons, hend, points_nil] at hl hopen
          exact absurd hopen (Tok.not_open_last hl hne hta)
        · exact hback f' hf hm h
      · rw [hx] at h hplain
        obtain ⟨hp1, hp2⟩ := hplain x (List.mem_cons_self ..)
        rw [cons_append, likeLoop_cons, head?_cons, if_neg (fun h => hp1 (Option.some.inj h)),
          if_neg (fun h => hp2 (Option.some.inj h)), if_neg (fun h => hxc (Option.some.inj h))] at h
        exact hback f (Nat.lt_succ_self f) hm h

theorem like_points (s : List Byte) (p : List Char) :
    ∃ b, like s (utf8Text p) = some b ∧ (b = true ↔ Tok.Matches (p.map byteTok) (points s)) := by
  obtain ⟨b, hb⟩ := like_ends s (utf8Text p)
  refine ⟨b, hb, ?_⟩
  have h := likeLoop_open _ s p none b (fun _ h => by cases h) hb
  rw [h]
  exact Tok.open_none

/-- **LIKE matches by definition**: for every text and pattern the walk ends, and answers 1 exactly when the text's code
points are in the pattern's language; and so for a text that is no UTF-8, read by its first bytes. -/
theorem like_iff :
    (∀ t p : List Char, ∃ b, like (utf8Text t) (utf8Text p) = some b ∧ (b = true ↔ Tok.Matches (p.map tok) t)) ∧
      ∀ (s : List Byte) (p : List Char), ∃ b, like s (utf8Text p) = some b ∧
        (b = true ↔ Tok.Matches (p.map byteTok) (points s)) := by
  refine ⟨fun t p => ?_, like_points⟩
  obtain ⟨b, hb, h⟩ := like_points (utf8Text t) p
  have hp : p.map byteTok = (p.map tok).map (Tok.map utf8) := by
    rw [List.map_map]
    rfl
  rw [points_utf8Text, hp, Tok.matches_map utf8_injective] at h
  exact ⟨b, hb, h⟩

/-- What a pattern would stand for with an escape character: the character after it, itself. -/
def escToks (esc : Char) : List Char → List (Tok Char)
  | [] => []
  | [c] => [tok c]
  | c :: d :: p => if c = esc then .lit d :: escToks esc p else tok c :: escToks esc (d :: p)

/-- **No escape**: `\%` against `%`. -/
theorem like_no_escape : ¬ ∀ (t p : List Char) (esc : Char), ∃ b, like (utf8Text t) (utf8Text p) = some b ∧
    (b = true ↔ Tok.Matches (escToks esc p) t) := by
  intro h
  obtain ⟨b, hb, hiff⟩ := h ['%'] ['\\', '%'] '\\'
  have hlike : like (utf8Text ['%']) (utf8Text ['\\', '%']) = some false := by decide
  rw [hlike] at hb
  cases hb
  exact absurd (hiff.2 (.lit '%' .nil)) (by decide)

end Sql
end Gbasic
