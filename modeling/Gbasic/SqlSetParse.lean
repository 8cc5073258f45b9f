import Gbasic.SqlSetOp
/-!
# SqlSetParse — chains of set operations parsed

A SELECT is one word here, with whether ORDER BY, LIMIT or OFFSET closes it.  `Spells` is the grammar, with INTERSECT a
level below UNION and EXCEPT and each level grouped from the left; the parser gives the tree that a chain spells, and
what closes the last SELECT to the whole.
-/
namespace Gbasic
namespace SetOp

variable {α : Type}
variable {all : Bool}

structure Branch (α : Type) where
  select : α
  tail : Bool

inductive Tok (α : Type) where
  | word (op : SqlSetOp)
  | all | distinct | lparen | rparen
  | select (b : Branch α)
  | tail
  | other

/-- Why a chain is refused: ORDER BY, LIMIT or OFFSET before a set word, or in parentheses; something else expected. -/
inductive Refused where
  | early | inside | expected
  deriving DecidableEq

def setWord : List (Tok α) → Option SqlSetOp
  | .word op :: _ => some op
  | _ => none

def lastBranch : SqlStmt (Branch α) → Branch α
  | .select b => b
  | .setop _ _ _ right => lastBranch right

def branchCloses (s : SqlStmt (Branch α)) (ts : List (Tok α)) : Bool :=
  match s with
  | .select b => !(b.tail && (setWord ts).isSome)
  | .setop .. => true

def setAll : List (Tok α) → Bool × List (Tok α)
  | .all :: ts => (true, ts)
  | .distinct :: ts => (false, ts)
  | ts => (false, ts)

theorem length_setAll (ts : List (Tok α)) : (setAll ts).2.length ≤ ts.length := by
  rw [setAll.eq_def]
  split
  · exact Nat.le_succ _
  · exact Nat.le_succ _
  · exact Nat.le_refl _

mutual

/-- `set_branch`: a SELECT or a chain in parentheses, and the words left, which are no more than there were. -/
def setBranch : List (Tok α) → Except Refused (SqlStmt (Branch α) × List (Tok α))
  | .lparen :: ts =>
    match setBranch ts with
    | .error e => .error e
    | .ok (b, r₁) =>
      if _h₁ : r₁.length ≤ ts.length then
        match setIntersect b r₁ with
        | .error e => .error e
        | .ok (l, r₂) =>
          if _h₂ : r₂.length ≤ ts.length then
            match setUnion l r₂ with
            | .error e => .error e
            | .ok (inner, r₃) =>
              if (lastBranch inner).tail then .error .inside
              else
                match r₃ with
                | .rparen :: r₄ => if branchCloses inner r₄ then .ok (inner, r₄) else .error .early
                | _ => .error .expected
          else .error .expected
      else .error .expected
  | .select b :: ts => if branchCloses (.select b) ts then .ok (.select b, ts) else .error .early
  | _ => .error .expected
termination_by ts => ts.length
decreasing_by
  · exact Nat.lt_succ_self _
  · exact Nat.lt_succ_of_le _h₁
  · exact Nat.lt_succ_of_le _h₂

def setIntersect (l : SqlStmt (Branch α)) : List (Tok α) → Except Refused (SqlStmt (Branch α) × List (Tok α))
  | .word .intersect :: ts =>
    match setBranch (setAll ts).2 with
    | .error e => .error e
    | .ok (b, r) =>
      if _h : r.length ≤ ts.length then setIntersect (.setop .intersect (setAll ts).1 l b) r else .error .expected
  | ts => .ok (l, ts)
termination_by ts => ts.length
decreasing_by
  · exact Nat.lt_succ_of_le (length_setAll ts)
  · exact Nat.lt_succ_of_le _h

def setUnion (l : SqlStmt (Branch α)) : List (Tok α) → Except Refused (SqlStmt (Branch α) × List (Tok α))
  | .word op :: ts =>
    if op = .intersect then .ok (l, .word op :: ts)
    else
      match setBranch (setAll ts).2 with
      | .error e => .error e
      | .ok (b, r₁) =>
        if _h₁ : r₁.length ≤ ts.length then
          match setIntersect b r₁ with
          | .error e => .error e
          | .ok (right, r₂) =>
            if _h₂ : r₂.length ≤ ts.length then setUnion (.setop op (setAll ts).1 l right) r₂ else .error .expected
        else .error .expected
  | ts => .ok (l, ts)
termination_by ts => ts.length
decreasing_by
  · exact Nat.lt_succ_of_le (length_setAll ts)
  · exact Nat.lt_succ_of_le _h₁
  · exact Nat.lt_succ_of_le _h₂

end

/-- `select_tail`: whether ORDER BY, LIMIT or OFFSET stands here, and what is behind. -/
def selectTail : List (Tok α) → Bool × List (Tok α)
  | .tail :: ts => (true, ts)
  | ts => (false, ts)

def clearLast : SqlStmt (Branch α) → SqlStmt (Branch α)
  | .select b => .select { b with tail := false }
  | .setop op all left right => .setop op all left (clearLast right)

/-- `compound`, behind a first SELECT: the tree, whether ORDER BY, LIMIT or OFFSET closes the whole, and what is
left. -/
def compound (root : Branch α) (ts : List (Tok α)) : Except Refused (SqlStmt (Branch α) × Bool × List (Tok α)) :=
  if (setWord ts).isNone then .ok (.select { root with tail := false }, root.tail, ts)
  else if branchCloses (.select root) ts = false then .error .early
  else
    match setIntersect (.select root) ts with
    | .error e => .error e
    | .ok (l, r) =>
      match setUnion l r with
      | .error e => .error e
      | .ok (l, r) =>
        -- after a parenthesized last branch they follow the parenthesis
        if (lastBranch l).tail then .ok (clearLast l, true, r) else .ok (l, selectTail r)

/-! ## The grammar -/

inductive Level where
  | branch | intersect | union

variable {t r : SqlStmt (Branch α)} {ts rest us q : List (Tok α)} {v : Level}

inductive Quantified : List (Tok α) → Bool → Prop where
  | none : Quantified [] false
  | all : Quantified [.all] true
  | distinct : Quantified [.distinct] false

/-- The words of a chain, and the tree they mean. -/
inductive Spells : Level → SqlStmt (Branch α) → List (Tok α) → Prop where
  | select (b : Branch α) : Spells .branch (.select b) [.select b]
  | parens {t : SqlStmt (Branch α)} {ts : List (Tok α)} (h : Spells .union t ts) (hlast : (lastBranch t).tail = false) :
      Spells .branch t (.lparen :: (ts ++ [.rparen]))
  | branch {t : SqlStmt (Branch α)} {ts : List (Tok α)} (h : Spells .branch t ts) : Spells .intersect t ts
  | intersect {l r : SqlStmt (Branch α)} {ts q us : List (Tok α)} {all : Bool} (hl : Spells .intersect l ts)
      (hlast : (lastBranch l).tail = false) (hq : Quantified q all) (hr : Spells .branch r us) :
      Spells .intersect (.setop .intersect all l r) (ts ++ .word .intersect :: (q ++ us))
  | term {t : SqlStmt (Branch α)} {ts : List (Tok α)} (h : Spells .intersect t ts) : Spells .union t ts
  | union {op : SqlSetOp} {l r : SqlStmt (Branch α)} {ts q us : List (Tok α)} {all : Bool} (hop : op ≠ .intersect)
      (hl : Spells .union l ts) (hlast : (lastBranch l).tail = false) (hq : Quantified q all)
      (hr : Spells .intersect r us) :
      Spells .union (.setop op all l r) (ts ++ .word op :: (q ++ us))

/-! ## A chain is parsed as it is spelled -/

/-- What closes a chain's last SELECT stands before no set word. -/
def Closes (t : SqlStmt (Branch α)) (rest : List (Tok α)) : Prop := (lastBranch t).tail = true → setWord rest = none

theorem branchCloses_of (h : Closes t rest) : branchCloses t rest = true := by
  cases t with
  | select b =>
    rw [branchCloses, Bool.not_eq_true', Bool.and_eq_false_iff]
    rcases ht : b.tail with _ | _
    · exact Or.inl rfl
    · refine Or.inr ?_
      rw [h ht]
      rfl
  | setop op all l r => rfl

theorem closes_of_plain (h : (lastBranch t).tail = false) (rest : List (Tok α)) : Closes t rest := by
  intro ht
  rw [h] at ht
  cases ht

theorem spells_cons (h : Spells v t ts) : ∃ a us, ts = a :: us ∧ a ≠ .all ∧ a ≠ .distinct := by
  induction h with
  | select b => exact ⟨_, [], rfl, by simp, by simp⟩
  | parens _ _ _ => exact ⟨_, _, rfl, by simp, by simp⟩
  | branch _ ih => exact ih
  | intersect _ _ _ _ ih _ =>
    obtain ⟨a, us, rfl, ha, hd⟩ := ih
    exact ⟨a, _, rfl, ha, hd⟩
  | term _ ih => exact ih
  | union _ _ _ _ _ ih _ =>
    obtain ⟨a, us, rfl, ha, hd⟩ := ih
    exact ⟨a, _, rfl, ha, hd⟩

theorem setAll_quantified (hq : Quantified q all) (h : Spells v t us) (rest : List (Tok α)) :
    setAll (q ++ us ++ rest) = (all, us ++ rest) := by
  obtain ⟨a, us, rfl, ha, hd⟩ := spells_cons h
  cases hq with
  | none =>
    rw [List.nil_append, List.cons_append, setAll.eq_def]
    split
    · rename_i he
      exact absurd (List.cons.inj he).1 ha
    · rename_i he
      exact absurd (List.cons.inj he).1 hd
    · rfl
  | all => rfl
  | distinct => rfl

theorem setIntersect_done (l : SqlStmt (Branch α)) (h : setWord ts ≠ some .intersect) :
    setIntersect l ts = .ok (l, ts) := by
  rw [setIntersect.eq_def]
  split
  · exact absurd rfl h
  · rfl

theorem setUnion_done (l : SqlStmt (Branch α)) (h : setWord ts = none) : setUnion l ts = .ok (l, ts) := by
  rw [setUnion.eq_def]
  split
  · cases h
  · rfl

theorem setIntersect_word (l : SqlStmt (Branch α)) (hq : Quantified q all) (hr : Spells .branch r us)
    (h : setBranch (us ++ rest) = .ok (r, rest)) :
    setIntersect l (.word .intersect :: (q ++ us ++ rest)) = setIntersect (.setop .intersect all l r) rest := by
  have hlen : rest.length ≤ (q ++ us ++ rest).length := by
    rw [List.length_append]
    exact Nat.le_add_left _ _
  rw [setIntersect, setAll_quantified hq hr, h]
  exact dif_pos hlen

theorem setUnion_word {op : SqlSetOp} (hop : op ≠ .intersect) (l : SqlStmt (Branch α)) {b : SqlStmt (Branch α)}
    {r₁ : List (Tok α)} (hq : Quantified q all) (hr : Spells .intersect r us)
    (hb : setBranch (us ++ rest) = .ok (b, r₁)) (hlen₁ : r₁.length ≤ (us ++ rest).length)
    (hi : setIntersect b r₁ = .ok (r, rest)) :
    setUnion l (.word op :: (q ++ us ++ rest)) = setUnion (.setop op all l r) rest := by
  have hlen : rest.length ≤ (q ++ us ++ rest).length := by
    rw [List.length_append]
    exact Nat.le_add_left _ _
  have hlen₁' : r₁.length ≤ (q ++ us ++ rest).length := by
    rw [List.append_assoc, List.length_append]
    omega
  rw [setUnion, if_neg hop, setAll_quantified hq hr, hb]
  refine (dif_pos hlen₁').trans ?_
  rw [hi]
  exact dif_pos hlen

def Parses (t : SqlStmt (Branch α)) (ts : List (Tok α)) : Level → Prop
  | .branch => ∀ rest, Closes t rest → setBranch (ts ++ rest) = .ok (t, rest)
  | .intersect => ∀ rest, Closes t rest → ∃ b r, setBranch (ts ++ rest) = .ok (b, r) ∧ r.length ≤ (ts ++ rest).length ∧
      setIntersect b r = setIntersect t rest
  | .union => ∀ rest, Closes t rest → setWord rest ≠ some .intersect → ∃ b r₁ l r₂, setBranch (ts ++ rest) = .ok
      (b, r₁) ∧ r₁.length ≤ (ts ++ rest).length ∧ setIntersect b r₁ = .ok (l, r₂) ∧ r₂.length ≤ (ts ++ rest).length ∧
      setUnion l r₂ = setUnion t rest

/-- **The parser reads a chain as the grammar spells it.** -/
theorem parses_of_spells (h : Spells v t ts) : Parses t ts v := by
  induction h with
  | select b =>
    intro rest hc
    rw [List.singleton_append, setBranch, if_pos (branchCloses_of hc)]
  | @parens t ts h hlast ih =>
    intro rest _
    obtain ⟨b, r₁, l, r₂, hb, hlen₁, hi, hlen₂, hu⟩ := ih (.rparen :: rest) (closes_of_plain hlast _)
      (by simp [setWord])
    rw [List.cons_append, List.append_assoc, List.singleton_append, setBranch, hb]
    refine (dif_pos hlen₁).trans ?_
    rw [hi]
    refine (dif_pos hlen₂).trans ?_
    rw [hu, setUnion_done t rfl]
    dsimp only
    rw [hlast, if_neg Bool.false_ne_true, if_pos (branchCloses_of (closes_of_plain hlast rest))]
  | @branch t ts h ih =>
    intro rest hc
    exact ⟨t, rest, ih rest hc, by rw [List.length_append]; exact Nat.le_add_left _ _, rfl⟩
  | @intersect l r ts q us all hl hlast hq hr ihl ihr =>
    intro rest hc
    obtain ⟨b, r₁, hb, hlen, hi⟩ := ihl (.word .intersect :: (q ++ us ++ rest)) (closes_of_plain hlast _)
    rw [setIntersect_word l hq hr (ihr rest hc)] at hi
    refine ⟨b, r₁, ?_, ?_, hi⟩
    · rw [List.append_assoc, List.cons_append]
      exact hb
    · rw [List.append_assoc, List.cons_append]
      exact hlen
  | @term t ts h ih =>
    intro rest hc hrest
    obtain ⟨b, r, hb, hlen, hi⟩ := ih rest hc
    rw [setIntersect_done t hrest] at hi
    exact ⟨b, r, t, rest, hb, hlen, hi, by rw [List.length_append]; exact Nat.le_add_left _ _, rfl⟩
  | @union op l r ts q us all hop hl hlast hq hr ihl ihr =>
    intro rest hc hrest
    obtain ⟨b', r', hb', hlen', hi'⟩ := ihr rest hc
    rw [setIntersect_done r hrest] at hi'
    obtain ⟨b, r₁, i, r₂, hb, hlen₁, hi, hlen₂, hu⟩ := ihl (.word op :: (q ++ us ++ rest)) (closes_of_plain hlast _)
      (by simpa [setWord] using hop)
    rw [setUnion_word hop l hq hr hb' hlen' hi'] at hu
    rw [List.append_assoc, List.cons_append]
    exact ⟨b, r₁, i, r₂, hb, hlen₁, hi, hlen₂, hu⟩

/-- What closes a chain is its last SELECT's, or stands behind it. -/
def closing (t : SqlStmt (Branch α)) (rest : List (Tok α)) : Bool × List (Tok α) :=
  if (lastBranch t).tail then (true, rest) else selectTail rest

theorem spells_word (h : Spells v t us) :
    ∀ {root : Branch α} {ts : List (Tok α)}, us = .select root :: ts → ts = [] ∨ ∃ op vs, ts = .word op :: vs := by
  -- a chain that goes on behind its left side goes on with a word
  have hmore : ∀ {root : Branch α} {ls ts vs : List (Tok α)} {op : SqlSetOp},
      (∃ a us, ls = a :: us ∧ a ≠ .all ∧ a ≠ .distinct) →
      (∀ {ts'}, ls = .select root :: ts' → ts' = [] ∨ ∃ op vs, ts' = Tok.word op :: vs) →
      ls ++ .word op :: vs = .select root :: ts → ∃ op vs, ts = .word op :: vs := by
    rintro root ls ts vs op ⟨a, us, rfl, -, -⟩ ih he
    rw [List.cons_append, List.cons.injEq] at he
    obtain ⟨rfl, rfl⟩ := he
    rcases ih rfl with rfl | ⟨op', vs', rfl⟩
    · exact ⟨_, _, rfl⟩
    · exact ⟨_, _, rfl⟩
  induction h with
  | select b =>
    rintro root ts he
    rw [List.cons.injEq] at he
    exact Or.inl he.2.symm
  | parens _ _ _ =>
    rintro root ts he
    cases he
  | branch _ ih => exact ih
  | intersect hl _ _ _ ih _ => exact fun he => Or.inr (hmore (spells_cons hl) ih he)
  | term _ ih => exact ih
  | union _ hl _ _ _ ih _ => exact fun he => Or.inr (hmore (spells_cons hl) ih he)

theorem clearLast_plain : ∀ {t : SqlStmt (Branch α)}, (lastBranch t).tail = false → clearLast t = t
  | .select b, h => by
    have hb : b.tail = false := h
    rw [clearLast, ← hb]
  | .setop op all l r, h => by rw [clearLast, clearLast_plain (t := r) h]

/-- **A chain has the tree it spells**, INTERSECT first and each level from the left, and what closes it closes the
whole. -/
theorem compound_spells {root : Branch α} (h : Spells .union t (.select root :: ts)) (hset : ts ≠ [])
    (hrest : setWord rest = none) : compound root (ts ++ rest) = .ok (clearLast t, closing t rest) := by
  obtain ⟨b, r₁, l, r₂, hb, -, hi, -, hu⟩ := parses_of_spells h rest (fun _ => hrest) (by rw [hrest]; simp)
  rw [List.cons_append, setBranch] at hb
  split at hb
  · rename_i hcloses
    cases hb
    rw [setUnion_done t hrest] at hu
    have hword : (setWord (ts ++ rest)).isNone = false := by
      obtain ⟨op, vs, rfl⟩ := (spells_word h rfl).resolve_left hset
      rfl
    rw [compound, hword, if_neg Bool.false_ne_true, hcloses, if_neg (by decide), hi]
    dsimp only
    rw [hu]
    dsimp only
    rw [closing]
    by_cases hlast : (lastBranch t).tail = true
    · rw [if_pos hlast, if_pos hlast]
    · rw [if_neg hlast, if_neg hlast, clearLast_plain (by simpa using hlast)]
  · cases hb

end SetOp
end Gbasic
