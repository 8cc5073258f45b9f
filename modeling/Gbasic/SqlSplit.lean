import Gbasic.SqlTokenAppend
/-!
# SqlSplit — statements split at their semicolons

`sqlStatementEnd` reads tokens to the first semicolon.  Where it finds one, more text changes nothing (`ends_append`);
so the statements found in text that arrives in pieces are those of the whole (`received_eq`), and it finds one as soon
as tokens that are complete are followed by a semicolon (`complete_ends`).
-/
namespace Gbasic
namespace SqlText

/-! ## `sql_statement_end` -/

/-- `1` with where the statement ends, `0` where the text ends first, `-1` where it ends inside a token; each with
whether there was no token. -/
inductive StatementEnd where
  | ends (at_ : Nat) (empty : Bool)
  | out (empty : Bool)
  | fails (empty : Bool)
  deriving DecidableEq

def endFrom (length : Nat) (empty : Bool) (l : Bytes) : StatementEnd :=
  match _h : next l with
  | .error _ => .fails empty
  | .ok (t, r) =>
    if _ht : t.kind = .eof then .out empty
    else if atSym t SEMI then .ends (length - r.length) empty
    else endFrom length false r
termination_by l.length
decreasing_by exact next_length _h _ht

def sqlStatementEnd (l : Bytes) : StatementEnd := endFrom l.length true l

section
variable {l r s : Bytes} {t : Tok} {n k : Nat} {e e' : Bool}

theorem endFrom_error {f : Fault} (h : next l = .error f) : endFrom n e l = .fails e := by
  rw [endFrom]
  split
  next => rfl
  next h' =>
    rw [h] at h'
    cases h'

theorem endFrom_ok (h : next l = .ok (t, r)) : endFrom n e l =
    if t.kind = .eof then .out e else if atSym t SEMI then .ends (n - r.length) e else endFrom n false r := by
  rw [endFrom]
  split
  next h' =>
    rw [h] at h'
    cases h'
  next h' =>
    rw [h] at h'
    cases h'
    split_ifs
    · rfl
    · rfl
    · rfl

theorem endFrom_parts (h : endFrom n e l = .ends k e') (s : Bytes) : Parts l s := by
  constructor
  · rintro rfl
    have heof : next [] = .ok (⟨.eof, []⟩, []) := by
      unfold next
      rw [skip_settled ⟨rfl, by decide, by decide⟩]
      rfl
    rw [endFrom_ok heof, if_pos rfl] at h
    cases h
  · rintro rfl
    have hamp : next (text "&") = .error ⟨text "&", unexpected (byte '&'.toNat)⟩ := by
      have hdrop : (text "&").dropWhile isSpace = text "&" := by decide
      have hskip : skipSpace (text "&") = .ok (text "&") := by
        have hset : Settled (text "&") := ⟨by decide, by decide, by decide⟩
        rw [skip_settled (by rw [hdrop]; exact hset), hdrop]
      rw [next_of hskip]
      rfl
    rw [endFrom_error hamp] at h
    cases h

theorem endFrom_append (h : endFrom n e l = .ends k e') (hn : l.length ≤ n) (s : Bytes) :
    endFrom (n + s.length) e (l ++ s) = .ends k e' := by
  induction hl : l.length using Nat.strong_induction_on generalizing l e with
  | _ m ih =>
    subst hl
    rcases hnext : next l with f | ⟨t, r⟩
    · rw [endFrom_error hnext] at h
      cases h
    · rw [endFrom_ok hnext] at h
      split_ifs at h with heof hsemi
      · have hlt := next_length hnext heof
        rw [endFrom_ok (next_semi hnext hsemi s), if_neg heof, if_pos hsemi, List.length_append]
        rw [← h]
        congr 1
        omega
      · have hlt := next_length hnext heof
        rw [endFrom_ok (next_append hnext heof (endFrom_parts h s)), if_neg heof, if_neg hsemi]
        exact ih _ hlt h (by omega) rfl

/-- **Where a statement ends, it ends with any text after it.** -/
theorem ends_append (h : sqlStatementEnd l = .ends k e) (s : Bytes) : sqlStatementEnd (l ++ s) = .ends k e := by
  unfold sqlStatementEnd at h ⊢
  rw [List.length_append]
  exact endFrom_append h le_rfl s

theorem endFrom_bounds (h : endFrom n e l = .ends k e') (hn : l.length ≤ n) : n - l.length < k ∧ k ≤ n := by
  induction hl : l.length using Nat.strong_induction_on generalizing l e with
  | _ m ih =>
    subst hl
    rcases hnext : next l with f | ⟨t, r⟩
    · rw [endFrom_error hnext] at h
      cases h
    · rw [endFrom_ok hnext] at h
      split_ifs at h with heof hsemi
      · have hlt := next_length hnext heof
        cases h
        omega
      · have hlt := next_length hnext heof
        have := ih _ hlt h (by omega) rfl
        omega

theorem ends_bounds (h : sqlStatementEnd l = .ends k e) : 0 < k ∧ k ≤ l.length := by
  have := endFrom_bounds h le_rfl
  omega

end

/-! ## Text in pieces -/

/-- The statements of a text, each with its semicolon, and what is left after them. -/
def splitStatements (l : Bytes) : List Bytes × Bytes :=
  match _h : sqlStatementEnd l with
  | .ends k _ => ((l.take k) :: (splitStatements (l.drop k)).1, (splitStatements (l.drop k)).2)
  | _ => ([], l)
termination_by l.length
decreasing_by
  all_goals
    have := ends_bounds _h
    rw [List.length_drop]
    omega

/-- One more piece of the text: the statements that end in what was left and it. -/
def receive (found : List Bytes × Bytes) (piece : Bytes) : List Bytes × Bytes :=
  (found.1 ++ (splitStatements (found.2 ++ piece)).1, (splitStatements (found.2 ++ piece)).2)

section
variable {l r s a b g : Bytes} {t : Tok} {n k : Nat} {e e' : Bool}

theorem split_ends (h : sqlStatementEnd l = .ends k e) :
    splitStatements l = (l.take k :: (splitStatements (l.drop k)).1, (splitStatements (l.drop k)).2) := by
  rw [splitStatements]
  split
  next k' e' h' =>
    rw [h] at h'
    cases h'
    rfl
  next hno => exact absurd h (hno k e)

theorem split_other (h : ∀ k e, sqlStatementEnd l ≠ .ends k e) : splitStatements l = ([], l) := by
  rw [splitStatements]
  split
  next k' e' h' => exact absurd h' (h k' e')
  next => rfl

theorem split_append (l s : Bytes) : splitStatements (l ++ s) = receive (splitStatements l) s := by
  induction hl : l.length using Nat.strong_induction_on generalizing l with
  | _ m ih =>
    subst hl
    by_cases h : ∃ k e, sqlStatementEnd l = .ends k e
    · obtain ⟨k, e, h⟩ := h
      obtain ⟨hpos, hle⟩ := ends_bounds h
      have hrest := ih (l.drop k).length (by rw [List.length_drop]; omega) (l.drop k) rfl
      rw [split_ends (ends_append h s), split_ends h, List.take_append_of_le_length hle,
        List.drop_append_of_le_length hle, hrest]
      rfl
    · rw [split_other (l := l) (fun k e hk => h ⟨k, e, hk⟩)]
      rfl

/-- **The statements found in pieces are those of the whole.** -/
theorem received_eq (pieces : List Bytes) : pieces.foldl receive ([], []) = splitStatements pieces.flatten := by
  have hgen : ∀ (pieces : List Bytes) (l : Bytes),
      pieces.foldl receive (splitStatements l) = splitStatements (l ++ pieces.flatten) := by
    intro pieces
    induction pieces with
    | nil =>
      intro l
      rw [List.foldl_nil, List.flatten_nil, List.append_nil]
    | cons p pieces ih =>
      intro l
      rw [List.foldl_cons, ← split_append, ih, List.flatten_cons, List.append_assoc]
  have hnil : splitStatements [] = ([], []) := by
    refine split_other (fun k e hk => ?_)
    have := ends_bounds hk
    rw [List.length_nil] at this
    omega
  have := hgen pieces []
  rwa [hnil, List.nil_append] at this

/-! ## Tokens that are complete -/

inductive Gap : Bytes → Prop
  | nil : Gap []
  | space {b : Byte} {g : Bytes} : isSpace b = true → Gap g → Gap (b :: g)
  | line {c g : Bytes} : (∀ b ∈ c, b ≠ byte '\n'.toNat) → Gap g → Gap (text "--" ++ (c ++ byte '\n'.toNat :: g))
  | block {c g : Bytes} : commentEnd (c ++ text "*/") = some [] → Gap g → Gap (text "/*" ++ (c ++ text "*/" ++ g))

/-- Tokens, none a semicolon, and a gap after the last. -/
inductive Complete : Bytes → Prop
  | gap {g : Bytes} : Gap g → Complete g
  | token {l r : Bytes} {t : Tok} : next l = .ok (t, r) → t.kind ≠ .eof → atSym t SEMI = false → Complete r → Complete l

theorem gap_skip (h : Gap g) (l : Bytes) : skipSpace (g ++ l) = skipSpace l := by
  induction h with
  | nil => rfl
  | @space b g hb _ ih =>
    rw [← ih]
    refine skip_congr ?_
    rw [List.cons_append, List.dropWhile_cons_of_pos hb]
  | @line c g hc _ ih =>
    have hdrop : (text "--" ++ (c ++ byte '\n'.toNat :: g) ++ l).dropWhile isSpace =
        byte '-'.toNat :: byte '-'.toNat :: (c ++ byte '\n'.toNat :: (g ++ l)) := by
      rw [List.append_assoc, List.append_assoc, List.cons_append]
      rfl
    have hline : (c ++ byte '\n'.toNat :: (g ++ l)).dropWhile (· ≠ byte '\n'.toNat) = byte '\n'.toNat :: (g ++ l) := by
      rw [List.dropWhile_append_of_pos (fun b hb => by simpa using hc b hb), List.dropWhile_cons_of_neg (by simp)]
    rw [skip_line hdrop, hline, ← ih]
    refine skip_congr ?_
    rw [List.dropWhile_cons_of_pos (by decide)]
  | @block c g hc _ ih =>
    have hdrop : (text "/*" ++ (c ++ text "*/" ++ g) ++ l).dropWhile isSpace =
        byte '/'.toNat :: byte '*'.toNat :: (c ++ text "*/" ++ (g ++ l)) := by
      rw [List.append_assoc, List.append_assoc]
      rfl
    rw [skip_block hdrop, commentEnd_append hc, List.nil_append]
    exact ih

theorem complete_endFrom (h : Complete a) (hn : (a ++ SEMI :: b).length ≤ n) (e : Bool) :
    ∃ e', endFrom n e (a ++ SEMI :: b) = .ends (n - b.length) e' := by
  induction h generalizing e with
  | @gap g hg =>
    have hset : Settled (SEMI :: b) :=
      ⟨rfl, fun h => absurd (List.cons.inj h).1 (by decide), fun h => absurd (List.cons.inj h).1 (by decide)⟩
    have hdrop : (SEMI :: b).dropWhile isSpace = SEMI :: b := List.dropWhile_cons_of_neg (by decide)
    have hskip : skipSpace (g ++ SEMI :: b) = .ok (SEMI :: b) := by
      rw [gap_skip hg, skip_settled (by rw [hdrop]; exact hset), hdrop]
    have hnext : next (g ++ SEMI :: b) = .ok (⟨.sym, [SEMI]⟩, b) := by
      rw [next_of hskip]
      exact token_semi b
    rw [endFrom_ok hnext, if_neg (by decide), if_pos (by decide)]
    exact ⟨e, rfl⟩
  | @token l r t hnext heof hsemi _ ih =>
    have happ := next_append hnext heof (Parts.of_semi r b)
    have hlt := next_length hnext heof
    rw [endFrom_ok happ, if_neg heof, hsemi, if_neg (by decide)]
    refine ih (le_trans ?_ hn) false
    rw [List.length_append, List.length_append]
    omega

/-- **Complete tokens and a semicolon are a statement**, whatever is after it. -/
theorem complete_ends (h : Complete a) (b : Bytes) : ∃ e, sqlStatementEnd (a ++ SEMI :: b) = .ends
    (a.length + 1) e := by
  obtain ⟨e, he⟩ := complete_endFrom (b := b) h le_rfl true
  refine ⟨e, ?_⟩
  rw [sqlStatementEnd, he]
  congr 1
  rw [List.length_append, List.length_cons]
  omega

/-- **Splitting does not depend on how the text arrives**: a statement that ends, ends with more text after it, what is
found piece by piece is what is found in the whole, and none is asked to go on that has a semicolon after its tokens. -/
theorem statements_in_pieces (pieces : List Bytes) :
    pieces.foldl receive ([], []) = splitStatements pieces.flatten ∧
      (∀ l k e s, sqlStatementEnd l = .ends k e → sqlStatementEnd (l ++ s) = .ends k e) ∧
      ∀ a b, Complete a → ∃ e, sqlStatementEnd (a ++ SEMI :: b) = .ends (a.length + 1) e :=
  ⟨received_eq pieces, fun _ _ _ s h => ends_append h s, fun _ b h => complete_ends h b⟩

end

end SqlText
end Gbasic
