import Gbasic.KeySame
import Gbasic.SqlSetKept
/-!
# SqlSetSame — when two rows have one key

A row's columns are values, and two rows have one key where each column is the same (`valueKey_eq_iff`).
-/
namespace Gbasic
namespace SetOp

open Key (Value Money serialize SameColumn Named Letters code_eq_iff)

variable {n : Nat} {rows : List (List Value)}

/-! ## Rows -/

/-- Two rows that are the same. -/
def SameRow (vs ws : List Value) : Prop := List.Forall₂ SameColumn vs ws

instance (vs ws : List Value) : Decidable (SameRow vs ws) := inferInstanceAs (Decidable (List.Forall₂ _ _ _))

def rowOf (vs : List Value) : Row := vs.map serialize

/-- Rows of `n` columns, in which money's currencies are named as they should be. -/
structure Typed (n : Nat) (rows : List (List Value)) : Prop where
  length : ∀ vs ∈ rows, vs.length = n
  named : ∀ vs ∈ rows, ∀ ws ∈ rows, ∀ v ∈ vs, ∀ w ∈ ws, Named v w

theorem Typed.mono {rows' : List (List Value)} (h : Typed n rows) (hsub : rows' ⊆ rows) : Typed n rows' where
  length vs hv := h.length vs (hsub hv)
  named vs hv ws hw := h.named vs (hsub hv) ws (hsub hw)

theorem keyItems_rowOf : ∀ (vs : List Value) (key : Bytes),
    keyItems key (rowOf vs) = .ok (key ++ (vs.map (Value.code ⟨false, false⟩)).flatten)
  | [], key => by
    rw [List.map_nil, List.flatten_nil, List.append_nil]
    rfl
  | v :: vs, key => by
    rw [rowOf, List.map_cons, keyItems, Key.keyAppend_serialize]
    have ih := keyItems_rowOf vs (key ++ v.keyed ⟨false, false⟩)
    rw [List.append_assoc] at ih
    exact ih

theorem rowKey_rowOf {vs : List Value} (h : vs.length = n) :
    rowKey n (rowOf vs) = .ok (vs.map (Value.code ⟨false, false⟩)).flatten := by
  rw [rowKey, rowOf, List.length_map, if_neg (not_not.2 h)]
  exact keyItems_rowOf vs []

theorem moneyCode_serialize (m : Money) : Key.moneyCode (serialize (.money m)) = m.alpha := by
  have hlen : (byte m.alpha.length).val = m.alpha.length := Nat.mod_eq_of_lt (by have := m.short; omega)
  rw [serialize, Money.bytes]
  rw [Key.moneyCode_eq (leGet_lePut 8 _ _ m.units.isLt) (Key.leGet_one _ _) (leGet_lePut 2 _ _ m.numeric.isLt)
    (Key.leGet_one _ _), hlen, List.take_length]

theorem selfEnding_serialize {v : Value} (h : Named v v) : Key.SelfEnding ⟨false, false⟩ (serialize v) := by
  cases v with
  | money m =>
    have hm : Letters m := h.1
    refine Key.Readable.selfEnding (fun _ _ => ?_)
    rw [moneyCode_serialize]
    refine ⟨fun b hb h0 => by have := hm b hb; omega, fun h1 => ?_⟩
    rcases ha : m.alpha with _ | ⟨b, bs⟩
    · rw [ha] at h1
      cases h1
    · have := hm b (by rw [ha]; exact List.mem_cons_self ..)
      rw [ha, List.headD_cons] at h1
      omega
  | _ => exact fun htag => absurd htag (by rw [serialize, List.headD_cons]; decide)

theorem typed_ending (h : Typed n rows) : Ending n (rows.map rowOf) := by
  intro row hr
  obtain ⟨vs, hv, rfl⟩ := List.mem_map.1 hr
  refine ⟨by rw [rowOf, List.length_map, h.length vs hv], fun b hb => ?_⟩
  obtain ⟨v, hv', rfl⟩ := List.mem_map.1 hb
  exact selfEnding_serialize (h.named vs hv vs hv v hv' v hv')

theorem typed_keyed (h : Typed n rows) : Keyed n (rows.map rowOf) := by
  intro row hr
  obtain ⟨vs, hv, rfl⟩ := List.mem_map.1 hr
  exact ⟨_, rowKey_rowOf (h.length vs hv)⟩

theorem codes_eq_iff : ∀ {vs ws : List Value}, (∀ v ∈ vs, ∀ w ∈ ws, Named v w) →
    (vs.map (Value.code ⟨false, false⟩) = ws.map (Value.code ⟨false, false⟩) ↔ SameRow vs ws)
  | [], [], _ => iff_of_true rfl .nil
  | [], _ :: _, _ => iff_of_false (fun h => by cases h) (fun h => by cases h)
  | _ :: _, [], _ => iff_of_false (fun h => by cases h) (fun h => by cases h)
  | v :: vs, w :: ws, h => by
    rw [List.map_cons, List.map_cons, List.cons.injEq, SameRow, List.forall₂_cons,
      code_eq_iff (h v (List.mem_cons_self ..) w (List.mem_cons_self ..)),
      codes_eq_iff (fun v' hv w' hw => h v' (List.mem_cons_of_mem v hv) w' (List.mem_cons_of_mem w hw))]
    rfl

/-- A row of values by its key. -/
def valueKey (n : Nat) (vs : List Value) : Bytes := keyOf n (rowOf vs)

/-- **Two rows have one key just where every column is the same.** -/
theorem valueKey_eq_iff (h : Typed n rows) {vs ws : List Value} (hv : vs ∈ rows) (hw : ws ∈ rows) :
    valueKey n vs = valueKey n ws ↔ SameRow vs ws := by
  have hdel : ∀ us ∈ rows, List.Forall₂ Key.Delimits (List.replicate n ⟨false, false⟩)
      (us.map (Value.code ⟨false, false⟩)) := by
    intro us hu
    rw [← h.length us hu]
    have hself : ∀ u ∈ us, Key.Delimits ⟨false, false⟩ (u.code ⟨false, false⟩) := fun u hu' =>
      (Key.delimits_iff ⟨_, Key.keyAppend_serialize [] u ⟨false, false⟩⟩).2
      (selfEnding_serialize (h.named us hu us hu u hu' u hu'))
    clear hu
    induction us with
    | nil => exact .nil
    | cons u us ih =>
      rw [List.length_cons, List.replicate_succ, List.map_cons]
      exact .cons (hself u (List.mem_cons_self ..)) (ih (fun u' hu' => hself u' (List.mem_cons_of_mem u hu')))
  rw [valueKey, valueKey, keyOf_ok (rowKey_rowOf (h.length vs hv)), keyOf_ok (rowKey_rowOf (h.length ws hw)),
    ← codes_eq_iff (h.named vs hv ws hw)]
  refine ⟨fun he => ?_, fun he => by rw [he]⟩
  have hsplit := Key.splitKey_flatten (hdel vs hv) []
  rw [he, Key.splitKey_flatten (hdel ws hw)] at hsplit
  exact (Prod.mk.inj (Option.some.inj hsplit)).1.symm

end SetOp
end Gbasic
