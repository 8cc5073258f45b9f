import Gbasic.KeySkip
import Gbasic.TableCodec
/-!
# TableIndex — an entry leads back to its row

An index entry is its columns' components, each of a length its own bytes say, and then the row's key, unless the entry
is keyed by its columns alone and holds the row's key as its value.  `indexRowkey` reads either back
(`indexRowkey_entry`), so two rows with one entry are one row (`entry_injective`).
-/
namespace Gbasic
namespace Gsql

open Engine (Bytes)
open Key (SER_NULL SER_UNKNOWN Readable directed component)

/-- The value an entry is stored with. -/
def Entry.value (e : Entry) (rowkey : Bytes) : Bytes := if e.uniqueForm then rowkey else []

def IndexReads (tb : Table) (x : Index) (v : Vals) : Prop :=
  ∀ p ∈ x.cols, Readable (keyFlags (tb.col p.1) p.2) (v.getD p.1 [])

instance (tb : Table) (x : Index) (v : Vals) : Decidable (IndexReads tb x v) :=
  inferInstanceAs (Decidable (∀ p ∈ x.cols, Readable (keyFlags (tb.col p.1) p.2) (v.getD p.1 [])))

theorem keyComponent_some {k k' v : Bytes} {c : Column} {desc : Bool} (h : keyComponent k c v desc = some k') :
    ∃ p r, component v (keyFlags c desc) = .ok (p, r) ∧ k' = k ++ directed (keyFlags c desc) p := by
  unfold keyComponent at h
  split at h
  · rename_i k₁ n hk
    cases h
    exact Key.keyAppend_ok hk
  · cases h

theorem isAbsent_iff {v : Bytes} (h : ∃ w, V3.walkWhole v = some w) :
    isAbsent v = true ↔ (v.headD 0).val = SER_NULL ∨ (v.headD 0).val = SER_UNKNOWN := by
  obtain ⟨w, hw⟩ := h
  constructor
  · intro ha
    unfold isAbsent at ha
    simp only [Bool.or_eq_true, decide_eq_true_eq] at ha
    rcases ha with rfl | rfl
    · exact .inr rfl
    · exact .inl rfl
  · intro htag
    cases v with
    | nil => exact absurd htag (by decide)
    | cons b l =>
      have hread : V3.walkOne (b :: l) = some ({ V3.Walk.start with tag := b.val }, l) :=
        V3.walk_absent htag _ _ l
      unfold V3.walkWhole Reader.whole at hw
      rw [hread] at hw
      have hl : l = [] := by
        cases l with
        | nil => rfl
        | cons => cases hw
      subst hl
      have hb : b = byte SER_NULL ∨ b = byte SER_UNKNOWN := by
        rcases htag with h | h
        · exact .inl (by rw [← h]; exact (byte_of_val b).symm)
        · exact .inr (by rw [← h]; exact (byte_of_val b).symm)
      unfold isAbsent
      rcases hb with rfl | rfl
      · rfl
      · rfl

/-- **The columns of an entry are passed over**, and what is absent among them is found. -/
theorem indexRest_columns {tb : Table} {x : Index} {v : Vals} (hv : ∀ y ∈ v, ∃ w, V3.walkWhole y = some w) :
    ∀ {cols : List (Nat × Bool)} {k k' : Bytes} {absent absent' : Bool},
    (∀ p ∈ cols, Readable (keyFlags (tb.col p.1) p.2) (v.getD p.1 [])) →
    indexColumns tb v cols k absent = some (k', absent') →
    ∃ s b, k' = k ++ s ∧ absent' = (absent || b) ∧ ∀ m a, indexRest tb x cols (s ++ m) a = .ok (m, a || b)
  | [], k, k', absent, absent', _, h => by
    cases h
    exact ⟨[], false, by simp, by simp, fun m a => by simp [indexRest]⟩
  | (i, desc) :: cols, k, k', absent, absent', hr, h => by
    rw [indexColumns] at h
    split at h
    · cases h
    rename_i k₁ hk₁
    obtain ⟨c, r, hc, rfl⟩ := keyComponent_some hk₁
    obtain ⟨s, b, rfl, rfl, hrest⟩ := indexRest_columns hv (fun p hp => hr p (List.mem_cons_of_mem _ hp)) h
    have hread := hr (i, desc) (List.mem_cons_self ..)
    have hd := Key.component_delimited hc hread
    have hskip := Key.keySkip_component hc hread
    have hne : c ≠ [] := by
      rintro rfl
      have hlen := hd.len []
      cases hlen
    -- the value is one of the row's
    have hmem : v.getD i [] ∈ v := by
      rw [List.getD_eq_getElem?_getD] at hc ⊢
      rcases hi : v[i]? with _ | y
      · rw [hi] at hc
        cases hc
      · exact List.mem_of_getElem? hi
    have habs : isAbsent (v.getD i []) = decide ((c.headD 0).val = Key.KEY_ABSENT) := by
      rw [Bool.eq_iff_iff, isAbsent_iff (hv _ hmem), decide_eq_true_eq, hd.absent]
    refine ⟨directed (keyFlags (tb.col i) desc) c ++ s, isAbsent (v.getD i []) || b, by simp, by simp [Bool.or_assoc],
      ?_⟩
    intro m a
    have hlen : (directed (keyFlags (tb.col i) desc) c).length = c.length := by
      unfold directed
      split_ifs <;> simp
    have hfirst : (if desc then notByte ((directed (keyFlags (tb.col i) desc) c ++ (s ++ m)).headD 0)
        else (directed (keyFlags (tb.col i) desc) c ++ (s ++ m)).headD 0) = c.headD 0 := by
      cases c with
      | nil => exact absurd rfl hne
      | cons y c => cases desc <;> simp [directed, keyFlags]
    rw [indexRest, List.append_assoc, hskip]
    dsimp only
    rw [hfirst, ← hlen, List.drop_left, hrest, habs, Bool.or_assoc]

/-- **An entry leads back to its row.** -/
theorem indexRowkey_entry {tb : Table} {x : Index} {v : Vals} {rowkey : Bytes} {e : Entry}
    (hv : ∀ y ∈ v, ∃ w, V3.walkWhole y = some w) (hr : IndexReads tb x v) (h : indexEntry tb x v rowkey = some e) :
    indexRowkey tb x e.key (e.value rowkey) = .ok rowkey := by
  unfold indexEntry at h
  split at h
  · cases h
  rename_i k absent hcols
  obtain ⟨s, b, hk, rfl, hrest⟩ := indexRest_columns (x := x) hv hr hcols
  rw [List.nil_append] at hk
  subst hk
  unfold indexRowkey
  split_ifs at h with hform
  · cases h
    have hread := hrest [] false
    rw [List.append_nil] at hread
    rw [hread]
    dsimp only
    rw [if_pos (by simpa using hform)]
    rfl
  · cases h
    rw [hrest rowkey false]
    dsimp only
    rw [if_neg (by simpa using hform)]
    rfl

theorem uniqueForm_eq {tb : Table} {x : Index} {v v' : Vals} {rowkey rowkey' : Bytes} {e e' : Entry}
    (hv : ∀ y ∈ v, ∃ w, V3.walkWhole y = some w) (hv' : ∀ y ∈ v', ∃ w, V3.walkWhole y = some w)
    (hr : IndexReads tb x v) (hr' : IndexReads tb x v') (h : indexEntry tb x v rowkey = some e)
    (h' : indexEntry tb x v' rowkey' = some e') (hkey : e.key = e'.key) : e.uniqueForm = e'.uniqueForm := by
  have hform : ∀ {v : Vals} {rowkey : Bytes} {e : Entry}, (∀ y ∈ v, ∃ w, V3.walkWhole y = some w) →
      IndexReads tb x v → indexEntry tb x v rowkey = some e →
      ∃ m absent, indexRest tb x x.cols e.key false = .ok (m, absent) ∧ e.uniqueForm = (x.unique && !absent) := by
    intro v rowkey e hv hr h
    unfold indexEntry at h
    split at h
    · cases h
    rename_i k absent hcols
    obtain ⟨s, b, hk, rfl, hrest⟩ := indexRest_columns (x := x) hv hr hcols
    rw [List.nil_append] at hk
    subst hk
    split_ifs at h with hf
    · cases h
      have hread := hrest [] false
      rw [List.append_nil] at hread
      exact ⟨[], _, hread, by simpa using hf.symm⟩
    · cases h
      exact ⟨rowkey, _, hrest rowkey false, by simpa using hf⟩
  obtain ⟨m, a, hrest, hu⟩ := hform hv hr h
  obtain ⟨m', a', hrest', hu'⟩ := hform hv' hr' h'
  rw [hkey, hrest'] at hrest
  cases hrest
  rw [hu, hu']

/-- **Rows whose entries are the same bytes are one row**, unless both are keyed by their columns alone. -/
theorem entry_injective {tb : Table} {x : Index} {v v' : Vals} {rowkey rowkey' : Bytes} {e e' : Entry}
    (hv : ∀ y ∈ v, ∃ w, V3.walkWhole y = some w) (hv' : ∀ y ∈ v', ∃ w, V3.walkWhole y = some w)
    (hr : IndexReads tb x v) (hr' : IndexReads tb x v') (h : indexEntry tb x v rowkey = some e)
    (h' : indexEntry tb x v' rowkey' = some e') (hkey : e.key = e'.key) (hvalue : e.value rowkey = e'.value rowkey') :
    rowkey = rowkey' := by
  have hback := indexRowkey_entry hv hr h
  have hback' := indexRowkey_entry hv' hr' h'
  rw [hkey, hvalue, hback'] at hback
  exact (Except.ok.inj hback).symm

end Gsql
end Gbasic
