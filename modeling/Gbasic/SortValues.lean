import Gbasic.SortOrder
import Gbasic.MergePasses
/-!
# SortValues — what sort does

An array is sorted by itself, or an array of records by some of their fields, each ascending or descending.  What is
sorted is looked through first: values of one kind, one currency and no months, and absences.  Then a comparison answers
by the order (`sortSpecCompare_orderBy`), and the sort is a stable one (`sort_sorted`).
-/
namespace Gbasic
namespace Same

open Std (TransCmp OrientedCmp)
open MergePasses (StableSorted bottomUp bottomUp_congr bottomUp_spec)
open Eval (CString Raise Currencies currencyAlphaOf)

/-- `SortSpec`: the fields with their directions, and the direction where there are none. -/
structure SortSpec where
  keys : List (CString × Bool)
  scalarDescending : Bool

def kindPhrase (k : Kind) : Bytes :=
  let noun := valueKindName k
  if k = .money ∨ k = .null ∨ k = .unknown then text noun
  else if noun.front ∈ ['a', 'e', 'i', 'o', 'u'] then text ("an " ++ noun)
  else text ("a " ++ noun)

/-! ## What is accepted -/

def sortRaise (room : Nat) (message : Bytes) (library : String) : Raise := ⟨message.take (room - 1), 1003, library⟩

def valueSortComparable (v : Value) : Bool :=
  v.kind ∈ [Kind.number, .string, .bool, .datetime, .money, .duration, .null, .unknown]

def orderedWith (cs : Currencies) (verb : Bytes) (first item : Value) : Except Raise Unit :=
  if first.kind ≠ item.kind then
    .error (sortRaise 128 (verb ++ text " requires ordinary values to have the same type") "invalid function call")
  else
    match first, item with
    | .money a, .money b =>
      if b.currency ≠ a.currency ∨ b.exponent ≠ a.exponent then
        .error (sortRaise 160 (verb ++ text " cannot order money in different currencies (" ++
          (currencyAlphaOf cs a.currency).getD (text "?") ++ text " and " ++
          (currencyAlphaOf cs b.currency).getD (text "?") ++ text ")") "money")
      else .ok ()
    | _, .duration d =>
      if (durationTotals d).1 ≠ 0 then
        .error (sortRaise 192 (verb ++ text (" cannot order a duration carrying months or years, because a month has" ++
          " no fixed length; use exact durations or dates.between")) "duration")
      else .ok ()
    | _, _ => .ok ()

/-- `values_all_sort_comparable`, the first ordinary value so far given. -/
def valuesAllSortComparable (cs : Currencies) (verb : Bytes) : Option Value → List Value → Except Raise Unit
  | _, [] => .ok ()
  | first, item :: items =>
    if valueSortComparable item = false then
      .error (sortRaise 96 (verb ++ text " supports only scalar array values") "invalid function call")
    else if valueSortRank item ≠ 0 then valuesAllSortComparable cs verb first items
    else
      match orderedWith cs verb (first.getD item) item with
      | .error r => .error r
      | .ok _ => valuesAllSortComparable cs verb (some (first.getD item)) items

def sortKey (key : CString) : Value → Value
  | .record fields => (findField key.bytes fields).getD .unknown
  | _ => .unknown

def isRecord : Value → Bool
  | .record _ => true
  | _ => false

/-- The key columns of `sort_keys_comparable`, one after the other. -/
def columnsComparable (cs : Currencies) (items : List Value) : List (CString × Bool) → Except Raise Unit
  | [] => .ok ()
  | (key, _) :: keys =>
    match valuesAllSortComparable cs ((text "sort by \x60" ++ key.bytes ++ text "\x60").take 159) none
      (items.map (sortKey key)) with
    | .error r => .error r
    | .ok _ => columnsComparable cs items keys

def sortKeysComparable (cs : Currencies) (items : List Value) (keys : List (CString × Bool)) : Except Raise Unit :=
  match items.findIdx? (fun v => !isRecord v) with
  | some i =>
    .error (sortRaise 224 (text "sort by \x60" ++ (keys.head?.map (fun k => k.1.bytes)).getD [] ++
      text "\x60 expects every element to be a record; element " ++ text (toString i) ++ text " is " ++
      kindPhrase ((items[i]?.map Value.kind).getD .null)) "invalid function call")
  | none => if items = [] then .ok () else columnsComparable cs items keys

def sortSpecComparable (cs : Currencies) (items : List Value) (spec : SortSpec) : Except Raise Unit :=
  if spec.keys ≠ [] then sortKeysComparable cs items spec.keys
  else valuesAllSortComparable cs (text "sort") none items

/-! ## Sorting -/

def sortRecordCompare : List (CString × Bool) → Value → Value → Ordering
  | [], _, _ => .eq
  | (key, descending) :: keys, left, right =>
    match sortValueCompare (sortKey key left) (sortKey key right) with
    | .eq => sortRecordCompare keys left right
    | c => if descending then c.swap else c

def sortSpecCompare (spec : SortSpec) (left right : Value) : Ordering :=
  if spec.keys ≠ [] then sortRecordCompare spec.keys left right
  else if spec.scalarDescending then (sortValueCompare left right).swap
  else sortValueCompare left right

/-- `sort_values_stable`: each pass writes the other buffer from one end to the other. -/
def sortValuesStable (spec : SortSpec) (items : List Value) : List Value :=
  if items.length < 2 then items else bottomUp (sortSpecCompare spec) items

/-- `sort_array_value`: the items of the sorted array. -/
def sortArrayValue (cs : Currencies) (array : Value) (spec : SortSpec) : Except Raise (List Value) :=
  match array with
  | .array _ items =>
    match sortSpecComparable cs items spec with
    | .error r => .error r
    | .ok _ => .ok (sortValuesStable spec items)
  | _ => .error ⟨text "sort expects an array", 1003, "invalid function call"⟩

/-! ## The order of a specification -/

def directed (descending : Bool) : Value → Value → Ordering :=
  if descending then fun v w => order w v else order

def orderKeys : List (CString × Bool) → Value → Value → Ordering
  | [] => fun _ _ => .eq
  | (key, descending) :: keys =>
    compareLex (fun v w => directed descending (sortKey key v) (sortKey key w)) (orderKeys keys)

/-- **The order asked for**: the keys' orders one after the other, those that descend the other way round. -/
def orderBy (spec : SortSpec) : Value → Value → Ordering :=
  if spec.keys = [] then directed spec.scalarDescending else orderKeys spec.keys

instance directed_trans (descending : Bool) : TransCmp (directed descending) := by
  rw [directed]
  split_ifs
  · infer_instance
  · infer_instance

instance onKey_trans {c : Value → Value → Ordering} [TransCmp c] (f : Value → Value) :
    TransCmp (fun v w => c (f v) (f w)) where
  eq_swap := fun {_ _} => @OrientedCmp.eq_swap _ c _ _ _
  isLE_trans := fun {_ _ _} => @TransCmp.isLE_trans _ c _ _ _ _

instance orderKeys_trans : ∀ keys : List (CString × Bool), TransCmp (orderKeys keys)
  | [] => { eq_swap := rfl, isLE_trans := fun _ h => h }
  | (key, descending) :: keys => by
    have := orderKeys_trans keys
    rw [orderKeys]
    infer_instance

instance orderBy_trans (spec : SortSpec) : TransCmp (orderBy spec) := by
  rw [orderBy]
  split_ifs
  · infer_instance
  · infer_instance

/-- The values that are compared with each other: the items, or the records' values of each key. -/
def columns (spec : SortSpec) (items : List Value) : List (List Value) :=
  if spec.keys = [] then [items] else spec.keys.map (fun k => items.map (sortKey k.1))

def Column (l : List Value) : Prop := ∃ f, ∀ v ∈ l, Fits f v ∨ valueSortRank v ≠ 0

/-! ## What is accepted has an order -/

theorem orderedWith_fits {cs : Currencies} {verb : Bytes} {f v : Value} (hc : valueSortComparable v = true)
    (hr : valueSortRank v = 0) (h : orderedWith cs verb f v = .ok ()) : Fits f v := by
  unfold orderedWith at h
  split_ifs at h with hk
  rw [not_not] at hk
  refine ⟨?_, hk.symm, ?_, ?_⟩
  · have hmem := of_decide_eq_true hc
    cases v <;> first | (exact absurd hr (by decide)) | (simp [Value.kind] at hmem ⊢)
  · rintro a b rfl rfl
    by_contra hno
    rw [not_and_or] at hno
    dsimp only at h
    rw [if_pos hno] at h
    cases h
  · rintro d rfl
    obtain ⟨e, rfl⟩ := kind_duration hk
    by_contra hno
    dsimp only at h
    rw [if_pos hno] at h
    cases h

theorem valuesAllSortComparable_column {cs : Currencies} {verb : Bytes} : ∀ {items : List Value} {first : Option Value},
    valuesAllSortComparable cs verb first items = .ok () →
      ∃ f, (∀ g, first = some g → f = g) ∧ ∀ v ∈ items, Fits f v ∨ valueSortRank v ≠ 0
  | [], first, _ => ⟨first.getD .null, fun g hg => by rw [hg]; rfl, fun v hv => by cases hv⟩
  | item :: items, first, h => by
    rw [valuesAllSortComparable] at h
    split_ifs at h with hc hr
    · obtain ⟨f, hf, hall⟩ := valuesAllSortComparable_column h
      refine ⟨f, hf, fun v hv => ?_⟩
      rcases List.mem_cons.1 hv with rfl | hv
      · exact Or.inr hr
      · exact hall v hv
    · rw [not_not] at hr
      rcases ho : orderedWith cs verb (first.getD item) item with r | u
      · rw [ho] at h
        cases h
      · rw [ho] at h
        obtain ⟨f, hf, hall⟩ := valuesAllSortComparable_column h
        have hfirst := hf _ rfl
        refine ⟨f, fun g hg => by rw [hfirst, hg]; rfl, fun v hv => ?_⟩
        rcases List.mem_cons.1 hv with rfl | hv
        · rw [hfirst]
          exact Or.inl (orderedWith_fits (by simpa using hc) hr ho)
        · exact hall v hv

theorem columnsComparable_column {cs : Currencies} {items : List Value} : ∀ {keys : List (CString × Bool)},
    columnsComparable cs items keys = .ok () → ∀ k ∈ keys, Column (items.map (sortKey k.1))
  | [], _, k, hk => by cases hk
  | (key, d) :: keys, h, k, hk => by
    rw [columnsComparable] at h
    split at h
    · cases h
    · next hcol =>
      rcases List.mem_cons.1 hk with rfl | hk
      · obtain ⟨f, -, hall⟩ := valuesAllSortComparable_column hcol
        exact ⟨f, hall⟩
      · exact columnsComparable_column h k hk

/-- **What sort accepts has an order, column by column.** -/
theorem sortSpecComparable_columns {cs : Currencies} {items : List Value} {spec : SortSpec}
    (h : sortSpecComparable cs items spec = .ok ()) : ∀ c ∈ columns spec items, Column c := by
  rw [sortSpecComparable] at h
  rw [columns]
  by_cases hk : spec.keys = []
  · rw [if_neg (not_not.2 hk)] at h
    rw [if_pos hk]
    intro c hc
    rw [List.mem_singleton.1 hc]
    obtain ⟨f, -, hall⟩ := valuesAllSortComparable_column h
    exact ⟨f, hall⟩
  · rw [if_pos hk, sortKeysComparable] at h
    rw [if_neg hk]
    intro c hc
    obtain ⟨k, hmem, rfl⟩ := List.mem_map.1 hc
    split at h
    · cases h
    · split_ifs at h with hempty
      · rw [hempty]
        exact ⟨.null, fun v hv => by cases hv⟩
      · exact columnsComparable_column h k hmem

theorem Column.compare {l : List Value} (h : Column l) {v w : Value} (hv : v ∈ l) (hw : w ∈ l) :
    sortValueCompare v w = order v w := by
  obtain ⟨f, hall⟩ := h
  exact sortValueCompare_order (hall v hv) (hall w hw)

theorem sortRecordCompare_orderKeys {items : List Value} {v w : Value} (hv : v ∈ items) (hw : w ∈ items) :
    ∀ {keys : List (CString × Bool)}, (∀ k ∈ keys, Column (items.map (sortKey k.1))) →
      sortRecordCompare keys v w = orderKeys keys v w
  | [], _ => rfl
  | (key, d) :: keys, h => by
    have hsame := (h (key, d) (List.mem_cons_self ..)).compare (List.mem_map_of_mem hv) (List.mem_map_of_mem hw)
    have hrest := sortRecordCompare_orderKeys hv hw (fun k hk => h k (List.mem_cons_of_mem _ hk))
    rw [sortRecordCompare, hsame]
    change _ = (directed d (sortKey key v) (sortKey key w)).then (orderKeys keys v w)
    rw [← hrest, directed]
    cases d
    · rw [if_neg Bool.false_ne_true]
      cases order (sortKey key v) (sortKey key w) <;> rfl
    · rw [if_pos rfl, @OrientedCmp.eq_swap _ order _ (sortKey key w)]
      cases order (sortKey key v) (sortKey key w) <;> rfl

/-- **Items of an accepted array compare by the order asked for.** -/
theorem sortSpecCompare_orderBy {items : List Value} {spec : SortSpec} (h : ∀ c ∈ columns spec items, Column c)
    {v w : Value} (hv : v ∈ items) (hw : w ∈ items) : sortSpecCompare spec v w = orderBy spec v w := by
  rw [sortSpecCompare, orderBy]
  rw [columns] at h
  by_cases hk : spec.keys = []
  · rw [if_neg (not_not.2 hk), if_pos hk]
    rw [if_pos hk] at h
    have hsame := (h items (List.mem_singleton.2 rfl)).compare hv hw
    rw [hsame, directed]
    split_ifs
    · exact (@OrientedCmp.eq_swap _ order _ _ _).symm
    · rfl
  · rw [if_pos hk, if_neg hk]
    rw [if_neg hk] at h
    exact sortRecordCompare_orderKeys hv hw (fun k hmem => h _ (List.mem_map_of_mem hmem))

/-- **Sort is stable and agrees with the language's order.**  What it makes of an array it accepts has the entries of
the array, none before one that it comes after in the order asked for, and those that are level as they stood; the order
is what `<` answers for two values of a column, and for any two numbers that of what they stand for. -/
theorem sort_sorted (cs : Currencies) (spec : SortSpec) (array : Value) (out : List Value)
    (h : sortArrayValue cs array spec = .ok out) : ∃ store items, array = .array store items ∧
      StableSorted (orderBy spec) items out ∧
      (∀ c ∈ columns spec items, ∀ v ∈ c, ∀ w ∈ c, valueSortRank v = 0 → valueSortRank w = 0 →
        (∀ n, v = .number n → key n ≠ .nan) → (∀ n, w = .number n → key n ≠ .nan) →
        evalLess cs v w = .bool (order v w = .lt)) ∧
      ∀ l r : Eval.Number, numberOrder l r = compare (key l).place (key r).place := by
  unfold sortArrayValue at h
  split at h
  · next store items =>
    split at h
    · cases h
    · next hok =>
      cases h
      have hcols := sortSpecComparable_columns hok
      refine ⟨store, items, rfl, ?_, ?_, numberOrder_place⟩
      · have hsame : sortValuesStable spec items = bottomUp (orderBy spec) items := by
          rw [sortValuesStable, ← bottomUp_congr (fun v hv w hw => sortSpecCompare_orderBy hcols hv hw)]
          split_ifs with hlt
          · rw [bottomUp, MergePasses.mergePasses, if_neg (by omega)]
          · rfl
        rw [hsame]
        exact bottomUp_spec items
      · intro c hc v hv w hw hrv hrw hnv hnw
        obtain ⟨f, hall⟩ := hcols c hc
        exact evalLess_order cs ((hall v hv).resolve_right (not_not.2 hrv)) ((hall w hw).resolve_right (not_not.2 hrw))
          hnv hnw
  · cases h

def infinity : Value := .number (.inexact 0x7FF0000000000000)

def notANumber : Value := .number (.inexact 0x7FF8000000000000)

/-- Downwards a NaN comes before infinity. -/
theorem sort_sorted_nan : StableSorted (orderBy ⟨[], true⟩) [infinity, notANumber] [notANumber, infinity] := by
  obtain ⟨store, items, harray, hsorted, -⟩ := sort_sorted Currencies.start ⟨[], true⟩ (.array 0 [infinity, notANumber])
    [notANumber, infinity] (by
      have hc : sortSpecCompare ⟨[], true⟩ infinity notANumber = .gt := by decide +kernel
      rw [show sortArrayValue _ _ _ = .ok (bottomUp (sortSpecCompare ⟨[], true⟩) _) from rfl,
        MergePasses.bottomUp_pair, hc]
      rfl)
  cases harray
  exact hsorted

end Same
end Gbasic
