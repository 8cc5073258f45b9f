import Gbasic.Serialize
/-!
# SerializeSafe — reading any bytes at all

Whatever the bytes, every read is inside the string and moves forward (`Safe`), so `deserialize` answers a value or a
refusal.  What it accepts it has read to the end.
-/
namespace Gbasic
namespace Eval

structure SerReader.Inside (r : SerReader) : Prop where
  pos : r.pos ≤ r.data.length
  size : r.data.length < 2 ^ 63

def Safe {α : Type} (m : Rd α) : Prop :=
  ∀ r : SerReader, r.Inside → ∃ a r', m r = some (a, r') ∧ r'.Inside ∧ r'.data = r.data ∧ r.pos ≤ r'.pos

section
variable {α β : Type} {P : Program} {cs : Currencies}

theorem bind_some {p : Rd α} {r r' : SerReader} {a : α} (h : p r = some (a, r')) (q : α → Rd β) :
    (p >>= q) r = q a r' := by
  show (p r).bind (fun x => q x.1 x.2) = q a r'
  rw [h]
  rfl

theorem Safe.pure (a : α) : Safe (pure a) := fun r hr => ⟨a, r, rfl, hr, rfl, le_rfl⟩

theorem Safe.bind {p : Rd α} {q : α → Rd β} (hp : Safe p) (hq : ∀ a, Safe (q a)) : Safe (p >>= q) := by
  intro r hr
  obtain ⟨a, r₁, h₁, hr₁, hdata₁, hpos₁⟩ := hp r hr
  obtain ⟨b, r₂, h₂, hr₂, hdata₂, hpos₂⟩ := hq a r₁ hr₁
  exact ⟨b, r₂, (bind_some h₁ q).trans h₂, hr₂, hdata₂.trans hdata₁, hpos₁.trans hpos₂⟩

theorem Safe.ite {c : Prop} [Decidable c] {p q : Rd α} (hp : Safe p) (hq : Safe q) : Safe (if c then p else q) := by
  split_ifs
  · exact hp
  · exact hq

theorem safe_corrupt (a : α) : Safe (corrupt a) := fun _ hr => ⟨a, _, rfl, ⟨hr.pos, hr.size⟩, rfl, le_rfl⟩

theorem safe_serOk : Safe serOk := fun r hr => ⟨r.ok, r, rfl, hr, rfl, le_rfl⟩

theorem safe_serVersion : Safe serVersion := fun r hr => ⟨r.version, r, rfl, hr, rfl, le_rfl⟩

theorem safe_serFits (n : Nat) : Safe (serFits n) := fun r hr => ⟨_, r, rfl, hr, rfl, le_rfl⟩

/-- A reader that has passed some bytes. -/
def SerReader.past (r : SerReader) (n : Nat) : SerReader := { r with pos := r.pos + n }

theorem serSlice_run {r : SerReader} {n : Nat} (hr : r.Inside) (hn : r.pos + n ≤ r.data.length) :
    serSlice n r = some ((r.data.drop r.pos).take n, r.past n) := by
  have hmod : (r.pos + n) % 2 ^ 64 = r.pos + n := Nat.mod_eq_of_lt (by have := hr.size; omega)
  rw [serSlice, fetch, if_pos hn, Option.map_some, hmod]
  rfl

theorem serreadBytes_run {r : SerReader} {n : Nat} (hr : r.Inside) (hok : r.ok = true)
    (hn : r.pos + n ≤ r.data.length) : serreadBytes n r = some (some ((r.data.drop r.pos).take n), r.past n) := by
  have hmod : (r.pos + n) % 2 ^ 64 = r.pos + n := Nat.mod_eq_of_lt (by have := hr.size; omega)
  rw [serreadBytes, hmod, if_neg (by simp [hok, hn]), serSlice_run hr hn]
  rfl

theorem serFits_run {r : SerReader} {n : Nat} (hr : r.Inside) (hok : r.ok = true) (hn : r.pos + n ≤ r.data.length) :
    serFits n r = some (true, r) := by
  have hroom : n ≤ (r.data.length + 2 ^ 64 - r.pos) % 2 ^ 64 := by
    have := hr.size
    omega
  rw [serFits, hok, decide_eq_true hroom]
  rfl

theorem room_of_fits {r : SerReader} {n : Nat} (hr : r.Inside)
    (h : n ≤ (r.data.length + 2 ^ 64 - r.pos) % 2 ^ 64) : r.pos + n ≤ r.data.length := by
  have hpos := hr.pos
  have hsize := hr.size
  omega

theorem safe_serreadBytes {n : Nat} (hn : n < 2 ^ 63) : Safe (serreadBytes n) := by
  intro r hr
  have hpos := hr.pos
  have hsize := hr.size
  by_cases hbad : r.ok = false ∨ r.data.length < r.pos + n
  · have hmod : (r.pos + n) % 2 ^ 64 = r.pos + n := Nat.mod_eq_of_lt (by omega)
    refine ⟨none, { r with ok := false }, ?_, ⟨hpos, hsize⟩, rfl, le_rfl⟩
    rw [serreadBytes, hmod, if_pos hbad]
    rfl
  · rw [not_or, not_lt, Bool.not_eq_false] at hbad
    exact ⟨_, _, serreadBytes_run hr hbad.1 hbad.2, ⟨hbad.2, hsize⟩, rfl, Nat.le_add_right ..⟩

theorem safe_serreadU8 : Safe serreadU8 := (safe_serreadBytes (by omega)).bind (fun _ => .pure _)

theorem safe_serreadLe {w : Nat} (hw : w < 2 ^ 63) : Safe (serreadLe w) :=
    (safe_serreadBytes hw).bind (fun _ => .pure _)

theorem safe_serreadUlebFrom : ∀ n shift v, Safe (serreadUlebFrom n shift v)
  | 0, _, _ => safe_corrupt 0
  | n + 1, shift, v => by
    refine safe_serreadU8.bind (fun b => safe_serOk.bind (fun ok => .ite (.pure _)
      (.ite (safe_corrupt 0) (.ite (.pure _) ?_))))
    exact safe_serreadUlebFrom n (shift + 7) _

theorem safe_serreadI32 : Safe serreadI32 := (safe_serreadLe (by omega)).bind (fun _ => .pure _)

theorem safe_serreadCount : Safe serreadCount :=
  safe_serVersion.bind (fun _ => .ite (safe_serreadUlebFrom 10 0 0) (safe_serreadLe (by omega)))

theorem safe_serreadBlob : Safe serreadBlob := by
  refine safe_serreadCount.bind (fun len => ?_)
  intro r hr
  rcases hfit : r.ok && decide (len ≤ (r.data.length + 2 ^ 64 - r.pos) % 2 ^ 64) with _ | _
  · have hfalse : serFits len r = some (false, r) := by rw [serFits, hfit]
    refine ⟨none, { r with ok := false }, ?_, ⟨hr.pos, hr.size⟩, rfl, le_rfl⟩
    rw [bind_some hfalse]
    rfl
  · rw [Bool.and_eq_true, decide_eq_true_iff] at hfit
    have hn := room_of_fits hr hfit.2
    refine ⟨some ((r.data.drop r.pos).take len), r.past len, ?_, ⟨hn, hr.size⟩, rfl, Nat.le_add_right ..⟩
    rw [bind_some (serFits_run hr hfit.1 hn), if_neg (by simp), bind_some (serSlice_run hr hn)]
    rfl

/-! ## Every kind -/

theorem safe_deserNumber : Safe (deserNumber P) := by
  refine safe_serVersion.bind (fun version => .ite ?_ ?_)
  · refine safe_serreadU8.bind (fun exact => (safe_serreadLe (by omega)).bind
      (fun bits => safe_serOk.bind (fun ok => ?_)))
    exact .ite (safe_corrupt _) (.ite (.pure _) (.pure _))
  · exact (safe_serreadLe (by omega)).bind (fun bits => .pure _)

theorem safe_deserString (tag : Nat) : Safe (deserString P tag) := by
  refine safe_serreadBlob.bind (fun b => ?_)
  cases b with
  | none => exact .pure _
  | some b => exact .ite (.pure _) (.ite (.pure _) (.pure _))

theorem safe_deserDateTime : Safe (deserDateTime P) := by
  refine safe_serVersion.bind (fun version => .ite ?_ ?_)
  · refine safe_serreadI32.bind (fun _ => safe_serreadI32.bind (fun _ => safe_serreadI32.bind (fun _ => ?_)))
    refine safe_serreadI32.bind (fun _ => safe_serreadI32.bind (fun _ => safe_serreadI32.bind (fun _ => ?_)))
    refine safe_serreadU8.bind (fun _ => safe_serreadU8.bind (fun _ => safe_serOk.bind (fun _ => ?_)))
    exact .ite (safe_corrupt _) (.pure _)
  · exact (safe_serreadBytes (by omega)).bind (fun _ => .pure _)

theorem safe_deserDuration : Safe (deserDuration P) := by
  refine safe_serVersion.bind (fun version => .ite ?_ ?_)
  · refine safe_serreadI32.bind (fun _ => safe_serreadI32.bind (fun _ => safe_serreadI32.bind (fun _ => ?_)))
    refine safe_serreadI32.bind (fun _ => safe_serreadI32.bind (fun _ => safe_serreadI32.bind (fun _ => ?_)))
    exact safe_serreadI32.bind (fun _ => safe_serOk.bind (fun _ => .ite (.pure _) (.pure _)))
  · exact (safe_serreadBytes (by omega)).bind (fun _ => .pure _)

theorem safe_deserMoney : Safe (deserMoney P cs) := by
  refine safe_serVersion.bind (fun version => .ite ?_ ?_)
  · refine (safe_serreadLe (by omega)).bind (fun _ => safe_serreadU8.bind (fun _ => ?_))
    refine (safe_serreadLe (by omega)).bind (fun _ => safe_serreadU8.bind (fun alen => safe_serOk.bind (fun _ => ?_)))
    refine .ite (safe_corrupt _) ((safe_serreadBytes (by have := alen.isLt; omega)).bind (fun alpha => ?_))
    cases alpha with
    | none => exact safe_corrupt _
    | some alpha => exact .pure _
  · refine safe_serVersion.bind (fun version => .ite ?_ ?_)
    · exact (safe_serreadLe (by omega)).bind (fun _ => (safe_serreadLe (by omega)).bind (fun _ =>
        safe_serreadU8.bind (fun _ => .pure _)))
    · exact (safe_serreadLe (by omega)).bind (fun _ => .pure _)

theorem safe_deserActor : Safe (deserActor P) :=
  safe_serreadCount.bind (fun _ => safe_serOk.bind (fun _ => .ite (.pure _) (safe_corrupt _)))

theorem safe_deserFunction : Safe (deserFunction P) := by
  refine safe_serreadBlob.bind (fun name => ?_)
  cases name with
  | none => exact .pure _
  | some name =>
    refine safe_serreadU8.bind (fun _ => safe_serOk.bind (fun _ => ?_))
    refine Safe.bind (.ite safe_serreadBlob (.pure _)) (fun library => safe_serOk.bind (fun _ => .ite (.pure _) ?_))
    exact .ite (.pure _) (safe_corrupt _)

theorem safe_deserRegex : Safe (deserRegex P) := by
  refine safe_serreadBlob.bind (fun pattern => ?_)
  cases pattern with
  | none => exact .pure _
  | some pattern =>
    refine safe_serreadBlob.bind (fun flags => ?_)
    cases flags with
    | none => exact .pure _
    | some flags =>
      dsimp only
      split
      · exact safe_corrupt _
      · exact .pure _

/-! ## Parts, and values in values -/

theorem safe_deserItems {read : Rd (Value P)} (hread : Safe read) : ∀ n, Safe (deserItems P read n)
  | 0 => .pure _
  | n + 1 => hread.bind (fun _ => safe_serOk.bind (fun _ => .ite (.pure _)
      ((safe_deserItems hread n).bind (fun _ => .pure _))))

theorem safe_deserFields {read : Rd (Value P)} (hread : Safe read) : ∀ n, Safe (deserFields P read n)
  | 0 => .pure _
  | n + 1 => by
    refine safe_serreadBlob.bind (fun name => ?_)
    cases name with
    | none => exact .pure _
    | some name =>
      refine hread.bind (fun _ => safe_serOk.bind (fun _ => .ite (.pure _) ?_))
      exact (safe_deserFields hread n).bind (fun _ => .pure _)

theorem safe_deserArray {read : Rd (Value P)} (hread : Safe read) : Safe (deserArray P read) := by
  refine safe_serreadCount.bind (fun count => (safe_serFits count).bind (fun _ => .ite (safe_corrupt _) ?_))
  refine (safe_deserItems hread count).bind (fun items => ?_)
  cases items with
  | none | some => exact .pure _

theorem safe_deserRecord {read : Rd (Value P)} (hread : Safe read) : Safe (deserRecord P read) := by
  refine safe_serreadCount.bind (fun count => (safe_serFits count).bind (fun _ => .ite (safe_corrupt _) ?_))
  refine (safe_deserFields hread count).bind (fun fields => ?_)
  cases fields with
  | none | some => exact .pure _

theorem safe_deserKind {read : Rd (Value P)} (hread : Safe read) (tag : Nat) : Safe (deserKind P cs read tag) := by
  unfold deserKind
  refine .ite (.pure _) (.ite (.pure _) (.ite (safe_serreadU8.bind (fun _ => .pure _)) (.ite safe_deserNumber ?_)))
  refine .ite (safe_deserString tag) (.ite (safe_deserArray hread) (.ite (safe_deserRecord hread) ?_))
  refine .ite safe_deserDateTime (.ite safe_deserDuration (.ite safe_deserMoney (.ite safe_deserActor ?_)))
  exact .ite safe_deserFunction (.ite safe_deserRegex (safe_corrupt _))

/-- **Reading a value is inside the string at every depth.** -/
theorem safe_deserializeValue : ∀ left, Safe (deserializeValue P cs left)
  | 0 => safe_corrupt _
  | left + 1 => by
    refine safe_serOk.bind (fun _ => .ite (safe_corrupt _)
      (safe_serreadU8.bind (fun tag => safe_serOk.bind (fun _ => ?_))))
    exact .ite (.pure _) (safe_deserKind (safe_deserializeValue left) _)

/-- The value was read from the bytes after the version, to their end. -/
def ReadWhole (P : Program) (cs : Currencies) (data : Bytes) (v : Value P) : Prop :=
  ∃ version r, deserializeValue P cs (SER_MAX_DEPTH + 1) ⟨data, 4, true, version⟩ = some (v, r) ∧ r.data = data ∧
    r.ok = true ∧ r.pos = data.length

theorem header_byte {data : Bytes} (pos : Nat) (hpos : pos < data.length) (hsize : data.length < 2 ^ 63) :
    serreadU8 ⟨data, pos, true, 0⟩ = some (data[pos], ⟨data, pos + 1, true, 0⟩) := by
  have hin : (⟨data, pos, true, 0⟩ : SerReader).Inside := ⟨Nat.le_of_lt hpos, hsize⟩
  rw [serreadU8, bind_some (serreadBytes_run hin rfl hpos)]
  simp only [Option.bind_some, List.head?_take, List.head?_drop]
  rw [if_neg (by omega), List.getElem?_eq_getElem hpos]
  rfl

/-- **Any bytes are answered**, and what is accepted is read to the end. -/
theorem deserialize_answers {data : Bytes} (hsize : data.length < 2 ^ 63) :
    ∃ a, deserialize P cs data = some a ∧ ∀ v, a = .ok v → ReadWhole P cs data v := by
  unfold deserialize
  split_ifs with hlen
  · exact ⟨_, rfl, fun v hv => by cases hv⟩
  have h0 := header_byte 0 (by omega) hsize
  have h1 := header_byte 1 (by omega) hsize
  have h2 := header_byte 2 (by omega) hsize
  have h3 := header_byte 3 (by omega) hsize
  simp only [h0, h1, h2, h3, Option.bind_eq_bind, Option.bind_some]
  split_ifs with hbad
  · exact ⟨_, rfl, fun v hv => by cases hv⟩
  obtain ⟨v, r, hv, hr, hdata, -⟩ := safe_deserializeValue (P := P) (SER_MAX_DEPTH + 1) ⟨data, 4, true, data[3].val⟩
    ⟨by show 4 ≤ data.length; omega, hsize⟩
  rw [hv]
  simp only [Option.bind_some]
  split_ifs with hend
  · exact ⟨_, rfl, fun v hv => by cases hv⟩
  · rw [not_or, not_not, Bool.not_eq_false] at hend
    refine ⟨_, rfl, fun w hw => ?_⟩
    cases hw
    exact ⟨_, r, hv, hdata, hend.1, by rw [hend.2, hdata]⟩

end
end Eval
end Gbasic
