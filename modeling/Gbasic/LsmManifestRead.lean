import Gbasic.LsmManifest
/-!
# LsmManifestRead — a manifest read back, and what is read as one

The decoder of a manifest's body takes just what spells a body (`spells_manifestBody`), so one equivalence
(`manifestRead_iff`) has both that what was written is read back and that what is read spells what a manifest holds.
-/
namespace Gbasic
namespace Raw

open Lsm (Status SEAL LEVELS U64)

/-! ## The body -/

theorem spells_getPair : Spells (fun c => getPair .machine c) PairOf := by
  refine (spells_getU64.bind (fun a => spells_getU64.bind (fun b => .pure (a, b)))).congr (fun x l => ?_)
  constructor
  · rintro ⟨a, l₁, l₂, rfl, ⟨ha, rfl⟩, b, l₃, l₄, rfl, ⟨hb, rfl⟩, rfl, rfl⟩
    rw [List.append_nil]
    exact ⟨⟨ha, hb⟩, rfl⟩
  · rintro ⟨⟨ha, hb⟩, rfl⟩
    exact ⟨_, _, _, rfl, ⟨ha, rfl⟩, _, _, [], (List.append_nil _).symm, ⟨hb, rfl⟩, rfl, rfl⟩

theorem pairOf_ne_nil (x : Nat × Nat) (l : List Byte) (h : PairOf x l) : l ≠ [] := by
  rw [h.2]
  intro he
  have hl := congrArg List.length he
  rw [List.length_append, length_lePut, length_lePut] at hl
  cases hl

theorem spells_fileRec : Spells (fun c => fileRec .machine c) FileOf := by
  refine (spells_getU64.bind (fun num => spells_getU64.bind (fun size => spells_getU64.bind (fun entries =>
    spells_getBytes.bind (fun smallest => spells_getU64.bind (fun smallSeq => spells_getBytes.bind (fun largest =>
    spells_getU64.bind (fun largeSeq => spells_getU64.bind (fun seqOver => spells_getU64.bind (fun ownBlob =>
    (spells_counted spells_getPair pairOf_ne_nil).bind (fun blobs =>
      .pure (FileRec.mk num size entries smallest smallSeq largest largeSeq seqOver ownBlob blobs)))))))))))).congr
    (fun r l => ?_)
  constructor
  · rintro ⟨num, _, _, rfl, ⟨h₁, rfl⟩, size, _, _, rfl, ⟨h₂, rfl⟩, entries, _, _, rfl, ⟨h₃, rfl⟩,
      smallest, a, _, rfl, ha, smallSeq, _, _, rfl, ⟨h₄, rfl⟩, largest, b, _, rfl, hb, largeSeq, _, _, rfl, ⟨h₅, rfl⟩,
      seqOver, _, _, rfl, ⟨h₆, rfl⟩, ownBlob, _, _, rfl, ⟨h₇, rfl⟩, blobs, m, _, rfl, hm, rfl, rfl⟩
    rw [List.append_nil]
    exact ⟨a, b, m, ha, hb, hm, ⟨h₁, h₂, h₃, h₄, h₅, h₆, h₇⟩, rfl⟩
  · rintro ⟨a, b, m, ha, hb, hm, ⟨h₁, h₂, h₃, h₄, h₅, h₆, h₇⟩, rfl⟩
    exact ⟨_, _, _, rfl, ⟨h₁, rfl⟩, _, _, _, rfl, ⟨h₂, rfl⟩, _, _, _, rfl, ⟨h₃, rfl⟩, _, _, _, rfl, ha,
      _, _, _, rfl, ⟨h₄, rfl⟩, _, _, _, rfl, hb, _, _, _, rfl, ⟨h₅, rfl⟩, _, _, _, rfl, ⟨h₆, rfl⟩,
      _, _, _, rfl, ⟨h₇, rfl⟩, _, _, [], (List.append_nil _).symm, hm, rfl, rfl⟩

theorem fileOf_ne_nil (r : FileRec) (l : List Byte) (h : FileOf r l) : l ≠ [] := by
  obtain ⟨a, b, m, -, -, -, -, rfl⟩ := h
  intro he
  have hl := congrArg List.length he
  rw [List.length_append, length_lePut] at hl
  have hn : ([] : List Byte).length = 0 := rfl
  omega

theorem spells_manifestBody : Spells (fun c => manifestBody .machine c) BodyOf := by
  refine (spells_getU64.bind (fun nextFile => spells_getU64.bind (fun logFirst => spells_getU64.bind (fun lastSeq =>
    (spells_times (spells_counted spells_fileRec fileOf_ne_nil) LEVELS).bind (fun levels =>
    (spells_counted spells_getPair pairOf_ne_nil).bind (fun dead =>
      .pure (Body.mk nextFile logFirst lastSeq levels dead))))))).congr (fun b l => ?_)
  constructor
  · rintro ⟨nextFile, _, _, rfl, ⟨h₁, rfl⟩, logFirst, _, _, rfl, ⟨h₂, rfl⟩, lastSeq, _, _, rfl, ⟨h₃, rfl⟩,
      levels, m, _, rfl, ⟨hl, hm⟩, dead, d, _, rfl, hd, rfl, rfl⟩
    rw [List.append_nil]
    exact ⟨m, d, hl, hm, hd, ⟨h₁, h₂, h₃⟩, rfl⟩
  · rintro ⟨m, d, hl, hm, hd, ⟨h₁, h₂, h₃⟩, rfl⟩
    exact ⟨_, _, _, rfl, ⟨h₁, rfl⟩, _, _, _, rfl, ⟨h₂, rfl⟩, _, _, _, rfl, ⟨h₃, rfl⟩, _, _, _, rfl, ⟨hl, hm⟩,
      _, _, [], (List.append_nil _).symm, hd, rfl, rfl⟩

/-! ## The header -/

theorem headerRead_ok {p : Buffer} {h : FileHeader} (hr : headerRead p = .ok h) :
    p.bytes.take 8 = GS_MAGIC ∧ p.get 76 4 = crc32c (p.bytes.take 76) ∧ p.get 8 2 = GS_FORMAT_MAJOR ∧
      PageSize (p.get 12 4) ∧ h = ⟨p.get 10 2, p.get 12 4, (p.window 16 16).bytes, p.get 40 4⟩ := by
  rw [headerRead] at hr
  by_cases h₁ : p.size < GS_HEADER_FIXED ∨ p.bytes.take 8 ≠ GS_MAGIC
  · rw [if_pos h₁] at hr
    cases hr
  rw [if_neg h₁] at hr
  by_cases h₂ : p.get 76 4 ≠ crc32c (p.bytes.take 76)
  · rw [if_pos h₂] at hr
    cases hr
  rw [if_neg h₂] at hr
  by_cases h₃ : p.get 8 2 ≠ GS_FORMAT_MAJOR
  · rw [if_pos h₃] at hr
    cases hr
  rw [if_neg h₃] at hr
  dsimp only at hr
  by_cases h₄ : PageSize (p.get 12 4)
  · rw [if_neg h₄] at hr
    cases hr
    exact ⟨not_not.1 (not_or.1 h₁).2, not_not.1 h₂, not_not.1 h₃, h₄, rfl⟩
  · rw [if_pos (not_not.1 h₄)] at hr
    cases hr

theorem headerRead_of {ps : Nat} {owner : List Byte} {p : Buffer} (h : HeaderOf ps owner p) :
    headerRead p = .ok ⟨GS_FORMAT_MINOR, ps, owner, p.get 40 4⟩ := by
  have hs : ¬ (p.size < GS_HEADER_FIXED ∨ p.bytes.take 8 ≠ GS_MAGIC) := by
    have h₁ := h.size
    exact not_or.2 ⟨by omega, not_not.2 h.magic⟩
  rw [headerRead, if_neg hs, if_neg (not_not.2 h.check), if_neg (not_not.2 h.major)]
  dsimp only
  rw [if_neg h.page, h.minor, h.block, h.identity]
  rfl

def Body.manifest (b : Body) (ps : Nat) (owner : List Byte) : Manifest where
  block := ps
  identity := owner
  nextFile := b.nextFile
  logFirst := b.logFirst
  lastSeq := b.lastSeq
  files := filesOf b.levels
  blob := blobOf b.levels
  dead := b.dead

/-- **A manifest of minor version 0 is read just where its bytes spell a body under a header that passes.** -/
theorem manifestRead_iff {p : Buffer} (hm : p.get 10 2 = GS_FORMAT_MINOR) (y : Manifest) :
    manifestRead .machine p = .ok y ↔
      ∃ b ps owner, HeaderOf ps owner p ∧
        BodyOf b ((p.bytes.take (p.size - 4)).drop (GS_HEADER_FIXED + MANIFEST_SEAL)) ∧ y = b.manifest ps owner := by
  let c₀ : Cursor := (p.window 0 (p.size - 4)).cursor.advance (GS_HEADER_FIXED + MANIFEST_SEAL)
  have hrest : c₀.rest = (p.bytes.take (p.size - 4)).drop (GS_HEADER_FIXED + MANIFEST_SEAL) := rfl
  have hb (b : Body) (c' : Cursor) : manifestBody .machine c₀ = .ok (b, c') ↔
      ∃ l, BodyOf b l ∧ c₀.rest = l ++ c'.rest ∧ c'.pos = c₀.pos + l.length := spells_manifestBody c₀ b c'
  rw [← hrest]
  constructor
  · intro hr
    rw [manifestRead] at hr
    by_cases h₁ : p.size < GS_HEADER_FIXED + MANIFEST_SEAL + 4 ∨
        p.get (p.size - 4) 4 ≠ crc32c (p.bytes.take (p.size - 4))
    · rw [if_pos h₁] at hr
      cases hr
    rw [if_neg h₁] at hr
    rcases hh : headerRead p with stop | h
    · rw [hh] at hr
      cases hr
    obtain ⟨g₁, g₂, g₃, g₄, rfl⟩ := headerRead_ok hh
    rw [hh] at hr
    change (if p.get 40 4 % 2 = 1 then format else _) = _ at hr
    by_cases h₂ : p.get 40 4 % 2 = 1
    · rw [if_pos h₂] at hr
      cases hr
    rw [if_neg h₂] at hr
    rcases hbody : manifestBody .machine c₀ with stop | ⟨b, c'⟩
    · rw [hbody] at hr
      cases hr
    rw [hbody] at hr
    change (if c'.rest = [] ∨ GS_FORMAT_MINOR < p.get 10 2 then _ else corrupt) = _ at hr
    by_cases h₃ : c'.rest = [] ∨ GS_FORMAT_MINOR < p.get 10 2
    · rw [if_pos h₃] at hr
      cases hr
      have he : c'.rest = [] := h₃.resolve_right (by omega)
      obtain ⟨l, hl, hcr, -⟩ := (hb b c').1 hbody
      rw [he, List.append_nil] at hcr
      refine ⟨b, _, _, ⟨by omega, not_not.1 (not_or.1 h₁).2, g₁, g₂, g₃, hm, g₄, rfl, rfl, by omega⟩, ?_, rfl⟩
      rw [hcr]
      exact hl
    · rw [if_neg h₃] at hr
      cases hr
  · rintro ⟨b, ps, owner, hh, hbody, rfl⟩
    let c' : Cursor := ⟨c₀.pos + c₀.rest.length, [], by have := c₀.small; simpa using this⟩
    have hr : manifestBody .machine c₀ = .ok (b, c') := (hb b c').2 ⟨c₀.rest, hbody, (List.append_nil _).symm, rfl⟩
    have hs : ¬ (p.size < GS_HEADER_FIXED + MANIFEST_SEAL + 4 ∨
        p.get (p.size - 4) 4 ≠ crc32c (p.bytes.take (p.size - 4))) := by
      have h₁ := hh.size
      exact not_or.2 ⟨by omega, not_not.2 hh.covered⟩
    have hf : ¬ p.get 40 4 % 2 = 1 := by
      rw [hh.flags]
      decide
    rw [manifestRead, if_neg hs, headerRead_of hh]
    change (if p.get 40 4 % 2 = 1 then format else manifestBody .machine c₀ >>= _) = _
    rw [if_neg hf, hr]
    rfl

end Raw
end Gbasic
