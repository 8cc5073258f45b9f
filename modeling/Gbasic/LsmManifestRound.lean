import Gbasic.CrcSame
import Gbasic.LsmManifestRead
/-!
# LsmManifestRound — the manifest's round trip

What `manifest_write` makes of a store spells what the store saves, so reading it gives that back; and of the manifests
of minor version 0 only those that spell what a store may save are read.
-/
namespace Gbasic
namespace Raw

open Lsm (Status SEAL LEVELS U64)
open List (append_assoc length_append)

variable {p : Buffer} {l : List Byte}

/-! ## References -/

theorem refs_blobRef (num k : Nat) : ∀ b : List (Nat × Nat),
    refs num (blobRef k b) = refs num b + if k = num then 1 else 0
  | [] => by
    by_cases h : k = num <;> simp [refs, blobRef, h]
  | (n, r) :: b => by
    have ih := refs_blobRef num k b
    rw [blobRef]
    by_cases hk : n = k
    · rw [if_pos hk]
      subst hk
      by_cases hn : n = num <;> simp [refs, hn]
    · rw [if_neg hk]
      by_cases hn : n = num
      · have hkn : ¬ k = num := fun h => hk (hn.trans h.symm)
        simp [refs, hn, hkn]
      · simpa [refs, hn] using ih

theorem refs_foldl (num : Nat) : ∀ (xs : List (Nat × Nat)) (b : List (Nat × Nat)),
    refs num (xs.foldl (fun b x => blobRef x.1 b) b) = refs num b + (xs.map (·.1)).count num
  | [], b => by simp
  | x :: xs, b => by
    rw [List.foldl_cons, refs_foldl num xs, refs_blobRef, List.map_cons, List.count_cons]
    simp only [beq_iff_eq]
    omega

theorem refs_blobOf (num : Nat) (levels : List (List FileRec)) : refs num (blobOf levels) = listed num levels := by
  have h : ∀ (fs : List FileRec) (b : List (Nat × Nat)),
      refs num (fs.foldl (fun b f => f.blobs.foldl (fun b x => blobRef x.1 b) b) b) =
        refs num b + (fs.flatMap (fun r => r.blobs.map (·.1))).count num := by
    intro fs
    induction fs with
    | nil => simp
    | cons f fs ih =>
      intro b
      rw [List.foldl_cons, ih, refs_foldl, List.flatMap_cons, List.count_append]
      omega
  rw [blobOf, h, listed]
  simp [refs]

theorem perm_filesOf (levels : List (List FileRec)) : (filesOf levels).flatten.Perm levels.flatten := by
  have h : ∀ (l : List (List FileRec)) (k : Nat),
      (l.mapIdx (fun i fs => fs.foldl (versionAdd (i + k)) [])).flatten.Perm l.flatten := by
    intro l
    induction l with
    | nil => exact fun _ => .refl _
    | cons fs l ih =>
      intro k
      rw [List.mapIdx_cons, List.flatten_cons, List.flatten_cons]
      refine (perm_foldl_versionAdd fs []).append ?_
      simpa [Nat.add_assoc, Nat.add_comm 1 k] using ih (k + 1)
  exact h levels 0

theorem listed_filesOf (num : Nat) (levels : List (List FileRec)) : listed num (filesOf levels) = listed num levels :=
  ((perm_filesOf levels).flatMap_right _).count_eq num

theorem listed_once (num : Nat) : ∀ fs : List FileRec, (∀ r ∈ fs, (r.blobs.map (·.1)).Nodup) →
    (fs.flatMap (fun r => r.blobs.map (·.1))).count num = fs.countP (fun r => num ∈ r.blobs.map (·.1))
  | [], _ => rfl
  | r :: fs, h => by
    rw [List.flatMap_cons, List.count_append, List.countP_cons,
      listed_once num fs (fun r' hr => h r' (List.mem_cons_of_mem r hr)), (h r (List.mem_cons_self ..)).count]
    simp only [decide_eq_true_eq]
    omega

/-! ## What is written -/

theorem crc32c_lt (l : List Byte) : crc32c l < 2 ^ 32 := by
  rw [Crc.crc32c_eq]
  exact BitVec.isLt _

theorem get_append {a b : List Byte} {off w n : Nat} (hp : p.bytes = a ++ (lePut w n ++ b)) (ha : a.length = off)
    (hn : n < 256 ^ w) : p.get off w = n := by
  have hw : (p.window off w).bytes = lePut w n := by
    show (p.bytes.drop off).take w = _
    rw [hp, ← ha, List.drop_left, List.take_append_of_le_length (by rw [length_lePut]),
      List.take_of_length_le (by rw [length_lePut])]
  rw [Buffer.get, hw, leNat_lePut w n hn]

theorem length_headerBytes {h : FileHeader} (hi : h.identity.length = 16) (major created : Nat) :
    (headerBytes h major created).length = 76 := by
  have hm : GS_MAGIC.length = 8 := by decide
  simp [headerBytes, hi, hm]

/-- The header written, in a manifest whose checksum is right. -/
theorem headerOf_write {ps created : Nat} {owner : List Byte} (hps : ps < 2 ^ 32) (hpage : PageSize ps)
    (ho : owner.length = 16) (hl : MANIFEST_SEAL ≤ l.length)
    (hp : p.bytes = (headerWrite ⟨GS_FORMAT_MINOR, ps, owner, 0⟩ GS_FORMAT_MAJOR created ++ l) ++
      lePut 4 (crc32c (headerWrite ⟨GS_FORMAT_MINOR, ps, owner, 0⟩ GS_FORMAT_MAJOR created ++ l))) :
    HeaderOf ps owner p := by
  have hm : GS_MAGIC.length = 8 := by decide
  have hlen := length_headerBytes (h := ⟨GS_FORMAT_MINOR, ps, owner, 0⟩) ho GS_FORMAT_MAJOR created
  have hsize : p.size = GS_HEADER_FIXED + l.length + 4 := by
    rw [Buffer.size, hp]
    simp [headerWrite, hlen, GS_HEADER_FIXED]
    omega
  have htake : p.bytes.take (p.size - 4) =
      headerWrite ⟨GS_FORMAT_MINOR, ps, owner, 0⟩ GS_FORMAT_MAJOR created ++ l := by
    rw [hsize, hp, List.take_left']
    simp [headerWrite, hlen, GS_HEADER_FIXED]
    omega
  have hps' : p.get 12 4 = ps :=
    get_append (a := GS_MAGIC ++ lePut 2 GS_FORMAT_MAJOR ++ lePut 2 GS_FORMAT_MINOR)
      (by rw [hp]; simp only [headerWrite, headerBytes, append_assoc]; rfl) (by simp [hm]) hps
  refine ⟨by omega, ?_, ?_, ?_, ?_, ?_, ?_, hps', ?_, ?_⟩
  · rw [htake]
    refine get_append (b := []) (by rw [List.append_nil]; exact hp) ?_ (crc32c_lt _)
    rw [hsize]
    simp [headerWrite, hlen, GS_HEADER_FIXED]
    omega
  · rw [hp]
    simp only [headerWrite, headerBytes, append_assoc]
    rw [List.take_append_of_le_length (by rw [hm]), List.take_of_length_le (by rw [hm])]
  · have ht : p.bytes.take 76 = headerBytes ⟨GS_FORMAT_MINOR, ps, owner, 0⟩ GS_FORMAT_MAJOR created := by
      rw [hp]
      simp only [headerWrite, append_assoc]
      rw [List.take_append_of_le_length (by rw [hlen]), List.take_of_length_le (by rw [hlen])]
    rw [ht]
    exact get_append (by rw [hp]; simp only [headerWrite, append_assoc]; rfl) hlen (crc32c_lt _)
  · exact get_append (by rw [hp]; simp only [headerWrite, headerBytes, append_assoc]; rfl) hm (by decide)
  · exact get_append (a := GS_MAGIC ++ lePut 2 GS_FORMAT_MAJOR)
      (by rw [hp]; simp only [headerWrite, headerBytes, append_assoc]; rfl) (by simp [hm]) (by decide)
  · rw [hps']
    exact hpage
  · show (p.bytes.drop 16).take 16 = owner
    rw [hp]
    simp only [headerWrite, headerBytes, ← append_assoc]
    simp only [append_assoc (GS_MAGIC ++ lePut 2 GS_FORMAT_MAJOR ++ lePut 2 GS_FORMAT_MINOR ++ lePut 4 ps)]
    rw [List.drop_left' (by simp [hm])]
    simp only [append_assoc]
    rw [List.take_left' ho]
  · have hz : p.get 40 4 = 0 :=
      get_append (a := GS_MAGIC ++ lePut 2 GS_FORMAT_MAJOR ++ lePut 2 GS_FORMAT_MINOR ++ lePut 4 ps ++ owner ++
        lePut 8 created) (by rw [hp]; simp only [headerWrite, headerBytes, append_assoc]; rfl)
        (by simp [hm, ho]) (by decide)
    rw [hz]

theorem row_flatMap {α : Type} {R : α → List Byte → Prop} {put : α → List Byte} : ∀ {as : List α},
    (∀ a ∈ as, R a (put a)) → Row R as (as.flatMap put)
  | [], _ => .nil
  | a :: _, h => .cons (h a (List.mem_cons_self ..)) (row_flatMap (fun b hb => h b (List.mem_cons_of_mem a hb)))

theorem counted_putAll {α : Type} {R : α → List Byte → Prop} {put : α → List Byte} {as : List α}
    (hl : as.length < U64) (h : ∀ a ∈ as, R a (put a)) : CountedOf R as (putAll put as) :=
  ⟨_, row_flatMap h, hl, rfl⟩

theorem stringOf_putBytes {s : List Byte} (h : s.length < U64) : StringOf s (putBytes s) := by
  refine ⟨uleb s.length, ?_, rfl⟩
  have hu := ulebGet_uleb s.length [] h
  rwa [List.append_nil] at hu

theorem fileOf_putFile {r : FileRec} (h : r.Fits) : FileOf r (putFile r) :=
  ⟨_, _, _, stringOf_putBytes h.smallest, stringOf_putBytes h.largest,
    counted_putAll h.blobs (fun x hx => ⟨h.each x hx, rfl⟩),
    ⟨h.num, h.size, h.entries, h.smallSeq, h.largeSeq, h.seqOver, h.ownBlob⟩, rfl⟩

theorem filesOf_files (x : Saved) : filesOf x.files = x.files := by
  refine List.ext_getElem (by simp [filesOf]) (fun i h₁ h₂ => ?_)
  simp only [filesOf, List.getElem_mapIdx]
  rw [foldl_versionAdd _ [] (fun hi => ?_), List.nil_append]
  obtain ⟨j, rfl⟩ := Nat.exists_eq_succ_of_ne_zero hi
  exact x.sorted j _ (List.getElem?_eq_getElem h₂)

/-- **The manifest written spells what it holds.** -/
theorem image_write (x : Saved) (hp : p.bytes = x.write) (hb : PageSize x.block) : Image x p := by
  have hlen := length_headerBytes (h := ⟨GS_FORMAT_MINOR, x.block, x.identity, 0⟩) x.identityLength GS_FORMAT_MAJOR 0
  have hh : x.header.length = GS_HEADER_FIXED := by simp [Saved.header, headerWrite, hlen, GS_HEADER_FIXED]
  refine ⟨headerOf_write (l := List.replicate MANIFEST_SEAL (byte 0) ++ x.body) x.blockFits hb x.identityLength
    (by simp) hp, x.files, filesOf_files x, ?_⟩
  have hsize : p.size - 4 = x.covered.length := by
    rw [Buffer.size, hp, Saved.write, length_append, length_lePut, Nat.add_sub_cancel]
  have hrest : (p.bytes.take (p.size - 4)).drop (GS_HEADER_FIXED + MANIFEST_SEAL) = x.body := by
    rw [hsize, hp, Saved.write, List.take_left, Saved.covered, ← append_assoc]
    refine List.drop_left' ?_
    rw [length_append, hh, List.length_replicate]
  rw [hrest]
  refine ⟨_, _, x.levels, row_flatMap (fun l hl => ?_),
    counted_putAll x.deadFits.1 (fun d hd => ⟨x.deadFits.2 d hd, rfl⟩), x.numbers, rfl⟩
  exact counted_putAll (x.fits l hl).1 (fun r hr => fileOf_putFile ((x.fits l hl).2 r hr))

theorem image_read {x : Saved} (h : Image x p) : ∃ y, manifestRead .machine p = .ok y ∧ ReadsBack x y := by
  obtain ⟨hh, levels, hf, hb⟩ := h
  refine ⟨_, (manifestRead_iff hh.minor _).2 ⟨_, _, _, hh, hb, rfl⟩, rfl, rfl, rfl, rfl, rfl, hf, fun num => ?_, rfl⟩
  show refs num (blobOf levels) = _
  rw [refs_blobOf, ← hf, listed_filesOf]

/-! ## What is read -/

theorem Row.mem {α : Type} {R : α → List Byte → Prop} {a : α} : ∀ {as : List α} {m : List Byte}, Row R as m → a ∈ as →
    ∃ l, R a l ∧ l.length ≤ m.length
  | _, _, .nil, h => by cases h
  | _, _, .cons (l := l) (m := m) h t, ha => by
    rcases List.mem_cons.1 ha with rfl | ha
    · exact ⟨l, h, by rw [length_append]; omega⟩
    · obtain ⟨l', hl', hle⟩ := t.mem ha
      exact ⟨l', hl', by rw [length_append]; omega⟩

theorem CountedOf.mem {α : Type} {R : α → List Byte → Prop} {a : α} {as : List α} (h : CountedOf R as l) (ha : a ∈ as) :
    ∃ l', R a l' ∧ l'.length ≤ l.length := by
  obtain ⟨m, hm, -, rfl⟩ := h
  obtain ⟨l', hl', hle⟩ := hm.mem ha
  exact ⟨l', hl', by rw [length_append]; omega⟩

theorem CountedOf.length {α : Type} {R : α → List Byte → Prop} {as : List α} (h : CountedOf R as l) :
    as.length < U64 := by
  obtain ⟨m, -, hl, -⟩ := h
  exact hl

theorem FileOf.fits {r : FileRec} (h : FileOf r l) (hl : l.length < U64) : r.Fits := by
  obtain ⟨a, b, m, ⟨a', -, rfl⟩, ⟨b', -, rfl⟩, hm, ⟨h₁, h₂, h₃, h₄, h₅, h₆, h₇⟩, rfl⟩ := h
  simp only [length_append, length_lePut] at hl
  refine ⟨h₁, h₂, h₃, by omega, h₄, by omega, h₅, h₆, h₇, hm.length, fun x hx => ?_⟩
  obtain ⟨l', hl', -⟩ := hm.mem hx
  exact hl'.1

theorem get_lt (p : Buffer) (off w : Nat) : p.get off w < 256 ^ w := by
  refine (leNat_lt _).trans_le (Nat.pow_le_pow_right (by decide) ?_)
  show ((p.bytes.drop off).take w).length ≤ w
  rw [List.length_take]
  exact Nat.min_le_left ..

/-- **What is read spells what a manifest holds.** -/
theorem read_image {y : Manifest} (hm : p.get 10 2 = GS_FORMAT_MINOR) (hr : manifestRead .machine p = .ok y) :
    ∃ x, Image x p ∧ ReadsBack x y := by
  obtain ⟨b, ps, owner, hh, hb, rfl⟩ := (manifestRead_iff hm y).1 hr
  have hsize := hh.size
  have hseven : GS_HEADER_FIXED + MANIFEST_SEAL + 4 = 116 := by decide
  have hlt : ((p.bytes.take (p.size - 4)).drop (GS_HEADER_FIXED + MANIFEST_SEAL)).length < U64 := by
    have hs := p.small
    have hU : U64 = 2 ^ 64 := rfl
    rw [List.length_drop, List.length_take]
    omega
  have hb' := hb
  obtain ⟨m, d, hlev, hrow, hdead, hnum, he⟩ := hb
  have hmd : m.length < U64 := by
    rw [he] at hlt
    simp only [length_append, length_lePut] at hlt
    omega
  -- a level's files are those of one of the levels read
  have hfiles : ∀ l ∈ filesOf b.levels, ∃ i, ∃ fs ∈ b.levels, l = fs.foldl (versionAdd i) [] := by
    intro l hl
    obtain ⟨i, hi, rfl⟩ := List.mem_mapIdx.1 hl
    exact ⟨i, _, List.getElem_mem hi, rfl⟩
  let x : Saved :=
    { block := ps
      identity := owner
      nextFile := b.nextFile
      logFirst := b.logFirst
      lastSeq := b.lastSeq
      files := filesOf b.levels
      dead := b.dead
      blockFits := by
        rw [← hh.block]
        exact get_lt p 12 4
      identityLength := by
        rw [← hh.identity]
        show ((p.bytes.drop 16).take 16).length = 16
        have hs : p.size = p.bytes.length := rfl
        rw [List.length_take, List.length_drop]
        omega
      numbers := hnum
      levels := by
        rw [filesOf, List.length_mapIdx]
        exact hlev
      fits := fun l hl => by
        obtain ⟨i, fs, hfs, rfl⟩ := hfiles l hl
        have hp := perm_foldl_versionAdd (i := i) fs []
        obtain ⟨l', hc, hle⟩ := hrow.mem hfs
        refine ⟨by rw [hp.length_eq]; exact hc.length, fun r hr => ?_⟩
        obtain ⟨l'', hf, hle'⟩ := hc.mem (hp.subset hr)
        exact hf.fits (by omega)
      sorted := fun i l hl => by
        obtain ⟨hi, rfl⟩ := List.getElem?_eq_some_iff.1 hl
        simp only [filesOf, List.getElem_mapIdx]
        exact sorted_foldl_versionAdd (Nat.succ_ne_zero i) _ [] .nil
      deadFits := ⟨hdead.length, fun d hd => by
        obtain ⟨l, hl, -⟩ := hdead.mem hd
        exact hl.1⟩ }
  refine ⟨x, ⟨hh, b.levels, rfl, hb'⟩, rfl, rfl, rfl, rfl, rfl, rfl, fun num => ?_, rfl⟩
  show refs num (blobOf b.levels) = listed num (filesOf b.levels)
  rw [refs_blobOf, listed_filesOf]

/-! ## The round trip -/

/-- What a store has again once its manifest is read. -/
structure Restored (st : State) (y : Manifest) : Prop where
  block : y.block = st.block
  identity : y.identity = st.identity
  nextFile : y.nextFile = st.nextFile
  logFirst : y.logFirst = st.logFirst
  lastSeq : y.lastSeq = st.lastSeq
  files : y.files = st.files
  blob : ∀ num, refs num y.blob = st.files.flatten.countP (fun r => num ∈ r.blobs.map (·.1))
  dead : y.dead = st.dead.filter (fun x => x.2 ≤ st.durableSeq)

theorem restored_of {st : State} {y : Manifest} (h : ReadsBack st.saved y) : Restored st y := by
  refine ⟨h.block, h.identity, h.nextFile, h.logFirst, h.lastSeq, h.files, fun num => ?_, h.dead⟩
  rw [h.blob num]
  refine listed_once num _ (fun r hr => ?_)
  obtain ⟨l, hl, hr⟩ := List.mem_flatten.1 hr
  exact st.once l hl r hr

/-- **A store whose block size is one a header may hold reads back from its manifest, and every manifest of minor
version 0 that is read spells what some store saves.** -/
theorem manifest_round :
    (∀ (st : State) (p : Buffer), p.bytes = manifestWrite st → PageSize st.block →
      ∃ y, manifestRead .machine p = .ok y ∧ Restored st y) ∧
    (∀ (p : Buffer) (y : Manifest), p.get 10 2 = GS_FORMAT_MINOR → manifestRead .machine p = .ok y →
      ∃ x, Image x p ∧ ReadsBack x y) := by
  refine ⟨fun st p hp hb => ?_, fun p y hm hr => read_image hm hr⟩
  obtain ⟨y, hr, hy⟩ := image_read (image_write st.saved hp hb)
  exact ⟨y, hr, restored_of hy⟩

def loneFile : FileRec where
  num := 7
  size := 300
  entries := 1
  smallest := text "key"
  smallSeq := 5
  largest := text "key"
  largeSeq := 5
  seqOver := 0
  ownBlob := 8
  blobs := [(8, 5000)]

/-- A store of one file with two trees retired, the second by a commit that is not on the disk. -/
def loneStore : State where
  block := 4096
  identity := List.replicate 16 (byte 3)
  nextFile := 9
  logFirst := 4
  lastSeq := 6
  files := [[loneFile], [], [], [], [], [], []]
  dead := [(2, 5), (3, 6)]
  blockFits := by decide
  identityLength := by decide
  numbers := by decide
  levels := by decide
  fits := by
    intro l hl
    rcases List.mem_cons.1 hl with rfl | hl
    · refine ⟨by decide, fun r hr => ?_⟩
      rw [List.mem_singleton.1 hr]
      exact ⟨by decide, by decide, by decide, by decide, by decide, by decide, by decide, by decide, by decide,
        by decide, by decide⟩
    · have he : l = [] := by simpa using hl
      subst he
      exact ⟨by decide, fun r hr => by cases hr⟩
  sorted := by
    intro i l hl
    have he : l = [] := by
      have hm : l ∈ [[], [], [], [], [], ([] : List FileRec)] := List.mem_of_getElem? hl
      simpa using hm
    rw [he]
    exact .nil
  deadFits := by decide
  durableSeq := 5
  once := by decide

def loneManifest : Buffer := ⟨manifestWrite loneStore, by decide +kernel⟩

theorem manifest_round_lone : (∃ y, manifestRead .machine loneManifest = .ok y ∧ Restored loneStore y) ∧
    ∃ y x, manifestRead .machine loneManifest = .ok y ∧ Image x loneManifest ∧ ReadsBack x y := by
  obtain ⟨y, hr, hy⟩ := manifest_round.1 loneStore loneManifest rfl (by decide)
  obtain ⟨x, hx, hb⟩ := manifest_round.2 loneManifest y (by decide +kernel) hr
  exact ⟨⟨y, hr, hy⟩, y, x, hr, hx, hb⟩

def datedManifest : Buffer where
  bytes :=
    let b := headerWrite ⟨GS_FORMAT_MINOR, 4096, List.replicate 16 (byte 0), 0⟩ GS_FORMAT_MAJOR 1 ++
      List.replicate (MANIFEST_SEAL + 88) (byte 0)
    b ++ lePut 4 (crc32c b)
  small := by decide +kernel

/-- A manifest no store writes is read. -/
theorem datedManifest_read :
    ¬ ∀ (p : Buffer) (y : Manifest), p.get 10 2 = GS_FORMAT_MINOR → manifestRead .machine p = .ok y →
      ∃ st, p.bytes = manifestWrite st := by
  intro h
  have hr : (manifestRead .machine datedManifest).isOk = true := by decide +kernel
  rcases hy : manifestRead .machine datedManifest with stop | y
  · rw [hy] at hr
    cases hr
  · obtain ⟨st, he⟩ := h datedManifest y (by decide +kernel) hy
    have hm : GS_MAGIC.length = 8 := by decide
    have hz : datedManifest.get 32 8 = 0 :=
      get_append (a := GS_MAGIC ++ lePut 2 GS_FORMAT_MAJOR ++ lePut 2 GS_FORMAT_MINOR ++ lePut 4 st.saved.block ++
        st.saved.identity)
        (by
          rw [he]
          simp only [manifestWrite, Saved.write, Saved.covered, Saved.header, headerWrite, headerBytes,
            List.append_assoc]
          rfl)
        (by simp [hm, st.saved.identityLength]) (by decide)
    have ho : datedManifest.get 32 8 = 1 := by decide +kernel
    omega

end Raw
end Gbasic
