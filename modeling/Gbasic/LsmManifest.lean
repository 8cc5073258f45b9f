import Gbasic.LsmSpell
/-!
# LsmManifest — the manifest written, and what spells one

`Saved` is what a manifest holds of a store: numbers of 64 bits, an identity of sixteen bytes, and seven levels whose
files after the first lie in the order of their least keys, as `versionAdd` puts them (`sorted_addSorted`).
`Saved.write` is the manifest `manifest_write` makes of it.  A string of bytes may spell it otherwise (`Image`): the
header's creation time and reserved bytes, its flags but the lowest, the key epoch and the seal are not read, a string's
length may take more bytes than it needs, and the files of a level after the first may come in another order.
-/
namespace Gbasic
namespace Raw

open Lsm (Status SEAL LEVELS U64)

/-! ## The writer -/

def putBytes (s : List Byte) : List Byte := uleb s.length ++ s

def putPair (x : Nat × Nat) : List Byte := lePut 8 x.1 ++ lePut 8 x.2

def putAll {α : Type} (put : α → List Byte) (as : List α) : List Byte := lePut 8 as.length ++ as.flatMap put

def putFile (r : FileRec) : List Byte :=
  lePut 8 r.num ++ (lePut 8 r.size ++ (lePut 8 r.entries ++ (putBytes r.smallest ++ (lePut 8 r.smallSeq ++
    (putBytes r.largest ++ (lePut 8 r.largeSeq ++ (lePut 8 r.seqOver ++ (lePut 8 r.ownBlob ++
      putAll putPair r.blobs))))))))

/-- `gs_header_write`, its checksum apart. -/
def headerBytes (h : FileHeader) (major created : Nat) : List Byte :=
  GS_MAGIC ++ (lePut 2 major ++ (lePut 2 h.minor ++ (lePut 4 h.pageSize ++ (h.identity ++ (lePut 8 created ++
    (lePut 4 h.flags ++ List.replicate 32 (byte 0)))))))

def headerWrite (h : FileHeader) (major created : Nat) : List Byte :=
  headerBytes h major created ++ lePut 4 (crc32c (headerBytes h major created))

/-! ## What a manifest holds -/

/-- The numbers of a record are of 64 bits, and so are the counts. -/
structure FileRec.Fits (r : FileRec) : Prop where
  num : r.num < U64
  size : r.size < U64
  entries : r.entries < U64
  smallest : r.smallest.length < U64
  smallSeq : r.smallSeq < U64
  largest : r.largest.length < U64
  largeSeq : r.largeSeq < U64
  seqOver : r.seqOver < U64
  ownBlob : r.ownBlob < U64
  blobs : r.blobs.length < U64
  each : ∀ x ∈ r.blobs, x.1 < U64 ∧ x.2 < U64

/-- What `gs_header_read` takes for a page size. -/
def PageSize (n : Nat) : Prop := ¬ (n < 512 ∨ 65536 < n ∨ n &&& (n - 1) ≠ 0)

instance (n : Nat) : Decidable (PageSize n) := inferInstanceAs (Decidable (¬ _))

def Level.Sorted (l : List FileRec) : Prop := l.Pairwise (fun a b => a.smallest ≤ b.smallest)

structure Saved where
  block : Nat
  identity : List Byte
  nextFile : Nat
  logFirst : Nat
  lastSeq : Nat
  files : List (List FileRec)
  dead : List (Nat × Nat)
  blockFits : block < 2 ^ 32
  identityLength : identity.length = 16
  numbers : nextFile < U64 ∧ logFirst < U64 ∧ lastSeq < U64
  levels : files.length = LEVELS
  fits : ∀ l ∈ files, l.length < U64 ∧ ∀ r ∈ l, r.Fits
  sorted : ∀ i l, files[i + 1]? = some l → Level.Sorted l
  deadFits : dead.length < U64 ∧ ∀ x ∈ dead, x.1 < U64 ∧ x.2 < U64

def Saved.body (x : Saved) : List Byte :=
  lePut 8 x.nextFile ++ (lePut 8 x.logFirst ++ (lePut 8 x.lastSeq ++ (x.files.flatMap (putAll putFile) ++
    putAll putPair x.dead)))

def Saved.header (x : Saved) : List Byte := headerWrite ⟨GS_FORMAT_MINOR, x.block, x.identity, 0⟩ GS_FORMAT_MAJOR 0

def Saved.covered (x : Saved) : List Byte := x.header ++ (List.replicate MANIFEST_SEAL (byte 0) ++ x.body)

def Saved.write (x : Saved) : List Byte := x.covered ++ lePut 4 (crc32c x.covered)

/-- A store: what it saves, the last sequence known to be on the disk, and each file's list of blob files without one
twice, as the builder makes it. -/
structure State extends Saved where
  durableSeq : Nat
  once : ∀ l ∈ files, ∀ r ∈ l, (r.blobs.map (·.1)).Nodup

def State.deaths (st : State) : List (Nat × Nat) := st.dead.filter (fun x => x.2 ≤ st.durableSeq)

def State.saved (st : State) : Saved :=
  { st.toSaved with
    dead := st.deaths
    deadFits := ⟨(List.length_filter_le ..).trans_lt st.deadFits.1,
      fun x hx => st.deadFits.2 x (List.mem_filter.1 hx).1⟩ }

/-- `manifest_write`: the bytes of the new manifest. -/
def manifestWrite (st : State) : List Byte := st.saved.write

/-! ## What spells one -/

def PairOf (x : Nat × Nat) (l : List Byte) : Prop := (x.1 < U64 ∧ x.2 < U64) ∧ l = lePut 8 x.1 ++ lePut 8 x.2

def FileOf (r : FileRec) (l : List Byte) : Prop :=
  ∃ a b m, StringOf r.smallest a ∧ StringOf r.largest b ∧ CountedOf PairOf r.blobs m ∧
    (r.num < U64 ∧ r.size < U64 ∧ r.entries < U64 ∧ r.smallSeq < U64 ∧ r.largeSeq < U64 ∧ r.seqOver < U64 ∧
      r.ownBlob < U64) ∧
    l = lePut 8 r.num ++ (lePut 8 r.size ++ (lePut 8 r.entries ++ (a ++ (lePut 8 r.smallSeq ++
      (b ++ (lePut 8 r.largeSeq ++ (lePut 8 r.seqOver ++ (lePut 8 r.ownBlob ++ m))))))))

def BodyOf (b : Body) (l : List Byte) : Prop :=
  ∃ m d, b.levels.length = LEVELS ∧ Row (CountedOf FileOf) b.levels m ∧ CountedOf PairOf b.dead d ∧
    (b.nextFile < U64 ∧ b.logFirst < U64 ∧ b.lastSeq < U64) ∧
    l = lePut 8 b.nextFile ++ (lePut 8 b.logFirst ++ (lePut 8 b.lastSeq ++ (m ++ d)))

structure HeaderOf (ps : Nat) (owner : List Byte) (p : Buffer) : Prop where
  size : GS_HEADER_FIXED + MANIFEST_SEAL + 4 ≤ p.size
  covered : p.get (p.size - 4) 4 = crc32c (p.bytes.take (p.size - 4))
  magic : p.bytes.take 8 = GS_MAGIC
  check : p.get 76 4 = crc32c (p.bytes.take 76)
  major : p.get 8 2 = GS_FORMAT_MAJOR
  minor : p.get 10 2 = GS_FORMAT_MINOR
  page : PageSize (p.get 12 4)
  block : p.get 12 4 = ps
  identity : (p.window 16 16).bytes = owner
  flags : p.get 40 4 % 2 = 0

/-- Bytes that spell what a manifest holds. -/
def Image (x : Saved) (p : Buffer) : Prop :=
  HeaderOf x.block x.identity p ∧
    ∃ levels, filesOf levels = x.files ∧
      BodyOf ⟨x.nextFile, x.logFirst, x.lastSeq, levels, x.dead⟩
        ((p.bytes.take (p.size - 4)).drop (GS_HEADER_FIXED + MANIFEST_SEAL))

def refs (num : Nat) (blob : List (Nat × Nat)) : Nat := ((blob.find? (fun x => x.1 = num)).map (·.2)).getD 0

def listed (num : Nat) (files : List (List FileRec)) : Nat :=
    (files.flatten.flatMap (fun r => r.blobs.map (·.1))).count num

/-- What reading a manifest gives, of what it holds. -/
structure ReadsBack (x : Saved) (y : Manifest) : Prop where
  block : y.block = x.block
  identity : y.identity = x.identity
  nextFile : y.nextFile = x.nextFile
  logFirst : y.logFirst = x.logFirst
  lastSeq : y.lastSeq = x.lastSeq
  files : y.files = x.files
  blob : ∀ num, refs num y.blob = listed num x.files
  dead : y.dead = x.dead

/-! ## Levels -/

theorem perm_addSorted (f : FileRec) : ∀ l : List FileRec, (addSorted f l).Perm (f :: l)
  | [] => .refl _
  | g :: l => by
    rw [addSorted]
    split_ifs
    · exact .refl _
    · exact ((perm_addSorted f l).cons g).trans (.swap f g l)

theorem sorted_addSorted {f : FileRec} : ∀ {l : List FileRec}, Level.Sorted l → Level.Sorted (addSorted f l)
  | [], _ => List.pairwise_singleton ..
  | g :: l, h => by
    obtain ⟨hg, hl⟩ := List.pairwise_cons.1 h
    rw [addSorted]
    split_ifs with hc
    · refine List.pairwise_cons.2 ⟨fun x hx => ?_, h⟩
      rcases List.mem_cons.1 hx with rfl | hx
      · exact le_of_lt hc.1
      · exact le_of_lt (hc.2 x hx)
    · refine List.pairwise_cons.2 ⟨fun x hx => ?_, sorted_addSorted hl⟩
      rcases List.mem_cons.1 ((perm_addSorted f l).subset hx) with rfl | hx
      · -- the file is below none of the level's, or one after it is no further
        by_contra hlt
        refine hc ⟨not_le.1 hlt, fun y hy => ?_⟩
        exact lt_of_lt_of_le (not_le.1 hlt) (hg y hy)
      · exact hg x hx

theorem addSorted_last {f : FileRec} : ∀ {l : List FileRec}, (∀ g ∈ l, g.smallest ≤ f.smallest) → addSorted f l = l ++
    [f]
  | [], _ => rfl
  | g :: l, h => by
    have hg : ¬ (f.smallest < g.smallest ∧ ∀ x ∈ l, f.smallest < x.smallest) :=
      fun hc => absurd hc.1 (not_lt.2 (h g (List.mem_cons_self ..)))
    rw [addSorted, if_neg hg, addSorted_last (fun x hx => h x (List.mem_cons_of_mem g hx))]
    rfl

theorem foldl_versionAdd {i : Nat} : ∀ (l fs : List FileRec), (i ≠ 0 → Level.Sorted (fs ++ l)) →
    l.foldl (versionAdd i) fs = fs ++ l
  | [], fs, _ => by simp
  | f :: l, fs, h => by
    have hadd : versionAdd i fs f = fs ++ [f] := by
      rw [versionAdd]
      split_ifs with hi
      · rfl
      · refine addSorted_last (fun g hg => ?_)
        exact (List.pairwise_append.1 (h hi)).2.2 g hg f (List.mem_cons_self ..)
    rw [List.foldl_cons, hadd, foldl_versionAdd l (fs ++ [f]) (by simpa using h), List.append_assoc]
    rfl

theorem perm_foldl_versionAdd {i : Nat} : ∀ l fs : List FileRec, (l.foldl (versionAdd i) fs).Perm (fs ++ l)
  | [], fs => by simp
  | f :: l, fs => by
    have hadd : (versionAdd i fs f).Perm (fs ++ [f]) := by
      rw [versionAdd]
      split_ifs
      · exact .refl _
      · exact (perm_addSorted f fs).trans (List.perm_append_singleton f fs).symm
    refine (perm_foldl_versionAdd l _).trans ?_
    have h := hadd.append_right l
    rwa [List.append_assoc] at h

theorem sorted_foldl_versionAdd {i : Nat} (hi : i ≠ 0) : ∀ l fs : List FileRec, Level.Sorted fs →
    Level.Sorted (l.foldl (versionAdd i) fs)
  | [], _, h => h
  | f :: l, fs, h => by
    rw [List.foldl_cons, versionAdd, if_neg hi]
    exact sorted_foldl_versionAdd hi l _ (sorted_addSorted h)

end Raw
end Gbasic
