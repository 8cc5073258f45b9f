import Gbasic.LsmFile
/-!
# LsmSrc — reading: sources of entries, and one key in a version

A source is positioned by binary searches (`srcSeek`), moves forward an entry at a time (`srcNext`) and stands on the
last entry before a position (`srcSeekLt`).  `rd` answers the reads: whether block `bi` of a file, or a blob value,
reads back.  `memLookup` and `versionLookup` stop at the first source that has the key.
-/
namespace Gbasic
namespace Lsm

abbrev Rd := ReadAt → Status

/-- The binary search of the source: the first index from `lo` on whose element is not below, with `f` steps to go. -/
def bsearch (below : Nat → Bool) : Nat → Nat → Nat → Nat
  | 0, lo, _ => lo
  | f + 1, lo, hi =>
    if lo < hi then
      let mid := (lo + hi) / 2
      if below mid then bsearch below f (mid + 1) hi else bsearch below f lo mid
    else lo

def lowerBound (n : Nat) (below : Nat → Bool) : Nat := bsearch below n 0 n

def noBody : FileBody := ⟨.corrupt, [], ⟨64, []⟩, []⟩

def noFile : FileMeta := ⟨⟨0, 0, 0, ⟨0, []⟩, .real 0, ⟨0, []⟩, .real 0, none, 0, []⟩, noBody⟩

def noEnt : Ent := ⟨⟨0, []⟩, .real 0, .del⟩

def noIdx : IdxEntry := ⟨⟨0, []⟩, .real 0, 0, 0⟩

def blockFetch (rd : Rd) (m : FileMeta) (bi : Nat) : Status × List Ent :=
  let rc := rd (.sst m.num bi)
  if rc ≠ .ok then (rc, []) else m.body.blocks.getD bi (.corrupt, [])

namespace Src

def file (s : Src) (fi : Nat) : FileMeta := s.files.getD fi noFile

def blk (s : Src) : List Ent := ((s.file s.fi).body.blocks.getD s.bi (.corrupt, [])).2

def nindex (s : Src) (fi : Nat) : Nat := (s.file fi).body.index.length

def ofFiles (files : List FileMeta) (priv : Bool) : Src := ⟨none, none, files, 0, 0, 0, false, .ok, priv⟩

def ofSkip (r : SkRef) (priv : Bool) : Src := ⟨some r, none, [], 0, 0, 0, false, .ok, priv⟩

end Src

def srcLoad (rd : Rd) (s : Src) (fi bi : Nat) : Src :=
  let rc := (blockFetch rd (s.file fi) bi).1
  if rc ≠ .ok then { s with rc := rc, valid := false } else { s with fi := fi, bi := bi }

def srcEnt (sk : SkRef → Skip) (s : Src) : Ent :=
  match s.sk with
  | some r =>
    match s.node with
    | some (k, q) => ((sk r).ents.find? (fun e => e.pos = pos k q)).getD noEnt
    | none => noEnt
  | none =>
    let e := s.blk.getD s.ei noEnt
    { e with seq := eseq (s.file s.fi) e.seq }

def srcNode (s : Src) (e : Option Ent) : Src :=
  { s with node := e.map (fun e => (e.key, e.seq)), valid := e.isSome }

/-- The files from `fi` on, until one has an entry at or after the position. -/
def srcSeekFiles (rd : Rd) (k : IKey) (q : Seq) : Nat → Nat → Src → Src
  | 0, _, s => s
  | f + 1, fi, s =>
    if s.files.length ≤ fi then s
    else
      let m := s.file fi
      if m.body.opens ≠ .ok then { s with rc := m.body.opens }
      else
        let s := { s with rc := .ok }
        let blo := lowerBound m.body.index.length (fun i =>
          let e := m.body.index.getD i noIdx
          decide (pos e.last (eseq m e.lastSeq) < pos k q))
        if blo = m.body.index.length then srcSeekFiles rd k q f (fi + 1) s
        else
          let s := srcLoad rd s fi blo
          if s.rc ≠ .ok then s
          else
            let elo := lowerBound s.blk.length (fun i =>
              let e := s.blk.getD i noEnt
              decide (pos e.key (eseq m e.seq) < pos k q))
            if elo < s.blk.length then { s with ei := elo, valid := true }
            else srcSeekFiles rd k q f (fi + 1) s

def srcSeek (rd : Rd) (sk : SkRef → Skip) (s : Src) (k : IKey) (q : Seq) : Src :=
  match s.sk with
  | some r => srcNode s (skGe (sk r) k q)
  | none =>
    let s := { s with valid := false }
    let lo := lowerBound s.files.length (fun i =>
      let m := s.file i
      decide (pos m.largest (eseq m m.largeSeq) < pos k q))
    srcSeekFiles rd k q (s.files.length + 1 - lo) lo s

/-- The next block that has an entry, from block `bi` of file `fi` on. -/
def srcNextBlock (rd : Rd) : Nat → Nat → Nat → Src → Src
  | 0, _, _, s => { s with valid := false }
  | f + 1, fi, bi, s =>
    if s.nindex fi ≤ bi then
      if s.files.length ≤ fi + 1 then { s with valid := false }
      else
        let rc := (s.file (fi + 1)).body.opens
        if rc ≠ .ok then { s with rc := rc, valid := false }
        else srcNextBlock rd f (fi + 1) 0 { s with rc := .ok }
    else
      let s := srcLoad rd s fi bi
      if s.rc ≠ .ok then s
      else if s.blk ≠ [] then { s with ei := 0 }
      else srcNextBlock rd f fi (bi + 1) s

def Src.steps (s : Src) : Nat := (s.files.map (fun m => m.body.index.length + 1)).sum + 1

def srcNext (rd : Rd) (sk : SkRef → Skip) (s : Src) : Src :=
  if !s.valid then s
  else
    match s.sk with
    | some r =>
      match s.node with
      | some (k, q) => srcNode s (skNext (sk r) k q)
      | none => { s with valid := false }
    | none =>
      if s.ei + 1 < s.blk.length then { s with ei := s.ei + 1 }
      else srcNextBlock rd s.steps s.fi (s.bi + 1) s

def srcPrevBlock (rd : Rd) : Nat → Nat → Nat → Src → Src
  | 0, _, _, s => { s with valid := false }
  | f + 1, fi, bi, s =>
    if bi = 0 then
      if fi = 0 then { s with valid := false }
      else
        let rc := (s.file (fi - 1)).body.opens
        if rc ≠ .ok then { s with rc := rc, valid := false }
        else srcPrevBlock rd f (fi - 1) (s.nindex (fi - 1)) { s with rc := .ok }
    else
      let s := srcLoad rd s fi (bi - 1)
      if s.rc ≠ .ok then s
      else if s.blk ≠ [] then { s with ei := s.blk.length - 1, valid := true }
      else srcPrevBlock rd f fi (bi - 1) s

/-- Last entry before a position.  When none is at or after it, that is the very last, found from past the last
file. -/
def srcSeekLt (rd : Rd) (sk : SkRef → Skip) (s : Src) (k : IKey) (q : Seq) : Src :=
  match s.sk with
  | some r => srcNode s (skLt (sk r) k q)
  | none =>
    let s := srcSeek rd sk s k q
    if s.rc ≠ .ok then s
    else if s.valid then
      if 0 < s.ei then { s with ei := s.ei - 1 } else srcPrevBlock rd s.steps s.fi s.bi s
    else srcPrevBlock rd s.steps s.files.length 0 s

/-! ## One key -/

inductive Found where
  | error (rc : Status)
  | absent
  | found (v : Option Val)
  deriving DecidableEq

/-- An entry's value, following a blob pointer (`val_copy`): the file must be one some record points into. -/
def valCopy (rd : Rd) (recs : List (Nat × List Nat)) : EVal → Status × Option Val
  | .del => (.ok, none)
  | .put v => (.ok, some v)
  | .blob p =>
    if recs.any (fun r => r.2.contains p.num) then (rd (.blob p.num p.off p.val), some p.val)
    else (.corrupt, none)

def skLookup (s : Skip) (k : IKey) (seq : Seq) : Found :=
  match skGe s k seq with
  | some e => if e.key = k then .found e.val.val else .absent
  | none => .absent

/-- `file_lookup`, and the body of `lookup`'s walk over files: range, bloom filter, search. -/
def fileLookup (rd : Rd) (recs : List (Nat × List Nat)) (m : FileMeta) (k : IKey) (seq : Seq) : Found :=
  if k < m.smallest ∨ m.largest < k then .absent
  else if m.body.opens ≠ .ok then .error m.body.opens
  else if !bloomMay m.body.bloom k then .absent
  else
    let s := srcSeek rd (fun _ => skInit) (Src.ofFiles [m] false) k seq
    if s.rc ≠ .ok then .error s.rc
    else if s.valid then
      let e := srcEnt (fun _ => skInit) s
      if e.key = k then
        let (rc, v) := valCopy rd recs e.val
        if rc ≠ .ok then .error rc else .found v
      else .absent
    else .absent

def firstFound : List Found → Found
  | [] => .absent
  | .absent :: l => firstFound l
  | x :: _ => x

/-- The files of one level that a lookup looks at: all of level 0, newest first; of a deeper one, the first whose
largest key is not below. -/
def levelFiles (v : Version) (l : Nat) (k : IKey) : List FileMeta :=
  if l = 0 then (v.files 0).reverse
  else
    let fs := v.files l
    let first := lowerBound fs.length (fun i => decide ((fs.getD i noFile).largest < k))
    (fs[first]?).toList

def filesLookup (rd : Rd) (recs : List (Nat × List Nat)) (v : Version) (k : IKey) (seq : Seq) : Found :=
  firstFound ((levels.flatMap (fun l => levelFiles v l k)).map (fun m => fileLookup rd recs m k seq))

def memsLookup (ms : Mems) (v : Version) (k : IKey) (seq : Seq) : Found :=
  firstFound ((v.mem :: v.imm.toList).map (fun i => skLookup (ms.skip i) k seq))

/-! ## Merging -/

/-- The valid source that stands on the least position, if any (`merge_min`). -/
def mergeMin (sk : SkRef → Skip) : List Src → Nat → Option (Nat × Ent) → Option (Nat × Ent)
  | [], _, best => best
  | s :: l, i, best =>
    if s.valid then
      let e := srcEnt sk s
      match best with
      | some (_, be) => if e.pos < be.pos then mergeMin sk l (i + 1) (some (i, e)) else mergeMin sk l (i + 1) best
      | none => mergeMin sk l (i + 1) (some (i, e))
    else mergeMin sk l (i + 1) best

end Lsm
end Gbasic
