/-!
# Disk — files, names and what of them is synced (library)

Files hold cells.  A write is pending on its file until the file is synced; a creation, renaming or removal is pending
on the directory until the directory is.  What the process reads is the view, with every pending operation applied.
Generic over names and cells.
-/
namespace Gbasic

/-- A file: its size and its cells, `default` (a zero) where nothing was written. -/
structure File (B : Type) where
  size : Nat
  cell : Nat → B

inductive Write (B : Type) where
  | data (off len : Nat) (cell : Nat → B)
  | trunc (n : Nat)

variable {N B : Type} [DecidableEq N] [Inhabited B]

def File.empty : File B := ⟨0, fun _ => default⟩

def File.apply (f : File B) : Write B → File B
  | .data off len c =>
    { size := if len = 0 then f.size else max f.size (off + len)
      cell := fun i => if off ≤ i ∧ i < off + len then c (i - off) else f.cell i }
  | .trunc n => { size := n, cell := fun i => if i < n then f.cell i else default }

structure Inode (B : Type) where
  dur : File B
  view : File B
  pend : List (Write B)

inductive NsOp (N : Type) where
  | create (n : N) (i : Nat)
  | rename (a b : N)
  | remove (n : N)

/-! ## Names -/

abbrev Names (N : Type) := List (N × Nat)

namespace Names

def get (ns : Names N) (n : N) : Option Nat := (ns.find? (fun p => p.1 = n)).map (·.2)

def del (ns : Names N) (n : N) : Names N := ns.filter (fun p => p.1 ≠ n)

def set (ns : Names N) (n : N) (i : Nat) : Names N := (n, i) :: ns.del n

/-- One name operation, on the names a disk kept: a creation of a name that is there, and a renaming of one that is
not, do nothing. -/
def apply (ns : Names N) : NsOp N → Names N
  | .create n i => match ns.get n with
    | some _ => ns
    | none => ns.set n i
  | .rename a b => match ns.get a with
    | some i => (ns.del a).set b i
    | none => ns
  | .remove n => ns.del n

end Names

def NsOp.target : NsOp N → N
  | .create n _ => n
  | .rename _ b => b
  | .remove n => n

structure Disk (N B : Type) where
  inode : Nat → Inode B
  next : Nat
  dur : Names N
  view : Names N
  pend : List (NsOp N)

namespace Disk

def empty : Disk N B := ⟨fun _ => ⟨.empty, .empty, []⟩, 0, [], [], []⟩

def setInode (d : Disk N B) (i : Nat) (x : Inode B) : Disk N B :=
  { d with inode := fun j => if j = i then x else d.inode j }

def create (d : Disk N B) (n : N) : Disk N B :=
  { d with
    inode := fun j => if j = d.next then ⟨.empty, .empty, []⟩ else d.inode j
    next := d.next + 1
    view := d.view.set n d.next
    pend := d.pend ++ [.create n d.next] }

/-- A write to a named file: the view has it, and it is pending. -/
def write (d : Disk N B) (n : N) (w : Write B) : Disk N B :=
  match d.view.get n with
  | none => d
  | some i =>
    d.setInode i { d.inode i with view := (d.inode i).view.apply w, pend := (d.inode i).pend ++ [w] }

def sync (d : Disk N B) (n : N) : Disk N B :=
  match d.view.get n with
  | none => d
  | some i => d.setInode i { d.inode i with dur := (d.inode i).pend.foldl File.apply (d.inode i).dur, pend := [] }

/-- A sync that failed: each pending write reached the file or was lost, as `kept` says, and none is pending. -/
def syncFailed (d : Disk N B) (n : N) (kept : List Bool) : Disk N B :=
  match d.view.get n with
  | none => d
  | some i =>
    d.setInode i { d.inode i with
      dur := (((d.inode i).pend.zip kept).filter (·.2)).foldl (fun f p => f.apply p.1) (d.inode i).dur
      pend := [] }

def syncDir (d : Disk N B) (inDir : N → Bool) : Disk N B :=
  { d with
    dur := (d.pend.filter (fun o => inDir o.target)).foldl Names.apply d.dur
    pend := d.pend.filter (fun o => !inDir o.target) }

def rename (d : Disk N B) (a b : N) : Disk N B :=
  match d.view.get a with
  | none => d
  | some i => if a = b then d else { d with view := (d.view.del a).set b i, pend := d.pend ++ [.rename a b] }

def remove (d : Disk N B) (n : N) : Disk N B :=
  match d.view.get n with
  | none => d
  | some _ => { d with view := d.view.del n, pend := d.pend ++ [.remove n] }

/-- The file a process reads under a name. -/
def file (d : Disk N B) (n : N) : Option (File B) := (d.view.get n).map (fun i => (d.inode i).view)

end Disk

end Gbasic
