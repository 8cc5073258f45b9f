import Gbasic.Bytes
import Gbasic.LsmBase
/-!
# LsmBytes — a decoder's place in some bytes

The decoders of the store's files go over bytes with an offset, and test the sum of the offset, a length they have read
and what has to follow it against the end.  `Sums.machine` is the code's test, whose sum is one of machine integers
and drops its carry; `Sums.exact` is the test the code's is meant to be, and marks (`long`) the sums on which the two
differ.  A range that a test lets past and that is not inside what it was tested against ends the run there
(`outside`): what the code does with such bytes is not followed.
-/
namespace Gbasic
namespace Raw

open Lsm (Status TRAIL U64)

inductive Stop where
  | rc (s : Status)
  | outside
  | endless
  | long
  deriving DecidableEq

abbrev Decoder (α : Type) := Except Stop α

def corrupt {α : Type} : Decoder α := .error (.rc .corrupt)
def format {α : Type} : Decoder α := .error (.rc .format)

/-- Memory or a file: what an object's size may be. -/
structure Buffer where
  bytes : List Byte
  small : bytes.length < 2 ^ 63

namespace Buffer

def size (b : Buffer) : Nat := b.bytes.length

def window (b : Buffer) (off n : Nat) : Buffer where
  bytes := (b.bytes.drop off).take n
  small := by
    have h := b.small
    rw [List.length_take, List.length_drop]
    omega

@[simp] theorem size_window (b : Buffer) (off n : Nat) : (b.window off n).size = min n (b.size - off) := by
  rw [size, window, List.length_take, List.length_drop, size]

/-- `get16`, `get32` and `get64` where the bytes are known to be there. -/
def get (b : Buffer) (off w : Nat) : Nat := leNat (b.window off w).bytes

end Buffer

/-! ## A place in a buffer -/

structure Cursor where
  pos : Nat
  rest : List Byte
  small : pos + rest.length < 2 ^ 63

def Buffer.cursor (b : Buffer) : Cursor := ⟨0, b.bytes, by have h := b.small; omega⟩

namespace Cursor

def limit (c : Cursor) : Nat := c.pos + c.rest.length

def advance (c : Cursor) (n : Nat) : Cursor where
  pos := c.pos + min n c.rest.length
  rest := c.rest.drop n
  small := by
    have h := c.small
    rw [List.length_drop]
    omega

/-- The next `n` bytes, which the code uses as they are. -/
def bytes (n : Nat) (c : Cursor) : Decoder (List Byte × Cursor) :=
  if n ≤ c.rest.length then return (c.rest.take n, c.advance n) else .error .outside

def le (w : Nat) (c : Cursor) : Decoder (Nat × Cursor) := do
  let (l, c) ← c.bytes w
  return (leNat l, c)

/-- `varint_get` of what is left. -/
def varint (c : Cursor) : Decoder (Nat × Cursor) :=
  match ulebGet 10 0 0 c.rest with
  | some (n, r) => return (n, c.advance (c.rest.length - r.length))
  | none => corrupt

end Cursor

/-! ## Tests of a sum -/

inductive Sums where
  | machine
  | exact

def Sums.fits : Sums → List Nat → Nat → Decoder Unit
  | .machine, sums, limit => if ∀ s ∈ sums, s % U64 ≤ limit then return else corrupt
  | .exact, sums, limit =>
    if ∀ s ∈ sums, s ≤ limit then return else if ∀ s ∈ sums, s % U64 ≤ limit then .error .long else corrupt

def within (sums : List Nat) (limit : Nat) : Decoder Unit := if ∀ s ∈ sums, s ≤ limit then return else .error .outside

def Sums.ranges (m : Sums) (sums : List Nat) (limit : Nat) : Decoder Unit := do
  m.fits sums limit
  within sums limit

def Sums.sized (m : Sums) (extra : Nat) (c : Cursor) : Decoder (List Byte × Cursor) := do
  let (n, c) ← c.varint
  m.fits [c.pos + n + extra] c.limit
  c.bytes n

def Sums.getU64 (m : Sums) (c : Cursor) : Decoder (Nat × Cursor) := do
  m.fits [c.pos + 8] c.limit
  c.le 8

def whileLeft {α : Type} (body : Cursor → Decoder (α × Cursor)) : Nat → Cursor → Decoder (List α)
  | n, c =>
    if c.rest = [] then return []
    else
      match n with
      | 0 => .error .endless
      | n + 1 => do
        let (a, c) ← body c
        let as ← whileLeft body n c
        return a :: as

def times {α : Type} (body : Cursor → Decoder (α × Cursor)) : Nat → Cursor → Decoder (List α × Cursor)
  | 0, c => return ([], c)
  | n + 1, c => do
    let (a, c) ← body c
    let (as, c) ← times body n c
    return (a :: as, c)

/-! ## CRC32C -/

def crcTable (i : Nat) : Nat :=
  (List.range 8).foldl (fun c _ => c / 2 ^^^ (if c % 2 = 1 then 0x82F63B78 else 0)) i

/-- `crc32c`: a byte at a time. -/
def crc32c (l : List Byte) : Nat :=
  0xFFFFFFFF ^^^ l.foldl (fun c b => c / 256 ^^^ crcTable ((c ^^^ b.val) % 256)) 0xFFFFFFFF

/-- A block's bytes end with their checksum. -/
def checkBlock (b : Buffer) : Decoder Unit :=
  if b.size < TRAIL then corrupt
  else if b.get (b.size - 4) 4 = crc32c (b.bytes.take (b.size - 4)) then return
  else corrupt

end Raw
end Gbasic
