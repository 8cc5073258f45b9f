import Gbasic.Reader
import Gbasic.Key
/-!
# V3 — serialized values, read

`walk` validates one value at the front of some bytes and finds what a column's rules turn on.  Its first argument is
how many levels are left of `V3_MAX_DEPTH`.
-/
namespace Gbasic
namespace V3

open Key (Bytes SER_NULL SER_UNKNOWN SER_BOOL SER_NUMBER SER_STRING SER_ARRAY SER_RECORD SER_DATETIME SER_DURATION
  SER_MONEY SER_FILE SER_DIR SER_ACTOR SER_FUNCTION SER_REGEX)
open Reader (require Local)

def V3_MAX_DEPTH : Nat := 256

structure Walk where
  tag : Nat
  exact : Nat
  timeOnly : Nat
  precision : Nat
  currency : Bytes
  badTag : Nat
  deriving DecidableEq, Repr

def Walk.start : Walk := ⟨0, 0, 0, 0, [], 0⟩

def Walk.bad (w : Walk) (tag : Nat) : Walk := if w.badTag = 0 then { w with badTag := tag } else w

def skipText : Reader Bytes := do
  let n ← Reader.uleb
  Reader.bytes n

def walkNumber (top : Bool) (w : Walk) : Reader Walk := do
  let exact ← Reader.le 1
  let _ ← Reader.le 8
  require (exact ≤ 1)
  return if top then { w with exact := exact } else w

def walkMoney (top : Bool) (w : Walk) : Reader Walk := do
  let _ ← Reader.le 8
  let _ ← Reader.le 1
  let _ ← Reader.le 2
  let alen ← Reader.le 1
  require (alen ≤ 7)
  let currency ← Reader.bytes alen
  return if top then { w with currency := currency } else w

def walkDatetime (top : Bool) (w : Walk) : Reader Walk := do
  Reader.times 6 (fun _ => do let _ ← Reader.le 4; pure ()) ()
  let timeOnly ← Reader.le 1
  let precision ← Reader.le 1
  require (timeOnly ≤ 1 ∧ 1 ≤ precision ∧ precision ≤ 6)
  return if top then { w with timeOnly := timeOnly, precision := precision } else w

/-- `v3_walk`, with the levels that are left and whether this is the first. -/
def walk : Nat → Bool → Walk → Reader Walk
  | 0, _, _ => failure
  | d + 1, top, w => do
    let tag ← Reader.le 1
    let w := if top then { w with tag := tag } else w
    if tag = SER_NULL ∨ tag = SER_UNKNOWN then pure w
    else if tag = SER_BOOL then do
      let b ← Reader.le 1
      require (b ≤ 1)
      pure w
    else if tag = SER_NUMBER then walkNumber top w
    else if tag = SER_STRING then do
      let _ ← skipText
      pure w
    else if tag = SER_MONEY then walkMoney top w
    else if tag = SER_DATETIME then walkDatetime top w
    else if tag = SER_DURATION then do
      Reader.times 7 (fun _ => do let _ ← Reader.le 4; pure ()) ()
      pure (w.bad tag)
    else if tag = SER_ARRAY then do
      let n ← Reader.uleb
      -- every element is at least one byte
      Reader.left n
      Reader.times n (walk d false) w
    else if tag = SER_RECORD then do
      let n ← Reader.uleb
      Reader.left n
      Reader.times n (fun w => do let _ ← skipText; walk d false w) w
    else if tag = SER_FILE ∨ tag = SER_DIR then do
      let _ ← skipText
      pure (w.bad tag)
    else if tag = SER_FUNCTION ∨ tag = SER_REGEX then do
      let _ ← skipText
      let _ ← skipText
      pure (w.bad tag)
    else failure

def walkOne : Reader Walk := walk (V3_MAX_DEPTH + 1) true .start

def walkWhole (l : Bytes) : Option Walk := Reader.whole walkOne l

theorem walk_absent {b : Byte} (h : b.val = SER_NULL ∨ b.val = SER_UNKNOWN) (d : Nat) (w : Walk) (l : Bytes) :
    walk (d + 1) true w (b :: l) = some ({ w with tag := b.val }, l) := by
  have hb : Reader.le 1 (b :: l) = some (b.val, l) := rfl
  unfold walk
  rw [Reader.bind_some hb, if_pos rfl, if_pos h]
  rfl

theorem local_skipText : Local skipText := Local.uleb.bind (fun n => Local.bytes n)

theorem local_fields (n : Nat) : Local (Reader.times n (fun _ => do let _ ← Reader.le 4; pure ()) ()) :=
  Local.times (fun _ => (Local.le 4).bind (fun _ => .pure _)) n ()

theorem local_walkNumber (top : Bool) (w : Walk) : Local (walkNumber top w) :=
  (Local.le 1).bind (fun _ => (Local.le 8).bind (fun _ => (Local.require _).bind
    (fun _ => .pure _)))

theorem local_walkMoney (top : Bool) (w : Walk) : Local (walkMoney top w) :=
  (Local.le 8).bind (fun _ => (Local.le 1).bind (fun _ => (Local.le 2).bind
    (fun _ => (Local.le 1).bind (fun _ => (Local.require _).bind (fun _ => (Local.bytes _).bind
      (fun _ => .pure _))))))

theorem local_walkDatetime (top : Bool) (w : Walk) : Local (walkDatetime top w) :=
  (local_fields 6).bind (fun _ => (Local.le 1).bind (fun _ => (Local.le 1).bind
    (fun _ => (Local.require _).bind (fun _ => .pure _))))

/-- **A value is read the same whatever follows it.** -/
theorem local_walk : ∀ (d : Nat) (top : Bool) (w : Walk), Local (walk d top w)
  | 0, _, _ => .failure
  | d + 1, top, w => by
    unfold walk
    refine (Local.le 1).bind (fun tag => ?_)
    refine .ite (.pure _) (.ite ?bool (.ite (local_walkNumber _ _) (.ite ?string (.ite (local_walkMoney _ _)
      (.ite (local_walkDatetime _ _) (.ite ?duration (.ite ?array
      (.ite ?record (.ite ?file (.ite ?code .failure))))))))))
    case bool => exact (Local.le 1).bind (fun _ => (Local.require _).bind (fun _ => .pure _))
    case string => exact local_skipText.bind (fun _ => .pure _)
    case duration => exact (local_fields 7).bind (fun _ => .pure _)
    case array =>
      exact Local.uleb.bind (fun n => (Local.left n).bind (fun _ => .times (local_walk d false) n _))
    case record =>
      exact Local.uleb.bind (fun n => (Local.left n).bind
        (fun _ => .times (fun w => local_skipText.bind (fun _ => local_walk d false w)) n _))
    case file => exact local_skipText.bind (fun _ => .pure _)
    case code => exact local_skipText.bind (fun _ => local_skipText.bind (fun _ => .pure _))

theorem walkOne_append {l : Bytes} {w : Walk} (h : walkWhole l = some w) (m : Bytes) : walkOne (l ++ m) = some (w, m) :=
  (local_walk _ true .start).of_whole h m

end V3
end Gbasic
