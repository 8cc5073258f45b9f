import Gbasic.Framing
import Gbasic.Bytes
/-!
# Wire — the owner's frames on a stream (src/gsql/wire.c)

A frame is the length of its rest, its type, its request's id and its body.  A reader holds what was fed and not yet
taken.  Over any order of puts, deliveries of any size and reads, frames come out as they were put
(`frames_reassembled`).
-/
namespace Gbasic
namespace Wire

open Framing
open List (length_append drop_zero append_assoc map_append append_nil drop_left' take_left')

abbrev Bytes := List Byte

def GSQL_FRAME_MAX : Nat := 16 * 2 ^ 20

structure GsqlFrame where
  type : Nat
  id : Nat
  body : Bytes
deriving DecidableEq

def gsqlFramePut (f : GsqlFrame) : Bytes :=
  lePut 4 (f.body.length + 5) ++ lePut 1 f.type ++ lePut 4 f.id ++ f.body

/-- A frame as its C types hold it, and no longer than a reader takes. -/
structure GsqlFrame.Fits (f : GsqlFrame) : Prop where
  type : f.type < 256
  id : f.id < 2 ^ 32
  body : f.body.length + 5 ≤ GSQL_FRAME_MAX

def le32 (l : Bytes) (pos : Nat) : Nat := leNat ((l.drop pos).take 4)

structure GsqlReader where
  input : Bytes
  pos : Nat

inductive Answer where
  | frame (f : GsqlFrame)
  | more
  | short
  | tooLarge
deriving DecidableEq

/-- `gsql_reader_next` on what is compacted: where it leaves `pos`, and its answer. -/
def readAt (buf : Bytes) : Nat × Answer :=
  if buf.length < 4 then (0, .more)
  else
    let len := le32 buf 0
    if len < 5 then (0, .short)
    else if GSQL_FRAME_MAX < len then (0, .tooLarge)
    else if buf.length - 4 < len then (0, .more)
    else (4 + len, .frame ⟨leNat ((buf.drop 4).take 1), le32 buf 5, (buf.drop 9).take (len - 5)⟩)

namespace GsqlReader

def compact (r : GsqlReader) : GsqlReader := if r.pos = 0 then r else ⟨r.input.drop r.pos, 0⟩

def feed (r : GsqlReader) (bytes : Bytes) : GsqlReader := ⟨r.compact.input ++ bytes, r.compact.pos⟩

def next (r : GsqlReader) : GsqlReader × Answer := (⟨r.compact.input, (readAt r.compact.input).1⟩,
      (readAt r.compact.input).2)

def pending (r : GsqlReader) : Bytes := r.input.drop r.pos

theorem compact_eq (r : GsqlReader) : r.compact = ⟨r.pending, 0⟩ := by
  unfold compact pending
  split
  · rename_i h
    rw [h, drop_zero, ← h]
  · rfl

theorem next_eq (r : GsqlReader) : r.next = (⟨r.pending, (readAt r.pending).1⟩, (readAt r.pending).2) := by
  rw [next, compact_eq]

theorem pending_feed (r : GsqlReader) (bytes : Bytes) : (r.feed bytes).pending = r.pending ++ bytes := by
  rw [feed, compact_eq]
  rfl

end GsqlReader

theorem readAt_kept {buf : Bytes} {pos : Nat} {a : Answer} (h : readAt buf = (pos, a)) (ha : ∀ f, a ≠ .frame f) :
    pos = 0 := by
  unfold readAt at h
  dsimp only at h
  split_ifs at h <;> cases h
  · rfl
  · rfl
  · rfl
  · rfl
  · exact absurd rfl (ha _)

/-! ## The front of a stream -/

def front (buf : Bytes) : Front Byte GsqlFrame :=
  match (readAt buf).2 with
  | .frame f => .whole f (buf.drop (readAt buf).1)
  | .more => .short
  | .short | .tooLarge => .corrupt

theorem front_eq (buf : Bytes) : front buf =
    if buf.length < 4 then .short
    else if le32 buf 0 < 5 ∨ GSQL_FRAME_MAX < le32 buf 0 then .corrupt
    else if buf.length - 4 < le32 buf 0 then .short
    else .whole ⟨leNat ((buf.drop 4).take 1), le32 buf 5, (buf.drop 9).take (le32 buf 0 - 5)⟩
      (buf.drop (4 + le32 buf 0)) := by
  unfold front readAt
  dsimp only
  split_ifs <;> first | rfl | omega

theorem front_ends {buf rest : Bytes} {f : GsqlFrame} (h : front buf = .whole f rest) :
    ∃ p, p ≠ [] ∧ buf = p ++ rest ∧ ∀ ys, front (p ++ ys) = .whole f ys := by
  rw [front_eq] at h
  split_ifs at h with hlen hbad hrest
  injection h with hf hr
  have htake : (buf.take (4 + le32 buf 0)).length = 4 + le32 buf 0 := List.length_take_of_le (by omega)
  refine ⟨buf.take (4 + le32 buf 0), ?_, by rw [← hr, List.take_append_drop], fun ys => ?_⟩
  · rw [← List.length_pos_iff, htake]
    omega
  · have ha := agree_take (by omega : 4 + le32 buf 0 ≤ buf.length) ys
    have hlen' := ha.2.1
    have hsize : le32 (buf.take (4 + le32 buf 0) ++ ys) 0 = le32 buf 0 := congrArg leNat (ha.window 0 4 (by omega)).symm
    have hid : le32 (buf.take (4 + le32 buf 0) ++ ys) 5 = le32 buf 5 := congrArg leNat (ha.window 5 4 (by omega)).symm
    rw [front_eq, hsize, if_neg (by omega), if_neg hbad, if_neg (by omega), ← ha.window 4 1 (by omega), hid,
      ← ha.window 9 (le32 buf 0 - 5) (by omega), hf, drop_left' htake]

theorem front_stays {buf : Bytes} (h : front buf = .corrupt) (ys : Bytes) : front (buf ++ ys) = .corrupt := by
  rw [front_eq] at h ⊢
  split_ifs at h with hlen hbad hrest
  have ha := agree_append buf ys
  have hlen' := ha.2.1
  have hsize : le32 (buf ++ ys) 0 = le32 buf 0 := congrArg leNat (ha.window 0 4 (by omega)).symm
  rw [if_neg (by omega), hsize, if_pos hbad]

def frames : Framer Byte GsqlFrame := ⟨front, front_ends, front_stays⟩

theorem front_put {f : GsqlFrame} (hf : f.Fits) (ys : Bytes) : frames.front (gsqlFramePut f ++ ys) = .whole f ys := by
  have hbody := hf.body
  have hmax : GSQL_FRAME_MAX = 16777216 := rfl
  have h0 : gsqlFramePut f ++ ys =
      lePut 4 (f.body.length + 5) ++ (lePut 1 f.type ++ (lePut 4 f.id ++ (f.body ++ ys))) := by
    simp only [gsqlFramePut, append_assoc]
  have h4 := congrArg (List.drop 4) h0
  have h5 := congrArg (List.drop 1) h4
  have h9 := congrArg (List.drop 4) h5
  have hrest := congrArg (List.drop f.body.length) h9
  have hsize : le32 (gsqlFramePut f ++ ys) 0 = f.body.length + 5 := by
    rw [le32, drop_zero, h0, take_left' (length_lePut 4 _), leNat_lePut 4 _ (by omega)]
  have hall := congrArg List.length h0
  simp only [List.drop_drop, drop_left' (length_lePut 4 _), drop_left' (length_lePut 1 _), List.drop_left,
    length_append, length_lePut, Nat.reduceAdd] at h4 h5 h9 hrest hall
  rw [← length_append] at hall
  show front _ = _
  rw [front_eq, hsize, if_neg (by omega), if_neg (by omega), if_neg (by omega), le32, h4, h5, h9,
    show 4 + (f.body.length + 5) = 9 + f.body.length by omega, hrest, take_left' (length_lePut 1 _),
    take_left' (length_lePut 4 _), leNat_lePut 1 _ hf.type, leNat_lePut 4 _ hf.id, Nat.add_sub_cancel, List.take_left]

/-! ## Runs -/

/-- One direction of a connection: what was put, what of it is on its way, the reader, and what it gave. -/
structure Link where
  sent : List GsqlFrame
  flight : Bytes
  reader : GsqlReader
  got : List GsqlFrame

inductive Act where
  | put (f : GsqlFrame)
  | deliver (n : Nat)
  | next

def Link.start : Link := ⟨[], [], ⟨[], 0⟩, []⟩

def Link.step (l : Link) : Act → Link
  | .put f => { l with sent := l.sent ++ [f], flight := l.flight ++ gsqlFramePut f }
  | .deliver n => { l with flight := l.flight.drop n, reader := l.reader.feed (l.flight.take n) }
  | .next =>
    match l.reader.next with
    | (r, .frame f) => { l with reader := r, got := l.got ++ [f] }
    | (r, _) => { l with reader := r }

def Link.run (l : Link) (acts : List Act) : Link := acts.foldl Link.step l

/-- What was given of what was put, and what of it is unread. -/
def Link.Kept (l : Link) : Prop :=
  Reads frames (l.got.map some) (l.sent.flatMap gsqlFramePut) (l.reader.pending ++ l.flight)

theorem Link.Kept.step {l : Link} (h : l.Kept) (a : Act) : (l.step a).Kept := by
  unfold Kept at h ⊢
  cases a with
  | put f =>
    have hmore := h.more frames (gsqlFramePut f)
    rw [append_assoc] at hmore
    simpa [Link.step] using hmore
  | deliver n =>
    rw [Link.step, GsqlReader.pending_feed, append_assoc, List.take_append_drop]
    exact h
  | next =>
    rw [Link.step, GsqlReader.next_eq]
    rcases hr : readAt l.reader.pending with ⟨pos, a⟩
    cases a with
    | frame f =>
      have hfront : frames.front l.reader.pending = .whole f (l.reader.pending.drop pos) := by
        show front _ = _
        rw [front, hr]
      have hnext := h.next frames (frames.longer hfront l.flight)
      rw [← List.map_singleton, ← map_append] at hnext
      exact hnext
    | more | short | tooLarge =>
      obtain rfl := readAt_kept hr (fun f => Answer.noConfusion)
      exact h

theorem Link.run_kept : ∀ (acts : List Act) {l : Link}, l.Kept → (l.run acts).Kept
  | [], _, h => h
  | a :: acts, _, h => run_kept acts (h.step a)

theorem Link.Kept.fit {l : Link} (h : l.Kept) (hfits : ∀ f ∈ l.sent, f.Fits) : l.got <+: l.sent ∧
    l.reader.next.2 ≠ .short ∧ l.reader.next.2 ≠ .tooLarge ∧
      (l.flight = [] → l.reader.next.2 = .more → l.got = l.sent) := by
  have hinj := List.map_injective_iff.2 (Option.some_injective GsqlFrame)
  have haccount := h.items
  have hsent := (holds_flatMap frames (fun f hf => front_put (hfits f hf))).items frames []
  rw [append_nil, items_short frames (show frames.front [] = .short from rfl), append_nil] at hsent
  rw [hsent] at haccount
  have hok : front l.reader.pending ≠ .corrupt := by
    intro hbad
    rw [items_corrupt frames (frames.stays hbad l.flight)] at haccount
    have hnone : none ∈ l.sent.map some := haccount ▸ List.mem_append_right _ (List.mem_singleton_self _)
    simp at hnone
  rw [GsqlReader.next_eq]
  refine ⟨?_, fun hs => hok ?_, fun hs => hok ?_, fun hflight hmore => ?_⟩
  · obtain ⟨fs, hfs, hgot⟩ := List.prefix_map_iff.1 ⟨_, haccount⟩
    rw [hinj hgot]
    exact hfs
  · dsimp only at hs
    rw [front, hs]
  · dsimp only at hs
    rw [front, hs]
  · have hshort : front l.reader.pending = .short := by
      dsimp only at hmore
      rw [front, hmore]
    rw [hflight, append_nil, items_short frames hshort, append_nil] at haccount
    exact hinj haccount

/-- **Frames come out as they were put**, whole, each once and in their order, however the stream is cut and whenever it
is read: of frames that fit none is refused, and when all has arrived and the reader asks for more, all were given. -/
theorem frames_reassembled (acts : List Act) : let l := Link.start.run acts
    l.got.map some ++ items frames (l.reader.pending ++ l.flight) = items frames (l.sent.flatMap gsqlFramePut) ∧
      ((∀ f ∈ l.sent, f.Fits) → l.got <+: l.sent ∧ l.reader.next.2 ≠ .short ∧ l.reader.next.2 ≠ .tooLarge ∧
        (l.flight = [] → l.reader.next.2 = .more → l.got = l.sent)) := by
  intro l
  have hk : l.Kept := Link.run_kept acts (reads_start frames [])
  exact ⟨hk.items, hk.fit⟩

def hello : GsqlFrame := ⟨15, 7, [104, 105, 33]⟩

def answer : GsqlFrame := ⟨16, 8, [1, 2]⟩

/-- Two frames on one stream, which is cut within each of them. -/
def cutWithin : List Act :=
  [.put hello, .put answer, .deliver 6, .next, .deliver 9, .next, .next, .deliver 8, .next]

/-- The second frame's first bytes come with the last of the first. -/
theorem frames_reassembled_two : (Link.start.run cutWithin).got = [hello, answer] := by
  have hfits : ∀ f ∈ (Link.start.run cutWithin).sent, f.Fits := by
    intro f hf
    rcases List.mem_pair.1 (show f ∈ [hello, answer] from hf) with rfl | rfl
    · exact ⟨by decide, by decide, by decide⟩
    · exact ⟨by decide, by decide, by decide⟩
  exact ((frames_reassembled cutWithin).2 hfits).2.2.2 (by decide +kernel) (by decide +kernel)

end Wire
end Gbasic
