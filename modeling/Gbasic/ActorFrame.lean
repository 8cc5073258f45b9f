import Gbasic.Framing
import Gbasic.Bytes
/-!
# ActorFrame — one frame of the Windows actor transport (src/actor.c)

A frame is its payload's length and its count of handles, the payload, then each handle's path under its length.
`channel_send_fds` lays it out and `send_frame_bytes` writes it, in parts where the socket takes it in parts;
`conn_take_frame` cuts it off a connection's buffer.
-/
namespace Gbasic
namespace Actor

open Framing
open List (length_append take_left drop_zero drop_left' append_assoc length_cons)

variable {e : Nat}

abbrev Bytes := List Byte

def ACTOR_WIN_MAX_MESSAGE : Nat := 4 * 1024 * 1024
def ACTOR_WIN_MAX_PATH : Nat := 4096
def ACTOR_MAX_MESSAGE_FDS : Nat := 32

/-- What a message carries. -/
structure Frame where
  payload : Bytes
  paths : List Bytes
deriving DecidableEq

def putU32 (v : Nat) : Bytes := lePut 4 v

def getU32 (b : Bytes) : Nat := leNat (b.take 4)

/-! ## Taking a frame off a buffer -/

inductive Fault where
  | short
  | corrupt
deriving DecidableEq

def pathsEnd (buf : Bytes) : Nat → Nat → Except Fault Nat
  | 0, pos => .ok pos
  | nh + 1, pos =>
    if buf.length < pos + 4 then .error .short
    else
      let pl := getU32 (buf.drop pos)
      if pl = 0 ∨ ACTOR_WIN_MAX_PATH < pl then .error .corrupt else pathsEnd buf nh (pos + (4 + pl))

def pathsAt (buf : Bytes) : Nat → Nat → List Bytes
  | 0, _ => []
  | nh + 1, pos =>
    let pl := getU32 (buf.drop pos)
    (buf.drop (pos + 4)).take pl :: pathsAt buf nh (pos + (4 + pl))

/-- `conn_take_frame`: 1 with the frame and the buffer after it, 0, or -1. -/
def connTakeFrame (buf : Bytes) : Front Byte Frame :=
  if buf.length < 8 then .short
  else
    let plen := getU32 buf
    let nh := getU32 (buf.drop 4)
    if ACTOR_WIN_MAX_MESSAGE < plen ∨ ACTOR_MAX_MESSAGE_FDS < nh then .corrupt
    else
      match pathsEnd buf nh (8 + plen) with
      | .error .short => .short
      | .error .corrupt => .corrupt
      | .ok pos =>
        if buf.length < pos then .short
        else .whole ⟨(buf.drop 8).take plen, pathsAt buf nh (8 + plen)⟩ (buf.drop pos)

theorem agree_getU32 {e : Nat} {buf buf' : Bytes} (h : Agree e buf buf') (pos : Nat) (hp : pos + 4 ≤ e) :
    getU32 (buf.drop pos) = getU32 (buf'.drop pos) :=
  congrArg leNat (h.window pos 4 hp)

theorem pathsEnd_le {buf : Bytes} : ∀ {nh pos e : Nat}, pathsEnd buf nh pos = .ok e → pos ≤ e
  | 0, pos, e, h => by
    cases h
    exact le_refl _
  | nh + 1, pos, e, h => by
    rw [pathsEnd] at h
    dsimp only at h
    split_ifs at h
    exact (Nat.le_add_right pos _).trans (pathsEnd_le h)

theorem pathsEnd_agree {buf buf' : Bytes} : ∀ {nh pos e : Nat}, pathsEnd buf nh pos = .ok e → Agree e buf buf' →
    pathsEnd buf' nh pos = .ok e ∧ pathsAt buf' nh pos = pathsAt buf nh pos
  | 0, pos, e, h, _ => ⟨h, rfl⟩
  | nh + 1, pos, e, h, ha => by
    rw [pathsEnd] at h
    dsimp only at h
    split_ifs at h with hshort hbad
    have hle := pathsEnd_le h
    have hget : getU32 (buf.drop pos) = getU32 (buf'.drop pos) := agree_getU32 ha pos (by omega)
    obtain ⟨hend, hpaths⟩ := pathsEnd_agree h ha
    have hlen : ¬ buf'.length < pos + 4 := by
      have := ha.2.1
      omega
    refine ⟨?_, ?_⟩
    · rw [pathsEnd, if_neg hlen, ← hget, if_neg hbad, hend]
    · rw [pathsAt, pathsAt, ← hget, hpaths, ha.window (pos + 4) (getU32 (buf.drop pos)) (by omega)]

theorem pathsEnd_corrupt {buf : Bytes} (ys : Bytes) : ∀ {nh pos : Nat}, pathsEnd buf nh pos = .error .corrupt →
    pathsEnd (buf ++ ys) nh pos = .error .corrupt
  | 0, pos, h => by cases h
  | nh + 1, pos, h => by
    rw [pathsEnd] at h
    dsimp only at h
    have ha := agree_append buf ys
    by_cases hshort : buf.length < pos + 4
    · rw [if_pos hshort] at h
      cases h
    rw [if_neg hshort] at h
    have hlen : ¬ (buf ++ ys).length < pos + 4 := by
      have := ha.2.1
      omega
    rw [pathsEnd, if_neg hlen]
    dsimp only
    rw [← agree_getU32 ha pos (by omega)]
    by_cases hbad : getU32 (buf.drop pos) = 0 ∨ ACTOR_WIN_MAX_PATH < getU32 (buf.drop pos)
    · rw [if_pos hbad]
    · rw [if_neg hbad] at h ⊢
      exact pathsEnd_corrupt ys h

theorem connTakeFrame_whole {buf rest : Bytes} {f : Frame} (h : connTakeFrame buf = .whole f rest) :
    ∃ pos, ¬ buf.length < 8 ∧
      ¬ (ACTOR_WIN_MAX_MESSAGE < getU32 buf ∨ ACTOR_MAX_MESSAGE_FDS < getU32 (buf.drop 4)) ∧
      pathsEnd buf (getU32 (buf.drop 4)) (8 + getU32 buf) = .ok pos ∧ pos ≤ buf.length ∧
      f = ⟨(buf.drop 8).take (getU32 buf), pathsAt buf (getU32 (buf.drop 4)) (8 + getU32 buf)⟩ ∧
      rest = buf.drop pos := by
  rw [connTakeFrame] at h
  dsimp only at h
  by_cases hlen : buf.length < 8
  · rw [if_pos hlen] at h
    cases h
  rw [if_neg hlen] at h
  by_cases hhead : ACTOR_WIN_MAX_MESSAGE < getU32 buf ∨ ACTOR_MAX_MESSAGE_FDS < getU32 (buf.drop 4)
  · rw [if_pos hhead] at h
    cases h
  rw [if_neg hhead] at h
  rcases hend : pathsEnd buf (getU32 (buf.drop 4)) (8 + getU32 buf) with fault | pos
  · rw [hend] at h
    cases fault <;> cases h
  · rw [hend] at h
    dsimp only at h
    by_cases hpos : buf.length < pos
    · rw [if_pos hpos] at h
      cases h
    rw [if_neg hpos] at h
    injection h with hf hr
    exact ⟨pos, hlen, hhead, rfl, Nat.le_of_not_lt hpos, hf.symm, hr.symm⟩

theorem connTakeFrame_ends {buf rest : Bytes} {f : Frame} (h : connTakeFrame buf = .whole f rest) :
    ∃ p, p ≠ [] ∧ buf = p ++ rest ∧ ∀ ys, connTakeFrame (p ++ ys) = .whole f ys := by
  obtain ⟨pos, hlen, hhead, hend, hpos, hf, hr⟩ := connTakeFrame_whole h
  have hle := pathsEnd_le hend
  have htake : (buf.take pos).length = pos := List.length_take_of_le hpos
  refine ⟨buf.take pos, ?_, ?_, ?_⟩
  · intro hnil
    rw [hnil, List.length_nil] at htake
    omega
  · rw [hr, List.take_append_drop]
  · intro ys
    have ha := agree_take hpos ys
    have hget := agree_getU32 ha 0 (by omega)
    rw [drop_zero, drop_zero] at hget
    have hget4 := agree_getU32 ha 4 (by omega)
    obtain ⟨hend', hpaths⟩ := pathsEnd_agree hend ha
    have hlen' := ha.2.1
    rw [connTakeFrame, if_neg (by omega)]
    dsimp only
    rw [← hget, ← hget4, if_neg hhead, hend']
    dsimp only
    rw [if_neg (by omega), hpaths, ← ha.window 8 (getU32 buf) (by omega), ← hf, drop_left' htake]

theorem connTakeFrame_stays {buf : Bytes} (h : connTakeFrame buf = .corrupt) (ys : Bytes) :
    connTakeFrame (buf ++ ys) = .corrupt := by
  rw [connTakeFrame] at h
  dsimp only at h
  by_cases hlen : buf.length < 8
  · rw [if_pos hlen] at h
    cases h
  rw [if_neg hlen] at h
  have ha := agree_append buf ys
  have hlen' := ha.2.1
  have hget := agree_getU32 ha 0 (by omega)
  rw [drop_zero, drop_zero] at hget
  rw [connTakeFrame, if_neg (by omega)]
  dsimp only
  rw [← hget, ← agree_getU32 ha 4 (by omega)]
  by_cases hhead : ACTOR_WIN_MAX_MESSAGE < getU32 buf ∨ ACTOR_MAX_MESSAGE_FDS < getU32 (buf.drop 4)
  · rw [if_pos hhead]
  rw [if_neg hhead] at h ⊢
  rcases hend : pathsEnd buf (getU32 (buf.drop 4)) (8 + getU32 buf) with fault | pos
  · rw [hend] at h
    cases fault
    · cases h
    · rw [pathsEnd_corrupt ys hend]
  · rw [hend] at h
    dsimp only at h
    split_ifs at h

def frames : Framer Byte Frame where
  front := connTakeFrame
  ends := connTakeFrame_ends
  stays := connTakeFrame_stays

@[simp] theorem frames_front (buf : Bytes) : frames.front buf = connTakeFrame buf := rfl

/-! ## Laying a frame out -/

/-- The handles as `channel_send_fds` lays them out. -/
def pathBytes (path : Bytes) : Bytes := putU32 path.length ++ path

def frameBytes (f : Frame) : Bytes :=
  putU32 f.payload.length ++ putU32 f.paths.length ++ f.payload ++ f.paths.flatMap pathBytes

/-- What a reader takes for a frame. -/
structure Frame.Fits (f : Frame) : Prop where
  payload : f.payload.length ≤ ACTOR_WIN_MAX_MESSAGE
  handles : f.paths.length ≤ ACTOR_MAX_MESSAGE_FDS
  paths : ∀ path ∈ f.paths, 0 < path.length ∧ path.length ≤ ACTOR_WIN_MAX_PATH

@[simp] theorem length_putU32 (v : Nat) : (putU32 v).length = 4 := length_lePut 4 v

theorem getU32_putU32 {v : Nat} (h : v < 256 ^ 4) (ys : Bytes) : getU32 (putU32 v ++ ys) = v := by
  have htake : (putU32 v ++ ys).take 4 = putU32 v := by
    rw [List.take_append_of_le_length (by rw [length_putU32]), List.take_of_length_le (by rw [length_putU32])]
  rw [getU32, htake]
  exact leNat_lePut 4 v h

theorem pathsEnd_written : ∀ {paths : List Bytes}, (∀ p ∈ paths, 0 < p.length ∧ p.length ≤ ACTOR_WIN_MAX_PATH) →
    ∀ before ys : Bytes,
      pathsEnd (before ++ (paths.flatMap pathBytes ++ ys)) paths.length before.length
        = .ok (before.length + (paths.flatMap pathBytes).length) ∧
      pathsAt (before ++ (paths.flatMap pathBytes ++ ys)) paths.length before.length = paths
  | [], _, before, ys => ⟨rfl, rfl⟩
  | p :: paths, h, before, ys => by
    obtain ⟨hpos, hmax⟩ := h p List.mem_cons_self
    have hsplit : before ++ ((p :: paths).flatMap pathBytes ++ ys)
        = (before ++ pathBytes p) ++ (paths.flatMap pathBytes ++ ys) := by
      rw [List.flatMap_cons]
      simp only [append_assoc]
    have hlen : (before ++ pathBytes p).length = before.length + (4 + p.length) := by
      rw [length_append, pathBytes, length_append, length_putU32]
    have hdrop : (before ++ ((p :: paths).flatMap pathBytes ++ ys)).drop before.length
        = putU32 p.length ++ (p ++ (paths.flatMap pathBytes ++ ys)) := by
      rw [List.drop_left, List.flatMap_cons, pathBytes]
      simp only [append_assoc]
    have hget : getU32 ((before ++ ((p :: paths).flatMap pathBytes ++ ys)).drop before.length) = p.length := by
      rw [hdrop]
      refine getU32_putU32 ?_ _
      have : ACTOR_WIN_MAX_PATH < 256 ^ 4 := by decide
      omega
    obtain ⟨hend, hpaths⟩ := pathsEnd_written (fun q hq => h q (List.mem_cons_of_mem p hq)) (before ++ pathBytes p) ys
    rw [← hsplit, hlen] at hend hpaths
    refine ⟨?_, ?_⟩
    · rw [length_cons, pathsEnd, if_neg, hget]
      · rw [if_neg (by omega), hend, List.flatMap_cons, length_append, pathBytes, length_append, length_putU32]
        congr 1
        omega
      · rw [hsplit, length_append, hlen]
        omega
    · have hpath : ((before ++ ((p :: paths).flatMap pathBytes ++ ys)).drop (before.length + 4)).take p.length = p := by
        rw [← List.drop_drop, hdrop, drop_left' (length_putU32 _), take_left]
      rw [length_cons, pathsAt, hget, hpath, hpaths]

/-- **What is laid out is what is taken**, payload and paths byte for byte, whatever follows. -/
theorem connTakeFrame_frameBytes {f : Frame} (h : f.Fits) (ys : Bytes) :
    connTakeFrame (frameBytes f ++ ys) = .whole f ys := by
  have hmsg : f.payload.length < 256 ^ 4 := lt_of_le_of_lt h.payload (by decide)
  have hfds : f.paths.length < 256 ^ 4 := lt_of_le_of_lt h.handles (by decide)
  have hbuf : frameBytes f ++ ys
      = putU32 f.payload.length ++ (putU32 f.paths.length ++ (f.payload ++ (f.paths.flatMap pathBytes ++ ys))) := by
    rw [frameBytes]
    simp only [append_assoc]
  have hget : getU32 (frameBytes f ++ ys) = f.payload.length := by
    rw [hbuf]
    exact getU32_putU32 hmsg _
  have hdrop : (frameBytes f ++ ys).drop 4
      = putU32 f.paths.length ++ (f.payload ++ (f.paths.flatMap pathBytes ++ ys)) := by
    rw [hbuf, drop_left' (length_putU32 _)]
  have hget4 : getU32 ((frameBytes f ++ ys).drop 4) = f.paths.length := by
    rw [hdrop]
    exact getU32_putU32 hfds _
  have hpay : ((frameBytes f ++ ys).drop 8).take f.payload.length = f.payload := by
    rw [show 8 = 4 + 4 from rfl, ← List.drop_drop, hdrop, drop_left' (length_putU32 _), take_left]
  have hhead : (putU32 f.payload.length ++ putU32 f.paths.length ++ f.payload).length = 8 + f.payload.length := by
    rw [length_append, length_append, length_putU32, length_putU32]
  obtain ⟨hend, hpaths⟩ :=
    pathsEnd_written h.paths (putU32 f.payload.length ++ putU32 f.paths.length ++ f.payload) ys
  have hall : (putU32 f.payload.length ++ putU32 f.paths.length ++ f.payload) ++ (f.paths.flatMap pathBytes ++ ys)
      = frameBytes f ++ ys := by
    rw [frameBytes]
    simp only [append_assoc]
  rw [hall, hhead] at hend hpaths
  have hlen : (frameBytes f).length = 8 + f.payload.length + (f.paths.flatMap pathBytes).length := by
    rw [frameBytes, length_append, hhead]
  have hmore : (frameBytes f ++ ys).length = (frameBytes f).length + ys.length := length_append
  have hp := h.payload
  have hh := h.handles
  rw [connTakeFrame, if_neg (by omega)]
  dsimp only
  rw [hget, hget4, if_neg (by omega), hend]
  dsimp only
  rw [if_neg (by omega), hpay, hpaths, drop_left' hlen]

theorem connTakeFrame_cut {f : Frame} (h : f.Fits) {n : Nat} (hn : n < (frameBytes f).length) :
    connTakeFrame ((frameBytes f).take n) = .short := by
  refine frames.short_of_cut (q := (frameBytes f).drop n) (b := f) ?_ ?_
  · rw [List.take_append_drop]
    have := connTakeFrame_frameBytes h []
    rw [List.append_nil] at this
    exact this
  · intro hnil
    have := List.length_drop (i := n) (l := frameBytes f)
    rw [hnil, List.length_nil] at this
    omega

/-! ## Sending it -/

/-- What a call of `send` does, and what the wait after a refusal says. -/
inductive SendAnswer where
  | took (more : Nat)
  | wouldBlock (room : Bool)
  | failed

inductive Rc where
  | ok
  | full
  | tooBig
  | error
deriving DecidableEq

/-- `send_frame_bytes` over the answers of the socket, with how much of the data is out.  `none`: still waiting. -/
def sendFrameBytes (data : Bytes) : List SendAnswer → Nat → Option Rc × Nat
  | [], sent => if sent < data.length then (none, sent) else (some .ok, sent)
  | a :: answers, sent =>
    if sent < data.length then
      match a with
      | .took more => sendFrameBytes data answers (sent + min (more + 1) (min (data.length - sent) 0x40000000))
      | .wouldBlock room =>
        if sent = 0 then (some .full, sent)
        else if room then sendFrameBytes data answers sent
        else (some .error, sent)
      | .failed => (some .error, sent)
    else (some .ok, sent)

theorem sendFrameBytes_ok {data : Bytes} : ∀ {answers : List SendAnswer} {sent out : Nat}, sent ≤ data.length →
    sendFrameBytes data answers sent = (some .ok, out) → out = data.length
  | [], sent, out, hs, h => by
    rw [sendFrameBytes] at h
    split_ifs at h
    · cases h
    · cases h
      omega
  | a :: answers, sent, out, hs, h => by
    by_cases hlt : sent < data.length
    · cases a with
      | took more =>
        rw [sendFrameBytes, if_pos hlt] at h
        exact sendFrameBytes_ok (by omega) h
      | wouldBlock room =>
        rw [sendFrameBytes, if_pos hlt] at h
        split_ifs at h
        · cases h
        · exact sendFrameBytes_ok hs h
        · cases h
      | failed =>
        rw [sendFrameBytes, if_pos hlt] at h
        cases h
    · rw [sendFrameBytes.eq_def] at h
      dsimp only at h
      rw [if_neg hlt] at h
      cases h
      omega

theorem sendFrameBytes_part {data : Bytes} : ∀ {answers : List SendAnswer} {sent out : Nat} {rc : Option Rc},
    sendFrameBytes data answers sent = (rc, out) → rc ≠ some .ok → out < data.length
  | [], sent, out, rc, h, hrc => by
    rw [sendFrameBytes] at h
    split_ifs at h with hlt
    · cases h
      exact hlt
    · cases h
      exact absurd rfl hrc
  | a :: answers, sent, out, rc, h, hrc => by
    by_cases hlt : sent < data.length
    · cases a with
      | took more =>
        rw [sendFrameBytes, if_pos hlt] at h
        exact sendFrameBytes_part h hrc
      | wouldBlock room =>
        rw [sendFrameBytes, if_pos hlt] at h
        split_ifs at h
        · cases h
          exact hlt
        · exact sendFrameBytes_part h hrc
        · cases h
          exact hlt
      | failed =>
        rw [sendFrameBytes, if_pos hlt] at h
        cases h
        exact hlt
    · rw [sendFrameBytes.eq_def] at h
      dsimp only at h
      rw [if_neg hlt] at h
      cases h
      exact absurd rfl hrc

structure WinPeer where
  path : Bytes
  s : Option Nat

abbrev Slots := List (Option WinPeer)

def slotPeer (slots : Slots) (handle : Int) : Option WinPeer :=
  if handle < 1 ∨ slots.length < handle then none else (slots[handle.toNat - 1]?).join

def socketHungUp (s : Option Nat) (hangUp : Bool) : Bool :=
  match s with
  | none => true
  | some _ => hangUp

def handlePaths (slots : Slots) (fds : List Int) : Option (List Bytes) :=
  fds.mapM (fun fd => (slotPeer slots fd).map WinPeer.path)

structure Sending where
  rc : Option Rc
  out : Bytes
  frame : Frame

def channelSendFds (slots : Slots) (writeFd : Int) (bytes : Bytes) (fds : List Int) (hangUp : Bool)
    (answers : List SendAnswer) : Sending :=
  if ACTOR_WIN_MAX_MESSAGE < bytes.length ∨ ACTOR_MAX_MESSAGE_FDS < fds.length then ⟨some .tooBig, [], ⟨bytes, []⟩⟩
  else
    match slotPeer slots writeFd with
    | none => ⟨some .error, [], ⟨bytes, []⟩⟩
    | some target =>
      if socketHungUp target.s hangUp then ⟨some .error, [], ⟨bytes, []⟩⟩
      else
        match handlePaths slots fds with
        | none => ⟨some .error, [], ⟨bytes, []⟩⟩
        | some paths =>
          let frame : Frame := ⟨bytes, paths⟩
          let r := sendFrameBytes (frameBytes frame) answers 0
          ⟨r.1, (frameBytes frame).take r.2, frame⟩

def Named (slots : Slots) (fds : List Int) : Prop :=
  ∀ fd ∈ fds, ∀ peer, slotPeer slots fd = some peer → 0 < peer.path.length ∧ peer.path.length ≤ ACTOR_WIN_MAX_PATH

theorem handlePaths_named {slots : Slots} : ∀ {fds : List Int} {paths : List Bytes},
    handlePaths slots fds = some paths →
    Named slots fds → paths.length = fds.length ∧ ∀ p ∈ paths, 0 < p.length ∧ p.length ≤ ACTOR_WIN_MAX_PATH
  | [], paths, h, _ => by
    cases h
    exact ⟨rfl, fun p hp => by cases hp⟩
  | fd :: fds, paths, h, hn => by
    rw [handlePaths, List.mapM_cons] at h
    obtain ⟨path, hpath, h⟩ := Option.bind_eq_some_iff.1 h
    obtain ⟨rest, hrest, h⟩ := Option.bind_eq_some_iff.1 h
    cases h
    obtain ⟨peer, hpeer, rfl⟩ := Option.map_eq_some_iff.1 hpath
    obtain ⟨hlen, hall⟩ := handlePaths_named hrest fun f hf => hn f (List.mem_cons_of_mem fd hf)
    refine ⟨by rw [length_cons, length_cons, hlen], ?_⟩
    intro p hp
    rcases List.mem_cons.1 hp with rfl | hp
    · exact hn fd List.mem_cons_self peer hpeer
    · exact hall p hp

/-- **What a send puts on the stream**: all of a frame a reader takes when it answers OK, and otherwise nothing or a
frame begun. -/
theorem channelSendFds_out (slots : Slots) (writeFd : Int) (bytes : Bytes) (fds : List Int) (hangUp : Bool)
    (answers : List SendAnswer) (hn : Named slots fds) :
    let r := channelSendFds slots writeFd bytes fds hangUp answers
    (r.rc = some .ok ∧ r.frame.Fits ∧ r.out = frameBytes r.frame) ∨
    (r.rc ≠ some .ok ∧ connTakeFrame r.out = .short) := by
  intro r
  have hshort : connTakeFrame [] = .short := rfl
  have hr : r = channelSendFds slots writeFd bytes fds hangUp answers := rfl
  rw [channelSendFds] at hr
  by_cases hbig : ACTOR_WIN_MAX_MESSAGE < bytes.length ∨ ACTOR_MAX_MESSAGE_FDS < fds.length
  · rw [if_pos hbig] at hr
    rw [hr]
    exact .inr ⟨by simp, hshort⟩
  rw [if_neg hbig] at hr
  rcases htarget : slotPeer slots writeFd with _ | target
  · rw [htarget] at hr
    rw [hr]
    exact .inr ⟨by simp, hshort⟩
  rw [htarget] at hr
  dsimp only at hr
  by_cases hhung : socketHungUp target.s hangUp = true
  · rw [if_pos hhung] at hr
    rw [hr]
    exact .inr ⟨by simp, hshort⟩
  rw [if_neg hhung] at hr
  rcases hpaths : handlePaths slots fds with _ | paths
  · rw [hpaths] at hr
    rw [hr]
    exact .inr ⟨by simp, hshort⟩
  rw [hpaths] at hr
  dsimp only at hr
  obtain ⟨hlen, hall⟩ := handlePaths_named hpaths hn
  have hfits : Frame.Fits ⟨bytes, paths⟩ := ⟨by dsimp only; omega, by dsimp only; omega, hall⟩
  rcases hsend : sendFrameBytes (frameBytes ⟨bytes, paths⟩) answers 0 with ⟨rc, out⟩
  rw [hsend] at hr
  dsimp only at hr
  rw [hr]
  by_cases hrc : rc = some .ok
  · refine .inl ⟨hrc, hfits, ?_⟩
    rw [hrc] at hsend
    dsimp only
    rw [sendFrameBytes_ok (Nat.zero_le _) hsend, List.take_length]
  · exact .inr ⟨hrc, connTakeFrame_cut hfits (sendFrameBytes_part hsend hrc)⟩

end Actor
end Gbasic
