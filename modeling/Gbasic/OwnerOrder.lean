import Mathlib
import Gbasic.OwnerReplies
/-!
# OwnerOrder — replies and writers, over a run

Every event keeps each open connection's mail, the queue of those who wait to write, and what a sync will put out
(`State.Posted`).  A malformed frame from a connection that waits is the one event that leaves it in the queue for good.
-/
namespace Gbasic
namespace Owner

open Lsm (Status)
open Key (Bytes)
open List (foldl_cons mem_append mem_singleton mem_map map_cons)

variable {c : Conn} {pre post : List Conn}

/-! ## A sync -/

theorem delivered_mail (st : Status) : ∀ (l : List Pend) (c : Conn), c.dead = false →
    (∀ p ∈ l, ∃ rep, p.frame = [⟨p.id, rep⟩]) →
    (l.foldl (deliver st) c).out.map Frame.id = c.out.map Frame.id ++ heldFor c.id l ∧
      ((l.foldl (deliver st) c).awaiting = true ↔ c.awaiting = true ∧ heldFor c.id l = [])
  | [], c, _, _ => by simp [heldFor]
  | p :: l, c, hdead, hl => by
    have hrest := fun q hq => hl q (List.mem_cons_of_mem _ hq)
    obtain ⟨rep, hp⟩ := hl p List.mem_cons_self
    rw [foldl_cons]
    by_cases hc : p.conn = some c.id
    · have hheld : heldFor c.id (p :: l) = p.id :: heldFor c.id l := by
        simp [heldFor, hc]
      have hid : (deliver st c p).id = c.id := by
        rw [deliver]
        split_ifs <;> rfl
      have hd : (deliver st c p).dead = false := by
        rw [deliver]
        split_ifs <;> exact hdead
      obtain ⟨hout, haw⟩ := delivered_mail st l (deliver st c p) hd hrest
      rw [hid] at hout haw
      rw [hout, haw, hheld, deliver, if_pos ⟨hc, hdead⟩]
      refine ⟨?_, by simp⟩
      by_cases hst : st = .ok
      · rw [if_pos hst, List.map_append, hp]
        simp
      · rw [if_neg hst, List.map_append]
        simp
    · have hheld : heldFor c.id (p :: l) = heldFor c.id l := by
        simp [heldFor, hc]
      have hsame : deliver st c p = c := by
        rw [deliver, if_neg (fun h => hc h.1)]
      rw [hsame, hheld]
      exact delivered_mail st l c hdead hrest

theorem mem_delivered {st : Status} {f : Frame} : ∀ {l : List Pend} {c : Conn}, f ∈ (l.foldl (deliver st) c).out →
    f ∈ c.out ∨ f.reply.commit = none ∨ (st = .ok ∧ ∃ p ∈ l, f ∈ p.frame)
  | [], c, h => .inl h
  | p :: l, c, h => by
    rw [foldl_cons] at h
    rcases mem_delivered h with h | h | ⟨hst, q, hq, hf⟩
    · rw [deliver] at h
      split_ifs at h with hc hst
      · rcases mem_append.1 h with h | h
        · exact .inl h
        · exact .inr (.inr ⟨hst, p, List.mem_cons_self, h⟩)
      · rcases mem_append.1 h with h | h
        · exact .inl h
        · rw [mem_singleton.1 h]
          exact .inr (.inl rfl)
      · exact .inl h
    · exact .inr (.inl h)
    · exact .inr (.inr ⟨hst, q, List.mem_cons_of_mem _ hq, hf⟩)

theorem delivered_dead (st : Status) : ∀ (l : List Pend) (c : Conn), (l.foldl (deliver st) c).dead = c.dead ∧
    (l.foldl (deliver st) c).closing = c.closing
  | [], c => ⟨rfl, rfl⟩
  | p :: l, c => by
    obtain ⟨hd, hc⟩ := delivered_dead st l (deliver st c p)
    rw [foldl_cons, hd, hc, deliver]
    split_ifs <;> exact ⟨rfl, rfl⟩

theorem delivered_rests (st : Status) : ∀ (l : List Pend) (c : Conn), c.awaiting = false →
    (l.foldl (deliver st) c).awaiting = false
  | [], _, h => h
  | p :: l, c, h => by
    rw [foldl_cons]
    refine delivered_rests st l _ ?_
    rw [deliver]
    split_ifs
    · rfl
    · rfl
    · exact h

/-! ## What every event keeps -/

structure State.Posted (o : State) : Prop where
  mail : ∀ c ∈ o.conns, c.closing = false → c.dead = false → (desk ⟨o.sh, c⟩).Mail
  line : ∀ c ∈ o.conns, c.queued = true → (desk ⟨o.sh, c⟩).InLine
  slot : ∀ c ∈ o.conns, (desk ⟨o.sh, c⟩).Slot
  taken : ∀ i, o.sh.writer = some i → i < o.accepted
  nodup : o.sh.fifo.Nodup
  queue : ∀ i, i ∈ o.sh.fifo ↔ ∃ c ∈ o.conns, c.id = i ∧ c.queued = true
  group : ∀ p ∈ o.sh.group, (∀ i, p.conn = some i → i < o.accepted) ∧ p.Made o.sh.log
  out : ∀ c ∈ o.conns, ∀ f ∈ c.out, ∀ k, f.reply.commit = some k → Durable o.sh.log k.txn

/-- No malformed frame comes from a connection that waits to write. -/
def Calm (o : State) : Event → Prop
  | .malformed id _ => ∀ c ∈ o.conns, c.id = id → c.queued = false
  | _ => True

instance : (o : State) → (e : Event) → Decidable (Calm o e)
  | o, .malformed id _ => inferInstanceAs (Decidable (∀ c ∈ o.conns, c.id = id → c.queued = false))
  | _, .tick _ | _, .accept | _, .arrives .. | _, .timeouts _ | _, .gone _ | _, .answer .. | _, .slice .. | _, .sync _
  | _, .flushed .. | _, .finish _ | _, .reap _ | _, .stop => isTrue trivial

section
variable {o o' : State} {e : Event}

theorem Pend.Made.later {log : List Asked} {p : Pend} (h : p.Made log) (new : List Asked) : p.Made (new ++ log) := by
  obtain ⟨rep, hp, hk⟩ := h
  refine ⟨rep, hp, fun k hc => ?_⟩
  obtain ⟨b, hb⟩ := hk k hc
  exact ⟨b, List.mem_append_right _ hb⟩

theorem mail_of_group {d d' : Desk} (h : d.Mail) (hg : heldFor d.id d'.group = heldFor d.id d.group)
    (hsame : d' = { d with group := d'.group, fifo := d'.fifo, writer := d'.writer, svc := d'.svc, log := d'.log }) :
    d'.Mail := by
  rw [hsame]
  refine ⟨?_, ?_, h.works⟩
  · show d.got = d.out.map Frame.id ++ heldFor d.id d'.group ++ d.reqs.map Req.id
    rw [hg]
    exact h.got
  · show d.awaiting = true ↔ heldFor d.id d'.group ≠ []
    rw [hg]
    exact h.held

theorem inLine_of_svc {sh sh' : Shared} (h : (desk ⟨sh, c⟩).InLine) (hs : sh'.svc = sh.svc) :
    (desk ⟨sh', c⟩).InLine := by
  obtain ⟨hc, hw, ha, r, rs, hr, hwaits⟩ := h
  refine ⟨hc, hw, ha, r, rs, hr, hwaits.hello, hwaits.tx, ?_⟩
  show r.writer sh'.svc = true
  rw [hs]
  exact hwaits.writer

theorem State.Posted.accept (h : o.Posted) :
    ({ o with conns := o.conns ++ [Conn.start o.accepted], accepted := o.accepted + 1 } : State).Posted := by
  have hnew : heldFor o.accepted o.sh.group = [] := by
    rw [heldFor, List.map_eq_nil_iff, List.filter_eq_nil_iff]
    intro p hp hpc
    have := (h.group p hp).1 _ (by simpa using hpc)
    omega
  refine ⟨fun c hc hcl hd => ?_, fun c hc hq => ?_, fun c hc => ?_, fun i hi => ?_, h.nodup, fun i => ?_,
    fun p hp => ?_, fun c hc => ?_⟩
  · rcases mem_append.1 hc with hc | hc
    · exact h.mail c hc hcl hd
    · rw [mem_singleton.1 hc]
      refine ⟨?_, ?_, fun hw => by cases hw⟩
      · show [] = [] ++ heldFor o.accepted o.sh.group ++ []
        rw [hnew]
        rfl
      · show false = true ↔ heldFor o.accepted o.sh.group ≠ []
        rw [hnew]
        simp
  · rcases mem_append.1 hc with hc | hc
    · exact h.line c hc hq
    · rw [mem_singleton.1 hc] at hq
      cases hq
  · rcases mem_append.1 hc with hc | hc
    · exact h.slot c hc
    · rw [mem_singleton.1 hc]
      intro hw
      exact absurd (h.taken _ hw) (Nat.lt_irrefl _)
  · exact Nat.lt_succ_of_lt (h.taken i hi)
  · rw [show (({ o with conns := o.conns ++ [Conn.start o.accepted], accepted := o.accepted + 1 } : State)).sh.fifo =
      o.sh.fifo from rfl, h.queue i]
    constructor
    · rintro ⟨c, hc, hid, hq⟩
      exact ⟨c, List.mem_append_left _ hc, hid, hq⟩
    · rintro ⟨c, hc, hid, hq⟩
      rcases mem_append.1 hc with hc | hc
      · exact ⟨c, hc, hid, hq⟩
      · rw [mem_singleton.1 hc] at hq
        cases hq
  · exact ⟨fun i hi => Nat.lt_succ_of_lt ((h.group p hp).1 i hi), (h.group p hp).2⟩
  · rcases mem_append.1 hc with hc | hc
    · exact h.out c hc
    · rw [mem_singleton.1 hc]
      exact fun f hf => by cases hf

theorem State.Posted.synced (h : o.Posted) (st : Status) : (groupSync st o).Posted := by
  have hone : ∀ p ∈ o.sh.group, ∃ rep, p.frame = [⟨p.id, rep⟩] := fun p hp => by
    obtain ⟨-, rep, hf, -⟩ := h.group p hp
    exact ⟨rep, hf⟩
  refine ⟨fun c hc hcl hd => ?_, fun c hc hq => ?_, fun c hc => ?_, h.taken, h.nodup, fun i => ?_, fun p hp => ?_,
    fun c hc f hf k hk => ?_⟩
  · obtain ⟨b, hb, rfl⟩ := mem_map.1 hc
    obtain ⟨hdead, hclosing⟩ := delivered_dead st o.sh.group b
    rw [hdead] at hd
    rw [hclosing] at hcl
    obtain ⟨out, awaiting, hsame⟩ := delivered st o.sh.group b
    obtain ⟨hout, haw⟩ := delivered_mail st o.sh.group b hd hone
    have hmail := h.mail b hb hcl hd
    rw [hsame] at hout haw ⊢
    refine ⟨?_, ?_, fun hw => ?_⟩
    · show b.got = out.map Frame.id ++ [] ++ b.reqs.map Req.id
      rw [hout, List.append_nil]
      exact hmail.got
    · show awaiting = true ↔ [] ≠ []
      rw [show (awaiting = true ↔ b.awaiting = true ∧ heldFor b.id o.sh.group = []) from haw]
      simp only [ne_eq, not_true_eq_false, iff_false]
      exact fun ⟨ha, hn⟩ => hmail.held.1 ha hn
    · obtain ⟨ha, r, rs, hr, hid⟩ := hmail.works hw
      refine ⟨?_, r, rs, hr, hid⟩
      have hrests := delivered_rests st o.sh.group b ha
      rw [hsame] at hrests
      exact hrests
  · obtain ⟨b, hb, rfl⟩ := mem_map.1 hc
    obtain ⟨out, awaiting, hsame⟩ := delivered st o.sh.group b
    rw [hsame] at hq ⊢
    obtain ⟨hcl, hw, ha, r, rs, hr, hwaits⟩ := h.line b hb hq
    have hrests := delivered_rests st o.sh.group b ha
    rw [hsame] at hrests
    exact ⟨hcl, hw, hrests, r, rs, hr, hwaits.hello, hwaits.tx, hwaits.writer⟩
  · obtain ⟨b, hb, out, awaiting, rfl⟩ := mem_synced hc
    exact h.slot b hb
  · rw [show (groupSync st o).sh.fifo = o.sh.fifo from rfl, h.queue i]
    constructor
    · rintro ⟨b, hb, hid, hq⟩
      obtain ⟨out, awaiting, hsame⟩ := delivered st o.sh.group b
      refine ⟨_, List.mem_map_of_mem hb, ?_, ?_⟩
      · rw [hsame]
        exact hid
      · rw [hsame]
        exact hq
    · rintro ⟨c, hc, hid, hq⟩
      obtain ⟨b, hb, out, awaiting, rfl⟩ := mem_synced hc
      exact ⟨b, hb, hid, hq⟩
  · cases hp
  · obtain ⟨b, hb, rfl⟩ := mem_map.1 hc
    show Durable (.synced st :: o.sh.log) k.txn
    rcases mem_delivered hf with hf | hf | ⟨hst, p, hp, hfp⟩
    · exact (h.out b hb f hf k hk).later [.synced st]
    · rw [hf] at hk
      cases hk
    · obtain ⟨-, rep, hframe, hmade⟩ := h.group p hp
      rw [hframe] at hfp
      rw [mem_singleton.1 hfp] at hk
      obtain ⟨b, hb⟩ := hmade k hk
      rw [hst]
      exact ⟨[], o.sh.log, b, rfl, hb⟩

theorem exists_middle {P : Conn → Prop} : (∃ d ∈ pre ++ c :: post, P d) ↔ P c ∨ ∃ d ∈ pre ++ post, P d := by
  constructor
  · rintro ⟨d, hd, hp⟩
    rcases mem_append.1 hd with hd | hd
    · exact .inr ⟨d, List.mem_append_left _ hd, hp⟩
    · rcases List.mem_cons.1 hd with rfl | hd
      · exact .inl hp
      · exact .inr ⟨d, List.mem_append_right _ hd, hp⟩
  · rintro (hp | ⟨d, hd, hp⟩)
    · exact ⟨c, by simp, hp⟩
    · exact ⟨d, mem_middle hd, hp⟩

/-- A connection's turn, beside the others. -/
theorem State.Posted.turn (h : o.Posted) (hsane : o.Sane) {sh : Shared} {c' : Conn} (hl : o.conns = pre ++ c :: post)
    (ht : Turned (desk ⟨o.sh, c⟩) e (desk ⟨sh, c'⟩)) (hcalm : ∀ id short, e = .malformed id short → c.queued = false) :
    ({ o with sh := sh, conns := pre ++ c' :: post } : State).Posted := by
  have hc : c ∈ o.conns := by rw [hl]; simp
  have hid : c'.id = c.id := ht.id
  have hline := h.line c hc
  have hslot := h.slot c hc
  have hslots := ht.slot hslot
  have hposts := ht.posts hslot
  obtain ⟨new, hlog, -⟩ := hposts.log
  have hlog : sh.log = new ++ o.sh.log := hlog
  have hlined := ht.lined hline hslot
  have hother := hsane.others hl
  have hmem : ∀ d ∈ pre ++ c' :: post, d = c' ∨ d ∈ pre ++ post := by
    intro d hd
    rcases mem_append.1 hd with hd | hd
    · exact .inr (List.mem_append_left _ hd)
    · rcases List.mem_cons.1 hd with hd | hd
      · exact .inl hd
      · exact .inr (List.mem_append_right _ hd)
  have hgroup : ∀ i, i ≠ c.id → heldFor i sh.group = heldFor i o.sh.group := by
    intro i hi
    rcases hposts.group with hg | ⟨p, hg, hp, -⟩
    · exact congrArg (heldFor i) hg
    · rw [show sh.group = o.sh.group ++ [p] from hg, heldFor_append, if_neg, List.append_nil]
      rw [hp]
      exact fun he => hi (Option.some.inj he).symm
  have hqueue : ∀ i, i ∈ o.sh.fifo ↔ (c.id = i ∧ c.queued = true) ∨ ∃ d ∈ pre ++ post, d.id = i ∧ d.queued = true := by
    intro i
    rw [h.queue i, hl, exists_middle]
  have hlone : ∀ i, (∃ d ∈ pre ++ post, d.id = i ∧ d.queued = true) → i ≠ c.id := by
    rintro i ⟨d, hd, rfl, -⟩
    exact (hother d hd).2
  refine ⟨fun d hd hcl hdead => ?_, fun d hd hq => ?_, fun d hd => ?_, fun i hi => ?_, ?_, fun i => ?_, fun p hp => ?_,
    fun d hd f hf k hk => ?_⟩
  · rcases hmem d hd with rfl | hd
    · exact ht.mail (h.mail c hc) hline hcl hdead
    · obtain ⟨hdo, hne⟩ := hother d hd
      exact mail_of_group (h.mail d hdo hcl hdead) (hgroup d.id hne) rfl
  · rcases hmem d hd with rfl | hd
    · exact ht.inLine hline hslot hcalm hq
    · exact inLine_of_svc (h.line d (hother d hd).1 hq) hposts.svc
  · rcases hmem d hd with rfl | hd
    · exact hslots.1
    · obtain ⟨hdo, hne⟩ := hother d hd
      intro hw
      have hw : sh.writer = some d.id := hw
      rcases hslots.2 with hs | hs | hs
      · exact h.slot d hdo ((show o.sh.writer = sh.writer from hs.symm).trans hw)
      · rw [show sh.writer = none from hs] at hw
        cases hw
      · rw [show sh.writer = some c.id from hs] at hw
        exact absurd (Option.some.inj hw).symm hne
  · have hi : sh.writer = some i := hi
    rcases hslots.2 with hs | hs | hs
    · exact h.taken i ((show o.sh.writer = sh.writer from hs.symm).trans hi)
    · rw [show sh.writer = none from hs] at hi
      cases hi
    · rw [show sh.writer = some c.id from hs] at hi
      rw [← Option.some.inj hi]
      exact hsane.below c hc
  · show sh.fifo.Nodup
    cases hlined with
    | same _ hf =>
      rw [show sh.fifo = o.sh.fifo from hf]
      exact h.nodup
    | joins hq _ hf =>
      rw [show sh.fifo = o.sh.fifo ++ [c.id] from hf, List.nodup_append]
      refine ⟨h.nodup, List.nodup_singleton _, fun x hx y hy => ?_⟩
      rw [mem_singleton.1 hy]
      rintro rfl
      rcases (hqueue _).1 hx with ⟨-, hq'⟩ | hd
      · rw [show c.queued = false from hq] at hq'
        cases hq'
      · exact hlone _ hd rfl
    | leaves _ _ hf =>
      rw [show sh.fifo = o.sh.fifo.erase c.id from hf]
      exact h.nodup.erase _
  · show i ∈ sh.fifo ↔ ∃ d ∈ pre ++ c' :: post, d.id = i ∧ d.queued = true
    rw [exists_middle, hid]
    cases hlined with
    | same hq hf =>
      rw [show sh.fifo = o.sh.fifo from hf, hqueue i, show c'.queued = c.queued from hq]
    | joins hq hq' hf =>
      rw [show sh.fifo = o.sh.fifo ++ [c.id] from hf, mem_append, hqueue i, show c'.queued = true from hq',
        show c.queued = false from hq]
      simp only [mem_singleton, Bool.false_eq_true, and_false, false_or, and_true]
      rw [or_comm, eq_comm]
    | leaves hq hq' hf =>
      rw [show sh.fifo = o.sh.fifo.erase c.id from hf, h.nodup.mem_erase_iff, hqueue i, show c'.queued = false from hq']
      constructor
      · rintro ⟨hne, ⟨he, -⟩ | hd⟩
        · exact absurd he.symm hne
        · exact .inr hd
      · rintro (⟨-, hb⟩ | hd)
        · cases hb
        · exact ⟨hlone i hd, .inr hd⟩
  · show (∀ i, p.conn = some i → i < o.accepted) ∧ p.Made sh.log
    rw [hlog]
    rcases hposts.group with hg | ⟨q, hg, hq, hmade⟩
    · have hp : p ∈ o.sh.group := (show sh.group = o.sh.group from hg) ▸ hp
      exact ⟨(h.group p hp).1, (h.group p hp).2.later new⟩
    · have hp : p ∈ o.sh.group ++ [q] := (show sh.group = o.sh.group ++ [q] from hg) ▸ hp
      rcases mem_append.1 hp with hp | hp
      · exact ⟨(h.group p hp).1, (h.group p hp).2.later new⟩
      · rw [mem_singleton.1 hp]
        refine ⟨fun i hi => ?_, hlog ▸ hmade⟩
        rw [hq] at hi
        rw [← Option.some.inj hi]
        exact hsane.below c hc
  · show Durable sh.log k.txn
    rw [hlog]
    rcases hmem d hd with rfl | hd
    · obtain ⟨l, hout, hplain⟩ := hposts.out
      rw [show d.out = c.out ++ l from hout] at hf
      rcases mem_append.1 hf with hf | hf
      · exact (h.out c hc f hf k hk).later new
      · rw [hplain f hf] at hk
        cases hk
    · exact (h.out d (hother d hd).1 f hf k hk).later new

theorem State.Posted.reaped (h : o.Posted) (hsane : o.Sane) {sh : Shared} (hl : o.conns = pre ++ c :: post)
    (hf : sh.fifo = if c.queued then o.sh.fifo.erase c.id else o.sh.fifo)
    (hw : sh.writer = if o.sh.writer = some c.id then none else o.sh.writer)
    (hg : sh.group = o.sh.group.map (fun p => if p.conn = some c.id then { p with conn := none } else p))
    (ha : sh.log = o.sh.log) (hs : sh.svc = o.sh.svc) : ({ o with sh := sh, conns := pre ++ post } : State).Posted := by
  have hother := hsane.others hl
  have hgroup : ∀ i, i ≠ c.id → heldFor i sh.group = heldFor i o.sh.group := by
    intro i hi
    rw [hg]
    induction o.sh.group with
    | nil => rfl
    | cons p l ih =>
      rw [heldFor, heldFor] at ih ⊢
      rw [map_cons]
      by_cases hp : p.conn = some c.id
      · rw [if_pos hp, List.filter_cons_of_neg (by simp), List.filter_cons_of_neg (by simp [hp, Ne.symm hi])]
        exact ih
      · rw [if_neg hp]
        by_cases hpi : p.conn = some i
        · rw [List.filter_cons_of_pos (by simp [hpi]), List.filter_cons_of_pos (by simp [hpi]), map_cons, ih,
            map_cons]
        · rw [List.filter_cons_of_neg (by simp [hpi]), List.filter_cons_of_neg (by simp [hpi])]
          exact ih
  have hwriter : ∀ i, sh.writer = some i → o.sh.writer = some i := by
    intro i hi
    rw [hw] at hi
    split_ifs at hi
    exact hi
  refine ⟨fun d hd hcl hdead => ?_, fun d hd hq => ?_, fun d hd hwd => ?_, fun i hi => h.taken i (hwriter i hi), ?_,
    fun i => ?_, fun p hp => ?_, fun d hd f hfd k hk => ?_⟩
  · obtain ⟨hdo, hne⟩ := hother d hd
    exact mail_of_group (h.mail d hdo hcl hdead) (hgroup d.id hne) rfl
  · exact inLine_of_svc (h.line d (hother d hd).1 hq) hs
  · exact h.slot d (hother d hd).1 (hwriter _ hwd)
  · show sh.fifo.Nodup
    rw [hf]
    split_ifs
    · exact h.nodup.erase _
    · exact h.nodup
  · show i ∈ sh.fifo ↔ ∃ d ∈ pre ++ post, d.id = i ∧ d.queued = true
    have hqueue : i ∈ o.sh.fifo ↔ (c.id = i ∧ c.queued = true) ∨ ∃ d ∈ pre ++ post, d.id = i ∧ d.queued = true := by
      rw [h.queue i, hl, exists_middle]
    have hlone : (∃ d ∈ pre ++ post, d.id = i ∧ d.queued = true) → i ≠ c.id := by
      rintro ⟨d, hd, rfl, -⟩
      exact (hother d hd).2
    rw [hf]
    split_ifs with hq
    · rw [h.nodup.mem_erase_iff, hqueue]
      constructor
      · rintro ⟨hne, ⟨he, -⟩ | hd⟩
        · exact absurd he.symm hne
        · exact hd
      · exact fun hd => ⟨hlone hd, .inr hd⟩
    · rw [hqueue]
      constructor
      · rintro (⟨-, hq'⟩ | hd)
        · exact absurd hq' hq
        · exact hd
      · exact .inr
  · have hp : p ∈ sh.group := hp
    show (∀ i, p.conn = some i → i < o.accepted) ∧ p.Made sh.log
    rw [hg] at hp
    rw [ha]
    obtain ⟨q, hq, rfl⟩ := mem_map.1 hp
    obtain ⟨hbelow, hmade⟩ := h.group q hq
    split_ifs
    · exact ⟨fun i hi => absurd hi (by simp), hmade⟩
    · exact ⟨hbelow, hmade⟩
  · show Durable sh.log k.txn
    rw [ha]
    exact h.out d (hother d hd).1 f hfd k hk

/-- **Every event keeps it**, where no malformed frame comes from who waits to write. -/
theorem State.Posted.step (h : o.Posted) (hsane : o.Sane) (hcalm : Calm o e) (hs : Owner.step o e = some o') :
    o'.Posted := by
  cases hsane.stepped hs with
  | tick | stop => exact ⟨h.mail, h.line, h.slot, h.taken, h.nodup, h.queue, h.group, h.out⟩
  | accept => exact h.accept
  | sync st => exact h.synced st
  | reap sh pre post c hl _ hf hw hg ha hsvc => exact h.reaped hsane hl hf hw hg ha hsvc
  | turn _ sh pre post c c' hl he hsvc ht =>
    refine h.turn hsane hl ht (fun id short hm => ?_)
    subst hm
    cases he
    exact hcalm c (by rw [hl]; simp) rfl

theorem Runs.posted {svc : Option Service} {opt : Options} (h : Runs Calm svc opt o) : o.Posted := by
  induction h with
  | start =>
    refine ⟨fun c hc => ?_, fun c hc => ?_, fun c hc => ?_, fun i hi => ?_, List.nodup_nil, fun i => ?_, fun p hp => ?_,
      fun c hc => ?_⟩
    · cases hc
    · cases hc
    · cases hc
    · cases hi
    · exact ⟨fun h => (by cases h), fun ⟨_, hc, _⟩ => (by cases hc)⟩
    · cases hp
    · cases hc
  | step h e hp hs ih => exact ih.step h.sane hp hs

end

/-- Writers are admitted in the order they queued: the queue changes at its end, or at its front by an answer, or gives
up one that cancels or goes; and only who is first, where any wait, begins to write. -/
def Admits (o : State) (e : Event) (o' : State) : Prop :=
  (o'.sh.fifo = o.sh.fifo ∨ (∃ i, i ∉ o.sh.fifo ∧ o'.sh.fifo = o.sh.fifo ++ [i]) ∨
    ∃ i, o'.sh.fifo = o.sh.fifo.erase i ∧ ((∃ a, e = .answer i a) → o.sh.fifo.head? = some i)) ∧
  ∃ new, o'.sh.log = new ++ o.sh.log ∧ ∀ t, .began t ∈ new →
    ∃ i a, e = .answer i a ∧ o.sh.writer = none ∧ (o.sh.fifo = [] ∨ o.sh.fifo.head? = some i)

theorem State.Posted.admits {o o' : State} {e : Event} (h : o.Posted) (hsane : o.Sane) (hs : Owner.step o e = some o') :
    Admits o e o' := by
  have hnone : ∀ {t : Txn}, Asked.began t ∉ ([] : List Asked) := fun h => by cases h
  cases hsane.stepped hs with
  | tick | stop | accept => exact ⟨.inl rfl, [], rfl, fun t ht => absurd ht hnone⟩
  | sync st =>
    refine ⟨.inl rfl, [.synced st], rfl, fun t ht => ?_⟩
    cases mem_singleton.1 ht
  | reap sh pre post c hl _ hf hw hg ha =>
    refine ⟨?_, [], ha, fun t ht => absurd ht hnone⟩
    by_cases hq : c.queued = true
    · rw [if_pos hq] at hf
      exact .inr (.inr ⟨c.id, hf, fun ⟨a, he⟩ => by cases he⟩)
    · rw [if_neg hq] at hf
      exact .inl hf
  | turn _ sh pre post c c' hl he hsvc ht =>
    have hc : c ∈ o.conns := by rw [hl]; simp
    have hin : c.queued = false → c.id ∉ o.sh.fifo := by
      intro hq hmem
      obtain ⟨d, hd, hid, hqd⟩ := (h.queue c.id).1 hmem
      rw [eq_of_id hsane hd hc hid, hq] at hqd
      cases hqd
    refine ⟨?_, ?_⟩
    · cases ht.lined (h.line c hc) (h.slot c hc) with
      | same _ hf => exact .inl hf
      | joins hq _ hf => exact .inr (.inl ⟨c.id, hin hq, hf⟩)
      | leaves hq _ hf hfirst =>
        refine .inr (.inr ⟨c.id, hf, fun ⟨a, ha⟩ => ?_⟩)
        rcases hfirst ⟨c.id, a, ha⟩ with hempty | hhead
        · have hmem := (h.queue c.id).2 ⟨c, hc, rfl, hq⟩
          rw [show o.sh.fifo = [] from hempty] at hmem
          cases hmem
        · exact hhead
    · obtain ⟨new, hnew, hbegan⟩ := (ht.posts (h.slot c hc)).log
      refine ⟨new, hnew, fun t hmem => ?_⟩
      by_cases hans : ∃ id a, e = .answer id a
      · obtain ⟨id, a, rfl⟩ := hans
        cases he
        exact ⟨c.id, a, rfl, hbegan t hmem⟩
      · -- no other event begins to write
        have hsame := ht.log_same (fun id a he => hans ⟨id, a, he⟩)
        rw [hsame] at hnew
        rw [List.self_eq_append_left.1 hnew] at hmem
        cases hmem

/-- **Every request is answered once, in order; a commit is reported when it is durable; who waits to write is admitted
in order, and can run.** -/
theorem requests_answered_in_order {svc : Option Service} {opt : Options} {o : State} (h : Runs Calm svc opt o) :
    (∀ c ∈ o.conns, c.closing = false → c.dead = false →
      c.got = c.out.map Frame.id ++ heldFor c.id o.sh.group ++ c.reqs.map Req.id) ∧
    (∀ c ∈ o.conns, ∀ f ∈ c.out, ∀ k, f.reply.commit = some k → Durable o.sh.log k.txn) ∧
    (∀ e o', step o e = some o' → Admits o e o') ∧
    o.sh.fifo.Nodup ∧
    ∀ i ∈ o.sh.fifo, ∃ c ∈ o.conns, c.id = i ∧ (c.dead = false → c.answers = true) := by
  have hp := h.posted
  refine ⟨fun c hc hcl hd => (hp.mail c hc hcl hd).got, hp.out, fun e o' hs => hp.admits h.sane hs, hp.nodup,
    fun i hi => ?_⟩
  obtain ⟨c, hc, hid, hq⟩ := (hp.queue i).1 hi
  obtain ⟨hcl, hw, ha, r, rs, hr, -⟩ := hp.line c hc hq
  refine ⟨c, hc, hid, fun hd => ?_⟩
  have hcl : c.closing = false := hcl
  have hw : c.work = none := hw
  have ha : c.awaiting = false := ha
  have hr : c.reqs = r :: rs := hr
  rw [Conn.answers, hcl, hd, hw, ha, hr]
  rfl

/-! ## Two writers -/

def writes (conn : Nat) : List Event :=
  [.accept, sends conn .hello 1 false [("major", .u64 1), ("minor", .u64 0)], .answer conn slow,
    sends conn .begin 2 false [("mode", .text (text "write"))], .answer conn slow]

/-- The first commits, its DONE is put out by a sync, and the second is admitted. -/
theorem requests_answered_in_order_two : ∃ o, Runs Calm (some fullService) noOptions o ∧
    o.sh.fifo = [] ∧ o.sh.writer = some 1 ∧ (∃ c ∈ o.conns,
      c.id = 0 ∧ c.got = [1, 2, 3] ∧ c.out.map Frame.id = [1, 2, 3]) ∧ Durable o.sh.log 0 := by
  have hrun : ((State.start (some fullService) noOptions).runs Calm (writes 0 ++ writes 1 ++
      [sends 0 .commit 3 false [], .answer 0 slow, .sync .ok, .answer 1 slow])).any (fun o =>
        decide (o.sh.fifo = [] ∧ o.sh.writer = some 1) && o.conns.any (fun c => decide (c.id = 0 ∧ c.got = [1, 2, 3] ∧
          c.out.map Frame.id = [1, 2, 3]) && c.out.any (fun f => decide (f.reply.commit = some ⟨1, 0⟩)))) = true := by
    decide +kernel
  obtain ⟨o, ho, hfacts⟩ := (Option.any_eq_true _ _).1 hrun
  rw [Bool.and_eq_true, decide_eq_true_eq, List.any_eq_true] at hfacts
  obtain ⟨⟨hfifo, hwriter⟩, c, hc, hout⟩ := hfacts
  rw [Bool.and_eq_true, decide_eq_true_eq, List.any_eq_true] at hout
  obtain ⟨hids, f, hf, hk⟩ := hout
  rw [decide_eq_true_eq] at hk
  have hruns : Runs Calm (some fullService) noOptions o := Runs.start.follow ho
  exact ⟨o, hruns, hfifo, hwriter, ⟨c, hc, hids⟩, (requests_answered_in_order hruns).2.1 c hc f hf _ hk⟩

/-! ## A backlog of replies -/

def atOnce (body : Rows) : Answers := { slow with run := fun _ => .rows body false }

/-- The bytes of rows that a connection's socket has not taken yet. -/
def Conn.unwritten (c : Conn) : Nat :=
  ((c.out.drop c.outPos).map (fun f => match f.reply with
    | .rows _ body => body.rows.length
    | _ => 0)).sum

/-- The first writes.  The second reads no reply after its WELCOME: it has rows to come, waits to write, and sends a
frame that is malformed.  The first commits, and a third begins to write. -/
def unreadRun (body : Rows) : Option State :=
  (State.start (some fullService) noOptions).runs (fun _ _ => True) (writes 0 ++
    [.accept, sends 1 .hello 1 false [("major", .u64 1), ("minor", .u64 0)], .answer 1 slow, .flushed 1 1,
      sends 1 .query 2 false [("statement", .text (text "SELECT * FROM logs"))], .answer 1 (atOnce body),
      sends 1 .begin 3 false [("mode", .text (text "write"))], .answer 1 slow, .malformed 1 true] ++
    writes 2 ++ [sends 0 .commit 3 false [], .answer 0 slow, .sync .ok, .answer 2 slow])

theorem unreadRun_stuck (body : Rows) : (unreadRun body).map (fun o => (o.sh.writer, o.sh.fifo,
      o.conns.all (fun c => !c.dead && (decide (c.id ≠ 1) || !c.answers)),
      (o.conns.find? (fun c => c.id = 1)).map (fun c => (c.out.drop c.outPos).head?))) =
    some (none, [1, 2], true, some (some ⟨2, .rows none body⟩)) := by
  cbv

theorem Conn.le_unwritten {c : Conn} {id : Nat} {cursor : Option Nat} {body : Rows}
    (h : (c.out.drop c.outPos).head? = some ⟨id, .rows cursor body⟩) : body.rows.length ≤ c.unwritten := by
  obtain ⟨rest, hrest⟩ := List.head?_eq_some_iff.1 h
  rw [Conn.unwritten, hrest, List.map_cons, List.sum_cons]
  exact Nat.le_add_right _ _

def bulk : Rows := ⟨[], List.replicate 3000000 0, []⟩

/-- **Nobody writes, and two wait**: the first in the queue is closing, and is not freed while its rows are unread. -/
theorem waits_for_good : ∃ o, Reached (some fullService) noOptions o ∧ o.sh.writer = none ∧ o.sh.fifo = [1, 2] ∧
    (∃ c ∈ o.conns, c.id = 1 ∧ c.dead = false ∧ 3000000 ≤ c.unwritten) ∧
    ¬ ∀ i ∈ o.sh.fifo, ∃ c ∈ o.conns, c.id = i ∧ (c.dead = false → c.answers = true) := by
  obtain ⟨o, ho, hfacts⟩ := Option.map_eq_some_iff.1 (unreadRun_stuck bulk)
  simp only [Prod.mk.injEq, List.all_eq_true, Bool.and_eq_true, Bool.not_eq_true'] at hfacts
  obtain ⟨hwriter, hfifo, hstuck, hunread⟩ := hfacts
  obtain ⟨b, hb, hhead⟩ := Option.map_eq_some_iff.1 hunread
  have hid : b.id = 1 := by simpa using List.find?_some hb
  have hlive := (hstuck b (List.mem_of_find?_eq_some hb)).1
  have hbulk : bulk.rows.length = 3000000 := List.length_replicate
  refine ⟨o, Runs.start.follow ho, hwriter, hfifo, ⟨b, List.mem_of_find?_eq_some hb, hid, hlive, ?_⟩, fun hall => ?_⟩
  · rw [← hbulk]
    exact Conn.le_unwritten hhead
  · obtain ⟨c, hc, hid, hans⟩ := hall 1 (by rw [hfifo]; exact List.mem_cons_self)
    obtain ⟨hdead, hwaits⟩ := hstuck c hc
    rw [hans hdead, hid] at hwaits
    simp at hwaits

end Owner
end Gbasic
