import Gbasic.OwnerEvents
/-!
# OwnerReplies — every request answered once, in order

What a connection has been sent is what it was answered, what is held for a sync, and what it has still queued, in that
order (`Desk.Mail`).  A DONE of a commit is put out by the sync that covers it.  Who waits for the writer waits with a
request that writes at its head, and goes when it is first.
-/
namespace Gbasic
namespace Owner

open Lsm (Status)
open Key (Bytes)

variable {q : Outcome} {work : Option Nat} {workId id : Nat}

/-! ## One connection -/

/-- The requests whose reply waits for a sync. -/
def heldFor (id : Nat) (l : List Pend) : List Nat := (l.filter (fun p => p.conn = some id)).map Pend.id

theorem heldFor_append (id : Nat) (l : List Pend) (p : Pend) :
    heldFor id (l ++ [p]) = heldFor id l ++ if p.conn = some id then [p.id] else [] := by
  rw [heldFor, List.filter_append, List.map_append]
  by_cases h : p.conn = some id
  · simp [heldFor, h]
  · simp [heldFor, h]

structure MailOf (id : Nat) (got : List Nat) (out : List Frame) (group : List Pend) (reqs : List Req) (awaiting : Bool)
    (work : Option Nat) (workId : Nat) : Prop where
  got : got = out.map Frame.id ++ heldFor id group ++ reqs.map Req.id
  held : awaiting = true ↔ heldFor id group ≠ []
  works : work.isSome → awaiting = false ∧ ∃ r rs, reqs = r :: rs ∧ workId = r.id

def Desk.Mail (d : Desk) : Prop := MailOf d.id d.got d.out d.group d.reqs d.awaiting d.work d.workId

/-- Who is queued may be answered when it is first, and has a request at its head that must write. -/
structure Desk.InLine (d : Desk) : Prop where
  closing : d.closing = false
  work : d.work = none
  awaiting : d.awaiting = false
  waits : ∃ r rs, d.reqs = r :: rs ∧ d.Waits r

section
variable {d d' : Desk} {r : Req} {rs : List Req} {rep : Reply} {e : Event}

theorem not_isSome_of_none {o : Option Nat} (h : o = none) {p : Prop} (hs : o.isSome) : p := by
  rw [h] at hs
  cases hs

theorem Desk.Mail.replied (h : d.Mail) (ha : d.awaiting = false) (hr : d.reqs = r :: rs) (hw : work = none) :
    MailOf d.id d.got (d.out ++ [⟨r.id, rep⟩]) d.group d.reqs.tail d.awaiting work workId where
  got := by
    have hfree : heldFor d.id d.group = [] := by
      by_contra hne
      rw [h.held.2 hne] at ha
      cases ha
    rw [h.got, hfree, hr]
    simp
  held := h.held
  works hs := not_isSome_of_none hw hs

theorem Desk.Mail.holds (h : d.Mail) (ha : d.awaiting = false) (hr : d.reqs = r :: rs) (hw : work = none) :
    MailOf d.id d.got d.out (d.group ++ [⟨some d.id, r.id, [⟨r.id, rep⟩]⟩]) d.reqs.tail true work
      workId where
  got := by
    have hfree : heldFor d.id d.group = [] := by
      by_contra hne
      rw [h.held.2 hne] at ha
      cases ha
    rw [h.got, heldFor_append, if_pos rfl, hfree, hr]
    simp
  held := by
    rw [heldFor_append, if_pos rfl]
    simp
  works hs := not_isSome_of_none hw hs

/-- **A request handled is answered once.** -/
theorem Handled.mail (h : Handled d r .done d') (ha : d.Answers) (hr : d.reqs = r :: rs) (hd : d.Mail) {tx : Tx}
    (hc : d'.closing = false) : (d'.noted r tx).popped.Mail := by
  have hrep : ∀ {rep : Reply}, MailOf d.id d.got (d.out ++
      [⟨r.id, rep⟩]) d.group d.reqs.tail d.awaiting d.work d.workId :=
    hd.replied ha.awaiting hr ha.work
  have hheld : ∀ {rep : Reply}, MailOf d.id d.got d.out (d.group ++ [⟨some d.id, r.id, [⟨r.id, rep⟩]⟩]) d.reqs.tail true
      d.work d.workId := hd.holds ha.awaiting hr ha.work
  cases h with
  | refused => cases hc
  | bye => cases hc
  | wroteAlone _ _ _ _ _ ht =>
    obtain ⟨fifo, queued, rfl⟩ := ht.same
    exact hrep
  | committedAlone _ _ _ _ _ _ _ ht =>
    obtain ⟨fifo, queued, rfl⟩ := ht.same
    simp only [Desk.Mail, Desk.popped, Desk.noted, Desk.holds]
    exact hheld
  | beganWrite _ _ _ ht =>
    obtain ⟨fifo, queued, rfl⟩ := ht.same
    exact hrep
  | beginFailed _ _ _ ht =>
    rcases ht with ⟨-, ht⟩ | ⟨-, rfl⟩
    · obtain ⟨fifo, queued, rfl⟩ := ht.same
      exact hrep
    · exact hrep
  | committed =>
    simp only [Desk.Mail, Desk.popped, Desk.noted, Desk.holds, Desk.asks, Desk.ended, Desk.dropped]
    exact hheld
  | _ => exact hrep

theorem Handled.mail_kept (h : Handled d r q d') (hq : q ≠ .done) (ha : d.Answers) (hr : d.reqs = r :: rs)
    (hd : d.Mail) : d'.Mail := by
  cases h with
  | parked =>
    rw [Desk.joined]
    split_ifs <;> exact hd
  | readingAlone | readingInside => exact ⟨hd.got, hd.held, fun _ => ⟨ha.awaiting, r, rs, hr, rfl⟩⟩
  | _ => exact absurd rfl hq

theorem MailOf.gets {got : List Nat} {out : List Frame} {group : List Pend} {reqs : List Req} {awaiting : Bool}
    (h : MailOf id got out group reqs awaiting work workId) (q : Req) :
    MailOf id (got ++ [q.id]) out group (reqs ++ [q]) awaiting work workId where
  got := by
    rw [h.got, List.map_append]
    simp
  held := h.held
  works hs := by
    obtain ⟨ha, r, rs, rfl, hid⟩ := h.works hs
    exact ⟨ha, r, rs ++ [q], rfl, hid⟩

/-- **Every event keeps a connection's mail**, where it stays open. -/
theorem Turned.mail (h : Turned d e d') (hd : d.closing = false → d.dead = false → d.Mail)
    (hq : d.queued = true → d.InLine)
    (hc : d'.closing = false) (hdead : d'.dead = false) : d'.Mail := by
  cases h with
  | put _ _ r' => exact (hd hc hdead).gets r'
  | cancelledRead _ _ r' q rs e hr hh hw =>
    have hmail := hd hc hdead
    exact (hmail.replied (hmail.works hw).1 hh rfl).gets r'
  | cancelledWait _ _ r' q rs e hr hh hw hqd => exact ((hd hc hdead).replied (hq hqd).awaiting hh hw).gets r'
  | malformed => cases hc
  | gone | finish => cases hdead
  | answered _ _ r rs d₁ ha hr h => exact h.mail ha hr (hd ha.closing ha.dead) hc
  | kept _ _ r rs q _ ha hr hq h => exact h.mail_kept hq ha hr (hd ha.closing ha.dead)
  | finished _ _ rep hw | gaveUp _ _ e hw =>
    have hmail := hd hc hdead
    obtain ⟨haw, r, rs, hr, hid⟩ := hmail.works hw
    rw [hid]
    exact hmail.replied haw hr rfl
  | _ => exact hd hc hdead

/-! ## Its place in the queue -/

def Desk.Slot (d : Desk) : Prop := d.writer = some d.id → d.tx = .write

theorem Took.free_of_waits {d₁ : Desk} (ht : Took d d₁) (hs : d.Slot) (hw : d.Waits r) :
    d.writer = none ∧ (d.fifo = [] ∨ d.fifo.head? = some d.id) ∧ d₁ = d.left := by
  cases ht with
  | mine h =>
    have := hw.tx
    rw [hs h] at this
    cases this
  | free h hf => exact ⟨h, hf, rfl⟩

theorem left_unqueued : d.left.queued = false := by
  rw [Desk.left]
  split_ifs with h
  · rfl
  · simpa using h

theorem Handled.line (h : Handled d r .done d') (hq : d.queued = true → d.Waits r) (hs : d.Slot) :
    d'.queued = false ∧ (d'.fifo = d.left.fifo) ∧ (d.queued = true → d.fifo = [] ∨ d.fifo.head? = some d.id) := by
  have hsame : ∀ {x : Desk}, ¬ d.Waits r → x.queued = d.queued → x.fifo = d.fifo →
      x.queued = false ∧ x.fifo = d.left.fifo ∧ (d.queued = true → d.fifo = [] ∨ d.fifo.head? = some d.id) := by
    intro x hnot hxq hxf
    have hunq : d.queued = false := by
      by_contra hne
      exact hnot (hq (by simpa using hne))
    rw [hxq, hxf, Desk.left_fifo, hunq]
    exact ⟨rfl, rfl, fun h => by cases h⟩
  have htook : ∀ {x d₁ : Desk}, d.Waits r → Took d d₁ → x.queued = d₁.queued → x.fifo = d₁.fifo →
      x.queued = false ∧ x.fifo = d.left.fifo ∧ (d.queued = true → d.fifo = [] ∨ d.fifo.head? = some d.id) := by
    intro x d₁ hw ht hxq hxf
    obtain ⟨-, hf, rfl⟩ := ht.free_of_waits hs hw
    exact ⟨hxq.trans left_unqueued, hxf, fun _ => hf⟩
  have hopen : d.tx.isOpen → ¬ d.Waits r := fun htx hw => by
    rw [hw.tx] at htx
    rcases htx with htx | htx <;> cases htx
  have hcloses : r.type.closes → ¬ d.Waits r := fun he hw => by
    have := hw.writer
    rw [Req.writer] at this
    rcases he with he | he <;> rw [he] at this <;> cases this
  cases h with
  | replied _ hw => exact hsame hw rfl rfl
  | greeted _ hh | refused _ _ hh => exact hsame (fun hw => by rw [hw.hello] at hh; cases hh) rfl rfl
  | bye ht =>
    refine hsame (fun hw => ?_) rfl rfl
    have := hw.writer
    rw [Req.writer, ht] at this
    cases this
  | wroteAlone _ _ _ _ hw ht | committedAlone _ _ _ _ _ _ hw ht => exact htook hw ht rfl rfl
  | readAlone _ _ _ hw => exact hsame hw rfl rfl
  | ranInside _ _ _ htx | failedInside _ _ _ htx => exact hsame (hopen htx) rfl rfl
  | beganRead _ hw => exact hsame hw rfl rfl
  | beganWrite _ _ hw ht => exact htook hw ht rfl rfl
  | beginFailed _ _ _ ht =>
    rcases ht with ⟨hw, ht⟩ | ⟨hw, rfl⟩
    · exact htook hw ht rfl rfl
    · exact hsame hw rfl rfl
  | nested htx => exact hsame (hopen htx) rfl rfl
  | acknowledged _ _ _ he => exact hsame (hcloses he) rfl rfl
  | levelEnded htx | levelFailed _ htx | ended _ _ htx | committed _ _ htx => exact hsame (hopen htx) rfl rfl

theorem Handled.kept_line (h : Handled d r q d') (hk : q ≠ .done) (hq : d.queued = true → d.Waits r) :
    (d' = d.joined ∧ d.Waits r) ∨ (d.queued = false ∧ d'.queued = false ∧ d'.fifo = d.fifo) := by
  have hunq : ¬ d.Waits r → d.queued = false := fun hnot => by
    by_contra hne
    exact hnot (hq (by simpa using hne))
  cases h with
  | parked hw => exact .inl ⟨rfl, hw⟩
  | readingAlone _ _ _ hw => exact .inr ⟨hunq hw, hunq hw, rfl⟩
  | readingInside _ _ _ htx =>
    have hnot : ¬ d.Waits r := fun hw => by
      rw [hw.tx] at htx
      rcases htx with htx | htx <;> cases htx
    exact .inr ⟨hunq hnot, hunq hnot, rfl⟩
  | _ => exact absurd rfl hk

/-- What an event does to the queue: nothing, or its connection joins it at its end, or leaves it, from its front where
a request of it is answered. -/
inductive Lined (d : Desk) (e : Event) (d' : Desk) : Prop where
  | same (hq : d'.queued = d.queued) (hf : d'.fifo = d.fifo)
  | joins (hq : d.queued = false) (hq' : d'.queued = true) (hf : d'.fifo = d.fifo ++ [d.id])
  | leaves (hq : d.queued = true) (hq' : d'.queued = false) (hf : d'.fifo = d.fifo.erase d.id)
      (hfirst : (∃ id a, e = .answer id a) → d.fifo = [] ∨ d.fifo.head? = some d.id)

theorem Desk.InLine.head (h : d.InLine) (hr : d.reqs = r :: rs) : d.Waits r := by
  obtain ⟨q, qs, hq, hw⟩ := h.waits
  rw [hr] at hq
  cases hq
  exact hw

theorem Turned.lined (h : Turned d e d') (hq : d.queued = true → d.InLine) (hs : d.Slot) : Lined d e d' := by
  cases h with
  | cancelledWait _ _ _ _ _ _ _ _ _ hqd =>
    exact .leaves hqd rfl rfl (fun ⟨_, _, he⟩ => by cases he)
  | answered _ _ r rs d₁ ha hr h =>
    obtain ⟨hq', hf, hfirst⟩ := h.line (fun hqd => (hq hqd).head hr) hs
    rw [Desk.left_fifo] at hf
    by_cases hqd : d.queued = true
    · rw [if_pos hqd] at hf
      exact .leaves hqd hq' hf (fun _ => hfirst hqd)
    · rw [if_neg hqd] at hf
      have hunq : d.queued = false := by simpa using hqd
      exact .same (hq'.trans hunq.symm) hf
  | kept _ _ r rs q _ ha hr hk h =>
    rcases h.kept_line hk (fun hqd => (hq hqd).head hr) with ⟨rfl, -⟩ | ⟨hunq, hq', hf⟩
    · rw [Desk.joined]
      split_ifs with hqd
      · exact .same rfl rfl
      · exact .joins (by simpa using hqd) rfl rfl
    · exact .same (hq'.trans hunq.symm) hf
  | _ => exact .same rfl rfl

/-- **Who is queued after an event can run**, where no malformed frame came from one that was. -/
theorem Turned.inLine (h : Turned d e d') (hq : d.queued = true → d.InLine) (hs : d.Slot)
    (hcalm : ∀ id short, e = .malformed id short → d.queued = false) (hq' : d'.queued = true) : d'.InLine := by
  cases h with
  | put _ _ r' =>
    obtain ⟨hc, hw, ha, r, rs, hr, hwaits⟩ := hq hq'
    refine ⟨hc, hw, ha, r, rs ++ [r'], ?_, hwaits.hello, hwaits.tx, hwaits.writer⟩
    rw [show (d.gets r').reqs = d.reqs ++ [r'] from rfl, hr]
    rfl
  | cancelledRead _ _ _ _ _ _ _ _ hw => exact not_isSome_of_none (hq hq').work hw
  | cancelledWait => cases hq'
  | malformed id short =>
    have hunq := hcalm id short rfl
    rw [show d.queued = true from hq'] at hunq
    cases hunq
  | answered _ _ r rs d₁ ha hr h =>
    have hunq := (h.line (fun hqd => (hq hqd).head hr) hs).1
    rw [show d₁.queued = true from hq'] at hunq
    cases hunq
  | kept _ _ r rs q _ ha hr hk h =>
    rcases h.kept_line hk (fun hqd => (hq hqd).head hr) with ⟨rfl, hw⟩ | ⟨-, hunq, -⟩
    · rw [Desk.joined]
      split_ifs
      · exact ⟨ha.closing, ha.work, ha.awaiting, r, rs, hr, hw⟩
      · exact ⟨ha.closing, ha.work, ha.awaiting, r, rs, hr, hw.hello, hw.tx, hw.writer⟩
    · rw [hq'] at hunq
      cases hunq
  | finished _ _ _ hw | gaveUp _ _ _ hw => exact not_isSome_of_none (hq hq').work hw
  | timedOut _ htx =>
    obtain ⟨-, -, -, r, rs, hr, hwaits⟩ := hq hq'
    rw [hwaits.tx] at htx
    rcases htx with htx | htx <;> cases htx
  | gone | finish =>
    obtain ⟨hc, hw, ha, r, rs, hr, hwaits⟩ := hq hq'
    exact ⟨hc, hw, ha, r, rs, hr, hwaits.hello, hwaits.tx, hwaits.writer⟩
  | _ => exact hq hq'

/-! ## The slot -/

def Slots (d d' : Desk) : Prop := d'.Slot ∧ (d'.writer = d.writer ∨ d'.writer = none ∨ d'.writer = some d.id)

theorem slots_same (hs : d.Slot) (hid : d'.id = d.id) (hw : d'.writer = d.writer) (htx : d'.tx = d.tx) :
    Slots d d' := by
  refine ⟨fun h => ?_, .inl hw⟩
  rw [hw, hid] at h
  rw [htx]
  exact hs h

theorem slots_dropped (hid : d'.id = d.id) (hw : d'.writer = if d.writer = some d.id then none else d.writer) :
    Slots d d' := by
  rw [Slots, Desk.Slot, hw, hid]
  split_ifs with h
  · exact ⟨fun he => absurd he (by simp), .inr (.inl rfl)⟩
  · exact ⟨fun he => absurd he h, .inl rfl⟩

theorem Handled.slot (h : Handled d r q d') (hs : d.Slot) : Slots d d' := by
  cases h with
  | parked =>
    rw [Desk.joined]
    split_ifs <;> exact slots_same hs rfl rfl rfl
  | wroteAlone _ _ _ _ _ ht | committedAlone _ _ _ _ _ _ _ ht =>
    obtain ⟨fifo, queued, rfl⟩ := ht.same
    exact slots_same hs rfl rfl rfl
  | beginFailed _ _ _ ht =>
    rcases ht with ⟨-, ht⟩ | ⟨-, rfl⟩
    · obtain ⟨fifo, queued, rfl⟩ := ht.same
      exact slots_same hs rfl rfl rfl
    · exact slots_same hs rfl rfl rfl
  | beganRead _ _ htx =>
    refine ⟨fun hw => ?_, .inl rfl⟩
    rw [hs hw] at htx
    cases htx
  | beganWrite _ _ _ ht =>
    obtain ⟨fifo, queued, rfl⟩ := ht.same
    exact ⟨fun _ => rfl, .inr (.inr rfl)⟩
  | failedInside | acknowledged | levelFailed | ended | committed => exact slots_dropped rfl rfl
  | _ => exact slots_same hs rfl rfl rfl

theorem Turned.slot (h : Turned d e d') (hs : d.Slot) : Slots d d' := by
  cases h with
  | answered _ _ r rs d₁ ha hr h | kept _ _ r rs q _ ha hr hk h => exact h.slot hs
  | gaveUp | timedOut => exact slots_dropped rfl rfl
  | _ => exact slots_same hs rfl rfl rfl

/-! ## Commits -/

/-- A commit was made, and a sync begun after it succeeded. -/
def Durable (log : List Asked) (t : Nat) : Prop :=
  ∃ l₁ l₂ b, log = l₁ ++ .synced .ok :: l₂ ∧ .committed t b .ok ∈ l₂

theorem Durable.later {log : List Asked} {t : Nat} (h : Durable log t) (new : List Asked) : Durable (new ++ log) t := by
  obtain ⟨l₁, l₂, b, rfl, hm⟩ := h
  exact ⟨new ++ l₁, l₂, b, by rw [List.append_assoc], hm⟩

def Pend.Made (log : List Asked) (p : Pend) : Prop :=
  ∃ rep, p.frame = [⟨p.id, rep⟩] ∧ ∀ k, rep.commit = some k → ∃ b, .committed k.txn b .ok ∈ log

/-- What an event puts out, holds and asks: nothing put out reports a commit, and who begins to write is admitted. -/
structure Posts (d d' : Desk) : Prop where
  out : ∃ l, d'.out = d.out ++ l ∧ ∀ f ∈ l, f.reply.commit = none
  group : d'.group = d.group ∨ ∃ p, d'.group = d.group ++ [p] ∧ p.conn = some d.id ∧ p.Made d'.log
  log : ∃ new, d'.log = new ++ d.log ∧
    ∀ t, .began t ∈ new → d.writer = none ∧ (d.fifo = [] ∨ d.fifo.head? = some d.id)
  svc : d'.svc = d.svc

theorem posts_same (hout : ∃ l, d'.out = d.out ++ l ∧ ∀ f ∈ l, f.reply.commit = none) (hg : d'.group = d.group)
    (hl : ∃ new, d'.log = new ++ d.log ∧ ∀ t, .began t ∉ new) (hsvc : d'.svc = d.svc) : Posts d d' := by
  obtain ⟨new, hnew, hnot⟩ := hl
  exact ⟨hout, .inl hg, ⟨new, hnew, fun t ht => absurd ht (hnot t)⟩, hsvc⟩

theorem said {rep : Reply} (hc : rep.commit = none) :
    ∃ l, d.out ++ [⟨id, rep⟩] = d.out ++ l ∧ ∀ f ∈ l, f.reply.commit = none :=
  ⟨_, rfl, fun f hf => by rw [List.mem_singleton.1 hf]; exact hc⟩

theorem quiet : ∃ l, d.out = d.out ++ l ∧ ∀ f ∈ l, f.reply.commit = none :=
  ⟨[], (List.append_nil _).symm, fun f hf => by cases hf⟩

theorem asked_none : ∃ new, d.log = new ++ d.log ∧ ∀ t, .began t ∉ new := ⟨[], rfl, fun _ h => by cases h⟩

theorem asked_ran {t : Nat} {b : Bool} {q : Statement} :
    ∃ new, .ran id t b q :: d.log = new ++ d.log ∧ ∀ u, .began u ∉ new :=
  ⟨[.ran id t b q], rfl, fun u h => by cases List.mem_singleton.1 h⟩

/-- **What a request posts.** -/
theorem Handled.posts (h : Handled d r q d') (hs : d.Slot) : Posts d d' := by
  cases h with
  | replied rep _ hc | greeted rep _ hc => exact posts_same (said hc) rfl asked_none rfl
  | refused code m => exact posts_same (said rfl) rfl asked_none rfl
  | bye => exact posts_same quiet rfl asked_none rfl
  | parked =>
    rw [Desk.joined]
    split_ifs
    · exact posts_same quiet rfl asked_none rfl
    · exact posts_same quiet rfl asked_none rfl
  | wroteAlone d₁ t lg rep hw ht hl hc =>
    obtain ⟨hfree, hfirst, -⟩ := ht.free_of_waits hs hw
    obtain ⟨fifo, queued, rfl⟩ := ht.same
    exact ⟨said hc, .inl rfl, ⟨lg, rfl, fun _ _ => ⟨hfree, hfirst⟩⟩, rfl⟩
  | committedAlone d₁ t n affected warnings lg hw ht hl hc =>
    obtain ⟨hfree, hfirst, -⟩ := ht.free_of_waits hs hw
    obtain ⟨fifo, queued, rfl⟩ := ht.same
    refine ⟨quiet, .inr ⟨_, rfl, rfl, _, rfl, fun k hk => ?_⟩, ⟨lg, rfl, fun _ _ => ⟨hfree, hfirst⟩⟩, rfl⟩
    cases hk
    obtain ⟨b, hb⟩ := hc
    exact ⟨b, List.mem_append_left _ hb⟩
  | readAlone t lg rep _ _ hl hc =>
    refine posts_same (said hc) rfl ⟨lg, rfl, fun u hu => ?_⟩ rfl
    obtain ⟨q, hq⟩ := hl _ hu
    cases hq
  | readingAlone => exact posts_same quiet rfl asked_ran rfl
  | ranInside t q rep _ _ hc => exact posts_same (said hc) rfl asked_ran rfl
  | failedInside => exact posts_same (said rfl) rfl asked_ran rfl
  | readingInside => exact posts_same quiet rfl asked_ran rfl
  | beganRead => exact posts_same (said rfl) rfl asked_none rfl
  | beganWrite d₁ t hw ht =>
    obtain ⟨hfree, hfirst, -⟩ := ht.free_of_waits hs hw
    obtain ⟨fifo, queued, rfl⟩ := ht.same
    exact ⟨said rfl, .inl rfl, ⟨[_], rfl, fun _ _ => ⟨hfree, hfirst⟩⟩, rfl⟩
  | beginFailed _ _ _ ht =>
    rcases ht with ⟨-, ht⟩ | ⟨-, rfl⟩
    · obtain ⟨fifo, queued, rfl⟩ := ht.same
      exact posts_same (said rfl) rfl asked_none rfl
    · exact posts_same (said rfl) rfl asked_none rfl
  | nested => exact posts_same (said rfl) rfl asked_none rfl
  | acknowledged rep _ hc => exact posts_same (said hc) rfl asked_none rfl
  | levelEnded | levelFailed => exact posts_same (said rfl) rfl asked_none rfl
  | ended lg rep _ _ hl hc =>
    refine posts_same (said hc) rfl ⟨lg, rfl, fun u hu => ?_⟩ rfl
    obtain ⟨t, b, st, he⟩ := hl _ hu
    cases he
  | committed t n =>
    refine ⟨quiet, .inr ⟨_, rfl, rfl, _, rfl, fun k hk => ?_⟩, ⟨[.committed t false .ok], rfl, fun u hu => ?_⟩, rfl⟩
    · cases hk
      exact ⟨false, List.mem_cons_self⟩
    · cases List.mem_singleton.1 hu

/-- **What an event posts.** -/
theorem Turned.posts (h : Turned d e d') (hs : d.Slot) : Posts d d' := by
  cases h with
  | cancelledRead | cancelledWait | malformed => exact posts_same (said rfl) rfl asked_none rfl
  | answered _ _ r rs d₁ ha hr h =>
    obtain ⟨hout, hg, hl, hsvc⟩ := h.posts hs
    exact ⟨hout, hg, hl, hsvc⟩
  | kept _ _ r rs q _ ha hr hk h => exact h.posts hs
  | finished _ _ rep _ hc => exact posts_same (said hc) rfl asked_none rfl
  | gaveUp => exact posts_same (said rfl) rfl asked_none rfl
  | _ => exact posts_same quiet rfl asked_none rfl

end

end Owner
end Gbasic
