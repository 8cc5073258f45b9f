import Gbasic.OwnerEvents
/-!
# OwnerInside — a statement meant for a transaction runs in it

A client counts: a BEGIN answered DONE opens a level, a COMMIT or ROLLBACK answered ends one, and one answered where the
engine had ended the transaction ends them all (`tally`).  While it has levels open, its statements run in the
transaction of the outermost, or are refused.
-/
namespace Gbasic
namespace Owner

open Lsm (Status)
open Key (Bytes)

variable {txn work workTxn : Option Nat} {past : List Past} {tx : Tx} {depth : Nat} {q : Outcome}

/-! ## What a client counts -/

/-- Whether the engine had ended the transaction of a COMMIT or ROLLBACK. -/
def Past.endsAll (p : Past) : Bool := p.tx = .failed || p.tx = .timedOut

/-- The levels a client has open after what was answered, where some answers end every level. -/
def tally (all : Past → Bool) : List Past → Nat
  | [] => 0
  | p :: l =>
    match p.type with
    | .begin => if p.done then tally all l + 1 else tally all l
    | .commit | .rollback => if all p then 0 else tally all l - 1
    | _ => tally all l

def outermost (all : Past → Bool) : List Past → Option Nat
  | [] => none
  | p :: l => if p.type = .begin ∧ p.done = true ∧ tally all l = 0 then p.txn else outermost all l

section
variable {all : Past → Bool} {p : Past} {l : List Past}

theorem tally_begin (h : p.type = .begin) (hd : p.done = true) : tally all (p :: l) = tally all l + 1 := by
  rw [tally, h]
  exact if_pos hd

theorem tally_begin_not (h : p.type = .begin) (hd : p.done = false) : tally all (p :: l) = tally all l := by
  rw [tally, h]
  simp [hd]

theorem tally_closes (h : p.type.closes) : tally all (p :: l) = if all p then 0 else tally all l - 1 := by
  rw [tally]
  rcases h with h | h <;> rw [h]

theorem tally_other (hb : p.type ≠ .begin) (hc : ¬ p.type.closes) : tally all (p :: l) = tally all l := by
  rw [tally]
  rw [Msg.closes, not_or] at hc
  split <;> simp_all

theorem outermost_first (h : p.type = .begin) (hd : p.done = true) (hl : tally all l = 0) :
    outermost all (p :: l) = p.txn := by
  rw [outermost, if_pos ⟨h, hd, hl⟩]

theorem outermost_later (h : p.type ≠ .begin ∨ p.done = false ∨ 0 < tally all l) :
    outermost all (p :: l) = outermost all l := by
  rw [outermost, if_neg]
  rintro ⟨hb, hd, hl⟩
  rcases h with h | h | h
  · exact h hb
  · rw [hd] at h
    cases h
  · omega

end

/-! ## What the owner keeps of it -/

/-- What a connection's transaction is to the levels its client counts. -/
structure Fits (tx : Tx) (depth : Nat) (txn : Option Nat) (past : List Past) (work workTxn : Option Nat) : Prop where
  none : tx = .none → tally Past.endsAll past = 0 ∧ depth = 0
  isOpen : tx.isOpen → tally Past.endsAll past = depth + 1 ∧ txn = outermost Past.endsAll past
  isGone : tx.isGone → 0 < tally Past.endsAll past
  inside : work.isSome → workTxn = Option.none → 0 < tally Past.endsAll past

def Desk.Fits (d : Desk) : Prop := Owner.Fits d.tx d.depth d.txn d.past d.work d.workTxn

section
variable {d d' : Desk} {r : Req} {e : Event}

theorem not_isOpen_none : ¬ Tx.none.isOpen := fun h => by rcases h with h | h <;> cases h

theorem not_isGone_none : ¬ Tx.none.isGone := fun h => by rcases h with h | h <;> cases h

theorem not_isGone_of_isOpen {t : Tx} (h : t.isOpen) : ¬ t.isGone := fun hg => by
  rcases h with rfl | rfl <;> rcases hg with hg | hg <;> cases hg

theorem fits_none (h : tally Past.endsAll past = 0) (hw : work = none) : Owner.Fits .none 0 txn past work workTxn :=
  ⟨fun _ => ⟨h, rfl⟩, fun h => absurd h not_isOpen_none, fun h => absurd h not_isGone_none,
    fun hs => by rw [hw] at hs; cases hs⟩

theorem fits_open (htx : tx.isOpen) (h : tally Past.endsAll past = depth + 1) (ht : txn = outermost Past.endsAll past) :
    Owner.Fits tx depth txn past work workTxn := by
  refine ⟨fun hn => ?_, fun _ => ⟨h, ht⟩, fun hg => absurd hg (not_isGone_of_isOpen htx), fun _ _ => by omega⟩
  rw [hn] at htx
  exact absurd htx not_isOpen_none

theorem fits_gone (htx : tx.isGone) (h : 0 < tally Past.endsAll past) : Owner.Fits tx depth txn past work workTxn := by
  refine ⟨fun hn => ?_, fun ho => absurd htx (not_isGone_of_isOpen ho), fun _ => h, fun _ _ => h⟩
  rw [hn] at htx
  exact absurd htx not_isGone_none

theorem fits_same {p : Past} (h : Owner.Fits tx depth txn past work workTxn)
    (ht : tally Past.endsAll (p :: past) = tally Past.endsAll past) (hp : p.type ≠ .begin ∨ p.done = false) :
    Owner.Fits tx depth txn (p :: past) work workTxn where
  none hn := by
    rw [ht]
    exact h.none hn
  isOpen ho := by
    rw [ht, outermost_later (hp.elim .inl (fun h => .inr (.inl h)))]
    exact h.isOpen ho
  isGone hg := by
    rw [ht]
    exact h.isGone hg
  inside hw hn := by
    rw [ht]
    exact h.inside hw hn

theorem past_done_replies (ha : d.awaiting = false) (id : Nat) (rep : Reply) (tx : Tx) :
    ((d.replies id rep).noted r tx).past = ⟨r.type, rep.isDone, tx, d.txn⟩ :: d.past := by
  simp [Desk.noted, Desk.replies, ha]

theorem fits_replies {id : Nat} {rep : Reply} (ha : d.awaiting = false)
    (h : Owner.Fits d.tx d.depth d.txn (⟨r.type, rep.isDone, tx, d.txn⟩ :: d.past) d.work d.workTxn) :
    ((d.replies id rep).noted r tx).Fits := by
  rw [Desk.Fits, past_done_replies ha]
  exact h

theorem fits_began {p : Past} (htx : tx.isOpen) (hb : p.type = .begin) (hd : p.done = true)
    (hz : tally Past.endsAll past = 0) (hdepth : depth = 0) (ht : txn = p.txn) :
    Owner.Fits tx depth txn (p :: past) work workTxn := by
  refine fits_open htx ?_ ?_
  · rw [tally_begin hb hd, hz, hdepth]
  · rw [outermost_first hb hd hz, ht]

theorem fits_query {p : Past} (h : Owner.Fits tx depth txn past work workTxn) (hq : p.type = .query) :
    Owner.Fits tx depth txn (p :: past) work workTxn := by
  have hb : p.type ≠ .begin := by rw [hq]; decide
  refine fits_same h (tally_other hb ?_) (.inl hb)
  rw [hq]
  exact fun hc => by rcases hc with hc | hc <;> cases hc

/-- **A request answered keeps the count**, on a connection that stays open. -/
theorem Handled.fits (h : Handled d r .done d') (ha : d.Answers) (hd : d.Fits) (hc : d'.closing = false) :
    (d'.noted r d.tx).Fits := by
  have hwork := ha.work
  have hopened : d.tx.isOpen → ∀ (done : Bool) (txn : Option Nat), r.type.closes →
      tally Past.endsAll (⟨r.type, done, d.tx, txn⟩ :: d.past) = d.depth := by
    intro htx done txn he
    have hall : Past.endsAll ⟨r.type, done, d.tx, txn⟩ = false := by
      rcases htx with htx | htx <;> simp [Past.endsAll, htx]
    rw [tally_closes he, hall]
    have := (hd.isOpen htx).1
    simp only [Bool.false_eq_true, if_false]
    omega
  cases h with
  | replied rep hw hcm hb hq he =>
    refine fits_replies ha.awaiting ?_
    by_cases hbt : r.type = .begin
    · exact fits_same hd (tally_begin_not hbt (hb hbt)) (.inr (hb hbt))
    · by_cases hct : r.type.closes
      · have hnone := he hct
        refine fits_same hd ?_ (.inl hbt)
        rw [tally_closes hct, (hd.none hnone).1]
        split_ifs <;> rfl
      · exact fits_same hd (tally_other hbt hct) (.inl hbt)
  | greeted rep hh hcm ht =>
    refine fits_replies ha.awaiting ?_
    have hb : r.type ≠ .begin := by rw [ht]; decide
    refine fits_same hd (tally_other hb (fun hx => ?_)) (.inl hb)
    rw [ht] at hx
    rcases hx with hx | hx <;> cases hx
  | refused => cases hc
  | bye => cases hc
  | wroteAlone _ t lg rep hw ht hl hcm hq | committedAlone _ t n affected warnings lg hw ht hl hcm hq =>
    obtain ⟨fifo, queued, rfl⟩ := ht.same
    exact fits_query hd hq
  | readAlone t lg rep hw htx hl hcm hq | ranInside t q rep htx ht hcm hq => exact fits_query hd hq
  | failedInside t q e htx ht hq =>
    refine fits_query (p := _) (fits_gone (.inl rfl) ?_) hq
    have := (hd.isOpen htx).1
    show 0 < tally Past.endsAll d.past
    omega
  | beganRead t hw htx hb =>
    exact fits_replies ha.awaiting (fits_began (.inl rfl) hb rfl (hd.none htx).1 (hd.none htx).2 rfl)
  | beganWrite _ t hw ht hb =>
    obtain ⟨fifo, queued, rfl⟩ := ht.same
    exact fits_replies ha.awaiting (fits_began (.inr rfl) hb rfl (hd.none hw.tx).1 (hd.none hw.tx).2 rfl)
  | beginFailed d₁ e htx ht hb =>
    have hsame : ∃ fifo queued, d₁ = { d with fifo := fifo, queued := queued } := by
      rcases ht with ⟨-, ht⟩ | ⟨-, rfl⟩
      · exact ht.same
      · exact ⟨d₁.fifo, d₁.queued, rfl⟩
    obtain ⟨fifo, queued, rfl⟩ := hsame
    refine fits_replies ha.awaiting ?_
    refine fits_same ?_ (tally_begin_not hb rfl) (.inr rfl)
    exact ⟨hd.none, fun ho => absurd (show d.tx.isOpen from ho) (by rw [htx]; exact not_isOpen_none), hd.isGone,
      hd.inside⟩
  | nested htx hb =>
    refine fits_replies ha.awaiting ?_
    have hlevel := hd.isOpen htx
    have hpos : 0 < tally Past.endsAll d.past := by omega
    refine fits_open htx ?_ ?_
    · rw [tally_begin hb rfl]
      exact congrArg (· + 1) hlevel.1
    · rw [outermost_later (.inr (.inr hpos))]
      exact hlevel.2
  | acknowledged rep htx hcm he =>
    refine fits_replies ha.awaiting ?_
    refine fits_none ?_ hwork
    have hall : Past.endsAll ⟨r.type, rep.isDone, d.tx, d.ended.txn⟩ = true := by
      rcases htx with htx | htx <;> simp [Past.endsAll, htx]
    rw [tally_closes he, hall]
    rfl
  | levelEnded htx hdp he =>
    refine fits_replies ha.awaiting ?_
    have hb : r.type ≠ .begin := by rcases he with he | he <;> rw [he] <;> decide
    refine fits_open htx ?_ ?_
    · have := hopened htx true d.txn he
      show tally Past.endsAll (⟨r.type, true, d.tx, d.txn⟩ :: d.past) = d.depth - 1 + 1
      omega
    · rw [outermost_later (.inl hb)]
      exact (hd.isOpen htx).2
  | levelFailed e htx hdp he =>
    refine fits_replies ha.awaiting ?_
    refine fits_gone (.inl rfl) ?_
    have := hopened htx false none he
    show 0 < tally Past.endsAll (⟨r.type, false, d.tx, none⟩ :: d.past)
    omega
  | ended lg rep htx hdp hl hcm he =>
    refine fits_replies ha.awaiting ?_
    refine fits_none ?_ hwork
    have := hopened htx rep.isDone none he
    show tally Past.endsAll (⟨r.type, rep.isDone, d.tx, none⟩ :: d.past) = 0
    omega
  | committed t n htx hdp he =>
    refine fits_none ?_ hwork
    have := hopened htx true none he
    show tally Past.endsAll (⟨r.type, true, d.tx, none⟩ :: d.past) = 0
    omega

theorem Handled.fits_kept (h : Handled d r q d') (hq : q ≠ .done) (hd : d.Fits) : d'.Fits := by
  cases h with
  | parked =>
    rw [Desk.joined]
    split_ifs <;> exact hd
  | readingAlone t k q hw htx _ => exact ⟨hd.none, hd.isOpen, hd.isGone, fun _ hn => by cases hn⟩
  | readingInside t k q htx _ _ =>
    refine ⟨hd.none, hd.isOpen, hd.isGone, fun _ _ => ?_⟩
    have := (hd.isOpen htx).1
    show 0 < tally Past.endsAll d.past
    omega
  | _ => exact absurd rfl hq

theorem Desk.Fits.idled (hd : d.Fits) : d.idled.Fits := ⟨hd.none, hd.isOpen, hd.isGone, fun hw => by cases hw⟩

/-- **Every event keeps the count**, on a connection that stays open. -/
theorem Turned.fits (h : Turned d e d') (hd : d.closing = false → d.Fits) (hc : d'.closing = false) : d'.Fits := by
  cases h with
  | malformed => cases hc
  | cancelledRead => exact (hd hc).idled
  | answered _ _ _ _ _ ha _ h => exact h.fits ha (hd ha.closing) hc
  | kept _ _ _ _ _ _ ha _ hq h => exact h.fits_kept hq (hd ha.closing)
  | finished => exact (hd hc).idled
  | gaveUp _ _ _ hw hin => exact fits_gone (.inl rfl) ((hd hc).inside hw hin)
  | timedOut _ htx =>
    refine fits_gone (.inr rfl) ?_
    have := ((hd hc).isOpen htx).1
    show 0 < tally Past.endsAll d.past
    omega
  | _ => exact hd hc

/-! ## What is run -/

def RunsFit (d : Desk) (new : List Asked) : Prop :=
  ∀ id t auto q, .ran id t auto q ∈ new →
    id = d.id ∧ (0 < tally Past.endsAll d.past → auto = false ∧ outermost Past.endsAll d.past = some t)

theorem runsFit_nil : RunsFit d [] := fun _ _ _ _ h => by cases h

theorem runsFit_alone {t : Nat} {lg : List Asked} (hd : d.Fits) (htx : d.tx = .none) (hl : ∀ x ∈ lg, Alone d.id t x) :
    RunsFit d lg := by
  intro id u auto q hx
  have hzero := (hd.none htx).1
  rcases hl _ hx with ⟨q', h⟩ | h | ⟨b, st, h⟩
  · cases h
    exact ⟨rfl, fun hpos => by omega⟩
  · cases h
  · cases h

theorem runsFit_inside {t : Nat} {q : Statement} (hd : d.Fits) (htx : d.tx.isOpen) (ht : d.txn = some t) :
    RunsFit d [.ran d.id t false q] := by
  intro id u auto q' hx
  cases List.mem_singleton.1 hx
  exact ⟨rfl, fun _ => ⟨rfl, (hd.isOpen htx).2 ▸ ht⟩⟩

theorem Took.log {d₁ : Desk} (h : Took d d₁) : d₁.log = d.log := by
  obtain ⟨_, _, rfl⟩ := h.same
  rfl

/-- **What a request runs is meant for where it runs.** -/
theorem Handled.runs (h : Handled d r q d') (hd : d.Fits) : ∃ new, d'.log = new ++ d.log ∧ RunsFit d new := by
  cases h with
  | parked =>
    rw [Desk.joined]
    split_ifs <;> exact ⟨[], rfl, runsFit_nil⟩
  | wroteAlone d₁ t lg rep hw ht hl => exact ⟨lg, congrArg (lg ++ ·) ht.log, runsFit_alone hd hw.tx hl⟩
  | committedAlone d₁ t n affected warnings lg hw ht hl =>
      exact ⟨lg, congrArg (lg ++ ·) ht.log, runsFit_alone hd hw.tx hl⟩
  | readAlone t lg rep hw htx hl =>
    exact ⟨lg, rfl, runsFit_alone (t := t) hd htx (fun x hx => .inl (hl x hx))⟩
  | readingAlone t k q hw htx =>
    exact ⟨[_], rfl, runsFit_alone (t := t) hd htx (fun x hx => .inl ⟨q, List.mem_singleton.1 hx⟩)⟩
  | ranInside t q rep htx ht | failedInside t q e htx ht | readingInside t k q htx ht =>
    exact ⟨[_], rfl, runsFit_inside hd htx ht⟩
  | beganWrite d₁ t hw ht =>
    refine ⟨[.began ⟨t, true⟩], congrArg (_ :: ·) ht.log, fun id u auto q hx => ?_⟩
    cases List.mem_singleton.1 hx
  | beginFailed d₁ e htx ht =>
    refine ⟨[], ?_, runsFit_nil⟩
    rcases ht with ⟨-, ht⟩ | ⟨-, rfl⟩
    · exact ht.log
    · rfl
  | ended lg rep htx hdp hl =>
    refine ⟨lg, rfl, fun id u auto q hx => ?_⟩
    obtain ⟨t, b, st, he⟩ := hl _ hx
    cases he
  | committed t n =>
    refine ⟨[.committed t false .ok], rfl, fun id u auto q hx => ?_⟩
    cases List.mem_singleton.1 hx
  | _ => exact ⟨[], rfl, runsFit_nil⟩

def Reply.refuses : Reply → Bool
  | .error _ | .refused .. => true
  | _ => false

/-- **A statement of a connection that has levels open is run in their transaction, or refused.** -/
theorem Handled.query (h : Handled d r q d') (hq : r.type = .query) (hd : d.Fits)
    (hpos : 0 < tally Past.endsAll d.past) :
    (∃ t s, outermost Past.endsAll d.past = some t ∧ d'.log = .ran d.id t false s :: d.log) ∨
      ∃ rep, rep.refuses = true ∧ d'.out = d.out ++ [⟨r.id, rep⟩] := by
  have hnone : d.tx ≠ .none := fun htx => by
    have := (hd.none htx).1
    omega
  have hbye : ∀ {m : Msg}, m ≠ .query → r.type ≠ m := fun hm he => hm (he ▸ hq)
  have hplain : ¬ r.type.closes := fun h => by rcases h with h | h <;> rw [hq] at h <;> cases h
  cases h with
  | replied rep hw hcm hb he =>
    obtain ⟨e, rfl⟩ := he hq
    exact .inr ⟨_, rfl, rfl⟩
  | ranInside t s rep htx ht => exact .inl ⟨t, s, (hd.isOpen htx).2 ▸ ht, rfl⟩
  | failedInside t s e htx ht => exact .inr ⟨_, rfl, rfl⟩
  | readingInside t k s htx ht => exact .inl ⟨t, s, (hd.isOpen htx).2 ▸ ht, rfl⟩
  | greeted _ _ _ ht => exact absurd ht (hbye (by decide))
  | refused code m hh => exact .inr ⟨_, rfl, rfl⟩
  | bye ht => exact absurd ht (hbye (by decide))
  | parked hw | wroteAlone _ _ _ _ hw | committedAlone _ _ _ _ _ _ hw => exact absurd hw.tx hnone
  | readAlone _ _ _ _ htx | readingAlone _ _ _ _ htx => exact absurd htx hnone
  | beganRead _ _ _ hb | beganWrite _ _ _ _ hb | beginFailed _ _ _ _ hb | nested _ hb =>
    exact absurd hb (hbye (by decide))
  | acknowledged _ _ _ he | levelEnded _ _ he | levelFailed _ _ _ he | ended _ _ _ _ _ _ he
  | committed _ _ _ _ he => exact absurd he hplain

end

/-! ## Over a run -/

section
variable {o o' : State} {e : Event}

/-- Every connection that stays open is at the levels its client counts. -/
def State.Counted (o : State) : Prop :=
  ∀ c ∈ o.conns, c.closing = false → Owner.Fits c.tx c.depth c.txn c.past c.work c.workTxn

theorem State.Counted.step (h : o.Counted) (hs : Stepped o e o') : o'.Counted := by
  intro d hd hcl
  cases hs with
  | tick | stop => exact h d hd hcl
  | accept =>
    rcases List.mem_append.1 hd with hd | hd
    · exact h d hd hcl
    · rw [List.mem_singleton.1 hd]
      exact fits_none rfl rfl
  | turn _ sh pre post c c' hl he hsvc ht =>
    rcases mem_turned hl hd with rfl | hd
    · exact ht.fits (h c (by rw [hl]; simp)) hcl
    · exact h d hd hcl
  | sync st =>
    obtain ⟨b, hb, out, awaiting, rfl⟩ := mem_synced hd
    exact h b hb hcl
  | reap sh pre post c hl =>
    exact h d (by rw [hl]; exact mem_middle hd) hcl

theorem Runs.counted {P : State → Event → Prop} {svc : Option Service} {opt : Options} (h : Runs P svc opt o) :
    o.Counted := by
  induction h with
  | start => exact fun _ hc => by cases hc
  | step h e _ hs ih => exact ih.step (h.sane.stepped hs)

end

/-- A step runs no statement outside the levels its client counts: each in the transaction of the outermost BEGIN. -/
def RunsInside (all : Past → Bool) (o : State) (e : Event) (o' : State) : Prop :=
  ∃ new, o'.sh.log = new ++ o.sh.log ∧ ∀ c ∈ o.conns, 0 < tally all c.past →
    (∀ t auto q, .ran c.id t auto q ∈ new → auto = false ∧ outermost all c.past = some t) ∧
    (∀ a r rs, e = .answer c.id a → c.reqs = r :: rs → r.type = .query →
      (∃ t q, outermost all c.past = some t ∧ .ran c.id t false q ∈ new) ∨
      ∃ c' ∈ o'.conns, c'.id = c.id ∧ ∃ rep, rep.refuses = true ∧ c'.out = c.out ++ [⟨r.id, rep⟩])

section
variable {o o' : State} {e : Event}

theorem runsInside_of_none (new : List Asked) (hlog : o'.sh.log = new ++ o.sh.log)
    (hnew : ∀ id t auto q, .ran id t auto q ∉ new)
    (he : ∀ id a, e ≠ .answer id a) : RunsInside Past.endsAll o e o' :=
  ⟨new, hlog, fun _ _ _ => ⟨fun _ _ _ hx => absurd hx (hnew _ _ _ _), fun a _ _ ha => absurd ha (he _ a)⟩⟩

theorem runsInside_of_answer (hsane : o.Sane) {c c' : Conn} {a : Answers} (hc : c ∈ o.conns) (hc' : c' ∈ o'.conns)
    (hfits : c.closing = false → Owner.Fits c.tx c.depth c.txn c.past c.work c.workTxn)
    (ht : Turned (desk ⟨o.sh, c⟩) (.answer c.id a) (desk ⟨o'.sh, c'⟩)) :
    RunsInside Past.endsAll o (.answer c.id a) o' := by
  have hid : c'.id = c.id := ht.id
  -- what the request's own way of ending says of the step
  have hof : ∀ {q : Outcome} {r : Req} {rs : List Req} {d₁ : Desk}, (desk ⟨o.sh, c⟩).Answers → c.reqs = r :: rs →
      Handled (desk ⟨o.sh, c⟩) r q d₁ → o'.sh.log = d₁.log → c'.out = d₁.out →
      RunsInside Past.endsAll o (.answer c.id a) o' := by
    intro q r rs d₁ ha hr h hlog hout
    have hd : (desk ⟨o.sh, c⟩).Fits := hfits ha.closing
    obtain ⟨new, hnew, hruns⟩ := h.runs hd
    refine ⟨new, hlog.trans hnew, fun x hx hpos => ⟨fun t auto q hran => ?_, fun b r' rs' he hr' hq => ?_⟩⟩
    · obtain ⟨hxid, hin⟩ := hruns _ _ _ _ hran
      have hxc := eq_of_id hsane hx hc hxid
      subst hxc
      exact hin hpos
    · injection he with hxid
      have hxc := eq_of_id hsane hx hc hxid.symm
      subst hxc
      rw [hr] at hr'
      cases hr'
      rcases h.query hq hd hpos with ⟨t, s, hout', hran⟩ | ⟨rep, hrep, hsaid⟩
      · rw [hran, ← List.singleton_append, List.append_cancel_right_eq] at hnew
        exact .inl ⟨t, s, hout', by rw [← hnew]; exact List.mem_singleton.2 rfl⟩
      · exact .inr ⟨c', hc', hid, rep, hrep, hout.trans hsaid⟩
  generalize hdesk : desk ⟨o'.sh, c'⟩ = d' at ht
  have hlog : o'.sh.log = d'.log := congrArg Desk.log hdesk
  have hout : c'.out = d'.out := congrArg Desk.out hdesk
  cases ht with
  | answered _ _ r rs d₁ ha hr h | kept _ _ r rs q _ ha hr _ h => exact hof ha hr h hlog hout

end

/-- **A statement meant for a transaction never runs outside it.**  In every step of every run, whatever engine and
service answer: where a client has had more BEGINs answered DONE than COMMITs and ROLLBACKs answered since, one answered
where the engine had ended the transaction ending every level, its QUERY runs in the transaction of the outermost BEGIN
or is refused, and no other statement runs for it. -/
theorem statements_run_inside {svc : Option Service} {opt : Options} {o o' : State} {e : Event} (h : Reached svc opt o)
    (hs : step o e = some o') : RunsInside Past.endsAll o e o' := by
  have hsane := h.sane
  have hcount := h.counted
  cases hsane.stepped hs with
  | tick | accept | stop => exact runsInside_of_none [] rfl (fun _ _ _ _ h => by cases h) (fun _ _ h => by cases h)
  | sync st =>
    refine runsInside_of_none [.synced st] rfl (fun _ _ _ _ h => ?_) (fun _ _ h => by cases h)
    cases List.mem_singleton.1 h
  | reap sh pre post c hl hd hf hw hg ha =>
    exact runsInside_of_none [] ha (fun _ _ _ _ h => by cases h) (fun _ _ h => by cases h)
  | turn _ sh pre post c c' hl he hsvc ht =>
    have hc : c ∈ o.conns := by rw [hl]; simp
    by_cases hans : ∃ id a, e = .answer id a
    · obtain ⟨id, a, rfl⟩ := hans
      cases he
      exact runsInside_of_answer hsane hc (by simp) (hcount c hc) ht
    · have hlog := ht.log_same (fun id a he => hans ⟨id, a, he⟩)
      exact runsInside_of_none [] hlog (fun _ _ _ _ h => by cases h) (fun id a he => hans ⟨id, a, he⟩)

/-! ## A client of a transaction that failed -/

def twoLevels : List Event :=
  [.accept, sends 0 .hello 1 false [("major", .u64 1), ("minor", .u64 0)], .answer 0 slow,
    sends 0 .begin 2 false [("mode", .text (text "write"))], .answer 0 slow,
    sends 0 .begin 3 false [("mode", .text (text "write"))], .answer 0 slow,
    sends 0 .query 4 true [("statement", .text (text "UPDATE t SET n = 1"))]]

/-- It runs at the inner level, in the transaction of the outer. -/
theorem statements_run_inside_two : ∃ o o', Reached (some fullService) noOptions o ∧
    step o (.answer 0 slow) = some o' ∧ (∃ c ∈ o.conns, tally Past.endsAll c.past = 2) ∧
    RunsInside Past.endsAll o (.answer 0 slow) o' := by
  have hrun : ((State.start (some fullService) noOptions).runs (fun _ _ => True) twoLevels).any (fun o =>
      (step o (.answer 0 slow)).isSome && decide (∃ c ∈ o.conns, tally Past.endsAll c.past = 2)) = true := by
    decide +kernel
  obtain ⟨o, ho, hstep⟩ := (Option.any_eq_true _ _).1 hrun
  rw [Bool.and_eq_true, decide_eq_true_eq] at hstep
  obtain ⟨o', ho'⟩ := Option.isSome_iff_exists.1 hstep.1
  have hreached : Reached (some fullService) noOptions o := Runs.start.follow ho
  exact ⟨o, o', hreached, ho', hstep.2, statements_run_inside hreached ho'⟩

def failing : Answers := { slow with run := fun _ => .refused ⟨.storage, [], 0, 0, [], [], []⟩ true }

/-- The statement fails the transaction, the inner level is rolled back, and the outer goes with it. -/
def innerRollback : List Event :=
  twoLevels ++ [.answer 0 failing, sends 0 .rollback 5 false [], .answer 0 slow,
    sends 0 .query 6 true [("statement", .text (text "UPDATE t SET n = 2"))]]

/-- Two BEGINs answered DONE and one ROLLBACK, and the statement runs on its own. -/
theorem runs_outside_after_inner_rollback : ¬ ∀ (svc : Option Service) (opt : Options) (o o' : State) (e : Event),
    Reached svc opt o → step o e = some o' → RunsInside (fun _ => false) o e o' := by
  intro hall
  have hrun : ((State.start (some fullService) noOptions).runs (fun _ _ => True) innerRollback).any (fun o =>
      (step o (.answer 0 slow)).any (fun o' =>
        o.conns.any (fun c => decide (c.id = 0 ∧ 0 < tally (fun _ => false) c.past)) &&
        decide (o'.sh.log = [.committed 1 false .ok, .ran 0 1 true ⟨.text (text "UPDATE t SET n = 2"), none, none,
          2 ^ 32 - 1, 0, false, false⟩, .began ⟨1, true⟩] ++ o.sh.log))) = true := by
    decide +kernel
  obtain ⟨o, ho, hrest⟩ := (Option.any_eq_true _ _).1 hrun
  obtain ⟨o', ho', hfacts⟩ := (Option.any_eq_true _ _).1 hrest
  rw [Bool.and_eq_true, List.any_eq_true, decide_eq_true_eq] at hfacts
  obtain ⟨⟨c, hc, hopen⟩, hlog⟩ := hfacts
  rw [decide_eq_true_eq] at hopen
  obtain ⟨new, hnew, hinside⟩ := hall _ _ o o' _ (Runs.start.follow ho) ho'
  rw [hnew, List.append_cancel_right_eq] at hlog
  have hran := (hinside c hc hopen.2).1 1 true ⟨.text (text "UPDATE t SET n = 2"), none, none, 2 ^ 32 - 1, 0, false,
    false⟩
  rw [hopen.1, hlog] at hran
  have hauto := (hran (by simp)).1
  cases hauto

end Owner
end Gbasic
