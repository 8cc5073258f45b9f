import Gbasic.DateTime
import Gbasic.LendingApply
/-!
# LendingPayoff — what closes a loan

A quote accrues at the rate the loan was opened with, and servicing at the rate of the last rate change.  The quote
closes the loan where the two come to the same and what is paid stays in a `long long` (`payoff_closes`), and does not
where a rate change has made them differ (`payoff_stale`).
-/
namespace Gbasic
namespace Lending

open Eval (Bytes Raise MoneyValue DateTime Currencies)
open Money (InLong amount amount_inLong amount_of add_ok eq_of)

variable {ν : Type} {env : Env ν} {l : Loan ν}
variable {events : List (Event ν)} {s : Folded ν} {spec : String → Field ν} {x : MoneyValue} {d : DateTime}

/-! ## The payment that settles -/

def State.Settled (st : State) : Prop :=
  amount st.balance = 0 ∧ amount st.accrued = 0 ∧ amount st.feesDue = 0

def paymentOn (d : DateTime) (x : MoneyValue) : Event ν := ⟨.datetime d, .string (text "payment"), .money x⟩

theorem Conserved.settles {st : State} {paid : Int} (h : Conserved l paid st) {working : Loan ν}
    (hw : Money.unit working.principal = Money.unit l.principal) (hx : 0 ≤ amount x) :
    (∃ st', applyPayment env working st x = .ok st' ∧ st'.Settled) ↔
      Money.unit x = Money.unit l.principal ∧ amount x = st.owed ∧
        InLong (amount st.paidInterest + amount st.accrued) ∧
        InLong (amount st.paidFees + amount st.feesDue) := by
  have hbalance := h.balance
  have hnb := h.nonneg.balance
  constructor
  · rintro ⟨st', hpaid, hb0, ha0, hd0⟩
    have hu := applyPayment_unit h.unit hpaid
    obtain ⟨f, i, p, left, -, -, -, ⟨whole, wf, wi, wp, wl⟩, heq⟩ :=
      applyPayment_ok env hw h.unit h.nonneg hu hx
    rw [heq] at hpaid
    split_ifs at hpaid with hleft
    obtain ⟨-, hb, ha, hd, -, hpi, hpf⟩ := paid_ok h.unit (raising_ok.1 hpaid)
    have hin := amount_inLong st'.paidInterest
    have hfin := amount_inLong st'.paidFees
    have hi : amount i = amount st.accrued := by omega
    have hf : amount f = amount st.feesDue := by omega
    rw [hpi, hi] at hin
    rw [hpf, hf] at hfin
    refine ⟨hu, ?_, hin, hfin⟩
    unfold State.owed
    omega
  · rintro ⟨hu, hx', hin, hfin⟩
    obtain ⟨f, i, p, left, uf, ui, up, ⟨whole, wf, wi, wp, wl⟩, heq⟩ :=
      applyPayment_ok env hw h.unit h.nonneg hu hx
    have howed : amount f = amount st.feesDue ∧ amount i = amount st.accrued ∧
        amount p = amount st.balance := by
      unfold State.owed at hx' wl
      omega
    obtain ⟨hf, hi, hp⟩ := howed
    have hzero : InLong 0 := by decide
    have hprincipal : InLong (amount st.paidPrincipal + amount p) := by
      have hl := amount_inLong l.principal
      rw [hp, hbalance]
      unfold InLong at hl ⊢
      omega
    obtain ⟨st', hpaid⟩ := paid_of env.cs h.unit up ui uf (by rw [hp, sub_self]; exact hzero)
      (by rw [hi, sub_self]; exact hzero) (by rw [hf, sub_self]; exact hzero) hprincipal (by rw [hi]; exact hin)
      (by rw [hf]; exact hfin)
    obtain ⟨-, hb, ha, hd, -, -, -⟩ := paid_ok h.unit hpaid
    refine ⟨st', ?_, ?_⟩
    · rw [heq, if_neg (by omega)]
      exact raising_ok.2 hpaid
    · refine ⟨?_, ?_, ?_⟩ <;> omega

theorem Conserved.refuses (env : Env ν) {st : State} {paid : Int} (h : Conserved l paid st) {working : Loan ν}
    (hw : Money.unit working.principal = Money.unit l.principal) (hx : st.owed < amount x) :
    ∃ r, applyPayment env working st x = .error r := by
  have hpos : 0 ≤ st.owed := by
    have hb := h.nonneg.balance
    have ha := h.nonneg.accrued
    have hd := h.nonneg.feesDue
    unfold State.owed
    omega
  rcases hpaid : applyPayment env working st x with r | st'
  · exact ⟨r, rfl⟩
  · obtain ⟨f, i, p, left, -, -, -, ⟨-, -, -, -, wl⟩, heq⟩ :=
      applyPayment_ok env hw h.unit h.nonneg (applyPayment_unit h.unit hpaid) (by omega)
    rw [heq, if_pos (by omega)] at hpaid
    cases hpaid

theorem apply_snoc {w : Bool} (hs : apply env l events w = .ok s) (e : Event ν) :
    ∃ i, ∀ s', apply env l (events ++ [e]) w = .ok s' ↔ applyEvent env l w i s e = .ok s' := by
  refine ⟨0 + events.length, fun s' => ?_⟩
  obtain ⟨s₀, hopen, hs⟩ := bind_ok.1 hs
  unfold apply
  rw [hopen]
  change applyFrom env l w 0 s₀ (events ++ [e]) = .ok s' ↔ _
  rw [applyFrom_append, hs]
  dsimp only
  unfold applyFrom
  rcases applyEvent env l w (0 + events.length) s e with r | s₁
  · exact Iff.rfl
  · exact Iff.rfl

theorem applyEvent_payment {i : Nat} {P : State → Prop} :
    (∃ s', applyEvent env l false i s (paymentOn d x) = .ok s' ∧ P s'.st) ↔ before d s.date = false ∧ ∃ extra accrued,
      accrue env s.working s.st.balance s.date d = .ok extra ∧ Money.add env.cs s.st.accrued extra = .ok accrued ∧
      ∃ st', applyPayment env s.working { s.st with accrued := accrued } x = .ok st' ∧ P st' := by
  have hact : ∀ st, act env l s.working st d (paymentOn d x) =
      (applyPayment env s.working st x).bind (fun st' => .ok (st', s.working)) := fun st => rfl
  constructor
  · rintro ⟨s', h, hP⟩
    obtain ⟨hdate, hbefore, extra, accrued, hextra, hadd, hpaid⟩ := applyEvent_inv h
    have hd : d = s'.date := Field.datetime.inj hdate
    rw [← hd] at hbefore hextra hpaid
    rw [hact] at hpaid
    obtain ⟨st', hpaid, hst⟩ := bind_ok.1 hpaid
    rw [← (Prod.mk.inj (Except.ok.inj hst)).1] at hP
    exact ⟨hbefore, extra, accrued, hextra, hadd, st', hpaid, hP⟩
  · rintro ⟨hbefore, extra, accrued, hextra, hadd, st', hpaid, hP⟩
    refine ⟨⟨st', d, s.working, s.history⟩, ?_, hP⟩
    unfold applyEvent paymentOn
    dsimp only
    rw [if_neg (ne_true_of_eq_false hbefore)]
    apply bind_ok.2 ⟨extra, hextra, _⟩
    apply bind_ok.2 ⟨accrued, raising_ok.2 hadd, _⟩
    exact bind_ok.2 ⟨(st', s.working), (hact _).trans (bind_ok.2 ⟨st', hpaid, rfl⟩), rfl⟩

/-! ## The invariant, from the opening -/

theorem opening_ok (l : Loan ν) : opening l = .ok ⟨⟨l.principal, Money.of (Money.unit l.principal) 0,
    Money.of (Money.unit l.principal) 0, Money.of (Money.unit l.principal) 0, Money.of (Money.unit l.principal) 0,
    Money.of (Money.unit l.principal) 0⟩, l.opened, l, []⟩ := by
  unfold opening
  rw [zeroOf_ok]
  rfl

theorem loan_rate (h : loan env spec = .ok l) :
    ∃ rate, l.rate = .number rate ∧ env.arith.less rate (env.arith.ofInt 0) = false := by
  unfold loan at h
  rcases hmissing : missing spec with _ | f <;> rw [hmissing] at h <;> dsimp only at h
  · rcases hprincipal : spec "principal" with _ | _ | _ | principal | _ | _ <;> rw [hprincipal] at h <;> dsimp only at h
    case money =>
      rcases hrate : spec "rate" with _ | rate | _ | _ | _ | _ <;> rw [hrate] at h <;> dsimp only at h
      case number =>
        by_cases hneg : env.arith.less rate (env.arith.ofInt 0) = true
        · rw [if_pos hneg] at h
          cases h
        rw [if_neg hneg] at h
        refine ⟨rate, ?_, eq_false_of_ne_true hneg⟩
        rcases hterm : spec "term" with _ | term | _ | _ | _ | _ <;> rw [hterm] at h <;> dsimp only at h
        case number =>
          by_cases hwhole :
              (env.arith.atMost term (env.arith.ofInt 0) || !env.arith.same term (env.arith.floor term)) = true
          · rw [if_pos hwhole] at h
            cases h
          rw [if_neg hwhole] at h
          rcases hopened : spec "opened" with _ | _ | _ | _ | opened | _ <;> rw [hopened] at h <;> dsimp only at h
          case datetime =>
            obtain ⟨basis, -, h⟩ := bind_ok.1 h
            rcases basis with _ | basis
            · cases h
            obtain ⟨waterfall, -, h⟩ := bind_ok.1 h
            rcases waterfall with _ | waterfall
            · cases h
            obtain ⟨_, -, h⟩ := bind_ok.1 h
            rw [← Except.ok.inj h]
          all_goals cases h
        all_goals cases h
      all_goals cases h
    all_goals cases h
  · cases h

theorem carried_loan (h : loan env spec = .ok l) : Carried env.arith l l := by
  obtain ⟨rate, hrate, hless⟩ := loan_rate h
  refine ⟨rfl, fun x hx => ?_⟩
  rw [hrate] at hx
  rw [← Field.number.inj hx]
  exact hless

/-- **Every state that events lead to conserves.** -/
theorem apply_kept (hsane : env.arith.Sane) (hl : loan env spec = .ok l) (hpos : 0 ≤ amount l.principal) {w : Bool}
    (he : ∀ e ∈ events, e.Nonneg env.arith) (h : apply env l events w = .ok s) :
      s.Kept env.arith l (payments events) := by
  unfold apply at h
  rw [opening_ok] at h
  have hzero : amount (Money.of (Money.unit l.principal) 0) = 0 := amount_of (by decide)
  rw [← zero_add (payments events)]
  refine applyFrom_ok hsane he ⟨⟨⟨rfl, rfl, rfl, rfl, rfl, rfl⟩, ?_, ⟨hpos, hzero.ge, hzero.ge⟩, ?_⟩, carried_loan hl⟩ h
  · rw [hzero, sub_zero]
  · rw [hzero]
    rfl

/-! ## The quote -/

theorem payoff_inv {q : Payoff} (hs : apply env l events false = .ok s) (hin : s.st.In (Money.unit l.principal))
    (h : payoff env l events d = .ok q) :
    before d s.date = false ∧ ∃ extra, accrue env l s.st.balance s.date d = .ok extra ∧
      Money.unit extra = Money.unit l.principal ∧ InLong (amount s.st.accrued + amount extra) ∧
      Money.unit q.total = Money.unit l.principal ∧
      amount q.total = amount s.st.balance + amount s.st.accrued + amount extra +
        amount s.st.feesDue := by
  unfold payoff at h
  obtain ⟨s₁, hs₁, h⟩ := bind_ok.1 h
  obtain rfl := Except.ok.inj (hs₁.symm.trans hs)
  split_ifs at h with hbefore
  obtain ⟨extra, hextra, h⟩ := bind_ok.1 h
  obtain ⟨interest, hinterest, h⟩ := bind_ok.1 h
  obtain ⟨owed, howed, h⟩ := bind_ok.1 h
  obtain ⟨owed', howed', h⟩ := bind_ok.1 h
  obtain ⟨total, htotal, h⟩ := bind_ok.1 h
  obtain ⟨next, -, h⟩ := bind_ok.1 h
  obtain ⟨perDiem, -, h⟩ := bind_ok.1 h
  obtain rfl := Except.ok.inj h
  obtain ⟨ue, hlong, -, -⟩ := add_ok.1 (raising_ok.1 hinterest)
  obtain ⟨-, -, u₁, a₁⟩ := add_ok.1 (raising_ok.1 howed)
  obtain ⟨-, -, u₂, a₂⟩ := add_ok.1 (raising_ok.1 howed')
  obtain ⟨-, -, u₃, a₃⟩ := add_ok.1 (raising_ok.1 htotal)
  refine ⟨eq_false_of_ne_true hbefore, extra, hextra, ue.trans hin.accrued, hlong, ?_, ?_⟩
  · exact u₃.trans (u₂.trans (u₁.trans hin.balance))
  · rw [a₃, a₂, a₁]

/-- What is paid on a date closes the loan where it is so much exactly, and is refused where it is more. -/
structure Closes (env : Env ν) (l : Loan ν) (events : List (Event ν)) (d : DateTime) (total : MoneyValue) : Prop where
  closes : ∀ x, 0 ≤ amount x →
    ((∃ s, apply env l (events ++ [paymentOn d x]) false = .ok s ∧ s.st.Settled) ↔ x = total)
  refused : ∀ x, amount total < amount x → ∃ r, apply env l (events ++ [paymentOn d x]) false = .error r

/-- What is owed and what is paid go together in every state that a list's events lead to. -/
def Conserves (env : Env ν) (l : Loan ν) (events : List (Event ν)) : Prop :=
  ∀ w k s, apply env l (events.take k) w = .ok s → Conserved l (payments (events.take k)) s.st

/-- The principal is not negative, interest is the same at the loan's rate and at the rate of the last change, and what
is paid of interest and of fees stays in a `long long`. -/
structure Closable (env : Env ν) (l : Loan ν) (s : Folded ν) (d : DateTime) : Prop where
  principal : 0 ≤ amount l.principal
  rate : accrue env s.working s.st.balance s.date d = accrue env l s.st.balance s.date d
  interest : ∀ extra, accrue env l s.st.balance s.date d = .ok extra →
    InLong (amount s.st.paidInterest + (amount s.st.accrued + amount extra))
  fees : InLong (amount s.st.paidFees + amount s.st.feesDue)

theorem conserves_iff (hsane : env.arith.Sane) (hl : loan env spec = .ok l) (he : ∀ e ∈ events, e.Nonneg env.arith) :
    Conserves env l events ↔ 0 ≤ amount l.principal := by
  constructor
  · intro h
    exact (h false 0 _ (bind_ok.2 ⟨_, opening_ok l, rfl⟩)).nonneg.balance
  · intro hpos w k s hs
    exact (apply_kept hsane hl hpos (fun e hmem => he e (List.mem_of_mem_take hmem)) hs).st

/-- **A quote closes the loan** where what events lead to is closable, and only there. -/
theorem closes_iff (hsane : env.arith.Sane) (hl : loan env spec = .ok l) (hpos : 0 ≤ amount l.principal)
    (he : ∀ e ∈ events, e.Nonneg env.arith) (hs : apply env l events false = .ok s) {q : Payoff}
    (hq : payoff env l events d = .ok q) : Closes env l events d q.total ↔ Closable env l s d := by
  have hkept := apply_kept hsane hl hpos he hs
  have hw := hkept.working.unit
  obtain ⟨hd, extra, hextra, ue, hlong, utotal, atotal⟩ := payoff_inv hs hkept.st.unit hq
  -- What servicing asks for, once it has accrued in its own way.
  have hasked : ∀ x, 0 ≤ amount x → ((∃ s', apply env l (events ++ [paymentOn d x]) false = .ok s' ∧
    s'.st.Settled) ↔
      ∃ owed accrued, accrue env s.working s.st.balance s.date d = .ok owed ∧
        Money.add env.cs s.st.accrued owed = .ok accrued ∧
        Money.unit x = Money.unit l.principal ∧
        amount x = amount s.st.balance + amount accrued + amount s.st.feesDue ∧
        InLong (amount s.st.paidInterest + amount accrued) ∧
        InLong (amount s.st.paidFees + amount s.st.feesDue)) := by
    intro x hx
    obtain ⟨i, hsnoc⟩ := apply_snoc hs (paymentOn d x)
    simp only [hsnoc]
    rw [applyEvent_payment, and_iff_right hd]
    apply exists_congr
    intro owed
    apply exists_congr
    intro accrued
    rw [and_congr_right_iff]
    intro howed
    rw [and_congr_right_iff]
    intro hadd
    exact (hkept.charged hsane howed hadd).settles hw hx
  have hsame : ∀ owed accrued, accrue env s.working s.st.balance s.date d = .ok owed →
      Money.add env.cs s.st.accrued owed = .ok accrued →
      amount accrued = amount s.st.accrued + amount extra →
      owed = extra := by
    intro owed accrued howed hadd heq
    obtain ⟨uo, -⟩ := accrue_ok hsane hkept.working.rate hw howed
    obtain ⟨-, -, -, ha⟩ := add_ok.1 hadd
    exact eq_of (uo.trans ue.symm) (by omega)
  constructor
  · intro h
    have htotal : 0 ≤ amount q.total := by
      obtain ⟨-, hextra0⟩ := accrue_ok hsane (carried_loan hl).rate rfl hextra
      have hb := hkept.st.nonneg.balance
      have ha := hkept.st.nonneg.accrued
      have hf := hkept.st.nonneg.feesDue
      omega
    obtain ⟨owed, accrued, howed, hadd, -, hamount, hin, hfin⟩ := (hasked _ htotal).1 ((h.closes _ htotal).2 rfl)
    have haccrued : amount accrued = amount s.st.accrued + amount extra := by omega
    obtain rfl := hsame owed accrued howed hadd haccrued
    refine ⟨hpos, howed.trans hextra.symm, ?_, hfin⟩
    intro extra' hextra'
    obtain rfl := Except.ok.inj (hextra.symm.trans hextra')
    rw [← haccrued]
    exact hin
  · intro h
    have howed : accrue env s.working s.st.balance s.date d = .ok extra := h.rate.trans hextra
    have hadd : Money.add env.cs s.st.accrued extra = .ok _ := Money.add_of hkept.st.unit.accrued ue hlong
    have haccrued := amount_of (c := Money.unit l.principal) hlong
    constructor
    · intro x hx
      rw [hasked x hx]
      constructor
      · rintro ⟨owed, accrued, howed', hadd', ux, ax, -, -⟩
        obtain rfl := Except.ok.inj (howed'.symm.trans howed)
        obtain rfl := Except.ok.inj (hadd'.symm.trans hadd)
        exact eq_of (ux.trans utotal.symm) (by omega)
      · rintro rfl
        refine ⟨extra, _, howed, hadd, utotal, by omega, ?_, h.fees⟩
        rw [haccrued]
        exact h.interest extra hextra
    · intro x hx
      obtain ⟨i, hsnoc⟩ := apply_snoc hs (paymentOn d x)
      rcases happly : apply env l (events ++ [paymentOn d x]) false with r | s'
      · exact ⟨r, rfl⟩
      · obtain ⟨-, owed, accrued, howed', hadd', st', hpaid, -⟩ :=
          (applyEvent_payment (P := fun _ => True)).1 ⟨s', (hsnoc s').1 happly, trivial⟩
        obtain rfl := Except.ok.inj (howed'.symm.trans howed)
        obtain rfl := Except.ok.inj (hadd'.symm.trans hadd)
        have hless : ∀ accrued, amount accrued = amount s.st.accrued + amount owed →
            State.owed { s.st with accrued := accrued } < amount x := by
          intro accrued ha
          unfold State.owed
          dsimp only
          omega
        obtain ⟨r, hr⟩ := (hkept.charged hsane howed' hadd').refuses env hw (hless _ haccrued)
        rw [hpaid] at hr
        cases hr

/-- **When a quote is what servicing asks for.**  Every state conserves where the principal is not negative; and a quote
closes the loan, to the last unit, where interest up to its date is the same at the loan's rate and at the rate of the
last change and what is paid stays in a `long long`, and nowhere else. -/
theorem payoff_closes (hsane : env.arith.Sane) {spec : String → Field ν} (hl : loan env spec = .ok l)
    {events : List (Event ν)} (he : ∀ e ∈ events, e.Nonneg env.arith) {s : Folded ν}
    (hs : apply env l events false = .ok s) : (Conserves env l events ↔ 0 ≤ Money.amount l.principal) ∧
      ∀ d q, payoff env l events d = .ok q →
        (Conserves env l events ∧ Closes env l events d q.total ↔ Closable env l s d) := by
  have hconserves := conserves_iff hsane hl he
  refine ⟨hconserves, fun d q hq => ?_⟩
  rw [hconserves]
  constructor
  · rintro ⟨hpos, h⟩
    exact (closes_iff hsane hl hpos he hs hq).1 h
  · intro h
    exact ⟨h.principal, (closes_iff hsane hl h.principal he hs hq).2 h⟩


/-! ## Exact numbers -/

/-- Numbers that are exact, money rounded to the nearest unit. -/
def exact : Arithmetic ℚ where
  ofInt := fun n => n
  less := fun x y => decide (x < y)
  atMost := fun x y => decide (x ≤ y)
  same := fun x y => decide (x = y)
  sub := fun x y => x - y
  mul := fun x y => x * y
  div := fun x y => if y = 0 then .error ⟨text "division by zero", 1002, "division"⟩ else .ok (x / y)
  floor := fun x => (⌊x⌋ : ℤ)
  scale := fun m x =>
    match Money.moneyMuldiv m.units.toInt x.num x.den with
    | .error e => .error ⟨text e, 1003, "money"⟩
    | .ok y => .ok (Money.of (Money.unit m) y)

theorem rounds_nonneg {x : ℚ} {z : Int} (h : Rounds x z) (hx : 0 ≤ x) : 0 ≤ z := by
  by_contra hz
  have hz' : z ≤ -1 := by omega
  have hle : (z : ℚ) ≤ -1 := by exact_mod_cast hz'
  have habs : 1 ≤ |x - z| := le_trans (by linarith) (le_abs_self _)
  linarith [h.1]

theorem exact_nonneg {x : ℚ} : exact.less x (exact.ofInt 0) = false ↔ 0 ≤ x := by
  have hzero : exact.ofInt 0 = 0 := Int.cast_zero
  rw [hzero]
  exact decide_eq_false_iff_not.trans not_lt

theorem exact_pos {x : ℚ} : exact.atMost x (exact.ofInt 0) = false ↔ 0 < x := by
  have hzero : exact.ofInt 0 = 0 := Int.cast_zero
  rw [hzero]
  exact decide_eq_false_iff_not.trans not_le

theorem exact_sane : exact.Sane where
  above := by
    intro x hx
    exact exact_nonneg.2 (exact_pos.1 hx).le
  mul := by
    intro x y hx hy
    exact exact_nonneg.2 (mul_nonneg (exact_nonneg.1 hx) (exact_nonneg.1 hy))
  div := by
    intro x y z hx hy h
    have hpos := exact_pos.1 hy
    have hz : x / y = z := Except.ok.inj ((if_neg hpos.ne').symm.trans h)
    rw [← hz]
    exact exact_nonneg.2 (div_nonneg (exact_nonneg.1 hx) hpos.le)
  scale := by
    intro m x r hm hx h
    have hnum : 0 ≤ x.num := Rat.num_nonneg.2 (exact_nonneg.1 hx)
    have hden : (0 : Int) < x.den := by exact_mod_cast x.den_pos
    unfold exact at h
    dsimp only at h
    rcases hround : Money.moneyMuldiv m.units.toInt x.num x.den with e | y <;> rw [hround] at h <;> dsimp only at h
    · cases h
    · obtain ⟨hlong, hrounds⟩ := (Money.muldiv_iff hden y).1 hround
      have hnonneg : (0 : ℚ) ≤ ((m.units.toInt * x.num : Int) : ℚ) / ((x.den : Int) : ℚ) := by
        have hprod : 0 ≤ m.units.toInt * x.num := mul_nonneg hm hnum
        have hprod' : (0 : ℚ) ≤ ((m.units.toInt * x.num : Int) : ℚ) := by exact_mod_cast hprod
        exact div_nonneg hprod' (by exact_mod_cast hden.le)
      rw [← Except.ok.inj h]
      refine ⟨rfl, ?_⟩
      rw [amount_of hlong]
      exact rounds_nonneg hrounds hnonneg

/-! ## A rate change -/

def usd (units : Int) : MoneyValue := Money.of (840, 2) units

/-- The days of `actual/360`, with no other library's refusals. -/
def daily : Env ℚ where
  cs := Currencies.start
  string := fun _ => []
  mistyped := fun _ => .raise ⟨text "type mismatch", 1001, "type"⟩
  arith := exact
  yearFraction := fun a b _ => .ok (((days b - days a : Int) : ℚ) / 360)
  daysBetween := fun a b => days b - days a
  oneDayAfter := fun d => .ok { d with day := d.day + 1 }
where
  days (d : DateTime) : Int := Dates.daysFromCivil d.year.toInt d.month.toInt d.day.toInt

def newYear : DateTime := ⟨2023, 1, 1, 0, 0, 0, 0, 3⟩

/-- Three hundred and sixty days later. -/
def yearEnd : DateTime := ⟨2023, 12, 27, 0, 0, 0, 0, 3⟩

/-- A thousand dollars without interest. -/
def free : Loan ℚ :=
  ⟨usd 1000000000, .number 0, 12, newYear, .dailySimple, .feesInterestPrincipal, .string (text "actual/360"),
    .number 12⟩

def freeSpec : String → Field ℚ
  | "principal" => .money (usd 1000000000)
  | "rate" => .number 0
  | "term" => .number 12
  | "opened" => .datetime newYear
  | "basis" => .string (text "daily_simple")
  | "waterfall" => .string (text "fees_interest_principal")
  | "day_count" => .string (text "actual/360")
  | _ => .unknown

/-- The rate goes to a hundred percent. -/
def dearer : List (Event ℚ) := [⟨.datetime newYear, .string (text "rate_change"), .number 1⟩]

theorem free_loan : loan daily freeSpec = .ok free := by
  rfl

theorem dearer_nonneg : ∀ e ∈ dearer, e.Nonneg exact := by
  intro e he
  obtain rfl := List.mem_singleton.1 he
  refine ⟨fun m hm => ?_, fun x hx => ?_⟩
  · cases hm
  · rw [← Field.number.inj hx]
    exact exact_nonneg.2 zero_le_one

theorem nonneg_of_money {e : Event ℚ} {y : MoneyValue} (hy : e.amount = .money y) (hpos : 0 ≤ amount y) :
    e.Nonneg exact := by
  refine ⟨fun m hm => ?_, fun x hx => ?_⟩
  · rw [← Field.money.inj (hy.symm.trans hm)]
    exact hpos
  · cases hy.symm.trans hx

/-- A fee of twenty-five dollars, and six hundred dollars paid once half a year's interest has accrued. -/
def serviced : List (Event ℚ) :=
  dearer ++ [⟨.datetime ⟨2023, 3, 1, 0, 0, 0, 0, 3⟩, .string (text "fee"), .money (usd 25000000)⟩,
    paymentOn ⟨2023, 6, 30, 0, 0, 0, 0, 3⟩ (usd 600000000)]

theorem serviced_nonneg : ∀ e ∈ serviced, e.Nonneg exact := by
  intro e he
  rcases List.mem_append.1 he with he | he
  · exact dearer_nonneg e he
  · rcases List.mem_cons.1 he with rfl | he
    · exact nonneg_of_money rfl (by decide)
    · rw [List.mem_singleton.1 he]
      exact nonneg_of_money rfl (by decide)

/-- Of a loan whose rate has gone up, with a fee and a payment: five hundred dollars of interest have accrued, and the
payment goes to the fee, to them and to the principal. -/
theorem payoff_closes_serviced : ∃ s, apply daily free serviced false = .ok s ∧
    amount s.st.paidFees = 25000000 ∧ amount s.st.paidInterest = 500000000 ∧ amount s.st.balance = 925000000 ∧
    (Conserves daily free serviced ↔ 0 ≤ Money.amount free.principal) ∧
    ∀ d q, payoff daily free serviced d = .ok q →
      (Conserves daily free serviced ∧ Closes daily free serviced d q.total ↔ Closable daily free s d) := by
  have hpaid : (apply daily free serviced false).toOption.map
      (fun s => (amount s.st.paidFees, amount s.st.paidInterest, amount s.st.balance)) =
      some (25000000, 500000000, 925000000) := by
    decide +kernel
  rcases hs : apply daily free serviced false with r | s
  · rw [hs] at hpaid
    cases hpaid
  · rw [hs] at hpaid
    obtain ⟨hfees, hrest⟩ := Prod.mk.inj (Option.some.inj hpaid)
    obtain ⟨hinterest, hbalance⟩ := Prod.mk.inj hrest
    exact ⟨s, rfl, hfees, hinterest, hbalance, payoff_closes exact_sane free_loan serviced_nonneg hs⟩

/-- **What is quoted without interest leaves a year's interest owing**, once the rate has gone up. -/
theorem payoff_stale : exact.Sane ∧ loan daily freeSpec = .ok free ∧ (∀ e ∈ dearer, e.Nonneg exact) ∧
    ∃ q, payoff daily free dearer yearEnd = .ok q ∧ ¬Closes daily free dearer yearEnd q.total := by
  have hquote : (payoff daily free dearer yearEnd).toOption.map (fun q => q.total) = some (usd 1000000000) := by
    decide +kernel
  have hpaid : (apply daily free (dearer ++ [paymentOn yearEnd (usd 1000000000)]) false).toOption.map
      (fun s => Money.amount s.st.balance) = some 1000000000 := by
    decide +kernel
  refine ⟨exact_sane, free_loan, dearer_nonneg, ?_⟩
  rcases hq : payoff daily free dearer yearEnd with r | q
  · rw [hq] at hquote
    cases hquote
  · rw [hq] at hquote
    have htotal : q.total = usd 1000000000 := Option.some.inj hquote
    refine ⟨q, rfl, fun h => ?_⟩
    obtain ⟨s, hs, hsettled⟩ := (h.closes (usd 1000000000) (by decide)).2 htotal.symm
    rw [hs] at hpaid
    exact absurd (hsettled.1.symm.trans (Option.some.inj hpaid)) (by decide)

end Lending
end Gbasic
