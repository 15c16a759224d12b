import LoopKernel.Proofs.Schedule.Tables
import Mathlib.Data.Nat.SuccPred

/-!
# The kernel call around a position

The tables remember one call: the last one, until a kernel is returned from. In a well nested
schedule that is the innermost call around a position, unless a kernel that was called inside of it
has been returned from before the position. Then the tables hold no call there, although the outer
block goes on.
-/

namespace LoopKernel

namespace Schedule

variable {s : Schedule} {index call outer : Nat}

/-- Whether the block of a kernel call contains the point just before a position. -/
def CallAround (s : Schedule) (index call : Nat) : Prop :=
  call < index ∧ (∃ name, s[call]? = some (.callKernel name)) ∧
    ∃ stop, s.blockEnd call = .ok stop ∧ index ≤ stop

/-- Whether a kernel call is the innermost one around the point just before a position. -/
def IsInnermostCall (s : Schedule) (index call : Nat) : Prop :=
  IsGreatest {outer | s.CallAround index outer} call

/-- Whether a kernel is returned from between two positions. -/
def ReturnsBetween (s : Schedule) (start stop : Nat) : Prop :=
  ∃ index name, start < index ∧ index < stop ∧ s[index]? = some (.returnFromKernel name)

/-- Around a position that some call is around there is an innermost one. -/
theorem exists_isInnermostCall (h : s.CallAround index outer) :
    ∃ call, s.IsInnermostCall index call :=
  BddAbove.exists_isGreatest_of_nonempty ⟨index, fun _ hcall => Nat.le_of_lt hcall.1⟩ ⟨outer, h⟩

/-- The block of a kernel call ends with a return. -/
theorem exists_return (hagrees : s.Agrees) {name : String}
    (hcall : s[call]? = some (.callKernel name)) {stop : Nat} (hstop : s.blockEnd call = .ok stop) :
    call < stop ∧ s[stop]? = some (.returnFromKernel name) := by
  obtain ⟨first, last, hfirst, hlast, hcloses⟩ := hagrees call stop hstop
  obtain rfl : .callKernel name = first := Option.some.inj (hcall.symm.trans hfirst)
  refine ⟨(closes_of_blockEnd hstop).1, ?_⟩
  cases last with
  | returnFromKernel returned =>
    obtain rfl : returned = name := beq_iff_eq.mp hcloses
    exact hlast
  | _ => cases hcloses

/-- The last item before a position that calls a kernel or returns from one is the innermost call
around the position, if no kernel is returned from in between. -/
theorem lastBefore_call_iff (hends : s.BalancedWithin 0) (hagrees : s.Agrees) :
    (∃ name, s.LastBefore ScheduleItem.boundsCall index call (.callKernel name)) ↔
      s.IsInnermostCall index call ∧ ¬s.ReturnsBetween call index := by
  constructor
  · rintro ⟨name, hlt, hcall, -, hnone⟩
    obtain ⟨stop, hstop⟩ := hends.exists_blockEnd call _ hcall rfl
    obtain ⟨hafter, hreturn⟩ := exists_return hagrees hcall hstop
    have hle : index ≤ stop := by
      refine Nat.le_of_not_lt fun hbefore => ?_
      cases hnone stop _ hafter hbefore hreturn
    refine ⟨⟨⟨hlt, ⟨name, hcall⟩, stop, hstop, hle⟩, ?_⟩, ?_⟩
    · rintro other ⟨hother, ⟨called, hitem⟩, -⟩
      refine Nat.le_of_not_lt fun hinner => ?_
      cases hnone other _ hinner hother hitem
    · rintro ⟨between, returned, hinner, hbefore, hitem⟩
      cases hnone between _ hinner hbefore hitem
  · rintro ⟨⟨⟨hlt, ⟨name, hcall⟩, -⟩, hgreatest⟩, hreturns⟩
    refine ⟨name, hlt, hcall, rfl, fun between other hinner hbefore hitem => ?_⟩
    cases other with
    | callKernel called =>
      -- An inner call is around the position itself, or it has been returned from.
      obtain ⟨stop, hstop⟩ := hends.exists_blockEnd between _ hitem rfl
      obtain ⟨hafter, hreturn⟩ := exists_return hagrees hitem hstop
      obtain hreturned | haround := Nat.lt_or_ge stop index
      · exact absurd ⟨stop, called, hinner.trans hafter, hreturned, hreturn⟩ hreturns
      · have hle := hgreatest ⟨hbefore, ⟨called, hitem⟩, stop, hstop, haround⟩
        exact absurd hinner (Nat.not_lt.mpr hle)
    | returnFromKernel returned => exact absurd ⟨between, returned, hinner, hbefore, hitem⟩ hreturns
    | _ => rfl

end Schedule

namespace ScheduleTables

variable {k : Kernel} {t : ScheduleTables}

/-- In a well nested schedule of a kernel the tables hold the innermost call around a position,
unless a kernel is returned from between that call and the position. They hold no call if there is
none around the position, or if a kernel is returned from after the innermost one. -/
theorem enclosingCall_of_wellNested (h : ofKernel k = .ok t) (hnested : t.schedule.WellNested)
    {index : Nat} (hindex : index ≤ t.schedule.length) :
    k.schedule = some t.schedule ∧ ∃ found, t.enclosingCall index = .ok found ∧
      (∀ call, found = some call ↔
        t.schedule.IsInnermostCall index call ∧ ¬t.schedule.ReturnsBetween call index) ∧
      (found = none ↔ (∀ call, ¬t.schedule.CallAround index call) ∨
        ∃ call, t.schedule.IsInnermostCall index call ∧
          t.schedule.ReturnsBetween call index) := by
  obtain ⟨hsame, points, -, hfill⟩ := fill_of_ofKernel h
  obtain ⟨hbalanced, -⟩ := fill_spec hfill
  have hagrees : t.schedule.Agrees := ((Schedule.nestedWithin_iff hbalanced).mp hnested).2
  obtain ⟨p, hp, hscanned⟩ := scanned_of_ofKernel h hindex
  have hfound : ∀ call, p.call = some call ↔
      t.schedule.IsInnermostCall index call ∧ ¬t.schedule.ReturnsBetween call index :=
    fun call => (hscanned.call call).trans (Schedule.lastBefore_call_iff hbalanced hagrees)
  refine ⟨hsame, p.call, by rw [enclosingCall, point, hp]; rfl, hfound, ?_⟩
  rw [Option.eq_none_iff_forall_ne_some]
  constructor
  · intro hnone
    by_cases haround : ∃ outer, t.schedule.CallAround index outer
    · obtain ⟨outer, haround⟩ := haround
      obtain ⟨call, hcall⟩ := Schedule.exists_isInnermostCall haround
      refine .inr ⟨call, hcall, ?_⟩
      exact Classical.not_not.mp fun hreturns => hnone call ((hfound call).mpr ⟨hcall, hreturns⟩)
    · exact .inl (not_exists.mp haround)
  · rintro (hnone | ⟨inner, hinner, hreturns⟩) call hcall
    · exact hnone call ((hfound call).mp hcall).1.1
    · obtain ⟨hinnermost, hno⟩ := (hfound call).mp hcall
      exact hno (hinner.unique hinnermost ▸ hreturns)

/-- A kernel call inside of another one. -/
def nestedCalls : Kernel where
  name := "kernel"
  domain := .whole ["i"]
  instructions := []
  args := []
  temporaries := ∅
  tags := ∅
  device := .fermi
  schedule := some [.callKernel "outer", .callKernel "inner", .returnFromKernel "inner",
    .returnFromKernel "outer"]

/-- After the inner kernel is returned from, the tables hold no call, although the position is in
the block of the outer one. -/
theorem enclosingCall_of_wellNested_nestedCalls :
    ∃ t, ofKernel nestedCalls = .ok t ∧ t.schedule.WellNested ∧
      t.schedule.IsInnermostCall 3 0 ∧ t.enclosingCall 3 = .ok none := by
  obtain ⟨t, h⟩ : ∃ t, ofKernel nestedCalls = .ok t := ⟨_, rfl⟩
  have hschedule : [.callKernel "outer", .callKernel "inner", .returnFromKernel "inner",
      .returnFromKernel "outer"] = t.schedule := Option.some.inj (fill_of_ofKernel h).1
  have hnested : t.schedule.WellNested := by
    rw [← hschedule]
    decide
  have hinnermost : t.schedule.IsInnermostCall 3 0 := by
    rw [← hschedule]
    refine ⟨⟨by decide, ⟨"outer", rfl⟩, 3, rfl, by decide⟩, ?_⟩
    rintro call ⟨hlt, ⟨name, hcall⟩, stop, hstop, hle⟩
    obtain rfl | rfl | rfl : call = 0 ∨ call = 1 ∨ call = 2 := by omega
    · exact Nat.le_refl 0
    · obtain rfl : 2 = stop := Except.ok.inj hstop
      cases Nat.not_succ_le_self 2 hle
    · cases hcall
  have hindex : 3 ≤ t.schedule.length := by
    rw [← hschedule]
    decide
  obtain ⟨-, found, hfound, -, hnone⟩ := enclosingCall_of_wellNested h hnested hindex
  have hreturns : t.schedule.ReturnsBetween 0 3 :=
    ⟨2, "inner", by decide, by decide, by rw [← hschedule]; rfl⟩
  obtain rfl := hnone.mpr (.inr ⟨0, hinnermost, hreturns⟩)
  exact ⟨t, h, hnested, hinnermost, hfound⟩

end ScheduleTables

end LoopKernel
