import LoopKernel.Proofs.NameSet
import LoopKernel.Proofs.Schedule.Nesting

/-!
# Tables and scans

For every position the tables of a schedule hold what a scan of the schedule finds there: the loops
that were entered last, the last call of a kernel, the number of barriers, and the ends of blocks.
The point after an item follows from the one before it, so a law of the points is one of a single
item. The ends of blocks come from a stack of open blocks, whose places in the stack are the depths
that a scan for the end counts.
-/

namespace LoopKernel

namespace ScheduleItem

/-- Whether an item enters or leaves the loop over an index. -/
def boundsLoop (iname : String) : ScheduleItem → Bool
  | .enterLoop entered => entered == iname
  | .leaveLoop left => left == iname
  | _ => false

/-- Whether an item calls a kernel or returns from one. -/
def boundsCall : ScheduleItem → Bool
  | .callKernel _ | .returnFromKernel _ => true
  | _ => false

end ScheduleItem

namespace Schedule

variable {s : Schedule} {item first : ScheduleItem} {start stop depth : Nat}

/-! ## Items before a position -/

/-- Whether an item, at a position, is the last one before another position that passes a test. -/
def LastBefore (s : Schedule) (test : ScheduleItem → Bool) (stop found : Nat)
    (item : ScheduleItem) : Prop :=
  found < stop ∧ s[found]? = some item ∧ test item = true ∧
    ∀ between other, found < between → between < stop → s[between]? = some other →
      test other = false

/-- One item later, the last item is the new one if it passes the test. -/
theorem lastBefore_succ {test : ScheduleItem → Bool} {found : Nat} {last : ScheduleItem}
    (hitem : s[stop]? = some item) : s.LastBefore test (stop + 1) found last ↔
      if test item = true then found = stop ∧ last = item
      else s.LastBefore test stop found last := by
  unfold LastBefore
  split
  · next htest =>
    constructor
    · rintro ⟨hlt, hlast, -, hnone⟩
      obtain hbefore | rfl := Nat.lt_or_eq_of_le (Nat.le_of_lt_succ hlt)
      · have hfalse := hnone stop item hbefore (Nat.lt_succ_self stop) hitem
        rw [htest] at hfalse
        cases hfalse
      · exact ⟨rfl, Option.some.inj (hlast.symm.trans hitem)⟩
    · rintro ⟨rfl, rfl⟩
      exact ⟨Nat.lt_succ_self _, hitem, htest, fun between _ _ _ => by omega⟩
  · next htest =>
    constructor
    · rintro ⟨hlt, hlast, hpasses, hnone⟩
      have hne : found ≠ stop := by
        rintro rfl
        obtain rfl : last = item := Option.some.inj (hlast.symm.trans hitem)
        exact htest hpasses
      exact ⟨by omega, hlast, hpasses, fun between other h h' => hnone between other h (by omega)⟩
    · rintro ⟨hlt, hlast, hpasses, hnone⟩
      refine ⟨by omega, hlast, hpasses, fun between other h h' hother => ?_⟩
      obtain rfl | hbefore := Nat.eq_or_lt_of_le (Nat.lt_succ_iff.mp h')
      · obtain rfl : other = item := Option.some.inj (hother.symm.trans hitem)
        exact Bool.not_eq_true _ ▸ htest
      · exact hnone between other h hbefore hother

/-- Items are counted more often up to a later position exactly if one of them is in between. -/
theorem count_take_lt_iff (h : start ≤ stop) :
    (s.take start).count item < (s.take stop).count item ↔
      ∃ index, start ≤ index ∧ index < stop ∧ s[index]? = some item := by
  have hsplit : s.take stop = s.take start ++ (s.drop start).take (stop - start) := by
    rw [← List.take_add, Nat.add_sub_cancel' h]
  rw [hsplit, List.count_append, Nat.lt_add_right_iff_pos, List.count_pos_iff,
    List.mem_iff_getElem?]
  constructor
  · rintro ⟨offset, hoffset⟩
    obtain ⟨hlt, hget⟩ : offset < stop - start ∧ s[start + offset]? = some item := by
      simpa [List.getElem?_take, List.getElem?_drop] using hoffset
    exact ⟨start + offset, Nat.le_add_right _ _, by omega, hget⟩
  · rintro ⟨index, hle, hlt, hget⟩
    refine ⟨index - start, ?_⟩
    rw [List.getElem?_take_of_lt (by omega), List.getElem?_drop, Nat.add_sub_cancel' hle, hget]

/-! ## Closing items -/

/-- Where a scan ends, an item closes a block. -/
theorem closes_of_closingOffset? {offset : Nat} (h : closingOffset? s depth = some offset) :
    ∃ before last, offset = before + 1 ∧ s[before]? = some last ∧ last.closesBlock = true := by
  induction s generalizing depth offset with
  | nil => cases h
  | cons item rest ih =>
    have hlater {d : Nat} (h : (closingOffset? rest d).map (· + 1) = some offset) :
        ∃ before last, offset = before + 1 ∧ (item :: rest)[before]? = some last ∧
          last.closesBlock = true := by
      obtain ⟨inner, hinner, rfl⟩ := Option.map_eq_some_iff.mp h
      obtain ⟨before, last, rfl, hlast, hcloses⟩ := ih hinner
      exact ⟨before + 1, last, rfl, hlast, hcloses⟩
    cases ho : item.opensBlock with
    | true => exact hlater (closingOffset?_opens ho ▸ h)
    | false =>
      cases hc : item.closesBlock with
      | false => exact hlater (closingOffset?_plain ho hc ▸ h)
      | true =>
        cases depth with
        | zero =>
          rw [closingOffset?_closes_zero ho hc] at h
          cases h
          exact ⟨0, item, rfl, rfl, hc⟩
        | succ depth => exact hlater (closingOffset?_closes_succ ho hc ▸ h)

/-- A block ends after its start, with an item that closes a block. -/
theorem closes_of_blockEnd (h : s.blockEnd start = .ok stop) :
    start < stop ∧ ∃ last, s[stop]? = some last ∧ last.closesBlock = true := by
  induction s generalizing start stop with
  | nil => cases start <;> cases h
  | cons item rest ih =>
    cases start with
    | zero =>
      obtain ⟨before, last, rfl, hlast, hcloses⟩ :=
        closes_of_closingOffset? (blockEnd_cons_zero.mp h).2
      exact ⟨Nat.succ_pos before, last, hlast, hcloses⟩
    | succ start =>
      obtain ⟨inner, hinner, rfl⟩ := blockEnd_cons_succ.mp h
      obtain ⟨hlt, last, hlast, hcloses⟩ := ih hinner
      exact ⟨Nat.succ_lt_succ hlt, last, hlast, hcloses⟩

/-- The items of a block are those from its start up to its end, in order. -/
theorem exists_block (h : s.blockEnd start = .ok stop) : ∃ items, s.block start = .ok items ∧
    items.length = stop + 1 - start ∧
      ∀ offset, start + offset ≤ stop → items[offset]? = s[start + offset]? := by
  obtain ⟨hlt, last, hlast, -⟩ := closes_of_blockEnd h
  have hlength : stop < s.length := (List.getElem?_eq_some_iff.mp hlast).1
  refine ⟨_, by rw [block, h]; rfl, ?_, fun offset hoffset => ?_⟩
  · rw [List.length_take, List.length_drop]
    omega
  · rw [List.getElem?_take_of_lt (by omega), List.getElem?_drop]

end Schedule

namespace ScheduleTables

variable {k : Kernel} {t : ScheduleTables}

/-! ## Points -/

/-- What holds after an item: of a loop that it enters or leaves, of calls if it calls a kernel or
returns from one, and of all else what held before. -/
theorem pointAfter_spec {index : Nat} {item : ScheduleItem} {before after : SchedulePoint}
    (h : pointAfter k index item before = .ok after) :
    (∀ iname, iname ∈ after.active ↔
      if item.boundsLoop iname = true then item = .enterLoop iname else iname ∈ before.active) ∧
    (∀ call, after.call = some call ↔
      if item.boundsCall = true then call = index ∧ ∃ name, item = .callKernel name
      else before.call = some call) ∧
    after.barriers = before.barriers + if item = .barrier then 1 else 0 := by
  cases item with
  | enterLoop entered =>
    cases h
    refine ⟨fun iname => ?_, fun _ => Iff.rfl, rfl⟩
    by_cases heq : entered = iname
    · simp [ScheduleItem.boundsLoop, heq]
    · simp [ScheduleItem.boundsLoop, heq, Ne.symm heq]
  | leaveLoop left =>
    rw [pointAfter] at h
    split at h
    · cases h
      refine ⟨fun iname => ?_, fun _ => Iff.rfl, rfl⟩
      by_cases heq : left = iname
      · simp [ScheduleItem.boundsLoop, heq]
      · simp [ScheduleItem.boundsLoop, heq, Ne.symm heq]
    · cases h
  | callKernel name =>
    cases h
    refine ⟨fun _ => Iff.rfl, fun call => ?_, rfl⟩
    simp [ScheduleItem.boundsCall, eq_comm]
  | returnFromKernel name =>
    cases h
    refine ⟨fun _ => Iff.rfl, fun call => ?_, rfl⟩
    simp [ScheduleItem.boundsCall]
  | barrier =>
    cases h
    exact ⟨fun _ => Iff.rfl, fun _ => Iff.rfl, rfl⟩
  | run insn =>
    rw [pointAfter] at h
    split at h
    · cases h
      exact ⟨fun _ => Iff.rfl, fun _ => Iff.rfl, rfl⟩
    · cases h

/-- Each item leads from the point before it to the one after it. -/
theorem pointAfter_of_fill {s : Schedule} {index : Nat} {p : SchedulePoint} {openBlocks : List Nat}
    {ends ends' : SortedMap Nat Nat} {points : List SchedulePoint}
    (h : fill k s index p openBlocks ends = .ok (points, ends')) :
    ∀ offset item, s[offset]? = some item →
      ∃ before after, (p :: points)[offset]? = some before ∧ points[offset]? = some after ∧
        pointAfter k (index + offset) item before = .ok after := by
  induction s generalizing index p openBlocks ends points with
  | nil => exact fun _ _ hitem => by cases hitem
  | cons first rest ih =>
    obtain ⟨q, hq, next, ends, -, later, ends, hrest, heq⟩ := fill_cons_eq_ok.mp h
    cases heq
    intro offset item hitem
    cases offset with
    | zero =>
      obtain rfl : first = item := by simpa using hitem
      exact ⟨p, q, rfl, rfl, hq⟩
    | succ offset =>
      obtain ⟨before, after, hbefore, hafter, hstep⟩ := ih hrest offset item (by simpa using hitem)
      refine ⟨before, after, by simpa using hbefore, by simpa using hafter, ?_⟩
      rwa [Nat.add_right_comm, Nat.add_assoc] at hstep

/-- What holds before all items and is kept by each one holds at every position. -/
theorem point_induction (h : ofKernel k = .ok t) {motive : Nat → SchedulePoint → Prop}
    (zero : motive 0 ⟨∅, none, 0⟩)
    (succ : ∀ index item before after, t.schedule[index]? = some item →
      pointAfter k index item before = .ok after → motive index before →
        motive (index + 1) after) :
    ∀ index ≤ t.schedule.length, ∃ p, t.points[index]? = some p ∧ motive index p := by
  obtain ⟨-, points, hpoints, hfill⟩ := fill_of_ofKernel h
  intro index hindex
  induction index with
  | zero => exact ⟨_, by rw [hpoints]; rfl, zero⟩
  | succ index ih =>
    obtain ⟨p, hp, hmotive⟩ := ih (Nat.le_of_succ_le hindex)
    have hitem := List.getElem?_eq_getElem hindex
    obtain ⟨before, after, hbefore, hafter, hstep⟩ := pointAfter_of_fill hfill index _ hitem
    obtain rfl : before = p := Option.some.inj (hbefore.symm.trans (hpoints ▸ hp))
    rw [Nat.zero_add] at hstep
    exact ⟨after, by rw [hpoints]; exact hafter, succ index _ before after hitem hstep hmotive⟩

/-- What the point before a position holds: the loops that were entered last, the last call of a
kernel after which none was returned from, and the number of barriers. -/
structure Scanned (s : Schedule) (index : Nat) (p : SchedulePoint) : Prop where
  active : ∀ iname, iname ∈ p.active ↔
    ∃ found, s.LastBefore (ScheduleItem.boundsLoop iname) index found (.enterLoop iname)
  call : ∀ found, p.call = some found ↔
    ∃ name, s.LastBefore ScheduleItem.boundsCall index found (.callKernel name)
  barriers : p.barriers = (s.take index).count .barrier

/-- Nothing is found before all items. -/
theorem Scanned.zero (s : Schedule) : Scanned s 0 ⟨∅, none, 0⟩ where
  active iname := iff_of_false (NameSet.not_mem_empty iname) fun ⟨_, h⟩ => Nat.not_lt_zero _ h.1
  call found := iff_of_false (by simp) fun ⟨_, h⟩ => Nat.not_lt_zero _ h.1
  barriers := rfl

/-- An item changes what is found in the way in which it changes the point. -/
theorem Scanned.succ {s : Schedule} {index : Nat} {item : ScheduleItem}
    {before after : SchedulePoint} (hitem : s[index]? = some item)
    (hstep : pointAfter k index item before = .ok after) (h : Scanned s index before) :
    Scanned s (index + 1) after := by
  obtain ⟨hactive, hcall, hbarriers⟩ := pointAfter_spec hstep
  refine ⟨fun iname => ?_, fun found => ?_, ?_⟩
  · simp only [hactive, Schedule.lastBefore_succ hitem]
    split
    · simp [eq_comm]
    · exact h.active iname
  · simp only [hcall, Schedule.lastBefore_succ hitem]
    split
    · simp [eq_comm]
    · exact h.call found
  · rw [hbarriers, h.barriers, List.take_add_one, hitem, List.count_append, Option.toList_some,
      List.count_singleton]
    simp only [beq_iff_eq]

/-- The points of the tables hold what a scan finds. -/
theorem scanned_of_ofKernel (h : ofKernel k = .ok t) {index : Nat}
    (hindex : index ≤ t.schedule.length) :
    ∃ p, t.points[index]? = some p ∧ Scanned t.schedule index p :=
  point_induction h (.zero _) (fun _ _ _ _ hitem hstep hp => hp.succ hitem hstep) index hindex

/-! ## Ends of blocks -/

/-- What a pass over some items records of the ends of blocks, where some blocks are open already:
the end of each block that starts among the items, the end of each open block, which is where a scan
from its depth ends, and of other blocks what was recorded before. -/
private structure Matched (s : Schedule) (index : Nat) (openBlocks : List Nat)
    (ends ends' : SortedMap Nat Nat) : Prop where
  inner : ∀ start item, s[start]? = some item → item.opensBlock = true →
    ∃ stop, s.blockEnd start = .ok stop ∧ ends'.get? (index + start) = some (index + stop)
  outer : ∀ (depth : Nat) start, openBlocks[depth]? = some start →
    ∃ offset, Schedule.closingOffset? s depth = some (offset + 1) ∧
      ends'.get? start = some (index + offset)
  others : ∀ start < index, start ∉ openBlocks → ends'.get? start = ends.get? start

section Matching

variable {item : ScheduleItem} {rest : Schedule} {index : Nat} {openBlocks outer : List Nat}
  {ends ends' : SortedMap Nat Nat}

/-- The blocks that start among some items are the one of the first item and those of the rest. -/
private theorem Matched.inner_cons {opened : List Nat}
    (h : Matched rest (index + 1) opened ends ends') (hfirst : item.opensBlock = true → ∃ offset,
      Schedule.closingOffset? rest 0 = some (offset + 1) ∧
        ends'.get? index = some (index + 1 + offset)) :
    ∀ start first, (item :: rest)[start]? = some first → first.opensBlock = true →
      ∃ stop, Schedule.blockEnd (item :: rest) start = .ok stop ∧
        ends'.get? (index + start) = some (index + stop) := by
  intro start first hitem ho
  cases start with
  | zero =>
    obtain rfl : item = first := by simpa using hitem
    obtain ⟨offset, hoffset, hget⟩ := hfirst ho
    refine ⟨offset + 1, Schedule.blockEnd_cons_zero.mpr ⟨ho, hoffset⟩, ?_⟩
    rwa [Nat.add_assoc, Nat.add_comm 1] at hget
  | succ start =>
    obtain ⟨stop, hstop, hget⟩ := h.inner start first (by simpa using hitem) ho
    refine ⟨stop + 1, Schedule.blockEnd_cons_succ.mpr ⟨stop, hstop, rfl⟩, ?_⟩
    rwa [Nat.add_assoc, Nat.add_assoc, Nat.add_comm 1, Nat.add_comm 1] at hget

/-- An open block that the rest of some items closes ends one item later, seen from the first. -/
private theorem Matched.outer_cons {opened : List Nat}
    (h : Matched rest (index + 1) opened ends ends') {place depth start : Nat}
    (hscan : Schedule.closingOffset? (item :: rest) depth =
      (Schedule.closingOffset? rest place).map (· + 1)) (hopened : opened[place]? = some start) :
    ∃ offset, Schedule.closingOffset? (item :: rest) depth = some (offset + 1) ∧
      ends'.get? start = some (index + offset) := by
  obtain ⟨offset, hoffset, hget⟩ := h.outer place start hopened
  refine ⟨offset + 1, by rw [hscan, hoffset]; rfl, ?_⟩
  rwa [Nat.add_assoc, Nat.add_comm 1] at hget

private theorem Matched.opens (ho : item.opensBlock = true)
    (h : Matched rest (index + 1) (index :: openBlocks) ends ends') :
    Matched (item :: rest) index openBlocks ends ends' where
  inner := h.inner_cons fun _ => h.outer 0 index rfl
  outer depth start hopened := by
    have hplace : (index :: openBlocks)[depth + 1]? = some start := hopened
    exact h.outer_cons (Schedule.closingOffset?_opens ho) hplace
  others start hlt hnot := by
    refine h.others start (Nat.lt_succ_of_lt hlt) fun hmem => ?_
    rcases List.mem_cons.mp hmem with rfl | hmem
    · exact Nat.lt_irrefl _ hlt
    · exact hnot hmem

private theorem Matched.closes {start : Nat} (ho : item.opensBlock = false)
    (hc : item.closesBlock = true) (hstart : start < index) (hnot : start ∉ outer)
    (h : Matched rest (index + 1) outer (ends.insert start index) ends') :
    Matched (item :: rest) index (start :: outer) ends ends' where
  inner := h.inner_cons fun hopens => by rw [ho] at hopens; cases hopens
  outer depth opened hopened := by
    cases depth with
    | zero =>
      obtain rfl : start = opened := by simpa using hopened
      refine ⟨0, Schedule.closingOffset?_closes_zero ho hc, ?_⟩
      rw [h.others start (Nat.lt_succ_of_lt hstart) hnot, SortedMap.get?_insert, if_pos rfl,
        Nat.add_zero]
    | succ depth => exact h.outer_cons (Schedule.closingOffset?_closes_succ ho hc) hopened
  others other hlt hother := by
    obtain ⟨hne, hother⟩ := not_or.mp (mt List.mem_cons.mpr hother)
    rw [h.others other (Nat.lt_succ_of_lt hlt) hother, SortedMap.get?_insert, if_neg hne]

private theorem Matched.plain (ho : item.opensBlock = false) (hc : item.closesBlock = false)
    (h : Matched rest (index + 1) openBlocks ends ends') :
    Matched (item :: rest) index openBlocks ends ends' where
  inner := h.inner_cons fun hopens => by rw [ho] at hopens; cases hopens
  outer _ _ hopened := h.outer_cons (Schedule.closingOffset?_plain ho hc) hopened
  others start hlt := h.others start (Nat.lt_succ_of_lt hlt)

end Matching

/-- A pass records the ends of blocks. The positions of open blocks lie before it and differ. -/
private theorem matched_of_fill {s : Schedule} {index : Nat} {p : SchedulePoint}
    {openBlocks : List Nat} {ends ends' : SortedMap Nat Nat} {points : List SchedulePoint}
    (h : fill k s index p openBlocks ends = .ok (points, ends')) (hnodup : openBlocks.Nodup)
    (hbefore : ∀ start ∈ openBlocks, start < index) : Matched s index openBlocks ends ends' := by
  induction s generalizing index p openBlocks ends points with
  | nil =>
    obtain ⟨rfl, heq⟩ := fill_nil_eq_ok.mp h
    cases heq
    exact ⟨fun _ _ hitem => by simp at hitem, fun _ _ hopened => by simp at hopened,
      fun _ _ _ => rfl⟩
  | cons item rest ih =>
    obtain ⟨q, -, next, ends, hblocks, later, ends'', hrest, heq⟩ := fill_cons_eq_ok.mp h
    cases heq
    obtain ⟨ho, rfl, rfl⟩ | ⟨ho, hc, start, rfl, rfl⟩ | ⟨ho, hc, rfl, rfl⟩ :=
      blocksAfter_cases hblocks
    · have hnew : index ∉ openBlocks := fun hmem => Nat.lt_irrefl _ (hbefore index hmem)
      refine .opens ho (ih hrest (List.nodup_cons.mpr ⟨hnew, hnodup⟩) fun start hmem => ?_)
      rcases List.mem_cons.mp hmem with rfl | hmem
      · exact Nat.lt_succ_self _
      · exact Nat.lt_succ_of_lt (hbefore start hmem)
    · obtain ⟨hnot, hnodup⟩ := List.nodup_cons.mp hnodup
      obtain ⟨hstart, houter⟩ := List.forall_mem_cons.mp hbefore
      exact .closes ho hc hstart hnot (ih hrest hnodup fun other hmem =>
        Nat.lt_succ_of_lt (houter other hmem))
    · exact .plain ho hc (ih hrest hnodup fun start hmem => Nat.lt_succ_of_lt (hbefore start hmem))

/-- The tables hold the end of each block. -/
theorem get?_blockEnds (h : ofKernel k = .ok t) {start : Nat} {item : ScheduleItem}
    (hitem : t.schedule[start]? = some item) (ho : item.opensBlock = true) :
    ∃ stop, t.schedule.blockEnd start = .ok stop ∧ t.blockEnds.get? start = some stop := by
  obtain ⟨-, points, -, hfill⟩ := fill_of_ofKernel h
  have hmatched := matched_of_fill hfill List.nodup_nil fun _ hmem => absurd hmem List.not_mem_nil
  obtain ⟨stop, hstop, hget⟩ := hmatched.inner start item hitem ho
  refine ⟨stop, hstop, ?_⟩
  rwa [Nat.zero_add, Nat.zero_add] at hget

/-! ## Agreement with scans -/

/-- Barriers are counted up to a position. -/
theorem barriersBefore_eq (h : ofKernel k = .ok t) {index : Nat}
    (hindex : index ≤ t.schedule.length) :
    t.barriersBefore index = (t.schedule.take index).count .barrier := by
  obtain ⟨p, hp, hscanned⟩ := scanned_of_ofKernel h hindex
  rw [barriersBefore, hp]
  exact hscanned.barriers

/-- A block whose end is recorded holds a barrier if more barriers are counted up to its end than up
to its first inner item. -/
theorem hasBarrier_of_get? {start stop : Nat} {item : ScheduleItem}
    (hitem : t.schedule[start]? = some item) (ho : item.opensBlock = true)
    (hend : t.blockEnds.get? start = some stop) :
    t.hasBarrier start =
      .ok (decide (t.barriersBefore (start + 1) < t.barriersBefore stop)) := by
  simp only [hasBarrier, hitem, ho, if_true, hend]

/-- The tables are those of the schedule of the kernel and agree with scans of it. A scan for the
end of a block comes to one, the items of the block are those from its start up to that end, and the
block counts as one with a barrier exactly if there is a barrier inside. An index counts as active
at a position exactly if the last item before it that enters or leaves the loop over that index
enters it. -/
theorem scans_of_ofKernel (h : ofKernel k = .ok t) :
    k.schedule = some t.schedule ∧
    (∀ start item, t.schedule[start]? = some item → item.opensBlock = true →
      ∃ items stop holds, t.schedule.block start = .ok items ∧
        t.schedule.blockEnd start = .ok stop ∧ t.hasBarrier start = .ok holds ∧
        items.length = stop + 1 - start ∧
        (∀ offset, start + offset ≤ stop → items[offset]? = t.schedule[start + offset]?) ∧
        (holds = true ↔ ∃ index, start < index ∧ index < stop ∧
          t.schedule[index]? = some .barrier)) ∧
    ∀ index ≤ t.schedule.length, ∃ active, t.activeInames index = .ok active ∧
      ∀ iname, iname ∈ active ↔ ∃ found,
        t.schedule.LastBefore (ScheduleItem.boundsLoop iname) index found (.enterLoop iname) := by
  refine ⟨(fill_of_ofKernel h).1, ?_, ?_⟩
  · intro start item hitem ho
    obtain ⟨stop, hstop, hend⟩ := get?_blockEnds h hitem ho
    obtain ⟨hlt, last, hlast, -⟩ := Schedule.closes_of_blockEnd hstop
    have hlength : stop < t.schedule.length := (List.getElem?_eq_some_iff.mp hlast).1
    obtain ⟨items, hblock, hitems, hslice⟩ := Schedule.exists_block hstop
    refine ⟨items, stop, _, hblock, hstop, hasBarrier_of_get? hitem ho hend, hitems, hslice, ?_⟩
    rw [decide_eq_true_iff, barriersBefore_eq h (by omega), barriersBefore_eq h (by omega)]
    exact Schedule.count_take_lt_iff hlt
  · intro index hindex
    obtain ⟨p, hp, hscanned⟩ := scanned_of_ofKernel h hindex
    exact ⟨p.active, by rw [activeInames, point, hp]; rfl, hscanned.active⟩

/-- A kernel call with a barrier in a loop. -/
def barrierInLoop : Kernel where
  name := "kernel"
  domain := .whole ["i"]
  instructions := [.assign "load" (.subscript "tile" [.var "i"]) (.var "i")]
  args := []
  temporaries := ∅
  tags := ∅
  device := .fermi
  schedule := some [.callKernel "fill", .enterLoop "i", .run "load", .barrier, .leaveLoop "i",
    .returnFromKernel "fill"]

/-- The loop ends with the item that leaves it and holds the barrier, and its index is active up to
that item. -/
theorem scans_of_ofKernel_barrierInLoop :
    ∃ t, ofKernel barrierInLoop = .ok t ∧ t.schedule.blockEnd 1 = .ok 4 ∧
      t.hasBarrier 1 = .ok true ∧ ∃ active, t.activeInames 4 = .ok active ∧ "i" ∈ active := by
  obtain ⟨t, h⟩ : ∃ t, ofKernel barrierInLoop = .ok t := ⟨_, rfl⟩
  obtain ⟨hsame, hblocks, hpoints⟩ := scans_of_ofKernel h
  have hschedule : [.callKernel "fill", .enterLoop "i", .run "load", .barrier, .leaveLoop "i",
      .returnFromKernel "fill"] = t.schedule := Option.some.inj hsame
  rw [← hschedule] at hblocks hpoints
  obtain ⟨items, stop, holds, -, hstop, hholds, -, -, hiff⟩ := hblocks 1 (.enterLoop "i") rfl rfl
  obtain rfl : 4 = stop := Except.ok.inj hstop
  obtain rfl : holds = true := hiff.mpr ⟨3, by decide, by decide, rfl⟩
  obtain ⟨active, hactive, hmem⟩ := hpoints 4 (by decide)
  refine ⟨t, h, hschedule ▸ hstop, hholds, active, hactive,
    (hmem "i").mpr ⟨1, by decide, rfl, rfl, ?_⟩⟩
  intro between other hafter hbefore hother
  obtain rfl | rfl : between = 2 ∨ between = 3 := by omega
  all_goals
    cases hother
    rfl

end ScheduleTables

end LoopKernel
