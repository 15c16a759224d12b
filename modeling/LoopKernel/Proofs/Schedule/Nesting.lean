import LoopKernel.Proofs.Checked
import LoopKernel.Schedule.Tables

/-!
# Nesting of blocks

The tables of a schedule are made only if its opening and closing items pair up and every
instruction that it runs exists. The pass that makes them matches each closing item with the most
recently opened block that is still open, and does not look at what opened that block: the schedule
is well nested exactly if the two items of every pair agree in kind and name.
-/

namespace LoopKernel

namespace ScheduleItem

/-- Whether an item closes the block that another one opens: it leaves the loop that was entered, or
returns from the kernel that was called. -/
def closes : (last first : ScheduleItem) → Bool
  | .leaveLoop iname, .enterLoop entered => iname == entered
  | .returnFromKernel name, .callKernel called => name == called
  | _, _ => false

/-- No item both opens and closes a block. -/
theorem closesBlock_of_opensBlock {item : ScheduleItem} (h : item.opensBlock = true) :
    item.closesBlock = false := by
  cases item with
  | enterLoop iname => rfl
  | callKernel name => rfl
  | _ => cases h

end ScheduleItem

namespace Schedule

/-- Whether every closing item closes the most recently opened block that is still open, and no
block stays open, where some blocks are open already, the innermost one first. -/
def nestedWithin : (opened : List ScheduleItem) → Schedule → Bool
  | opened, [] => opened.isEmpty
  | opened, item :: rest =>
    if item.opensBlock then nestedWithin (item :: opened) rest
    else if item.closesBlock then
      match opened with
      | [] => false
      | first :: outer => item.closes first && nestedWithin outer rest
    else nestedWithin opened rest

/-- Whether every closing item closes the most recently opened block that is still open, and no
block stays open. -/
def WellNested (s : Schedule) : Prop := nestedWithin [] s = true

instance (s : Schedule) : Decidable s.WellNested := inferInstanceAs (Decidable (_ = true))

/-- Whether the item at a position closes the block opened by the one at another position. -/
def Closes (s : Schedule) (start stop : Nat) : Prop :=
  ∃ first last, s[start]? = some first ∧ s[stop]? = some last ∧ last.closes first = true

/-- Closing items pair up with opening ones, where a number of blocks is open already. -/
inductive BalancedWithin : (depth : Nat) → Schedule → Prop
  | nil : BalancedWithin 0 []
  | opens {item : ScheduleItem} {rest : Schedule} {depth : Nat} (ho : item.opensBlock = true)
      (hrest : BalancedWithin (depth + 1) rest) : BalancedWithin depth (item :: rest)
  | closes {item : ScheduleItem} {rest : Schedule} {depth : Nat} (ho : item.opensBlock = false)
      (hc : item.closesBlock = true) (hrest : BalancedWithin depth rest) :
      BalancedWithin (depth + 1) (item :: rest)
  | plain {item : ScheduleItem} {rest : Schedule} {depth : Nat} (ho : item.opensBlock = false)
      (hc : item.closesBlock = false) (hrest : BalancedWithin depth rest) :
      BalancedWithin depth (item :: rest)

variable {item : ScheduleItem} {rest s : Schedule} {start stop depth : Nat}

/-! ## Ends of blocks -/

/-- The first item ends its block where the depth comes back to that of the block. -/
theorem blockEnd_cons_zero : blockEnd (item :: rest) 0 = .ok stop ↔
    item.opensBlock = true ∧ closingOffset? rest 0 = some stop := by
  simp only [blockEnd, List.drop_zero, Nat.zero_add]
  cases item.opensBlock with
  | false => simp
  | true => cases closingOffset? rest 0 <;> simp

/-- Blocks that start later are those of the rest. -/
theorem blockEnd_cons_succ : blockEnd (item :: rest) (start + 1) = .ok stop ↔
    ∃ inner, blockEnd rest start = .ok inner ∧ inner + 1 = stop := by
  simp only [blockEnd, List.drop_succ_cons]
  cases rest.drop start with
  | nil => simp
  | cons first after =>
    simp only
    cases first.opensBlock with
    | false => simp
    | true => cases closingOffset? after 0 <;> simp [Nat.add_right_comm]

theorem closingOffset?_opens (h : item.opensBlock = true) :
    closingOffset? (item :: rest) depth = (closingOffset? rest (depth + 1)).map (· + 1) := by
  cases depth <;> rw [closingOffset?, if_pos h]

theorem closingOffset?_closes_zero (ho : item.opensBlock = false) (hc : item.closesBlock = true) :
    closingOffset? (item :: rest) 0 = some 1 := by
  rw [closingOffset?, ho, hc]
  rfl

theorem closingOffset?_closes_succ (ho : item.opensBlock = false) (hc : item.closesBlock = true) :
    closingOffset? (item :: rest) (depth + 1) = (closingOffset? rest depth).map (· + 1) := by
  rw [closingOffset?, ho, hc]
  rfl

theorem closingOffset?_plain (ho : item.opensBlock = false) (hc : item.closesBlock = false) :
    closingOffset? (item :: rest) depth = (closingOffset? rest depth).map (· + 1) := by
  cases depth <;> (rw [closingOffset?, ho, hc]; rfl)

/-- The item that closes a block comes after those that were passed. -/
theorem closingOffset?_ne_zero : closingOffset? s depth ≠ some 0 := by
  cases s with
  | nil => nofun
  | cons item rest =>
    cases ho : item.opensBlock with
    | true => simp [closingOffset?_opens ho]
    | false =>
      cases hc : item.closesBlock with
      | false => simp [closingOffset?_plain ho hc]
      | true =>
        cases depth with
        | zero => simp [closingOffset?_closes_zero ho hc]
        | succ depth => simp [closingOffset?_closes_succ ho hc]

/-! ## Agreement in kind and name -/

/-- Whether the item that comes back to a depth closes the block that an earlier item opened. -/
def ClosedFrom (s : Schedule) (depth : Nat) (first : ScheduleItem) : Prop :=
  ∀ offset, closingOffset? s depth = some (offset + 1) →
    ∃ last, s[offset]? = some last ∧ last.closes first = true

/-- Whether in every block the closing item closes what the opening one opened. -/
def Agrees (s : Schedule) : Prop := ∀ start stop, s.blockEnd start = .ok stop → s.Closes start stop

variable {first : ScheduleItem} {inner : Nat}

/-- An item that is passed does not change which item closes an outer block. -/
private theorem closedFrom_cons
    (h : closingOffset? (item :: rest) depth = (closingOffset? rest inner).map (· + 1)) :
    ClosedFrom (item :: rest) depth first ↔ ClosedFrom rest inner first := by
  unfold ClosedFrom
  rw [h]
  constructor
  · intro hclosed offset hoffset
    obtain ⟨last, hlast, hcloses⟩ := hclosed (offset + 1) (by rw [hoffset]; rfl)
    exact ⟨last, by rwa [List.getElem?_cons_succ] at hlast, hcloses⟩
  · intro hclosed offset hoffset
    obtain ⟨before, hbefore, heq⟩ := Option.map_eq_some_iff.mp hoffset
    obtain rfl : before = offset := Nat.succ.inj heq
    cases before with
    | zero => exact absurd hbefore closingOffset?_ne_zero
    | succ offset =>
      obtain ⟨last, hlast, hcloses⟩ := hclosed offset hbefore
      exact ⟨last, by rwa [List.getElem?_cons_succ], hcloses⟩

private theorem closedFrom_closes (ho : item.opensBlock = false) (hc : item.closesBlock = true) :
    ClosedFrom (item :: rest) 0 first ↔ item.closes first = true := by
  unfold ClosedFrom
  rw [closingOffset?_closes_zero ho hc]
  constructor
  · intro hclosed
    obtain ⟨last, hlast, hcloses⟩ := hclosed 0 rfl
    obtain rfl : item = last := by simpa using hlast
    exact hcloses
  · rintro hcloses offset ⟨⟩
    exact ⟨item, rfl, hcloses⟩

theorem closes_cons_succ :
    Closes (item :: rest) (start + 1) (stop + 1) ↔ Closes rest start stop := by
  unfold Closes
  simp only [List.getElem?_cons_succ]

/-- The blocks of a schedule are the one that its first item opens, if it opens one, and those of
the rest. -/
private theorem agrees_cons : Agrees (item :: rest) ↔
    (item.opensBlock = true → ClosedFrom rest 0 item) ∧ Agrees rest := by
  constructor
  · intro h
    refine ⟨fun hopens offset hoffset => ?_, fun start stop hstop => ?_⟩
    · obtain ⟨first, last, hfirst, hlast, hcloses⟩ :=
        h 0 (offset + 1) (blockEnd_cons_zero.mpr ⟨hopens, hoffset⟩)
      obtain rfl : item = first := by simpa using hfirst
      exact ⟨last, by rwa [List.getElem?_cons_succ] at hlast, hcloses⟩
    · exact closes_cons_succ.mp (h (start + 1) (stop + 1)
        (blockEnd_cons_succ.mpr ⟨stop, hstop, rfl⟩))
  · rintro ⟨hfirst, hrest⟩ start stop hstop
    cases start with
    | zero =>
      obtain ⟨hopens, hoffset⟩ := blockEnd_cons_zero.mp hstop
      cases stop with
      | zero => exact absurd hoffset closingOffset?_ne_zero
      | succ offset =>
        obtain ⟨last, hlast, hcloses⟩ := hfirst hopens offset hoffset
        exact ⟨item, last, rfl, by rwa [List.getElem?_cons_succ], hcloses⟩
    | succ start =>
      obtain ⟨inner, hinner, rfl⟩ := blockEnd_cons_succ.mp hstop
      exact closes_cons_succ.mpr (hrest start inner hinner)

private theorem nestedWithin_opens {opened : List ScheduleItem} (ho : item.opensBlock = true) :
    nestedWithin opened (item :: rest) = nestedWithin (item :: opened) rest := by
  cases opened <;> rw [nestedWithin, if_pos ho]

private theorem nestedWithin_closes {outer : List ScheduleItem} (ho : item.opensBlock = false)
    (hc : item.closesBlock = true) : nestedWithin (first :: outer) (item :: rest) =
      (item.closes first && nestedWithin outer rest) := by
  rw [nestedWithin, ho, hc]
  rfl

private theorem nestedWithin_plain {opened : List ScheduleItem} (ho : item.opensBlock = false)
    (hc : item.closesBlock = false) :
    nestedWithin opened (item :: rest) = nestedWithin opened rest := by
  cases opened <;> (rw [nestedWithin, ho, hc]; rfl)

/-- Where items pair up, they are well nested exactly if those of every pair agree: the pairs of
items that come here, and the pairs of an item here and one that opened a block before. -/
theorem nestedWithin_iff {opened : List ScheduleItem}
    (h : BalancedWithin opened.length s) : nestedWithin opened s = true ↔
      (∀ depth first, opened[depth]? = some first → ClosedFrom s depth first) ∧ Agrees s := by
  generalize hlength : opened.length = depth at h
  induction h generalizing opened with
  | nil =>
    obtain rfl := List.length_eq_zero_iff.mp hlength
    simp [nestedWithin, Agrees, blockEnd]
  | @opens item rest depth ho _ ih =>
    rw [nestedWithin_opens ho, ih (congrArg (· + 1) hlength), agrees_cons, ← and_assoc]
    refine and_congr_left fun _ => ⟨fun hclosed => ?_, ?_⟩
    · refine ⟨fun depth first hfirst => ?_, fun _ => hclosed 0 item rfl⟩
      exact (closedFrom_cons (closingOffset?_opens ho)).mpr (hclosed (depth + 1) first hfirst)
    · rintro ⟨hopened, hitem⟩ depth first hfirst
      cases depth with
      | zero =>
        obtain rfl : item = first := by simpa using hfirst
        exact hitem ho
      | succ depth =>
        exact (closedFrom_cons (closingOffset?_opens ho)).mp (hopened depth first hfirst)
  | @closes item rest depth ho hc _ ih =>
    obtain ⟨innermost, outer, rfl⟩ := List.exists_cons_of_length_eq_add_one hlength
    rw [nestedWithin_closes ho hc, Bool.and_eq_true, ih (Nat.succ.inj hlength), agrees_cons, ho,
      ← and_assoc]
    simp only [Bool.false_eq_true, false_imp_iff, true_and]
    refine and_congr_left fun _ => ⟨?_, fun hopened => ⟨?_, fun depth first hfirst => ?_⟩⟩
    · rintro ⟨hitem, houter⟩ depth first hfirst
      cases depth with
      | zero =>
        obtain rfl : innermost = first := by simpa using hfirst
        exact (closedFrom_closes ho hc).mpr hitem
      | succ depth =>
        exact (closedFrom_cons (closingOffset?_closes_succ ho hc)).mpr (houter depth first hfirst)
    · exact (closedFrom_closes ho hc).mp (hopened 0 innermost rfl)
    · exact (closedFrom_cons (closingOffset?_closes_succ ho hc)).mp
        (hopened (depth + 1) first hfirst)
  | @plain item rest depth ho hc _ ih =>
    rw [nestedWithin_plain ho hc, ih hlength, agrees_cons, ho]
    simp only [Bool.false_eq_true, false_imp_iff, true_and,
      closedFrom_cons (closingOffset?_plain ho hc)]

/-! ## Pairs of items -/

/-- Where items pair up, every block that is open already comes to its end. -/
private theorem isSome_closingOffset? {d : Nat} (h : BalancedWithin d s) (hdepth : depth < d) :
    (closingOffset? s depth).isSome = true := by
  induction h generalizing depth with
  | nil => cases hdepth
  | opens ho _ ih =>
    rw [closingOffset?_opens ho, Option.isSome_map]
    exact ih (Nat.succ_lt_succ hdepth)
  | closes ho hc _ ih =>
    cases depth with
    | zero => rw [closingOffset?_closes_zero ho hc, Option.isSome_some]
    | succ depth =>
      rw [closingOffset?_closes_succ ho hc, Option.isSome_map]
      exact ih (Nat.lt_of_succ_lt_succ hdepth)
  | plain ho hc _ ih =>
    rw [closingOffset?_plain ho hc, Option.isSome_map]
    exact ih hdepth

private theorem exists_blockEnd_cons
    (hfirst : first.opensBlock = true → (closingOffset? rest 0).isSome = true)
    (hrest : ∀ start item, rest[start]? = some item → item.opensBlock = true →
      ∃ stop, rest.blockEnd start = .ok stop) (hitem : (first :: rest)[start]? = some item)
    (ho : item.opensBlock = true) : ∃ stop, blockEnd (first :: rest) start = .ok stop := by
  cases start with
  | zero =>
    obtain rfl : first = item := by simpa using hitem
    obtain ⟨stop, hstop⟩ := Option.isSome_iff_exists.mp (hfirst ho)
    exact ⟨stop, blockEnd_cons_zero.mpr ⟨ho, hstop⟩⟩
  | succ start =>
    obtain ⟨stop, hstop⟩ := hrest start item (by simpa using hitem) ho
    exact ⟨stop + 1, blockEnd_cons_succ.mpr ⟨stop, hstop, rfl⟩⟩

/-- Where items pair up, every block that is opened comes to its end. -/
theorem BalancedWithin.exists_blockEnd (h : BalancedWithin depth s) : ∀ start item,
    s[start]? = some item → item.opensBlock = true → ∃ stop, s.blockEnd start = .ok stop := by
  induction h with
  | nil => exact fun _ _ hitem => by cases hitem
  | opens _ hrest ih =>
    have hend := isSome_closingOffset? hrest (Nat.succ_pos _)
    exact fun _ _ => exists_blockEnd_cons (fun _ => hend) ih
  | closes ho _ _ ih =>
    exact fun _ _ => exists_blockEnd_cons (fun hopens => by rw [ho] at hopens; cases hopens) ih
  | plain ho _ _ ih =>
    exact fun _ _ => exists_blockEnd_cons (fun hopens => by rw [ho] at hopens; cases hopens) ih

/-- Where items pair up, every closing item ends a block: one that is open already, or one that is
opened here. -/
theorem BalancedWithin.closes_block (h : BalancedWithin depth s) : ∀ stop item,
    s[stop]? = some item → item.closesBlock = true →
      (∃ outer < depth, closingOffset? s outer = some (stop + 1)) ∨
        ∃ start, s.blockEnd start = .ok stop := by
  induction h with
  | nil => exact fun _ _ hitem => by cases hitem
  | @opens first rest depth ho _ ih =>
    intro stop item hitem hc
    cases stop with
    | zero =>
      obtain rfl : first = item := by simpa using hitem
      rw [ScheduleItem.closesBlock_of_opensBlock ho] at hc
      cases hc
    | succ stop =>
      obtain ⟨outer, hlt, hend⟩ | ⟨start, hstart⟩ := ih stop item (by simpa using hitem) hc
      · cases outer with
        | zero => exact .inr ⟨0, blockEnd_cons_zero.mpr ⟨ho, hend⟩⟩
        | succ outer =>
          exact .inl ⟨outer, Nat.lt_of_succ_lt_succ hlt, by rw [closingOffset?_opens ho, hend]; rfl⟩
      · exact .inr ⟨start + 1, blockEnd_cons_succ.mpr ⟨stop, hstart, rfl⟩⟩
  | @closes first rest depth ho hc _ ih =>
    intro stop item hitem hitemCloses
    cases stop with
    | zero => exact .inl ⟨0, Nat.succ_pos depth, closingOffset?_closes_zero ho hc⟩
    | succ stop =>
      obtain ⟨outer, hlt, hend⟩ | ⟨start, hstart⟩ := ih stop item (by simpa using hitem) hitemCloses
      · exact .inl ⟨outer + 1, Nat.succ_lt_succ hlt, by
          rw [closingOffset?_closes_succ ho hc, hend]; rfl⟩
      · exact .inr ⟨start + 1, blockEnd_cons_succ.mpr ⟨stop, hstart, rfl⟩⟩
  | @plain first rest depth ho hc _ ih =>
    intro stop item hitem hitemCloses
    cases stop with
    | zero =>
      obtain rfl : first = item := by simpa using hitem
      rw [hc] at hitemCloses
      cases hitemCloses
    | succ stop =>
      obtain ⟨outer, hlt, hend⟩ | ⟨start, hstart⟩ := ih stop item (by simpa using hitem) hitemCloses
      · exact .inl ⟨outer, hlt, by rw [closingOffset?_plain ho hc, hend]; rfl⟩
      · exact .inr ⟨start + 1, blockEnd_cons_succ.mpr ⟨stop, hstart, rfl⟩⟩

end Schedule

namespace ScheduleTables

variable {k : Kernel} {t : ScheduleTables}

/-! ## Accepted schedules -/

theorem bind_eq_ok {ε α β : Type} {x : Except ε α} {f : α → Except ε β} {b : β} :
    (x >>= f) = .ok b ↔ ∃ a, x = .ok a ∧ f a = .ok b := by
  cases x <;> simp [bind, Except.bind]

/-- An instruction that is run exists. -/
private theorem isSome_of_pointAfter {index : Nat} {insn : String} {p q : SchedulePoint}
    (h : pointAfter k index (.run insn) p = .ok q) : (k.insn? insn).isSome = true := by
  rw [pointAfter] at h
  split at h
  · assumption
  · cases h

/-- One item opens a block, closes the innermost open one and sets its end, or leaves the open
blocks as they are. -/
theorem blocksAfter_cases {item : ScheduleItem} {index : Nat} {openBlocks next : List Nat}
    {ends ends' : SortedMap Nat Nat}
    (h : blocksAfter index item openBlocks ends = .ok (next, ends')) :
    (item.opensBlock = true ∧ next = index :: openBlocks ∧ ends' = ends) ∨
    (item.opensBlock = false ∧ item.closesBlock = true ∧
      ∃ start, openBlocks = start :: next ∧ ends' = ends.insert start index) ∨
    (item.opensBlock = false ∧ item.closesBlock = false ∧ next = openBlocks ∧ ends' = ends) := by
  unfold blocksAfter at h
  split at h
  · next ho =>
    cases h
    exact .inl ⟨ho, rfl, rfl⟩
  · next ho =>
    rw [Bool.not_eq_true] at ho
    split at h
    · next hc =>
      cases openBlocks with
      | nil => cases h
      | cons start outer =>
        cases h
        exact .inr (.inl ⟨ho, hc, start, rfl, rfl⟩)
    · next hc =>
      cases h
      exact .inr (.inr ⟨ho, Bool.not_eq_true _ ▸ hc, rfl, rfl⟩)

/-- Before items that pair up, one more item does. -/
private theorem balancedWithin_of_blocksAfter {item : ScheduleItem} {rest : Schedule} {index : Nat}
    {openBlocks next : List Nat} {ends ends' : SortedMap Nat Nat}
    (h : blocksAfter index item openBlocks ends = .ok (next, ends'))
    (hrest : rest.BalancedWithin next.length) :
    Schedule.BalancedWithin openBlocks.length (item :: rest) := by
  obtain ⟨ho, rfl, -⟩ | ⟨ho, hc, start, rfl, -⟩ | ⟨ho, hc, rfl, -⟩ := blocksAfter_cases h
  · exact .opens ho hrest
  · exact .closes ho hc hrest
  · exact .plain ho hc hrest

/-- A pass over no items adds nothing, and needs all blocks to be closed. -/
theorem fill_nil_eq_ok {index : Nat} {p : SchedulePoint} {openBlocks : List Nat}
    {ends : SortedMap Nat Nat} {result : List SchedulePoint × SortedMap Nat Nat} :
    fill k [] index p openBlocks ends = .ok result ↔ openBlocks = [] ∧ ([], ends) = result := by
  rw [fill]
  cases hlast : openBlocks.getLast? with
  | some start =>
    have hne : openBlocks ≠ [] := by
      rintro rfl
      cases hlast
    exact iff_of_false (fun h => by cases h) fun h => hne h.1
  | none =>
    rw [Except.ok.injEq]
    exact (and_iff_right (List.getLast?_eq_none_iff.mp hlast)).symm

/-- A pass over some items takes the first one, and then the rest. -/
theorem fill_cons_eq_ok {item : ScheduleItem} {rest : Schedule} {index : Nat} {p : SchedulePoint}
    {openBlocks : List Nat} {ends : SortedMap Nat Nat}
    {result : List SchedulePoint × SortedMap Nat Nat} :
    fill k (item :: rest) index p openBlocks ends = .ok result ↔
      ∃ after, pointAfter k index item p = .ok after ∧
      ∃ next ends', blocksAfter index item openBlocks ends = .ok (next, ends') ∧
      ∃ later ends'', fill k rest (index + 1) after next ends' = .ok (later, ends'') ∧
        (after :: later, ends'') = result := by
  rw [fill]
  simp only [bind_eq_ok, Prod.exists, pure, Except.pure, Except.ok.injEq]

/-- A pass through all items finds them paired up, and finds the instructions that are run. -/
theorem fill_spec {s : Schedule} {index : Nat} {p : SchedulePoint} {openBlocks : List Nat}
    {ends : SortedMap Nat Nat} {result : List SchedulePoint × SortedMap Nat Nat}
    (h : fill k s index p openBlocks ends = .ok result) :
    s.BalancedWithin openBlocks.length ∧
      ∀ insn, .run insn ∈ s → (k.insn? insn).isSome = true := by
  induction s generalizing index p openBlocks ends result with
  | nil =>
    obtain ⟨rfl, -⟩ := fill_nil_eq_ok.mp h
    exact ⟨.nil, fun _ hmem => absurd hmem List.not_mem_nil⟩
  | cons item rest ih =>
    obtain ⟨q, hq, next, ends', hblocks, points, ends'', hrest, -⟩ := fill_cons_eq_ok.mp h
    obtain ⟨hbalanced, hknown⟩ := ih hrest
    refine ⟨balancedWithin_of_blocksAfter hblocks hbalanced, fun insn hmem => ?_⟩
    rcases List.mem_cons.mp hmem with rfl | hmem
    · exact isSome_of_pointAfter hq
    · exact hknown insn hmem

/-- What the tables of a kernel are: the point before all items, the points of one pass over the
schedule, and the ends of blocks that it finds. -/
theorem fill_of_ofKernel (h : ofKernel k = .ok t) :
    k.schedule = some t.schedule ∧ ∃ points, t.points = ⟨∅, none, 0⟩ :: points ∧
      fill k t.schedule 0 ⟨∅, none, 0⟩ [] ∅ = .ok (points, t.blockEnds) := by
  unfold ofKernel at h
  cases hs : k.schedule with
  | none =>
    rw [hs] at h
    cases h
  | some s =>
    rw [hs] at h
    simp only [bind_eq_ok] at h
    obtain ⟨⟨points, ends⟩, hfill, usable, -, h⟩ := h
    cases h
    exact ⟨rfl, points, rfl, hfill⟩

/-- When the tables of a kernel are made, every instruction that the schedule runs exists, every
block that is opened comes to an end, and every closing item ends a block. The schedule is well
nested exactly if every closing item agrees in kind and name with the one that opened its block. -/
theorem wellNested_iff_of_ofKernel (h : ofKernel k = .ok t) :
    k.schedule = some t.schedule ∧
      (∀ insn, .run insn ∈ t.schedule → (k.insn? insn).isSome = true) ∧
      (∀ (start : Nat) item, t.schedule[start]? = some item → item.opensBlock = true →
        ∃ stop, t.schedule.blockEnd start = .ok stop) ∧
      (∀ (stop : Nat) item, t.schedule[stop]? = some item → item.closesBlock = true →
        ∃ start, t.schedule.blockEnd start = .ok stop) ∧
      (t.schedule.WellNested ↔
        ∀ start stop, t.schedule.blockEnd start = .ok stop → t.schedule.Closes start stop) := by
  obtain ⟨hschedule, points, -, hfill⟩ := fill_of_ofKernel h
  obtain ⟨hbalanced, hknown⟩ := fill_spec hfill
  refine ⟨hschedule, hknown, hbalanced.exists_blockEnd, fun stop item hitem hc => ?_, ?_⟩
  · obtain ⟨outer, hlt, -⟩ | hstart := hbalanced.closes_block stop item hitem hc
    · cases hlt
    · exact hstart
  · rw [Schedule.WellNested, Schedule.nestedWithin_iff hbalanced]
    exact and_iff_right fun depth first hfirst => absurd hfirst (by simp)

/-- Two loops that overlap, each left when the other one is still entered or left already. -/
def overlappingLoops : Kernel where
  name := "kernel"
  domain := .whole ["i", "j"]
  instructions := []
  args := []
  temporaries := ∅
  tags := ∅
  device := .fermi
  schedule := some [.enterLoop "i", .enterLoop "j", .leaveLoop "i", .leaveLoop "j"]

/-- The tables of overlapping loops are made, although the item that ends the inner loop leaves the
outer one. -/
theorem wellNested_iff_of_ofKernel_overlappingLoops :
    ∃ t, ofKernel overlappingLoops = .ok t ∧ t.schedule.blockEnd 1 = .ok 2 ∧
      ¬t.schedule.WellNested := by
  have haccepted : (ofKernel overlappingLoops).isOk = true := by decide +kernel
  cases h : ofKernel overlappingLoops with
  | error e =>
    rw [h] at haccepted
    cases haccepted
  | ok t =>
    obtain ⟨hschedule, -, -, -, hnested⟩ := wellNested_iff_of_ofKernel h
    have hs : [.enterLoop "i", .enterLoop "j", .leaveLoop "i", .leaveLoop "j"] = t.schedule :=
      Option.some.inj hschedule
    have hend : t.schedule.blockEnd 1 = .ok 2 := by
      rw [← hs]
      rfl
    refine ⟨t, rfl, hend, fun hwell => ?_⟩
    obtain ⟨first, last, hfirst, hlast, hcloses⟩ := hnested.mp hwell 1 2 hend
    rw [← hs] at hfirst hlast
    cases hfirst
    cases hlast
    revert hcloses
    decide

end ScheduleTables

end LoopKernel
