import LoopKernel.Json.Basic
import LoopKernel.Json.Reading
import LoopKernel.Proofs.Number.Decimal

/-!
# Numbers in exchange text

A number in exchange text is read to its end, and what is read determines the number: integers are
read with their digits, and a finite double precision number as a decimal that is rounded to it.
-/

namespace LoopKernel

namespace JsonValue

/-! ## Digits -/

variable {ds r : List Char} {n : Nat}

/-- Whether a text does not go on with a number: it starts with nothing that a number can have. -/
def Delimited (r : List Char) : Prop :=
  ∀ c ∈ r.head?, c.isDigit = false ∧ c ≠ '.' ∧ c ≠ 'e' ∧ c ≠ 'E'

theorem delimited_nil : Delimited [] := nofun

theorem digits_append (hds : ∀ c ∈ ds, c.isDigit = true) (hr : ∀ c ∈ r.head?, c.isDigit = false) :
    digits (ds ++ r) = ds := by
  rw [digits, List.takeWhile_append_of_pos hds]
  cases r with
  | nil => rw [List.takeWhile_nil, List.append_nil]
  | cons c r =>
    rw [List.takeWhile_cons_of_neg (by rw [hr c rfl]; decide), List.append_nil]

theorem toList_toString (n : Nat) : (toString n).toList = Nat.toDigits 10 n := Nat.toList_repr

theorem isDigit_of_mem_toDigits : ∀ c ∈ Nat.toDigits 10 n, c.isDigit = true :=
  fun _ hc => Nat.isDigit_of_mem_toDigits (by decide) (by decide) hc

theorem naturalOf_toDigits (n : Nat) : naturalOf (Nat.toDigits 10 n) = n :=
  Nat.ofDigitChars_toDigits (by decide) (by decide)

theorem naturalOf_append (ds es : List Char) :
    naturalOf (ds ++ es) = 10 ^ es.length * naturalOf ds + naturalOf es := by
  change Nat.ofDigitChars 10 (ds ++ es) 0 = _
  rw [Nat.ofDigitChars_append, Nat.ofDigitChars_eq_ofDigitChars_zero]
  rfl

theorem isDigit_of_mem_zeros {k : Nat} : ∀ c ∈ List.replicate k '0', c.isDigit = true :=
  fun c hc => by
    rw [List.eq_of_mem_replicate hc]
    rfl

theorem naturalOf_zeros (k : Nat) : naturalOf (List.replicate k '0') = 0 :=
  Nat.ofDigitChars_replicate_zero

theorem toList_pushn (s : String) (c : Char) (k : Nat) :
    (s.pushn c k).toList = s.toList ++ List.replicate k c := by
  induction k with
  | zero => simp [String.pushn, Nat.repeat]
  | succ k ih =>
    have hstep : s.pushn c (k + 1) = (s.pushn c k).push c := rfl
    rw [hstep, String.toList_push, ih, List.append_assoc, ← List.replicate_succ']

/-- The digits of a positive number have no leading zero. -/
theorem head?_toDigits (hpos : 0 < n) : (Nat.toDigits 10 n).head? ≠ some '0' := by
  induction n using Nat.strong_induction_on with
  | _ n ih =>
    rw [Nat.toDigits_eq_if (by decide)]
    split
    · next hlt =>
      have hdigit : ∀ d < 10, 0 < d → [Nat.digitChar d].head? ≠ some '0' := by decide
      exact hdigit n hlt hpos
    · next hlt =>
      rw [List.head?_append_of_ne_nil _ Nat.toDigits_ne_nil]
      exact ih (n / 10) (by omega) (by omega)

/-! ## Parts of a number -/

theorem readFraction_append (hne : ds ≠ []) (hds : ∀ c ∈ ds, c.isDigit = true)
    (hr : ∀ c ∈ r.head?, c.isDigit = false) : readFraction ('.' :: (ds ++ r)) = some (ds, r) := by
  rw [readFraction, digits_append hds hr, List.drop_left, if_neg (by simpa using hne)]

theorem readFraction_of_ne (hr : ∀ c ∈ r.head?, c ≠ '.') : readFraction r = some ([], r) := by
  unfold readFraction
  split
  · exact absurd rfl (hr _ rfl)
  · rfl

theorem readExponent_of_ne (hr : ∀ c ∈ r.head?, c ≠ 'e' ∧ c ≠ 'E') :
    readExponent r = some (0, r) := by
  cases r with
  | nil => rfl
  | cons c r =>
    obtain ⟨he, hE⟩ := hr c rfl
    simp [readExponent, he, hE]

theorem readExponent_append (negative : Bool) (hne : ds ≠ []) (hds : ∀ c ∈ ds, c.isDigit = true)
    (hr : ∀ c ∈ r.head?, c.isDigit = false) :
    readExponent ('e' :: (if negative then '-' else '+') :: (ds ++ r)) =
      some (if negative then -(naturalOf ds : Int) else naturalOf ds, r) := by
  cases negative <;> simp [readExponent, digits_append hds hr, hne]

/-- An exponent with its sign is read. -/
theorem readExponent_toString (e : Int) (hr : ∀ c ∈ r.head?, c.isDigit = false) :
    readExponent ('e' :: (((if 0 ≤ e then "+" else "") ++ toString e).toList ++ r)) =
      some (e, r) := by
  cases e with
  | ofNat n =>
    have htext : ((if 0 ≤ Int.ofNat n then "+" else "") ++ toString (Int.ofNat n)).toList =
        '+' :: Nat.toDigits 10 n := by
      rw [if_pos (show 0 ≤ Int.ofNat n from Int.natCast_nonneg n), String.toList_append]
      exact congrArg ('+' :: ·) (toList_toString n)
    rw [htext]
    have hread :=
      readExponent_append false Nat.toDigits_ne_nil (isDigit_of_mem_toDigits (n := n)) hr
    rwa [naturalOf_toDigits] at hread
  | negSucc n =>
    have htext : ((if 0 ≤ Int.negSucc n then "+" else "") ++ toString (Int.negSucc n)).toList =
        '-' :: Nat.toDigits 10 (n + 1) := by
      rw [if_neg (by simp), String.empty_append]
      change ("-" ++ toString (n + 1)).toList = _
      rw [String.toList_append]
      exact congrArg ('-' :: ·) (toList_toString (n + 1))
    rw [htext]
    have hread := readExponent_append true Nat.toDigits_ne_nil
      (isDigit_of_mem_toDigits (n := n + 1)) hr
    rwa [naturalOf_toDigits] at hread

/-- A number is read part by part. -/
theorem readNumber_append (negative : Bool) {whole fraction r' r'' : List Char} {e : Int}
    (hne : whole ≠ []) (hwhole : ∀ c ∈ whole, c.isDigit = true)
    (hlead : whole.head? = some '0' → whole.length = 1) (hr : ∀ c ∈ r.head?, c.isDigit = false)
    (hfraction : readFraction r = some (fraction, r'))
    (hexponent : readExponent r' = some (e, r'')) :
    readNumber ((if negative then "-" else "").toList ++ (whole ++ r)) =
      some (.number ⟨negative, naturalOf (whole ++ fraction), e - fraction.length,
        r''.length == r.length⟩, r'') := by
  obtain ⟨c, cs, rfl⟩ := List.exists_cons_of_ne_nil hne
  have hsign : c ≠ '-' := by
    rintro rfl
    exact absurd (hwhole _ List.mem_cons_self) (by decide)
  have hdigits : digits (c :: (cs ++ r)) = c :: cs := digits_append hwhole hr
  have hlead :
      ¬((c :: cs).isEmpty || ((c :: cs).head? == some '0' && 1 < (c :: cs).length)) = true := by
    simp at hlead ⊢
    exact hlead
  have hafter : (c :: (cs ++ r)).drop (c :: cs).length = r := List.drop_left
  cases negative with
  | true =>
    change readNumber ('-' :: c :: (cs ++ r)) = _
    unfold readNumber
    simp only [hdigits, hafter, if_neg hlead, hfraction, Option.bind_eq_bind, Option.bind_some,
      hexponent]
    rfl
  | false =>
    change readNumber (c :: (cs ++ r)) = _
    unfold readNumber
    split
    next heq =>
      split at heq
      · next hminus => exact absurd (List.cons.inj hminus).1 hsign
      · cases heq
        simp only [hdigits, hafter, if_neg hlead, hfraction, Option.bind_eq_bind, Option.bind_some,
          hexponent]
        rfl

/-- An integer is read with its digits. -/
theorem readNumber_toString (n : Int) (hr : Delimited r) :
    readNumber ((toString n).toList ++ r) =
      some (.number ⟨decide (n < 0), n.natAbs, 0, true⟩, r) := by
  have htext : (toString n).toList =
      (if decide (n < 0) then "-" else "").toList ++ Nat.toDigits 10 n.natAbs := by
    cases n with
    | ofNat n =>
      have hsign : decide (Int.ofNat n < 0) = false := by simp
      rw [hsign]
      exact toList_toString n
    | negSucc n =>
      rw [decide_eq_true (Int.negSucc_lt_zero n)]
      change ("-" ++ toString (n + 1)).toList = _
      rw [String.toList_append]
      exact congrArg ('-' :: ·) (toList_toString (n + 1))
  have hlead :
      (Nat.toDigits 10 n.natAbs).head? = some '0' → (Nat.toDigits 10 n.natAbs).length = 1 := by
    intro hzero
    have hn : n.natAbs = 0 := by
      by_contra hn
      exact head?_toDigits (Nat.pos_of_ne_zero hn) hzero
    rw [hn]
    rfl
  rw [htext, List.append_assoc,
    readNumber_append _ Nat.toDigits_ne_nil isDigit_of_mem_toDigits hlead
      (fun c hc => (hr c hc).1) (readFraction_of_ne fun c hc => (hr c hc).2.1)
      (readExponent_of_ne fun c hc => (hr c hc).2.2),
    List.append_nil, naturalOf_toDigits]
  simp

end JsonValue

/-! ## Double precision numbers -/

namespace Binary64

/-- What a reader finds in the exchange text of a finite number: the shortest decimal, with one zero
after the point where there is no other digit. -/
def numeral (x : Binary64) : Numeral :=
  if x.magnitude = 0 then ⟨x.negative, 0, -1, false⟩
  else
    let (n, exponent) := shortest .exchange x.magnitude
    let leading := exponent + (toString n).length - 1
    if 0 ≤ exponent ∧ DecimalFormat.exchange.leastPositional ≤ leading ∧
        leading ≤ DecimalFormat.greatestPositional then
      ⟨x.negative, n * 10 ^ (exponent.toNat + 1), -1, false⟩
    else ⟨x.negative, n, exponent, false⟩

variable {x y : Binary64} {n m : Nat} {e : Int} {r r' : List Char}

open JsonValue

theorem roundsTo_zero : RoundsTo 0 0 := by
  rw [RoundsTo, if_pos rfl, lowerEnd, upperEnd, decode_of_zero (Nat.zero_div _)]
  refine ⟨mul_nonpos_of_nonpos_of_nonneg ?_ (quarter_pos 0).le, ?_⟩
  · norm_num [CloseBelow]
  · have := quarter_pos 0
    positivity

theorem shortest_pos (hpos : 0 < m) (format : DecimalFormat) : 0 < (shortest format m).1 := by
  by_contra hzero
  have hrounds := roundsTo_shortest format hpos
  rw [Nat.eq_zero_of_not_pos hzero, Nat.cast_zero, zero_mul] at hrounds
  exact hpos.ne (roundsTo_zero.unique hrounds)

/-- Digits before and after a point are read. -/
theorem readNumber_point (negative : Bool) {whole fraction : List Char} (hwhole : whole ≠ [])
    (hfraction : fraction ≠ []) (hall : ∀ c ∈ whole ++ fraction, c.isDigit = true)
    (hlead : whole.head? = some '0' → whole.length = 1) (hr : ∀ c ∈ r.head?, c.isDigit = false)
    (hexponent : readExponent r = some (e, r')) (hle : r'.length ≤ r.length) :
    readNumber ((if negative then "-" else "").toList ++ (whole ++ '.' :: (fraction ++ r))) =
      some (.number ⟨negative, naturalOf (whole ++ fraction), e - fraction.length, false⟩, r') := by
  rw [List.forall_mem_append] at hall
  have hpoint : ∀ c ∈ ('.' :: (fraction ++ r)).head?, c.isDigit = false := by
    rintro _ ⟨⟩
    rfl
  have hlonger : (r'.length == ('.' :: (fraction ++ r)).length) = false := by
    rw [beq_eq_false_iff_ne, List.length_cons, List.length_append]
    omega
  rw [readNumber_append negative hwhole hall.1 hlead hpoint
    (readFraction_append hfraction hall.2 hr) hexponent, hlonger]

variable {ds : List Char}

/-- Digits before a point, with zeros that make up for places, are read. -/
private theorem readNumber_whole (negative : Bool) (hne : ds ≠ [])
    (hall : ∀ c ∈ ds, c.isDigit = true) (hhead : ds.head? ≠ some '0') (hr : Delimited r)
    (he : 0 ≤ e) :
    readNumber ((if negative then "-" else "").toList ++
        ((positional (String.ofList ds) e).toList ++ r)) =
      some (.number ⟨negative, naturalOf ds * 10 ^ (e.toNat + 1), -1, false⟩, r) := by
  have htext : (positional (String.ofList ds) e).toList ++ r =
      (ds ++ List.replicate e.toNat '0') ++ '.' :: (['0'] ++ r) := by
    simp [positional, he, toList_pushn]
  have hvalue : naturalOf (ds ++ List.replicate e.toNat '0' ++ ['0']) =
      naturalOf ds * 10 ^ (e.toNat + 1) := by
    rw [List.append_assoc, ← List.replicate_succ', naturalOf_append, naturalOf_zeros,
      List.length_replicate, Nat.add_zero, Nat.mul_comm]
  have hlead : (ds ++ List.replicate e.toNat '0').head? ≠ some '0' := by
    rwa [List.head?_append_of_ne_nil _ hne]
  have hdigits : ∀ c ∈ ds ++ List.replicate e.toNat '0' ++ ['0'], c.isDigit = true := by
    rw [List.append_assoc, ← List.replicate_succ', List.forall_mem_append]
    exact ⟨hall, isDigit_of_mem_zeros⟩
  rw [htext, readNumber_point negative (by simp [hne]) (by simp) hdigits
    (fun h => absurd h hlead) (fun c hc => (hr c hc).1)
    (readExponent_of_ne fun c hc => (hr c hc).2.2) le_rfl, hvalue]
  rfl

/-- Digits with a point among them are read. -/
private theorem readNumber_inside (negative : Bool) (hne : ds ≠ [])
    (hall : ∀ c ∈ ds, c.isDigit = true) (hhead : ds.head? ≠ some '0') (hr : Delimited r)
    (he : ¬0 ≤ e) (hplaces : (-e).toNat < ds.length) :
    readNumber ((if negative then "-" else "").toList ++
        ((positional (String.ofList ds) e).toList ++ r)) =
      some (.number ⟨negative, naturalOf ds, e, false⟩, r) := by
  have htext : (positional (String.ofList ds) e).toList ++ r =
      ds.take (ds.length - (-e).toNat) ++ '.' :: (ds.drop (ds.length - (-e).toNat) ++ r) := by
    simp [positional, he, hplaces]
  have hlead : (ds.take (ds.length - (-e).toNat)).head? ≠ some '0' := by
    rwa [List.head?_take, if_neg (by omega)]
  have hwhole : ds.take (ds.length - (-e).toNat) ≠ [] := by
    rw [Ne, List.take_eq_nil_iff]
    exact fun h => h.elim (by omega) hne
  have hfraction : ds.drop (ds.length - (-e).toNat) ≠ [] := by
    rw [Ne, List.drop_eq_nil_iff]
    omega
  have hexponent : 0 - ((ds.drop (ds.length - (-e).toNat)).length : Int) = e := by
    rw [List.length_drop]
    omega
  rw [htext, readNumber_point negative hwhole hfraction (by rwa [List.take_append_drop])
    (fun h => absurd h hlead) (fun c hc => (hr c hc).1)
    (readExponent_of_ne fun c hc => (hr c hc).2.2) le_rfl, List.take_append_drop, hexponent]

/-- Digits after a point, with zeros in front of them, are read. -/
private theorem readNumber_small (negative : Bool) (hne : ds ≠ [])
    (hall : ∀ c ∈ ds, c.isDigit = true) (hr : Delimited r) (he : ¬0 ≤ e)
    (hplaces : ¬(-e).toNat < ds.length) :
    readNumber ((if negative then "-" else "").toList ++
        ((positional (String.ofList ds) e).toList ++ r)) =
      some (.number ⟨negative, naturalOf ds, e, false⟩, r) := by
  have htext : (positional (String.ofList ds) e).toList ++ r =
      ['0'] ++ '.' :: ((List.replicate ((-e).toNat - ds.length) '0' ++ ds) ++ r) := by
    simp [positional, he, hplaces, toList_pushn]
  have hzeroDigits : ['0'] ++ (List.replicate ((-e).toNat - ds.length) '0' ++ ds) =
      List.replicate ((-e).toNat - ds.length + 1) '0' ++ ds := rfl
  have hdigits : ∀ c ∈ ['0'] ++ (List.replicate ((-e).toNat - ds.length) '0' ++ ds),
      c.isDigit = true := by
    rw [hzeroDigits, List.forall_mem_append]
    exact ⟨isDigit_of_mem_zeros, hall⟩
  have hvalue : naturalOf (['0'] ++ (List.replicate ((-e).toNat - ds.length) '0' ++ ds)) =
      naturalOf ds := by
    rw [hzeroDigits, naturalOf_append, naturalOf_zeros, Nat.mul_zero, Nat.zero_add]
  have hexponent :
      0 - ((List.replicate ((-e).toNat - ds.length) '0' ++ ds).length : Int) = e := by
    rw [List.length_append, List.length_replicate]
    omega
  rw [htext, readNumber_point negative (by simp) (by simp [hne]) hdigits (fun _ => rfl)
    (fun c hc => (hr c hc).1) (readExponent_of_ne fun c hc => (hr c hc).2.2) le_rfl, hvalue,
    hexponent]

/-- Digits with a point somewhere are read. -/
theorem readNumber_positional (negative : Bool) (hne : ds ≠ []) (hall : ∀ c ∈ ds, c.isDigit = true)
    (hhead : ds.head? ≠ some '0') (hr : Delimited r) :
    readNumber ((if negative then "-" else "").toList ++
        ((positional (String.ofList ds) e).toList ++ r)) =
      some (.number (if 0 ≤ e then ⟨negative, naturalOf ds * 10 ^ (e.toNat + 1), -1, false⟩
        else ⟨negative, naturalOf ds, e, false⟩), r) := by
  by_cases he : 0 ≤ e
  · rw [if_pos he]
    exact readNumber_whole negative hne hall hhead hr he
  · rw [if_neg he]
    by_cases hplaces : (-e).toNat < ds.length
    · exact readNumber_inside negative hne hall hhead hr he hplaces
    · exact readNumber_small negative hne hall hr he hplaces

/-- Digits with an exponent part are read. -/
theorem readNumber_scientific (negative : Bool) (hne : ds ≠ [])
    (hall : ∀ c ∈ ds, c.isDigit = true) (hhead : ds.head? ≠ some '0')
    (hr : ∀ c ∈ r.head?, c.isDigit = false) :
    readNumber ((if negative then "-" else "").toList ++
        ((scientific .exchange (String.ofList ds) (e + ds.length - 1)).toList ++ r)) =
      some (.number ⟨negative, naturalOf ds, e, false⟩, r) := by
  obtain ⟨c, cs, rfl⟩ := List.exists_cons_of_ne_nil hne
  have hread := readExponent_toString (e + (c :: cs).length - 1) hr
  have hpart : ∀ c ∈ ('e' :: (((if 0 ≤ e + (c :: cs).length - 1 then "+" else "") ++
      toString (e + (c :: cs).length - 1)).toList ++ r)).head?, c.isDigit = false := by
    rintro _ ⟨⟩
    rfl
  by_cases hcs : cs = []
  · subst hcs
    have htext : (scientific .exchange (String.ofList [c]) (e + [c].length - 1)).toList ++ r =
        [c] ++ 'e' :: (((if 0 ≤ e + [c].length - 1 then "+" else "") ++
          toString (e + [c].length - 1)).toList ++ r) := by
      simp [scientific, DecimalFormat.exchange]
    rw [htext, readNumber_append negative (List.cons_ne_nil _ _) hall (fun _ => rfl) hpart
      (readFraction_of_ne (by rintro _ ⟨⟩; decide)) hread]
    have hlonger : (r.length == ('e' :: (((if 0 ≤ e + [c].length - 1 then "+" else "") ++
        toString (e + [c].length - 1)).toList ++ r)).length) = false := by
      rw [beq_eq_false_iff_ne, List.length_cons, List.length_append]
      omega
    have hexponent : e + ([c].length : Int) - 1 - (([] : List Char).length : Int) = e := by
      simp
    rw [hlonger, hexponent, List.append_nil]
  · have htext :
        (scientific .exchange (String.ofList (c :: cs)) (e + (c :: cs).length - 1)).toList ++ r =
          [c] ++ '.' :: (cs ++ 'e' :: (((if 0 ≤ e + (c :: cs).length - 1 then "+" else "") ++
          toString (e + (c :: cs).length - 1)).toList ++ r)) := by
      simp [scientific, DecimalFormat.exchange, hcs]
    have hexponent : e + ((c :: cs).length : Int) - 1 - (cs.length : Int) = e := by
      rw [List.length_cons]
      push_cast
      ring
    rw [htext, readNumber_point negative (List.cons_ne_nil c []) hcs hall (fun _ => rfl) hpart hread
      (by simp; omega), hexponent]
    rfl

/-- The text of a magnitude after a sign is read as the numeral. -/
theorem readNumber_magnitudeText (x : Binary64) (hr : Delimited r) :
    readNumber ((if x.negative then "-" else "").toList ++
        ((magnitudeText .exchange x.magnitude).toList ++ r)) = some (.number x.numeral, r) := by
  have hdigit : ∀ c ∈ r.head?, c.isDigit = false := fun c hc => (hr c hc).1
  have hnone : readExponent r = some (0, r) := readExponent_of_ne fun c hc => (hr c hc).2.2
  unfold magnitudeText numeral
  by_cases hzero : x.magnitude = 0
  · rw [if_pos hzero, if_pos hzero]
    exact readNumber_point x.negative (List.cons_ne_nil '0' []) (List.cons_ne_nil '0' [])
      (by simp) (fun _ => rfl) hdigit hnone le_rfl
  · have hpos := shortest_pos (Nat.pos_of_ne_zero hzero) .exchange
    rw [if_neg hzero, if_neg hzero]
    generalize shortest .exchange x.magnitude = found at hpos ⊢
    obtain ⟨n, e⟩ := found
    have hne := Nat.toDigits_ne_nil (b := 10) (n := n)
    have hall := isDigit_of_mem_toDigits (n := n)
    have hhead := head?_toDigits hpos
    have hdigits : toString n = String.ofList (Nat.toDigits 10 n) := Nat.toString_eq_ofList_toDigits
    dsimp only
    rw [hdigits]
    by_cases hpositional : DecimalFormat.exchange.leastPositional ≤
          e + ((String.ofList (Nat.toDigits 10 n)).length : Int) - 1 ∧
        e + ((String.ofList (Nat.toDigits 10 n)).length : Int) - 1 ≤
          DecimalFormat.greatestPositional
    · rw [if_pos hpositional, readNumber_positional x.negative hne hall hhead hr,
        naturalOf_toDigits]
      simp only [hpositional, and_true]
    · have hother : ¬ (0 ≤ e ∧ _ ∧ _) := fun h => hpositional h.2
      rw [if_neg hpositional, if_neg hother, String.length_ofList,
        readNumber_scientific x.negative hne hall hhead hdigit, naturalOf_toDigits]

/-- What is read is rounded to the magnitude. -/
theorem roundsTo_numeral (x : Binary64) :
    RoundsTo (x.numeral.digits * 10 ^ x.numeral.exponent) x.magnitude := by
  unfold numeral
  split
  · next hzero =>
    rw [hzero, Nat.cast_zero, zero_mul]
    exact roundsTo_zero
  · next hzero =>
    have hrounds := roundsTo_shortest .exchange (Nat.pos_of_ne_zero hzero)
    generalize shortest .exchange x.magnitude = found at hrounds ⊢
    obtain ⟨n, e⟩ := found
    dsimp only
    split
    · next h =>
      obtain ⟨k, rfl⟩ := Int.eq_ofNat_of_zero_le h.1
      have hvalue : ((n * 10 ^ (k + 1) : Nat) : ℚ) * 10 ^ (-1 : Int) = n * 10 ^ (k : Int) := by
        push_cast
        rw [pow_succ, zpow_natCast, zpow_neg_one]
        field_simp
      rw [← hvalue] at hrounds
      exact hrounds
    · exact hrounds

theorem negative_numeral (x : Binary64) : x.numeral.negative = x.negative := by
  unfold numeral
  split
  · rfl
  · dsimp only
    split
    · rfl
    · rfl

/-- Different numbers are read as different numerals. -/
theorem numeral_injective : Function.Injective numeral := by
  intro x y h
  have hx := roundsTo_numeral x
  rw [h] at hx
  have hnegative : x.negative = y.negative := by
    rw [← negative_numeral, h, negative_numeral]
  obtain ⟨negative, magnitude⟩ := x
  obtain ⟨negative', magnitude'⟩ := y
  exact congrArg₂ _ hnegative (hx.unique (roundsTo_numeral _))

end Binary64

end LoopKernel
