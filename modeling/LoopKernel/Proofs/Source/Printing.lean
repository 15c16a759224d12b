import LoopKernel.Proofs.Expr.Arithmetic
import LoopKernel.Proofs.Source.Assignment
import LoopKernel.Proofs.Source.Lowering

/-!
# Reading printed expressions

The text of an arithmetic expression is always read as an expression. It is the one that was
printed, up to settled negations, if every product is tight: a product, quotient or remainder that
is a factor after the first one is written without parentheses, and its operands are then read as
those of the enclosing product.
-/

namespace LoopKernel

open Lexer Source

/-! ## Texts that are read at a level -/

/-- Whether a text is read as an expression of a level at least. -/
def Shows (n : Nat) (text : String) (x : Expr) : Prop :=
  Opens text.toList ∧ x.LiteralsFit ∧ ∃ ts t, Spells Breaks text.toList ts ∧ Derives n ts t ∧
    ∀ scope, lower scope t = .ok x

variable {n m : Nat} {s t : String} {x y z : Expr}

theorem Shows.of_le (h : Shows m s x) (hnm : n ≤ m) : Shows n s x := by
  obtain ⟨hopens, hfits, ts, tree, hspells, hderives, hlower⟩ := h
  exact ⟨hopens, hfits, ts, tree, hspells, hderives.of_le hnm, hlower⟩

/-- A number shows itself. -/
theorem shows_nat {k : Nat} (h : k < 2 ^ 63) : Shows 5 (toString k) (.int k) :=
  ⟨opens_toString k, h, _, _, spells_nat h, .int k, fun _ => rfl⟩

/-- A name shows itself. -/
theorem shows_var {name : String} (h : IsName name) : Shows 5 name (.var name) :=
  ⟨opens_of_isName h, trivial, _, _, spells_name h, .var name, fun _ => rfl⟩

/-- Parentheses make an atom. -/
theorem Shows.paren (h : Shows 1 s x) : Shows 5 ("(" ++ s ++ ")") x := by
  obtain ⟨-, hfits, ts, tree, hspells, hderives, hlower⟩ := h
  refine ⟨⟨'(', by simp, by simp⟩, hfits, _, _, ?_, .paren hderives, hlower⟩
  rw [String.toList_append, String.toList_append, List.append_assoc]
  exact spells_parens hspells

/-- A minus sign negates. -/
theorem Shows.neg (h : Shows 3 s x) : Shows 3 ("-" ++ s) x.opposite := by
  obtain ⟨-, hfits, ts, tree, hspells, hderives, hlower⟩ := h
  refine ⟨⟨'-', by simp, by simp⟩, hfits.opposite, _, _, ?_, .neg hderives, fun scope => ?_⟩
  · rw [String.toList_append]
    exact (spells_open fun _ => rfl).append hspells fun _ _ => trivial
  · rw [lower, hlower]
    exact Attempt.liftM_eq_ok.mpr (Expr.negate_eq_ok hfits)

/-- An operator joins two texts. -/
theorem Shows.join (op : Operator) {text : String} (hlevel : op.level = n) (hop : op ≠ .pow)
    (htext : Between text.toList op.symbol) (hx : Shows n s x) (hy : Shows (n + 1) t y)
    (hz : op.apply x y = .ok z) : Shows n (s ++ text ++ t) z := by
  subst hlevel
  obtain ⟨hopens, hfits, ts, left, hs, hdx, hlowerx⟩ := hx
  obtain ⟨hopens', hfits', us, right, ht, hdy, hlowery⟩ := hy
  refine ⟨?_, op.literalsFit_apply hfits hfits' hz, _, _, spells_between hs ht hopens' htext,
    .join op hop hdx hdy, fun scope => ?_⟩
  · rw [String.toList_append, String.toList_append, List.append_assoc]
    exact hopens.append _
  · rw [Source.join, lower, hlowerx, hlowery]
    exact Attempt.liftM_eq_ok.mpr hz

/-- Two atoms make a power. -/
theorem Shows.power (hx : Shows 5 s x) (hy : Shows 5 t y) :
    Shows 4 (s ++ "**" ++ t) (.binary .power x y) := by
  obtain ⟨hopens, hfits, ts, base, hs, hdx, hlowerx⟩ := hx
  obtain ⟨hopens', hfits', us, exponent, ht, hdy, hlowery⟩ := hy
  refine ⟨?_, ⟨hfits, hfits'⟩, _, _, spells_between hs ht hopens' between_starStar,
    .power hdx hdy.weaken, fun scope => ?_⟩
  · rw [String.toList_append, String.toList_append, List.append_assoc]
    exact hopens.append _
  · rw [Source.join, lower, hlowerx, hlowery]
    rfl

namespace Expr

theorem one_le_precedence (e : Expr) : 1 ≤ e.precedence := by
  unfold precedence
  split <;> (try split) <;> decide

/-- Where more is needed, parentheses are written. -/
theorem shows_enclose {e : Expr} (h : Shows e.precedence s x) (hn : n ≤ 5) :
    Shows n (e.enclose n s) x := by
  unfold enclose
  split
  · exact (h.of_le e.one_le_precedence).paren.of_le hn
  · exact h.of_le (by omega)

/-! ## Texts of parts -/

theorem precedence_int {k : Int} : (Expr.int k).precedence = if k < 0 then 3 else 5 :=
  rfl

theorem precedence_product {es : List Expr} :
    (Expr.product es).precedence = if isNegation es then 3 else 2 :=
  rfl

theorem text_sum {e : Expr} {es : List Expr} {later : List String} (he : e.text = .ok s)
    (hes : laterTermTexts es = .ok later) :
    (Expr.sum (e :: es)).text = .ok (e.enclose 1 s ++ String.join later) := by
  have heq : (Expr.sum (e :: es)).text = (do
      let first := enclose e 1 (← e.text)
      pure (first ++ String.join (← laterTermTexts es))) := rfl
  rw [heq, he, hes]
  rfl

theorem text_negation {e : Expr} (he : e.text = .ok s) :
    (Expr.product [.int (-1), e]).text = .ok ("-" ++ e.enclose 3 s) := by
  have heq : (Expr.product [.int (-1), e]).text = (do pure ("-" ++ enclose e 3 (← e.text))) := rfl
  rw [heq, he]
  rfl

theorem text_binary {op : BinaryOp} {a b : Expr} (ha : a.text = .ok s) (hb : b.text = .ok t) :
    (Expr.binary op a b).text = .ok (a.enclose (operator op).left s ++ (operator op).symbol ++
      b.enclose (operator op).right t) := by
  have heq : (Expr.binary op a b).text = (do
      let left := enclose a (operator op).left (← a.text)
      let right := enclose b (operator op).right (← b.text)
      pure (left ++ (operator op).symbol ++ right)) := rfl
  rw [heq, ha, hb]
  rfl

theorem laterTermTexts_negation {e : Expr} (he : e.text = .ok s) (rest : List Expr) :
    laterTermTexts (.product [.int (-1), e] :: rest) =
      (do pure ((" - " ++ e.enclose 2 s) :: (← laterTermTexts rest))) := by
  have heq : laterTermTexts (.product [.int (-1), e] :: rest) = (do
      let here := " - " ++ enclose e 2 (← e.text)
      pure (here :: (← laterTermTexts rest))) := rfl
  rw [heq, he]
  rfl

theorem laterTermTexts_int (k : Int) (rest : List Expr) :
    laterTermTexts (.int k :: rest) = (do
      let here ← if k < 0 then do pure (" - " ++ toString (← check64 (-k)))
        else pure (" + " ++ toString k)
      pure (here :: (← laterTermTexts rest))) :=
  rfl

/-! ## Tight products -/

mutual

/-- Whether no product in an expression, negations apart, has a product, a quotient or a remainder
as a factor after the first one. -/
def isTight : Expr → Bool
  | .sum es => allTight es
  | .product es => allTight es && (isNegation es || es.tail.all fun e => e.precedence != 2)
  | .binary _ a b => a.isTight && b.isTight
  | _ => true

/-- Whether several expressions have tight products only. -/
def allTight : List Expr → Bool
  | [] => true
  | e :: rest => e.isTight && allTight rest

end

/-- What the text of an expression is read as: alone, as a factor after others, and as a term after
others. -/
structure Prints (e : Expr) (text : String) : Prop where
  eq_ok : e.text = .ok text
  alone : ∃ x, Shows e.precedence text x ∧ (e.isTight = true → x = e.settle)
  factor : ∀ s x, Shows 2 s x → ∃ z, Shows 2 (s ++ "*" ++ e.enclose 2 text) z ∧
    (e.isTight = true → e.precedence ≠ 2 → z = x.mul e.settle)
  term : ∃ signed, (∀ rest, laterTermTexts (e :: rest) =
      (do pure (signed :: (← laterTermTexts rest)))) ∧
    ∀ s x, Shows 1 s x → ∃ z, Shows 1 (s ++ signed) z ∧ (e.isTight = true → z = x.add e.settle)

variable {e : Expr} {text : String}

/-- An expression that needs no parentheses as a factor, or gets them, is one factor. -/
theorem factor_of_shows (hprecedence : e.precedence ≠ 2) (h : Shows e.precedence text y)
    (hx : Shows 2 s x) : Shows 2 (s ++ "*" ++ e.enclose 2 text) (x.mul y) := by
  have hfactor : Shows 3 (e.enclose 2 text) y := by
    unfold enclose
    split
    · exact (h.of_le e.one_le_precedence).paren.of_le (by decide)
    · exact h.of_le (by omega)
  exact Shows.join .mul rfl (by decide) between_star hx hfactor rfl

/-- An expression after a plus sign is one term. -/
theorem term_of_shows (h : Shows e.precedence text y) (hx : Shows 1 s x) :
    Shows 1 (s ++ (" + " ++ e.enclose 2 text)) (x.add y) := by
  rw [← String.append_assoc]
  exact Shows.join .add rfl (by decide) between_plus hx (shows_enclose h (by decide)) rfl

/-- A text after a minus sign is the opposite term. -/
theorem term_of_minus (h : Shows 2 t y) (hx : Shows 1 s x) :
    Shows 1 (s ++ (" - " ++ t)) (x.add y.opposite) := by
  rw [← String.append_assoc]
  refine Shows.join .sub rfl (by decide) between_minus hx h ?_
  rw [Operator.apply, Expr.sub, negate_eq_ok h.2.1]
  rfl

/-- A term that is neither an integer nor a negation is written after a plus sign. -/
theorem laterTermTexts_cons (htext : e.text = .ok text) (hint : ∀ n, e ≠ .int n)
    (hneg : ∀ f, e ≠ .product [.int (-1), f]) (rest : List Expr) :
    laterTermTexts (e :: rest) =
      (do pure ((" + " ++ e.enclose 2 text) :: (← laterTermTexts rest))) := by
  rw [laterTermTexts, htext]
  · rfl
  · exact hneg
  · exact hint

/-- Apart from integers and negations, an expression prints as what its text shows. One that is
written without parentheses as a factor has its own way to follow other factors. -/
theorem Prints.of_shows (htext : e.text = .ok text) (hint : ∀ n, e ≠ .int n)
    (hneg : ∀ f, e ≠ .product [.int (-1), f])
    (h : ∃ x, Shows e.precedence text x ∧ (e.isTight = true → x = e.settle))
    (hloose : e.precedence = 2 → ∀ s x, Shows 2 s x → ∃ z, Shows 2 (s ++ "*" ++ text) z) :
    Prints e text := by
  obtain ⟨y, hy, hsettle⟩ := h
  refine ⟨htext, ⟨y, hy, hsettle⟩, fun s x hx => ?_, _, laterTermTexts_cons htext hint hneg,
    fun s x hx => ⟨_, term_of_shows hy hx, fun htight => by rw [hsettle htight]⟩⟩
  by_cases hprecedence : e.precedence = 2
  · obtain ⟨z, hz⟩ := hloose hprecedence s x hx
    refine ⟨z, ?_, fun _ hne => absurd hprecedence hne⟩
    rwa [enclose, if_neg (by omega)]
  · exact ⟨_, factor_of_shows hprecedence hy hx, fun htight _ => by rw [hsettle htight]⟩

/-! ### Leaves -/

theorem prints_var {name : String} (h : IsName name) : Prints (.var name) name :=
  .of_shows rfl nofun nofun ⟨_, shows_var h, fun _ => rfl⟩ nofun

/-- A natural number prints as its digits. -/
theorem prints_nat {m : Nat} (h : m < 2 ^ 63) : Prints (.int m) (toString m) := by
  have hprecedence : (Expr.int m).precedence = 5 := by
    rw [precedence_int, if_neg (by omega)]
  have hshows : Shows (Expr.int m).precedence (toString m) (.int m) := by
    rw [hprecedence]
    exact shows_nat h
  have hnone : (Expr.int m).precedence ≠ 2 := by
    rw [hprecedence]
    decide
  refine ⟨rfl, ⟨_, hshows, fun _ => rfl⟩,
    fun s x hx => ⟨_, factor_of_shows hnone hshows hx, fun _ _ => rfl⟩,
    " + " ++ (Expr.int m).enclose 2 (toString m), fun rest => ?_,
    fun s x hx => ⟨_, term_of_shows hshows hx, fun _ => rfl⟩⟩
  rw [laterTermTexts_int, if_neg (by omega), enclose, hprecedence]
  rfl

/-- A negative integer prints as a minus sign and digits. -/
theorem prints_negSucc {m : Nat} (h : m + 1 < 2 ^ 63) :
    Prints (.int (.negSucc m)) ("-" ++ toString (m + 1)) := by
  have hneg : Int.negSucc m < 0 := Int.negSucc_lt_zero m
  have hprecedence : (Expr.int (.negSucc m)).precedence = 3 := by
    rw [precedence_int, if_pos hneg]
  have hdigits : Shows 5 (toString (m + 1)) (.int (m + 1 : Nat)) := shows_nat h
  have hshows : Shows (Expr.int (.negSucc m)).precedence ("-" ++ toString (m + 1))
      (.int (.negSucc m)) := by
    rw [hprecedence]
    exact (hdigits.of_le (by decide)).neg
  have hnone : (Expr.int (.negSucc m)).precedence ≠ 2 := by
    rw [hprecedence]
    decide
  refine ⟨rfl, ⟨_, hshows, fun _ => rfl⟩,
    fun s x hx => ⟨_, factor_of_shows hnone hshows hx, fun _ _ => rfl⟩,
    " - " ++ toString (m + 1), fun rest => ?_,
    fun s x hx => ⟨_, term_of_minus (hdigits.of_le (by decide)) hx, fun _ => rfl⟩⟩
  have hword : check64 (-Int.negSucc m) = .ok ((m + 1 : Nat) : Int) :=
    WordRange.check_eq_ok.mpr ⟨WordRange.safe_check.mp (safe_check64 h), rfl⟩
  rw [laterTermTexts_int, if_pos hneg, hword]
  rfl

/-! ### Negations and powers -/

/-- A negation prints as a minus sign and its operand. -/
theorem prints_negation (h : Prints e text) :
    Prints (.product [.int (-1), e]) ("-" ++ e.enclose 3 text) := by
  obtain ⟨htext, ⟨y, hy, hsettle⟩, -, -⟩ := h
  have hshows : Shows (Expr.product [.int (-1), e]).precedence ("-" ++ e.enclose 3 text)
      y.opposite := (shows_enclose hy (by decide)).neg
  have htight : (Expr.product [.int (-1), e]).isTight = true →
      y.opposite = (Expr.product [.int (-1), e]).settle := by
    intro htight
    simp only [isTight, allTight, isNegation, Bool.and_eq_true] at htight
    rw [settle_negation, hsettle htight.1.2.1]
  exact ⟨text_negation htext, ⟨_, hshows, htight⟩,
    fun s x hx => ⟨_, factor_of_shows (show 3 ≠ 2 by decide) hshows hx,
      fun h _ => by rw [htight h]⟩,
    " - " ++ e.enclose 2 text, laterTermTexts_negation htext,
    fun s x hx => ⟨_, term_of_minus (shows_enclose hy (by decide)) hx,
      fun h => by rw [htight h]⟩⟩

/-- A power prints as two atoms. -/
theorem prints_power {f : Expr} {text' : String} (he : Prints e text) (hf : Prints f text') :
    Prints (.binary .power e f) (e.enclose 5 text ++ "**" ++ f.enclose 5 text') := by
  obtain ⟨htext, ⟨x, hx, hsettle⟩, -, -⟩ := he
  obtain ⟨htext', ⟨y, hy, hsettle'⟩, -, -⟩ := hf
  refine .of_shows (text_binary htext htext') nofun nofun
    ⟨_, (shows_enclose hx le_rfl).power (shows_enclose hy le_rfl), fun htight => ?_⟩ nofun
  rw [isTight, Bool.and_eq_true] at htight
  rw [settle, hsettle htight.1, hsettle' htight.2]

/-! ### Quotients and remainders -/

/-- A quotient or remainder prints as two operands. As a factor after others, it leaves its left
operand to these. -/
theorem prints_binary {op : BinaryOp} {f : Expr} {text' : String} (hop : op ≠ .power)
    (he : Prints e text) (hf : Prints f text') :
    Prints (.binary op e f)
      (e.enclose 2 text ++ (operator op).symbol ++ f.enclose 3 text') := by
  obtain ⟨htext, ⟨x, hx, hsettle⟩, hfactor, -⟩ := he
  obtain ⟨htext', ⟨y, hy, hsettle'⟩, -, -⟩ := hf
  have hjoin : ∀ s x, Shows 2 s x →
      Shows 2 (s ++ (operator op).symbol ++ f.enclose 3 text') (.binary op x y) := by
    intro s x hx
    have hy' := shows_enclose (n := 3) hy (by decide)
    cases op with
    | quotient => exact Shows.join .div rfl (by decide) between_slash hx hy' rfl
    | floorDiv => exact Shows.join .floorDiv rfl (by decide) between_slashSlash hx hy' rfl
    | remainder => exact Shows.join .mod rfl (by decide) between_percent hx hy' rfl
    | power => exact absurd rfl hop
  have hprecedence : (Expr.binary op e f).precedence = 2 := by
    cases op with
    | power => exact absurd rfl hop
    | _ => rfl
  refine .of_shows ?_ nofun nofun ⟨.binary op x y, ?_, fun htight => ?_⟩ fun _ s x hx => ?_
  · cases op with
    | power => exact absurd rfl hop
    | _ => exact text_binary htext htext'
  · rw [hprecedence]
    exact hjoin _ x (shows_enclose hx (by decide))
  · rw [isTight, Bool.and_eq_true] at htight
    rw [settle, hsettle htight.1, hsettle' htight.2]
  · obtain ⟨z, hz, -⟩ := hfactor s x hx
    refine ⟨.binary op z y, ?_⟩
    have hassoc : s ++ "*" ++ (e.enclose 2 text ++ (operator op).symbol ++ f.enclose 3 text') =
        s ++ "*" ++ e.enclose 2 text ++ (operator op).symbol ++ f.enclose 3 text' := by
      simp only [String.append_assoc]
    rw [hassoc]
    exact hjoin _ z hz

/-! ### Sums -/

variable {es : List Expr}

/-- Terms after others are added to these one by one. -/
theorem exists_laterTermTexts (h : ∀ e ∈ es, ∃ text, Prints e text) :
    ∃ texts, laterTermTexts es = .ok texts ∧ ∀ s x, Shows 1 s x →
      ∃ z, Shows 1 (s ++ String.join texts) z ∧
        (allTight es = true → z = (settleAll es).foldl Expr.add x) := by
  induction es with
  | nil => exact ⟨[], rfl, fun s x hx => ⟨x, by simpa [String.join] using hx, fun _ => rfl⟩⟩
  | cons e rest ih =>
    rw [List.forall_mem_cons] at h
    obtain ⟨⟨text, he⟩, hrest⟩ := h
    obtain ⟨signed, hsigned, hterm⟩ := he.term
    obtain ⟨texts, htexts, hterms⟩ := ih hrest
    refine ⟨signed :: texts, ?_, fun s x hx => ?_⟩
    · rw [hsigned, htexts]
      rfl
    · obtain ⟨y, hy, hsettle⟩ := hterm s x hx
      obtain ⟨z, hz, hsettles⟩ := hterms (s ++ signed) y hy
      refine ⟨z, ?_, fun htight => ?_⟩
      · rwa [String.join_cons, ← String.append_assoc]
      · rw [allTight, Bool.and_eq_true] at htight
        rw [settleAll, List.foldl_cons, hsettles htight.2, hsettle htight.1]

/-- A sum prints as its terms, each with its sign. -/
theorem prints_sum (hsum : e.isSum = false) (hes : es ≠ []) (he : Prints e text)
    (h : ∀ e ∈ es, ∃ text, Prints e text) : ∃ text, Prints (.sum (e :: es)) text := by
  obtain ⟨htext, ⟨x, hx, hsettle⟩, -, -⟩ := he
  obtain ⟨texts, htexts, hterms⟩ := exists_laterTermTexts h
  obtain ⟨z, hz, hsettles⟩ := hterms _ x (shows_enclose hx (by decide))
  refine ⟨_, .of_shows (text_sum htext htexts) nofun nofun ⟨z, hz, fun htight => ?_⟩ nofun⟩
  rw [isTight, allTight, Bool.and_eq_true] at htight
  rw [hsettles htight.2, hsettle htight.1, foldl_add (isSum_settle hsum) (settleAll_ne_nil hes)]
  rfl

/-! ### Products -/

/-- Factors after others multiply these one by one. -/
theorem exists_factorTexts (h : ∀ e ∈ es, ∃ text, Prints e text) :
    ∃ factors, texts 2 es = .ok factors ∧ ∀ s x, Shows 2 s x →
      ∃ z, Shows 2 ("*".intercalate (s :: factors)) z ∧
        (allTight es = true → (∀ e ∈ es, e.precedence ≠ 2) →
          z = (settleAll es).foldl Expr.mul x) := by
  induction es with
  | nil => exact ⟨[], rfl, fun s x hx => ⟨x, hx, fun _ _ => rfl⟩⟩
  | cons e rest ih =>
    rw [List.forall_mem_cons] at h
    obtain ⟨⟨text, he⟩, hrest⟩ := h
    obtain ⟨factors, hfactors, hmul⟩ := ih hrest
    refine ⟨e.enclose 2 text :: factors, ?_, fun s x hx => ?_⟩
    · rw [texts, he.eq_ok, hfactors]
      rfl
    · obtain ⟨y, hy, hsettle⟩ := he.factor s x hx
      obtain ⟨z, hz, hsettles⟩ := hmul _ y hy
      refine ⟨z, hz, fun htight hprecedence => ?_⟩
      rw [allTight, Bool.and_eq_true] at htight
      rw [List.forall_mem_cons] at hprecedence
      rw [settleAll, List.foldl_cons, hsettles htight.2 hprecedence.2,
        hsettle htight.1 hprecedence.1]

theorem append_intercalate (s t : String) (l : List String) :
    s ++ "*" ++ "*".intercalate (t :: l) = "*".intercalate ((s ++ "*" ++ t) :: l) := by
  induction l generalizing t with
  | nil => rfl
  | cons a l ih =>
    have hnext := ih (t ++ "*" ++ a)
    simp only [← String.append_assoc] at hnext
    exact hnext

/-- A product that is no negation prints as its factors. As a factor after others, it leaves its
factors to these. -/
theorem prints_product (hproduct : e.isProduct = false) (hes : es ≠ [])
    (hneg : isNegation (e :: es) = false) (he : Prints e text)
    (h : ∀ e ∈ es, ∃ text, Prints e text) : ∃ text, Prints (.product (e :: es)) text := by
  obtain ⟨htext, ⟨x, hx, hsettle⟩, hfactor, -⟩ := he
  obtain ⟨factors, hfactors, hmul⟩ := exists_factorTexts h
  obtain ⟨z, hz, hsettles⟩ := hmul _ x (shows_enclose hx (by decide))
  have hnone : ∀ f, Expr.product (e :: es) ≠ .product [.int (-1), f] := by
    intro f heq
    cases heq
    cases hneg
  have hprecedence : (Expr.product (e :: es)).precedence = 2 := by
    rw [precedence_product, hneg]
    rfl
  refine ⟨"*".intercalate (e.enclose 2 text :: factors),
    .of_shows ?_ nofun hnone ⟨z, ?_, fun htight => ?_⟩ fun _ s x hx => ?_⟩
  · rw [Expr.text, texts, htext, hfactors]
    · rfl
    · rintro f heq
      exact hnone f (congrArg Expr.product heq)
  · rw [hprecedence]
    exact hz
  · simp only [isTight, allTight, hneg, Bool.false_or, Bool.and_eq_true, List.tail_cons,
      List.all_eq_true, bne_iff_ne] at htight
    obtain ⟨⟨hfirst, hrest⟩, hloose⟩ := htight
    rw [hsettles hrest hloose, hsettle hfirst, settle_product hneg,
      foldl_mul (isProduct_settle hproduct) (settleAll_ne_nil hes)]
    rfl
  · obtain ⟨y, hy, -⟩ := hfactor s x hx
    obtain ⟨z, hz, -⟩ := hmul _ y hy
    refine ⟨z, ?_⟩
    rwa [append_intercalate]

/-! ### All arithmetic expressions -/

mutual

/-- Every arithmetic expression prints. -/
theorem exists_prints : (e : Expr) → e.IsArithmetic → ∃ text, Prints e text
  | .int (.ofNat _), h => ⟨_, prints_nat h⟩
  | .int (.negSucc _), h => ⟨_, prints_negSucc h⟩
  | .var name, h => ⟨name, prints_var h⟩
  | .sum (e :: es), h => by
    obtain ⟨hsum, hes, he, hall⟩ := h
    obtain ⟨text, htext⟩ := exists_prints e he
    exact prints_sum hsum hes htext (exists_prints_of_mem es hall)
  | .product (e :: es), h => by
    obtain ⟨hproduct, hes, he, hall⟩ := h
    obtain ⟨text, htext⟩ := exists_prints e he
    have hrest := exists_prints_of_mem es hall
    cases hneg : isNegation (e :: es) with
    | true =>
      obtain ⟨f, hf⟩ := isNegation_eq_true_iff.mp hneg
      cases hf
      obtain ⟨operand, hoperand⟩ := hrest f (List.mem_singleton_self f)
      exact ⟨_, prints_negation hoperand⟩
    | false => exact prints_product hproduct hes hneg htext hrest
  | .binary op a b, h => by
    obtain ⟨left, hleft⟩ := exists_prints a h.1
    obtain ⟨right, hright⟩ := exists_prints b h.2
    by_cases hop : op = .power
    · subst hop
      exact ⟨_, prints_power hleft hright⟩
    · exact ⟨_, prints_binary hop hleft hright⟩
  | .sum [], h | .product [], h | .float _, h | .tagged _ _, h | .subscript _ _, h | .call _ _, h
  | .reduction _ _ _, h => h.elim

theorem exists_prints_of_mem : (es : List Expr) → AllArithmetic es →
    ∀ e ∈ es, ∃ text, Prints e text
  | [], _ => by simp
  | e :: rest, h => by
    rw [List.forall_mem_cons]
    exact ⟨exists_prints e h.1, exists_prints_of_mem rest h.2⟩

end

end Expr

/-! ## Sources -/

namespace Source

/-- Whether a tree is built from integers and names by operators. -/
def Term.isArithmetic : Term → Bool
  | .int _ _ | .var _ _ => true
  | .neg _ operand => operand.isArithmetic
  | .binary _ _ left right => left.isArithmetic && right.isArithmetic
  | _ => false

/-- Operators on arithmetic expressions give such. -/
theorem Operator.exists_apply (op : Operator) {l r : Expr} (hl : l.IsArithmetic)
    (hr : r.IsArithmetic) : ∃ e, op.apply l r = .ok e ∧ e.IsArithmetic := by
  cases op with
  | add => exact ⟨_, rfl, hl.add hr⟩
  | mul => exact ⟨_, rfl, hl.mul hr⟩
  | sub =>
    have hneg := Expr.negate_eq_ok (Expr.IsArithmetic.literalsFit r hr)
    refine ⟨l.add r.opposite, ?_, hl.add (hr.negate hneg)⟩
    rw [apply, Expr.sub, hneg]
    rfl
  | _ => exact ⟨_, rfl, hl, hr⟩

/-- Arithmetic trees of a source stand for arithmetic expressions. -/
theorem exists_lower (scope : Scope) : (t : Term) → t.MadeOf Token.IsReadable →
    t.isArithmetic = true → ∃ e, lower scope t = .ok e ∧ e.IsArithmetic
  | .int _ n, ht, _ => by
    rw [Term.MadeOf] at ht
    obtain ⟨m, rfl, hm⟩ := ht
    exact ⟨_, rfl, hm⟩
  | .var _ name, ht, _ => by
    rw [Term.MadeOf] at ht
    exact ⟨_, rfl, ht⟩
  | .neg _ operand, ht, h => by
    rw [Term.MadeOf] at ht
    rw [Term.isArithmetic] at h
    obtain ⟨e, he, harithmetic⟩ := exists_lower scope operand ht h
    have hneg := Expr.negate_eq_ok (Expr.IsArithmetic.literalsFit e harithmetic)
    refine ⟨e.opposite, ?_, harithmetic.negate hneg⟩
    rw [lower, he]
    exact Attempt.liftM_eq_ok.mpr hneg
  | .binary _ op left right, ht, h => by
    rw [Term.MadeOf] at ht
    rw [Term.isArithmetic, Bool.and_eq_true] at h
    obtain ⟨l, hl, hleft⟩ := exists_lower scope left ht.1 h.1
    obtain ⟨r, hr, hright⟩ := exists_lower scope right ht.2 h.2
    obtain ⟨e, he, harithmetic⟩ := op.exists_apply hleft hright
    refine ⟨e, ?_, harithmetic⟩
    rw [lower, hl, hr]
    exact Attempt.liftM_eq_ok.mpr he
  | .float _ _, _, h | .tagged _ _ _, _, h | .subscript _ _ _, _, h | .call _ _ _, _, h
  | .reduce _ _ _ _ _, _, h => nomatch h

/-- What a text shows is read on the right side of an assignment. -/
theorem exists_readsAs_of_shows {target text : String} {x : Expr} (htarget : IsName target)
    (h : Shows 1 text x) : ∃ t, ReadsAs target text t ∧ ∀ scope, lower scope t = .ok x := by
  obtain ⟨hopens, -, ts, tree, hspells, hderives, hlower⟩ := h
  obtain ⟨t, ht, rfl⟩ := exists_readsAs htarget hopens hspells hderives
  refine ⟨t, ht, fun scope => ?_⟩
  have hunplaced := hlower scope
  rwa [lower_unplaced, Attempt.mapCause_eq_ok] at hunplaced

/-- The text of an arithmetic expression of a source is read without a problem on the right side of
an assignment, and what is read has the value of the expression if its products are tight. -/
theorem text_reads_back {source : String} {file : File} (hread : (read source).file = .ok file)
    {s : Statement} (hs : s ∈ file.statements) {t : Term} (ht : t ∈ s.body.terms)
    (harithmetic : t.isArithmetic = true) (scope : Scope) {target : String}
    (htarget : IsName target) :
    ∃ e text t' e', lower scope t = .ok e ∧ e.text = .ok text ∧ ReadsAs target text t' ∧
      (∀ scope, lower scope t' = .ok e') ∧
      (e.isTight = true → ∀ env, e'.evalInt env = e.evalInt env) := by
  have hmade := (madeOf_of_read hread Lexer.isReadable_of_mem_split s hs).terms t ht
  obtain ⟨e, he, hexpr⟩ := exists_lower scope t hmade harithmetic
  obtain ⟨text, htext, ⟨x, hx, hsettle⟩, -, -⟩ := Expr.exists_prints e hexpr
  obtain ⟨t', ht', hlower⟩ := exists_readsAs_of_shows htarget (hx.of_le e.one_le_precedence)
  refine ⟨e, text, t', x, he, htext, ht', hlower, fun htight env => ?_⟩
  rw [hsettle htight]
  exact Expr.evalInt_settle e (Expr.IsArithmetic.literalsFit e hexpr)

/-- A source with a negation, parentheses, and every kind of operator. -/
def quotientSource : String := "insn x = -a*(b + 3) // (c % 5) - 2**(n + 1)\n"

/-- The quotient is read back with its value. -/
theorem text_reads_back_quotient :
    ∃ file s t e t' e', (read quotientSource).file = .ok file ∧ s ∈ file.statements ∧
      t ∈ s.body.terms ∧ t.isArithmetic = true ∧ IsName "y" ∧ lower ⟨[], .int64⟩ t = .ok e ∧
      e.text = .ok "-1*a*(b + 3) // (c % 5) - 2**(n + 1)" ∧
      ReadsAs "y" "-1*a*(b + 3) // (c % 5) - 2**(n + 1)" t' ∧
      (∀ scope, lower scope t' = .ok e') ∧ e.isTight = true ∧
      ∀ env, e'.evalInt env = e.evalInt env := by
  have hname : IsName "y" := ⟨⟨'y', [], rfl, by decide, by simp⟩, by decide⟩
  have hfound : ((read quotientSource).file.toOption.any fun file => file.statements.any fun s =>
      s.body.terms.any fun t => t.isArithmetic && (Except.toOption (lower ⟨[], .int64⟩ t)).any
        fun e => e.isTight &&
          Except.toOption e.text == some "-1*a*(b + 3) // (c % 5) - 2**(n + 1)") = true := by
    decide +kernel
  obtain ⟨file, hfile, hfound⟩ := (Option.any_eq_true _ _).mp hfound
  obtain ⟨s, hs, hfound⟩ := List.any_eq_true.mp hfound
  obtain ⟨t, ht, hfound⟩ := List.any_eq_true.mp hfound
  rw [Bool.and_eq_true] at hfound
  obtain ⟨harithmetic, hfound⟩ := hfound
  have hfile : (read quotientSource).file = .ok file := by
    generalize (read quotientSource).file = found at hfile ⊢
    cases found with
    | ok _ => exact congrArg Except.ok (Option.some.inj hfile)
    | error _ => cases hfile
  obtain ⟨e, text, t', e', he, htext, hreads, hlower, hvalue⟩ :=
    text_reads_back hfile hs ht harithmetic ⟨[], .int64⟩ hname
  simp only [he, htext, Except.toOption, Option.any_some, Bool.and_eq_true, beq_iff_eq,
    Option.some.injEq] at hfound
  obtain ⟨htight, rfl⟩ := hfound
  exact ⟨file, s, t, e, t', e', hfile, hs, ht, harithmetic, hname, he, htext, hreads, hlower,
    htight, hvalue htight⟩

/-- A product with a quotient as its second factor is written like a quotient. -/
example : (Expr.product [.int 2, .binary .floorDiv (.int 3) (.int 2)]).text = .ok "2*3 // 2" ∧
    (Expr.binary .floorDiv (.product [.int 2, .int 3]) (.int 2)).text = .ok "2*3 // 2" := by
  decide +kernel

end Source

end LoopKernel
