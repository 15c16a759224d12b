import LoopKernel.Kernel.Json
import LoopKernel.Proofs.Expr.Binders
import LoopKernel.Proofs.Json.Reading
import LoopKernel.Proofs.NameSet
import LoopKernel.Proofs.WellFormed.Basic

/-!
# Exchange text determines a kernel

What a reader finds in the exchange text of a kernel is the kernel, but for the signs of infinite
literals: a number that is not finite has no text.
-/

namespace LoopKernel

namespace Json

variable {α β : Type} {write : α → Json} {view : α → β}

/-! ## What a text tells -/

/-- Whether what is written for a value tells a view of it. -/
def Tells (write : α → Json) (view : α → β) : Prop :=
  ∀ a b, (write a).content = (write b).content → view a = view b

@[simp] theorem object_nil_inj : (object []).content = (object []).content ↔ True := by simp

/-- Objects have one content if their members have one by one. -/
theorem object_cons_inj {n n' : String} {v v' : Json} {rest rest' : List (String × Json)} :
    (object ((n, v) :: rest)).content = (object ((n', v') :: rest')).content ↔
      n = n' ∧ v.content = v'.content ∧ (object rest).content = (object rest').content := by
  simp [content, memberContents, and_assoc]

theorem string_inj {s s' : String} : (string s).content = (string s').content ↔ s = s' := by
  simp [content]

theorem bool_inj {b b' : Bool} : (bool b).content = (bool b').content ↔ b = b' := by
  simp [content]

theorem int_inj {n n' : Int} : (int n).content = (int n').content ↔ n = n' := by
  simp [content]
  omega

theorem variant_inj {n n' : String} {v v' : Json} :
    (variant n v).content = (variant n' v').content ↔ n = n' ∧ v.content = v'.content := by
  simp [variant, object_cons_inj]

theorem string_ne_variant {s n : String} {v : Json} :
    (string s).content ≠ (variant n v).content := by
  simp [variant, content]

theorem array_cons_inj {v v' : Json} {rest rest' : List Json} :
    (array (v :: rest)).content = (array (v' :: rest')).content ↔
      v.content = v'.content ∧ (array rest).content = (array rest').content := by
  simp [content, itemContents]

theorem array_nil_ne_cons {v : Json} {rest : List Json} :
    (array []).content ≠ (array (v :: rest)).content := by
  simp [content, itemContents]

/-- Arrays of one content have items of which one thing is told. -/
theorem map_eq_of_content {l l' : List α}
    (h : ∀ a ∈ l, ∀ b ∈ l', (write a).content = (write b).content → view a = view b)
    (heq : (array (l.map write)).content = (array (l'.map write)).content) :
    l.map view = l'.map view := by
  induction l generalizing l' with
  | nil =>
    cases l' with
    | nil => rfl
    | cons b l' => exact absurd heq array_nil_ne_cons
  | cons a l ih =>
    cases l' with
    | nil => exact absurd heq.symm array_nil_ne_cons
    | cons b l' =>
      rw [List.map_cons, List.map_cons, array_cons_inj] at heq
      rw [List.map_cons, List.map_cons, h a List.mem_cons_self b List.mem_cons_self heq.1,
        ih (fun a ha b hb => h a (List.mem_cons_of_mem _ ha) b (List.mem_cons_of_mem _ hb)) heq.2]

/-- An array tells of each item what its text tells. -/
theorem Tells.array (h : Tells write view) :
    Tells (fun l => Json.array (l.map write)) (List.map view) := fun _ _ =>
  map_eq_of_content fun a _ b _ => h a b

/-- Items that have the text of other ones. -/
theorem itemTexts_map_map {f : α → α} (h : ∀ a, (write (f a)).text = (write a).text) (l : List α) :
    itemTexts ((l.map f).map write) = itemTexts (l.map write) := by
  induction l with
  | nil => rfl
  | cons a l ih =>
    rw [List.map_cons, List.map_cons, List.map_cons, itemTexts, itemTexts, h, ih]

theorem tells_strings : Tells strings id := by
  intro l l' heq
  have h : Tells Json.string id := fun _ _ => string_inj.mp
  simpa using h.array l l' heq

theorem tells_nameSet : Tells (fun s : NameSet => strings s.toList) id := by
  intro s s' heq
  have hlist : s.toList = s'.toList := tells_strings _ _ heq
  exact NameSet.ext fun n =>
    NameSet.mem_toList.symm.trans ((iff_of_eq (congrArg (n ∈ ·) hlist)).trans NameSet.mem_toList)

/-- An option tells of its value what the text of it tells, if this text is not that of null. -/
theorem Tells.option (h : Tells write view) (hnull : ∀ a, (write a).content ≠ .null) :
    Tells (ofOption write) (Option.map view) := by
  intro o o' heq
  cases o with
  | none => cases o' with
    | none => rfl
    | some a' => exact absurd heq.symm (hnull a')
  | some a => cases o' with
    | none => exact absurd heq (hnull a)
    | some a' => exact congrArg some (h a a' heq)

/-- A map tells its keys and of each value what its text tells. -/
theorem Tells.map (h : Tells write view) :
    Tells (ofMap write) fun m => m.entries.map fun e => (e.1, view e.2) := by
  have hmembers : ∀ l l' : List (String × α),
      (object (l.map fun e => (e.1, write e.2))).content =
          (object (l'.map fun e => (e.1, write e.2))).content →
        (l.map fun e => (e.1, view e.2)) = l'.map fun e => (e.1, view e.2) := by
    intro l
    induction l with
    | nil =>
      intro l' heq
      cases l' with
      | nil => rfl
      | cons e' l' => simp [content, memberContents] at heq
    | cons e l ih =>
      intro l' heq
      cases l' with
      | nil => simp [content, memberContents] at heq
      | cons e' l' =>
        rw [List.map_cons, List.map_cons, object_cons_inj] at heq
        rw [List.map_cons, List.map_cons, heq.1, h _ _ heq.2.1, ih l' heq.2.2]
  exact fun m m' => hmembers m.entries m'.entries

theorem Tells.map_id {write : α → Json} (h : Tells write id) :
    Tells (ofMap write) id := fun m m' heq =>
  SortedMap.ext (by simpa using h.map m m' heq)

end Json

open Json

/-! ## Parts without expressions -/

theorem tells_int : Tells Json.int id := fun _ _ => int_inj.mp

theorem tells_bool : Tells Json.bool id := fun _ _ => bool_inj.mp

theorem tells_affine : Tells Affine.toJson id := by
  intro f g h
  simp only [Affine.toJson, object_cons_inj, int_inj] at h
  obtain ⟨-, hcoeffs, -, hconstant, -⟩ := h
  obtain ⟨coeffs, constant⟩ := f
  obtain ⟨coeffs', constant'⟩ := g
  rw [show coeffs = coeffs' from tells_int.map_id _ _ hcoeffs,
    show constant = constant' from hconstant]

theorem tells_constraint : Tells Constraint.toJson id := by
  intro c d h
  simp only [Constraint.toJson, object_cons_inj, string_inj] at h
  obtain ⟨-, hrelation, -, hform, -⟩ := h
  obtain ⟨relation, form⟩ := c
  obtain ⟨relation', form'⟩ := d
  have hrelation : relation = relation' := by
    cases relation <;> cases relation' <;> simp at hrelation ⊢
  rw [hrelation, show form = form' from tells_affine _ _ hform]

theorem tells_polyhedron : Tells Polyhedron.toJson id := by
  intro s t h
  simp only [Polyhedron.toJson, object_cons_inj] at h
  obtain ⟨-, hdims, -, hconstraints, -⟩ := h
  obtain ⟨dims, constraints⟩ := s
  obtain ⟨dims', constraints'⟩ := t
  have hconstraints := tells_constraint.array _ _ hconstraints
  rw [List.map_id, List.map_id] at hconstraints
  rw [show dims = dims' from tells_strings _ _ hdims,
    show constraints = constraints' from hconstraints]

theorem MemoryKind.name_injective : Function.Injective MemoryKind.name := by
  intro a b h
  cases a <;> cases b <;> simp [name] at h ⊢

theorem Dtype.name_injective : Function.Injective Dtype.name := by
  intro a b h
  cases a <;> cases b <;> simp [name] at h ⊢

theorem tells_device : Tells Device.toJson id := by
  intro d d' h
  simp only [Device.toJson, object_cons_inj, string_inj, int_inj, Int.ofNat_inj] at h
  obtain ⟨-, h₁, -, h₂, -, h₃, -, h₄, -, h₅, -, h₆, -, h₇, -⟩ := h
  cases d
  cases d'
  simp only [id, Device.mk.injEq]
  exact ⟨h₁, h₂, h₃, MemoryKind.name_injective h₄, h₅, h₆, h₇⟩

theorem tells_tag : Tells IndexTag.toJson id := by
  intro t t' h
  cases t <;> cases t' <;>
    simp [IndexTag.toJson, string_inj, variant_inj, int_inj, string_ne_variant,
      string_ne_variant.symm] at h ⊢
  all_goals exact h

theorem tells_reductionOp : Tells ReductionOp.toJson id := by
  intro op op' h
  simp only [ReductionOp.toJson, object_cons_inj, string_inj] at h
  obtain ⟨-, hkind, -, hdtype, -⟩ := h
  obtain ⟨kind, dtype⟩ := op
  obtain ⟨kind', dtype'⟩ := op'
  have hkind : kind = kind' := by
    cases kind <;> cases kind' <;> simp at hkind ⊢
  rw [hkind, show dtype = dtype' from Dtype.name_injective hdtype]

theorem tells_scheduleItem : Tells ScheduleItem.toJson id := by
  intro i j h
  cases i <;> cases j <;>
    simp [ScheduleItem.toJson, string_inj, variant_inj, object_cons_inj, string_ne_variant,
      string_ne_variant.symm] at h ⊢
  all_goals exact h

theorem tells_temporary : Tells Temporary.toJson id := by
  intro t t' h
  simp only [Temporary.toJson, object_cons_inj, string_inj, bool_inj] at h
  obtain ⟨-, hname, -, hdtype, -, hshape, -, hlocal, -, hstorage, -⟩ := h
  have hextents : Tells (fun shape : List Int => Json.array (shape.map .int)) id := by
    simpa using tells_int.array
  cases t
  cases t'
  simp only [id, Temporary.mk.injEq]
  refine ⟨hname, Dtype.name_injective hdtype, hextents _ _ hshape, hlocal, ?_⟩
  simpa using hextents.option (fun _ => nofun) _ _ hstorage

/-! ## Expressions -/

/-- A number as far as exchange text tells it: one that is not finite is positive infinity. -/
def Binary64.exchanged (x : Binary64) : Binary64 :=
  if x.isFinite then x else ⟨false, infiniteMagnitude⟩

namespace Binary64

theorem exchanged_of_isFinite {x : Binary64} (h : x.isFinite = true) : x.exchanged = x := if_pos h

theorem isFinite_exchanged (x : Binary64) : x.exchanged.isFinite = x.isFinite := by
  unfold exchanged
  split
  · rfl
  · next h =>
    rw [Bool.eq_false_iff.mpr h,
      show (⟨false, infiniteMagnitude⟩ : Binary64).isFinite = false by decide]

end Binary64

namespace Binder

/-- Whether the name of a binder does not look like a mark. -/
def IsPlain (b : Binder) : Prop := b.name.toList.head? ≠ some '@'

/-- The text of a binder is read back. -/
theorem ofText_text {b : Binder} (h : b.IsPlain) : ofText b.text = b := by
  have htext : b.text.toList = List.replicate b.marks '@' ++ b.name.toList := by
    rw [text, String.toList_append, JsonValue.toList_pushn]
    rfl
  have hmarks : b.text.toList.takeWhile (· == '@') = List.replicate b.marks '@' := by
    rw [htext, List.takeWhile_append_of_pos fun c hc => by simp [List.eq_of_mem_replicate hc]]
    unfold IsPlain at h
    cases hname : b.name.toList with
    | nil => simp
    | cons c cs =>
      rw [hname] at h
      rw [List.takeWhile_cons_of_neg (by simpa using h), List.append_nil]
  have hname : b.text.toList.drop b.marks = b.name.toList := by
    rw [htext, List.drop_left' List.length_replicate]
  unfold ofText
  dsimp only
  rw [hmarks, List.length_replicate, hname, String.ofList_toList]

end Binder

namespace Expr

mutual

/-- An expression as far as exchange text tells it. -/
def exchanged : Expr → Expr
  | .int n => .int n
  | .float x => .float x.exchanged
  | .var name => .var name
  | .tagged name tag => .tagged name tag
  | .subscript aggregate index => .subscript aggregate (allExchanged index)
  | .sum es => .sum (allExchanged es)
  | .product es => .product (allExchanged es)
  | .binary op a b => .binary op a.exchanged b.exchanged
  | .call function args => .call function (allExchanged args)
  | .reduction op binders body => .reduction op binders body.exchanged

/-- Several expressions as far as exchange text tells them. -/
def allExchanged : List Expr → List Expr
  | [] => []
  | e :: rest => e.exchanged :: allExchanged rest

/-- The floating-point literals of an expression. -/
def floats : Expr → List Binary64
  | .float x => [x]
  | .int _ | .var _ | .tagged _ _ => []
  | .subscript _ es | .sum es | .product es | .call _ es => floatsOfAll es
  | .binary _ a b => a.floats ++ b.floats
  | .reduction _ _ body => body.floats

/-- The floating-point literals of several expressions. -/
def floatsOfAll : List Expr → List Binary64
  | [] => []
  | e :: rest => e.floats ++ floatsOfAll rest

end

theorem exchanged_of_float {x y : Binary64} (h : (Json.float x).content = (Json.float y).content) :
    x.exchanged = y.exchanged := by
  simp only [Json.content] at h
  unfold Binary64.exchanged
  split at h
  · next hx =>
    split at h
    · rw [Binary64.numeral_injective (JsonValue.number.inj h)]
    · cases h
  · next hx =>
    split at h
    · cases h
    · next hy => rw [if_neg hx, if_neg hy]

/-- Binders that do not look like marks are told by their texts. -/
theorem binders_of_texts {bs bs' : List Binder} (hbs : ∀ b ∈ bs, b.IsPlain)
    (hbs' : ∀ b ∈ bs', b.IsPlain) (h : bs.map Binder.text = bs'.map Binder.text) : bs = bs' := by
  have hread {l : List Binder} (hl : ∀ b ∈ l, b.IsPlain) :
      (l.map Binder.text).map Binder.ofText = l := by
    rw [List.map_map]
    exact (List.map_congr_left fun b hb => Binder.ofText_text (hl b hb)).trans (List.map_id l)
  rw [← hread hbs, h, hread hbs']

/-- The text of an expression tells its constructor. -/
theorem ctorIdx_eq_of_content {e f : Expr} (h : e.toJson.content = f.toJson.content) :
    e.ctorIdx = f.ctorIdx := by
  cases e <;> cases f <;> first
    | rfl
    | (simp [toJson, variant_inj] at h; done)
    | (cases ‹BinaryOp› <;> simp [toJson, variant_inj, BinaryOp.variantName] at h)

mutual

/-- The text of an expression tells it but for the signs of infinite literals. -/
theorem exchanged_of_content : (e f : Expr) → (∀ b ∈ e.binders, b.IsPlain) →
    (∀ b ∈ f.binders, b.IsPlain) → e.toJson.content = f.toJson.content → e.exchanged = f.exchanged
  | .int n, f, _, _, h => by
    cases f with
    | int m => simpa [toJson, variant_inj, int_inj, exchanged] using h
    | _ => cases ctorIdx_eq_of_content h
  | .float x, f, _, _, h => by
    cases f with
    | float y =>
      rw [toJson, toJson, variant_inj] at h
      rw [exchanged, exchanged, exchanged_of_float h.2]
    | _ => cases ctorIdx_eq_of_content h
  | .var name, f, _, _, h => by
    cases f with
    | var name' => simpa [toJson, variant_inj, string_inj, exchanged] using h
    | _ => cases ctorIdx_eq_of_content h
  | .tagged name tag, f, _, _, h => by
    cases f with
    | tagged name' tag' =>
      simpa [toJson, variant_inj, object_cons_inj, string_inj, exchanged] using h
    | _ => cases ctorIdx_eq_of_content h
  | .subscript aggregate index, f, he, hf, h => by
    cases f with
    | subscript aggregate' index' =>
      simp only [toJson, variant_inj, object_cons_inj, string_inj] at h
      rw [exchanged, exchanged, h.2.2.1, allExchanged_of_content index index' he hf h.2.2.2.2.1]
    | _ => cases ctorIdx_eq_of_content h
  | .sum es, f, he, hf, h => by
    cases f with
    | sum fs =>
      rw [toJson, toJson, variant_inj] at h
      rw [exchanged, exchanged, allExchanged_of_content es fs he hf h.2]
    | _ => cases ctorIdx_eq_of_content h
  | .product es, f, he, hf, h => by
    cases f with
    | product fs =>
      rw [toJson, toJson, variant_inj] at h
      rw [exchanged, exchanged, allExchanged_of_content es fs he hf h.2]
    | _ => cases ctorIdx_eq_of_content h
  | .binary op a b, f, he, hf, h => by
    cases f with
    | binary op' a' b' =>
      simp only [toJson, variant_inj, array_cons_inj] at h
      obtain ⟨hop, ha, hb, -⟩ := h
      have hop : op = op' := by
        cases op <;> cases op' <;> simp [BinaryOp.variantName] at hop ⊢
      rw [binders, List.forall_mem_append] at he hf
      rw [exchanged, exchanged, hop, exchanged_of_content a a' he.1 hf.1 ha,
        exchanged_of_content b b' he.2 hf.2 hb]
    | _ => cases ctorIdx_eq_of_content h
  | .call function args, f, he, hf, h => by
    cases f with
    | call function' args' =>
      simp only [toJson, variant_inj, object_cons_inj, string_inj] at h
      rw [exchanged, exchanged, h.2.2.1, allExchanged_of_content args args' he hf h.2.2.2.2.1]
    | _ => cases ctorIdx_eq_of_content h
  | .reduction op binders body, f, he, hf, h => by
    cases f with
    | reduction op' binders' body' =>
      simp only [toJson, variant_inj, object_cons_inj] at h
      obtain ⟨-, -, hop, -, hbinders, -, hbody, -⟩ := h
      rw [Expr.binders, List.forall_mem_append] at he hf
      rw [exchanged, exchanged, show op = op' from tells_reductionOp _ _ hop,
        binders_of_texts he.2 hf.2 (tells_strings _ _ hbinders),
        exchanged_of_content body body' he.1 hf.1 hbody]
    | _ => cases ctorIdx_eq_of_content h

/-- The texts of several expressions tell them but for the signs of infinite literals. -/
theorem allExchanged_of_content : (es fs : List Expr) → (∀ b ∈ bindersOfAll es, b.IsPlain) →
    (∀ b ∈ bindersOfAll fs, b.IsPlain) →
    (Json.array (allToJson es)).content = (Json.array (allToJson fs)).content →
      allExchanged es = allExchanged fs
  | [], [], _, _, _ => rfl
  | [], f :: fs, _, _, h => absurd h array_nil_ne_cons
  | e :: es, [], _, _, h => absurd h.symm array_nil_ne_cons
  | e :: es, f :: fs, he, hf, h => by
    rw [allToJson, allToJson, array_cons_inj] at h
    rw [bindersOfAll, List.forall_mem_append] at he hf
    rw [allExchanged, allExchanged, exchanged_of_content e f he.1 hf.1 h.1,
      allExchanged_of_content es fs he.2 hf.2 h.2]

end

theorem floatText_exchanged (x : Binary64) : floatText x.exchanged = floatText x := by
  unfold Binary64.exchanged
  split
  · rfl
  · next h =>
    unfold floatText
    rw [if_neg (by decide), if_neg h]

mutual

/-- The text of an expression does not tell the signs of infinite literals. -/
theorem text_exchanged : (e : Expr) → e.exchanged.toJson.text = e.toJson.text
  | .int _ | .var _ | .tagged _ _ => rfl
  | .float x => by simp [exchanged, toJson, variant, Json.text, memberTexts, floatText_exchanged]
  | .subscript _ es | .sum es | .product es | .call _ es => by
    simp [exchanged, toJson, variant, Json.text, memberTexts, texts_allExchanged es]
  | .binary _ a b => by
    simp [exchanged, toJson, variant, Json.text, memberTexts, itemTexts, text_exchanged a,
      text_exchanged b]
  | .reduction _ _ body => by
    simp [exchanged, toJson, variant, Json.text, memberTexts, text_exchanged body]

theorem texts_allExchanged : (es : List Expr) →
    itemTexts (allToJson (allExchanged es)) = itemTexts (allToJson es)
  | [] => rfl
  | e :: es => by
    simp [allExchanged, allToJson, itemTexts, text_exchanged e, texts_allExchanged es]

end

mutual

theorem floats_exchanged : (e : Expr) → e.exchanged.floats = e.floats.map Binary64.exchanged
  | .int _ | .var _ | .tagged _ _ => rfl
  | .float _ => rfl
  | .subscript _ es | .sum es | .product es | .call _ es => floatsOfAll_exchanged es
  | .binary _ a b => by
    rw [exchanged, floats, floats, List.map_append, floats_exchanged a, floats_exchanged b]
  | .reduction _ _ body => floats_exchanged body

theorem floatsOfAll_exchanged : (es : List Expr) →
    floatsOfAll (allExchanged es) = (floatsOfAll es).map Binary64.exchanged
  | [] => rfl
  | e :: es => by
    rw [allExchanged, floatsOfAll, floatsOfAll, List.map_append, floats_exchanged e,
      floatsOfAll_exchanged es]

end

mutual

/-- An expression without infinite literals is told. -/
theorem exchanged_of_finite : (e : Expr) → (∀ x ∈ e.floats, x.isFinite = true) → e.exchanged = e
  | .int _, _ | .var _, _ | .tagged _ _, _ => rfl
  | .float x, h => by
    rw [exchanged, Binary64.exchanged_of_isFinite (h x (List.mem_singleton_self x))]
  | .subscript _ es, h | .sum es, h | .product es, h | .call _ es, h => by
    rw [exchanged, allExchanged_of_finite es h]
  | .binary _ a b, h => by
    rw [floats, List.forall_mem_append] at h
    rw [exchanged, exchanged_of_finite a h.1, exchanged_of_finite b h.2]
  | .reduction _ _ body, h => by rw [exchanged, exchanged_of_finite body h]

theorem allExchanged_of_finite : (es : List Expr) → (∀ x ∈ floatsOfAll es, x.isFinite = true) →
    allExchanged es = es
  | [], _ => rfl
  | e :: es, h => by
    rw [floatsOfAll, List.forall_mem_append] at h
    rw [allExchanged, exchanged_of_finite e h.1, allExchanged_of_finite es h.2]

end

end Expr

/-! ## Kernels -/

/-- What an argument is, as far as exchange text tells it. -/
def ArgumentKind.exchanged : ArgumentKind → ArgumentKind
  | .global shape => .global (Expr.allExchanged shape)
  | .image shape => .image (Expr.allExchanged shape)
  | .scalar approximately => .scalar approximately

/-- An argument as far as exchange text tells it. -/
def Argument.exchanged (arg : Argument) : Argument := { arg with kind := arg.kind.exchanged }

/-- An instruction as far as exchange text tells it. -/
def Instruction.exchanged (insn : Instruction) : Instruction :=
  { insn with assignee := insn.assignee.exchanged, expression := insn.expression.exchanged }

/-- The floating-point literals of an instruction. -/
def Instruction.floats (insn : Instruction) : List Binary64 :=
  insn.assignee.floats ++ insn.expression.floats

/-- The text of an argument tells it but for the signs of infinite literals. -/
theorem Argument.exchanged_of_content {a b : Argument}
    (ha : ∀ x ∈ Expr.bindersOfAll a.kind.shape, x.IsPlain)
    (hb : ∀ x ∈ Expr.bindersOfAll b.kind.shape, x.IsPlain)
    (h : a.toJson.content = b.toJson.content) : a.exchanged = b.exchanged := by
  obtain ⟨name, dtype, kind⟩ := a
  obtain ⟨name', dtype', kind'⟩ := b
  cases kind <;> cases kind' <;>
    simp [toJson, variant_inj, object_cons_inj, string_inj, int_inj] at h
  all_goals
    obtain ⟨rfl, hdtype, htold⟩ := h
    obtain rfl := Dtype.name_injective hdtype
  · exact congrArg (fun shape => (⟨name, dtype, .global shape⟩ : Argument))
      (Expr.allExchanged_of_content _ _ ha hb htold)
  · exact congrArg (fun shape => (⟨name, dtype, .image shape⟩ : Argument))
      (Expr.allExchanged_of_content _ _ ha hb htold)
  · rw [htold]

/-- The text of an instruction tells it but for the signs of infinite literals. -/
theorem Instruction.exchanged_of_content {a b : Instruction} (ha : ∀ x ∈ a.binders, x.IsPlain)
    (hb : ∀ x ∈ b.binders, x.IsPlain) (h : a.toJson.content = b.toJson.content) :
    a.exchanged = b.exchanged := by
  simp only [toJson, object_cons_inj, string_inj] at h
  obtain ⟨-, hid, -, hassignee, -, hexpression, -, hdeps, -, hforced, -, hboostable, -, hinto,
    -⟩ := h
  rw [binders, List.forall_mem_append] at ha hb
  have hboostable := tells_bool.option (fun _ => nofun) _ _ hboostable
  have hinto := tells_nameSet.option (fun _ => nofun) _ _ hinto
  rw [Option.map_id] at hboostable hinto
  have hassignee := Expr.exchanged_of_content _ _ ha.1 hb.1 hassignee
  have hexpression := Expr.exchanged_of_content _ _ ha.2 hb.2 hexpression
  cases a
  cases b
  simp only [exchanged, Instruction.mk.injEq]
  exact ⟨hid, hassignee, hexpression, tells_nameSet _ _ hdeps, tells_nameSet _ _ hforced,
    hboostable, hinto⟩

namespace Kernel

/-- A kernel as far as exchange text tells it: every infinite literal is positive infinity. -/
def exchanged (k : Kernel) : Kernel :=
  { k with
    instructions := k.instructions.map Instruction.exchanged
    args := k.args.map Argument.exchanged }

/-- The floating-point literals of a kernel. -/
def floats (k : Kernel) : List Binary64 :=
  k.instructions.flatMap Instruction.floats ++
    k.args.flatMap fun arg => Expr.floatsOfAll arg.kind.shape

/-- What the reductions of a kernel bind. -/
def binders (k : Kernel) : List Binder :=
  k.instructions.flatMap Instruction.binders ++
    k.args.flatMap fun arg => Expr.bindersOfAll arg.kind.shape

variable {k k' : Kernel}

/-- The text of a kernel tells it but for the signs of infinite literals. -/
theorem exchanged_of_content (hk : ∀ b ∈ k.binders, b.IsPlain) (hk' : ∀ b ∈ k'.binders, b.IsPlain)
    (h : k.toJson.content = k'.toJson.content) : k.exchanged = k'.exchanged := by
  simp only [toJson, object_cons_inj, string_inj] at h
  obtain ⟨-, hname, -, hdomain, -, hinsns, -, hargs, -, htemporaries, -, htags, -, hdevice, -,
    hschedule, -⟩ := h
  simp only [binders, List.forall_mem_append, List.forall_mem_flatMap] at hk hk'
  have hinsns :
      k.instructions.map Instruction.exchanged = k'.instructions.map Instruction.exchanged :=
    map_eq_of_content
      (fun a ha b hb => Instruction.exchanged_of_content (hk.1 a ha) (hk'.1 b hb)) hinsns
  have hargs : k.args.map Argument.exchanged = k'.args.map Argument.exchanged :=
    map_eq_of_content
      (fun a ha b hb => Argument.exchanged_of_content (hk.2 a ha) (hk'.2 b hb)) hargs
  have hschedule := tells_scheduleItem.array.option (fun _ => nofun) _ _ hschedule
  simp only [List.map_id_fun, Option.map_id_fun] at hschedule
  cases k
  cases k'
  simp only [exchanged, Kernel.mk.injEq]
  exact ⟨hname, tells_polyhedron _ _ hdomain, hinsns, hargs,
    tells_temporary.map_id _ _ htemporaries, tells_tag.map_id _ _ htags, tells_device _ _ hdevice,
    hschedule⟩

/-- The text of a kernel does not tell the signs of infinite literals. -/
theorem text_exchanged (k : Kernel) : k.exchanged.toJson.text = k.toJson.text := by
  have hinsn (insn : Instruction) : insn.exchanged.toJson.text = insn.toJson.text := by
    simp [Instruction.exchanged, Instruction.toJson, Json.text, memberTexts, Expr.text_exchanged]
  have harg (arg : Argument) : arg.exchanged.toJson.text = arg.toJson.text := by
    obtain ⟨name, dtype, kind⟩ := arg
    cases kind <;> simp [Argument.exchanged, ArgumentKind.exchanged, Argument.toJson, variant,
      Json.text, memberTexts, Expr.texts_allExchanged]
  simp only [exchanged, toJson, Json.text, memberTexts, itemTexts_map_map hinsn,
    itemTexts_map_map harg]

/-- Kernels with plain binders have one text if they are one kernel but for the signs of infinite
literals, and only then. -/
theorem text_eq_iff_exchanged (hk : ∀ b ∈ k.binders, b.IsPlain)
    (hk' : ∀ b ∈ k'.binders, b.IsPlain) :
    k.toJson.text = k'.toJson.text ↔ k.exchanged = k'.exchanged := by
  constructor
  · exact fun h => exchanged_of_content hk hk' (content_eq_of_text_eq h)
  · intro h
    rw [← text_exchanged, h, text_exchanged]

theorem floats_exchanged (k : Kernel) : k.exchanged.floats = k.floats.map Binary64.exchanged := by
  have hinsn (insn : Instruction) : insn.exchanged.floats = insn.floats.map Binary64.exchanged := by
    simp only [Instruction.floats, Instruction.exchanged, Expr.floats_exchanged, List.map_append]
  have harg (arg : Argument) : Expr.floatsOfAll arg.exchanged.kind.shape =
      (Expr.floatsOfAll arg.kind.shape).map Binary64.exchanged := by
    obtain ⟨name, dtype, kind⟩ := arg
    cases kind with
    | global shape | image shape => exact Expr.floatsOfAll_exchanged shape
    | scalar approximately => rfl
  simp only [floats, exchanged, List.flatMap_map, List.map_append, List.map_flatMap, hinsn, harg]

/-- A kernel without infinite literals is told. -/
theorem exchanged_of_finite (h : ∀ x ∈ k.floats, x.isFinite = true) : k.exchanged = k := by
  simp only [floats, Instruction.floats, List.forall_mem_append, List.forall_mem_flatMap] at h
  have hinsns : k.instructions.map Instruction.exchanged = k.instructions := by
    refine (List.map_congr_left fun insn hinsn => ?_).trans (List.map_id _)
    rw [Instruction.exchanged, Expr.exchanged_of_finite _ (h.1 insn hinsn).1,
      Expr.exchanged_of_finite _ (h.1 insn hinsn).2, id]
  have hargs : k.args.map Argument.exchanged = k.args := by
    refine (List.map_congr_left fun arg harg => ?_).trans (List.map_id _)
    have hfinite := h.2 arg harg
    obtain ⟨name, dtype, kind⟩ := arg
    cases kind with
    | global shape | image shape =>
      simp only [Argument.exchanged, ArgumentKind.exchanged,
        Expr.allExchanged_of_finite shape hfinite, id]
    | scalar approximately => rfl
  rw [exchanged, hinsns, hargs]

/-- What tells of one kernel without infinite literals is that kernel. -/
theorem eq_of_exchanged_eq (h : ∀ x ∈ k.floats, x.isFinite = true)
    (heq : k.exchanged = k'.exchanged) : k = k' := by
  have hfloats : k.floats.map Binary64.exchanged = k'.floats.map Binary64.exchanged := by
    rw [← floats_exchanged, heq, floats_exchanged]
  have h' : ∀ x ∈ k'.floats, x.isFinite = true := by
    intro x hx
    obtain ⟨y, hy, hxy⟩ := List.mem_map.mp (hfloats ▸ List.mem_map_of_mem hx)
    rw [Binary64.exchanged_of_isFinite (h y hy)] at hxy
    rw [← Binary64.isFinite_exchanged, ← hxy, h y hy]
  rw [← exchanged_of_finite h, heq, exchanged_of_finite h']

end Kernel

end LoopKernel
