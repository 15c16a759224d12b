import LoopKernel.Proofs.Source.Parsing
import Mathlib.Data.List.Forall2
import Mathlib.Tactic.ByContra

/-!
# Parsers that disregard places and empty lines

Two cursors are alike if the same tokens are left once runs of line ends are taken as one and those
at the end are dropped. A parser that takes line ends nowhere gives the same from cursors that are
alike, up to places. What it may call at a level of nesting is bounded by the tokens that are left,
of which alike cursors can have different numbers; so the bounds of both runs are kept apart.
-/

namespace LoopKernel.Source

/-! ## Tokens without layout -/

/-- Tokens with a line end in front, if one is due. -/
def endLine : List Token → List Token
  | [] => []
  | .newline :: rest => .newline :: rest
  | ts => .newline :: ts

/-- Tokens with every run of line ends taken as one, and with none at the end. -/
def tidy : List Token → List Token
  | [] => []
  | .newline :: rest => endLine (tidy rest)
  | t :: rest => t :: tidy rest

/-- Whether a token ends a line. -/
def endsLine (t : Token) : Bool := t == .newline

theorem tidy_cons {t : Token} (h : t ≠ .newline) (ts : List Token) :
    tidy (t :: ts) = t :: tidy ts := by
  cases t <;> first | rfl | exact absurd rfl h

theorem dropWhile_endLine (ts : List Token) :
    (endLine ts).dropWhile endsLine = ts.dropWhile endsLine := by
  unfold endLine
  split <;> rfl

/-- After a line end at the front no other one follows. -/
theorem dropWhile_tidy (ts : List Token) :
    (tidy ts).dropWhile endsLine = tidy (ts.dropWhile endsLine) := by
  induction ts with
  | nil => rfl
  | cons t rest ih =>
    by_cases ht : t = .newline
    · rw [ht, tidy, dropWhile_endLine, ih]
      rfl
    · have hend : endsLine t = false := by simpa [endsLine] using ht
      rw [tidy_cons ht, List.dropWhile_cons, List.dropWhile_cons, hend]
      exact (tidy_cons ht rest).symm

theorem endLine_head {ts rest : List Token} {t : Token} (h : endLine ts = t :: rest) :
    t = .newline := by
  unfold endLine at h
  split at h <;> cases h <;> rfl

/-! ## Cursors -/

namespace Cursor

/-- The tokens that are left. -/
def tokens (c : Cursor) : List Token := c.rest.map Lexeme.token

/-- Whether the same tokens are left, layout disregarded. -/
def Alike (c c' : Cursor) : Prop := tidy c.tokens = tidy c'.tokens

/-- Whether nothing is left of the line. -/
def AtLineEnd (c : Cursor) : Prop := ∀ l ∈ c.rest.head?, l.token = .newline

/-- The cursor after the line ends at the front. -/
def skipLines (c : Cursor) : List Lexeme := c.rest.dropWhile fun l => endsLine l.token

variable {c c' : Cursor}

theorem not_atLineEnd_cons {l : Lexeme} {rest : List Lexeme} {last : Span}
    (h : ¬ AtLineEnd ⟨last, l :: rest⟩) : l.token ≠ .newline := by
  intro hl
  refine h fun l' hl' => ?_
  cases hl'
  exact hl

theorem AtLineEnd.tidy_tokens (h : c.AtLineEnd) :
    tidy c.tokens = [] ∨ ∃ rest, tidy c.tokens = .newline :: rest := by
  obtain ⟨last, _ | ⟨l, rest⟩⟩ := c
  · exact .inl rfl
  · have hl : l.token = .newline := h l rfl
    rw [tokens, List.map_cons, hl, tidy]
    rcases htidy : endLine (tidy (rest.map Lexeme.token)) with _ | ⟨t, ts⟩
    · exact .inl rfl
    · exact .inr ⟨ts, by rw [endLine_head htidy]⟩

/-- Where nothing is left of the line, nothing is left of it in alike cursors. -/
theorem Alike.atLineEnd (h : c.Alike c') (hc : c.AtLineEnd) : c'.AtLineEnd := by
  by_contra hc'
  obtain ⟨last, _ | ⟨l, rest⟩⟩ := c'
  · exact hc' (by simp [AtLineEnd])
  · have hl := not_atLineEnd_cons hc'
    have htidy : tidy c.tokens = l.token :: tidy (rest.map Lexeme.token) :=
      h.trans (tidy_cons hl _)
    rcases hc.tidy_tokens with hnil | ⟨_, hcons⟩
    · rw [hnil] at htidy
      cases htidy
    · rw [hcons] at htidy
      injection htidy with hhead
      exact hl hhead.symm

/-- Alike cursors are at the end of a line both, or have the same token in front. -/
theorem Alike.fronts (h : c.Alike c') : (c.AtLineEnd ∧ c'.AtLineEnd) ∨
    ∃ l l' rest rest', c.rest = l :: rest ∧ c'.rest = l' :: rest' ∧ l.token = l'.token ∧
      l.token ≠ .newline ∧ ∀ last last', Alike ⟨last, rest⟩ ⟨last', rest'⟩ := by
  by_cases hc : c.AtLineEnd
  · exact .inl ⟨hc, h.atLineEnd hc⟩
  · have hc' : ¬ c'.AtLineEnd := fun hc' => hc (Alike.atLineEnd h.symm hc')
    obtain ⟨last, _ | ⟨l, rest⟩⟩ := c
    · exact absurd (by simp [AtLineEnd]) hc
    obtain ⟨last', _ | ⟨l', rest'⟩⟩ := c'
    · exact absurd (by simp [AtLineEnd]) hc'
    have hl := not_atLineEnd_cons hc
    have htidy : l.token :: tidy (rest.map Lexeme.token) =
        l'.token :: tidy (rest'.map Lexeme.token) :=
      (tidy_cons hl _).symm.trans (h.trans (tidy_cons (not_atLineEnd_cons hc') _))
    injection htidy with hhead hrest
    exact .inr ⟨l, l', rest, rest', rfl, rfl, hhead, hl, fun _ _ => hrest⟩

theorem tokens_skipLines (c : Cursor) (last : Span) :
    tokens ⟨last, c.skipLines⟩ = c.tokens.dropWhile endsLine := by
  rw [tokens, skipLines, tokens, List.dropWhile_map]
  rfl

/-- Without the line ends at the front, alike cursors are still alike. -/
theorem Alike.skipLines (h : c.Alike c') (last last' : Span) :
    Alike ⟨last, c.skipLines⟩ ⟨last', c'.skipLines⟩ := by
  rw [Alike, tokens_skipLines, tokens_skipLines, ← dropWhile_tidy, ← dropWhile_tidy, h]

/-- After all line ends are skipped, the end of a line is the end of the tokens. -/
theorem skipLines_eq_nil {last : Span} (h : AtLineEnd ⟨last, c.skipLines⟩) : c.skipLines = [] := by
  rcases hrest : c.skipLines with _ | ⟨l, rest⟩
  · rfl
  · rw [hrest] at h
    have hhead := List.head?_dropWhile_not (fun l : Lexeme => endsLine l.token) c.rest
    rw [show c.rest.dropWhile _ = _ from hrest] at hhead
    simp [endsLine, h l rfl] at hhead

end Cursor

/-! ## Parsers -/

namespace Parser

variable {α β γ δ : Type} {m n k : Nat} {p q : Parser α} {v : α → γ} {w : β → δ}

/-- What two runs from two cursors give: values with the same view and at least `k` tokens taken
in both, or the same misfit. -/
inductive Outcome (v : α → γ) (k : Nat) (c c' : Cursor) :
    Except Misfit (α × Cursor) → Except Misfit (α × Cursor) → Prop
  | ok {a a' : α} {d d' : Cursor} (hview : v a = v a') (halike : d.Alike d')
      (hle : d.rest.length + k ≤ c.rest.length) (hle' : d'.rest.length + k ≤ c'.rest.length) :
      Outcome v k c c' (.ok (a, d)) (.ok (a', d'))
  | mismatch : Outcome v k c c' (.error .mismatch) (.error .mismatch)
  | unknownTag {name : String} {span span' : Span} (hrest : c.rest ≠ []) (hrest' : c'.rest ≠ []) :
      Outcome v k c c' (.error (.unknownTag name span)) (.error (.unknownTag name span'))

namespace Outcome

variable {c c' : Cursor} {r r' s s' : Except Misfit (α × Cursor)}

theorem weaken (h : Outcome v 1 c c' r r') : Outcome v 0 c c' r r' := by
  cases h with
  | ok hview halike hle hle' => exact .ok hview halike (by omega) (by omega)
  | mismatch => exact .mismatch
  | unknownTag hrest hrest' => exact .unknownTag hrest hrest'

/-- The same, said of earlier cursors. -/
theorem earlier {d e : Cursor} {j : Nat} (h : Outcome v j d e r r')
    (hle : d.rest.length + k ≤ c.rest.length) (hle' : e.rest.length + k ≤ c'.rest.length) :
    Outcome v (k + j) c c' r r' := by
  cases h with
  | ok hview halike hd hd' => exact .ok hview halike (by omega) (by omega)
  | mismatch => exact .mismatch
  | unknownTag hrest hrest' =>
    have hpos := List.length_pos_of_ne_nil hrest
    have hpos' := List.length_pos_of_ne_nil hrest'
    exact .unknownTag (List.ne_nil_of_length_pos (by omega)) (List.ne_nil_of_length_pos (by omega))

theorem bind {j : Nat} {f g : α × Cursor → Except Misfit (β × Cursor)} (h : Outcome v k c c' r r')
    (hf : ∀ a a' d d', r = .ok (a, d) → v a = v a' → d.Alike d' →
      d.rest.length + k ≤ c.rest.length → d'.rest.length + k ≤ c'.rest.length →
      Outcome w j d d' (f (a, d)) (g (a', d'))) :
    Outcome w (k + j) c c' (r >>= f) (r' >>= g) := by
  cases h with
  | ok hview halike hle hle' => exact (hf _ _ _ _ rfl hview halike hle hle').earlier hle hle'
  | mismatch => exact .mismatch
  | unknownTag hrest hrest' => exact .unknownTag hrest hrest'

/-- Where no token is left in one of the runs, one that is to be taken fits in none. -/
theorem of_empty (h : Outcome v 1 c c' r r') (hrest : c.rest = [] ∨ c'.rest = []) :
    r = .error .mismatch ∧ r' = .error .mismatch := by
  cases h with
  | ok _ _ hle hle' =>
    rcases hrest with hnil | hnil
    · rw [hnil, List.length_nil] at hle
      omega
    · rw [hnil, List.length_nil] at hle'
      omega
  | mismatch => exact ⟨rfl, rfl⟩
  | unknownTag hne hne' => exact (hrest.elim hne hne').elim

end Outcome

/-- Whether two parsers give the same view from alike cursors with at most `m` and `n` tokens, and
take at least `k` tokens. -/
def Alike (m n k : Nat) (p q : Parser α) (v : α → γ) : Prop :=
  ∀ c c' : Cursor, c.rest.length ≤ m → c'.rest.length ≤ n → c.Alike c' →
    Outcome v k c c' (p c) (q c')

theorem Alike.mono {m' n' : Nat} (h : Alike m n k p q v) (hm : m' ≤ m) (hn : n' ≤ n) :
    Alike m' n' k p q v :=
  fun c c' hc hc' => h c c' (Nat.le_trans hc hm) (Nat.le_trans hc' hn)

theorem Alike.lower (h : Alike (m + 1) (n + 1) k p q v) : Alike m n k p q v :=
  h.mono (Nat.le_succ m) (Nat.le_succ n)

theorem Alike.weaken (h : Alike m n 1 p q v) : Alike m n 0 p q v :=
  fun c c' hc hc' halike => (h c c' hc hc' halike).weaken

theorem alike_pure {a a' : α} (h : v a = v a') : Alike m n 0 (pure a) (pure a') v :=
  fun _ _ _ _ halike => .ok h halike (Nat.le_refl _) (Nat.le_refl _)

theorem alike_mismatch : Alike m n k (mismatch : Parser α) mismatch v := fun _ _ _ _ _ => .mismatch

/-- After a parser that takes `k` tokens, that many fewer are left. -/
private theorem alike_bind {i j : Nat} {f g : α → Parser β} (hp : Alike (m + i) (n + i) k p q v)
    (hi : i ≤ k)
    (hf : ∀ a a', (∃ c d, p c = .ok (a, d)) → v a = v a' → Alike m n j (f a) (g a') w) :
    Alike (m + i) (n + i) (k + j) (p >>= f) (q >>= g) w := fun c c' hc hc' halike =>
  (hp c c' hc hc' halike).bind fun a a' d d' hgives hview halike hle hle' =>
    hf a a' ⟨c, d, hgives⟩ hview d d' (by omega) (by omega) halike

/-- What follows may depend on the value being one that the first parser can give. -/
theorem Alike.bind_of_gives {f g : α → Parser β} (hp : Alike m n 0 p q v)
    (hf : ∀ a a', (∃ c d, p c = .ok (a, d)) → v a = v a' → Alike m n k (f a) (g a') w) :
    Alike m n k (p >>= f) (q >>= g) w := by
  have h := alike_bind (i := 0) hp (Nat.le_refl 0) hf
  rwa [Nat.zero_add] at h

theorem Alike.bind {f g : α → Parser β} (hp : Alike m n 0 p q v)
    (hf : ∀ a a', v a = v a' → Alike m n k (f a) (g a') w) :
    Alike m n k (p >>= f) (q >>= g) w :=
  hp.bind_of_gives fun a a' _ => hf a a'

theorem Alike.followed {f g : α → Parser β} (hp : Alike m n 1 p q v)
    (hf : ∀ a a', v a = v a' → Alike m n 0 (f a) (g a') w) :
    Alike m n 1 (p >>= f) (q >>= g) w :=
  alike_bind (i := 0) hp (Nat.zero_le 1) fun a a' _ => hf a a'

/-- What follows a first token is at a lower level of nesting. -/
theorem Alike.nested {f g : α → Parser β} (hp : Alike (m + 1) (n + 1) 1 p q v)
    (hf : ∀ a a', v a = v a' → Alike m n 0 (f a) (g a') w) :
    Alike (m + 1) (n + 1) 1 (p >>= f) (q >>= g) w :=
  alike_bind hp (Nat.le_refl 1) fun a a' _ => hf a a'

theorem Alike.orElse {p' q' : Parser α} (h : Alike m n k p q v) (h' : Alike m n k p' q' v) :
    Alike m n k (orElse p p') (orElse q q') v := by
  intro c c' hc hc' halike
  have hfirst := h c c' hc hc' halike
  have hsecond := h' c c' hc hc' halike
  unfold Parser.orElse
  generalize p c = r at hfirst ⊢
  generalize q c' = r' at hfirst ⊢
  cases hfirst with
  | ok hview halike hle hle' => exact .ok hview halike hle hle'
  | mismatch => exact hsecond
  | unknownTag hrest hrest' => exact .unknownTag hrest hrest'

theorem alike_choice {ps qs : List (Parser α)}
    (h : List.Forall₂ (fun p q => Alike m n k p q v) ps qs) :
    Alike m n k (choice ps) (choice qs) v := by
  induction h with
  | nil => exact alike_mismatch
  | cons h _ ih => exact h.orElse ih

theorem Alike.optional (h : Alike m n 0 p q v) :
    Alike m n 0 (optional p) (optional q) (Option.map v) :=
  Alike.orElse (h.bind fun _ _ hview => alike_pure (congrArg some hview)) (alike_pure rfl)

/-- Taking a token, whatever its place, but no line end. -/
theorem alike_take {accept : Token → Span → Option α} (hnewline : ∀ s, accept .newline s = none)
    (hview : ∀ t s s', (accept t s).map v = (accept t s').map v) :
    Alike m n 1 (take accept) (take accept) v := by
  rintro ⟨last, rest⟩ ⟨last', rest'⟩ - - halike
  rcases halike.fronts with ⟨hc, hc'⟩ | ⟨l, l', rest, rest', rfl, rfl, htoken, -, hrest⟩
  · rw [take_of_reject fun l hl => hc l hl ▸ hnewline l.span,
      take_of_reject fun l hl => hc' l hl ▸ hnewline l.span]
    exact .mismatch
  · have hsame := hview l.token l.span l'.span
    unfold take
    dsimp only
    rw [← htoken]
    cases h : accept l.token l.span with
    | none =>
      rw [h] at hsame
      rw [Option.map_eq_none_iff.mp hsame.symm]
      exact .mismatch
    | some a =>
      rw [h] at hsame
      obtain ⟨a', ha', hview⟩ := Option.map_eq_some_iff.mp hsame.symm
      rw [ha']
      exact .ok hview.symm (hrest _ _) (Nat.le_refl _) (Nat.le_refl _)

theorem alike_token {t : Token} (ht : t ≠ .newline) :
    Alike m n 1 (token t) (token t) fun _ => () := by
  refine alike_take (fun s => if_neg ht.symm) fun t' s s' => ?_
  by_cases h : t' = t
  · rw [if_pos h, if_pos h]
    rfl
  · rw [if_neg h, if_neg h]

theorem alike_symbol (s : Symbol) : Alike m n 1 (symbol s) (symbol s) fun _ => () :=
  alike_token (by simp)

theorem alike_keyword (k : Keyword) : Alike m n 1 (keyword k) (keyword k) fun _ => () :=
  alike_token (by simp)

private theorem manyWithin_of_mismatch {c : Cursor} (h : p c = .error .mismatch)
    (limit : List Lexeme) : manyWithin p limit c = .ok ([], c) := by
  cases limit with
  | nil => rfl
  | cons _ limit =>
    rw [manyWithin, bind_of_ok (optional_of_mismatch h)]
    rfl

private theorem manyWithin_of_ok {c d : Cursor} {a : α} (h : p c = .ok (a, d)) (l : Lexeme)
    (limit : List Lexeme) :
    manyWithin p (l :: limit) c = (manyWithin p limit >>= fun as => pure (a :: as)) d := by
  rw [manyWithin, bind_of_ok (optional_of_ok h)]

private theorem manyWithin_of_unknownTag {c : Cursor} {name : String} {span : Span}
    (h : p c = .error (.unknownTag name span)) (l : Lexeme) (limit : List Lexeme) :
    manyWithin p (l :: limit) c = .error (.unknownTag name span) := by
  have hoptional : optional p c = .error (.unknownTag name span) := by
    have hsome : (p >>= fun a => pure (some a)) c = .error (.unknownTag name span) := by
      change (p c >>= fun r => pure (some r.1, r.2)) = _
      rw [h]
      rfl
    unfold optional orElse
    rw [hsome]
  rw [manyWithin]
  change optional p c >>= _ = _
  rw [hoptional]
  rfl

private theorem alike_manyWithin (h : Alike m n 1 p q v) {limit limit' : List Lexeme}
    (hm : m ≤ limit.length) (hn : n ≤ limit'.length) :
    Alike m n 0 (manyWithin p limit) (manyWithin q limit') (List.map v) := by
  induction limit generalizing m n limit' with
  | nil =>
    intro c c' hc hc' halike
    have hnil : c.rest = [] := List.eq_nil_of_length_eq_zero (by simp at hm; omega)
    obtain ⟨-, hq⟩ := (h c c' hc hc' halike).of_empty (.inl hnil)
    rw [manyWithin, manyWithin_of_mismatch hq]
    exact .ok rfl halike (Nat.le_refl _) (Nat.le_refl _)
  | cons l limit ih =>
    cases limit' with
    | nil =>
      intro c c' hc hc' halike
      have hnil : c'.rest = [] := List.eq_nil_of_length_eq_zero (by simp at hn; omega)
      obtain ⟨hp, -⟩ := (h c c' hc hc' halike).of_empty (.inr hnil)
      rw [manyWithin_of_mismatch hp]
      exact .ok rfl halike (Nat.le_refl _) (Nat.le_refl _)
    | cons l' limit' =>
      intro c c' hc hc' halike
      rw [List.length_cons] at hm hn
      have hfirst := h c c' hc hc' halike
      generalize hr : p c = r at hfirst
      generalize hr' : q c' = r' at hfirst
      cases hfirst with
      | @ok a a' d d' hview halike hle hle' =>
        rw [manyWithin_of_ok hr, manyWithin_of_ok hr']
        have hrest : Alike (m - 1) (n - 1) 0 (manyWithin p limit >>= fun as => pure (a :: as))
            (manyWithin q limit' >>= fun as => pure (a' :: as)) (List.map v) :=
          (ih (h.mono (Nat.sub_le m 1) (Nat.sub_le n 1)) (by omega) (by omega)).bind
            fun _ _ has => alike_pure (congrArg₂ List.cons hview has)
        exact ((hrest d d' (by omega) (by omega) halike).earlier hle hle').weaken
      | mismatch =>
        rw [manyWithin_of_mismatch hr, manyWithin_of_mismatch hr']
        exact .ok rfl halike (Nat.le_refl _) (Nat.le_refl _)
      | unknownTag hrest hrest' =>
        rw [manyWithin_of_unknownTag hr, manyWithin_of_unknownTag hr']
        exact .unknownTag hrest hrest'

/-- Repetitions of what takes at least one token. -/
theorem Alike.many (h : Alike m n 1 p q v) : Alike m n 0 (many p) (many q) (List.map v) :=
  fun c c' hc hc' halike =>
    alike_manyWithin (h.mono hc hc') (Nat.le_refl _) (Nat.le_refl _) c c' (Nat.le_refl _)
      (Nat.le_refl _) halike

theorem Alike.many1 (h : Alike m n 1 p q v) : Alike m n 1 (many1 p) (many1 q) (List.map v) :=
  h.followed fun _ _ hfirst => h.many.bind fun _ _ hrest =>
    alike_pure (congrArg₂ List.cons hfirst hrest)

/-- A list whose items after the first one are taken together with the separators before them. -/
theorem Alike.separated1_of_item {s s' : Parser β} (h : Alike m n 1 p q v)
    (hitem : Alike m n 1 (s >>= fun _ => p) (s' >>= fun _ => q) v) :
    Alike m n 1 (separated1 p s) (separated1 q s') (List.map v) :=
  h.followed fun _ _ hfirst => hitem.many.bind fun _ _ hrest =>
    alike_pure (congrArg₂ List.cons hfirst hrest)

theorem Alike.separated_of_item {s s' : Parser β} (h : Alike m n 1 p q v)
    (hitem : Alike m n 1 (s >>= fun _ => p) (s' >>= fun _ => q) v) :
    Alike m n 0 (separated p s) (separated q s') (List.map v) :=
  (h.separated1_of_item hitem).weaken.optional.bind fun found found' hfound => alike_pure <| by
    cases found <;> cases found' <;> first | rfl | exact Option.some.inj hfound | cases hfound

theorem Alike.separated1 {s s' : Parser β} (h : Alike m n 1 p q v) (hs : Alike m n 1 s s' w) :
    Alike m n 1 (separated1 p s) (separated1 q s') (List.map v) :=
  h.separated1_of_item (hs.followed fun _ _ _ => h.weaken)

theorem Alike.separated {s s' : Parser β} (h : Alike m n 1 p q v) (hs : Alike m n 1 s s' w) :
    Alike m n 0 (separated p s) (separated q s') (List.map v) :=
  h.separated_of_item (hs.followed fun _ _ _ => h.weaken)

theorem Alike.between {opening closing : Symbol} (h : Alike m n 0 p q v) :
    Alike (m + 1) (n + 1) 1 (between opening closing p) (between opening closing q) v :=
  (alike_symbol opening).nested fun _ _ _ => h.bind fun _ _ hview =>
    (alike_symbol closing).weaken.bind fun _ _ _ => alike_pure hview

theorem Alike.spanned (h : Alike m n 1 p q v) :
    Alike m n 1 (spanned p) (spanned q) fun r => v r.1 := by
  rintro ⟨last, rest⟩ ⟨last', rest'⟩ hc hc' halike
  have hrun := h _ _ hc hc' halike
  by_cases hempty : rest = [] ∨ rest' = []
  · obtain ⟨hp, hq⟩ := hrun.of_empty hempty
    rw [spanned_of_mismatch hp, spanned_of_mismatch hq]
    exact .mismatch
  · obtain ⟨hrest, hrest'⟩ := not_or.mp hempty
    obtain ⟨l, rest, rfl⟩ := List.exists_cons_of_ne_nil hrest
    obtain ⟨l', rest', rfl⟩ := List.exists_cons_of_ne_nil hrest'
    unfold Parser.spanned
    dsimp only
    generalize p _ = r at hrun ⊢
    generalize q _ = r' at hrun ⊢
    cases hrun with
    | ok hview halike hle hle' => exact .ok hview halike hle hle'
    | mismatch => exact .mismatch
    | unknownTag hrest hrest' => exact .unknownTag hrest hrest'

theorem Alike.placed {f g : α × Span → β} (h : Alike m n 1 p q v)
    (hfg : ∀ a a' s s', v a = v a' → w (f (a, s)) = w (g (a', s'))) :
    Alike m n 1 (Parser.spanned p >>= fun r => pure (f r))
      (Parser.spanned q >>= fun r => pure (g r)) w :=
  h.spanned.followed fun r r' hview => alike_pure (hfg r.1 r'.1 r.2 r'.2 hview)

/-! ## Line ends -/

/-- All line ends at the front are taken. -/
theorem many_newline (c : Cursor) :
    ∃ spans last, many (token .newline) c = .ok (spans, ⟨last, c.skipLines⟩) := by
  have hsteps (rest : List Lexeme) (last : Span) :
      ∃ spans last', Steps (token .newline) ⟨last, rest⟩ spans
        ⟨last', rest.dropWhile fun l => endsLine l.token⟩ := by
    induction rest generalizing last with
    | nil => exact ⟨[], last, .stop rfl⟩
    | cons l rest ih =>
      rw [List.dropWhile_cons]
      by_cases hl : l.token = .newline
      · obtain ⟨spans, last', h⟩ := ih l.span
        rw [if_pos (by simp [endsLine, hl])]
        exact ⟨l.span :: spans, last', .step (token_of_eq hl) (Nat.lt_succ_self _) h⟩
      · rw [if_neg (by simpa [endsLine] using hl)]
        exact ⟨[], last, .stop (token_of_ne fun l' hl' => by cases hl'; exact hl)⟩
  obtain ⟨spans, last, h⟩ := hsteps c.rest c.last
  exact ⟨spans, last, many_of_steps h⟩

/-- After at least one line end, a parser is run where the line ends are skipped. At the end of
the tokens, where there is no line end, neither fits. -/
theorem many1_newline_bind {c : Cursor} (h : c.AtLineEnd)
    (hp : ∀ last, p ⟨last, []⟩ = .error .mismatch) :
    ∃ last, (many1 (token .newline) >>= fun _ => p) c = p ⟨last, c.skipLines⟩ := by
  obtain ⟨last, _ | ⟨l, rest⟩⟩ := c
  · exact ⟨last, (hp last).symm⟩
  · have hl : l.token = .newline := h l rfl
    obtain ⟨spans, last', hmany⟩ := many_newline ⟨l.span, rest⟩
    have hmany1 : many1 (token .newline) ⟨last, l :: rest⟩ =
        .ok (l.span :: spans, ⟨last', Cursor.skipLines ⟨l.span, rest⟩⟩) := by
      unfold many1
      rw [bind_of_ok (token_of_eq hl), bind_of_ok hmany]
      rfl
    have hskip : Cursor.skipLines ⟨last, l :: rest⟩ = Cursor.skipLines ⟨l.span, rest⟩ := by
      rw [Cursor.skipLines, List.dropWhile_cons, if_pos (by simp [endsLine, hl])]
      rfl
    exact ⟨last', by rw [bind_of_ok hmany1, hskip]⟩

theorem many1_newline_bind_of_not_atLineEnd {c : Cursor} (h : ¬ c.AtLineEnd) :
    (many1 (token .newline) >>= fun _ => p) c = .error .mismatch := by
  obtain ⟨last, _ | ⟨l, rest⟩⟩ := c
  · exact absurd (by simp [Cursor.AtLineEnd]) h
  · refine bind_of_mismatch (bind_of_mismatch (token_of_ne fun l' hl' => ?_))
    cases hl'
    exact Cursor.not_atLineEnd_cons h

theorem length_skipLines_le (c : Cursor) : c.skipLines.length ≤ c.rest.length :=
  (List.dropWhile_sublist _).length_le

/-- What stands on a line of its own after the one before. -/
theorem Alike.onNextLine (h : Alike m n 1 p q v) (hp : ∀ last, p ⟨last, []⟩ = .error .mismatch)
    (hq : ∀ last, q ⟨last, []⟩ = .error .mismatch) :
    Alike m n 1 (Parser.many1 (token .newline) >>= fun _ => p)
      (Parser.many1 (token .newline) >>= fun _ => q) v := by
  intro c c' hc hc' halike
  by_cases hend : c.AtLineEnd
  · obtain ⟨last, hrun⟩ := many1_newline_bind hend hp
    obtain ⟨last', hrun'⟩ := many1_newline_bind (halike.atLineEnd hend) hq
    have hle := length_skipLines_le c
    have hle' := length_skipLines_le c'
    rw [hrun, hrun']
    exact (h ⟨last, c.skipLines⟩ ⟨last', c'.skipLines⟩ (Nat.le_trans hle hc)
      (Nat.le_trans hle' hc') (halike.skipLines last last')).earlier (k := 0) hle hle'
  · have hend' : ¬ c'.AtLineEnd := fun hc' => hend (Cursor.Alike.atLineEnd halike.symm hc')
    rw [many1_newline_bind_of_not_atLineEnd hend, many1_newline_bind_of_not_atLineEnd hend']
    exact .mismatch

end Parser

end LoopKernel.Source
