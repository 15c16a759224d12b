import LoopKernel.Proofs.Source.Parsing
import Mathlib.Logic.Basic

/-!
# What a parser reads

A parser reads a list of tokens as a value if it gives the value wherever these tokens stand in
front of tokens of a kind, and leaves the latter; it fails on a list of tokens if it fits nowhere
where they stand in front of tokens of a kind. Both are composed along the tokens.
-/

namespace LoopKernel.Source.Parser

variable {α β γ δ : Type} {p q : Parser α} {v : α → γ} {w : β → δ} {F G : List Token → Prop}
  {t : Token} {x y : List Token} {a : γ} {b : δ}

/-- Whether a parser reads a list of tokens in front of tokens of a kind, and the value that it
gives has a given view. -/
def Reads (p : Parser α) (v : α → γ) (F : List Token → Prop) (x : List Token) (a : γ) : Prop :=
  ∀ lexemes rest last, lexemes.map Lexeme.token = x → F (rest.map Lexeme.token) →
    ∃ r last', p ⟨last, lexemes ++ rest⟩ = .ok (r, ⟨last', rest⟩) ∧ v r = a

/-- Whether a parser does not fit a list of tokens in front of tokens of a kind. -/
def Fails (p : Parser α) (F : List Token → Prop) (x : List Token) : Prop :=
  ∀ lexemes rest last, lexemes.map Lexeme.token = x → F (rest.map Lexeme.token) →
    p ⟨last, lexemes ++ rest⟩ = .error .mismatch

/-- All tokens. -/
def anything : List Token → Prop := fun _ => True

theorem Reads.mono (h : Reads p v F x a) (hGF : ∀ rest, G rest → F rest) : Reads p v G x a :=
  fun lexemes rest last hlexemes hrest => h lexemes rest last hlexemes (hGF _ hrest)

/-! ## Tokens -/

theorem reads_pure {r : α} (h : v r = a) : Reads (pure r) v F [] a := by
  intro lexemes rest last hlexemes _
  obtain rfl := List.map_eq_nil_iff.mp hlexemes
  exact ⟨r, last, rfl, h⟩

theorem reads_take {accept : Token → Span → Option α}
    (h : ∀ s, ∃ r, accept t s = some r ∧ v r = a) : Reads (take accept) v F [t] a := by
  intro lexemes rest last hlexemes _
  obtain ⟨l, rfl, rfl⟩ := List.map_eq_singleton_iff.mp hlexemes
  obtain ⟨r, hr, hview⟩ := h l.span
  exact ⟨r, l.span, take_of_accept hr, hview⟩

theorem reads_token (t : Token) : Reads (token t) (fun _ => ()) F [t] () :=
  reads_take fun s => ⟨s, if_pos rfl, rfl⟩

theorem reads_symbol (s : Symbol) : Reads (symbol s) (fun _ => ()) F [.symbol s] () := reads_token _

/-- A token at the front decides. -/
theorem fails_take {accept : Token → Span → Option α} (h : ∀ s, accept t s = none) :
    Fails (take accept) F (t :: x) := by
  intro lexemes rest last hlexemes _
  obtain ⟨l, lexemes, rfl, rfl, -⟩ := List.map_eq_cons_iff.mp hlexemes
  refine take_of_reject fun l' hl' => ?_
  cases hl'
  exact h l.span

theorem fails_token {t' : Token} (h : t ≠ t') : Fails (token t') F (t :: x) :=
  fails_take fun _ => if_neg h

theorem fails_symbol {s : Symbol} (h : t ≠ .symbol s) : Fails (symbol s) F (t :: x) := fails_token h

/-- What may come next decides where nothing is to be read. -/
theorem fails_take_next {accept : Token → Span → Option α}
    (h : ∀ t y s, F (t :: y) → accept t s = none) : Fails (take accept) F [] := by
  intro lexemes rest last hlexemes hrest
  obtain rfl := List.map_eq_nil_iff.mp hlexemes
  refine take_of_reject fun l hl => ?_
  cases rest with
  | nil => cases hl
  | cons l' rest =>
    cases hl
    exact h _ _ _ hrest

/-- Nothing is read where all that may come next does not fit. -/
theorem fails_next (h : ∀ rest, F rest → Fails p (· = []) rest) : Fails p F [] := by
  intro lexemes rest last hlexemes hrest
  obtain rfl := List.map_eq_nil_iff.mp hlexemes
  have hfails := h _ hrest rest [] last rfl rfl
  rwa [List.append_nil] at hfails

/-- A token that may not come next is not there. -/
theorem fails_symbol_next {s : Symbol} (h : ∀ y, ¬ F (.symbol s :: y)) :
    Fails (symbol s) F [] := by
  unfold symbol token
  refine fails_take_next fun t y _ hF => if_neg ?_
  rintro rfl
  exact h y hF

/-! ## Sequences -/

theorem Reads.bind {f : α → Parser β} (hp : Reads p v F x a)
    (hf : ∀ r, v r = a → Reads (f r) w G y b) (hFG : ∀ rest, G rest → F (y ++ rest)) :
    Reads (p >>= f) w G (x ++ y) b := by
  intro lexemes rest last hlexemes hrest
  obtain ⟨first, second, rfl, hfirst, hsecond⟩ := List.map_eq_append_iff.mp hlexemes
  obtain ⟨r, last', hr, hview⟩ := hp first (second ++ rest) last hfirst
    (by rw [List.map_append, hsecond]; exact hFG _ hrest)
  obtain ⟨r', last'', hr', hview'⟩ := hf r hview second rest last' hsecond hrest
  exact ⟨r', last'', by rw [List.append_assoc, bind_of_ok hr, hr'], hview'⟩

/-- A value that is changed after it is read. -/
theorem Reads.map {f : α → Parser β} (hp : Reads p v F x a)
    (hf : ∀ r, v r = a → Reads (f r) w F [] b) : Reads (p >>= f) w F x b := by
  have h := hp.bind hf fun _ hrest => hrest
  rwa [List.append_nil] at h

/-- One token in front decides nothing about what may follow it. -/
theorem Reads.cons {f : α → Parser β} (hp : Reads p v anything [t] a)
    (hf : ∀ r, v r = a → Reads (f r) w G y b) : Reads (p >>= f) w G (t :: y) b :=
  hp.bind hf fun _ _ => trivial

theorem Fails.bind {f : α → Parser β} (hp : Fails p F x) : Fails (p >>= f) F x :=
  fun lexemes rest last hlexemes hrest => bind_of_mismatch (hp lexemes rest last hlexemes hrest)

theorem Reads.bind_fails {f : α → Parser β} (hp : Reads p v F x a)
    (hf : ∀ r, v r = a → Fails (f r) G y) (hFG : ∀ rest, G rest → F (y ++ rest)) :
    Fails (p >>= f) G (x ++ y) := by
  intro lexemes rest last hlexemes hrest
  obtain ⟨first, second, rfl, hfirst, hsecond⟩ := List.map_eq_append_iff.mp hlexemes
  obtain ⟨r, last', hr, hview⟩ := hp first (second ++ rest) last hfirst
    (by rw [List.map_append, hsecond]; exact hFG _ hrest)
  rw [List.append_assoc, bind_of_ok hr]
  exact hf r hview second rest last' hsecond hrest

theorem Reads.cons_fails {f : α → Parser β} (hp : Reads p v anything [t] a)
    (hf : ∀ r, v r = a → Fails (f r) G y) : Fails (p >>= f) G (t :: y) :=
  hp.bind_fails hf fun _ _ => trivial

/-! ## Alternatives -/

theorem Reads.orElse (hp : Reads p v F x a) : Reads (orElse p q) v F x a := by
  intro lexemes rest last hlexemes hrest
  obtain ⟨r, last', hr, hview⟩ := hp lexemes rest last hlexemes hrest
  exact ⟨r, last', orElse_of_ok hr, hview⟩

theorem Fails.orElse_reads (hp : Fails p F x) (hq : Reads q v F x a) :
    Reads (orElse p q) v F x a := by
  intro lexemes rest last hlexemes hrest
  obtain ⟨r, last', hr, hview⟩ := hq lexemes rest last hlexemes hrest
  exact ⟨r, last', by rw [orElse_of_mismatch (hp lexemes rest last hlexemes hrest), hr], hview⟩

theorem Fails.orElse (hp : Fails p F x) (hq : Fails q F x) : Fails (orElse p q) F x := by
  intro lexemes rest last hlexemes hrest
  rw [orElse_of_mismatch (hp lexemes rest last hlexemes hrest)]
  exact hq lexemes rest last hlexemes hrest

/-- The first alternative that fits after others that do not. -/
theorem reads_choice (ps : List (Parser α)) {qs : List (Parser α)} (hfails : ∀ q ∈ ps, Fails q F x)
    (hp : Reads p v F x a) : Reads (choice (ps ++ p :: qs)) v F x a := by
  induction ps with
  | nil => exact hp.orElse
  | cons q ps ih =>
    rw [List.forall_mem_cons] at hfails
    exact hfails.1.orElse_reads (ih hfails.2)

theorem Reads.optional (hp : Reads p v F x a) :
    Reads (optional p) (Option.map v) F x (some a) :=
  Reads.orElse (hp.map fun _ hview => reads_pure (congrArg some hview))

theorem Fails.optional (hp : Fails p F []) : Reads (optional p) (Option.map v) F [] none :=
  hp.bind.orElse_reads (reads_pure rfl)

/-! ## Places -/

theorem Reads.spanned (hp : Reads p v F x a) (hts : x ≠ []) :
    Reads (spanned p) (fun r => v r.1) F x a := by
  intro lexemes rest last hlexemes hrest
  obtain ⟨r, last', hr, hview⟩ := hp lexemes rest last hlexemes hrest
  cases lexemes with
  | nil => exact absurd hlexemes.symm hts
  | cons l lexemes => exact ⟨_, last', spanned_of_ok hr, hview⟩

theorem Fails.spanned (hp : Fails p F x) : Fails (spanned p) F x :=
  fun lexemes rest last hlexemes hrest => spanned_of_mismatch (hp lexemes rest last hlexemes hrest)

/-! ## Repetitions -/

/-- Parts that are read one after the other are read by a repetition, if each of them is one that
may follow another, and nothing after them fits. -/
theorem reads_many {l : List (List Token × γ)}
    (hparts : ∀ i ∈ l, i.1 ≠ [] ∧ Reads p v F i.1 i.2 ∧ ∀ y, F (i.1 ++ y))
    (hGF : ∀ rest, G rest → F rest) (hstop : Fails p G []) :
    Reads (many p) (List.map v) G (l.flatMap Prod.fst) (l.map Prod.snd) := by
  have hsteps : ∀ lexemes rest last, lexemes.map Lexeme.token = l.flatMap Prod.fst →
      G (rest.map Lexeme.token) → ∃ rs last',
        Steps p ⟨last, lexemes ++ rest⟩ rs ⟨last', rest⟩ ∧ rs.map v = l.map Prod.snd := by
    induction l with
    | nil =>
      intro lexemes rest last hlexemes hrest
      obtain rfl := List.map_eq_nil_iff.mp hlexemes
      exact ⟨[], last, .stop (hstop [] rest last rfl hrest), rfl⟩
    | cons i l ih =>
      intro lexemes rest last hlexemes hrest
      rw [List.forall_mem_cons] at hparts
      obtain ⟨⟨hne, hi, -⟩, hparts⟩ := hparts
      rw [List.flatMap_cons] at hlexemes
      obtain ⟨first, second, rfl, hfirst, hsecond⟩ := List.map_eq_append_iff.mp hlexemes
      have hnext : F ((second ++ rest).map Lexeme.token) := by
        rw [List.map_append, hsecond]
        cases l with
        | nil => exact hGF _ hrest
        | cons j l =>
          rw [List.flatMap_cons, List.append_assoc]
          exact (hparts j List.mem_cons_self).2.2 _
      obtain ⟨r, last₁, hr, hview⟩ := hi first (second ++ rest) last hfirst hnext
      obtain ⟨rs, last₂, hrs, hviews⟩ := ih hparts second rest last₁ hsecond hrest
      have hpos : 0 < first.length := by
        rw [← List.length_map (f := Lexeme.token), hfirst]
        exact List.length_pos_iff.mpr hne
      have hstep : p ⟨last, (first ++ second) ++ rest⟩ = .ok (r, ⟨last₁, second ++ rest⟩) := by
        rw [List.append_assoc, hr]
      refine ⟨r :: rs, last₂, .step hstep ?_ hrs, ?_⟩
      · simp only [List.length_append]
        omega
      · rw [List.map_cons, List.map_cons, hview, hviews]
  intro lexemes rest last hlexemes hrest
  obtain ⟨rs, last', hrs, hviews⟩ := hsteps lexemes rest last hlexemes hrest
  exact ⟨rs, last', many_of_steps hrs, hviews⟩

/-- A repetition of what does not fit is read from nothing. -/
theorem Fails.many (hstop : Fails p F []) : Reads (many p) (List.map v) F [] [] :=
  reads_many (F := F) (l := []) (by simp) (fun _ hrest => hrest) hstop

/-- Lists of tokens with a symbol between them. -/
def separatedBy (s : Symbol) : List (List Token) → List Token
  | [] => []
  | x :: rest => x ++ rest.flatMap fun y => .symbol s :: y

theorem reads_separated1 {s : Symbol} {l : List (List Token × γ)} (hne : l ≠ [])
    (hparts : ∀ i ∈ l, Reads p v F i.1 i.2) (hF : ∀ y, F (.symbol s :: y))
    (hGF : ∀ rest, G rest → F rest) (hG : ∀ y, ¬ G (.symbol s :: y)) :
    Reads (separated1 p (symbol s)) (List.map v) G (separatedBy s (l.map Prod.fst))
      (l.map Prod.snd) := by
  obtain ⟨i, l, rfl⟩ := List.exists_cons_of_ne_nil hne
  rw [List.forall_mem_cons] at hparts
  have hitems : Reads (many (do let _ ← symbol s; p)) (List.map v) G
      ((l.map fun i => (Token.symbol s :: i.1, i.2)).flatMap Prod.fst)
      ((l.map fun i => (Token.symbol s :: i.1, i.2)).map Prod.snd) := by
    refine reads_many (F := F) (List.forall_mem_map.mpr fun j hj => ?_) hGF
      (fails_symbol_next hG).bind
    exact ⟨List.cons_ne_nil _ _, (reads_symbol s).cons fun _ _ => hparts.2 j hj, fun y => hF _⟩
  rw [List.flatMap_map, List.map_map] at hitems
  rw [List.map_cons, List.map_cons, separatedBy, List.flatMap_map]
  refine hparts.1.bind (fun first hfirst => hitems.map fun rest hrest =>
    reads_pure (congrArg₂ List.cons hfirst hrest)) fun rest hrest => ?_
  cases l with
  | nil => exact hGF _ hrest
  | cons j l => exact hF _

theorem reads_between {opening closing : Symbol} (hp : Reads p v F x a)
    (hF : ∀ y, F (.symbol closing :: y)) :
    Reads (between opening closing p) v G
      (.symbol opening :: (x ++ [.symbol closing])) a := by
  refine (reads_symbol opening).cons fun _ _ => ?_
  exact hp.bind (fun r hview => (reads_symbol closing).map (F := G) fun _ _ => reads_pure hview)
    fun rest _ => hF rest

end LoopKernel.Source.Parser
