import LoopKernel.Source.Lexer
import Mathlib.Algebra.Ring.Nat

/-!
# Tokens of a source

What holds of every token that a source is split into: integers are within words, and names are
words that are not reserved.
-/

namespace LoopKernel

/-- Whether a text is a name: a letter or underscore with letters, digits and underscores after it
that is no reserved word. -/
def IsName (name : String) : Prop :=
  (∃ c rest, name.toList = c :: rest ∧ Lexer.startsName c = true ∧
    ∀ d ∈ rest, Lexer.continuesName d = true) ∧ Keyword.ofText? name = none

instance (name : String) : Decidable (IsName name) :=
  match hname : name.toList with
  | [] => .isFalse fun ⟨⟨c, rest, h, _⟩, _⟩ => by
    rw [hname] at h
    cases h
  | c :: rest =>
    decidable_of_iff ((Lexer.startsName c = true ∧ rest.all Lexer.continuesName = true) ∧
        Keyword.ofText? name = none)
      ⟨fun ⟨⟨hc, hrest⟩, h⟩ => ⟨⟨c, rest, hname, hc, List.all_eq_true.mp hrest⟩, h⟩,
        fun ⟨⟨_, _, htext, hc, hrest⟩, h⟩ => by
          rw [hname] at htext
          cases htext
          exact ⟨⟨hc, List.all_eq_true.mpr hrest⟩, h⟩⟩

/-- Whether a token is one that a source can have. -/
def Token.IsReadable : Token → Prop
  | .int n => n < 2 ^ 63
  | .ident name => IsName name
  | _ => True

namespace Lexer

/-- The run at the front satisfies the test. -/
theorem of_mem_take_run {p : Char → Bool} {cs : List Char} {c : Char}
    (h : c ∈ cs.take (run p cs)) : p c = true := by
  have htake : cs.take (run p cs) = cs.takeWhile p :=
    List.prefix_iff_eq_take.mp (List.takeWhile_prefix p) ▸ rfl
  rw [htake] at h
  exact List.all_eq_true.mp List.all_takeWhile c h

/-- A word that is scanned is no name, or a name with its characters. -/
theorem isReadable_of_scanWord {c : Char} {rest : List Char} {t : Token}
    (hc : startsName c = true) (h : (scanWord c rest).piece = .token t) : t.IsReadable := by
  unfold scanWord at h
  extract_lets axis count name tag at h
  split at h
  · split at h
    · cases h
      trivial
    · next hkeyword =>
      cases h
      exact ⟨⟨c, rest.take count, String.toList_ofList, hc, fun _ => of_mem_take_run⟩, hkeyword⟩
  · unfold tokenOrStray at h
    split at h
    · next htag =>
      cases h
      obtain ⟨tag, -, rfl⟩ := Option.map_eq_some_iff.mp htag
      trivial
    · cases h

/-- An integer that is scanned is within words. -/
theorem isReadable_of_scanNumber {c : Char} {rest : List Char} {t : Token}
    (h : (scanNumber c rest).piece = .token t) : t.IsReadable := by
  unfold scanNumber at h
  dsimp only at h
  split at h
  · unfold tokenOrStray at h
    split at h
    · next hsize =>
      cases h
      split at hsize
      · cases hsize
        trivial
      · cases hsize
    · cases h
  · split at h
    · split at h
      · cases h
        trivial
      · unfold tokenOrStray at h
        split at h
        · next hint =>
          cases h
          split at hint
          · next hlimit =>
            cases hint
            exact hlimit
          · cases hint
        · cases h
    · split at h
      all_goals
        cases h
        trivial

/-- A token that is scanned is one that a source can have. -/
theorem isReadable_of_scan {c : Char} {rest : List Char} {t : Token}
    (h : (scan c rest).piece = .token t) : t.IsReadable := by
  unfold scan at h
  split at h
  · cases h
  split at h
  · cases h
  split at h
  · cases h
    trivial
  split at h
  · exact isReadable_of_scanNumber h
  split at h
  · next hstarts => exact isReadable_of_scanWord hstarts h
  split at h
  · cases h
    trivial
  · cases h

/-- All tokens of a source are ones that a source can have. -/
theorem isReadable_of_mem_split {source : String} :
    ∀ l ∈ (split source).lexemes, l.token.IsReadable := by
  have general : ∀ (cs : List Char) (offset : Nat),
      ∀ l ∈ (splitFrom offset cs).lexemes, l.token.IsReadable := by
    intro cs offset
    fun_induction splitFrom offset cs with
    | case1 => simp
    | case2 offset c rest s text stop ih =>
      intro l hl
      unfold Result.cons at hl
      split at hl
      · exact ih l hl
      · next t hpiece =>
        rcases List.mem_cons.mp hl with rfl | hl
        · exact isReadable_of_scan hpiece
        · exact ih l hl
      · exact ih l hl
  exact general source.toList 0

end Lexer

end LoopKernel
