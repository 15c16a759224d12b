import LoopKernel.Kernel.Fingerprint
import LoopKernel.Proofs.Kernel.Json
import LoopKernel.Proofs.Source.Grammar
import LoopKernel.Proofs.Source.Lexer
import LoopKernel.Proofs.Source.WellFormed

/-!
# Fingerprints of loaded kernels

Loaded kernels with one exchange text are one kernel, but for the signs of infinite literals: a
literal too large for a number is read as an infinite one, which has no text. So loaded kernels
without infinite literals share a fingerprint only if two texts share a digest.
-/

namespace LoopKernel

/-- A name does not look like a mark. -/
theorem IsName.head?_ne {name : String} (h : IsName name) : name.toList.head? ≠ some '@' := by
  obtain ⟨⟨c, rest, hname, hstarts, -⟩, -⟩ := h
  rw [hname]
  rintro ⟨⟩
  exact absurd hstarts (by decide)

namespace Source

variable {source source' : String} {device device' : Device} {k k' : Kernel}

/-- The dimensions of a loaded kernel are names. -/
theorem isName_of_mem_dims (h : load source device = .ok k) : ∀ n ∈ k.domain.dims, IsName n := by
  obtain ⟨file, hfile, hbuild⟩ := load_clean h
  obtain ⟨idents, chains, d, ⟨span, hstatement⟩, hdomain, -⟩ := build_clean hbuild
  intro n hn
  obtain ⟨id, hid, rfl⟩ := List.mem_map.mp ((dims_of_domain_clean hdomain).2 n hn)
  obtain ⟨s, hs, hbody⟩ := List.mem_filterMap.mp hstatement
  have hmade := madeOf_of_read hfile Lexer.isReadable_of_mem_split s hs
  split at hbody
  · next hdims =>
    cases hbody
    rw [hdims] at hmade
    exact hmade.dims id hid
  · cases hbody

/-- What the reductions of a loaded kernel bind are dimensions. -/
theorem mem_dims_of_mem_binders (h : load source device = .ok k) :
    ∀ b ∈ k.binders, b.name ∈ k.domain.dims := by
  obtain ⟨file, -, hbuild⟩ := load_clean h
  obtain ⟨idents, chains, d, -, -, hover⟩ := build_clean hbuild
  obtain ⟨-, -, declared, hdeclared, hargs, -, -⟩ := buildOver_clean hover
  rw [Kernel.binders, List.forall_mem_append, List.forall_mem_flatMap, List.forall_mem_flatMap,
    hargs]
  exact ⟨fun insn hinsn => ((wellFormed_of_load h).instructions insn hinsn).bound,
    mem_dims_of_declarations hdeclared⟩

/-- The binders of a loaded kernel do not look like marks. -/
theorem isPlain_of_load (h : load source device = .ok k) : ∀ b ∈ k.binders, b.IsPlain :=
  fun b hb => (isName_of_mem_dims h _ (mem_dims_of_mem_binders h b hb)).head?_ne

/-- Loaded kernels have one exchange text when they are one kernel but for the signs of infinite
literals, and only then; one without infinite literals is determined by its text. Kernels that
differ otherwise have one fingerprint only if two different texts have one digest. -/
theorem text_tells_loaded (h : load source device = .ok k) (h' : load source' device' = .ok k') :
    (k.toJson.text = k'.toJson.text ↔ k.exchanged = k'.exchanged) ∧
      ((∀ x ∈ k.floats, x.isFinite = true) → k.toJson.text = k'.toJson.text → k = k') ∧
      (k.fingerprint = k'.fingerprint → k.exchanged ≠ k'.exchanged →
        k.toJson.text ≠ k'.toJson.text ∧
          Sha256.ofText k.toJson.text = Sha256.ofText k'.toJson.text) := by
  have htext := Kernel.text_eq_iff_exchanged (isPlain_of_load h) (isPlain_of_load h')
  exact ⟨htext, fun hfinite heq => Kernel.eq_of_exchanged_eq hfinite (htext.mp heq),
    fun hdigest hne => ⟨fun heq => hne (htext.mp heq), hdigest⟩⟩

/-- A source with one assignment of a given expression. -/
def assigning (expression : String) : String :=
  "domain [i] : 0 <= i < 4\ninsn s: x = " ++ expression ++ "\n"

/-- Two ways to write one half give one kernel. The infinities give two kernels with one text. -/
theorem text_tells_loaded_literals :
    (∃ k, load (assigning "0.5") .fermi = .ok k ∧
      ∃ k', load (assigning "( 5e-1 )") .fermi = .ok k' ∧
        (∀ x ∈ k.floats, x.isFinite = true) ∧ k.toJson.text = k'.toJson.text ∧ k = k') ∧
    ∃ k, load (assigning "1e999") .fermi = .ok k ∧
      ∃ k', load (assigning "-1e999") .fermi = .ok k' ∧
        k.toJson.text = k'.toJson.text ∧ k.exchanged = k'.exchanged ∧ k ≠ k' := by
  have hhalf : ∃ k, load (assigning "0.5") .fermi = .ok k ∧
      ∃ k', load (assigning "( 5e-1 )") .fermi = .ok k' ∧
        (k.floats.all Binary64.isFinite = true ∧ k.toJson.text = k'.toJson.text) := by
    decide +kernel
  have hinfinite : ∃ k, load (assigning "1e999") .fermi = .ok k ∧
      ∃ k', load (assigning "-1e999") .fermi = .ok k' ∧
        (k.toJson.text = k'.toJson.text ∧
          k.floats.map Binary64.negative ≠ k'.floats.map Binary64.negative) := by
    decide +kernel
  obtain ⟨k, hk, k', hk', hfinite, htext⟩ := hhalf
  obtain ⟨l, hl, l', hl', htext', hsigns⟩ := hinfinite
  have hfinite := List.all_eq_true.mp hfinite
  exact ⟨⟨k, hk, k', hk', hfinite, htext, (text_tells_loaded hk hk').2.1 hfinite htext⟩,
    l, hl, l', hl', htext', (text_tells_loaded hl hl').1.mp htext', fun heq => hsigns (heq ▸ rfl)⟩

end Source

end LoopKernel
