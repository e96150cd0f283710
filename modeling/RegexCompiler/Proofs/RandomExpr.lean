import RegexCompiler.Proofs.Rendering
import RegexCompiler.Random.Expr
import RegexCompiler.Random.Generator

namespace RegexCompiler

namespace Draw

section Returns

variable {γ α β : Type} {x : Draw γ α} {P : α → Prop} {Q : β → Prop}

/-- Whatever numbers come from the source, a result is drawn, and it has the property. -/
def Returns (x : Draw γ α) (P : α → Prop) : Prop := ∀ source, ∃ a rest, x.run source = (some a, rest) ∧ P a

theorem run_bind_eq (x : Draw γ α) (f : α → Draw γ β) (source : γ) :
    (x >>= f).run source =
      match x.run source with
      | (some a, rest) => (f a).run rest
      | (none, rest) => (none, rest) := by
  rw [OptionT.run_bind]
  change (match x.run source with
    | (result, rest) => (result.elim (pure none) fun a ↦ (f a).run : StateM γ (Option β)) rest) = _
  rcases x.run source with ⟨_ | a, rest⟩ <;> rfl

theorem returns_pure {a : α} (h : P a) : Returns (pure a : Draw γ α) P := by
  intro source
  exact ⟨a, source, rfl, h⟩

theorem Returns.bind {f : α → Draw γ β} (hx : Returns x P) (hf : ∀ a, P a → Returns (f a) Q) :
    Returns (x >>= f) Q := by
  intro source
  obtain ⟨a, rest, hrun, ha⟩ := hx source
  obtain ⟨b, rest', hrun', hb⟩ := hf a ha rest
  refine ⟨b, rest', ?_, hb⟩
  rw [run_bind_eq, hrun]
  exact hrun'

theorem Returns.map {f : α → β} (hx : Returns x P) (hf : ∀ a, P a → Q (f a)) : Returns (f <$> x) Q := by
  rw [map_eq_pure_bind]
  apply hx.bind
  intro a ha
  exact returns_pure (hf a ha)

theorem Returns.pair {f : α → α → β} (hx : Returns x P) (hf : ∀ a b, P a → P b → Q (f a b)) :
    Returns (do let a ← x; let b ← x; return f a b) Q := by
  apply hx.bind
  intro a ha
  apply hx.bind
  intro b hb
  exact returns_pure (hf a b ha hb)

end Returns

variable {γ : Type} [RandomSource γ]

theorem returns_below {bound : Nat} (h : 0 < bound) : Returns (below bound : Draw γ _) fun _ ↦ True := by
  intro source
  refine ⟨(RandomSource.draw source bound h).1, (RandomSource.draw source bound h).2, ?_, trivial⟩
  simp [below, h, OptionT.run, OptionT.mk]

theorem returns_chance {numerator denominator : Nat} (h : 0 < denominator) :
    Returns (chance numerator denominator : Draw γ _) fun _ ↦ True := by
  apply (returns_below h).bind
  intro n _
  exact returns_pure trivial

theorem returns_sample {α : Type} {items : List α} (h : items ≠ []) :
    Returns (sample items : Draw γ α) (· ∈ items) := by
  apply (returns_below (List.length_pos_of_ne_nil h)).bind
  intro n _
  exact returns_pure (items.get_mem n)

end Draw

variable {γ : Type} [RandomSource γ]

/-- A tree is always drawn where there are characters for the leaves, and those are all it has. -/
theorem Expr.returns_draw {charset : List Char} (hne : charset ≠ []) (depth : Nat) :
    Draw.Returns (Expr.draw charset depth : Draw γ Expr) fun e ↦ ∀ c ∈ e.literals, c ∈ charset := by
  have hleaf : Draw.Returns (Expr.literal <$> Draw.sample charset : Draw γ Expr) fun e ↦
      ∀ c ∈ e.literals, c ∈ charset := by
    apply (Draw.returns_sample hne).map
    intro d hd c hc
    rw [List.mem_singleton.1 hc]
    exact hd
  induction depth with
  | zero => exact hleaf
  | succ depth ih =>
    rw [Expr.draw]
    apply (Draw.returns_chance (by decide)).bind
    intro leaf _
    split
    · exact hleaf
    · apply (Draw.returns_below (by decide)).bind
      intro branch _
      have happend (left right : Expr) (hleft : ∀ c ∈ left.literals, c ∈ charset)
          (hright : ∀ c ∈ right.literals, c ∈ charset) :
          ∀ c ∈ left.literals ++ right.literals, c ∈ charset := by
        intro c hc
        exact (List.mem_append.1 hc).elim (hleft c) (hright c)
      match branch with
      | 0 => exact ih.pair happend
      | 1 => exact ih.pair happend
      | 2 =>
        apply ih.map
        intro inner hinner
        exact hinner

namespace Compiler

theorem exists_compile_source (compiler : Compiler) (hactions : compiler.config.stackActions = none)
    {e : Expr} (h : ∀ c ∈ e.literals, compiler.config.alphabet.isSymbol c = true) :
    ∃ c, (compiler.compile (String.ofList e.source)).1 = .ok c ∧
      ∀ w : List Char, c.nfa.accepts w = true ↔ e.Matches w := by
  obtain ⟨e', he', hlanguage⟩ := Alphabet.exists_derives_source h
  have htokens : compiler.config.alphabet.tokenize (String.ofList e.source) =
      e.source.map compiler.config.alphabet.classify :=
    Alphabet.tokenize_ofList fun c hc ↦ Alphabet.isBlank_of_mem_source h hc
  have hderives : Derives .expression
      (compiler.config.alphabet.tokenize (String.ofList e.source)) e' := by
    rw [htokens]
    exact .term he'
  rw [compile_of_derives hderives, Compilation.ofNfa, hactions]
  refine ⟨_, rfl, fun w ↦ ?_⟩
  have hwords : w ∈ e'.language ↔ w ∈ e.language := by rw [hlanguage]
  exact (e'.accepts_thompson_iff 0 w).trans hwords

/-- Random expressions are written so that they compile to automata for the words of the tree drawn. -/
theorem compile_source_of_draw (charset : List Char) (depth : Nat) (source : γ) (hne : charset ≠ [])
    (hsymbols : ∀ c ∈ charset, ({} : Alphabet).isSymbol c = true) (allocator : Allocator) :
    ∃ e rest, (Expr.draw charset depth).run source = (some e, rest) ∧
      ∃ c, (({ allocator } : Compiler).compile (String.ofList e.source)).1 = .ok c ∧
        ∀ w : List Char, c.nfa.accepts w = true ↔ e.Matches w := by
  obtain ⟨e, rest, hrun, hliterals⟩ := Expr.returns_draw hne depth source
  refine ⟨e, rest, hrun, exists_compile_source { allocator } rfl fun c hc ↦ ?_⟩
  exact hsymbols c (hliterals c hc)

theorem compile_source_of_draw_seed :
    ∃ e c, ((Expr.draw ['a', 'b'] 3).run (Generator.ofSeed 7)).1 = some e ∧
      e.source = "(a|a)aa*b".toList ∧ (({} : Compiler).compile (String.ofList e.source)).1 = .ok c ∧
        c.nfa.accepts ['a', 'a', 'b'] = true := by
  have hsymbols : ∀ c ∈ ['a', 'b'], ({} : Alphabet).isSymbol c = true :=
    List.forall_mem_cons.2 ⟨rfl, List.forall_mem_cons.2 ⟨rfl, List.forall_mem_nil _⟩⟩
  obtain ⟨e, rest, hrun, c, hc, hmatches⟩ :=
    compile_source_of_draw ['a', 'b'] 3 (Generator.ofSeed 7) (by simp) hsymbols {}
  have htree : ((Expr.draw ['a', 'b'] 3).run (Generator.ofSeed 7)).1 =
      some (.concat (.concat (.alternation (.literal 'a') (.literal 'a')) (.literal 'a'))
        (.concat (.star (.literal 'a')) (.literal 'b'))) := by
    decide +kernel
  rw [hrun] at htree
  cases htree
  refine ⟨_, c, by rw [hrun], by decide, hc, (hmatches _).2 ?_⟩
  exact .concat (.concat (.left (.literal 'a')) (.literal 'a')) (.concat (.stop _) (.literal 'b'))

end Compiler

end RegexCompiler
