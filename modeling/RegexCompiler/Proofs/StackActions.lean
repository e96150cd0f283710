import RegexCompiler.Proofs.Literals

namespace RegexCompiler

open Token

/-- The first transition recorded whose symbol has no stack action. -/
def Dfa.FirstUnsupported (dfa : Dfa) (actions : ActionTable) (t : Dfa.Transition) : Prop :=
  ∃ before after, dfa.transitions = before ++ t :: after ∧
    (∀ t' ∈ before, actions.get? t'.symbol ≠ none) ∧ actions.get? t.symbol = none

theorem Dfa.FirstUnsupported.mem {dfa : Dfa} {actions : ActionTable} {t : Dfa.Transition}
    (h : dfa.FirstUnsupported actions t) : t ∈ dfa.transitions := by
  obtain ⟨before, after, htransitions, -⟩ := h
  simp [htransitions]

namespace Pda

variable {dfa : Dfa} {actions actions' : ActionTable}

theorem find?_eq_some_iff_firstUnsupported {t : Dfa.Transition} :
    (dfa.transitions.find? fun t ↦ (actions.get? t.symbol).isNone) = some t ↔
      dfa.FirstUnsupported actions t := by
  simp only [List.find?_eq_some_iff_append, Dfa.FirstUnsupported, Option.isNone_iff_eq_none,
    Bool.not_eq_true', Option.isNone_eq_false_iff, ← Option.ne_none_iff_isSome]
  constructor
  · intro h
    obtain ⟨hnone, before, after, htransitions, hbefore⟩ := h
    exact ⟨before, after, htransitions, hbefore, hnone⟩
  · intro h
    obtain ⟨before, after, htransitions, hbefore, hnone⟩ := h
    exact ⟨hnone, before, after, htransitions, hbefore⟩

theorem ofDfa_eq_error_iff {error : PdaError} :
    ofDfa dfa actions = .error error ↔
      ∃ t, dfa.FirstUnsupported actions t ∧ error = .unsupportedSymbol t.symbol := by
  simp only [← find?_eq_some_iff_firstUnsupported]
  unfold ofDfa
  split
  · rename_i t hfind
    simp [hfind, eq_comm]
  · rename_i hfind
    simp [hfind]

theorem exists_ofDfa_eq_error_iff :
    (∃ error, ofDfa dfa actions = .error error) ↔ ∃ t ∈ dfa.transitions, actions.get? t.symbol = none := by
  constructor
  · intro h
    obtain ⟨error, herror⟩ := h
    obtain ⟨t, hfirst, -⟩ := ofDfa_eq_error_iff.1 herror
    have ht := hfirst.mem
    obtain ⟨-, -, -, -, hnone⟩ := hfirst
    exact ⟨t, ht, hnone⟩
  · intro h
    obtain ⟨t, ht, hnone⟩ := h
    have hfind : (dfa.transitions.find? fun t ↦ (actions.get? t.symbol).isNone).isSome = true :=
      List.find?_isSome.2 ⟨t, ht, by rw [hnone]; rfl⟩
    obtain ⟨first, hfirst⟩ := Option.isSome_iff_exists.1 hfind
    exact ⟨_, ofDfa_eq_error_iff.2 ⟨first, find?_eq_some_iff_firstUnsupported.1 hfirst, rfl⟩⟩

theorem ofDfa_congr (h : ∀ t ∈ dfa.transitions, actions'.get? t.symbol = actions.get? t.symbol) :
    ofDfa dfa actions' = ofDfa dfa actions := by
  have hderived : derivedTransitions dfa actions' = derivedTransitions dfa actions := by
    have hsymbols : (dfa.transitions.filterMap fun t ↦ (actions'.get? t.symbol).map (.ofDfa t)) =
        dfa.transitions.filterMap fun t ↦ (actions.get? t.symbol).map (Transition.ofDfa t) := by
      apply List.filterMap_congr
      intro t ht
      rw [h t ht]
    rw [derivedTransitions, derivedTransitions, hsymbols]
  have hfind : (dfa.transitions.find? fun t ↦ (actions'.get? t.symbol).isNone) =
      dfa.transitions.find? fun t ↦ (actions.get? t.symbol).isNone := by
    rw [← List.head?_filter, ← List.head?_filter]
    congr 1
    apply List.filter_congr
    intro t ht
    rw [h t ht]
  simp only [ofDfa, hfind, hderived]

end Pda

namespace Compiler

def withActions (compiler : Compiler) (stackActions : Option ActionTable) : Compiler :=
  { compiler with config := { compiler.config with stackActions } }

variable {compiler : Compiler} {source : String} {e : Expr} {actions actions' : ActionTable}

theorem compile_withActions_none (h : Derives .expression (compiler.config.alphabet.tokenize source) e) :
    ∃ c, ((compiler.withActions none).compile source).1 = .ok c ∧
      c.dfa = (e.thompson 0).determinize :=
  exists_compile_of_derives (compiler.withActions none) rfl h

theorem compile_withActions_some (h : Derives .expression (compiler.config.alphabet.tokenize source) e) :
    ((compiler.withActions (some actions)).compile source).1 =
      match Pda.ofDfa (e.thompson 0).determinize actions with
      | .error error => .error (.derive error)
      | .ok pda => .ok ⟨.ofExpr (compiler.config.alphabet.tokenize source) e, e.thompson 0,
          (e.thompson 0).determinize, some pda⟩ := by
  have hderives : Derives .expression
      ((compiler.withActions (some actions)).config.alphabet.tokenize source) e := h
  exact compile_of_derives hderives

/-- What is no expression is refused before there is a use for stack actions. -/
theorem exists_error_of_not_derives
    (h : ¬ ∃ e, Derives .expression (compiler.config.alphabet.tokenize source) e) :
    ∃ error : CompileError, error.stage ≠ .derivation ∧ ∀ stackActions,
      ((compiler.withActions stackActions).compile source).1 = .error error := by
  cases hparsed : Parsed.ofSource compiler.config.alphabet source with
  | error error =>
    refine ⟨.parse error, by simp [CompileError.stage], fun stackActions ↦ ?_⟩
    simp [compile, withActions, hparsed]
  | ok parsed =>
    cases hbuilt : (Nfa.ofRpn compiler.allocator.reset parsed.rpn).1 with
    | error error =>
      refine ⟨.build error, by simp [CompileError.stage], fun stackActions ↦ ?_⟩
      simp [compile, withActions, hparsed, hbuilt]
    | ok nfa => exact absurd (Parsed.exists_derives_of_ofRpn hparsed hbuilt) h

theorem compile_eq_derive_error_iff (h : Derives .expression (compiler.config.alphabet.tokenize source) e)
    {error : PdaError} :
    ((compiler.withActions (some actions)).compile source).1 = .error (.derive error) ↔
      Pda.ofDfa (e.thompson 0).determinize actions = .error error := by
  rw [compile_withActions_some h]
  cases Pda.ofDfa (e.thompson 0).determinize actions <;> simp

theorem mem_literals_iff (h : Derives .expression (compiler.config.alphabet.tokenize source) e) {d : Char} :
    d ∈ literals (compiler.config.alphabet.tokenize source) ↔
      ∃ t ∈ (e.thompson 0).determinize.transitions, t.symbol = d := by
  rw [← Dfa.mem_alphabet_iff, (e.trim_thompson 0).alphabet_determinize, Nfa.mem_alphabet_iff,
    e.symbols_thompson, h.literals_eq]

theorem exists_derivation_error_iff :
    (∃ error, ((compiler.withActions (some actions)).compile source).1 = .error error ∧
        error.stage = .derivation) ↔
      (∃ c, ((compiler.withActions none).compile source).1 = .ok c) ∧
        ∃ d ∈ literals (compiler.config.alphabet.tokenize source), actions.get? d = none := by
  by_cases hderives : ∃ e, Derives .expression (compiler.config.alphabet.tokenize source) e
  · obtain ⟨e, he⟩ := hderives
    have hcompiled := compile_withActions_none he
    have hliteral : (∃ d ∈ literals (compiler.config.alphabet.tokenize source), actions.get? d = none) ↔
        ∃ error, Pda.ofDfa (e.thompson 0).determinize actions = .error error := by
      simp [Pda.exists_ofDfa_eq_error_iff, mem_literals_iff he]
    rw [hliteral]
    constructor
    · intro h
      obtain ⟨error, herror, hstage⟩ := h
      obtain ⟨c, hc, -⟩ := hcompiled
      cases error with
      | derive error => exact ⟨⟨c, hc⟩, error, (compile_eq_derive_error_iff he).1 herror⟩
      | parse | build => cases hstage
    · intro h
      obtain ⟨-, error, herror⟩ := h
      exact ⟨.derive error, (compile_eq_derive_error_iff he).2 herror, rfl⟩
  · obtain ⟨error, hstage, herror⟩ := exists_error_of_not_derives hderives
    simp [herror, hstage]

theorem exists_firstUnsupported {d : Char}
    (h : ((compiler.withActions (some actions)).compile source).1 =
      .error (.derive (.unsupportedSymbol d))) :
    d ∈ literals (compiler.config.alphabet.tokenize source) ∧
      ∃ c t, ((compiler.withActions none).compile source).1 = .ok c ∧
        c.dfa.FirstUnsupported actions t ∧ t.symbol = d := by
  by_cases hderives : ∃ e, Derives .expression (compiler.config.alphabet.tokenize source) e
  · obtain ⟨e, he⟩ := hderives
    obtain ⟨c, hc, hdfa⟩ := compile_withActions_none he
    obtain ⟨t, hfirst, hsymbol⟩ := Pda.ofDfa_eq_error_iff.1 ((compile_eq_derive_error_iff he).1 h)
    obtain rfl := PdaError.unsupportedSymbol.inj hsymbol
    refine ⟨(mem_literals_iff he).2 ⟨t, hfirst.mem, rfl⟩, c, t, hc, ?_, rfl⟩
    rw [hdfa]
    exact hfirst
  · obtain ⟨error, hstage, herror⟩ := exists_error_of_not_derives hderives
    rw [herror] at h
    cases h
    exact absurd rfl hstage

theorem compile_congr_actions (h : ∀ d ∈ literals (compiler.config.alphabet.tokenize source),
    actions'.get? d = actions.get? d) :
    ((compiler.withActions (some actions')).compile source).1 =
      ((compiler.withActions (some actions)).compile source).1 := by
  by_cases hderives : ∃ e, Derives .expression (compiler.config.alphabet.tokenize source) e
  · obtain ⟨e, he⟩ := hderives
    have hsame : Pda.ofDfa (e.thompson 0).determinize actions' =
        Pda.ofDfa (e.thompson 0).determinize actions := by
      apply Pda.ofDfa_congr
      intro t ht
      exact h t.symbol ((mem_literals_iff he).2 ⟨t, ht, rfl⟩)
    rw [compile_withActions_some he, compile_withActions_some he, hsame]
  · obtain ⟨error, -, herror⟩ := exists_error_of_not_derives hderives
    rw [herror, herror]

/-- Stack actions stop a compilation exactly when a literal of the source has none. The error names the
first symbol without one among the recorded transitions, and entries for other symbols do not matter. -/
theorem compile_derivation_error_iff (compiler : Compiler) (actions : ActionTable) (source : String) :
    ((∃ error, ((compiler.withActions (some actions)).compile source).1 = .error error ∧
          error.stage = .derivation) ↔
        (∃ c, ((compiler.withActions none).compile source).1 = .ok c) ∧
          ∃ d ∈ literals (compiler.config.alphabet.tokenize source), actions.get? d = none) ∧
      (∀ d, ((compiler.withActions (some actions)).compile source).1 =
          .error (.derive (.unsupportedSymbol d)) →
        d ∈ literals (compiler.config.alphabet.tokenize source) ∧
          ∃ c t, ((compiler.withActions none).compile source).1 = .ok c ∧
            c.dfa.FirstUnsupported actions t ∧ t.symbol = d) ∧
      ∀ actions' : ActionTable, (∀ d ∈ literals (compiler.config.alphabet.tokenize source),
          actions'.get? d = actions.get? d) →
        ((compiler.withActions (some actions')).compile source).1 =
          ((compiler.withActions (some actions)).compile source).1 :=
  ⟨exists_derivation_error_iff, fun _ ↦ exists_firstUnsupported, fun _ ↦ compile_congr_actions⟩

end Compiler

end RegexCompiler
