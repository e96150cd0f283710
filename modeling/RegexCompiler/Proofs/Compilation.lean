import RegexCompiler.Compiler
import RegexCompiler.Proofs.Construction
import RegexCompiler.Proofs.Determinization
import RegexCompiler.Proofs.Grammar

namespace RegexCompiler

open Token

theorem Expr.count_rpn (e : Expr) : e.rpn.countP isLiteral = e.rpn.countP isBinary + 1 := by
  induction e with
  | literal c => rfl
  | concat left right ihl ihr | alternation left right ihl ihr =>
    simp only [rpn, List.countP_append, ihl, ihr]
    simp [isLiteral, isBinary, Operator.arity]
    omega
  | star inner ih =>
    simp only [rpn, List.countP_append, ih]
    simp [isLiteral, isBinary, Operator.arity]

theorem Expr.count_rpnAll (es : List Expr) :
    (rpnAll es).countP isLiteral = (rpnAll es).countP isBinary + es.length := by
  induction es with
  | nil => rfl
  | cons e es ih =>
    have hrpn := e.count_rpn
    rw [rpnAll, List.countP_append, List.countP_append, List.length_cons]
    omega

/-- The inserted concatenations join all operands: only where one is missing can there be less than a
single tree, and there are never more. -/
theorem length_add_gaps_of_toRpn {ts : List Token} {es : List Expr} (hinvalid : ∀ c, .invalid c ∉ ts)
    (h : toRpn (insertConcatenation ts) = .ok (Expr.rpnAll es)) : es.length + gaps false ts = 1 := by
  have hliterals : (Expr.rpnAll es).countP isLiteral = _ :=
    countP_of_toRpn_eq_ok (by rintro (_ | _) <;> simp [isLiteral, isGroup]) h
  have hbinaries : (Expr.rpnAll es).countP isBinary = _ :=
    countP_of_toRpn_eq_ok (by rintro (_ | _) <;> simp [isBinary, isGroup]) h
  have hcount := count_insertConcatenation hinvalid
  have hrpn := Expr.count_rpnAll es
  omega

/-- Only an expression is converted to a tree: with a single tree no operand is missing. -/
theorem Derives.exists_of_toRpn {ts : List Token} {e : Expr} (hinvalid : ∀ c, .invalid c ∉ ts)
    (hconcat : .operator .concat ∉ ts) (h : toRpn (insertConcatenation ts) = .ok e.rpn) :
    ∃ e', Derives .expression ts e' := by
  have hcount : [e].length + gaps false ts = 1 := length_add_gaps_of_toRpn hinvalid h
  have hgaps : gaps false ts = 0 := by
    rw [List.length_singleton] at hcount
    omega
  have hdepth := groupDepth_of_toRpn_eq_ok h
  rw [Conversion.groupDepth_insertConcatenation] at hdepth
  exact exists_derives_of_gaps hinvalid hconcat hgaps hdepth

namespace Alphabet

variable (alphabet : Alphabet) (source : String)

theorem concat_not_mem_tokenize : .operator .concat ∉ alphabet.tokenize source := by
  intro h
  obtain ⟨c, -, hc⟩ := List.mem_map.1 h
  unfold classify at hc
  repeat' split at hc
  all_goals cases hc

end Alphabet

namespace Parsed

variable {alphabet : Alphabet} {source : String}

theorem firstInvalid_eq_none_iff {index : Nat} {ts : List Token} :
    firstInvalid index ts = none ↔ ∀ c, .invalid c ∉ ts := by
  induction ts generalizing index with
  | nil => simp [firstInvalid]
  | cons t ts ih =>
    cases t with
    | invalid c =>
      simp only [firstInvalid, reduceCtorEq, false_iff]
      exact fun h ↦ h c List.mem_cons_self
    | literal | operator | groupOpen | groupClose => simp [firstInvalid, ih]

theorem validTokens_eq_ok_iff {ts : List Token} :
    validTokens alphabet source = .ok ts ↔
      ts = alphabet.tokenize source ∧ ts ≠ [] ∧ ∀ c, .invalid c ∉ ts := by
  dsimp only [validTokens]
  split
  · rename_i hempty
    constructor
    · intro h
      cases h
    · rintro ⟨rfl, hne, -⟩
      exact absurd (List.isEmpty_iff.1 hempty) hne
  · rename_i hne
    split
    · rename_i error herror
      constructor
      · intro h
        cases h
      · rintro ⟨rfl, -, hvalid⟩
        rw [firstInvalid_eq_none_iff.2 hvalid] at herror
        cases herror
    · rename_i hnone
      constructor
      · intro h
        cases h
        exact ⟨rfl, fun h ↦ hne (List.isEmpty_iff.2 h), firstInvalid_eq_none_iff.1 hnone⟩
      · rintro ⟨rfl, -⟩
        rfl

theorem ofSource_eq_ok_iff {parsed : Parsed} :
    ofSource alphabet source = .ok parsed ↔
      validTokens alphabet source = .ok parsed.tokens ∧
        parsed.withConcatenation = insertConcatenation parsed.tokens ∧
          toRpn parsed.withConcatenation = .ok parsed.rpn := by
  obtain ⟨tokens, withConcatenation, rpn⟩ := parsed
  unfold ofSource
  cases validTokens alphabet source with
  | error error => simp
  | ok tokens' =>
    dsimp only
    cases hrpn : toRpn (insertConcatenation tokens') with
    | error error =>
      simp only [Except.map, reduceCtorEq, Except.ok.injEq, false_iff]
      rintro ⟨rfl, rfl, h⟩
      rw [hrpn] at h
      cases h
    | ok rpn' =>
      simp only [Except.map, Except.ok.injEq, Parsed.mk.injEq]
      constructor
      · rintro ⟨rfl, rfl, rfl⟩
        exact ⟨rfl, rfl, hrpn⟩
      · rintro ⟨rfl, rfl, h⟩
        rw [hrpn] at h
        cases h
        exact ⟨rfl, rfl, rfl⟩

theorem firstInvalid_ne_emptyExpression {index : Nat} {ts : List Token} :
    firstInvalid index ts ≠ some .emptyExpression := by
  induction ts generalizing index with
  | nil => simp [firstInvalid]
  | cons t ts ih =>
    cases t with
    | invalid c =>
      intro h
      exact ParseError.ofInvalid_ne_emptyExpression c index (Option.some.inj h)
    | literal | operator | groupOpen | groupClose => exact ih

theorem validTokens_eq_emptyExpression_iff :
    validTokens alphabet source = .error .emptyExpression ↔ alphabet.tokenize source = [] := by
  dsimp only [validTokens]
  split
  · rename_i hempty
    simp [List.isEmpty_iff.1 hempty]
  · rename_i hne
    rw [List.isEmpty_iff] at hne
    split
    · rename_i error herror
      simp only [Except.error.injEq, hne, iff_false]
      intro h
      rw [h] at herror
      exact firstInvalid_ne_emptyExpression herror
    · simp [hne]

theorem ofSource_eq_emptyExpression_iff :
    ofSource alphabet source = .error .emptyExpression ↔ alphabet.tokenize source = [] := by
  rw [← validTokens_eq_emptyExpression_iff, ofSource]
  cases validTokens alphabet source with
  | error error => simp
  | ok tokens =>
    have hrpn := toRpn_ne_emptyExpression (insertConcatenation tokens)
    dsimp only
    cases hconverted : toRpn (insertConcatenation tokens) with
    | error error =>
      rw [hconverted] at hrpn
      simpa [Except.map] using hrpn
    | ok rpn => simp [Except.map]

theorem exists_ofSource_iff {rpn : List Token} :
    (∃ parsed, ofSource alphabet source = .ok parsed ∧ parsed.rpn = rpn) ↔
      alphabet.tokenize source ≠ [] ∧ (∀ c, .invalid c ∉ alphabet.tokenize source) ∧
        toRpn (insertConcatenation (alphabet.tokenize source)) = .ok rpn := by
  constructor
  · rintro ⟨parsed, hparsed, rfl⟩
    obtain ⟨htokens, hconcat, hrpn⟩ := ofSource_eq_ok_iff.1 hparsed
    obtain ⟨htokens, hne, hvalid⟩ := validTokens_eq_ok_iff.1 htokens
    rw [hconcat, htokens] at hrpn
    rw [htokens] at hne hvalid
    exact ⟨hne, hvalid, hrpn⟩
  · rintro ⟨hne, hvalid, hrpn⟩
    exact ⟨⟨_, _, rpn⟩, ofSource_eq_ok_iff.2 ⟨validTokens_eq_ok_iff.2 ⟨rfl, hne, hvalid⟩, rfl, hrpn⟩, rfl⟩

def ofExpr (tokens : List Token) (e : Expr) : Parsed where
  tokens
  withConcatenation := insertConcatenation tokens
  rpn := e.rpn

theorem ofSource_of_derives {e : Expr} (h : Derives .expression (alphabet.tokenize source) e) :
    ofSource alphabet source = .ok (ofExpr (alphabet.tokenize source) e) := by
  refine ofSource_eq_ok_iff.2 ⟨validTokens_eq_ok_iff.2 ⟨rfl, ?_, h.invalid_not_mem⟩, rfl, h.toRpn_eq⟩
  obtain ⟨t, ht, -⟩ := h.exists_head
  intro hnil
  rw [show alphabet.tokenize source = [] from hnil] at ht
  cases ht

theorem exists_derives_of_ofRpn {parsed : Parsed} {allocator : Allocator} {nfa : Nfa}
    (h : ofSource alphabet source = .ok parsed) (hnfa : (Nfa.ofRpn allocator parsed.rpn).1 = .ok nfa) :
    ∃ e, Derives .expression (alphabet.tokenize source) e := by
  obtain ⟨-, hvalid, hrpn⟩ := exists_ofSource_iff.1 ⟨parsed, h, rfl⟩
  obtain ⟨e, he, -⟩ := Nfa.ofRpn_eq_ok_iff.1 hnfa
  rw [he] at hrpn
  exact Derives.exists_of_toRpn hvalid (alphabet.concat_not_mem_tokenize source) hrpn

end Parsed

namespace Compilation

variable {config : Config} {parsed : Parsed} {nfa : Nfa} {c : Compilation}

theorem parts_of_ofNfa (h : ofNfa config parsed nfa = .ok c) :
    c.parsed = parsed ∧ c.nfa = nfa ∧ c.dfa = nfa.determinize := by
  rw [ofNfa] at h
  split at h
  · cases h
    exact ⟨rfl, rfl, rfl⟩
  · split at h
    · cases h
    · cases h
      exact ⟨rfl, rfl, rfl⟩

theorem stage_of_ofNfa_eq_error {error : CompileError} (h : ofNfa config parsed nfa = .error error) :
    error.stage = .derivation := by
  rw [ofNfa] at h
  split at h
  · cases h
  · split at h
    · cases h
      rfl
    · cases h

end Compilation

namespace Compiler

variable {compiler : Compiler} {source : String} {e : Expr} {c : Compilation}

theorem config_compile (compiler : Compiler) (source : String) :
    (compiler.compile source).2.config = compiler.config := by
  unfold compile
  split
  · rfl
  · rfl

/-- Earlier compilations make no difference. -/
theorem compile_new (compiler : Compiler) (source : String) :
    (compiler.compile source).1 = (({ config := compiler.config } : Compiler).compile source).1 := by
  unfold compile
  dsimp only
  split
  · rfl
  · rfl

theorem compile_of_derives (h : Derives .expression (compiler.config.alphabet.tokenize source) e) :
    (compiler.compile source).1 = Compilation.ofNfa compiler.config
      (.ofExpr (compiler.config.alphabet.tokenize source) e) (e.thompson 0) := by
  have hbuilt := Nfa.ofRpn_expr compiler.allocator.reset e
  rw [compile, Parsed.ofSource_of_derives h]
  dsimp only [Parsed.ofExpr]
  rw [hbuilt]
  rfl

/-- A compilation gets as far as the first stage that fails. -/
theorem compile_cases (compiler : Compiler) (source : String) :
    (∃ error, Parsed.ofSource compiler.config.alphabet source = .error error ∧
        (compiler.compile source).1 = .error (.parse error)) ∨
      ∃ parsed, Parsed.ofSource compiler.config.alphabet source = .ok parsed ∧
        ((∃ error, (Nfa.ofRpn compiler.allocator.reset parsed.rpn).1 = .error error ∧
            (compiler.compile source).1 = .error (.build error)) ∨
          ∃ nfa, (Nfa.ofRpn compiler.allocator.reset parsed.rpn).1 = .ok nfa ∧
            (compiler.compile source).1 = Compilation.ofNfa compiler.config parsed nfa) := by
  rw [compile]
  cases hparsed : Parsed.ofSource compiler.config.alphabet source with
  | error error => exact .inl ⟨error, rfl, rfl⟩
  | ok parsed =>
    refine .inr ⟨parsed, rfl, ?_⟩
    dsimp only
    cases (Nfa.ofRpn compiler.allocator.reset parsed.rpn).1 with
    | error error => exact .inl ⟨error, rfl, rfl⟩
    | ok nfa => exact .inr ⟨nfa, rfl, rfl⟩

theorem stages_of_compile (h : (compiler.compile source).1 = .ok c) :
    Parsed.ofSource compiler.config.alphabet source = .ok c.parsed ∧
      (Nfa.ofRpn compiler.allocator.reset c.parsed.rpn).1 = .ok c.nfa ∧
        Compilation.ofNfa compiler.config c.parsed c.nfa = .ok c := by
  rcases compiler.compile_cases source with
    ⟨error, -, hc⟩ | ⟨parsed, hparsed, ⟨error, -, hc⟩ | ⟨nfa, hbuilt, hc⟩⟩
  · rw [h] at hc
    cases hc
  · rw [h] at hc
    cases hc
  · rw [h] at hc
    obtain ⟨rfl, rfl, -⟩ := Compilation.parts_of_ofNfa hc.symm
    exact ⟨hparsed, hbuilt, hc.symm⟩

theorem exists_derives_of_compile (h : (compiler.compile source).1 = .ok c) :
    ∃ e, Derives .expression (compiler.config.alphabet.tokenize source) e := by
  obtain ⟨hparsed, hbuilt, -⟩ := stages_of_compile h
  exact Parsed.exists_derives_of_ofRpn hparsed hbuilt

theorem exists_tree_of_compile (h : (compiler.compile source).1 = .ok c) :
    ∃ e, Derives .expression (compiler.config.alphabet.tokenize source) e ∧
      c.nfa = e.thompson 0 ∧ c.dfa = c.nfa.determinize := by
  obtain ⟨e, he⟩ := exists_derives_of_compile h
  rw [compile_of_derives he] at h
  obtain ⟨-, hnfa, hdfa⟩ := Compilation.parts_of_ofNfa h
  rw [← hnfa] at hdfa
  exact ⟨e, he, hnfa, hdfa⟩

theorem exists_thompson_of_compile (h : (compiler.compile source).1 = .ok c) :
    ∃ e : Expr, c.nfa = e.thompson 0 ∧ c.dfa = c.nfa.determinize := by
  obtain ⟨e, -, hautomata⟩ := exists_tree_of_compile h
  exact ⟨e, hautomata⟩

theorem exists_compile_of_derives (compiler : Compiler) (hactions : compiler.config.stackActions = none)
    (h : Derives .expression (compiler.config.alphabet.tokenize source) e) :
    ∃ c, (compiler.compile source).1 = .ok c ∧ c.dfa = (e.thompson 0).determinize := by
  rw [compile_of_derives h, Compilation.ofNfa, hactions]
  exact ⟨_, rfl, rfl⟩

/-- Sources are compiled that are expressions of the grammar, and no other ones. -/
theorem compile_isOk_iff (alphabet : Alphabet) (allocator : Allocator) (source : String) :
    (∃ c, (({ config := { alphabet, stackActions := none }, allocator } : Compiler).compile source).1 =
      .ok c) ↔ ∃ e, Derives .expression (alphabet.tokenize source) e := by
  constructor
  · rintro ⟨c, hc⟩
    exact exists_derives_of_compile hc
  · rintro ⟨e, he⟩
    exact ⟨_, compile_of_derives he⟩

/-- A compilation that the stack actions do not stop gives automata for the words of the expression. -/
theorem compile_matches (compiler : Compiler) (source : String) (e : Expr)
    (h : Derives .expression (compiler.config.alphabet.tokenize source) e) :
    (∃ c, (compiler.compile source).1 = .ok c ∧ ∀ w : List Char,
        (c.nfa.accepts w = true ↔ e.Matches w) ∧ (c.dfa.accepts w = true ↔ e.Matches w)) ∨
      compiler.config.stackActions ≠ none ∧
        ∃ error, (compiler.compile source).1 = .error (.derive error) := by
  have hlanguage (w : List Char) : ((e.thompson 0).accepts w = true ↔ e.Matches w) ∧
      ((e.thompson 0).determinize.accepts w = true ↔ e.Matches w) := by
    rw [Nfa.accepts_determinize]
    exact ⟨e.accepts_thompson_iff 0 w, e.accepts_thompson_iff 0 w⟩
  rw [compile_of_derives h, Compilation.ofNfa]
  cases compiler.config.stackActions with
  | none => exact .inl ⟨_, rfl, hlanguage⟩
  | some actions =>
    dsimp only
    cases Pda.ofDfa (e.thompson 0).determinize actions with
    | error error => exact .inr ⟨by simp, error, rfl⟩
    | ok pda => exact .inl ⟨_, rfl, hlanguage⟩

theorem compile_matches_group :
    ∃ c, (({} : Compiler).compile "a(b|c)*").1 = .ok c ∧ c.nfa.accepts ['a', 'c', 'b'] = true ∧
      c.dfa.accepts ['a', 'c', 'b'] = true ∧ c.dfa.accepts ['b'] = false := by
  have hderives : Derives .expression (({} : Compiler).config.alphabet.tokenize "a(b|c)*")
      (.concat (.literal 'a') (.star (.alternation (.literal 'b') (.literal 'c')))) := by
    have hgroup := Derives.group (.alternation (.term (.factor (.atom (.literal 'b'))))
      (.factor (.atom (.literal 'c'))))
    exact .term (.concat (.factor (.atom (.literal 'a'))) (.star (.atom hgroup)))
  have hword : (Expr.concat (.literal 'a') (.star (.alternation (.literal 'b') (.literal 'c')))).Matches
      ['a', 'c', 'b'] :=
    .concat (.literal 'a') (.repeat (.right (.literal 'c')) (.repeat (.left (.literal 'b')) (.stop _)))
  rcases compile_matches {} "a(b|c)*" _ hderives with ⟨c, hc, hmatches⟩ | ⟨hactions, -⟩
  · refine ⟨c, hc, (hmatches _).1.2 hword, (hmatches _).2.2 hword, ?_⟩
    rw [← Bool.not_eq_true, (hmatches _).2]
    generalize hw : ['b'] = w
    intro h
    cases h with
    | concat hleft _ =>
      cases hleft
      exact absurd (List.cons_eq_cons.1 hw).1 (by decide)
  · exact absurd rfl hactions

end Compiler

end RegexCompiler
