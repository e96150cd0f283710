import RegexCompiler.Proofs.Compilation

namespace RegexCompiler

open Token

namespace Conversion

theorem groupDepth_replicate_groupOpen (depth n : Nat) :
    groupDepth depth (List.replicate n .groupOpen) = some (depth + n) := by
  induction n generalizing depth with
  | zero => rfl
  | succ n ih =>
    have h := ih (depth + 1)
    rw [Nat.add_right_comm] at h
    exact h

theorem groupDepth_replicate_groupClose {depth n : Nat} :
    groupDepth depth (List.replicate n .groupClose) = some 0 ↔ depth = n := by
  induction n generalizing depth with
  | zero => simp [groupDepth]
  | succ n ih =>
    cases depth with
    | zero => simp [List.replicate_succ, groupDepth]
    | succ depth =>
      rw [List.replicate_succ, groupDepth, ih]
      omega

end Conversion

namespace Token

variable {t : Token} {ts rpn : List Token}

def emptyGroups (depth : Nat) : List Token :=
  List.replicate depth .groupOpen ++ List.replicate depth .groupClose

theorem isGroup_of_mem_emptyGroups {depth : Nat} (h : t ∈ emptyGroups depth) : t.isGroup = true := by
  rcases List.mem_append.1 h with h | h
  · rw [List.eq_of_mem_replicate h]
    rfl
  · rw [List.eq_of_mem_replicate h]
    rfl

theorem invalid_not_mem_emptyGroups {depth : Nat} (c : Char) : .invalid c ∉ emptyGroups depth := by
  intro h
  cases isGroup_of_mem_emptyGroups h

theorem insertConcatenation_replicate_groupClose (n : Nat) :
    insertConcatenation (List.replicate n .groupClose) = List.replicate n .groupClose := by
  induction n with
  | zero => rfl
  | succ n ih =>
    have hseam : seam [.groupClose] (List.replicate n .groupClose) = [] := by
      cases n with
      | zero => exact seam_nil _
      | succ n => exact seam_of_not_startsOperand rfl rfl _
    rw [List.replicate_succ, insertConcatenation_cons, hseam, ih]
    rfl

theorem insertConcatenation_replicate_groupOpen_append (n : Nat) (ts : List Token) :
    insertConcatenation (List.replicate n .groupOpen ++ ts) =
      List.replicate n .groupOpen ++ insertConcatenation ts := by
  induction n with
  | zero => rfl
  | succ n ih =>
    have hseam : seam [.groupOpen] (List.replicate n .groupOpen ++ ts) = [] :=
      seam_of_not_endsOperand rfl rfl _
    rw [List.replicate_succ, List.cons_append, insertConcatenation_cons, hseam, ih]
    rfl

theorem insertConcatenation_emptyGroups (depth : Nat) :
    insertConcatenation (emptyGroups depth) = emptyGroups depth := by
  rw [emptyGroups, insertConcatenation_replicate_groupOpen_append,
    insertConcatenation_replicate_groupClose]

theorem exists_replicate_of_isGroup (h : ∀ t ∈ insertConcatenation ts, t.isGroup = true) :
    ∃ m n, ts = List.replicate m .groupOpen ++ List.replicate n .groupClose := by
  induction ts with
  | nil => exact ⟨0, 0, rfl⟩
  | cons t ts ih =>
    rw [insertConcatenation_cons] at h
    have hrest : ∀ t ∈ insertConcatenation ts, t.isGroup = true := fun t' ht' ↦
      h t' (List.mem_cons_of_mem t (List.mem_append_right _ ht'))
    obtain ⟨m, n, rfl⟩ := ih hrest
    have ht := h t List.mem_cons_self
    cases t with
    | groupOpen => exact ⟨m + 1, n, rfl⟩
    | groupClose =>
      -- An opening group after this closing one is joined to it, and no concatenation may occur.
      cases m with
      | zero => exact ⟨0, n + 1, rfl⟩
      | succ m =>
        have hjoined : Token.operator .concat ∈
            seam [.groupClose] (List.replicate (m + 1) .groupOpen ++ List.replicate n .groupClose) := by
          rw [seam_of_joins rfl rfl rfl rfl]
          exact List.mem_singleton_self _
        have hgroup := h _ (List.mem_cons_of_mem _ (List.mem_append_left _ hjoined))
        cases hgroup
    | literal | operator | invalid => cases ht

theorem eq_nil_iff_isGroup (h : toRpn ts = .ok rpn) : rpn = [] ↔ ∀ t ∈ ts, t.isGroup = true := by
  have hlength := (perm_of_toRpn_eq_ok h).length_eq
  rw [← List.length_eq_zero_iff, hlength, List.length_eq_zero_iff, List.filter_eq_nil_iff]
  simp

/-- Groups around nothing are all that the conversion drops entirely. -/
theorem toRpn_eq_nil_iff : toRpn (insertConcatenation ts) = .ok [] ↔ ∃ depth, ts = emptyGroups depth := by
  constructor
  · intro h
    obtain ⟨m, n, rfl⟩ := exists_replicate_of_isGroup ((eq_nil_iff_isGroup h).1 rfl)
    have hdepth := groupDepth_of_toRpn_eq_ok h
    rw [Conversion.groupDepth_insertConcatenation, Conversion.groupDepth_append,
      Conversion.groupDepth_replicate_groupOpen] at hdepth
    have hn : 0 + m = n := Conversion.groupDepth_replicate_groupClose.1 hdepth
    rw [Nat.zero_add] at hn
    exact ⟨m, by rw [hn, emptyGroups]⟩
  · intro h
    obtain ⟨depth, rfl⟩ := h
    rw [insertConcatenation_emptyGroups]
    have hdepth : Conversion.groupDepth 0 (emptyGroups depth) = some 0 := by
      rw [emptyGroups, Conversion.groupDepth_append, Conversion.groupDepth_replicate_groupOpen]
      exact Conversion.groupDepth_replicate_groupClose.2 (Nat.zero_add depth)
    obtain ⟨rpn, hrpn⟩ := exists_toRpn_of_groupDepth invalid_not_mem_emptyGroups hdepth
    rw [hrpn, (eq_nil_iff_isGroup hrpn).2 fun t ht ↦ isGroup_of_mem_emptyGroups ht]

theorem eq_operator_of_toRpn (hinvalid : ∀ c, .invalid c ∉ ts)
    (h : toRpn (insertConcatenation ts) = .ok rpn) (ht : t ∈ rpn) (hliteral : ∀ c, t ≠ .literal c) :
    ∃ op, t = .operator op := by
  obtain ⟨hmem, hgroup⟩ := List.mem_filter.1 ((perm_of_toRpn_eq_ok h).mem_iff.1 ht)
  cases t with
  | literal c => exact absurd rfl (hliteral c)
  | operator op => exact ⟨op, rfl⟩
  | groupOpen | groupClose => cases hgroup
  | invalid c =>
    rcases mem_of_mem_insertConcatenation hmem with hc | hc
    · cases hc
    · exact absurd hc (hinvalid c)

end Token

namespace Nfa

/-- What becomes of the converted tokens of a source: a tree, nothing at all, or an operator without its
operands. -/
theorem exists_ofRpn_toRpn {ts rpn : List Token} (hinvalid : ∀ c, .invalid c ∉ ts)
    (h : toRpn (insertConcatenation ts) = .ok rpn) (allocator : Allocator) :
    (∃ e : Expr, rpn = e.rpn ∧ (ofRpn allocator rpn).1 = .ok (e.thompson allocator.next)) ∨
      (rpn = [] ∧ (ofRpn allocator rpn).1 = .error .noFragment) ∨
        ∃ op position, (ofRpn allocator rpn).1 = .error (.missingOperand op position) := by
  rcases exists_ofRpn allocator rpn with ⟨es, rfl, hbuilt⟩ | ⟨t, ht, hliteral, position, hbuilt⟩
  · have hlength := length_add_gaps_of_toRpn hinvalid h
    rcases es with _ | ⟨e, _ | ⟨e', es⟩⟩
    · exact .inr (.inl ⟨rfl, hbuilt⟩)
    · exact .inl ⟨e, rfl, hbuilt⟩
    -- More than one tree would be left only if the inserted concatenations did not join them.
    · simp only [List.length_cons] at hlength
      omega
  · obtain ⟨op, rfl⟩ := eq_operator_of_toRpn hinvalid h ht hliteral
    exact .inr (.inr ⟨op, position, hbuilt⟩)

end Nfa

namespace Compiler

variable {compiler : Compiler} {source : String}

theorem compile_eq_parse_error_iff {error : ParseError} :
    (compiler.compile source).1 = .error (.parse error) ↔
      Parsed.ofSource compiler.config.alphabet source = .error error := by
  rcases compiler.compile_cases source with
    ⟨error, hparsed, hc⟩ | ⟨parsed, hparsed, ⟨error, -, hc⟩ | ⟨nfa, -, hc⟩⟩
  · rw [hparsed, hc]
    simp
  · rw [hparsed, hc]
    simp
  · rw [hparsed, hc]
    simp only [reduceCtorEq, iff_false]
    intro h
    cases Compilation.stage_of_ofNfa_eq_error h

theorem compile_eq_build_error_iff {error : BuildError} :
    (compiler.compile source).1 = .error (.build error) ↔
      ∃ parsed, Parsed.ofSource compiler.config.alphabet source = .ok parsed ∧
        (Nfa.ofRpn compiler.allocator.reset parsed.rpn).1 = .error error := by
  rcases compiler.compile_cases source with
    ⟨error, hparsed, hc⟩ | ⟨parsed, hparsed, ⟨error, hbuilt, hc⟩ | ⟨nfa, hbuilt, hc⟩⟩
  · simp [hparsed, hc]
  · simp [hparsed, hbuilt, hc]
  · have hderivation : Compilation.ofNfa compiler.config parsed nfa ≠ .error (.build error) := by
      intro h
      cases Compilation.stage_of_ofNfa_eq_error h
    simp [hparsed, hbuilt, hc, hderivation]

theorem exists_build_error_iff {parsed : Parsed}
    (h : Parsed.ofSource compiler.config.alphabet source = .ok parsed) :
    (∃ error, (compiler.compile source).1 = .error (.build error)) ↔
      ¬ ∃ e, Derives .expression (compiler.config.alphabet.tokenize source) e := by
  constructor
  · intro hbuild hderives
    obtain ⟨error, herror⟩ := hbuild
    obtain ⟨e, he⟩ := hderives
    rw [compile_of_derives he] at herror
    cases Compilation.stage_of_ofNfa_eq_error herror
  · intro hderives
    cases hbuilt : (Nfa.ofRpn compiler.allocator.reset parsed.rpn).1 with
    | error error => exact ⟨error, compile_eq_build_error_iff.2 ⟨parsed, h, hbuilt⟩⟩
    | ok nfa => exact absurd (Parsed.exists_derives_of_ofRpn h hbuilt) hderives

theorem build_error_cases {error : BuildError} (h : (compiler.compile source).1 = .error (.build error)) :
    (error = .noFragment ∧
        ∃ depth, 1 ≤ depth ∧ compiler.config.alphabet.tokenize source = emptyGroups depth) ∨
      ∃ op position, error = .missingOperand op position := by
  obtain ⟨parsed, hparsed, hbuilt⟩ := compile_eq_build_error_iff.1 h
  obtain ⟨hne, hvalid, hrpn⟩ := Parsed.exists_ofSource_iff.1 ⟨parsed, hparsed, rfl⟩
  rcases Nfa.exists_ofRpn_toRpn hvalid hrpn compiler.allocator.reset with
    ⟨e, -, hok⟩ | ⟨hnil, hempty⟩ | ⟨op, position, hmissing⟩
  · rw [hbuilt] at hok
    cases hok
  · rw [hnil] at hrpn
    obtain ⟨depth, hdepth⟩ := toRpn_eq_nil_iff.1 hrpn
    rw [hbuilt] at hempty
    refine .inl ⟨Except.error.inj hempty, depth, ?_, hdepth⟩
    by_contra hle
    obtain rfl : depth = 0 := by omega
    exact hne hdepth
  · rw [hbuilt] at hmissing
    exact .inr ⟨op, position, Except.error.inj hmissing⟩

theorem compile_emptyGroups {depth : Nat} (hle : 1 ≤ depth)
    (h : compiler.config.alphabet.tokenize source = emptyGroups depth) :
    (compiler.compile source).1 = .error (.build .noFragment) := by
  have hne : compiler.config.alphabet.tokenize source ≠ [] := by
    intro hnil
    have hlength := congrArg List.length (h.symm.trans hnil)
    rw [emptyGroups, List.length_append, List.length_replicate, List.length_nil] at hlength
    omega
  have hvalid : ∀ c, .invalid c ∉ compiler.config.alphabet.tokenize source := by
    rw [h]
    exact invalid_not_mem_emptyGroups
  have hrpn := toRpn_eq_nil_iff.2 ⟨depth, h⟩
  obtain ⟨parsed, hparsed, hnil⟩ := Parsed.exists_ofSource_iff.2 ⟨hne, hvalid, hrpn⟩
  refine compile_eq_build_error_iff.2 ⟨parsed, hparsed, ?_⟩
  rw [hnil]
  rfl

/-- The construction refuses what can be parsed and is no expression: groups around nothing, of which no
fragment is left, and in all other cases an operator that is missing an operand. -/
theorem compile_construction_error_iff (compiler : Compiler) (source : String) :
    ((∃ error, (compiler.compile source).1 = .error error ∧ error.stage = .construction) ↔
        (∃ parsed, Parsed.ofSource compiler.config.alphabet source = .ok parsed) ∧
          ¬ ∃ e, Derives .expression (compiler.config.alphabet.tokenize source) e) ∧
      ((compiler.compile source).1 = .error (.build .noFragment) ↔
        ∃ depth, 1 ≤ depth ∧ compiler.config.alphabet.tokenize source = emptyGroups depth) ∧
      ∀ error, (compiler.compile source).1 = .error (.build error) →
        error = .noFragment ∨ ∃ op position, error = .missingOperand op position := by
  refine ⟨⟨?_, ?_⟩, ⟨?_, ?_⟩, ?_⟩
  · intro h
    obtain ⟨error, herror, hstage⟩ := h
    cases error with
    | build error =>
      obtain ⟨parsed, hparsed, -⟩ := compile_eq_build_error_iff.1 herror
      exact ⟨⟨parsed, hparsed⟩, (exists_build_error_iff hparsed).1 ⟨error, herror⟩⟩
    | parse | derive => cases hstage
  · intro h
    obtain ⟨⟨parsed, hparsed⟩, hderives⟩ := h
    obtain ⟨error, herror⟩ := (exists_build_error_iff hparsed).2 hderives
    exact ⟨.build error, herror, rfl⟩
  · intro h
    rcases build_error_cases h with ⟨-, hdepth⟩ | ⟨op, position, hmissing⟩
    · exact hdepth
    · cases hmissing
  · intro h
    obtain ⟨depth, hle, hdepth⟩ := h
    exact compile_emptyGroups hle hdepth
  · intro error h
    exact (build_error_cases h).imp_left And.left

end Compiler

end RegexCompiler
