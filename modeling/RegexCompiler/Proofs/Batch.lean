import RegexCompiler.CommandLine.Compile
import RegexCompiler.Proofs.ConstructionErrors

namespace RegexCompiler

namespace Text

/-- The lines of a byte sequence. Each ends with a line feed, or with a carriage return and a line feed;
the last one may lack an ending, unless it is empty. -/
inductive Lines : List UInt8 → List (List UInt8) → Prop
  | nil : Lines [] []
  | last {line : List UInt8} (hne : line ≠ []) (h : 10 ∉ line) : Lines line [line]
  | feed {line rest : List UInt8} {lines : List (List UInt8)} (h : 10 ∉ line)
    (hreturn : line.getLast? ≠ some 13) (hrest : Lines rest lines) : Lines (line ++ 10 :: rest) (line :: lines)
  | returnFeed {line rest : List UInt8} {lines : List (List UInt8)} (h : 10 ∉ line)
    (hrest : Lines rest lines) : Lines (line ++ 13 :: 10 :: rest) (line :: lines)

variable {bytes line : List UInt8} {lines : List (List UInt8)}

theorem splitLines_of_not_mem (hne : line ≠ []) (h : 10 ∉ line) : splitLines line = [line] := by
  rw [splitLines, List.splitOn_eq_singleton h]
  simp [hne]

theorem splitLines_append_feed (h : 10 ∉ line) (rest : List UInt8) :
    splitLines (line ++ 10 :: rest) = dropReturn line :: splitLines rest := by
  have hne : rest.splitOn 10 ≠ [] := List.splitOn_ne_nil 10 rest
  simp only [splitLines, List.splitOn_append_cons_self_of_not_mem h]
  rw [List.dropLast_cons_of_ne_nil hne, List.getLast?_cons_of_ne_nil hne]
  rfl

theorem dropReturn_append_return (line : List UInt8) : dropReturn (line ++ [13]) = line := by
  simp [dropReturn]

theorem Lines.splitLines_eq (h : Lines bytes lines) : splitLines bytes = lines := by
  induction h with
  | nil => rfl
  | last hne h => exact splitLines_of_not_mem hne h
  | feed h hreturn hrest ih => rw [splitLines_append_feed h, dropReturn, if_neg hreturn, ih]
  | @returnFeed line rest lines h hrest ih =>
    have hline : 10 ∉ line ++ [13] := by simp [h]
    have hsplit := splitLines_append_feed hline rest
    rw [List.append_assoc, List.singleton_append, dropReturn_append_return, ih] at hsplit
    exact hsplit

theorem lines_splitLines (bytes : List UInt8) : Lines bytes (splitLines bytes) := by
  by_cases hfeed : 10 ∈ bytes
  · obtain ⟨line, rest, hbytes, hline⟩ := List.eq_append_cons_of_mem hfeed
    have hrest := lines_splitLines rest
    rw [hbytes, splitLines_append_feed hline]
    by_cases hreturn : line.getLast? = some 13
    · obtain ⟨body, rfl⟩ := List.getLast?_eq_some_iff.1 hreturn
      have hbody : 10 ∉ body := fun h ↦ hline (List.mem_append_left _ h)
      rw [dropReturn_append_return, List.append_assoc]
      exact .returnFeed hbody hrest
    · rw [dropReturn, if_neg hreturn]
      exact .feed hline hreturn hrest
  · by_cases hempty : bytes = []
    · rw [hempty]
      exact .nil
    · rw [splitLines_of_not_mem hempty hfeed]
      exact .last hempty hfeed
  termination_by bytes.length
  decreasing_by
    rw [hbytes, List.length_append, List.length_cons]
    omega

/-- Every byte sequence has its lines, and the reader finds them. -/
theorem lines_iff : Lines bytes lines ↔ splitLines bytes = lines := by
  constructor
  · exact Lines.splitLines_eq
  · intro h
    rw [← h]
    exact lines_splitLines bytes

end Text

namespace CommandLine

namespace Outcome

theorem foldl_status (status : Nat) (outcomes : List Outcome) :
    outcomes.foldl (fun status outcome ↦ max status outcome.status) status =
      max status (join outcomes).status := by
  have hassoc : (outcomes.map Outcome.status).foldl max (max status 0) =
      max status ((outcomes.map Outcome.status).foldl max 0) := List.foldl_assoc
  simpa [List.foldl_map, join] using hassoc

theorem join_append (outcomes outcomes' : List Outcome) : join (outcomes ++ outcomes') = {
    status := max (join outcomes).status (join outcomes').status
    stdout := (join outcomes).stdout ++ (join outcomes').stdout
    stderr := (join outcomes).stderr ++ (join outcomes').stderr } := by
  have hstatus : (join (outcomes ++ outcomes')).status = _ :=
    (List.foldl_append ..).trans (foldl_status _ outcomes')
  simp only [join, List.map_append, String.join_append] at hstatus ⊢
  rw [hstatus]

theorem join_singleton (outcome : Outcome) : join [outcome] = outcome := by
  simp [join]

end Outcome

theorem tokenize_eq_nil_iff (alphabet : Alphabet) (source : String) :
    alphabet.tokenize source = [] ↔ isBlankLine source = true := by
  simp [Alphabet.tokenize, isBlankLine]

def report? (format : Format) (config : Config) (source : String) : Option String :=
  match (({ config } : Compiler).compile source).1 with
  | .ok compilation => some (Report.text format source compilation)
  | .error _ => none

def failure? (config : Config) (source : String) : Option String :=
  match (({ config } : Compiler).compile source).1 with
  | .ok _ => none
  | .error error =>
    some s!"Err: {Text.quoted source} failed during {error.stage.name}: {error.message}\n"

def filled (lines : List String) : List String := lines.filter fun line ↦ !isBlankLine line

/-- The outcomes of runs that know nothing of each other. -/
def runs (format : Format) (config : Config) (sources : List String) : List Outcome :=
  sources.map fun source ↦ outcomeOf format source (({ config } : Compiler).compile source).1

variable {format : Format} {config : Config} {compiler : Compiler} {lines : List (List UInt8)}
variable {sources : List String} {source : String}

/-- A report to be read begins with the steps of the compilation and the nondeterministic automaton. -/
theorem exists_text (source : String) (c : Compilation) : ∃ automata, Report.text .text source c =
    String.join ((Report.stepLines source c.parsed ++ Report.nfaLines c.nfa).map (· ++ "\n")) ++ automata := by
  refine ⟨String.join ((Report.dfaLines c.dfa ++ c.pda.toList.flatMap Report.pdaLines).map (· ++ "\n")), ?_⟩
  rw [← String.join_append, ← List.map_append, ← List.append_assoc]
  rfl

theorem batch_cons_of_blank {line : List UInt8} (hline : Text.decode line = some source)
    (hblank : isBlankLine source = true) (lines : List (List UInt8)) :
    batch format compiler (line :: lines) = batch format compiler lines := by
  rw [batch, hline]
  simp only [hblank, if_true]

theorem batch_cons_of_filled {line : List UInt8} (hline : Text.decode line = some source)
    (hfilled : isBlankLine source = false) (lines : List (List UInt8)) :
    batch format compiler (line :: lines) =
      outcomeOf format source (({ config := compiler.config } : Compiler).compile source).1 ::
        batch format (compiler.compile source).2 lines := by
  rw [batch, hline, ← Compiler.compile_new]
  simp [hfilled]

/-- Lines that are text are compiled one by one, whatever follows them. The compiler that is left behind
has the same configuration. -/
theorem exists_batch_append (format : Format) (compiler : Compiler) (hconfig : compiler.config = config)
    (hsources : lines.map Text.decode = sources.map some) (rest : List (List UInt8)) :
    ∃ next : Compiler, next.config = config ∧
      batch format compiler (lines ++ rest) =
        runs format config (filled sources) ++ batch format next rest := by
  induction lines generalizing sources compiler with
  | nil =>
    obtain rfl : sources = [] := List.map_eq_nil_iff.1 hsources.symm
    exact ⟨compiler, hconfig, rfl⟩
  | cons line lines ih =>
    obtain ⟨source, others, rfl, hline, hothers⟩ := List.map_eq_cons_iff.1 hsources.symm
    rw [List.cons_append, filled]
    cases hblank : isBlankLine source with
    | true =>
      rw [batch_cons_of_blank hline.symm hblank, List.filter_cons_of_neg (by simp [hblank])]
      exact ih compiler hconfig hothers.symm
    | false =>
      obtain ⟨next, hnext, hbatch⟩ := ih (compiler.compile source).2
        ((compiler.config_compile source).trans hconfig) hothers.symm
      refine ⟨next, hnext, ?_⟩
      rw [batch_cons_of_filled hline.symm hblank, List.filter_cons_of_pos (by simp [hblank]), hbatch, hconfig]
      rfl

theorem outcomeOf_new (format : Format) (config : Config) (source : String) :
    outcomeOf format source (({ config } : Compiler).compile source).1 = {
      status := if failure? config source = none then 0 else 1
      stdout := (report? format config source).getD ""
      stderr := (failure? config source).getD "" } := by
  rw [report?, failure?]
  cases (({ config } : Compiler).compile source).1 with
  | ok compilation => rfl
  | error error => rfl

theorem join_runs (format : Format) (config : Config) (sources : List String) :
    Outcome.join (runs format config sources) = {
      status := if sources.filterMap (failure? config) = [] then 0 else 1
      stdout := String.join (sources.filterMap (report? format config))
      stderr := String.join (sources.filterMap (failure? config)) } := by
  induction sources with
  | nil => rfl
  | cons source sources ih =>
    have hcons := Outcome.join_append (runs format config [source]) (runs format config sources)
    have hhead : Outcome.join (runs format config [source]) = _ :=
      (Outcome.join_singleton _).trans (outcomeOf_new format config source)
    rw [hhead, ih] at hcons
    refine hcons.trans ?_
    rw [List.filterMap_cons, List.filterMap_cons, Outcome.mk.injEq]
    refine ⟨?_, ?_, ?_⟩
    · cases failure? config source with
      | none => simp
      | some failure => by_cases hnil : sources.filterMap (failure? config) = [] <;> simp [hnil]
    · cases report? format config source with
      | none => simp
      | some report => simp [String.join_cons]
    · cases failure? config source with
      | none => simp
      | some failure => simp [String.join_cons]

theorem compile_ne_emptyExpression (config : Config) (hsource : source ∈ filled sources) :
    (({ config } : Compiler).compile source).1 ≠ .error (.parse .emptyExpression) := by
  intro h
  rw [Compiler.compile_eq_parse_error_iff, Parsed.ofSource_eq_emptyExpression_iff, tokenize_eq_nil_iff] at h
  have hfilled := (List.mem_filter.1 hsource).2
  simp [h] at hfilled

namespace Options

theorem run_of_lines {options : Options} {config : Config} (hregex : options.regex = none)
    (hconfig : options.config = .ok config) {stdin : List UInt8} {lines : List (List UInt8)}
    (hlines : Text.Lines stdin lines) :
    options.run stdin = .join (batch options.format { config } lines) := by
  rw [run, hconfig]
  simp only [hregex, hlines.splitLines_eq]

/-- Lines are compiled as if each had a compiler of its own: the reports come one after another, so do the
lines about failures, and the status says whether there is any of those. A line that is not text ends the
run, whatever comes after it. That nothing is left of a source is never the reason of a failure. -/
theorem run_lines (options : Options) (config : Config) (hregex : options.regex = none)
    (hconfig : options.config = .ok config) (lines : List (List UInt8)) (sources : List String)
    (hsources : lines.map Text.decode = sources.map some) :
    let reports := (filled sources).filterMap (report? options.format config)
    let failures := (filled sources).filterMap (failure? config)
    (∀ stdin, Text.Lines stdin lines → options.run stdin = {
        status := if failures = [] then 0 else 1
        stdout := String.join reports
        stderr := String.join failures }) ∧
      (∀ stdin line rest, Text.Lines stdin (lines ++ line :: rest) → Text.decode line = none →
        options.run stdin = {
          status := 1
          stdout := String.join reports
          stderr := String.join failures ++ unreadable.stderr }) ∧
      ∀ source ∈ filled sources,
        (({ config } : Compiler).compile source).1 ≠ .error (.parse .emptyExpression) := by
  intro reports failures
  refine ⟨?_, ?_, fun source hsource ↦ compile_ne_emptyExpression config hsource⟩
  · intro stdin hlines
    obtain ⟨next, -, hbatch⟩ := exists_batch_append options.format { config } rfl hsources []
    rw [List.append_nil] at hbatch
    rw [run_of_lines hregex hconfig hlines, hbatch, batch, List.append_nil, join_runs]
  · intro stdin line rest hlines hline
    obtain ⟨next, -, hbatch⟩ := exists_batch_append options.format { config } rfl hsources (line :: rest)
    have hlast : batch options.format next (line :: rest) = [unreadable] := by rw [batch, hline]
    rw [run_of_lines hregex hconfig hlines, hbatch, hlast, Outcome.join_append, join_runs,
      Outcome.join_singleton]
    have hstatus : max (if failures = [] then 0 else 1) unreadable.status = 1 := by
      split
      · rfl
      · rfl
    rw [hstatus]
    simp [unreadable, Outcome.failure, reports, failures]

theorem run_lines_crlf : ∃ automata,
    let report := "Regex: ab\nTokens: a b\nWith concatenation: a . b\nPostfix: a b .\n" ++
      "NFA: start q0, accept q3, 3 transitions\n  q0 -a-> q1\n  q1 -ε-> q2\n  q2 -b-> q3\n" ++ automata
    let failure := "Err: \"a|\" failed during NFA construction: " ++
      "operator '|' is missing an operand (postfix token 1)\n"
    report? .text {} "ab" = some report ∧ failure? {} "a|" = some failure ∧
      ({} : Options).run [97, 98, 13, 10, 9, 10, 97, 124] =
        { status := 1, stdout := report, stderr := failure } ∧
      ({} : Options).run [97, 98, 13, 10, 9, 10, 97, 124, 10, 255, 10, 97] =
        { status := 1, stdout := report, stderr := failure ++ unreadable.stderr } := by
  have hsources : [[97, 98], [9], [97, 124]].map Text.decode = ["ab", "\t", "a|"].map some := by decide
  have hfilled : filled ["ab", "\t", "a|"] = ["ab", "a|"] := by decide
  have hderives : Derives .expression (({} : Compiler).config.alphabet.tokenize "ab")
      (.concat (.literal 'a') (.literal 'b')) :=
    .term (.concat (.factor (.atom (.literal 'a'))) (.atom (.literal 'b')))
  let nfa : Nfa := (Expr.concat (.literal 'a') (.literal 'b')).thompson 0
  let c : Compilation := ⟨.ofExpr (({} : Compiler).config.alphabet.tokenize "ab")
    (.concat (.literal 'a') (.literal 'b')), nfa, nfa.determinize, none⟩
  have hcompile : (({} : Compiler).compile "ab").1 = .ok c := Compiler.compile_of_derives hderives
  have hrefused : (({} : Compiler).compile "a|").1 =
      .error (.build (.missingOperand .alternation 1)) := by decide
  have hlines : String.join ((Report.stepLines "ab" c.parsed ++ Report.nfaLines c.nfa).map (· ++ "\n")) =
      "Regex: ab\nTokens: a b\nWith concatenation: a . b\nPostfix: a b .\n" ++
        "NFA: start q0, accept q3, 3 transitions\n  q0 -a-> q1\n  q1 -ε-> q2\n  q2 -b-> q3\n" := by
    decide +kernel
  obtain ⟨automata, htext⟩ := exists_text "ab" c
  have hreport : report? .text {} "ab" = some (Report.text .text "ab" c) := by rw [report?, hcompile]
  rw [htext, hlines] at hreport
  have hnone : failure? {} "ab" = none := by rw [failure?, hcompile]
  have hfailure : failure? {} "a|" = some ("Err: \"a|\" failed during NFA construction: " ++
      "operator '|' is missing an operand (postfix token 1)\n") := by
    rw [failure?, hrefused]
    decide +kernel
  have hsilent : report? .text {} "a|" = none := by rw [report?, hrefused]
  obtain ⟨hread, hstopped, -⟩ := run_lines {} {} rfl rfl _ _ hsources
  have hwhole := hread [97, 98, 13, 10, 9, 10, 97, 124] (Text.lines_iff.2 (by decide))
  have hpart := hstopped [97, 98, 13, 10, 9, 10, 97, 124, 10, 255, 10, 97] [255] [[97]]
    (Text.lines_iff.2 (by decide)) (by decide)
  rw [hfilled] at hwhole hpart
  simp only [List.filterMap_cons, List.filterMap_nil, hreport, hnone, hfailure, hsilent] at hwhole hpart
  refine ⟨automata, hreport, hfailure, hwhole.trans ?_, hpart.trans ?_⟩
  · simp [String.join_cons]
  · simp [String.join_cons]

end Options

end CommandLine

end RegexCompiler
