import RegexCompiler.CommandLine.Fuzz
import RegexCompiler.Proofs.Agreement
import RegexCompiler.Proofs.RandomEdit
import RegexCompiler.Proofs.Tally

namespace RegexCompiler

namespace Compiler

theorem config_check (compiler : Compiler) (source : String) (maxLength : Nat) :
    (compiler.check source maxLength).2.config = compiler.config := by
  have hconfig := compiler.config_compile source
  rcases hcompile : compiler.compile source with ⟨error | c, next⟩
  · rw [hcompile] at hconfig
    rw [check, hcompile]
    exact hconfig
  · rw [hcompile] at hconfig
    rw [check, hcompile]
    dsimp only
    split
    · exact hconfig
    · exact hconfig

/-- The verdict on a source rejects it only if it does not compile. -/
theorem exists_verdict (config : Config) (source : String) (maxLength : Nat) :
    ∃ verdict, (∀ compiler : Compiler, compiler.config = config →
        (compiler.check source maxLength).1 = .ok verdict) ∧
      ∀ stage c, verdict = .rejected stage → (({ config } : Compiler).compile source).1 ≠ .ok c := by
  cases hresult : (({ config } : Compiler).compile source).1 with
  | error error =>
    refine ⟨.rejected error.stage, fun compiler hconfig ↦ ?_, by simp⟩
    apply check_of_error
    rw [compile_new, hconfig, hresult]
  | ok c =>
    refine ⟨.agreed _, fun compiler hconfig ↦ check_of_ok (c := c) ?_ maxLength, by simp⟩
    rw [compile_new, hconfig, hresult]

end Compiler

namespace Fuzzer

/-- The sources that can be drawn: those of the trees over the charset, and what edits make of them. -/
inductive Drawn (fuzzer : Fuzzer) : String → Bool → Prop
  | plain {e : Expr} (h : ∀ c ∈ e.literals, c ∈ fuzzer.charset) : Drawn fuzzer (String.ofList e.source) false
  | edited {e : Expr} {edit : Edit} {cs : List Char} (h : ∀ c ∈ e.literals, c ∈ fuzzer.charset)
    (hedit : Edit.Yields e.source edit cs) : Drawn fuzzer (String.ofList cs) true

structure Round where
  source : String
  edited : Bool
  verdict : Verdict

/-- A round on a source that can be drawn, with the verdict that a check gives. Only an edit can have made
the source one that is rejected. -/
structure Sound (fuzzer : Fuzzer) (round : Round) : Prop where
  drawn : fuzzer.Drawn round.source round.edited
  check_eq : ∀ allocator, (({ allocator } : Compiler).check round.source fuzzer.maxLength).1 = .ok round.verdict
  edited_of_rejected : ∀ stage, round.verdict = .rejected stage → round.edited = true

variable {γ : Type} [RandomSource γ]

/-- Rounds one after another, each on the source that is drawn from where the one before left the random
numbers. -/
inductive Plays (fuzzer : Fuzzer) : γ → List Round → γ → Prop
  | nil (state : γ) : Plays fuzzer state [] state
  | cons {state next last : γ} {round : Round} {rounds : List Round}
    (hdrawn : fuzzer.drawSource.run state = (some (round.source, round.edited), next))
    (hround : fuzzer.Sound round) (hrest : Plays fuzzer next rounds last) :
    Plays fuzzer state (round :: rounds) last

variable {fuzzer : Fuzzer} {source : String} {edited : Bool} {played : List Round}

theorem returns_drawSource (hne : fuzzer.charset ≠ []) :
    Draw.Returns (fuzzer.drawSource : Draw γ _) fun drawn ↦ fuzzer.Drawn drawn.1 drawn.2 := by
  apply (Expr.returns_draw hne fuzzer.depth).bind
  intro e he
  apply (Draw.returns_chance (by decide)).bind
  intro edited _
  split
  · apply (Edit.returns_applyAny (by decide) e.source).bind
    intro cs hcs
    obtain ⟨edit, hedit⟩ := hcs
    exact Draw.returns_pure (.edited he hedit)
  · exact Draw.returns_pure (.plain he)

theorem exists_sound (hsymbols : ∀ c ∈ fuzzer.charset, ({} : Alphabet).isSymbol c = true)
    (hdrawn : fuzzer.Drawn source edited) : ∃ verdict, fuzzer.Sound ⟨source, edited, verdict⟩ := by
  obtain ⟨verdict, hcheck, hcompiled⟩ := Compiler.exists_verdict {} source fuzzer.maxLength
  refine ⟨verdict, hdrawn, fun allocator ↦ hcheck _ rfl, fun stage hstage ↦ ?_⟩
  cases hdrawn with
  | edited => rfl
  | plain h =>
    obtain ⟨c, hc, -⟩ := Compiler.exists_compile_source {} rfl fun d hd ↦ hsymbols d (h d hd)
    exact absurd hc (hcompiled stage c hstage)

/-- Whatever the numbers drawn, any number of rounds can be played. -/
theorem exists_plays (hne : fuzzer.charset ≠ [])
    (hsymbols : ∀ c ∈ fuzzer.charset, ({} : Alphabet).isSymbol c = true) (n : Nat) (state : γ) :
    ∃ played last, fuzzer.Plays state played last ∧ played.length = n := by
  induction n generalizing state with
  | zero => exact ⟨[], state, .nil state, rfl⟩
  | succ n ih =>
    obtain ⟨⟨source, edited⟩, next, hrun, hdrawn⟩ := returns_drawSource hne state
    obtain ⟨verdict, hround⟩ := exists_sound hsymbols hdrawn
    obtain ⟨played, last, hplays, hlength⟩ := ih next
    exact ⟨⟨source, edited, verdict⟩ :: played, last, .cons hrun hround hplays, congrArg Nat.succ hlength⟩

/-- What is drawn and what the check of it says make up the first round. -/
theorem Plays.exists_of_length_succ {state next last : γ} {n : Nat} {verdict : Verdict}
    (h : fuzzer.Plays state played last) (hlength : played.length = n + 1)
    (hdrawn : fuzzer.drawSource.run state = (some (source, edited), next))
    (hcheck : (({} : Compiler).check source fuzzer.maxLength).1 = .ok verdict) :
    ∃ rest, played = ⟨source, edited, verdict⟩ :: rest ∧ fuzzer.Plays next rest last ∧ rest.length = n := by
  cases h with
  | nil => cases hlength
  | @cons _ _ _ round rest hdrawn' hround hrest =>
    obtain ⟨source', edited', verdict'⟩ := round
    cases hdrawn.symm.trans hdrawn'
    cases hcheck.symm.trans (hround.check_eq {})
    exact ⟨rest, rfl, hrest, Nat.succ.inj hlength⟩

/-- The rounds are all that a run does: what it returns is their count. -/
theorem run_rounds (overflowChecks : Bool) (compiler : Compiler) (tally : Tally) {state last : γ}
    (h : fuzzer.Plays state played last) (hconfig : compiler.config = {}) :
    ((fuzzer.rounds overflowChecks compiler tally played.length).run state).1 =
      (Tally.addAll overflowChecks tally (played.map Round.verdict)).map .ok := by
  induction h generalizing compiler tally with
  | nil state => rfl
  | @cons state next last round played hdrawn hround hrest ih =>
    have hcheck : (compiler.check round.source fuzzer.maxLength).1 = .ok round.verdict := by
      obtain ⟨config, allocator⟩ := compiler
      obtain rfl : config = {} := hconfig
      exact hround.check_eq allocator
    have hnext := (compiler.config_check round.source fuzzer.maxLength).trans hconfig
    rcases hchecked : compiler.check round.source fuzzer.maxLength with ⟨result, compiler'⟩
    rw [hchecked] at hcheck hnext
    obtain rfl : result = .ok round.verdict := hcheck
    rw [List.length_cons, rounds, Draw.run_bind_eq, hdrawn, List.map_cons, Tally.addAll, List.foldlM_cons]
    simp only [hchecked]
    cases hadd : tally.add overflowChecks round.verdict with
    | none => rfl
    | some tally' => exact ih compiler' tally' hnext

end Fuzzer

namespace CommandLine.FuzzOptions

variable {options : FuzzOptions}

theorem charset_fuzzer_ne_nil (hne : options.charset ≠ "") : options.fuzzer.charset ≠ [] := by
  intro hnil
  exact hne (String.toList_eq_nil_iff.1 hnil)

theorem charsetError?_eq_none (hne : options.charset ≠ "")
    (hsymbols : ∀ c ∈ options.charset.toList, ({} : Alphabet).isSymbol c = true) :
    options.charsetError? = none := by
  have hfind : (options.charset.toList.find? fun c ↦ !({} : Alphabet).isSymbol c) = none := by
    apply List.find?_eq_none.2
    intro c hc
    simp [hsymbols c hc]
  simp [charsetError?, hne, hfind]

variable {γ : Type} [RandomSource γ] {last : γ} {played : List Fuzzer.Round}

section

variable (ofSeed : Nat → γ) (defaultSeed : Nat) (herror : options.charsetError? = none)
variable (hplays : options.fuzzer.Plays (ofSeed (options.seed.getD defaultSeed)) played last)
variable (hlength : played.length = options.iterations)

include herror hplays hlength

/-- Of a run whose sources can all be drawn there is a line with its counts, if there are counts. -/
theorem run_of_plays (overflowChecks : Bool) :
    options.run overflowChecks ofSeed defaultSeed =
      match Fuzzer.Tally.addAll overflowChecks {} (played.map Fuzzer.Round.verdict) with
      | none => { status := 101 }
      | some tally => {
          stdout := s!"{options.iterations} regexes, {tally.rejected.toInt} rejected, " ++
            s!"{tally.compared.toNat} strings compared (seed {options.seed.getD defaultSeed})\n" } := by
  have hrun := Fuzzer.run_rounds overflowChecks {} {} hplays rfl
  have hfuzzer : (options.fuzzer.run overflowChecks : Draw γ _) =
      options.fuzzer.rounds overflowChecks {} {} played.length := by
    rw [hlength]
    rfl
  rw [run, herror]
  dsimp only
  rw [hfuzzer, hrun]
  cases Fuzzer.Tally.addAll overflowChecks {} (played.map Fuzzer.Round.verdict) with
  | none => rfl
  | some tally => rfl

theorem run_checked :
    let rejected := Fuzzer.rejections (played.map Fuzzer.Round.verdict)
    let compared := Fuzzer.words (played.map Fuzzer.Round.verdict)
    options.run true ofSeed defaultSeed =
      if rejected < 2 ^ 31 ∧ compared < 2 ^ 64 then {
        stdout := s!"{options.iterations} regexes, {rejected} rejected, " ++
          s!"{compared} strings compared (seed {options.seed.getD defaultSeed})\n" }
      else { status := 101 } := by
  intro rejected compared
  rw [run_of_plays ofSeed defaultSeed herror hplays hlength, Fuzzer.Tally.addAll_empty_checked]
  by_cases hfits : rejected < 2 ^ 31 ∧ compared < 2 ^ 64
  · have hrejected : (rejected : Int).bmod (2 ^ 32) = rejected := Int.bmod_eq_of_le (by omega) (by omega)
    have hcompared : compared % 2 ^ 64 = compared := Nat.mod_eq_of_lt hfits.2
    rw [if_pos hfits, if_pos hfits]
    simp only [Fuzzer.Tally.toInt_rejected, Fuzzer.Tally.toNat_compared, rejected, compared] at hrejected hcompared ⊢
    rw [hrejected, hcompared]
    rfl
  · rw [if_neg hfits, if_neg hfits]

theorem run_wrapping :
    let rejected := Fuzzer.rejections (played.map Fuzzer.Round.verdict)
    let compared := Fuzzer.words (played.map Fuzzer.Round.verdict)
    options.run false ofSeed defaultSeed = {
      stdout := s!"{options.iterations} regexes, {(rejected : Int).bmod (2 ^ 32)} rejected, " ++
        s!"{compared % 2 ^ 64} strings compared (seed {options.seed.getD defaultSeed})\n" } := by
  rw [run_of_plays ofSeed defaultSeed herror hplays hlength, Fuzzer.Tally.addAll_empty_wrapping]
  simp only [Fuzzer.Tally.toInt_rejected, Fuzzer.Tally.toNat_compared]

end

/-- Whatever the numbers drawn, every round can be played: no number is drawn from an empty range, no position
lies outside of a source, no check finds a mismatch, and only edited sources are rejected. With overflow checks
the run comes to its end just if the rejected sources are fewer than 2^31 and the words compared fewer than
2^64, and then prints both numbers; without, it always does, and prints them modulo the widths of its counts. -/
theorem run_counts {γ : Type} [RandomSource γ] (ofSeed : Nat → γ) (options : FuzzOptions)
    (hne : options.charset ≠ "")
    (hsymbols : ∀ c ∈ options.charset.toList, ({} : Alphabet).isSymbol c = true) :
    (∀ (edit : Edit) (source : List Char),
        Draw.Returns (edit.apply source : Draw γ _) (Edit.Yields source edit)) ∧
      ∀ defaultSeed, let seed := options.seed.getD defaultSeed
        ∃ played last, options.fuzzer.Plays (ofSeed seed) played last ∧ played.length = options.iterations ∧
          let rejected := Fuzzer.rejections (played.map Fuzzer.Round.verdict)
          let compared := Fuzzer.words (played.map Fuzzer.Round.verdict)
          options.run true ofSeed defaultSeed =
            (if rejected < 2 ^ 31 ∧ compared < 2 ^ 64 then {
              stdout := s!"{options.iterations} regexes, {rejected} rejected, " ++
                s!"{compared} strings compared (seed {seed})\n" }
            else { status := 101 }) ∧
          options.run false ofSeed defaultSeed = {
            stdout := s!"{options.iterations} regexes, {(rejected : Int).bmod (2 ^ 32)} rejected, " ++
              s!"{compared % 2 ^ 64} strings compared (seed {seed})\n" } := by
  refine ⟨fun edit source ↦ Edit.returns_apply edit source, fun defaultSeed ↦ ?_⟩
  have herror := charsetError?_eq_none hne hsymbols
  obtain ⟨played, last, hplays, hlength⟩ := Fuzzer.exists_plays (charset_fuzzer_ne_nil hne) hsymbols
    options.iterations (ofSeed (options.seed.getD defaultSeed))
  exact ⟨played, last, hplays, hlength, run_checked ofSeed defaultSeed herror hplays hlength,
    run_wrapping ofSeed defaultSeed herror hplays hlength⟩

theorem run_counts_seed :
    ({ iterations := 2, seed := some 238, maxLength := 2, depth := 1, charset := "ab" } : FuzzOptions).run true
        Generator.ofSeed 0 =
      { stdout := "2 regexes, 1 rejected, 7 strings compared (seed 238)\n" } := by
  let options : FuzzOptions :=
    { iterations := 2, seed := some 238, maxLength := 2, depth := 1, charset := "ab" }
  have hsymbols : ∀ c ∈ options.charset.toList, ({} : Alphabet).isSymbol c = true := by
    simp [options, Alphabet.isSymbol]
  have hfirst : (options.fuzzer.drawSource.run (Generator.ofSeed 238)).1 = some ("ab", false) := by
    decide +kernel
  have hsecond : (options.fuzzer.drawSource.run
      (options.fuzzer.drawSource.run (Generator.ofSeed 238)).2).1 = some ("(a", true) := by
    decide +kernel
  have hderives : Derives .expression (({} : Compiler).config.alphabet.tokenize "ab")
      (.concat (.literal 'a') (.literal 'b')) :=
    .term (.concat (.factor (.atom (.literal 'a'))) (.atom (.literal 'b')))
  have hagreed : (({} : Compiler).check "ab" 2).1 = .ok (.agreed 7) := by
    obtain ⟨c, hc, -⟩ := Compiler.exists_compile_of_derives {} rfl hderives
    rw [Compiler.check_of_ok hc, length_wordsUpTo, Compiler.length_alphabet_of_compile hc]
    decide
  have hunclosed : (({} : Compiler).compile "(a").1 = .error (.parse (.unclosedGroup 1)) := by decide
  obtain ⟨-, hruns⟩ := run_counts Generator.ofSeed options (by decide) hsymbols
  obtain ⟨played, last, hplays, hlength, hrun, -⟩ := hruns 0
  obtain ⟨others, rfl, hplays, hothers⟩ :=
    hplays.exists_of_length_succ hlength (Prod.ext hfirst rfl) hagreed
  obtain ⟨rest, rfl, -, hrest⟩ :=
    hplays.exists_of_length_succ hothers (Prod.ext hsecond rfl) (Compiler.check_of_error hunclosed 2)
  obtain rfl := List.eq_nil_of_length_eq_zero hrest
  rw [if_pos (by decide)] at hrun
  exact hrun.trans (by decide)

structure Zeros where

instance : RandomSource Zeros where
  draw zeros _ hbound := (⟨0, hbound⟩, zeros)

variable {fuzzer : Fuzzer}

theorem run_drawSource_zeros (hdepth : fuzzer.depth = 0) (hcharset : fuzzer.charset = ['a']) (zeros : Zeros) :
    fuzzer.drawSource.run zeros = (some ("|a", true), zeros) := by
  rw [Fuzzer.drawSource, hdepth, hcharset]
  rfl

theorem verdict_of_plays_zeros {zeros last : Zeros} (hdepth : fuzzer.depth = 0)
    (hcharset : fuzzer.charset = ['a']) (h : fuzzer.Plays zeros played last) :
    played.map Fuzzer.Round.verdict = List.replicate played.length (.rejected .construction) := by
  have hcompile : (({} : Compiler).compile "|a").1 = .error (.build (.missingOperand .alternation 1)) := by
    decide
  have hcheck := Compiler.check_of_error hcompile fuzzer.maxLength
  induction hlength : played.length generalizing played with
  | zero => rw [List.eq_nil_of_length_eq_zero hlength, List.map_nil, List.replicate_zero]
  | succ n ih =>
    obtain ⟨rest, rfl, hrest, hn⟩ :=
      h.exists_of_length_succ hlength (run_drawSource_zeros hdepth hcharset zeros) hcheck
    rw [List.map_cons, List.replicate_succ, ih hrest hn]
    rfl

/-- If all random numbers are zero every source is rejected, and the count of them does not fit its width from
2^31 rounds on. -/
theorem run_zeros (hdepth : options.depth = 0) (hcharset : options.charset = "a") (defaultSeed : Nat) :
    options.run true (fun _ ↦ Zeros.mk) defaultSeed =
      if options.iterations < 2 ^ 31 then {
        stdout := s!"{options.iterations} regexes, {options.iterations} rejected, " ++
          s!"{0} strings compared (seed {options.seed.getD defaultSeed})\n" }
      else { status := 101 } := by
  have hne : options.charset ≠ "" := by simp [hcharset]
  have hsymbols : ∀ c ∈ options.charset.toList, ({} : Alphabet).isSymbol c = true := by
    simp [hcharset, Alphabet.isSymbol]
  have hlist : options.fuzzer.charset = ['a'] := by simp [fuzzer, hcharset]
  obtain ⟨played, last, hplays, hlength⟩ :=
    Fuzzer.exists_plays (charset_fuzzer_ne_nil hne) hsymbols options.iterations Zeros.mk
  have hverdicts := verdict_of_plays_zeros hdepth hlist hplays
  have hrun := run_checked (fun _ ↦ Zeros.mk) defaultSeed (charsetError?_eq_none hne hsymbols) hplays hlength
  simp only [hverdicts, hlength, Fuzzer.rejections_replicate, Fuzzer.words_replicate] at hrun
  rw [hrun]
  simp

theorem run_zeros_stops :
    ({ iterations := 2147483648, depth := 0, charset := "a" } : FuzzOptions).run true (fun _ ↦ Zeros.mk) 0 =
      { status := 101 } := by
  rw [run_zeros rfl rfl, if_neg (by decide)]

end CommandLine.FuzzOptions

end RegexCompiler
