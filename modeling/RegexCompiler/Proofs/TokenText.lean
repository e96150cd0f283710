import Mathlib.Tactic.SplitIfs
import RegexCompiler.Proofs.Compilation
import RegexCompiler.Report

namespace RegexCompiler

def Text.visible (source : String) : List Char := source.toList.filter fun c ↦ !Text.isBlank c

open Text (visible)

theorem filter_intersperse {p : Char → Bool} {separator : Char} (h : p separator = false) (cs : List Char) :
    (cs.intersperse separator).filter p = cs.filter p := by
  induction cs with
  | nil => rfl
  | cons c cs ih =>
    cases cs with
    | nil => rfl
    | cons c' cs =>
      rw [List.intersperse_cons_cons, List.filter_cons, List.filter_cons_of_neg (by simp [h]), ih,
        ← List.filter_cons]

namespace Token

theorem toList_text (ts : List Token) : (text ts).toList = (ts.map char).intersperse ' ' := by
  induction ts with
  | nil => rfl
  | cons t ts ih =>
    cases ts with
    | nil => exact String.toList_singleton t.char
    | cons t' ts =>
      have htext : text (t :: t' :: ts) = String.singleton t.char ++ " " ++ text (t' :: ts) :=
        String.intercalate_cons_cons
      rw [htext, String.toList_append, String.toList_append, String.toList_singleton, ih]
      rfl

theorem visible_text (ts : List Token) : visible (text ts) = (ts.map char).filter fun c ↦ !Text.isBlank c := by
  rw [visible, toList_text]
  exact filter_intersperse rfl _

end Token

namespace Alphabet

variable (alphabet : Alphabet) (source : String)

/-- A token keeps the character it was classified from, of whatever kind it is. -/
theorem char_classify (c : Char) : (alphabet.classify c).char = c := by
  rw [classify]
  split_ifs with hpipe hstar hopen hclose
  · exact hpipe.symm
  · exact hstar.symm
  · exact hopen.symm
  · exact hclose.symm
  · rfl
  · rfl

theorem tokenize_eq : alphabet.tokenize source = (visible source).map alphabet.classify := rfl

theorem map_char_tokenize : (alphabet.tokenize source).map Token.char = visible source := by
  rw [tokenize_eq, List.map_map]
  exact List.map_id'' alphabet.char_classify _

theorem visible_text_tokenize : visible (Token.text (alphabet.tokenize source)) = visible source := by
  rw [Token.visible_text, map_char_tokenize, visible, List.filter_filter]
  simp only [Bool.and_self]

end Alphabet

namespace Parsed

theorem ofSource_congr {alphabet : Alphabet} {source source' : String}
    (h : alphabet.tokenize source' = alphabet.tokenize source) :
    ofSource alphabet source' = ofSource alphabet source := by
  rw [ofSource, ofSource, validTokens, validTokens, h]

end Parsed

namespace Compiler

variable {compiler : Compiler} {source source' : String} {c : Compilation}

theorem tokens_of_compile (h : (compiler.compile source).1 = .ok c) :
    c.parsed.tokens = compiler.config.alphabet.tokenize source := by
  obtain ⟨hparsed, -⟩ := stages_of_compile h
  obtain ⟨htokens, -⟩ := Parsed.ofSource_eq_ok_iff.1 hparsed
  exact (Parsed.validTokens_eq_ok_iff.1 htokens).1

/-- Blanks make no difference, whichever they are and wherever they stand. -/
theorem compile_of_visible_eq (compiler : Compiler) (h : visible source' = visible source) :
    compiler.compile source' = compiler.compile source := by
  have htokens : compiler.config.alphabet.tokenize source' = compiler.config.alphabet.tokenize source := by
    rw [Alphabet.tokenize_eq, Alphabet.tokenize_eq, h]
  rw [compile, compile, Parsed.ofSource_congr htokens]

/-- The tokens of a source, written out as a report shows them, are read back as the same tokens, and so
compiled with the same outcome as the source. -/
theorem compile_tokenText (compiler : Compiler) (source : String) :
    let tokens := compiler.config.alphabet.tokenize source
    (Token.text tokens).toList = (visible source).intersperse ' ' ∧
      compiler.config.alphabet.tokenize (Token.text tokens) = tokens ∧
      compiler.compile (Token.text tokens) = compiler.compile source ∧
      (∀ source', visible source' = visible source → compiler.compile source' = compiler.compile source) ∧
      ∀ c, (compiler.compile source).1 = .ok c →
        (Report.lines source c)[1]? = some ("Tokens: " ++ Token.text tokens) := by
  intro tokens
  have hvisible : visible (Token.text tokens) = visible source :=
    compiler.config.alphabet.visible_text_tokenize source
  refine ⟨?_, ?_, compiler.compile_of_visible_eq hvisible, fun source' ↦ compiler.compile_of_visible_eq,
    fun c hc ↦ ?_⟩
  · rw [Token.toList_text, Alphabet.map_char_tokenize]
  · rw [Alphabet.tokenize_eq, hvisible]
    rfl
  · have htokens : c.parsed.tokens = tokens := tokens_of_compile hc
    rw [← htokens]
    rfl

-- The blanks here are a no-break space and an ideographic space.
example : Token.text (({} : Alphabet).tokenize "a\u00a0*\u3000B") = "a * B" := by decide

end Compiler

end RegexCompiler
