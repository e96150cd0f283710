import Mathlib.Computability.Language
import RegexCompiler.Expr.Source
import RegexCompiler.Proofs.Literals

namespace RegexCompiler

open scoped Computability

namespace Expr

variable {e left right inner : Expr} {c : Char} {w : List Char}

def language (e : Expr) : Language Char := {w | e.Matches w}

theorem mem_language : w ∈ e.language ↔ e.Matches w := Iff.rfl

theorem language_concat : (concat left right).language = left.language * right.language := by
  ext w
  rw [Language.mem_mul, mem_language]
  constructor
  · intro h
    cases h with
    | concat hu hv => exact ⟨_, hu, _, hv, rfl⟩
  · intro h
    obtain ⟨u, hu, v, hv, rfl⟩ := h
    exact .concat hu hv

theorem language_alternation : (alternation left right).language = left.language + right.language := by
  ext w
  rw [Language.mem_add, mem_language]
  constructor
  · intro h
    cases h with
    | left h => exact .inl h
    | right h => exact .inr h
  · intro h
    rcases h with h | h
    · exact .left h
    · exact .right h

theorem language_star : (star inner).language = inner.language∗ := by
  ext w
  rw [Language.mem_kstar, mem_language]
  constructor
  · intro h
    generalize he : star inner = e at h
    induction h with
    | stop => exact ⟨[], rfl, by simp⟩
    | «repeat» hu _ _ ih =>
      cases he
      obtain ⟨words, rfl, hwords⟩ := ih rfl
      exact ⟨_ :: words, rfl, List.forall_mem_cons.2 ⟨hu, hwords⟩⟩
    | literal | concat | left | right => cases he
  · intro h
    obtain ⟨words, rfl, hwords⟩ := h
    induction words with
    | nil => exact .stop inner
    | cons u words ih =>
      obtain ⟨hu, hwords⟩ := List.forall_mem_cons.1 hwords
      exact .repeat hu (ih hwords)

theorem source_ne_nil (e : Expr) : e.source ≠ [] := by
  cases e with
  | concat left right =>
    have hleft := left.source_ne_nil
    simp [source, hleft]
  | star inner =>
    unfold source
    split <;> simp
  | literal | alternation => simp [source]

theorem eq_literal_of_source (h : e.source = [c]) : e = literal c := by
  cases e with
  | literal d =>
    obtain rfl := List.singleton_inj.1 h
    rfl
  | concat left right =>
    have hlength := congrArg List.length h
    have hleft := List.length_pos_of_ne_nil left.source_ne_nil
    have hright := List.length_pos_of_ne_nil right.source_ne_nil
    simp only [source, List.length_append, List.length_singleton] at hlength
    omega
  | alternation left right => simp [source] at h
  | star inner =>
    unfold source at h
    split at h <;> simp at h

/-- Only a single literal goes without a group under a star. -/
theorem source_star (inner : Expr) :
    (∃ c, inner = literal c) ∨ (star inner).source = '(' :: inner.source ++ [')', '*'] := by
  rw [source]
  split
  · rename_i c hsource
    exact .inl ⟨c, eq_literal_of_source hsource⟩
  · exact .inr rfl

theorem mem_source (h : c ∈ e.source) : c ∈ ['|', '*', '(', ')'] ∨ c ∈ e.literals := by
  induction e with
  | literal d => exact .inr h
  | concat left right ihl ihr =>
    rcases List.mem_append.1 h with h | h
    · exact (ihl h).imp_right (List.mem_append_left _)
    · exact (ihr h).imp_right (List.mem_append_right _)
  | alternation left right ihl ihr =>
    have hparts : c ∈ ['|', '*', '(', ')'] ∨ c ∈ left.source ∨ c ∈ right.source := by
      simp only [source, List.cons_append, List.mem_cons, List.mem_append] at h ⊢
      tauto
    rcases hparts with h | h | h
    · exact .inl h
    · exact (ihl h).imp_right (List.mem_append_left _)
    · exact (ihr h).imp_right (List.mem_append_right _)
  | star inner ih =>
    rcases source_star inner with ⟨d, rfl⟩ | hsource
    · have hparts : c = d ∨ c = '*' := by simpa [source] using h
      rcases hparts with rfl | rfl
      · exact .inr (List.mem_singleton_self _)
      · exact .inl (by simp)
    · have hparts : c ∈ ['|', '*', '(', ')'] ∨ c ∈ inner.source := by
        simp only [hsource, List.cons_append, List.mem_cons, List.mem_append] at h ⊢
        tauto
      exact hparts.elim .inl ih

end Expr

/-- A term can follow a term: the factors of the second are joined to the first one by one. -/
theorem Derives.exists_append_term {ts us : List Token} {l r : Expr} (hl : Derives .term ts l)
    (hr : Derives .term us r) :
    ∃ e, Derives .term (ts ++ us) e ∧ e.language = l.language * r.language := by
  generalize hnt : Nonterminal.term = nt at hr
  induction hr with
  | factor hr => exact ⟨_, .concat hl hr, Expr.language_concat⟩
  | concat _ hr ih =>
    obtain ⟨e, he, hlanguage⟩ := ih rfl
    rw [← List.append_assoc]
    refine ⟨_, .concat he hr, ?_⟩
    rw [Expr.language_concat, Expr.language_concat, hlanguage, mul_assoc]
  | literal | group | atom | star | term | alternation => cases hnt

namespace Alphabet

variable {alphabet : Alphabet} {c : Char} {e : Expr}

theorem bounds_of_isSymbol (h : alphabet.isSymbol c = true) : 48 ≤ c.toNat ∧ c.toNat ≤ 122 := by
  rw [isSymbol, Bool.or_eq_true, Bool.and_eq_true] at h
  rcases h with hlower | ⟨-, hdigit⟩
  · obtain ⟨hlo, hhi⟩ := Bool.and_eq_true_iff.1 hlower
    exact ⟨Nat.le_trans (by decide) (of_decide_eq_true hlo), of_decide_eq_true hhi⟩
  · obtain ⟨hlo, hhi⟩ := Bool.and_eq_true_iff.1 hdigit
    exact ⟨of_decide_eq_true hlo, Nat.le_trans (of_decide_eq_true hhi) (by decide)⟩

theorem mem_symbols_iff : c ∈ alphabet.symbols ↔ alphabet.isSymbol c = true := by
  constructor
  · have hlisted : alphabet.symbols.all alphabet.isSymbol = true := by
      obtain ⟨digits⟩ := alphabet
      cases digits <;> rfl
    exact List.all_eq_true.1 hlisted c
  · intro h
    -- The symbols lie among the first 123 characters, which are gone through one by one.
    have hlisted : ∀ n < 123, alphabet.isSymbol (Char.ofNat n) = true → Char.ofNat n ∈ alphabet.symbols := by
      obtain ⟨digits⟩ := alphabet
      cases digits <;> decide
    have hc := hlisted c.toNat (Nat.lt_succ_of_le (bounds_of_isSymbol h).2)
    rw [Char.ofNat_toNat] at hc
    exact hc h

theorem pairwise_symbols (alphabet : Alphabet) : alphabet.symbols.Pairwise (· < ·) := by
  obtain ⟨digits⟩ := alphabet
  cases digits <;> decide

theorem not_isSymbol_reserved (alphabet : Alphabet) :
    alphabet.isSymbol '|' = false ∧ alphabet.isSymbol '*' = false ∧ alphabet.isSymbol '(' = false ∧
      alphabet.isSymbol ')' = false := by
  obtain ⟨digits⟩ := alphabet
  cases digits <;> decide

theorem classify_of_isSymbol (h : alphabet.isSymbol c = true) : alphabet.classify c = .literal c := by
  have hne {d : Char} (hd : alphabet.isSymbol d = false) : c ≠ d := by
    intro heq
    rw [heq, hd] at h
    cases h
  obtain ⟨hpipe, hstar, hopen, hclose⟩ := not_isSymbol_reserved alphabet
  rw [classify, if_neg (hne hpipe), if_neg (hne hstar), if_neg (hne hopen), if_neg (hne hclose), if_pos h]

theorem isBlank_of_mem_source (h : ∀ c ∈ e.literals, alphabet.isSymbol c = true) (hc : c ∈ e.source) :
    Text.isBlank c = false := by
  rcases Expr.mem_source hc with hc | hc
  · simp only [List.mem_cons, List.not_mem_nil, or_false] at hc
    rcases hc with rfl | rfl | rfl | rfl <;> rfl
  · have hlisted : alphabet.symbols.any Text.isBlank = false := by
      obtain ⟨digits⟩ := alphabet
      cases digits <;> rfl
    exact Bool.eq_false_iff.2 (List.any_eq_false.1 hlisted c (mem_symbols_iff.2 (h c hc)))

theorem tokenize_ofList {cs : List Char} (h : ∀ c ∈ cs, Text.isBlank c = false) :
    alphabet.tokenize (String.ofList cs) = cs.map alphabet.classify := by
  rw [tokenize, String.toList_ofList, List.filter_eq_self.2]
  intro c hc
  rw [h c hc]
  rfl

/-- Written out, an expression is a term, whose tree may join concatenations otherwise. -/
theorem exists_derives_source (h : ∀ c ∈ e.literals, alphabet.isSymbol c = true) :
    ∃ e', Derives .term (e.source.map alphabet.classify) e' ∧ e'.language = e.language := by
  induction e with
  | literal c =>
    have hclassify := classify_of_isSymbol (h c (List.mem_singleton_self c))
    refine ⟨.literal c, ?_, rfl⟩
    rw [Expr.source, List.map_singleton, hclassify]
    exact .factor (.atom (.literal c))
  | concat left right ihl ihr =>
    obtain ⟨l, hl, hleft⟩ := ihl fun c hc ↦ h c (List.mem_append_left _ hc)
    obtain ⟨r, hr, hright⟩ := ihr fun c hc ↦ h c (List.mem_append_right _ hc)
    obtain ⟨e', he', hlanguage⟩ := hl.exists_append_term hr
    refine ⟨e', ?_, ?_⟩
    · rw [Expr.source, List.map_append]
      exact he'
    · rw [hlanguage, hleft, hright, Expr.language_concat]
  | alternation left right ihl ihr =>
    obtain ⟨l, hl, hleft⟩ := ihl fun c hc ↦ h c (List.mem_append_left _ hc)
    obtain ⟨r, hr, hright⟩ := ihr fun c hc ↦ h c (List.mem_append_right _ hc)
    refine ⟨.alternation l r, ?_, ?_⟩
    · have hgroup := Derives.group (.alternation (.term hl) hr)
      simpa [Expr.source, classify] using Derives.factor (.atom hgroup)
    · rw [Expr.language_alternation, Expr.language_alternation, hleft, hright]
  | star inner ih =>
    rcases Expr.source_star inner with ⟨c, rfl⟩ | hsource
    · have hclassify := classify_of_isSymbol (h c (List.mem_singleton_self c))
      have htokens : (Expr.star (.literal c)).source.map alphabet.classify =
          [.literal c, .operator .star] := by
        rw [← hclassify]
        rfl
      refine ⟨.star (.literal c), ?_, rfl⟩
      rw [htokens]
      exact .factor (.star (.atom (.literal c)))
    · obtain ⟨i, hi, hinner⟩ := ih h
      refine ⟨.star i, ?_, ?_⟩
      · have hstar := Derives.star (.atom (.group (.term hi)))
        simpa [hsource, classify] using Derives.factor hstar
      · rw [Expr.language_star, Expr.language_star, hinner]

end Alphabet

end RegexCompiler
