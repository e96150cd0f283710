import RegexCompiler.Proofs.Compilation

namespace RegexCompiler

namespace Nfa

variable {nfa inner outer first second : Nfa} {start accept p q r : State} {t : Transition}

def Leads (nfa : Nfa) (p q : State) : Prop := ∃ w, Path nfa p w q

namespace Leads

theorem refl (nfa : Nfa) (q : State) : nfa.Leads q q := ⟨[], .refl q⟩

theorem trans (h : nfa.Leads p q) (h' : nfa.Leads q r) : nfa.Leads p r := by
  obtain ⟨u, hu⟩ := h
  obtain ⟨v, hv⟩ := h'
  exact ⟨u ++ v, hu.trans hv⟩

theorem of_mem (h : t ∈ nfa.transitions) : nfa.Leads t.source t.target := by
  obtain ⟨p, q, label⟩ := t
  cases label with
  | epsilon => exact ⟨[], .epsilon h (.refl q)⟩
  | symbol c => exact ⟨[c], .symbol h (.refl q)⟩

theorem mono (h : inner.Leads p q) (hsub : ∀ t ∈ inner.transitions, t ∈ outer.transitions) :
    outer.Leads p q := by
  obtain ⟨w, hw⟩ := h
  exact ⟨w, hw.mono hsub⟩

end Leads

/-- Every state lies on a way from the start to the accepting state. -/
def Trim (nfa : Nfa) : Prop := ∀ q ∈ nfa.states, nfa.Leads nfa.start q ∧ nfa.Leads q nfa.accept

theorem mem_states_iff :
    q ∈ nfa.states ↔ q = nfa.start ∨ q = nfa.accept ∨ ∃ t ∈ nfa.transitions, q = t.source ∨ q = t.target := by
  simp [Nfa.states]

namespace Trim

theorem leads (h : nfa.Trim) : nfa.Leads nfa.start nfa.accept := (h _ start_mem_states).2

theorem of_transitions (hleads : nfa.Leads nfa.start nfa.accept)
    (h : ∀ t ∈ nfa.transitions, nfa.Leads nfa.start t.source ∧ nfa.Leads t.target nfa.accept) :
    nfa.Trim := by
  intro q hq
  rcases mem_states_iff.1 hq with rfl | rfl | ⟨t, ht, hends⟩
  · exact ⟨.refl nfa _, hleads⟩
  · exact ⟨hleads, .refl nfa _⟩
  · obtain ⟨hbefore, hafter⟩ := h t ht
    have hstep := Leads.of_mem ht
    rcases hends with rfl | rfl
    · exact ⟨hbefore, hstep.trans hafter⟩
    · exact ⟨hbefore.trans hstep, hafter⟩

/-- A transition of a part lies on a way through the whole if the ends of the part do. -/
theorem of_part (h : inner.Trim) (hsub : ∀ t ∈ inner.transitions, t ∈ outer.transitions)
    (hin : outer.Leads p inner.start) (hout : outer.Leads inner.accept q) (ht : t ∈ inner.transitions) :
    outer.Leads p t.source ∧ outer.Leads t.target q := by
  have hsource := (h t.source (mem_states_iff.2 (.inr (.inr ⟨t, ht, .inl rfl⟩)))).1
  have htarget := (h t.target (target_mem_states ht)).2
  exact ⟨hin.trans (hsource.mono hsub), (htarget.mono hsub).trans hout⟩

theorem ofLiteral (start accept : State) (c : Char) : (ofLiteral start accept c).Trim := by
  have hread : (Nfa.ofLiteral start accept c).Leads start accept := .of_mem (mem_ofLiteral.2 rfl)
  refine of_transitions hread fun t ht ↦ ?_
  obtain rfl := mem_ofLiteral.1 ht
  exact ⟨.refl _ _, .refl _ _⟩

theorem concat (hfirst : first.Trim) (hsecond : second.Trim) : (first.concat second).Trim := by
  have hsub : ∀ t ∈ first.transitions, t ∈ (first.concat second).transitions := fun t ht ↦
    mem_concat.2 (.inl ht)
  have hsub' : ∀ t ∈ second.transitions, t ∈ (first.concat second).transitions := fun t ht ↦
    mem_concat.2 (.inr (.inr ht))
  have hjoin : (first.concat second).Leads first.accept second.start :=
    .of_mem (mem_concat.2 (.inr (.inl rfl)))
  have hthrough := hfirst.leads.mono hsub
  have hthrough' := hsecond.leads.mono hsub'
  refine of_transitions (hthrough.trans (hjoin.trans hthrough')) fun t ht ↦ ?_
  rcases mem_concat.1 ht with ht | rfl | ht
  · exact hfirst.of_part hsub (.refl _ _) (hjoin.trans hthrough') ht
  · exact ⟨hthrough, hthrough'⟩
  · exact hsecond.of_part hsub' (hthrough.trans hjoin) (.refl _ _) ht

theorem alternation (hfirst : first.Trim) (hsecond : second.Trim) :
    (alternation start accept first second).Trim := by
  have hsub : ∀ t ∈ first.transitions, t ∈ (Nfa.alternation start accept first second).transitions :=
    fun t ht ↦ mem_alternation.2 (.inr (.inr (.inr (.inr (.inl ht)))))
  have hsub' : ∀ t ∈ second.transitions, t ∈ (Nfa.alternation start accept first second).transitions :=
    fun t ht ↦ mem_alternation.2 (.inr (.inr (.inr (.inr (.inr ht)))))
  have hin : (Nfa.alternation start accept first second).Leads start first.start :=
    .of_mem (mem_alternation.2 (.inl rfl))
  have hin' : (Nfa.alternation start accept first second).Leads start second.start :=
    .of_mem (mem_alternation.2 (.inr (.inl rfl)))
  have hout : (Nfa.alternation start accept first second).Leads first.accept accept :=
    .of_mem (mem_alternation.2 (.inr (.inr (.inl rfl))))
  have hout' : (Nfa.alternation start accept first second).Leads second.accept accept :=
    .of_mem (mem_alternation.2 (.inr (.inr (.inr (.inl rfl)))))
  have hthrough := hfirst.leads.mono hsub
  have hthrough' := hsecond.leads.mono hsub'
  refine of_transitions (hin.trans (hthrough.trans hout)) fun t ht ↦ ?_
  rcases mem_alternation.1 ht with rfl | rfl | rfl | rfl | ht | ht
  · exact ⟨.refl _ _, hthrough.trans hout⟩
  · exact ⟨.refl _ _, hthrough'.trans hout'⟩
  · exact ⟨hin.trans hthrough, .refl _ _⟩
  · exact ⟨hin'.trans hthrough', .refl _ _⟩
  · exact hfirst.of_part hsub hin hout ht
  · exact hsecond.of_part hsub' hin' hout' ht

theorem star (hinner : inner.Trim) : (star start accept inner).Trim := by
  have hsub : ∀ t ∈ inner.transitions, t ∈ (Nfa.star start accept inner).transitions := fun t ht ↦
    mem_star.2 (.inr (.inr (.inr (.inr ht))))
  have hin : (Nfa.star start accept inner).Leads start inner.start := .of_mem (mem_star.2 (.inl rfl))
  have hout : (Nfa.star start accept inner).Leads inner.accept accept :=
    .of_mem (mem_star.2 (.inr (.inr (.inr (.inl rfl)))))
  have hthrough := hinner.leads.mono hsub
  refine of_transitions (hin.trans (hthrough.trans hout)) fun t ht ↦ ?_
  rcases mem_star.1 ht with rfl | rfl | rfl | rfl | ht
  · exact ⟨.refl _ _, hthrough.trans hout⟩
  · exact ⟨.refl _ _, .refl _ _⟩
  · exact ⟨hin.trans hthrough, hthrough.trans hout⟩
  · exact ⟨hin.trans hthrough, .refl _ _⟩
  · exact hinner.of_part hsub hin hout ht

/-- Where every state can still be left for the accepting one, no run of the deterministic automaton goes
astray: what has been read can be completed. -/
theorem isSome_run_iff (h : nfa.Trim) (w : List Char) :
    (nfa.determinize.run nfa.determinize.start w).isSome = true ↔
      ∃ v, nfa.determinize.accepts (w ++ v) = true := by
  simp only [isSome_run_determinize_iff, accepts_determinize, accepts_iff]
  constructor
  · intro hrun
    obtain ⟨q, hq⟩ := hrun
    obtain ⟨v, hv⟩ := (h q (mem_states_of_path hq start_mem_states)).2
    exact ⟨v, hq.trans hv⟩
  · intro haccepts
    obtain ⟨v, hv⟩ := haccepts
    obtain ⟨q, hq, -⟩ := hv.split
    exact ⟨q, hq⟩

theorem exists_run_isAccepting (h : nfa.Trim) {s : StateSet} (hs : s ∈ nfa.determinize.states) :
    ∃ v s', nfa.determinize.run s v = some s' ∧ nfa.determinize.isAccepting s' = true := by
  obtain ⟨hempty, w, hw⟩ := mem_determinize_iff.1 hs
  have hrun : nfa.determinize.run nfa.determinize.start w = some s :=
    run_determinize_eq_some_iff.2 ⟨hw, hempty⟩
  obtain ⟨v, hv⟩ := (h.isSome_run_iff w).1 (by rw [hrun, Option.isSome_some])
  obtain ⟨s', hs', haccepting⟩ := (Dfa.accepts_iff _ _).1 hv
  rw [Dfa.run_append, hrun, Option.bind_some] at hs'
  exact ⟨v, s', hs', haccepting⟩

end Trim

end Nfa

theorem Expr.trim_thompson (e : Expr) (n : Nat) : (e.thompson n).Trim := by
  induction e generalizing n with
  | literal c => exact .ofLiteral n (n + 1) c
  | concat left right ihl ihr => exact .concat (ihl n) (ihr _)
  | alternation left right ihl ihr => exact .alternation (ihl n) (ihr _)
  | star inner ih => exact .star (ih n)

namespace Compiler

/-- The deterministic automaton of a source has no dead states: it reads exactly the words that can be
completed to one that it accepts. -/
theorem compile_run_isSome_iff (compiler : Compiler) (source : String) (c : Compilation)
    (h : (compiler.compile source).1 = .ok c) :
    (∀ w : List Char,
        (c.dfa.run c.dfa.start w).isSome = true ↔ ∃ v, c.dfa.accepts (w ++ v) = true) ∧
      ∀ s ∈ c.dfa.states, ∃ v s', c.dfa.run s v = some s' ∧ c.dfa.isAccepting s' = true := by
  obtain ⟨e, hnfa, hdfa⟩ := exists_thompson_of_compile h
  have htrim := e.trim_thompson 0
  rw [hdfa, hnfa]
  exact ⟨htrim.isSome_run_iff, fun s hs ↦ htrim.exists_run_isAccepting hs⟩

theorem compile_run_isSome_ab :
    ∃ c, (({} : Compiler).compile "ab").1 = .ok c ∧ (c.dfa.run c.dfa.start ['a']).isSome = true ∧
      (c.dfa.run c.dfa.start ['b']).isSome = false := by
  have hderives : Derives .expression (({} : Compiler).config.alphabet.tokenize "ab")
      (.concat (.literal 'a') (.literal 'b')) :=
    .term (.concat (.factor (.atom (.literal 'a'))) (.atom (.literal 'b')))
  obtain ⟨c, hc, hdfa⟩ := exists_compile_of_derives {} rfl hderives
  have haccepts : ∀ w : List Char, c.dfa.accepts w = true ↔
      (Expr.concat (.literal 'a') (.literal 'b')).Matches w := by
    intro w
    rw [hdfa, Nfa.accepts_determinize]
    exact Expr.accepts_thompson_iff _ 0 w
  obtain ⟨hrun, -⟩ := compile_run_isSome_iff {} "ab" c hc
  refine ⟨c, hc, (hrun _).2 ⟨['b'], (haccepts _).2 (.concat (.literal 'a') (.literal 'b'))⟩, ?_⟩
  rw [← Bool.not_eq_true, hrun]
  intro h
  obtain ⟨v, hv⟩ := h
  have hmatches := (haccepts _).1 hv
  generalize hw : ['b'] ++ v = w at hmatches
  cases hmatches with
  | concat hleft _ =>
    cases hleft
    exact absurd (List.cons_eq_cons.1 hw).1 (by decide)

end Compiler

end RegexCompiler
