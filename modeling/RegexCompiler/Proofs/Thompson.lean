import RegexCompiler.Expr.Basic
import RegexCompiler.Nfa.Thompson
import RegexCompiler.Proofs.Simulation

namespace RegexCompiler

def State.Between (lo hi q : Nat) : Prop := lo ≤ q ∧ q < hi

theorem State.Between.mono {lo hi lo' hi' q : Nat} (h : Between lo hi q) (hlo : lo' ≤ lo) (hhi : hi ≤ hi') :
    Between lo' hi' q :=
  ⟨Nat.le_trans hlo h.1, Nat.lt_of_lt_of_le h.2 hhi⟩

theorem State.Between.disjoint {lo mid hi q : Nat} (h : Between lo mid q) (h' : Between mid hi q) : False :=
  Nat.lt_irrefl q (Nat.lt_of_lt_of_le h.2 h'.1)

theorem State.Between.ne_of_le {lo hi q r : Nat} (h : Between lo hi q) (hr : hi ≤ r) : q ≠ r :=
  Nat.ne_of_lt (Nat.lt_of_lt_of_le h.2 hr)

theorem State.Between.ne {lo mid hi q r : Nat} (hq : Between lo mid q) (hr : Between mid hi r) : q ≠ r :=
  hq.ne_of_le hr.1

theorem State.Between.ne_of_not {lo hi q r : Nat} (hq : Between lo hi q) (hr : ¬ Between lo hi r) : q ≠ r := by
  intro heq
  rw [heq] at hq
  exact hr hq

theorem State.not_between {lo hi q : Nat} (h : hi ≤ q) : ¬ Between lo hi q :=
  fun hq ↦ Nat.lt_irrefl q (Nat.lt_of_lt_of_le hq.2 h)

/-- An automaton that grows gets the next two states. -/
theorem State.between_next {lo hi : Nat} (h : lo ≤ hi) :
    Between lo (hi + 2) hi ∧ Between lo (hi + 2) (hi + 1) := by
  unfold Between
  omega

namespace Nfa

variable {first second inner outer nfa : Nfa} {lo mid hi : Nat} {start accept p q : State}
variable {t : Transition} {c : Char} {w : List Char}

theorem mem_ofLiteral : t ∈ (ofLiteral start accept c).transitions ↔ t = ⟨start, accept, .symbol c⟩ := by
  simp [ofLiteral]

theorem mem_concat :
    t ∈ (first.concat second).transitions ↔
      t ∈ first.transitions ∨ t = .epsilon first.accept second.start ∨ t ∈ second.transitions := by
  simp [concat]

theorem mem_alternation :
    t ∈ (alternation start accept first second).transitions ↔
      t = .epsilon start first.start ∨ t = .epsilon start second.start ∨
        t = .epsilon first.accept accept ∨ t = .epsilon second.accept accept ∨
          t ∈ first.transitions ∨ t ∈ second.transitions := by
  simp [alternation]

theorem mem_star :
    t ∈ (star start accept inner).transitions ↔
      t = .epsilon start inner.start ∨ t = .epsilon start accept ∨
        t = .epsilon inner.accept inner.start ∨ t = .epsilon inner.accept accept ∨
          t ∈ inner.transitions := by
  simp [star]

structure Within (nfa : Nfa) (lo hi : Nat) : Prop where
  start : State.Between lo hi nfa.start
  accept : State.Between lo hi nfa.accept
  transitions : ∀ t ∈ nfa.transitions, State.Between lo hi t.source ∧ State.Between lo hi t.target

namespace Within

theorem mono {lo' hi' : Nat} (h : nfa.Within lo hi) (hlo : lo' ≤ lo) (hhi : hi ≤ hi') :
    nfa.Within lo' hi' where
  start := h.start.mono hlo hhi
  accept := h.accept.mono hlo hhi
  transitions t ht := ⟨(h.transitions t ht).1.mono hlo hhi, (h.transitions t ht).2.mono hlo hhi⟩

theorem lt (h : nfa.Within lo hi) : lo < hi := Nat.lt_of_le_of_lt h.start.1 h.start.2

theorem ofLiteral (n : Nat) (c : Char) : (ofLiteral n (n + 1) c).Within n (n + 2) := by
  obtain ⟨hstart, haccept⟩ := State.between_next (Nat.le_refl n)
  refine ⟨hstart, haccept, fun t ht ↦ ?_⟩
  rw [mem_ofLiteral.1 ht]
  exact ⟨hstart, haccept⟩

theorem concat (hfirst : first.Within lo mid) (hsecond : second.Within mid hi) :
    (first.concat second).Within lo hi := by
  have hf := hfirst.mono (Nat.le_refl lo) (Nat.le_of_lt hsecond.lt)
  have hs := hsecond.mono (Nat.le_of_lt hfirst.lt) (Nat.le_refl hi)
  refine ⟨hf.start, hs.accept, fun t ht ↦ ?_⟩
  rcases mem_concat.1 ht with ht | rfl | ht
  · exact hf.transitions t ht
  · exact ⟨hf.accept, hs.start⟩
  · exact hs.transitions t ht

theorem alternation (hfirst : first.Within lo mid) (hsecond : second.Within mid hi) :
    (alternation hi (hi + 1) first second).Within lo (hi + 2) := by
  have hlo := hfirst.lt
  have hhi := hsecond.lt
  have hf := hfirst.mono (Nat.le_refl lo) (show mid ≤ hi + 2 by omega)
  have hs := hsecond.mono (Nat.le_of_lt hlo) (show hi ≤ hi + 2 by omega)
  obtain ⟨hstart, haccept⟩ := State.between_next (show lo ≤ hi by omega)
  refine ⟨hstart, haccept, fun t ht ↦ ?_⟩
  rcases mem_alternation.1 ht with rfl | rfl | rfl | rfl | ht | ht
  · exact ⟨hstart, hf.start⟩
  · exact ⟨hstart, hs.start⟩
  · exact ⟨hf.accept, haccept⟩
  · exact ⟨hs.accept, haccept⟩
  · exact hf.transitions t ht
  · exact hs.transitions t ht

theorem star (hinner : inner.Within lo hi) : (star hi (hi + 1) inner).Within lo (hi + 2) := by
  have hi' := hinner.mono (Nat.le_refl lo) (show hi ≤ hi + 2 by omega)
  obtain ⟨hstart, haccept⟩ := State.between_next (Nat.le_of_lt hinner.lt)
  refine ⟨hstart, haccept, fun t ht ↦ ?_⟩
  rcases mem_star.1 ht with rfl | rfl | rfl | rfl | ht
  · exact ⟨hstart, hi'.start⟩
  · exact ⟨hstart, haccept⟩
  · exact ⟨hi'.accept, hi'.start⟩
  · exact ⟨hi'.accept, haccept⟩
  · exact hi'.transitions t ht

end Within

namespace Path

theorem mono (h : Path inner p w q) (hsub : ∀ t ∈ inner.transitions, t ∈ outer.transitions) :
    Path outer p w q := by
  induction h with
  | refl => exact .refl _
  | epsilon ht _ ih => exact .epsilon (hsub _ ht) ih
  | symbol ht _ ih => exact .symbol (hsub _ ht) ih

/-- A path stays in a part of the automaton that no transition leaves. -/
theorem confined (hinner : inner.Within lo hi)
    (hstay : ∀ t ∈ outer.transitions, State.Between lo hi t.source → t ∈ inner.transitions)
    (h : Path outer p w q) (hp : State.Between lo hi p) : Path inner p w q := by
  induction h with
  | refl => exact .refl _
  | epsilon ht _ ih =>
    have ht' := hstay _ ht hp
    exact .epsilon ht' (ih (hinner.transitions _ ht').2)
  | symbol ht _ ih =>
    have ht' := hstay _ ht hp
    exact .symbol ht' (ih (hinner.transitions _ ht').2)

/-- A path out of a part of the automaton leaves it at its accepting state, without reading. What is read
after that is in `L`, which has to be known where the path cannot come back to the start of the part. -/
theorem through {L : List Char → Prop} (hinner : inner.Within lo hi)
    (hexit : ∀ t ∈ outer.transitions, State.Between lo hi t.source → t ∈ inner.transitions ∨
      t.source = inner.accept ∧ t.label = .epsilon ∧
        ((t.target = inner.start ∧ ∀ u v, Path inner inner.start u inner.accept → L v → L (u ++ v)) ∨
          ∀ v, Path outer t.target v q → L v))
    (h : Path outer p w q) (hp : State.Between lo hi p) (hq : ¬ State.Between lo hi q) :
    ∃ u v, w = u ++ v ∧ Path inner p u inner.accept ∧ L v := by
  induction h with
  | refl => exact absurd hp hq
  | @epsilon p p' q w ht hrest ih =>
    rcases hexit _ ht hp with ht' | ⟨rfl, -, ⟨rfl, hloop⟩ | hout⟩
    · obtain ⟨u, v, rfl, hu, hv⟩ := ih hexit (hinner.transitions _ ht').2 hq
      exact ⟨u, v, rfl, .epsilon ht' hu, hv⟩
    · obtain ⟨u, v, rfl, hu, hv⟩ := ih hexit hinner.start hq
      exact ⟨[], u ++ v, rfl, .refl _, hloop u v hu hv⟩
    · exact ⟨[], w, rfl, .refl _, hout w hrest⟩
  | @symbol p p' q c w ht _ ih =>
    rcases hexit _ ht hp with ht' | ⟨-, hlabel, -⟩
    · obtain ⟨u, v, rfl, hu, hv⟩ := ih hexit (hinner.transitions _ ht').2 hq
      exact ⟨c :: u, v, rfl, .symbol ht' hu, hv⟩
    · cases hlabel

theorem eq_nil_of_stuck (hstuck : ∀ t ∈ nfa.transitions, t.source ≠ p) (h : Path nfa p w q) : w = [] := by
  cases h with
  | refl => rfl
  | epsilon ht _ => exact absurd rfl (hstuck _ ht)
  | symbol ht _ => exact absurd rfl (hstuck _ ht)

theorem exists_leave (hlabel : ∀ t ∈ nfa.transitions, t.source = p → t.label = .epsilon) (hne : p ≠ q)
    (h : Path nfa p w q) : ∃ t ∈ nfa.transitions, t.source = p ∧ Path nfa t.target w q := by
  cases h with
  | refl => exact absurd rfl hne
  | epsilon ht hrest => exact ⟨_, ht, rfl, hrest⟩
  | symbol ht _ => cases hlabel _ ht rfl

theorem of_single_exit (hinner : inner.Within lo hi)
    (hexit : ∀ t ∈ outer.transitions, State.Between lo hi t.source →
      t ∈ inner.transitions ∨ t = .epsilon inner.accept q)
    (hstuck : ∀ t ∈ outer.transitions, t.source ≠ q) (hq : ¬ State.Between lo hi q)
    (h : Path outer inner.start w q) : Path inner inner.start w inner.accept := by
  have hthrough := h.through (L := (· = [])) hinner (fun t ht hsource ↦ ?_) hinner.start hq
  · obtain ⟨u, v, rfl, hu, rfl⟩ := hthrough
    rwa [List.append_nil]
  · rcases hexit t ht hsource with ht | rfl
    · exact .inl ht
    · exact .inr ⟨rfl, rfl, .inr fun v hv ↦ hv.eq_nil_of_stuck hstuck⟩

theorem enclose (h : Path inner inner.start w inner.accept)
    (hsub : ∀ t ∈ inner.transitions, t ∈ outer.transitions)
    (hin : .epsilon p inner.start ∈ outer.transitions)
    (hout : .epsilon inner.accept q ∈ outer.transitions) : Path outer p w q := by
  have hend : Path outer inner.accept [] q := .epsilon hout (.refl q)
  have hpath := (h.mono hsub).trans hend
  rw [List.append_nil] at hpath
  exact .epsilon hin hpath

end Path

theorem path_ofLiteral_iff (hne : start ≠ accept) :
    Path (ofLiteral start accept c) start w accept ↔ w = [c] := by
  constructor
  · intro h
    cases h with
    | refl => exact absurd rfl hne
    | epsilon ht _ => cases mem_ofLiteral.1 ht
    | symbol ht hrest =>
      cases mem_ofLiteral.1 ht
      have hnil := hrest.eq_nil_of_stuck fun t ht ↦ by
        rw [mem_ofLiteral.1 ht]
        exact hne
      rw [hnil]
  · rintro rfl
    exact .symbol (mem_ofLiteral.2 rfl) (.refl _)

theorem path_concat_iff (hfirst : first.Within lo mid) (hsecond : second.Within mid hi) :
    Path (first.concat second) first.start w second.accept ↔
      ∃ u v, w = u ++ v ∧ Path first first.start u first.accept ∧
        Path second second.start v second.accept := by
  constructor
  · intro h
    refine h.through hfirst (fun t ht hsource ↦ ?_) hfirst.start fun hq ↦ hq.disjoint hsecond.accept
    rcases mem_concat.1 ht with ht | rfl | ht
    · exact .inl ht
    · refine .inr ⟨rfl, rfl, .inr fun v hv ↦ hv.confined hsecond (fun t ht hsource ↦ ?_) hsecond.start⟩
      rcases mem_concat.1 ht with ht | rfl | ht
      · exact ((hfirst.transitions t ht).1.disjoint hsource).elim
      · exact (hfirst.accept.disjoint hsource).elim
      · exact ht
    · exact (hsource.disjoint (hsecond.transitions t ht).1).elim
  · rintro ⟨u, v, rfl, hu, hv⟩
    have hu' : Path (first.concat second) first.start u first.accept :=
      hu.mono fun t ht ↦ mem_concat.2 (.inl ht)
    have hv' : Path (first.concat second) second.start v second.accept :=
      hv.mono fun t ht ↦ mem_concat.2 (.inr (.inr ht))
    exact hu'.trans (.epsilon (mem_concat.2 (.inr (.inl rfl))) hv')

section Alternation

variable (hfirst : first.Within lo mid) (hsecond : second.Within mid hi)

include hfirst hsecond

theorem source_ne_accept_alternation (ht : t ∈ (alternation hi (hi + 1) first second).transitions) :
    t.source ≠ hi + 1 := by
  have hmid : mid ≤ hi + 1 := Nat.le_succ_of_le (Nat.le_of_lt hsecond.lt)
  rcases mem_alternation.1 ht with rfl | rfl | rfl | rfl | ht | ht
  · exact Nat.ne_of_lt (Nat.lt_succ_self hi)
  · exact Nat.ne_of_lt (Nat.lt_succ_self hi)
  · exact hfirst.accept.ne_of_le hmid
  · exact hsecond.accept.ne_of_le (Nat.le_succ hi)
  · exact (hfirst.transitions t ht).1.ne_of_le hmid
  · exact (hsecond.transitions t ht).1.ne_of_le (Nat.le_succ hi)

theorem leave_start_alternation (ht : t ∈ (alternation hi (hi + 1) first second).transitions)
    (hsource : t.source = hi) :
    t.label = .epsilon ∧ (t.target = first.start ∨ t.target = second.start) := by
  have hmid : mid ≤ hi := Nat.le_of_lt hsecond.lt
  rcases mem_alternation.1 ht with rfl | rfl | rfl | rfl | ht | ht
  · exact ⟨rfl, .inl rfl⟩
  · exact ⟨rfl, .inr rfl⟩
  · exact absurd hsource (hfirst.accept.ne_of_le hmid)
  · exact absurd hsource (hsecond.accept.ne_of_le (Nat.le_refl hi))
  · exact absurd hsource ((hfirst.transitions t ht).1.ne_of_le hmid)
  · exact absurd hsource ((hsecond.transitions t ht).1.ne_of_le (Nat.le_refl hi))

end Alternation

theorem leave_first_alternation (hsecond : second.Within mid hi)
    (ht : t ∈ (alternation hi (hi + 1) first second).transitions)
    (hsource : State.Between lo mid t.source) :
    t ∈ first.transitions ∨ t = .epsilon first.accept (hi + 1) := by
  have hmid : mid ≤ hi := Nat.le_of_lt hsecond.lt
  rcases mem_alternation.1 ht with rfl | rfl | rfl | rfl | ht | ht
  · exact absurd hsource (State.not_between hmid)
  · exact absurd hsource (State.not_between hmid)
  · exact .inr rfl
  · exact (hsource.disjoint hsecond.accept).elim
  · exact .inl ht
  · exact (hsource.disjoint (hsecond.transitions t ht).1).elim

theorem leave_second_alternation (hfirst : first.Within lo mid)
    (ht : t ∈ (alternation hi (hi + 1) first second).transitions)
    (hsource : State.Between mid hi t.source) :
    t ∈ second.transitions ∨ t = .epsilon second.accept (hi + 1) := by
  rcases mem_alternation.1 ht with rfl | rfl | rfl | rfl | ht | ht
  · exact absurd hsource (State.not_between (Nat.le_refl hi))
  · exact absurd hsource (State.not_between (Nat.le_refl hi))
  · exact (hfirst.accept.disjoint hsource).elim
  · exact .inr rfl
  · exact ((hfirst.transitions t ht).1.disjoint hsource).elim
  · exact .inl ht

theorem path_alternation_iff (hfirst : first.Within lo mid) (hsecond : second.Within mid hi) :
    Path (alternation hi (hi + 1) first second) hi w (hi + 1) ↔
      Path first first.start w first.accept ∨ Path second second.start w second.accept := by
  constructor
  · intro h
    have hstuck := fun t ht ↦ source_ne_accept_alternation (t := t) hfirst hsecond ht
    have hleave := fun t ht ↦ leave_start_alternation (t := t) hfirst hsecond ht
    obtain ⟨t, ht, hsource, hrest⟩ := h.exists_leave (fun t ht hsource ↦ (hleave t ht hsource).1)
      (Nat.ne_of_lt (Nat.lt_succ_self hi))
    rcases (hleave t ht hsource).2 with htarget | htarget <;> rw [htarget] at hrest
    · exact .inl (hrest.of_single_exit hfirst (fun t ht ↦ leave_first_alternation hsecond ht) hstuck
        (State.not_between (Nat.le_succ_of_le (Nat.le_of_lt hsecond.lt))))
    · exact .inr (hrest.of_single_exit hsecond (fun t ht ↦ leave_second_alternation hfirst ht) hstuck
        (State.not_between (Nat.le_succ hi)))
  · rintro (h | h)
    · exact h.enclose (fun t ht ↦ mem_alternation.2 (by simp [ht])) (mem_alternation.2 (.inl rfl))
        (mem_alternation.2 (.inr (.inr (.inl rfl))))
    · exact h.enclose (fun t ht ↦ mem_alternation.2 (by simp [ht])) (mem_alternation.2 (.inr (.inl rfl)))
        (mem_alternation.2 (.inr (.inr (.inr (.inl rfl)))))

/-- From a state that leads into a fragment and past it, the fragment can be passed any number of times. -/
theorem path_star_of_matches {e : Expr}
    (hlanguage : ∀ u, e.Matches u → Path inner inner.start u inner.accept)
    (hin : .epsilon p inner.start ∈ (star start accept inner).transitions)
    (hout : .epsilon p accept ∈ (star start accept inner).transitions) (h : (Expr.star e).Matches w) :
    Path (star start accept inner) p w accept := by
  generalize he : Expr.star e = r at h
  induction h generalizing p with
  | stop => exact .epsilon hout (.refl _)
  | @«repeat» e' u v hu _ _ ih =>
    obtain rfl : e = e' := Expr.star.inj he
    have hu' : Path (Nfa.star start accept inner) inner.start u inner.accept :=
      (hlanguage u hu).mono fun t ht ↦ mem_star.2 (by simp [ht])
    have hv := ih (mem_star.2 (.inr (.inr (.inl rfl)))) (mem_star.2 (.inr (.inr (.inr (.inl rfl))))) rfl
    exact .epsilon hin (hu'.trans hv)
  | literal | concat | left | right => cases he

section Star

variable (ht : t ∈ (star hi (hi + 1) inner).transitions)

include ht

theorem source_ne_accept_star (hinner : inner.Within lo hi) : t.source ≠ hi + 1 := by
  rcases mem_star.1 ht with rfl | rfl | rfl | rfl | ht
  · exact Nat.ne_of_lt (Nat.lt_succ_self hi)
  · exact Nat.ne_of_lt (Nat.lt_succ_self hi)
  · exact hinner.accept.ne_of_le (Nat.le_succ hi)
  · exact hinner.accept.ne_of_le (Nat.le_succ hi)
  · exact (hinner.transitions t ht).1.ne_of_le (Nat.le_succ hi)

theorem leave_start_star (hinner : inner.Within lo hi) (hsource : t.source = hi) :
    t.label = .epsilon ∧ (t.target = inner.start ∨ t.target = hi + 1) := by
  rcases mem_star.1 ht with rfl | rfl | rfl | rfl | ht
  · exact ⟨rfl, .inl rfl⟩
  · exact ⟨rfl, .inr rfl⟩
  · exact absurd hsource (hinner.accept.ne_of_le (Nat.le_refl hi))
  · exact absurd hsource (hinner.accept.ne_of_le (Nat.le_refl hi))
  · exact absurd hsource ((hinner.transitions t ht).1.ne_of_le (Nat.le_refl hi))

theorem leave_inner_star (hsource : State.Between lo hi t.source) :
    t ∈ inner.transitions ∨
      t = .epsilon inner.accept inner.start ∨ t = .epsilon inner.accept (hi + 1) := by
  rcases mem_star.1 ht with rfl | rfl | rfl | rfl | ht
  · exact absurd hsource (State.not_between (Nat.le_refl hi))
  · exact absurd hsource (State.not_between (Nat.le_refl hi))
  · exact .inr (.inl rfl)
  · exact .inr (.inr rfl)
  · exact .inl ht

end Star

theorem path_star_iff {e : Expr} (hinner : inner.Within lo hi)
    (hlanguage : ∀ u, Path inner inner.start u inner.accept ↔ e.Matches u) :
    Path (star hi (hi + 1) inner) hi w (hi + 1) ↔ (Expr.star e).Matches w := by
  constructor
  · intro h
    have hstuck := fun t ht ↦ source_ne_accept_star (t := t) ht hinner
    have hleave := fun t ht ↦ leave_start_star (t := t) ht hinner
    have hstop (v : List Char) (hv : Path (star hi (hi + 1) inner) (hi + 1) v (hi + 1)) :
        (Expr.star e).Matches v := by
      rw [hv.eq_nil_of_stuck hstuck]
      exact .stop e
    obtain ⟨t, ht, hsource, hrest⟩ := h.exists_leave (fun t ht hsource ↦ (hleave t ht hsource).1)
      (Nat.ne_of_lt (Nat.lt_succ_self hi))
    rcases (hleave t ht hsource).2 with htarget | htarget <;> rw [htarget] at hrest
    · have hpasses (u v : List Char) (hu : Path inner inner.start u inner.accept)
          (hv : (Expr.star e).Matches v) : (Expr.star e).Matches (u ++ v) := .repeat ((hlanguage u).1 hu) hv
      have hthrough := hrest.through (L := (Expr.star e).Matches) hinner (fun t ht hsource ↦ ?_)
        hinner.start (State.not_between (Nat.le_succ hi))
      · obtain ⟨u, v, rfl, hu, hv⟩ := hthrough
        exact hpasses u v hu hv
      · rcases leave_inner_star ht hsource with ht | rfl | rfl
        · exact .inl ht
        · exact .inr ⟨rfl, rfl, .inl ⟨rfl, hpasses⟩⟩
        · exact .inr ⟨rfl, rfl, .inr hstop⟩
    · exact hstop w hrest
  · intro h
    exact path_star_of_matches (fun u ↦ (hlanguage u).2) (mem_star.2 (.inl rfl))
      (mem_star.2 (.inr (.inl rfl))) h

end Nfa

namespace Expr

def stateCount : Expr → Nat
  | literal _ => 2
  | concat left right => left.stateCount + right.stateCount
  | alternation left right => left.stateCount + right.stateCount + 2
  | star inner => inner.stateCount + 2

/-- The automaton of an expression, with states from `n` on. -/
def thompson (n : Nat) : Expr → Nfa
  | literal c => .ofLiteral n (n + 1) c
  | concat left right => (thompson n left).concat (thompson (n + left.stateCount) right)
  | alternation left right =>
    let next := n + left.stateCount + right.stateCount
    .alternation next (next + 1) (thompson n left) (thompson (n + left.stateCount) right)
  | star inner => .star (n + inner.stateCount) (n + inner.stateCount + 1) (thompson n inner)

theorem within_thompson (e : Expr) (n : Nat) : (e.thompson n).Within n (n + e.stateCount) := by
  induction e generalizing n with
  | literal c => exact .ofLiteral n c
  | concat left right ihl ihr =>
    have hright := ihr (n + left.stateCount)
    rw [Nat.add_assoc] at hright
    exact (ihl n).concat hright
  | alternation left right ihl ihr =>
    have halternation := (ihl n).alternation (ihr (n + left.stateCount))
    simpa only [thompson, stateCount, Nat.add_assoc] using halternation
  | star inner ih => exact (ih n).star

/-- Paths through the automaton of an expression spell the words that it denotes. -/
theorem path_thompson_iff (e : Expr) (n : Nat) (w : List Char) :
    (e.thompson n).Path (e.thompson n).start w (e.thompson n).accept ↔ e.Matches w := by
  induction e generalizing n w with
  | literal c =>
    refine (Nfa.path_ofLiteral_iff (Nat.ne_of_lt (Nat.lt_succ_self n))).trans ?_
    constructor
    · rintro rfl
      exact .literal c
    · rintro ⟨⟩
      rfl
  | concat left right ihl ihr =>
    refine (Nfa.path_concat_iff (left.within_thompson n) (right.within_thompson _)).trans ?_
    simp only [ihl, ihr]
    constructor
    · rintro ⟨u, v, rfl, hu, hv⟩
      exact .concat hu hv
    · rintro (_ | ⟨hu, hv⟩)
      exact ⟨_, _, rfl, hu, hv⟩
  | alternation left right ihl ihr =>
    refine (Nfa.path_alternation_iff (left.within_thompson n) (right.within_thompson _)).trans ?_
    rw [ihl, ihr]
    constructor
    · rintro (h | h)
      · exact .left h
      · exact .right h
    · intro h
      cases h with
      | left h => exact .inl h
      | right h => exact .inr h
  | star inner ih => exact Nfa.path_star_iff (inner.within_thompson n) (ih n)

theorem accepts_thompson_iff (e : Expr) (n : Nat) (w : List Char) :
    (e.thompson n).accepts w = true ↔ e.Matches w :=
  Nfa.accepts_iff.trans (e.path_thompson_iff n w)

end Expr

end RegexCompiler
