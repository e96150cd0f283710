import RegexCompiler.Proofs.Compilation
import RegexCompiler.Proofs.ConversionOutcome

namespace RegexCompiler

open Token Conversion

namespace Token

variable {ts before after : List Token}

/-- The number of places where a concatenation is left implicit. -/
def joints (ts : List Token) : Nat := (ts.zip ts.tail).countP fun (left, right) ↦ left.joins right

theorem joints_cons_cons (left right : Token) (ts : List Token) :
    joints (left :: right :: ts) = joints (right :: ts) + (left.joins right).toNat := by
  have hzip : (left :: right :: ts).zip (left :: right :: ts).tail =
      (left, right) :: (right :: ts).zip (right :: ts).tail := rfl
  rw [joints, joints, hzip, List.countP_cons]
  cases h : left.joins right <;> simp [h]

theorem length_seam_singleton (left right : Token) (ts : List Token) :
    (seam [left] (right :: ts)).length = (left.joins right).toNat := by
  rw [seam_singleton_cons]
  cases left.joins right <;> rfl

theorem length_insertConcatenation (ts : List Token) :
    (insertConcatenation ts).length = ts.length + joints ts := by
  induction ts with
  | nil => rfl
  | cons left ts ih =>
    cases ts with
    | nil => rfl
    | cons right ts =>
      rw [insertConcatenation_cons, List.length_cons, List.length_append, length_seam_singleton, ih,
        joints_cons_cons, List.length_cons (a := left)]
      omega

theorem insertConcatenation_append_groupClose (before after : List Token) :
    insertConcatenation (before ++ .groupClose :: after) = insertConcatenation before ++
      .groupClose :: (seam [.groupClose] after ++ insertConcatenation after) := by
  rw [insertConcatenation_append_eq, seam_of_not_startsOperand rfl rfl, List.append_nil,
    insertConcatenation_cons]

theorem invalid_not_mem_insertConcatenation (h : ∀ c, .invalid c ∉ ts) (c : Char) :
    .invalid c ∉ insertConcatenation ts := by
  intro hc
  rcases mem_of_mem_insertConcatenation hc with hc | hc
  · cases hc
  · exact h c hc

theorem exists_first_invalid (h : ¬ ∀ c, .invalid c ∉ ts) :
    ∃ before c after, ts = before ++ .invalid c :: after ∧ ∀ d, .invalid d ∉ before := by
  induction ts with
  | nil => simp at h
  | cons t ts ih =>
    by_cases ht : ∃ c, t = .invalid c
    · obtain ⟨c, rfl⟩ := ht
      exact ⟨[], c, ts, rfl, by simp⟩
    · have hne : ∀ c, t ≠ .invalid c := fun c hc ↦ ht ⟨c, hc⟩
      have hts : ¬ ∀ c, .invalid c ∉ ts := by
        intro hts
        apply h
        intro c hc
        exact (List.mem_cons.1 hc).elim (fun heq ↦ hne c heq.symm) (hts c)
      obtain ⟨before, c, after, rfl, hbefore⟩ := ih hts
      refine ⟨t :: before, c, after, rfl, fun d hd ↦ ?_⟩
      exact (List.mem_cons.1 hd).elim (fun heq ↦ hne d heq.symm) (hbefore d)

/-- What is wrong with the tokens of a source: there are none, or else one of them is invalid, or else a group
is closed that is not open, or else groups are left open. The position of an invalid token is its own, the one
of a group close counts the concatenations that are left implicit before it. -/
inductive Faulty (ts : List Token) : ParseError → Prop
  | emptyExpression : ts = [] → Faulty ts .emptyExpression
  | reservedOperator {before after : List Token} : ts = before ++ .invalid '.' :: after →
    (∀ d, .invalid d ∉ before) → Faulty ts (.reservedOperator before.length)
  | unsupportedCharacter {before after : List Token} {c : Char} : c ≠ '.' →
    ts = before ++ .invalid c :: after → (∀ d, .invalid d ∉ before) →
    Faulty ts (.unsupportedCharacter c before.length)
  | unbalancedGroupClose {before after : List Token} : (∀ c, .invalid c ∉ ts) →
    ts = before ++ .groupClose :: after → Nested before → ¬ Nested (before ++ [.groupClose]) →
    Faulty ts (.unbalancedGroupClose (before.length + joints before))
  | unclosedGroup {count : Nat} : (∀ c, .invalid c ∉ ts) → Nested ts → 0 < count →
    ts.count .groupOpen = count + ts.count .groupClose → Faulty ts (.unclosedGroup count)

structure Sound (ts : List Token) : Prop where
  ne_nil : ts ≠ []
  valid : ∀ c, .invalid c ∉ ts
  nested : Nested ts
  closed : ts.count .groupOpen = ts.count .groupClose

theorem faulty_or_sound (ts : List Token) : (∃ error, Faulty ts error) ∨ Sound ts := by
  by_cases hnil : ts = []
  · exact .inl ⟨_, .emptyExpression hnil⟩
  by_cases hvalid : ∀ c, .invalid c ∉ ts
  · cases hdepth : groupDepth 0 ts with
    | none =>
      obtain ⟨before, after, hsplit, hbefore⟩ := exists_of_groupDepth_eq_none hdepth
      obtain ⟨hnested, hcount⟩ := groupDepth_eq_some_iff.1 hbefore
      refine .inl ⟨_, .unbalancedGroupClose hvalid hsplit hnested fun hclosed ↦ ?_⟩
      have hle := hclosed.count_le
      simp [hcount] at hle
    | some depth =>
      obtain ⟨hnested, hcount⟩ := groupDepth_eq_some_iff.1 hdepth
      cases depth with
      | zero => exact .inr ⟨hnil, hvalid, hnested, hcount.trans (Nat.zero_add _)⟩
      | succ depth => exact .inl ⟨_, .unclosedGroup hvalid hnested (Nat.succ_pos depth) hcount⟩
  · obtain ⟨before, c, after, hsplit, hbefore⟩ := exists_first_invalid hvalid
    by_cases hc : c = '.'
    · rw [hc] at hsplit
      exact .inl ⟨_, .reservedOperator hsplit hbefore⟩
    · exact .inl ⟨_, .unsupportedCharacter hc hsplit hbefore⟩

theorem groupDepth_of_unopened (hbefore : Nested before) (hclosed : ¬ Nested (before ++ [.groupClose])) :
    groupDepth 0 before = some 0 := by
  rw [nested_concat_iff] at hclosed
  have hle := hbefore.count_le
  have hlt := not_and.1 hclosed hbefore
  have hopen : [groupClose].count groupOpen = 0 := rfl
  have hclose : [groupClose].count groupClose = 1 := rfl
  rw [List.count_append, List.count_append, hopen, hclose] at hlt
  exact groupDepth_eq_some_iff.2 ⟨hbefore, by omega⟩

end Token

namespace Parsed

theorem firstInvalid_append {before : List Token} (hbefore : ∀ d, .invalid d ∉ before) (index : Nat) (c : Char)
    (after : List Token) :
    firstInvalid index (before ++ .invalid c :: after) = some (.ofInvalid c (index + before.length)) := by
  induction before generalizing index with
  | nil => rfl
  | cons t before ih =>
    have hrest := ih (fun d hd ↦ hbefore d (List.mem_cons_of_mem t hd)) (index + 1)
    rw [List.length_cons, ← Nat.add_assoc, Nat.add_right_comm, ← hrest]
    cases t with
    | invalid d => exact absurd List.mem_cons_self (hbefore d)
    | literal | operator | groupOpen | groupClose => rfl

variable {alphabet : Alphabet} {source : String} {before after : List Token}

theorem ofSource_of_invalid {c : Char} (h : alphabet.tokenize source = before ++ .invalid c :: after)
    (hbefore : ∀ d, .invalid d ∉ before) :
    ofSource alphabet source = .error (.ofInvalid c before.length) := by
  have hne : (before ++ .invalid c :: after).isEmpty = false := by simp
  have herror := firstInvalid_append hbefore 0 c after
  rw [Nat.zero_add] at herror
  rw [ofSource, validTokens, h]
  simp only [hne, herror, Bool.false_eq_true, if_false]

theorem ofSource_of_toRpn_eq_error {error : ParseError} (hne : alphabet.tokenize source ≠ [])
    (hvalid : ∀ c, .invalid c ∉ alphabet.tokenize source)
    (h : toRpn (insertConcatenation (alphabet.tokenize source)) = .error error) :
    ofSource alphabet source = .error error := by
  rw [ofSource, validTokens_eq_ok_iff.2 ⟨rfl, hne, hvalid⟩]
  dsimp only
  rw [h]
  rfl

theorem ofSource_of_unopened (hvalid : ∀ c, .invalid c ∉ alphabet.tokenize source)
    (h : alphabet.tokenize source = before ++ .groupClose :: after) (hdepth : groupDepth 0 before = some 0) :
    ofSource alphabet source = .error (.unbalancedGroupClose (before.length + joints before)) := by
  rw [h] at hvalid
  have hbefore : ∀ c, .invalid c ∉ before := fun c hc ↦ hvalid c (List.mem_append_left _ hc)
  apply ofSource_of_toRpn_eq_error
  · rw [h]
    simp
  · rwa [h]
  · rw [h, insertConcatenation_append_groupClose, ← length_insertConcatenation]
    apply toRpn_of_unopened (invalid_not_mem_insertConcatenation hbefore)
    rwa [groupDepth_insertConcatenation]

theorem ofSource_of_unclosed {depth : Nat} (hvalid : ∀ c, .invalid c ∉ alphabet.tokenize source)
    (hdepth : groupDepth 0 (alphabet.tokenize source) = some (depth + 1)) :
    ofSource alphabet source = .error (.unclosedGroup (depth + 1)) := by
  apply ofSource_of_toRpn_eq_error _ hvalid
  · apply toRpn_of_unclosed (invalid_not_mem_insertConcatenation hvalid)
    rwa [groupDepth_insertConcatenation]
  · intro hnil
    rw [hnil] at hdepth
    cases hdepth

theorem ofSource_of_faulty {error : ParseError} (h : Faulty (alphabet.tokenize source) error) :
    ofSource alphabet source = .error error := by
  cases h with
  | emptyExpression hnil => exact ofSource_eq_emptyExpression_iff.2 hnil
  | reservedOperator hsplit hbefore => exact ofSource_of_invalid hsplit hbefore
  | unsupportedCharacter hc hsplit hbefore =>
    rw [ofSource_of_invalid hsplit hbefore, ParseError.ofInvalid, if_neg hc]
  | unbalancedGroupClose hvalid hsplit hbefore hclosed =>
    exact ofSource_of_unopened hvalid hsplit (groupDepth_of_unopened hbefore hclosed)
  | @unclosedGroup count hvalid hnested hpos hcount =>
    obtain ⟨depth, rfl⟩ := Nat.exists_eq_succ_of_ne_zero (Nat.ne_of_gt hpos)
    exact ofSource_of_unclosed hvalid (groupDepth_eq_some_iff.2 ⟨hnested, hcount⟩)

theorem exists_ofSource_of_sound (h : Sound (alphabet.tokenize source)) :
    ∃ parsed, ofSource alphabet source = .ok parsed := by
  have hdepth : groupDepth 0 (insertConcatenation (alphabet.tokenize source)) = some 0 := by
    rw [groupDepth_insertConcatenation, groupDepth_eq_some_iff, Nat.zero_add]
    exact ⟨h.nested, h.closed⟩
  obtain ⟨rpn, hrpn⟩ := exists_toRpn_of_groupDepth (invalid_not_mem_insertConcatenation h.valid) hdepth
  obtain ⟨parsed, hparsed, -⟩ := exists_ofSource_iff.2 ⟨h.ne_nil, h.valid, hrpn⟩
  exact ⟨parsed, hparsed⟩

/-- A source is refused for what is wrong with its tokens, and parsed if nothing is. Only the groups and the
invalid tokens matter. -/
theorem ofSource_outcome (alphabet : Alphabet) (source : String) :
    (∀ error, ofSource alphabet source = .error error ↔ Faulty (alphabet.tokenize source) error) ∧
      ((∃ parsed, ofSource alphabet source = .ok parsed) ↔ Sound (alphabet.tokenize source)) := by
  rcases faulty_or_sound (alphabet.tokenize source) with ⟨fault, hfault⟩ | hsound
  · have hfails := ofSource_of_faulty hfault
    refine ⟨fun error ↦ ⟨fun h ↦ ?_, ofSource_of_faulty⟩, fun h ↦ ?_, exists_ofSource_of_sound⟩
    · rw [hfails] at h
      rwa [← Except.error.inj h]
    · obtain ⟨parsed, hparsed⟩ := h
      rw [hfails] at hparsed
      cases hparsed
  · obtain ⟨parsed, hparsed⟩ := exists_ofSource_of_sound hsound
    refine ⟨fun error ↦ ⟨fun h ↦ ?_, ofSource_of_faulty⟩, fun _ ↦ hsound, fun _ ↦ ⟨parsed, hparsed⟩⟩
    rw [hparsed] at h
    cases h

-- Only the position of the group close counts the two concatenations before it.
example : ofSource {} "abc)" = .error (.unbalancedGroupClose 5) ∧
    ofSource {} "abc)." = .error (.reservedOperator 4) := by decide

end Parsed

end RegexCompiler
