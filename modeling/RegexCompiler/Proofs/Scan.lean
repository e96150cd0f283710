import RegexCompiler.Scan

namespace RegexCompiler.Scan

variable {σ ι ε : Type} {step : Nat → σ → ι → Except ε σ} {position : Nat} {state state' : σ} {x : ι}

theorem run_cons_of_ok (h : step position state x = .ok state') (xs : List ι) :
    run step position state (x :: xs) = run step (position + 1) state' xs := by
  rw [run, h]

theorem run_cons_of_error {e : ε} (h : step position state x = .error e) (xs : List ι) :
    run step position state (x :: xs) = (state, some e) := by
  rw [run, h]

theorem run_append_of_none {xs : List ι} (h : run step position state xs = (state', none)) (ys : List ι) :
    run step position state (xs ++ ys) = run step (position + xs.length) state' ys := by
  induction xs generalizing position state with
  | nil =>
    cases h
    rfl
  | cons x xs ih =>
    rw [List.cons_append, List.length_cons]
    cases hstep : step position state x with
    | error e =>
      rw [run_cons_of_error hstep] at h
      cases h
    | ok next =>
      rw [run_cons_of_ok hstep] at h ⊢
      rw [ih h]
      congr 1
      omega

theorem exists_of_run_cons {xs : List ι} (h : run step position state (x :: xs) = (state', none)) :
    ∃ next, step position state x = .ok next ∧ run step (position + 1) next xs = (state', none) := by
  cases hstep : step position state x with
  | error e =>
    rw [run_cons_of_error hstep] at h
    cases h
  | ok next =>
    rw [run_cons_of_ok hstep] at h
    exact ⟨next, rfl, h⟩

theorem exists_step_of_mem {xs : List ι} (h : run step position state xs = (state', none)) (hx : x ∈ xs) :
    ∃ position state next, step position state x = .ok next := by
  induction xs generalizing position state with
  | nil => cases hx
  | cons y ys ih =>
    obtain ⟨next, hstep, hrest⟩ := exists_of_run_cons h
    rcases List.mem_cons.1 hx with rfl | hx
    · exact ⟨position, state, next, hstep⟩
    · exact ih hrest hx

theorem exists_step_of_run {e : ε} {xs : List ι} (h : run step position state xs = (state', some e)) :
    ∃ position x, x ∈ xs ∧ step position state' x = .error e := by
  induction xs generalizing position state with
  | nil => cases h
  | cons x xs ih =>
    cases hstep : step position state x with
    | error e' =>
      rw [run_cons_of_error hstep] at h
      cases h
      exact ⟨position, x, List.mem_cons_self, hstep⟩
    | ok next =>
      rw [run_cons_of_ok hstep] at h
      obtain ⟨position', y, hy, hfail⟩ := ih h
      exact ⟨position', y, List.mem_cons_of_mem x hy, hfail⟩

/-- What every step respects, a run respects. -/
theorem run_map {σ' : Type} {step' : Nat → σ' → ι → Except ε σ'} {f : σ → σ'}
    (h : ∀ position state x, step' position (f state) x = (step position state x).map f) (position : Nat)
    (state : σ) (xs : List ι) :
    run step' position (f state) xs =
      (f (run step position state xs).1, (run step position state xs).2) := by
  induction xs generalizing position state with
  | nil => rfl
  | cons x xs ih =>
    have hhead := h position state x
    cases hstep : step position state x with
    | error e =>
      rw [hstep] at hhead
      rw [run_cons_of_error hstep, run_cons_of_error hhead]
    | ok next =>
      rw [hstep] at hhead
      rw [run_cons_of_ok hstep, run_cons_of_ok hhead]
      exact ih (position + 1) next

end RegexCompiler.Scan
