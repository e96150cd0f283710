import Mathlib.Data.List.Induction
import RegexCompiler.CommandLine.Compile

namespace RegexCompiler

namespace ActionTable

variable {table : ActionTable} {c d : Char} {action : StackAction} {entry : Char × StackAction}

theorem mem_place_self (c : Char) (action : StackAction) (entries : List (Char × StackAction)) :
    (c, action) ∈ place c action entries := by
  induction entries with
  | nil => exact List.mem_cons_self
  | cons first rest ih =>
    unfold place
    split
    · exact List.mem_cons_self
    · split
      · exact List.mem_cons_of_mem first ih
      · exact List.mem_cons_self

theorem mem_place_of_ne {entries : List (Char × StackAction)} (h : entry ∈ entries) (hne : entry.1 ≠ c) :
    entry ∈ place c action entries := by
  induction entries with
  | nil => cases h
  | cons first rest ih =>
    unfold place
    split
    · exact List.mem_cons_of_mem _ h
    · split
      · rcases List.mem_cons.1 h with rfl | h
        · exact List.mem_cons_self
        · exact List.mem_cons_of_mem first (ih h)
      · -- Neither symbol is the smaller one, so what is replaced is an entry for the symbol itself.
        rename_i hc hc'
        have hfirst : c = first.1 := Std.Trichotomous.trichotomous (r := (· < ·)) c first.1 hc hc'
        rcases List.mem_cons.1 h with rfl | h
        · exact absurd hfirst.symm hne
        · exact List.mem_cons_of_mem _ h

/-- The symbols of the entries ascend, so none of them has two. -/
theorem get?_eq_some_iff : table.get? c = some action ↔ (c, action) ∈ table.entries := by
  rw [get?, List.lookup_eq_some_iff]
  constructor
  · rintro ⟨before, after, hentries, -⟩
    simp [hentries]
  · intro h
    obtain ⟨before, after, hentries⟩ := List.append_of_mem h
    refine ⟨before, after, hentries, fun first hfirst ↦ ?_⟩
    have hascending := table.ascending
    rw [hentries, List.pairwise_append] at hascending
    have hlt := hascending.2.2 first hfirst _ List.mem_cons_self
    exact bne_iff_ne.2 (Std.ne_of_lt hlt).symm

theorem get?_eq_none_iff : table.get? c = none ↔ ∀ entry ∈ table.entries, entry.1 ≠ c := by
  simp only [Option.eq_none_iff_forall_ne_some, ne_eq, get?_eq_some_iff]
  constructor
  · rintro h ⟨d, action⟩ hentry rfl
    exact h action hentry
  · intro h action hentry
    exact h _ hentry rfl

theorem mem_set_iff (h : table.get? c = none) :
    entry ∈ (table.set c action).entries ↔ entry ∈ table.entries ∨ entry = (c, action) := by
  constructor
  · intro hentry
    exact (mem_place hentry).symm
  · rintro (hentry | rfl)
    · exact mem_place_of_ne hentry (get?_eq_none_iff.1 h entry hentry)
    · exact mem_place_self c action table.entries

theorem get?_set_of_ne (hd : table.get? d = none) (hc : table.get? c = none) (hne : d ≠ c) :
    (table.set c action).get? d = none := by
  refine get?_eq_none_iff.2 fun entry hentry ↦ ?_
  rcases (mem_set_iff hc).1 hentry with hentry | rfl
  · exact get?_eq_none_iff.1 hd entry hentry
  · exact hne.symm

end ActionTable

namespace CommandLine

variable {alphabet : Alphabet} {table : ActionTable} {requests before after rest : List (Char × StackAction)}
variable {c : Char} {action earlier : StackAction} {error : ConfigError} {message : String}

structure Met (alphabet : Alphabet) (requests : List (Char × StackAction)) : Prop where
  isSymbol : ∀ c ∈ requests.map Prod.fst, alphabet.isSymbol c = true
  nodup : (requests.map Prod.fst).Nodup

/-- The error of the first request that can not be met, because it is for no symbol, or for one that an earlier
request has given an action, and what is said about it. -/
inductive FirstUnmet (alphabet : Alphabet) (requests : List (Char × StackAction)) : ConfigError → String → Prop
  | notASymbol {before after : List (Char × StackAction)} {c : Char} {action : StackAction} :
    requests = before ++ (c, action) :: after → Met alphabet before → alphabet.isSymbol c = false →
      FirstUnmet alphabet requests (.notASymbol c) s!"'{c}' is not a symbol of the alphabet"
  | givenBoth {before after : List (Char × StackAction)} {c : Char} {earlier action : StackAction} :
    requests = before ++ (c, action) :: after → Met alphabet before → alphabet.isSymbol c = true →
      (c, earlier) ∈ before → FirstUnmet alphabet requests (.givenBoth c earlier action)
        s!"'{c}' is given both {ConfigError.actionName earlier} and {ConfigError.actionName action}"

theorem FirstUnmet.append (h : FirstUnmet alphabet requests error message) (rest : List (Char × StackAction)) :
    FirstUnmet alphabet (requests ++ rest) error message := by
  cases h with
  | notASymbol hsplit hbefore hc =>
    rw [hsplit, List.append_assoc, List.cons_append]
    exact .notASymbol rfl hbefore hc
  | givenBoth hsplit hbefore hc hearlier =>
    rw [hsplit, List.append_assoc, List.cons_append]
    exact .givenBoth rfl hbefore hc hearlier

theorem FirstUnmet.message_eq (h : FirstUnmet alphabet requests error message) : error.message = message := by
  cases h with
  | notASymbol => rfl
  | givenBoth => rfl

theorem Met.append_singleton (h : Met alphabet requests) (hc : alphabet.isSymbol c = true)
    (hnew : c ∉ requests.map Prod.fst) : Met alphabet (requests ++ [(c, action)]) where
  isSymbol d hd := by
    rw [List.map_append, List.mem_append] at hd
    rcases hd with hd | hd
    · exact h.isSymbol d hd
    · rw [List.mem_singleton.1 hd]
      exact hc
  nodup := by
    rw [List.map_append, List.map_singleton]
    refine List.nodup_append.2 ⟨h.nodup, by simp, fun d hd d' hd' heq ↦ hnew ?_⟩
    rwa [heq, List.mem_singleton.1 hd'] at hd

theorem Met.of_cons (h : Met alphabet ((c, action) :: requests)) :
    alphabet.isSymbol c = true ∧ c ∉ requests.map Prod.fst ∧ Met alphabet requests := by
  obtain ⟨hc, hrest⟩ := List.nodup_cons.1 h.nodup
  exact ⟨h.isSymbol c List.mem_cons_self, hc, fun d hd ↦ h.isSymbol d (List.mem_cons_of_mem c hd), hrest⟩

theorem met_or_firstUnmet (alphabet : Alphabet) (requests : List (Char × StackAction)) :
    Met alphabet requests ∨ ∃ error message, FirstUnmet alphabet requests error message := by
  induction requests using List.reverseRecOn with
  | nil => exact .inl ⟨by simp, by simp⟩
  | append_singleton requests request ih =>
    obtain ⟨c, action⟩ := request
    rcases ih with hmet | ⟨error, message, herror⟩
    · cases hc : alphabet.isSymbol c with
      | false => exact .inr ⟨_, _, .notASymbol rfl hmet hc⟩
      | true =>
        by_cases hgiven : c ∈ requests.map Prod.fst
        · obtain ⟨⟨c', earlier⟩, hearlier, rfl⟩ := List.mem_map.1 hgiven
          exact .inr ⟨_, _, .givenBoth rfl hmet hc hearlier⟩
        · exact .inl (hmet.append_singleton hc hgiven)
    · exact .inr ⟨error, message, herror.append _⟩

namespace Options

theorem addRequests_cons_of_none (hc : alphabet.isSymbol c = true) (hnone : table.get? c = none) :
    addRequests alphabet table ((c, action) :: rest) = addRequests alphabet (table.set c action) rest := by
  rw [addRequests, hc, hnone]
  rfl

theorem addRequests_cons_of_some (hc : alphabet.isSymbol c = true) (hsome : table.get? c = some earlier) :
    addRequests alphabet table ((c, action) :: rest) = .error (.givenBoth c earlier action) := by
  rw [addRequests, hc, hsome]
  rfl

theorem addRequests_cons_of_not_isSymbol (hc : alphabet.isSymbol c = false) :
    addRequests alphabet table ((c, action) :: rest) = .error (.notASymbol c) := by
  rw [addRequests, hc]
  rfl

/-- Requests that can be met are added to the entries of a table that has none for their symbols. -/
theorem exists_addRequests_append (hmet : Met alphabet requests)
    (hfree : ∀ c ∈ requests.map Prod.fst, table.get? c = none) :
    ∃ table' : ActionTable, (∀ entry, entry ∈ table'.entries ↔ entry ∈ table.entries ∨ entry ∈ requests) ∧
      ∀ rest, addRequests alphabet table (requests ++ rest) = addRequests alphabet table' rest := by
  induction requests generalizing table with
  | nil => exact ⟨table, by simp, fun rest ↦ rfl⟩
  | cons request requests ih =>
    obtain ⟨c, action⟩ := request
    obtain ⟨hc, hnew, hmet⟩ := hmet.of_cons
    have hnone := hfree c List.mem_cons_self
    have hset : ∀ d ∈ requests.map Prod.fst, (table.set c action).get? d = none := by
      intro d hd
      have hne : d ≠ c := fun heq ↦ hnew (heq ▸ hd)
      exact ActionTable.get?_set_of_ne (hfree d (List.mem_cons_of_mem c hd)) hnone hne
    obtain ⟨table', hentries, hrun⟩ := ih hmet hset
    refine ⟨table', fun entry ↦ ?_, fun rest ↦ ?_⟩
    · rw [hentries, ActionTable.mem_set_iff hnone, List.mem_cons, or_assoc]
    · rw [List.cons_append, addRequests_cons_of_none hc hnone, hrun]

theorem exists_addRequests_of_met (h : Met alphabet requests) :
    ∃ table : ActionTable, (∀ entry, entry ∈ table.entries ↔ entry ∈ requests) ∧
      ∀ rest, addRequests alphabet .empty (requests ++ rest) = addRequests alphabet table rest := by
  have hfree : ∀ c ∈ requests.map Prod.fst, ActionTable.empty.get? c = none := fun c _ ↦ rfl
  obtain ⟨table, hentries, hrun⟩ := exists_addRequests_append h hfree
  exact ⟨table, by simpa [ActionTable.empty] using hentries, hrun⟩

theorem addRequests_of_firstUnmet (h : FirstUnmet alphabet requests error message) :
    addRequests alphabet .empty requests = .error error := by
  cases h with
  | notASymbol hsplit hbefore hc =>
    obtain ⟨table, -, hrun⟩ := exists_addRequests_of_met hbefore
    rw [hsplit, hrun, addRequests_cons_of_not_isSymbol hc]
  | givenBoth hsplit hbefore hc hearlier =>
    obtain ⟨table, hentries, hrun⟩ := exists_addRequests_of_met hbefore
    have hsome := ActionTable.get?_eq_some_iff.2 ((hentries _).2 hearlier)
    rw [hsplit, hrun, addRequests_cons_of_some hc hsome]

variable {options : Options} {config : Config}

def listedFor (options : Options) : StackAction → List Char
  | .push => options.push.toList
  | .pop => options.pop.toList
  | .passThrough => options.pass.toList

def listed (options : Options) : List Char :=
  options.listedFor .push ++ options.listedFor .pop ++ options.listedFor .passThrough

theorem map_fst_requests (options : Options) : options.requests.map Prod.fst = options.listed := by
  simp [requests, listed, listedFor, Function.comp_def]

theorem mem_requests_iff : (c, action) ∈ options.requests ↔ c ∈ options.listedFor action := by
  cases action <;> simp [requests, listedFor]

theorem config_of_met (h : Met options.alphabet options.requests) :
    ∃ table : ActionTable, (∀ entry, entry ∈ table.entries ↔ entry ∈ options.requests) ∧
      options.config = .ok {
        alphabet := options.alphabet
        stackActions :=
          if !table.isEmpty then some table else if options.pda then some .balancedAb else none } := by
  obtain ⟨table, hentries, hrun⟩ := exists_addRequests_of_met h
  have htable := hrun []
  rw [List.append_nil] at htable
  exact ⟨table, hentries, by rw [config, htable]; rfl⟩

theorem config_of_firstUnmet (h : FirstUnmet options.alphabet options.requests error message) :
    options.config = .error error := by
  rw [config, addRequests_of_firstUnmet h]

theorem met_requests_iff : Met options.alphabet options.requests ↔
    (∀ c ∈ options.listed, options.alphabet.isSymbol c = true) ∧ options.listed.Nodup := by
  rw [← map_fst_requests]
  exact ⟨fun h ↦ ⟨h.isSymbol, h.nodup⟩, fun h ↦ ⟨h.1, h.2⟩⟩

theorem exists_config_iff : (∃ config, options.config = .ok config) ↔ Met options.alphabet options.requests := by
  constructor
  · rintro ⟨config, hconfig⟩
    rcases met_or_firstUnmet options.alphabet options.requests with hmet | ⟨error, message, herror⟩
    · exact hmet
    · cases hconfig.symm.trans (config_of_firstUnmet herror)
  · intro h
    obtain ⟨table, -, hconfig⟩ := config_of_met h
    exact ⟨_, hconfig⟩

theorem config_eq_error_iff : (options.config = .error error ∧ error.message = message) ↔
    FirstUnmet options.alphabet options.requests error message := by
  constructor
  · rintro ⟨hconfig, rfl⟩
    rcases met_or_firstUnmet options.alphabet options.requests with hmet | ⟨error', message, herror⟩
    · obtain ⟨table, -, htable⟩ := config_of_met hmet
      cases hconfig.symm.trans htable
    · cases hconfig.symm.trans (config_of_firstUnmet herror)
      rwa [herror.message_eq]
  · intro h
    exact ⟨config_of_firstUnmet h, h.message_eq⟩

theorem run_of_firstUnmet (h : FirstUnmet options.alphabet options.requests error message)
    (stdin : List UInt8) :
    options.run stdin = { status := 1, stderr := "Error: " ++ message ++ "\n" } := by
  rw [run, config_of_firstUnmet h, ← h.message_eq]
  rfl

theorem isEmpty_iff_of_entries {table : ActionTable}
    (h : ∀ entry, entry ∈ table.entries ↔ entry ∈ options.requests) :
    table.isEmpty = true ↔ options.listed = [] := by
  rw [ActionTable.isEmpty, List.isEmpty_iff, ← map_fst_requests, List.map_eq_nil_iff,
    List.eq_nil_iff_forall_not_mem, List.eq_nil_iff_forall_not_mem]
  exact forall_congr' fun entry ↦ not_congr (h entry)

theorem parts_of_config (h : options.config = .ok config) :
    config.alphabet = options.alphabet ∧
      (options.listed = [] → config.stackActions = if options.pda then some .balancedAb else none) ∧
      (options.listed ≠ [] → ∃ table, config.stackActions = some table ∧
        ∀ c action, (c, action) ∈ table.entries ↔ c ∈ options.listedFor action) := by
  obtain ⟨table, hentries, hconfig⟩ := config_of_met (exists_config_iff.1 ⟨config, h⟩)
  have hempty := isEmpty_iff_of_entries hentries
  cases h.symm.trans hconfig
  refine ⟨rfl, fun hlisted ↦ ?_, fun hlisted ↦ ⟨table, ?_, fun c action ↦ ?_⟩⟩
  · rw [hempty.2 hlisted]
    rfl
  · rw [Bool.eq_false_iff.2 fun h ↦ hlisted (hempty.1 h)]
    rfl
  · rw [hentries, mem_requests_iff]

/-- Options are refused for the first listed symbol that is none or was listed before, and the error says so.
Otherwise each listed symbol has the action it is listed for, and where none is listed, there is the
default. -/
theorem config_resolves (options : Options) :
    ((∃ config, options.config = .ok config) ↔
        (∀ c ∈ options.listed, options.alphabet.isSymbol c = true) ∧ options.listed.Nodup) ∧
      (∀ config, options.config = .ok config → config.alphabet = options.alphabet ∧
        (options.listed = [] → config.stackActions = if options.pda then some .balancedAb else none) ∧
        (options.listed ≠ [] → ∃ table, config.stackActions = some table ∧
          ∀ c action, (c, action) ∈ table.entries ↔ c ∈ options.listedFor action)) ∧
      (∀ error message, (options.config = .error error ∧ error.message = message) ↔
        FirstUnmet options.alphabet options.requests error message) ∧
      (∀ error message stdin, FirstUnmet options.alphabet options.requests error message →
        options.run stdin = { status := 1, stderr := "Error: " ++ message ++ "\n" }) ∧
      ConfigError.actionName .push = "Push" ∧ ConfigError.actionName .pop = "Pop" ∧
        ConfigError.actionName .passThrough = "PassThrough" :=
  ⟨exists_config_iff.trans met_requests_iff, fun _ ↦ parts_of_config, fun _ _ ↦ config_eq_error_iff,
    fun _ _ stdin h ↦ run_of_firstUnmet h stdin, rfl, rfl, rfl⟩

example : Options.run ⟨none, .text, true, false, "ab", "ca", ""⟩ [] =
    { status := 1, stderr := "Error: 'a' is given both Push and Pop\n" } := by
  decide

end Options

end CommandLine

end RegexCompiler
