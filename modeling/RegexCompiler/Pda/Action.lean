namespace RegexCompiler

inductive StackAction where
  /-- A marker is put on the stack. -/
  | push
  /-- A marker is taken from the stack. -/
  | pop
  /-- The automaton accepts at once, provided that no marker is on the stack. -/
  | passThrough
deriving DecidableEq

structure ActionTable where
  entries : List (Char × StackAction)
  ascending : entries.Pairwise fun a b ↦ a.1 < b.1
deriving DecidableEq

namespace ActionTable

def empty : ActionTable := ⟨[], .nil⟩

def isEmpty (table : ActionTable) : Bool := table.entries.isEmpty

def get? (table : ActionTable) (c : Char) : Option StackAction := table.entries.lookup c

/-- Puts an entry before the first one for a larger symbol, in place of one for the same symbol. -/
def place (c : Char) (action : StackAction) : List (Char × StackAction) → List (Char × StackAction)
  | [] => [(c, action)]
  | entry :: rest =>
    if c < entry.1 then (c, action) :: entry :: rest
    else if entry.1 < c then entry :: place c action rest
    else (c, action) :: rest

theorem mem_place {c : Char} {action : StackAction} {entries : List (Char × StackAction)}
    {entry : Char × StackAction} (h : entry ∈ place c action entries) :
    entry = (c, action) ∨ entry ∈ entries := by
  induction entries with
  | nil => exact .inl (List.mem_singleton.1 h)
  | cons first rest ih =>
    unfold place at h
    split at h
    · exact List.mem_cons.1 h
    · split at h
      · rcases List.mem_cons.1 h with rfl | h
        · exact .inr List.mem_cons_self
        · exact (ih h).imp_right (List.mem_cons_of_mem _)
      · exact (List.mem_cons.1 h).imp_right (List.mem_cons_of_mem _)

theorem pairwise_place {c : Char} {action : StackAction} {entries : List (Char × StackAction)}
    (h : entries.Pairwise fun a b ↦ a.1 < b.1) :
    (place c action entries).Pairwise fun a b ↦ a.1 < b.1 := by
  induction entries with
  | nil => simp [place]
  | cons first rest ih =>
    obtain ⟨hfirst, hrest⟩ := List.pairwise_cons.1 h
    unfold place
    split
    · rename_i hc
      refine List.pairwise_cons.2 ⟨fun entry hentry ↦ ?_, h⟩
      rcases List.mem_cons.1 hentry with rfl | hentry
      · exact hc
      · exact Std.lt_trans hc (hfirst entry hentry)
    · split
      · rename_i hc
        refine List.pairwise_cons.2 ⟨fun entry hentry ↦ ?_, ih hrest⟩
        rcases mem_place hentry with rfl | hentry
        · exact hc
        · exact hfirst entry hentry
      · rename_i hc hc'
        obtain rfl : c = first.1 := Std.Trichotomous.trichotomous (r := (· < ·)) c first.1 hc hc'
        exact List.pairwise_cons.2 ⟨hfirst, hrest⟩

def set (table : ActionTable) (c : Char) (action : StackAction) : ActionTable :=
  ⟨place c action table.entries, pairwise_place table.ascending⟩

def balancedAb : ActionTable := (empty.set 'a' .push).set 'b' .pop

end ActionTable

end RegexCompiler
