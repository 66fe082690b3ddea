/-!
# Tables

Lists of entries with keys. `insert` keeps the keys ascending, `put` keeps the order in which
the keys came; either way a key that is there gets the new value. A table is seen through
`List.lookup`: the lemmas say what each operation does to it.
-/
namespace ChartAdvisor
namespace Table

/-- Entries by ascending key with one added; an entry with that key is replaced. -/
def insert {β : Type} (key : String) (value : β) : List (String × β) → List (String × β)
  | [] => [(key, value)]
  | (k, v) :: rest =>
    if key = k then (key, value) :: rest
    else if key < k then (key, value) :: (k, v) :: rest
    else (k, v) :: insert key value rest

/-- Entries without the ones that have a key. -/
def erase {β : Type} (key : String) (entries : List (String × β)) : List (String × β) :=
  entries.filter (·.1 != key)

theorem lookup_cons_eq_ite {κ β : Type} [BEq κ] [LawfulBEq κ] [DecidableEq κ] (key other : κ)
    (value : β) (rest : List (κ × β)) :
    ((key, value) :: rest).lookup other = if other = key then some value else rest.lookup other := by
  by_cases h : other = key
  · simp [h]
  · have differs : (other == key) = false := by simp [h]
    simp [List.lookup_cons, h, differs]

@[simp]
theorem lookup_insert {β : Type} (key other : String) (value : β) (entries : List (String × β)) :
    (insert key value entries).lookup other =
      if other = key then some value else entries.lookup other := by
  induction entries with
  | nil => simp [insert, lookup_cons_eq_ite]
  | cons e rest ih =>
    obtain ⟨k, v⟩ := e
    simp only [insert]
    split
    · next hk =>
      subst hk
      simp only [lookup_cons_eq_ite]
      split <;> rfl
    · next hk =>
      split
      · simp only [lookup_cons_eq_ite]
      · simp only [lookup_cons_eq_ite, ih]
        by_cases h : other = key
        · simp [h, hk]
        · simp [h]

@[simp]
theorem lookup_erase {β : Type} (key other : String) (entries : List (String × β)) :
    (erase key entries).lookup other = if other = key then none else entries.lookup other := by
  unfold erase
  induction entries with
  | nil => simp
  | cons e rest ih =>
    obtain ⟨k, v⟩ := e
    rw [List.filter_cons]
    by_cases hk : k = key
    · subst hk
      rw [if_neg (by simp), ih, lookup_cons_eq_ite]
      split <;> rfl
    · rw [if_pos (by simp [hk]), lookup_cons_eq_ite, lookup_cons_eq_ite, ih]
      by_cases h : other = k
      · rw [if_pos h, if_pos h, if_neg (h ▸ hk)]
      · rw [if_neg h, if_neg h]

/-- Entries in the order in which they came with one added; an entry with that key gets the
new value in its place. -/
def put {κ β : Type} [BEq κ] (key : κ) (value : β) (entries : List (κ × β)) : List (κ × β) :=
  if entries.any (·.1 == key) then
    entries.map fun e => if e.1 == key then (e.1, value) else e
  else entries ++ [(key, value)]

theorem lookup_isSome_eq_any {κ β : Type} [BEq κ] [LawfulBEq κ] [DecidableEq κ] (key : κ)
    (entries : List (κ × β)) : (entries.lookup key).isSome = entries.any (·.1 == key) := by
  induction entries with
  | nil => rfl
  | cons e rest ih =>
    obtain ⟨k, v⟩ := e
    rw [lookup_cons_eq_ite, List.any_cons]
    by_cases h : key = k
    · simp [h]
    · simp [h, Ne.symm h, ih]

/-- The first name that a list has again, after the names in `seen`. -/
def firstRepeated? : (seen names : List String) → Option String
  | _, [] => none
  | seen, n :: rest => if seen.contains n then some n else firstRepeated? (n :: seen) rest

theorem firstRepeated?_eq_none_iff (seen names : List String) :
    firstRepeated? seen names = none ↔ names.Nodup ∧ ∀ n ∈ names, n ∉ seen := by
  induction names generalizing seen with
  | nil => simp [firstRepeated?]
  | cons n rest ih =>
    by_cases h : n ∈ seen
    · simp [firstRepeated?, h]
    · simp only [firstRepeated?, List.contains_eq_mem, h, decide_false, Bool.false_eq_true,
        if_false, ih, List.nodup_cons, List.mem_cons, forall_eq_or_imp, not_false_eq_true, true_and,
        not_or]
      constructor
      · rintro ⟨hr, hs⟩
        exact ⟨⟨fun hn => (hs n hn).1 rfl, hr⟩, fun m hm => (hs m hm).2⟩
      · rintro ⟨⟨hn, hr⟩, hs⟩
        exact ⟨hr, fun m hm => ⟨fun e => hn (e ▸ hm), hs m hm⟩⟩

end Table
end ChartAdvisor
