import ChartAdvisor.Grouping.Tree
import ChartAdvisor.Proofs.Table

/-!
# Keys on a level

On a level drafts are grouped by what the levels so far look at: a key writes the properties at which one
of them looks, and words that one of them has another word for are written so; where more than one have,
the last one counts. What the key of one level looks at is said for each kind of key. Grouping makes
tables of it and carries them from level to level, which say the same.
-/
namespace ChartAdvisor

namespace GroupKey

/-- Whether a property says which data are shown. -/
def isAboutData : Property → Bool
  | .field | .type | .aggregate | .bin | .timeUnit => true
  | _ => false

/-- Whether a key, taken alone, looks at a property. -/
def looksAt (p : Property) : GroupKey → Bool
  | named "field" => isAboutData p
  | named "fieldTransform" => isAboutData p || p == .stack
  | named "encoding" => isAboutData p || p == .stack || p == .channel
  | named "transpose" => isAboutData p || p == .stack || p == .channel || p == .mark
  | named "spec" => true
  | named _ => false
  | properties parts => parts.any (·.property == p)

/-- The words of a property for which a key, taken alone, has others. Of the lists that name a property the
last one counts. -/
def words (p : Property) : GroupKey → Replacement
  | named "encoding" =>
    if p = .channel then [("color", "style"), ("column", "facet"), ("opacity", "style"), ("row", "facet"),
      ("shape", "style"), ("size", "style"), ("x", "xy"), ("y", "xy")] else []
  | named "transpose" =>
    if p = .channel then [("column", "facet"), ("row", "facet"), ("x", "xy"), ("y", "xy")] else []
  | named _ => []
  | properties parts => ((parts.filter (·.property == p)).filterMap KeyPart.words).getLast?.getD []

end GroupKey

namespace GroupLevel

/-- Whether the key of a level, taken alone, looks at a property. -/
def looksAt (level : GroupLevel) (p : Property) : Bool := level.groupBy.looksAt p

/-- The words of a property for which the key of a level, taken alone, has others. -/
def words (level : GroupLevel) (p : Property) : Replacement := level.groupBy.words p

/-- The key of a draft on the last of some levels. -/
def keyOn (levels : List GroupLevel) (d : Draft) : String :=
  Shorthand.query (fun p => levels.any (·.looksAt p))
    (Vocabulary.all.map fun p => (p, (levels.flatMap (·.words p)).reverse)) d.query

end GroupLevel

/-! ## What is found in a replacement -/

namespace Replacers

/-- Of added words the last one counts. -/
theorem lookup_merge (old more : Replacement) (word : String) :
    (merge old more).lookup word = (more.reverse.lookup word).or (old.lookup word) := by
  unfold merge
  induction more generalizing old with
  | nil => rfl
  | cons entry rest ih =>
    obtain ⟨key, other⟩ := entry
    rw [List.foldl_cons, ih, Table.lookup_put, List.reverse_cons, List.lookup_append, Option.or_assoc,
      Table.lookup_cons_eq_ite]
    split <;> rfl

theorem apply_add (repl : Replacers) (p q : Property) (more : Replacement) (word : String) :
    (repl.add q more).apply p word =
      if p = q then (more.reverse.lookup word).getD (repl.apply p word) else repl.apply p word := by
  unfold apply add
  rw [Table.lookup_put]
  split
  · next hp =>
    subst hp
    rw [Option.bind_some, lookup_merge]
    cases more.reverse.lookup word <;> cases repl.lookup p <;> rfl
  · rfl

/-- Tables that are added entry by entry count for the words that they have. -/
theorem apply_foldl_add (added : Replacers) (nodup : (added.map Prod.fst).Nodup) (repl : Replacers)
    (p : Property) (word : String) :
    (added.foldl (fun repl (q, words) => repl.add q words) repl).apply p word =
      (((added.lookup p).getD []).reverse.lookup word).getD (repl.apply p word) := by
  induction added generalizing repl with
  | nil => rfl
  | cons entry rest ih =>
    obtain ⟨q, words⟩ := entry
    obtain ⟨hq, hrest⟩ := List.nodup_cons.mp nodup
    rw [List.foldl_cons, ih hrest, apply_add, Table.lookup_cons_eq_ite]
    split
    · next hp =>
      subst hp
      have hnone : rest.lookup p = none := by
        refine List.lookup_eq_none_iff.mpr fun e he => bne_iff_ne.mpr ?_
        rintro rfl
        exact hq (List.mem_map.mpr ⟨e, he, rfl⟩)
      rw [hnone]
      rfl
    · rfl

end Replacers

/-- A shorthand asks no more of replacements than which word stands for a word. -/
theorem Shorthand.query_congr_apply {incl : Include} {repl repl' : Replacers}
    (h : ∀ p word, repl.apply p word = repl'.apply p word) : query incl repl = query incl repl' := by
  have hslot {α : Type} [Coded α] (p : Property) (text : α → String) (s : Slot α) :
      slot repl p text s = slot repl' p text s := by
    cases s with
    | fixed v => exact h p (text v)
    | wild w => rfl
  have hdefinition : definition incl repl = definition incl repl' := by
    funext e stackOffset
    cases e with
    | value c v => cases v <;> rfl
    | autoCount c b => cases b <;> simp only [definition, autoCount, h]
    | field q => simp only [definition, field, function?, hslot, h]
  have hencodings : encodings incl repl = encodings incl repl' := by
    funext q
    simp only [encodings, encodingWith, hdefinition, hslot]
  funext q
  unfold query
  rw [hencodings, hslot]

/-! ## What a key is resolved to -/

namespace GroupKey

/-- The table of a list of properties has, for each of them, the last words that are there. -/
theorem lookup_foldl_parts (parts : List KeyPart) (found : Replacers) (p : Property) :
    (parts.foldl (fun found part => part.words.elim found (Table.put part.property · found)) found).lookup p =
        ((parts.filter (·.property == p)).filterMap KeyPart.words).getLast?.or (found.lookup p) := by
  induction parts generalizing found with
  | nil => rfl
  | cons part rest ih =>
    rw [List.foldl_cons, ih, List.filter_cons]
    by_cases hp : part.property = p
    · cases hwords : part.words with
      | none => simp [hp, hwords]
      | some words => simp [hp, hwords, Table.lookup_put, List.getLast?_cons, Option.or_some]
    · cases hwords : part.words with
      | none => simp [hp]
      | some words => simp [hp, Table.lookup_put, Ne.symm hp]

variable (key : GroupKey) (p : Property)

theorem any_resolve? : key.resolve?.any (·.1 p) = key.looksAt p := by
  unfold resolve?
  split
  case h_6 => simp [looksAt]
  case h_7 parts =>
    rw [Bool.eq_iff_iff]
    simp [looksAt, Include.ofList]
  all_goals cases p <;> rfl

theorem lookup_resolve? : (key.resolve?.bind (·.2.lookup p)).getD [] = key.words p := by
  unfold resolve?
  split
  case h_6 => simp [words]
  case h_7 parts =>
    have hlast := lookup_foldl_parts parts [] p
    rw [List.lookup_nil, Option.or_none] at hlast
    simp only [Option.bind_some, words, ← hlast]
    congr 3
    funext found part
    cases part.words <;> rfl
  all_goals cases p <;> rfl

end GroupKey

/-! ## What is carried from level to level -/

/-- A key replaces the words of a property once. -/
theorem GroupKey.nodup_resolve? {key : GroupKey} {incl : Include} {repl : Replacers}
    (h : key.resolve? = some (incl, repl)) : (repl.map Prod.fst).Nodup := by
  unfold resolve? at h
  split at h
  case h_6 => contradiction
  case h_7 parts =>
    obtain ⟨-, rfl⟩ := Prod.mk.inj (Option.some.inj h)
    refine List.foldlRecOn (motive := fun found : Replacers => (found.map Prod.fst).Nodup) parts _
      List.nodup_nil fun found hfound part _ => ?_
    cases part.words with
    | none => exact hfound
    | some words => exact Table.nodup_put _ _ hfound
  all_goals
    obtain ⟨-, rfl⟩ := Prod.mk.inj (Option.some.inj h)
    decide

/-- Tables that say what some levels look at and which words they have others for. -/
structure GroupLevel.Carries (passed : List GroupLevel) (incl : Include) (repl : Replacers) : Prop where
  included : ∀ p, incl p = passed.any (·.looksAt p)
  replaced : ∀ p word, repl.apply p word = ((passed.flatMap (·.words p)).reverse.lookup word).getD word

namespace GroupLevel

theorem carries_nil : Carries [] .none [] := ⟨fun _ => rfl, fun _ _ => rfl⟩

/-- The tables that grouping makes of those of the levels above and of the key of a level. -/
def widened (level : GroupLevel) (incl : Include) (repl : Replacers) : Include × Replacers :=
  match level.groupBy.resolve? with
  | some (more, added) =>
    (incl.union more, added.foldl (fun repl (p, words) => Replacers.add repl p words) repl)
  | none => (incl, repl)

variable {passed : List GroupLevel} {incl : Include} {repl : Replacers}

theorem Carries.widened (h : Carries passed incl repl) (level : GroupLevel) :
    Carries (passed ++ [level]) (level.widened incl repl).1 (level.widened incl repl).2 := by
  have hincluded (p : Property) : (level.widened incl repl).1 p = (incl p || level.looksAt p) := by
    unfold GroupLevel.widened looksAt
    rw [← GroupKey.any_resolve?]
    cases level.groupBy.resolve? with
    | none => exact (Bool.or_false _).symm
    | some found => rfl
  have hreplaced (p : Property) (word : String) : (level.widened incl repl).2.apply p word =
      ((level.words p).reverse.lookup word).getD (repl.apply p word) := by
    unfold GroupLevel.widened words
    rw [← GroupKey.lookup_resolve?]
    cases hfound : level.groupBy.resolve? with
    | none => rfl
    | some found => exact Replacers.apply_foldl_add _ (GroupKey.nodup_resolve? hfound) repl p word
  refine ⟨fun p => ?_, fun p word => ?_⟩
  · rw [hincluded, h.included, List.any_append, List.any_cons, List.any_nil, Bool.or_false]
  · rw [hreplaced, h.replaced, List.flatMap_append, List.flatMap_singleton, List.reverse_append,
      List.lookup_append, Option.getD_or]

/-- A key is what is written by the tables that are carried. -/
theorem Carries.query_eq (h : Carries passed incl repl) (d : Draft) :
    Shorthand.query incl repl d.query = keyOn passed d := by
  have hwords (p : Property) (word : String) : repl.apply p word =
      Replacers.apply (Vocabulary.all.map fun p => (p, (passed.flatMap (·.words p)).reverse)) p word := by
    rw [h.replaced, Replacers.apply, Table.lookup_map_self, if_pos p.mem_all]
    rfl
  rw [keyOn, Shorthand.query_congr_apply hwords, funext h.included]

end GroupLevel
end ChartAdvisor
