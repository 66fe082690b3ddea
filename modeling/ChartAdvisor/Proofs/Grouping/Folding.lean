import ChartAdvisor.Grouping.Key
import ChartAdvisor.Proofs.Query.Relabelling

/-!
# What keys take for the same

A key that does not look at channels, or writes one word for several of them, does not tell a chart from
the chart on other channels, as long as the words are the same and so is the encoding in which a stack is
noted. The stack follows the two axes, and what splits it is never told apart; so a key forgets just the
channels that it folds.
-/
namespace ChartAdvisor

/-! ## Channels of one role -/

/-- The channels that style marks. -/
def Channel.isStyle : Channel → Bool
  | .color | .size | .shape | .opacity => true
  | _ => false

/-- A permutation of the channels that takes axes to axes, facets to facets and channels of style to
channels of style, and keeps the rest. -/
structure Channel.KeepsRoles (σ : Equiv.Perm Channel) : Prop where
  axes : ∀ c, (σ c).isPositional = c.isPositional
  facets : ∀ c, (σ c).isFacet = c.isFacet
  styles : ∀ c, (σ c).isStyle = c.isStyle
  others : ∀ c, c.isPositional = false → c.isFacet = false → c.isStyle = false → σ c = c

namespace Channel

/-- Whatever keeps the places keeps the roles. -/
theorem KeepsPlaces.keepsRoles {σ : Equiv.Perm Channel} (hσ : KeepsPlaces σ) : KeepsRoles σ where
  axes := hσ.axes
  facets := hσ.facets
  styles := hσ.apply_eq rfl rfl
  others c hx hf _ := hσ.others c hx hf

namespace KeepsRoles

variable {σ : Equiv.Perm Channel} (hσ : KeepsRoles σ)
include hσ

/-- A table that tells no two channels of one role apart tells no channel from its image. -/
theorem apply_eq {α : Type} {f : Channel → α} (haxes : f .x = f .y) (hfacets : f .row = f .column)
    (hstyles : ∀ c, c.isStyle = true → f c = f .color) (c : Channel) : f (σ c) = f c := by
  have ha := hσ.axes c
  have hf := hσ.facets c
  have hs := hσ.styles c
  cases c with
  | x | y =>
    revert ha
    cases σ _ <;> simp [isPositional, haxes]
  | row | column =>
    revert hf
    cases σ _ <;> simp [isFacet, hfacets]
  | size | color | shape | opacity => exact (hstyles _ hs).trans (hstyles _ rfl).symm
  | detail | text => rw [hσ.others _ rfl rfl rfl]

end KeepsRoles
end Channel

/-! ## Stacks -/

/-- The encoding in which a shorthand notes a stack, and the offset that it notes. -/
def Stack.spot (s : Stack) : Nat × String := (s.fieldIndex, s.offset)

namespace ChartQuery

variable {σ : Equiv.Perm Channel} (hσ : Channel.KeepsRoles σ) (q : ChartQuery)
include hσ

/-- What splits a stack splits it on the image of its channel. -/
theorem isSome_stackGroup?_relabelled (e : Encoding) :
    (stackGroup? (e.relabelled σ)).isSome = (stackGroup? e).isSome := by
  have hgroup (c : Channel) : (σ c).isStackGroup = c.isStackGroup :=
    hσ.apply_eq rfl rfl (fun c hc => by cases c <;> first | rfl | contradiction) c
  have hfilter : ((e.channel?.map σ).filter Channel.isStackGroup).isSome =
      (e.channel?.filter Channel.isStackGroup).isSome := by
    cases e.channel? with
    | none => rfl
    | some c => simp only [Option.map_some, Option.filter_some, hgroup, apply_ite Option.isSome]; rfl
  unfold stackGroup?
  rw [Encoding.channel?_relabelled]
  simp only [apply_ite Option.isSome, hfilter]
  cases e <;> rfl

theorem accumulates_relabelled : (q.relabelled σ).accumulates = q.accumulates := by
  have hgroups : (q.relabelled σ).encodings.any (fun e => (stackGroup? e).isSome) =
      q.encodings.any fun e => (stackGroup? e).isSome := by
    rw [encodings_relabelled, List.any_map]
    exact congrArg (q.encodings.any ·) (funext fun e => isSome_stackGroup?_relabelled hσ e)
  have hx := q.aggregatesOn_relabelled σ.injective .x
  have hy := q.aggregatesOn_relabelled σ.injective .y
  unfold accumulates
  rw [mark_relabelled, isAggregate_relabelled, hgroups]
  rcases Channel.axes_cases hσ.axes with ⟨hsx, hsy⟩ | ⟨hsx, hsy⟩ <;> rw [hsx] at hx <;>
    rw [hsy] at hy <;> rw [hx, hy]
  rw [bne_comm]

/-- What accumulates does so along the image of its axis. -/
theorem stackAxis_relabelled (h : q.accumulates = true) :
    (q.relabelled σ).stackAxis = σ q.stackAxis := by
  have hone : q.aggregatesOn .x ≠ q.aggregatesOn .y := by
    simpa using (Bool.and_eq_true_iff.mp h).2
  have hx := q.aggregatesOn_relabelled σ.injective .x
  have hy := q.aggregatesOn_relabelled σ.injective .y
  unfold stackAxis
  rcases Channel.axes_cases hσ.axes with ⟨hsx, hsy⟩ | ⟨hsx, hsy⟩ <;> rw [hsx] at hx <;>
    rw [hsy] at hy
  · rw [hx]
    cases q.aggregatesOn .x <;> simp [hsx, hsy]
  · rw [hy]
    cases hax : q.aggregatesOn .x <;> cases hay : q.aggregatesOn .y <;> simp_all

/-- A stack is noted in the same encoding with the same offset. -/
theorem spot_stack?_relabelled :
    (q.relabelled σ).stack?.map Stack.spot = q.stack?.map Stack.spot := by
  have hoffset : (q.relabelled σ).stackOffset = q.stackOffset := rfl
  rw [stack?_eq, stack?_eq, hoffset, accumulates_relabelled hσ]
  split
  · next offset _ =>
    split
    · next h =>
      rw [stackAxis_relabelled hσ q h, position?_relabelled q σ.injective, Option.map_map,
        Option.map_map]
      rfl
    · rfl
  · rfl

end ChartQuery

/-! ## Shorthands -/

namespace Shorthand

variable {incl : Include} {repl : Replacers} {σ : Channel → Channel}

theorem encodingWith_relabelled (axis : incl .axis = false) (legend : incl .legend = false)
    (words : incl .channel = true → ∀ c,
      repl.apply .channel (Vocabulary.name (σ c)) = repl.apply .channel (Vocabulary.name c))
    (e : Encoding) (stackOffset : Option String) :
    encodingWith incl repl (e.relabelled σ) stackOffset = encodingWith incl repl e stackOffset := by
  have hdefinition : definition incl repl (e.relabelled σ) stackOffset =
      definition incl repl e stackOffset := by
    cases e with
    | field q =>
      simp only [definition, Encoding.relabelled, field, parameters, axis, legend, Bool.false_and]
      rfl
    | value c v => cases v <;> rfl
    | autoCount c b => rfl
  have hchannel (h : incl .channel = true) : slot repl .channel Vocabulary.name (e.relabelled σ).channel =
      slot repl .channel Vocabulary.name e.channel := by
    rw [Encoding.channel_relabelled]
    cases e.channel with
    | fixed c => exact words h c
    | wild w => rfl
  unfold encodingWith
  rw [hdefinition]
  cases h : incl .channel with
  | true => simp only [hchannel h]
  | false => rfl

/-- What is noted with an encoding is told by where the stack is noted. -/
theorem offset_eq_of_spot (s : Option Stack) (i : Nat) :
    (s.filter (·.fieldIndex == i)).map Stack.offset =
      ((s.map Stack.spot).filter (·.1 == i)).map Prod.snd := by
  cases s with
  | none => rfl
  | some s =>
    simp only [Option.map_some, Option.filter_some, Stack.spot]
    split <;> rfl

/-- A shorthand without guides is the same on other channels, if the words for the channels are the same
and a stack is noted in the same place. -/
theorem query_relabelled (axis : incl .axis = false) (legend : incl .legend = false)
    (words : incl .channel = true → ∀ c,
      repl.apply .channel (Vocabulary.name (σ c)) = repl.apply .channel (Vocabulary.name c))
    {q : ChartQuery} (stack : incl .stack = true →
      (q.relabelled σ).stack?.map Stack.spot = q.stack?.map Stack.spot) :
    query incl repl (q.relabelled σ) = query incl repl q := by
  have hstack : (if incl .stack then (q.relabelled σ).stack? else none).map Stack.spot =
      (if incl .stack then q.stack? else none).map Stack.spot := by
    cases h : incl .stack with
    | true => exact stack h
    | false => rfl
  have hencodings : encodings incl repl (q.relabelled σ) = encodings incl repl q := by
    unfold encodings
    simp only [ChartQuery.encodings_relabelled, List.zipIdx_map, List.filter_map, List.map_map,
      offset_eq_of_spot, hstack, Function.comp_def, Prod.map_fst, Prod.map_snd, id,
      Encoding.isDisabledAutoCount_relabelled, encodingWith_relabelled axis legend words]
  unfold query
  rw [hencodings]
  rfl

end Shorthand

/-! ## Words for channels -/

/-- The word for a channel when some words are taken for the same. -/
def Channel.foldedWord (words : Replacement) (c : Channel) : String :=
  Replacers.apply [(.channel, words)] .channel (Vocabulary.name c)

namespace Channel

open GroupKey (foldedPlaces foldedStyles)

variable {σ : Equiv.Perm Channel}

/-- What has one word when places are folded is both axes, both facets, or one channel. -/
theorem places_of_foldedWord_eq {c d : Channel} (h : d.foldedWord foldedPlaces = c.foldedWord foldedPlaces) :
    d.isPositional = c.isPositional ∧ d.isFacet = c.isFacet ∧
      (c.isPositional = false → c.isFacet = false → d = c) := by
  cases c <;> cases d <;> first
    | exact ⟨rfl, rfl, by decide⟩
    | exact absurd h (by decide +kernel)

/-- What has one word when styles are folded as well is both axes, both facets, all channels of style, or
one channel. -/
theorem roles_of_foldedWord_eq {c d : Channel} (h : d.foldedWord foldedStyles = c.foldedWord foldedStyles) :
    d.isPositional = c.isPositional ∧ d.isFacet = c.isFacet ∧ d.isStyle = c.isStyle ∧
      (c.isPositional = false → c.isFacet = false → c.isStyle = false → d = c) := by
  cases c <;> cases d <;> first
    | exact ⟨rfl, rfl, rfl, by decide⟩
    | exact absurd h (by decide +kernel)

theorem keepsPlaces_iff : KeepsPlaces σ ↔
    ∀ c, (σ c).foldedWord foldedPlaces = c.foldedWord foldedPlaces := by
  refine ⟨fun hσ => hσ.apply_eq rfl rfl, fun h => ⟨fun c => ?_, fun c => ?_, fun c => ?_⟩⟩
  · exact (places_of_foldedWord_eq (h c)).1
  · exact (places_of_foldedWord_eq (h c)).2.1
  · exact (places_of_foldedWord_eq (h c)).2.2

theorem keepsRoles_iff : KeepsRoles σ ↔
    ∀ c, (σ c).foldedWord foldedStyles = c.foldedWord foldedStyles := by
  refine ⟨fun hσ => hσ.apply_eq rfl rfl fun c hc => ?_,
    fun h => ⟨fun c => ?_, fun c => ?_, fun c => ?_, fun c => ?_⟩⟩
  · cases c <;> first | rfl | contradiction
  · exact (roles_of_foldedWord_eq (h c)).1
  · exact (roles_of_foldedWord_eq (h c)).2.1
  · exact (roles_of_foldedWord_eq (h c)).2.2.1
  · exact (roles_of_foldedWord_eq (h c)).2.2.2

end Channel

/-! ## Keys -/

/-- A field on a channel, as points. -/
def pointsOn (c : Channel) : ChartQuery where
  mark := .fixed .point
  encodings := [.field { channel := .fixed c, field := .fixed "Q", type := .fixed .quantitative }]

namespace GroupKey

/-- Two queries have one shorthand under a key. -/
def TakesForSame (k : GroupKey) (q r : ChartQuery) : Prop :=
  ∃ incl repl, k.resolve? = some (incl, repl) ∧
    Shorthand.query incl repl q = Shorthand.query incl repl r

/-- Under a key that folds places, points on a channel are told by its word. -/
theorem transpose_pointsOn (c : Channel) :
    Shorthand.query (.ofList (.stack :: .channel :: .mark :: dataProperties)) [(.channel, foldedPlaces)]
      (pointsOn c) = "point|" ++ (c.foldedWord foldedPlaces ++ ":Q,q") := by
  cases c <;> decide +kernel

/-- Under a key that folds styles, points on a channel are told by its word. -/
theorem encoding_pointsOn (c : Channel) :
    Shorthand.query (.ofList (.stack :: .channel :: dataProperties)) [(.channel, foldedStyles)]
      (pointsOn c) = c.foldedWord foldedStyles ++ ":Q,q" := by
  cases c <;> decide +kernel

variable {σ : Equiv.Perm Channel}

/-- The key by fields does not look at channels. -/
theorem field_takesForSame (σ : Channel → Channel) (q : ChartQuery) :
    (named "field").TakesForSame (q.relabelled σ) q :=
  ⟨_, _, rfl, Shorthand.query_relabelled rfl rfl (fun h => absurd h Bool.false_ne_true)
    fun h => absurd h Bool.false_ne_true⟩

theorem transpose_takesForSame_iff :
    Channel.KeepsPlaces σ ↔ ∀ q : ChartQuery, (named "transpose").TakesForSame (q.relabelled σ) q := by
  constructor
  · intro hσ q
    exact ⟨_, _, rfl, Shorthand.query_relabelled rfl rfl (fun _ => Channel.keepsPlaces_iff.mp hσ)
      fun _ => ChartQuery.spot_stack?_relabelled hσ.keepsRoles q⟩
  · intro h
    refine Channel.keepsPlaces_iff.mpr fun c => ?_
    obtain ⟨incl, repl, hkey, htext⟩ := h (pointsOn c)
    obtain ⟨rfl, rfl⟩ := Prod.mk.inj (Option.some.inj hkey)
    have htext' := (transpose_pointsOn (σ c)).symm.trans (htext.trans (transpose_pointsOn c))
    simpa using htext'

theorem encoding_takesForSame_iff :
    Channel.KeepsRoles σ ↔ ∀ q : ChartQuery, (named "encoding").TakesForSame (q.relabelled σ) q := by
  constructor
  · intro hσ q
    exact ⟨_, _, rfl, Shorthand.query_relabelled rfl rfl (fun _ => Channel.keepsRoles_iff.mp hσ)
      fun _ => ChartQuery.spot_stack?_relabelled hσ q⟩
  · intro h
    refine Channel.keepsRoles_iff.mpr fun c => ?_
    obtain ⟨incl, repl, hkey, htext⟩ := h (pointsOn c)
    obtain ⟨rfl, rfl⟩ := Prod.mk.inj (Option.some.inj hkey)
    have htext' := (encoding_pointsOn (σ c)).symm.trans (htext.trans (encoding_pointsOn c))
    simpa using htext'

/-- Keys forget exactly what they fold. Whatever a query is, and on whatever channels it is put, the key
by fields is the same. A permutation of the channels leaves the key that folds places the same for all
queries just if it keeps the places, and the key that folds styles as well just if it keeps the roles,
as every permutation does that keeps the places. -/
theorem keys_forget :
    (∀ (σ : Channel → Channel) (q : ChartQuery), (named "field").TakesForSame (q.relabelled σ) q) ∧
      ∀ σ : Equiv.Perm Channel,
        (Channel.KeepsPlaces σ → ∀ q : ChartQuery, (named "encoding").TakesForSame (q.relabelled σ) q) ∧
        (Channel.KeepsPlaces σ ↔
          ∀ q : ChartQuery, (named "transpose").TakesForSame (q.relabelled σ) q) ∧
        (Channel.KeepsRoles σ ↔
          ∀ q : ChartQuery, (named "encoding").TakesForSame (q.relabelled σ) q) :=
  ⟨field_takesForSame, fun _ => ⟨fun hσ => encoding_takesForSame_iff.mp hσ.keepsRoles,
    transpose_takesForSame_iff, encoding_takesForSame_iff⟩⟩

/-- Color and shape have one role, but not one place. -/
example : Channel.KeepsRoles (Equiv.swap .color .shape) ∧
    ¬Channel.KeepsPlaces (Equiv.swap .color .shape) := by
  refine ⟨⟨?_, ?_, ?_, ?_⟩, fun h => absurd (h.others .color rfl rfl) (by decide)⟩
  all_goals
    intro c
    cases c <;> decide

end GroupKey
end ChartAdvisor
