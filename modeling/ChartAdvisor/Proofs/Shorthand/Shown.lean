import ChartAdvisor.Proofs.Shorthand.Rewriting

/-!
# What is written of a query

Some of what a query holds is not written: how its open slots are called, a bin that is switched off, a
scale or a guide that is switched on with nothing set in it, a part of a scale that is `null`, a guide on a
channel that has none, whether a field must have a function when none is open, and, of a switch beside
settings, that it is open when nothing else is said of it. Without all that, a query is written as before.
-/
namespace ChartAdvisor

/-! ## What is written of a part -/

section

variable {α : Type}

def Wildcard.nameless (w : Wildcard α) : Wildcard α := { w with name := none }

theorem Wildcard.shorthand_nameless [Coded α] (w : Wildcard α) : w.nameless.shorthand = w.shorthand := rfl

namespace Slot

def nameless : Slot α → Slot α
  | fixed v => fixed v
  | wild w => wild w.nameless

theorem isNameless_nameless (s : Slot α) : s.nameless.IsNameless := by
  intro w hw
  cases s with
  | fixed v => contradiction
  | wild w' =>
    obtain rfl := Slot.wild.inj hw
    rfl

theorem nameless_of_closed {s : Slot α} (h : s.isOpen = false) : s.nameless = s := by
  cases s with
  | fixed v => rfl
  | wild w => contradiction

theorem map_nameless_of_closed {s : Option (Slot α)} (h : s.any isOpen = false) : s.map nameless = s := by
  rcases s with _ | _ | _
  · rfl
  · rfl
  · contradiction

@[simp]
theorem value?_nameless (s : Slot α) : s.nameless.value? = s.value? := by
  cases s <;> rfl

@[simp]
theorem isOpen_nameless (s : Slot α) : s.nameless.isOpen = s.isOpen := by
  cases s <;> rfl

@[simp]
theorem is_nameless [BEq α] (s : Slot α) (v : α) : s.nameless.is v = s.is v := by
  cases s <;> rfl

theorem eq_fixed_of_nameless {s : Slot α} {v : α} (h : s.nameless = fixed v) : s = fixed v := by
  cases s with
  | fixed u => exact h
  | wild w => contradiction

theorem eq_wild_of_nameless {s : Slot α} {w : Wildcard α} (h : s.nameless = wild w) :
    ∃ u, s = wild u ∧ u.nameless = w := by
  cases s with
  | fixed v => contradiction
  | wild u => exact ⟨u, rfl, Slot.wild.inj h⟩

end Slot

namespace Toggle

def nameless : Toggle α → Toggle α
  | wild w t => wild w.nameless t
  | t => t

/-- What is written of a part that can be switched on. -/
def shown [Settings α] : Toggle α → Toggle α
  | off => off
  | on t => on t
  | wild w t =>
    if Settings.isEmpty t then wild w.nameless Settings.none
    else if w.isShort then on t
    else wild w t

/-- A part is written unless it is switched on with nothing set in it. -/
def isWritten [Settings α] : Toggle α → Bool
  | on t => !Settings.isEmpty t
  | _ => true

theorem shown_of_closed [Settings α] {t : Option (Toggle α)} (h : t.any isOpen = false) :
    t.map shown = t := by
  rcases t with _ | _ | _ | _
  · rfl
  · rfl
  · rfl
  · contradiction

end Toggle

end

def Bin.nameless (b : Bin) : Bin := { b with maxbins := b.maxbins.map Slot.nameless }

theorem Bin.nameless_of_closed {b : Bin} (h : b.maxbins.any Slot.isOpen = false) : b.nameless = b := by
  rw [nameless, Slot.map_nameless_of_closed h]

/-! ## What is written of an encoding -/

namespace FieldEncoding

def shown (q : FieldEncoding) : FieldEncoding where
  channel := q.channel.nameless
  aggregate := q.aggregate.nameless
  timeUnit := q.timeUnit.nameless
  hasFunction := q.hasFunction && q.hasOpenFunction
  bin := (q.bin.filter Toggle.isPresent).map fun t => (t.mapInner Bin.nameless).nameless
  scale := (q.scale.map fun t => (t.mapInner Scale.dropNulls).shown).filter Toggle.isWritten
  sort := q.sort.map Slot.nameless
  field := q.field.nameless
  type := q.type.nameless
  axis :=
    if q.channel.value?.all Channel.supportsAxis then (q.axis.map Toggle.shown).filter Toggle.isWritten
    else none
  legend :=
    if q.channel.value?.all Channel.supportsLegend then
      (q.legend.map Toggle.shown).filter Toggle.isWritten
    else none

@[simp]
theorem aggregate?_shown (q : FieldEncoding) : q.shown.aggregate? = q.aggregate? := by
  rw [aggregate?, shown, Slot.value?_nameless]
  rfl

@[simp]
theorem timeUnit?_shown (q : FieldEncoding) : q.shown.timeUnit? = q.timeUnit? := by
  rw [timeUnit?, shown, Slot.value?_nameless]
  rfl

@[simp]
theorem bin?_shown (q : FieldEncoding) : q.shown.bin? = q.bin?.map Bin.nameless := by
  rw [bin?, bin?, shown]
  rcases q.bin with _ | _ | _ | _ <;> rfl

@[simp]
theorem isBinned_shown (q : FieldEncoding) : q.shown.isBinned = q.isBinned := by
  rw [isBinned, isBinned, shown]
  rcases q.bin with _ | _ | _ | _ <;> rfl

@[simp]
theorem isCalled_shown (q : FieldEncoding) : q.shown.isCalled = q.isCalled := by
  simp only [isCalled, aggregate?_shown, timeUnit?_shown, isBinned_shown]

@[simp]
theorem hasOpenFunction_shown (q : FieldEncoding) : q.shown.hasOpenFunction = q.hasOpenFunction := by
  have hbin : q.shown.binIsOpen = q.binIsOpen := by
    rw [binIsOpen, binIsOpen, shown]
    rcases q.bin with _ | _ | _ | _ <;> rfl
  rw [hasOpenFunction, hasOpenFunction, hbin, shown, Slot.isOpen_nameless, Slot.isOpen_nameless]

end FieldEncoding

namespace Encoding

def shown : Encoding → Encoding
  | field q => field q.shown
  | value c v => value c.nameless v.nameless
  | autoCount c b => autoCount c.nameless b.nameless

@[simp]
theorem channel_shown (e : Encoding) : e.shown.channel = e.channel.nameless := by
  cases e <;> rfl

@[simp]
theorem isDisabledAutoCount_shown (e : Encoding) : e.shown.isDisabledAutoCount = e.isDisabledAutoCount := by
  cases e with
  | field | value => rfl
  | autoCount c b => exact b.is_nameless false

@[simp]
theorem isEnabledAutoCount_shown (e : Encoding) : e.shown.isEnabledAutoCount = e.isEnabledAutoCount := by
  cases e with
  | field | value => rfl
  | autoCount c b => exact b.is_nameless true

theorem isAggregate_shown (e : Encoding) : e.shown.isAggregate = e.isAggregate := by
  cases e with
  | value => rfl
  | field q => exact congrArg Option.isSome q.aggregate?_shown
  | autoCount c b => exact b.is_nameless true

theorem mayAggregate_shown (e : Encoding) : e.shown.mayAggregate = e.mayAggregate := by
  cases e with
  | value => rfl
  | field q =>
    change q.shown.mayAggregate = q.mayAggregate
    rw [FieldEncoding.mayAggregate, FieldEncoding.mayAggregate, FieldEncoding.shown]
    rcases q.aggregate with (_ | _) | _ <;> rfl
  | autoCount c b => exact congrArg (!·) (b.is_nameless false)

theorem stackGroup?_shown (e : Encoding) : ChartQuery.stackGroup? e.shown = ChartQuery.stackGroup? e := by
  have hchannel : e.shown.channel? = e.channel? := by rw [channel?, channel_shown, Slot.value?_nameless]; rfl
  have hmay := mayAggregate_shown e
  unfold ChartQuery.stackGroup?
  rw [hchannel]
  cases e with
  | value | autoCount => rfl
  | field q =>
    change (if (!q.shown.mayAggregate) = true then _ else _) = _
    rw [show q.shown.mayAggregate = q.mayAggregate from hmay]

end Encoding

/-- What is written of a query. -/
def ChartQuery.shown (q : ChartQuery) : ChartQuery :=
  { q with
    mark := q.mark.nameless
    transform := q.transform.filter (!·.isEmpty)
    encodings := q.encodings.map Encoding.shown }

/-! ## Texts -/

namespace Scale

@[simp]
theorem json?_dropNulls (s : Scale) (p : ScaleProperty) : s.dropNulls.json? p = s.json? p := by
  have hkeep (v : Option (Slot Json)) :
      ((keepUnlessNull v).map fun v => (encode v).sorted).filter (!·.isNull) =
        (v.map fun v => (encode v).sorted).filter (!·.isNull) := by
    unfold keepUnlessNull
    split
    · next hv => rw [hv]; rfl
    · rfl
  rw [dropNulls_eq]
  cases p with
  | domain => exact hkeep s.domain
  | range => exact hkeep s.range
  | _ => rfl

end Scale

namespace Shorthand

variable {incl : Include} {repl : Replacers}

theorem slot_nameless {α : Type} [Coded α] (p : Property) (text : α → String) (s : Slot α) :
    slot repl p text s.nameless = slot repl p text s := by
  cases s <;> rfl

theorem scaleMembers_of_full (full : incl.IsFull) (s : Scale) :
    scaleMembers incl s = scaleMembers Include.all s := by
  unfold scaleMembers
  congr 2
  funext p
  rw [full (.scaleOf p) nofun]
  rfl

@[simp]
theorem scaleMembers_dropNulls (s : Scale) :
    scaleMembers incl s.dropNulls = scaleMembers incl s := by
  simp only [scaleMembers, Scale.json?_dropNulls]

theorem scaleMembers_isEmpty (s : Scale) : (scaleMembers Include.all s).isEmpty = s.isEmpty := by
  rw [Bool.eq_iff_iff, List.isEmpty_iff, Scale.isEmpty, List.all_eq_true]
  constructor
  · intro hnil p _
    have hp := lookup_scaleMembers s p
    rw [hnil] at hp
    simp [Scale.has, ← hp]
  · intro hnone
    have hparts : (Property.scaleParts.filterMap fun p =>
        if Include.all (.scaleOf p) then (s.json? p).map (Vocabulary.name p, ·) else none) = [] := by
      refine List.filterMap_eq_nil_iff.mpr fun p _ => ?_
      have hp := hnone p (by cases p <;> decide)
      have hp : s.json? p = none := by simpa [Scale.has] using hp
      simp [hp]
    unfold scaleMembers
    rw [hparts]
    rfl

theorem binParameters_nameless (b : Bin) : binParameters incl b.nameless = binParameters incl b := by
  obtain ⟨maxbins, extent, base, step, steps, minstep, divide⟩ := b
  rcases maxbins with _ | _ | w
  · rfl
  · rfl
  · unfold binParameters Bin.parameters
    rw [List.filterMap_filterMap, List.filterMap_filterMap]
    congr 1
    funext p
    cases p with
    | maxbins => rfl
    | extent => cases extent <;> rfl
    | base => cases base <;> rfl
    | step => cases step <;> rfl
    | steps => cases steps <;> rfl
    | minstep => cases minstep <;> rfl
    | divide => cases divide <;> rfl

/-- A part is written alike without what is not written of it. -/
theorem toggleParameter_shown {α : Type} [Settings α] (key : String) {members : α → Json.Members}
    (hempty : ∀ t, (members t).isEmpty = Settings.isEmpty t) (hnone : members Settings.none = [])
    (t : Option (Toggle α)) :
    ((t.map Toggle.shown).filter Toggle.isWritten).bind (fun t =>
      toggleParameter key t ((t.inner?.map members).getD [])) =
      t.bind fun t => toggleParameter key t ((t.inner?.map members).getD []) := by
  have hnil (t : α) : members t = [] ↔ Settings.isEmpty t = true := by
    rw [← hempty, List.isEmpty_iff]
  rcases t with _ | _ | t | ⟨w, t⟩
  · rfl
  · rfl
  · rw [Option.map_some, Option.filter_some]
    cases ht : Settings.isEmpty t with
    | true => simp [Toggle.shown, Toggle.isWritten, ht, toggleParameter, Toggle.inner?, hnil]
    | false => simp [Toggle.shown, Toggle.isWritten, ht]
  · rw [Option.map_some, Option.filter_some]
    cases ht : Settings.isEmpty t with
    | true =>
      simp [Toggle.shown, Toggle.isWritten, ht, toggleParameter, Toggle.inner?, hnil, hnone,
        Wildcard.shorthand_nameless]
    | false =>
      obtain ⟨name, candidates⟩ := w
      cases name <;> cases candidates <;>
        simp [Toggle.shown, Toggle.isWritten, ht, toggleParameter, Toggle.inner?, hnil,
          Wildcard.isShort, Wildcard.members, Json.extend]

theorem openFunctions_shown (q : FieldEncoding) : openFunctions incl q.shown = openFunctions incl q := by
  obtain ⟨channel, aggregate, timeUnit, hasFunction, bin, scale, sort, name, type, axis, legend⟩ := q
  rcases aggregate with _ | _ <;> rcases timeUnit with _ | _ <;> rcases bin with _ | _ | _ | _ <;>
    cases hasFunction <;> rfl

theorem function?_shown (q : FieldEncoding) : function? incl repl q.shown = function? incl repl q := by
  simp only [function?, FieldEncoding.aggregate?_shown, FieldEncoding.timeUnit?_shown,
    FieldEncoding.isBinned_shown, openFunctions_shown]

theorem parameters_shown (full : incl.IsFull) (q : FieldEncoding) (stackOffset : Option String) :
    parameters incl q.shown stackOffset = parameters incl q stackOffset := by
  have hbin : (q.shown.bin?.map (binParameters incl)).getD [] =
      (q.bin?.map (binParameters incl)).getD [] := by
    rw [FieldEncoding.bin?_shown, Option.map_map]
    simp only [Function.comp_def, binParameters_nameless]
  have hscale : (q.shown.scale.bind fun t =>
        toggleParameter "scale" t ((t.inner?.map (scaleMembers incl)).getD [])) =
      q.scale.bind fun t =>
        toggleParameter "scale" t ((t.inner?.map (scaleMembers incl)).getD []) := by
    have hmembers : scaleMembers incl = scaleMembers Include.all := funext (scaleMembers_of_full full)
    rw [hmembers]
    refine Eq.trans ?_ ((toggleParameter_shown "scale" scaleMembers_isEmpty rfl
      (q.scale.map (·.mapInner Scale.dropNulls))).trans ?_)
    · rw [Option.map_map]
      rfl
    · rcases q.scale with _ | _ | s | ⟨w, s⟩ <;>
        simp [Toggle.mapInner, Toggle.inner?, toggleParameter]
  have hsort : q.shown.sort.map sorting = q.sort.map sorting := by
    rcases hs : q.sort with _ | _ | _ <;> simp only [FieldEncoding.shown, hs] <;> rfl
  have hguide (key : String) (guide : Option (Toggle Guide)) (supports : Channel → Bool) (p : Property) :
      (if incl p && q.shown.channel.value?.all supports then
          (if q.channel.value?.all supports then (guide.map Toggle.shown).filter Toggle.isWritten
            else none).bind fun t => toggleParameter key t ((t.inner?.map Guide.members).getD [])
        else none) =
      if incl p && q.channel.value?.all supports then
        guide.bind fun t => toggleParameter key t ((t.inner?.map Guide.members).getD [])
      else none := by
    have hchannel : q.shown.channel.value? = q.channel.value? := q.channel.value?_nameless
    rw [hchannel]
    cases hs : q.channel.value?.all supports with
    | false => simp
    | true => rw [if_pos rfl, toggleParameter_shown key (fun _ => rfl) rfl]
  have haxis := hguide "axis" q.axis Channel.supportsAxis .axis
  have hlegend := hguide "legend" q.legend Channel.supportsLegend .legend
  unfold parameters
  simp only [hbin, hscale, hsort]
  exact congrArg₂ (fun a l => _ ++ Option.toList a ++ Option.toList l ++ _) haxis hlegend

end Shorthand

open Shorthand

theorem Encoding.encodingWith_shown {incl : Include} (full : incl.IsFull) (e : Encoding)
    (stackOffset : Option String) :
    encodingWith incl [] e.shown stackOffset = encodingWith incl [] e stackOffset := by
  have hdefinition : definition incl [] e.shown stackOffset = definition incl [] e stackOffset := by
    cases e with
    | value c v => cases v <;> rfl
    | autoCount c b => cases b <;> rfl
    | field q =>
      change Shorthand.field incl [] q.shown stackOffset = Shorthand.field incl [] q stackOffset
      unfold Shorthand.field
      simp only [function?_shown, parameters_shown full]
      simp only [FieldEncoding.shown, slot_nameless]
  unfold encodingWith
  rw [hdefinition, channel_shown, slot_nameless]

namespace ChartQuery

theorem stack?_shown (q : ChartQuery) : q.shown.stack? = q.stack? := by
  have hposition (c : Channel) : q.shown.position? c = q.position? c := by
    simp only [position?, shown, List.findIdx?_map, Function.comp_def, Encoding.channel_shown, Slot.is_nameless]
  have hon (c : Channel) : q.shown.aggregatesOn c = q.aggregatesOn c := by
    simp only [aggregatesOn, shown, List.find?_map, Function.comp_def, Encoding.channel_shown,
      Slot.is_nameless, Option.any_map, Encoding.mayAggregate_shown]
  have haggregate : q.shown.isAggregate = q.isAggregate := by
    simp only [isAggregate, shown, List.any_map, Function.comp_def, Encoding.isAggregate_shown]
  have hgroups : q.shown.encodings.filterMap stackGroup? = q.encodings.filterMap stackGroup? := by
    simp only [shown, List.filterMap_map, Function.comp_def, Encoding.stackGroup?_shown]
  have hmark : q.shown.mark.value? = q.mark.value? := q.mark.value?_nameless
  unfold stack?
  simp only [hposition, hon, haggregate, hgroups, hmark]
  rfl

theorem active_shown (q : ChartQuery) : q.shown.active = q.active.map Encoding.shown := by
  simp only [active, shown, List.filter_map, Function.comp_def, Encoding.isDisabledAutoCount_shown]

/-- What is not written of a query does not show in its shorthand. -/
theorem shorthand_shown (q : ChartQuery) : q.shown.shorthand = q.shorthand := by
  have hencodings : Shorthand.encodings Include.all [] q.shown = Shorthand.encodings Include.all [] q := by
    have hzip : q.shown.encodings.zipIdx =
        q.encodings.zipIdx.map (Prod.map Encoding.shown id) := List.zipIdx_map ..
    unfold Shorthand.encodings
    simp only [stack?_shown, hzip, List.filter_map, List.map_map]
    have hactive : ((fun x : Encoding × Nat => !x.1.isDisabledAutoCount) ∘
        Prod.map Encoding.shown id) = fun x => !x.1.isDisabledAutoCount :=
      funext fun x => by simp
    rw [hactive]
    exact List.map_congr_left fun (e, i) _ => Encoding.encodingWith_shown (fun _ _ => rfl) e _
  have htransform : q.shown.transform.getD [] = q.transform.getD [] := by
    rcases ht : q.transform with _ | _ | _ <;> simp [shown, ht, Option.filter_some]
  exact query_congr (slot_nameless _ _ q.mark) htransform (.of_eq hencodings)

end ChartQuery
end ChartAdvisor
