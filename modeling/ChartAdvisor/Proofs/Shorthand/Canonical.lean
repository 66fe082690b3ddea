import ChartAdvisor.Proofs.Shorthand.Reading
import ChartAdvisor.Proofs.Shorthand.Shown

/-!
# Shorthands that stay as they are

A query that was read from a shorthand is written as a text that is read again and written as itself: what
is written of it is recoverable, unless a part of it is unambiguous only where it stood. The query is
written with its encodings in another order, without blanks and with every function in its place, so a
name that opens a bracket takes in what follows it, and a text with a quote in it ends at the quote.
-/
namespace ChartAdvisor

open Shorthand

/-! ## Unambiguous queries -/

/-- Every parameter but the number of bins is legible, and none is a text with a quote in it. -/
def Bin.IsUnambiguous (b : Bin) : Prop := ∀ p v, p ≠ .maxbins → b.get? p = some v →
  v.Legible Json.depthLimit ∧ ∀ s, v = .text s → '"' ∉ s.toList

def Scale.IsUnambiguous (s : Scale) : Prop :=
  ∀ p v, s.get p = some v → (encode v).sorted.Legible (Json.depthLimit - 1)

/-- What is fixed or stands for choice is legible. -/
def Slot.IsUnambiguous : Slot Json → Prop
  | fixed v => v.Legible Json.depthLimit
  | wild w => ∀ vs ∈ w.candidates, ∀ v ∈ vs, v.Legible (Json.depthLimit - 1)

/-- A field is cut where it is written as it was where it was read. -/
structure FieldEncoding.IsUnambiguous (q : FieldEncoding) : Prop where
  /-- The name closes the brackets and quotes that it opens. -/
  name : ∀ n, q.field = .fixed n → Enclosed isUncut n.toList
  /-- A name by itself is not taken for a constant. -/
  constant : q.isCalled = false → q.hasOpenFunction = false →
    ∀ n, q.field = .fixed n → ¬"value=".toList <+: n.toList
  names : ∀ w, q.field = .wild w → ∀ vs ∈ w.candidates, ∀ n ∈ vs, ',' ∉ n.toList
  bin : ∀ b, q.bin? = some b → b.IsUnambiguous
  scale : ∀ s, q.scale? = some s → s.IsUnambiguous
  axis : q.channel.value?.all Channel.supportsAxis = true →
    ∀ g, q.axis.bind Toggle.inner? = some g → g.IsRecoverable
  legend : q.channel.value?.all Channel.supportsLegend = true →
    ∀ g, q.legend.bind Toggle.inner? = some g → g.IsRecoverable

def Encoding.IsUnambiguous : Encoding → Prop
  | field q => q.IsUnambiguous
  | value _ v => v.IsUnambiguous
  | autoCount .. => True

structure ChartQuery.IsUnambiguous (q : ChartQuery) : Prop where
  transform : ∀ steps ∈ q.transform, ∀ v ∈ steps, v.Legible (Json.depthLimit - 1)
  encodings : ∀ e ∈ q.active, e.IsUnambiguous

/-! ## Parts that were read -/

theorem Slot.isTransparent_nameless {s : Slot Json} (h : s.IsUnambiguous) (read : WasRead s) :
    s.nameless.IsTransparent := by
  obtain ⟨v, -, hread⟩ := read
  obtain ⟨w, rfl, -⟩ | ⟨x, rfl, hopen, hx⟩ := Slot.of_decode hread
  · exact ⟨rfl, h⟩
  · obtain rfl := Except.ok.inj hx
    exact ⟨h, hopen⟩

theorem Bin.IsUnambiguous.isTransparent {b : Bin} (h : b.IsUnambiguous) : b.nameless.IsTransparent where
  maxbins s hs := by
    obtain ⟨t, -, rfl⟩ := Option.map_eq_some_iff.mp hs
    exact t.isNameless_nameless
  parameter p v hv := by
    cases p with
    | maxbins =>
      obtain ⟨s, hs, rfl⟩ := Option.map_eq_some_iff.mp hv
      obtain ⟨t, -, rfl⟩ := Option.map_eq_some_iff.mp hs
      rcases t with n | ⟨_, _ | vs⟩
      · exact ⟨legible_encode n _, nofun⟩
      · exact ⟨.text _, fun s heq => Json.text.inj heq ▸ by decide⟩
      · refine ⟨.object (List.pairwise_singleton _ _) fun m hm => ?_, nofun⟩
        obtain rfl := List.mem_singleton.mp hm
        refine .list fun v hv => ?_
        obtain ⟨n, -, rfl⟩ := List.mem_map.mp hv
        exact legible_encode n _
    | extent => exact h .extent v nofun hv
    | base => exact h .base v nofun hv
    | step => exact h .step v nofun hv
    | steps => exact h .steps v nofun hv
    | minstep => exact h .minstep v nofun hv
    | divide => exact h .divide v nofun hv

namespace Toggle

variable {α : Type} [Settings α]

/-- No setting is called like what is said of the switch. -/
def KeysApart (members : α → Json.Members) : Toggle α → Prop
  | off => True
  | on t => ∀ key ∈ Wildcard.keys, (members t).lookup key = none
  | wild w t => (members t).lookup "name" = none ∧ (members t).lookup "enum" = none ∧
      (w.candidates = none → (members t).lookup "values" = none)

/-- What is written of a part is recoverable if its settings are. -/
theorem isRecoverable_shown {members : α → Json.Members} {P : α → Prop} {t : Toggle α}
    (hempty : ∀ t, (members t).isEmpty = Settings.isEmpty t) (hnone : members Settings.none = [])
    (none : P Settings.none) (inner : ∀ x, t.inner? = some x → P x) (keys : t.KeysApart members)
    (written : t.shown.isWritten = true) : t.shown.IsRecoverable members P := by
  have hne {x : α} (hx : Settings.isEmpty x = false) : members x ≠ [] := by
    rw [← hempty] at hx
    exact List.isEmpty_eq_false_iff.mp hx
  cases t with
  | off => trivial
  | on x => exact ⟨inner x rfl, hne (by simpa [shown, isWritten] using written), keys⟩
  | wild w x =>
    obtain ⟨hname, henum, hvalues⟩ := keys
    cases hx : Settings.isEmpty x with
    | true =>
      simp only [shown, hx, ↓reduceIte]
      refine ⟨none, fun _ => rfl, fun h => absurd hnone h, ?_, ?_, fun _ => ?_⟩ <;> rw [hnone] <;> rfl
    | false =>
      cases hw : w.isShort with
      | true =>
        simp only [shown, hx, hw, Bool.false_eq_true, ↓reduceIte]
        refine ⟨inner x rfl, hne hx, fun key hkey => ?_⟩
        have hcandidates : w.candidates = .none := by
          simp only [Wildcard.isShort, Bool.and_eq_true, Option.isNone_iff_eq_none] at hw
          exact hw.2
        simp only [Wildcard.keys, List.mem_cons, List.not_mem_nil, or_false] at hkey
        rcases hkey with rfl | rfl | rfl
        · exact hname
        · exact henum
        · exact hvalues hcandidates
      | false =>
        simp only [shown, hx, hw, Bool.false_eq_true, ↓reduceIte]
        exact ⟨inner x rfl, fun hnil => absurd hnil (hne hx), fun _ => hw, hname, henum, hvalues⟩

end Toggle

theorem Guide.keysApart_of_wasRead {t : Toggle Guide} (read : WasRead t) : t.KeysApart Guide.members := by
  obtain ⟨v, hv, h⟩ := read
  obtain rfl | ⟨rest, g, -, hg, hname, henum, ht⟩ := Toggle.of_decode hv h
  · trivial
  · obtain rfl := Except.ok.inj hg
    obtain ⟨rfl, hvalues⟩ | ⟨w, rfl, hvalues⟩ := ht
    · intro key hkey
      simp only [Wildcard.keys, List.mem_cons, List.not_mem_nil, or_false] at hkey
      rcases hkey with rfl | rfl | rfl <;> assumption
    · exact ⟨hname, henum, hvalues⟩

namespace Scale

theorem keysApart (t : Toggle Scale) : t.KeysApart (scaleMembers Include.all) := by
  cases t with
  | off => trivial
  | on s => exact keys_scaleMembers s
  | wild w s =>
    exact ⟨keys_scaleMembers s _ (by decide), keys_scaleMembers s _ (by decide),
      fun _ => keys_scaleMembers s _ (by decide)⟩

theorem isRecoverable_none : Scale.IsRecoverable {} := by
  intro p v hv
  cases p <;> contradiction

theorem IsUnambiguous.isRecoverable {t : Toggle Scale} (read : WasRead t) {s : Scale}
    (hs : t.inner? = some s) (h : s.IsUnambiguous) : s.dropNulls.IsRecoverable := by
  intro p v hv
  rw [get_dropNulls_eq] at hv
  have hget := (Option.filter_eq_some_iff.mp hv).1
  obtain ⟨x, hx, hread⟩ := read
  obtain rfl | ⟨rest, inner, hrest, hinner, -, -, ⟨rfl, -⟩ | ⟨w, rfl, -⟩⟩ := Toggle.of_decode hx hread
  · contradiction
  · obtain rfl := Option.some.inj hs
    obtain ⟨hback, hnull⟩ := readsBack_of_decode hrest hinner p v hget
    exact ⟨hback, hnull, h p v hget⟩
  · obtain rfl := Option.some.inj hs
    obtain ⟨hback, hnull⟩ := readsBack_of_decode hrest hinner p v hget
    exact ⟨hback, hnull, h p v hget⟩

end Scale

/-! ## What is written of what was read -/

namespace FieldEncoding

variable {q : FieldEncoding}

theorem applied_shown (read : q.IsRead) : q.shown.Applied := by
  refine .of_single ?_ ?_ (fun h => ?_) fun t ht => ?_
  · rw [aggregate?_shown, timeUnit?_shown, isBinned_shown, hasOpenFunction_shown]
    exact read.single
  · rw [aggregate?_shown]
    exact read.aggregateName
  · rw [hasOpenFunction_shown]
    exact (Bool.and_eq_true_iff.mp h).2
  · obtain ⟨t, hbin, rfl⟩ := Option.map_eq_some_iff.mp ht
    have hpresent := (Option.filter_eq_some_iff.mp hbin).2
    cases t with
    | off => contradiction
    | on b => exact nofun
    | wild w b => exact nofun

theorem isRecoverable_guide {guide : Option (Toggle Guide)} {supported : Bool}
    (read : ∀ t ∈ guide, WasRead t)
    (legible : supported = true → ∀ g, guide.bind Toggle.inner? = some g → g.IsRecoverable) :
    ∀ t ∈ if supported then (guide.map Toggle.shown).filter Toggle.isWritten else none,
      t.IsRecoverable Guide.members Guide.IsRecoverable ∧ supported := by
  intro t ht
  cases supported with
  | false => contradiction
  | true =>
    obtain ⟨hmap, hwritten⟩ := Option.filter_eq_some_iff.mp ht
    obtain ⟨t, rfl, rfl⟩ := Option.map_eq_some_iff.mp hmap
    exact ⟨Toggle.isRecoverable_shown (fun _ => rfl) rfl (.object List.Pairwise.nil nofun)
      (fun g hg => legible rfl g hg) (Guide.keysApart_of_wasRead (read t rfl)) hwritten, rfl⟩

theorem isRecoverable_scale {scale : Option (Toggle Scale)} (read : ∀ t ∈ scale, WasRead t)
    (legible : ∀ s, scale.bind Toggle.inner? = some s → s.IsUnambiguous) :
    ∀ t ∈ (scale.map fun t => (t.mapInner Scale.dropNulls).shown).filter Toggle.isWritten,
      t.IsRecoverable (scaleMembers Include.all) Scale.IsRecoverable := by
  intro t ht
  obtain ⟨hmap, hwritten⟩ := Option.filter_eq_some_iff.mp ht
  obtain ⟨t, rfl, rfl⟩ := Option.map_eq_some_iff.mp hmap
  refine Toggle.isRecoverable_shown scaleMembers_isEmpty rfl Scale.isRecoverable_none (fun s hs => ?_)
    (Scale.keysApart _) hwritten
  have hinner : (t.mapInner Scale.dropNulls).inner? = t.inner?.map Scale.dropNulls := by
    cases t <;> rfl
  rw [hinner] at hs
  obtain ⟨s, hset, rfl⟩ := Option.map_eq_some_iff.mp hs
  exact (legible s hset).isRecoverable (read t rfl) hset

theorem IsUnambiguous.isRecoverable (h : q.IsUnambiguous) (read : q.IsRead) : q.shown.IsRecoverable := by
  obtain ⟨text, hparts, hline⟩ := read.parts
  have hchannel : q.shown.channel.value? = q.channel.value? := q.channel.value?_nameless
  exact {
    channel := q.channel.isNameless_nameless
    name := fun n hn =>
      have hn := Slot.eq_fixed_of_nameless hn
      ⟨hparts.comma n hn, hparts.mark n hn, h.name n hn⟩
    names := fun w hw => by
      obtain ⟨u, hu, rfl⟩ := Slot.eq_wild_of_nameless hw
      exact isCommaFree_single ⟨rfl, hparts.names u hu⟩ fun vs hvs n hn =>
        not_mem_quote (by decide) (.inr (h.names u hu vs hvs n hn))
    type := fun w hw => by
      obtain ⟨u, hu, rfl⟩ := Slot.eq_wild_of_nameless hw
      exact isCommaFree_single ⟨rfl, hparts.types u hu⟩ fun _ _ t _ => by cases t <;> decide
    applied := applied_shown read
    line := fun called n hn hnewline => hline (q.isCalled_shown ▸ called)
      ((hparts.start n (Slot.eq_fixed_of_nameless hn)).subset hnewline)
    constant := fun uncalled closed n hn => h.constant (q.isCalled_shown ▸ uncalled)
      (q.hasOpenFunction_shown ▸ closed) n (Slot.eq_fixed_of_nameless hn)
    aggregate := q.aggregate.isNameless_nameless
    timeUnit := q.timeUnit.isNameless_nameless
    bin := fun t ht => by
      obtain ⟨t, hfilter, rfl⟩ := Option.map_eq_some_iff.mp ht
      obtain ⟨hbin, hpresent⟩ := Option.filter_eq_some_iff.mp hfilter
      have hinner {b : Bin} (hb : t.inner? = some b) : b.nameless.IsTransparent :=
        (h.bin b (by rw [bin?, hbin]; exact hb)).isTransparent
      cases t with
      | off => contradiction
      | on b => exact .inl ⟨_, rfl, hinner rfl⟩
      | wild w b => exact .inr ⟨_, _, rfl, rfl, hinner rfl⟩
    scale := isRecoverable_scale hparts.scale h.scale
    sort := fun s hs => by
      obtain ⟨s, -, rfl⟩ := Option.map_eq_some_iff.mp hs
      exact s.isNameless_nameless
    axis := hchannel ▸ isRecoverable_guide hparts.axis h.axis
    legend := hchannel ▸ isRecoverable_guide hparts.legend h.legend }

end FieldEncoding

theorem Encoding.IsUnambiguous.isRecoverable {e : Encoding} (h : e.IsUnambiguous) (read : e.IsRead) :
    e.shown.IsRecoverable := by
  cases e with
  | field q => exact FieldEncoding.IsUnambiguous.isRecoverable h read
  | value c v => exact ⟨c.isNameless_nameless, Slot.isTransparent_nameless h read⟩
  | autoCount c b => exact ⟨c.isNameless_nameless, b.isNameless_nameless⟩

namespace ChartQuery

variable {q : ChartQuery}

theorem IsUnambiguous.isRecoverable (h : q.IsUnambiguous) (read : q.IsRead) : q.shown.IsRecoverable where
  mark := q.mark.isNameless_nameless
  transform steps hsteps := by
    obtain ⟨hmem, hne⟩ := Option.filter_eq_some_iff.mp hsteps
    exact ⟨by simpa using hne, h.transform steps hmem⟩
  encodings e he := by
    rw [active_shown] at he
    obtain ⟨e, hactive, rfl⟩ := List.mem_map.mp he
    exact (h.encodings e hactive).isRecoverable (read.encodings e (List.mem_filter.mp hactive).1)

theorem StacksApart.shown (h : q.StacksApart) : q.shown.StacksApart := by
  have haggregate : q.shown.isAggregate = q.isAggregate := by
    simp only [isAggregate, ChartQuery.shown, List.any_map, Function.comp_def, Encoding.isAggregate_shown]
  have hmark : q.shown.mark.value? = q.mark.value? := q.mark.value?_nameless
  have haxes : q.shown.encodings.filterMap Encoding.axis? = q.encodings.filterMap Encoding.axis? := by
    simp only [ChartQuery.shown, List.filterMap_map, Function.comp_def, Encoding.axis?, Encoding.channel?,
      Encoding.channel_shown, Slot.value?_nameless]
    rfl
  unfold StacksApart AxesApart
  rwa [haggregate, hmark, haxes]

theorem StacksShown.shown (h : q.StacksShown) : q.shown.StacksShown := by
  intro s hs e he
  rw [stack?_shown] at hs
  obtain ⟨e, hmem, rfl⟩ : ∃ e', q.encodings[s.fieldIndex]? = some e' ∧ e'.shown = e := by
    simpa [ChartQuery.shown] using he
  rw [Encoding.isEnabledAutoCount_shown]
  exact h s hs e hmem

/-- What is read from a shorthand is written as a text that is read and written as itself, if each part is
unambiguous, no axis of a stack is shared and what accumulates is written with its offset. -/
theorem exists_ofShorthand_shorthand {text : String} (read : ofShorthand text = .ok q)
    (unambiguous : q.IsUnambiguous) (apart : q.StacksApart) (shown : q.StacksShown) :
    ∃ r, ofShorthand q.shorthand = .ok r ∧ r.shorthand = q.shorthand := by
  have hread := isRead_of_ofShorthand read
  have hsettings : q.shown.withoutSettings = q.shown := by
    rw [withoutSettings, ChartQuery.shown, hread.config]
  refine ⟨q.shown.told, ?_, ?_⟩
  · rw [← shorthand_shown]
    exact (unambiguous.isRecoverable hread).ofShorthand_eq
  · calc
      q.shown.told.shorthand = q.shown.withoutSettings.shorthand :=
        apart.shown.shorthand_told (hsettings.symm ▸ shown.shown)
      _ = q.shorthand := by rw [hsettings, shorthand_shown]

/-- Sums of an item of a list along names, split by the colour of the names. -/
def indexedSums : ChartQuery where
  mark := .fixed .bar
  encodings := [
    .field { channel := .fixed .y, field := .fixed "N", type := .fixed .nominal },
    .field {
      channel := .fixed .x
      aggregate := .fixed (some .sum)
      field := .fixed "Q[0]"
      type := .fixed .quantitative },
    .field { channel := .fixed .color, field := .fixed "N", type := .fixed .nominal }]

theorem isUnambiguous_indexedSums : indexedSums.IsUnambiguous where
  transform _ hsteps := absurd hsteps (Option.not_mem_none _)
  encodings e he := by
    have hnone {α : Type} {P : α → Prop} : ∀ a, none = some a → P a := fun _ h =>
      absurd h (Option.not_mem_none _)
    have hfield (name : String) (channel : Slot Channel) (aggregate : Slot (Option Aggregate))
        (type : FieldType) (henclosed : Enclosed isUncut name.toList)
        (hvalue : ¬"value=".toList <+: name.toList) :
        FieldEncoding.IsUnambiguous { channel, aggregate, field := .fixed name, type := .fixed type } :=
      ⟨fun _ hn => Slot.fixed.inj hn ▸ henclosed, fun _ _ _ hn => Slot.fixed.inj hn ▸ hvalue,
        fun _ => nofun, hnone, hnone, fun _ => hnone, fun _ => hnone⟩
    have hplain : Enclosed isUncut "N".toList := .plain rfl (by decide) .nil
    have hindexed : Enclosed isUncut "Q[0]".toList :=
      .plain rfl (by decide) (@Enclosed.bracketed isUncut '[' ']' ['0'] [] rfl rfl
        (.plain rfl (by decide) .nil) .nil)
    have he := (List.mem_filter.mp he).1
    simp only [indexedSums, List.mem_cons, List.not_mem_nil, or_false] at he
    rcases he with rfl | rfl | rfl
    · exact hfield "N" _ _ _ hplain (by decide)
    · exact hfield "Q[0]" _ _ _ hindexed (by decide)
    · exact hfield "N" _ _ _ hplain (by decide)

theorem exists_ofShorthand_shorthand_indexedSums :
    ofShorthand "bar|y:N,n|x:sum(Q[0],q)|color:N,n" = .ok indexedSums ∧
      ∃ r, ofShorthand indexedSums.shorthand = .ok r ∧ r.shorthand = indexedSums.shorthand := by
  have hread : ofShorthand "bar|y:N,n|x:sum(Q[0],q)|color:N,n" = .ok indexedSums := by decide +kernel
  have happart : indexedSums.ChannelsApart := by decide
  have hfields : indexedSums.StacksField := by
    intro s _ c b hcount
    simpa [indexedSums] using List.mem_of_getElem? hcount
  exact ⟨hread, exists_ofShorthand_shorthand hread isUnambiguous_indexedSums happart.stacksApart
    hfields.stacksShown⟩

/-! ## Shorthands that do not settle -/

/-- What is read from the text, if anything is, is written as a text that is read and written as itself. -/
def IsSettled (text : String) : Prop :=
  ∀ q, ofShorthand text = .ok q → ∃ r, ofShorthand q.shorthand = .ok r ∧ r.shorthand = q.shorthand

theorem not_isSettled {text written : String} {q : ChartQuery} (hread : ofShorthand text = .ok q)
    (hwritten : q.shorthand = written) (hagain : ∀ r, ofShorthand written = .ok r → r.shorthand ≠ written) :
    ¬IsSettled text := by
  intro h
  obtain ⟨r, hr, heq⟩ := h q hread
  rw [hwritten] at hr heq
  exact hagain r hr heq

theorem not_isSettled_of_error {text written : String} {q : ChartQuery} {e : ShorthandError}
    (hread : ofShorthand text = .ok q) (hwritten : q.shorthand = written)
    (herror : ofShorthand written = .error e) : ¬IsSettled text := by
  refine not_isSettled hread hwritten fun r hr => ?_
  rw [herror] at hr
  contradiction

/-- Two axes, the second of a field whose name opens a bracket. -/
def unclosedName : ChartQuery where
  mark := .fixed .point
  encodings := [
    .field { channel := .fixed .y, field := .fixed "N", type := .fixed .nominal },
    .field { channel := .fixed .x, field := .fixed "Q[", type := .fixed .quantitative }]

/-- An axis that is binned with a parameter that has a quote in it. -/
def quotedExtent : ChartQuery where
  mark := .fixed .point
  encodings := [.field {
    channel := .fixed .x
    bin := some (.on { extent := some (.text "a\"b") })
    field := .fixed "Q"
    type := .fixed .quantitative }]

/-- An axis of a field that is called like a constant. -/
def namedConstant : ChartQuery where
  mark := .fixed .point
  encodings := [.field { channel := .fixed .x, field := .fixed "value=3", type := .fixed .quantitative }]

/-- The constant that it is read as. -/
def constantName : ChartQuery where
  mark := .fixed .point
  encodings := [.value (.fixed .x) (.fixed (.text "3,q"))]

/-- Neither a bracket that stays open nor a quote nor the start of a constant settles: the order of the
encodings, the quotes and the parentheses of the text are other than those it was read with. -/
theorem exists_ofShorthand_shorthand_limits :
    ¬IsSettled "point|y:N,n|x:Q[,q" ∧ ¬IsSettled "point|x:bin(Q,q,extent=a\"b)" ∧
      ¬IsSettled "point|x:?\x7b\x7d(value=3,q)" := by
  have hone {q : ChartQuery} {written text : String} (mark : q.mark = .fixed .point)
      (transform : q.transform = none) (texts : Shorthand.encodings Include.all [] q = [text])
      (full : [text].filter (!·.isEmpty) = [text])
      (hwritten : "|".intercalate [Vocabulary.name Mark.point, text] = written) : q.shorthand = written :=
    (shorthand_of_perm_sorted mark transform (.of_eq texts) full (List.pairwise_singleton _ _)).trans hwritten
  have hunclosed : unclosedName.shorthand = "point|x:Q[,q|y:N,n" :=
    (@shorthand_of_perm_sorted _ .point ["x:Q[,q", "y:N,n"] rfl rfl (by decide +kernel)
      (by decide +kernel) (by decide +kernel)).trans (by decide +kernel)
  have hquoted : quotedExtent.shorthand = "point|x:bin(Q,q,extent=\"a\\\"b\")" :=
    @hone _ _ "x:bin(Q,q,extent=\"a\\\"b\")" rfl rfl (by decide +kernel) (by decide +kernel)
      (by decide +kernel)
  have hnamed : namedConstant.shorthand = "point|x:value=3,q" :=
    @hone _ _ "x:value=3,q" rfl rfl (by decide +kernel) (by decide +kernel) (by decide +kernel)
  have hconstant : constantName.shorthand = "point|x:value=\"3,q\"" :=
    @hone _ _ "x:value=\"3,q\"" rfl rfl (by decide +kernel) (by decide +kernel) (by decide +kernel)
  have hname : ofShorthand "point|x:Q[,q|y:N,n" =
      .error (.malformed "Q[,q|y:N,n" (.unknownType "q|y:N")) := by decide +kernel
  have hextent : ofShorthand "point|x:bin(Q,q,extent=\"a\\\"b\")" =
      .error (.malformed "Q,q,extent=\"a\\\"b\"" (.noComma "b\"")) := by decide +kernel
  have hread : ofShorthand "point|x:value=3,q" = .ok constantName := by decide +kernel
  refine ⟨not_isSettled_of_error (by decide +kernel) hunclosed hname,
    not_isSettled_of_error (by decide +kernel) hquoted hextent,
    not_isSettled (by decide +kernel) hnamed fun r hr => ?_⟩
  obtain rfl := Except.ok.inj (hread.symm.trans hr)
  rw [hconstant]
  decide

end ChartQuery
end ChartAdvisor
