import ChartAdvisor.Proofs.Search.Completeness
import ChartAdvisor.Proofs.Search.Oversight
import ChartAdvisor.Proofs.Search.Pending
import ChartAdvisor.Proofs.Search.Violations

/-!
# What rules neglect

A rule is run for the properties that it declares. It neglects those that it reads and does not declare,
and those that it declares but of which it takes an open slot for a settled one. A choice for any other
property is one for which the rule is run, or one that it does not see. If it is kept after such a choice,
it was kept before: it waited for the choice, or objects to nothing that the choice could mend.
-/
namespace ChartAdvisor

namespace Draft

variable {d : Draft} {s : Spot} {c : Choice}

/-- A choice that a search makes in a draft. -/
structure Makes (d : Draft) (s : Spot) (c : Choice) : Prop where
  coherent : d.Coherent
  asBuilt : d.OpenAsBuilt
  awaits : d.Awaits s
  offered : (d.choicesAt? s).isSome
  taken : (d.chooseAt s c).2 = none

theorem Due.makes {rest : List Spot} (h : Due (s :: rest) d) {choices : List Choice}
    (offered : d.choicesAt? s = some choices) (taken : (d.chooseAt s c).2 = none) : d.Makes s c :=
  ⟨h.coherent, h.asBuilt, h.awaits offered, Option.isSome_of_mem offered, taken⟩

theorem Makes.later (h : d.Makes s c) : d.Later (d.chooseAt s c).1 :=
  later_chooseAt h.coherent h.awaits h.taken

/-- The property of a spot is open before a choice is made there. -/
theorem Makes.isOpen (h : d.Makes s c) : Judged.isOpen d s.property = true := by
  cases s with
  | mark => exact h.awaits
  | slot i p => exact isOpen_of_choicesAt? h.offered

/-- Where values are offered, the property has its place in the order of resolution. -/
theorem mem_precedence_of_choicesAt? (h : (d.choicesAt? s).isSome) : s.property ∈ Property.precedence := by
  cases s with
  | mark => decide
  | slot i p =>
    obtain ⟨e, -, -, hopen⟩ := choicesAt?_slot_isSome_iff.mp h
    exact e.mem_precedence_of_isOpen ((e.isOpen_iff p).mpr hopen)

/-- A slot is open after a choice as it was before, unless the choice is made for it or for its parent. -/
theorem isOpen_chooseAt (hd : d.Coherent) (taken : (d.chooseAt s c).2 = none) {q : Property}
    (hq : s.property ≠ q) (hparent : q.parent? ≠ some s.property) {i : Nat} {e f : Encoding}
    (he : d.encoding? i = some e) (hf : (d.chooseAt s c).1.encoding? i = some f) :
    f.isOpen q = e.isOpen q := by
  have hquiet : s.property.QuietFor [q] :=
    ⟨fun hs => hq (List.mem_singleton.mp hs), fun p hp => by rwa [List.mem_singleton.mp hp]⟩
  have hrel := (agree_chooseAt hd taken hquiet).encoding? i
  rw [he, hf] at hrel
  cases hrel with
  | some hagree => exact (hagree.isOpen (List.mem_singleton_self q)).symm

/-- The encodings of a draft are those of any other one that differs from it at a spot. -/
theorem AlikeApart.isSome_encoding? {d' : Draft} (h : d.AlikeApart s d') (i : Nat) :
    (d.encoding? i).isSome = (d'.encoding? i).isSome := by
  have hi := congrArg Option.isSome (h.encodings i)
  rwa [Option.isSome_map, Option.isSome_map] at hi

end Draft

/-! ## Rules -/

namespace Rule

variable {α : Type} {r : Rule α}

/-- What a rule reads it declares, or neglects. -/
theorem declared_or_quiet {inputs presumed : List Property} {p : Property}
    (seen : p ∈ r.properties ∨ p ∈ inputs ∨ p.QuietFor (inputs ++ r.properties))
    (free : p ∉ inputs.filter (!r.reads ·) ++ presumed) :
    p ∈ r.properties ∨ p.QuietFor (inputs ++ r.properties) := by
  rcases seen with hdeclared | hread | hquiet
  · exact .inl hdeclared
  · refine .inl (by_contra fun hundeclared => free (List.mem_append_left _ ?_))
    exact List.mem_filter.mpr ⟨hread, by simpa [reads] using hundeclared⟩
  · exact .inr hquiet

/-- A rule whose objections stand, and that is kept after something has been settled that it declares, was
kept before: it waited for it, or did not object. -/
theorem check_of_declared [Judged α] {ctx : Context} {a b : α} {p : Property} (declared : p ∈ r.properties)
    (isOpen : Judged.isOpen a p = true) (judges : r.allowsOpen = true → ∃ v, r.holds ctx a = .ok v)
    (stands : r.allowsOpen = true → r.check ctx a = .ok false → r.check ctx b = .ok false)
    (kept : r.check ctx b = .ok true) : r.check ctx a = .ok true := by
  cases hr : r.allowsOpen with
  | false => exact check_of_waits (waits_of_isOpen hr declared isOpen) ctx
  | true =>
    obtain ⟨v, hv⟩ := judges hr
    rw [← check_of_allowsOpen hr] at hv
    cases v with
    | true => exact hv
    | false =>
      rw [stands hr hv] at kept
      contradiction

end Rule

/-! ## Rules about charts -/

namespace ChartRule

variable {r : ChartRule} {reading : List Property} {ctx : Context} {d : Draft} {s : Spot} {c : Choice}

theorem mem_all_iff : r ∈ all ↔ ∃ reading, (r, reading) ∈ readings := by
  simp [← readings_fst]

/-- The properties that a rule declares but takes for settled while they are open. -/
def presumed (r : ChartRule) : List Property := if r.name = "autoAddCount" then [.type] else []

/-- The properties that a rule reads without being run for them, and those for which it is run too
early. -/
def neglected (r : ChartRule) (reading : List Property) : List Property :=
  (r.inputs reading).filter (!r.reads ·) ++ r.presumed

/-- A property that a rule does not neglect is one for which it is run, or one that it does not see. -/
theorem declared_or_quiet (h : (r, reading) ∈ readings) {p : Property} (hp : p ∈ Property.precedence)
    (free : p ∉ r.neglected reading) :
    p ∈ r.properties ∨ p.QuietFor (r.inputs reading ++ r.properties) :=
  Rule.declared_or_quiet (declared_or_read_or_quiet _ h p hp) free

/-- What a rule that does not wait objects to, it objects to after a choice for a property that it declares
and does not neglect: the choice settles nothing that the rule took for settled. -/
theorem check_chooseAt_eq_false (hr : r ∈ all) (judges : r.allowsOpen = true) (makes : d.Makes s c)
    (declared : s.property ∈ r.properties) (free : s.property ∉ r.presumed)
    (violated : r.check ctx d = .ok false) : r.check ctx (d.chooseAt s c).1 = .ok false := by
  have hd := makes.coherent
  have hcounts : ∀ r ∈ all, r.name ∈ aboutChannelsInUse → .autoCount ∉ r.properties := by decide
  refine objection_stands hr judges makes.later.keptBy hd (hd.chooseAt s c) makes.asBuilt violated
    (fun hname i e f he hf hopen => .inr ?_) (fun hname _ i e f he hf _ hopen => ?_)
  · have hne : s.property ≠ .autoCount := fun hs => hcounts r hr hname (hs ▸ declared)
    rwa [Draft.isOpen_chooseAt hd makes.taken hne nofun he hf]
  · have hne : s.property ≠ .type := fun hs => free (by simp [presumed, hname, hs])
    rwa [Draft.isOpen_chooseAt hd makes.taken hne nofun he hf]

/-- A rule that is kept after a choice for a property that it does not neglect was kept before. -/
theorem check_of_chooseAt (h : (r, reading) ∈ readings) (makes : d.Makes s c)
    (free : s.property ∉ r.neglected reading) (kept : r.check ctx (d.chooseAt s c).1 = .ok true) :
    r.check ctx d = .ok true := by
  have hr : r ∈ all := mem_all_iff.mpr ⟨reading, h⟩
  rcases declared_or_quiet h (Draft.mem_precedence_of_choicesAt? makes.offered) free with
    hdeclared | hquiet
  · have hpresumed : s.property ∉ r.presumed := fun hs => free (List.mem_append_right _ hs)
    exact Rule.check_of_declared hdeclared makes.isOpen (exists_holds hr · ctx d)
      (check_chooseAt_eq_false hr · makes hdeclared hpresumed) kept
  · rwa [check_congr_inputs h (Draft.agree_chooseAt makes.coherent makes.taken hquiet)]

end ChartRule

/-! ## Rules about encodings -/

namespace EncodingRule

variable {r : EncodingRule} {reading : List Property} {ctx : Context} {d : Draft} {s : Spot} {c : Choice}
  {i : Nat} {e f : Encoding}

theorem mem_all_iff : r ∈ all ↔ ∃ reading, (r, reading) ∈ readings := by
  simp [← readings_fst]

/-- The properties that a rule declares but takes for settled while they are open. -/
def presumed (r : EncodingRule) : List Property :=
  if r.name = "channelSupportsRole" then [.bin, .timeUnit]
  else if r.name = "scalePropertiesSupportedByChannel" then [.scaleOf .range]
  else []

/-- The properties that a rule reads without being run for them, and those for which it is run too
early. -/
def neglected (r : EncodingRule) (reading : List Property) : List Property :=
  reading.filter (!r.reads ·) ++ r.presumed

/-- A property that a rule does not neglect is one for which it is run, or one that it does not see. -/
theorem declared_or_quiet (h : (r, reading) ∈ readings) {p : Property} (hp : p ∈ Property.precedence)
    (free : p ∉ r.neglected reading) : p ∈ r.properties ∨ p.QuietFor (reading ++ r.properties) :=
  Rule.declared_or_quiet (declared_or_read_or_quiet _ h p hp) free

/-- A rule says the same of an encoding before and after a choice that it does not see. -/
theorem check_chooseAt (h : (r, reading) ∈ readings) (hd : d.Coherent) (taken : (d.chooseAt s c).2 = none)
    (hquiet : Draft.QuietAt i (reading ++ r.properties) s) (he : d.encoding? i = some e)
    (hf : (d.chooseAt s c).1.encoding? i = some f) :
    r.check ctx (d.place i e) = r.check ctx ((d.chooseAt s c).1.place i f) := by
  have hrel := Draft.encoding_rel_chooseAt hd taken hquiet
  rw [he, hf] at hrel
  cases hrel with
  | some hagree =>
    have hslots : (d.place i e).slots = ((d.chooseAt s c).1.place i f).slots := by
      unfold Draft.place
      rw [(Draft.alikeApart_chooseAt hd taken).slots]
    have hreading : (d.place i e).encoding.Agree (reading ++ r.properties)
        ((d.chooseAt s c).1.place i f).encoding := hagree
    exact check_congr_reading h hreading hslots ctx

/-- What a rule that does not wait objects to, it objects to after a choice for a property that it declares
and does not neglect: the choice settles nothing that the rule took for settled. -/
theorem check_chooseAt_eq_false (hr : r ∈ all) (judges : r.allowsOpen = true) {p : Property}
    (makes : d.Makes (.slot i p) c) (free : p ∉ r.presumed) (he : d.encoding? i = some e)
    (hf : (d.chooseAt (.slot i p) c).1.encoding? i = some f)
    (violated : r.check ctx (d.place i e) = .ok false) :
    r.check ctx ((d.chooseAt (.slot i p) c).1.place i f) = .ok false := by
  obtain ⟨e', he', hlater⟩ := makes.later.encoding hf
  obtain rfl := Option.some.inj (he.symm.trans he')
  have hstays {q : Property} (hq : p ≠ q) (hparent : q.parent? ≠ some p) : f.isOpen q = e.isOpen q :=
    Draft.isOpen_chooseAt makes.coherent makes.taken hq hparent he hf
  refine objection_stands hr judges hlater.moreResolved violated (fun hname q hq hopen => ?_)
    (fun hname hscale hopen => ?_)
  · have htop : ∀ q ∈ [Property.bin, .timeUnit], q.parent? = none := by decide
    have hne : p ≠ q := fun hp => free (by simpa [presumed, hname, hp] using hq)
    rwa [hstays hne (by rw [htop q hq]; exact nofun)]
  · have hne : p ≠ .scaleOf .range := fun hp => free (by simp [presumed, hname, hp])
    -- the switch of the scale is settled, so that the choice is not made for it
    have hparent : Property.parent? (.scaleOf .range) ≠ some p := by
      rintro ⟨⟩
      rw [(makes.awaits e he).1] at hscale
      contradiction
    rwa [hstays hne hparent]

/-- A rule that is kept after a choice for a property that it does not neglect was kept before. -/
theorem check_of_chooseAt (h : (r, reading) ∈ readings) (makes : d.Makes s c)
    (free : Draft.hostOf s = some i → s.property ∉ r.neglected reading) (he : d.encoding? i = some e)
    (hf : (d.chooseAt s c).1.encoding? i = some f)
    (kept : r.check ctx ((d.chooseAt s c).1.place i f) = .ok true) : r.check ctx (d.place i e) = .ok true := by
  have hr : r ∈ all := mem_all_iff.mpr ⟨reading, h⟩
  by_cases hs : ∃ p, s = .slot i p
  · obtain ⟨p, rfl⟩ := hs
    replace free : p ∉ r.neglected reading := free rfl
    rcases declared_or_quiet h (Draft.mem_precedence_of_choicesAt? makes.offered) free with
      hdeclared | hquiet
    · have hpresumed : p ∉ r.presumed := fun hs => free (List.mem_append_right _ hs)
      exact Rule.check_of_declared hdeclared (makes.awaits e he).1 (exists_holds hr · ctx _)
        (check_chooseAt_eq_false hr · makes hpresumed he hf) kept
    · have hquiet : Draft.QuietAt i (reading ++ r.properties) (.slot i p) := fun q hq => by
        rw [← (Spot.slot.inj hq).2]
        exact hquiet
      rwa [check_chooseAt h makes.coherent makes.taken hquiet he hf]
  · rwa [check_chooseAt h makes.coherent makes.taken (fun p hp => absurd ⟨p, hp⟩ hs) he hf]

end EncodingRule

/-! ## Verdicts -/

/-- Some active rule is run for what is chosen at a spot, and neglects what is chosen at another one. -/
def Config.Neglects (config : Config) (s t : Spot) : Prop :=
  (∃ x ∈ ChartRule.readings, x.1.isActive config = true ∧ s.property ∈ x.1.properties ∧
      t.property ∈ x.1.neglected x.2) ∨
    Draft.hostOf s = Draft.hostOf t ∧ ∃ x ∈ EncodingRule.readings, x.1.isActive config = true ∧
      s.property ∈ x.1.properties ∧ t.property ∈ x.1.neglected x.2

instance (config : Config) (s t : Spot) : Decidable (config.Neglects s t) :=
  inferInstanceAs (Decidable (_ ∨ _))

namespace Draft

variable {ctx : Context} {d : Draft} {s t : Spot} {c : Choice}

/-- All active rules that are run for what is chosen at a spot are kept. -/
structure Passes (ctx : Context) (s : Spot) (d : Draft) : Prop where
  chart : ∀ r reading, (r, reading) ∈ ChartRule.readings → r.isActive ctx.config = true →
    s.property ∈ r.properties → r.check ctx d = .ok true
  encoding : ∀ i e, hostOf s = some i → d.encoding? i = some e → ∀ r reading,
    (r, reading) ∈ EncodingRule.readings → r.isActive ctx.config = true → s.property ∈ r.properties →
      r.check ctx (d.place i e) = .ok true

/-- Nothing is said against a draft that passes, if the spot lies in an encoding of it. -/
theorem verdictAt_eq_none_iff (hosted : ∀ i, hostOf s = some i → (d.encoding? i).isSome) :
    d.verdictAt ctx s = .ok none ↔ d.Passes ctx s := by
  have hchart : (∀ r ∈ Rule.about ChartRule.all s.property ctx.config, r.check ctx d = .ok true) ↔
      ∀ r reading, (r, reading) ∈ ChartRule.readings → r.isActive ctx.config = true →
        s.property ∈ r.properties → r.check ctx d = .ok true := by
    simp only [Rule.mem_about, ChartRule.mem_all_iff]
    exact ⟨fun h r reading hr active hp => h r ⟨⟨reading, hr⟩, hp, active⟩,
      fun h r ⟨⟨reading, hr⟩, hp, active⟩ => h r reading hr active hp⟩
  cases s with
  | mark =>
    rw [show d.verdictAt ctx .mark = d.refused? ctx .mark from rfl, refused?_eq_none_iff]
    exact hchart.trans ⟨fun h => ⟨h, fun _ _ hi => nomatch hi⟩, fun h => h.chart⟩
  | slot i p =>
    obtain ⟨e, he⟩ := Option.isSome_iff_exists.mp (hosted i rfl)
    rw [verdictAt_slot_eq_none_iff he]
    constructor
    · rintro ⟨hencoding, hr⟩
      refine ⟨hchart.mp hr, fun j e' hj he' r reading hr active hp => ?_⟩
      obtain rfl := Option.some.inj hj
      obtain rfl := Option.some.inj (he.symm.trans he')
      exact hencoding r (Rule.mem_about.mpr ⟨EncodingRule.mem_all_iff.mpr ⟨reading, hr⟩, hp, active⟩)
    · refine fun h => ⟨fun r hr => ?_, hchart.mpr h.chart⟩
      obtain ⟨hr, hp, active⟩ := Rule.mem_about.mp hr
      obtain ⟨reading, hr⟩ := EncodingRule.mem_all_iff.mp hr
      exact h.encoding i e rfl he r reading hr active hp

/-- What passes for a choice passes after another choice that passes, if the rules that are run for the first
one do not neglect the second one. -/
theorem Passes.chooseAt (h : d.Passes ctx s) (makes : d.Makes t c)
    (ht : (d.chooseAt t c).1.Passes ctx t) (free : ¬ctx.config.Neglects s t) :
    (d.chooseAt t c).1.Passes ctx s where
  chart r reading hr active hs := by
    by_cases hdeclared : t.property ∈ r.properties
    · exact ht.chart r reading hr active hdeclared
    · have hquiet := (ChartRule.declared_or_quiet hr (mem_precedence_of_choicesAt? makes.offered)
        fun hn => free (.inl ⟨_, hr, active, hs, hn⟩)).resolve_left hdeclared
      rw [← ChartRule.check_congr_inputs hr (agree_chooseAt makes.coherent makes.taken hquiet)]
      exact h.chart r reading hr active hs
  encoding i f hi hf r reading hr active hs := by
    obtain ⟨e, he⟩ := Option.isSome_iff_exists.mp
      (((alikeApart_chooseAt makes.coherent makes.taken).isSome_encoding? i).trans (Option.isSome_of_mem hf))
    by_cases hdeclared : hostOf t = some i ∧ t.property ∈ r.properties
    · exact ht.encoding i f hdeclared.1 hf r reading hr active hdeclared.2
    · have hquiet : QuietAt i (reading ++ r.properties) t := by
        rintro p rfl
        exact (EncodingRule.declared_or_quiet hr (mem_precedence_of_choicesAt? makes.offered)
          fun hn => free (.inr ⟨hi, _, hr, active, hs, hn⟩)).resolve_left fun hp => hdeclared ⟨rfl, hp⟩
      rw [← EncodingRule.check_chooseAt hr makes.coherent makes.taken hquiet he hf]
      exact h.encoding i e hi he r reading hr active hs

/-- What passes for a choice after another one passes before it, if the rules that are run for the first one
do not neglect the other one. -/
theorem Passes.of_chooseAt (makes : d.Makes s c) (h : (d.chooseAt s c).1.Passes ctx t)
    (free : ¬ctx.config.Neglects t s) : d.Passes ctx t where
  chart r reading hr active ht :=
    ChartRule.check_of_chooseAt hr makes (fun hn => free (.inl ⟨_, hr, active, ht, hn⟩))
      (h.chart r reading hr active ht)
  encoding i e hi he r reading hr active ht := by
    obtain ⟨f, hf⟩ := Option.isSome_iff_exists.mp
      (((alikeApart_chooseAt makes.coherent makes.taken).isSome_encoding? i).symm.trans
        (Option.isSome_of_mem he))
    exact EncodingRule.check_of_chooseAt hr makes
      (fun hs hn => free (.inr ⟨hi.trans hs.symm, _, hr, active, ht, hn⟩)) he hf
      (h.encoding i f hi hf r reading hr active ht)

end Draft
end ChartAdvisor
