import ChartAdvisor.Proofs.Charting
import ChartAdvisor.Proofs.Search.Soundness

/-!
# The order of resolution

A configuration that is accepted leaves no property out of its order, and has parts after what they
are parts of. A rule about encodings that declares whatever it reads is kept under every such order.
One of the others is kept under some orders and not under others, so that they find different charts.
-/
namespace ChartAdvisor

/-- A property that can be open in an encoding has its place in the order of resolution. -/
theorem Encoding.mem_precedence_of_isOpen {e : Encoding} {p : Property} (h : e.isOpen p = true) :
    p ∈ Property.precedence := by
  have hall : ∀ p ∈ Property.encodingTop ++ Property.encodingNested, p ∈ Property.precedence := by
    decide
  exact hall p (mem_of_isOpen h)

theorem Draft.Coherent.mem_precedence {d : Draft} (h : d.Coherent) {p : Property}
    (hp : d.slots.has p = true) : p ∈ Property.precedence := by
  unfold SlotIndex.has at hp
  split at hp
  · next hmark =>
    rw [hmark]
    decide
  · obtain ⟨i, hi⟩ := List.exists_mem_of_ne_nil (d.slots.indices p) (by simpa using hp)
    have hslot : (d.slots.slot? i p).isSome := (List.mem_filter.mp hi).2
    rw [h.opened] at hslot
    obtain ⟨o, -, hopen⟩ := (Option.any_eq_true _ _).mp hslot
    exact o.mem_precedence_of_isOpen hopen

theorem Config.fault?_eq_none {c : Config} (h : c.validate = .ok ()) : c.fault? = none := by
  unfold validate at h
  cases hf : c.fault? with
  | some e => rw [hf] at h; contradiction
  | none => rfl

/-- A configuration that is accepted leaves no property out of its order. -/
theorem Config.mem_propertyPrecedence {c : Config} (h : c.validate = .ok ()) {p : Property}
    (hp : p ∈ Property.precedence) : p ∈ c.propertyPrecedence := by
  have hmissing := List.findSome?_eq_none_iff.mp (fault?_eq_none h)
    ((Property.precedence.find? (!c.propertyPrecedence.contains ·)).map fun p =>
      .invalid "propertyPrecedence" (.missing p)) (by simp only [List.mem_cons, true_or, or_true])
  have hlisted := List.find?_eq_none.mp (Option.map_eq_none_iff.mp hmissing) p hp
  simpa using hlisted

/-- The properties that are open have all their turn, unless the configuration leaves one out. -/
theorem Draft.steps_eq_error {d : Draft} (h : d.Coherent) {config : Config} {e : ConfigError}
    (he : d.steps config = .error e) :
    ∃ p, e = .invalid "propertyPrecedence" (.unresolved p) ∧ config.validate ≠ .ok () := by
  unfold steps at he
  simp only at he
  split at he
  · next p hp =>
    refine ⟨p, (Except.error.inj he).symm, fun hvalid => ?_⟩
    have hp : (d.slots.has p && !(config.propertyPrecedence.filter d.slots.has).contains p) = true := by
      simpa using List.find?_some hp
    obtain ⟨hhas, hcontains⟩ := Bool.and_eq_true_iff.mp hp
    have hlisted := Config.mem_propertyPrecedence hvalid (h.mem_precedence hhas)
    simp [hlisted, hhas] at hcontains
  · contradiction

theorem Draft.mem_steps {d : Draft} {config : Config} {steps : List Property}
    (h : d.steps config = .ok steps) {p : Property} (hmem : p ∈ (Vocabulary.all : List Property))
    (hp : d.slots.has p = true) : p ∈ steps := by
  unfold Draft.steps at h
  simp only at h
  split at h
  · contradiction
  · next hnone =>
    have hall := List.find?_eq_none.mp hnone p hmem
    obtain rfl := Except.ok.inj h
    simpa [hp] using hall

/-- In an order that is accepted no part comes before what it is a part of. -/
theorem Config.parent?_ne_of_beforeParent? {precedence seen rest : List Property}
    (h : beforeParent? precedence seen rest = none) (hnodup : rest.Nodup)
    (hseen : ∀ p ∈ rest, p ∉ seen) : rest.Pairwise fun p q => p.parent? ≠ some q := by
  induction rest generalizing seen with
  | nil => exact .nil
  | cons p rest ih =>
    obtain ⟨hp, hrest⟩ := List.nodup_cons.mp hnodup
    have hfresh : ∀ q ∈ rest, q ∉ p :: seen := fun q hq hmem => by
      rcases List.mem_cons.mp hmem with rfl | hmem
      · exact hp hq
      · exact hseen q (List.mem_cons_of_mem _ hq) hmem
    unfold beforeParent? at h
    cases hparent : p.parent? with
    | none =>
      rw [hparent] at h
      exact .cons (fun q _ => by rw [hparent]; nofun) (ih h hrest hfresh)
    | some parent =>
      rw [hparent] at h
      simp only at h
      split at h
      · next hcontains =>
        refine .cons (fun q hq heq => ?_) (ih h hrest hfresh)
        obtain rfl : parent = q := Option.some.inj (hparent.symm.trans heq)
        exact hseen parent (List.mem_cons_of_mem _ hq) (List.contains_iff_mem.mp hcontains)
      · contradiction

/-- A configuration that is accepted has no part before what it is a part of. -/
theorem Config.beforeParent?_eq_none {c : Config} (h : c.validate = .ok ()) :
    beforeParent? c.propertyPrecedence [] c.propertyPrecedence = none := by
  have hlast := List.findSome?_eq_none_iff.mp (fault?_eq_none h) _
    (List.getLast_mem (List.cons_ne_nil _ _))
  exact Option.map_eq_none_iff.mp hlast

theorem Config.inOrder_of_validate {c : Config} (h : c.validate = .ok ())
    (hnodup : c.propertyPrecedence.Nodup) : Property.InOrder c.propertyPrecedence := by
  have hpairs := parent?_ne_of_beforeParent? (beforeParent?_eq_none h) hnodup
    fun _ _ => List.not_mem_nil
  exact List.Pairwise.and hnodup hpairs

/-! ## Rules that declare what they read -/

/-- The rules about encodings that look no further than their properties are disturbed by no choice
for another property. -/
theorem EncodingRule.quietFor_footprint : ∀ r ∈ all, ∀ q ∈ Property.precedence,
    q ∈ r.properties ∨ q.QuietFor r.footprint := by
  decide

namespace Draft

/-- Whatever the order of resolution, a draft that is found keeps every active rule about encodings
that looks no further than its properties, if one of them was chosen on the way. -/
theorem generate_keeps_encodingRule {q : ChartQuery} {ctx : Context} {drafts : List Draft}
    (valid : ctx.config.validate = .ok ()) (hnodup : ctx.config.propertyPrecedence.Nodup)
    (plain : ctx.config.stylize = false) (h : (generate q ctx).outcome = .ok drafts)
    {r : EncodingRule} (hr : r ∈ EncodingRule.all) (active : r.isActive ctx.config = true)
    (hs : r.name ∉ EncodingRule.derived) {d : Draft} (hd : d ∈ drafts) {i : Nat} {e : Encoding}
    {p : Property} {n : String} (he : d.encoding? i = some e) (hp : p ∈ r.properties)
    (hn : n ∈ d.nameAt? (.slot i p)) (hsome : (d.assignment.lookup n).isSome) :
    r.check ctx (d.place i e) = .ok true := by
  obtain ⟨d₀, hb, hstage⟩ :=
    stage_of_generate_inOrder (Config.inOrder_of_validate valid hnodup) plain h
  have hbuilt := isBuilt_of_build hb
  refine hstage.keeps_encodingRule hbuilt hr active hs ?_ hd he hp hn hsome
  refine List.pairwise_of_forall_mem_list fun p _ q hq _ => ?_
  exact EncodingRule.quietFor_footprint r hr q
    (hbuilt.coherent.mem_precedence (List.mem_filter.mp hq).2)

/-! ## A rule that does not -/

/-- Numbers on both axes, and names on a colour whose channel and type are open. -/
def namesOnColor : ChartQuery where
  mark := .fixed .point
  encodings := [
    .field { channel := .fixed .x, field := .fixed "Q", type := .fixed .quantitative },
    .field { channel := .fixed .y, field := .fixed "R", type := .fixed .quantitative },
    .field {
      channel := .wild (.ofCandidates [.color])
      field := .fixed "N"
      type := .wild (.ofCandidates [.nominal]) }]

/-- A table with two fields of numbers and one of thirty names. -/
def threeFields : Schema where
  fields := [
    ⟨"Q", .quantitative, .number, { distinct := 100 }, [], []⟩,
    ⟨"R", .quantitative, .number, { distinct := 100 }, [], []⟩,
    ⟨"N", .nominal, .string, { distinct := 30 }, [], []⟩]
  ne_nil := by simp
  nodup := by decide

/-- The channel is chosen before everything else. -/
def channelFirst : List Property := .channel :: Property.precedence.erase .channel

/-- What is computed of an outcome tells that there is one. -/
theorem exists_of_map_toOption {α β ε : Type} {o : Except ε α} {f : α → β} {b : β}
    (h : (o.map f).toOption = some b) : ∃ a, o = .ok a ∧ f a = b := by
  cases o with
  | error e => contradiction
  | ok a => exact ⟨a, rfl, Option.some.inj h⟩

/-- The ceiling on the values of a nominal colour is asked for when the channel is chosen, and not
when the type is. So an order in which the channel comes before the type finds a chart that is
refused under the order in which it comes after. -/
theorem generate_depends_on_order :
    ¬ ∀ (q : ChartQuery) (schema : Schema) (config config' : Config) (drafts drafts' : List Draft),
      config.validate = .ok () → config'.validate = .ok () →
      config.propertyPrecedence.Perm Property.precedence →
      config'.propertyPrecedence.Perm Property.precedence →
      config' = { config with propertyPrecedence := config'.propertyPrecedence } →
      config.stylize = false →
      (generate q ⟨schema, config⟩).outcome = .ok drafts →
      (generate q ⟨schema, config'⟩).outcome = .ok drafts' →
      ∀ text, text ∈ drafts.map Draft.shorthand ↔ text ∈ drafts'.map Draft.shorthand := by
  intro h
  let config : Config := { stylize := false }
  let config' : Config := { config with propertyPrecedence := channelFirst }
  have hfew : ((generate namesOnColor ⟨threeFields, config⟩).outcome.map List.length).toOption =
      some 0 := by decide
  have hmore : ((generate namesOnColor ⟨threeFields, config'⟩).outcome.map List.length).toOption =
      some 1 := by decide
  have hperm : channelFirst.Perm Property.precedence := (List.perm_cons_erase (by decide)).symm
  obtain ⟨drafts, hout, hlength⟩ := exists_of_map_toOption hfew
  obtain ⟨drafts', hout', hlength'⟩ := exists_of_map_toOption hmore
  obtain rfl := List.eq_nil_of_length_eq_zero hlength
  obtain ⟨d, rfl⟩ := List.length_eq_one_iff.mp hlength'
  have heq := h namesOnColor threeFields config config' [] [d] (by decide) (by decide) (.refl _) hperm
    rfl rfl hout hout' d.shorthand
  exact absurd (heq.mpr (List.mem_singleton_self _)) List.not_mem_nil

end Draft
end ChartAdvisor
