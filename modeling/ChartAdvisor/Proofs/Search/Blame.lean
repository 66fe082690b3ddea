import ChartAdvisor.Proofs.Search.Settling
import ChartAdvisor.Proofs.Styling

/-!
# What a search can fail with

A search fails for a reason that lies in the query, the schema or the configuration, and never with
an error about its own workings: neither the search, nor a rule, nor styling asks for what is not
there.
-/
namespace ChartAdvisor

/-! ## Resolving -/

/-- What is needed for two steps to fail. -/
theorem Logged.of_outcome_bind_error {α β : Type} {x : Logged α} {f : α → Logged β} {e : Error}
    (h : (x >>= f).outcome = .error e) :
    x.outcome = .error e ∨ ∃ a, x.outcome = .ok a ∧ (f a).outcome = .error e := by
  rw [outcome_bind] at h
  cases hx : x.outcome with
  | error e' =>
    rw [hx] at h
    obtain rfl : e' = e := Except.error.inj h
    exact .inl rfl
  | ok a =>
    rw [hx] at h
    exact .inr ⟨a, rfl, h⟩

theorem Logged.of_outcome_mapError_error {ε α : Type} {x : Except ε α} {f : ε → Error} {e : Error}
    (h : (ofExcept (x.mapError f)).outcome = .error e) : ∃ e', x = .error e' ∧ e = f e' := by
  cases x with
  | ok a => contradiction
  | error e' => exact ⟨e', rfl, (Except.error.inj h).symm⟩

namespace Draft

/-- Resolving a property fails with the walk of a draft. -/
theorem resolve_eq_error {ctx : Context} {p : Property} {drafts : List Draft} {e : Error}
    (h : (resolve ctx p drafts).outcome = .error e) : ∃ d ∈ drafts, (d.walk ctx p).failure = some e := by
  induction drafts with
  | nil => contradiction
  | cons d rest ih =>
    rw [resolve] at h
    rcases Logged.of_outcome_bind_error h with hd | ⟨found, -, h⟩
    · unfold Walk.logged at hd
      cases hf : (d.walk ctx p).failure with
      | none => rw [hf] at hd; contradiction
      | some e' =>
        rw [hf] at hd
        obtain rfl : e' = e := Except.error.inj hd
        exact ⟨d, List.mem_cons_self .., hf⟩
    · rcases Logged.of_outcome_bind_error h with hrest | ⟨more, -, h⟩
      · obtain ⟨d', hd', hf⟩ := ih hrest
        exact ⟨d', List.mem_cons_of_mem _ hd', hf⟩
      · contradiction

variable {ctx : Context} {d₀ : Draft}

/-- The search fails only where the rules cannot judge a draft. -/
theorem resolveAll_eq_error {steps : List Property} {drafts : List Draft}
    (h : ∀ d ∈ drafts, ComesOf d₀ d) {e : Error}
    (he : (resolveAll ctx steps drafts).outcome = .error e) :
    ∃ d r, ComesOf d₀ d ∧ Unjudged ctx d r ∧ e = .rule r := by
  induction steps generalizing drafts with
  | nil => contradiction
  | cons p rest ih =>
    rw [resolveAll] at he
    rcases Logged.of_outcome_bind_error he with he | ⟨found, ok, he⟩
    · obtain ⟨d, hd, hf⟩ := resolve_eq_error he
      exact ((h d hd).walk ctx p).failure e hf
    · rcases Logged.of_outcome_bind_error he with he | ⟨-, -, he⟩
      · contradiction
      · split at he
        · contradiction
        · exact ih (Ends.of_resolve (fun d hd => hd.walk ctx p) h ok) he

/-- Once the search is through, no field is open. -/
theorem fieldsChosen_of_resolveAll {steps : List Property} {drafts found : List Draft}
    (h : ∀ d ∈ drafts, ComesOf d₀ d) (chosen : .field ∈ steps ∨ ∀ d ∈ drafts, d.FieldsChosen)
    (ok : (resolveAll ctx steps drafts).outcome = .ok found) :
    ∀ f ∈ found, ComesOf d₀ f ∧ f.FieldsChosen := by
  -- no field is open once fields have had their turn
  let Chosen (done : List Property) : Prop := .field ∈ done ∨ ∀ d ∈ drafts, d.FieldsChosen
  have hfound := resolveAll_found []
    (P := fun done d => ComesOf d₀ d ∧ (Chosen done → d.FieldsChosen))
    (fun done p _ _ d ⟨hd, hc⟩ hn f hf => ⟨((hd.walk ctx p).leaves hn).2 f hf, fun hchosen => ?_⟩)
    (fun d hd => ⟨h d hd, fun hchosen => hchosen.resolve_left List.not_mem_nil d hd⟩) ok
  · exact fun f hf => ⟨(hfound f hf).1, (hfound f hf).2 chosen⟩
  · have hturn : p = .field ∨ Chosen done := by
      rcases hchosen with hmem | hall
      · rcases List.mem_append.mp hmem with hmem | hmem
        · exact .inr (.inl hmem)
        · exact .inl (List.mem_singleton.mp hmem).symm
      · exact .inr (.inr hall)
    exact hd.fieldsChosen_walk ctx (hturn.imp_right hc) hn f hf

end Draft

/-! ## Errors -/

/-- The errors with which a search can find fault with a query, the schema or the configuration. -/
inductive Error.DueTo (q : ChartQuery) (ctx : Context) : Error → Prop
  | stackOffset {v : Json} (h : q.stackOffset = .error v) : DueTo q ctx (.draft (.badStackOffset v))
  | duplicateName {name : String}
      (h : Draft.build q ctx.schema ctx.config = .error (.duplicateName name)) :
      DueTo q ctx (.draft (.duplicateName name))
  | precedence {p : Property} (h : ctx.config.validate ≠ .ok ()) :
      DueTo q ctx (.config (.invalid "propertyPrecedence" (.unresolved p)))
  | mark {r : ChartRule} {m : Mark} (hr : r ∈ ChartRule.all) (used : q.MayUseMark ctx.config m)
      (unsupported : m = .rect ∨ m = .geoshape) :
      DueTo q ctx (.rule (.unsupported r.name (Vocabulary.name m)))
  | judgedField {e : SchemaError} (h : ctx.schema.Lacks (q.MayUseField ctx.schema) e) :
      DueTo q ctx (.rule (.schema e))
  | styledField {e : SchemaError} (h : ctx.schema.Lacks (q.MayUseField ctx.schema) e) :
      DueTo q ctx (.schema e)

/-- The errors about the workings of a search: a choice that does not fit, a slot or an encoding
that is not there, and a question about what is still open. -/
def Error.isInternal : Error → Bool
  | .draft (.notOpen ..) | .draft .markNotOpen | .draft (.outOfRange ..) | .draft (.mismatch ..)
  | .draft (.notOfEncoding _) | .rule (.unresolved ..) | .rule (.schema .openField)
  | .schema .openField => true
  | _ => false

namespace Draft

variable {q : ChartQuery} {ctx : Context} {d₀ d : Draft}

/-- The fields of a draft that comes of listed choices are those that the query may use. -/
theorem ComesOf.mayUseField (h : ComesOf d₀ d) (hb : IsBuilt q ctx.schema ctx.config d₀) {i : Nat}
    {f : FieldEncoding} (hf : d.encoding? i = some (.field f)) {name : String}
    (hname : f.field = .fixed name) : q.MayUseField ctx.schema name := by
  obtain ⟨o, ho⟩ := h.sourced.coherent.exists_origin hf
  have hstanding : (Encoding.field f).standing .field = .decided (.field name) := by
    show Standing.ofSlot f.field = _
    rw [hname]
    rfl
  rcases h.sourced.field i _ o hf ho with heq | ⟨name', ⟨k, hk, hmem⟩, heq⟩
  · cases o with
    | field o =>
      rw [hstanding] at heq
      cases hslot : o.field with
      | wild w =>
        rw [show (Encoding.field o).standing .field = Standing.ofSlot o.field from rfl, hslot] at heq
        contradiction
      | fixed n =>
        rw [show (Encoding.field o).standing .field = Standing.ofSlot o.field from rfl, hslot] at heq
        obtain rfl : name = n := by
          have hn := Standing.decided.inj heq
          exact Choice.field.inj hn
        rw [h.origin] at ho
        exact hb.mayUse_of_fixed (List.mem_of_getElem? ho) hslot
    | value | autoCount => rw [hstanding] at heq; contradiction
  · rw [hstanding] at heq
    obtain rfl : name = name' := Choice.field.inj (Standing.decided.inj heq)
    rw [h.slots] at hk
    exact hb.mayUse_of_listed hk hmem

theorem ComesOf.mayUseMark (h : ComesOf d₀ d) (hb : IsBuilt q ctx.schema ctx.config d₀) {m : Mark}
    (hm : d.query.mark = .fixed m) : q.MayUseMark ctx.config m := by
  rcases h.sourced.mark with heq | ⟨n, ⟨k, hk, n', hn', heq⟩, hn⟩
  · rw [h.origin] at heq
    exact hb.mayUse_of_fixedMark (heq.symm.trans hm)
  · obtain rfl : n = m := Slot.fixed.inj (hn.symm.trans hm)
    obtain rfl : n = n' := Choice.mark.inj heq
    rw [h.slots] at hk
    exact hb.mayUse_of_listedMark hk hn'

theorem ComesOf.fieldsAmong (h : ComesOf d₀ d) (hb : IsBuilt q ctx.schema ctx.config d₀)
    (chosen : d.FieldsChosen) : d.FieldsAmong (q.MayUseField ctx.schema) := by
  intro f hf
  obtain ⟨i, hi⟩ := List.mem_iff_getElem?.mp hf
  have hclosed : f.field.isOpen = false := chosen i _ hi
  cases hslot : f.field with
  | wild w => rw [hslot] at hclosed; contradiction
  | fixed name => exact ⟨name, rfl, h.mayUseField hb hi hslot⟩

/-- What the rules cannot judge in a draft is the fault of the query. -/
theorem Unjudged.dueTo {r : RuleError} (h : Unjudged ctx d r) (hd : ComesOf d₀ d)
    (hb : IsBuilt q ctx.schema ctx.config d₀) : Error.DueTo q ctx (.rule r) := by
  cases h with
  | @mark r m hr hm unsupported =>
    refine .mark hr (hd.mayUseMark hb hm) ?_
    cases m <;> first | exact .inl rfl | exact .inr rfl | contradiction
  | field he hq hstar missing =>
    exact .judgedField ⟨_, hd.mayUseField hb he hq, hstar, missing, rfl⟩

theorem build_eq_error {schema : Schema} {config : Config} {e : DraftError}
    (h : build q schema config = .error e) :
    (∃ v, q.stackOffset = .error v ∧ e = .badStackOffset v) ∨ ∃ name, e = .duplicateName name := by
  unfold build at h
  cases hs : q.stackOffset with
  | error v =>
    rw [hs] at h
    exact .inl ⟨v, rfl, (Except.error.inj h).symm⟩
  | ok o =>
    rw [hs] at h
    simp only at h
    split at h
    · next name _ => exact .inr ⟨name, (Except.error.inj h).symm⟩
    · contradiction

theorem start_eq_error {e : Error} (h : (start q ctx).outcome = .error e) : e.DueTo q ctx := by
  unfold start at h
  rcases Logged.of_outcome_bind_error h with hb | ⟨_, -, h⟩
  · obtain ⟨e', hbuild, rfl⟩ := Logged.of_outcome_mapError_error hb
    rcases build_eq_error hbuild with ⟨v, hv, rfl⟩ | ⟨name, rfl⟩
    · exact .stackOffset hv
    · exact .duplicateName hbuild
  · rcases Logged.of_outcome_bind_error h with he | ⟨_, -, he⟩ <;> contradiction

/-- In a draft that was built the fields are chosen, unless it is their turn to be. -/
theorem IsBuilt.fieldsChosen (hb : IsBuilt q ctx.schema ctx.config d) {steps : List Property}
    (h : d.steps ctx.config = .ok steps) : .field ∈ steps ∨ d.FieldsChosen := by
  by_cases hhas : d.slots.has .field = true
  · exact .inl (mem_steps h (by decide) hhas)
  · refine .inr (fieldsChosen_iff.mpr fun s hs => ?_)
    refine hb.sourced.opened.settledAt_of_not_mem hb.coherent fun hmem => hhas ?_
    rw [hs, mem_spots_iff, if_neg nofun] at hmem
    obtain ⟨j, hj, -⟩ := hmem
    simp [SlotIndex.has, List.ne_nil_of_mem hj]

end Draft

theorem Error.DueTo.not_isInternal {q : ChartQuery} {ctx : Context} {e : Error} (h : e.DueTo q ctx) :
    e.isInternal = false := by
  cases h with
  | judgedField h | styledField h =>
    obtain ⟨name, -, -, -, rfl⟩ := h
    rfl
  | _ => rfl

/-- A search fails for a reason that lies in the query, the schema or the configuration, whatever
the configuration is, and never with an error about its own workings. -/
theorem generate_fails_dueTo {q : ChartQuery} {ctx : Context} {e : Error}
    (h : (generate q ctx).outcome = .error e) : e.DueTo q ctx ∧ e.isInternal = false := by
  suffices due : e.DueTo q ctx from ⟨due, due.not_isInternal⟩
  unfold generate at h
  rcases Logged.of_outcome_bind_error h with hstart | ⟨d₀, hd₀, h⟩
  · exact Draft.start_eq_error hstart
  have hb := Draft.isBuilt_of_build (Draft.start_eq_ok hd₀)
  rcases Logged.of_outcome_bind_error h with hsteps | ⟨steps, hsteps, h⟩
  · obtain ⟨e', he', rfl⟩ := Logged.of_outcome_mapError_error hsteps
    obtain ⟨p, rfl, hvalid⟩ := Draft.steps_eq_error hb.coherent he'
    exact .precedence hvalid
  rcases Logged.of_outcome_bind_error h with htell | ⟨-, -, h⟩
  · contradiction
  have hstart : ∀ d ∈ [d₀], Draft.ComesOf d₀ d := by
    intro d hd
    obtain rfl := List.mem_singleton.mp hd
    exact ⟨hb.sourced, rfl, rfl⟩
  rcases Logged.of_outcome_bind_error h with hfound | ⟨found, hfound, h⟩
  · obtain ⟨d, r, hd, hr, rfl⟩ := Draft.resolveAll_eq_error hstart hfound
    exact hr.dueTo hd hb
  -- The search went well, so that only styling is left to fail.
  have hchosen := hb.fieldsChosen (Logged.of_outcome_mapError hsteps)
  have hfields := Draft.fieldsChosen_of_resolveAll hstart
    (hchosen.imp_right fun hc d hd => List.mem_singleton.mp hd ▸ hc) hfound
  split at h
  · rcases Logged.of_outcome_bind_error h with hstyle | ⟨_, -, h⟩
    · obtain ⟨e', hlacks, rfl⟩ := Draft.stylizeAll_eq_error
        (fun d hd => (hfields d hd).1.fieldsAmong hb (hfields d hd).2) hstyle
      exact .styledField hlacks
    · rcases Logged.of_outcome_bind_error h with he | ⟨_, -, he⟩ <;> contradiction
  · rcases Logged.of_outcome_bind_error h with he | ⟨_, -, h⟩
    · contradiction
    · rcases Logged.of_outcome_bind_error h with he | ⟨_, -, he⟩ <;> contradiction

/-- A query for a field that the schema of one field lacks. -/
def strayField : ChartQuery where
  mark := .fixed .point
  encodings := [.field {
    channel := .fixed .x
    field := .fixed "R"
    type := .fixed .quantitative }]

/-- Styling looks for the number of values of a field on an axis, and the schema has none. -/
theorem generate_fails_dueTo_strayField :
    (generate strayField ⟨Draft.oneField, {}⟩).outcome = .error (.schema (.fieldNotFound "R")) ∧
      (Error.schema (.fieldNotFound "R")).DueTo strayField ⟨Draft.oneField, {}⟩ := by
  have h : (generate strayField ⟨Draft.oneField, {}⟩).outcome =
      .error (.schema (.fieldNotFound "R")) := by rfl
  exact ⟨h, (generate_fails_dueTo h).1⟩

end ChartAdvisor
