import ChartAdvisor.Proofs.Rules.Footprint
import ChartAdvisor.Search.Walk

/-!
# Verdicts

After a choice at a spot the active rules about its property are run, those about encodings
first. Nothing is said against a draft exactly if all of them are kept, and alike drafts get
alike verdicts.
-/
namespace ChartAdvisor

namespace Rule

variable {α : Type} [Judged α]

/-- No rule of a list is violated if each of them is kept. -/
theorem firstViolated?_eq_none_iff (ctx : Context) (a : α) (rules : List (Rule α)) :
    firstViolated? ctx a rules = .ok none ↔ ∀ r ∈ rules, r.check ctx a = .ok true := by
  induction rules with
  | nil => simp [firstViolated?]
  | cons r rest ih =>
    rw [firstViolated?, List.forall_mem_cons]
    cases hr : r.check ctx a with
    | error e => exact ⟨(nomatch ·), (nomatch ·.1)⟩
    | ok b =>
      cases b with
      | false => exact ⟨(nomatch ·), (nomatch ·.1)⟩
      | true => exact ih.trans ⟨fun h => ⟨rfl, h⟩, fun h => h.2⟩

theorem firstViolated?_filter_eq_none_iff {ctx : Context} {a : α} {rules : List (Rule α)}
    {active : Rule α → Bool} : firstViolated? ctx a (rules.filter active) = .ok none ↔
      ∀ r ∈ rules, active r = true → r.check ctx a = .ok true := by
  rw [firstViolated?_eq_none_iff]
  simp only [List.mem_filter, and_imp]

theorem firstViolated?_congr {ctx ctx' : Context} {a b : α} {rules : List (Rule α)}
    (h : ∀ r ∈ rules, r.check ctx a = r.check ctx' b) :
    firstViolated? ctx a rules = firstViolated? ctx' b rules := by
  induction rules with
  | nil => rfl
  | cons r rest ih =>
    rw [firstViolated?, firstViolated?, h r (List.mem_cons_self ..),
      ih fun s hs => h s (List.mem_cons_of_mem _ hs)]

/-- A rule that is violated was run. -/
theorem check_of_firstViolated? {ctx : Context} {a : α} {rules : List (Rule α)} {r : Rule α}
    (h : firstViolated? ctx a rules = .ok (some r)) : r ∈ rules ∧ r.check ctx a = .ok false := by
  induction rules with
  | nil => exact nomatch h
  | cons s rest ih =>
    rw [firstViolated?] at h
    cases hs : s.check ctx a with
    | error e => rw [hs] at h; contradiction
    | ok b =>
      rw [hs] at h
      cases b with
      | false =>
        obtain rfl := Option.some.inj (Except.ok.inj h)
        exact ⟨List.mem_cons_self .., hs⟩
      | true => exact (ih h).imp_left (List.mem_cons_of_mem _)

omit [Judged α] in
theorem mem_about {rules : List (Rule α)} {p : Property} {config : Config} {r : Rule α} :
    r ∈ about rules p config ↔ r ∈ rules ∧ p ∈ r.properties ∧ r.isActive config = true := by
  unfold about reads
  simp

end Rule

namespace Draft

/-- Alike drafts agree on every property. -/
theorem Alike.agree {d d' : Draft} (hd : d.Coherent) (hd' : d'.Coherent) (h : d.Alike d')
    (ps : List Property) : d.Agree ps d' := by
  refine .of_encodings hd hd' (congrArg _ h.slots) ?_ (fun _ => by rw [h.mark]) ?_
  · have hs := congrArg ChartQuery.config h.settings
    exact hs
  · have hmap : d.query.encodings.map Encoding.withoutNulls =
        d'.query.encodings.map Encoding.withoutNulls := by
      refine List.ext_getElem? fun j => ?_
      rw [List.getElem?_map, List.getElem?_map]
      exact h.encodings j
    have hall := (List.forall₂_eq_eq_eq (α := Encoding)) ▸ hmap
    rw [List.forall₂_map_left_iff, List.forall₂_map_right_iff] at hall
    exact hall.imp fun e f he => ⟨Encoding.kind_congr he, fun p _ => Encoding.standing_congr he p⟩

/-- What the rules say against a draft after a choice at a spot. -/
def verdictAt (ctx : Context) (s : Spot) (d : Draft) : Except RuleError (Option Refusal) :=
  match s with
  | .mark => d.refused? ctx .mark
  | .slot index p => d.verdict ctx index p

theorem refused?_eq_none_iff {ctx : Context} {d : Draft} {p : Property} :
    d.refused? ctx p = .ok none ↔
      ∀ r ∈ Rule.about ChartRule.all p ctx.config, r.check ctx d = .ok true := by
  rw [← Rule.firstViolated?_eq_none_iff]
  unfold refused? violated?
  cases Rule.firstViolated? ctx d (Rule.about ChartRule.all p ctx.config) with
  | error e => exact ⟨(nomatch ·), (nomatch ·)⟩
  | ok v => cases v <;> simp [Except.map]

theorem refusedByEncoding?_eq_none_iff {ctx : Context} {d : Draft} {i : Nat} {p : Property}
    {e : Encoding} (he : d.encoding? i = some e) :
    d.refusedByEncoding? ctx i p = .ok none ↔
      ∀ r ∈ Rule.about EncodingRule.all p ctx.config, r.check ctx (d.place i e) = .ok true := by
  rw [← Rule.firstViolated?_eq_none_iff]
  unfold refusedByEncoding? violatedByEncoding?
  split
  · rw [he]
    simp only
    cases Rule.firstViolated? ctx (d.place i e) (Rule.about EncodingRule.all p ctx.config) with
    | error e => exact ⟨(nomatch ·), (nomatch ·)⟩
    | ok v => cases v <;> simp [Except.map]
  · next hn =>
    have hnil : Rule.about EncodingRule.all p ctx.config = [] := by
      unfold Rule.about
      rw [List.filter_eq_nil_iff]
      intro r hr hread
      rw [Bool.and_eq_true] at hread
      exact hn (List.any_eq_true.mpr ⟨r, hr, hread.1⟩)
    rw [hnil]
    exact ⟨fun _ => rfl, fun _ => rfl⟩

theorem verdict_eq_none_iff {ctx : Context} {d : Draft} {i : Nat} {p : Property} :
    d.verdict ctx i p = .ok none ↔
      d.refusedByEncoding? ctx i p = .ok none ∧ d.refused? ctx p = .ok none := by
  unfold verdict
  cases d.refusedByEncoding? ctx i p with
  | error e => exact ⟨(nomatch ·), (nomatch ·.1)⟩
  | ok v =>
    cases v with
    | some r => exact ⟨(nomatch ·), (nomatch ·.1)⟩
    | none => exact ⟨fun h => ⟨rfl, h⟩, fun h => h.2⟩

/-- Nothing is said against a choice exactly if the active rules about it are kept. -/
theorem verdictAt_slot_eq_none_iff {ctx : Context} {d : Draft} {i : Nat} {p : Property}
    {e : Encoding} (he : d.encoding? i = some e) :
    d.verdictAt ctx (.slot i p) = .ok none ↔
      (∀ r ∈ Rule.about EncodingRule.all p ctx.config, r.check ctx (d.place i e) = .ok true) ∧
        ∀ r ∈ Rule.about ChartRule.all p ctx.config, r.check ctx d = .ok true := by
  rw [← refusedByEncoding?_eq_none_iff he, ← refused?_eq_none_iff]
  exact verdict_eq_none_iff

/-- What is said against a draft comes of an active rule that it violates. -/
theorem exists_of_refused? {ctx : Context} {d : Draft} {p : Property} {refusal : Refusal}
    (h : d.refused? ctx p = .ok (some refusal)) :
    ∃ r ∈ Rule.about ChartRule.all p ctx.config, r.check ctx d = .ok false := by
  unfold refused? violated? at h
  rcases hv : Rule.firstViolated? ctx d (Rule.about ChartRule.all p ctx.config) with _ | _ | r
  · rw [hv] at h; exact nomatch h
  · rw [hv] at h; exact nomatch h
  · exact ⟨r, Rule.check_of_firstViolated? hv⟩

theorem exists_of_refusedByEncoding? {ctx : Context} {d : Draft} {i : Nat} {p : Property}
    {refusal : Refusal} (h : d.refusedByEncoding? ctx i p = .ok (some refusal)) :
    ∃ e, d.encoding? i = some e ∧ ∃ r ∈ Rule.about EncodingRule.all p ctx.config,
      r.check ctx (d.place i e) = .ok false := by
  unfold refusedByEncoding? violatedByEncoding? at h
  split at h
  · cases he : d.encoding? i with
    | none => rw [he] at h; contradiction
    | some e =>
      rw [he] at h
      simp only at h
      rcases hv : Rule.firstViolated? ctx (d.place i e) (Rule.about EncodingRule.all p ctx.config)
        with _ | _ | r
      · rw [hv] at h; exact nomatch h
      · rw [hv] at h; exact nomatch h
      · exact ⟨e, rfl, r, Rule.check_of_firstViolated? hv⟩
  · exact nomatch h

/-- What the rules of one context let pass, those of another one do not refuse. -/
def Looser (ctx ctx' : Context) : Prop :=
  ∀ (d : Draft) (s : Spot) (v : Option Refusal), d.verdictAt ctx s = .ok none →
    d.verdictAt ctx' s = .ok v → v = none

/-- A context is looser if whatever is active there is active in the other one, and is kept if it is kept
there. -/
theorem looser_of_rules {ctx ctx' : Context}
    (chart : ∀ r ∈ ChartRule.all, r.isActive ctx'.config = true → r.isActive ctx.config = true ∧
      ∀ d : Draft, r.check ctx d = .ok true → r.check ctx' d ≠ .ok false)
    (encoding : ∀ r ∈ EncodingRule.all, r.isActive ctx'.config = true → r.isActive ctx.config = true ∧
      ∀ a : Place, r.check ctx a = .ok true → r.check ctx' a ≠ .ok false) : Looser ctx ctx' := by
  have hrefused (d : Draft) (p : Property) (refusal : Refusal)
      (h : d.refused? ctx' p = .ok (some refusal)) : d.refused? ctx p ≠ .ok none := by
    intro hkept
    obtain ⟨r, hr, hviolated⟩ := exists_of_refused? h
    obtain ⟨hall, hp, hactive⟩ := Rule.mem_about.mp hr
    obtain ⟨hactive, hchecks⟩ := chart r hall hactive
    exact hchecks d (refused?_eq_none_iff.mp hkept r (Rule.mem_about.mpr ⟨hall, hp, hactive⟩)) hviolated
  intro d s v hkept hv
  cases v with
  | none => rfl
  | some refusal =>
    exfalso
    cases s with
    | mark => exact hrefused d .mark refusal hv hkept
    | slot i p =>
      obtain ⟨hencoding, hchart⟩ := verdict_eq_none_iff.mp hkept
      rw [show d.verdictAt ctx' (.slot i p) = d.verdict ctx' i p from rfl, verdict] at hv
      rcases hfirst : d.refusedByEncoding? ctx' i p with _ | _ | refusal'
      · rw [hfirst] at hv; contradiction
      · rw [hfirst] at hv
        exact hrefused d p refusal hv hchart
      · obtain ⟨e, he, r, hr, hviolated⟩ := exists_of_refusedByEncoding? hfirst
        obtain ⟨hall, hp, hactive⟩ := Rule.mem_about.mp hr
        obtain ⟨hactive, hchecks⟩ := encoding r hall hactive
        exact hchecks _ ((refusedByEncoding?_eq_none_iff he).mp hencoding r
          (Rule.mem_about.mpr ⟨hall, hp, hactive⟩)) hviolated

/-- Drafts of which every rule about a spot says the same get alike verdicts; a refusal only shows
another draft. -/
theorem verdictAt_congr {ctx : Context} {d d' : Draft} {s : Spot}
    (chart : ∀ r ∈ ChartRule.all, s.property ∈ r.properties → r.check ctx d = r.check ctx d')
    (encoding : ∀ i p, s = .slot i p → Option.Rel (fun e e' => ∀ r ∈ EncodingRule.all,
      p ∈ r.properties → r.check ctx (d.place i e) = r.check ctx (d'.place i e'))
      (d.encoding? i) (d'.encoding? i)) :
    (d.verdictAt ctx s).map Option.isSome = (d'.verdictAt ctx s).map Option.isSome := by
  have hrefused (p : Property) (hp : ∀ r ∈ ChartRule.all, p ∈ r.properties →
      r.check ctx d = r.check ctx d') :
      (d.refused? ctx p).map Option.isSome = (d'.refused? ctx p).map Option.isSome := by
    have hchart : d.violated? ctx p = d'.violated? ctx p :=
      Rule.firstViolated?_congr fun r hr =>
        have hr := Rule.mem_about.mp hr
        hp r hr.1 hr.2.1
    unfold refused?
    rw [hchart]
    rcases d'.violated? ctx p with _ | _ | _ <;> rfl
  cases s with
  | mark => exact hrefused .mark chart
  | slot i p =>
    have henc : d.violatedByEncoding? ctx i p = d'.violatedByEncoding? ctx i p := by
      have hi := encoding i p rfl
      unfold violatedByEncoding?
      split
      · generalize d.encoding? i = a, d'.encoding? i = b at hi
        cases hi with
        | none => rfl
        | some hi =>
          refine Rule.firstViolated?_congr fun r hr => ?_
          have hr := Rule.mem_about.mp hr
          exact hi r hr.1 hr.2.1
      · rfl
    rw [show d.verdictAt ctx (.slot i p) = d.verdict ctx i p from rfl,
      show d'.verdictAt ctx (.slot i p) = d'.verdict ctx i p from rfl]
    unfold verdict refusedByEncoding?
    rw [henc]
    rcases d'.violatedByEncoding? ctx i p with _ | _ | _
    · rfl
    · exact hrefused p chart
    · rfl

/-- Drafts that are alike get alike verdicts. -/
theorem Alike.verdictAt_eq {d d' : Draft} (hd : d.Coherent) (hd' : d'.Coherent) (h : d.Alike d')
    (ctx : Context) (s : Spot) :
    (d.verdictAt ctx s).map Option.isSome = (d'.verdictAt ctx s).map Option.isSome := by
  refine verdictAt_congr (fun r hr _ => ChartRule.check_congr_reach hr (h.agree hd hd' _) ctx)
    fun i p _ => ?_
  have hi := h.encodings i
  cases he : d.encoding? i <;> cases he' : d'.encoding? i <;> rw [he, he'] at hi <;>
    simp only [Option.map_none, Option.map_some, reduceCtorEq, Option.some.injEq] at hi
  · exact .none
  · refine .some fun r hr _ => EncodingRule.check_congr_reach hr
      ⟨Encoding.kind_congr hi, fun q _ => Encoding.standing_congr hi q⟩ ?_ ctx
    unfold place
    rw [h.slots]

end Draft
end ChartAdvisor
