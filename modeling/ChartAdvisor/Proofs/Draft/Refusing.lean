import ChartAdvisor.Proofs.Draft.Counting
import ChartAdvisor.Proofs.Search.InPlace
import ChartAdvisor.Proofs.Search.Lasting

/-!
# What a refused call leaves behind

A call that is refused chooses nothing: what is on record, the count of the channels, the mark and all
other encodings stay. The encoding for which it was made may change all the same. A part that can be
switched is put back as it was built before the value is looked at, and a value for a part of a scale
takes out what is fixed at `null` even if it does not fit.
-/
namespace ChartAdvisor

/-! ## Encodings -/

/-- What a choice that is refused leaves of an encoding. -/
def Encoding.leftover (e o : Encoding) (p : Property) : Encoding :=
  if p.holdsSettings then e.restore o p
  else if p.parent? = some .scale then e.withoutNulls
  else e

namespace FieldEncoding

theorem settle_refused {α : Type} [Choosable α] {q : FieldEncoding} {p : Property} {c : Choice}
    {put : α → FieldEncoding} (h : (q.settle p c put).2 ≠ none) : (q.settle p c put).1 = q := by
  unfold settle at h ⊢
  split at h
  · contradiction
  · rfl

theorem settleToggle_refused {α : Type} [Settings α] {t : Option (Toggle α)} {p : Property}
    {c : Choice} {put : Option (Toggle α) → FieldEncoding} (ht : t.any Toggle.isOpen = true)
    (h : (settleToggle t p c put).2 ≠ none) : (settleToggle t p c put).1 = put t := by
  obtain ⟨u, rfl, -⟩ := (Option.any_eq_true _ _).mp ht
  unfold settleToggle at h ⊢
  simp only at h ⊢
  split at h
  · contradiction
  · rfl

/-- A value that is refused changes a field in nothing but the nulls of its scale, if the part that it is
to switch is open. -/
theorem assign_refused {q : FieldEncoding} {p : Property} {c : Choice}
    (hopen : p.holdsSettings = true → q.isOpen p = true) (h : (q.assign p c).2 ≠ none) :
    (q.assign p c).1 = if p.parent? = some .scale then q.withoutNulls else q := by
  cases p with
  | channel | aggregate | timeUnit | field | type | sort | bin => exact settle_refused h
  | scale | axis | legend => exact settleToggle_refused (hopen rfl) h
  | maxBins =>
    rw [assign_maxBins] at h ⊢
    by_cases hbin : q.bin?.isSome = true
    · rw [if_pos hbin] at h ⊢
      exact settle_refused h
    · rw [if_neg hbin]
      rfl
  | scaleOf part =>
    rw [if_pos (show (Property.scaleOf part).parent? = some .scale from rfl)]
    rw [assign_scaleOf] at h ⊢
    by_cases hscale : q.scale?.isSome = true
    · rw [if_pos hscale] at h ⊢
      cases hc : (ofChoice? c : Option part.Value) with
      | some v => simp [hc] at h
      | none =>
        have hdrop (s : Scale) : (s.assign part c).1 = s.dropNulls := by
          rw [Scale.assign, hc]
        simp only [hdrop]
        rfl
    · rw [if_neg hscale]
      refine (q.withoutNulls_eq_self_iff.mpr fun s hs => absurd ?_ hscale).symm
      exact Option.isSome_of_mem hs
  | _ => rfl

end FieldEncoding

namespace Encoding

theorem assign_refused_of_ne_field {e : Encoding} (hk : e.kind ≠ .field) {p : Property} {c : Choice}
    (h : (e.assign p c).2 ≠ none) : (e.assign p c).1 = e := by
  by_cases hc : p = .channel
  · subst hc
    exact assign_channel_refused h
  · by_cases hb : p = .autoCount
    · subst hb
      exact assign_autoCount_refused h
    · cases e with
      | field q => exact absurd rfl hk
      | value | autoCount => cases p <;> first | rfl | contradiction

theorem choose_refused {e o : Encoding} {p : Property} {c : Choice} (hk : e.kind = o.kind)
    (ho : o.isOpen p = true) (h : (e.choose o p c).2 ≠ none) :
    (e.choose o p c).1 = e.leftover o p := by
  unfold choose at h ⊢
  unfold leftover
  cases o with
  | field r =>
    cases e <;> first | contradiction | skip
    next q =>
    cases hp : p.holdsSettings with
    | true =>
      rw [hp, if_pos rfl, restore_field, assign_field] at h
      rw [if_pos rfl, if_pos rfl, restore_field, assign_field]
      have hopen : (q.restore r p).isOpen p = true := by
        cases p <;> first | contradiction | exact ho
      have hparent : p.parent? ≠ some .scale := by cases p <;> first | contradiction | nofun
      rw [FieldEncoding.assign_refused (fun _ => hopen) h, if_neg hparent]
    | false =>
      rw [hp] at h
      simp only [Bool.false_eq_true, if_false, assign_field] at h ⊢
      rw [FieldEncoding.assign_refused (by simp [hp]) h]
      split <;> rfl
  | value | autoCount =>
    have hfield : e.kind ≠ .field := by rw [hk]; nofun
    have hp : p.holdsSettings = false := by
      cases p <;> first | rfl | contradiction
    rw [hp] at h ⊢
    simp only [Bool.false_eq_true, if_false] at h ⊢
    rw [assign_refused_of_ne_field hfield h, withoutNulls_of_ne_field hfield, ite_self]

end Encoding

/-! ## Drafts -/

namespace Draft

/-- What was wrong with a call, if it is refused. -/
def Call.error? (d : Draft) : Call → Option DraftError
  | setMark m => (d.setMark m).2
  | resetMark => none
  | assign i p c => (d.assign i p c).2
  | reset i p => (d.reset i p).2

/-- What a call leaves of an encoding if it is refused. -/
def Call.leaves (d : Draft) (call : Call) (j : Nat) (e : Encoding) : Encoding :=
  match call, d.origin.encodings[j]? with
  | assign i p _, some o => if i = j ∧ o.isOpen p = true then e.leftover o p else e
  | _, _ => e

variable {d : Draft}

theorem leaves_assign {i : Nat} {o : Encoding} (ho : d.origin.encodings[i]? = some o) (p : Property)
    (c : Choice) (e : Encoding) : (Call.assign i p c).leaves d i e =
      if o.isOpen p = true then e.leftover o p else e := by
  unfold Call.leaves
  simp only [ho, true_and]

theorem leaves_assign_of_ne {i j : Nat} (hij : i ≠ j) (p : Property) (c : Choice) (e : Encoding) :
    (Call.assign i p c).leaves d j e = e := by
  unfold Call.leaves
  cases d.origin.encodings[j]? with
  | none => rfl
  | some o => exact if_neg fun h => hij h.1

/-- A draft of which no encoding is changed. -/
theorem mapIdx_eq_self {f : Nat → Encoding → Encoding}
    (h : ∀ j e, d.encoding? j = some e → f j e = e) :
    { d with query := { d.query with encodings := d.query.encodings.mapIdx f } } = d := by
  have hsame : d.query.encodings.mapIdx f = d.query.encodings := by
    refine List.ext_getElem? fun j => ?_
    rw [List.getElem?_mapIdx]
    cases he : d.query.encodings[j]? with
    | none => rfl
    | some e => rw [Option.map_some, h j e he]
  rw [hsame]

/-- A slot that was built open has a name. -/
theorem Coherent.exists_slot (h : d.Coherent) {i : Nat} {p : Property} {o : Encoding}
    (ho : d.origin.encodings[i]? = some o) (hopen : o.isOpen p = true) :
    ∃ k, d.slots.slot? i p = some k := by
  have hsome := h.opened i p
  rw [ho, Option.any_some, hopen] at hsome
  exact Option.isSome_iff_exists.mp hsome

/-- A choice that is refused changes its encoding at most. -/
theorem assign_refused (h : d.Coherent) {i : Nat} {p : Property} {c : Choice}
    (hr : (d.assign i p c).2 ≠ none) :
    (d.assign i p c).1 = { d with query := { d.query with
      encodings := d.query.encodings.mapIdx ((Call.assign i p c).leaves d) } } := by
  rcases d.slotName_cases i p with ⟨s, e, hs, he⟩ | ⟨error, hn⟩
  · obtain ⟨o, ho⟩ := h.exists_origin he
    have hopen := h.isOpen hs ho
    have heq := assign_eq hs he ho c
    rw [heq] at hr ⊢
    rcases hc : e.choose o p c with ⟨after, _ | error⟩
    · rw [hc] at hr
      contradiction
    · obtain rfl : after = e.leftover o p := by
        have hleft := Encoding.choose_refused (h.kind_eq he ho) hopen (by rw [hc]; nofun)
        rwa [hc] at hleft
      refine congrArg (fun es => { d with query := { d.query with encodings := es } }) ?_
      refine List.ext_getElem? fun j => ?_
      rw [List.getElem?_set, List.getElem?_mapIdx]
      by_cases hij : i = j
      · subst hij
        rw [if_pos rfl, if_pos (List.getElem?_eq_some_iff.mp he).1,
          show d.query.encodings[i]? = some e from he, Option.map_some, leaves_assign ho, if_pos hopen]
      · rw [if_neg hij]
        cases d.query.encodings[j]? with
        | none => rfl
        | some f => rw [Option.map_some, leaves_assign_of_ne hij]
  · have hunchanged : (d.assign i p c).1 = d := by
      unfold Draft.assign
      rw [hn]
    rw [hunchanged]
    refine (mapIdx_eq_self fun j e he => ?_).symm
    by_cases hij : i = j
    · subst hij
      obtain ⟨o, ho⟩ := h.exists_origin he
      rw [leaves_assign ho, if_neg fun hopen => ?_]
      obtain ⟨s, hs⟩ := h.exists_slot ho hopen
      rw [slotName_eq hs he] at hn
      contradiction
    · exact leaves_assign_of_ne hij p c e

/-- A call that is refused changes the encoding for which it was made at most. -/
theorem apply_refused (h : d.Coherent) {call : Call} (hr : call.error? d ≠ none) :
    call.apply d = { d with query := { d.query with
      encodings := d.query.encodings.mapIdx (call.leaves d) } } := by
  cases call with
  | resetMark => contradiction
  | assign i p c => exact assign_refused h hr
  | setMark m =>
    have hleaves : ∀ j e, d.encoding? j = some e → (Call.setMark m).leaves d j e = e := by
      intro j e _
      unfold Call.leaves
      cases d.origin.encodings[j]? <;> rfl
    rw [mapIdx_eq_self hleaves]
    change (d.setMark m).2 ≠ none at hr
    change (d.setMark m).1 = d
    unfold Draft.setMark at hr ⊢
    split at hr
    · rfl
    · contradiction
  | reset i p =>
    have hleaves : ∀ j e, d.encoding? j = some e → (Call.reset i p).leaves d j e = e := by
      intro j e _
      unfold Call.leaves
      cases d.origin.encodings[j]? <;> rfl
    rw [mapIdx_eq_self hleaves]
    change (d.reset i p).2 ≠ none at hr
    change (d.reset i p).1 = d
    rcases d.slotName_cases i p with ⟨s, e, hs, he⟩ | ⟨error, hn⟩
    · obtain ⟨o, ho⟩ := h.exists_origin he
      rw [reset_eq hs he ho] at hr
      contradiction
    · unfold Draft.reset
      rw [hn]

/-! ## Nulls -/

/-- What neither choices nor their taking back end, no call ends, even if it is refused. -/
theorem Throughout.apply {P : Encoding → Prop} (h : d.Throughout P) (lasting : Encoding.Lasting P)
    (hd : d.Coherent) (call : Call) : (call.apply d).Throughout P := by
  cases call with
  | setMark m =>
    change (d.setMark m).1.Throughout P
    unfold Draft.setMark
    split
    · exact h
    · exact ⟨h.query, h.origin⟩
  | resetMark =>
    change d.resetMark.Throughout P
    unfold Draft.resetMark
    split
    · exact h
    · exact ⟨h.query, h.origin⟩
  | assign i p c =>
    change (d.assign i p c).1.Throughout P
    rcases d.slotName_cases i p with ⟨s, e, hs, he⟩ | ⟨error, hn⟩
    · obtain ⟨o, ho⟩ := hd.exists_origin he
      have hafter := lasting.choose p c (h.query e (List.mem_of_getElem? he))
        (h.origin o (List.mem_of_getElem? ho))
      have hput := h.putEncoding hafter i e
      rw [assign_eq hs he ho]
      rcases hc : e.choose o p c with ⟨after, _ | error⟩ <;> rw [hc] at hput <;>
        exact ⟨hput, h.origin⟩
    · unfold Draft.assign
      rw [hn]
      exact h
  | reset i p =>
    change (d.reset i p).1.Throughout P
    rcases d.slotName_cases i p with ⟨s, e, hs, he⟩ | ⟨error, hn⟩
    · obtain ⟨o, ho⟩ := hd.exists_origin he
      have hafter := lasting.restore e o p (h.query e (List.mem_of_getElem? he))
        (h.origin o (List.mem_of_getElem? ho))
      rw [reset_eq hs he ho]
      exact ⟨h.putEncoding hafter i e, h.origin⟩
    · unfold Draft.reset
      rw [hn]
      exact h

theorem Throughout.after {P : Encoding → Prop} (h : d.Throughout P) (lasting : Encoding.Lasting P)
    (hd : d.Coherent) (calls : List Call) : (d.after calls).Throughout P := by
  induction calls generalizing d with
  | nil => exact h
  | cons call rest ih => exact ih (h.apply lasting hd call) (((Derived.refl).apply call).coherent hd)

/-- Without nulls, a call that is refused changes nothing unless it puts back a part that was switched. -/
theorem apply_refused_eq_self_iff (h : d.Coherent) (free : d.NullFree) {call : Call}
    (hr : call.error? d ≠ none) : call.apply d = d ↔
      ∀ i p c, call = .assign i p c → p.holdsSettings = true → (d.nameAt? (.slot i p)).isSome = true →
        d.AsBuilt i p := by
  have heq := apply_refused h hr
  constructor
  · rintro hself i p c rfl hp hname e o he ho
    have hopen : o.isOpen p = true := by
      obtain ⟨k, hk⟩ : ∃ k, d.slots.slot? i p = some k := by
        simpa [nameAt?, Option.isSome_iff_exists] using hname
      exact h.isOpen hk ho
    have hi := congrArg (fun d' : Draft => d'.query.encodings[i]?) (heq.symm.trans hself)
    simp only [List.getElem?_mapIdx, show d.query.encodings[i]? = some e from he, Option.map_some,
      Option.some.injEq, leaves_assign ho, if_pos hopen] at hi
    rwa [Encoding.leftover, if_pos hp] at hi
  · intro hbuilt
    refine heq.trans (mapIdx_eq_self fun j e he => ?_)
    cases call with
    | assign i p c =>
      by_cases hij : i = j
      · subst hij
        obtain ⟨o, ho⟩ := h.exists_origin he
        rw [leaves_assign ho]
        split
        · next hopen =>
          unfold Encoding.leftover
          split
          · next hp =>
            obtain ⟨k, hk⟩ := h.exists_slot ho hopen
            exact hbuilt i p c rfl hp (by simp [nameAt?, hk]) e o he ho
          · split
            · exact e.withoutNulls_eq_self_iff.mpr (free e (List.mem_of_getElem? he))
            · rfl
        · rfl
      · exact leaves_assign_of_ne hij p c e
    | _ =>
      unfold Call.leaves
      cases d.origin.encodings[j]? <;> rfl

/-- After any calls on a built draft, and with any scores, a call that is refused leaves all as it was but
the encoding for which it was made, and what it leaves of that one is known. Where no scale of the query
has a null, nothing changes at all unless the call is for the switch of a part that is no longer as it was
built. -/
theorem refused_call {q : ChartQuery} {schema : Schema} {config : Config} {d₀ : Draft}
    (hbuild : build q schema config = .ok d₀) (calls : List Call) (scores : List (String × Score))
    (call : Call) :
    let d : Draft := { d₀.after calls with scores }
    call.error? d ≠ none →
      call.apply d = { d with query := { d.query with
        encodings := d.query.encodings.mapIdx (call.leaves d) } } ∧
      ((∀ e ∈ q.encodings, e.NullFree) →
        (call.apply d = d ↔ ∀ i p c, call = .assign i p c → p.holdsSettings = true →
          (d.nameAt? (.slot i p)).isSome = true → d.AsBuilt i p)) := by
  intro d hr
  have hbuilt := isBuilt_of_build hbuild
  have hafter : (d₀.after calls).Coherent := (derived_after d₀ calls).coherent hbuilt.coherent
  have hd : d.Coherent := hafter.congr rfl rfl rfl rfl hafter.recorded
  refine ⟨apply_refused hd hr, fun hfree => apply_refused_eq_self_iff hd ?_ hr⟩
  have hthroughout : d₀.Throughout Encoding.NullFree :=
    hbuilt.throughout (fun e he _ => (hfree e he).fill _) (.of_kind nofun)
  exact (hthroughout.after Encoding.lasting_nullFree hbuilt.coherent calls).query

/-- A bin that was switched on is open again after a number was refused for its switch, and still on
record: it holds settings and was not as it was built. -/
theorem refused_call_openBin :
    let refused : Call := .assign 0 .bin (.count 5)
    ∃ d₀, build openBin oneField {} = .ok d₀ ∧
      let d : Draft := { d₀.after [.assign 0 .bin (.flag true)] with scores := [] }
      refused.error? d ≠ none ∧ refused.apply d ≠ d ∧
        (refused.apply d).assignment = [("b0", .flag true)] ∧
        (refused.apply d).query.encodings = d₀.query.encodings ∧
        (refused.apply d = d ↔ ∀ i p c, refused = .assign i p c → p.holdsSettings = true →
          (d.nameAt? (.slot i p)).isSome = true → d.AsBuilt i p) := by
  intro refused
  obtain ⟨d₀, hd₀⟩ : ∃ d₀, build openBin oneField {} = .ok d₀ := ⟨_, rfl⟩
  have hrefused : refused.error? { d₀.after [.assign 0 .bin (.flag true)] with scores := [] } ≠ none := by
    cases hd₀
    decide
  obtain ⟨heq, hiff⟩ := refused_call hd₀ [.assign 0 .bin (.flag true)] [] refused hrefused
  refine ⟨d₀, hd₀, hrefused, fun h => ?_, ?_, ?_, hiff nullFree_openBin⟩
  · have hopen := congrArg (fun d : Draft => d.query.encodings.map (·.isOpen .bin)) (heq.symm.trans h)
    cases hd₀
    exact absurd hopen (by decide)
  · rw [heq]
    cases hd₀
    decide
  · rw [heq]
    cases hd₀
    decide

/-- It is not so that a call that is refused changes nothing. -/
theorem refused_call_changes : ¬ ∀ (q : ChartQuery) (schema : Schema) (config : Config) (d₀ : Draft),
    build q schema config = .ok d₀ → ∀ (calls : List Call) (call : Call),
      call.error? (d₀.after calls) ≠ none →
        (call.apply (d₀.after calls)).query = (d₀.after calls).query ∧
        (call.apply (d₀.after calls)).assignment = (d₀.after calls).assignment ∧
        (∀ c, (call.apply (d₀.after calls)).channelUsed c = (d₀.after calls).channelUsed c) ∧
        (call.apply (d₀.after calls)).scores = (d₀.after calls).scores := by
  intro h
  obtain ⟨d₀, hd₀⟩ : ∃ d₀, build openBin oneField {} = .ok d₀ := ⟨_, rfl⟩
  have hsame := (h openBin oneField {} d₀ hd₀ [.assign 0 .bin (.flag true)]
    (.assign 0 .bin (.count 5)) (by cases hd₀; decide)).1
  have hopen := congrArg (fun q => q.encodings.map (·.isOpen .bin)) hsame
  cases hd₀
  exact absurd hopen (by decide)

end Draft
end ChartAdvisor
