import ChartAdvisor.Proofs.Draft.Progress
import ChartAdvisor.Proofs.Draft.Refusing

/-!
# What is on record

A draft keeps the choices that were made on record, each under the name of its slot. A choice stays on
record until another one is made for the slot, or it is taken back there. It stays when the part in which
the slot lies is switched or put back, too, although that opens the slot again or takes it away. So the
record tells of every choice whether it still stands, if one knows what has been done since.
-/
namespace ChartAdvisor

/-! ## Held values -/

/-- A choice as the slots of a property take it. -/
def Property.read? (c : Choice) : Property → Option Choice
  | .mark => (ofChoice? c : Option Mark).map toChoice
  | .channel => (ofChoice? c : Option Channel).map toChoice
  | .aggregate => (ofChoice? c : Option (Option Aggregate)).map toChoice
  | .timeUnit => (ofChoice? c : Option (Option TimeUnit)).map toChoice
  | .field => (ofChoice? c : Option String).map toChoice
  | .type => (ofChoice? c : Option FieldType).map toChoice
  | .sort => (ofChoice? c : Option Sorting).map toChoice
  | .autoCount | .bin | .scale | .axis | .legend => (ofChoice? c : Option Bool).map toChoice
  | .maxBins => (ofChoice? c : Option UInt32).map toChoice
  | .scaleOf part => (ofChoice? c : Option part.Value).map toChoice
  | .transform | .stack | .hasFunction => none

namespace Encoding

/-- The value that a slot holds, if it is not open. A part that is not there is switched off, and a
domain or a range that is not there is `null` as long as there is a scale. -/
def held? (e : Encoding) (p : Property) : Option Choice :=
  match e.standing p with
  | .decided c => some c
  | .undecided => none
  | .absent =>
    match p with
    | .bin | .scale | .axis | .legend => some (.flag false)
    | .scaleOf .domain | .scaleOf .range =>
      if e.standing .scale = .absent then none else some (.json .null)
    | _ => none

theorem held?_congr {e f : Encoding} {p : Property} (h : e.standing p = f.standing p)
    (hparent : ∀ r ∈ p.parent?, e.standing r = f.standing r) : e.held? p = f.held? p := by
  unfold held?
  rw [h]
  cases f.standing p with
  | decided | undecided => rfl
  | absent =>
    cases p with
    | scaleOf part => cases part <;> first | rfl | simp only [hparent .scale rfl]
    | _ => rfl

/-- What lies in a part and is open holds no value, nor does what is gone with the part. -/
theorem held?_eq_none {e : Encoding} {p r : Property} (hr : p.parent? = some r)
    (h : e.standing p = .undecided ∨ (e.standing p = .absent ∧ e.standing r = .absent)) :
    e.held? p = none := by
  unfold held?
  rcases h with h | ⟨h, hgone⟩
  · rw [h]
  · rw [h]
    cases p with
    | maxBins => rfl
    | scaleOf part =>
      obtain rfl : Property.scale = r := Option.some.inj hr
      cases part <;> first | rfl | exact if_pos hgone
    | _ => contradiction

end Encoding

/-- A choice that is taken is one of the values of the slot, and the part in which that lies is there. -/
theorem FieldEncoding.read?_of_assign {q : FieldEncoding} {p : Property} {c : Choice}
    (h : (q.assign p c).2 = none) :
    (p.read? c).isSome = true ∧ ∀ r ∈ p.parent?, q.standing r ≠ .absent := by
  cases p with
  | channel | aggregate | timeUnit | field | type | sort | bin =>
    obtain ⟨v, hv, -⟩ := settle_eq_none h
    exact ⟨by simp [Property.read?, hv], nofun⟩
  | scale | axis | legend =>
    obtain ⟨b, rfl, -⟩ := settleToggle_eq_none h
    exact ⟨rfl, nofun⟩
  | maxBins =>
    rw [assign_maxBins] at h
    by_cases hbin : q.bin?.isSome = true
    · rw [if_pos hbin] at h
      obtain ⟨v, hv, -⟩ := settle_eq_none h
      refine ⟨by simp [Property.read?, hv], fun r hr => ?_⟩
      obtain rfl : Property.bin = r := Option.some.inj hr
      rwa [bin?_isSome_eq, bne_iff_ne] at hbin
    · rw [if_neg hbin] at h
      contradiction
  | scaleOf part =>
    rw [assign_scaleOf] at h
    by_cases hscale : q.scale?.isSome = true
    · rw [if_pos hscale] at h
      cases hv : (ofChoice? c : Option part.Value) with
      | none => simp [hv] at h
      | some v =>
        refine ⟨by simp [Property.read?, hv], fun r hr => ?_⟩
        obtain rfl : Property.scale = r := Option.some.inj hr
        rwa [scale?_isSome_eq, bne_iff_ne] at hscale
    · rw [if_neg hscale] at h
      contradiction
  | _ => contradiction

namespace Encoding

theorem read?_of_assign {e : Encoding} {p : Property} {c : Choice} (h : (e.assign p c).2 = none) :
    (p.read? c).isSome = true ∧ ∀ r ∈ p.parent?, e.standing r ≠ .absent := by
  cases e with
  | field q =>
    rw [assign_field] at h
    exact FieldEncoding.read?_of_assign h
  | value ch v =>
    cases p <;> simp only [assign, reduceCtorEq] at h
    split at h
    · next v hv => exact ⟨by simp [Property.read?, hv], fun _ hr => absurd hr (Option.not_mem_none _)⟩
    · contradiction
  | autoCount ch b =>
    cases p <;> simp only [assign, reduceCtorEq] at h <;>
    · split at h
      · next v hv => exact ⟨by simp [Property.read?, hv], fun _ hr => absurd hr (Option.not_mem_none _)⟩
      · contradiction

/-- A slot holds the value that was chosen for it. -/
theorem held?_choose {e o : Encoding} {p : Property} {c : Choice} (hk : e.kind = o.kind)
    (h : (e.choose o p c).2 = none) :
    (p.read? c).isSome = true ∧ (e.choose o p c).1.held? p = p.read? c := by
  obtain ⟨hread, hparent⟩ := read?_of_assign h
  refine ⟨hread, ?_⟩
  have hstanding := standing_choose h
  unfold held?
  rw [hstanding]
  cases p with
  | channel | aggregate | autoCount | timeUnit | field | type | sort | maxBins =>
    obtain ⟨v, hv⟩ := Option.isSome_iff_exists.mp (Option.isSome_map ▸ hread)
    simp only [Property.standingFor, FieldEncoding.reading_of_some hv, Slot.standing_fixed,
      Property.read?, hv, Option.map_some]
  | bin | scale | axis | legend =>
    obtain ⟨b, hb⟩ := Option.isSome_iff_exists.mp (Option.isSome_map ▸ hread)
    cases c with
    | flag b => cases b <;> rfl
    | _ => contradiction
  | scaleOf part =>
    obtain ⟨v, hv⟩ := Option.isSome_iff_exists.mp (Option.isSome_map ▸ hread)
    have hscale : (e.choose o (.scaleOf part) c).1.standing .scale ≠ .absent := by
      rw [standing_choose_of_ne hk (by simp) (by simp [Property.parent?])]
      exact hparent .scale rfl
    simp only [Property.standingFor, FieldEncoding.reading_of_some hv, Property.read?, hv,
      Option.map_some, Standing.ofSlot]
    by_cases hnull : toChoice v = .json .null
    · rw [hnull]
      cases part <;> first | contradiction | exact if_neg hscale
    · rw [Standing.ofChoice_of_ne hnull]
  | mark => cases e <;> contradiction
  | _ => contradiction

/-- A part that is put back and what lies in it stand as they were built. -/
theorem standing_restore_part {e o : Encoding} {p r : Property} (hk : e.kind = o.kind)
    (hr : r.holdsSettings = true) (h : p = r ∨ p.parent? = some r) :
    (e.restore o r).standing p = o.standing p := by
  cases o with
  | field o =>
    cases e <;> first | contradiction | skip
    rw [restore_field]
    rcases h with rfl | h
    · cases p <;> first | contradiction | rfl
    · cases p <;> cases h <;> rfl
  | value | autoCount =>
    cases e <;> first | contradiction | skip
    rcases h with rfl | h
    · cases p <;> first | contradiction | rfl
    · cases p <;> cases h <;> rfl

end Encoding

/-! ## Calls -/

/-- The spot of the part in which a spot lies. -/
def Spot.parent? : Spot → Option Spot
  | .mark => none
  | .slot i p => p.parent?.map (.slot i)

namespace Draft

/-- The spot that a call is about. -/
def Call.spot : Call → Spot
  | setMark _ | resetMark => .mark
  | assign i p _ | reset i p => .slot i p

/-- What a call chooses, if it does not take a choice back. -/
def Call.choice? : Call → Option Choice
  | setMark m => some (.mark m)
  | assign _ _ c => some c
  | resetMark | reset .. => none

/-- The draft after a call that succeeds. -/
def run? (d : Draft) (call : Call) : Option Draft :=
  match call.error? d with
  | none => some (call.apply d)
  | some _ => none

/-- The draft after calls that all succeed. -/
def runEach? (d : Draft) (calls : List Call) : Option Draft := calls.foldlM run? d

/-- A spot is not open and holds a choice. -/
def Holds (d : Draft) (s : Spot) (c : Choice) : Prop :=
  match s with
  | .mark => ∃ m, c = .mark m ∧ d.query.mark = .fixed m
  | .slot i p => ∃ e, d.encoding? i = some e ∧ e.isOpen p = false ∧
    ∃ v, p.read? c = some v ∧ e.held? p = some v

/-- A spot lies in a part, and is open again, or gone with the part. -/
def Lost (d : Draft) (s : Spot) : Prop :=
  match s with
  | .mark => False
  | .slot i p => ∃ e r, d.encoding? i = some e ∧ p.parent? = some r ∧
    (e.standing p = .undecided ∨ (e.standing p = .absent ∧ e.standing r = .absent))

variable {d d' : Draft} {s : Spot} {c : Choice} {call : Call}

/-- What is lost is held no more. -/
theorem Lost.not_holds (h : d.Lost s) : ¬d.Holds s c := by
  cases s with
  | mark => exact h.elim
  | slot i p =>
    obtain ⟨e, r, he, hr, hlost⟩ := h
    rintro ⟨e', he', -, v, -, hv⟩
    obtain rfl := Option.some.inj (he.symm.trans he')
    rw [Encoding.held?_eq_none hr hlost] at hv
    contradiction

/-- A call that succeeds chooses a value at its spot or takes a choice back there. -/
theorem run?_eq_some (h : d.run? call = some d') :
    (∃ c, call.choice? = some c ∧ (d.chooseAt call.spot c).2 = none ∧
        d' = (d.chooseAt call.spot c).1) ∨
      (call.choice? = none ∧ (d.reopenAt call.spot).2 = none ∧ d' = (d.reopenAt call.spot).1) := by
  unfold run? at h
  cases hn : call.error? d with
  | some error => rw [hn] at h; contradiction
  | none =>
    rw [hn] at h
    obtain rfl := Option.some.inj h
    cases call with
    | setMark m => exact .inl ⟨.mark m, rfl, hn, rfl⟩
    | resetMark => exact .inr ⟨rfl, rfl, rfl⟩
    | assign i p c => exact .inl ⟨c, rfl, hn, rfl⟩
    | reset i p => exact .inr ⟨rfl, hn, rfl⟩

theorem Coherent.run? (hd : d.Coherent) (h : d.run? call = some d') : d'.Coherent := by
  rcases run?_eq_some h with ⟨c, -, -, rfl⟩ | ⟨-, -, rfl⟩
  · exact hd.chooseAt _ c
  · exact hd.reopenAt _

theorem alikeApart_run? (hd : d.Coherent) (h : d.run? call = some d') : d.AlikeApart call.spot d' := by
  rcases run?_eq_some h with ⟨c, -, hn, rfl⟩ | ⟨-, hn, rfl⟩
  · exact alikeApart_chooseAt hd hn
  · exact alikeApart_reopenAt hd hn

/-- A spot holds the value that was chosen there. -/
theorem holds_chooseAt (hd : d.Coherent) (hn : (d.chooseAt s c).2 = none) :
    (d.chooseAt s c).1.Holds s c := by
  cases s with
  | mark =>
    obtain ⟨m, k, rfl, -, heq⟩ := chooseAt_mark_eq_none hn
    rw [heq]
    exact ⟨m, rfl, rfl⟩
  | slot i p =>
    obtain ⟨e, o, -, -, hk, htaken, hafter⟩ := encoding_chooseAt hd hn
    obtain ⟨hread, hheld⟩ := Encoding.held?_choose hk htaken
    obtain ⟨v, hv⟩ := Option.isSome_iff_exists.mp hread
    refine ⟨_, hafter, ?_, v, hv, hheld.trans hv⟩
    rw [Encoding.isOpen_eq, Encoding.standing_choose htaken, beq_eq_false_iff_ne]
    exact p.standingFor_ne_undecided c

/-! ## What a call does to other spots -/

section Elsewhere

variable (hd : d.Coherent) (h : d.run? call = some d') (hne : call.spot ≠ s)
include hd h hne

/-- A slot in a part stands as it did before a call for neither of the two, and so does the part. -/
theorem standing_run? {i : Nat} {p : Property} (hs : s = .slot i p) (hparent : s.parent? ≠ some call.spot)
    {e : Encoding} (he : d.encoding? i = some e) : ∃ e', d'.encoding? i = some e' ∧
      e'.standing p = e.standing p ∧ ∀ r ∈ p.parent?, e'.standing r = e.standing r := by
  subst hs
  have hap := alikeApart_run? hd h
  have hp (q : Property) (hq : call.spot = .slot i q) : p.parent? ≠ some q := by
    rintro hr
    exact hparent (by rw [hq, Spot.parent?, hr, Option.map_some])
  obtain ⟨e', he', hstanding⟩ := hap.symm.standing_of_ne hne hp he
  refine ⟨e', he', hstanding, fun r hr => ?_⟩
  have htop (q : Property) (_ : call.spot = .slot i q) : r.parent? ≠ some q := by
    rw [Property.parent?_parent? hr]
    nofun
  have hspot : call.spot ≠ .slot i r := fun hcall => hp r hcall hr
  obtain ⟨e'', he'', hr'⟩ := hap.symm.standing_of_ne hspot htop he
  rwa [← Option.some.inj (he'.symm.trans he'')] at hr'

/-- What a spot holds it holds after a call for neither it nor its part. -/
theorem Holds.run? (hparent : s.parent? ≠ some call.spot) (hs : d.Holds s c) : d'.Holds s c := by
  cases s with
  | mark =>
    obtain ⟨m, rfl, hm⟩ := hs
    exact ⟨m, rfl, ((alikeApart_run? hd h).mark hne).symm.trans hm⟩
  | slot i p =>
    obtain ⟨e, he, hopen, v, hv, hheld⟩ := hs
    obtain ⟨e', he', hstanding, hr⟩ := standing_run? hd h hne rfl hparent he
    refine ⟨e', he', ?_, v, hv, (Encoding.held?_congr hstanding hr).trans hheld⟩
    rwa [Encoding.isOpen_eq, hstanding, ← Encoding.isOpen_eq]

theorem Lost.run? (hparent : s.parent? ≠ some call.spot) (hs : d.Lost s) : d'.Lost s := by
  cases s with
  | mark => exact hs
  | slot i p =>
    obtain ⟨e, r, he, hr, hlost⟩ := hs
    obtain ⟨e', he', hstanding, hpart⟩ := standing_run? hd h hne rfl hparent he
    exact ⟨e', r, he', hr, by rwa [hstanding, hpart r hr]⟩

omit hne in
/-- A call for a part takes what lies in it away or opens it. -/
theorem lost_run? (hname : (d.nameAt? s).isSome = true) (hparent : s.parent? = some call.spot) :
    d'.Lost s := by
  cases s with
  | mark => contradiction
  | slot i p =>
    obtain ⟨r, hr, hspot⟩ := Option.map_eq_some_iff.mp hparent
    have hholds : r.holdsSettings = true := by cases p <;> cases hr <;> rfl
    obtain ⟨k, hk⟩ : ∃ k, d.slots.slot? i p = some k := by
      simpa [nameAt?, Option.isSome_iff_exists] using hname
    rcases run?_eq_some h with ⟨c, -, hn, rfl⟩ | ⟨-, hn, rfl⟩
    · rw [← hspot] at hn ⊢
      obtain ⟨e, o, -, ho, hkind, htaken, hafter⟩ := encoding_chooseAt hd hn
      refine ⟨_, r, hafter, hr, ?_⟩
      rw [Encoding.standing_choose_child hkind hr htaken, Encoding.standing_choose htaken]
      have hopen := (o.isOpen_iff p).mp (hd.isOpen hk ho)
      by_cases hc : c = .flag true
      · rw [if_pos hc]
        exact .inl hopen
      · have hswitch : r.standingFor c = .absent := by
          cases p <;> cases hr <;> exact if_neg hc
        rw [if_neg hc]
        exact .inr ⟨rfl, hswitch⟩
    · rw [← hspot] at hn ⊢
      obtain ⟨e, o, -, ho, hkind, -, hafter⟩ := encoding_reopenAt hd hn
      refine ⟨_, r, hafter, hr, .inl ?_⟩
      rw [Encoding.standing_restore_part hkind hholds (.inr hr)]
      exact (o.isOpen_iff p).mp (hd.isOpen hk ho)

end Elsewhere

/-! ## Runs -/

theorem runEach?_concat (d : Draft) (calls : List Call) (call : Call) :
    d.runEach? (calls ++ [call]) = (d.runEach? calls).bind fun e => e.run? call := by
  unfold runEach?
  rw [List.foldlM_append]
  cases calls.foldlM run? d with
  | none => rfl
  | some e =>
    change [call].foldlM run? e = e.run? call
    cases hrun : e.run? call <;> simp [hrun]

theorem Coherent.runEach? (hd : d.Coherent) {calls : List Call} (h : d.runEach? calls = some d') :
    d'.Coherent := by
  induction calls using List.reverseRecOn generalizing d' with
  | nil =>
    obtain rfl := Option.some.inj h
    exact hd
  | append_singleton calls call ih =>
    rw [runEach?_concat] at h
    obtain ⟨e, he, hcall⟩ := Option.bind_eq_some_iff.mp h
    exact (ih he).run? hcall

/-- What is on record under a name that a call does not use was on record before it. -/
theorem lookup_run? (hd : d.Coherent) (h : d.run? call = some d') {n : String}
    (hn : n ∉ d.nameAt? call.spot) : d'.assignment.lookup n = d.assignment.lookup n := by
  rcases run?_eq_some h with ⟨c, -, htaken, rfl⟩ | ⟨-, htaken, rfl⟩
  · exact lookup_chooseAt hd htaken hn
  · exact lookup_reopenAt hd htaken hn

/-- What is on record under the name that a call uses was chosen by that call. -/
theorem choice?_of_lookup (hd : d.Coherent) (h : d.run? call = some d') {n : String}
    (hn : n ∈ d.nameAt? call.spot) (hc : d'.assignment.lookup n = some c) :
    call.choice? = some c ∧ d'.Holds call.spot c := by
  rcases run?_eq_some h with ⟨c', hchoice, htaken, rfl⟩ | ⟨-, htaken, rfl⟩
  · rw [lookup_chooseAt_self hd htaken hn] at hc
    obtain rfl := Option.some.inj hc
    exact ⟨hchoice, holds_chooseAt hd htaken⟩
  · rw [lookup_reopenAt_self hd htaken hn] at hc
    contradiction

/-- A choice on record: where it was made, by which call, what has been called since, and what has become
of it. -/
structure Traced (d : Draft) (calls : List Call) (n : String) (c : Choice) (s : Spot)
    (rest : List Call) : Prop where
  name : n ∈ d.nameAt? s
  made : ∃ before call, calls = before ++ call :: rest ∧ call.spot = s ∧ call.choice? = some c
  last : ∀ later ∈ rest, later.spot ≠ s
  stands : (∀ later ∈ rest, s.parent? ≠ some later.spot) → d.Holds s c
  lost : ¬(∀ later ∈ rest, s.parent? ≠ some later.spot) → d.Lost s

/-- A choice stays on record through a call elsewhere. -/
theorem Traced.run? {calls rest : List Call} {n : String} (hr : Traced d calls n c s rest)
    (hd : d.Coherent) (h : d.run? call = some d') (hne : call.spot ≠ s) :
    Traced d' (calls ++ [call]) n c s (rest ++ [call]) where
  name := by rw [← (alikeApart_run? hd h).nameAt?_eq]; exact hr.name
  made := by
    obtain ⟨before, made, rfl, hmade⟩ := hr.made
    exact ⟨before, made, by rw [List.append_assoc, List.cons_append], hmade⟩
  last later hlater := by
    rcases List.mem_append.mp hlater with hlater | hlater
    · exact hr.last later hlater
    · exact List.mem_singleton.mp hlater ▸ hne
  stands hparents := by
    have hbefore := hr.stands fun later hlater => hparents later (List.mem_append_left _ hlater)
    exact hbefore.run? hd h hne (hparents call (List.mem_append_right _ (List.mem_singleton_self _)))
  lost hparents := by
    by_cases hcall : s.parent? = some call.spot
    · exact lost_run? hd h (Option.isSome_of_mem hr.name) hcall
    · refine (hr.lost fun hall => hparents fun later hlater => ?_).run? hd h hne hcall
      rcases List.mem_append.mp hlater with hlater | hlater
      · exact hall later hlater
      · exact List.mem_singleton.mp hlater ▸ hcall

/-- Every choice on record has been made by the last call for its spot. -/
theorem exists_traced {d₀ : Draft} (hd : d₀.Coherent) (hempty : d₀.assignment = [])
    {calls : List Call} (h : d₀.runEach? calls = some d) {n : String}
    (hc : d.assignment.lookup n = some c) : ∃ s rest, Traced d calls n c s rest := by
  induction calls using List.reverseRecOn generalizing d with
  | nil =>
    obtain rfl := Option.some.inj h
    rw [hempty] at hc
    contradiction
  | append_singleton calls call ih =>
    rw [runEach?_concat] at h
    obtain ⟨e, he, hcall⟩ := Option.bind_eq_some_iff.mp h
    have hcoherent := hd.runEach? he
    by_cases hn : n ∈ e.nameAt? call.spot
    · obtain ⟨hchoice, hholds⟩ := choice?_of_lookup hcoherent hcall hn hc
      have hnone {P : Call → Prop} : ∀ later ∈ ([] : List Call), P later :=
        fun _ hlater => absurd hlater List.not_mem_nil
      refine ⟨call.spot, [], ?_, ⟨calls, call, rfl, rfl, hchoice⟩, hnone, fun _ => hholds,
        fun hlost => absurd hnone hlost⟩
      rwa [← (alikeApart_run? hcoherent hcall).nameAt?_eq]
    · rw [lookup_run? hcoherent hcall hn] at hc
      obtain ⟨s, rest, hr⟩ := ih he hc
      exact ⟨s, rest ++ [call], hr.run? hcoherent hcall fun hs => hn (hs ▸ hr.name)⟩

/-- Whatever calls succeed on a built draft, each choice on record was made by the last call for its slot.
The slot is not open and holds it if and only if there has been no call since for the part in which the
slot lies; otherwise the slot is open again, or gone with the part. -/
theorem entry_holds_iff {q : ChartQuery} {schema : Schema} {config : Config} {d₀ : Draft}
    (hbuild : build q schema config = .ok d₀) {calls : List Call} (h : d₀.runEach? calls = some d)
    {n : String} (hc : (n, c) ∈ d.assignment) :
    ∃ s, n ∈ d.nameAt? s ∧ ∃ before call rest, calls = before ++ call :: rest ∧
      call.spot = s ∧ call.choice? = some c ∧ (∀ later ∈ rest, later.spot ≠ s) ∧
      (d.Holds s c ↔ ∀ later ∈ rest, s.parent? ≠ some later.spot) ∧ (d.Holds s c ∨ d.Lost s) := by
  have hbuilt := isBuilt_of_build hbuild
  have hcoherent := hbuilt.coherent.runEach? h
  obtain ⟨s, rest, hr⟩ := exists_traced hbuilt.coherent hbuilt.assignment_eq h
    (hcoherent.recorded.lookup_of_mem hc)
  obtain ⟨before, call, hcalls, hspot, hchoice⟩ := hr.made
  refine ⟨s, hr.name, before, call, rest, hcalls, hspot, hchoice, hr.last,
    ⟨fun hholds => ?_, hr.stands⟩, ?_⟩
  · by_contra hlost
    exact (hr.lost hlost).not_holds hholds
  · by_cases hall : ∀ later ∈ rest, s.parent? ≠ some later.spot
    · exact .inl (hr.stands hall)
    · exact .inr (hr.lost hall)

/-- The switch of a bin, its number of bins, and the switch again. -/
def rebinning : List Call :=
  [.assign 0 .bin (.flag true), .assign 0 .maxBins (.count 5), .assign 0 .bin (.flag true)]

/-- The switch that was set last is held; the number of bins is lost, and on record all the same. -/
theorem entry_holds_iff_openBin :
    ∃ d₀ d, build openBin oneField {} = .ok d₀ ∧ d₀.runEach? rebinning = some d ∧
      d.assignment = [("b0", .flag true), ("mb0", .count 5)] ∧
      d.Holds (.slot 0 .bin) (.flag true) ∧ d.Lost (.slot 0 .maxBins) := by
  obtain ⟨d₀, hd₀⟩ : ∃ d₀, build openBin oneField {} = .ok d₀ := ⟨_, rfl⟩
  obtain ⟨d, hd⟩ : ∃ d, d₀.runEach? rebinning = some d :=
    Option.isSome_iff_exists.mp (by cases hd₀; decide)
  have hrecord : d.assignment = [("b0", .flag true), ("mb0", .count 5)] := by
    have hsome : (d₀.runEach? rebinning).map assignment =
        some [("b0", .flag true), ("mb0", .count 5)] := by
      cases hd₀
      decide
    rw [hd] at hsome
    exact Option.some.inj hsome
  have hcoherent := (isBuilt_of_build hd₀).coherent.runEach? hd
  have hnames : d.nameAt? (.slot 0 .bin) = some "b0" ∧ d.nameAt? (.slot 0 .maxBins) = some "mb0" := by
    have hslots : (d₀.runEach? rebinning).map (fun d => (d.nameAt? (.slot 0 .bin),
        d.nameAt? (.slot 0 .maxBins))) = some (some "b0", some "mb0") := by
      cases hd₀
      decide
    rw [hd] at hslots
    exact Prod.mk.inj (Option.some.inj hslots)
  refine ⟨d₀, d, hd₀, hd, hrecord, ?_, ?_⟩
  · obtain ⟨s, hs, _, _, _, -, -, -, -, hholds, -⟩ :=
      entry_holds_iff hd₀ hd (n := "b0") (c := .flag true) (by simp [hrecord])
    obtain rfl := hcoherent.eq_of_nameAt? hs hnames.1
    exact hholds.mpr fun _ _ => by simp [Spot.parent?, Property.parent?]
  · obtain ⟨s, hs, before, call, rest, hcalls, hspot, -, -, hholds, hlost⟩ :=
      entry_holds_iff hd₀ hd (n := "mb0") (c := .count 5) (by simp [hrecord])
    obtain rfl := hcoherent.eq_of_nameAt? hs hnames.2
    refine hlost.resolve_left fun h => ?_
    -- The switch is set once more after the number of bins.
    have hlast : Call.assign 0 .bin (.flag true) ∈ rest := by
      rcases before with _ | ⟨a, _ | ⟨b, _ | ⟨c, before⟩⟩⟩ <;> simp [rebinning] at hcalls
      · exact absurd (hcalls.1 ▸ hspot) (by decide)
      · simp [← hcalls.2.2]
      · exact absurd (hcalls.2.2.1 ▸ hspot) (by decide)
    exact hholds.mp h _ hlast rfl

/-- It is not so that what is on record is always held. -/
theorem entry_not_held : ¬ ∀ (q : ChartQuery) (schema : Schema) (config : Config) (d₀ : Draft),
    build q schema config = .ok d₀ → ∀ (calls : List Call) (d : Draft), d₀.runEach? calls = some d →
      ∀ n c, (n, c) ∈ d.assignment → ∃ s, n ∈ d.nameAt? s ∧ d.Holds s c := by
  intro h
  obtain ⟨d₀, hd₀⟩ : ∃ d₀, build openBin oneField {} = .ok d₀ := ⟨_, rfl⟩
  obtain ⟨d, hd⟩ : ∃ d, d₀.runEach? rebinning = some d :=
    Option.isSome_iff_exists.mp (by cases hd₀; decide)
  have hread : (d₀.runEach? rebinning).map (fun d => (d.assignment, d.nameAt? (.slot 0 .maxBins),
      (d.encoding? 0).map (·.isOpen .maxBins))) =
      some ([("b0", .flag true), ("mb0", .count 5)], some "mb0", some true) := by
    cases hd₀
    decide
  rw [hd] at hread
  obtain ⟨hrecord, hread⟩ := Prod.mk.inj (Option.some.inj hread)
  obtain ⟨hname, hopen⟩ := Prod.mk.inj hread
  obtain ⟨s, hs, hholds⟩ := h openBin oneField {} d₀ hd₀ rebinning d hd "mb0" (.count 5)
    (by simp [hrecord])
  obtain rfl := ((isBuilt_of_build hd₀).coherent.runEach? hd).eq_of_nameAt? hs hname
  obtain ⟨e, he, hclosed, -⟩ := hholds
  rw [he, Option.map_some, Option.some.injEq, hclosed] at hopen
  contradiction

end Draft
end ChartAdvisor
