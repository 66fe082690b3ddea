import ChartAdvisor.Proofs.Search.Blame
import ChartAdvisor.Proofs.Search.Lasting
import ChartAdvisor.Proofs.Search.Resolution
import ChartAdvisor.Proofs.Shorthand.Resolved

/-!
# Charts that are found read back

The fields and the bins of a chart that is found are those of the query, so that nothing in them cuts
its shorthand. It reads back, and what is read is written as it was, apart from the stack: that is not
read but told anew, without the settings of the query.
-/
namespace ChartAdvisor

namespace Draft

/-- Styling changes nothing but scales. -/
theorem stylable_throughout {P : Encoding → Prop} (schema : Schema)
    (hP : ∀ q f, P (.field q) → P (.field (withScale q f))) :
    Stylable schema (fun d => ∀ e ∈ d.query.encodings, P e) fun _ => True where
  put h hi f _ := by
    intro e he
    rcases List.mem_or_eq_of_mem_set he with he | rfl
    · exact h e he
    · exact hP _ f (h _ (List.mem_of_getElem? hi))
  counts _ _ _ := trivial

end Draft

/-! ## Bins -/

theorem Bin.isPlain_empty : ({} : Bin).IsPlain := by
  intro p s h
  cases p <;> contradiction

/-- The number of bins is no text, and the wildcard for it has no quote in it. -/
theorem Bin.IsPlain.withMaxbins {b : Bin} (h : b.IsPlain) (maxbins : Option (Slot UInt32)) :
    ({ b with maxbins } : Bin).IsPlain := by
  intro p s hs
  cases p with
  | maxbins =>
    obtain ⟨m, -, hm⟩ := Option.map_eq_some_iff.mp hs
    cases m with
    | fixed n => contradiction
    | wild w =>
      have hjson : w.toJson = .text s := hm
      unfold Wildcard.toJson at hjson
      split at hjson
      · obtain rfl := Json.text.inj hjson
        decide
      · contradiction
  | extent => exact h .extent s hs
  | base => exact h .base s hs
  | step => exact h .step s hs
  | steps => exact h .steps s hs
  | minstep => exact h .minstep s hs
  | divide => exact h .divide s hs

namespace FieldEncoding

variable {q o : FieldEncoding} (h : ∀ b, q.bin? = some b → b.IsPlain)
include h

theorem isPlain_bin_assign (p : Property) (c : Choice) :
    ∀ b, (q.assign p c).1.bin? = some b → b.IsPlain := by
  intro b hb
  cases p with
  | bin =>
    simp only [assign, settle] at hb
    split at hb
    · next v _ =>
      cases v with
      | false => contradiction
      | true =>
        obtain rfl : ((q.bin.getD .off).inner?.getD Settings.none) = b := Option.some.inj hb
        rcases hq : q.bin with _ | _ | b | ⟨w, b⟩
        · exact Bin.isPlain_empty
        · exact Bin.isPlain_empty
        · exact h b (by rw [bin?, hq]; rfl)
        · exact h b (by rw [bin?, hq]; rfl)
    · exact h b hb
  | maxBins =>
    simp only [assign, settle] at hb
    split at hb
    · split at hb
      · rw [bin?, Toggle.bind_inner?_map_mapInner] at hb
        obtain ⟨b', hb', rfl⟩ := Option.map_eq_some_iff.mp hb
        exact (h b' hb').withMaxbins _
      · exact h b hb
    · exact h b hb
  | scaleOf part =>
    simp only [assign] at hb
    split at hb <;> exact h b hb
  | scale | axis | legend =>
    simp only [assign, settleToggle] at hb
    split at hb <;> exact h b hb
  | channel | aggregate | timeUnit | field | type | sort =>
    simp only [assign, settle] at hb
    split at hb <;> exact h b hb
  | _ => exact h b hb

theorem isPlain_bin_restore (ho : ∀ b, o.bin? = some b → b.IsPlain) (p : Property) :
    ∀ b, (q.restore o p).bin? = some b → b.IsPlain := by
  intro b hb
  cases p with
  | bin => exact ho b hb
  | maxBins =>
    rw [restore, bin?, Toggle.bind_inner?_map_mapInner] at hb
    obtain ⟨b', hb', rfl⟩ := Option.map_eq_some_iff.mp hb
    exact (h b' hb').withMaxbins _
  | scaleOf part =>
    simp only [restore] at hb
    split at hb <;> exact h b hb
  | _ => exact h b hb

theorem isPlain_bin_fill (f : Filling) : ∀ b, (f.field q).1.bin? = some b → b.IsPlain := by
  intro b hb
  have hbin : (f.field q).1.bin? = q.bin?.map fun b => (f.bin b).1 := by
    simp only [bin?, Filling.field, Filling.inner?_toggle, Filling.inner?_filter_isPresent]
  rw [hbin] at hb
  obtain ⟨b', hb', rfl⟩ := Option.map_eq_some_iff.mp hb
  exact (h b' hb').withMaxbins _

end FieldEncoding

/-- The bin of a field is plain, if it has one. -/
def Encoding.HasPlainBin : Encoding → Prop
  | field q => ∀ b, q.bin? = some b → b.IsPlain
  | _ => True

theorem Encoding.lasting_hasPlainBin : Lasting HasPlainBin where
  assign e p c h := by
    cases e with
    | field q =>
      rw [assign_field]
      exact FieldEncoding.isPlain_bin_assign h p c
    | value | autoCount => cases p <;> simp only [Encoding.assign] <;> first | trivial | (split <;> trivial)
  restore e o p h ho := by
    cases e with
    | field q =>
      cases o with
      | field o =>
        rw [restore_field]
        exact FieldEncoding.isPlain_bin_restore h ho p
      | value | autoCount => cases p <;> exact h
    | value | autoCount => cases o <;> cases p <;> trivial

namespace Draft

open ChartQuery (ofShorthand)

variable {q : ChartQuery} {ctx : Context} {drafts : List Draft}

/-- In what is found, nothing in a field cuts a shorthand, if nothing in a field of the query or the
schema does. -/
theorem isPlain_of_generate (names : ∀ name, q.MayUseField ctx.schema name → IsPlainName name)
    (bins : ∀ f b, .field f ∈ q.encodings → f.bin? = some b → b.IsPlain)
    (h : (generate q ctx).outcome = .ok drafts) :
    ∀ d ∈ drafts, ∀ f, .field f ∈ d.query.encodings → f.IsPlain := by
  obtain ⟨d₀, steps, found, hb, -, hfound, hstyled⟩ := generate_eq_ok h
  have hbuilt := isBuilt_of_build hb
  have hplain : d₀.Throughout Encoding.HasPlainBin := by
    refine hbuilt.throughout (fun e he index => ?_) trivial
    cases e with
    | field f => exact FieldEncoding.isPlain_bin_fill (fun b => bins f b he) _
    | value | autoCount => trivial
  have hstart : ∀ d ∈ [d₀], ComesOf d₀ d ∧ d.Throughout Encoding.HasPlainBin := by
    intro d hd
    obtain rfl := List.mem_singleton.mp hd
    exact ⟨⟨hbuilt.sourced, rfl, rfl⟩, hplain⟩
  have hkept := Ends.of_resolveAll (fun p d => Throughout.walk Encoding.lasting_hasPlainBin p) hstart
    hfound
  have hfields : ∀ f ∈ found, ∀ e ∈ f.query.encodings, ∀ q, e = .field q → q.IsPlain := by
    rintro f hf e he q rfl
    obtain ⟨hcomes, hthroughout⟩ := hkept f hf
    obtain ⟨i, hi⟩ := List.mem_iff_getElem?.mp he
    exact ⟨fun n hn => names n (hcomes.mayUseField hbuilt hi hn), hthroughout.query _ he⟩
  intro d hd f hf
  obtain ⟨d', hd', rfl | ⟨-, hstyle⟩⟩ := hstyled d hd
  · exact hfields _ hd' _ hf f rfl
  · have hscales : ∀ (q : FieldEncoding) (g : Scale → Scale),
        (∀ r, Encoding.field q = .field r → r.IsPlain) →
        ∀ r, Encoding.field (withScale q g) = .field r → r.IsPlain := by
      rintro q g hq r hr
      obtain rfl := Encoding.field.inj hr
      obtain ⟨hname, hbin⟩ := hq q rfl
      refine ⟨fun n hn => hname n (field_withScale q g ▸ hn), fun b hb => hbin b ?_⟩
      unfold withScale at hb
      split at hb <;> exact hb
    exact ((stylable_throughout ctx.schema hscales).stylize (hfields _ hd') ctx.config).kept d hstyle
      _ hf f rfl

/-- A chart that is found reads back. What is read is written as it was, apart from the stack, and
where each channel has one encoding at most and what accumulates is a field, it is written as the chart
would be without the settings of the query. -/
theorem generate_readsBack (names : ∀ name, q.MayUseField ctx.schema name → IsPlainName name)
    (bins : ∀ f b, .field f ∈ q.encodings → f.bin? = some b → b.IsPlain)
    (h : (generate q ctx).outcome = .ok drafts) :
    ∀ d ∈ drafts, d.toChart?.isSome = true → d.query.IsReadable →
      ∃ r, ofShorthand d.shorthand = .ok r ∧
        Shorthand.query Include.withoutStack [] r =
          Shorthand.query Include.withoutStack [] d.query ∧
        (d.query.ChannelsApart → d.query.withoutSettings.StacksField →
          r.shorthand = d.query.withoutSettings.shorthand ∧
          (d.query.withoutSettings.stack? = d.query.stack? → r.shorthand = d.shorthand)) := by
  intro d hd chart readable
  obtain ⟨r, hr, hplain, hstack⟩ := readable.readsBack chart (isPlain_of_generate names bins h d hd)
  refine ⟨r, hr, hplain, fun apart fields => ?_⟩
  have hwritten := hstack apart fields
  exact ⟨hwritten, fun settings => hwritten.trans (ChartQuery.shorthand_withoutSettings settings)⟩

/-- Bars of a quantity that are split by the colour of a name. -/
def splitBars (aggregate : Slot (Option Aggregate)) (settings : Option Json.Members) : ChartQuery where
  mark := .fixed .bar
  encodings := [
    .field { channel := .fixed .color, field := .fixed "N", type := .fixed .nominal },
    .field { channel := .fixed .x, field := .fixed "Q", type := .fixed .quantitative, aggregate }]
  config := settings

/-- A sum, which may be stacked, or a mean, which may not. -/
def sumOrMean : Slot (Option Aggregate) := .wild (.ofCandidates [some .sum, some .mean])

theorem isPlainName_of_splitBars {aggregate : Slot (Option Aggregate)} {settings : Option Json.Members}
    {name : String} (h : (splitBars aggregate settings).MayUseField threeFields name) :
    IsPlainName name := by
  obtain ⟨f, hf, hname⟩ := h
  simp only [splitBars, List.mem_cons, List.not_mem_nil, or_false, Encoding.field.injEq] at hf
  rcases hf with rfl | rfl <;> cases hname <;> simp [IsPlainName]

theorem isReadable_splitBars (settings : Option Json.Members) :
    (splitBars (.fixed (some .sum)) settings).IsReadable where
  transform _ h := absurd h (Option.not_mem_none _)
  encodings e he := by
    have he := (List.mem_filter.mp he).1
    simp only [splitBars, List.mem_cons, List.not_mem_nil, or_false] at he
    have hnone {α : Type} {P : α → Prop} : ∀ a, none = some a → P a := fun _ h =>
      absurd h (Option.not_mem_none _)
    rcases he with rfl | rfl
    all_goals exact ⟨by decide, by decide, hnone, hnone, hnone, hnone⟩

/-- Of the bars that are found the sums alone are kept, whatever the settings are. -/
theorem splitBars_found (settings : Option Json.Members)
    (hsettings : settings = none ∨ settings = some [("stack", .text "normalize")]) :
    ∃ d, (generate (splitBars sumOrMean settings) ⟨threeFields, { stylize := false }⟩).outcome = .ok [d] ∧
      d.query = splitBars (.fixed (some .sum)) settings ∧ d.toChart?.isSome = true := by
  have hfound : ((generate (splitBars sumOrMean settings)
      ⟨threeFields, { stylize := false }⟩).outcome.map fun drafts =>
        drafts.map fun d => (d.query, d.toChart?.isSome)).toOption =
      some [(splitBars (.fixed (some .sum)) settings, true)] := by
    rcases hsettings with rfl | rfl <;> decide
  obtain ⟨drafts, hdrafts, hmap⟩ := exists_of_map_toOption hfound
  obtain ⟨d, rfl, hd⟩ := List.map_eq_singleton_iff.mp hmap
  exact ⟨d, hdrafts, (Prod.mk.inj hd).1, (Prod.mk.inj hd).2⟩

theorem isPlain_bin_of_splitBars {aggregate : Slot (Option Aggregate)}
    {settings : Option Json.Members} {f : FieldEncoding} {b : Bin}
    (h : .field f ∈ (splitBars aggregate settings).encodings) (hb : f.bin? = some b) : b.IsPlain := by
  simp only [splitBars, List.mem_cons, List.not_mem_nil, or_false, Encoding.field.injEq] at h
  rcases h with rfl | rfl <;> contradiction

/-- What accumulates is the sum, a field. -/
theorem stacksField_splitBars (settings : Option Json.Members) :
    (splitBars (.fixed (some .sum)) settings).withoutSettings.StacksField := by
  intro s hs c b hcount
  obtain rfl : s = ⟨none, .x, [.color], "zero", 1⟩ := (Option.some.inj hs).symm
  exact Encoding.noConfusion (Option.some.inj hcount)

/-- What is found of the bars without settings is written again to the letter. -/
theorem generate_readsBack_splitBars :
    ∃ drafts, (generate (splitBars sumOrMean none) ⟨threeFields, { stylize := false }⟩).outcome =
        .ok drafts ∧ drafts.length = 1 ∧
      ∀ d ∈ drafts, ∃ r, ofShorthand d.shorthand = .ok r ∧ r.shorthand = d.shorthand := by
  obtain ⟨d, hfound, hd, hchart⟩ := splitBars_found none (.inl rfl)
  refine ⟨[d], hfound, rfl, List.forall_mem_singleton.mpr ?_⟩
  obtain ⟨r, hr, -, hstack⟩ := generate_readsBack (fun _ => isPlainName_of_splitBars)
    (fun _ _ => isPlain_bin_of_splitBars) hfound d (List.mem_singleton_self d) hchart
    (hd ▸ isReadable_splitBars none)
  rw [hd] at hstack
  exact ⟨r, hr, (hstack (by decide) (stacksField_splitBars none)).2 rfl⟩

/-- The encodings of the bars stand in the order in which they are written. -/
theorem shorthand_splitBars (settings : Option Json.Members)
    (hsettings : settings = none ∨ settings = some [("stack", .text "normalize")]) :
    (splitBars (.fixed (some .sum)) settings).shorthand = "|".intercalate ("bar" ::
      Shorthand.encodings Include.all [] (splitBars (.fixed (some .sum)) settings)) := by
  refine ChartQuery.shorthand_of_sorted (m := .bar) rfl rfl ?_ ?_ <;> rcases hsettings with rfl | rfl <;>
    decide

/-- What is found of the bars if the settings normalise the stack is written otherwise once it has been
read: the stack then starts at zero. -/
theorem generate_forgets_stack :
    ¬ ∀ (q : ChartQuery) (ctx : Context) (drafts : List Draft),
      (∀ name, q.MayUseField ctx.schema name → IsPlainName name) →
      (∀ f b, .field f ∈ q.encodings → f.bin? = some b → b.IsPlain) →
      (generate q ctx).outcome = .ok drafts →
      ∀ d ∈ drafts, d.toChart?.isSome = true → d.query.IsReadable →
        ∃ r, ofShorthand d.shorthand = .ok r ∧ r.shorthand = d.shorthand := by
  intro h
  obtain ⟨d, hfound, hd, hchart⟩ := splitBars_found _ (.inr rfl)
  have hreadable := hd ▸ isReadable_splitBars _
  obtain ⟨r, hr, hsame⟩ := h _ _ [d] (fun _ => isPlainName_of_splitBars)
    (fun _ _ => isPlain_bin_of_splitBars) hfound d (List.mem_singleton_self d) hchart hreadable
  obtain ⟨r', hr', -, hwritten⟩ := hreadable.readsBack hchart (isPlain_of_generate
    (fun _ => isPlainName_of_splitBars) (fun _ _ => isPlain_bin_of_splitBars) hfound d
    (List.mem_singleton_self d))
  obtain rfl := Except.ok.inj (hr.symm.trans hr')
  have hwithout := hwritten (hd ▸ by decide) (hd ▸ stacksField_splitBars _)
  have hforgotten : (splitBars (.fixed (some .sum)) (some [("stack", .text "normalize")])).shorthand =
      (splitBars (.fixed (some .sum)) none).shorthand := by
    rw [← hd]
    exact hsame.symm.trans (hwithout.trans (hd ▸ rfl))
  rw [shorthand_splitBars _ (.inr rfl), shorthand_splitBars none (.inl rfl)] at hforgotten
  exact absurd hforgotten (by decide)

end Draft
end ChartAdvisor
