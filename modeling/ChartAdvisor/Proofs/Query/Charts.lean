import ChartAdvisor.Proofs.Query.Definitions
import ChartAdvisor.Proofs.Stacking

/-!
# Charts that are read as queries

A chart lists its definitions by channel. Where no two encodings of a query share a channel each has a
definition of its own, and its chart is read as the query with the encodings that play a part, in some
order, as far as a chart keeps them.
-/
namespace ChartAdvisor

/-! ## The definitions of a chart -/

theorem putDefinition_perm {c : Channel} {found : List (Channel × Json.Members)}
    (h : ∀ x ∈ found, x.1 ≠ c) (d : Json.Members) : (putDefinition c d found).Perm ((c, d) :: found) := by
  induction found with
  | nil => exact .refl _
  | cons x rest ih =>
    obtain ⟨c', d'⟩ := x
    obtain ⟨hc, hrest⟩ := List.forall_mem_cons.mp h
    unfold putDefinition
    rw [if_neg (Ne.symm hc)]
    split
    · exact .refl _
    · exact ((ih hrest).cons _).trans (.swap _ _ _)

namespace ChartQuery

/-- On channels of their own, all encodings come to stand in a chart. -/
theorem definitions?_perm {es : List Encoding} {found defs : List (Channel × Json.Members)}
    (h : definitions? es found = some defs)
    (apart : (found.map Prod.fst ++ es.filterMap Encoding.channel?).Nodup) :
    ∃ ds, List.Forall₂ (fun (e : Encoding) x => e.channel? = some x.1 ∧ e.definition? x.1 = some x.2) es ds ∧
      defs.Perm (found ++ ds) := by
  induction es generalizing found with
  | nil =>
    obtain rfl := Option.some.inj h
    exact ⟨[], .nil, .of_eq (List.append_nil _).symm⟩
  | cons e rest ih =>
    obtain ⟨c, hc, h⟩ := Option.bind_eq_some_iff.mp h
    obtain ⟨d, hd, h⟩ := Option.bind_eq_some_iff.mp h
    rw [List.filterMap_cons_some hc] at apart
    have hput : (putDefinition c d found).Perm ((c, d) :: found) := by
      refine putDefinition_perm (fun x hx hxc => ?_) d
      exact (List.nodup_append.mp apart).2.2 x.1 (List.mem_map_of_mem hx) c List.mem_cons_self hxc
    have hkeys : ((putDefinition c d found).map Prod.fst ++ rest.filterMap Encoding.channel?).Perm
        (found.map Prod.fst ++ c :: rest.filterMap Encoding.channel?) :=
      ((hput.map Prod.fst).append_right _).trans List.perm_middle.symm
    obtain ⟨ds, hds, hperm⟩ := ih h (hkeys.nodup_iff.mpr apart)
    exact ⟨(c, d) :: ds, .cons ⟨hc, hd⟩ hds, hperm.trans ((hput.append_right _).trans List.perm_middle.symm)⟩

end ChartQuery

/-! ## Charts as queries -/

/-- The values of a query are in order, and nothing in it is read from a chart as something else. -/
structure ChartQuery.IsChartable (q : ChartQuery) : Prop where
  transform : ∀ steps ∈ q.transform, ∀ v ∈ steps, v.Ordered
  encodings : ∀ e ∈ q.active, e.IsChartable
  config : ∀ members ∈ q.config, (Json.object members).Ordered

namespace ChartQuery

variable {q : ChartQuery}

/-- The definitions of a chart, in whatever order, are read as the encodings that they were made of. -/
theorem IsChartable.mapM_decode (h : q.IsChartable) (apart : q.ChannelsApart)
    {defs : List (Channel × Json.Members)} (hdefs : definitions? q.active [] = some defs) :
    ∃ members es, (Json.object (defs.map fun (c, d) => (Vocabulary.name c, .object d))).sorted =
        .object members ∧
      members.mapM (fun (channel, d) => decode (.object (encodingMembers channel d))) = Except.ok es ∧
      es.Perm (q.active.map Encoding.charted) := by
  have hactive : (q.active.filterMap Encoding.channel?).Nodup :=
    List.Nodup.sublist (List.filter_sublist.filterMap _) apart
  obtain ⟨ds, hds, hperm⟩ := definitions?_perm hdefs hactive
  rw [List.nil_append] at hperm
  have hchannels : ds.map Prod.fst = q.active.filterMap Encoding.channel? := by
    clear hperm hactive
    generalize q.active = active at hds
    induction hds with
    | nil => rfl
    | cons hd _ ih => rw [List.map_cons, List.filterMap_cons_some hd.1, ih]
  let entry (x : Channel × Json.Members) : String × Json := (Vocabulary.name x.1, .object x.2)
  have hread : List.Forall₂ (fun x (e : Encoding) => (Json.object x.2).Ordered ∧
      decode (.object (encodingMembers (entry x).1 (entry x).2)) = Except.ok e.charted) ds q.active :=
    (((List.forall₂_and_left _ _).mpr ⟨h.encodings, hds⟩).imp fun e x ⟨he, hc, hd⟩ =>
      he.decode_definition hc hd).flip
  obtain ⟨hordered, hread⟩ := (List.forall₂_and_left _ _).mp hread
  have hreads : List.Forall₂ (fun m b => decode (.object (encodingMembers m.1 m.2)) = Except.ok b)
      (ds.map entry) (q.active.map Encoding.charted) :=
    List.forall₂_map_left_iff.mpr (List.forall₂_map_right_iff.mpr hread)
  have hnodup : ((defs.map entry).map Prod.fst).Nodup := by
    have hnames : (defs.map entry).map Prod.fst = (defs.map Prod.fst).map Vocabulary.name := by
      rw [List.map_map, List.map_map]
      rfl
    rw [hnames]
    have hdefs : (defs.map Prod.fst).Nodup := (hperm.map Prod.fst).nodup_iff.mpr (hchannels ▸ hactive)
    exact List.pairwise_map.mpr (hdefs.imp fun hne he => hne (Vocabulary.name_injective he))
  have hmembers : (Json.object (defs.map entry)).sorted = .object (Json.extend [] (defs.map entry)) := by
    rw [Json.sorted, Json.sortedMembers_eq_map, List.map_map]
    refine congrArg (Json.object <| Json.extend [] ·) (List.map_congr_left fun x hx => ?_)
    exact congrArg (Prod.mk _) (hordered x (hperm.mem_iff.mp hx)).sorted_eq
  have hentries : (Json.extend [] (defs.map entry)).Perm (ds.map entry) :=
    (Json.extend_perm hnodup).trans (hperm.map entry)
  obtain ⟨es, hes, hperm⟩ := List.perm_comp_forall₂ hentries hreads
  exact ⟨_, es, hmembers, mapM_eq_ok_of_forall₂ hes, hperm⟩

/-- A chart is read as the query that it was made of, with the encodings that play a part, as far as a
chart keeps them. -/
theorem IsChartable.toQuery (h : q.IsChartable) (apart : q.ChannelsApart) {defaults : Json.Members}
    (ordered : (Json.object defaults).Ordered) (plain : defaults.lookup "stack" = none) {c : Chart}
    (hc : q.toChart? defaults = some c) :
    ∃ r, c.toQuery = .ok r ∧ r.mark = q.mark ∧ r.transform = q.transform ∧
      r.stackOffset = q.stackOffset ∧ r.encodings.Perm (q.active.map Encoding.charted) := by
  obtain ⟨mark, hmark, hc⟩ := Option.bind_eq_some_iff.mp hc
  obtain ⟨defs, hdefs, hc⟩ := Option.bind_eq_some_iff.mp hc
  obtain rfl := Option.some.inj hc
  obtain ⟨definitions, es, hsorted, hread, hperm⟩ := h.mapM_decode apart hdefs
  have hordered : (Json.object (Json.extend defaults (q.config.getD []))).Ordered := by
    refine ordered.extend fun m hm => ?_
    cases hq : q.config with
    | none => rw [hq] at hm; contradiction
    | some ms => exact (h.config ms hq).of_object.2 m (by simpa [hq] using hm)
  have hstack : (Json.extend defaults (q.config.getD [])).lookup "stack" =
      q.config.bind (Json.lookup · "stack") := by
    cases hq : q.config with
    | none => exact plain
    | some ms =>
      rw [Option.getD_some, Json.lookup_extend (h.config ms hq).of_object.1.nodup, plain, Option.or_none]
      rfl
  obtain ⟨members, heq, hlookup⟩ := Json.sorted_ofPresent [
    ("data", q.data), ("transform", q.transform.map Json.list), ("mark", some (encode mark)),
    ("encoding", some (.object (defs.map fun (c, d) => (Vocabulary.name c, .object d)))),
    ("config", (if (Json.extend defaults (q.config.getD [])).isEmpty then none
      else some (Json.extend defaults (q.config.getD []))).map Json.object)] (by
      change ["data", "transform", "mark", "encoding", "config"].Nodup
      decide)
  have hmark : decode ((members.lookup "mark").getD .null) = Except.ok q.mark := by
    obtain ⟨m, hm⟩ : ∃ m, q.mark = .fixed m := by
      cases hq : q.mark with
      | fixed m => exact ⟨m, rfl⟩
      | wild w => rw [hq] at hmark; contradiction
    rw [hm] at hmark ⊢
    obtain rfl := Option.some.inj hmark
    rw [hlookup]
    exact Slot.readsBack_fixed (readsBack_plain m) (PlainCoded.not_looksOpen_encode m)
  have hencodings : (((members.lookup "encoding").bind Json.object?).getD []).mapM
      (fun (channel, d) => decode (.object (encodingMembers channel d))) = Except.ok es := by
    have hobject : members.lookup "encoding" = some (.object definitions) := by
      rw [hlookup, ← hsorted]
      rfl
    rw [hobject]
    exact hread
  refine ⟨⟨members.lookup "data", q.mark, (members.lookup "transform").bind Json.list?, es,
    (members.lookup "config").bind Json.object?⟩, ?_, rfl, ?_, ?_, hperm⟩
  · change ofUnit (Json.ofPresent _).sorted = _
    rw [heq]
    simp only [ofUnit, Json.lookup, hmark, hencodings]
    rfl
  · change (members.lookup "transform").bind Json.list? = q.transform
    rw [hlookup]
    change ((q.transform.map Json.list).map Json.sorted).bind Json.list? = q.transform
    cases ht : q.transform with
    | none => rfl
    | some steps =>
      have hsteps : (Json.list steps).sorted = .list steps :=
        (Json.Ordered.list fun v hv => h.transform steps ht v hv).sorted_eq
      rw [Option.map_some, Option.map_some, hsteps]
      rfl
  · have hsettings : ((members.lookup "config").bind Json.object?).bind (Json.lookup · "stack") =
        q.config.bind (Json.lookup · "stack") := by
      rw [hlookup]
      change ((((if (Json.extend defaults (q.config.getD [])).isEmpty then none
        else some (Json.extend defaults (q.config.getD []))).map Json.object).map Json.sorted).bind
          Json.object?).bind (Json.lookup · "stack") = _
      rw [← hstack]
      split
      · next hempty =>
        rw [List.isEmpty_iff.mp hempty]
        rfl
      · rw [Option.map_some, Option.map_some, hordered.sorted_eq]
        rfl
    unfold stackOffset
    rw [hsettings]

end ChartQuery
end ChartAdvisor
