import ChartAdvisor.Draft.Basic

/-!
# Styling

Finished charts get small bands where a discrete axis is faceted or crowded, and a large
palette where a nominal colour has many values. A setting that is there already stays.
-/
namespace ChartAdvisor
namespace Draft

/-- The first field on a channel and its number. -/
def fieldOn? (d : Draft) (c : Channel) : Option (Nat × FieldEncoding) :=
  d.query.encodings.zipIdx.findSome? fun (e, i) =>
    match e with
    | .field q => if q.channel.is c then some (i, q) else none
    | _ => none

def putField (d : Draft) (index : Nat) (q : FieldEncoding) : Draft :=
  { d with query := { d.query with encodings := d.query.encodings.set index (.field q) } }

/-- Changes the scale of a field, which is switched on if the field has none; a scale that is
off or open in its switch stays as it is. -/
def withScale (q : FieldEncoding) (f : Scale → Scale) : FieldEncoding :=
  match q.scale with
  | none => { q with scale := some (.on (f {})) }
  | some (.on s) => { q with scale := some (.on (f s)) }
  | some _ => q

/-- Whether the scale of a field has steps, or may have. -/
def hasSteps (q : FieldEncoding) : Bool :=
  match q.scaleType? with
  | none | some .ordinal | some .point | some .band => true
  | _ => false

/-- Sets small bands on one axis if it is split by a facet or holds many values. -/
def withSmallBandsOn (schema : Schema) (style : SmallBands) (axis facet : Channel) (d : Draft) :
    Except SchemaError Draft := do
  match d.fieldOn? axis with
  | none => return d
  | some (index, q) =>
    let crowded ←
      if d.channelUsed facet then pure true
      else (schema.cardinality q).map fun n => decide (style.maxCardinality < n)
    if crowded && hasSteps q then
      return d.putField index <| withScale q fun s =>
        { s with bandSize := s.bandSize.or (some (.fixed style.bandSize)) }
    else return d

/-- Sets small bands on both axes. -/
def withSmallBands (schema : Schema) (style : SmallBands) (d : Draft) : Except SchemaError Draft := do
  withSmallBandsOn schema style .x .column (← withSmallBandsOn schema style .y .row d)

/-- Sets a large palette on a nominal colour with many values. -/
def withLargePalette (schema : Schema) (style : LargePalette) (d : Draft) :
    Except SchemaError Draft := do
  match d.fieldOn? .color with
  | none => return d
  | some (index, q) =>
    if q.type.is .nominal then
      if style.maxCardinality < (← schema.cardinality q) then
        return d.putField index <| withScale q fun s =>
          { s with range := s.range.or (some (.fixed (.text style.palette))) }
      else return d
    else return d

/-- Styles a draft as the configuration asks. -/
def stylize (schema : Schema) (config : Config) (d : Draft) : Except SchemaError Draft := do
  let d ← match config.smallBandSizeForHighCardinalityOrFacet with
    | some style => d.withSmallBands schema style
    | none => pure d
  match config.nominalColorScaleForHighCardinality with
  | some style => d.withLargePalette schema style
  | none => pure d

end Draft
end ChartAdvisor
