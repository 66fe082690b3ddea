import ChartAdvisor.Vocabulary.Basic

/-!
# The words of chart queries

Marks, channels, data types, functions, scale types and the parts of a scale, each with
the order in which it is listed.
-/
namespace ChartAdvisor

/-- The shape that is drawn for each row or group. -/
inductive Mark
  | point | bar | line | area | tick | text | circle | square | rule | rect | geoshape
deriving DecidableEq

instance : Vocabulary Mark where
  kind := "mark"
  all := [.point, .bar, .line, .area, .tick, .text, .circle, .square, .rule, .rect, .geoshape]
  name
    | .point => "point"
    | .bar => "bar"
    | .line => "line"
    | .area => "area"
    | .tick => "tick"
    | .text => "text"
    | .circle => "circle"
    | .square => "square"
    | .rule => "rule"
    | .rect => "rect"
    | .geoshape => "geoshape"

/-- A visual dimension that a field can be mapped to. -/
inductive Channel
  | x | y | row | column | size | color | shape | detail | text | opacity
deriving DecidableEq

instance : Vocabulary Channel where
  kind := "channel"
  all := [.x, .y, .row, .column, .size, .color, .shape, .detail, .text, .opacity]
  name
    | .x => "x"
    | .y => "y"
    | .row => "row"
    | .column => "column"
    | .size => "size"
    | .color => "color"
    | .shape => "shape"
    | .detail => "detail"
    | .text => "text"
    | .opacity => "opacity"

/-- How the values of a field are read. -/
inductive FieldType
  | nominal | ordinal | quantitative | temporal
deriving DecidableEq

instance : Vocabulary FieldType where
  kind := "type"
  all := [.nominal, .ordinal, .quantitative, .temporal]
  name
    | .nominal => "nominal"
    | .ordinal => "ordinal"
    | .quantitative => "quantitative"
    | .temporal => "temporal"

/-- A function from the values of a group to one value. -/
inductive Aggregate
  | count | valid | missing | distinct | sum | mean | average | variance | variancep | stdev
  | stdevp | median | q1 | q3 | modeskew | min | max | argmin | argmax | values
deriving DecidableEq

instance : Vocabulary Aggregate where
  kind := "aggregate op"
  all := [.count, .valid, .missing, .distinct, .sum, .mean, .average, .variance, .variancep,
    .stdev, .stdevp, .median, .q1, .q3, .modeskew, .min, .max, .argmin, .argmax, .values]
  name
    | .count => "count"
    | .valid => "valid"
    | .missing => "missing"
    | .distinct => "distinct"
    | .sum => "sum"
    | .mean => "mean"
    | .average => "average"
    | .variance => "variance"
    | .variancep => "variancep"
    | .stdev => "stdev"
    | .stdevp => "stdevp"
    | .median => "median"
    | .q1 => "q1"
    | .q3 => "q3"
    | .modeskew => "modeskew"
    | .min => "min"
    | .max => "max"
    | .argmin => "argmin"
    | .argmax => "argmax"
    | .values => "values"

/-- The part of a point in time that is kept. -/
inductive TimeUnit
  | year | quarter | month | day | date | hours | minutes | seconds | milliseconds
  | yearmonth | yearmonthdate | monthdate | hoursminutes
deriving DecidableEq

instance : Vocabulary TimeUnit where
  kind := "time unit"
  all := [.year, .quarter, .month, .day, .date, .hours, .minutes, .seconds, .milliseconds,
    .yearmonth, .yearmonthdate, .monthdate, .hoursminutes]
  name
    | .year => "year"
    | .quarter => "quarter"
    | .month => "month"
    | .day => "day"
    | .date => "date"
    | .hours => "hours"
    | .minutes => "minutes"
    | .seconds => "seconds"
    | .milliseconds => "milliseconds"
    | .yearmonth => "yearmonth"
    | .yearmonthdate => "yearmonthdate"
    | .monthdate => "monthdate"
    | .hoursminutes => "hoursminutes"

/-- How a scale maps values to a channel. -/
inductive ScaleType
  | linear | log | pow | sqrt | time | utc | sequential | quantile | quantize
  | ordinal | point | band | binLinear | binOrdinal
deriving DecidableEq

instance : Vocabulary ScaleType where
  kind := "scale type"
  all := [.linear, .log, .pow, .sqrt, .time, .utc, .sequential, .quantile, .quantize,
    .ordinal, .point, .band, .binLinear, .binOrdinal]
  name
    | .linear => "linear"
    | .log => "log"
    | .pow => "pow"
    | .sqrt => "sqrt"
    | .time => "time"
    | .utc => "utc"
    | .sequential => "sequential"
    | .quantile => "quantile"
    | .quantize => "quantize"
    | .ordinal => "ordinal"
    | .point => "point"
    | .band => "band"
    | .binLinear => "bin-linear"
    | .binOrdinal => "bin-ordinal"

/-- The two directions of an order. -/
inductive SortOrder
  | ascending | descending
deriving DecidableEq

instance : Vocabulary SortOrder where
  kind := "sort order"
  all := [.ascending, .descending]
  name
    | .ascending => "ascending"
    | .descending => "descending"

/-- How a schema stores the values of a field, whatever type an encoding reads them as. -/
inductive PrimitiveType
  | string | number | integer | boolean | date
deriving DecidableEq

instance : Vocabulary PrimitiveType where
  kind := "primitive type"
  all := [.string, .number, .integer, .boolean, .date]
  name
    | .string => "string"
    | .number => "number"
    | .integer => "integer"
    | .boolean => "boolean"
    | .date => "date"

/-- A part of a scale. -/
inductive ScaleProperty
  | type | domain | range | clamp | nice | round | exponent | zero | useRawDomain | bandSize
deriving DecidableEq

instance : Vocabulary ScaleProperty where
  kind := "scale property"
  all := [.type, .domain, .range, .clamp, .nice, .round, .exponent, .zero, .useRawDomain,
    .bandSize]
  name
    | .type => "type"
    | .domain => "domain"
    | .range => "range"
    | .clamp => "clamp"
    | .nice => "nice"
    | .round => "round"
    | .exponent => "exponent"
    | .zero => "zero"
    | .useRawDomain => "useRawDomain"
    | .bandSize => "bandSize"

/-- The type of a field refined by the function that is applied to it. -/
inductive ExtendedType
  | quantitative | binned | temporal | timeUnitContinuous | timeUnitDiscrete | ordinal | nominal
deriving DecidableEq

instance : Vocabulary ExtendedType where
  kind := "extended type"
  all := [.quantitative, .binned, .temporal, .timeUnitContinuous, .timeUnitDiscrete, .ordinal,
    .nominal]
  name
    | .quantitative => "quantitative"
    | .binned => "bin_quantitative"
    | .temporal => "temporal"
    | .timeUnitContinuous => "timeUnit_time"
    | .timeUnitDiscrete => "timeUnit_ordinal"
    | .ordinal => "ordinal"
    | .nominal => "nominal"

end ChartAdvisor
