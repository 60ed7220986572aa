/-
PointPatch/Notice.lean

What the library reports while it works, as values.  Each operation that
reports has a companion that says what it reports; a notice knows its level,
its topic and its text.  Notices about conversions are texts of named
values.
-/
import PointPatch.Schema.Basic

namespace PointPatch

/-- How important a notice is. -/
inductive Notice.Level where
  | debug
  | info
  | warn
deriving DecidableEq, Repr

/-- What part of the work a notice is about. -/
inductive Notice.Topic where
  | metric
  | schema
  | document
  | blob
deriving DecidableEq, Repr

/-- A report about something that happened. -/
inductive Notice where
  | noX (pcid : UInt32)
  | noY (pcid : UInt32)
  | problem (problem : Schema.Problem)
  | unhandledElement (name : String)
  | documentRead (pcid : UInt32) (dimensions size : Nat) (target : Representation)
  | advice (dimension : String) (points : Nat) (mode : Mode)
  | compressed (source result : Representation) (points size : Nat)
  | merged (inputs points : Nat)
  | filtered (dimension : String) (before after : Nat)
  | blobStored (codec : String) (points size : Nat)
deriving DecidableEq, Repr

namespace Notice

/-- The level of a notice. -/
def level : Notice → Level
  | problem _ => .warn
  | unhandledElement _ => .info
  | _ => .debug

/-- The topic of a notice. -/
def topic : Notice → Topic
  | noX _ | noY _ | problem _ => .schema
  | unhandledElement _ | documentRead .. => .document
  | blobStored .. => .blob
  | _ => .metric

/-- The text of named values. -/
def named (values : List (String × String)) : String :=
  "\x7b " ++ ", ".intercalate (values.map fun v => s!"\"{v.1}\": \"{v.2}\"") ++ " \x7d"

/-- The text of a notice. -/
def text : Notice → String
  | noX pcid => s!"schema {pcid} has no X dimension"
  | noY pcid => s!"schema {pcid} has no Y dimension"
  | problem .noX => "schema does not include an X coordinate"
  | problem .noY => "schema does not include a Y coordinate"
  | problem .noDimensions => "schema has no dimensions"
  | problem (.emptySlot position) => s!"schema is missing a dimension at position {position}"
  | unhandledElement name => s!"unhandled schema type element \"{name}\" encountered"
  | documentRead pcid dimensions size target =>
    s!"parsed schema {pcid} with {dimensions} dimensions, {size} bytes per point, "
      ++ s!"compression {target.name}"
  | advice dimension points mode =>
    named [("event", "dimstats_recommend"), ("dimension", dimension),
      ("total_points", toString points), ("mode", mode.name)]
  | compressed source result points size =>
    named [("event", "compress"), ("from", source.name), ("to", result.name),
      ("npoints", toString points), ("serialized_size", toString size)]
  | merged inputs points =>
    named [("event", "merge"), ("inputs", toString inputs), ("npoints", toString points)]
  | filtered dimension before after =>
    named [("event", "filter"), ("dimension", dimension), ("npoints_in", toString before),
      ("npoints_out", toString after)]
  | blobStored codec points size =>
    s!"opaque codec {codec} stored {points} points in {size} bytes"

end Notice

/-- What is reported when the coordinates of a schema have been looked for. -/
def Schema.xyNotices (s : Schema) : List Notice :=
  (if s.xPosition.isNone then [.noX s.pcid] else [])
    ++ if s.yPosition.isNone then [.noY s.pcid] else []

/-- What is reported when a schema is checked. -/
def Schema.validityNotices (s : Schema) : List Notice :=
  (s.problem?.map Notice.problem).toList

end PointPatch
