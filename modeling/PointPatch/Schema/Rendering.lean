/-
PointPatch/Schema/Rendering.lean

Schemas as JSON documents.  Members stand in alphabetical order; only filled
slots are listed.
-/
import PointPatch.Json.Printer
import PointPatch.Schema.Basic

namespace PointPatch

/-- The document of a dimension. -/
def Dimension.toJson (d : Dimension) : Json :=
  .ofMembers
    [("active", .bool d.isActive), ("byteoffset", .ofNat d.byteOffset),
     ("description", .ofString d.description), ("interpretation", .ofString d.type.name),
     ("name", .ofString d.name), ("offset", .ofDouble d.offset),
     ("position", .ofNat d.position), ("scale", .ofDouble d.scale), ("size", .ofNat d.size)]

/-- The document of a schema. -/
def Schema.toJson (s : Schema) : Json :=
  .ofMembers
    [("compression", .ofString s.target.name),
     ("dims", .array (s.dimensions.map Dimension.toJson)), ("ndims", .ofNat s.slotCount),
     ("pcid", .ofNat s.pcid.toNat), ("size", .ofNat s.size), ("srid", .ofNat s.srid.toNat),
     ("x_position", .ofOption .ofNat s.xPosition), ("y_position", .ofOption .ofNat s.yPosition)]

/-- The text of a schema. -/
def Schema.text (s : Schema) : String := s.toJson.pretty

end PointPatch
