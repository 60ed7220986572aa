/-
PointPatch/Fault.lean

Everything that can go wrong, as causes.  A fault carries what its text
speaks of and nothing else.  `family` sorts the causes, `detail` words each,
and `message` is the text shown: the heading of the family, then the detail.
-/
import PointPatch.Column.Mode
import PointPatch.Interpretation
import PointPatch.Representation

namespace PointPatch

/-- A reason why an operation gives no result. -/
inductive Fault where
  -- schema documents
  /-- The document is not well-formed markup. -/
  | malformedDocument
  /-- The document has no markup at all. -/
  | noElement
  | unexpectedRoot (name : String)
  | positionBeyondCount (position count : Nat)
  | positionTaken (position : Nat)
  | positionZero
  | missingField (field : String)
  | unreadableNumber (field text : String)
  | unknownInterpretation (token : String)
  -- schemas and look-ups
  | schemaMismatch (wire schema : UInt32)
  | dimensionNotFound (name : String)
  | indexOutOfRange (index length : Nat)
  -- conversions that do not exist
  | noBlobCodec
  | unsupportedWidth (size : Nat)
  | columnNotRaw (operation : String) (mode : Mode)
  | columnsNeeded (found : Representation)
  -- inputs that do not fit together
  | deflateLevelTooHigh (level : Nat)
  | partialElements (length : Nat) (type : Interpretation)
  | valueCount (pcid : UInt32) (dimensions values : Nat)
  | noPoints
  | foreignPoint (point patch : UInt32)
  | noPatches
  | mixedSchemas (first other : UInt32)
  | incomparableSchemas (first other : UInt32)
  | unknownStatistic (name : String)
  | samplingWidth (tracked : Nat) (pcid : UInt32) (dimensions : Nat)
  | noAdvice (position : Nat)
  | unfilledSlots (pcid : UInt32)
  | rowBytes (length : Nat) (count : UInt32) (pcid : UInt32)
  -- messages that cannot be read
  | unknownByteOrder (flag : UInt8)
  /-- A fixed-size field goes past the end of the message. -/
  | truncated
  | sliceBeyondEnd (wanted start available : Nat)
  | emptyMessage
  | headerTooShort (length : Nat)
  | noSchemaId (length : Nat)
  | rawColumnLength (type : Interpretation) (length count : Nat)
  | trailingBytes (count : Nat)
  | codecLength (codec : String) (length count size : Nat)
  | rowsOverflow (count : Nat)
  /-- The rows need more memory than there is. -/
  | rowsRefused (count : Nat)
  | columnLength (name : String) (length count : Nat)
  | emptyPointMessage
  | pointPayload (length : Nat) (pcid : UInt32) (size : Nat)
  | pointData (length : Nat) (pcid : UInt32) (size : Nat)
  | zeroWidthRows (pcid : UInt32) (length : Nat)
  | partialRows (length size : Nat)
  | unknownRepresentation (tag : Nat)
  | unknownMode (tag : UInt8)
  -- payloads of runs
  | partialPairs (length pairSize : Nat)
  | emptyRun
  | runTotal (total count : Nat)
  -- payloads of shared bits
  | sharedHeader (length needed : Nat)
  | sharedCount (width : Nat)
  | sharedStream (length needed : Nat)
  /-- The elements need more memory than there is. -/
  | sharedCapacity (count size : Nat)
  /-- The bits of one element make a number too large for it. -/
  | sharedOverflow
  -- compressed streams
  /-- The stream of a column cannot be inflated. -/
  | deflateStream
  | deflateLength (expected found : Nat)
  /-- The stream of a blob cannot be decompressed. -/
  | zstdStream
  | zstdNoLength
  | zstdLength (stated expected : Nat)
  | zstdContent (expected found : Nat)
  /-- The configuration text is not a valid configuration. -/
  | configText
  /-- A row counted in the header lies past the end of the row buffer. -/
  | rowMissing (index : Nat)
  /-- The row buffer is longer than the capacity that it would be given. -/
  | rowsBeyondCapacity (length capacity : Nat)
  /-- No buffer for so many rows is to be had. -/
  | roomRefused (count size : Nat)
  /-- No schema with so many slots is to be had. -/
  | slotsRefused (count : Nat)
deriving DecidableEq, Repr

namespace Fault

/-- The families of faults. -/
inductive Family where
  | schemaDocument
  | schemaMismatch
  | dimensionNotFound
  | unsupportedConversion
  | inconsistentInput
  | corruptWire
  | unknownRepresentation
  | unknownMode
  | indexOutOfRange
  | rle
  | sigbits
  | deflate
  | zstd
  | config
  | storage
deriving DecidableEq, Repr

/-- The family that a fault belongs to. -/
def family : Fault → Family
  | malformedDocument | noElement | unexpectedRoot _ | positionBeyondCount .. | positionTaken _
  | positionZero | missingField _ | unreadableNumber .. | unknownInterpretation _ =>
    .schemaDocument
  | schemaMismatch .. => .schemaMismatch
  | dimensionNotFound _ => .dimensionNotFound
  | indexOutOfRange .. => .indexOutOfRange
  | noBlobCodec | unsupportedWidth _ | columnNotRaw .. | columnsNeeded _ =>
    .unsupportedConversion
  | deflateLevelTooHigh _ | partialElements .. | valueCount .. | noPoints | foreignPoint ..
  | noPatches | mixedSchemas .. | incomparableSchemas .. | unknownStatistic _ | samplingWidth ..
  | noAdvice _ | unfilledSlots _ | rowBytes .. =>
    .inconsistentInput
  | unknownByteOrder _ | truncated | sliceBeyondEnd .. | emptyMessage | headerTooShort _
  | noSchemaId _ | rawColumnLength .. | trailingBytes _ | codecLength .. | rowsOverflow _
  | rowsRefused _ | columnLength .. | emptyPointMessage | pointPayload .. | pointData ..
  | zeroWidthRows .. | partialRows .. =>
    .corruptWire
  | unknownRepresentation _ => .unknownRepresentation
  | unknownMode _ => .unknownMode
  | partialPairs .. | emptyRun | runTotal .. => .rle
  | sharedHeader .. | sharedCount _ | sharedStream .. | sharedCapacity .. | sharedOverflow =>
    .sigbits
  | deflateStream | deflateLength .. => .deflate
  | zstdStream | zstdNoLength | zstdLength .. | zstdContent .. => .zstd
  | configText => .config
  | rowMissing _ | rowsBeyondCapacity .. | roomRefused .. | slotsRefused _ => .storage

/-- What the text of every fault of a family begins with. -/
def Family.heading : Family → String
  | schemaDocument => "Schema document could not be parsed: "
  | unsupportedConversion => "Unsupported conversion: "
  | inconsistentInput => "Inconsistent input: "
  | corruptWire => "Corrupt wire data: "
  | rle => "RLE decoding error: "
  | sigbits => "Sigbits decoding error: "
  | deflate => "Deflate operation failed: "
  | zstd => "Zstd operation failed: "
  | config => "Configuration could not be read: "
  | schemaMismatch | dimensionNotFound | unknownRepresentation | unknownMode | indexOutOfRange
  | storage => ""

/-- What the text of a fault says after the heading. -/
def detail : Fault → String
  | malformedDocument => "the document is not well-formed"
  | noElement => "document contains no XML element"
  | unexpectedRoot name => s!"unexpected root element \"{name}\""
  | positionBeyondCount position count =>
    s!"schema dimension states position \"{position}\", but number of XML dimensions is \"{count}\""
  | positionTaken position =>
    s!"schema dimension at position \"{position}\" is declared twice"
  | positionZero => "dimension positions start at 1"
  | missingField field => s!"dimension has no {field}"
  | unreadableNumber field text => s!"invalid {field} value \"{text}\""
  | unknownInterpretation token => s!"unknown interpretation \"{token}\""
  | schemaMismatch wire schema =>
    s!"Wire data schema id ({wire}) does not match schema id ({schema})"
  | dimensionNotFound name => s!"Dimension \"{name}\" does not exist in the schema"
  | indexOutOfRange index length => s!"Index {index} is out of range for length {length}"
  | noBlobCodec => "no opaque codec is registered in the engine context"
  | unsupportedWidth size => s!"sigbits needs a 1, 2, 4 or 8 byte element, got {size}"
  | columnNotRaw operation mode =>
    s!"{operation} needs an uncompressed column, found {mode.name}"
  | columnsNeeded found =>
    s!"reduce_dimension needs a dimensional patch, found {found.name}"
  | deflateLevelTooHigh level => s!"deflate_level must be between 0 and 9, got {level}"
  | partialElements length type =>
    s!"{length} bytes is not a whole number of {type.name} elements"
  | valueCount pcid dimensions values =>
    s!"schema {pcid} has {dimensions} dimensions, got {values} values"
  | noPoints => "cannot build a patch from an empty point list"
  | foreignPoint point patch =>
    s!"point of schema {point} cannot be added to a patch of schema {patch}"
  | noPatches => "cannot merge an empty patch list"
  | mixedSchemas first other => s!"inconsistent schemas in input: {first} and {other}"
  | incomparableSchemas first other =>
    s!"cannot intersect patches of schemas {first} and {other}"
  | unknownStatistic name => s!"unknown statistic \"{name}\", expected min, max or avg"
  | samplingWidth tracked pcid dimensions =>
    s!"statistics track {tracked} dimensions, patch schema {pcid} has {dimensions}"
  | noAdvice position => s!"statistics have no entry for dimension {position}"
  | unfilledSlots pcid => s!"schema {pcid} has unfilled dimension slots"
  | rowBytes length count pcid =>
    s!"{length} row bytes do not hold {count} points of schema {pcid}"
  | unknownByteOrder flag => s!"invalid endianness flag {flag}"
  | truncated => "truncated buffer"
  | sliceBeyondEnd wanted start available =>
    s!"needed {wanted} bytes at offset {start}, only {available} available"
  | emptyMessage => "zero length wire buffer"
  | headerTooShort length =>
    s!"wire buffer too small for a patch header. Minimum size: 9, got: {length}"
  | noSchemaId length => s!"wire buffer too small to hold a schema id: {length} bytes"
  | rawColumnLength type length count =>
    s!"raw {type.name} column holds {length} bytes, not {count} elements"
  | trailingBytes count => s!"{count} trailing bytes after the last column"
  | codecLength codec length count size =>
    s!"opaque codec {codec} returned {length} bytes for {count} points of {size} bytes"
  | rowsOverflow count => s!"{count} points overflow the row buffer"
  | rowsRefused count => s!"cannot hold {count} points"
  | columnLength name length count =>
    s!"column \"{name}\" decodes to {length} bytes, expected {count} points"
  | emptyPointMessage => "zero length point buffer"
  | pointPayload length pcid size =>
    s!"point payload is {length} bytes, schema {pcid} needs {size}"
  | pointData length pcid size => s!"point data is {length} bytes, schema {pcid} needs {size}"
  | zeroWidthRows pcid length =>
    s!"schema {pcid} has zero-width rows but {length} bytes were supplied"
  | partialRows length size => s!"{length} bytes is not a whole number of {size} byte rows"
  | unknownRepresentation tag => s!"Unknown patch representation tag {tag}"
  | unknownMode tag => s!"Unknown column compression scheme {tag}"
  | partialPairs length pairSize =>
    s!"payload of {length} bytes is not a whole number of {pairSize} byte pairs"
  | emptyRun => "zero length run"
  | runTotal total count => s!"runs expand to {total} elements, expected {count}"
  | sharedHeader length needed =>
    s!"payload of {length} bytes cannot hold the {needed} byte header"
  | sharedCount width => s!"common bit count exceeds the element width of {width} bits"
  | sharedStream length needed =>
    s!"bit stream of {length} bytes is shorter than the {needed} bytes needed"
  | sharedCapacity count size => s!"cannot hold {count} elements of {size} bytes"
  | sharedOverflow => "unique bits overflow the element"
  | deflateStream => "corrupt deflate stream"
  | deflateLength expected found =>
    s!"inflated size does not match the column. Expected {expected}, got {found}."
  | zstdStream => "corrupt frame"
  | zstdNoLength => "Input stream too short to contain size header."
  | zstdLength stated expected => s!"Size header says {stated} bytes, expected {expected}."
  | zstdContent expected found =>
    s!"Decompressed size does not match header. Expected {expected}, got {found}."
  | configText => "not a valid configuration"
  | rowMissing index => s!"row {index} lies past the end of the row buffer"
  | rowsBeyondCapacity length capacity =>
    s!"{length} row bytes do not fit into a buffer for {capacity} points"
  | roomRefused count size => s!"no room for {count} rows of {size} bytes"
  | slotsRefused count => s!"no room for {count} slots"

/-- The text shown for a fault. -/
def message (e : Fault) : String := e.family.heading ++ e.detail

end Fault

/-- The type that a token of a schema document names. -/
def Interpretation.ofToken (token : String) : Except Fault Interpretation :=
  match ofToken? token with
  | some t => .ok t
  | none => .error (.unknownInterpretation token)

/-- The form that a tag on the wire stands for. -/
def Representation.ofTag (tag : Nat) : Except Fault Representation :=
  match ofTag? tag with
  | some r => .ok r
  | none => .error (.unknownRepresentation tag)

/-- The mode that a tag on the wire stands for. -/
def Mode.ofTag (tag : UInt8) : Except Fault Mode :=
  match ofTag? tag with
  | some m => .ok m
  | none => .error (.unknownMode tag)

/-- The byte order that a flag announces. -/
def ByteOrder.ofFlag (flag : UInt8) : Except Fault ByteOrder :=
  match ofFlag? flag with
  | some o => .ok o
  | none => .error (.unknownByteOrder flag)

end PointPatch
