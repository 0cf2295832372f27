import Mathlib.Data.String.Basic
import Vibesys.Library.Table

/-!
# The benchmark stream reader

`Protocol2` reads the record stream that a benchmark wrote, one record a line. How a line becomes a record is a
parameter, and so is the quoting of names in messages. A map of Go may be nil, which matters for the values of a result:
nil values are told from no result at all by nothing.
-/
namespace Vibesys.Benchmark

open Library

abbrev Bytes := List UInt8

def ProtocolVersion : ℕ := 2

inductive Code
  | missingHello
  | helloNotFirst
  | duplicateHello
  | unsupportedProtocol
  | emptyMetrics
  | invalidMetricName
  | noOutcome
  | unknownMetric
  | missingMetric
  | nonNumericValue
  | nonFiniteValue
  | unsupportedLabel
  | unknownKind
  | unknownKey
  | malformedLine
  | invalidRecord
  | malformedFile
  | ambiguousMetric
  deriving DecidableEq

def Code.text : Code → String
  | .missingHello => "MISSING_HELLO"
  | .helloNotFirst => "HELLO_NOT_FIRST"
  | .duplicateHello => "DUPLICATE_HELLO"
  | .unsupportedProtocol => "UNSUPPORTED_PROTOCOL"
  | .emptyMetrics => "EMPTY_METRICS"
  | .invalidMetricName => "INVALID_METRIC_NAME"
  | .noOutcome => "NO_OUTCOME"
  | .unknownMetric => "UNKNOWN_METRIC"
  | .missingMetric => "MISSING_METRIC"
  | .nonNumericValue => "NON_NUMERIC_VALUE"
  | .nonFiniteValue => "NON_FINITE_VALUE"
  | .unsupportedLabel => "UNSUPPORTED_LABEL"
  | .unknownKind => "UNKNOWN_KIND"
  | .unknownKey => "UNKNOWN_KEY"
  | .malformedLine => "MALFORMED_LINE"
  | .invalidRecord => "INVALID_RECORD"
  | .malformedFile => "MALFORMED_FILE"
  | .ambiguousMetric => "AMBIGUOUS_METRIC"

structure Rejection where
  code : Code
  message : String
  deriving DecidableEq

structure Reported where
  message : String
  requirement : String
  deriving DecidableEq

inductive Failure
  | rejection (why : Rejection)
  | reported (what : Reported)
  deriving DecidableEq

def Failure.Error : Failure → String
  | .rejection why => why.code.text ++ ": " ++ why.message
  | .reported ⟨message,requirement⟩ =>
    if requirement ≠ "" then s!"the benchmark reported that requirement {requirement} is not met: {message}"
    else "the benchmark reported an error: " ++ message

structure Named (V : Type) where
  name : String
  value : V
  deriving DecidableEq

structure Reading (V : Type) where
  value : V
  others : List (Named V)
  deriving DecidableEq

/-- The metrics of a hello are given by whether they are required. -/
inductive Rec (V : Type)
  | hello (protocol : ℕ) (metrics : Table String Bool)
  | result (label : String) (values : Option (Table String V))
  | error (message requirement : String)

def reject (code : Code) (message : String) : Failure := .rejection ⟨code,message⟩

/-! ## Lines -/

/-- The lines of a stream: what follows the last line break is one if it is not empty. -/
def linesOf : Bytes → List Bytes
  | [] => []
  | b :: rest =>
    if b = 10 then [] :: linesOf rest
    else
      match linesOf rest with
      | [] => [[b]]
      | line :: lines => (b :: line) :: lines

/-- All of the line is white space, in UTF-8. -/
def isBlank : Bytes → Bool
  | [] => true
  | 0xC2 :: 0x85 :: rest => isBlank rest
  | 0xC2 :: 0xA0 :: rest => isBlank rest
  | 0xE1 :: 0x9A :: 0x80 :: rest => isBlank rest
  | 0xE2 :: 0x80 :: c :: rest =>
    (decide (0x80 ≤ c ∧ c ≤ 0x8A) || decide (c = 0xA8) || decide (c = 0xA9) || decide (c = 0xAF)) && isBlank rest
  | 0xE2 :: 0x81 :: 0x9F :: rest => isBlank rest
  | 0xE3 :: 0x80 :: 0x80 :: rest => isBlank rest
  | b :: rest => (decide (9 ≤ b ∧ b ≤ 13) || decide (b = 32)) && isBlank rest

/-- Unicode white space, with the C0 separators. -/
def isSpace (c : Char) : Bool :=
  let n := c.toNat
  decide (9 ≤ n ∧ n ≤ 13) || decide (0x1C ≤ n ∧ n ≤ 0x20) || decide (n = 0x85) || decide (n = 0xA0) || decide (n = 0x1680) ||
    decide (0x2000 ≤ n ∧ n ≤ 0x200A) || decide (n = 0x2028) || decide (n = 0x2029) || decide (n = 0x202F) ||
    decide (n = 0x205F) || decide (n = 0x3000)

/-! ## Records -/

section Records

variable {V : Type} (quote : String → String)

def quoted (names : List String) : String := String.intercalate ", " (names.map quote)

def checkHello (protocol : ℕ) (metrics : Table String Bool) : Except Failure Unit :=
  if protocol ≠ ProtocolVersion then
    .error (reject .unsupportedProtocol
      s!"the hello record has key 'protocol' = {protocol}, but this reader implements version {ProtocolVersion}")
  else if metrics.keys = [] then .error (reject .emptyMetrics "the hello record has an empty key 'metrics'")
  else
    match metrics.keys.find? fun name => name.isEmpty || name.toList.any isSpace with
    | some name =>
      .error (reject .invalidMetricName ("the hello record declares metric " ++ quote name ++
        ": metric names must be non-empty and contain no whitespace"))
    | none => .ok ()

def names (values : Option (Table String V)) : List String := values.elim [] Table.keys

def checkResult (declared : Table String Bool) (label : String) (values : Option (Table String V)) (position : ℕ) :
    Except Failure (Option (Table String V)) :=
  if label ≠ "" then
    .error (reject .unsupportedLabel (s!"record {position} has key 'label' = " ++ quote label ++
      s!", but protocol {ProtocolVersion} accepts only the default label"))
  else
    let unknown := (names values).filter fun name => (declared.find? name).isNone
    let missing := declared.keys.filter fun name => decide (name ∉ names values) && (declared.find? name).getD false
    if unknown ≠ [] then
      .error (reject .unknownMetric (s!"record {position} has key 'values' with undeclared metrics " ++ quoted quote unknown ++
        "; the hello record declares " ++ quoted quote declared.keys))
    else if missing ≠ [] then
      .error (reject .missingMetric (s!"record {position} has key 'values' missing required metrics " ++ quoted quote missing))
    else .ok values

structure Scan (V : Type) where
  declared : Option (Table String Bool) := none
  values : Option (Table String V) := none
  position : ℕ := 0

def Scan.take (st : Scan V) : Rec V → Except Failure (Scan V)
  | .hello protocol metrics =>
    if st.declared.isSome then .error (reject .duplicateHello s!"record {st.position} is a second hello record")
    else if st.position ≠ 1 then .error (reject .helloNotFirst s!"record {st.position} is a hello but is not first")
    else
      match checkHello quote protocol metrics with
      | .error why => .error why
      | .ok () => .ok { st with declared := some metrics }
  | .error message requirement =>
    -- an error that stands before the hello and is not first is skipped
    if st.declared.isNone && decide (st.position ≠ 1) then .ok st else .error (.reported ⟨message,requirement⟩)
  | .result label values =>
    match st.declared with
    | none => .ok st
    | some declared =>
      if st.values.isSome then
        .error (reject .invalidRecord
          s!"record {st.position} is a second result record, but protocol {ProtocolVersion} carries one operating point")
      else
        match checkResult quote declared label values st.position with
        | .error why => .error why
        | .ok values => .ok { st with values := values }

variable (parseLine : Bytes → ℕ → Except Rejection (Rec V))

def Scan.readLine (st : Scan V) (line : Bytes) (lineNo : ℕ) : Except Failure (Scan V) :=
  if isBlank line then .ok st
  else
    match parseLine line lineNo with
    | .error why => .error (.rejection why)
    | .ok record => Scan.take quote { st with position := st.position+1 } record

def Scan.readLines : List Bytes → ℕ → Scan V → Except Failure (Scan V)
  | [], _, st => .ok st
  | line :: lines, lineNo, st =>
    match st.readLine quote parseLine line (lineNo+1) with
    | .error why => .error why
    | .ok st => Scan.readLines lines (lineNo+1) st

def Scan.finish [Inhabited V] (scored : String) (st : Scan V) : Except Failure (Reading V) :=
  match st.declared with
  | none => .error (reject .missingHello "the stream has no hello record")
  | some declared =>
    match st.values with
    | none => .error (reject .noOutcome "the stream has neither a result nor an error record")
    | some values =>
      match declared.find? scored with
      | some true =>
        .ok ⟨(values.find? scored).getD default,(values.items.filter fun e => decide (e.1 ≠ scored)).map fun e => ⟨e.1,e.2⟩⟩
      | some false =>
        .error (reject .missingMetric ("the scored metric " ++ quote scored ++ " is declared optional, so a successful run may " ++
          "omit it and the task cannot rank on it; the hello record declares " ++ quoted quote declared.keys))
      | none =>
        .error (reject .missingMetric ("the scored metric " ++ quote scored ++ " is not declared by the benchmark; " ++
          "the hello record declares " ++ quoted quote declared.keys))

def Protocol2 [Inhabited V] (stream : Bytes) (scored : String) : Except Failure (Reading V) :=
  match Scan.readLines quote parseLine (linesOf stream) 0 {} with
  | .error why => .error why
  | .ok st => st.finish quote scored

end Records
end Vibesys.Benchmark
