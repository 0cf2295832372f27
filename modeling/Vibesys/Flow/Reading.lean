import Mathlib.Data.Rat.Init
import Vibesys.Benchmark.Protocol

/-!
# Reading what a benchmark wrote

A benchmark writes a record stream, which `Benchmark.Protocol2` reads, or one JSON document. How bytes are read
as JSON is a parameter, a `Parser`. A number it reads is finite, or it is none: the readers refuse what overflows.
-/
namespace Vibesys.Flow
open Benchmark (Bytes Failure Named Reading reject)

inductive ReadError
  | failure (why : Failure)
  | other (message : String)
  deriving DecidableEq

def ReadError.Error : ReadError → String
  | .failure why => why.Error
  | .other message => message

inductive Json
  | null
  | bool (value : Bool)
  | number (token : String)
  | string (value : String)
  | list (items : List Json)
  | object (fields : List (String × Json))

structure Parser where
  /-- A line, and its number for the message, as a record. -/
  parseLine : Bytes → ℕ → Except Benchmark.Rejection (Benchmark.Rec ℚ)
  /-- The first JSON value of a file, and whether something follows it; or why there is none. -/
  decode : Bytes → Except String (Json × Bool)
  /-- A number token as a finite number. -/
  number : String → Option ℚ

namespace Parser

def Protocol2 (p : Parser) (stream : Bytes) (scored : String) : Except Failure (Reading ℚ) :=
  Benchmark.Protocol2 String.quote p.parseLine stream scored

def JSONField (p : Parser) (data : Bytes) (field : String) : Except Failure (Reading ℚ) :=
  if Benchmark.isBlank data then .error (reject .malformedFile "the result file is empty")
  else match p.decode data with
    | .error why => .error (reject .malformedFile s!"the result file is not valid JSON: {why}")
    | .ok (_,true) => .error (reject .malformedFile "the result file holds more than one JSON value")
    | .ok (top,false) =>
      let entries : Option (List (List (String × Json))) :=
        match top with
        | .object fields => some [fields]
        | .list items => some (items.filterMap fun item => match item with
            | .object fields => some fields
            | _ => none)
        | _ => none
      match entries with
      | none => .error (reject .malformedFile "the result file is neither a JSON object nor a list of objects")
      | some entries =>
        let shown := field.quote
        let carrying := entries.filterMap fun fields => fields.lookup field
        let count := carrying.length
        match carrying with
        | [] => .error (reject .missingMetric s!"the result file has no field {shown}")
        | [.number token] =>
          match p.number token with
          | none => .error (reject .nonFiniteValue s!"the field {shown} = {token} is not finite")
          | some value => .ok ⟨value,[]⟩
        | [_] => .error (reject .nonNumericValue s!"the field {shown} is not a number")
        | _ => .error (reject .ambiguousMetric s!"{count} entries of the result file carry the field {shown}; expected exactly one")

theorem Protocol2_others {p : Parser} {stream : Bytes} {scored : String} {got : Reading ℚ}
    (h : p.Protocol2 stream scored = .ok got) : (got.others.map Named.name).Nodup := by
  unfold Protocol2 Benchmark.Protocol2 at h
  split at h
  · cases h
  unfold Benchmark.Scan.finish at h
  split at h
  · cases h
  split at h
  · cases h
  rename_i values _
  split at h
  · obtain rfl := Except.ok.inj h
    rw [List.map_map]
    exact (List.filter_sublist.map Sigma.fst).nodup values.nodup_keys
  · cases h
  · cases h

end Parser
end Vibesys.Flow
