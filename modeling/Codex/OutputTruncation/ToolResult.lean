import Codex.Lib.Bytes
import Mathlib.Algebra.Group.Nat.Defs
import Mathlib.Data.List.Chain

/-!
# Truncating the result of a tool

A tool result whose JSON is too long is replaced by a preview of this JSON.  Written as JSON the
preview may become longer than its budget, so the budget shrinks until the replacement fits or
nothing of the preview is left.  How JSON is written is left open, and so is how long it gets.

`truncateMcpToolResult_spec` describes the rounds as a chain of budgets: the first is the given
limit, each next one is computed from the length of a replacement that is too long (`Shrinks`),
and the last round fits or has no budget left (`Ends`).  As the budgets decrease the loop ends
(`truncateLoop_spec`).
-/

namespace Codex.OutputTruncation

open Bytes List

/-! ## Truncating text -/

def formatTruncationMarker (removedCount : ℕ) : Str :=
  s!"…{removedCount} chars truncated…".toList

/-- The number of removed characters, the text before and the text behind them.  The offsets grow,
so what is kept before is a front of the text and what is kept behind is an end of it. -/
def splitString (beginningBytes tailStartTarget : ℕ) : ℕ → Str → ℕ × Str × Str
  | _, [] => (0, [], [])
  | start, c :: rest =>
    let charEnd := start + (utf8Char c).length
    let (removed, before, after) := splitString beginningBytes tailStartTarget charEnd rest
    if charEnd ≤ beginningBytes then (removed, c :: before, after)
    else if tailStartTarget ≤ start then (removed, before, c :: after)
    else (removed + 1, before, after)

/-- Keeps the two ends of the text, with a marker for what is left out. -/
def truncateMiddleChars (s : Str) (maxBytes : ℕ) : Str :=
  let totalBytes := (asBytes s).length
  if s = [] then []
  else if maxBytes = 0 then formatTruncationMarker s.length
  else if totalBytes ≤ maxBytes then s
  else
    let leftBudget := maxBytes / 2
    let (removed, before, after) :=
      splitString leftBudget (totalBytes - (maxBytes - leftBudget)) 0 s
    before ++ formatTruncationMarker removed ++ after

/-! ## Truncating a result -/

structure CallToolResult (Json : Type) where
  content : List Json
  structuredContent : Option Json
  isError : Option Bool
  metadata : Option Json

/-- How a text becomes a content item and a result becomes JSON; the latter may fail. -/
class JsonWriter (Json : Type) where
  textItem : Str → Json
  toJson : CallToolResult Json → Option Str

open JsonWriter

variable {Json : Type} [JsonWriter Json] (result : CallToolResult Json) (maxBytes : ℕ)

/-- How long the JSON of the result is. -/
def jsonLen : Option ℕ := (toJson result).map fun text => (asBytes text).length

/-- The result with the preview in place of its content. -/
def replacement (preview : Str) : CallToolResult Json :=
  ⟨[textItem preview], none, result.isError, none⟩

def previewOf (serialized : Str) (budget : ℕ) : Str :=
  if budget = 0 then [] else truncateMiddleChars serialized budget

/-- Two rounds in a row: the replacement that the first budget allows is too long, and the second
budget is the first one scaled down by this length, and smaller. -/
def Shrinks (serialized : Str) (budget next : ℕ) : Prop :=
  next < budget ∧ ∃ len ∈ jsonLen (replacement result (previewOf serialized budget)),
    maxBytes < len ∧ next = min (min (budget * maxBytes) (2 ^ 64 - 1) / len) (budget - 1)

end Codex.OutputTruncation
