import UtilityCss.Diagnostic
import UtilityCss.Json.Decode

/-!
# Reading diagnostics

Diagnostics written as JSON by another run, or by another stage, are read back.
-/

namespace UtilityCss

open Json

def Location.ofJson? (j : Json) : Option Location := do
  let format : RecordFormat := ⟨["file", "line", "column"].map String.toList, 3, true⟩
  let record ← record? format j
  let file ← record.required? "file".toList text?
  let line ← record.required? "line".toList nat?
  let column ← record.required? "column".toList nat?
  return { file, line, column }

namespace Diagnostic

def Level.ofJson? (j : Json) : Option Level := do
  let label ← variant? j
  [Level.error, Level.warning].find? (·.label = label)

def Phase.ofJson? (j : Json) : Option Phase := do
  let label ← variant? j
  [Phase.extraction, Phase.generation].find? (·.label = label)

def format : RecordFormat where
  names := ["level", "phase", "message", "suggestion", "class_name", "locations"].map String.toList
  required := 6
  isOpen := true

def ofJson? (j : Json) : Option Diagnostic := do
  let record ← record? format j
  let level ← record.required? "level".toList Level.ofJson?
  let phase ← record.required? "phase".toList Phase.ofJson?
  let message ← record.required? "message".toList text?
  let suggestion ← record.optional? "suggestion".toList text?
  let className ← record.required? "class_name".toList text?
  let locations ← record.optional? "locations".toList (list? Location.ofJson?)
  return { level, phase, message, suggestion, className, locations }

def ofText? (t : Text) : Option Diagnostic :=
  (Json.parse? t).bind ofJson?

end Diagnostic

end UtilityCss
