import Quasicode.Text.Quoted

/-!
JSON documents. The fields of an object keep their order, and a name can stand twice. A document is written
over several lines: every element and field on a line of its own, indented by two spaces for each level, and
an empty list or object without a line break.
-/
namespace Quasicode

inductive Json where
  | null
  | bool (value : Bool)
  /-- A number as it is written. -/
  | number (text : String)
  | string (value : String)
  | array (elements : List Json)
  | object (fields : List (String × Json))

namespace Json

def nat (n : Nat) : Json := number (toString n)

/-- A value that may be missing. -/
def optional {α : Type} (f : α → Json) : Option α → Json
  | some a => f a
  | none => null

/-- The elements of a list. -/
def list {α : Type} (f : α → Json) (as : List α) : Json := array (as.map f)

/-! ## Strings -/

/-- One character of a string. -/
def escapedChar (c : Char) : String :=
  if c = '"' then "\\\""
  else if c = '\\' then "\\\\"
  else if c = '\n' then "\\n"
  else if c = '\r' then "\\r"
  else if c = '\t' then "\\t"
  else if c.toNat = 8 then "\\b"
  else if c.toNat = 12 then "\\f"
  else if c.toNat < 32 then
    let digits := Text.hex c.toNat
    "\\u" ++ String.ofList (List.replicate (4 - digits.length) '0') ++ digits
  else c.toString

/-- A string between double quotes. -/
def escaped (s : String) : String :=
  "\"" ++ String.join (s.toList.map escapedChar) ++ "\""

/-! ## Documents -/

/-- The beginning of a line at a level. -/
def indent (level : Nat) : String := String.ofList (List.replicate (2 * level) ' ')

/-- Puts the lines of a list or object between its brackets. -/
def enclose (level : Nat) (opening closing : String) : List String → String
  | [] => opening ++ closing
  | lines =>
    opening ++ "\n" ++ ",\n".intercalate (lines.map (indent (level + 1) ++ ·)) ++ "\n" ++
      indent level ++ closing

mutual

/-- A value whose first line starts at the given level. -/
def renderAt (level : Nat) : Json → String
  | null => "null"
  | bool value => if value then "true" else "false"
  | number text => text
  | string value => escaped value
  | array elements => enclose level "[" "]" (renderElements (level + 1) elements)
  | object fields => enclose level "\x7b" "\x7d" (renderFields (level + 1) fields)
termination_by structural value => value

def renderElements (level : Nat) : List Json → List String
  | [] => []
  | e :: es => renderAt level e :: renderElements level es
termination_by structural es => es

def renderField (level : Nat) : String × Json → String
  | (name, value) => escaped name ++ ": " ++ renderAt level value
termination_by structural field => field

def renderFields (level : Nat) : List (String × Json) → List String
  | [] => []
  | f :: fs => renderField level f :: renderFields level fs
termination_by structural fs => fs

end

/-- The written form of a document. -/
def render (document : Json) : String := renderAt 0 document

end Json

end Quasicode
