/-!
# Structural text

`Inspect` gives the text of a value by its structure: constructors and fields are named, strings are
quoted, and collections are bracketed. It is the text of journals and error messages, where
`ToString` is the text for readers of results.
-/

namespace FlowFacts

/-- Types whose values have a structural text. -/
class Inspect (α : Type) where
  inspect : α → String

export Inspect (inspect)

namespace Text

/-- Items between brackets, separated by commas. -/
def bracketed (opening closing : String) (items : List String) : String :=
  opening ++ ", ".intercalate items ++ closing

/-- A list in square brackets. -/
def listing (items : List String) : String := bracketed "[" "]" items

/-- A set in braces. -/
def setOf (items : List String) : String := bracketed "\x7b" "\x7d" items

/-- A finite map in braces, each key before its value. -/
def mapOf (entries : List (String × String)) : String :=
  setOf (entries.map fun (key, value) => key ++ ": " ++ value)

/-- A constructor applied to unnamed arguments. -/
def applied (name : String) (arguments : List String) : String :=
  bracketed (name ++ "(") ")" arguments

/-- A constructor with named fields. -/
def fields (name : String) (entries : List (String × String)) : String :=
  bracketed (name ++ " \x7b ") " \x7d" (entries.map fun (key, value) => key ++ ": " ++ value)

/-- The letter that stands for a character behind a backslash, for the characters written so. -/
def escapeLetter? : Char → Option Char
  | '\x00' => some '0'
  | '"' => some '"'
  | '\\' => some '\\'
  | '\t' => some 't'
  | '\n' => some 'n'
  | '\r' => some 'r'
  | _ => none

/-- Whether a character is a control character, which is written by its number. -/
def isControl (c : Char) : Bool := c.val < 32 || (127 ≤ c.val && c.val < 160)

/-- A character as it stands inside a quoted text. -/
def escape (c : Char) : List Char :=
  match escapeLetter? c with
  | some letter => ['\\', letter]
  | none =>
    if isControl c then ['\\', 'u', '\x7b'] ++ Nat.toDigits 16 c.toNat ++ ['\x7d'] else [c]

/-- A text in double quotes. -/
def quoted (s : String) : String :=
  "\"" ++ String.ofList (s.toList.flatMap escape) ++ "\""

end Text

instance : Inspect String := ⟨Text.quoted⟩

instance : Inspect Int := ⟨toString⟩

instance : Inspect Nat := ⟨toString⟩

instance {α : Type} [Inspect α] : Inspect (Option α) where
  inspect
    | none => "None"
    | some a => Text.applied "Some" [inspect a]

instance {α : Type} [Inspect α] : Inspect (List α) where
  inspect as := Text.listing (as.map inspect)

instance {α β : Type} [Inspect α] [Inspect β] : Inspect (α × β) where
  inspect p := Text.applied "" [inspect p.1, inspect p.2]

end FlowFacts
