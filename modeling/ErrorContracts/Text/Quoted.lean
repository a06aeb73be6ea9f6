import ErrorContracts.Text.Printable

/-!
# Quoted text

Names inside messages are put in quotes.  Single quotes are used unless the text has a single quote
and no double quote; the backslash, the enclosing quote and everything unprintable is escaped.
-/

namespace ErrorContracts.Text

def singleQuote : Char := '\x27'

def doubleQuote : Char := '\x22'

/-- The quote that encloses a text. -/
def enclosing (text : List Char) : Char :=
  if singleQuote ∈ text ∧ doubleQuote ∉ text then doubleQuote else singleQuote

/-- A number in lower-case hexadecimal, filled with zeros up to a width. -/
def hexadecimal (width n : Nat) : List Char :=
  let digits := Nat.toDigits 16 n
  List.replicate (width - digits.length) '0' ++ digits

/-- The shortest numeric escape that holds a code point. -/
def numericEscape (c : Char) : List Char :=
  if c.toNat < 0x100 then '\\' :: 'x' :: hexadecimal 2 c.toNat
  else if c.toNat < 0x10000 then '\\' :: 'u' :: hexadecimal 4 c.toNat
  else '\\' :: 'U' :: hexadecimal 8 c.toNat

/-- One character of a text that stands between two quotes. -/
def escaped (quote c : Char) : List Char :=
  if c = quote ∨ c = '\\' then ['\\', c]
  else if c = '\t' then ['\\', 't']
  else if c = '\n' then ['\\', 'n']
  else if c = '\r' then ['\\', 'r']
  else if isPrintable c then [c]
  else numericEscape c

def quoted (text : String) : String :=
  let quote := enclosing text.toList
  String.ofList (quote :: text.toList.flatMap (escaped quote) ++ [quote])

/-- A word that is not in the vocabulary it was read for. -/
structure UnknownWord where
  word : String
  vocabulary : String
  deriving DecidableEq

def UnknownWord.message (unknown : UnknownWord) : String :=
  s!"{quoted unknown.word} is not a valid {unknown.vocabulary}"

/-- Reads a word as the first item of a vocabulary that is spelt like it. -/
def readWord {α : Type} (vocabulary : String) (items : List α) (spelling : α → String)
    (word : String) : Except UnknownWord α :=
  match items.find? fun item => spelling item = word with
  | some item => .ok item
  | none => .error ⟨word, vocabulary⟩

theorem readWord_ok {α : Type} {vocabulary : String} {items : List α} {spelling : α → String}
    {word : String} {item : α} (h : readWord vocabulary items spelling word = .ok item) :
    item ∈ items ∧ spelling item = word := by
  unfold readWord at h
  split at h
  · rename_i found
    cases h
    exact ⟨List.mem_of_find?_eq_some found, by simpa using List.find?_some found⟩
  · cases h

end ErrorContracts.Text
