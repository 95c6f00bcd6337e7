import Keyring.Text.Base64
/-!
# Armoured documents

A document as text: a line that begins it and names its kind, the bytes in base64, and a line that
ends it. Writing uses line feeds and lines of 64 digits. Reading takes any mixture of the three line
ends, and text in front of the document.
-/

namespace Keyring.Text.Pem

/-- The kinds of documents that can be read. -/
inductive Label where
  | privateKey
  | rsaPrivateKey
  | ecPrivateKey
  | publicKey
deriving DecidableEq, Repr

/-- The kind of a document as it stands in its first and in its last line. -/
def Label.name : Label → String
  | .privateKey => "PRIVATE KEY"
  | .rsaPrivateKey => "RSA PRIVATE KEY"
  | .ecPrivateKey => "EC PRIVATE KEY"
  | .publicKey => "PUBLIC KEY"

/-- Every label. -/
def Label.all : List Label := [.privateKey, .rsaPrivateKey, .ecPrivateKey, .publicKey]

theorem Label.mem_all (l : Label) : l ∈ Label.all := by cases l <;> decide

/-- The start of a first line. -/
def beginMark : List Char := "-----BEGIN ".toList

/-- The start of a last line. -/
def endMark : List Char := "-----END ".toList

/-- What follows the label in both lines. -/
def closeMark : List Char := "-----".toList

/-- The number of digits of a full line. -/
def lineWidth : Nat := 64

/-! ### Writing -/

/-- The document with the given label, which need not be one that can be read. -/
def encode (label : List Char) (body : Bytes) : List Char :=
  beginMark ++ label ++ closeMark ++ ['\n']
    ++ (chunks lineWidth (Base64.encode body)).flatMap (· ++ ['\n'])
    ++ endMark ++ label ++ closeMark ++ ['\n']

/-! ### Line ends -/

/-- The text behind the line end that it starts with: a line feed, a carriage return, or one of each
in this order. -/
def dropLineEnd? : List Char → Option (List Char)
  | '\r' :: '\n' :: rest => some rest
  | '\r' :: rest => some rest
  | '\n' :: rest => some rest
  | _ => none

/-- The text in front of the line end that it ends with. -/
def dropFinalLineEnd? (text : List Char) : Option (List Char) :=
  match text.reverse with
  | '\n' :: '\r' :: rest => some rest.reverse
  | '\r' :: rest => some rest.reverse
  | '\n' :: rest => some rest.reverse
  | _ => none

/-! ### Reading -/

/-- The text behind the start of the first line. It stands at the front or behind a line feed, and
no null character comes before it. -/
def skipPreamble? (text : List Char) : Option (List Char) :=
  match beginMark.isPrefixOf? text with
  | some rest => some rest
  | none => afterLineFeed text
where
  /-- The text behind the first line feed that the start of a first line follows. -/
  afterLineFeed : List Char → Option (List Char)
    | [] => none
    | c :: rest =>
      if c = '\x00' then none
      else
        match if c = '\n' then beginMark.isPrefixOf? rest else none with
        | some rest => some rest
        | none => afterLineFeed rest

/-- Splits a text that starts with a label: the label, which goes up to the first dash, and what is
behind the mark that follows it. -/
def splitLabel? (text : List Char) : Option (List Char × List Char) :=
  let name := text.takeWhile (· ≠ '-')
  (closeMark.isPrefixOf? (text.drop name.length)).map (name, ·)

/-- Reads a label and the end of the first line. The label has to be one of those above, character
by character. -/
def readLabel? (text : List Char) : Option (Label × List Char) := do
  let (name, rest) ← splitLabel? text
  let label ← Label.all.find? fun label => label.name.toList = name
  some (label, rest)

/-- The digits of the lines of a text. A text of at most one line's width is the last line, which
may keep one line end; before it every line is full. -/
def joinLines? : Nat → List Char → Option (List Char)
  | 0, _ => none
  | n + 1, text =>
    if (text.drop lineWidth).isEmpty then some ((dropFinalLineEnd? text).getD text)
    else do
      let rest ← dropLineEnd? (text.drop lineWidth)
      let digits ← joinLines? n rest
      some (text.take lineWidth ++ digits)

/-- Reads a text that holds one document: its label and its bytes. -/
def decode? (text : List Char) : Option (Label × Bytes) := do
  let text ← skipPreamble? text
  let (label, text) ← readLabel? text
  let text ← dropLineEnd? text
  let text := (dropFinalLineEnd? text).getD text
  let text ← (endMark ++ label.name.toList ++ closeMark).isSuffixOf? text
  let text ← dropFinalLineEnd? text
  let digits ← joinLines? (text.length + 1) text
  let body ← Base64.decode? digits
  some (label, body)

end Keyring.Text.Pem
