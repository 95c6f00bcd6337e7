import Keyring.Der.Tag
/-!
# DER elements

An element is a tag, a length and a body. There is one way to write each element, and `read?`
accepts nothing else: lengths are definite and as short as they can be. A document is one element
with nothing behind it.
-/

namespace Keyring.Der

/-- The greatest length of a body, and of a document. -/
def maxLength : Nat := 0x0fffffff

/-- A length as bytes: itself below 128, else the number of bytes that follow and these. -/
def encodeLength (n : Nat) : Bytes :=
  if n < 0x80 then [UInt8.ofNat n]
  else UInt8.ofNat (0x80 + Bytes.width n) :: Bytes.ofNatMin n

/-- The number of bytes of an element whose body has `n` of them: tag, length and body. -/
def framedLength (n : Nat) : Nat :=
  1 + (encodeLength n).length + n

/-- Reads a length off the front. The long form has to be the shortest one for its value. -/
def readLength? : Bytes → Option (Nat × Bytes)
  | [] => none
  | b :: rest =>
    if b < 0x80 then some (b.toNat, rest)
    else
      let k := b.toNat - 0x80
      let digits := rest.take k
      let n := Bytes.toNat digits
      if digits.length = k ∧ 0x80 ≤ n ∧ Bytes.width n = k ∧ n ≤ maxLength then
        some (n, rest.drop k)
      else none

/-- A tagged string of bytes. -/
structure Element where
  /-- The type of the element. -/
  tag : Tag
  /-- The content, which for a constructed element is a row of elements. -/
  body : Bytes
deriving DecidableEq, Repr

namespace Element

/-- The element as bytes. -/
def encode (e : Element) : Bytes :=
  e.tag.toByte :: encodeLength e.body.length ++ e.body

/-- Reads an element off the front. -/
def read? : Bytes → Option (Element × Bytes)
  | [] => none
  | b :: rest => do
    let tag ← Tag.ofByte? b
    let (n, rest) ← readLength? rest
    let body := rest.take n
    if body.length = n then some (⟨tag, body⟩, rest.drop n) else none

/-- Reads a document: one element and no more. -/
def ofBytes? (b : Bytes) : Option Element := do
  let (e, rest) ← read? b
  if rest.isEmpty ∧ b.length ≤ maxLength then some e else none

/-- A row of elements as bytes. -/
def encodeAll (es : List Element) : Bytes :=
  es.flatMap encode

/-- Reads at most `n` elements, which have to fill the whole string. -/
def readAll? : Nat → Bytes → Option (List Element)
  | _, [] => some []
  | 0, _ => none
  | n + 1, b => do
    let (e, rest) ← read? b
    let es ← readAll? n rest
    some (e :: es)

/-- Reads a row of elements. Each takes a byte at least, so the length bounds their number. -/
def listOfBytes? (b : Bytes) : Option (List Element) :=
  readAll? b.length b

/-- The element with the given tag that holds a row of elements. -/
def constructed (tag : Tag) (es : List Element) : Element :=
  ⟨tag, encodeAll es⟩

/-- A sequence. -/
def sequence (es : List Element) : Element :=
  constructed .sequence es

/-- The row of elements that an element with the given tag holds. -/
def parts? (tag : Tag) (e : Element) : Option (List Element) :=
  if e.tag = tag then listOfBytes? e.body else none

/-- The row of elements of a document that is a sequence. -/
def sequenceOfBytes? (b : Bytes) : Option (List Element) := do
  let e ← ofBytes? b
  e.parts? .sequence

/-! ### Primitive elements -/

/-- A byte string. -/
def octets (b : Bytes) : Element :=
  ⟨.octetString, b⟩

/-- A string of bits whose number is a multiple of eight. -/
def bits (b : Bytes) : Element :=
  ⟨.bitString, 0 :: b⟩

/-- The bytes in the body of a bit string, if no bits of the last one are unused. -/
def bitBytes? : Bytes → Option Bytes
  | 0 :: b => some b
  | _ => none

/-- The bytes of a bit string. -/
def bits? (e : Element) : Option Bytes :=
  if e.tag = .bitString then bitBytes? e.body else none

/-- The body of a non-negative integer whose value is given by its bytes, with or without leading
zeros: as short as it can be with the first bit zero. -/
def unsignedBody (b : Bytes) : Bytes :=
  match Bytes.stripZeros b with
  | [] => [0]
  | x :: r => if x < 0x80 then x :: r else 0 :: x :: r

/-- A non-negative integer, given by its bytes. -/
def unsigned (b : Bytes) : Element :=
  ⟨.integer, unsignedBody b⟩

/-- The bytes of a non-negative integer, without leading zeros. A body is accepted if it is the one
way to write its value. -/
def unsigned? (e : Element) : Option Bytes :=
  if e = unsigned e.body then some (Bytes.stripZeros e.body) else none

/-- A natural number. -/
def nat (n : Nat) : Element :=
  unsigned (Bytes.ofNatMin n)

/-- The value of a non-negative integer. -/
def nat? (e : Element) : Option Nat :=
  e.unsigned?.map Bytes.toNat

end Element

end Keyring.Der
