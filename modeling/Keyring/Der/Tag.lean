import Keyring.Bytes
/-!
# DER tags

The tags that documents may hold, each of which is one byte: the universal types in use, and the
numbered tags of the three other classes. Tags with numbers above 30 would need more bytes and have
no place here.
-/

namespace Keyring.Der

/-- The class of a numbered tag. -/
inductive TagClass where
  | application
  | context
  | privateUse
deriving DecidableEq, Repr

/-- The bits that mark a class. -/
def TagClass.bits : TagClass → Nat
  | .application => 0x40
  | .context => 0x80
  | .privateUse => 0xc0

/-- The type of an element. -/
inductive Tag where
  | boolean
  | integer
  | bitString
  | octetString
  | null
  | objectIdentifier
  | real
  | enumerated
  | utf8String
  | numericString
  | printableString
  | teletexString
  | videotexString
  | ia5String
  | utcTime
  | generalizedTime
  | visibleString
  | bmpString
  | sequence
  | set
  /-- A tag that is told apart by its class and number; a constructed element holds elements. -/
  | numbered (cls : TagClass) (constructed : Bool) (number : Fin 31)
deriving DecidableEq, Repr

namespace Tag

/-- The constructed tag of a field that is marked with a number. -/
abbrev explicit (number : Fin 31) : Tag := .numbered .context true number

/-- The primitive tag of a field that is marked with a number. -/
abbrev implicit (number : Fin 31) : Tag := .numbered .context false number

/-- The universal tags, with the bytes they are written as. -/
def universal : List (UInt8 × Tag) :=
  [(0x01, .boolean), (0x02, .integer), (0x03, .bitString), (0x04, .octetString), (0x05, .null),
   (0x06, .objectIdentifier), (0x09, .real), (0x0a, .enumerated), (0x0c, .utf8String),
   (0x12, .numericString), (0x13, .printableString), (0x14, .teletexString),
   (0x15, .videotexString), (0x16, .ia5String), (0x17, .utcTime), (0x18, .generalizedTime),
   (0x1a, .visibleString), (0x1e, .bmpString), (0x30, .sequence), (0x31, .set)]

/-- The byte of a tag. -/
def toByte : Tag → UInt8
  | .boolean => 0x01
  | .integer => 0x02
  | .bitString => 0x03
  | .octetString => 0x04
  | .null => 0x05
  | .objectIdentifier => 0x06
  | .real => 0x09
  | .enumerated => 0x0a
  | .utf8String => 0x0c
  | .numericString => 0x12
  | .printableString => 0x13
  | .teletexString => 0x14
  | .videotexString => 0x15
  | .ia5String => 0x16
  | .utcTime => 0x17
  | .generalizedTime => 0x18
  | .visibleString => 0x1a
  | .bmpString => 0x1e
  | .sequence => 0x30
  | .set => 0x31
  | .numbered cls constructed number =>
    UInt8.ofNat (cls.bits + (if constructed then 0x20 else 0) + number.val)

/-- The tag that a byte stands for. -/
def ofByte? (b : UInt8) : Option Tag :=
  match universal.lookup b with
  | some t => some t
  | none =>
    let numbered (cls : TagClass) : Option Tag :=
      if h : b.toNat % 32 < 31 then
        some (.numbered cls (b.toNat.testBit 5) ⟨b.toNat % 32, h⟩)
      else none
    match b.toNat / 64 with
    | 1 => numbered .application
    | 2 => numbered .context
    | 3 => numbered .privateUse
    | _ => none

end Tag

end Keyring.Der
