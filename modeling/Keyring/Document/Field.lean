import Keyring.Der.ObjectIdentifier
/-!
# Optional fields of documents

Fields that may be absent are marked with numbers, in ascending order. Reading a field skips what
has a lower number, and what is left are the elements behind it.
-/

namespace Keyring.Document

open Der

/-- The number of the field for attributes of the key, of which its curve is one. -/
abbrev attributesNumber : Fin 31 := ⟨0, by decide⟩

/-- The number of the field for the public key. -/
abbrev publicKeyNumber : Fin 31 := ⟨1, by decide⟩

/-- Whether an element is marked with the given number, constructed or not. -/
def isMarked (number : Fin 31) (e : Element) : Bool :=
  match e.tag with
  | .numbered .context _ k => k = number
  | _ => false

/-- Whether an element is a marked field that holds exactly one element. -/
def isExtension (e : Element) : Bool :=
  match e.tag with
  | .numbered .context true _ =>
    match Element.listOfBytes? e.body with
    | some [_] => true
    | _ => false
  | _ => false

/-- The one element that a constructed field with the given number holds. -/
def content? (number : Fin 31) (e : Element) : Option Element := do
  match ← e.parts? (.explicit number) with
  | [inner] => some inner
  | _ => none

/-- Reads the field for the public key, behind any fields for attributes: its value, if it is there,
and the elements behind it. A field that is there has to be readable. -/
def readPublicKey? (read : Element → Option Bytes) (es : List Element) :
    Option (Option Bytes × List Element) :=
  match es.dropWhile (isMarked attributesNumber) with
  | [] => some (none, [])
  | e :: rest =>
    if isMarked publicKeyNumber e then (read e).map fun b => (some b, rest)
    else some (none, e :: rest)

end Keyring.Document
