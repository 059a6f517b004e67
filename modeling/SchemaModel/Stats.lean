import SchemaModel.Descriptor
import SchemaModel.Warning

/-!
Counting what a model holds.
-/

namespace SchemaModel

structure Stats where
  schemasResolved : Nat
  objects : Nat
  supers : Nat
  subs : Nat
  enums : Nat
  primitives : Nat
  arrays : Nat
  maps : Nat
  inlineSchemas : Nat
  aliases : Nat
  properties : Nat
  warnings : List Warning
deriving DecidableEq, Repr

namespace Stats

def empty : Stats := ⟨0, 0, 0, 0, 0, 0, 0, 0, 0, 0, 0, []⟩

def countKind (s : Stats) : SchemaKind → Stats
  | .primitive _ => { s with primitives := s.primitives + 1 }
  | .enum _ => { s with enums := s.enums + 1 }
  | .objectSingle => { s with objects := s.objects + 1 }
  | .objectSuper _ => { s with objects := s.objects + 1, supers := s.supers + 1 }
  | .objectSub => { s with objects := s.objects + 1, subs := s.subs + 1 }
  | .arrayOf _ => { s with arrays := s.arrays + 1 }
  | .mapOf _ => { s with maps := s.maps + 1 }

def countDescriptor (s : Stats) (d : SchemaDescriptor) : Stats :=
  { s with
    schemasResolved := s.schemasResolved + 1
    properties := s.properties + d.properties.length
    inlineSchemas := s.inlineSchemas + if d.inline then 1 else 0 }.countKind d.kind

def countAliases (s : Stats) (count : Nat) : Stats := { s with aliases := s.aliases + count }

def addWarnings (s : Stats) (warnings : List Warning) : Stats :=
  { s with warnings := s.warnings ++ warnings }

end Stats

end SchemaModel
