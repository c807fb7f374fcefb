import Kalorona.Console.Print
import Kalorona.Data.Forest
import Kalorona.Utilities.String

namespace Kalorona.Device

open Kalorona.Console Kalorona.Data Kalorona.Utilities

/-! # The device tree, as libfdt presents it

A node has an offset, a name and properties; its subnodes are visited in their order by
`fdt_for_each_subnode`.
-/

/-- A node of the blob as libfdt presents it. -/
structure FdtNode where
  offset : Int
  name : List UInt8
  properties : List (List UInt8 × List UInt8)
  /-- The name is a string of C. -/
  noTerminator : (0 : UInt8) ∉ name
deriving DecidableEq, Repr

namespace FdtNode

/-- `fdt_get_property`: the data of the property, or nothing for the null pointer. -/
def getProperty (node : FdtNode) (name : String) : Option (List UInt8) :=
  node.properties.lookup (textBytes name)

end FdtNode

/-- The root has no name. -/
def rootNode : FdtNode := ⟨0, [], [], by decide⟩

def bigEndian (bytes : List UInt8) : Nat := bytes.foldl (fun value byte => value * 256 + byte.toNat) 0

def fdt64 (data : List UInt8) (index : Nat) : Nat := bigEndian ((data.drop (8 * index)).take 8)

def fdt32 (data : List UInt8) : Nat := bigEndian (data.take 4)

end Kalorona.Device
