import SimpleBinary.Block.Field

/-!
# Enumerations

An enumeration names some of the numbers of its carrier. A value of it is one of the named
variants, by position, or null. Reading takes the first variant whose number is the one read, and any
value that is not named for null; so everything can be read.
-/

namespace SimpleBinary

structure Enumeration where
  carrier : Carrier
  null : carrier.Value := carrier.null
  variants : List (String × carrier.Value)

namespace Enumeration

abbrev Value (e : Enumeration) := Option (Fin e.variants.length)

def decode (e : Enumeration) (raw : e.carrier.Value) : e.Value :=
  e.variants.findFinIdx? fun v => e.carrier.same raw v.2

def encode (e : Enumeration) : e.Value → e.carrier.Value
  | some i => e.variants[i].2
  | none => e.null

def nullName : String := "NullValue"

def nameOf (e : Enumeration) : e.Value → String
  | some i => e.variants[i].1
  | none => nullName

def isDefined (e : Enumeration) (v : e.Value) : Bool := v.isSome

def values (e : Enumeration) : List e.Value :=
  (List.finRange e.variants.length).map some ++ [none]

def named? (e : Enumeration) (name : String) : Option e.Value :=
  e.values.find? fun v => e.nameOf v = name

end Enumeration

structure EnumField (e : Enumeration) where
  offset : Nat
  order : ByteOrder := .little
  since : Version := 0
deriving DecidableEq

end SimpleBinary
