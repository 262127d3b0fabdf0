import SimpleBinary.Block.Basic

/-!
# Unsigned members

The sizes and counts that structure a message (headers, group dimensions, data lengths) have the
width that the schema gives them, so they are read as plain numbers. Writing keeps the low digits;
`fit` asks beforehand whether that loses anything.
-/

namespace SimpleBinary

def Width.fit (w : Width) (n : Nat) : Except AccessError Nat :=
  if n ≤ w.max then .ok n else .error (.valueOutOfRange n w.max)

structure UnsignedField where
  offset : Nat
  width : Width
  order : ByteOrder := .little
deriving DecidableEq, Repr

namespace UnsignedField

def stop (f : UnsignedField) : Nat := f.offset + f.width.bytes

def read (f : UnsignedField) (base : Nat) (buffer : Buffer) : Except AccessError Nat :=
  f.order.decode <$> buffer.window (base + f.offset) f.width.bytes

def write (f : UnsignedField) (base n : Nat) : Edit Unit :=
  Edit.overwrite (base + f.offset) (f.order.encode f.width.bytes n)

end UnsignedField

end SimpleBinary
