/-
  This file defines codecs: ways to write values as bytes,
  and to read them back from the front of a byte list.

  A number below 251 is one byte.  A greater one is a marker
  and two, four or eight bytes, least significant first,
  where the writer takes the shortest form.  A text is its
  length and its bytes in UTF-8, and a list is its length
  and its items.

  Main declarations:
    * `Codec`
    * `Codec.word32`
    * `Codec.count`
    * `Codec.text`
    * `Codec.option`
    * `Codec.list`
    * `Codec.pair`
    * `Codec.iso`
-/

namespace CallFlow

/- A writer and a reader of the values of a type. -/
structure Codec (α : Type) where
  write : α → List UInt8
  read : List UInt8 → Option (α × List UInt8)

namespace Codec

variable {α β : Type}

------------------------------------------------------------
-- Numbers
------------------------------------------------------------

/- The low bytes of a number, least significant first. -/
def lowBytes : Nat → Nat → List UInt8
  | 0, _ => []
  | count + 1, n =>
      UInt8.ofNat (n % 256) :: lowBytes count (n / 256)

/- The number of some bytes, least significant first. -/
def ofLowBytes : List UInt8 → Nat
  | [] => 0
  | b :: rest => b.toNat + 256 * ofLowBytes rest

/- Read a number of a given count of bytes. -/
def readLow
    (count : Nat)
    (bs : List UInt8) : Option (Nat × List UInt8) :=
  if count ≤ bs.length then
    some (ofLowBytes (bs.take count), bs.drop count)
  else none

/- The least marker: smaller bytes are numbers. -/
def marker : Nat :=
  251

/- Write a number in its shortest form. -/
def writeNat
    (n : Nat) : List UInt8 :=
  if n < marker then [UInt8.ofNat n]
  else if n < 65536 then 251 :: lowBytes 2 n
  else if n < 4294967296 then 252 :: lowBytes 4 n
  else 253 :: lowBytes 8 n

/- Read a number in a form of at most `widest` bytes. -/
def readNat
    (widest : Nat) :
    List UInt8 → Option (Nat × List UInt8)
  | [] => none
  | b :: rest =>
      if b.toNat < marker then some (b.toNat, rest)
      else if b = 251 then readLow 2 rest
      else if b = 252 then readLow 4 rest
      else if b = 253 ∧ 8 ≤ widest then readLow 8 rest
      else none

/- Numbers of 32 bits. -/
def word32 : Codec UInt32 where
  write n := writeNat n.toNat
  read bs :=
    (readNat 4 bs).map fun r => (UInt32.ofNat r.1, r.2)

/- Counts and lengths, which have at most 64 bits. -/
def count : Codec Nat where
  write n := writeNat n
  read bs := readNat 8 bs

/- The numbers of the cases of a type. -/
def caseNumber : Codec Nat where
  write n := writeNat n
  read bs := readNat 4 bs

------------------------------------------------------------
-- Small types
------------------------------------------------------------

/- Truth values. -/
def bool : Codec Bool where
  write b := [if b then 1 else 0]
  read
    | 0 :: rest => some (false, rest)
    | 1 :: rest => some (true, rest)
    | _ => none

/- The bytes of a text in UTF-8. -/
def utf8
    (s : String) : List UInt8 :=
  s.toByteArray.data.toList

/- The text of some bytes in UTF-8, if they are valid. -/
def ofUtf8?
    (bs : List UInt8) : Option String :=
  String.fromUTF8? ⟨bs.toArray⟩

/- Texts. -/
def text : Codec String where
  write s := count.write (utf8 s).length ++ utf8 s
  read bs := do
    let (n, rest) ← count.read bs
    if n ≤ rest.length then
      return (← ofUtf8? (rest.take n), rest.drop n)
    else none

------------------------------------------------------------
-- Combinations
------------------------------------------------------------

/- A value or nothing. -/
def option
    (c : Codec α) : Codec (Option α) where
  write
    | none => [0]
    | some a => 1 :: c.write a
  read
    | 0 :: rest => some (none, rest)
    | 1 :: rest =>
        (c.read rest).map fun r => (some r.1, r.2)
    | _ => none

/- Read a given number of values. -/
def readItems
    (c : Codec α) :
    Nat → List UInt8 → Option (List α × List UInt8)
  | 0, bs => some ([], bs)
  | n + 1, bs => do
      let (a, rest) ← c.read bs
      let (items, rest) ← readItems c n rest
      return (a :: items, rest)

/- Lists. -/
def list
    (c : Codec α) : Codec (List α) where
  write items :=
    count.write items.length ++ items.flatMap c.write
  read bs := do
    let (n, rest) ← count.read bs
    readItems c n rest

/- One value after another. -/
def pair
    (a : Codec α)
    (b : Codec β) : Codec (α × β) where
  write p := a.write p.1 ++ b.write p.2
  read bs := do
    let (x, rest) ← a.read bs
    let (y, rest) ← b.read rest
    return ((x, y), rest)

/- Values that are written as those of another type. -/
def iso
    (c : Codec α)
    (unwrap : β → α)
    (wrap : α → Option β) : Codec β where
  write b := c.write (unwrap b)
  read bs := do
    let (a, rest) ← c.read bs
    return (← wrap a, rest)

/- Read a value and change it. -/
def readAs
    (c : Codec α)
    (f : α → β)
    (bs : List UInt8) : Option (β × List UInt8) :=
  (c.read bs).map fun r => (f r.1, r.2)

end Codec

end CallFlow
