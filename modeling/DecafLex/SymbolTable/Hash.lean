/-! Hash values of names: folded multiplication over the bytes of a name, sixteen at a time. -/
namespace DecafLex.Hash

/-- The halves of the 128-bit product of `x` and `y`, combined. -/
def fold (x y : UInt64) : UInt64 :=
  let product := x.toNat * y.toNat
  UInt64.ofNat product ^^^ UInt64.ofNat (product >>> 64)

/-- Up to eight bytes as a number, the lowest byte first. -/
def word (bytes : List UInt8) : UInt64 :=
  bytes.foldr (fun byte rest => rest <<< 8 ||| byte.toUInt64) 0

/-- The two words of up to sixteen bytes, overlapping where there are fewer. -/
def lastWords (bytes : List UInt8) : UInt64 × UInt64 :=
  let n := bytes.length
  if 8 ≤ n then (word (bytes.take 8), word (bytes.drop (n - 8)))
  else if 4 ≤ n then (word (bytes.take 4), word (bytes.drop (n - 4)))
  else
    match bytes with
    | [] => (0, 0)
    | first :: rest =>
      let middle := bytes.getD (n / 2) 0
      let last := rest.getLastD first
      (first.toUInt64, last.toUInt64 <<< 8 ||| middle.toUInt64)

/-- Works through the bytes in blocks of sixteen, the last one made of the last sixteen bytes. -/
def absorb (s t : UInt64) (before bytes : List UInt8) : UInt64 :=
  let after := bytes.drop 16
  if after = [] then
    let (x, y) := lastWords (before.drop bytes.length ++ bytes)
    fold (s ^^^ x) (t ^^^ y)
  else
    let block := bytes.take 16
    let mixed := fold (s ^^^ word (block.take 8)) (0xa4093822299f31d0 ^^^ word (block.drop 8))
    absorb t mixed block after
termination_by bytes.length
decreasing_by
  have := List.length_pos_iff.2 ‹¬_›
  simp only [after, List.length_drop] at *
  omega

def ofBytes (bytes : List UInt8) : UInt64 :=
  absorb 0x243f6a8885a308d3 0x13198a2e03707344 [] bytes ^^^ UInt64.ofNat bytes.length

def rotateLeft (x : UInt64) (places : UInt64) : UInt64 := x <<< places ||| x >>> (64 - places)

/-- The bytes and an end mark, each added and multiplied in; then the high bits, which are mixed
best, move to the low end. -/
def ofName (name : String) : UInt64 :=
  let factor : UInt64 := 0xf1357aea2e62a9c5
  let bytes := ofBytes name.toUTF8.toList
  rotateLeft ((bytes * factor + 0xff) * factor) 26

end DecafLex.Hash
