import Mathlib.Data.UInt

/-!
# MD5

The MD5 digest of RFC 1321, as Python's `hashlib.md5` computes it: the message is padded with a
`0x80` byte, zeros and its bit length (little-endian, 64 bits) to a multiple of 64 bytes; each
64-byte block is mixed into four 32-bit words by 64 rounds; the digest is the four words,
little-endian.

Nothing here is proved about the digest. It is a definition so that code that hashes a value
can be run on a concrete input: the kernel evaluates it by `decide`.
-/

namespace Swift

namespace Md5

/-- The additive constants, `⌊|sin (i + 1)| * 2 ^ 32⌋`. -/
def constants : List UInt32 := [
  0xd76aa478, 0xe8c7b756, 0x242070db, 0xc1bdceee, 0xf57c0faf, 0x4787c62a, 0xa8304613, 0xfd469501,
  0x698098d8, 0x8b44f7af, 0xffff5bb1, 0x895cd7be, 0x6b901122, 0xfd987193, 0xa679438e, 0x49b40821,
  0xf61e2562, 0xc040b340, 0x265e5a51, 0xe9b6c7aa, 0xd62f105d, 0x02441453, 0xd8a1e681, 0xe7d3fbc8,
  0x21e1cde6, 0xc33707d6, 0xf4d50d87, 0x455a14ed, 0xa9e3e905, 0xfcefa3f8, 0x676f02d9, 0x8d2a4c8a,
  0xfffa3942, 0x8771f681, 0x6d9d6122, 0xfde5380c, 0xa4beea44, 0x4bdecfa9, 0xf6bb4b60, 0xbebfbc70,
  0x289b7ec6, 0xeaa127fa, 0xd4ef3085, 0x04881d05, 0xd9d4d039, 0xe6db99e5, 0x1fa27cf8, 0xc4ac5665,
  0xf4292244, 0x432aff97, 0xab9423a7, 0xfc93a039, 0x655b59c3, 0x8f0ccc92, 0xffeff47d, 0x85845dd1,
  0x6fa87e4f, 0xfe2ce6e0, 0xa3014314, 0x4e0811a1, 0xf7537e82, 0xbd3af235, 0x2ad7d2bb, 0xeb86d391]

/-- The rotation amounts of the 64 rounds. -/
def shifts : List UInt32 := [
  7, 12, 17, 22, 7, 12, 17, 22, 7, 12, 17, 22, 7, 12, 17, 22,
  5, 9, 14, 20, 5, 9, 14, 20, 5, 9, 14, 20, 5, 9, 14, 20,
  4, 11, 16, 23, 4, 11, 16, 23, 4, 11, 16, 23, 4, 11, 16, 23,
  6, 10, 15, 21, 6, 10, 15, 21, 6, 10, 15, 21, 6, 10, 15, 21]

/-- The four chaining words. -/
abbrev State := UInt32 × UInt32 × UInt32 × UInt32

def initial : State := (0x67452301, 0xefcdab89, 0x98badcfe, 0x10325476)

def rotateLeft (x s : UInt32) : UInt32 := (x <<< s) ||| (x >>> (32 - s))

/-- Word `i` of a 64-byte block, little-endian. -/
def word (block : List UInt8) (i : Nat) : UInt32 :=
  (block.getD (4 * i) 0).toUInt32 ||| ((block.getD (4 * i + 1) 0).toUInt32 <<< 8) |||
    ((block.getD (4 * i + 2) 0).toUInt32 <<< 16) ||| ((block.getD (4 * i + 3) 0).toUInt32 <<< 24)

/-- Round `i`: the auxiliary function and message word of its quarter, then the rotation. -/
def round (block : List UInt8) (st : State) (i : Nat) : State :=
  let (a, b, c, d) := st
  let (f, g) :=
    if i < 16 then ((b &&& c) ||| (~~~b &&& d), i)
    else if i < 32 then ((d &&& b) ||| (~~~d &&& c), (5 * i + 1) % 16)
    else if i < 48 then (b ^^^ c ^^^ d, (3 * i + 5) % 16)
    else (c ^^^ (b ||| ~~~d), (7 * i) % 16)
  let f := f + a + constants.getD i 0 + word block g
  (d, b + rotateLeft f (shifts.getD i 0), b, c)

/-- Mix one block into the chaining words. -/
def compress (st : State) (block : List UInt8) : State :=
  let r := (List.range 64).foldl (round block) st
  (st.1 + r.1, st.2.1 + r.2.1, st.2.2.1 + r.2.2.1, st.2.2.2 + r.2.2.2)

/-- Pad to a multiple of 64 bytes: `0x80`, zeros, and the bit length in 8 little-endian bytes. -/
def pad (msg : List UInt8) : List UInt8 :=
  let bits := 8 * msg.length
  msg ++ [(0x80 : UInt8)] ++ List.replicate ((55 - msg.length % 64) % 64) (0 : UInt8) ++
    (List.range 8).map fun k => ((bits >>> (8 * k)) % 256).toUInt8

def bytesOfWord (w : UInt32) : List UInt8 :=
  [w.toUInt8, (w >>> 8).toUInt8, (w >>> 16).toUInt8, (w >>> 24).toUInt8]

end Md5

open Md5 in
/-- `hashlib.md5(msg).digest()`: sixteen bytes. -/
def md5 (msg : List UInt8) : List UInt8 :=
  let padded := pad msg
  let blocks := (List.range (padded.length / 64)).map fun k => (padded.drop (64 * k)).take 64
  let st := blocks.foldl compress initial
  bytesOfWord st.1 ++ bytesOfWord st.2.1 ++ bytesOfWord st.2.2.1 ++ bytesOfWord st.2.2.2

end Swift
