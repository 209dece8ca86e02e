import CryptoPrimitives.Bytes

/-!
# AES, forward direction

Keys of 16 or 32 bytes are expanded to a schedule of words; a block is four columns, each one
word with its first byte on top.
-/

set_option autoImplicit false

namespace CryptoPrimitives.Aes

abbrev Word := UInt32

def sbox : Array UInt8 :=
  #[0x63, 0x7c, 0x77, 0x7b, 0xf2, 0x6b, 0x6f, 0xc5, 0x30, 0x01, 0x67, 0x2b, 0xfe, 0xd7, 0xab, 0x76,
    0xca, 0x82, 0xc9, 0x7d, 0xfa, 0x59, 0x47, 0xf0, 0xad, 0xd4, 0xa2, 0xaf, 0x9c, 0xa4, 0x72, 0xc0,
    0xb7, 0xfd, 0x93, 0x26, 0x36, 0x3f, 0xf7, 0xcc, 0x34, 0xa5, 0xe5, 0xf1, 0x71, 0xd8, 0x31, 0x15,
    0x04, 0xc7, 0x23, 0xc3, 0x18, 0x96, 0x05, 0x9a, 0x07, 0x12, 0x80, 0xe2, 0xeb, 0x27, 0xb2, 0x75,
    0x09, 0x83, 0x2c, 0x1a, 0x1b, 0x6e, 0x5a, 0xa0, 0x52, 0x3b, 0xd6, 0xb3, 0x29, 0xe3, 0x2f, 0x84,
    0x53, 0xd1, 0x00, 0xed, 0x20, 0xfc, 0xb1, 0x5b, 0x6a, 0xcb, 0xbe, 0x39, 0x4a, 0x4c, 0x58, 0xcf,
    0xd0, 0xef, 0xaa, 0xfb, 0x43, 0x4d, 0x33, 0x85, 0x45, 0xf9, 0x02, 0x7f, 0x50, 0x3c, 0x9f, 0xa8,
    0x51, 0xa3, 0x40, 0x8f, 0x92, 0x9d, 0x38, 0xf5, 0xbc, 0xb6, 0xda, 0x21, 0x10, 0xff, 0xf3, 0xd2,
    0xcd, 0x0c, 0x13, 0xec, 0x5f, 0x97, 0x44, 0x17, 0xc4, 0xa7, 0x7e, 0x3d, 0x64, 0x5d, 0x19, 0x73,
    0x60, 0x81, 0x4f, 0xdc, 0x22, 0x2a, 0x90, 0x88, 0x46, 0xee, 0xb8, 0x14, 0xde, 0x5e, 0x0b, 0xdb,
    0xe0, 0x32, 0x3a, 0x0a, 0x49, 0x06, 0x24, 0x5c, 0xc2, 0xd3, 0xac, 0x62, 0x91, 0x95, 0xe4, 0x79,
    0xe7, 0xc8, 0x37, 0x6d, 0x8d, 0xd5, 0x4e, 0xa9, 0x6c, 0x56, 0xf4, 0xea, 0x65, 0x7a, 0xae, 0x08,
    0xba, 0x78, 0x25, 0x2e, 0x1c, 0xa6, 0xb4, 0xc6, 0xe8, 0xdd, 0x74, 0x1f, 0x4b, 0xbd, 0x8b, 0x8a,
    0x70, 0x3e, 0xb5, 0x66, 0x48, 0x03, 0xf6, 0x0e, 0x61, 0x35, 0x57, 0xb9, 0x86, 0xc1, 0x1d, 0x9e,
    0xe1, 0xf8, 0x98, 0x11, 0x69, 0xd9, 0x8e, 0x94, 0x9b, 0x1e, 0x87, 0xe9, 0xce, 0x55, 0x28, 0xdf,
    0x8c, 0xa1, 0x89, 0x0d, 0xbf, 0xe6, 0x42, 0x68, 0x41, 0x99, 0x2d, 0x0f, 0xb0, 0x54, 0xbb, 0x16]

def subByte (b : UInt8) : UInt8 := sbox.getD b.toNat 0

def wordOf (a b c d : UInt8) : Word :=
  (a.toUInt32 <<< 24) ||| (b.toUInt32 <<< 16) ||| (c.toUInt32 <<< 8) ||| d.toUInt32

def byte0 (w : Word) : UInt8 := (w >>> 24).toUInt8

def byte1 (w : Word) : UInt8 := (w >>> 16).toUInt8

def byte2 (w : Word) : UInt8 := (w >>> 8).toUInt8

def byte3 (w : Word) : UInt8 := w.toUInt8

def rotl (w n : Word) : Word := (w <<< n) ||| (w >>> (32 - n))

def subWord (w : Word) : Word :=
  wordOf (subByte (byte0 w)) (subByte (byte1 w)) (subByte (byte2 w)) (subByte (byte3 w))

/-! ## Key schedule -/

def double (b : UInt8) : UInt8 := (b <<< 1) ^^^ (if b &&& 0x80 = 0 then 0 else 0x1b)

def expandFrom (keyWords total : Nat) : Nat → UInt8 → Array Word → Array Word
  | 0, _, w => w
  | rounds + 1, rcon, w =>
    let i := w.size
    if total ≤ i then w
    else
      let last := w.getD (i - 1) 0
      let (mixed, rcon) :=
        if i % keyWords = 0 then (subWord (rotl last 8) ^^^ (rcon.toUInt32 <<< 24), double rcon)
        else if 6 < keyWords ∧ i % keyWords = 4 then (subWord last, rcon)
        else (last, rcon)
      expandFrom keyWords total rounds rcon (w.push (w.getD (i - keyWords) 0 ^^^ mixed))

def words : Bytes → List Word
  | a :: b :: c :: d :: rest => wordOf a b c d :: words rest
  | _ => []

def expand (key : Bytes) : Array Word :=
  let w := (words key).toArray
  let total := 4 * (w.size + 7)
  expandFrom w.size total total 1 w

/-! ## Rounds -/

structure State where
  c0 : Word
  c1 : Word
  c2 : Word
  c3 : Word
  deriving DecidableEq, Repr

def addRoundKey (schedule : Array Word) (i : Nat) (s : State) : State :=
  ⟨s.c0 ^^^ schedule.getD (4 * i) 0, s.c1 ^^^ schedule.getD (4 * i + 1) 0,
   s.c2 ^^^ schedule.getD (4 * i + 2) 0, s.c3 ^^^ schedule.getD (4 * i + 3) 0⟩

def subColumn (w x y z : Word) : Word :=
  wordOf (subByte (byte0 w)) (subByte (byte1 x)) (subByte (byte2 y)) (subByte (byte3 z))

def subShift (s : State) : State :=
  ⟨subColumn s.c0 s.c1 s.c2 s.c3, subColumn s.c1 s.c2 s.c3 s.c0,
   subColumn s.c2 s.c3 s.c0 s.c1, subColumn s.c3 s.c0 s.c1 s.c2⟩

def doubleWord (w : Word) : Word :=
  let carries := (w >>> 7) &&& 0x01010101
  ((w &&& 0x7f7f7f7f) <<< 1) ^^^ (carries * 0x1b)

def mixColumn (w : Word) : Word :=
  let d := doubleWord w
  d ^^^ rotl (w ^^^ d) 8 ^^^ rotl w 16 ^^^ rotl w 24

def mixColumns (s : State) : State :=
  ⟨mixColumn s.c0, mixColumn s.c1, mixColumn s.c2, mixColumn s.c3⟩

def rounds (schedule : Array Word) : Nat → Nat → State → State
  | 0, _, s => s
  | 1, i, s => addRoundKey schedule i (subShift s)
  | left + 2, i, s =>
    rounds schedule (left + 1) (i + 1) (addRoundKey schedule i (mixColumns (subShift s)))

def State.ofBytes (block : Bytes) : State :=
  match words block with
  | [c0, c1, c2, c3] => ⟨c0, c1, c2, c3⟩
  | _ => ⟨0, 0, 0, 0⟩

def State.toBytes (s : State) : Bytes :=
  Bytes.be32 s.c0 ++ Bytes.be32 s.c1 ++ Bytes.be32 s.c2 ++ Bytes.be32 s.c3

def encrypt (schedule : Array Word) (block : Bytes) : Bytes :=
  (rounds schedule (schedule.size / 4 - 1) 1
    (addRoundKey schedule 0 (State.ofBytes block))).toBytes

end CryptoPrimitives.Aes
