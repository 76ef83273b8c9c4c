import Sdkz.Base.Numeral

/-! # The Ascii85 codec (lib/hu/ascii85.c)

Both functions walk over `inp` with a rover and append to `outp`; the input is
memory, read by index, and the result is the return value together with the
bytes `outp[0 .. out_length)`. The decoder also reports the indices it stores to:
it always stores four bytes for a group, and counts fewer for a short one. -/

namespace Sdkz.Hu
open Sdkz.Base

def baseChar : UInt8 := 33

def ascii85InLengthMax : Int := 65536

/-! ## `ascii85_errs_e` -/

def ascii85ErrOutBufTooSmall : Int := -255
def ascii85ErrInBufTooLarge : Int := -254
def ascii85ErrBadDecodeChar : Int := -253
def ascii85ErrDecodeOverflow : Int := -252

def ascii85CharNg (c : UInt8) : Bool := c < 33 || c > 117

def ascii85GetMaxEncodedLength (inLength : Int) : Int :=
  if inLength < 0 ∨ inLength > ascii85InLengthMax then ascii85ErrInBufTooLarge
  else (inLength + 3) / 4 * 5

/-- The limit with `z` for a zero group: four bytes out of one. -/
def ascii85GetMaxDecodedLength (inLength : Int) : Int :=
  if inLength < 0 ∨ inLength > ascii85InLengthMax then ascii85ErrInBufTooLarge
  else inLength * 4

/-! ## Encoding -/

/-- A digit as a character. -/
def ascii85Char (d : UInt32) : UInt8 := d.toUInt8 + baseChar

/-- The five digits of a chunk, most significant first. -/
def encodeChunk (chunk : UInt32) : Bytes :=
  let c4 := ascii85Char (chunk % 85)
  let chunk := chunk / 85
  let c3 := ascii85Char (chunk % 85)
  let chunk := chunk / 85
  let c2 := ascii85Char (chunk % 85)
  let chunk := chunk / 85
  let c1 := ascii85Char (chunk % 85)
  let chunk := chunk / 85
  [ascii85Char chunk, c1, c2, c3, c4]

/-- Four bytes of input as a chunk, zeros behind the end. -/
def inputChunk (inp : Nat → UInt8) (inLength inRover : Nat) : UInt32 :=
  let byte (i : Nat) : UInt32 := if i < inLength then (inp i).toUInt32 else 0
  byte inRover <<< 24 ||| byte (inRover + 1) <<< 16 ||| byte (inRover + 2) <<< 8 |||
    byte (inRover + 3)

def encodeLoop (inp : Nat → UInt8) (inLength : Nat) : Nat → Nat → Bytes → Bytes
  | 0, _, out => out
  | fuel + 1, inRover, out =>
    if inRover < inLength then
      let chunkLen := inLength - inRover
      let chunk := inputChunk inp inLength inRover
      if chunk = 0 ∧ 4 ≤ chunkLen then
        encodeLoop inp inLength fuel (inRover + 4) (out ++ [122])
      else if 4 ≤ chunkLen then
        encodeLoop inp inLength fuel (inRover + 4) (out ++ encodeChunk chunk)
      else
        encodeLoop inp inLength fuel inLength (out ++ (encodeChunk chunk).take (chunkLen + 1))
    else out

/-- `encode_ascii85`: return value and encoded bytes. Every turn of the loop
takes at least one byte, so `inLength` turns are enough. -/
def encodeAscii85 (inp : Nat → UInt8) (inLength outMaxLength : Int) : Int × Bytes :=
  let outLength := ascii85GetMaxEncodedLength inLength
  if outLength < 0 then (outLength, [])
  else if outLength > outMaxLength then (ascii85ErrOutBufTooSmall, [])
  else
    let out := encodeLoop inp inLength.toNat inLength.toNat 0 []
    (out.length, out)

/-! ## Decoding -/

/-- Result of the decoder: return value, bytes counted, indices stored to. -/
structure Decoded where
  outLength : Int
  outp : Bytes
  stores : List Nat
deriving DecidableEq, Repr

/-- A digit of the input, 84 behind the end. -/
def inputDigit (inp : Nat → UInt8) (inLength i : Nat) : UInt8 :=
  if i < inLength then inp i - baseChar else 84

/-- The bytes of a chunk, most significant first. -/
def chunkBytes (chunk : UInt32) : Bytes :=
  let b3 := (chunk % 256).toUInt8
  let chunk := chunk / 256
  let b2 := (chunk % 256).toUInt8
  let chunk := chunk / 256
  let b1 := (chunk % 256).toUInt8
  let chunk := chunk / 256
  [chunk.toUInt8, b1, b2, b3]

/-- A group from its first character on; `none` if its value does not fit 32 bits.
Full groups and the last, shorter one differ only in the digits behind the end. -/
def decodeChunk (inp : Nat → UInt8) (inLength inRover : Nat) : Option UInt32 :=
  let digit (i : Nat) : UInt8 := inputDigit inp inLength (inRover + i)
  let chunk := (digit 0).toUInt32
  let chunk := chunk * 85 + (digit 1).toUInt32
  let chunk := chunk * 85 + (digit 2).toUInt32
  let chunk := chunk * 85 + (digit 3).toUInt32
  if chunk > 0xffffffff / 85 then none
  else
    let addend := digit 4
    let chunk := chunk * 85
    if chunk > 0xffffffff - addend.toUInt32 then none else some (chunk + addend.toUInt32)

/-- A character of the group that is not a digit. -/
def badDecodeChar (inp : Nat → UInt8) (inLength inRover : Nat) : Bool :=
  (List.range 5).any fun i => inRover + i < inLength && ascii85CharNg (inp (inRover + i))

def decodeLoop (inp : Nat → UInt8) (inLength : Nat) : Nat → Nat → Bytes → List Nat → Decoded
  | 0, _, out, stores => ⟨out.length, out, stores⟩
  | fuel + 1, inRover, out, stores =>
    if inRover < inLength then
      let chunkLen := inLength - inRover
      let stores' := stores ++ [out.length + 3, out.length + 2, out.length + 1, out.length]
      if inp inRover = 122 then
        decodeLoop inp inLength fuel (inRover + 1) (out ++ chunkBytes 0) stores'
      else if badDecodeChar inp inLength inRover then ⟨ascii85ErrBadDecodeChar, out, stores⟩
      else match decodeChunk inp inLength inRover with
        | none => ⟨ascii85ErrDecodeOverflow, out, stores⟩
        | some chunk =>
          if 5 ≤ chunkLen then
            decodeLoop inp inLength fuel (inRover + 5) (out ++ chunkBytes chunk) stores'
          else
            decodeLoop inp inLength fuel inLength
              (out ++ (chunkBytes chunk).take (chunkLen - 1)) stores'
    else ⟨out.length, out, stores⟩

/-- `decode_ascii85`. -/
def decodeAscii85 (inp : Nat → UInt8) (inLength outMaxLength : Int) : Decoded :=
  let outLength := ascii85GetMaxDecodedLength inLength
  if outLength < 0 then ⟨outLength, [], []⟩
  else if outLength > outMaxLength then ⟨ascii85ErrOutBufTooSmall, [], []⟩
  else decodeLoop inp inLength.toNat inLength.toNat 0 [] []

/-- A string as memory: the bytes and the NUL behind them. -/
def stringAt (s : Bytes) (i : Nat) : UInt8 := s.getD i 0

/-- The encoding of a byte string, into a buffer that is large enough. -/
def ascii85 (d : Bytes) : Bytes :=
  (encodeAscii85 (stringAt d) d.length (ascii85GetMaxEncodedLength d.length)).2

/-! ## The characters of an encoding -/

/-- A character the encoder may write. -/
def isAscii85 (c : UInt8) : Bool := !ascii85CharNg c || c == 122

theorem ascii85Char_ok {d : UInt32} (h : d.toNat < 85) : isAscii85 (ascii85Char d) = true := by
  have hall : ∀ n < 85, isAscii85 (UInt8.ofNat n + baseChar) = true := by decide
  have hd : d.toUInt8 = UInt8.ofNat d.toNat := by
    apply UInt8.toNat_inj.mp
    rw [UInt32.toNat_toUInt8, UInt8.toNat_ofNat']
  rw [ascii85Char, hd]
  exact hall _ h

theorem encodeChunk_ok {chunk : UInt32} {c : UInt8} (hc : c ∈ encodeChunk chunk) :
    isAscii85 c = true := by
  have hlt := chunk.toNat_lt
  simp only [encodeChunk, List.mem_cons, List.not_mem_nil, or_false] at hc
  rcases hc with rfl | rfl | rfl | rfl | rfl <;> refine ascii85Char_ok ?_ <;>
    simp only [UInt32.toNat_mod, UInt32.toNat_div, UInt32.reduceToNat] <;> omega

theorem encodeLoop_ok {inp : Nat → UInt8} {inLength : Nat} :
    ∀ {fuel inRover : Nat} {out : Bytes}, (∀ c ∈ out, isAscii85 c = true) →
      ∀ c ∈ encodeLoop inp inLength fuel inRover out, isAscii85 c = true
  | 0, _, _, h => h
  | fuel + 1, inRover, out, h => by
    have happend : ∀ s : Bytes, (∀ c ∈ s, isAscii85 c = true) → ∀ c ∈ out ++ s,
        isAscii85 c = true := fun s hs c hc => (List.mem_append.mp hc).elim (h c) (hs c)
    unfold encodeLoop
    split
    · simp only
      split
      · exact encodeLoop_ok (happend _ (List.all_eq_true.mp (by decide)))
      · split
        · exact encodeLoop_ok (happend _ fun c => encodeChunk_ok)
        · exact encodeLoop_ok (happend _ fun c hc => encodeChunk_ok (List.mem_of_mem_take hc))
    · exact h

/-- Every byte of an encoding is a digit or a `z`. -/
theorem ascii85_ok {d : Bytes} {c : UInt8} (hc : c ∈ ascii85 d) : isAscii85 c = true := by
  unfold ascii85 encodeAscii85 at hc
  simp only at hc
  split at hc
  · cases hc
  · split at hc
    · cases hc
    · exact encodeLoop_ok (by simp) c hc

end Sdkz.Hu
