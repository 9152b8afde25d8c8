/-
# `Chip8.Picture.Png` — pictures as PNG files

A file is a signature and three chunks: the header, the pixels, the end.
Each chunk has its length in front and the CRC-32 of its name and contents
behind.  The pixels are red, green, blue and alpha of eight bits each, not
interlaced, every row without a filter.  They are wrapped as a zlib stream
whose blocks are stored and not compressed, with an Adler-32 checksum at the
end.
-/
import Chip8.Picture
import Chip8.Checksum

namespace Chip8
namespace Png

/-- A number in four bytes, the high one first. -/
def bigEndian (n : Nat) : List UInt8 :=
  [UInt8.ofNat (n / 2 ^ 24), UInt8.ofNat (n / 2 ^ 16), UInt8.ofNat (n / 2 ^ 8), UInt8.ofNat n]

/-- A number in two bytes, the low one first. -/
def littleEndian (n : Nat) : List UInt8 := [UInt8.ofNat n, UInt8.ofNat (n / 2 ^ 8)]

/-- The first eight bytes of every file. -/
def signature : List UInt8 := [0x89, 0x50, 0x4E, 0x47, 0x0D, 0x0A, 0x1A, 0x0A]

/-- A chunk with its length and its checksum. -/
def chunk (name : String) (contents : List UInt8) : List UInt8 :=
  let body := name.toUTF8.toList ++ contents
  bigEndian contents.length ++ body ++ bigEndian (Checksum.crc32 body 0).toNat

/-- The contents of the header: eight bits a channel, colour with alpha. -/
def headerFields (width height : Nat) : List UInt8 :=
  bigEndian width ++ bigEndian height ++ [8, 6, 0, 0, 0]

/-- The signature and the header of a picture. -/
def header (width height : Nat) : List UInt8 :=
  signature ++ chunk "IHDR" (headerFields width height)

/-- The rows of a picture, each with the mark of an unfiltered row. -/
def scanlines (rowBytes : Nat) (buffer : ByteArray) (rows : Nat) : List UInt8 :=
  (List.range rows).flatMap fun row =>
    0 :: (buffer.extract (row * rowBytes) ((row + 1) * rowBytes)).toList

/-- The largest number of bytes in a stored block. -/
def blockSize : Nat := 65535

/-- One stored block: whether it is the last, its length, the complement of
its length, its bytes. -/
def storedBlock (last : Bool) (bytes : List UInt8) : List UInt8 :=
  (if last then 1 else 0) ::
    (littleEndian bytes.length ++ littleEndian (65535 - bytes.length) ++ bytes)

/-- Bytes as stored blocks; `n` bounds the number of blocks before the
last. -/
def storedBlocks : Nat → List UInt8 → List UInt8
  | 0, bytes => storedBlock true bytes
  | n + 1, bytes =>
      if bytes.length ≤ blockSize then storedBlock true bytes
      else storedBlock false (bytes.take blockSize) ++ storedBlocks n (bytes.drop blockSize)

/-- The Adler-32 checksum. -/
def adler32 (bytes : List UInt8) : Nat :=
  let (a, b) := bytes.foldl (fun (a, b) byte =>
    let a := (a + byte.toNat) % 65521
    (a, (b + a) % 65521)) (1, 0)
  b * 65536 + a

/-- Bytes as a zlib stream. -/
def zlib (bytes : List UInt8) : List UInt8 :=
  [0x78, 0x01] ++ storedBlocks (bytes.length / blockSize) bytes ++ bigEndian (adler32 bytes)

/-- The file of a picture at a scale. -/
def encode (buffer : ByteArray) (scale : Nat) : List UInt8 :=
  let width := Picture.width scale
  let height := Picture.height scale
  header width height ++ chunk "IDAT" (zlib (scanlines (4 * width) buffer height)) ++
    chunk "IEND" []

end Png
end Chip8
