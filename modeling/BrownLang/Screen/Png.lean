import BrownLang.Screen.Checksum
import BrownLang.Screen.Image
import BrownLang.Word

/-!
# Image files

An image as a file of chunks: a header, the rows of pixels, and an end.  The
rows are put in a compressed stream whose blocks are stored as they are.
-/

namespace BrownLang.Png

def bigEndian (n : Nat) : ByteArray := ⟨(Word.bytes n).toArray⟩

def littleEndian16 (n : Nat) : ByteArray := ⟨#[Word.byte n 3, Word.byte n 2]⟩

/-- A chunk: its length, its name, its contents, and a checksum of the latter two. -/
def chunk (name : String) (contents : ByteArray) : ByteArray :=
  let body := name.toUTF8 ++ contents
  bigEndian contents.size ++ body ++ bigEndian (Checksum.crc32 body).toNat

def blockSize : Nat := 65535

def storedBlock (bytes : ByteArray) (count k : Nat) : ByteArray :=
  let part := bytes.extract (k * blockSize) ((k + 1) * blockSize)
  let mark : UInt8 := if k + 1 = count then 1 else 0
  (ByteArray.empty.push mark) ++ littleEndian16 part.size ++
    littleEndian16 (blockSize - part.size) ++ part

def stored (bytes : ByteArray) : ByteArray :=
  let count := bytes.size / blockSize + 1
  let blocks := (List.range count).foldl (fun bs k => bs ++ storedBlock bytes count k) .empty
  ⟨#[0x78, 0x01]⟩ ++ blocks ++ bigEndian (Checksum.adler32 bytes).toNat

/-- The rows of an image; a zero before each says that its pixels stand as they are. -/
def rows (img : Image) : ByteArray :=
  let pixels := img.toBytes
  let side := 4 * img.width
  (List.range img.height).foldl
    (fun bs y => bs.push 0 ++ pixels.extract (y * side) ((y + 1) * side)) .empty

def ofImage (img : Image) : ByteArray :=
  let signature : ByteArray := ⟨#[0x89, 0x50, 0x4E, 0x47, 0x0D, 0x0A, 0x1A, 0x0A]⟩
  let header := bigEndian img.width ++ bigEndian img.height ++ ⟨#[8, 6, 0, 0, 0]⟩
  signature ++ chunk "IHDR" header ++ chunk "IDAT" (stored (rows img)) ++ chunk "IEND" .empty

end BrownLang.Png
