/-
# The CRC-32 of `crc32_asm.asm`

The program reads a file in pieces of at most 4096 bytes into one buffer, and takes each byte into
`ebx` through a table of 256 words.  The table is that of the polynomial `0xEDB88320`
(`crc32_table_entry`), so a pass of `.process_bytes` is a byte of the bitwise check value
(`processByte_eq`), and the reads together are the file (`crc32Asm_eq_checksum`).

What such a value says of a file is what the polynomial gives: a change within 32 bits shows
(`crc32Asm_burst`), and any four bytes can be chosen so that a wanted value comes out
(`crc32Asm_patch`).
-/
import ReproVM.Lib.Bytes
import ReproVM.Lib.Crc
import Mathlib.Data.List.GetD

namespace ReproVM

open Lib.Crc (shift byteStep checksum bits byteStep_table foldl_byteStep_flatten checksum_burst
  checksum_patch flatMap_bits_injective)

/-! ## 1. The program -/

def crc32_table : List (BitVec 32) := [
    0x00000000, 0x77073096, 0xEE0E612C, 0x990951BA, 0x076DC419, 0x706AF48F, 0xE963A535, 0x9E6495A3,
    0x0EDB8832, 0x79DCB8A4, 0xE0D5E91E, 0x97D2D988, 0x09B64C2B, 0x7EB17CBD, 0xE7B82D07, 0x90BF1D91,
    0x1DB71064, 0x6AB020F2, 0xF3B97148, 0x84BE41DE, 0x1ADAD47D, 0x6DDDE4EB, 0xF4D4B551, 0x83D385C7,
    0x136C9856, 0x646BA8C0, 0xFD62F97A, 0x8A65C9EC, 0x14015C4F, 0x63066CD9, 0xFA0F3D63, 0x8D080DF5,
    0x3B6E20C8, 0x4C69105E, 0xD56041E4, 0xA2677172, 0x3C03E4D1, 0x4B04D447, 0xD20D85FD, 0xA50AB56B,
    0x35B5A8FA, 0x42B2986C, 0xDBBBC9D6, 0xACBCF940, 0x32D86CE3, 0x45DF5C75, 0xDCD60DCF, 0xABD13D59,
    0x26D930AC, 0x51DE003A, 0xC8D75180, 0xBFD06116, 0x21B4F4B5, 0x56B3C423, 0xCFBA9599, 0xB8BDA50F,
    0x2802B89E, 0x5F058808, 0xC60CD9B2, 0xB10BE924, 0x2F6F7C87, 0x58684C11, 0xC1611DAB, 0xB6662D3D,
    0x76DC4190, 0x01DB7106, 0x98D220BC, 0xEFD5102A, 0x71B18589, 0x06B6B51F, 0x9FBFE4A5, 0xE8B8D433,
    0x7807C9A2, 0x0F00F934, 0x9609A88E, 0xE10E9818, 0x7F6A0DBB, 0x086D3D2D, 0x91646C97, 0xE6635C01,
    0x6B6B51F4, 0x1C6C6162, 0x856530D8, 0xF262004E, 0x6C0695ED, 0x1B01A57B, 0x8208F4C1, 0xF50FC457,
    0x65B0D9C6, 0x12B7E950, 0x8BBEB8EA, 0xFCB9887C, 0x62DD1DDF, 0x15DA2D49, 0x8CD37CF3, 0xFBD44C65,
    0x4DB26158, 0x3AB551CE, 0xA3BC0074, 0xD4BB30E2, 0x4ADFA541, 0x3DD895D7, 0xA4D1C46D, 0xD3D6F4FB,
    0x4369E96A, 0x346ED9FC, 0xAD678846, 0xDA60B8D0, 0x44042D73, 0x33031DE5, 0xAA0A4C5F, 0xDD0D7CC9,
    0x5005713C, 0x270241AA, 0xBE0B1010, 0xC90C2086, 0x5768B525, 0x206F85B3, 0xB966D409, 0xCE61E49F,
    0x5EDEF90E, 0x29D9C998, 0xB0D09822, 0xC7D7A8B4, 0x59B33D17, 0x2EB40D81, 0xB7BD5C3B, 0xC0BA6CAD,
    0xEDB88320, 0x9ABFB3B6, 0x03B6E20C, 0x74B1D29A, 0xEAD54739, 0x9DD277AF, 0x04DB2615, 0x73DC1683,
    0xE3630B12, 0x94643B84, 0x0D6D6A3E, 0x7A6A5AA8, 0xE40ECF0B, 0x9309FF9D, 0x0A00AE27, 0x7D079EB1,
    0xF00F9344, 0x8708A3D2, 0x1E01F268, 0x6906C2FE, 0xF762575D, 0x806567CB, 0x196C3671, 0x6E6B06E7,
    0xFED41B76, 0x89D32BE0, 0x10DA7A5A, 0x67DD4ACC, 0xF9B9DF6F, 0x8EBEEFF9, 0x17B7BE43, 0x60B08ED5,
    0xD6D6A3E8, 0xA1D1937E, 0x38D8C2C4, 0x4FDFF252, 0xD1BB67F1, 0xA6BC5767, 0x3FB506DD, 0x48B2364B,
    0xD80D2BDA, 0xAF0A1B4C, 0x36034AF6, 0x41047A60, 0xDF60EFC3, 0xA867DF55, 0x316E8EEF, 0x4669BE79,
    0xCB61B38C, 0xBC66831A, 0x256FD2A0, 0x5268E236, 0xCC0C7795, 0xBB0B4703, 0x220216B9, 0x5505262F,
    0xC5BA3BBE, 0xB2BD0B28, 0x2BB45A92, 0x5CB36A04, 0xC2D7FFA7, 0xB5D0CF31, 0x2CD99E8B, 0x5BDEAE1D,
    0x9B64C2B0, 0xEC63F226, 0x756AA39C, 0x026D930A, 0x9C0906A9, 0xEB0E363F, 0x72076785, 0x05005713,
    0x95BF4A82, 0xE2B87A14, 0x7BB12BAE, 0x0CB61B38, 0x92D28E9B, 0xE5D5BE0D, 0x7CDCEFB7, 0x0BDBDF21,
    0x86D3D2D4, 0xF1D4E242, 0x68DDB3F8, 0x1FDA836E, 0x81BE16CD, 0xF6B9265B, 0x6FB077E1, 0x18B74777,
    0x88085AE6, 0xFF0F6A70, 0x66063BCA, 0x11010B5C, 0x8F659EFF, 0xF862AE69, 0x616BFFD3, 0x166CCF45,
    0xA00AE278, 0xD70DD2EE, 0x4E048354, 0x3903B3C2, 0xA7672661, 0xD06016F7, 0x4969474D, 0x3E6E77DB,
    0xAED16A4A, 0xD9D65ADC, 0x40DF0B66, 0x37D83BF0, 0xA9BCAE53, 0xDEBB9EC5, 0x47B2CF7F, 0x30B5FFE9,
    0xBDBDF21C, 0xCABAC28A, 0x53B39330, 0x24B4A3A6, 0xBAD03605, 0xCDD70693, 0x54DE5729, 0x23D967BF,
    0xB3667A2E, 0xC4614AB8, 0x5D681B02, 0x2A6F2B94, 0xB40BBE37, 0xC30C8EA1, 0x5A05DF1B, 0x2D02EF8D]

/-- One pass of `.process_bytes`: the new `ebx`, for the byte at `buffer + rsi`. -/
def processByte (ebx : BitVec 32) (byte : UInt8) : BitVec 32 :=
  let r8d := byte.toBitVec.setWidth 32
  let eax := (ebx ^^^ r8d) &&& 0xFF#32
  let edx := ebx >>> 8
  edx ^^^ crc32_table.getD eax.toNat 0#32

/-- `.process_bytes`: the test comes after the byte, `inc rsi; cmp rsi, rcx; jl`. -/
def processBytes (buffer : Bytes) (rcx rsi : Nat) (ebx : BitVec 32) : BitVec 32 :=
  let ebx := processByte ebx (buffer.getD rsi 0)
  if rsi + 1 < rcx then processBytes buffer rcx (rsi + 1) ebx else ebx
termination_by rcx - rsi

/-- What one `read(fd, buffer, 4096)` brings before the end of the file. -/
structure Piece where
  bytes : Bytes
  nonempty : 0 < bytes.length
  le : bytes.length ≤ 4096

inductive Read
  | data (piece : Piece)
  | error

/-- `.read_loop`: the pieces go to the front of the buffer, over what was there; `read` returns 0
when the list is at its end.  `none` is `.err_read`. -/
def readLoop (buffer : Bytes) (ebx : BitVec 32) : List Read → Option (BitVec 32)
  | [] => some ebx
  | .error :: _ => none
  | .data piece :: reads =>
    let buffer := piece.bytes ++ buffer.drop piece.bytes.length
    readLoop buffer (processBytes buffer piece.bytes.length 0 ebx) reads

/-- From `ebx` set up to `.finalize`; `buffer` is zero at the start (`resb`). -/
def crc32Asm (reads : List Read) : Option (BitVec 32) :=
  (readLoop (List.replicate 4096 0) 0xFFFFFFFF#32 reads).map (· ^^^ 0xFFFFFFFF#32)

/-! ## 2. The table -/

/-- The check value of a file, bit by bit. -/
def crc32 (content : Bytes) : BitVec 32 := checksum 0xEDB88320#32 0xFFFFFFFF#32 0xFFFFFFFF#32 content

/-- All 256 entries: eight moves of the index. -/
theorem crc32_table_eq :
    crc32_table = (List.range 256).map fun i => (shift 0xEDB88320#32)^[8] (BitVec.ofNat 32 i) := by
  decide +kernel

theorem crc32_table_entry {i : BitVec 32} (hi : i.toNat < 256) :
    crc32_table.getD i.toNat 0#32 = (shift 0xEDB88320#32)^[8] i := by
  rw [crc32_table_eq, List.getD_eq_getElem?_getD, List.getElem?_map, List.getElem?_range hi]
  simp

/-! ## 3. The run -/

theorem processByte_eq (ebx : BitVec 32) (byte : UInt8) :
    processByte ebx byte = byteStep 0xEDB88320#32 ebx byte := by
  have hindex : ((ebx ^^^ byte.toBitVec.setWidth 32) &&& 0xFF#32).toNat < 256 := by
    rw [BitVec.toNat_and]
    exact Nat.lt_succ_of_le Nat.and_le_right
  rw [byteStep_table, ← crc32_table_entry hindex]
  rfl

theorem processBytes_eq (buffer : Bytes) (rcx rsi : Nat) (ebx : BitVec 32) (hrsi : rsi < rcx)
    (hrcx : rcx ≤ buffer.length) :
    processBytes buffer rcx rsi ebx =
      ((buffer.take rcx).drop rsi).foldl (byteStep 0xEDB88320#32) ebx := by
  have hcut : (buffer.take rcx).drop rsi
      = buffer.getD rsi 0 :: (buffer.take rcx).drop (rsi + 1) := by
    rw [List.drop_eq_getElem_cons (by rw [List.length_take]; omega), List.getElem_take,
      List.getD_eq_getElem _ _ (by omega)]
  rw [processBytes, hcut, List.foldl_cons, processByte_eq]
  split
  case isTrue h => exact processBytes_eq buffer rcx (rsi + 1) _ h hrcx
  case isFalse h =>
    rw [List.drop_eq_nil_of_le (by rw [List.length_take]; omega)]
    rfl
termination_by rcx - rsi

theorem readLoop_eq (buffer : Bytes) (ebx : BitVec 32) (pieces : List Piece) :
    readLoop buffer ebx (pieces.map .data) =
      some ((pieces.map Piece.bytes).flatten.foldl (byteStep 0xEDB88320#32) ebx) := by
  induction pieces generalizing buffer ebx with
  | nil => rfl
  | cons piece pieces ih =>
    have hpass : processBytes (piece.bytes ++ buffer.drop piece.bytes.length) piece.bytes.length 0 ebx
        = piece.bytes.foldl (byteStep 0xEDB88320#32) ebx := by
      rw [processBytes_eq _ _ _ _ piece.nonempty (by simp), List.take_left, List.drop_zero]
    rw [List.map_cons, List.map_cons, List.flatten_cons, List.foldl_append, readLoop, hpass, ih]

/-- **The program computes CRC-32**: however the content is cut into reads, `ebx` ends up as the
bitwise check value of the content. -/
theorem crc32Asm_eq_checksum (content : Bytes) (pieces : List Piece)
    (hcontent : (pieces.map Piece.bytes).flatten = content) :
    crc32Asm (pieces.map .data) = some (crc32 content) := by
  rw [crc32Asm, readLoop_eq, hcontent]
  rfl

/-- The file of `test_crc32.sh`, read in two pieces. -/
theorem crc32Asm_abc :
    crc32Asm ([⟨[0x61, 0x62], by decide, by decide⟩, ⟨[0x63], by decide, by decide⟩].map .data)
        = some (crc32 [0x61, 0x62, 0x63]) ∧
      crc32 [0x61, 0x62, 0x63] = 0x352441C2#32 :=
  ⟨crc32Asm_eq_checksum _ _ rfl, by decide +kernel⟩

/-! ## 4. What the value tells of a file -/

theorem crc32Asm_map (pieces : List Piece) :
    crc32Asm (pieces.map .data) = some (crc32 (pieces.map Piece.bytes).flatten) := by
  rw [crc32Asm, readLoop_eq]
  rfl

/-- **Bursts**: files that are the same but for at most 32 bits in one place, read in any pieces,
have the same value only when these bits are the same too. -/
theorem crc32Asm_burst {front burst burst' back : List Bool} {pieces pieces' : List Piece}
    (hcontent : (pieces.map Piece.bytes).flatten.flatMap bits = front ++ burst ++ back)
    (hcontent' : (pieces'.map Piece.bytes).flatten.flatMap bits = front ++ burst' ++ back)
    (hle : burst.length ≤ 32) (hlen : burst'.length = burst.length) :
    crc32Asm (pieces.map .data) = crc32Asm (pieces'.map .data) ↔ burst = burst' := by
  rw [crc32Asm_map pieces, crc32Asm_map pieces', Option.some_inj]
  constructor
  · exact checksum_burst (by decide) (by decide) hcontent hcontent' hle hlen
  · rintro rfl
    rw [flatMap_bits_injective (hcontent.trans hcontent'.symm)]

/-- The last letter of the file of `test_crc32.sh` is another one. -/
theorem crc32Asm_burst_abd :
    crc32Asm ([⟨[0x61, 0x62], by decide, by decide⟩, ⟨[0x63], by decide, by decide⟩].map .data) =
        crc32Asm ([⟨[0x61, 0x62, 0x64], by decide, by decide⟩].map .data) ↔
      bits 0x63 = bits 0x64 :=
  have hcontent : ([0x61, 0x62, 0x63] : Bytes).flatMap bits =
      [0x61, 0x62].flatMap bits ++ bits 0x63 ++ [] := by decide
  have hcontent' : ([0x61, 0x62, 0x64] : Bytes).flatMap bits =
      [0x61, 0x62].flatMap bits ++ bits 0x64 ++ [] := by decide
  crc32Asm_burst hcontent hcontent' (by decide) (by decide)

/-- **Patches**: at any place of a file there are exactly four bytes that give the whole a wanted
value, so the value does not tell that a file is the one it was. -/
theorem crc32Asm_patch (front back : Bytes) (value : BitVec 32) :
    ∃ patch : Bytes, patch.length = 4 ∧ ∀ (block : Bytes) (pieces : List Piece), block.length = 4 →
      (pieces.map Piece.bytes).flatten = front ++ block ++ back →
      (crc32Asm (pieces.map .data) = some value ↔ block = patch) := by
  have hpatch : ∃! block : Bytes, block.length = 4 ∧ crc32 (front ++ block ++ back) = value :=
    checksum_patch (k := 4) rfl (by decide) (P := 0xEDB88320#32) (by decide) front back value
  obtain ⟨patch, ⟨hlen, hvalue⟩, hunique⟩ := hpatch
  refine ⟨patch, hlen, fun block pieces hblock hcontent => ?_⟩
  rw [crc32Asm_map, hcontent, Option.some_inj]
  constructor
  · exact fun h => hunique block ⟨hblock, h⟩
  · rintro rfl
    exact hvalue

end ReproVM
