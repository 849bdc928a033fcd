import Qzt.Format.ThirdParty
import Qzt.Foundation.Words

/-!
# A reference instance of the third-party code

BLAKE3 as its specification defines it, over natural numbers below `2 ^ 32`, and a zstd
codec that stores every frame as raw blocks, which is what the encoder emits for inputs
too short to compress.  Concrete containers in this development are built and read with
this instance.
-/

namespace Qzt.Reference

open Foundation

/-! ## BLAKE3 -/

/-- Evaluate `n` before going on, so that a long computation keeps its values small. -/
def force {α : Type} (n : Nat) (k : Nat → α) : α :=
  match n with
  | 0 => k 0
  | m + 1 => k (m + 1)

/-- Evaluate every word of a list before going on. -/
def forceWords {α : Type} : List Nat → (List Nat → α) → α
  | [], k => k []
  | w :: ws, k => force w fun w => forceWords ws fun ws => k (w :: ws)

/-- Addition of three 32-bit words. -/
def add32 (a b c : Nat) : Nat :=
  Nat.mod (Nat.add (Nat.add a b) c) 4294967296

/-- The exclusive or of two words, rotated to the right by `n` bits: `low := 2 ^ n` and
`high := 2 ^ (32 - n)`. -/
def xorRotr (x y low high : Nat) : Nat :=
  force (Nat.xor x y) fun z => Nat.add (Nat.div z low) (Nat.mul (Nat.mod z low) high)

/-- The quarter-round: the four mixed words are handed to `k`. -/
def quarter {α : Type} (a b c d mx my : Nat) (k : Nat → Nat → Nat → Nat → α) : α :=
  force (add32 a b mx) fun a =>
  force (xorRotr d a 65536 65536) fun d =>
  force (add32 c d 0) fun c =>
  force (xorRotr b c 4096 1048576) fun b =>
  force (add32 a b my) fun a =>
  force (xorRotr d a 256 16777216) fun d =>
  force (add32 c d 0) fun c =>
  force (xorRotr b c 128 33554432) fun b =>
  k a b c d

/-- One round: the columns, then the diagonals. -/
def round (s m : List Nat) : List Nat :=
  match s, m with
  | [s0, s1, s2, s3, s4, s5, s6, s7, s8, s9, s10, s11, s12, s13, s14, s15],
    [m0, m1, m2, m3, m4, m5, m6, m7, m8, m9, m10, m11, m12, m13, m14, m15] =>
    quarter s0 s4 s8 s12 m0 m1 fun s0 s4 s8 s12 =>
    quarter s1 s5 s9 s13 m2 m3 fun s1 s5 s9 s13 =>
    quarter s2 s6 s10 s14 m4 m5 fun s2 s6 s10 s14 =>
    quarter s3 s7 s11 s15 m6 m7 fun s3 s7 s11 s15 =>
    quarter s0 s5 s10 s15 m8 m9 fun s0 s5 s10 s15 =>
    quarter s1 s6 s11 s12 m10 m11 fun s1 s6 s11 s12 =>
    quarter s2 s7 s8 s13 m12 m13 fun s2 s7 s8 s13 =>
    quarter s3 s4 s9 s14 m14 m15 fun s3 s4 s9 s14 =>
    [s0, s1, s2, s3, s4, s5, s6, s7, s8, s9, s10, s11, s12, s13, s14, s15]
  | s, _ => s

/-- The message permutation between rounds. -/
def permute : List Nat → List Nat
  | [m0, m1, m2, m3, m4, m5, m6, m7, m8, m9, m10, m11, m12, m13, m14, m15] =>
    [m2, m6, m3, m10, m7, m0, m4, m13, m1, m11, m12, m5, m9, m14, m15, m8]
  | m => m

/-- `n` rounds with the message permuted between them. -/
def rounds : Nat → List Nat → List Nat → List Nat
  | 0, s, _ => s
  | n + 1, s, m => rounds n (round s m) (permute m)

/-- The initial value. -/
def iv : List Nat :=
  [0x6a09e667, 0xbb67ae85, 0x3c6ef372, 0xa54ff53a, 0x510e527f, 0x9b05688c, 0x1f83d9ab, 0x5be0cd19]

/-- The chaining value of one compression. -/
def compress (cv block : List Nat) (counter blockLen flags : Nat) : List Nat :=
  let s := rounds 7 (cv ++ iv.take 4 ++ [counter % 4294967296, counter / 4294967296, blockLen,
    flags]) block
  List.zipWith (· ^^^ ·) (s.take 8) (s.drop 8)

/-- The first `n` little-endian words of a byte string. -/
def wordsOf : Nat → List UInt8 → List Nat
  | n + 1, a :: b :: c :: d :: bytes => leNat [a, b, c, d] :: wordsOf n bytes
  | _, _ => []

/-- The 16 little-endian words of a block, padded with zero bytes. -/
def blockWords (block : List UInt8) : List Nat :=
  wordsOf 16 (block ++ List.replicate (64 - block.length) 0)

/-- The blocks of one chunk, chained; `n` bounds the blocks left, `flags` marks the first. -/
def chunkBlocks (counter endFlags : Nat) : Nat → List Nat → List UInt8 → Nat → List Nat
  | 0, cv, _, _ => cv
  | n + 1, cv, bytes, flags =>
    if bytes.length ≤ 64 then
      forceWords (blockWords bytes) fun block =>
        compress cv block counter bytes.length (flags + endFlags)
    else
      forceWords (blockWords (bytes.take 64)) fun block =>
      forceWords (compress cv block counter 64 flags) fun cv =>
        chunkBlocks counter endFlags n cv (bytes.drop 64) 0

/-- The chaining value of a chunk of at most 1024 bytes; `root` is the root flag. -/
def chunkCv (bytes : List UInt8) (counter root : Nat) : List Nat :=
  chunkBlocks counter (2 + root) 16 iv bytes 1

/-- The number of bytes of the left subtree: the largest power-of-two number of chunks that leaves
something for the right one. -/
def leftLen (len : Nat) : Nat :=
  1024 * 2 ^ Nat.log2 ((len - 1) / 1024)

/-- The chaining value of a tree of chunks; `depth` bounds its height. -/
def treeCv : Nat → List UInt8 → Nat → Nat → List Nat
  | 0, bytes, counter, root => chunkCv bytes counter root
  | depth + 1, bytes, counter, root =>
    if bytes.length ≤ 1024 then chunkCv bytes counter root
    else
      let left := leftLen bytes.length
      forceWords (treeCv depth (bytes.take left) counter 0) fun l =>
      forceWords (treeCv depth (bytes.drop left) (counter + left / 1024) 0) fun r =>
        compress iv (l ++ r) 0 64 (4 + root)

/-- The digest bytes of a chaining value. -/
def digestBytes (cv : List Nat) : List UInt8 :=
  cv.flatMap (leBytes 4)

/-- The BLAKE3 hash: 32 bytes of the root chaining value. -/
def hash (bytes : List UInt8) : Digest :=
  let digest := digestBytes (treeCv 54 bytes 0 8)
  ⟨(digest ++ List.replicate 32 0).take 32, by simp⟩

/-- BLAKE3 with a hasher that remembers what it absorbed. -/
def blake3 : Blake3 where
  Hasher := List UInt8
  new := []
  update := fun absorbed bytes => absorbed ++ bytes
  finalize := hash
  hash := hash
  finalize_foldl_update := by
    intro parts
    have h : ∀ absorbed : List UInt8,
        parts.foldl (fun absorbed bytes => absorbed ++ bytes) absorbed
          = absorbed ++ parts.flatten := by
      induction parts with
      | nil => simp
      | cons part parts ih => simp [ih]
    rw [h, List.nil_append]

/-! ## zstd frames with raw blocks -/

/-- The magic number and the header of a frame with an unknown content size. -/
def frameHeader : List UInt8 := [0x28, 0xb5, 0x2f, 0xfd, 0x00, 0x58]

/-- The largest raw block. -/
def maxBlock : Nat := 131072

/-- A raw block: the three-byte header with the last-block bit, then the bytes. -/
def rawBlock (bytes : List UInt8) (last : Bool) : List UInt8 :=
  leBytes 3 (bytes.length * 8 + if last then 1 else 0) ++ bytes

/-- The raw blocks of a text; `n` bounds their number. -/
def rawBlocks : Nat → List UInt8 → List UInt8
  | 0, bytes => rawBlock bytes true
  | n + 1, bytes =>
    if bytes.length ≤ maxBlock then rawBlock bytes true
    else rawBlock (bytes.take maxBlock) false ++ rawBlocks n (bytes.drop maxBlock)

/-- The frame of a text. -/
def encodeFrame (bytes : List UInt8) : List UInt8 :=
  frameHeader ++ rawBlocks bytes.length bytes

/-- Read raw blocks up to the last one. -/
def readRawBlocks : Nat → List UInt8 → Option (List UInt8)
  | 0, _ => none
  | n + 1, bytes =>
    if bytes.length < 3 then none
    else
      let blockHeader := leNat (bytes.take 3)
      let size := blockHeader / 8
      let body := bytes.drop 3
      if blockHeader / 2 % 4 ≠ 0 ∨ body.length < size then none
      else if blockHeader % 2 = 1 then
        if body.length = size then some body else none
      else (readRawBlocks n (body.drop size)).map (body.take size ++ ·)

/-- A decoder holds the frame it was opened on. -/
def zstd : Zstd where
  Decoder := List UInt8
  encodeAll := fun bytes _ => some (encodeFrame bytes)
  withDictionary := fun compressed _ => some compressed
  readToEnd := fun compressed limit =>
    if compressed.take 6 = frameHeader then
      (readRawBlocks compressed.length (compressed.drop 6)).map (·.take limit)
    else none

/-- The reference environment. -/
def env : Env where
  blake3 := blake3
  zstd := zstd

/-! ## Frames are read back -/

theorem length_rawBlock (bytes : List UInt8) (last : Bool) :
    (rawBlock bytes last).length = bytes.length + 3 := by
  rw [rawBlock, List.length_append, length_leBytes, Nat.add_comm]

theorem length_rawBlocks (n : Nat) (bytes : List UInt8) :
    bytes.length + 3 ≤ (rawBlocks n bytes).length := by
  induction n generalizing bytes with
  | zero => rw [rawBlocks, length_rawBlock]
  | succ n ih =>
    rw [rawBlocks]
    split
    · rw [length_rawBlock]
    · have hrest := ih (bytes.drop maxBlock)
      rw [List.length_drop] at hrest
      rw [List.length_append, length_rawBlock, List.length_take]
      omega

/-- One block is read back. -/
theorem readRawBlocks_rawBlock (fuel : Nat) {bytes : List UInt8} (hlen : bytes.length ≤ maxBlock)
    (last : Bool) (rest : List UInt8) (hrest : last = true → rest = []) :
    readRawBlocks (fuel + 1) (rawBlock bytes last ++ rest) =
      if last then some bytes else (readRawBlocks fuel rest).map (bytes ++ ·) := by
  rw [maxBlock] at hlen
  have hlast : (if last then 1 else 0) ≤ 1 := by cases last <;> decide
  have hheader : (rawBlock bytes last ++ rest).take 3 =
      leBytes 3 (bytes.length * 8 + if last then 1 else 0) := by
    rw [rawBlock, List.append_assoc, List.take_left' (length_leBytes _ _)]
  have hbody : (rawBlock bytes last ++ rest).drop 3 = bytes ++ rest := by
    rw [rawBlock, List.append_assoc, List.drop_left' (length_leBytes _ _)]
  have hnat : leNat (leBytes 3 (bytes.length * 8 + if last then 1 else 0)) =
      bytes.length * 8 + if last then 1 else 0 := leNat_leBytes (by omega)
  have hlong : ¬ (rawBlock bytes last ++ rest).length < 3 := by
    rw [List.length_append, length_rawBlock]
    omega
  simp only [readRawBlocks, if_neg hlong, hheader, hbody, hnat]
  cases last with
  | true =>
    have hsize : (bytes.length * 8 + 1) / 8 = bytes.length := by omega
    have hkind : (bytes.length * 8 + 1) / 2 % 4 = 0 := by omega
    have hbit : (bytes.length * 8 + 1) % 2 = 1 := by omega
    simp [hrest rfl, hsize, hkind, hbit]
  | false =>
    have hsize : bytes.length * 8 / 8 = bytes.length := by omega
    have hkind : bytes.length * 8 / 2 % 4 = 0 := by omega
    have hbit : bytes.length * 8 % 2 = 0 := by omega
    simp [hsize, hkind, hbit]

theorem readRawBlocks_rawBlocks (n : Nat) {bytes : List UInt8}
    (hlen : bytes.length ≤ (n + 1) * maxBlock) {fuel : Nat} (hfuel : n < fuel) :
    readRawBlocks fuel (rawBlocks n bytes) = some bytes := by
  induction n generalizing bytes fuel with
  | zero =>
    obtain ⟨fuel, rfl⟩ := Nat.exists_eq_succ_of_ne_zero (Nat.ne_of_gt hfuel)
    have hread := readRawBlocks_rawBlock fuel (by simpa using hlen) true [] fun _ => rfl
    rw [List.append_nil] at hread
    exact hread
  | succ n ih =>
    obtain ⟨fuel, rfl⟩ := Nat.exists_eq_succ_of_ne_zero (Nat.ne_of_gt (Nat.zero_lt_of_lt hfuel))
    rw [rawBlocks]
    split
    · rename_i hshort
      have hread := readRawBlocks_rawBlock fuel hshort true [] fun _ => rfl
      rw [List.append_nil] at hread
      exact hread
    · have hrest : (bytes.drop maxBlock).length ≤ (n + 1) * maxBlock := by
        rw [List.length_drop]
        rw [Nat.add_mul] at hlen
        omega
      have htake : (bytes.take maxBlock).length ≤ maxBlock := by
        rw [List.length_take]
        omega
      rw [readRawBlocks_rawBlock fuel htake false _ (nomatch ·), ih hrest (by omega)]
      simp

/-- The raw frames of the reference codec are read back. -/
theorem env_roundTrips : env.RoundTrips := by
  intro bytes level frame hlen hencode
  obtain rfl : frame = encodeFrame bytes := by
    simp only [encodeChunk, env, zstd, okOr_some, Except.ok.injEq] at hencode
    exact hencode.symm
  have hlong := length_rawBlocks bytes.length bytes
  have hcount : bytes.length ≤ (bytes.length + 1) * maxBlock := by
    rw [maxBlock]
    omega
  have htake : (encodeFrame bytes).take 6 = frameHeader := List.take_left' rfl
  have hdrop : (encodeFrame bytes).drop 6 = rawBlocks bytes.length bytes := List.drop_left' rfl
  have hread : env.zstd.readToEnd (encodeFrame bytes) (bytes.length + 1) = some bytes := by
    have hfuel : bytes.length < (encodeFrame bytes).length := by
      rw [encodeFrame, List.length_append]
      omega
    simp only [env, zstd]
    rw [if_pos htake, hdrop, readRawBlocks_rawBlocks bytes.length hcount hfuel, Option.map_some,
      List.take_of_length_le (by omega)]
  exact decodeChunk_of_readToEnd rfl hread (Nat.le_refl _) hlen

end Qzt.Reference
