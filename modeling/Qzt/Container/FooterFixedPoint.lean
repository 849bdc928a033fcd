import Qzt.Cbor.Prediction
import Qzt.Container.SchemaLaws
import Qzt.Container.Skeleton

/-!
# The footer size fixed point converges (`fixed_point_footer_payload`)

The final file size is a field of the footer payload, so the payload is as long as the
CBOR head of the size it states.  A head has one of five lengths and never shrinks when
its argument grows: each round that is not the last lengthens the head, and the eight
rounds of the loop are more than the lengths.
-/

namespace Qzt

open Foundation

/-! ## Heads -/

theorem headLen_mono {a b : Nat} (h : a ≤ b) : headLen a ≤ headLen b := by
  unfold headLen
  split_ifs <;> omega

/-- The number of head lengths above the head of a value. -/
def widerHeads (value : Nat) : Nat :=
  if value ≤ 23 then 4
  else if value ≤ 0xff then 3
  else if value ≤ 0xffff then 2
  else if value ≤ 0xffffffff then 1
  else 0

/-- A head that grows leaves fewer lengths above it. -/
theorem widerHeads_lt {a b : Nat} (h : headLen a < headLen b) : widerHeads b < widerHeads a := by
  unfold headLen at h
  unfold widerHeads
  split_ifs at h ⊢ <;> omega

/-- The longest head. -/
theorem headLen_of_ge {value : Nat} (h : 2 ^ 32 ≤ value) : headLen value = 9 := by
  unfold headLen
  split_ifs <;> omega

/-! ## Length of a footer payload -/

/-- The offset and the size are `u64` values. -/
structure BlockRef.InWords (block : BlockRef) : Prop where
  offset : block.offset < 2 ^ 64
  size : block.size < 2 ^ 64

/-- The bytes of the algorithm names a payload holds. -/
def footerNamesLen (indexRoot metadata : BlockRef) (containerChecksum : Option Checksum) : Nat :=
  (textBytes indexRoot.checksum.algorithm).length +
    (textBytes metadata.checksum.algorithm).length +
    containerChecksum.elim 0 fun checksum => (textBytes checksum.algorithm).length

/-- What the types of the arguments promise: `u64` offsets and sizes, and names that fit one
vector, which is below `isize::MAX` bytes. -/
structure FooterFields (indexRoot metadata : BlockRef) (containerChecksum : Option Checksum) :
    Prop where
  rootWords : indexRoot.InWords
  metadataWords : metadata.InWords
  names : footerNamesLen indexRoot metadata containerChecksum < 2 ^ 63

/-- The payload a round tries, which states `finalFileSize`. -/
def footerCandidate (containerId : ContainerId) (indexRoot metadata : BlockRef)
    (containerChecksum : Option Checksum) (finalFileSize : Nat) : FooterPayload :=
  { containerId, indexRoot, metadata, finalFileSize, footerFlags := 0, containerChecksum }

/-- A map with short text keys takes little more than its values. -/
theorem usage_textMap_le {entries : CborMap} (keys : List String)
    (hkeys : entries.map Prod.fst = keys.map .text)
    (hshort : ∀ key ∈ keys, (textBytes key).length ≤ 23) :
    (CborValue.map entries).usage.encodedBytes ≤
      9 + 24 * keys.length + (entries.map fun entry => entry.2.usage.encodedBytes).sum := by
  have hhead := headLen_le entries.length
  suffices h : (usageEntries entries).encodedBytes ≤
      24 * keys.length + (entries.map fun entry => entry.2.usage.encodedBytes).sum by
    simp only [CborValue.usage, CborUsage.add_encodedBytes]
    omega
  clear hhead
  induction entries generalizing keys with
  | nil => simp [usageEntries]
  | cons entry entries ih =>
    obtain ⟨first, value⟩ := entry
    cases keys with
    | nil => cases hkeys
    | cons key keys =>
      rw [List.map_cons, List.map_cons, List.cons.injEq] at hkeys
      have hfirst : first = .text key := hkeys.1
      have hlen := hshort key List.mem_cons_self
      have hrest := ih _ hkeys.2 fun k hk => hshort k (List.mem_cons_of_mem _ hk)
      have hkey : (CborValue.text key).usage.encodedBytes ≤ 24 := by
        have hone : headLen (textBytes key).length = 1 := if_pos hlen
        simp only [CborValue.usage, stringUsage, hone]
        omega
      rw [usageEntries, hfirst, List.map_cons, List.sum_cons, List.length_cons]
      simp only [CborUsage.add_encodedBytes]
      omega

theorem usage_u64Value (value : Nat) (h : value < 2 ^ 64) :
    (u64Value value).usage.encodedBytes = headLen value := by
  have hargument : integerArgument value = some (0, value) := by
    rw [integerArgument, if_pos (Int.natCast_nonneg value), Int.toNat_natCast, if_pos h]
  rw [u64Value, CborValue.usage, hargument, Option.getD_some]

theorem usage_string_le (len : Nat) : (stringUsage len).encodedBytes ≤ len + 9 := by
  have hhead := headLen_le len
  simp only [stringUsage]
  omega

theorem usage_checksumValue_le (checksum : Checksum) :
    (checksumValue checksum).usage.encodedBytes ≤ (textBytes checksum.algorithm).length + 107 := by
  unfold checksumValue
  refine le_trans (usage_textMap_le ["algorithm", "value"] rfl (by decide)) ?_
  have htext := usage_string_le (textBytes checksum.algorithm).length
  have hvalue := usage_string_le 32
  simp only [textPair, List.map_cons, List.map_nil, List.sum_cons, List.sum_nil,
    List.length_cons, List.length_nil, CborValue.usage, List.Vector.toList_length]
  omega

theorem usage_blockRefValue_le {block : BlockRef} (h : block.InWords) :
    (blockRefValue block).usage.encodedBytes ≤
      (textBytes block.checksum.algorithm).length + 206 := by
  unfold blockRefValue
  refine le_trans (usage_textMap_le ["offset", "size", "checksum"] rfl (by decide)) ?_
  have hoffset := headLen_le block.offset
  have hsize := headLen_le block.size
  have hchecksum := usage_checksumValue_le block.checksum
  simp only [textPair, List.map_cons, List.map_nil, List.sum_cons, List.sum_nil,
    List.length_cons, List.length_nil, usage_u64Value _ h.offset, usage_u64Value _ h.size]
  omega

section Candidate

variable {containerId : ContainerId} {indexRoot metadata : BlockRef}
  {containerChecksum : Option Checksum}

/-- Every candidate has an encoding. -/
theorem encodable_footerCandidate (h : FooterFields indexRoot metadata containerChecksum)
    {finalFileSize : Nat} (hsize : finalFileSize < 2 ^ 64) :
    Encodable (.map (footerCandidate containerId indexRoot metadata containerChecksum
      finalFileSize).entries) := by
  have hnames := h.names
  rw [footerNamesLen] at hnames
  have hshort : ∀ key ∈ footerKeys, (textBytes key).length < 2 ^ 32 := by decide
  refine Encodable.textMap (FooterPayload.entries_keys _) (FooterPayload.keys_nodup _) ?_
    (fun key hkey => hshort key (FooterPayload.keys_subset _ hkey)) ?_
  · unfold FooterPayload.keys
    cases (footerCandidate containerId indexRoot metadata containerChecksum
      finalFileSize).containerChecksum <;> simp
  simp only [FooterPayload.entries, footerCandidate, List.forall_mem_append, List.forall_mem_cons,
    textPair, List.not_mem_nil, false_implies, implies_true, and_true]
  refine ⟨⟨.text (by decide), encodable_versionValue, encodable_vector (by decide) containerId,
    encodable_blockRefValue h.rootWords.offset h.rootWords.size (by omega),
    encodable_blockRefValue h.metadataWords.offset h.metadataWords.size (by omega),
    encodable_u64Value hsize, encodable_u64Value (by decide)⟩, ?_⟩
  cases containerChecksum with
  | none => simp
  | some checksum =>
    rw [Option.elim_some] at hnames
    simp only [List.mem_singleton, forall_eq]
    exact encodable_checksumValue (by omega)

/-- The bytes of a candidate, the head of the stated size apart. -/
def footerBaseLen (containerId : ContainerId) (indexRoot metadata : BlockRef)
    (containerChecksum : Option Checksum) : Nat :=
  (CborValue.map (footerCandidate containerId indexRoot metadata containerChecksum
    0).entries).usage.encodedBytes - 1

theorem usage_footerCandidate {finalFileSize : Nat} (hsize : finalFileSize < 2 ^ 64) :
    (CborValue.map (footerCandidate containerId indexRoot metadata containerChecksum
      finalFileSize).entries).usage.encodedBytes =
    footerBaseLen containerId indexRoot metadata containerChecksum + headLen finalFileSize := by
  have hzero : headLen 0 = 1 := rfl
  simp only [footerBaseLen, footerCandidate, FooterPayload.entries, CborValue.usage,
    usageEntries_append, usageEntries, textPair, CborUsage.add_encodedBytes,
    usage_u64Value finalFileSize hsize, usage_u64Value 0 (by decide), hzero, List.length_append,
    List.length_cons, List.length_nil]
  omega

/-- A payload takes little more than the names it holds. -/
theorem footerBaseLen_le (h : FooterFields indexRoot metadata containerChecksum) :
    footerBaseLen containerId indexRoot metadata containerChecksum ≤
      footerNamesLen indexRoot metadata containerChecksum + 1000 := by
  have hroot := usage_blockRefValue_le h.rootWords
  have hmeta := usage_blockRefValue_le h.metadataWords
  have hschema := usage_string_le 13
  have hid := usage_string_le 16
  have hversion : versionValue.usage.encodedBytes = 3 := by decide
  have hname : (textBytes schemaFooter).length = 13 := by decide
  have hzero : headLen 0 = 1 := rfl
  have hshort : ∀ key ∈ footerKeys, (textBytes key).length ≤ 23 := by decide
  refine le_trans (Nat.sub_le _ _) (le_trans (usage_textMap_le _ (FooterPayload.entries_keys _)
    fun key hkey => hshort key (FooterPayload.keys_subset _ hkey)) ?_)
  cases containerChecksum with
  | none =>
    simp only [footerCandidate, footerNamesLen, FooterPayload.entries,
      FooterPayload.keys, textPair, List.map_append, List.map_cons, List.map_nil, List.sum_append,
      List.sum_cons, List.sum_nil, List.length_append, List.length_cons, List.length_nil,
      CborValue.usage, List.Vector.toList_length, hname, hversion, hzero,
      usage_u64Value 0 (by decide), Option.elim_none, Option.map_none, Option.toList_none]
    omega
  | some checksum =>
    have hchecksum := usage_checksumValue_le checksum
    simp only [footerCandidate, footerNamesLen, FooterPayload.entries,
      FooterPayload.keys, textPair, List.map_append, List.map_cons, List.map_nil, List.sum_append,
      List.sum_cons, List.sum_nil, List.length_append, List.length_cons, List.length_nil,
      CborValue.usage, List.Vector.toList_length, hname, hversion, hzero,
      usage_u64Value 0 (by decide), Option.elim_some, Option.map_some, Option.toList_some]
    omega

/-- The encoding of a candidate, and its length. -/
theorem encode_footerCandidate (h : FooterFields indexRoot metadata containerChecksum)
    {finalFileSize : Nat} (hsize : finalFileSize < 2 ^ 64) :
    ∃ bytes, (footerCandidate containerId indexRoot metadata containerChecksum
        finalFileSize).encode = .ok bytes ∧
      bytes.length = footerBaseLen containerId indexRoot metadata containerChecksum +
        headLen finalFileSize ∧ bytes.length < 2 ^ 64 := by
  have htrips : RoundTrips (.map (footerCandidate containerId indexRoot metadata containerChecksum
      finalFileSize).entries) := (encodable_footerCandidate h hsize).roundTrips
  have hlen := htrips.length.trans (usage_footerCandidate hsize)
  refine ⟨_, htrips.encodes, hlen, ?_⟩
  have hbase := @footerBaseLen_le containerId _ _ _ h
  have hhead := headLen_le finalFileSize
  have hnames := h.names
  omega

/-! ## The rounds -/

/-- The bytes of a file whose footer payload stands at `footerPayloadOffset`, the head of the
stated size apart. -/
def footerEndBase (containerId : ContainerId) (indexRoot metadata : BlockRef)
    (containerChecksum : Option Checksum) (footerPayloadOffset : Nat) : Nat :=
  footerPayloadOffset + footerBaseLen containerId indexRoot metadata containerChecksum +
    footerTrailerLen

/-- One round: the file that a payload stating `finalFileSize` ends. -/
theorem fixedPointLoop_succ (h : FooterFields indexRoot metadata containerChecksum)
    {footerPayloadOffset fuel finalFileSize : Nat} (hsize : finalFileSize < 2 ^ 64) :
    fixedPointLoop containerId indexRoot metadata footerPayloadOffset containerChecksum (fuel + 1)
      finalFileSize =
    let next := footerEndBase containerId indexRoot metadata containerChecksum
      footerPayloadOffset + headLen finalFileSize
    if next < 2 ^ 64 then
      if next = finalFileSize then
        .ok (footerCandidate containerId indexRoot metadata containerChecksum finalFileSize)
      else
        fixedPointLoop containerId indexRoot metadata footerPayloadOffset containerChecksum fuel
          next
    else
      .error .physicalRangeOutOfBounds := by
  obtain ⟨bytes, hbytes, hlen, hword⟩ := @encode_footerCandidate containerId _ _ _ h _ hsize
  have hnext : footerPayloadOffset + bytes.length + footerTrailerLen =
      footerEndBase containerId indexRoot metadata containerChecksum footerPayloadOffset +
        headLen finalFileSize := by
    rw [footerEndBase, hlen]
    omega
  rw [footerCandidate] at hbytes
  rw [fixedPointLoop, hbytes, ok_bind,
    usizeToU64_eq_ok_iff.mpr ⟨hword, rfl⟩, ok_bind, ← hnext]
  by_cases hsum : footerPayloadOffset + bytes.length + footerTrailerLen < 2 ^ 64
  · rw [checkedAdd_of_lt (by omega), Option.bind_some, checkedAdd_of_lt hsum, okOr_some, ok_bind,
      if_pos hsum]
    rfl
  · -- The sum overflows in the first addition or in the second.
    rw [if_neg hsum]
    by_cases hfirst : footerPayloadOffset + bytes.length < 2 ^ 64
    · rw [checkedAdd_of_lt hfirst, Option.bind_some, checkedAdd_of_ge (by omega), okOr_none,
        error_bind]
    · rw [checkedAdd_of_ge (by omega), Option.bind_none, okOr_none, error_bind]

/-- From a size that an earlier round stated, the loop stops within the lengths the head has
left: at a fixed point, or at a sum that no size keeps in a word. -/
theorem fixedPointLoop_of_stated (h : FooterFields indexRoot metadata containerChecksum)
    {footerPayloadOffset fuel previous finalFileSize : Nat}
    (hstated : finalFileSize = footerEndBase containerId indexRoot metadata containerChecksum
      footerPayloadOffset + headLen previous)
    (hle : previous ≤ finalFileSize) (hsize : finalFileSize < 2 ^ 64)
    (hfuel : widerHeads previous < fuel) :
    if footerEndBase containerId indexRoot metadata containerChecksum footerPayloadOffset + 9 <
        2 ^ 64 then
      ∃ size < 2 ^ 64, size = footerEndBase containerId indexRoot metadata containerChecksum
          footerPayloadOffset + headLen size ∧
        fixedPointLoop containerId indexRoot metadata footerPayloadOffset containerChecksum fuel
          finalFileSize = .ok (footerCandidate containerId indexRoot metadata containerChecksum size)
    else
      fixedPointLoop containerId indexRoot metadata footerPayloadOffset containerChecksum fuel
        finalFileSize = .error .physicalRangeOutOfBounds := by
  induction fuel generalizing previous finalFileSize with
  | zero => exact absurd hfuel (Nat.not_lt_zero _)
  | succ fuel ih =>
    rw [fixedPointLoop_succ h hsize]
    have hhead := headLen_le finalFileSize
    have hgrows := headLen_mono hle
    by_cases hsum : footerEndBase containerId indexRoot metadata containerChecksum
        footerPayloadOffset + headLen finalFileSize < 2 ^ 64
    · simp only [if_pos hsum]
      by_cases hfixed : footerEndBase containerId indexRoot metadata containerChecksum
          footerPayloadOffset + headLen finalFileSize = finalFileSize
      · -- A base that leaves no room for the longest head makes the size need that head.
        have hroom : footerEndBase containerId indexRoot metadata containerChecksum
            footerPayloadOffset + 9 < 2 ^ 64 := by
          by_contra hfull
          have hlong := @headLen_of_ge finalFileSize (by omega)
          omega
        rw [if_pos hroom, if_pos hfixed]
        exact ⟨finalFileSize, hsize, hfixed.symm, rfl⟩
      · rw [if_neg hfixed]
        -- The size moved, so its head is longer than the head of the size before.
        have hlonger : headLen previous < headLen finalFileSize := by omega
        have hfewer := widerHeads_lt hlonger
        exact ih rfl (by omega) hsum (by omega)
    · rw [if_neg (by omega)]
      simp only [if_neg hsum]

/-- The footer size fixed point converges.  When the file, with the longest head for its size,
ends within a word, the loop returns the payload that states the size of the file it ends; when
not, it fails as out of bounds, and no payload states the size of the file it ends. -/
theorem fixedPointFooterPayload_converges (containerId : ContainerId)
    (h : FooterFields indexRoot metadata containerChecksum) (footerPayloadOffset : Nat) :
    ∃ widest, (footerCandidate containerId indexRoot metadata containerChecksum
        (2 ^ 64 - 1)).encode = .ok widest ∧
      if footerPayloadOffset + widest.length + footerTrailerLen < 2 ^ 64 then
        ∃ payload bytes, fixedPointFooterPayload containerId indexRoot metadata
            footerPayloadOffset containerChecksum = .ok payload ∧
          payload.encode = .ok bytes ∧
          payload.finalFileSize = footerPayloadOffset + bytes.length + footerTrailerLen ∧
          payload.finalFileSize < 2 ^ 64 ∧
          payload = footerCandidate containerId indexRoot metadata containerChecksum
            payload.finalFileSize
      else
        fixedPointFooterPayload containerId indexRoot metadata footerPayloadOffset
            containerChecksum = .error .physicalRangeOutOfBounds ∧
          ∀ size < 2 ^ 64, ∀ bytes, (footerCandidate containerId indexRoot metadata
              containerChecksum size).encode = .ok bytes →
            footerPayloadOffset + bytes.length + footerTrailerLen ≠ size := by
  obtain ⟨widest, hwidest, hlen, -⟩ :=
    @encode_footerCandidate containerId _ _ _ h (2 ^ 64 - 1) (by decide)
  rw [headLen_of_ge (by decide)] at hlen
  have hwide : footerPayloadOffset + widest.length + footerTrailerLen =
      footerEndBase containerId indexRoot metadata containerChecksum footerPayloadOffset + 9 := by
    rw [footerEndBase, hlen]
    omega
  have hsum : ∀ {size : Nat} {bytes : List UInt8}, size < 2 ^ 64 → (footerCandidate containerId
      indexRoot metadata containerChecksum size).encode = .ok bytes →
        footerPayloadOffset + bytes.length + footerTrailerLen =
          footerEndBase containerId indexRoot metadata containerChecksum footerPayloadOffset +
            headLen size := by
    intro size bytes hsize hbytes
    obtain ⟨bytes', hbytes', hlen', -⟩ := @encode_footerCandidate containerId _ _ _ h size hsize
    rw [hbytes, Except.ok.injEq] at hbytes'
    rw [footerEndBase, hbytes', hlen']
    omega
  have hnone : ¬ footerEndBase containerId indexRoot metadata containerChecksum
      footerPayloadOffset + 9 < 2 ^ 64 → ∀ size < 2 ^ 64, ∀ bytes, (footerCandidate containerId
        indexRoot metadata containerChecksum size).encode = .ok bytes →
          footerPayloadOffset + bytes.length + footerTrailerLen ≠ size := by
    intro hfull size hsize bytes hbytes hfixed
    have hstated := hsum hsize hbytes
    have hlong := @headLen_of_ge size (by omega)
    omega
  refine ⟨widest, hwidest, ?_⟩
  rw [hwide, fixedPointFooterPayload, fixedPointLoop_succ h (by decide)]
  have hzero : headLen 0 = 1 := rfl
  simp only [hzero]
  have hpositive : footerEndBase containerId indexRoot metadata containerChecksum
      footerPayloadOffset + 1 ≠ 0 := Nat.succ_ne_zero _
  by_cases hfirst : footerEndBase containerId indexRoot metadata containerChecksum
      footerPayloadOffset + 1 < 2 ^ 64
  · rw [if_pos hfirst, if_neg hpositive]
    -- The size of the first round is the sum with the head of zero.
    have hloop := @fixedPointLoop_of_stated containerId _ _ _ h footerPayloadOffset 7 0 _
      rfl (Nat.zero_le _) hfirst (by decide)
    rw [hzero] at hloop
    split at hloop
    · rename_i hroom
      rw [if_pos hroom]
      obtain ⟨size, hsize, hfixed, hok⟩ := hloop
      obtain ⟨bytes, hbytes, -, -⟩ := @encode_footerCandidate containerId _ _ _ h size hsize
      exact ⟨_, bytes, hok, hbytes, (hfixed.trans (hsum hsize hbytes).symm), hsize, rfl⟩
    · rename_i hfull
      rw [if_neg hfull]
      exact ⟨hloop, hnone hfull⟩
  · have hfull : ¬ footerEndBase containerId indexRoot metadata containerChecksum
        footerPayloadOffset + 9 < 2 ^ 64 := by omega
    rw [if_neg hfirst, if_neg hfull]
    exact ⟨rfl, hnone hfull⟩

end Candidate

/-- A footer whose payload starts right behind a header. -/
theorem fixedPointFooterPayload_converges_header :
    let block : BlockRef := ⟨128, 24, ⟨"blake3", List.Vector.replicate 32 0⟩⟩
    ∃ widest, (footerCandidate (List.Vector.replicate 16 0) block block none
        (2 ^ 64 - 1)).encode = .ok widest ∧
      if 255 + widest.length + footerTrailerLen < 2 ^ 64 then
        ∃ payload bytes, fixedPointFooterPayload (List.Vector.replicate 16 0) block block 255
            none = .ok payload ∧
          payload.encode = .ok bytes ∧
          payload.finalFileSize = 255 + bytes.length + footerTrailerLen ∧
          payload.finalFileSize < 2 ^ 64 ∧
          payload = footerCandidate (List.Vector.replicate 16 0) block block none
            payload.finalFileSize
      else
        fixedPointFooterPayload (List.Vector.replicate 16 0) block block 255 none =
            .error .physicalRangeOutOfBounds ∧
          ∀ size < 2 ^ 64, ∀ bytes, (footerCandidate (List.Vector.replicate 16 0) block block
              none size).encode = .ok bytes → 255 + bytes.length + footerTrailerLen ≠ size :=
  fixedPointFooterPayload_converges _ ⟨⟨by decide, by decide⟩, ⟨by decide, by decide⟩,
    by decide⟩ 255

end Qzt
