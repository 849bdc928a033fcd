import Qzt.Container.Rules
import Qzt.Writer.RoundTrip

/-!
# The trailer commits to the file

The footer trailer fixes the place and the hash of the footer payload, the payload fixes
the file size and the hash of everything before it, and the writer leaves no byte outside
of the three.  A file with the trailer of a packed container that opens and passes normal
verification is therefore that container, or contains a string that collides with one of
it.
-/

namespace Qzt

open Foundation

/-- A part of one file and another part of the second have the same hash. -/
def Collision (env : Env) (left right : List UInt8) : Prop :=
  ∃ x y, x <:+: left ∧ y <:+: right ∧ x ≠ y ∧ env.blake3.hash x = env.blake3.hash y

theorem slice_isInfix {α : Type} (l : List α) (o n : Nat) : slice l o n <:+: l :=
  (List.take_prefix n (l.drop o)).isInfix.trans (List.drop_suffix o l).isInfix

/-- A list is its beginning, a middle part and its end. -/
theorem eq_append_of_slices {α : Type} {l : List α} {start size rest : Nat}
    (hlen : l.length = start + size + rest) :
    l = slice l 0 start ++ (slice l start size ++ slice l (l.length - rest) rest) := by
  have hmiddle := slice_append_slice l 0 start (size + rest)
  have hend := slice_append_slice l start size rest
  rw [Nat.zero_add, ← hend] at hmiddle
  rw [show l.length - rest = start + size by omega, hmiddle, ← Nat.add_assoc, ← hlen,
    slice_zero_length]

/-- What the prefix check of normal verification compares. -/
theorem verifyNormal_checksum {env : Env} {reader : QztReader} {report : VerifyReport}
    (h : reader.verifyNormal env = .ok report) {checksum : Checksum}
    (hchecksum : reader.details.footerPayload.containerChecksum = some checksum) :
    Checksum.blake3 env (slice reader.bytes 0 reader.details.footerPayloadOffset) = checksum := by
  simp only [QztReader.verifyNormal, bind_eq_ok_iff] at h
  obtain ⟨_, -, _, hprefix, -⟩ := h
  rw [QztReader.verifyPrefix, hchecksum] at hprefix
  simp only [bind_eq_ok_iff, okOr_eq_ok_iff, getRange?_eq_some_iff, rejectIf_eq_ok_iff,
    not_not, ne_eq] at hprefix
  obtain ⟨_, ⟨-, rfl⟩, hsame⟩ := hprefix
  rw [Nat.sub_zero] at hsame
  exact hsame

/-- A file that ends in the trailer of a packed container, opens and passes normal verification is
the container, up to a collision of BLAKE3 between parts of the two. -/
theorem trailer_commits {env : Env} {builder : WriterBuilder} {input container : List UInt8}
    (hpack : builder.pack env input = .ok container) {bytes : List UInt8}
    (htrailer : slice bytes (bytes.length - footerTrailerLen) footerTrailerLen =
      slice container (container.length - footerTrailerLen) footerTrailerLen)
    {limits : ResourceLimits} {reader : QztReader}
    (hopen : QztReader.openWithLimits env bytes limits = .ok reader) {report : VerifyReport}
    (hverify : reader.verify env .normal = .ok report) :
    bytes = container ∨ Collision env bytes container := by
  by_cases hcollision : Collision env bytes container
  · exact Or.inr hcollision
  refine Or.inl ?_
  -- Without a collision, parts of the two files with one hash are equal.
  have hinjective : ∀ x y, x <:+: bytes → y <:+: container →
      env.blake3.hash x = env.blake3.hash y → x = y := by
    intro x y hx hy hhash
    by_contra hne
    exact hcollision ⟨x, y, hx, hy, hne, hhash⟩
  obtain ⟨assembly, hsound, rfl, -⟩ := pack_sound hpack
  simp only [QztReader.openWithLimits, bind_eq_ok_iff, pure_eq_ok, Except.ok.injEq] at hopen
  obtain ⟨details, hdetails, rfl⟩ := hopen
  obtain ⟨parts, hparts, rfl⟩ := SkeletonParts.follows_of_open hdetails
  -- The trailer.
  have hsameTrailer : parts.trailer = assembly.trailer env := by
    have hdecode := hparts.trailer
    rw [htrailer, Assembly.slice_trailer, Assembly.trailer_decode hsound.length_lt, Except.ok.injEq] at hdecode
    exact hdecode.symm
  -- The footer payload that the trailer refers to.
  have hpayload : slice bytes (assembly.footerOffset env) assembly.footerPayloadBytes.length =
      assembly.footerPayloadBytes := by
    have hslice := slicePhysical_eq_ok hparts.footerSlice
    have hchecksum := hparts.footerChecksum
    rw [hsameTrailer] at hslice hchecksum
    have hplace := slicePhysical_eq_ok (Assembly.slice_footer hsound.length_lt)
    refine hinjective _ _ (slice_isInfix _ _ _) ?_ ?_
    · rw [hplace]
      exact slice_isInfix _ _ _
    · rw [hslice] at hchecksum
      exact hchecksum
  have hfooter : parts.footerPayload = assembly.footerPayload env := by
    have hslice := slicePhysical_eq_ok hparts.footerSlice
    rw [hsameTrailer] at hslice
    have hbytes : parts.footerPayloadBytes = assembly.footerPayloadBytes := hslice.trans hpayload
    have hdecode := hparts.footer
    rw [hbytes, ← FooterPayload.decode_eq, hsound.footer_decode, Except.ok.injEq] at hdecode
    exact hdecode.symm
  -- The file size and the bytes before the payload, which the payload fixes.
  have hlength : bytes.length = assembly.footerOffset env + assembly.footerPayloadBytes.length +
      footerTrailerLen := by
    rw [← hparts.finalFileSize, hfooter]
    rfl
  have hbefore : slice bytes 0 (assembly.footerOffset env) = assembly.prefixBytes env := by
    have hsame := @verifyNormal_checksum env { bytes := bytes, details := parts.details } report
      hverify (Checksum.blake3 env (assembly.prefixBytes env)) (by
        show parts.footerPayload.containerChecksum = _
        rw [hfooter]
        rfl)
    have hoffset : parts.details.footerPayloadOffset = assembly.footerOffset env := by
      show parts.trailer.footerPayloadOffset = _
      rw [hsameTrailer]
      rfl
    simp only [hoffset] at hsame
    refine hinjective _ _ (slice_isInfix _ _ _) (List.prefix_append _ _).isInfix ?_
    exact congrArg Checksum.value hsame
  have hend := htrailer
  rw [Assembly.slice_trailer] at hend
  rw [eq_append_of_slices hlength, hbefore, hpayload, hend]
  rfl

/-- The sample container itself. -/
theorem trailer_commits_sample :
    ∃ container, sampleBuilder.pack Reference.env sampleInput = .ok container ∧
      (container = container ∨ Collision Reference.env container container) := by
  obtain ⟨container, hpack⟩ := pack_sampleInput
  obtain ⟨assembly, hsound, rfl, -⟩ := pack_sound hpack
  have hopen : QztReader.openWithLimits Reference.env (assembly.bytes Reference.env) .default =
      .ok (assembly.reader Reference.env) := hsound.opens_reader
  exact ⟨_, hpack, trailer_commits hpack rfl hopen hsound.verifyNormal_eq⟩

end Qzt
