import Mathlib.Data.List.ReduceOption
import Mathlib.Data.List.TakeWhile
import Qzt.Format.Reference
import Qzt.Reader.DeepVerify

/-!
# Document hashes of the chunk pass

The document hasher sees the text chunk by chunk and must end up with the hash of every
document's range.  After any prefix of the text a document is pending (it starts later),
active (its hasher has absorbed the part of it that was seen) or done (its hash is
recorded); `DocumentHasher.Tracks` says so, and feeding a chunk keeps it.
-/

namespace Qzt

open Foundation

namespace DocumentHasher

variable {env : Env} {documents : List DocumentEntry} {text : List UInt8}

/-- The non-empty document at `index` occupies `[start, stop)`. -/
def IsDocument (documents : List DocumentEntry) (index start stop : Nat) : Prop :=
  ∃ document, documents[index]? = some document ∧
    pendingDocument index document = some ⟨index, start, stop⟩

/-- The hasher of an active document has absorbed the part of it inside `text`. -/
structure ActiveAt (documents : List DocumentEntry) (text : List UInt8)
    (active : ActiveDocument env) : Prop where
  document : IsDocument documents active.index active.start active.stop
  stop_ge : text.length ≤ active.stop
  absorbed : env.blake3.Absorbed active.hasher (text.drop active.start)

/-- A recorded hash is the hash of its document. -/
def ResultAt (env : Env) (documents : List DocumentEntry) (text : List UInt8)
    (result : Nat × Digest) : Prop :=
  ∃ start stop, IsDocument documents result.1 start stop ∧ stop ≤ text.length ∧
    result.2 = env.blake3.hash (slice text start (stop - start))

/-- The state of the hasher after the prefix `text`. -/
structure Tracks (documents : List DocumentEntry) (text : List UInt8)
    (hasher : DocumentHasher env) : Prop where
  pending_sorted : hasher.pending.Pairwise fun a b => a.start ≤ b.start
  pending : ∀ pending ∈ hasher.pending,
    IsDocument documents pending.index pending.start pending.stop ∧ text.length ≤ pending.start
  active : ∀ active ∈ hasher.active, ActiveAt documents text active ∧ text.length < active.stop
  results : ∀ result ∈ hasher.results, ResultAt env documents text result
  complete : ∀ index start stop, IsDocument documents index start stop →
    (∃ pending ∈ hasher.pending, pending.index = index) ∨
      (∃ active ∈ hasher.active, active.index = index) ∨
        ∃ digest, (index, digest) ∈ hasher.results

/-! ## Documents -/

instance : Std.Total PendingDocument.le where
  total a b := by
    simp only [PendingDocument.le]
    omega

instance : IsTrans PendingDocument PendingDocument.le where
  trans a b c hab hbc := by
    simp only [PendingDocument.le] at hab hbc ⊢
    omega

theorem IsDocument.unique {index start stop start' stop' : Nat}
    (h : IsDocument documents index start stop) (h' : IsDocument documents index start' stop') :
    start = start' ∧ stop = stop' := by
  obtain ⟨document, hget, hpending⟩ := h
  obtain ⟨document', hget', hpending'⟩ := h'
  rw [hget, Option.some.injEq] at hget'
  rw [← hget', hpending, Option.some.injEq, PendingDocument.mk.injEq] at hpending'
  exact ⟨hpending'.2.1, hpending'.2.2⟩

/-- A non-empty document whose range does not overflow. -/
theorem isDocument_of_getElem? {index : Nat} {document : DocumentEntry}
    (hget : documents[index]? = some document) (hpos : 0 < document.byteLength)
    (hend : document.logicalOffset + document.byteLength < 2 ^ 64) :
    IsDocument documents index document.logicalOffset
      (document.logicalOffset + document.byteLength) := by
  refine ⟨document, hget, ?_⟩
  rw [pendingDocument, if_pos hpos, saturatingAdd, Nat.min_eq_left (by omega)]

theorem IsDocument.start_le_stop {index start stop : Nat}
    (h : IsDocument documents index start stop) (hstart : start < 2 ^ 64) : start ≤ stop := by
  obtain ⟨document, -, hpending⟩ := h
  unfold pendingDocument at hpending
  split at hpending
  · simp only [Option.some.injEq, PendingDocument.mk.injEq, true_and] at hpending
    obtain ⟨rfl, rfl⟩ := hpending
    rw [saturatingAdd]
    omega
  · cases hpending

theorem mem_pendingDocuments {pending : PendingDocument} :
    pending ∈ pendingDocuments documents ↔
      IsDocument documents pending.index pending.start pending.stop := by
  have hindex : ∀ {index : Nat} {document : DocumentEntry},
      pendingDocument index document = some pending → pending.index = index := by
    intro index document h
    unfold pendingDocument at h
    split at h
    · cases h
      rfl
    · cases h
  rw [pendingDocuments, List.reduceOption_mem_iff, List.mem_mapIdx]
  constructor
  · rintro ⟨index, hlt, h⟩
    obtain rfl := hindex h
    exact ⟨_, List.getElem?_eq_getElem hlt, h⟩
  · rintro ⟨document, hget, h⟩
    obtain ⟨hlt, rfl⟩ := List.getElem?_eq_some_iff.mp hget
    exact ⟨pending.index, hlt, h⟩

theorem ResultAt.append {result : Nat × Digest} (h : ResultAt env documents text result)
    (more : List UInt8) : ResultAt env documents (text ++ more) result := by
  obtain ⟨start, stop, hdocument, hstop, hdigest⟩ := h
  refine ⟨start, stop, hdocument, ?_, ?_⟩
  · rw [List.length_append]
    omega
  · rcases Nat.le_total start stop with hle | hge
    · rw [hdigest, slice_append_of_ge (by omega)]
    · rw [hdigest, Nat.sub_eq_zero_of_le hge, slice_length_zero, slice_length_zero]

/-! ## Feeding a chunk -/

section Feed

variable {decoded : List UInt8}

/-- The part of a document inside a text that grew by a chunk. -/
private theorem slice_grown {start stop : Nat} (hstop : text.length ≤ stop) :
    slice (text ++ decoded) start (min (text.length + decoded.length) stop - start) =
      text.drop start ++ slice decoded (max text.length start - text.length)
        (min (text.length + decoded.length) stop - max text.length start) := by
  rw [slice, List.drop_append, List.take_append, slice, List.length_drop]
  congr 1
  · exact List.take_of_length_le (by rw [List.length_drop]; omega)
  · rw [show start - text.length = max text.length start - text.length by omega]
    congr 1
    omega

/-- One active document absorbs its part of the chunk. -/
theorem feedDocument_absorbs {active : ActiveDocument env} (h : ActiveAt documents text active)
    (hlen : text.length + decoded.length < 2 ^ 64) :
    ∃ hasher, feedDocument text.length (text.length + decoded.length) decoded active =
        .ok { active with hasher } ∧
      env.blake3.Absorbed hasher (slice (text ++ decoded) active.start
        (min (text.length + decoded.length) active.stop - active.start)) := by
  have hgrown := @slice_grown text decoded active.start active.stop h.stop_ge
  rw [feedDocument]
  split
  · rename_i hlt
    have hrange : getRange? decoded (max text.length active.start - text.length)
        (min (text.length + decoded.length) active.stop - text.length) =
        some (slice decoded (max text.length active.start - text.length)
          (min (text.length + decoded.length) active.stop - max text.length active.start)) := by
      rw [getRange?_eq_some_iff]
      refine ⟨⟨by omega, by omega⟩, ?_⟩
      congr 1
      omega
    rw [u64ToUsize_of_lt (by omega), ok_bind, u64ToUsize_of_lt (by omega), ok_bind, hrange,
      okOr_some, ok_bind]
    refine ⟨_, rfl, ?_⟩
    rw [hgrown]
    exact h.absorbed.update _
  · rename_i hge
    refine ⟨active.hasher, rfl, ?_⟩
    rw [hgrown, Nat.sub_eq_zero_of_le (Nat.not_lt.mp hge), slice_length_zero, List.append_nil]
    exact h.absorbed

/-- What a sorted list keeps behind the first late start is late. -/
private theorem le_start_of_mem_dropWhile {pendings : List PendingDocument} {stop : Nat}
    (hsorted : pendings.Pairwise fun a b => a.start ≤ b.start) {p : PendingDocument}
    (hp : p ∈ pendings.dropWhile fun p => decide (p.start < stop)) : stop ≤ p.start := by
  induction pendings with
  | nil => cases hp
  | cons first pendings ih =>
    rw [List.pairwise_cons] at hsorted
    rw [List.dropWhile_cons] at hp
    split at hp
    · exact ih hsorted.2 hp
    · rename_i hfirst
      rw [decide_eq_true_eq, Nat.not_lt] at hfirst
      rcases List.mem_cons.mp hp with rfl | hp
      · exact hfirst
      · exact Nat.le_trans hfirst (hsorted.1 p hp)

/-- The loop over the active documents. -/
theorem feedActive_spec (hlen : text.length + decoded.length < 2 ^ 64)
    {actives : List (ActiveDocument env)} (hactive : ∀ a ∈ actives, ActiveAt documents text a)
    (results : List (Nat × Digest)) :
    ∃ stillActive results',
      feedActive text.length (text.length + decoded.length) decoded actives results =
        .ok (stillActive, results') ∧
      (∀ a ∈ stillActive, ActiveAt documents (text ++ decoded) a ∧
        (text ++ decoded).length < a.stop) ∧
      (∀ r ∈ results', r ∈ results ∨ ResultAt env documents (text ++ decoded) r) ∧
      (∀ r ∈ results, r ∈ results') ∧
      ∀ a ∈ actives, (∃ a' ∈ stillActive, a'.index = a.index) ∨
        ∃ digest, (a.index, digest) ∈ results' := by
  induction actives generalizing results with
  | nil =>
    exact ⟨[], results, rfl, by simp, fun r hr => .inl hr, fun r hr => hr, by simp⟩
  | cons active actives ih =>
    have hhead := hactive active List.mem_cons_self
    have htail : ∀ a ∈ actives, ActiveAt documents text a :=
      fun a ha => hactive a (List.mem_cons_of_mem _ ha)
    obtain ⟨hasher, hfeed, habsorbed⟩ := feedDocument_absorbs hhead hlen
    rw [feedActive, hfeed, ok_bind]
    simp only
    split
    · -- The document ends in this chunk: its hash is recorded.
      rename_i hend
      rw [Nat.min_eq_right hend] at habsorbed
      obtain ⟨still, results', hloop, hstill, hnew, hold, hkept⟩ :=
        ih htail ((active.index, env.blake3.finalize hasher) :: results)
      refine ⟨still, results', hloop, hstill, ?_, ?_, ?_⟩
      · intro r hr
        rcases hnew r hr with hr | hr
        · rcases List.mem_cons.mp hr with rfl | hr
          · refine .inr ⟨active.start, active.stop, hhead.document, ?_, habsorbed.finalize⟩
            rw [List.length_append]
            exact hend
          · exact .inl hr
        · exact .inr hr
      · exact fun r hr => hold r (List.mem_cons_of_mem _ hr)
      · intro a ha
        rcases List.mem_cons.mp ha with rfl | ha
        · exact .inr ⟨_, hold _ List.mem_cons_self⟩
        · exact hkept a ha
    · rename_i hbeyond
      obtain ⟨still, results', hloop, hstill, hnew, hold, hkept⟩ := ih htail results
      rw [hloop, ok_bind]
      refine ⟨_, _, rfl, ?_, hnew, hold, ?_⟩
      · intro a ha
        rcases List.mem_cons.mp ha with rfl | ha
        · rw [Nat.min_eq_left (by omega)] at habsorbed
          have hdrop : slice (text ++ decoded) active.start
              (text.length + decoded.length - active.start) =
              (text ++ decoded).drop active.start := by
            rw [slice, List.take_of_length_le (by simp)]
          rw [hdrop] at habsorbed
          have hlt : (text ++ decoded).length < active.stop := by
            rw [List.length_append]
            omega
          exact ⟨⟨hhead.document, Nat.le_of_lt hlt, habsorbed⟩, hlt⟩
        · exact hstill a ha
      · intro a ha
        rcases List.mem_cons.mp ha with rfl | ha
        · exact .inl ⟨_, List.mem_cons_self, rfl⟩
        · rcases hkept a ha with ⟨a', ha', hindex⟩ | hdone
          · exact .inl ⟨a', List.mem_cons_of_mem _ ha', hindex⟩
          · exact .inr hdone

/-- Feeding the next chunk succeeds and keeps the state. -/
theorem Tracks.feed {hasher : DocumentHasher env} (h : hasher.Tracks documents text)
    (hlen : text.length + decoded.length < 2 ^ 64) :
    ∃ hasher', hasher.feed text.length decoded = .ok hasher' ∧
      hasher'.Tracks documents (text ++ decoded) := by
  -- The documents that start in this chunk join the active ones.
  have hactive : ∀ a ∈ hasher.active ++ ((hasher.pending.takeWhile fun p =>
      decide (p.start < text.length + decoded.length)).map activate : List (ActiveDocument env)),
      ActiveAt documents text a := by
    intro a ha
    rcases List.mem_append.mp ha with ha | ha
    · exact (h.active a ha).1
    · obtain ⟨p, hp, rfl⟩ := List.mem_map.mp ha
      obtain ⟨hdocument, hstart⟩ := h.pending p ((List.takeWhile_sublist _).subset hp)
      have hlt := List.mem_takeWhile_imp hp
      rw [decide_eq_true_eq] at hlt
      refine ⟨hdocument, ?_, ?_⟩
      · exact Nat.le_trans hstart (hdocument.start_le_stop (by omega))
      · rw [activate, List.drop_of_length_le hstart]
        exact env.blake3.absorbed_new
  obtain ⟨still, results, hloop, hstill, hnew, hold, hkept⟩ :=
    feedActive_spec hlen hactive hasher.results
  refine ⟨⟨hasher.pending.dropWhile fun p => decide (p.start < text.length + decoded.length),
    still, results⟩, ?_, ?_, ?_, hstill, ?_, ?_⟩
  · rw [DocumentHasher.feed, usizeToU64_of_lt (by omega), ok_bind, checkedAdd_of_lt hlen,
      okOr_some, ok_bind]
    simp only
    rw [hloop]
    rfl
  · exact h.pending_sorted.sublist (List.dropWhile_sublist _)
  · intro p hp
    refine ⟨(h.pending p ((List.dropWhile_sublist _).subset hp)).1, ?_⟩
    rw [List.length_append]
    exact le_start_of_mem_dropWhile h.pending_sorted hp
  · intro r hr
    rcases hnew r hr with hr | hr
    · exact (h.results r hr).append decoded
    · exact hr
  · intro index start stop hdocument
    rcases h.complete index start stop hdocument with ⟨p, hp, rfl⟩ | ⟨a, ha, rfl⟩ | ⟨digest, hr⟩
    · rw [← @List.takeWhile_append_dropWhile _ (fun p : PendingDocument =>
        decide (p.start < text.length + decoded.length)) hasher.pending] at hp
      rcases List.mem_append.mp hp with hp | hp
      · exact .inr (hkept (activate p)
          (List.mem_append_right _ (List.mem_map.mpr ⟨p, hp, rfl⟩)))
      · exact .inl ⟨p, hp, rfl⟩
    · exact .inr (hkept a (List.mem_append_left _ ha))
    · exact .inr (.inr ⟨digest, hold _ hr⟩)

end Feed

/-- The state before the first chunk. -/
theorem tracks_new (documentIndex : DocumentIndex) :
    (new documentIndex : DocumentHasher env).Tracks documentIndex.documents [] := by
  have hmem : ∀ p, p ∈ (pendingDocuments documentIndex.documents).insertionSort
      PendingDocument.le ↔ IsDocument documentIndex.documents p.index p.start p.stop := by
    intro p
    rw [List.mem_insertionSort, mem_pendingDocuments]
  refine ⟨?_, ?_, by simp [new], by simp [new], ?_⟩
  · have hsorted := List.pairwise_insertionSort PendingDocument.le
      (pendingDocuments documentIndex.documents)
    refine hsorted.imp ?_
    intro a b hab
    rcases hab with hlt | ⟨heq, -⟩
    · exact Nat.le_of_lt hlt
    · exact Nat.le_of_eq heq
  · exact fun p hp => ⟨(hmem p).mp hp, Nat.zero_le _⟩
  · exact fun index start stop hdocument => .inl ⟨⟨index, start, stop⟩, (hmem _).mpr hdocument, rfl⟩

/-! ## The recorded hashes -/

/-- After a text that holds a document, its recorded hash is that of its range. -/
theorem Tracks.lookup {hasher : DocumentHasher env} (h : hasher.Tracks documents text)
    {index start stop : Nat} (hdocument : IsDocument documents index start stop)
    (hstop : stop ≤ text.length) (hstart : start < text.length) :
    hasher.results.lookup index = some (env.blake3.hash (slice text start (stop - start))) := by
  have hsound : ∀ digest, (index, digest) ∈ hasher.results →
      digest = env.blake3.hash (slice text start (stop - start)) := by
    intro digest hr
    obtain ⟨start', stop', hdocument', -, hdigest⟩ := h.results _ hr
    obtain ⟨rfl, rfl⟩ := hdocument.unique hdocument'
    exact hdigest
  have hmem : ∃ digest, (index, digest) ∈ hasher.results := by
    rcases h.complete index start stop hdocument with ⟨p, hp, rfl⟩ | ⟨a, ha, rfl⟩ | hr
    · obtain ⟨hdocument', hge⟩ := h.pending p hp
      obtain ⟨rfl, -⟩ := hdocument.unique hdocument'
      omega
    · obtain ⟨hactive, hlt⟩ := h.active a ha
      obtain ⟨-, rfl⟩ := hdocument.unique hactive.document
      omega
    · exact hr
  obtain ⟨digest, hdigest⟩ := hmem
  cases hlookup : hasher.results.lookup index with
  | none =>
    rw [List.lookup_eq_none_iff] at hlookup
    have hne := hlookup _ hdigest
    simp at hne
  | some found =>
    obtain ⟨before, after, hsplit, -⟩ := List.lookup_eq_some_iff.mp hlookup
    rw [hsound found (by rw [hsplit]; simp)]

/-! ## A whole text -/

/-- The chunks of a text, fed in order from `offset` on. -/
def feedAll : Nat → List (List UInt8) → DocumentHasher env → Result (DocumentHasher env)
  | _, [], hasher => .ok hasher
  | offset, decoded :: chunks, hasher => do
    let hasher ← hasher.feed offset decoded
    feedAll (offset + decoded.length) chunks hasher

/-- `DocumentHasher::finish`: the hashes by the index of their document. -/
def finish (self : DocumentHasher env) : List (Nat × Digest) :=
  self.results

/-- Feeding all chunks succeeds and keeps the state. -/
theorem Tracks.feedAll {hasher : DocumentHasher env} (h : hasher.Tracks documents text)
    {chunks : List (List UInt8)} (hlen : text.length + chunks.flatten.length < 2 ^ 64) :
    ∃ hasher', DocumentHasher.feedAll text.length chunks hasher = .ok hasher' ∧
      hasher'.Tracks documents (text ++ chunks.flatten) := by
  induction chunks generalizing hasher text with
  | nil =>
    rw [List.flatten_nil, List.append_nil]
    exact ⟨hasher, rfl, h⟩
  | cons decoded chunks ih =>
    rw [List.flatten_cons, List.length_append] at hlen
    obtain ⟨next, hnext, htracks⟩ := @Tracks.feed env documents text decoded hasher h (by omega)
    obtain ⟨final, hfinal, hdone⟩ := ih htracks (by rw [List.length_append]; omega)
    rw [List.length_append] at hfinal
    rw [List.append_assoc] at hdone
    refine ⟨final, ?_, hdone⟩
    rw [DocumentHasher.feedAll, hnext, ok_bind, hfinal]

/-- A hash is recorded for documents that are not empty, and for no others. -/
theorem Tracks.lookup_eq_none {hasher : DocumentHasher env} (h : hasher.Tracks documents text)
    {index : Nat} (hnone : ∀ start stop, ¬ IsDocument documents index start stop) :
    hasher.results.lookup index = none := by
  rw [List.lookup_eq_none_iff]
  intro result hresult
  obtain ⟨start, stop, hdocument, -⟩ := h.results result hresult
  rw [bne_iff_ne, ne_eq]
  rintro rfl
  exact hnone start stop hdocument

/-- What the hashes of the documents of a text must be. -/
def expected (env : Env) (documents : List DocumentEntry) (text : List UInt8) (index : Nat) :
    Option Digest :=
  documents[index]?.bind fun document =>
    if 0 < document.byteLength then
      some (env.blake3.hash (slice text document.logicalOffset document.byteLength))
    else
      none

/-- One pass hashes every document.  Over every text, however it is cut into chunks, and all
documents whose ranges lie inside it, in any order and overlapping as they may, the pass ends with
the hash of its slice for each document that is not empty, and with nothing else. -/
theorem feedAll_hashes (documentIndex : DocumentIndex) {chunks : List (List UInt8)}
    (htext : chunks.flatten = text) (hword : text.length < 2 ^ 64)
    (hinside : ∀ document ∈ documentIndex.documents, 0 < document.byteLength →
      document.logicalOffset + document.byteLength ≤ text.length) :
    ∃ hasher : DocumentHasher env, feedAll 0 chunks (new documentIndex) = .ok hasher ∧
      ∀ index, hasher.finish.lookup index = expected env documentIndex.documents text index := by
  subst htext
  have hroom : ([] : List UInt8).length + chunks.flatten.length < 2 ^ 64 := by
    rwa [List.length_nil, Nat.zero_add]
  obtain ⟨hasher, hfeed, htracks⟩ := (@tracks_new env documentIndex).feedAll hroom
  rw [List.nil_append] at htracks
  refine ⟨hasher, hfeed, fun index => ?_⟩
  rw [finish, expected]
  cases hget : documentIndex.documents[index]? with
  | none =>
    -- Behind the last document nothing was ever pending.
    apply htracks.lookup_eq_none
    rintro start stop ⟨document, hsome, -⟩
    rw [hget] at hsome
    cases hsome
  | some document =>
    rw [Option.bind_some]
    split
    case isTrue hpos =>
      have hend := hinside document (List.mem_of_getElem? hget) hpos
      have hdocument := isDocument_of_getElem? hget hpos (by omega)
      rw [htracks.lookup hdocument hend (by omega), Nat.add_sub_cancel_left]
    case isFalse hempty =>
      apply htracks.lookup_eq_none
      rintro start stop ⟨document', hsome, hpending⟩
      obtain rfl := Option.some.inj (hget.symm.trans hsome)
      rw [pendingDocument, if_neg hempty] at hpending
      cases hpending

/-- Two overlapping documents and an empty one. -/
def overlappingDocuments : DocumentIndex where
  containerId := List.Vector.replicate 16 0
  documents := [(1, 3), (2, 0), (0, 2)].map fun range =>
    { docId := "", docIdHash := List.Vector.replicate 16 0, logicalOffset := range.1
      byteLength := range.2, firstLine := 0, lineCount := 0, chunkStart := 0, chunkEnd := 0
      checksum := Checksum.blake3 Reference.env [] }

/-- Both ranges of the overlap end up hashed, over chunks that cut both. -/
theorem feedAll_hashes_overlapping : ∃ hasher : DocumentHasher Reference.env,
    feedAll 0 [[1], [2, 3], [4]] (new overlappingDocuments) = .ok hasher ∧
    hasher.finish.lookup 0 = some (Reference.env.blake3.hash [2, 3, 4]) ∧
    hasher.finish.lookup 1 = none ∧
    hasher.finish.lookup 2 = some (Reference.env.blake3.hash [1, 2]) := by
  obtain ⟨hasher, hfeed, hlookup⟩ := @feedAll_hashes Reference.env [1, 2, 3, 4] overlappingDocuments
    [[1], [2, 3], [4]] rfl (by decide) (by decide)
  exact ⟨hasher, hfeed, hlookup 0, hlookup 1, hlookup 2⟩

end DocumentHasher

end Qzt
