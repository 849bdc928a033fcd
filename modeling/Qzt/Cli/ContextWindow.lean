import Qzt.Cli.Context
import Qzt.Reader.RangeReads

/-!
# The window of a context view

Every function of `build` gets one specification: it does not panic, and what it returns
has the property the next one relies on.  The window is affordable because both binary
searches keep an end that fits.
-/

namespace Qzt.Context

open Foundation

/-! ## Running without a panic -/

section Safe

variable {α β : Type} {post : α → Prop}

/-- The computation does not panic, and what it returns satisfies `post`. -/
def Safe (x : Build α) (post : α → Prop) : Prop :=
  match x with
  | .ok a => post a
  | .error (.qzt _) => True
  | .error .panic => False

theorem Safe.of_ok {x : Build α} {a : α} (h : Safe x post) (hx : x = .ok a) : post a := by
  rw [hx] at h
  exact h

theorem Safe.ne_panic {x : Build α} (h : Safe x post) : x ≠ .error .panic := by
  rintro rfl
  exact h

theorem Safe.mono {post' : α → Prop} {x : Build α} (h : Safe x post)
    (hpost : ∀ a, post a → post' a) : Safe x post' := by
  match x, h with
  | .ok a, h => exact hpost a h
  | .error (.qzt _), _ => trivial

/-- A specification may also name the result. -/
theorem Safe.with_eq {x : Build α} (h : Safe x post) : Safe x (fun a => x = .ok a ∧ post a) := by
  match x, h with
  | .ok a, h => exact ⟨rfl, h⟩
  | .error (.qzt _), _ => trivial

theorem safe_bind {x : Build α} {f : α → Build β} {post' : β → Prop} (h : Safe x post)
    (hf : ∀ a, post a → Safe (f a) post') : Safe (x >>= f) post' := by
  match x, h with
  | .ok a, h => exact hf a h
  | .error (.qzt _), _ => trivial

theorem safe_ok {a : α} (h : post a) : Safe (.ok a) post := h

theorem safe_sub {a b : Nat} (h : b ≤ a) : Safe (sub a b) (· = a - b) := by
  rw [sub_of_le h]
  rfl

theorem safe_okOr {e : QztError} {o : Option α} : Safe (okOr (.qzt e) o) (o = some ·) := by
  cases o with
  | none => trivial
  | some a => rfl

theorem safe_rejectIf {bad : Prop} [Decidable bad] {e : QztError} :
    Safe (rejectIf bad (.qzt e)) (fun _ => ¬ bad) := by
  by_cases h : bad
  · rw [rejectIf_of h]
    trivial
  · rw [rejectIf_of_not h]
    exact h

theorem safe_item {items : List α} {index : Nat} (h : index < items.length) :
    Safe (item items index) (items[index]? = some ·) := by
  rw [item, List.getElem?_eq_getElem h]
  rfl

theorem safe_range {items : List α} {start stop : Nat} (h : start ≤ stop)
    (hstop : stop ≤ items.length) :
    Safe (range items start stop) (· = slice items start (stop - start)) := by
  have hget : getRange? items start stop = some (slice items start (stop - start)) :=
    getRange?_eq_some_iff.mpr ⟨⟨h, hstop⟩, rfl⟩
  rw [range, hget]
  rfl

theorem safe_lift {x : Result α} : Safe (lift x) (x = .ok ·) := by
  cases x with
  | ok a => rfl
  | error e => trivial

theorem safe_ite {c : Prop} [Decidable c] {x y : Build α} (htrue : c → Safe x post)
    (hfalse : ¬ c → Safe y post) : Safe (if c then x else y) post := by
  split
  · exact htrue ‹_›
  · exact hfalse ‹_›

end Safe

/-! ## What a window costs -/

section Cost

variable {entries : List ChunkEntry} {options : Options} {size start stop : Nat}

/-- The chunks a read of the range decodes. -/
def chosenChunks (entries : List ChunkEntry) (start stop : Nat) : List ChunkEntry :=
  (entries.drop (weightIndex (chunkSizes entries) start)).takeWhile (·.logicalOffset < stop)

/-- The decoding budgets cover the range. -/
structure Affordable (entries : List ChunkEntry) (options : Options) (start stop : Nat) : Prop where
  bytes : (chunkSizes (chosenChunks entries start stop)).sum ≤ options.physical
  chunks : (chosenChunks entries start stop).length ≤ options.chunks

theorem fitsLoop_safe (remaining : List ChunkEntry) {bytes count : Nat}
    (hbytes : bytes ≤ options.physical) (hcount : count ≤ options.chunks) :
    Safe (fitsLoop options stop remaining bytes count) (fun fit => fit = true →
      bytes + (chunkSizes (remaining.takeWhile (·.logicalOffset < stop))).sum ≤ options.physical ∧
        count + (remaining.takeWhile (·.logicalOffset < stop)).length ≤ options.chunks) := by
  induction remaining generalizing bytes count with
  | nil =>
    intro _
    exact ⟨hbytes, hcount⟩
  | cons entry remaining ih =>
    rw [fitsLoop]
    apply safe_ite
    · intro hbefore
      refine safe_bind safe_okOr fun total htotal => ?_
      obtain ⟨-, rfl⟩ := checkedAdd_eq_some_iff.mp htotal
      apply safe_ite
      · intro _ hfit
        cases hfit
      · intro hbudget
        refine (ih (by omega) (by omega)).mono fun fit hrest hfit => ?_
        obtain ⟨hsum, hlength⟩ := hrest hfit
        rw [List.takeWhile_cons_of_pos (by simpa using hbefore), chunkSizes_cons, List.sum_cons,
          List.length_cons]
        exact ⟨by omega, by omega⟩
    · intro hafter
      refine safe_ok fun _ => ?_
      rw [List.takeWhile_cons_of_neg (by simpa using hafter)]
      exact ⟨hbytes, hcount⟩

/-- `fits` answers yes only for affordable ranges. -/
theorem fits_safe (hlayout : Layout entries size) :
    Safe (fits entries start stop options)
      (fun fit => fit = true → Affordable entries options start stop) := by
  have hfirst : partitionPoint (fun i => do
      let entry ← item entries i
      return decide (saturatingAdd entry.logicalOffset entry.uncompressedSize ≤ start))
      entries.length = (.ok (weightIndex (chunkSizes entries) start) : Build Nat) := by
    rw [← length_chunkSizes]
    refine partitionPoint_weights fun i hi => ?_
    rw [length_chunkSizes] at hi
    have hget := List.getElem?_eq_getElem hi
    obtain ⟨-, -, -, hend⟩ := hlayout.contiguous.getElem? hget
    have hle := hlayout.entry_end (List.getElem_mem hi)
    have hlt := hlayout.size_lt
    have hsaturating : saturatingAdd entries[i].logicalOffset entries[i].uncompressedSize =
        ((chunkSizes entries).take (i + 1)).sum := by
      rw [saturatingAdd]
      omega
    rw [item, hget, okOr_some, ok_bind, hsaturating]
    rfl
  rw [fits, hfirst, ok_bind]
  refine (fitsLoop_safe _ (Nat.zero_le _) (Nat.zero_le _)).mono fun fit hloop hfit => ?_
  obtain ⟨hbytes, hchunks⟩ := hloop hfit
  rw [Nat.zero_add] at hbytes hchunks
  exact ⟨hbytes, hchunks⟩

/-- `fit_left` returns a start that is affordable up to the end of the hit. -/
theorem fitLeftLoop_safe (hlayout : Layout entries size) {hitEnd : Nat} (fuel : Nat) :
    ∀ {low high : Nat}, high - low ≤ fuel → low ≤ high → Affordable entries options high hitEnd →
      Safe (fitLeftLoop entries hitEnd options fuel low high) (fun start =>
        low ≤ start ∧ start ≤ high ∧ Affordable entries options start hitEnd) := by
  induction fuel with
  | zero =>
    intro low high hfuel hle haffordable
    obtain rfl : low = high := by omega
    exact ⟨Nat.le_refl _, Nat.le_refl _, haffordable⟩
  | succ fuel ih =>
    intro low high hfuel hle haffordable
    rw [fitLeftLoop]
    apply safe_ite
    · intro hlt
      refine safe_bind (safe_sub hle) fun width hwidth => ?_
      subst hwidth
      refine safe_bind (fits_safe hlayout) fun fit hfit => ?_
      apply safe_ite
      · intro htrue
        refine (ih (by omega) (by omega) (hfit htrue)).mono fun start hstart => ?_
        exact ⟨hstart.1, by omega, hstart.2.2⟩
      · intro _
        refine (ih (by omega) (by omega) haffordable).mono fun start hstart => ?_
        exact ⟨by omega, hstart.2.1, hstart.2.2⟩
    · intro hge
      obtain rfl : low = high := by omega
      exact safe_ok ⟨Nat.le_refl _, Nat.le_refl _, haffordable⟩

/-- `fit_right` returns an end that is affordable from the start on. -/
theorem fitRightLoop_safe (hlayout : Layout entries size) (fuel : Nat) :
    ∀ {low high : Nat}, high - low ≤ fuel → low ≤ high → Affordable entries options start low →
      Safe (fitRightLoop entries start options fuel low high) (fun stop =>
        low ≤ stop ∧ stop ≤ high ∧ Affordable entries options start stop) := by
  induction fuel with
  | zero =>
    intro low high hfuel hle haffordable
    exact ⟨Nat.le_refl _, hle, haffordable⟩
  | succ fuel ih =>
    intro low high hfuel hle haffordable
    rw [fitRightLoop]
    apply safe_ite
    · intro hlt
      refine safe_bind (safe_sub hle) fun width hwidth => ?_
      subst hwidth
      refine safe_bind (fits_safe hlayout) fun fit hfit => ?_
      apply safe_ite
      · intro htrue
        refine (ih (by omega) (by omega) (hfit htrue)).mono fun stop hstop => ?_
        exact ⟨by omega, hstop.2.1, hstop.2.2⟩
      · intro _
        refine safe_bind (safe_sub (by omega)) fun shorter hshorter => ?_
        subst hshorter
        refine (ih (by omega) (by omega) haffordable).mono fun stop hstop => ?_
        exact ⟨hstop.1, by omega, hstop.2.2⟩
    · intro _
      exact safe_ok ⟨Nat.le_refl _, hle, haffordable⟩

/-- What the window is chosen from: a hit of at most the scan budget inside its scope. -/
structure Hit (options : Options) (hitStart hitEnd scopeStart scopeEnd : Nat) : Prop where
  nonempty : hitStart < hitEnd
  scope_start : scopeStart ≤ hitStart
  scope_end : hitEnd ≤ scopeEnd
  scope_lt : scopeEnd < 2 ^ 64
  scan : hitEnd - hitStart ≤ options.scan
  excerpt : hitEnd - hitStart ≤ options.excerpt

/-- What the window guarantees. -/
structure Window (entries : List ChunkEntry) (options : Options)
    (hitStart hitEnd scopeStart scopeEnd scanStart scanEnd : Nat) : Prop where
  scope_start : scopeStart ≤ scanStart
  scope_end : scanEnd ≤ scopeEnd
  hit_start : scanStart ≤ hitStart
  hit_end : hitEnd ≤ scanEnd
  scan : scanEnd - scanStart ≤ options.scan
  affordable : Affordable entries options scanStart scanEnd

theorem scanWindow_safe (hlayout : Layout entries size)
    {hitStart hitEnd scopeStart scopeEnd : Nat}
    (hit : Hit options hitStart hitEnd scopeStart scopeEnd) :
    Safe (scanWindow entries options hitStart hitEnd scopeStart scopeEnd) (fun window =>
      Window entries options hitStart hitEnd scopeStart scopeEnd window.1 window.2) := by
  obtain ⟨hnonempty, hstart, hend, hlt, hscan, -⟩ := hit
  rw [scanWindow]
  refine safe_bind (safe_sub (Nat.le_of_lt hnonempty)) fun hitLength hlength => ?_
  subst hlength
  refine safe_bind (safe_sub hscan) fun slack hslack => ?_
  subst hslack
  dsimp only
  -- both targets lie on their side of the hit, within half of the slack
  have hright : hitEnd ≤ min (saturatingAdd hitEnd ((options.scan - (hitEnd - hitStart)) / 2))
      scopeEnd := by
    rw [saturatingAdd]
    omega
  have hrightBudget : min (saturatingAdd hitEnd ((options.scan - (hitEnd - hitStart)) / 2)) scopeEnd
      ≤ hitEnd + (options.scan - (hitEnd - hitStart)) / 2 := by
    rw [saturatingAdd]
    omega
  have hrightScope : min (saturatingAdd hitEnd ((options.scan - (hitEnd - hitStart)) / 2)) scopeEnd
      ≤ scopeEnd := Nat.min_le_right _ _
  generalize min (saturatingAdd hitEnd ((options.scan - (hitEnd - hitStart)) / 2)) scopeEnd =
    rightTarget at hright hrightBudget hrightScope ⊢
  refine safe_bind (fits_safe hlayout) fun fit hfit => ?_
  apply safe_ite
  · intro htrue
    refine safe_bind (fitLeftLoop_safe hlayout _ (Nat.le_refl _) (by omega) (hfit htrue))
      fun scanStart hscanStart => ?_
    refine safe_bind (fitRightLoop_safe hlayout _ (Nat.le_refl _) hright hscanStart.2.2)
      fun scanEnd hscanEnd => ?_
    have hwindow : Window entries options hitStart hitEnd scopeStart scopeEnd scanStart scanEnd :=
      ⟨by omega, by omega, hscanStart.2.1, hscanEnd.1, by omega, hscanEnd.2.2⟩
    apply safe_ite
    · intro hguard
      refine safe_bind (safe_sub (by omega)) fun guardStart hguardStart => ?_
      refine safe_bind (safe_sub (by omega)) fun width hwidth => ?_
      apply safe_ite
      · intro hbudget
        refine safe_bind (fits_safe hlayout) fun fit' hfit' => ?_
        apply safe_ite
        · intro htrue'
          exact safe_ok ⟨by omega, hwindow.scope_end, by omega, hwindow.hit_end, by omega, hfit' htrue'⟩
        · exact fun _ => safe_ok hwindow
      · exact fun _ => safe_ok hwindow
    · exact fun _ => safe_ok hwindow
  · exact fun _ => trivial

/-! ### The read -/

theorem decodedEntry_cost {decodeEntry : DecodeEntry} {cache cache' : ChunkDecodeCache}
    {entry : ChunkEntry} (h : cache.decodedEntry entry decodeEntry = .ok cache') :
    cache'.physicalDecodedBytes ≤ cache.physicalDecodedBytes + entry.uncompressedSize ∧
      cache'.decodedChunks ≤ cache.decodedChunks + 1 := by
  unfold ChunkDecodeCache.decodedEntry at h
  split at h
  · simp only [bind_eq_ok_iff, okOr_eq_ok_iff, checkedAdd_eq_some_iff, pure_eq_ok,
      Except.ok.injEq] at h
    obtain ⟨_, -, _, ⟨-, rfl⟩, _, ⟨-, rfl⟩, _, -, rfl⟩ := h
    exact ⟨Nat.le_refl _, Nat.le_refl _⟩
  · cases h
    exact ⟨Nat.le_add_right _ _, Nat.le_add_right _ _⟩

/-- The copy loop decodes at most the chunks that begin before the end of the range. -/
theorem copyRange_cost {decodeEntry : DecodeEntry} {offset : Nat} {remaining : List ChunkEntry}
    {output : List UInt8} {cache : ChunkDecodeCache} {result : List UInt8 × ChunkDecodeCache}
    (h : copyRange offset stop decodeEntry remaining output cache = .ok result) :
    result.2.physicalDecodedBytes ≤ cache.physicalDecodedBytes +
        (chunkSizes (remaining.takeWhile (·.logicalOffset < stop))).sum ∧
      result.2.decodedChunks ≤
        cache.decodedChunks + (remaining.takeWhile (·.logicalOffset < stop)).length := by
  induction remaining generalizing output cache with
  | nil =>
    cases h
    exact ⟨Nat.le_add_right _ _, Nat.le_add_right _ _⟩
  | cons entry remaining ih =>
    rw [copyRange] at h
    obtain ⟨chunkEnd, -, h⟩ := bind_eq_ok_iff.mp h
    split at h
    · cases h
      exact ⟨Nat.le_add_right _ _, Nat.le_add_right _ _⟩
    · rename_i hbefore
      simp only [bind_eq_ok_iff] at h
      obtain ⟨cache', hdecoded, _, -, _, -, hloop⟩ := h
      obtain ⟨hbytes, hchunks⟩ := decodedEntry_cost hdecoded
      obtain ⟨hbytes', hchunks'⟩ := ih hloop
      rw [List.takeWhile_cons_of_pos (by simpa using hbefore), chunkSizes_cons, List.sum_cons,
        List.length_cons]
      exact ⟨by omega, by omega⟩

/-- An affordable range is read within the budgets. -/
theorem readRange_cost (hlayout : Layout entries size) {decodeEntry : DecodeEntry} {length : Nat}
    {bytes : List UInt8} (haffordable : Affordable entries options start (start + length))
    (hpos : 0 < length)
    (h : readRangeFromEntries entries size start length decodeEntry = .ok bytes) :
    ∃ metrics, readRangeWithMetricsFromEntries entries size start length decodeEntry =
        .ok { bytes, metrics } ∧
      metrics.decodedBytes ≤ options.physical ∧ metrics.decodedChunks ≤ options.chunks := by
  rw [readRangeFromEntries] at h
  obtain ⟨report, hreport, hbytes⟩ := bind_eq_ok_iff.mp h
  cases hbytes
  refine ⟨report.metrics, hreport, ?_⟩
  simp only [readRangeWithMetricsFromEntries, readRangeFromEntriesCached, if_neg (Nat.ne_of_gt hpos),
    hlayout.chunkIndex_eq, bind_eq_ok_iff, checkedLogicalEnd_eq_ok_iff, ok_bind, pure_eq_ok,
    Except.ok.injEq] at hreport
  obtain ⟨_, ⟨_, ⟨-, rfl⟩, _, -, copied, hcopy, _, -, _, -, rfl⟩, rfl⟩ := hreport
  obtain ⟨hbytes, hchunks⟩ := copyRange_cost hcopy
  have hzero : ChunkDecodeCache.new.physicalDecodedBytes = 0 := rfl
  have hzero' : ChunkDecodeCache.new.decodedChunks = 0 := rfl
  have hmaxBytes := haffordable.bytes
  have hmaxChunks := haffordable.chunks
  rw [chosenChunks] at hmaxBytes hmaxChunks
  dsimp only
  exact ⟨by omega, by omega⟩

end Cost

end Qzt.Context
