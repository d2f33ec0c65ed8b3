import BrixCache.Core.WVerify
import BrixCache.Lib.CrcCombine
import BrixCache.Core.Ascii

/-!
# What the accumulator vouches for

Over any calls in any order: as long as none has failed, the extents are the stretches of bytes
that have been written, so that a single extent from 0 on is the whole content; the digest is that
of the content where the bytes came in order.
-/

namespace BrixCache

open Stretch List

/-! ## Calls -/

def WvCall.bytes (call : WvCall) : Bytes := call.buf.getD []

def WvCall.stretch (call : WvCall) : Stretch UInt8 := ⟨call.off, call.bytes⟩

/-- The byte that was written to a place. -/
def writtenAt (calls : List WvCall) (x : ℤ) : Option UInt8 := cellAt (calls.map WvCall.stretch) x

/-- A call with arguments that stand for bytes of a file. -/
structure WvCall.Valid (call : WvCall) : Prop where
  nonneg : 0 ≤ call.off
  given : call.buf = none → call.len = 0
  small : call.len ≠ 0 → call.off + call.len ≤ 2 ^ 62

/-- No byte is written twice. -/
def WvDisjoint (calls : List WvCall) : Prop :=
  calls.Pairwise fun c d => ∀ x, ¬ ((c.stretch.at? x).isSome ∧ (d.stretch.at? x).isSome)

/-- The calls wrote the content, byte for byte. -/
def Assembled (calls : List WvCall) (content : Bytes) : Prop :=
  ∀ x, writtenAt calls x = (⟨0, content⟩ : Stretch UInt8).at? x

/-- The number of extents that stand apart. -/
noncomputable def liveExtents (calls : List WvCall) : ℕ := (starts (writtenAt calls)).ncard

/-- Each call goes on where the one before it ended. -/
def InOrder (calls : List WvCall) : Prop :=
  ∀ p c q, calls = p ++ c :: q → c.len ≠ 0 → c.off = (p.flatMap WvCall.bytes).length

theorem writtenAt_concat (calls : List WvCall) (call : WvCall) (x : ℤ) :
    writtenAt (calls ++ [call]) x = (writtenAt calls x).or (call.stretch.at? x) := by
  rw [writtenAt, map_append, cellAt_append, map_singleton, cellAt_cons]
  simp [writtenAt, cellAt]

variable {call : WvCall} {x : ℤ} {n : ℕ}

theorem WvCall.Valid.length (h : call.Valid) : call.bytes.length = call.len := by
  rw [WvCall.bytes]
  cases hbuf : call.buf with
  | none => exact (h.given hbuf).symm
  | some bytes => exact call.whole bytes hbuf

theorem WvCall.at?_of_empty (h : call.bytes = []) (x : ℤ) :
    call.stretch.at? x = none := by
  rw [at?_eq_none, hi, WvCall.stretch, h]
  simp only [length_nil]
  omega

theorem writtenAt_isSome {calls : List WvCall} :
    (writtenAt calls x).isSome ↔ ∃ c ∈ calls, (c.stretch.at? x).isSome := by
  rw [writtenAt, cellAt_isSome]
  simp only [mem_map, exists_exists_and_eq_and, at?_isSome]

theorem wvDisjoint_concat {calls : List WvCall} :
    WvDisjoint (calls ++ [call]) ↔
      WvDisjoint calls ∧ ∀ x, ¬ ((writtenAt calls x).isSome ∧ (call.stretch.at? x).isSome) := by
  rw [WvDisjoint, pairwise_append]
  simp only [pairwise_singleton, mem_singleton, forall_eq, true_and, writtenAt_isSome]
  refine and_congr_right fun _ => ⟨?_, ?_⟩
  · rintro h x ⟨⟨c, hc, hcx⟩, hx⟩
    exact h c hc x ⟨hcx, hx⟩
  · rintro h c hc x ⟨hcx, hx⟩
    exact h x ⟨⟨c, hc, hcx⟩, hx⟩

/-! ## The invariant -/

/-- As long as no call has failed: the extents are the stretches of what was written. -/
structure WvHolds (crc32 : Bytes → UInt32) (w : WVerify) (calls : List WvCall) : Prop where
  intact : w.degraded = false
  cap : w.cap ≤ wverifyMaxExtents
  stretches : ∃ ss, Apart ss ∧ w.ext = ss.map (.of crc32) ∧ ∀ x, cellAt ss x = writtenAt calls x
  valid : ∀ c ∈ calls, c.Valid
  disjoint : WvDisjoint calls

/-- Why a call can fail. -/
def WvCall.Refused (calls : List WvCall) (n : ℕ) (call : WvCall) : Prop :=
  ¬ call.Valid ∨ (∃ x, (writtenAt calls x).isSome ∧ (call.stretch.at? x).isSome) ∨
    call.len ≠ 0 ∧ (wverifyMaxExtents ≤ n ∨ call.grown = false)

section

variable {crc32 : Bytes → UInt32} {crc32Combine : UInt32 → UInt32 → ℕ → UInt32}
variable {w : WVerify} {calls : List WvCall} {call : WvCall}

theorem wvUpdateBounds_refused (h : wvUpdateBounds call = .refused) (hlen : call.len < 2 ^ 32) :
    ¬ call.Valid := by
  intro hvalid
  rw [wvUpdateBounds] at h
  split at h
  · next hbad =>
    obtain hneg | ⟨hnone, hne⟩ := hbad
    · have hnonneg := hvalid.nonneg
      omega
    · exact hne (hvalid.given hnone)
  · split at h
    · cases h
    · next hne =>
      split at h
      · next hbig =>
        have hsmall := hvalid.small hne
        omega
      · cases h

theorem wvUpdateBounds_nothing (h : wvUpdateBounds call = .nothing) :
    call.len = 0 ∧ call.Valid := by
  rw [wvUpdateBounds] at h
  split at h
  · cases h
  · next hgood =>
    split at h
    · next hzero =>
      exact ⟨hzero, by omega, fun _ => hzero, fun hne => absurd hzero hne⟩
    · split at h <;> cases h

theorem wvUpdateBounds_upTo {hi : ℤ} (h : wvUpdateBounds call = .upTo hi) :
    hi = call.off + call.len ∧ call.len ≠ 0 ∧ call.Valid := by
  rw [wvUpdateBounds] at h
  split at h
  · cases h
  · next hgood =>
    obtain ⟨hnonneg, hgiven⟩ := not_or.mp hgood
    split at h
    · cases h
    · next hne =>
      split at h
      · cases h
      · next hsmall =>
        cases h
        refine ⟨rfl, hne, by omega, fun hnone => absurd ⟨hnone, hne⟩ hgiven, fun _ => by omega⟩

theorem WvCall.bytes_of_len (h : call.Valid) (hzero : call.len = 0) : call.bytes = [] := by
  rw [← length_eq_zero_iff, h.length, hzero]

theorem WvHolds.nothing (h : WvHolds crc32 w calls) (hvalid : call.Valid)
    (hzero : call.len = 0) : WvHolds crc32 w (calls ++ [call]) := by
  have hnone := WvCall.at?_of_empty (WvCall.bytes_of_len hvalid hzero)
  obtain ⟨ss, hss, hext, hcells⟩ := h.stretches
  refine ⟨h.intact, h.cap, ⟨ss, hss, hext, fun x => ?_⟩, ?_, ?_⟩
  · rw [writtenAt_concat, hnone, Option.or_none, hcells]
  · exact forall_mem_append.mpr ⟨h.valid, forall_mem_singleton.mpr hvalid⟩
  · refine wvDisjoint_concat.mpr ⟨h.disjoint, fun x hx => ?_⟩
    rw [hnone] at hx
    exact absurd hx.2 Bool.false_ne_true

variable {w' : WVerify} {inited : Bool}

theorem wvReserve_eq_some (h : wvReserve w call.grown = some w') :
    w' = w ∨ w' = { w with cap := min (if w.cap = 0 then 16 else w.cap * 2) wverifyMaxExtents } := by
  rw [wvReserve] at h
  split at h
  · exact .inl (Option.some.inj h).symm
  · split at h
    · cases h
    · split at h
      · cases h
      · exact .inr (Option.some.inj h).symm

theorem wvReserve_fields (h : wvReserve w call.grown = some w') :
    w'.ext = w.ext ∧ w'.degraded = w.degraded ∧ w'.sha = w.sha ∧ w'.shaOff = w.shaOff := by
  obtain rfl | rfl := wvReserve_eq_some h <;> exact ⟨rfl, rfl, rfl, rfl⟩

theorem wvReserve_cap (h : wvReserve w call.grown = some w')
    (hcap : w.cap ≤ wverifyMaxExtents) : w'.cap ≤ wverifyMaxExtents := by
  obtain rfl | rfl := wvReserve_eq_some h
  · exact hcap
  · exact Nat.min_le_right _ _

theorem wvReserve_eq_none (h : wvReserve w call.grown = none) :
    wverifyMaxExtents ≤ w.ext.length ∨ call.grown = false := by
  rw [wvReserve] at h
  split at h
  · cases h
  · split at h
    · next hfull => exact .inl hfull
    · split at h
      · next hfail => exact .inr hfail
      · cases h

theorem wvShaFeed_fields (w : WVerify) (bytes : Bytes) (off : ℤ) (len : ℕ) (hashed : Bool) :
    (wvShaFeed w bytes off len hashed).ext = w.ext ∧
      (wvShaFeed w bytes off len hashed).degraded = w.degraded ∧
      (wvShaFeed w bytes off len hashed).cap = w.cap := by
  rw [wvShaFeed]
  split
  · exact ⟨rfl, rfl, rfl⟩
  · split <;> exact ⟨rfl, rfl, rfl⟩

theorem wvExt_put (hlaw : ∀ a b, crc32Combine (crc32 a) (crc32 b) b.length = crc32 (a ++ b))
    (ss : List (Stretch UInt8)) (s : Stretch UInt8) :
    wvCoalesce crc32Combine (before ss s.lo).length
        ((ss.map (.of crc32)).take (before ss s.lo).length ++
          .of crc32 s :: (ss.map (.of crc32)).drop (before ss s.lo).length) =
      (put (before ss s.lo) s (after ss s.lo)).map (.of crc32) := by
  have hmap : ss.map (WvExtent.of crc32) =
      (before ss s.lo).map (.of crc32) ++ (after ss s.lo).map (.of crc32) := by
    rw [← map_append, before_append_after]
  have hlen : ((before ss s.lo).map (WvExtent.of crc32)).length = (before ss s.lo).length :=
    length_map _
  rw [hmap, take_left' hlen, drop_left' hlen, ← map_cons, ← map_append,
    wvCoalesce_put hlaw]

/-- **One write** is recorded, or the check gives up. -/
theorem wverifyUpdate_spec
    (hlaw : ∀ a b, crc32Combine (crc32 a) (crc32 b) b.length = crc32 (a ++ b))
    (h : WvHolds crc32 w calls) (hlen : call.len < 2 ^ 32) :
    WvHolds crc32 (wverifyUpdate crc32 crc32Combine w call).1 (calls ++ [call]) ∨
      (wverifyUpdate crc32 crc32Combine w call).1.degraded = true ∧
        call.Refused calls w.ext.length := by
  obtain ⟨ss, hss, hext, hcells⟩ := h.stretches
  rw [wverifyUpdate]
  cases hbounds : wvUpdateBounds call with
  | refused => exact .inr ⟨rfl, .inl (wvUpdateBounds_refused hbounds hlen)⟩
  | nothing =>
    obtain ⟨hzero, hvalid⟩ := wvUpdateBounds_nothing hbounds
    exact .inl (h.nothing hvalid hzero)
  | upTo hi =>
    obtain ⟨rfl, hne, hvalid⟩ := wvUpdateBounds_upTo hbounds
    have hlength := hvalid.length
    have hbytes : call.stretch.cells ≠ [] := by
      intro hnil
      have hnil : call.bytes = [] := hnil
      rw [hnil, length_nil] at hlength
      exact hne hlength.symm
    have hhi : call.off + call.len = call.stretch.hi := by
      rw [Stretch.hi, WvCall.stretch, hlength]
    dsimp only
    cases hins : wvInsertionPoint w.ext call.off (call.off + call.len) with
    | none =>
      refine .inr ⟨rfl, .inr (.inl ?_)⟩
      rw [hext, hhi] at hins
      obtain ⟨x, hx, hnew⟩ := wvInsertionPoint_eq_none hss hbytes hins
      rw [hcells] at hx
      exact ⟨x, hx, hnew⟩
    | some pos =>
      rw [hext, hhi] at hins
      obtain ⟨rfl, hfits⟩ := wvInsertionPoint_eq_some hss hbytes hins
      dsimp only
      cases hres : wvReserve w call.grown with
      | none => exact .inr ⟨rfl, .inr (.inr ⟨hne, wvReserve_eq_none hres⟩)⟩
      | some w' =>
        obtain ⟨hext', hdeg, -, -⟩ := wvReserve_fields hres
        -- the new extent is that of the bytes
        have hnew : (⟨call.off, call.off + call.len,
            crc32 ((call.buf.getD []).take (call.len % 2 ^ 32))⟩ : WvExtent) =
            .of crc32 call.stretch := by
          have htake : (call.buf.getD []).take (call.len % 2 ^ 32) = call.bytes := by
            rw [Nat.mod_eq_of_lt hlen]
            exact take_of_length_le (Nat.le_of_eq hlength)
          rw [htake, hhi]
          rfl
        have hroom := wvReserve_cap hres h.cap
        refine .inl ?_
        dsimp only
        rw [hnew, hext', hext]
        refine ⟨?_, ?_, ⟨_, hfits.apart_put, ?_, ?_⟩, ?_, ?_⟩
        · exact (wvShaFeed_fields _ _ _ _ _).2.1.trans (hdeg.trans h.intact)
        · exact (wvShaFeed_fields _ _ _ _ _).2.2.trans_le hroom
        · dsimp only
          rw [(wvShaFeed_fields _ _ _ _ _).1]
          exact wvExt_put hlaw ss call.stretch
        · intro x
          rw [hfits.cellAt_put, before_append_after, hcells, writtenAt_concat]
        · exact forall_mem_append.mpr ⟨h.valid, forall_mem_singleton.mpr hvalid⟩
        · refine wvDisjoint_concat.mpr ⟨h.disjoint, ?_⟩
          rintro x ⟨hx, hnewx⟩
          have hnone := hfits.cellAt_eq_none hnewx
          rw [before_append_after, hcells] at hnone
          rw [hnone] at hx
          exact absurd hx Bool.false_ne_true

/-! ## Runs -/

/-- The accumulator after some calls. -/
def wverifyRun (crc32 : Bytes → UInt32) (crc32Combine : UInt32 → UInt32 → ℕ → UInt32)
    (inited : Bool) (calls : List WvCall) : WVerify :=
  calls.foldl (fun w call => (wverifyUpdate crc32 crc32Combine w call).1) (wverifyBegin inited)

theorem wverifyRun_concat (inited : Bool) (calls : List WvCall) (call : WvCall) :
    wverifyRun crc32 crc32Combine inited (calls ++ [call]) =
      (wverifyUpdate crc32 crc32Combine (wverifyRun crc32 crc32Combine inited calls) call).1 := by
  rw [wverifyRun, foldl_append]
  rfl

theorem wvHolds_nil (inited : Bool) :
    WvHolds crc32 (wverifyRun crc32 crc32Combine inited []) [] :=
  ⟨rfl, Nat.zero_le _, ⟨[], ⟨fun _ hs => absurd hs not_mem_nil, List.Pairwise.nil⟩, rfl,
    fun _ => rfl⟩, fun _ hc => absurd hc not_mem_nil, List.Pairwise.nil⟩

theorem wverifyUpdate_degraded (h : w.degraded = true) :
    (wverifyUpdate crc32 crc32Combine w call).1.degraded = true := by
  rw [wverifyUpdate]
  split
  · rfl
  · exact h
  · split
    · rfl
    · split
      · rfl
      · next w' hres =>
        dsimp only
        rw [(wvShaFeed_fields _ _ _ _ _).2.1]
        exact (wvReserve_fields hres).2.1.trans h

theorem wverifyRun_spec
    (hlaw : ∀ a b, crc32Combine (crc32 a) (crc32 b) b.length = crc32 (a ++ b)) (inited : Bool)
    (hlen : ∀ c ∈ calls, c.len < 2 ^ 32) :
    WvHolds crc32 (wverifyRun crc32 crc32Combine inited calls) calls ∨
      (wverifyRun crc32 crc32Combine inited calls).degraded = true ∧
        ∃ p c q, calls = p ++ c :: q ∧ WvHolds crc32 (wverifyRun crc32 crc32Combine inited p) p ∧
          c.Refused p (wverifyRun crc32 crc32Combine inited p).ext.length := by
  induction calls using reverseRec with
  | nil => exact .inl (wvHolds_nil inited)
  | append_singleton calls call ih =>
    obtain ⟨hbefore, hcall⟩ := forall_mem_append.mp hlen
    have hcall := hcall call (mem_singleton_self call)
    rw [wverifyRun_concat]
    obtain hholds | ⟨hdeg, p, c, q, rfl, hp, hrefused⟩ := ih hbefore
    · obtain hnext | ⟨hdeg, hrefused⟩ := wverifyUpdate_spec hlaw hholds hcall
      · exact .inl hnext
      · exact .inr ⟨hdeg, calls, call, [], rfl, hholds, hrefused⟩
    · exact .inr ⟨wverifyUpdate_degraded hdeg, p, c, q ++ [call], by simp, hp, hrefused⟩

theorem wvHolds_of_intact (hlaw : ∀ a b, crc32Combine (crc32 a) (crc32 b) b.length = crc32 (a ++ b))
    (hlen : ∀ c ∈ calls, c.len < 2 ^ 32)
    (h : (wverifyRun crc32 crc32Combine inited calls).degraded = false) :
    WvHolds crc32 (wverifyRun crc32 crc32Combine inited calls) calls := by
  obtain hholds | ⟨hdeg, -⟩ := wverifyRun_spec hlaw inited hlen
  · exact hholds
  · rw [h] at hdeg
    cases hdeg

/-! ## The whole content -/

theorem wverifyExpected_eq_some {crc : UInt32} {total : ℤ} :
    wverifyExpected w = some (crc, total) ↔ w.degraded = false ∧ w.ext = [⟨0, total, crc⟩] := by
  rw [wverifyExpected]
  split
  · next a hext =>
    rw [hext]
    obtain ⟨lo, hi, crc'⟩ := a
    by_cases hdeg : w.degraded = true
    · simp [hdeg]
    · by_cases hlo : lo = 0
      · simp [hdeg, hlo, and_comm]
      · simp [hdeg, hlo]
  · next hext =>
    simp only [reduceCtorEq, false_iff, not_and]
    exact fun _ h => hext _ h

theorem WvHolds.assembled (h : WvHolds crc32 w calls) {crc : UInt32} {total : ℤ}
    (hext : w.ext = [⟨0, total, crc⟩]) :
    ∃ content, content ≠ [] ∧ Assembled calls content ∧ crc = crc32 content ∧
      total = content.length := by
  obtain ⟨ss, hss, hmap, hcells⟩ := h.stretches
  rw [hmap, map_eq_singleton_iff] at hext
  obtain ⟨⟨lo, content⟩, rfl, hof⟩ := hext
  cases hof
  refine ⟨content, hss.ne _ (mem_singleton_self _), fun x => ?_, rfl, ?_⟩
  · rw [← hcells, cellAt_cons]
    exact Option.or_none
  · rw [hi]
    exact Int.zero_add _

theorem WvHolds.ext_eq (h : WvHolds crc32 w calls) {content : Bytes} (hne : content ≠ [])
    (hcontent : Assembled calls content) : w.ext = [⟨0, content.length, crc32 content⟩] := by
  obtain ⟨ss, hss, hmap, hcells⟩ := h.stretches
  have hone : Apart [(⟨0, content⟩ : Stretch UInt8)] :=
    .cons hne (fun t ht => absurd ht not_mem_nil)
      ⟨fun s hs => absurd hs not_mem_nil, List.Pairwise.nil⟩
  have hsame : cellAt ss = cellAt [(⟨0, content⟩ : Stretch UInt8)] := by
    funext x
    rw [hcells, hcontent, cellAt_cons]
    exact Option.or_none.symm
  have hlen : ss.length = 1 := by
    rw [hss.length_eq, hsame, ← hone.length_eq]
    rfl
  obtain ⟨s, rfl⟩ := length_eq_one_iff.mp hlen
  have hs : s = ⟨0, content⟩ := by
    refine eq_of_at? (hss.ne s (mem_singleton_self s)) hne fun x => ?_
    have hx := congrFun hsame x
    rw [cellAt_cons, cellAt_cons] at hx
    simpa [cellAt] using hx
  rw [hmap, hs, map_singleton, WvExtent.of, hi]
  simp

/-! ## The digest -/

/-- As long as no call has failed: what the digest was fed came in order. -/
def WvFed (w : WVerify) (calls : List WvCall) : Prop :=
  ∀ fed, w.sha = some fed →
    InOrder calls ∧ fed = calls.flatMap WvCall.bytes ∧ w.shaOff = fed.length

theorem InOrder.concat (h : InOrder calls)
    (hcall : call.len ≠ 0 → call.off = (calls.flatMap WvCall.bytes).length) :
    InOrder (calls ++ [call]) := by
  intro p c q heq hne
  obtain rfl | ⟨q, d, rfl⟩ := eq_nil_or_concat q
  · obtain ⟨rfl, hc⟩ := append_inj' heq rfl
    cases hc
    exact hcall hne
  · have hsplit : p ++ c :: q.concat d = (p ++ c :: q) ++ [d] := by simp
    rw [hsplit] at heq
    obtain ⟨rfl, -⟩ := append_inj' heq rfl
    exact h p c q rfl hne

theorem InOrder.front (h : InOrder (calls ++ [call])) :
    InOrder calls ∧ (call.len ≠ 0 → call.off = (calls.flatMap WvCall.bytes).length) := by
  refine ⟨fun p c q heq hne => h p c (q ++ [call]) (by simp [heq]) hne, ?_⟩
  exact h calls call [] rfl

theorem assembled_of_inOrder (hvalid : ∀ c ∈ calls, c.Valid) (h : InOrder calls) :
    Assembled calls (calls.flatMap WvCall.bytes) := by
  induction calls using reverseRec with
  | nil =>
    intro x
    rw [at?_eq_none.mpr]
    · rfl
    · rw [hi]
      simp only [flatMap_nil, length_nil]
      omega
  | append_singleton calls call ih =>
    obtain ⟨hbefore, hcall⟩ := forall_mem_append.mp hvalid
    obtain ⟨hfront, hoff⟩ := h.front
    have ih := ih hbefore hfront
    intro x
    rw [writtenAt_concat, ih, flatMap_append, flatMap_singleton]
    by_cases hzero : call.len = 0
    · have hbytes := WvCall.bytes_of_len (hcall call (mem_singleton_self call)) hzero
      rw [WvCall.at?_of_empty hbytes, hbytes, Option.or_none, append_nil]
    · have htouch : (⟨0, calls.flatMap WvCall.bytes⟩ : Stretch UInt8).hi = call.stretch.lo := by
        rw [hi, WvCall.stretch, hoff hzero]
        exact Int.zero_add _
      exact (at?_glue htouch x).symm

theorem wvShaFeed_fed (hfed : WvFed w calls) (hbytes : call.bytes.length = call.len)
    {fed : Bytes}
    (h : (wvShaFeed w call.bytes call.off call.len call.hashed).sha = some fed) :
    InOrder (calls ++ [call]) ∧ fed = (calls ++ [call]).flatMap WvCall.bytes ∧
      (wvShaFeed w call.bytes call.off call.len call.hashed).shaOff = fed.length := by
  rw [wvShaFeed] at h ⊢
  split at h
  · next hnone =>
    rw [hnone] at h
    cases h
  · next old hsome =>
    obtain ⟨horder, rfl, hoff⟩ := hfed old hsome
    split at h
    · cases h
    · next hgood =>
      obtain ⟨hat, -⟩ := not_or.mp hgood
      have hat := not_not.mp hat
      cases h
      rw [if_neg hgood]
      refine ⟨horder.concat fun _ => hat.trans hoff, by simp, ?_⟩
      rw [length_append, hbytes, hat, hoff]
      push_cast
      rfl

theorem wverifyUpdate_fed
    (hfed : WvFed w calls) (hintact : (wverifyUpdate crc32 crc32Combine w call).1.degraded = false) :
    WvFed (wverifyUpdate crc32 crc32Combine w call).1 (calls ++ [call]) := by
  intro fed h
  rw [wverifyUpdate] at h hintact ⊢
  cases hbounds : wvUpdateBounds call with
  | refused =>
    rw [hbounds] at hintact
    cases hintact
  | nothing =>
    obtain ⟨hzero, hvalid⟩ := wvUpdateBounds_nothing hbounds
    rw [hbounds] at h
    obtain ⟨horder, rfl, hoff⟩ := hfed fed h
    have hbytes := WvCall.bytes_of_len hvalid hzero
    exact ⟨horder.concat fun hne => absurd hzero hne, by simp [hbytes], hoff⟩
  | upTo hi =>
    obtain ⟨rfl, hne, hvalid⟩ := wvUpdateBounds_upTo hbounds
    rw [hbounds] at h hintact
    dsimp only at h hintact ⊢
    cases hins : wvInsertionPoint w.ext call.off (call.off + call.len) with
    | none =>
      rw [hins] at hintact
      cases hintact
    | some pos =>
      rw [hins] at h hintact
      dsimp only at h hintact ⊢
      cases hres : wvReserve w call.grown with
      | none =>
        rw [hres] at hintact
        cases hintact
      | some w' =>
        rw [hres] at h
        obtain ⟨-, -, hsha, hoff⟩ := wvReserve_fields hres
        refine wvShaFeed_fed (fun old hold => ?_) hvalid.length h
        obtain ⟨horder, hold', hshaOff⟩ := hfed old (hsha.symm.trans hold)
        exact ⟨horder, hold', hoff.trans hshaOff⟩

theorem wverifyRun_intact_front
    (h : (wverifyRun crc32 crc32Combine inited (calls ++ [call])).degraded = false) :
    (wverifyRun crc32 crc32Combine inited calls).degraded = false := by
  rw [← Bool.not_eq_true] at h ⊢
  intro hdeg
  rw [wverifyRun_concat] at h
  exact h (wverifyUpdate_degraded hdeg)

theorem wverifyRun_fed (h : (wverifyRun crc32 crc32Combine inited calls).degraded = false) :
    WvFed (wverifyRun crc32 crc32Combine inited calls) calls := by
  induction calls using reverseRec with
  | nil =>
    intro fed hfed
    cases inited with
    | false => cases hfed
    | true =>
      cases hfed
      exact ⟨fun p c q heq => absurd heq.symm (by simp), rfl, rfl⟩
  | append_singleton calls call ih =>
    have hfront := wverifyRun_intact_front h
    rw [wverifyRun_concat] at h ⊢
    exact wverifyUpdate_fed (ih hfront) h

theorem wverifyExpectedSha256_eq_some {sha256 : Bytes → Bytes} {finished : Bool}
    {digest : Bytes} (h : wverifyExpectedSha256 sha256 w finished = some digest) :
    w.degraded = false ∧ ∃ fed, w.sha = some fed ∧ digest = sha256 fed := by
  rw [wverifyExpectedSha256] at h
  split at h
  · next fed a hsha hext =>
    split at h
    · cases h
    · next hgood =>
      split at h
      · cases h
        exact ⟨Bool.eq_false_iff.mpr fun hdeg => hgood (.inl hdeg), fed, hsha, rfl⟩
      · cases h
  · cases h

/-! ## What is vouched for -/

/-- Every call that has bytes finds room for one extent more. -/
def RoomLeft (calls : List WvCall) : Prop :=
  ∀ p c q, calls = p ++ c :: q → c.len ≠ 0 → liveExtents p < wverifyMaxExtents ∧ c.grown = true

theorem WvHolds.live (h : WvHolds crc32 w calls) : w.ext.length = liveExtents calls := by
  obtain ⟨ss, hss, hext, hcells⟩ := h.stretches
  have hsame : cellAt ss = writtenAt calls := funext hcells
  rw [hext, length_map, hss.length_eq, hsame, liveExtents]

/-- **The accumulator is sound**, in every run: what it expects is the checksum of what was written,
if that is one content without gap and overlap; after an overlap or an overflow it expects nothing
any more; and the digest is that of bytes in order. And it is complete in every run whose calls all
find room. -/
theorem wverifyRun_sound
    (hlaw : ∀ a b, crc32Combine (crc32 a) (crc32 b) b.length = crc32 (a ++ b)) (inited : Bool)
    (calls : List WvCall) (hlen : ∀ c ∈ calls, c.len < 2 ^ 32) :
    (∀ crc total,
      wverifyExpected (wverifyRun crc32 crc32Combine inited calls) = some (crc, total) →
        WvDisjoint calls ∧ ∃ content, content ≠ [] ∧ Assembled calls content ∧
          crc = crc32 content ∧ total = content.length) ∧
    (∀ content, content ≠ [] → (∀ c ∈ calls, c.Valid) → WvDisjoint calls →
      Assembled calls content → RoomLeft calls →
        wverifyExpected (wverifyRun crc32 crc32Combine inited calls) =
          some (crc32 content, (content.length : ℤ))) ∧
    (∀ p q, calls = p ++ q →
      ¬ WvDisjoint p ∨ (∃ c ∈ p, c.len ≠ 0 ∧ 2 ^ 62 < c.off + c.len) →
        wverifyExpected (wverifyRun crc32 crc32Combine inited calls) = none) ∧
    ∀ sha256 finished digest,
      wverifyExpectedSha256 sha256 (wverifyRun crc32 crc32Combine inited calls) finished =
          some digest →
        InOrder calls ∧ Assembled calls (calls.flatMap WvCall.bytes) ∧
          digest = sha256 (calls.flatMap WvCall.bytes) := by
  refine ⟨?_, ?_, ?_, ?_⟩
  · intro crc total h
    obtain ⟨hintact, hext⟩ := wverifyExpected_eq_some.mp h
    have hholds := wvHolds_of_intact hlaw hlen hintact
    exact ⟨hholds.disjoint, hholds.assembled hext⟩
  · intro content hne hvalid hdisjoint hcontent hroom
    obtain hholds | ⟨-, p, c, q, rfl, hp, hrefused⟩ := wverifyRun_spec hlaw inited hlen
    · exact wverifyExpected_eq_some.mpr ⟨hholds.intact, hholds.ext_eq hne hcontent⟩
    · -- no call was refused
      exfalso
      obtain hbad | ⟨x, hx⟩ | ⟨hbytes, hfull⟩ := hrefused
      · exact hbad (hvalid c (by simp))
      · have hprefix : WvDisjoint (p ++ [c]) := by
          have hsub : (p ++ [c]).Sublist (p ++ c :: q) := by simp
          exact hdisjoint.sublist hsub
        exact (wvDisjoint_concat.mp hprefix).2 x hx
      · obtain ⟨hlive, hgrown⟩ := hroom p c q rfl hbytes
        rw [hp.live] at hfull
        obtain hfull | hfull := hfull
        · omega
        · rw [hgrown] at hfull
          cases hfull
  · rintro p q rfl hbad
    by_contra hsome
    obtain ⟨⟨crc, total⟩, hsome⟩ := Option.ne_none_iff_exists'.mp hsome
    have hholds := wvHolds_of_intact hlaw hlen (wverifyExpected_eq_some.mp hsome).1
    obtain hover | ⟨c, hc, hne, hbig⟩ := hbad
    · exact hover (hholds.disjoint.sublist (sublist_append_left p q))
    · have hsmall := (hholds.valid c (mem_append_left q hc)).small hne
      omega
  · intro sha256 finished digest h
    obtain ⟨hintact, fed, hsha, rfl⟩ := wverifyExpectedSha256_eq_some h
    obtain ⟨horder, rfl, -⟩ := wverifyRun_fed hintact fed hsha
    have hholds := wvHolds_of_intact hlaw hlen hintact
    exact ⟨horder, assembled_of_inOrder hholds.valid horder, rfl⟩

end

def oneByte (off : ℤ) : WvCall := ⟨off, 1, some [0], by simp, true, true⟩

def zlibCrc32 : Bytes → UInt32 := Crc.value 0xEDB88320

def zlibCrc32Combine : UInt32 → UInt32 → ℕ → UInt32 := Crc.combine 0xEDB88320

theorem zlibCrc32Combine_law (a b : Bytes) :
    zlibCrc32Combine (zlibCrc32 a) (zlibCrc32 b) b.length = zlibCrc32 (a ++ b) :=
  Crc.combine_value a b

theorem wverifyRun_sound_sample :
    ∃ content, content ≠ [] ∧ Assembled [oneByte 1, oneByte 0] content ∧
      zlibCrc32 [0, 0] = zlibCrc32 content ∧ (2 : ℤ) = content.length := by
  have hlen : ∀ c ∈ [oneByte 1, oneByte 0], c.len < 2 ^ 32 := by decide
  have hrun : wverifyExpected
      (wverifyRun zlibCrc32 zlibCrc32Combine true [oneByte 1, oneByte 0]) =
        some (zlibCrc32 [0, 0], 2) := by decide +kernel
  exact ((wverifyRun_sound zlibCrc32Combine_law true _ hlen).1 _ _ hrun).2

/-! ## The list when it is full -/

theorem writtenAt_oneByte (xs : List ℤ) (x : ℤ) :
    writtenAt (xs.map oneByte) x = if x ∈ xs then some 0 else none := by
  induction xs with
  | nil => rfl
  | cons y xs ih =>
    have hone : (oneByte y).stretch.at? x = if x = y then some 0 else none := by
      by_cases hx : x = y
      · subst hx
        simp [Stretch.at?, WvCall.stretch, WvCall.bytes, oneByte]
      · rw [if_neg hx, at?_eq_none, hi]
        simp only [WvCall.stretch, WvCall.bytes, oneByte, Option.getD_some, length_singleton]
        omega
    rw [writtenAt, map_cons, map_cons, cellAt_cons, hone]
    rw [writtenAt] at ih
    rw [ih]
    by_cases hx : x = y <;> simp [hx]

theorem valid_oneByte (hlo : 0 ≤ x) (hhi : x < 2 ^ 62) : (oneByte x).Valid := by
  refine ⟨hlo, fun hnone => ?_, fun _ => ?_⟩
  · cases hnone
  · have hend : (oneByte x).off + (oneByte x).len = x + 1 := rfl
    omega

theorem wvDisjoint_oneByte {xs : List ℤ} (h : xs.Nodup) : WvDisjoint (xs.map oneByte) := by
  induction xs using reverseRec with
  | nil => exact List.Pairwise.nil
  | append_singleton xs y ih =>
    obtain ⟨hxs, -, hne⟩ := nodup_append.mp h
    rw [map_append, map_singleton]
    refine wvDisjoint_concat.mpr ⟨ih hxs, ?_⟩
    rintro x ⟨hx, hy⟩
    have hmem : x ∈ xs := by
      by_contra hnot
      rw [writtenAt_oneByte, if_neg hnot] at hx
      cases hx
    have heq : x = y := by
      have hplace := at?_isSome.mp hy
      rw [hi] at hplace
      simp only [WvCall.stretch, WvCall.bytes, oneByte, Option.getD_some, length_singleton]
        at hplace
      omega
    exact hne x hmem y (mem_singleton_self y) heq

theorem starts_oneByte (xs : List ℤ) :
    starts (writtenAt (xs.map oneByte)) = {x | x ∈ xs ∧ x - 1 ∉ xs} := by
  ext x
  rw [starts, Set.mem_ofPred_eq, Set.mem_ofPred_eq, writtenAt_oneByte, writtenAt_oneByte]
  by_cases hx : x ∈ xs <;> by_cases hx' : x - 1 ∈ xs <;> simp [hx, hx']

theorem wverifyUpdate_full {crc32 : Bytes → UInt32}
    {crc32Combine : UInt32 → UInt32 → ℕ → UInt32} {w : WVerify}
    (hcap : w.cap ≤ wverifyMaxExtents) (hfull : wverifyMaxExtents ≤ w.ext.length)
    (hne : call.len ≠ 0) : (wverifyUpdate crc32 crc32Combine w call).1.degraded = true := by
  have hres : wvReserve w call.grown = none := by
    rw [wvReserve, if_neg (by omega), if_pos hfull]
  rw [wverifyUpdate]
  cases hbounds : wvUpdateBounds call with
  | refused => rfl
  | nothing => exact absurd (wvUpdateBounds_nothing hbounds).1 hne
  | upTo hi =>
    dsimp only
    cases wvInsertionPoint w.ext call.off hi with
    | none => rfl
    | some pos =>
      dsimp only
      rw [hres]

theorem wverifyRun_degraded {crc32 : Bytes → UInt32}
    {crc32Combine : UInt32 → UInt32 → ℕ → UInt32} {inited : Bool} {p : List WvCall}
    (h : (wverifyRun crc32 crc32Combine inited p).degraded = true) (q : List WvCall) :
    (wverifyRun crc32 crc32Combine inited (p ++ q)).degraded = true := by
  induction q using reverseRec with
  | nil => rwa [append_nil]
  | append_singleton q call ih =>
    rw [← append_assoc, wverifyRun_concat]
    exact wverifyUpdate_degraded ih

/-- Every other place of a file. -/
def evenPlaces (n : ℕ) : List ℤ := (range n).map fun k : ℕ => 2 * (k : ℤ)

/-- And those between them. -/
def oddPlaces (n : ℕ) : List ℤ := (range n).map fun k : ℕ => 2 * (k : ℤ) + 1

theorem mem_evenPlaces : x ∈ evenPlaces n ↔ 0 ≤ x ∧ x < 2 * n ∧ 2 ∣ x := by
  rw [evenPlaces, mem_map]
  constructor
  · rintro ⟨k, hk, rfl⟩
    have hk := mem_range.mp hk
    omega
  · rintro ⟨hlo, hhi, heven⟩
    exact ⟨(x / 2).toNat, mem_range.mpr (by omega), by omega⟩

theorem mem_oddPlaces : x ∈ oddPlaces n ↔ 0 ≤ x ∧ x < 2 * n ∧ ¬ 2 ∣ x := by
  rw [oddPlaces, mem_map]
  constructor
  · rintro ⟨k, hk, rfl⟩
    have hk := mem_range.mp hk
    omega
  · rintro ⟨hlo, hhi, hodd⟩
    exact ⟨(x / 2).toNat, mem_range.mpr (by omega), by omega⟩

theorem nodup_places (n m : ℕ) : (evenPlaces n ++ oddPlaces m).Nodup := by
  refine nodup_append.mpr ⟨?_, ?_, ?_⟩
  · exact nodup_range.map fun a b hab => by simpa using hab
  · exact nodup_range.map fun a b hab => by simpa using hab
  · intro x hx y hy hxy
    subst hxy
    exact (mem_oddPlaces.mp hy).2.2 (mem_evenPlaces.mp hx).2.2

theorem liveExtents_even (n : ℕ) : liveExtents ((evenPlaces n).map oneByte) = n := by
  have hset : starts (writtenAt ((evenPlaces n).map oneByte)) =
      ((evenPlaces n).toFinset : Set ℤ) := by
    rw [starts_oneByte]
    ext x
    simp only [Set.mem_ofPred_eq, coe_toFinset]
    refine and_iff_left_of_imp fun hx hbefore => ?_
    have hx := (mem_evenPlaces.mp hx).2.2
    have hbefore := (mem_evenPlaces.mp hbefore).2.2
    omega
  have hnodup : (evenPlaces n).Nodup := (nodup_append.mp (nodup_places n 0)).1
  rw [liveExtents, hset, Set.ncard_coe_finset, toFinset_card_of_nodup hnodup, evenPlaces,
    length_map, length_range]

theorem liveExtents_places_le {m : ℕ} (hm : m ≤ n) {p q : List WvCall}
    (h : (evenPlaces n ++ oddPlaces m).map oneByte = p ++ q) : liveExtents p ≤ n := by
  obtain ⟨xs, ys, hxs, rfl, rfl⟩ := map_eq_append_iff.mp h
  have hsub : starts (writtenAt (xs.map oneByte)) ⊆ ((evenPlaces n).toFinset : Set ℤ) := by
    rw [starts_oneByte]
    rintro x ⟨hx, hbefore⟩
    have hmem : x ∈ evenPlaces n ++ oddPlaces m := by
      rw [hxs]
      exact mem_append_left _ hx
    simp only [coe_toFinset, Set.mem_ofPred_eq]
    obtain heven | hodd := mem_append.mp hmem
    · exact heven
    · -- all the even places are written before an odd one
      exfalso
      have hx' := mem_oddPlaces.mp hodd
      obtain ⟨more, heven, -⟩ | ⟨more, rfl, -⟩ := append_eq_append_iff.mp hxs.symm
      · have hin : x ∈ evenPlaces n := heven ▸ mem_append_left more hx
        exact hx'.2.2 (mem_evenPlaces.mp hin).2.2
      · have hin : x - 1 ∈ evenPlaces n := mem_evenPlaces.mpr (by omega)
        exact hbefore (mem_append_left more hin)
  have hnodup : (evenPlaces n).Nodup := (nodup_append.mp (nodup_places n 0)).1
  calc liveExtents (xs.map oneByte)
      ≤ ((evenPlaces n).toFinset : Set ℤ).ncard := Set.ncard_le_ncard hsub (Finset.finite_toSet _)
    _ = n := by
        rw [Set.ncard_coe_finset, toFinset_card_of_nodup hnodup, evenPlaces, length_map,
          length_range]

/-- A file of which every other byte is written first. -/
def crowdedCalls : List WvCall :=
  (evenPlaces wverifyMaxExtents ++ oddPlaces (wverifyMaxExtents - 1)).map oneByte

theorem mem_crowded (hn : 0 < n) :
    x ∈ evenPlaces n ++ oddPlaces (n - 1) ↔ 0 ≤ x ∧ x < 2 * n - 1 := by
  rw [mem_append, mem_evenPlaces, mem_oddPlaces]
  omega

theorem assembled_crowded :
    Assembled crowdedCalls (replicate (2 * wverifyMaxExtents - 1) 0) := by
  have hn : 0 < wverifyMaxExtents := by decide
  intro x
  rw [crowdedCalls, writtenAt_oneByte]
  by_cases hx : 0 ≤ x ∧ x < 2 * (wverifyMaxExtents : ℤ) - 1
  · have hlt : (x - 0).toNat < 2 * wverifyMaxExtents - 1 := by omega
    have hnonneg : ¬ x < 0 := by omega
    rw [if_pos ((mem_crowded hn).mpr hx), at?]
    dsimp only
    rw [if_neg hnonneg, getElem?_replicate, if_pos hlt]
  · rw [if_neg (fun h => hx ((mem_crowded hn).mp h)), eq_comm, at?_eq_none, hi]
    dsimp only
    rw [length_replicate]
    omega

theorem oddPlaces_succ (n : ℕ) : ∃ xs, oddPlaces (n + 1) = 1 :: xs := by
  rw [oddPlaces, range_succ_eq_map]
  exact ⟨_, rfl⟩

/-- A byte that would join two extents is refused while the list is full, so that a whole content of
which no more than the permitted number of extents ever stood apart is not vouched for. -/
theorem full_list_refuses_to_join :
    (∀ c ∈ crowdedCalls, c.Valid ∧ c.len < 2 ^ 32 ∧ c.grown = true ∧ c.hashed = true) ∧
      WvDisjoint crowdedCalls ∧
      Assembled crowdedCalls (replicate (2 * wverifyMaxExtents - 1) 0) ∧
      (∀ p q, crowdedCalls = p ++ q → liveExtents p ≤ wverifyMaxExtents) ∧
      wverifyExpected (wverifyRun zlibCrc32 zlibCrc32Combine true crowdedCalls) = none := by
  have hcalls : ∀ c ∈ crowdedCalls,
      c.Valid ∧ c.len < 2 ^ 32 ∧ c.grown = true ∧ c.hashed = true := by
    intro c hc
    obtain ⟨x, hx, rfl⟩ := mem_map.mp hc
    have hx := (mem_crowded (by decide)).mp hx
    have hmax : (wverifyMaxExtents : ℤ) = 4096 := rfl
    exact ⟨valid_oneByte hx.1 (by omega), (by decide : 1 < 2 ^ 32), rfl, rfl⟩
  refine ⟨hcalls, wvDisjoint_oneByte (nodup_places _ _), assembled_crowded, ?_, ?_⟩
  · intro p q h
    have hless : wverifyMaxExtents - 1 ≤ wverifyMaxExtents := Nat.sub_le _ _
    exact liveExtents_places_le hless h
  · -- once the even places are written the list is full
    obtain ⟨odds, hodds⟩ := oddPlaces_succ 4094
    have hsplit : crowdedCalls = ((evenPlaces wverifyMaxExtents).map oneByte ++ [oneByte 1]) ++
        odds.map oneByte := by
      have hcount : wverifyMaxExtents - 1 = 4094 + 1 := rfl
      rw [crowdedCalls, hcount, hodds, map_append, map_cons, append_assoc,
        singleton_append]
    have hdeg : (wverifyRun zlibCrc32 zlibCrc32Combine true
        ((evenPlaces wverifyMaxExtents).map oneByte ++ [oneByte 1])).degraded = true := by
      rw [wverifyRun_concat]
      have hlen : ∀ c ∈ (evenPlaces wverifyMaxExtents).map oneByte, c.len < 2 ^ 32 := by
        intro c hc
        refine (hcalls c ?_).2.1
        rw [hsplit]
        exact mem_append_left _ (mem_append_left _ hc)
      obtain hholds | ⟨hdeg, -⟩ := wverifyRun_spec zlibCrc32Combine_law true hlen
      · refine wverifyUpdate_full hholds.cap ?_ Nat.one_ne_zero
        rw [hholds.live, liveExtents_even]
      · exact wverifyUpdate_degraded hdeg
    rw [hsplit]
    by_contra hsome
    obtain ⟨⟨crc, total⟩, hsome⟩ := Option.ne_none_iff_exists'.mp hsome
    have hintact := (wverifyExpected_eq_some.mp hsome).1
    rw [wverifyRun_degraded hdeg] at hintact
    cases hintact

end BrixCache
