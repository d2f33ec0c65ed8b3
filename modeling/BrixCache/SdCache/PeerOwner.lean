import BrixCache.Core.Fnv
import BrixCache.Lib.FirstMax
import Mathlib.Order.Nat

/-!
# The sibling mesh's owner of a key

`fs/backend/cache/sd_cache_fill.c`, `sd_cache_peer_owner`: every node of the mesh carries the
same member list and asks the member whose hash with the key is greatest, so that all nodes
agree on the owner without talking to each other. When a member comes or goes, only the keys it
owns change hands.
-/

namespace BrixCache

open List

/-- `brix_sd_cache_peer_t`: the ring member's label, up to its NUL. -/
structure SdCachePeer : Type where
  label : List UInt8
  deriving DecidableEq

/-- `sd_cache_hrw_fnv1a64`: the hash of the label, a line feed and the key. -/
def sdCacheHrwFnv1a64 (label key : List UInt8) : UInt64 :=
  let h := fnv1a64Bytes fnv1a64OffsetBasis label
  let h := (h ^^^ 10) * fnv1a64Prime
  fnv1a64Bytes h key

/-- The loop of `sd_cache_peer_owner` from member `i` on. -/
def sdCachePeerOwnerFrom (key : List UInt8) (i : ℕ) (owner : ℕ) (best : UInt64) :
    List SdCachePeer → ℕ
  | [] => owner
  | peer :: peers =>
    let w := sdCacheHrwFnv1a64 peer.label key
    if i = 0 ∨ best < w then sdCachePeerOwnerFrom key (i + 1) i w peers
    else sdCachePeerOwnerFrom key (i + 1) owner best peers

/-- The peer with the highest score for the key. -/
def sdCachePeerOwner (peers : List SdCachePeer) (key : List UInt8) : ℕ :=
  sdCachePeerOwnerFrom key 0 0 0 peers

/-- A member's weight for a key. -/
def hrwWeight (key : List UInt8) (peer : SdCachePeer) : ℕ :=
  (sdCacheHrwFnv1a64 peer.label key).toNat

variable {key : List UInt8}

theorem sdCachePeerOwnerFrom_firstMax {best : UInt64} {passed : List SdCachePeer}
    (rest : List SdCachePeer) {owner : ℕ} {p : SdCachePeer} (h : FirstMax (hrwWeight key) passed owner)
    (hp : passed[owner]? = some p) (hbest : best = sdCacheHrwFnv1a64 p.label key) :
    FirstMax (hrwWeight key) (passed ++ rest)
      (sdCachePeerOwnerFrom key passed.length owner best rest) := by
  induction rest generalizing passed owner p best with
  | nil => simpa [sdCachePeerOwnerFrom] using h
  | cons peer rest ih =>
    have hpos : passed.length ≠ 0 := Nat.ne_of_gt (Nat.zero_lt_of_lt h.lt)
    have hlen : (passed ++ [peer]).length = passed.length + 1 := by simp
    rw [append_cons, sdCachePeerOwnerFrom]
    simp only [hpos, false_or, ← hlen]
    split
    · rename_i hlt
      have hnew : FirstMax (hrwWeight key) (passed ++ [peer]) passed.length :=
        h.concat_of_lt hp (by rw [hbest] at hlt; exact UInt64.lt_iff_toNat_lt.mp hlt)
      exact ih hnew (by simp) rfl
    · rename_i hnlt
      have hold : FirstMax (hrwWeight key) (passed ++ [peer]) owner :=
        h.concat_of_le hp (by
          rw [hbest, UInt64.lt_iff_toNat_lt] at hnlt
          exact Nat.le_of_not_lt hnlt)
      refine ih hold ?_ hbest
      rw [getElem?_append_left h.lt, hp]

theorem sdCachePeerOwner_firstMax {peers : List SdCachePeer} (key : List UInt8)
    (hne : peers ≠ []) :
    FirstMax (hrwWeight key) peers (sdCachePeerOwner peers key) := by
  cases peers with
  | nil => exact absurd rfl hne
  | cons peer peers =>
    have hone : FirstMax (hrwWeight key) [peer] 0 := FirstMax.singleton peer
    have hrun := sdCachePeerOwnerFrom_firstMax peers hone rfl rfl
    simpa [sdCachePeerOwner, sdCachePeerOwnerFrom] using hrun

theorem sdCachePeerOwner_eraseIdx {peers : List SdCachePeer} (hne : peers ≠ []) {i : ℕ}
    (hi : i ≠ sdCachePeerOwner peers key) :
    sdCachePeerOwner (peers.eraseIdx i) key =
      FirstMax.without i (sdCachePeerOwner peers key) := by
  have hout := (sdCachePeerOwner_firstMax key hne).eraseIdx hi
  have hleft : peers.eraseIdx i ≠ [] :=
    ne_nil_of_length_pos (Nat.zero_lt_of_lt hout.lt)
  exact (sdCachePeerOwner_firstMax key hleft).unique hout

theorem sdCachePeerOwner_insertIdx {peers : List SdCachePeer} (hne : peers ≠ []) {i : ℕ}
    (hi : i ≤ peers.length) (peer : SdCachePeer) :
    sdCachePeerOwner (peers.insertIdx i peer) key = i ∨
      sdCachePeerOwner (peers.insertIdx i peer) key =
        FirstMax.within i (sdCachePeerOwner peers key) := by
  have hmore : peers.insertIdx i peer ≠ [] := by
    apply ne_nil_of_length_pos
    rw [length_insertIdx_of_le_length hi]
    exact Nat.succ_pos _
  exact (sdCachePeerOwner_firstMax key hne).insertIdx (sdCachePeerOwner_firstMax key hmore)

/-- **Ownership moves minimally.** The owner has the greatest weight, the lowest place among
those that share it; without any other member it stays the same member; with a member put in
anywhere it stays the same member or is the one put in. -/
theorem sdCachePeerOwner_moves_minimally (peers : List SdCachePeer) (key : List UInt8)
    (hne : peers ≠ []) :
    let owner := sdCachePeerOwner peers key
    ∃ p, peers[owner]? = some p ∧
      (∀ (j : ℕ) (q : SdCachePeer), peers[j]? = some q →
        sdCacheHrwFnv1a64 q.label key ≤ sdCacheHrwFnv1a64 p.label key ∧
          (j < owner → sdCacheHrwFnv1a64 q.label key < sdCacheHrwFnv1a64 p.label key)) ∧
      (∀ i < peers.length, i ≠ owner →
        let left := peers.eraseIdx i
        sdCachePeerOwner left key = (if i < owner then owner - 1 else owner) ∧
          left[sdCachePeerOwner left key]? = some p) ∧
      ∀ i ≤ peers.length, ∀ q : SdCachePeer,
        let more := peers.insertIdx i q
        sdCachePeerOwner more key = i ∨
          sdCachePeerOwner more key = (if i ≤ owner then owner + 1 else owner) ∧
            more[sdCachePeerOwner more key]? = some p := by
  intro owner
  have hmax : FirstMax (hrwWeight key) peers owner := sdCachePeerOwner_firstMax key hne
  obtain ⟨p, hp⟩ := hmax.exists_getElem?
  refine ⟨p, hp, ?_, ?_, ?_⟩
  · intro j q hq
    refine ⟨UInt64.le_iff_toNat_le.mpr (hmax.max hp hq), ?_⟩
    intro hj
    exact UInt64.lt_iff_toNat_lt.mpr (hmax.first hp hj hq)
  · intro i _ hi left
    have hsame := sdCachePeerOwner_eraseIdx hne hi
    exact ⟨hsame, by rw [hsame, FirstMax.getElem?_without hi, hp]⟩
  · intro i hi q more
    refine (sdCachePeerOwner_insertIdx hne hi q).imp id ?_
    intro hsame
    exact ⟨hsame, by rw [hsame, FirstMax.getElem?_within, hp]⟩

/-- Two members under one label tie for every key: the first owns it, and a member put in before
both takes it over or leaves it with the same one. -/
theorem sdCachePeerOwner_moves_minimally_tie :
    let peers : List SdCachePeer := [⟨[97]⟩, ⟨[97]⟩]
    sdCachePeerOwner peers [98] = 0 ∧ ∀ q : SdCachePeer,
      sdCachePeerOwner (peers.insertIdx 0 q) [98] = 0 ∨
        sdCachePeerOwner (peers.insertIdx 0 q) [98] = 1 := by
  obtain ⟨_, -, -, -, hmore⟩ := sdCachePeerOwner_moves_minimally [⟨[97]⟩, ⟨[97]⟩] [98] (by simp)
  have howner : sdCachePeerOwner [⟨[97]⟩, ⟨[97]⟩] [98] = 0 := by decide
  refine ⟨howner, fun q => (hmore 0 (Nat.zero_le _) q).imp id ?_⟩
  intro hq
  rw [hq.1, howner]
  rfl

end BrixCache
