import BrixCache.Cas.PackCalls
import BrixCache.Core.Ascii

/-!
# Opening the packed store

What `brix_cas_pack_open` makes of the files a store left behind, be they whole or
cut by a crash: the journal up to its last whole record, and the whole records of
the active segment. The index is what the journal's records amount to, of those
whose place is still there, and then the records after the high-water mark.
-/

namespace BrixCache

open Function List

variable {cfg : PackCfg}

/-! ## The segments found -/

theorem foldl_min_spec (l : List ℕ) (a : ℕ) :
    l.foldl min a ∈ a :: l ∧ ∀ n ∈ a :: l, l.foldl min a ≤ n := by
  induction l generalizing a with
  | nil => simp
  | cons b l ih =>
    obtain ⟨hmem, hle⟩ := ih (min a b)
    rw [foldl_cons]
    constructor
    · obtain h | h := mem_cons.mp hmem
      · rw [h]
        obtain h' | h' := Nat.le_total a b
        · simp [Nat.min_eq_left h']
        · simp [Nat.min_eq_right h']
      · simp [h]
    · intro n hn
      have hmin := hle (min a b) mem_cons_self
      obtain rfl | hn := mem_cons.mp hn
      · exact Nat.le_trans hmin (Nat.min_le_left _ _)
      · obtain rfl | hn := mem_cons.mp hn
        · exact Nat.le_trans hmin (Nat.min_le_right _ _)
        · exact hle n (mem_cons_of_mem _ hn)

theorem foldl_max_spec (l : List ℕ) (a : ℕ) :
    l.foldl max a ∈ a :: l ∧ ∀ n ∈ a :: l, n ≤ l.foldl max a := by
  induction l generalizing a with
  | nil => simp
  | cons b l ih =>
    obtain ⟨hmem, hle⟩ := ih (max a b)
    rw [foldl_cons]
    constructor
    · obtain h | h := mem_cons.mp hmem
      · rw [h]
        obtain h' | h' := Nat.le_total a b
        · simp [Nat.max_eq_right h']
        · simp [Nat.max_eq_left h']
      · simp [h]
    · intro n hn
      have hmax := hle (max a b) mem_cons_self
      obtain rfl | hn := mem_cons.mp hn
      · exact Nat.le_trans (Nat.le_max_left _ _) hmax
      · obtain rfl | hn := mem_cons.mp hn
        · exact Nat.le_trans (Nat.le_max_right _ _) hmax
        · exact hle n (mem_cons_of_mem _ hn)

theorem scanSegments_eq {names : List ℕ} {lo hi : ℕ} (hle : lo ≤ hi) (hhi : hi < 100000000)
    (hnames : ∀ n, n ∈ names ↔ lo ≤ n ∧ n ≤ hi) : scanSegments names = (lo, hi) := by
  have hvisible : names.filter segVisible = names := by
    rw [filter_eq_self]
    intro n hn
    exact decide_eq_true (Nat.lt_of_le_of_lt ((hnames n).mp hn).2 hhi)
  rw [scanSegments, hvisible]
  have hlo : lo ∈ names := (hnames lo).mpr ⟨Nat.le_refl _, hle⟩
  have hhi' : hi ∈ names := (hnames hi).mpr ⟨hle, Nat.le_refl _⟩
  cases names with
  | nil => cases hlo
  | cons n rest =>
    obtain ⟨hminmem, hminle⟩ := foldl_min_spec rest n
    obtain ⟨hmaxmem, hmaxle⟩ := foldl_max_spec rest n
    have hmin := Nat.le_antisymm (hminle lo hlo) ((hnames _).mp hminmem).1
    have hmax := Nat.le_antisymm ((hnames _).mp hmaxmem).2 (hmaxle hi hhi')
    simp only [hmin, hmax]

/-! ## The journal replayed -/

namespace Replay

variable {segLo segHi : ℕ} {segSize : ℕ → ℕ}

theorem put_tab (s : Replay) (key : Bytes) (loc : PackLoc) (key' : Bytes) :
    ((s.put key loc).tab.lookup key').map Prod.fst =
      update (fun key => (s.tab.lookup key).map Prod.fst) key (some loc) key' := by
  have hinsert : ∀ hits, ((s.tab.insert key (loc, hits)).lookup key').map Prod.fst =
      update (fun key => (s.tab.lookup key).map Prod.fst) key (some loc) key' := by
    intro hits
    by_cases hkey : key' = key
    · subst hkey
      rw [AList.lookup_insert, update_self]
      rfl
    · rw [AList.lookup_insert_ne hkey, update_of_ne hkey]
  rw [put]
  split
  · exact hinsert 0
  · exact hinsert _

theorem put_highWater (s : Replay) (key : Bytes) (loc : PackLoc) :
    (s.put key loc).highWater = s.highWater := by
  rw [put]
  split <;> rfl

theorem delete_tab (s : Replay) (key key' : Bytes) :
    ((s.delete key).tab.lookup key').map Prod.fst =
      update (fun key => (s.tab.lookup key).map Prod.fst) key none key' := by
  rw [delete]
  by_cases hkey : key' = key
  · subst hkey
    rw [update_self]
    split
    · rename_i hnone
      rw [hnone]
      rfl
    · rw [AList.lookup_erase]
      rfl
  · rw [update_of_ne hkey]
    split
    · rfl
    · rw [AList.lookup_erase_ne hkey]

theorem delete_highWater (s : Replay) (key : Bytes) :
    (s.delete key).highWater = s.highWater := by
  rw [delete]
  split <;> rfl

theorem advance_tab (s : Replay) (r : IdxRec) : (s.advance segHi r).tab = s.tab := by
  rw [advance]
  split <;> rfl

/-- The places a table holds. -/
def places (s : Replay) (key : Bytes) : Option PackLoc := (s.tab.lookup key).map Prod.fst

theorem dispatch_places (s : Replay) (r : IdxRec) (hok : applies segLo segHi segSize r = true) :
    (s.dispatch r).places = replayStep (applies segLo segHi segSize) s.places r := by
  funext key
  rw [dispatch, replayStep, if_pos hok]
  split
  · exact put_tab s r.key r.loc key
  · split
    · exact delete_tab s r.key key
    · rfl

theorem apply_places (s : Replay) (r : IdxRec) :
    (apply s segLo segHi segSize r).places =
      replayStep (applies segLo segHi segSize) s.places r := by
  rw [apply]
  split
  · rename_i hok
    rw [dispatch_places _ r hok]
    exact congrArg (fun m => replayStep _ m r) (funext fun key => by rw [places, advance_tab, places])
  · rename_i hok
    exact (replayStep_skip (Bool.eq_false_iff.mpr hok)).symm

theorem dispatch_highWater (s : Replay) (r : IdxRec) :
    (s.dispatch r).highWater = s.highWater := by
  rw [dispatch]
  split
  · exact put_highWater s r.key r.loc
  · split
    · exact delete_highWater s r.key
    · rfl

theorem advance_highWater (s : Replay) (r : IdxRec) :
    (s.advance segHi r).highWater =
      if r.loc.seg = segHi then max s.highWater r.fin else s.highWater := by
  rw [advance]
  by_cases hseg : r.loc.seg = segHi
  · by_cases hlt : s.highWater < r.fin
    · rw [if_pos ⟨hseg, hlt⟩, if_pos hseg, Nat.max_eq_right (Nat.le_of_lt hlt)]
    · rw [if_neg fun h => hlt h.2, if_pos hseg, Nat.max_eq_left (Nat.le_of_not_lt hlt)]
  · rw [if_neg fun h => hseg h.1, if_neg hseg]

theorem ofJournal_places (journal : List IdxRec) :
    (ofJournal segLo segHi segSize journal).places =
      replayed (applies segLo segHi segSize) journal := by
  induction journal using reverseRecOn with
  | nil => rfl
  | append_singleton journal r ih =>
    rw [ofJournal, foldl_append, foldl_cons, foldl_nil, apply_places,
      replayed_concat, ← ofJournal, ih]

variable (segLo segHi segSize) in
/-- The high-water mark is the end of the last record of the active segment that applies. -/
theorem ofJournal_highWater (journal : List IdxRec) :
    ((ofJournal segLo segHi segSize journal).highWater = 0 ∨
      ∃ r ∈ journal, applies segLo segHi segSize r = true ∧ r.loc.seg = segHi ∧
        r.fin = (ofJournal segLo segHi segSize journal).highWater) ∧
    ∀ r ∈ journal, applies segLo segHi segSize r = true → r.loc.seg = segHi →
      r.fin ≤ (ofJournal segLo segHi segSize journal).highWater := by
  induction journal using reverseRecOn with
  | nil => exact ⟨.inl rfl, fun r hr => nomatch hr⟩
  | append_singleton journal r ih =>
    obtain ⟨hfrom, hall⟩ := ih
    have hstep : ofJournal segLo segHi segSize (journal ++ [r]) =
        apply (ofJournal segLo segHi segSize journal) segLo segHi segSize r := by
      rw [ofJournal, foldl_append]
      rfl
    rw [hstep]
    have hmem : r ∈ journal ++ [r] := mem_append_right _ mem_cons_self
    by_cases htaken : applies segLo segHi segSize r = true ∧ r.loc.seg = segHi
    · rw [apply, if_pos htaken.1, dispatch_highWater, advance_highWater, if_pos htaken.2]
      constructor
      · obtain hle | hle := Nat.le_total (ofJournal segLo segHi segSize journal).highWater r.fin
        · rw [Nat.max_eq_right hle]
          exact .inr ⟨r, hmem, htaken.1, htaken.2, rfl⟩
        · rw [Nat.max_eq_left hle]
          exact hfrom.imp_right fun ⟨r', hr', h⟩ => ⟨r', mem_append_left _ hr', h⟩
      · intro r' hr' hok hseg
        obtain hold | hnew := mem_append.mp hr'
        · exact Nat.le_trans (hall r' hold hok hseg) (Nat.le_max_left _ _)
        · rw [mem_singleton] at hnew
          rw [hnew]
          exact Nat.le_max_right _ _
    · -- a record not taken, or of another segment
      have hsame : (apply (ofJournal segLo segHi segSize journal) segLo segHi segSize r).highWater =
          (ofJournal segLo segHi segSize journal).highWater := by
        rw [apply]
        split
        · rename_i hok
          rw [dispatch_highWater, advance_highWater, if_neg fun h => htaken ⟨hok, h⟩]
        · rfl
      rw [hsame]
      refine ⟨hfrom.imp_right fun ⟨r', hr', h⟩ => ⟨r', mem_append_left _ hr', h⟩, ?_⟩
      intro r' hr' hok hseg
      obtain hold | hnew := mem_append.mp hr'
      · exact hall r' hold hok hseg
      · rw [mem_singleton] at hnew
        rw [hnew] at hok hseg
        exact absurd ⟨hok, hseg⟩ htaken

end Replay

/-! ## The tail adopted -/

theorem replayed_append_puts {ok : IdxRec → Bool} (journal : List IdxRec) {puts : List IdxRec}
    (hputs : ∀ r ∈ puts, r.op = opPut ∧ ok r = true) (key : Bytes) :
    (∃ r ∈ puts, r.key = key ∧ replayed ok (journal ++ puts) key = some r.loc) ∨
      ((∀ r ∈ puts, r.key ≠ key) ∧ replayed ok (journal ++ puts) key = replayed ok journal key) := by
  induction puts using reverseRecOn with
  | nil =>
    refine .inr ⟨?_, by rw [append_nil]⟩
    intro r hr
    cases hr
  | append_singleton puts r ih =>
    obtain ⟨hop, hok⟩ := hputs r (mem_append_right _ mem_cons_self)
    rw [← append_assoc, replayed_concat]
    by_cases hkey : key = r.key
    · refine .inl ⟨r, mem_append_right _ mem_cons_self, hkey.symm, ?_⟩
      rw [replayStep, if_pos hok, if_pos hop, hkey, update_self]
    · rw [replayStep_ne hkey]
      obtain ⟨r', hr', h⟩ | ⟨hnone, h⟩ :=
        ih fun r' hr' => hputs r' (mem_append_left _ hr')
      · exact .inl ⟨r', mem_append_left _ hr', h⟩
      · refine .inr ⟨?_, h⟩
        intro r' hr'
        obtain hold | hnew := mem_append.mp hr'
        · exact hnone r' hold
        · rw [mem_singleton] at hnew
          rw [hnew]
          exact fun h => hkey h.symm

theorem mem_adopted {seg : ℕ} {front tail : List SegRec} {j : IdxRec}
    (h : j ∈ PackDisk.adopted cfg seg ((segFraming cfg.crc).encodeAll front).length tail) :
    ∃ r off, (segFraming cfg.crc).At (front ++ tail) off r ∧
      ((segFraming cfg.crc).encodeAll front).length ≤ off ∧ j = ⟨opPut, r.key, r.loc seg off⟩ := by
  induction tail generalizing front with
  | nil => cases h
  | cons r tail ih =>
    rw [PackDisk.adopted] at h
    obtain rfl | h := mem_cons.mp h
    · exact ⟨r, _, ⟨front, tail, rfl, rfl⟩, Nat.le_refl _, rfl⟩
    · have hlen : ((segFraming cfg.crc).encodeAll front).length + (r.encode cfg.crc).length =
          ((segFraming cfg.crc).encodeAll (front ++ [r])).length := by
        rw [Framing.encodeAll_append, length_append, Framing.encodeAll_cons,
          Framing.encodeAll_nil, append_nil]
        rfl
      rw [hlen] at h
      obtain ⟨r', off, hat, hle, hj⟩ := ih h
      rw [append_assoc] at hat
      exact ⟨r', off, hat, by omega, hj⟩

variable (cfg) in
theorem adopted_concat (seg off : ℕ) (tail : List SegRec) (r : SegRec) :
    PackDisk.adopted cfg seg off (tail ++ [r]) =
      PackDisk.adopted cfg seg off tail ++
        [⟨opPut, r.key, r.loc seg (off + ((segFraming cfg.crc).encodeAll tail).length)⟩] := by
  induction tail generalizing off with
  | nil => rfl
  | cons r' tail ih =>
    rw [cons_append, PackDisk.adopted, ih, PackDisk.adopted, cons_append,
      Framing.encodeAll_cons, length_append, Nat.add_assoc]
    rfl

/-! ## Opening -/

/-- What a store of the records `s` left behind: a front of the journal, and a
front of the active segment, each with bytes after it that are no record. -/
structure PackDisk.Left (cfg : PackCfg) (d : PackDisk) (s : RecStore) (front : List IdxRec)
    (torn : Bytes) (rs : List SegRec) (tornSeg : Bytes) : Prop where
  idx : d.idx = (idxFraming cfg.crc).encodeAll front ++ torn
  idx_torn : (idxFraming cfg.crc).decode torn = none
  front : ∀ r ∈ front, r ∈ s.journal
  segs : ∀ n, s.lo ≤ n → n < s.hi →
    d.segs.lookup n = some ((segFraming cfg.crc).encodeAll (s.segs n))
  active : d.segs.lookup s.hi = some ((segFraming cfg.crc).encodeAll rs ++ tornSeg)
  seg_torn : (segFraming cfg.crc).decode tornSeg = none
  rs : ∃ back, s.segs s.hi = rs ++ back ∧
    ∀ r back', back = r :: back' → tornSeg.length < (r.encode cfg.crc).length
  gone : ∀ n, n < s.lo ∨ s.hi < n → d.segs.lookup n = none

namespace PackDisk.Left

variable {hist : Bytes → Bytes → Prop} {d : PackDisk} {s : RecStore}
  {front : List IdxRec} {torn : Bytes} {rs : List SegRec} {tornSeg : Bytes}

section

variable (hleft : d.Left cfg s front torn rs tornSeg)
include hleft

theorem scan (hinv : s.Inv cfg hist) :
    scanSegments d.segs.keys = (s.lo, s.hi) := by
  refine scanSegments_eq hinv.lo_le hinv.hi_lt fun n => ?_
  rw [← AList.mem_keys, ← AList.lookup_isSome]
  constructor
  · intro h
    by_contra hout
    have hgone : n < s.lo ∨ s.hi < n := by omega
    rw [hleft.gone n hgone] at h
    cases h
  · rintro ⟨hlo, hhi⟩
    obtain hlt | rfl := Nat.lt_or_eq_of_le hhi
    · rw [hleft.segs n hlo hlt]
      rfl
    · rw [hleft.active]
      rfl

theorem rs_fits (hinv : s.Inv cfg hist) {r : SegRec}
    (hr : r ∈ rs) : r.Fits := by
  obtain ⟨back, hback, -⟩ := hleft.rs
  exact hinv.fits (hback ▸ mem_append_left back hr)

theorem placed (hinv : s.Inv cfg hist) {j : IdxRec}
    (hj : j ∈ front)
    (hok : Replay.applies s.lo s.hi (fun seg => (d.segBytes seg).length) j = true) :
    s.lo ≤ j.loc.seg ∧ j.loc.seg ≤ s.hi ∧ ∃ r, s.Stands cfg j.key j.loc r ∧
      (j.loc.seg = s.hi → (segFraming cfg.crc).At rs j.loc.off r ∧
        j.fin = j.loc.off + (r.encode cfg.crc).length ∧
        j.fin ≤ ((segFraming cfg.crc).encodeAll rs).length) := by
  obtain ⟨r, hr⟩ := hinv.placed j (hleft.front j hj)
  have hfin : j.fin = j.loc.off + (r.encode cfg.crc).length := by
    rw [IdxRec.fin, SegRec.encode_length, hr.key,
      show j.loc.stored = r.data.length from congrArg PackLoc.stored hr.loc.symm]
    omega
  simp only [Replay.applies, Bool.not_eq_true', Bool.or_eq_false_iff, decide_eq_false_iff_not] at hok
  obtain ⟨⟨hlo, hhi⟩, hend⟩ := hok
  refine ⟨Nat.le_of_not_lt hlo, Nat.le_of_not_lt hhi, r, hr, fun hseg => ?_⟩
  obtain ⟨back, hback, hshort⟩ := hleft.rs
  have hat := hr.at_off
  rw [hseg] at hat
  have hle : j.loc.off + ((segFraming cfg.crc).encode r).length ≤
      ((segFraming cfg.crc).encodeAll rs ++ tornSeg).length := by
    rw [hseg, PackDisk.segBytes, hleft.active, hfin] at hend
    exact Nat.le_of_not_lt hend
  obtain ⟨hat', hle'⟩ := hat.of_cut hback hshort hle
  exact ⟨hat', hfin, hfin.symm ▸ hle'⟩

theorem front_fits (hinv : s.Inv cfg hist) {j : IdxRec}
    (hj : j ∈ front) : j.Fits := by
  obtain ⟨r, hr⟩ := hinv.placed j (hleft.front j hj)
  exact CasPack.Rep.idxFits hinv j.op hr

theorem replay_eq (hinv : s.Inv cfg hist) :
    d.replay cfg s.lo s.hi =
      (.ofJournal s.lo s.hi (fun seg => (d.segBytes seg).length) front,
        (idxFraming cfg.crc).encodeAll front) := by
  have hscan : (idxFraming cfg.crc).scan d.idx = (front, torn) := by
    rw [hleft.idx]
    exact Framing.scan_encodeAll (fun j hj => hleft.front_fits hinv hj) hleft.idx_torn
  have htake : d.idx.take (d.idx.length - torn.length) = (idxFraming cfg.crc).encodeAll front := by
    rw [hleft.idx, length_append, Nat.add_sub_cancel, take_left]
  rw [PackDisk.replay, hscan]
  simp only [htake]

theorem highWater_split (hinv : s.Inv cfg hist) :
    ∃ pre post, rs = pre ++ post ∧
      (Replay.ofJournal s.lo s.hi (fun seg => (d.segBytes seg).length) front).highWater =
        ((segFraming cfg.crc).encodeAll pre).length := by
  obtain ⟨hfrom, -⟩ := Replay.ofJournal_highWater s.lo s.hi
    (fun seg => (d.segBytes seg).length) front
  obtain hzero | ⟨j, hj, hok, hseg, hfin⟩ := hfrom
  · exact ⟨[], rs, rfl, hzero⟩
  · obtain ⟨-, -, r, -, hlast⟩ := hleft.placed hinv hj hok
    obtain ⟨⟨pre, post, hrs, hoff⟩, hend, -⟩ := hlast hseg
    refine ⟨pre ++ [r], post, by rw [hrs, append_assoc]; rfl, ?_⟩
    rw [← hfin, hend, ← hoff, Framing.encodeAll_append, length_append, Framing.encodeAll_cons,
      Framing.encodeAll_nil, append_nil]
    rfl

end

theorem foldl_put_places {ok : IdxRec → Bool} {records : List IdxRec}
    (hputs : ∀ r ∈ records, r.op = opPut ∧ ok r = true) (index : Replay) :
    (records.foldl (fun (s : Replay) r => s.put r.key r.loc) index).places =
      records.foldl (replayStep ok) index.places := by
  induction records generalizing index with
  | nil => rfl
  | cons r records ih =>
    obtain ⟨hop, hok⟩ := hputs r mem_cons_self
    rw [foldl_cons, foldl_cons, ih (fun r' hr' => hputs r' (mem_cons_of_mem _ hr')),
      replayStep, if_pos hok, if_pos hop]
    exact congrArg (records.foldl (replayStep ok)) (funext (index.put_tab r.key r.loc))

/-- **An open**: the live map is the journal's, with what is adopted behind the mark. -/
theorem opened (hleft : d.Left cfg s front torn rs tornSeg) (hinv : s.Inv cfg hist)
    {pre post : List SegRec} (hrs : rs = pre ++ post)
    (hhwm : (Replay.ofJournal s.lo s.hi (fun seg => (d.segBytes seg).length) front).highWater =
      ((segFraming cfg.crc).encodeAll pre).length) :
    (∀ j ∈ PackDisk.adopted cfg s.hi ((segFraming cfg.crc).encodeAll pre).length post,
      j.op = opPut ∧ Replay.applies s.lo s.hi (fun seg => (d.segBytes seg).length) j = true) ∧
    (d.openPack cfg).Rep cfg
      { segs := update s.segs s.hi rs
        journal := front ++ PackDisk.adopted cfg s.hi
          ((segFraming cfg.crc).encodeAll pre).length post
        tab := replayed (Replay.applies s.lo s.hi fun seg => (d.segBytes seg).length)
          (front ++ PackDisk.adopted cfg s.hi ((segFraming cfg.crc).encodeAll pre).length post)
        lo := s.lo
        hi := s.hi } [] := by
  have hactive : d.segBytes s.hi = (segFraming cfg.crc).encodeAll rs ++ tornSeg := by
    rw [PackDisk.segBytes, hleft.active]
    rfl
  have hputs : ∀ j ∈ PackDisk.adopted cfg s.hi ((segFraming cfg.crc).encodeAll pre).length post,
      j.op = opPut ∧ Replay.applies s.lo s.hi (fun seg => (d.segBytes seg).length) j = true := by
    intro j hj
    obtain ⟨r, off, hat, -, rfl⟩ := mem_adopted hj
    rw [← hrs] at hat
    have hend : off + (r.encode cfg.crc).length ≤ ((segFraming cfg.crc).encodeAll rs).length :=
      hat.end_le
    rw [SegRec.encode_length] at hend
    have hlo := hinv.lo_le
    have hfin : off + (segHdr + r.key.length) + r.data.length ≤ (d.segBytes s.hi).length := by
      rw [hactive, length_append]
      omega
    refine ⟨rfl, ?_⟩
    simp only [Replay.applies, SegRec.loc, IdxRec.fin, Bool.not_eq_true', Bool.or_eq_false_iff]
    exact ⟨⟨decide_eq_false (Nat.not_lt_of_le hlo), decide_eq_false (Nat.lt_irrefl _)⟩,
      decide_eq_false (Nat.not_lt_of_le hfin)⟩
  refine ⟨hputs, ?_⟩
  have hdrop : (d.segBytes s.hi).drop ((segFraming cfg.crc).encodeAll pre).length =
      (segFraming cfg.crc).encodeAll post ++ tornSeg := by
    rw [hactive, hrs, Framing.encodeAll_append, append_assoc, drop_left]
  have hscan : (segFraming cfg.crc).scan ((segFraming cfg.crc).encodeAll post ++ tornSeg) =
      (post, tornSeg) :=
    Framing.scan_encodeAll (fun r hr => hleft.rs_fits hinv (hrs ▸ mem_append_right pre hr))
      hleft.seg_torn
  have hoff : ((segFraming cfg.crc).encodeAll pre).length +
      (((segFraming cfg.crc).encodeAll post ++ tornSeg).length - tornSeg.length) =
        ((segFraming cfg.crc).encodeAll rs).length := by
    rw [hrs, Framing.encodeAll_append, length_append, length_append, Nat.add_sub_cancel]
  have htake : (d.segBytes s.hi).take ((segFraming cfg.crc).encodeAll rs).length =
      (segFraming cfg.crc).encodeAll rs := by
    rw [hactive, take_left]
  have hplaces := (foldl_put_places hputs
    (Replay.ofJournal s.lo s.hi (fun seg => (d.segBytes seg).length) front))
  rw [Replay.ofJournal_places, replayed, ← foldl_append, ← replayed] at hplaces
  refine ⟨?_, Framing.Torn.nil, ?_, ?_, ?_, ?_, ?_, ?_⟩
  · simp only [PackDisk.openPack, hleft.scan hinv, hleft.replay_eq hinv, hhwm, hdrop, hscan,
      Framing.encodeAll_append, append_nil]
  · intro n hlo hhi
    simp only [PackDisk.openPack, hleft.scan hinv, hleft.replay_eq hinv, hhwm, hdrop, hscan, hoff,
      htake]
    by_cases hn : n = s.hi
    · subst hn
      rw [AList.lookup_insert, update_self]
    · rw [AList.lookup_insert_ne hn, update_of_ne hn]
      exact hleft.segs n hlo (Nat.lt_of_le_of_ne hhi hn)
  · intro n hn
    have hlo := hinv.lo_le
    have hne : n ≠ s.hi := by
      rintro rfl
      obtain h | h := hn
      · exact Nat.not_lt_of_le hlo h
      · exact Nat.lt_irrefl _ h
    simp only [PackDisk.openPack, hleft.scan hinv]
    rw [AList.lookup_insert_ne hne]
    exact hleft.gone n hn
  · intro key
    simp only [PackDisk.openPack, hleft.scan hinv, hleft.replay_eq hinv, hhwm, hdrop, hscan]
    exact congrFun hplaces key
  · simp only [PackDisk.openPack, hleft.scan hinv]
  · simp only [PackDisk.openPack, hleft.scan hinv]
  · simp only [PackDisk.openPack, hleft.scan hinv, hleft.replay_eq hinv, hhwm, hdrop, hscan, hoff,
      RecStore.off, update_self]

end PackDisk.Left

end BrixCache
