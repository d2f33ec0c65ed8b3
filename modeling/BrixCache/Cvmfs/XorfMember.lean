import BrixCache.Cvmfs.Xorf

/-!
# No key is lost

The fingerprints are assigned in the reverse of the order the keys were peeled in, so no assignment
breaks the equation of a key assigned before. What is serialized is read back as it was.
-/

namespace BrixCache

open Function List

/-! ## Assigning -/

variable {fp : ℕ → UInt8} {cells : UInt64 → List ℕ} {kfp : UInt64 → UInt8} {keys : List UInt64}

theorem xorCells_cons (fp : ℕ → UInt8) (c : ℕ) (cs : List ℕ) :
    xorCells fp (c :: cs) = fp c ^^^ xorCells fp cs := rfl

theorem xorCells_update_of_not_mem {c : ℕ} {v : UInt8} {cs : List ℕ} (hc : c ∉ cs) :
    xorCells (update fp c v) cs = xorCells fp cs := by
  induction cs with
  | nil => rfl
  | cons d cs ih =>
    obtain ⟨hne, hnot⟩ := not_or.mp (mem_cons.not.mp hc)
    rw [xorCells_cons, xorCells_cons, ih hnot, update_of_ne (Ne.symm hne)]

theorem xorCells_update {c : ℕ} (v : UInt8) {cs : List ℕ} (hcs : cs.Nodup) (hc : c ∈ cs) :
    xorCells (update fp c v) cs = v ^^^ fp c ^^^ xorCells fp cs := by
  induction cs with
  | nil => cases hc
  | cons d cs ih =>
    obtain ⟨hd, hnodup⟩ := nodup_cons.mp hcs
    rw [xorCells_cons, xorCells_cons]
    obtain rfl | hmem := mem_cons.mp hc
    · rw [xorCells_update_of_not_mem hd, update_self, UInt8.xor_assoc,
        ← UInt8.xor_assoc (fp c), UInt8.xor_self, UInt8.zero_xor]
    · have hne : d ≠ c := fun heq => hd (heq ▸ hmem)
      rw [ih hnodup hmem, update_of_ne hne, ← UInt8.xor_assoc, UInt8.xor_comm (fp d),
        UInt8.xor_assoc]

theorem xorCells_placeKey {a : ℕ × UInt64} (hnodup : (cells a.2).Nodup) (ha : a.1 ∈ cells a.2) :
    xorCells (placeKey cells kfp fp a) (cells a.2) = kfp a.2 := by
  have hcancel : ∀ k x y : UInt8, k ^^^ x ^^^ y ^^^ y ^^^ x = k := fun k x y => by
    rw [UInt8.xor_assoc (k ^^^ x), UInt8.xor_self, UInt8.xor_zero, UInt8.xor_assoc,
      UInt8.xor_self, UInt8.xor_zero]
  rw [placeKey, xorCells_update _ hnodup ha, hcancel]

theorem xorCells_foldl_placeKey {stack : List (ℕ × UInt64)} {cs : List ℕ}
    (h : ∀ a ∈ stack, a.1 ∉ cs) :
    xorCells (stack.foldl (placeKey cells kfp) fp) cs = xorCells fp cs := by
  induction stack generalizing fp with
  | nil => rfl
  | cons a stack ih =>
    rw [foldl_cons, ih fun b hb => h b (mem_cons_of_mem a hb), placeKey,
      xorCells_update_of_not_mem (h a mem_cons_self)]

theorem foldl_placeKey_solves (hcells : ∀ key, (cells key).Nodup) {stack : List (ℕ × UInt64)}
    (hin : ∀ a ∈ stack, a.1 ∈ cells a.2) (horder : stack.Pairwise fun a b => b.1 ∉ cells a.2)
    {a : ℕ × UInt64} (ha : a ∈ stack) :
    xorCells (stack.foldl (placeKey cells kfp) fp) (cells a.2) = kfp a.2 := by
  induction stack generalizing fp with
  | nil => cases ha
  | cons b stack ih =>
    obtain ⟨hlater, hrest⟩ := pairwise_cons.mp horder
    rw [foldl_cons]
    obtain rfl | hmem := mem_cons.mp ha
    · rw [xorCells_foldl_placeKey hlater]
      exact xorCells_placeKey (hcells a.2) (hin a mem_cons_self)
    · exact ih (fun c hc => hin c (mem_cons_of_mem b hc)) hrest hmem

/-! ## The cells of a key -/

theorem reduce32_lt (x : UInt32) {n : UInt32} (hn : 0 < n.toNat) :
    (reduce32 x n).toNat < n.toNat := by
  have hx := x.toNat_lt
  have hn' := n.toNat_lt
  have hprod : x.toNat * n.toNat < 2 ^ 32 * n.toNat := Nat.mul_lt_mul_of_pos_right hx hn
  have hfit : x.toNat * n.toNat < 2 ^ 64 := by omega
  have hdiv : x.toNat * n.toNat / 2 ^ 32 < n.toNat := Nat.div_lt_of_lt_mul hprod
  rw [reduce32]
  simp [Nat.shiftRight_eq_div_pow]
  omega

/-- The three cells of a key are apart and in range. -/
theorem keyCells_spec {blockLen : UInt32} (hpos : 0 < blockLen.toNat)
    (hfit : 3 * blockLen.toNat < 2 ^ 32) (seed key : UInt64) :
    ((keyCells seed blockLen key).Nodup ∧
      ∀ c ∈ keyCells seed blockLen key, c < (3 * blockLen).toNat) ∧
    (keyCells seed blockLen key).length = 3 := by
  have h0 := reduce32_lt (mix64 (key ^^^ seed)).toUInt32 hpos
  have h1 := reduce32_lt (rotl64 (mix64 (key ^^^ seed)) 21).toUInt32 hpos
  have h2 := reduce32_lt (rotl64 (mix64 (key ^^^ seed)) 42).toUInt32 hpos
  have htotal : (3 * blockLen).toNat = 3 * blockLen.toNat := by
    rw [UInt32.toNat_mul]
    exact Nat.mod_eq_of_lt hfit
  have hsecond : (blockLen + reduce32 (rotl64 (mix64 (key ^^^ seed)) 21).toUInt32 blockLen).toNat =
      blockLen.toNat + (reduce32 (rotl64 (mix64 (key ^^^ seed)) 21).toUInt32 blockLen).toNat := by
    rw [UInt32.toNat_add]
    exact Nat.mod_eq_of_lt (by omega)
  have htwo : (2 * blockLen).toNat = 2 * blockLen.toNat := by
    rw [UInt32.toNat_mul]
    exact Nat.mod_eq_of_lt (by simp; omega)
  have hthird :
      (2 * blockLen + reduce32 (rotl64 (mix64 (key ^^^ seed)) 42).toUInt32 blockLen).toNat =
      2 * blockLen.toNat + (reduce32 (rotl64 (mix64 (key ^^^ seed)) 42).toUInt32 blockLen).toNat := by
    rw [UInt32.toNat_add, htwo]
    exact Nat.mod_eq_of_lt (by omega)
  rw [keyCells, htotal]
  simp only [hsecond, hthird]
  refine ⟨⟨?_, ?_⟩, rfl⟩
  · simp
    omega
  · simp
    omega

/-! ## Building -/

theorem xorfBlockLen_toNat {n : ℕ} (hn : n ≤ cvmfsXorfMaxKeys) :
    (xorfBlockLen n).toNat = (32 + n + n / 4 + n / 50 + 2) / 3 := by
  rw [cvmfsXorfMaxKeys] at hn
  rw [xorfBlockLen, UInt32.toNat_ofNat_of_lt']
  show _ < 4294967296
  omega

theorem dedupKeys_spec (keys : List UInt64) :
    (dedupKeys keys).Nodup ∧ (dedupKeys keys).length ≤ keys.length ∧
      ∀ key ∈ keys, key ∈ dedupKeys keys := by
  rw [dedupKeys]
  split
  · next hshort =>
    refine ⟨?_, Nat.le_refl _, fun key hkey => hkey⟩
    obtain _ | ⟨key, _ | ⟨key', rest⟩⟩ := keys
    · exact nodup_nil
    · exact nodup_singleton key
    · simp only [length_cons] at hshort
      omega
  · have hsorted : (keys.mergeSort fun x y => decide (x ≤ y)).Pairwise (· ≤ ·) := by
      refine (pairwise_mergeSort ?_ ?_ keys).imp fun h => by simpa using h
      · intro a b c hab hbc
        simp only [decide_eq_true_eq] at hab hbc ⊢
        exact UInt64.le_trans hab hbc
      · intro a b
        simpa using UInt64.le_total a b
    have : Std.Antisymm (fun x y : UInt64 => x ≤ y) := ⟨fun _ _ => UInt64.le_antisymm⟩
    rw [hsorted.destutter_eq_dedup]
    refine ⟨nodup_dedup _, ?_, fun key hkey => ?_⟩
    · exact (dedup_sublist _).length_le.trans (Nat.le_of_eq (length_mergeSort keys))
    · exact mem_dedup.mpr (mem_mergeSort.mpr hkey)

theorem xorfAttempts_spec {blockLen : UInt32} (hpos : 0 < blockLen.toNat)
    (hfit : 3 * blockLen.toNat < 2 ^ 32) (hnodup : keys.Nodup) (hlen : keys.length < 2 ^ 32)
    (attempts : List ℕ) :
    ∃ found, xorfAttempts keys blockLen (3 * blockLen).toNat attempts = .ok found ∧
      ∀ seed stack, found = some (seed, stack) →
        (∀ a ∈ stack, a.1 ∈ keyCells seed blockLen a.2) ∧
        stack.Pairwise (fun a b => b.1 ∉ keyCells seed blockLen a.2) ∧
        ∀ key ∈ keys, ∃ a ∈ stack, a.2 = key := by
  induction attempts with
  | nil => exact ⟨none, rfl, fun seed stack h => by cases h⟩
  | cons attempt attempts ih =>
    have hcells := keyCells_spec hpos hfit (xorfSeed attempt)
    obtain ⟨stack, hrun, -, hin, horder, hall⟩ := peelAttempt_spec (fun key => (hcells key).1)
      (fun key => (hcells key).2) hnodup hlen
    rw [xorfAttempts]
    simp only [hrun]
    by_cases hplaced : stack.length = keys.length
    · refine ⟨some (xorfSeed attempt, stack), by simp [hplaced, bind, Except.bind, pure,
        Except.pure], fun seed stack' h => ?_⟩
      obtain ⟨rfl, rfl⟩ := Prod.mk.inj (Option.some.inj h)
      exact ⟨hin, horder, hall hplaced⟩
    · obtain ⟨found, hfound, hspec⟩ := ih
      exact ⟨found, by simpa [hplaced, bind, Except.bind] using hfound, hspec⟩

theorem xorCells_getD {total : ℕ} {cs : List ℕ} (hcs : ∀ c ∈ cs, c < total) (fp : ℕ → UInt8) :
    xorCells (fun c => ((range total).map fp).getD c 0) cs = xorCells fp cs := by
  induction cs with
  | nil => rfl
  | cons c cs ih =>
    have hc := hcs c mem_cons_self
    rw [xorCells_cons, xorCells_cons, ih fun d hd => hcs d (mem_cons_of_mem c hd)]
    simp [getD_eq_getElem?_getD, hc]

/-- **The build** ends, and what it gives answers for each key. -/
theorem cvmfsXorfBuild_spec (keys : List UInt64) :
    ∃ built, cvmfsXorfBuild keys = .ok built ∧ ∀ f, built = some f →
      f.blockLen ≠ 0 ∧ f.blockLen.toNat ≤ cvmfsXorfMaxKeys ∧ f.nkeys.toNat ≤ cvmfsXorfMaxKeys ∧
      (∃ fp, f.fp = some fp ∧ fp.length = 3 * f.blockLen.toNat) ∧
      ∀ key ∈ keys, cvmfsXorfQuery f key = true := by
  rw [cvmfsXorfBuild]
  by_cases hmany : cvmfsXorfMaxKeys < keys.length
  · exact ⟨none, if_pos hmany, fun f h => by cases h⟩
  · rw [if_neg hmany]
    obtain ⟨hnodup, hle, hmem⟩ := dedupKeys_spec keys
    generalize dedupKeys keys = ks at hnodup hle hmem
    have hks : ks.length ≤ cvmfsXorfMaxKeys := hle.trans (Nat.not_lt.mp hmany)
    have hlen := xorfBlockLen_toNat hks
    have hbound : ks.length ≤ 64 * 1024 * 1024 := hks
    have hpos : 0 < (xorfBlockLen ks.length).toNat := by omega
    have hfit : 3 * (xorfBlockLen ks.length).toNat < 2 ^ 32 := by omega
    obtain ⟨found, hfound, hspec⟩ :=
      xorfAttempts_spec hpos hfit hnodup (by omega) (range 64)
    simp only [hfound]
    refine ⟨_, rfl, fun f hf => ?_⟩
    obtain ⟨⟨seed, stack⟩, hsome, rfl⟩ := Option.map_eq_some_iff.mp hf
    obtain ⟨hin, horder, hall⟩ := hspec seed stack hsome
    have hcells := keyCells_spec hpos hfit seed
    have htotal : (3 * xorfBlockLen ks.length).toNat = 3 * (xorfBlockLen ks.length).toNat := by
      rw [UInt32.toNat_mul]
      exact Nat.mod_eq_of_lt hfit
    refine ⟨fun hzero => ?_, ?_, ?_, ⟨_, rfl, by simp [htotal]⟩, fun key hkey => ?_⟩
    · have hzero : xorfBlockLen ks.length = 0 := hzero
      rw [hzero] at hpos
      cases hpos
    · show (xorfBlockLen ks.length).toNat ≤ 64 * 1024 * 1024
      omega
    · show (UInt32.ofNat ks.length).toNat ≤ _
      rw [UInt32.toNat_ofNat_of_lt' (by show _ < 4294967296; omega)]
      exact hks
    · obtain ⟨a, ha, rfl⟩ := hall key (hmem key hkey)
      rw [cvmfsXorfQuery, Bool.or_eq_true, decide_eq_true_eq, decide_eq_true_eq]
      exact .inr ((xorCells_getD (hcells a.2).1.2 _).trans
        (foldl_placeKey_solves (fun key => (hcells key).1.1) hin horder ha))

/-! ## The serialized form -/

theorem wordAt_append {α : Type} [Wire α] (front : Bytes) (x : α) (back : Bytes) :
    wordAt α (front ++ (Wire.put x ++ back)) front.length = x := by
  rw [wordAt, drop_left, take_left' (Wire.put_length x), Wire.get_put]

theorem ofCode_code (algo : CvmfsHashAlgo) : CvmfsHashAlgo.ofCode algo.code = some algo := by
  cases algo <;> rfl

/-- A filter is read back as it was written. -/
theorem cvmfsXorf_round_trip {f : CvmfsXorf} {fp : Bytes} (hzero : f.blockLen ≠ 0)
    (hblock : f.blockLen.toNat ≤ cvmfsXorfMaxKeys) (hkeys : f.nkeys.toNat ≤ cvmfsXorfMaxKeys)
    (hfp : f.fp = some fp) (hlen : fp.length = 3 * f.blockLen.toNat) (root : CvmfsHash) {cap : ℕ}
    (hcap : cvmfsXorfSize f ≤ cap) :
    ∃ img, cvmfsXorfSerialize f root cap = some img ∧
      cvmfsXorfDeserialize img = some (f, root) := by
  have htake : fp.take (3 * f.blockLen.toNat) = fp :=
    take_of_length_le (Nat.le_of_eq hlen)
  refine ⟨_, by rw [cvmfsXorfSerialize, hfp]; exact if_neg (Nat.not_lt.mpr hcap), ?_⟩
  rw [htake]
  set out := ascii "BXF1" ++ Wire.put f.blockLen ++ Wire.put f.nkeys ++ Wire.put root.algo.code ++
    Wire.put f.seed ++ root.digest.bytes ++ fp with hout
  have hmagic : (ascii "BXF1").length = 4 := by decide
  have hw4 : ∀ x : UInt32, (Wire.put x).length = 4 := fun x => Wire.put_length x
  have hw8 : ∀ x : UInt64, (Wire.put x).length = 8 := fun x => Wire.put_length x
  have hdigest := root.digest.length_bytes
  have houtlen : out.length = cvmfsXorfHeaderLen + 3 * f.blockLen.toNat := by
    simp only [hout, length_append, hmagic, hw4, hw8, hdigest, hlen, cvmfsXorfHeaderLen]
  have hread : ∀ (α : Type) [Wire α] (front : Bytes) (x : α) (back : Bytes) (off : ℕ),
      out ++ Wire.put (fnv1a64Bytes fnv1a64OffsetBasis out) = front ++ (Wire.put x ++ back) →
      front.length = off →
      wordAt α (out ++ Wire.put (fnv1a64Bytes fnv1a64OffsetBasis out)) off = x := by
    intro α _ front x back off heq hoff
    rw [heq, ← hoff, wordAt_append]
  have hbl := hread UInt32 (ascii "BXF1") f.blockLen _ 4 (by simp [hout]; rfl) hmagic
  have hnk := hread UInt32 (ascii "BXF1" ++ Wire.put f.blockLen) f.nkeys _ 8
    (by simp [hout]; rfl) (by simp [hmagic, hw4])
  have halgo := hread UInt32 (ascii "BXF1" ++ Wire.put f.blockLen ++ Wire.put f.nkeys)
    root.algo.code _ 12 (by simp [hout]; rfl) (by simp [hmagic, hw4])
  have hseed := hread UInt64 (ascii "BXF1" ++ Wire.put f.blockLen ++ Wire.put f.nkeys ++
    Wire.put root.algo.code) f.seed _ 16 (by simp [hout]; rfl) (by simp [hmagic, hw4])
  have hsum := hread UInt64 out (fnv1a64Bytes fnv1a64OffsetBasis out) []
    (cvmfsXorfHeaderLen + 3 * f.blockLen.toNat + 8 - 8) (by simp) (by rw [houtlen]; omega)
  have hhead : (ascii "BXF1" ++ Wire.put f.blockLen ++ Wire.put f.nkeys ++
      Wire.put root.algo.code ++ Wire.put f.seed).length = 24 := by
    simp [hmagic, hw4, hw8]
  have himg : ∀ (k : ℕ) (front mid back : Bytes), front.length = k →
      out ++ Wire.put (fnv1a64Bytes fnv1a64OffsetBasis out) = front ++ (mid ++ back) →
      ((out ++ Wire.put (fnv1a64Bytes fnv1a64OffsetBasis out)).drop k).take mid.length = mid := by
    intro k front mid back hk heq
    rw [heq, ← hk, drop_left, take_left]
  have hroot := himg 24 _ root.digest.bytes (fp ++ Wire.put (fnv1a64Bytes fnv1a64OffsetBasis out))
    hhead (by simp [hout])
  have hfps := himg 44 (ascii "BXF1" ++ Wire.put f.blockLen ++ Wire.put f.nkeys ++
    Wire.put root.algo.code ++ Wire.put f.seed ++ root.digest.bytes) fp
    (Wire.put (fnv1a64Bytes fnv1a64OffsetBasis out)) (by simp [hmagic, hw4, hw8, hdigest])
    (by simp [hout])
  have htop : (out ++ Wire.put (fnv1a64Bytes fnv1a64OffsetBasis out)).take 4 = ascii "BXF1" := by
    have hfour := himg 0 [] (ascii "BXF1") _ rfl (by simp [hout]; rfl)
    simpa [hmagic] using hfour
  rw [hdigest] at hroot
  rw [hlen] at hfps
  have hall : (out ++ Wire.put (fnv1a64Bytes fnv1a64OffsetBasis out)).length =
      cvmfsXorfHeaderLen + 3 * f.blockLen.toNat + 8 := by
    rw [length_append, houtlen, hw8]
  have hbody : (out ++ Wire.put (fnv1a64Bytes fnv1a64OffsetBasis out)).take
      (cvmfsXorfHeaderLen + 3 * f.blockLen.toNat + 8 - 8) = out := by
    rw [Nat.add_sub_cancel, ← houtlen, take_left]
  rw [cvmfsXorfDeserialize, if_neg (by rw [hall]; omega), if_neg (by simp [htop])]
  simp only [hbl, hnk, halgo, ofCode_code]
  rw [if_neg (by simp [hzero, Nat.not_lt.mpr hblock, Nat.not_lt.mpr hkeys]),
    if_neg (by simp [hall]), if_neg (by rw [hsum, hbody]; simp)]
  rw [dif_pos (by rw [hroot, hdigest])]
  simp only [cvmfsXorfHeaderLen, hroot, hseed, hfps, ← hfp]

/-- **The xor filter has no false negatives**, before and after it is serialized, and building it
stays inside its arrays. -/
theorem xorf_no_false_negatives (keys : List UInt64) :
    ∃ built, cvmfsXorfBuild keys = .ok built ∧ ∀ f, built = some f →
      (∀ key ∈ keys, cvmfsXorfQuery f key = true) ∧
      ∀ (root : CvmfsHash) (cap : ℕ), cvmfsXorfSize f ≤ cap →
        ∃ img g, cvmfsXorfSerialize f root cap = some img ∧
          cvmfsXorfDeserialize img = some (g, root) ∧
          ∀ key ∈ keys, cvmfsXorfQuery g key = true := by
  obtain ⟨built, hbuilt, hspec⟩ := cvmfsXorfBuild_spec keys
  refine ⟨built, hbuilt, fun f hf => ?_⟩
  obtain ⟨hzero, hblock, hkeys, ⟨fp, hfp, hlen⟩, hquery⟩ := hspec f hf
  refine ⟨hquery, fun root cap hcap => ?_⟩
  obtain ⟨img, hser, hdes⟩ := cvmfsXorf_round_trip hzero hblock hkeys hfp hlen root hcap
  exact ⟨img, f, hser, hdes, hquery⟩

/-- One key is placed. -/
example : ∃ f, cvmfsXorfBuild [5] = .ok (some f) ∧ f.nkeys = 1 := ⟨_, rfl, rfl⟩

end BrixCache
