import BrixCache.Core.Fnv
import BrixCache.Cvmfs.Hash
import BrixCache.Lib.Wire
import Mathlib.Data.List.Destutter
import Mathlib.Data.List.Perm.Subperm
import Mathlib.Order.Lattice

/-!
# The xor filter of a revision's paths

`shared/cvmfs/filter/xorf.c`: a filter that answers "definitely absent" or "maybe" for the key of a
path. A key has a cell in each of three blocks and a fingerprint of 8 bits; a filter of it holds
fingerprints whose xor over the three cells is the key's. It is built by peeling: a cell with one
key left takes that key out, and the keys are placed in the reverse order.
-/

namespace BrixCache

open Function

/-- `cvmfs_xorf_t`: `fp` holds three cells for each of `blockLen`, or nothing. -/
structure CvmfsXorf : Type where
  seed : UInt64
  blockLen : UInt32
  nkeys : UInt32
  fp : Option Bytes
  deriving DecidableEq

def cvmfsXorfMaxKeys : ℕ := 64 * 1024 * 1024

/-! ## Hashing -/

def mix64 (x : UInt64) : UInt64 :=
  let x := (x ^^^ (x >>> 30)) * 0xbf58476d1ce4e5b9
  let x := (x ^^^ (x >>> 27)) * 0x94d049bb133111eb
  x ^^^ (x >>> 31)

/-- Map a hash to a range by multiplication. -/
def reduce32 (x n : UInt32) : UInt32 := ((x.toUInt64 * n.toUInt64) >>> 32).toUInt32

def rotl64 (x r : UInt64) : UInt64 := (x <<< r) ||| (x >>> (64 - r))

/-- `idx` of `key_cells` -/
def keyCells (seed : UInt64) (blockLen : UInt32) (key : UInt64) : List ℕ :=
  let h := mix64 (key ^^^ seed)
  [(reduce32 h.toUInt32 blockLen).toNat,
    (blockLen + reduce32 (rotl64 h 21).toUInt32 blockLen).toNat,
    (2 * blockLen + reduce32 (rotl64 h 42).toUInt32 blockLen).toNat]

/-- `fp` of `key_cells` -/
def keyFp (seed key : UInt64) : UInt8 :=
  let h := mix64 (key ^^^ seed)
  (h ^^^ (h >>> 32) ^^^ (h >>> 16)).toUInt8

/-! ## Peeling -/

/-- `peel_t`: the queue and the placement stack with their tops first -/
structure Peel : Type where
  cellXor : ℕ → UInt64
  cellDeg : ℕ → UInt32
  queue : List ℕ
  stack : List (ℕ × UInt64)

/-- What must not happen: a write beyond an array, or no end -/
inductive PeelFault : Type where
  | queue
  | stack
  | spin
  deriving DecidableEq

/-- Count a key in one of its cells. -/
def Peel.add (key : UInt64) (p : Peel) (c : ℕ) : Peel :=
  { p with
    cellXor := update p.cellXor c (p.cellXor c ^^^ key)
    cellDeg := update p.cellDeg c (p.cellDeg c + 1) }

/-- `p->queue[qn++] = c`, in an array of `total` cells -/
def Peel.push (total : ℕ) (p : Peel) (c : ℕ) : Except PeelFault Peel :=
  if p.queue.length < total then .ok { p with queue := c :: p.queue } else .error .queue

/-- A key is taken out of a cell, which is queued if it has one left. -/
def Peel.take (total : ℕ) (key : UInt64) (p : Peel) (c : ℕ) : Except PeelFault Peel :=
  let p := { p with
    cellXor := update p.cellXor c (p.cellXor c ^^^ key)
    cellDeg := update p.cellDeg c (p.cellDeg c - 1) }
  if p.cellDeg c = 1 then p.push total c else .ok p

/-- The loop of `peel_attempt`, in a placement stack of `n` keys -/
def peelLoop (cells : UInt64 → List ℕ) (total n : ℕ) : ℕ → Peel → Except PeelFault Peel
  | fuel, p =>
    match p.queue with
    | [] => .ok p
    | cell :: queue =>
      match fuel with
      | 0 => .error .spin
      | fuel + 1 =>
        -- went to 0 since it was queued
        if p.cellDeg cell ≠ 1 then peelLoop cells total n fuel { p with queue := queue }
        else if p.stack.length < n then do
          let key := p.cellXor cell
          let p ← (cells key).foldlM (Peel.take total key)
            { p with queue := queue, stack := (cell, key) :: p.stack }
          peelLoop cells total n fuel p
        else .error .stack

/-- The cells that start the loop -/
def peelQueue (total : ℕ) (p : Peel) : Except PeelFault Peel :=
  (List.range total).foldlM (fun p c => if p.cellDeg c = 1 then p.push total c else .ok p) p

/-- `peel_attempt`: the placement stack. The loop has no more turns than `total + 3 * n`: a cell is
queued for each of them, and a key queues at most three. -/
def peelAttempt (cells : UInt64 → List ℕ) (keys : List UInt64) (total : ℕ) :
    Except PeelFault (List (ℕ × UInt64)) := do
  let p : Peel := ⟨fun _ => 0, fun _ => 0, [], []⟩
  let p := keys.foldl (fun p key => (cells key).foldl (Peel.add key) p) p
  let p ← peelQueue total p
  let p ← peelLoop cells total keys.length (total + 3 * keys.length) p
  pure p.stack

/-! ## Building -/

def dedupKeys (keys : List UInt64) : List UInt64 :=
  if keys.length < 2 then keys else (keys.mergeSort fun x y => x ≤ y).destutter (· ≠ ·)

def xorfSeed (attempt : ℕ) : UInt64 := mix64 (0x9e3779b97f4a7c15 * UInt64.ofNat (attempt + 1))

/-- The attempts from one on: the seed of the first that places all keys, with its stack -/
def xorfAttempts (keys : List UInt64) (blockLen : UInt32) (total : ℕ) :
    List ℕ → Except PeelFault (Option (UInt64 × List (ℕ × UInt64)))
  | [] => .ok none
  | attempt :: attempts => do
    let stack ← peelAttempt (keyCells (xorfSeed attempt) blockLen) keys total
    if stack.length = keys.length then pure (some (xorfSeed attempt, stack))
    else xorfAttempts keys blockLen total attempts

def xorCells (fp : ℕ → UInt8) (cells : List ℕ) : UInt8 := cells.foldr (fun c x => fp c ^^^ x) 0

/-- A key is placed: its cell gets what makes the equation of the key hold. -/
def placeKey (cells : UInt64 → List ℕ) (kfp : UInt64 → UInt8) (fp : ℕ → UInt8)
    (placed : ℕ × UInt64) : ℕ → UInt8 :=
  update fp placed.1 (kfp placed.2 ^^^ xorCells fp (cells placed.2) ^^^ fp placed.1)

/-- `block_len` -/
def xorfBlockLen (n : ℕ) : UInt32 := UInt32.ofNat ((32 + n + n / 4 + n / 50 + 2) / 3)

/-- `cvmfs_xorf_build`, where memory is at hand: none is the result -1. -/
def cvmfsXorfBuild (keys : List UInt64) : Except PeelFault (Option CvmfsXorf) :=
  if cvmfsXorfMaxKeys < keys.length then .ok none
  else do
    let keys := dedupKeys keys
    let blockLen := xorfBlockLen keys.length
    let total := (3 * blockLen).toNat
    let found ← xorfAttempts keys blockLen total (List.range 64)
    pure (found.map fun (seed, stack) =>
      let fparr := stack.foldl (placeKey (keyCells seed blockLen) (keyFp seed)) fun _ => 0
      ⟨seed, blockLen, UInt32.ofNat keys.length, some ((List.range total).map fparr)⟩)

/-- The three cells of the key xor to its fingerprint. -/
def cvmfsXorfQuery (f : CvmfsXorf) (key : UInt64) : Bool :=
  match f.fp with
  | none => true
  | some fp =>
    f.blockLen = 0 ||
      xorCells (fun c => fp.getD c 0) (keyCells f.seed f.blockLen key) = keyFp f.seed key

/-! ## The serialized form -/

def cvmfsXorfHeaderLen : ℕ := 44

def cvmfsXorfSize (f : CvmfsXorf) : ℕ := cvmfsXorfHeaderLen + 3 * f.blockLen.toNat + 8

/-- `cvmfs_hash_algo_e` as a number -/
def CvmfsHashAlgo.code : CvmfsHashAlgo → UInt32
  | .sha1 => 0
  | .rmd160 => 1
  | .shake128 => 2

/-- The algorithm of a number -/
def CvmfsHashAlgo.ofCode (code : UInt32) : Option CvmfsHashAlgo :=
  if code = 0 then some .sha1 else if code = 1 then some .rmd160
  else if code = 2 then some .shake128 else none

/-- `cvmfs_xorf_serialize` into a buffer of `cap` bytes -/
def cvmfsXorfSerialize (f : CvmfsXorf) (root : CvmfsHash) (cap : ℕ) : Option Bytes :=
  match f.fp with
  | none => none
  | some fp =>
    if cap < cvmfsXorfSize f then none
    else
      let out := ascii "BXF1" ++ Wire.put f.blockLen ++ Wire.put f.nkeys ++
        Wire.put root.algo.code ++ Wire.put f.seed ++ root.digest.bytes ++
        fp.take (3 * f.blockLen.toNat)
      some (out ++ Wire.put (fnv1a64Bytes fnv1a64OffsetBasis out))

/-- `get_u32` and `get_u64`: the word at an offset -/
def wordAt (α : Type) [Wire α] (bytes : Bytes) (off : ℕ) : α :=
  Wire.get ((bytes.drop off).take (Wire.width α))

/-- `cvmfs_xorf_deserialize`: none is the result -1. -/
def cvmfsXorfDeserialize (bytes : Bytes) : Option (CvmfsXorf × CvmfsHash) :=
  if bytes.length < cvmfsXorfHeaderLen + 8 then none
  else if bytes.take 4 ≠ ascii "BXF1" then none
  else
    let blockLen : UInt32 := wordAt UInt32 bytes 4
    let nkeys : UInt32 := wordAt UInt32 bytes 8
    if blockLen = 0 ∨ cvmfsXorfMaxKeys < blockLen.toNat ∨ cvmfsXorfMaxKeys < nkeys.toNat then none
    else
      match CvmfsHashAlgo.ofCode (wordAt UInt32 bytes 12) with
      | none => none
      | some algo =>
        let need := cvmfsXorfHeaderLen + 3 * blockLen.toNat + 8
        if bytes.length ≠ need then none
        else if wordAt UInt64 bytes (need - 8) ≠
            fnv1a64Bytes fnv1a64OffsetBasis (bytes.take (need - 8)) then none
        else
          let digest := (bytes.drop 24).take 20
          if h : digest.length = 20 then
            some (⟨wordAt UInt64 bytes 16, blockLen, nkeys,
              some ((bytes.drop cvmfsXorfHeaderLen).take (3 * blockLen.toNat))⟩,
              ⟨algo, ⟨digest, h⟩⟩)
          else none

end BrixCache

/-!
## Peeling

What is left of the keys decides what every cell holds: their number and their xor.
-/

namespace BrixCache

open Function List

/-! ### The keys of a cell -/

def xorKeys (keys : List UInt64) : UInt64 := keys.foldr (· ^^^ ·) 0

theorem xorKeys_cons (key : UInt64) (keys : List UInt64) :
    xorKeys (key :: keys) = key ^^^ xorKeys keys := rfl

theorem xorKeys_perm {ks ks' : List UInt64} (h : ks.Perm ks') : xorKeys ks = xorKeys ks' := by
  induction h with
  | nil => rfl
  | cons key _ ih => rw [xorKeys_cons, xorKeys_cons, ih]
  | swap key key' ks =>
    rw [xorKeys_cons, xorKeys_cons, xorKeys_cons, xorKeys_cons, ← UInt64.xor_assoc,
      ← UInt64.xor_assoc, UInt64.xor_comm key' key]
  | trans _ _ ih ih' => exact ih.trans ih'

theorem xorKeys_erase {ks : List UInt64} {key : UInt64} (h : key ∈ ks) :
    xorKeys (ks.erase key) = xorKeys ks ^^^ key := by
  rw [xorKeys_perm (perm_cons_erase h), xorKeys_cons, UInt64.xor_comm key, UInt64.xor_assoc,
    UInt64.xor_self, UInt64.xor_zero]

variable {cells : UInt64 → List ℕ} {total : ℕ} {keys rest cs : List UInt64} {key : UInt64}
  {p p' : Peel} {c : ℕ}

def keysIn (cells : UInt64 → List ℕ) (keys : List UInt64) (c : ℕ) : List UInt64 :=
  keys.filter fun key => c ∈ cells key

theorem keysIn_erase (h : rest.Nodup) (key : UInt64) (c : ℕ) :
    keysIn cells (rest.erase key) c = (keysIn cells rest c).erase key := by
  rw [h.erase_eq_filter, keysIn, keysIn, (h.filter _).erase_eq_filter, filter_filter,
    filter_filter]
  exact filter_congr fun x _ => Bool.and_comm _ _

/-- The degree and the sum of each cell are those of the keys that are left. -/
structure Peel.Holds (cells : UInt64 → List ℕ) (p : Peel) (rest : List UInt64) : Prop where
  deg : ∀ c, p.cellDeg c = UInt32.ofNat (keysIn cells rest c).length
  xor : ∀ c, p.cellXor c = xorKeys (keysIn cells rest c)

theorem Peel.Holds.deg_eq_one (h : p.Holds cells rest) (hlen : rest.length < 2 ^ 32) :
    p.cellDeg c = 1 ↔ (keysIn cells rest c).length = 1 := by
  have hle : (keysIn cells rest c).length < 2 ^ 32 :=
    Nat.lt_of_le_of_lt (length_filter_le _ _) hlen
  rw [h.deg, ← UInt32.toNat_inj, UInt32.toNat_ofNat_of_lt' hle]
  rfl

/-! ### Filling the cells -/

theorem foldl_add (key : UInt64) (cs : List ℕ) (hcs : cs.Nodup) (p : Peel) :
    (∀ c, (cs.foldl (Peel.add key) p).cellDeg c =
      if c ∈ cs then p.cellDeg c + 1 else p.cellDeg c) ∧
    (∀ c, (cs.foldl (Peel.add key) p).cellXor c =
      if c ∈ cs then p.cellXor c ^^^ key else p.cellXor c) ∧
    (cs.foldl (Peel.add key) p).queue = p.queue ∧ (cs.foldl (Peel.add key) p).stack = p.stack := by
  induction cs generalizing p with
  | nil => simp
  | cons d cs ih =>
    obtain ⟨hd, hnodup⟩ := nodup_cons.mp hcs
    obtain ⟨hdeg, hxor, hqueue, hstack⟩ := ih hnodup (p.add key d)
    refine ⟨fun c => ?_, fun c => ?_, hqueue, hstack⟩
    · rw [foldl_cons, hdeg, Peel.add]
      by_cases hc : c = d
      · subst hc
        simp [hd]
      · simp [hc]
    · rw [foldl_cons, hxor, Peel.add]
      by_cases hc : c = d
      · subst hc
        simp [hd]
      · simp [hc]

theorem Peel.Holds.add (h : p.Holds cells rest) (hcells : (cells key).Nodup) :
    ((cells key).foldl (Peel.add key) p).Holds cells (rest ++ [key]) := by
  obtain ⟨hdeg, hxor, -⟩ := foldl_add key (cells key) hcells p
  have hin : ∀ c, keysIn cells (rest ++ [key]) c =
      keysIn cells rest c ++ if c ∈ cells key then [key] else [] := by
    intro c
    rw [keysIn, filter_append]
    by_cases hc : c ∈ cells key <;> simp [keysIn, hc]
  constructor
  · intro c
    rw [hdeg, h.deg, hin]
    by_cases hc : c ∈ cells key <;> simp [hc]
  · intro c
    rw [hxor, h.xor, hin]
    by_cases hc : c ∈ cells key
    · rw [if_pos hc, if_pos hc, xorKeys_perm perm_append_comm, singleton_append,
        xorKeys_cons, UInt64.xor_comm]
    · simp [hc]

theorem Peel.Holds.addAll (hcells : ∀ key, (cells key).Nodup) (keys : List UInt64) :
    let p := keys.foldl (fun p key => (cells key).foldl (Peel.add key) p)
      ⟨fun _ => 0, fun _ => 0, [], []⟩
    p.Holds cells keys ∧ p.queue = [] ∧ p.stack = [] := by
  induction keys using reverseRecOn with
  | nil => exact ⟨⟨fun _ => rfl, fun _ => rfl⟩, rfl, rfl⟩
  | append_singleton keys key ih =>
    obtain ⟨hholds, hqueue, hstack⟩ := ih
    obtain ⟨-, -, hqueue', hstack'⟩ := foldl_add key (cells key) (hcells key)
      (keys.foldl (fun p key => (cells key).foldl (Peel.add key) p)
        ⟨fun _ => 0, fun _ => 0, [], []⟩)
    simp only [foldl_append, foldl_cons, foldl_nil]
    exact ⟨hholds.add (hcells key), hqueue'.trans hqueue, hstack'.trans hstack⟩

/-! ### Queueing -/

theorem length_le_total {queue : List ℕ} (hnodup : queue.Nodup) (hlt : ∀ c ∈ queue, c < total) :
    queue.length ≤ total := by
  have hsub : queue.Subperm (range total) :=
    subperm_of_subset hnodup fun c hc => mem_range.mpr (hlt c hc)
  simpa using hsub.length_le

theorem foldlM_push (cs : List ℕ) (p : Peel)
    (hroom : p.queue.length + (cs.filter fun c => p.cellDeg c = 1).length ≤ total) :
    cs.foldlM (fun p c => if p.cellDeg c = 1 then p.push total c else .ok p) p =
      .ok { p with queue := (cs.filter fun c => p.cellDeg c = 1).reverse ++ p.queue } := by
  induction cs generalizing p with
  | nil => rfl
  | cons d cs ih =>
    rw [foldlM_cons]
    by_cases hd : p.cellDeg d = 1
    · simp only [hd, decide_true, filter_cons_of_pos, length_cons] at hroom
      have hpush : p.push total d = .ok { p with queue := d :: p.queue } :=
        if_pos (by omega)
      rw [if_pos hd, hpush]
      have hrest := ih { p with queue := d :: p.queue } (by simp only [length_cons]; omega)
      simp only [filter_cons, hd, decide_true, if_true, reverse_cons,
        append_assoc, singleton_append]
      exact hrest
    · rw [if_neg hd]
      have hfilter : (d :: cs).filter (fun c => p.cellDeg c = 1) =
          cs.filter fun c => p.cellDeg c = 1 := filter_cons_of_neg (by simpa using hd)
      rw [hfilter] at hroom ⊢
      exact ih p hroom

theorem peelQueue_eq (hqueue : p.queue = []) :
    peelQueue total p =
      .ok { p with queue := ((range total).filter fun c => p.cellDeg c = 1).reverse } := by
  rw [peelQueue, foldlM_push _ _ ?_, hqueue, append_nil]
  rw [hqueue, length_nil, Nat.zero_add]
  exact (length_filter_le _ _).trans (Nat.le_of_eq length_range)

/-- A key is taken out of its cells. -/
theorem foldlM_take (key : UInt64) (cs : List ℕ) (hcs : cs.Nodup) (p : Peel)
    (hroom : p.queue.length + (cs.filter fun c => p.cellDeg c - 1 = 1).length ≤ total) :
    ∃ p', cs.foldlM (Peel.take total key) p = .ok p' ∧ p'.stack = p.stack ∧
      p'.queue = (cs.filter fun c => p.cellDeg c - 1 = 1).reverse ++ p.queue ∧
      (∀ c, p'.cellDeg c = if c ∈ cs then p.cellDeg c - 1 else p.cellDeg c) ∧
      ∀ c, p'.cellXor c = if c ∈ cs then p.cellXor c ^^^ key else p.cellXor c := by
  induction cs generalizing p with
  | nil => exact ⟨p, rfl, rfl, rfl, by simp, by simp⟩
  | cons d cs ih =>
    obtain ⟨hd, hnodup⟩ := nodup_cons.mp hcs
    have hne : ∀ c ∈ cs, c ≠ d := fun c hc heq => hd (heq ▸ hc)
    -- the other cells are as they were
    have htaken : ∀ q : Peel, (∀ c, c ≠ d → q.cellDeg c = p.cellDeg c) →
        (cs.filter fun c => q.cellDeg c - 1 = 1) = cs.filter fun c => p.cellDeg c - 1 = 1 :=
      fun q hq => filter_congr fun c hc => by rw [hq c (hne c hc)]
    have hcell : ∀ q : Peel, q.cellDeg = update p.cellDeg d (p.cellDeg d - 1) →
        q.cellXor = update p.cellXor d (p.cellXor d ^^^ key) →
        q.stack = p.stack →
        q.queue = ([d].filter fun c => p.cellDeg c - 1 = 1) ++ p.queue →
        ∃ p', cs.foldlM (Peel.take total key) q = .ok p' ∧ p'.stack = p.stack ∧
          p'.queue = ((d :: cs).filter fun c => p.cellDeg c - 1 = 1).reverse ++ p.queue ∧
          (∀ c, p'.cellDeg c = if c ∈ d :: cs then p.cellDeg c - 1 else p.cellDeg c) ∧
          ∀ c, p'.cellXor c = if c ∈ d :: cs then p.cellXor c ^^^ key else p.cellXor c := by
      intro q hdeg hxor hstack hqueue
      have hsame := htaken q fun c hc => by rw [hdeg, update_of_ne hc]
      have hlist : (d :: cs).filter (fun c => p.cellDeg c - 1 = 1) =
          [d].filter (fun c => p.cellDeg c - 1 = 1) ++
            cs.filter fun c => p.cellDeg c - 1 = 1 := by
        rw [← filter_append, singleton_append]
      rw [hlist, length_append] at hroom
      obtain ⟨p', hrun, hstack', hqueue', hdeg', hxor'⟩ := ih hnodup q (by
        rw [hsame, hqueue, length_append]
        omega)
      refine ⟨p', hrun, hstack'.trans hstack, ?_, fun c => ?_, fun c => ?_⟩
      · rw [hqueue', hsame, hqueue, hlist, reverse_append, append_assoc]
        by_cases h1 : p.cellDeg d - 1 = 1 <;> simp [h1]
      · rw [hdeg', hdeg]
        by_cases hc : c = d
        · subst hc
          simp [hd]
        · simp [hc]
      · rw [hxor', hxor]
        by_cases hc : c = d
        · subst hc
          simp [hd]
        · simp [hc]
    rw [foldlM_cons, Peel.take]
    by_cases h1 : p.cellDeg d - 1 = 1
    · have hlt : p.queue.length < total := by
        rw [filter_cons_of_pos (by simpa using h1), length_cons] at hroom
        omega
      simp only [update_self, h1, if_true, Peel.push, if_pos hlt]
      exact hcell _ (by rw [h1]) rfl rfl (by simp [h1])
    · simp only [update_self, h1, if_false]
      exact hcell _ rfl rfl rfl (by simp [h1])

/-! ### The loop -/

/-- What the queue and the stack keep to while keys are peeled -/
structure PeelInv (cells : UInt64 → List ℕ) (total : ℕ) (keys : List UInt64) (p : Peel)
    (rest : List UInt64) : Prop where
  nodup : rest.Nodup
  holds : p.Holds cells rest
  queueNodup : p.queue.Nodup
  queued : ∀ c ∈ p.queue, c < total ∧ (keysIn cells rest c).length ≤ 1
  placed : ∀ a ∈ p.stack, a.1 ∈ cells a.2 ∧ keysIn cells rest a.1 = []
  /-- A key is not in the cells of those placed before it. -/
  order : p.stack.Pairwise fun a b => b.1 ∉ cells a.2
  perm : (p.stack.map Prod.snd ++ rest).Perm keys

theorem PeelInv.length (h : PeelInv cells total keys p rest) :
    p.stack.length + rest.length = keys.length := by
  simpa using h.perm.length_eq

theorem PeelInv.skip (h : PeelInv cells total keys p rest) {queue : List ℕ}
    (hq : p.queue = c :: queue) : PeelInv cells total keys { p with queue := queue } rest where
  nodup := h.nodup
  holds := ⟨h.holds.deg, h.holds.xor⟩
  queueNodup := (nodup_cons.mp (hq ▸ h.queueNodup)).2
  queued d hd := h.queued d (hq ▸ mem_cons_of_mem c hd)
  placed := h.placed
  order := h.order
  perm := h.perm

/-- One key more is peeled. -/
theorem PeelInv.place (h : PeelInv cells total keys p rest)
    (hcells : ∀ key, (cells key).Nodup ∧ ∀ c ∈ cells key, c < total)
    (hlen : keys.length < 2 ^ 32) {queue : List ℕ} (hq : p.queue = c :: queue)
    (hone : p.cellDeg c = 1) :
    p.stack.length < keys.length ∧ ∃ p' rest', (cells (p.cellXor c)).foldlM
        (Peel.take total (p.cellXor c))
        { p with queue := queue, stack := (c, p.cellXor c) :: p.stack } = .ok p' ∧
      PeelInv cells total keys p' rest' ∧ rest'.length + 1 = rest.length ∧
      p'.queue.length ≤ queue.length + (cells (p.cellXor c)).length := by
  have hlength := h.length
  have hrest : rest.length < 2 ^ 32 := by omega
  -- the only key of the cell is the xor of its keys
  obtain ⟨key, hkey⟩ := length_eq_one_iff.mp ((h.holds.deg_eq_one hrest).mp hone)
  have hxor : p.cellXor c = key := by
    rw [h.holds.xor, hkey, xorKeys_cons]
    exact UInt64.xor_zero
  rw [hxor]
  obtain ⟨hmem, hc⟩ : key ∈ rest ∧ c ∈ cells key := by
    have hin : key ∈ keysIn cells rest c := hkey ▸ mem_singleton_self key
    simpa [keysIn] using hin
  have hpos := length_pos_of_mem hmem
  obtain ⟨hnodup, hlt⟩ := hcells key
  have hqueue := h.skip hq
  have hrest' : (rest.erase key).length < 2 ^ 32 := by
    rw [length_erase_of_mem hmem]
    omega
  have hin : ∀ d, d ∈ cells key → key ∈ keysIn cells rest d := fun d hd =>
    mem_filter.mpr ⟨hmem, by simpa using hd⟩
  have hout : ∀ d, d ∉ cells key → keysIn cells (rest.erase key) d = keysIn cells rest d :=
    fun d hd => by
      rw [keysIn_erase h.nodup, erase_of_not_mem]
      exact fun hin => hd (by simpa using (mem_filter.mp hin).2)
  have hless : ∀ d, (keysIn cells (rest.erase key) d).length ≤ (keysIn cells rest d).length :=
    fun d => by
      rw [keysIn_erase h.nodup]
      exact length_erase_le
  have hdeg : ∀ d ∈ cells key,
      p.cellDeg d - 1 = UInt32.ofNat (keysIn cells (rest.erase key) d).length := by
    intro d hd
    have hpred := length_pos_of_mem (hin d hd)
    rw [h.holds.deg, keysIn_erase h.nodup, length_erase_of_mem (hin d hd)]
    obtain ⟨m, hm⟩ := Nat.exists_eq_add_one.mpr hpred
    rw [hm, UInt32.ofNat_add, Nat.add_sub_cancel]
    exact UInt32.add_sub_cancel _ _
  -- the cells queued had two keys, so they are not in the queue
  have hpush : ∀ d ∈ (cells key).filter (fun d => p.cellDeg d - 1 = 1),
      d ∈ cells key ∧ (keysIn cells (rest.erase key) d).length = 1 ∧ d ∉ queue := by
    intro d hd
    obtain ⟨hdmem, hdone⟩ := mem_filter.mp hd
    have hlone : (keysIn cells (rest.erase key) d).length = 1 := by
      have hle : (keysIn cells (rest.erase key) d).length < 2 ^ 32 :=
        Nat.lt_of_le_of_lt (length_filter_le _ _) hrest'
      have heq : p.cellDeg d - 1 = 1 := by simpa using hdone
      rw [hdeg d hdmem, ← UInt32.toNat_inj, UInt32.toNat_ofNat_of_lt' hle] at heq
      exact heq
    refine ⟨hdmem, hlone, fun hdq => ?_⟩
    obtain ⟨-, hle⟩ := hqueue.queued d hdq
    rw [keysIn_erase h.nodup, length_erase_of_mem (hin d hdmem)] at hlone
    omega
  have hnew : ((cells key).filter (fun d => p.cellDeg d - 1 = 1) ++ queue).Nodup := by
    refine nodup_append.mpr ⟨hnodup.filter _, hqueue.queueNodup, fun d hd d' hd' heq => ?_⟩
    exact (hpush d hd).2.2 (heq ▸ hd')
  have hall : ∀ d ∈ (cells key).filter (fun d => p.cellDeg d - 1 = 1) ++ queue, d < total := by
    intro d hd
    obtain hd | hd := mem_append.mp hd
    · exact hlt d (hpush d hd).1
    · exact (hqueue.queued d hd).1
  have hroom := length_le_total hnew hall
  rw [length_append, Nat.add_comm] at hroom
  obtain ⟨p', hrun, hstack, hqueue', hdeg', hxor'⟩ := @foldlM_take total key (cells key) hnodup
    { p with queue := queue, stack := (c, key) :: p.stack } hroom
  refine ⟨by omega, p', rest.erase key, hrun, ?_, ?_, ?_⟩
  · constructor
    · exact h.nodup.erase key
    · constructor
      · intro d
        rw [hdeg']
        by_cases hd : d ∈ cells key
        · rw [if_pos hd]
          exact hdeg d hd
        · rw [if_neg hd, hout d hd]
          exact h.holds.deg d
      · intro d
        rw [hxor']
        by_cases hd : d ∈ cells key
        · rw [if_pos hd, keysIn_erase h.nodup, xorKeys_erase (hin d hd)]
          exact congrArg (· ^^^ key) (h.holds.xor d)
        · rw [if_neg hd, hout d hd]
          exact h.holds.xor d
    · rw [hqueue']
      exact ((reverse_perm _).append_right queue).nodup_iff.mpr hnew
    · intro d hd
      rw [hqueue', mem_append, mem_reverse] at hd
      obtain hd | hd := hd
      · obtain ⟨hdmem, hdone, -⟩ := hpush d hd
        exact ⟨hlt d hdmem, Nat.le_of_eq hdone⟩
      · obtain ⟨hdlt, hdle⟩ := hqueue.queued d hd
        exact ⟨hdlt, (hless d).trans hdle⟩
    · rw [hstack]
      intro a ha
      obtain rfl | ha := mem_cons.mp ha
      · refine ⟨hc, ?_⟩
        rw [keysIn_erase h.nodup, hkey]
        simp
      · obtain ⟨hin', hgone⟩ := h.placed a ha
        refine ⟨hin', length_eq_zero_iff.mp (Nat.le_zero.mp ((hless a.1).trans ?_))⟩
        rw [hgone, length_nil]
    · rw [hstack]
      refine pairwise_cons.mpr ⟨fun b hb hmemb => ?_, h.order⟩
      obtain ⟨-, hgone⟩ := h.placed b hb
      have hinb := hin b.1 hmemb
      rw [hgone] at hinb
      cases hinb
    · rw [hstack, map_cons, cons_append]
      refine (perm_middle.symm.trans ?_).trans h.perm
      exact (perm_cons_erase hmem).symm.append_left _
  · rw [length_erase_of_mem hmem]
    omega
  · rw [hqueue', length_append, length_reverse]
    have hle := length_filter_le (fun d => decide (p.cellDeg d - 1 = 1)) (cells key)
    simp only at hle ⊢
    omega

theorem PeelInv.loop (hcells : ∀ key, (cells key).Nodup ∧ ∀ c ∈ cells key, c < total)
    (hthree : ∀ key, (cells key).length = 3) (hlen : keys.length < 2 ^ 32) (fuel : ℕ) (p : Peel)
    (rest : List UInt64) (h : PeelInv cells total keys p rest)
    (hfuel : p.queue.length + 3 * rest.length ≤ fuel) :
    ∃ p' rest', peelLoop cells total keys.length fuel p = .ok p' ∧
      PeelInv cells total keys p' rest' := by
  induction fuel generalizing p rest with
  | zero =>
    have hempty : p.queue = [] := length_eq_zero_iff.mp (by omega)
    exact ⟨p, rest, by simp [peelLoop, hempty], h⟩
  | succ fuel ih =>
    cases hq : p.queue with
    | nil => exact ⟨p, rest, by simp [peelLoop, hq], h⟩
    | cons c queue =>
      rw [hq, length_cons] at hfuel
      rw [peelLoop]
      simp only [hq]
      by_cases hone : p.cellDeg c = 1
      · obtain ⟨hroom, p', rest', hrun, hinv, hleft, hqueued⟩ := h.place hcells hlen hq hone
        rw [hthree] at hqueued
        rw [if_neg (by simp [hone]), if_pos hroom]
        simp only [hrun]
        exact ih p' rest' hinv (by omega)
      · rw [if_pos hone]
        exact ih _ rest (h.skip hq) (by simp only; omega)

theorem PeelInv.start (hholds : p.Holds cells keys) (hstack : p.stack = [])
    (hnodup : keys.Nodup) (hlen : keys.length < 2 ^ 32) :
    PeelInv cells total keys
      { p with queue := ((range total).filter fun c => p.cellDeg c = 1).reverse } keys where
  nodup := hnodup
  holds := ⟨hholds.deg, hholds.xor⟩
  queueNodup := (reverse_perm _).nodup_iff.mpr (nodup_range.filter _)
  queued c hc := by
    obtain ⟨hlt, hone⟩ := mem_filter.mp (mem_reverse.mp hc)
    have hlone := (hholds.deg_eq_one hlen).mp (by simpa using hone)
    exact ⟨mem_range.mp hlt, Nat.le_of_eq hlone⟩
  placed := by simp [hstack]
  order := by simp [hstack]
  perm := by simp [hstack]

/-- **An attempt** ends with a stack of keys that are each in their own cell, in no cell of an
earlier one's, and all the keys if it is as long as they are. -/
theorem peelAttempt_spec (hcells : ∀ key, (cells key).Nodup ∧ ∀ c ∈ cells key, c < total)
    (hthree : ∀ key, (cells key).length = 3) (hnodup : keys.Nodup)
    (hlen : keys.length < 2 ^ 32) :
    ∃ stack, peelAttempt cells keys total = .ok stack ∧ stack.length ≤ keys.length ∧
      (∀ a ∈ stack, a.1 ∈ cells a.2) ∧ stack.Pairwise (fun a b => b.1 ∉ cells a.2) ∧
      (stack.length = keys.length → ∀ key ∈ keys, ∃ a ∈ stack, a.2 = key) := by
  obtain ⟨hholds, hqueue, hstack⟩ := Peel.Holds.addAll (fun key => (hcells key).1) keys
  have hstart : PeelInv cells total keys _ keys := .start hholds hstack hnodup hlen
  obtain ⟨p', rest, hrun, hinv⟩ := hstart.loop hcells hthree hlen (total + 3 * keys.length) _ _
    (by
      have hle := length_le_total hstart.queueNodup fun c hc => (hstart.queued c hc).1
      omega)
  have hlength := hinv.length
  refine ⟨p'.stack, ?_, by omega, fun a ha => (hinv.placed a ha).1, hinv.order,
    fun hall key hkey => ?_⟩
  · rw [peelAttempt]
    simp only [peelQueue_eq hqueue]
    exact congrArg (· >>= fun p => pure p.stack) hrun
  · have hrest : rest = [] := length_eq_zero_iff.mp (by omega)
    have hperm := hinv.perm
    rw [hrest, append_nil] at hperm
    exact mem_map.mp (hperm.mem_iff.mpr hkey)

end BrixCache
