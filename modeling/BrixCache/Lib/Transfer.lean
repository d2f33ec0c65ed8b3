import BrixCache.Lib.Posix

/-!
# Reads and writes until all is moved

A `pread` may give less than it was asked for and a `pwrite` take less, either may be
interrupted, and a read may find the end of the file. A loop around them goes on until it has
what it wants; its environment is the list of the answers, one for each call. A loop that has
used them up waits for the next one.
-/

namespace BrixCache

open List

/-- What a `pread` answers: no cells at the end of the file. -/
inductive ReadAnswer (β : Type) : Type where
  | cells (xs : List β) : ReadAnswer β
  | intr : ReadAnswer β
  | failed (e : Errno) : ReadAnswer β

/-- What a `pwrite` answers. -/
inductive WriteAnswer : Type where
  | put (n : ℕ) : WriteAnswer
  | intr : WriteAnswer
  | failed (e : Errno) : WriteAnswer

namespace Transfer

variable {β : Type}

/-- Read until `want` cells are there or the file ends. What is asked for is what is missing, so
no answer counts for more than that. -/
def readLoop (want : ℕ) (got : List β) : List (ReadAnswer β) → Option (Except Errno (List β))
  | [] => if want ≤ got.length then some (.ok got) else none
  | answer :: rest =>
    if want ≤ got.length then some (.ok got)
    else
      match answer with
      | .intr => readLoop want got rest
      | .failed e => some (.error e)
      | .cells [] => some (.ok got)
      | .cells (x :: xs) => readLoop want (got ++ (x :: xs).take (want - got.length)) rest

/-- Write until no cell is left: the result, if there is one yet, and the file. -/
def writeLoop (hole : β) (f : List β) (off : ℕ) (cells : List β) :
    List WriteAnswer → Option (Except Errno Unit) × List β
  | [] => (if cells = [] then some (.ok ()) else none, f)
  | answer :: rest =>
    if cells = [] then (some (.ok ()), f)
    else
      match answer with
      | .intr => writeLoop hole f off cells rest
      | .failed e => (some (.error e), f)
      | .put n =>
        writeLoop hole (File.pwrite hole f off (cells.take n)) (off + n) (cells.drop n) rest

/-! ## What a reader is given -/

/-- What the answers give, up to the first end or error. -/
def gave : List (ReadAnswer β) → List β
  | [] => []
  | .intr :: rest => gave rest
  | .failed _ :: _ => []
  | .cells [] :: _ => []
  | .cells (x :: xs) :: rest => x :: xs ++ gave rest

/-- The file ends when fewer than `want` cells have been given. -/
inductive EndsBefore : ℕ → List (ReadAnswer β) → Prop where
  | here {want : ℕ} {rest : List (ReadAnswer β)} (h : 0 < want) :
      EndsBefore want (.cells [] :: rest)
  | intr {want : ℕ} {rest : List (ReadAnswer β)} (h : EndsBefore want rest) :
      EndsBefore want (.intr :: rest)
  | cells {want : ℕ} {x : β} {xs : List β} {rest : List (ReadAnswer β)}
      (h : EndsBefore (want - (x :: xs).length) rest) : EndsBefore want (.cells (x :: xs) :: rest)

variable {answers : List (ReadAnswer β)} {want : ℕ}

theorem EndsBefore.gave_lt (h : EndsBefore want answers) : (gave answers).length < want := by
  induction h with
  | here h => exact h
  | intr _ ih => exact ih
  | cells _ ih =>
    rw [gave, length_append]
    omega

/-- A loop of reads gives what it asked for, or the source ended. -/
theorem readLoop_eq_ok {got cells : List β}
    (hgot : got.length ≤ want) (h : readLoop want got answers = some (.ok cells)) :
    cells = got ++ (gave answers).take (want - got.length) ∧
      (cells.length = want ∨ EndsBefore (want - got.length) answers) := by
  induction answers generalizing got with
  | nil =>
    rw [readLoop] at h
    split at h
    · cases h
      simp only [gave, take_nil, append_nil, true_and]
      omega
    · cases h
  | cons answer rest ih =>
    rw [readLoop.eq_def] at h
    dsimp only at h
    by_cases hdone : want ≤ got.length
    · rw [if_pos hdone] at h
      cases h
      rw [Nat.sub_eq_zero_of_le hdone, take_zero, append_nil]
      exact ⟨rfl, .inl (Nat.le_antisymm hgot hdone)⟩
    rw [if_neg hdone] at h
    match answer with
    | .intr =>
      obtain ⟨hcells, hend⟩ := ih hgot h
      exact ⟨hcells, hend.imp_right .intr⟩
    | .failed e => cases h
    | .cells [] =>
      cases h
      refine ⟨?_, .inr (.here (by omega))⟩
      rw [gave, take_nil, append_nil]
    | .cells (x :: xs) =>
      have hlen : (got ++ (x :: xs).take (want - got.length)).length =
          got.length + min (want - got.length) (x :: xs).length := by
        rw [length_append, length_take]
      obtain ⟨hcells, hend⟩ := ih (by omega) h
      have hleft : want - (got ++ (x :: xs).take (want - got.length)).length =
          want - got.length - (x :: xs).length := by omega
      rw [hleft] at hcells hend
      refine ⟨?_, hend.imp_right .cells⟩
      rw [hcells, gave, take_append, append_assoc]

theorem readLoop_of_endsBefore {got : List β} (h : EndsBefore (want - got.length) answers) :
    readLoop want got answers = some (.ok (got ++ gave answers)) := by
  generalize hleft : want - got.length = left at h
  induction h generalizing got with
  | here h =>
    rw [readLoop, if_neg (by omega), gave, append_nil]
  | intr h ih =>
    have hpos := h.gave_lt
    rw [readLoop, if_neg (by omega), gave]
    exact ih hleft
  | @cells left x xs rest h ih =>
    have hpos := h.gave_lt
    have htake : (x :: xs).take (want - got.length) = x :: xs :=
      take_of_length_le (by omega)
    rw [readLoop, if_neg (by omega), htake, gave, ← append_assoc]
    refine ih ?_
    rw [length_append]
    omega

/-! ## What a writer leaves -/

/-- A loop of writes puts a prefix in place. -/
theorem writeLoop_spec (hole : β) (f : List β) (off : ℕ) (cells : List β)
    (answers : List WriteAnswer) :
    ∃ n, (writeLoop hole f off cells answers).2 = File.pwrite hole f off (cells.take n) ∧
      ((writeLoop hole f off cells answers).1 = some (.ok ()) → cells.length ≤ n) := by
  induction answers generalizing f off cells with
  | nil =>
    refine ⟨0, rfl, ?_⟩
    intro h
    rw [writeLoop] at h
    split at h
    · rename_i hnil
      rw [hnil]
      exact Nat.le_refl 0
    · cases h
  | cons answer rest ih =>
    rw [writeLoop.eq_def]
    dsimp only
    by_cases hnil : cells = []
    · rw [if_pos hnil, hnil]
      exact ⟨0, rfl, fun _ => Nat.le_refl 0⟩
    rw [if_neg hnil]
    cases answer with
    | intr => exact ih f off cells
    | failed e => exact ⟨0, rfl, fun h => by cases h⟩
    | put n =>
      obtain ⟨k, hfile, hall⟩ :=
        ih (File.pwrite hole f off (cells.take n)) (off + n) (cells.drop n)
      by_cases hover : cells.length ≤ n
      · refine ⟨cells.length, ?_, fun _ => Nat.le_refl _⟩
        rw [hfile, drop_of_length_le hover, take_nil, File.pwrite_nil,
          take_of_length_le hover, take_length]
      · refine ⟨n + k, ?_, ?_⟩
        · have hlen : (cells.take n).length = n := length_take_of_le (by omega)
          have happend := File.pwrite_append hole f off (cells.take n) ((cells.drop n).take k)
          rw [hlen] at happend
          rw [hfile, happend, ← take_add]
        · intro h
          have := hall h
          rw [length_drop] at this
          omega

theorem writeLoop_put (hole : β) (f : List β) (off : ℕ) (cells : List β) :
    writeLoop hole f off cells [.put cells.length] =
      (some (.ok ()), File.pwrite hole f off cells) := by
  rw [writeLoop]
  by_cases hnil : cells = []
  · rw [if_pos hnil, hnil, File.pwrite_nil]
  · rw [if_neg hnil, drop_length, take_length]
    rfl

end Transfer

end BrixCache
