import BrixCache.Lib.Posix

/-!
# Sparse copies

A file that is being filled from a source, out of order and in pieces. A
position is copied when the file has the source's cell there; writing pieces of
the source never undoes that, so what is copied only grows as long as the source
stays the same. Where only holes matter, a cell is an `Option` and `none` a hole;
no write makes one.
-/

namespace BrixCache

open List

namespace Sparse

variable {β : Type}

/-- The file has the source's cell at `i`, if the source has one. -/
def Copied (src file : List β) (i : ℕ) : Prop := i < src.length → file[i]? = src[i]?

/-- The cells are the source's from `off` on. -/
def Piece (src : List β) (off : ℕ) (cells : List β) : Prop :=
  ∀ j, j < cells.length → cells[j]? = src[off + j]?

/-- Block `b` of granule `g` is copied. -/
def BlockCopied (src file : List β) (g b : ℕ) : Prop :=
  ∀ i, b * g ≤ i → i < b * g + g → Copied src file i

variable {src file cells : List β} {hole : β} {off i n g b : ℕ}

theorem Copied.lt_length (h : Copied src file i) (hi : i < src.length) : i < file.length := by
  have hget := h hi
  rw [getElem?_eq_getElem hi] at hget
  exact (List.getElem?_eq_some_iff.mp hget).1

theorem piece_pread (src : List β) (off len : ℕ) : Piece src off (File.pread src off len) := by
  intro j hj
  rw [File.length_pread] at hj
  rw [File.getElem?_pread, if_pos (by omega)]

theorem Piece.take (h : Piece src off cells) (k : ℕ) : Piece src off (cells.take k) := by
  intro j hj
  rw [length_take] at hj
  rw [getElem?_take_of_lt (by omega)]
  exact h j (by omega)

theorem Piece.copied (h : Piece src off cells) (h₁ : off ≤ i) (h₂ : i < off + cells.length) :
    Copied src (File.pwrite hole file off cells) i := by
  intro _
  have hj := h (i - off) (by omega)
  rw [Nat.add_sub_cancel' h₁] at hj
  rw [File.getElem?_pwrite_of_mem hole file h₁ h₂]
  exact hj

theorem Copied.pwrite (h : Copied src file i) (hp : Piece src off cells) :
    Copied src (File.pwrite hole file off cells) i := by
  by_cases hin : off ≤ i ∧ i < off + cells.length
  · exact hp.copied hin.1 hin.2
  · intro hi
    have hlt := h.lt_length hi
    rw [File.getElem?_pwrite_of_not_mem hole file (by omega) hlt]
    exact h hi

theorem Copied.ftruncate (h : Copied src file i) (hn : file.length ≤ n) :
    Copied src (File.ftruncate hole file n) i := by
  intro hi
  have hlt := h.lt_length hi
  rw [File.getElem?_ftruncate hole file (Nat.lt_of_lt_of_le hlt hn),
    getElem?_eq_getElem hlt]
  rw [← h hi, getElem?_eq_getElem hlt]
  rfl

theorem blockCopied_of_le (h : src.length ≤ b * g) : BlockCopied src file g b := by
  intro i h₁ _ hi
  omega

theorem blockCopied_pwrite (hole : β) (file : List β) :
    BlockCopied src (File.pwrite hole file (b * g) (File.pread src (b * g) g)) g b := by
  intro i h₁ h₂ hi
  refine (piece_pread src (b * g) g).copied h₁ ?_ hi
  rw [File.length_pread]
  omega

theorem pread_eq {len : ℕ} (hlen : off + len ≤ src.length)
    (h : ∀ i, off ≤ i → i < off + len → Copied src file i) :
    File.pread file off len = File.pread src off len := by
  apply ext_getElem?
  intro j
  rw [File.getElem?_pread, File.getElem?_pread]
  by_cases hj : j < len
  · rw [if_pos hj, if_pos hj]
    exact h (off + j) (Nat.le_add_right off j) (by omega) (by omega)
  · rw [if_neg hj, if_neg hj]

theorem copied_of_blocks {len : ℕ} (hg : 0 < g) (h₁ : off ≤ i) (h₂ : i < off + len)
    (h : ∀ b, off / g ≤ b → b ≤ (off + len - 1) / g → BlockCopied src file g b) :
    Copied src file i := by
  refine h (i / g) (Nat.div_le_div_right h₁) (Nat.div_le_div_right (by omega)) i ?_ ?_
  · exact Nat.div_mul_le_self i g
  · exact Nat.lt_div_mul_add hg

/-! ## Holes -/

/-- Block `b` of granule `g` of a file of `n` cells. -/
def InBlock (g n b i : ℕ) : Prop := b * g ≤ i ∧ i < b * g + g ∧ i < n

/-- The cell at `i` is there, and no hole. -/
def Written (file : List (Option β)) (i : ℕ) : Prop := ∃ x, file[i]? = some (some x)

/-- The first `n` cells are. -/
def WrittenTo (file : List (Option β)) (n : ℕ) : Prop := ∀ i, i < n → Written file i

section

variable {file : List (Option β)} {cells : List β} {off i n : ℕ}

theorem written_pwrite (file : List (Option β)) (h₁ : off ≤ i) (h₂ : i < off + cells.length) :
    Written (File.pwrite none file off (cells.map some)) i := by
  have hlt : i - off < cells.length := by omega
  refine ⟨cells[i - off], ?_⟩
  rw [File.getElem?_pwrite_of_mem none file h₁ (by rw [length_map]; exact h₂),
    getElem?_map, getElem?_eq_getElem hlt]
  rfl

theorem Written.lt_length (h : Written file i) : i < file.length := by
  obtain ⟨x, hx⟩ := h
  exact (List.getElem?_eq_some_iff.mp hx).1

theorem Written.pwrite (h : Written file i) (off : ℕ) (cells : List β) :
    Written (File.pwrite none file off (cells.map some)) i := by
  by_cases hin : off ≤ i ∧ i < off + cells.length
  · exact written_pwrite file hin.1 hin.2
  · have hlt := h.lt_length
    obtain ⟨x, hx⟩ := h
    refine ⟨x, ?_⟩
    rw [File.getElem?_pwrite_of_not_mem none file (by rw [length_map]; omega) hlt]
    exact hx

theorem Written.ftruncate (h : Written file i) (hn : file.length ≤ n) :
    Written (File.ftruncate none file n) i := by
  have hlt := h.lt_length
  obtain ⟨x, hx⟩ := h
  refine ⟨x, ?_⟩
  rw [File.getElem?_ftruncate none file (Nat.lt_of_lt_of_le hlt hn), hx]
  rfl

theorem written_map_some_iff : Written (cells.map some) i ↔ i < cells.length := by
  constructor
  · intro h
    have hlt := h.lt_length
    rw [length_map] at hlt
    exact hlt
  · intro h
    refine ⟨cells[i], ?_⟩
    rw [getElem?_map, getElem?_eq_getElem h]
    rfl

theorem not_written_holes (n i : ℕ) : ¬ Written (File.ftruncate (none : Option β) [] n) i := by
  rintro ⟨x, hx⟩
  rw [File.ftruncate, take_nil, nil_append, getElem?_replicate] at hx
  split at hx <;> cases hx

end

end Sparse

end BrixCache
