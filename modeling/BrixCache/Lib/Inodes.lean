import BrixCache.Lib.Run

/-!
# Files and their names

A file is a number and its cells. A name leads to a file or to none, and a descriptor is the
number itself: what goes through it goes to the file, whatever name leads there by then. As long
as no two names lead to one file, a call changes what is read at its own names only.
-/

namespace BrixCache

open Function

variable {K β : Type}

/-- Files by number, and names for some of them -/
structure Inodes (K β : Type) : Type where
  data : ℕ → List β
  /-- the next file's number -/
  next : ℕ
  path : K → Option ℕ

namespace Inodes

/-- The bytes a name leads to. -/
def read (c : Inodes K β) (k : K) : Option (List β) := (c.path k).map c.data

/-- A file's cells replaced -/
def write (c : Inodes K β) (ino : ℕ) (cells : List β) : Inodes K β :=
  { c with data := update c.data ino cells }

section

variable [DecidableEq K]

/-- A new file at a name -/
def put (c : Inodes K β) (k : K) (cells : List β) : Inodes K β :=
  { data := update c.data c.next cells
    next := c.next + 1
    path := update c.path k (some c.next) }

/-- `open` with `O_CREAT` and `O_TRUNC`: the descriptor, and the files then -/
def openTrunc (c : Inodes K β) (k : K) : ℕ × Inodes K β :=
  match c.path k with
  | some ino => (ino, c.write ino [])
  | none => (c.next, c.put k [])

/-- The name goes, the inode stays. -/
def unlink (c : Inodes K β) (k : K) : Inodes K β :=
  { c with path := update c.path k none }

/-- `rename`, of a name that leads somewhere -/
def rename (c : Inodes K β) (k k' : K) : Inodes K β :=
  { c with path := update (update c.path k' (c.path k)) k none }

end

/-! ## Separate names -/

/-- No two names lead to one file, and no name to a file that is still to come. -/
structure Separate (c : Inodes K β) : Prop where
  inj : ∀ {k k' ino}, c.path k = some ino → c.path k' = some ino → k = k'
  fresh : ∀ {k ino}, c.path k = some ino → ino < c.next

variable {c : Inodes K β}

theorem Separate.write (h : c.Separate) (ino : ℕ) (cells : List β) :
    (c.write ino cells).Separate :=
  ⟨h.inj, h.fresh⟩

theorem read_write_of_ne {k : K} {ino : ℕ} (h : c.path k ≠ some ino)
    (cells : List β) : (c.write ino cells).read k = c.read k := by
  simp only [read, Inodes.write]
  cases hk : c.path k with
  | none => rfl
  | some ino' =>
    have hne : ino' ≠ ino := by
      rintro rfl
      exact h hk
    simp [update_of_ne hne]

theorem read_write_self {k : K} {ino : ℕ} (h : c.path k = some ino)
    (cells : List β) : (c.write ino cells).read k = some cells := by
  simp [read, Inodes.write, h]

section

variable [DecidableEq K]

variable {c : Inodes K β} {k k' k₁ : K}

theorem Separate.put (h : c.Separate) (k : K) (cells : List β) :
    (c.put k cells).Separate where
  inj {k₁ k₂ ino} h₁ h₂ := by
    rcases of_update_eq_some h₁ with ⟨rfl, he₁⟩ | ⟨-, he₁⟩ <;>
      rcases of_update_eq_some h₂ with ⟨rfl, he₂⟩ | ⟨-, he₂⟩
    · rfl
    · cases he₁
      exact absurd (h.fresh he₂) (Nat.lt_irrefl _)
    · cases he₂
      exact absurd (h.fresh he₁) (Nat.lt_irrefl _)
    · exact h.inj he₁ he₂
  fresh {k₁ ino} h₁ := by
    rcases of_update_eq_some h₁ with ⟨-, he⟩ | ⟨-, he⟩
    · cases he
      exact Nat.lt_succ_self _
    · exact Nat.lt_succ_of_lt (h.fresh he)

theorem path_put_of_ne (hne : k' ≠ k) (c : Inodes K β) (cells : List β) :
    (c.put k cells).path k' = c.path k' :=
  update_of_ne hne _ _

theorem read_put_of_ne (h : c.Separate) (hne : k' ≠ k)
    (cells : List β) : (c.put k cells).read k' = c.read k' := by
  simp only [read, path_put_of_ne hne]
  cases hk : c.path k' with
  | none => rfl
  | some ino => simp [Inodes.put, update_of_ne (Nat.ne_of_lt (h.fresh hk))]

theorem Separate.unlink (h : c.Separate) (k : K) : (c.unlink k).Separate where
  inj {k₁ k₂ ino} h₁ h₂ := by
    rcases of_update_eq_some h₁ with ⟨-, he₁⟩ | ⟨-, he₁⟩
    · cases he₁
    · rcases of_update_eq_some h₂ with ⟨-, he₂⟩ | ⟨-, he₂⟩
      · cases he₂
      · exact h.inj he₁ he₂
  fresh {k₁ ino} h₁ := by
    rcases of_update_eq_some h₁ with ⟨-, he₁⟩ | ⟨-, he₁⟩
    · cases he₁
    · exact h.fresh he₁

theorem path_unlink_of_ne (hne : k' ≠ k) (c : Inodes K β) :
    (c.unlink k).path k' = c.path k' :=
  update_of_ne hne _ _

theorem read_unlink_of_ne (hne : k' ≠ k) (c : Inodes K β) :
    (c.unlink k).read k' = c.read k' := by
  simp only [read, path_unlink_of_ne hne]
  rfl

theorem path_rename {ino : ℕ} (h : (c.rename k k').path k₁ = some ino) :
    (k₁ = k' ∧ c.path k = some ino) ∨ (k₁ ≠ k ∧ k₁ ≠ k' ∧ c.path k₁ = some ino) := by
  rcases of_update_eq_some h with ⟨-, he⟩ | ⟨hne, he⟩
  · cases he
  · rcases of_update_eq_some he with ⟨hk₁, he'⟩ | ⟨hne', he'⟩
    · exact .inl ⟨hk₁, he'⟩
    · exact .inr ⟨hne, hne', he'⟩

theorem Separate.rename (h : c.Separate) (k k' : K) :
    (c.rename k k').Separate where
  inj {k₁ k₂ ino} h₁ h₂ := by
    rcases path_rename h₁ with ⟨rfl, he₁⟩ | ⟨hne₁, -, he₁⟩ <;>
      rcases path_rename h₂ with ⟨rfl, he₂⟩ | ⟨hne₂, -, he₂⟩
    · rfl
    · exact absurd (h.inj he₂ he₁) hne₂
    · exact absurd (h.inj he₁ he₂) hne₁
    · exact h.inj he₁ he₂
  fresh {k₁ ino} h₁ := by
    rcases path_rename h₁ with ⟨-, he⟩ | ⟨-, -, he⟩
    · exact h.fresh he
    · exact h.fresh he

theorem path_rename_of_ne (hne : k₁ ≠ k) (hne' : k₁ ≠ k') (c : Inodes K β) :
    (c.rename k k').path k₁ = c.path k₁ := by
  simp [Inodes.rename, update_of_ne hne, update_of_ne hne']

theorem read_rename_of_ne (hne : k₁ ≠ k) (hne' : k₁ ≠ k') (c : Inodes K β) :
    (c.rename k k').read k₁ = c.read k₁ := by
  simp only [read, path_rename_of_ne hne hne']
  rfl

theorem read_rename_self (hne : k' ≠ k) (c : Inodes K β) :
    (c.rename k k').read k' = c.read k := by
  simp [read, Inodes.rename, update_of_ne hne]

/-! ## Truncating opens -/

/-- What a truncating open gives: the file its name leads to, now empty, and every other name as
it was. -/
structure Opened (c : Inodes K β) (k : K) (fd : ℕ) (c' : Inodes K β) : Prop where
  path : c'.path k = some fd
  empty : c'.data fd = []
  others : ∀ k', k' ≠ k → c'.path k' = c.path k'
  data : ∀ ino, ino ≠ fd → c'.data ino = c.data ino
  next : c.next ≤ c'.next
  /-- the file the name led to, or a new one -/
  fd : c.path k = some fd ∨ fd = c.next

theorem openTrunc_opened (c : Inodes K β) (k : K) :
    c.Opened k (c.openTrunc k).1 (c.openTrunc k).2 := by
  unfold openTrunc
  split
  · next ino hk =>
    exact ⟨hk, by simp [Inodes.write], fun _ _ => rfl, fun _ h => update_of_ne h _ _,
      Nat.le_refl _, .inl hk⟩
  · exact ⟨by simp [Inodes.put], by simp [Inodes.put], fun _ h => update_of_ne h _ _,
      fun _ h => update_of_ne h _ _, Nat.le_succ _, .inr rfl⟩

theorem Separate.openTrunc (h : c.Separate) (k : K) :
    (c.openTrunc k).2.Separate := by
  unfold Inodes.openTrunc
  split
  · exact h.write _ _
  · exact h.put _ _

theorem fd_lt_next (h : c.Separate) (k : K) :
    (c.openTrunc k).1 < (c.openTrunc k).2.next :=
  (h.openTrunc k).fresh (c.openTrunc_opened k).path

end

variable {c c' : Inodes K β} {k : K} {fd : ℕ}

theorem Opened.ne_fd (ho : c.Opened k fd c') (h : c.Separate) {k' : K} (hne : k' ≠ k) :
    c.path k' ≠ some fd := by
  intro hk'
  rcases ho.fd with hk | rfl
  · exact hne (h.inj hk' hk)
  · exact absurd (h.fresh hk') (Nat.lt_irrefl _)

theorem Opened.read_of_ne (ho : c.Opened k fd c') (h : c.Separate) {k' : K} (hne : k' ≠ k) :
    c'.read k' = c.read k' := by
  simp only [read, ho.others k' hne]
  cases hk' : c.path k' with
  | none => rfl
  | some ino =>
    have hino : ino ≠ fd := by
      rintro rfl
      exact ho.ne_fd h hne hk'
    simp [ho.data ino hino]

end Inodes

end BrixCache
