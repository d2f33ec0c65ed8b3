import BrixCache.Core.Ascii
import BrixCache.Lib.Posix
import BrixCache.Lib.Overlay

/-!
# Flattening image layers

`shared/oci/flatten.c` and `flatten_entries.c`: the entries of a layer archive are applied in place
to an upper directory, in which a file `.brix.wh.x` is the marker of a deleted `x` and a file
`.brix.opq` that of an opaque directory. A path of an entry is taken apart before any call, and the
directories on the way are opened one by one, none of them through a symbolic link.

A computation is given with the places that its calls may change (`Fl`), so that a run that fails
has them too. Times, owners, modes and attributes are set, but not part of the tree, and of the
counters only the bytes are kept, which a budget bounds.
-/

namespace BrixCache

namespace Oci

/-- What a name that is no directory stands for. -/
inductive FlLeaf : Type where
  | file (body : Bytes) : FlLeaf
  | link (target : Bytes) : FlLeaf
  deriving DecidableEq

/-- An upper directory, or a tree that it lies over. -/
abbrev FlTree : Type := NameTree Bytes FlLeaf

abbrev FlPath : Type := List Bytes

/-- An object of the file system; where it is removed, with all that is below it. -/
inductive Place : Type where
  | upper (p : FlPath) : Place
  | outside : Place
  deriving DecidableEq

/-- The place that a name has in a call on the directory at `p`. A name with a slash is a path of
its own, and could lead anywhere. -/
def flAt (p : FlPath) (name : Bytes) : Place :=
  if slash ∈ name then .outside
  else if name = ascii ".." then (if p = [] then .outside else .upper p.dropLast)
  else if name = [] ∨ name = ascii "." then .upper p
  else .upper (p ++ [name])

/-! ## Entries -/

/-- `brix_tar_type_t`; the last three types are handled alike. -/
inductive TarType : Type where
  | reg : TarType
  | dir : TarType
  | symlink : TarType
  | hardlink : TarType
  | special : TarType
  deriving DecidableEq

/-- `brix_tar_entry_t`, with its body in the pieces that `brix_tar_read` gives. -/
structure TarEntry : Type where
  path : Bytes
  linkname : Bytes
  type : TarType
  body : List Bytes

/-- What takes the place of a `%s`. -/
inductive FlArg : Type where
  | text (s : Bytes) : FlArg
  /-- `strerror` -/
  | errno (e : Errno) : FlArg
  /-- `brix_tar_error` -/
  | reader : FlArg
  deriving DecidableEq

/-- `fl_fail`: a message with its arguments. -/
structure FlError : Type where
  fmt : String
  args : List FlArg
  deriving DecidableEq

/-- The calls of one entry that can fail. -/
inductive FlOp : Type where
  | dup : FlOp
  | openDir : FlOp
  | mkdir : FlOp
  /-- the descent to the target of a hard link -/
  | dupTarget : FlOp
  | openTarget : FlOp
  | mkdirTarget : FlOp
  | openTemp : FlOp
  /-- the piece of a body -/
  | read (k : ℕ) : FlOp
  | write (k : ℕ) : FlOp
  | chmod : FlOp
  | rename : FlOp
  | stat : FlOp
  | mkdirEntry : FlOp
  | openEntry : FlOp
  | symlink : FlOp
  | link : FlOp
  /-- the copy of a file that cannot be linked -/
  | copy : FlOp
  /-- the enumeration of an opaque directory -/
  | clear : FlOp
  | openMark : FlOp
  /-- `brix_tar_skip` -/
  | skip : FlOp
  deriving DecidableEq

/-- How the calls for an entry go. -/
structure FlCalls : Type where
  /-- why a call on a path fails -/
  fails : FlOp → FlPath → Option Errno
  /-- what `fl_rm` says when it fails on a path -/
  rm : FlPath → Option FlError
  /-- what `fl_xattrs` says when it fails -/
  xattrs : Option FlError
  /-- where the text of a symbolic link in a directory leads, if there is something -/
  follow : FlPath → Bytes → Option Place

/-- A message about a call that fails. -/
def FlCalls.plain (calls : FlCalls) (op : FlOp) (p : FlPath) (fmt : String) (args : List FlArg) :
    Option FlError := (calls.fails op p).map fun _ => ⟨fmt, args⟩

/-- A message with the reason at its end. -/
def FlCalls.error (calls : FlCalls) (op : FlOp) (p : FlPath) (fmt : String) (args : List FlArg) :
    Option FlError := (calls.fails op p).map fun e => ⟨fmt, args ++ [.errno e]⟩

/-- The options of `brix_flatten_opts_t` that decide about entries. -/
structure FlOpts : Type where
  maxTotalBytes : ℤ
  maxEntries : ℤ
  strict : Bool

/-- The upper directory and the bytes written so far. -/
structure FlState : Type where
  tree : FlTree
  bytes : ℤ

/-! ## Computations -/

/-- A computation, with the places it may have changed. -/
structure Fl (α : Type) : Type where
  touched : List Place
  value : Except FlError α

namespace Fl

variable {α β : Type}

protected def pure (a : α) : Fl α := ⟨[], .ok a⟩

protected def bind (x : Fl α) (f : α → Fl β) : Fl β :=
  match x.value with
  | .ok a => ⟨x.touched ++ (f a).touched, (f a).value⟩
  | .error e => ⟨x.touched, .error e⟩

instance : Monad Fl where
  pure := Fl.pure
  bind := Fl.bind

/-- Nothing is changed. -/
def ofExcept (x : Except FlError α) : Fl α := ⟨[], x⟩

def fail (fmt : String) (args : List FlArg) : Fl α := ofExcept (.error ⟨fmt, args⟩)

/-- A call that cannot fail the entry. -/
def touch (pl : Place) : Fl Unit := ⟨[pl], .ok ()⟩

def check : Option FlError → Fl Unit
  | none => ofExcept (.ok ())
  | some e => ofExcept (.error e)

/-- A call that may change a place, and what it says when it fails. -/
def call (pl : Place) (e : Option FlError) : Fl Unit := ⟨[pl], (check e).value⟩

theorem bind_eq_ok {x : Fl α} {f : α → Fl β} {b : β} (h : (x >>= f).value = .ok b) :
    ∃ a, x.value = .ok a ∧ (f a).value = .ok b := by
  change (Fl.bind x f).value = .ok b at h
  unfold Fl.bind at h
  rcases hx : x.value with e | a <;> rw [hx] at h
  · cases h
  · exact ⟨a, rfl, h⟩

theorem mem_touched_bind {x : Fl α} {f : α → Fl β} {pl : Place} (h : pl ∈ (x >>= f).touched) :
    pl ∈ x.touched ∨ ∃ a, x.value = .ok a ∧ pl ∈ (f a).touched := by
  change pl ∈ (Fl.bind x f).touched at h
  unfold Fl.bind at h
  rcases hx : x.value with e | a <;> rw [hx] at h
  · exact .inl h
  · rcases List.mem_append.mp h with h | h
    · exact .inl h
    · exact .inr ⟨a, rfl, h⟩

end Fl

/-! ## Names -/

/-- `FL_WH_PREFIX` -/
def flWhPre : Bytes := ascii ".brix.wh."

def flOpqName : Bytes := ascii ".brix.opq"

/-- `FL_TMP_PREFIX` -/
def flTmpPre : Bytes := ascii ".brix.tmp."

def flTmpName : Bytes := ascii ".brix.tmp.flatten"

/-- `OCI_WH_PREFIX` -/
def ociWhPre : Bytes := ascii ".wh."

def ociOpqName : Bytes := ascii ".wh..wh..opq"

def stargzIsMeta (name : Bytes) : Bool :=
  name = ascii "stargz.index.json" || name = ascii ".prefetch.landmark" ||
    name = ascii ".no.prefetch.landmark"

/-- Names the flattening keeps for itself. -/
def flReserved (name : Bytes) : Bool :=
  flWhPre.isPrefixOf name || flTmpPre.isPrefixOf name || name = flOpqName

/-- `strtok_r` with a slash, until it gives nothing: `tok` is what a token has so far. -/
def strtok : Bytes → Bytes → List Bytes
  | tok, [] => if tok = [] then [] else [tok]
  | tok, c :: s =>
    if c = slash then (if tok = [] then strtok [] s else tok :: strtok [] s)
    else strtok (tok ++ [c]) s

def flMaxComps : ℕ := 2048

/-- The loop of `fl_components`, with `n` components found. -/
def flComponentsLoop (path : Bytes) : ℕ → List Bytes → Except FlError FlPath
  | _, [] => .ok []
  | n, tok :: toks =>
    if tok = ascii "." then flComponentsLoop path n toks
    else if tok = ascii ".." then .error ⟨"refusing '..' in layer path %s%s", [.text path]⟩
    else if 255 < tok.length then .error ⟨"component over 255 bytes in %s%s", [.text path]⟩
    else if flReserved tok then
      .error ⟨"layer smuggles reserved marker name '%s' in %s", [.text tok, .text path]⟩
    else if flMaxComps ≤ n then
      .error ⟨"more than %s path components in %s", [.text (ascii "2048"), .text path]⟩
    else (flComponentsLoop path (n + 1) toks).map (tok :: ·)

/-- The components of an entry's path. -/
def flComponents (path : Bytes) : Except FlError FlPath :=
  if 4096 ≤ path.length then .error ⟨"path too long: %.100s%s", [.text path]⟩
  else flComponentsLoop path 0 (strtok [] path)

/-- The last component of a path apart from the others. -/
def flSplit (comps : FlPath) : Option (FlPath × Bytes) :=
  comps.getLast?.map fun name => (comps.dropLast, name)

/-! ## Directories -/

open NameTree

/-- `fl_descend` in the directory at `here`, of which `t` is the tree. -/
def flDescend (calls : FlCalls) (opn mk : FlOp) : FlPath → FlPath → FlTree → Fl FlTree
  | _, [], t => pure t
  | here, x :: comps, t =>
    match t.child x with
    | leaf _ =>
      Fl.fail "containment: '%s' is not a real directory (symlink escape refused)" [.text x]
    | absent => do
      Fl.call (flAt here x)
        (calls.error mk (here ++ [x]) "cannot create parent '%s': %s" [.text x])
      Fl.check (calls.error opn (here ++ [x]) "cannot descend into '%s': %s" [.text x])
      let below ← flDescend calls opn mk (here ++ [x]) comps emptyDir
      pure (setChild x below t)
    | dir c => do
      Fl.check (calls.error opn (here ++ [x]) "cannot descend into '%s': %s" [.text x])
      let below ← flDescend calls opn mk (here ++ [x]) comps (dir c)
      pure (setChild x below t)

/-- `fl_rm`: `unlinkat`, or the removal of every entry and `rmdir`. A directory gives its entries
without "." and "..", so that what is removed is at the name or below it. -/
def flRm (calls : FlCalls) (p : FlPath) (name : Bytes) (t : FlTree) : Fl FlTree := do
  Fl.call (flAt p name) (calls.rm (p ++ [name]))
  pure (modify (setChild name absent) p t)

/-! ## Files, directories and links -/

/-- The loop of `fl_reg` over the body, with the piece `k` next: the bytes written in all, and what
is in the file. -/
def flBody (o : FlOpts) (calls : FlCalls) (p : FlPath) (name : Bytes) :
    ℕ → List Bytes → ℤ → Except FlError (ℤ × Bytes)
  | k, [], bytes =>
    match calls.fails (.read k) p with
    | none => .ok (bytes, [])
    | some _ => .error ⟨"read of '%s' failed: %s", [.text name, .reader]⟩
  | k, piece :: body, bytes =>
    match calls.fails (.read k) p with
    | some _ => .error ⟨"read of '%s' failed: %s", [.text name, .reader]⟩
    | none =>
      if 0 < o.maxTotalBytes ∧ o.maxTotalBytes < bytes + piece.length then
        .error ⟨"byte budget exhausted at '%s'%s", [.text name]⟩
      else
        match calls.fails (.write k) p with
        | some e => .error ⟨"write of '%s' failed: %s", [.text name, .errno e]⟩
        | none =>
          (flBody o calls p name (k + 1) body (bytes + piece.length)).map fun r =>
            (r.1, piece ++ r.2)

def flMeta (p : FlPath) (name : Bytes) : Fl Unit := Fl.touch (flAt p name)

/-- A regular file, written aside and moved in. -/
def flReg (o : FlOpts) (calls : FlCalls) (p : FlPath) (name : Bytes) (e : TarEntry)
    (s : FlState) : Fl FlState := do
  let t ← flRm calls p name s.tree
  Fl.call (flAt p flTmpName)
    (calls.error .openTemp p "cannot create temp for '%s': %s" [.text name])
  let r ← Fl.ofExcept (flBody o calls p name 0 e.body s.bytes)
  Fl.check (calls.plain .chmod p "chmod '%s' failed%s" [.text name])
  Fl.check calls.xattrs
  Fl.call (flAt p name) (calls.error .rename p "rename into '%s' failed: %s" [.text name])
  flMeta p name
  pure ⟨modify (setChild name (leaf (.file r.2))) p t, r.1⟩

/-- The removal in `fl_dir` of what `fstatat` finds, if that is no directory. -/
def flDirClear (calls : FlCalls) (p : FlPath) (name : Bytes) (t : FlTree) : Fl FlTree :=
  match calls.fails .stat p, (t.get p).child name with
  | none, leaf _ => flRm calls p name t
  | _, _ => pure t

/-- `mkdirat` in `fl_dir`, for which `EEXIST` is no failure. -/
def flMkdir (calls : FlCalls) (p : FlPath) (name : Bytes) (t : FlTree) : Fl FlTree := do
  Fl.call (flAt p name) (calls.error .mkdirEntry p "mkdir '%s' failed: %s" [.text name])
  match (t.get p).child name with
  | absent => pure (modify (setChild name emptyDir) p t)
  | _ => pure t

/-- `openat` in `fl_dir`, which opens directories only. -/
def flOpenEntry (calls : FlCalls) (p : FlPath) (name : Bytes) (t : FlTree) : Fl Unit :=
  match (t.get p).child name with
  | dir _ => Fl.check (calls.error .openEntry p "cannot open new dir '%s': %s" [.text name])
  | _ => Fl.fail "cannot open new dir '%s': %s" [.text name, .errno .enotdir]

/-- Clear what is not a directory, then make one. -/
def flDir (calls : FlCalls) (p : FlPath) (name : Bytes) (s : FlState) : Fl FlState := do
  let t ← flDirClear calls p name s.tree
  let t ← flMkdir calls p name t
  flOpenEntry calls p name t
  Fl.call (flAt p name) (calls.plain .chmod p "chmod dir '%s' failed%s" [.text name])
  Fl.check calls.xattrs
  flMeta p name
  pure ⟨t, s.bytes⟩

/-- The symbolic link of `fl_materialize`. -/
def flSymlink (calls : FlCalls) (p : FlPath) (name : Bytes) (e : TarEntry) (s : FlState) :
    Fl FlState := do
  let t ← flRm calls p name s.tree
  Fl.call (flAt p name) (calls.error .symlink p "symlink '%s' failed: %s" [.text name])
  flMeta p name
  pure ⟨modify (setChild name (leaf (.link e.linkname))) p t, s.bytes⟩

/-- The error of `fl_hardlink` when there is neither a link nor a copy. -/
def flUnlinkable {α : Type} (e : TarEntry) : Fl α :=
  Fl.fail "hardlink '%s' → '%s': target unlinkable and copy failed"
    [.text e.path, .text e.linkname]

/-- `fl_hardlink_copy`: the bytes copied. The copy of a symbolic link is refused, and that of a
directory removed again. -/
def flHardlinkCopy (calls : FlCalls) (p : FlPath) (name : Bytes) (e : TarEntry)
    (target : FlTree) : Fl ℤ := do
  Fl.touch (flAt p name)
  match target, calls.fails .copy p with
  | leaf (.file body), none => pure body.length
  | _, _ => flUnlinkable e

/-- `linkat`, or the copy: the bytes copied. Directories cannot be linked. -/
def flLink (calls : FlCalls) (tp : FlPath) (tname : Bytes) (p : FlPath) (name : Bytes)
    (e : TarEntry) (target : FlTree) : Fl ℤ := do
  Fl.touch (flAt tp tname)
  match target, calls.fails .link p with
  | leaf _, none => do
    Fl.touch (flAt p name)
    pure 0
  | _, _ => flHardlinkCopy calls p name e target

/-- `fchmodat` with the flags 0: it changes what a symbolic link leads to. -/
def flFchmodat (calls : FlCalls) (p : FlPath) (name : Bytes) : FlTree → Fl Unit
  | leaf (.link text) =>
    match calls.follow p text with
    | some pl => Fl.touch pl
    | none => pure ()
  | _ => Fl.touch (flAt p name)

/-- `fl_hardlink` from where the components of the target are known. -/
def flHardlinkTo (calls : FlCalls) (p : FlPath) (name : Bytes) (e : TarEntry) (s : FlState)
    (tp : FlPath) (tname : Bytes) : Fl FlState := do
  Fl.check (calls.plain .dupTarget [] "dup(upper) failed%s%s" [])
  let t ← flDescend calls .openTarget .mkdirTarget [] tp s.tree
  let t ← flRm calls p name t
  let target := (t.get tp).child tname
  let copied ← flLink calls tp tname p name e target
  flFchmodat calls p name target
  flMeta p name
  pure ⟨modify (setChild name target) p t, s.bytes + copied⟩

/-- A hard link to an earlier entry. -/
def flHardlink (calls : FlCalls) (p : FlPath) (name : Bytes) (e : TarEntry) (s : FlState) :
    Fl FlState := do
  let comps ← Fl.ofExcept (flComponents e.linkname)
  match flSplit comps with
  | none => Fl.fail "hardlink '%s' targets the root%s" [.text e.path]
  | some (tp, tname) => flHardlinkTo calls p name e s tp tname

/-- `brix_tar_skip` -/
def flSkip (calls : FlCalls) (s : FlState) : Fl FlState := do
  Fl.check (calls.plain .skip [] "" [])
  pure s

def flMaterialize (o : FlOpts) (calls : FlCalls) (p : FlPath) (name : Bytes) (e : TarEntry)
    (s : FlState) : Fl FlState :=
  match e.type with
  | .reg => flReg o calls p name e s
  | .dir => flDir calls p name s
  | .symlink => flSymlink calls p name e s
  | .hardlink => flHardlink calls p name e s
  | .special =>
    if o.strict then Fl.fail "special file '%s' refused under --strict%s" [.text e.path]
    else flSkip calls s

/-! ## Markers -/

def flMarker : FlTree := leaf (.file [])

/-- A whiteout hides what lower layers have. -/
def flWhiteout (calls : FlCalls) (p : FlPath) (target : Bytes) (s : FlState) : Fl FlState :=
  if target = [] ∨ target = ascii "." ∨ target = ascii ".." ∨ flReserved target then
    Fl.fail "refusing whiteout of '%s'%s" [.text target]
  else if 255 < (flWhPre ++ target).length then
    Fl.fail "whiteout marker name too long for '%s'%s" [.text target]
  else do
    let t ← flRm calls p target s.tree
    Fl.call (flAt p (flWhPre ++ target))
      (calls.error .openMark p "cannot drop whiteout marker '%s': %s" [.text (flWhPre ++ target)])
    pure ⟨modify (setChild (flWhPre ++ target) flMarker) p t, s.bytes⟩

def flOpaqueDir : FlTree := setChild flOpqName flMarker emptyDir

/-- `fl_opaque`: what is removed is in the directory. -/
def flOpaque (calls : FlCalls) (p : FlPath) (s : FlState) : Fl FlState := do
  Fl.check (calls.plain .clear p "cannot enumerate opaque dir%s%s" [])
  Fl.call (.upper p) (calls.rm p)
  Fl.call (flAt p flOpqName) (calls.error .openMark p "cannot drop opaque marker: %s%s" [])
  pure ⟨modify (fun _ => flOpaqueDir) p s.tree, s.bytes⟩

/-! ## Entries and layers -/

def flNamedEntry (o : FlOpts) (calls : FlCalls) (p : FlPath) (name : Bytes) (e : TarEntry)
    (s : FlState) : Fl FlState :=
  if name = ociOpqName then do
    let s ← flOpaque calls p s
    flSkip calls s
  else if ociWhPre.isPrefixOf name then do
    let s ← flWhiteout calls p (name.drop ociWhPre.length) s
    flSkip calls s
  else flMaterialize o calls p name e s

/-- `fl_entry` from where the components are known. -/
def flEntryAt (o : FlOpts) (calls : FlCalls) (e : TarEntry) (s : FlState) (p : FlPath)
    (name : Bytes) : Fl FlState :=
  if p = [] ∧ stargzIsMeta name then flSkip calls s
  else do
    Fl.check (calls.plain .dup [] "dup(upper) failed%s%s" [])
    let t ← flDescend calls .openDir .mkdir [] p s.tree
    flNamedEntry o calls p name e ⟨t, s.bytes⟩

/-- Apply one entry of a layer. -/
def flEntry (o : FlOpts) (calls : FlCalls) (e : TarEntry) (s : FlState) : Fl FlState := do
  let comps ← Fl.ofExcept (flComponents e.path)
  match flSplit comps with
  | none => flSkip calls s
  | some (p, name) => flEntryAt o calls e s p name

/-- A layer as it is read -/
structure FlLayer : Type where
  /-- why the upper directory or the archive cannot be opened -/
  opened : Option FlError
  entries : List (TarEntry × FlCalls)
  /-- why there is no entry more, if not for the end of the archive -/
  ending : Option FlError
  digest : Option FlError

def flDefaultEntries : ℤ := 1024 * 1024

def FlOpts.entries (o : FlOpts) : ℤ := if 0 < o.maxEntries then o.maxEntries else flDefaultEntries

/-- The loop of `brix_flatten_layer`, with `n` entries done. -/
def flEntries (o : FlOpts) : ℤ → List (TarEntry × FlCalls) → FlState → Fl FlState
  | _, [], s => pure s
  | n, (e, calls) :: rest, s =>
    if o.entries < n + 1 then Fl.fail "entry budget (%lld) exhausted" []
    else do
      let s ← flEntry o calls e s
      flEntries o (n + 1) rest s

/-- Apply one layer. -/
def flattenLayer (o : FlOpts) (l : FlLayer) (s : FlState) : Fl FlState := do
  Fl.check l.opened
  let s ← flEntries o 0 l.entries s
  Fl.check l.ending
  Fl.check l.digest
  pure s

/-- The layers of an image, in the order of its manifest, up to one that fails. -/
def flattenLayers (o : FlOpts) : List FlLayer → FlState → Fl FlState
  | [], s => pure s
  | l :: ls, s => do
    let s ← flattenLayer o l s
    flattenLayers o ls s

/-- An image, into a new upper directory. -/
def flattenImage (o : FlOpts) (ls : List FlLayer) : Fl FlState := flattenLayers o ls ⟨emptyDir, 0⟩

end Oci

end BrixCache

/-!
## Image layers, one after another

A layer has a tree of its own over the tree of the layers below, and a whiteout or an opaque marker
takes names away from that one only. A file or link takes away what is below it too. An upper
directory with markers stands for a tree over each base (`denote`).
-/

namespace BrixCache

namespace Oci

open NameTree

/-! ### Markers -/

/-- The markers of an upper directory. -/
def flMarks : Marks Bytes FlLeaf where
  isMark x := flWhPre.isPrefixOf x || decide (x = flOpqName)
  hides c x := !(c flOpqName).isAbsent || !(c (flWhPre ++ x)).isAbsent
  hides_update c x v hx := by
    funext y
    obtain ⟨hwh, hopq⟩ : flWhPre.isPrefixOf x = false ∧ x ≠ flOpqName := by
      simpa using hx
    have hy : flWhPre ++ y ≠ x := by
      rintro rfl
      have hmark : flWhPre.isPrefixOf (flWhPre ++ y) = true := by simp
      rw [hmark] at hwh
      cases hwh
    simp [Function.update_of_ne hy, Function.update_of_ne (Ne.symm hopq)]
  hides_absent _ := rfl

theorem isMark_whiteout (x : Bytes) : flMarks.isMark (flWhPre ++ x) = true := by
  simp [flMarks]

theorem isMark_opq : flMarks.isMark flOpqName = true := by
  simp [flMarks]

/-- The tree that an upper directory stands for over a base. -/
def denote (U B : FlTree) : FlTree := overlay flMarks U B

/-- Does nothing of a base show at a path? -/
def covered : FlTree → FlPath → Bool
  | _, [] => false
  | absent, _ => false
  | leaf _, _ :: _ => true
  | dir c, x :: p => flMarks.hides c x || covered (c x) p

/-! ### Changes -/

/-- What an entry asks for: `p` is a directory, and `x` a name in it. -/
inductive LayerChange : Type where
  | nothing : LayerChange
  | opq (p : FlPath) : LayerChange
  | whiteout (p : FlPath) (x : Bytes) : LayerChange
  | put (p : FlPath) (x : Bytes) (a : FlLeaf) : LayerChange
  | mkdir (p : FlPath) (x : Bytes) : LayerChange
  | link (p : FlPath) (x : Bytes) (target : FlPath) : LayerChange
  | parents (p : FlPath) : LayerChange

def tarNames (path : Bytes) : FlPath := (strtok [] path).filter (· ≠ ascii ".")

/-- What an entry puts for a name. -/
def contentChange (e : TarEntry) (p : FlPath) (x : Bytes) : LayerChange :=
  match e.type with
  | .reg => .put p x (.file e.body.flatten)
  | .dir => .mkdir p x
  | .symlink => .put p x (.link e.linkname)
  | .hardlink => .link p x (tarNames e.linkname)
  | .special => .parents p

/-- A name may be that of a whiteout or of an opaque marker. -/
def namedChange (e : TarEntry) (p : FlPath) (x : Bytes) : LayerChange :=
  if x = ociOpqName then .opq p
  else if ociWhPre.isPrefixOf x then .whiteout p (x.drop ociWhPre.length)
  else contentChange e p x

/-- What an entry says about the tree. -/
def layerChange (e : TarEntry) : LayerChange :=
  match flSplit (tarNames e.path) with
  | none => .nothing
  | some (p, x) => if p = [] ∧ stargzIsMeta x then .nothing else namedChange e p x

/-- A layer that is applied: its own tree, and what it has left of the tree below. -/
structure Layering : Type where
  own : FlTree
  lower : FlTree

def Layering.view (s : Layering) : FlTree := s.own.union s.lower

/-- A node for a name, in a directory that is made if need be. -/
def layerPut (p : FlPath) (x : Bytes) (v own : FlTree) : FlTree :=
  modify (setChild x v) p (force p own)

/-- What a change makes of the layer's own tree, where `view` is what is seen. -/
def layerOwn (view : FlTree) (own : FlTree) : LayerChange → FlTree
  | .nothing => own
  | .opq p => force p own
  | .whiteout p _ => force p own
  | .put p x a => layerPut p x (leaf a) own
  | .mkdir p x => force (p ++ [x]) own
  | .link p x target => layerPut p x (view.get target) own
  | .parents p => force p own

def layerLower (own lower : FlTree) : LayerChange → FlTree
  | .nothing => lower
  | .opq p => modify (fun _ => absent) p lower
  | .whiteout p x => modify (setChild x absent) p lower
  | .put p x _ => modify (setChild x absent) p lower
  | .mkdir p x =>
    match own.get (p ++ [x]) with
    -- the layer has put something over what is below
    | leaf _ => modify (setChild x absent) p lower
    | _ => lower
  | .link p x _ => modify (setChild x absent) p lower
  | .parents _ => lower

/-- A hard link needs a file or link to share. -/
def linkable (view : FlTree) : LayerChange → Bool
  | .link _ _ target => !(view.get target).isAbsent && !(view.get target).isDir
  | _ => true

/-- An entry, under the rules for image layers. -/
def layerEntry (s : Layering) (e : TarEntry) : Option Layering :=
  if linkable s.view (layerChange e) then
    some ⟨layerOwn s.view s.own (layerChange e), layerLower s.own s.lower (layerChange e)⟩
  else none

/-- A layer over the tree below it. -/
def applyLayer (lower : FlTree) (entries : List TarEntry) : Option FlTree :=
  (entries.foldlM layerEntry ⟨absent, lower⟩).map Layering.view

/-- Layers over a base, one after another. -/
def applyLayers (base : FlTree) (layers : List (List TarEntry)) : Option FlTree :=
  layers.foldlM applyLayer base

end Oci

end BrixCache
