import BrixCache.Core.Ascii
import Mathlib.Data.Nat.Notation

/-!
# The server registry

`net/manager/registry.c`: the table in shared memory of the data servers a manager may send a client
to. A server is known by its host and port. Every call runs under the registry's lock, at the
time `ngx_current_msec`.
-/

namespace BrixCache

/-- `brix_srv_entry_t`: what a slot in use holds. -/
structure SrvEntry : Type where
  host : Bytes
  port : UInt16
  /-- export paths, between colons -/
  paths : Bytes
  freeMb : UInt32
  utilPct : UInt32
  lastSeen : UInt64
  /-- 0: not blacklisted -/
  blacklistedUntil : UInt64
  errorCount : UInt32
  role : Bytes
  /-- the free-space floor from the login, 0: none -/
  minFreeMb : UInt32
  spaceBlocked : Bool
  /-- cpu, net/io, run queue, mem, pag -/
  load5 : Vector UInt8 5
  loadPct : UInt32
  hcFailCount : UInt32
  hcInProgress : Bool
  deriving DecidableEq

/-- A slot filled with zeros -/
def SrvEntry.zero : SrvEntry where
  host := []
  port := 0
  paths := []
  freeMb := 0
  utilPct := 0
  lastSeen := 0
  blacklistedUntil := 0
  errorCount := 0
  role := []
  minFreeMb := 0
  spaceBlocked := false
  load5 := Vector.replicate 5 0
  loadPct := 0
  hcFailCount := 0
  hcInProgress := false

/-- The slots of `brix_srv_table_t`; one that is not in use is all zeros. -/
abbrev SrvTable : Type := List (Option SrvEntry)

def brixSrvMaxPaths : ℕ := 1024

/-- `ngx_cpystrn` into a buffer -/
def ngxCpystrn (src : Bytes) (n : ℕ) : Bytes := src.take (n - 1)

/-- The bytes of a host name or address: letters, digits, `.`, `:` and `-` -/
def isHostByte (ch : UInt8) : Bool :=
  (65 ≤ ch ∧ ch ≤ 90) ∨ (97 ≤ ch ∧ ch ≤ 122) ∨ (48 ≤ ch ∧ ch ≤ 57) ∨ ch = 46 ∨ ch = 58 ∨ ch = 45

def brixNetHostCharsValid (host : Bytes) : Bool := host ≠ [] ∧ host.all isHostByte

def isServer (host : Bytes) (port : UInt16) (slot : Option SrvEntry) : Bool :=
  slot.any fun e => e.port = port ∧ e.host = host

def srvFindLocked (tbl : SrvTable) (host : Bytes) (port : UInt16) : Option ℕ :=
  tbl.findIdx? (isServer host port)

/-- Change the entry of a registered server. -/
def srvChange (tbl : SrvTable) (host : Bytes) (port : UInt16) (f : SrvEntry → SrvEntry) :
    SrvTable :=
  match srvFindLocked tbl host port with
  | none => tbl
  | some i => tbl.modify i (Option.map f)

/-- `srv_space_reeval_locked`; `hwm` is `brix_srv_state()->space.hwm_mb`. -/
def srvSpaceReevalLocked (hwm : UInt64) (e : SrvEntry) : SrvEntry :=
  if e.minFreeMb = 0 then { e with spaceBlocked := false }
  else
    -- the cast of a mark to 32 bits comes after it was compared
    let hwm := if e.minFreeMb.toUInt64 < hwm then hwm.toUInt32 else e.minFreeMb
    if e.spaceBlocked then
      if hwm ≤ e.freeMb then { e with spaceBlocked := false } else e
    else if e.freeMb < e.minFreeMb then { e with spaceBlocked := true }
    else e

/-- What a registration writes into the entry a server has -/
def srvReRegister (paths : Bytes) (freeMb utilPct : UInt32) (now : UInt64)
    (e : SrvEntry) : SrvEntry :=
  { e with
    paths := ngxCpystrn paths brixSrvMaxPaths
    freeMb := freeMb
    utilPct := utilPct
    lastSeen := now
    blacklistedUntil := 0
    errorCount := 0 }

/-- What a registration writes into a free slot -/
def srvFirstRegister (host : Bytes) (port : UInt16) (paths : Bytes)
    (freeMb utilPct : UInt32) (now : UInt64) : SrvEntry :=
  { SrvEntry.zero with
    host := ngxCpystrn host 256
    port := port
    paths := ngxCpystrn paths brixSrvMaxPaths
    freeMb := freeMb
    utilPct := utilPct
    lastSeen := now
    -- "S", until the login role is recorded
    role := [83] }

def brixSrvRegister (hwm : UInt64) (tbl : SrvTable) (now : UInt64) (host : Bytes)
    (port : UInt16) (paths : Bytes) (freeMb utilPct : UInt32) : SrvTable :=
  if brixNetHostCharsValid host then
    match srvFindLocked tbl host port, tbl.findIdx? Option.isNone with
    | some i, _ =>
      tbl.modify i (Option.map fun e =>
        srvSpaceReevalLocked hwm (srvReRegister paths freeMb utilPct now e))
    | none, some i =>
      tbl.set i
        (some (srvSpaceReevalLocked hwm (srvFirstRegister host port paths freeMb utilPct now)))
    | none, none => tbl
  else tbl

def brixSrvUpdateLoad (hwm : UInt64) (tbl : SrvTable) (now : UInt64) (host : Bytes)
    (port : UInt16) (freeMb utilPct : UInt32) : SrvTable :=
  srvChange tbl host port fun e =>
    srvSpaceReevalLocked hwm { e with freeMb := freeMb, utilPct := utilPct, lastSeen := now }

def brixSrvUnregister (tbl : SrvTable) (host : Bytes) (port : UInt16) : SrvTable :=
  match srvFindLocked tbl host port with
  | none => tbl
  | some i => tbl.set i none

/-- What a reset writes: the metrics and the faults are forgotten, the registration stays. -/
def srvForget (now : UInt64) (e : SrvEntry) : SrvEntry :=
  { e with
    freeMb := 0
    utilPct := 0
    errorCount := 0
    blacklistedUntil := 0
    hcFailCount := 0
    hcInProgress := false
    loadPct := 0
    lastSeen := now }

/-- `brix_srv_reset`, which does not run `srv_space_reeval_locked` -/
def brixSrvReset (tbl : SrvTable) (now : UInt64) (host : Bytes) (port : UInt16) : SrvTable :=
  srvChange tbl host port (srvForget now)

/-- Set the space bound and evaluate the latch again. -/
def brixSrvSetMinFree (hwm : UInt64) (tbl : SrvTable) (host : Bytes) (port : UInt16)
    (minFreeMb : UInt32) : SrvTable :=
  srvChange tbl host port fun e => srvSpaceReevalLocked hwm { e with minFreeMb := minFreeMb }

/-- A call on the registry that writes the free space or the floor of an entry, or takes the
entry away -/
inductive SrvCall : Type where
  | register (host : Bytes) (port : UInt16) (paths : Bytes) (freeMb utilPct : UInt32)
  | updateLoad (host : Bytes) (port : UInt16) (freeMb utilPct : UInt32)
  | setMinFree (host : Bytes) (port : UInt16) (minFreeMb : UInt32)
  | reset (host : Bytes) (port : UInt16)
  | unregister (host : Bytes) (port : UInt16)

/-- The table after a call, made at a time -/
def srvCall (hwm : UInt64) (tbl : SrvTable) : UInt64 × SrvCall → SrvTable
  | (now, .register host port paths freeMb utilPct) =>
    brixSrvRegister hwm tbl now host port paths freeMb utilPct
  | (now, .updateLoad host port freeMb utilPct) =>
    brixSrvUpdateLoad hwm tbl now host port freeMb utilPct
  | (_, .setMinFree host port minFreeMb) => brixSrvSetMinFree hwm tbl host port minFreeMb
  | (now, .reset host port) => brixSrvReset tbl now host port
  | (_, .unregister host port) => brixSrvUnregister tbl host port

/-- Calls on a registry of `capacity` empty slots. -/
def srvRun (hwm : UInt64) (capacity : ℕ) (calls : List (UInt64 × SrvCall)) : SrvTable :=
  calls.foldl (srvCall hwm) (List.replicate capacity none)

/-! ## What a call does to the slots -/

def srvEntry (tbl : SrvTable) (host : Bytes) (port : UInt16) : Option SrvEntry :=
  (tbl.find? (isServer host port)).join

theorem srvFindLocked_cases (tbl : SrvTable) (host : Bytes) (port : UInt16) :
    (srvFindLocked tbl host port = none ∧ srvEntry tbl host port = none) ∨
      ∃ before e later, tbl = before ++ some e :: later ∧
        srvFindLocked tbl host port = some before.length ∧ srvEntry tbl host port = some e := by
  induction tbl with
  | nil => exact .inl ⟨rfl, rfl⟩
  | cons slot tbl ih =>
    cases hslot : isServer host port slot with
    | true =>
      cases slot with
      | none => cases hslot
      | some e =>
        refine .inr ⟨[], e, tbl, rfl, ?_, ?_⟩
        · simp [srvFindLocked, List.findIdx?_cons, hslot]
        · simp [srvEntry, hslot]
    | false =>
      have hfind : srvFindLocked (slot :: tbl) host port =
          (srvFindLocked tbl host port).map (· + 1) := by
        simp [srvFindLocked, List.findIdx?_cons, hslot]
      have hentry : srvEntry (slot :: tbl) host port = srvEntry tbl host port := by
        simp [srvEntry, hslot]
      rw [hfind, hentry]
      obtain ⟨hnone, hno⟩ | ⟨before, e, later, rfl, hsome, he⟩ := ih
      · exact .inl ⟨by rw [hnone, Option.map_none], hno⟩
      · exact .inr ⟨slot :: before, e, later, rfl, by rw [hsome]; rfl, he⟩

theorem findIdx?_isNone_cases (tbl : SrvTable) :
    tbl.findIdx? Option.isNone = none ∨
      ∃ before later, tbl = before ++ none :: later ∧
        tbl.findIdx? Option.isNone = some before.length := by
  induction tbl with
  | nil => exact .inl rfl
  | cons slot tbl ih =>
    cases slot with
    | none => exact .inr ⟨[], tbl, rfl, by simp [List.findIdx?_cons]⟩
    | some e =>
      have hfind : (some e :: tbl).findIdx? Option.isNone =
          (tbl.findIdx? Option.isNone).map (· + 1) := by
        simp [List.findIdx?_cons]
      rw [hfind]
      obtain hnone | ⟨before, later, rfl, hsome⟩ := ih
      · exact .inl (by rw [hnone, Option.map_none])
      · exact .inr ⟨some e :: before, later, rfl, by rw [hsome]; rfl⟩

theorem mem_of_srvEntry {tbl : SrvTable} {host : Bytes} {port : UInt16} {e : SrvEntry}
    (h : srvEntry tbl host port = some e) : some e ∈ tbl := by
  obtain ⟨-, hno⟩ | ⟨before, e', later, rfl, -, he⟩ := srvFindLocked_cases tbl host port
  · rw [hno] at h
    cases h
  · obtain rfl := Option.some.inj (he.symm.trans h)
    simp

theorem modify_slot (before : SrvTable) (slot : Option SrvEntry) (later : SrvTable)
    (f : Option SrvEntry → Option SrvEntry) :
    (before ++ slot :: later).modify before.length f = before ++ f slot :: later := by
  induction before with
  | nil => rfl
  | cons first before ih => simp [ih]

theorem srvChange_cases (tbl : SrvTable) (host : Bytes) (port : UInt16)
    (f : SrvEntry → SrvEntry) :
    (srvEntry tbl host port = none ∧ srvChange tbl host port f = tbl) ∨
      ∃ before e later, tbl = before ++ some e :: later ∧ srvEntry tbl host port = some e ∧
        srvChange tbl host port f = before ++ some (f e) :: later := by
  obtain ⟨hnone, hno⟩ | ⟨before, e, later, rfl, hsome, he⟩ := srvFindLocked_cases tbl host port
  · exact .inl ⟨hno, by rw [srvChange, hnone]⟩
  · refine .inr ⟨before, e, later, rfl, he, ?_⟩
    simp [srvChange, hsome, modify_slot]

/-! ## What holds of every entry -/

/-- Every slot in use has the property. -/
def EveryEntry (P : SrvEntry → Prop) (tbl : SrvTable) : Prop := ∀ e, some e ∈ tbl → P e

variable {P : SrvEntry → Prop} {tbl : SrvTable}

theorem everyEntry_replicate (n : ℕ) : EveryEntry P (List.replicate n none) := by
  intro e he
  cases List.eq_of_mem_replicate he

theorem everyEntry_replace {before later : SrvTable} {slot slot' : Option SrvEntry}
    (h : EveryEntry P (before ++ slot :: later)) :
    EveryEntry P (before ++ slot' :: later) ↔ ∀ e, slot' = some e → P e := by
  constructor
  · rintro hnext e rfl
    exact hnext e (by simp)
  · intro hslot e he
    simp only [List.mem_append, List.mem_cons] at he
    obtain hbefore | rfl | hlater := he
    · exact h e (by simp [hbefore])
    · exact hslot e rfl
    · exact h e (by simp [hlater])

theorem EveryEntry.srvChange (h : EveryEntry P tbl) (host : Bytes) (port : UInt16)
    (f : SrvEntry → SrvEntry) :
    EveryEntry P (srvChange tbl host port f) ↔ ∀ e, srvEntry tbl host port = some e → P (f e) := by
  obtain ⟨hno, hsame⟩ | ⟨before, e, later, rfl, he, hchange⟩ := srvChange_cases tbl host port f
  · simp [hno, hsame, h]
  · rw [hchange, he, everyEntry_replace h]
    simp

theorem EveryEntry.unregister (h : EveryEntry P tbl) (host : Bytes) (port : UInt16) :
    EveryEntry P (brixSrvUnregister tbl host port) := by
  obtain ⟨hnone, -⟩ | ⟨before, e, later, rfl, hsome, -⟩ := srvFindLocked_cases tbl host port
  · rwa [brixSrvUnregister, hnone]
  · have hset : brixSrvUnregister (before ++ some e :: later) host port =
        before ++ none :: later := by
      simp [brixSrvUnregister, hsome]
    rw [hset, everyEntry_replace h]
    simp

theorem EveryEntry.register {hwm now : UInt64} {host paths : Bytes} {port : UInt16}
    {freeMb utilPct : UInt32} (h : EveryEntry P tbl)
    (hfirst : P (srvSpaceReevalLocked hwm
      (srvFirstRegister host port paths freeMb utilPct now))) :
    EveryEntry P (brixSrvRegister hwm tbl now host port paths freeMb utilPct) ↔
      (brixNetHostCharsValid host = true → ∀ e, srvEntry tbl host port = some e →
        P (srvSpaceReevalLocked hwm (srvReRegister paths freeMb utilPct now e))) := by
  rw [brixSrvRegister]
  cases hvalid : brixNetHostCharsValid host with
  | false => simpa using h
  | true =>
    simp only [if_true, true_imp_iff]
    obtain ⟨hnone, hno⟩ | ⟨before, e, later, rfl, hsome, he⟩ := srvFindLocked_cases tbl host port
    · simp only [hnone, hno, reduceCtorEq, false_imp_iff, implies_true, iff_true]
      obtain hfull | ⟨before, later, rfl, hfree⟩ := findIdx?_isNone_cases tbl
      · simpa [hfull] using h
      · simp only [hfree, List.set_append_right _ _ (Nat.le_refl _), Nat.sub_self,
          List.set_cons_zero]
        rw [everyEntry_replace h]
        rintro e heq
        exact Option.some.inj heq ▸ hfirst
    · simp only [hsome, he, modify_slot, Option.map_some]
      rw [everyEntry_replace h]
      simp

end BrixCache
