import BrixCache.Manager.Select
import BrixCache.Core.Ascii
import Mathlib.Data.List.Perm.Basic

/-!
# The list of servers a client has tried

A client that was sent to a server in vain comes back to the manager with `?tried=h1,h2`. When every
server that exports the path was tried, the manager answers that there is no such file.
`brix_manager_tried_exhausted` decides that by counting names.
-/

namespace BrixCache

open List

def brixRegistryOpaqueBufSize : ℕ := 1024

/-- `tried=` -/
def triedKey : Bytes := [116, 114, 105, 101, 100, 61]

/-- `strstr`: the text from the first occurrence on -/
def strstr (needle : Bytes) : Bytes → Option Bytes
  | [] => if needle = [] then some [] else none
  | c :: text => if needle <+: c :: text then some (c :: text) else strstr needle text

/-- The opaque part of a request, as the C string it is copied to -/
def triedOpaque (payload : Bytes) : Option Bytes :=
  match payload.dropWhile (· ≠ 63) with
  | [] => none
  | _ :: q =>
    -- one trailing NUL is taken off
    let q := if q.getLast? = some 0 then q.dropLast else q
    if q = [] ∨ brixRegistryOpaqueBufSize ≤ q.length then none else some (q.takeWhile (· ≠ 0))

/-- The text behind the first `tried=` up to an `&` -/
def triedText (payload : Bytes) : Option Bytes :=
  (triedOpaque payload).bind fun opq =>
    (strstr triedKey opq).map fun found => (found.drop 6).takeWhile (· ≠ 38)

/-- At least as many names are listed as servers export the path. -/
def brixManagerTriedExhausted (tbl : SrvTable) (payload cleanPath : Bytes) : Bool :=
  match triedText payload with
  | none => false
  | some text =>
    if text = [] then false
    else
      let nTried := 1 + text.count 44
      let nMatch := brixSrvCountMatching tbl cleanPath
      0 < nMatch ∧ nMatch ≤ nTried

/-! ## What the list says -/

/-- The text behind `?` up to a NUL. -/
def opaqueText (payload : Bytes) : Bytes :=
  ((payload.dropWhile (· ≠ 63)).drop 1).takeWhile (· ≠ 0)

/-- The hosts named by a parameter `tried` of the opaque part -/
def triedHosts (payload : Bytes) : List Bytes :=
  ((opaqueText payload).splitOn 38).flatMap fun param =>
    if triedKey <+: param then (param.drop 6).splitOn 44 else []

def countedNames (payload : Bytes) : List Bytes :=
  match triedText payload with
  | none => []
  | some text => if text = [] then [] else text.splitOn 44

/-- The registered servers that export `path`. -/
def exporting (tbl : SrvTable) (path : Bytes) : List SrvEntry :=
  (tbl.filterMap id).filter fun e => srvPathMatches e.paths path

/-- The exporting servers the client has not tried. -/
def untried (tbl : SrvTable) (payload path : Bytes) : List SrvEntry :=
  (exporting tbl path).filter fun e => e.host ∉ triedHosts payload

/-- Every server that exports the path is named. -/
def TriedAll (tbl : SrvTable) (payload path : Bytes) : Prop :=
  ∀ e, some e ∈ tbl → srvPathMatches e.paths path = true → e.host ∈ triedHosts payload

/-- The list is what it should be: what is found first begins a parameter, and the names in it
differ and are those of servers that export the path. -/
structure TriedListed (tbl : SrvTable) (payload path : Bytes) : Prop where
  begins : ∀ pre found, opaqueText payload = pre ++ found →
    strstr triedKey (opaqueText payload) = some found → pre = [] ∨ pre.getLast? = some 38
  nodup : (countedNames payload).Nodup
  servers : ∀ name ∈ countedNames payload, ∃ e ∈ exporting tbl path, e.host = name

/-! ## Splitting -/

theorem length_splitOn (sep : UInt8) (text : Bytes) :
    (text.splitOn sep).length = text.count sep + 1 := by
  induction text with
  | nil => rfl
  | cons c text ih =>
    rw [splitOn_cons_eq_if_modifyHead]
    by_cases h : c = sep
    · simp [h, ih]
    · simp [h, ih]

variable {path payload : Bytes} {tbl : SrvTable}

theorem mem_exporting {e : SrvEntry} :
    e ∈ exporting tbl path ↔ some e ∈ tbl ∧ srvPathMatches e.paths path = true := by
  simp [exporting]

theorem brixSrvCountMatching_eq (tbl : SrvTable) (path : Bytes) :
    brixSrvCountMatching tbl path = (exporting tbl path).length := by
  rw [brixSrvCountMatching, exporting]
  induction tbl with
  | nil => rfl
  | cons slot tbl ih =>
    cases slot with
    | none => simpa using ih
    | some e =>
      cases hcovers : srvPathMatches e.paths path <;> simp [hcovers, ih]

theorem brixManagerTriedExhausted_iff :
    brixManagerTriedExhausted tbl payload path = true ↔
      exporting tbl path ≠ [] ∧ (exporting tbl path).length ≤ (countedNames payload).length := by
  rw [brixManagerTriedExhausted, countedNames, brixSrvCountMatching_eq]
  cases triedText payload with
  | none => simp
  | some text =>
    by_cases hempty : text = []
    · simp [hempty]
    · simp [hempty, length_splitOn, length_pos_iff, Nat.add_comm]

/-! ## What the scan finds -/

theorem strstr_eq_some {needle text found : Bytes} (h : strstr needle text = some found) :
    ∃ pre, text = pre ++ found ∧ needle <+: found := by
  induction text with
  | nil =>
    rw [strstr] at h
    obtain ⟨rfl, heq⟩ := Option.ite_none_right_eq_some.mp h
    cases heq
    exact ⟨[], rfl, List.nil_prefix⟩
  | cons c text ih =>
    rw [strstr] at h
    split at h
    · next hpre =>
      cases h
      exact ⟨[], rfl, hpre⟩
    · obtain ⟨pre, rfl, hpre⟩ := ih h
      exact ⟨c :: pre, rfl, hpre⟩

theorem triedOpaque_eq_some {opq : Bytes} (h : triedOpaque payload = some opq) :
    opq = opaqueText payload := by
  rw [triedOpaque] at h
  rw [opaqueText]
  cases hq : payload.dropWhile (· ≠ 63) with
  | nil =>
    rw [hq] at h
    cases h
  | cons c q =>
    rw [hq] at h
    obtain ⟨-, heq⟩ := Option.ite_none_left_eq_some.mp h
    cases heq
    rw [drop_one, tail_cons]
    split
    · next hlast =>
      obtain ⟨body, rfl⟩ := getLast?_eq_some_iff.mp hlast
      rw [dropLast_concat, takeWhile_append]
      split
      · next hall =>
        rw [takeWhile_cons_of_neg (by simp), append_nil]
        exact (List.takeWhile_prefix _).eq_of_length hall
      · rfl
    · rfl

theorem head?_splitOn (sep : UInt8) (text : Bytes) :
    (text.splitOn sep).head? = some (text.takeWhile (· ≠ sep)) := by
  induction text with
  | nil => rfl
  | cons c text ih =>
    rw [splitOn_cons_eq_if_modifyHead]
    by_cases h : c = sep
    · simp [h]
    · simp [h, head?_modifyHead, ih]

theorem takeWhile_mem_splitOn {sep : UInt8} {pre found : Bytes}
    (h : pre = [] ∨ pre.getLast? = some sep) :
    found.takeWhile (· ≠ sep) ∈ (pre ++ found).splitOn sep := by
  have hhead := mem_of_head? (head?_splitOn sep found)
  obtain rfl | hlast := h
  · exact hhead
  · obtain ⟨before, rfl⟩ := getLast?_eq_some_iff.mp hlast
    rw [append_assoc, singleton_append, splitOn_append_cons_self]
    exact mem_append_right _ hhead

theorem TriedListed.named
    (h : TriedListed tbl payload path) : countedNames payload ⊆ triedHosts payload := by
  intro name hname
  rw [countedNames] at hname
  cases htext : triedText payload with
  | none =>
    rw [htext] at hname
    cases hname
  | some text =>
    simp only [htext] at hname
    split at hname
    · cases hname
    obtain ⟨opq, hopq, hfind⟩ := Option.bind_eq_some_iff.mp htext
    obtain rfl := triedOpaque_eq_some hopq
    obtain ⟨found, hfound, rfl⟩ := Option.map_eq_some_iff.mp hfind
    obtain ⟨pre, hsplit, value, rfl⟩ := strstr_eq_some hfound
    have hparam : (triedKey ++ value).takeWhile (· ≠ 38) ∈ (opaqueText payload).splitOn 38 := by
      rw [hsplit]
      exact takeWhile_mem_splitOn (h.begins pre _ hsplit hfound)
    have hkey : (triedKey ++ value).takeWhile (· ≠ 38) =
        triedKey ++ value.takeWhile (· ≠ 38) :=
      takeWhile_append_of_pos (by simp [triedKey])
    refine mem_flatMap.mpr ⟨_, hparam, ?_⟩
    rw [hkey, if_pos (prefix_append _ _)]
    exact hname

theorem TriedListed.all (h : TriedListed tbl payload path)
    (hexhausted : brixManagerTriedExhausted tbl payload path = true) :
    TriedAll tbl payload path := by
  obtain ⟨-, hcount⟩ := brixManagerTriedExhausted_iff.mp hexhausted
  have hsub : countedNames payload ⊆ (exporting tbl path).map SrvEntry.host := fun name hname =>
    mem_map.mpr (h.servers name hname)
  have hperm := (subperm_of_subset h.nodup hsub).perm_of_length_le (by simpa using hcount)
  intro e he hcovers
  have hhost := mem_map_of_mem (f := SrvEntry.host) (mem_exporting.mpr ⟨he, hcovers⟩)
  exact h.named (hperm.mem_iff.mpr hhost)

theorem triedAll_iff :
    TriedAll tbl payload path ↔ untried tbl payload path = [] := by
  rw [untried, filter_eq_nil_iff]
  constructor
  · intro h e he
    obtain ⟨hmem, hcovers⟩ := mem_exporting.mp he
    simpa using h e hmem hcovers
  · intro h e hmem hcovers
    simpa using h e (mem_exporting.mpr ⟨hmem, hcovers⟩)

/-- **Tried-list exhaustion.** The answer is right exactly when no server that exports the path is
left unnamed, or fewer names are counted than there are such servers: so whenever the list is what
it should be. -/
theorem tried_exhausted_iff (tbl : SrvTable) (payload path : Bytes) :
    ((brixManagerTriedExhausted tbl payload path = true → TriedAll tbl payload path) ↔
        untried tbl payload path = [] ∨
          (countedNames payload).length < (exporting tbl path).length) ∧
      (TriedListed tbl payload path → brixManagerTriedExhausted tbl payload path = true →
        TriedAll tbl payload path) := by
  refine ⟨⟨fun h => ?_, ?_⟩, TriedListed.all⟩
  · obtain hfew | hmany := Nat.lt_or_ge (countedNames payload).length (exporting tbl path).length
    · exact .inr hfew
    · by_cases hnone : exporting tbl path = []
      · exact .inl (by rw [untried, hnone, filter_nil])
      · exact .inl (triedAll_iff.mp (h (brixManagerTriedExhausted_iff.mpr ⟨hnone, hmany⟩)))
  · rintro (hnamed | hfew) hexhausted
    · exact triedAll_iff.mpr hnamed
    · exact absurd (brixManagerTriedExhausted_iff.mp hexhausted).2 (Nat.not_le.mpr hfew)

/-- `/f?tried=b`, where the one server that exports `/f` is `a` -/
theorem other_host_counts : ¬∀ (tbl : SrvTable) (payload path : Bytes),
    brixManagerTriedExhausted tbl payload path = true → TriedAll tbl payload path := by
  intro h
  have hall := h [some (srvFirstRegister [97] 1094 [47] 0 0 0)]
    ([47, 102, 63] ++ triedKey ++ [98]) [47, 102] (by decide)
  exact absurd (hall _ (mem_singleton_self _) (by decide)) (by decide)

end BrixCache
