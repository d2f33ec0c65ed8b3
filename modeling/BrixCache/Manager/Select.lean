import BrixCache.Manager.Registry

/-!
# Server selection

`net/manager/registry_select.c` and `registry_select_sched.c`: where a manager sends a client for a
path. One scan of the registry offers every server that exports the path to the tiers it belongs
to; the winner of the first tier that is not empty is taken. Affinity and the fuzz band then choose
among the fresh servers only.
-/

namespace BrixCache

/-! ## Export paths -/

/-- One token of an export list covers the path: as a prefix that ends at a directory. -/
def srvTokenMatches (tok path : List UInt8) : Bool :=
  tok ≠ [] ∧ (tok = [47] ∨
    tok <+: path ∧
      (tok.getLast? = some 47 ∨ path[tok.length]? = some 47 ∨ path[tok.length]? = none))

/-- One token of the colon-separated export list covers the path. -/
def srvPathMatches (paths path : List UInt8) : Bool :=
  (paths.splitOn 58).any fun tok => srvTokenMatches tok path

def brixSrvCountMatching (tbl : SrvTable) (path : List UInt8) : ℕ :=
  tbl.countP fun slot => slot.any fun e => srvPathMatches e.paths path

/-! ## Metrics -/

/-- The weights of the load components, and the two limits -/
structure SrvSched : Type where
  cpu : UInt64
  io : UInt64
  runq : UInt64
  mem : UInt64
  pag : UInt64
  space : UInt64
  fuzz : UInt64
  maxload : UInt64

/-- What a selection reads of `brix_srv_state_t`. -/
structure SrvState : Type where
  staleAfterMs : UInt64
  loadWeight : UInt64
  affinity : Bool
  sched : SrvSched
  /-- `space.enforce` -/
  enforce : Bool

def schedActive (st : SrvState) : Bool :=
  st.sched.cpu ||| st.sched.io ||| st.sched.runq ||| st.sched.mem ||| st.sched.pag |||
    st.sched.space ≠ 0

/-- The weights of the five load bytes together -/
def schedMachineDen (st : SrvState) : UInt64 :=
  st.sched.cpu + st.sched.io + st.sched.runq + st.sched.mem + st.sched.pag

/-- The five load bytes, each by its weight -/
def schedMachineNum (st : SrvState) (e : SrvEntry) : UInt64 :=
  st.sched.cpu * e.load5[0].toUInt64 + st.sched.io * e.load5[1].toUInt64 +
    st.sched.runq * e.load5[2].toUInt64 + st.sched.mem * e.load5[3].toUInt64 +
    st.sched.pag * e.load5[4].toUInt64

/-- The weighted load of the machine, or the plain one without weights. -/
def schedMachineLoad (st : SrvState) (e : SrvEntry) : UInt32 :=
  if schedMachineDen st = 0 then e.loadPct
  else (schedMachineNum st e / schedMachineDen st).toUInt32

def srvSelOverMaxload (st : SrvState) (e : SrvEntry) : Bool :=
  0 < st.sched.maxload ∧ st.sched.maxload < (schedMachineLoad st e).toUInt64

/-- `srv_sel_metric`: a read wants it small, a write large. -/
def srvSelMetric (st : SrvState) (e : SrvEntry) (forWrite : Bool) : UInt32 :=
  if schedActive st then
    if forWrite then
      e.freeMb - (e.freeMb.toUInt64 * (schedMachineLoad st e).toUInt64 / 200).toUInt32
    else
      ((schedMachineNum st e + st.sched.space * e.utilPct.toUInt64) /
        (schedMachineDen st + st.sched.space)).toUInt32
  else
    let metric := if forWrite then e.freeMb else e.utilPct
    if st.loadWeight = 0 then metric
    else if forWrite then
      metric - (metric.toUInt64 * st.loadWeight * e.loadPct.toUInt64 / 10000).toUInt32
    else
      (((100 - st.loadWeight) * metric.toUInt64 + st.loadWeight * e.loadPct.toUInt64) / 100).toUInt32

/-! ## Tiers -/

/-- `srv_sel_tier_t`: the best slot seen so far with its metric; none is `idx == -1`. -/
abbrev SrvSelTier : Type := Option (ℕ × UInt32)

def srvSelAffinityMax : ℕ := 64

/-- The accumulators of one scan of the registry -/
structure SrvSelState : Type where
  fresh : SrvSelTier
  any : SrvSelTier
  overload : SrvSelTier
  peer : SrvSelTier
  black : SrvSelTier
  /-- `fresh_cands` with `fresh_vals`; `n_fresh` is its length -/
  freshCands : List (ℕ × UInt32)

def srvSelStateInit : SrvSelState := ⟨none, none, none, none, none, []⟩

/-- Writes want the larger metric, reads the smaller. -/
def srvSelMetricBetter (tier : SrvSelTier) (metric : UInt32) (forWrite : Bool) : Bool :=
  match tier with
  | none => true
  | some best => if forWrite then best.2 < metric else metric < best.2

/-- A tier keeps its best candidate, the earlier one on a tie. -/
def srvSelTierOffer (forWrite : Bool) (tier : SrvSelTier) (cand : ℕ × UInt32) : SrvSelTier :=
  if srvSelMetricBetter tier cand.2 forWrite then some cand else tier

/-- The time since a server was last seen is more than it may be, as signed numbers. -/
def srvSelIsStale (st : SrvState) (now : UInt64) (e : SrvEntry) : Bool :=
  0 < st.staleAfterMs ∧ st.staleAfterMs.toInt64 < (now - e.lastSeen).toInt64

def srvIsBlack (now : UInt64) (e : SrvEntry) : Bool :=
  e.blacklistedUntil ≠ 0 ∧ now < e.blacklistedUntil

def srvSelStateConsider (st : SrvState) (now : UInt64) (forWrite : Bool) (sel : SrvSelState)
    (idx : ℕ) (e : SrvEntry) (isBlack : Bool) : SrvSelState :=
  let cand := (idx, srvSelMetric st e forWrite)
  if isBlack then { sel with black := srvSelTierOffer forWrite sel.black cand }
  -- the role "P" of a peer
  else if e.role = [80] then { sel with peer := srvSelTierOffer forWrite sel.peer cand }
  else if forWrite ∧ st.enforce ∧ e.spaceBlocked then
    { sel with overload := srvSelTierOffer forWrite sel.overload cand }
  else if srvSelOverMaxload st e then
    { sel with overload := srvSelTierOffer forWrite sel.overload cand }
  else
    let sel := { sel with any := srvSelTierOffer forWrite sel.any cand }
    if srvSelIsStale st now e then sel
    else
      { sel with
        fresh := srvSelTierOffer forWrite sel.fresh cand
        freshCands :=
          if sel.freshCands.length < srvSelAffinityMax then sel.freshCands ++ [cand]
          else sel.freshCands }

def srvSelPathHash (path : List UInt8) : UInt32 :=
  path.foldl (fun h b => (h ^^^ b.toUInt32) * 16777619) 2166136261

/-- Fresh before any, overloaded, peer and blacklisted. -/
def srvSelStateWinner (sel : SrvSelState) : Option ℕ :=
  ((((sel.fresh.or sel.any).or sel.overload).or sel.peer).or sel.black).map Prod.fst

/-- The metric lies within the fuzz band around the best. -/
def srvSelInBand (st : SrvState) (forWrite : Bool) (best metric : UInt32) : Bool :=
  if forWrite then best.toUInt64 * (100 - st.sched.fuzz) / 100 ≤ metric.toUInt64
  else metric.toUInt64 ≤ best.toUInt64 * (100 + st.sched.fuzz) / 100

/-- `srv_sel_fuzz_pick`, with its counter before and after -/
def srvSelFuzzPick (st : SrvState) (forWrite : Bool) (sel : SrvSelState) (best : Option ℕ)
    (rotate : UInt64) : Option ℕ × UInt64 :=
  if st.sched.fuzz = 0 ∨ sel.freshCands.length < 2 ∨ best ≠ sel.fresh.map Prod.fst then
    (best, rotate)
  else
    match sel.fresh with
    | none => (best, rotate)
    | some (_, val) =>
      let band := sel.freshCands.filter fun cand => srvSelInBand st forWrite val cand.2
      if band.length < 2 then (best, rotate)
      else ((band[rotate.toNat % band.length]?).map Prod.fst, rotate + 1)

/-! ## Selection -/

/-- What the scan of `srv_select_core` does with a slot -/
def srvSelectSlot (st : SrvState) (now : UInt64) (path : List UInt8)
    (forWrite allowBlacklisted : Bool) (sel : SrvSelState) (slot : Option SrvEntry × ℕ) :
    SrvSelState :=
  match slot.1 with
  | none => sel
  | some e =>
    if ¬ srvPathMatches e.paths path then sel
    else if srvIsBlack now e ∧ ¬ allowBlacklisted then sel
    else srvSelStateConsider st now forWrite sel slot.2 e (srvIsBlack now e)

/-- One pass over the table, each slot offered to its tier. -/
def srvSelectScan (st : SrvState) (tbl : SrvTable) (now : UInt64) (path : List UInt8)
    (forWrite allowBlacklisted : Bool) : SrvSelState :=
  tbl.zipIdx.foldl (srvSelectSlot st now path forWrite allowBlacklisted) srvSelStateInit

/-- `best` at the end of `srv_select_core`, with the counter of the fuzz rotation -/
def srvSelectBest (st : SrvState) (tbl : SrvTable) (now rotate : UInt64) (path : List UInt8)
    (forWrite allowBlacklisted : Bool) : Option ℕ × UInt64 :=
  let sel := srvSelectScan st tbl now path forWrite allowBlacklisted
  if st.affinity ∧ 1 < sel.freshCands.length then
    ((sel.freshCands[(srvSelPathHash path).toNat % sel.freshCands.length]?).map Prod.fst, rotate)
  else srvSelFuzzPick st forWrite sel (srvSelStateWinner sel) rotate

/-- `srv_select_core`: the host, as far as the caller's buffer holds it, and the port -/
def srvSelectCore (st : SrvState) (tbl : SrvTable) (now rotate : UInt64) (path : List UInt8)
    (forWrite allowBlacklisted : Bool) (hostSize : ℕ) : Option (List UInt8 × UInt16) × UInt64 :=
  let best := srvSelectBest st tbl now rotate path forWrite allowBlacklisted
  (best.1.bind fun i => (tbl[i]?).join.map fun e => (ngxCpystrn e.host hostSize, e.port), best.2)

end BrixCache
