import BrixCache.S3.ChunkedCuts

/-!
# What a decode accepts

The grammar of an `aws-chunked` stream, and the chain of its signatures. Each state of the
machine stands for what it has read so far.
-/

namespace BrixCache

open List

/-! ## The grammar -/

/-- The number a row of hex digits denotes -/
def hexNat (digits : Bytes) : ℕ := digits.foldl (fun n d => n * 16 + (s3Hexdigit d).getD 0) 0

@[simp] theorem hexNat_nil : hexNat [] = 0 := rfl

theorem hexNat_append (digits : Bytes) (d : UInt8) :
    hexNat (digits ++ [d]) = hexNat digits * 16 + (s3Hexdigit d).getD 0 := by
  simp [hexNat]

/-- The header line of a chunk: the size, and an extension up to the next carriage return -/
structure ChunkHead : Type where
  digits : Bytes
  ext : Option Bytes
  hex : ∀ d ∈ digits, (s3Hexdigit d).isSome = true
  clean : ∀ e, ext = some e → 13 ∉ e

namespace ChunkHead

def size (h : ChunkHead) : ℕ := hexNat h.digits

/-- A header line, without its end -/
def line (h : ChunkHead) : Bytes := h.digits ++ (h.ext.map (59 :: ·)).getD []

/-- What of the extension is looked at for a signature -/
def signed (h : ChunkHead) : Bytes := (h.ext.getD []).take s3ChunkExtMax

end ChunkHead

/-- A chunk: a header and exactly as many bytes as it announces -/
structure DataChunk : Type where
  head : ChunkHead
  payload : Bytes
  sized : head.size = payload.length

/-- The chunk as it stands on the wire. -/
def DataChunk.bytes (d : DataChunk) : Bytes :=
  d.head.line ++ [13, 10] ++ d.payload ++ [13, 10]

variable (env : ChunkEnv)

/-- The chain of signatures over some chunks: each carries the signature over its payload behind
the one before, the first behind the seed. -/
inductive ChunkChain (v : S3ChunkVerify) : List (ChunkHead × Bytes) → Bytes → Prop where
  | seed : ChunkChain v [] v.seedSignature
  | chunk {cs : List (ChunkHead × Bytes)} {prev : Bytes} {h : ChunkHead}
      {payload : Bytes} : ChunkChain v cs prev →
      s3ChunkExtSignature h.signed = some (chunkSignature env v prev payload) →
      ChunkChain v (cs ++ [(h, payload)]) (chunkSignature env v prev payload)

def signedParts (chunks : List DataChunk) : List (ChunkHead × Bytes) :=
  chunks.map fun d => (d.head, d.payload)

/-- A stream the decoder accepts, with its payload: chunks, a chunk of size zero, trailer lines
and an empty line. What follows is not read. Every size has a digit, that of the last chunk
unless its header line starts with `;`. -/
inductive ChunkedStream : Bytes → Bytes → Prop where
  | mk (chunks : List DataChunk) (last : ChunkHead) (lines : List Bytes)
      (blank rest : Bytes)
      (digits : ∀ d ∈ chunks, d.head.digits ≠ [])
      (zero : last.size = 0)
      (lastDigits : last.digits ≠ [] ∨ last.ext ≠ none)
      (lines_spec : ∀ l ∈ lines, 10 ∉ l ∧ l ≠ [] ∧ l ≠ [13])
      (blank_spec : blank = [] ∨ blank = [13])
      (chain : ∀ v, env.verify = some v →
        ∃ sig, ChunkChain env v (signedParts chunks ++ [(last, [])]) sig) :
      ChunkedStream
        (chunks.flatMap DataChunk.bytes ++ (last.line ++ [13, 10]) ++
          lines.flatMap (· ++ [10]) ++ (blank ++ [10]) ++ rest)
        (chunks.flatMap DataChunk.payload)

/-! ## States -/

/-- The chunks that were read in full: their payloads were written, their signatures hold -/
structure ChunksRead (c : ChunkCtx) (chunks : List DataChunk) : Prop where
  written : c.written = chunks.flatMap DataChunk.payload
  digits : ∀ d ∈ chunks, d.head.digits ≠ []
  chain : ∀ v, env.verify = some v → ChunkChain env v (signedParts chunks) c.prevSig

def shaOf (payload : Bytes) : Bytes := if env.verify.isSome then payload else []

/-- Between chunks the size and the hash start afresh. -/
structure SizeFresh (c : ChunkCtx) : Prop where
  curSize : c.curSize = 0
  sizeDigits : c.sizeDigits = false

/-- What the bytes read so far are, in each state of the parser -/
inductive Parsed (c : ChunkCtx) (bs : Bytes) : Prop where
  | failed : c.state = .error → Parsed c bs
  | size (chunks : List DataChunk) (digits : Bytes) : c.state = .size →
      ChunksRead env c chunks → c.sha = [] → c.ext = [] →
      (∀ d ∈ digits, (s3Hexdigit d).isSome = true) → c.curSize = hexNat digits →
      (c.sizeDigits = true → digits ≠ []) →
      bs = chunks.flatMap DataChunk.bytes ++ digits → Parsed c bs
  | ext (chunks : List DataChunk) (digits e : Bytes) : c.state = .ext →
      ChunksRead env c chunks → c.sha = [] → 13 ∉ e →
      (env.verify.isSome → c.ext = e.take s3ChunkExtMax) →
      (∀ d ∈ digits, (s3Hexdigit d).isSome = true) → c.curSize = hexNat digits →
      bs = chunks.flatMap DataChunk.bytes ++ (digits ++ 59 :: e) → Parsed c bs
  | sizeLf (chunks : List DataChunk) (head : ChunkHead) : c.state = .sizeLf →
      ChunksRead env c chunks → c.sha = [] → (env.verify.isSome → c.ext = head.signed) →
      c.curSize = head.size → (head.digits ≠ [] ∨ head.ext ≠ none) →
      bs = chunks.flatMap DataChunk.bytes ++ (head.line ++ [13]) → Parsed c bs
  | data (chunks : List DataChunk) (head : ChunkHead) (p : Bytes) : c.state = .data →
      (∀ d ∈ chunks, d.head.digits ≠ []) → head.digits ≠ [] →
      c.written = chunks.flatMap DataChunk.payload ++ p →
      (∀ v, env.verify = some v → ChunkChain env v (signedParts chunks) c.prevSig) →
      c.sha = shaOf env p → (env.verify.isSome → c.ext = head.signed) → SizeFresh c →
      head.size = p.length + c.chunkRemaining →
      bs = chunks.flatMap DataChunk.bytes ++ (head.line ++ [13, 10] ++ p) → Parsed c bs
  | dataCr (chunks : List DataChunk) : c.state = .dataCr → ChunksRead env c chunks →
      c.sha = [] → SizeFresh c → bs ++ [13, 10] = chunks.flatMap DataChunk.bytes → Parsed c bs
  | dataLf (chunks : List DataChunk) : c.state = .dataLf → ChunksRead env c chunks →
      c.sha = [] → SizeFresh c → bs ++ [10] = chunks.flatMap DataChunk.bytes → Parsed c bs
  | trailer (chunks : List DataChunk) (last : ChunkHead) (lines : List Bytes)
      (line : Bytes) : c.state = .trailer →
      (∀ d ∈ chunks, d.head.digits ≠ []) → c.written = chunks.flatMap DataChunk.payload →
      last.size = 0 → (last.digits ≠ [] ∨ last.ext ≠ none) →
      (∀ v, env.verify = some v →
        ∃ sig, ChunkChain env v (signedParts chunks ++ [(last, [])]) sig) →
      (∀ l ∈ lines, 10 ∉ l ∧ l ≠ [] ∧ l ≠ [13]) → 10 ∉ line →
      c.line = line.take s3ChunkMaxLine →
      bs = chunks.flatMap DataChunk.bytes ++ (last.line ++ [13, 10]) ++
        lines.flatMap (· ++ [10]) ++ line → Parsed c bs
  | done : c.state = .done → ChunkedStream env bs c.written → Parsed c bs

variable {env}

/-! ## Steps -/

variable {c : ChunkCtx} {chunks : List DataChunk} {bs : Bytes}

theorem ChunksRead.same {d : ChunkCtx} (h : ChunksRead env c chunks)
    (hwritten : d.written = c.written) (hprev : d.prevSig = c.prevSig) :
    ChunksRead env d chunks :=
  ⟨hwritten.trans h.written, h.digits, fun v hv => hprev ▸ h.chain v hv⟩

theorem s3ChunkVerify_spec (env : ChunkEnv) (c : ChunkCtx) :
    (s3ChunkVerify env c).state = .error ∨
      ∃ prev, s3ChunkVerify env c =
          { c with sha := if env.verify.isSome then [] else c.sha, prevSig := prev } ∧
        ∀ v, env.verify = some v →
          s3ChunkExtSignature c.ext = some prev ∧ prev = chunkSignature env v c.prevSig c.sha := by
  unfold s3ChunkVerify
  split
  · next hv => exact .inr ⟨c.prevSig, by simp [hv], fun v h => by simp [hv] at h⟩
  · next v hv =>
    split
    · exact .inl rfl
    · next provided hext =>
      dsimp only
      split
      · exact .inl rfl
      · next heq =>
        have heq := Decidable.not_not.mp heq
        refine .inr ⟨provided, by simp [hv], fun v' hv' => ?_⟩
        obtain rfl : v = v' := Option.some.inj (hv.symm.trans hv')
        exact ⟨hext, heq.symm⟩

/-- A byte of a size line -/
theorem Parsed.size_step
    {digits : Bytes} (ch : UInt8) (hread : ChunksRead env c chunks) (hsha : c.sha = [])
    (hext : c.ext = []) (hstate : c.state = .size)
    (hhex : ∀ d ∈ digits, (s3Hexdigit d).isSome = true) (hcur : c.curSize = hexNat digits)
    (hdig : c.sizeDigits = true → digits ≠ [])
    (hbs : bs = chunks.flatMap DataChunk.bytes ++ digits) :
    Parsed env (chunkScanSizeLine c ch) (bs ++ [ch]) := by
  unfold chunkScanSizeLine
  split
  · next v hv =>
    split
    · exact .failed rfl
    · refine .size chunks (digits ++ [ch]) hstate (hread.same rfl rfl) hsha hext ?_ ?_ ?_ ?_
      · intro d hd
        rcases mem_append.mp hd with hd | hd
        · exact hhex d hd
        · rw [mem_singleton.mp hd, hv]
          rfl
      · rw [hexNat_append, hv, ← hcur]
        rfl
      · simp
      · simp [hbs]
  · next hv =>
    split
    · next hsemi =>
      refine .ext chunks digits [] rfl (hread.same rfl rfl) hsha (fun h => by cases h) ?_ hhex hcur ?_
      · exact fun _ => hext
      · simp [hbs, hsemi]
    · split
      · next hcr =>
        split
        · exact .failed rfl
        · next hd =>
          refine .sizeLf chunks ⟨digits, none, hhex, (fun _ h => by cases h)⟩ rfl
            (hread.same rfl rfl) hsha ?_ hcur
            (.inl (hdig (by simpa using hd))) ?_
          · exact fun _ => hext
          · simp [hbs, hcr, ChunkHead.line]
      · exact .failed rfl

/-- A byte of a chunk extension -/
theorem Parsed.ext_step {digits e : Bytes} (ch : UInt8) (hstate : c.state = .ext)
    (hread : ChunksRead env c chunks) (hsha : c.sha = []) (hclean : 13 ∉ e)
    (hext : env.verify.isSome → c.ext = e.take s3ChunkExtMax)
    (hhex : ∀ d ∈ digits, (s3Hexdigit d).isSome = true) (hcur : c.curSize = hexNat digits)
    (hbs : bs = chunks.flatMap DataChunk.bytes ++ (digits ++ 59 :: e)) :
    Parsed env (chunkScanExtSig env c ch) (bs ++ [ch]) := by
  unfold chunkScanExtSig
  split
  · next hcr =>
    refine .sizeLf chunks ⟨digits, some e, hhex, ?_⟩ rfl (hread.same rfl rfl) hsha hext hcur
      (.inr (fun h => by cases h)) ?_
    · intro e' he'
      cases he'
      exact hclean
    · simp [hbs, hcr, ChunkHead.line]
  · next hcr =>
    have hclean' : 13 ∉ e ++ [ch] := by simp [hclean, Ne.symm hcr]
    split
    · next hroom =>
      refine .ext chunks digits (e ++ [ch]) hstate (hread.same rfl rfl) hsha hclean' ?_ hhex hcur ?_
      · intro hv
        have he := hext hv
        have hlen : e.length < s3ChunkExtMax := by
          have := hroom.2
          rw [he, length_take] at this
          omega
        rw [take_of_length_le (Nat.le_of_lt hlen)] at he
        rw [take_of_length_le (by simpa [Nat.succ_le_iff] using hlen), he]
      · simp [hbs]
    · next hroom =>
      refine .ext chunks digits (e ++ [ch]) hstate hread hsha hclean' ?_ hhex hcur ?_
      · intro hv
        have he := hext hv
        have hlen : s3ChunkExtMax ≤ e.length := by
          have : ¬ c.ext.length < s3ChunkExtMax := fun h => hroom ⟨hv, h⟩
          rw [he, length_take] at this
          omega
        rw [he, take_append_of_le_length hlen]
      · simp [hbs]

/-- The line feed behind a size line: data, or the trailer -/
theorem Parsed.sizeLf_step
    {head : ChunkHead} (ch : UInt8) (hread : ChunksRead env c chunks) (hsha : c.sha = [])
    (hext : env.verify.isSome → c.ext = head.signed) (hcur : c.curSize = head.size)
    (hdig : head.digits ≠ [] ∨ head.ext ≠ none)
    (hbs : bs = chunks.flatMap DataChunk.bytes ++ (head.line ++ [13])) :
    Parsed env (chunkScanSizeLf env c ch) (bs ++ [ch]) := by
  unfold chunkScanSizeLf
  split
  · exact .failed rfl
  · next hlf =>
    obtain rfl : ch = 10 := Decidable.not_not.mp hlf
    split
    · next hzero =>
      rcases s3ChunkVerify_spec env
          { c with chunkRemaining := 0, state := .sizeLf, owed := (fun h => by cases h) } with
        herr | ⟨prev, hc, hsig⟩
      · simp only [herr, if_true]
        exact .failed herr
      · simp only [hc, reduceCtorEq, if_false]
        refine .trailer chunks head [] [] rfl hread.digits hread.written (hcur ▸ hzero) hdig ?_
          (by simp) (by simp) rfl ?_
        · intro v hv
          obtain ⟨hfound, hprev⟩ := hsig v hv
          simp only [hsha] at hprev
          refine ⟨_, .chunk (hread.chain v hv) ?_⟩
          rw [← hext (by simp [hv]), ← hprev]
          exact hfound
        · simp [hbs]
    · next hpos =>
      have hdigits : head.digits ≠ [] := by
        intro h
        rw [hcur, ChunkHead.size, h] at hpos
        exact hpos rfl
      refine .data chunks head [] rfl hread.digits hdigits (by simp [hread.written])
        (fun v hv => hread.chain v hv) ?_ hext ⟨rfl, rfl⟩ ?_ ?_
      · simp [hsha, shaOf]
      · simp [hcur]
      · simp [hbs]

/-- Bytes of a chunk's data -/
theorem Parsed.data_step {head : ChunkHead} {p q : Bytes} (hstate : c.state = .data)
    (hdigits : ∀ d ∈ chunks, d.head.digits ≠ []) (hhead : head.digits ≠ [])
    (hwritten : c.written = chunks.flatMap DataChunk.payload ++ p)
    (hchain : ∀ v, env.verify = some v → ChunkChain env v (signedParts chunks) c.prevSig)
    (hsha : c.sha = shaOf env p) (hext : env.verify.isSome → c.ext = head.signed)
    (hfresh : SizeFresh c) (hsize : head.size = p.length + c.chunkRemaining)
    (hq : q.length ≤ c.chunkRemaining)
    (hbs : bs = chunks.flatMap DataChunk.bytes ++ (head.line ++ [13, 10] ++ p)) :
    Parsed env (chunkConsumeData env c q) (bs ++ q) := by
  have hcases := chunkConsumeData_cases env hstate q
  have hsha' : (if env.verify.isSome then c.sha ++ q else c.sha) = shaOf env (p ++ q) := by
    rw [hsha]
    unfold shaOf
    split <;> rfl
  generalize chunkConsumeData env c q = d at hcases
  cases hcases with
  | beyond _ _ herr _ | full _ _ _ herr => exact .failed herr
  | taken _ _ =>
    by_cases hmore : q.length < c.chunkRemaining
    · rw [chunkAdvance, dif_pos (by exact hmore)]
      refine .data chunks head (p ++ q) hstate hdigits hhead ?_ hchain hsha' hext
        ⟨hfresh.1, hfresh.2⟩ ?_ ?_
      · simp [chunkTaken, hwritten]
      · simp only [chunkTaken, length_append]
        omega
      · simp [hbs]
    · rw [chunkAdvance, dif_neg (by exact hmore)]
      have hfull : head.size = (p ++ q).length := by
        rw [length_append]
        omega
      rcases s3ChunkVerify_spec env
          { chunkTaken env c q with chunkRemaining := 0, state := .dataCr, owed :=
            (fun h => by cases h) } with
        herr | ⟨prev, hc, hsig⟩
      · exact .failed herr
      · rw [hc]
        refine .dataCr (chunks ++ [⟨head, p ++ q, hfull⟩]) rfl ⟨?_, ?_, ?_⟩ ?_
          ⟨hfresh.1, hfresh.2⟩ ?_
        · simp [chunkTaken, hwritten]
        · intro d hd
          rcases mem_append.mp hd with hd | hd
          · exact hdigits d hd
          · rw [mem_singleton.mp hd]
            exact hhead
        · intro v hv
          obtain ⟨hfound, hprev⟩ := hsig v hv
          have hparts : signedParts (chunks ++ [⟨head, p ++ q, hfull⟩]) =
              signedParts chunks ++ [(head, p ++ q)] := by simp [signedParts]
          have hpayload : (chunkTaken env c q).sha = p ++ q := by
            rw [chunkTaken, hsha', shaOf, if_pos (by simp [hv])]
          simp only [hpayload] at hprev
          rw [hparts]
          change ChunkChain env v _ prev
          rw [hprev]
          refine .chunk (hchain v hv) ?_
          rw [← hext (by simp [hv])]
          exact hprev ▸ hfound
        · cases hv : env.verify with
          | none => simp [chunkTaken, hv, hsha, shaOf]
          | some v => rfl
        · simp [hbs, DataChunk.bytes]

theorem Parsed.crlf_step (ch : UInt8)
    (hread : ChunksRead env c chunks) (hsha : c.sha = []) (hfresh : SizeFresh c)
    (h : c.state = .dataCr ∧ bs ++ [13, 10] = chunks.flatMap DataChunk.bytes ∨
      c.state = .dataLf ∧ bs ++ [10] = chunks.flatMap DataChunk.bytes) :
    Parsed env (chunkScanDataCrlf c ch) (bs ++ [ch]) := by
  unfold chunkScanDataCrlf
  rcases h with ⟨hstate, hbs⟩ | ⟨hstate, hbs⟩
  · rw [if_pos hstate]
    split
    · exact .failed rfl
    · next hcr =>
      obtain rfl : ch = 13 := Decidable.not_not.mp hcr
      exact .dataLf chunks rfl (hread.same rfl rfl) hsha ⟨hfresh.1, hfresh.2⟩ (by simpa using hbs)
  · rw [if_neg (by simp [hstate])]
    split
    · exact .failed rfl
    · next hlf =>
      obtain rfl : ch = 10 := Decidable.not_not.mp hlf
      refine .size chunks [] rfl (hread.same rfl rfl) hsha rfl (fun _ h => by cases h) ?_ ?_
        (by simpa using hbs)
      · exact hfresh.curSize
      · simp [hfresh.sizeDigits]

theorem stripCr_eq_nil {l : Bytes} (h : stripCr l = []) : l = [] ∨ l = [13] := by
  unfold stripCr at h
  split at h
  · next hlast =>
    obtain ⟨init, rfl⟩ := getLast?_eq_some_iff.mp hlast
    rw [dropLast_concat] at h
    exact .inr (by rw [h]; rfl)
  · exact .inl h

theorem take_eq_nil_or_cr {l : Bytes}
    (h : l.take s3ChunkMaxLine = [] ∨ l.take s3ChunkMaxLine = [13]) : l = [] ∨ l = [13] := by
  match l with
  | [] => exact .inl rfl
  | [x] => simpa [s3ChunkMaxLine] using h
  | x :: y :: l => simp [s3ChunkMaxLine] at h

/-- A byte of the trailer -/
theorem Parsed.trailer_step
    {last : ChunkHead} {lines : List Bytes} {line : Bytes} (ch : UInt8)
    (hstate : c.state = .trailer) (hdigits : ∀ d ∈ chunks, d.head.digits ≠ [])
    (hwritten : c.written = chunks.flatMap DataChunk.payload) (hzero : last.size = 0)
    (hlast : last.digits ≠ [] ∨ last.ext ≠ none)
    (hchain : ∀ v, env.verify = some v →
      ∃ sig, ChunkChain env v (signedParts chunks ++ [(last, [])]) sig)
    (hlines : ∀ l ∈ lines, 10 ∉ l ∧ l ≠ [] ∧ l ≠ [13]) (hline : 10 ∉ line)
    (hc : c.line = line.take s3ChunkMaxLine)
    (hbs : bs = chunks.flatMap DataChunk.bytes ++ (last.line ++ [13, 10]) ++
      lines.flatMap (· ++ [10]) ++ line) :
    Parsed env (chunkScanTrailer c ch) (bs ++ [ch]) := by
  unfold chunkScanTrailer
  split
  · next hlf =>
    subst hlf
    split
    · next hblank =>
      have hempty := take_eq_nil_or_cr (hc ▸ stripCr_eq_nil hblank)
      refine .done rfl ?_
      have hstream : bs ++ [10] = chunks.flatMap DataChunk.bytes ++ (last.line ++ [13, 10]) ++
          lines.flatMap (· ++ [10]) ++ (line ++ [10]) ++ [] := by simp [hbs]
      rw [hstream, hwritten]
      exact .mk chunks last lines line [] hdigits hzero hlast hlines hempty hchain
    · next hblank =>
      have hfull : line ≠ [] ∧ line ≠ [13] := by
        constructor <;> rintro rfl <;> exact hblank (by rw [hc]; decide)
      refine .trailer chunks last (lines ++ [line]) [] hstate hdigits hwritten hzero hlast hchain ?_
        (fun h => by cases h) rfl ?_
      · intro l hl
        rcases mem_append.mp hl with hl | hl
        · exact hlines l hl
        · rw [mem_singleton.mp hl]
          exact ⟨hline, hfull⟩
      · simp [hbs]
  · next hlf =>
    have hline' : 10 ∉ line ++ [ch] := by simp [hline, Ne.symm hlf]
    split
    · next hroom =>
      refine .trailer chunks last lines (line ++ [ch]) hstate hdigits hwritten hzero hlast hchain
        hlines hline' ?_ (by simp [hbs])
      rw [hc, length_take] at hroom
      have hlt : line.length < s3ChunkMaxLine := by omega
      simp only [hc]
      rw [take_of_length_le (Nat.le_of_lt hlt),
        take_of_length_le (by simpa [Nat.succ_le_iff] using hlt)]
    · next hroom =>
      refine .trailer chunks last lines (line ++ [ch]) hstate hdigits hwritten hzero hlast hchain
        hlines hline' ?_ (by simp [hbs])
      rw [hc, length_take] at hroom
      have hle : s3ChunkMaxLine ≤ line.length := by omega
      rw [hc, take_append_of_le_length hle]

/-! ## Spans and bodies -/

theorem ChunkedStream.append {written : Bytes} (h : ChunkedStream env bs written)
    (q : Bytes) : ChunkedStream env (bs ++ q) written := by
  cases h with
  | mk chunks last lines blank rest hdigits hzero hlast hlines hblank hchain =>
    rw [append_assoc]
    exact .mk chunks last lines blank (rest ++ q) hdigits hzero hlast hlines hblank hchain

theorem Parsed.ended (h : Parsed env c bs) (hc : c.ended = true)
    (q : Bytes) : Parsed env c (bs ++ q) := by
  have hc : c.state = .done ∨ c.state = .error := by simpa [ChunkCtx.ended] using hc
  cases h with
  | failed herr => exact .failed herr
  | done hdone hstream => exact .done hdone (hstream.append q)
  | size _ _ hstate | ext _ _ _ hstate | sizeLf _ _ hstate | data _ _ _ hstate | dataCr _ hstate
  | dataLf _ hstate | trailer _ _ _ _ hstate => simp [hstate] at hc

/-- **One turn** of the parser keeps what the bytes so far are. -/
theorem Parsed.step (h : Parsed env c bs)
    (hrun : c.ended = false) (ch : UInt8) (rest : Bytes) :
    ∃ taken, taken ++ (chunkFeedStep env c ch rest).2 = ch :: rest ∧
      Parsed env (chunkFeedStep env c ch rest).1 (bs ++ taken) := by
  cases h with
  | failed herr => simp [ChunkCtx.ended, herr] at hrun
  | done hdone _ => simp [ChunkCtx.ended, hdone] at hrun
  | size chunks digits hstate hread hsha hext hhex hcur hdig hbs =>
    refine ⟨[ch], by simp [chunkFeedStep, hstate], ?_⟩
    simp only [chunkFeedStep, hstate]
    exact Parsed.size_step ch hread hsha hext hstate hhex hcur hdig hbs
  | ext chunks digits e hstate hread hsha hclean hext hhex hcur hbs =>
    refine ⟨[ch], by simp [chunkFeedStep, hstate], ?_⟩
    simp only [chunkFeedStep, hstate]
    exact Parsed.ext_step ch hstate hread hsha hclean hext hhex hcur hbs
  | sizeLf chunks head hstate hread hsha hext hcur hdig hbs =>
    refine ⟨[ch], by simp [chunkFeedStep, hstate], ?_⟩
    simp only [chunkFeedStep, hstate]
    exact Parsed.sizeLf_step ch hread hsha hext hcur hdig hbs
  | data chunks head p hstate hdigits hhead hwritten hchain hsha hext hfresh hsize hbs =>
    rw [chunkFeedStep_data env hstate]
    exact ⟨_, take_append_drop _ _, Parsed.data_step hstate hdigits hhead hwritten hchain hsha
      hext hfresh hsize (length_take_le _ _) hbs⟩
  | dataCr chunks hstate hread hsha hfresh hbs =>
    refine ⟨[ch], by simp [chunkFeedStep, hstate], ?_⟩
    simp only [chunkFeedStep, hstate]
    exact Parsed.crlf_step ch hread hsha hfresh (.inl ⟨hstate, hbs⟩)
  | dataLf chunks hstate hread hsha hfresh hbs =>
    refine ⟨[ch], by simp [chunkFeedStep, hstate], ?_⟩
    simp only [chunkFeedStep, hstate]
    exact Parsed.crlf_step ch hread hsha hfresh (.inr ⟨hstate, hbs⟩)
  | trailer chunks last lines line hstate hdigits hwritten hzero hlast hchain hlines hline hc hbs =>
    refine ⟨[ch], by simp [chunkFeedStep, hstate], ?_⟩
    simp only [chunkFeedStep, hstate]
    exact Parsed.trailer_step ch hstate hdigits hwritten hzero hlast hchain hlines hline hc hbs

theorem Parsed.feed (h : Parsed env c bs) (span : Bytes) :
    Parsed env (s3ChunkFeed env c span) (bs ++ span) := by
  induction hn : span.length using Nat.strongRecOn generalizing c bs span with
  | _ n ih =>
    by_cases hended : c.ended = true
    · rw [s3ChunkFeed_ended env hended]
      exact h.ended hended span
    · have hrun : c.ended = false := by simpa using hended
      cases span with
      | nil => simpa using h
      | cons ch rest =>
        obtain ⟨taken, htaken, hstep⟩ := h.step hrun ch rest
        have hlen : (chunkFeedStep env c ch rest).2.length < n :=
          hn ▸ Nat.lt_succ_of_le (chunkFeedStep_length env c ch rest)
        rw [s3ChunkFeed_cons env hrun, ← htaken, ← append_assoc]
        exact ih _ hlen hstep _ rfl

variable (env)

theorem Parsed.init : Parsed env (s3ChunkDecInit env) [] := by
  refine .size [] [] rfl ⟨rfl, nofun, fun v hv => ?_⟩ rfl rfl nofun rfl nofun rfl
  have hprev : (s3ChunkDecInit env).prevSig = v.seedSignature := by simp [s3ChunkDecInit, hv]
  rw [hprev]
  exact .seed

theorem Parsed.windows (h : Parsed env c bs) {fuel : ℕ}
    {span : Bytes} (hfuel : span.length ≤ fuel) (failsAt : Option ℕ) :
    Parsed env (chunkFeedWindows env fuel c span failsAt) (bs ++ span) := by
  induction fuel generalizing c bs span failsAt with
  | zero =>
    obtain rfl := eq_nil_of_length_eq_zero (Nat.le_zero.mp hfuel)
    rw [append_nil]
    exact h
  | succ n ih =>
    rw [chunkFeedWindows]
    split
    · next hstop =>
      rcases hstop with rfl | hended
      · simpa using h
      · exact h.ended hended span
    · next hgo =>
      split
      · exact .failed rfl
      · have hne : span ≠ [] := fun h => hgo (.inl h)
        have hpos := length_pos_iff.mpr hne
        have hwin : 0 < s3ChunkReadWindow := Nat.mul_pos (by decide) (by decide)
        have hdrop : (span.drop s3ChunkReadWindow).length ≤ n := by
          rw [length_drop]
          omega
        have hrest := ih (h.feed (span.take s3ChunkReadWindow)) hdrop (failsAt.map (· - 1))
        rwa [append_assoc, take_append_drop] at hrest

theorem Parsed.bufs (h : Parsed env c bs) (bufs : List BodyBuf) :
    Parsed env (bufs.foldl (s3ChunkFeedBuf env) c) (bs ++ bufs.flatMap BodyBuf.bytes) := by
  induction bufs generalizing c bs with
  | nil => simpa using h
  | cons b bufs ih =>
    rw [foldl_cons, flatMap_cons, ← append_assoc]
    cases b with
    | memory span => exact ih (h.feed span)
    | spooled span failsAt => exact ih (h.windows env (Nat.le_refl _) failsAt)

theorem s3AwsChunkedDecodeToFd_sound {bufs : List BodyBuf} (hbufs : bufs ≠ [])
    (h : (s3AwsChunkedDecodeToFd env bufs).error = none) :
    ChunkedStream env (bufs.flatMap BodyBuf.bytes) (s3AwsChunkedDecodeToFd env bufs).written ∧
      (s3AwsChunkedDecodeToFd env bufs).written.length = env.expected := by
  have hparsed := (Parsed.init env).bufs env bufs
  rw [nil_append] at hparsed
  rw [s3AwsChunkedDecodeToFd, if_neg hbufs, s3ChunkDecDrain_eq] at h ⊢
  generalize bufs.foldl (s3ChunkFeedBuf env) (s3ChunkDecInit env) = c at h hparsed
  have hdone : c.state = .done ∧ c.written.length = env.expected := by
    simp only [s3ChunkDecRun] at h
    split at h
    · cases h
    · split at h
      · cases h
      · next hok => simpa [not_or] using hok
  refine ⟨?_, hdone.2⟩
  have hstate := hdone.1
  cases hparsed with
  | done _ hstream => exact hstream
  | failed herr => simp [hstate] at herr
  | size _ _ h' | ext _ _ _ h' | sizeLf _ _ h' | data _ _ _ h' | dataCr _ h' | dataLf _ h'
  | trailer _ _ _ _ h' => simp [hstate] at h'

/-- **Decoding an `aws-chunked` body.** In whatever buffers a stream arrives, the verdict is the
same, and with `NGX_OK` so are the bytes written and the trailer; what is accepted is a sequence
of chunks up to a closing empty line, signed throughout where that is asked for, whose payloads
are the bytes written. A body without a buffer is accepted as an empty object. -/
theorem aws_chunked_decode :
    (∀ stream bufs bufs', CutInto stream bufs → CutInto stream bufs' →
      SameVerdict env (s3AwsChunkedDecodeToFd env bufs) (s3AwsChunkedDecodeToFd env bufs')) ∧
    (∀ bufs, bufs ≠ [] → (s3AwsChunkedDecodeToFd env bufs).error = none →
      ChunkedStream env (bufs.flatMap BodyBuf.bytes) (s3AwsChunkedDecodeToFd env bufs).written ∧
        (s3AwsChunkedDecodeToFd env bufs).written.length = env.expected) ∧
    ((s3AwsChunkedDecodeToFd env []).error = none ↔ env.expected = 0) := by
  refine ⟨fun stream bufs bufs' h h' => s3AwsChunkedDecodeToFd_cuts env h h',
    fun bufs hbufs hok => s3AwsChunkedDecodeToFd_sound env hbufs hok, ?_⟩
  simp [s3AwsChunkedDecodeToFd]

/-- A decode without verification onto storage that takes everything -/
def plainChunkEnv (expected : ℕ) : ChunkEnv where
  verify := none
  sha256 := fun _ => []
  hmac := fun _ _ => []
  writable := fun _ => true
  expected := expected

/-- No buffer and an empty one: only the first is accepted. Five bytes where three are declared:
what was written before the refusal is what was in the first buffer. A byte behind the closing
empty line: accepted. -/
theorem cuts_and_rest_matter :
    (¬ ∀ expected bufs bufs', bufs.flatMap BodyBuf.bytes = bufs'.flatMap BodyBuf.bytes →
      (s3AwsChunkedDecodeToFd (plainChunkEnv expected) bufs).error =
        (s3AwsChunkedDecodeToFd (plainChunkEnv expected) bufs').error) ∧
    (¬ ∀ expected bufs bufs', bufs.flatMap BodyBuf.bytes = bufs'.flatMap BodyBuf.bytes →
      (s3AwsChunkedDecodeToFd (plainChunkEnv expected) bufs).written =
        (s3AwsChunkedDecodeToFd (plainChunkEnv expected) bufs').written) ∧
    (¬ ∀ expected bufs, (s3AwsChunkedDecodeToFd (plainChunkEnv expected) bufs).error = none →
      (bufs.flatMap BodyBuf.bytes).getLast? = some 10) := by
  refine ⟨fun h => ?_, fun h => ?_, fun h => ?_⟩
  · exact absurd (h 0 [] [.memory []] rfl) (by decide)
  · exact absurd (h 3 [.memory [53, 13, 10, 104, 101, 108, 108, 111]]
      [.memory [53, 13, 10, 104, 101], .memory [108, 108, 111]] rfl) (by decide)
  · exact absurd (h 0 [.memory [48, 13, 10, 13, 10, 88]] (by decide)) (by decide)

end BrixCache
