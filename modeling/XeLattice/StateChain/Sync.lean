import XeLattice.StateChain.Restart

/-!
# Synchronising the state chain

`statechain/sync.go`: a node tells a peer the index of its tip, the peer answers with the blocks
behind it in pages, and the node adds them one by one.  The server counts blocks, the client bytes:
it reads the whole answer through one limit of `syncMaxResponseSize`, so that blocks within the
server's cap need not arrive.

* **`statechain_sync_iff`**: when one exchange brings the client to the server's tip.
-/

set_option autoImplicit false
set_option maxRecDepth 100000

namespace Xe.StateChain

/-! ## The server -/

/-- `syncPageSize`. -/
def syncPageSize : UInt64 := 64

/-- `syncMaxBlocks`. -/
def syncMaxBlocks : ℕ := 10000

/-- `syncMaxResponseSize`. -/
def syncMaxResponseSize : ℕ := 10 * 2 ^ 20

/-- `syncResponse`. -/
structure SyncResponse where
  blocks : List Block
  hasMore : Bool
  deriving DecidableEq

/-- The text of a response whose raw values are valid; a slice without blocks is nil. -/
def SyncResponse.toJSON (r : SyncResponse) : Str :=
  jsonObject [jsonField "blocks"
      (if r.blocks = [] then str "null" else jsonArray (r.blocks.map Block.toJSON)),
    jsonField "has_more" (if r.hasMore then str "true" else str "false")]

/-- `Encode` of a response, without the line feed. -/
def SyncResponse.marshalJSON (json : Json) (r : SyncResponse) : Except GoError Str := do
  checkAll (fun b => checkValues json b.ops) r.blocks
  .ok r.toJSON

/-- `GetBlocks`. -/
def Chain.getBlocks (c : Chain) (start limit : UInt64) : List Block :=
  if start = 0 then
    if limit ≤ 1 then [c.genesis]
    else c.genesis :: getStateBlockRange c.kind c.store 1 (limit - 1).toNat
  else getStateBlockRange c.kind c.store start limit.toNat

section Server

variable (json : Json) (c : Chain)

/-- The loop of `handleSyncStream` for a given number of passes. -/
def servePages : ℕ → UInt64 → ℕ → Option (List SyncResponse)
  | 0, _, _ => none
  | fuel + 1, idx, totalSent =>
    if idx ≤ c.tip.index ∧ totalSent < syncMaxBlocks then
      let remaining := c.tip.index - idx + 1
      let pageCount := if remaining < syncPageSize then remaining else syncPageSize
      let blocks := c.getBlocks idx pageCount
      let totalSent := totalSent + blocks.length
      let hasMore := decide (idx + UInt64.ofNat blocks.length ≤ c.tip.index ∧
        totalSent < syncMaxBlocks)
      match SyncResponse.marshalJSON json ⟨blocks, hasMore⟩ with
      | .error _ => some []
      | .ok _ => (servePages fuel (idx + UInt64.ofNat blocks.length) totalSent).map
          (⟨blocks, hasMore⟩ :: ·)
    else some []

/-- `handleSyncStream`: the responses that it sends, if its loop ends within the given number of
passes. -/
def handleSyncStream (tipIndex : Int64) (fuel : ℕ) : Option (List SyncResponse) :=
  if tipIndex < -1 ∨ (0 ≤ tipIndex ∧ c.tip.index < tipIndex.toUInt64) then some [⟨[], false⟩]
  else
    let startIndex := (tipIndex + 1).toUInt64
    let startIndex := if startIndex = 0 then 1 else startIndex
    if c.tip.index < startIndex then some [⟨[], false⟩]
    else servePages json c fuel startIndex 0

end Server

/-! ## The client -/

section Client

variable (lib : Lib) (json : Json)

/-- One received block: an error is only logged. -/
def addReceived (s : Chain × ℕ) (b : Block) : Chain × ℕ :=
  match addBlock lib json s.1 b with
  | .error _ => s
  | .ok c => (c, s.2 + 1)

/-- The loop of `requestSync` over the responses in the stream, with the bytes that may still be
read.  A response that does not end within them is lost: the decoder meets the end of the stream
inside it, or in front of it. -/
def requestLoop : ℕ → List SyncResponse → Chain × ℕ → Chain × Except GoError Unit
  | _, [], s => (s.1, .ok ())
  | budget, resp :: rest, s =>
    if budget < resp.toJSON.length then
      (s.1, if budget = 0 then .ok () else .error (errorf (str "unexpected EOF")))
    else
      let s := (resp.blocks.map Block.copied).foldl (addReceived lib json) s
      if !resp.hasMore then (s.1, .ok ())
      else if s.2 ≥ syncMaxBlocks then (s.1, .ok ())
      else requestLoop (budget - resp.toJSON.length - 1) rest s

/-- `Tip().Index`. -/
def Chain.tipIndex (c : Chain) : Int64 :=
  c.tip.index.toInt64

/-- `requestSync`, behind the request: the chain it leaves, and its error. -/
def requestSync (c : Chain) (responses : List SyncResponse) : Chain × Except GoError Unit :=
  requestLoop lib json syncMaxResponseSize responses (c, 0)

end Client

/-! ## What an exchange should do -/

/-- **A complete exchange**: the responses carry the missing indices, each once and in order, the
last of them and no other ends the answer, and the client is left with what the server has. -/
structure Exchanged (client server : Chain) (responses : List SyncResponse) (left : Chain) :
    Prop where
  sent : (responses.flatMap fun r => r.blocks.map fun b => b.index.toNat) =
    List.range' (client.tip.index.toNat + 1) (server.tip.index.toNat - client.tip.index.toNat)
  ended : ∃ front last, responses = front ++ [last] ∧ last.hasMore = false ∧
    ∀ r ∈ front, r.hasMore = true
  tip : left.tip = server.tip
  kv : left.kv = server.kv

/-- Pages of 64 blocks. -/
def pagesOf (bs : List Block) : List SyncResponse :=
  if bs.length ≤ 64 then [⟨bs, false⟩] else ⟨bs.take 64, true⟩ :: pagesOf (bs.drop 64)
termination_by bs.length
decreasing_by
  rw [List.length_drop]
  omega

/-- The bytes of the responses, each with its line feed. -/
def wireSize (responses : List SyncResponse) : ℕ :=
  (responses.map fun r => r.toJSON.length + 1).sum

/-! ## Two nodes -/

section Nodes

variable {lib : Lib} {json : Json} {kind kind' : StoreKind} {g b : Block} {bs more : List Block}
  {c c' : Chain}

theorem Run.concat_inv (h : Run lib json kind g (bs ++ [b]) c) :
    ∃ c₀, Run lib json kind g bs c₀ ∧ c₀.tip.index < b.index ∧ addBlock lib json c₀ b = .ok c := by
  generalize hl : bs ++ [b] = l at h
  cases h with
  | start => simp at hl
  | add hrun hnew hadd =>
    obtain ⟨rfl, hb⟩ := List.append_inj' hl rfl
    obtain rfl := List.singleton_inj.mp hb
    exact ⟨_, hrun, hnew, hadd⟩

theorem Run.start_with (h : Run lib json kind g (bs ++ more) c) :
    ∃ c₀, Run lib json kind g bs c₀ := by
  induction more using List.reverseRecOn generalizing c with
  | nil => exact ⟨c, by rwa [List.append_nil] at h⟩
  | append_singleton more b ih =>
    rw [← List.append_assoc] at h
    obtain ⟨c₀, h₀, -⟩ := h.concat_inv
    exact ih h₀

theorem Admitted.of_same (hkv : c'.kv = c.kv) (htip : c'.tip = c.tip) (h : Admitted lib json c b) :
    Admitted lib json c' b where
  hash := h.hash
  above := htip ▸ h.above
  index := htip ▸ h.index
  prevHash := htip ▸ h.prevHash
  timestamp := htip ▸ h.timestamp
  ops := h.ops
  values := h.values
  size := h.size
  valid := h.valid
  transition := by
    rw [hkv, htip]
    exact h.transition
  authorised := by
    rw [← h.authorised]
    unfold authorise authoriseOracle authoriseDAO
    rw [hkv]

/-- **Nodes with the same blocks are in the same state.** -/
theorem Run.same (h : Run lib json kind g bs c) (h' : Run lib json kind' g bs c') :
    c'.kv = c.kv ∧ c'.tip = c.tip := by
  induction bs using List.reverseRecOn generalizing c c' with
  | nil =>
    have hnil : ∀ {kind c}, Run lib json kind g [] c →
        c.kv = applyOps Table.empty g.ops ∧ c.tip = g := by
      intro kind c hrun
      generalize hl : ([] : List Block) = l at hrun
      cases hrun with
      | start hnew =>
        rw [(newChain_empty hnew).2]
        exact ⟨rfl, rfl⟩
      | add => simp at hl
    rw [(hnil h).1, (hnil h).2]
    exact hnil h'
  | append_singleton bs b ih =>
    obtain ⟨c₀, h₀, hnew, hadd⟩ := h.concat_inv
    obtain ⟨c₀', h₀', hnew', hadd'⟩ := h'.concat_inv
    obtain ⟨hkv, -⟩ := ih h₀ h₀'
    obtain ⟨-, rfl⟩ := addBlock_new hadd hnew
    obtain ⟨-, rfl⟩ := addBlock_new hadd' hnew'
    exact ⟨congrArg (applyOps · b.ops) hkv, rfl⟩

/-- **A block that one node has accepted is accepted by another** that has the blocks before it. -/
theorem Run.extends {d : Chain} (h : Run lib json kind g bs c)
    (h' : Run lib json kind' g (bs ++ [b]) d) :
    addBlock lib json c b = .ok (c.appended b) ∧
      Run lib json kind g (bs ++ [b]) (c.appended b) := by
  obtain ⟨c₀, h₀, hnew, hadd⟩ := h'.concat_inv
  obtain ⟨hkv, htip⟩ := h₀.same h
  have hok := ((addBlock_new hadd hnew).1.of_same hkv htip).addBlock
  exact ⟨hok, h.add (htip ▸ hnew) hok⟩

theorem Run.received {d : Chain} (h : Run lib json kind g bs c)
    (h' : Run lib json kind' g (bs ++ more) d) (n : ℕ) :
    ∃ c', more.foldl (addReceived lib json) (c, n) = (c', n + more.length) ∧
      Run lib json kind g (bs ++ more) c' := by
  induction more generalizing bs c n with
  | nil => exact ⟨c, rfl, by rwa [List.append_nil]⟩
  | cons b more ih =>
    rw [List.append_cons] at h'
    obtain ⟨d₀, h₀⟩ := h'.start_with
    obtain ⟨hadd, hrun⟩ := h.extends h₀
    obtain ⟨c', hfold, hrun'⟩ := ih hrun h' (n + 1)
    refine ⟨c', ?_, by rwa [List.append_cons]⟩
    have hstep : addReceived lib json (c, n) b = (c.appended b, n + 1) := by
      rw [addReceived, hadd]
    rw [List.foldl_cons, hstep, hfold, List.length_cons]
    congr 1
    omega

end Nodes

/-! ## What the server reads -/

section Reading

variable {lib : Lib} {json : Json} {kind kind' : StoreKind} {g b : Block} {bs : List Block}
  {c : Chain}

/-- The values of a block are in the form in which `encoding/json` writes them. -/
def Block.Compact (b : Block) : Prop :=
  ∀ op ∈ b.ops, compact op.value = op.value

theorem Run.kept_eq (h : Run lib json kind g bs c) (hb : b ∈ bs) (hcompact : b.Compact)
    (kind' : StoreKind) : keptBlock kind' b = b := by
  obtain ⟨c₁, hadm⟩ := h.admitted b hb
  have hops : b.ops.map (Op.withValue (keptValue kind')) = b.ops := by
    conv_rhs => rw [← List.map_id b.ops]
    refine List.map_congr_left fun op hop => ?_
    rw [Op.withValue, keptValue_eq_iff.mpr (hcompact op hop)]
    rfl
  rw [hadm.kept_eq, hops]

theorem Run.getBlocks_page (h : Run lib json kind g bs c) {idx : UInt64} {i : ℕ}
    (hidx : idx.toNat = i + 1) (hi : i < bs.length) :
    c.getBlocks idx (if c.tip.index - idx + 1 < syncPageSize then c.tip.index - idx + 1
        else syncPageSize) = ((bs.drop i).take 64).map (keptBlock kind) := by
  obtain ⟨rfl, -, hstore, hindexed, htip⟩ := h.stored
  have hbound := c.tip.index.toNat_lt
  have hrem : (c.tip.index - idx + 1).toNat = bs.length - i := by
    rw [UInt64.toNat_add, UInt64.toNat_sub_of_le _ _ (UInt64.le_iff_toNat_le.mpr (by omega)), hidx,
      htip, UInt64.toNat_one]
    omega
  have hsize : syncPageSize.toNat = 64 := rfl
  have hne : idx ≠ 0 := by
    rintro rfl
    cases hidx
  rw [Chain.getBlocks, if_neg hne, hstore]
  split_ifs with hlt
  · have hlt' := UInt64.lt_iff_toNat_lt.mp hlt
    have hlen : (bs.drop i).length ≤ 64 := by
      rw [List.length_drop]
      omega
    rw [getStateBlockRange_slice hindexed _ hidx (by omega), hrem,
      List.take_of_length_le (List.length_drop.le), List.take_of_length_le hlen]
  · have hge := UInt64.not_lt.mp hlt
    have hge' := UInt64.le_iff_toNat_le.mp hge
    rw [getStateBlockRange_slice hindexed _ hidx (by omega), hsize]

theorem marshalJSON_page (h : Run lib json kind g bs c) {page : List Block}
    (hpage : ∀ b ∈ page, b ∈ bs) (more : Bool) :
    SyncResponse.marshalJSON json ⟨page, more⟩ = .ok (SyncResponse.toJSON ⟨page, more⟩) := by
  refine bind_eq_ok.mpr ⟨(), checkAll_eq_ok.mpr fun b hb => ?_, rfl⟩
  obtain ⟨_, hadm⟩ := h.admitted b (hpage b hb)
  exact hadm.values

/-- **What the server sends**: the pages of the blocks from an index on. -/
theorem servePages_eq (h : Run lib json kind g bs c) (hsmall : bs.length + 64 < 2 ^ 64) {fuel : ℕ}
    {idx : UInt64} {i totalSent : ℕ} (hidx : idx.toNat = i + 1) (hi : i < bs.length)
    (hcompact : ∀ b ∈ bs.drop i, b.Compact) (hcap : totalSent + (bs.length - i) ≤ syncMaxBlocks)
    (hfuel : bs.length - i < fuel) :
    servePages json c fuel idx totalSent = some (pagesOf (bs.drop i)) := by
  obtain ⟨-, -, -, -, htip⟩ := h.stored
  induction fuel generalizing idx i totalSent with
  | zero => omega
  | succ fuel ih =>
    have hpos : idx ≤ c.tip.index ∧ totalSent < syncMaxBlocks :=
      ⟨UInt64.le_iff_toNat_le.mpr (by omega), by omega⟩
    have hkept : ((bs.drop i).take 64).map (keptBlock kind) = (bs.drop i).take 64 := by
      conv_rhs => rw [← List.map_id ((bs.drop i).take 64)]
      refine List.map_congr_left fun b hb => ?_
      have hb' := List.mem_of_mem_take hb
      exact h.kept_eq (List.mem_of_mem_drop hb') (hcompact b hb') kind
    have hlen : ((bs.drop i).take 64).length = min 64 (bs.length - i) := by
      rw [List.length_take, List.length_drop]
    have hnext : (idx + UInt64.ofNat (min 64 (bs.length - i))).toNat =
        i + min 64 (bs.length - i) + 1 := by
      rw [UInt64.toNat_add, UInt64.toNat_ofNat', hidx]
      omega
    have hle : idx + UInt64.ofNat (min 64 (bs.length - i)) ≤ c.tip.index ↔
        i + min 64 (bs.length - i) < bs.length := by
      rw [UInt64.le_iff_toNat_le, hnext, htip]
      omega
    rw [servePages, if_pos hpos]
    dsimp only
    rw [h.getBlocks_page hidx hi, hkept, hlen, marshalJSON_page h fun b hb =>
      List.mem_of_mem_drop (List.mem_of_mem_take hb)]
    dsimp only
    rw [pagesOf]
    split_ifs with hlast
    · -- the last page: the next pass finds nothing to send
      rw [List.length_drop] at hlast
      have hend : ¬ (idx + UInt64.ofNat (min 64 (bs.length - i)) ≤ c.tip.index) := by
        rw [hle]
        omega
      obtain ⟨fuel, rfl⟩ := Nat.exists_eq_succ_of_ne_zero (show fuel ≠ 0 by omega)
      rw [servePages, if_neg fun hmore => hend hmore.1,
        decide_eq_false fun hmore => hend hmore.1, List.take_of_length_le (by simpa using hlast)]
      rfl
    · rw [List.length_drop] at hlast
      have hmin : min 64 (bs.length - i) = 64 := by omega
      have hmore : idx + UInt64.ofNat (min 64 (bs.length - i)) ≤ c.tip.index ∧
          totalSent + min 64 (bs.length - i) < syncMaxBlocks := ⟨hle.mpr (by omega), by omega⟩
      rw [decide_eq_true hmore, List.drop_drop]
      have hrest : servePages json c fuel (idx + UInt64.ofNat (min 64 (bs.length - i)))
          (totalSent + min 64 (bs.length - i)) = some (pagesOf (bs.drop (i + 64))) :=
        ih (by omega) (by omega)
          (fun b hb => hcompact b (List.mem_of_mem_drop (by rwa [List.drop_drop])))
          (by omega) (by omega)
      rw [hrest]
      rfl

end Reading

/-! ## The request -/

theorem toInt_toInt64 (x : UInt64) : x.toInt64.toInt = (x.toNat : ℤ).bmod (2 ^ 64) :=
  BitVec.toInt_eq_toNat_bmod x.toBitVec

theorem toInt64_lt_neg_one_iff (x : UInt64) :
    x.toInt64 < -1 ↔ 2 ^ 63 ≤ x.toNat ∧ x.toNat + 1 < 2 ^ 64 := by
  have hone : (-1 : Int64).toInt = -1 := rfl
  have hlt := x.toNat_lt
  rw [Int64.lt_iff_toInt_lt, toInt_toInt64, hone, Int.bmod_def]
  split <;> omega

theorem zero_le_toInt64_iff (x : UInt64) : 0 ≤ x.toInt64 ↔ x.toNat < 2 ^ 63 := by
  have hzero : (0 : Int64).toInt = 0 := rfl
  have hlt := x.toNat_lt
  rw [Int64.le_iff_toInt_le, toInt_toInt64, hzero, Int.bmod_def]
  split <;> omega

theorem toUInt64_toInt64_succ (x : UInt64) : (x.toInt64 + 1).toUInt64 = x + 1 := by
  rw [Int64.toUInt64_add, UInt64.toUInt64_toInt64]
  rfl

section Request

variable {lib : Lib} {json : Json} {kind kind' : StoreKind} {g : Block} {bs more : List Block}
  {client server : Chain}

theorem pagesOf_nil : pagesOf [] = [⟨[], false⟩] := by
  rw [pagesOf]
  rfl

/-- **The answer to a client that is behind by the blocks `more`.** -/
theorem handleSyncStream_eq (hc : Run lib json kind g bs client)
    (hs : Run lib json kind' g (bs ++ more) server) (hcompact : ∀ b ∈ more, b.Compact)
    (hcap : more.length ≤ syncMaxBlocks) (hsmall : bs.length < 2 ^ 63) {fuel : ℕ}
    (hfuel : more.length < fuel) :
    handleSyncStream json server client.tipIndex fuel = some (pagesOf more) := by
  obtain ⟨-, -, -, -, hclient⟩ := hc.stored
  obtain ⟨-, -, -, -, hserver⟩ := hs.stored
  rw [List.length_append] at hserver
  have hstart : (client.tip.index + 1).toNat = bs.length + 1 := by
    rw [UInt64.toNat_add, hclient, UInt64.toNat_one]
    omega
  have hne : client.tip.index + 1 ≠ 0 := by
    intro hz
    rw [hz] at hstart
    cases hstart
  have hknown : ¬ (client.tip.index.toInt64 < -1 ∨
      (0 ≤ client.tip.index.toInt64 ∧ server.tip.index < client.tip.index.toInt64.toUInt64)) := by
    rw [toInt64_lt_neg_one_iff, UInt64.toUInt64_toInt64, UInt64.lt_iff_toNat_lt, hclient, hserver]
    omega
  unfold handleSyncStream Chain.tipIndex
  rw [if_neg hknown, toUInt64_toInt64_succ]
  dsimp only
  rw [if_neg hne]
  split_ifs with hdone
  · have hdone' := UInt64.lt_iff_toNat_lt.mp hdone
    obtain rfl : more = [] := List.length_eq_zero_iff.mp (by omega)
    rw [pagesOf_nil]
  · have hle := UInt64.le_iff_toNat_le.mp (UInt64.not_lt.mp hdone)
    have hcap' : syncMaxBlocks = 10000 := rfl
    have hdrop : (bs ++ more).drop bs.length = more := List.drop_left
    have hlen : (bs ++ more).length = bs.length + more.length := List.length_append
    have hpages : servePages json server fuel (client.tip.index + 1) 0 =
        some (pagesOf ((bs ++ more).drop bs.length)) :=
      servePages_eq hs (by omega) hstart (by omega) (fun b hb => hcompact b (hdrop ▸ hb)) (by omega)
        (by omega)
    rw [hpages, hdrop]

/-- A client whose index is negative in the request is told that there is nothing. -/
theorem handleSyncStream_negative (hc : Run lib json kind g bs client)
    (hlarge : 2 ^ 63 ≤ bs.length) (hlast : bs.length + 1 < 2 ^ 64) (fuel : ℕ) :
    handleSyncStream json server client.tipIndex fuel = some [⟨[], false⟩] := by
  obtain ⟨-, -, -, -, hclient⟩ := hc.stored
  have hneg : client.tip.index.toInt64 < -1 := by
    rw [toInt64_lt_neg_one_iff, hclient]
    exact ⟨hlarge, hlast⟩
  unfold handleSyncStream Chain.tipIndex
  rw [if_pos (.inl hneg)]

/-- At the very last index the request asks for everything, and the server starts to send it. -/
theorem handleSyncStream_last (hc : Run lib json kind g bs client)
    (hs : Run lib json kind' g bs server) (hlast : bs.length + 1 = 2 ^ 64) {fuel : ℕ}
    {responses : List SyncResponse}
    (h : handleSyncStream json server client.tipIndex fuel = some responses) :
    responses = [] ∨ ∃ r rest, responses = r :: rest ∧ r.blocks.length = 64 := by
  obtain ⟨-, -, -, -, hclient⟩ := hc.stored
  obtain ⟨-, -, -, -, hserver⟩ := hs.stored
  have hone : (1 : UInt64).toNat = 0 + 1 := rfl
  have hwrap : client.tip.index + 1 = 0 := by
    rw [← UInt64.toNat_inj, UInt64.toNat_add, hclient, UInt64.toNat_one, hlast]
    rfl
  have hask : ¬ (client.tip.index.toInt64 < -1 ∨
      (0 ≤ client.tip.index.toInt64 ∧ server.tip.index < client.tip.index.toInt64.toUInt64)) := by
    rw [toInt64_lt_neg_one_iff, zero_le_toInt64_iff, hclient]
    omega
  have hbegin : ¬ server.tip.index < 1 := by
    rw [UInt64.lt_iff_toNat_lt, hserver, hone]
    omega
  unfold handleSyncStream Chain.tipIndex at h
  rw [if_neg hask, toUInt64_toInt64_succ] at h
  dsimp only at h
  rw [if_pos hwrap, if_neg hbegin] at h
  cases fuel with
  | zero => cases h
  | succ fuel =>
    rw [servePages] at h
    dsimp only at h
    rw [hs.getBlocks_page hone (by omega)] at h
    split_ifs at h
    · split at h
      · cases h
        exact .inl rfl
      · obtain ⟨rest, -, rfl⟩ := Option.map_eq_some_iff.mp h
        refine .inr ⟨_, rest, rfl, ?_⟩
        rw [List.length_map, List.length_take, List.drop_zero]
        omega
    · cases h
      exact .inl rfl

end Request

/-! ## What the client keeps -/

section Keeping

variable {lib : Lib} {json : Json} {kind kind' : StoreKind} {g : Block} {bs more : List Block}
  {client server : Chain}

theorem wireSize_cons (r : SyncResponse) (rest : List SyncResponse) :
    wireSize (r :: rest) = r.toJSON.length + 1 + wireSize rest := by
  rw [wireSize, List.map_cons, List.sum_cons]
  rfl

theorem length_toJSON_pos (r : SyncResponse) : 0 < r.toJSON.length := by
  rw [SyncResponse.toJSON, jsonObject, List.length_append, List.length_append,
    List.length_singleton]
  omega

theorem wireSize_pagesOf (bs : List Block) : 2 ≤ wireSize (pagesOf bs) := by
  rw [pagesOf]
  split_ifs
  · have := length_toJSON_pos ⟨bs, false⟩
    rw [wireSize_cons]
    omega
  · have := length_toJSON_pos ⟨bs.take 64, true⟩
    rw [wireSize_cons]
    omega

/-- **How far the client comes**: to the end of the blocks exactly when their pages are not longer
than what it reads. -/
theorem requestLoop_pagesOf (budget added : ℕ) (hc : Run lib json kind g bs client)
    (hs : Run lib json kind' g (bs ++ more) server) (hcompact : ∀ b ∈ more, b.Compact)
    (hcap : added + more.length ≤ syncMaxBlocks) (hne : more ≠ []) :
    ∃ n, n ≤ more.length ∧
      Run lib json kind g (bs ++ more.take n)
        (requestLoop lib json budget (pagesOf more) (client, added)).1 ∧
      (n = more.length ↔ wireSize (pagesOf more) ≤ budget + 1) := by
  have hpos : 0 < more.length := List.length_pos_iff.mpr hne
  induction hlen : more.length using Nat.strong_induction_on
    generalizing more bs client budget added with
  | _ len ih =>
    subst hlen
    have hcopied : ∀ page : List Block, (∀ b ∈ page, b ∈ more) →
        page.map Block.copied = page := by
      intro page hpage
      conv_rhs => rw [← List.map_id page]
      exact List.map_congr_left fun b hb => hs.kept_eq (List.mem_append_right _ (hpage b hb))
        (hcompact b (hpage b hb)) .badger
    have hlost : ∀ r rest, budget < r.toJSON.length →
        ∃ n, n ≤ more.length ∧ Run lib json kind g (bs ++ more.take n)
          (requestLoop lib json budget (r :: rest) (client, added)).1 ∧
        (n = more.length ↔ wireSize (r :: rest) ≤ budget + 1) := by
      intro r rest hlt
      rw [requestLoop, if_pos hlt, wireSize_cons]
      refine ⟨0, Nat.zero_le _, by rwa [List.take_zero, List.append_nil], ?_⟩
      omega
    rw [pagesOf]
    split_ifs with hlast
    · by_cases hlt : budget < (SyncResponse.toJSON ⟨more, false⟩).length
      · exact hlost _ _ hlt
      · obtain ⟨c', hfold, hrun⟩ := hc.received hs added
        rw [requestLoop, if_neg hlt]
        dsimp only
        rw [hcopied more fun _ hb => hb, hfold]
        refine ⟨more.length, le_rfl, by rwa [List.take_length], ?_⟩
        rw [wireSize_cons]
        have hnil : wireSize [] = 0 := rfl
        omega
    · by_cases hlt : budget < (SyncResponse.toJSON ⟨more.take 64, true⟩).length
      · exact hlost _ _ hlt
      · have hsplit : bs ++ more = bs ++ more.take 64 ++ more.drop 64 := by
          rw [List.append_assoc, List.take_append_drop]
        rw [hsplit] at hs
        obtain ⟨d, hd⟩ := hs.start_with
        obtain ⟨c', hfold, hrun⟩ := hc.received hd added
        have htake : (more.take 64).length = 64 := by
          rw [List.length_take]
          omega
        have hdrop : (more.drop 64).length = more.length - 64 := List.length_drop
        have hroom : ¬ added + 64 ≥ syncMaxBlocks := by omega
        rw [requestLoop, if_neg hlt]
        dsimp only
        rw [hcopied (more.take 64) fun _ hb => List.mem_of_mem_take hb, hfold, htake]
        dsimp only
        rw [if_neg (by decide), if_neg hroom]
        have hrest : more.drop 64 ≠ [] := List.length_pos_iff.mp (by omega)
        obtain ⟨n, hn, hrun', hiff⟩ : ∃ n, n ≤ (more.drop 64).length ∧
            Run lib json kind g (bs ++ more.take 64 ++ (more.drop 64).take n)
              (requestLoop lib json
                (budget - (SyncResponse.toJSON ⟨more.take 64, true⟩).length - 1)
                (pagesOf (more.drop 64)) (c', added + 64)).1 ∧
            (n = (more.drop 64).length ↔ wireSize (pagesOf (more.drop 64)) ≤
              budget - (SyncResponse.toJSON ⟨more.take 64, true⟩).length - 1 + 1) :=
          ih (more.drop 64).length (by omega) _ _ hrun hs
            (fun b hb => hcompact b (List.mem_of_mem_drop hb)) (by omega) hrest (by omega) rfl
        refine ⟨64 + n, by omega, ?_, ?_⟩
        · rwa [List.append_assoc, ← List.take_add] at hrun'
        · rw [wireSize_cons]
          have := wireSize_pagesOf (more.drop 64)
          omega

end Keeping

/-! ## The exchange -/

section Exchange

variable {lib : Lib} {json : Json} {kind kind' : StoreKind} {g : Block} {bs more : List Block}
  {client server : Chain}

theorem flatMap_blocks_pagesOf {α : Type} (f : Block → α) (bs : List Block) :
    ((pagesOf bs).flatMap fun r => r.blocks.map f) = bs.map f := by
  induction bs using pagesOf.induct with
  | case1 bs hlast =>
    rw [pagesOf, if_pos hlast]
    exact List.append_nil _
  | case2 bs hlong ih =>
    rw [pagesOf, if_neg hlong, List.flatMap_cons, ih, ← List.map_append, List.take_append_drop]

theorem pagesOf_ended (bs : List Block) : ∃ front last, pagesOf bs = front ++ [last] ∧
    last.hasMore = false ∧ ∀ r ∈ front, r.hasMore = true := by
  induction bs using pagesOf.induct with
  | case1 bs hlast =>
    rw [pagesOf, if_pos hlast]
    exact ⟨[], ⟨bs, false⟩, rfl, rfl, by simp⟩
  | case2 bs hlong ih =>
    obtain ⟨front, last, he, hend, hmore⟩ := ih
    rw [pagesOf, if_neg hlong, he]
    exact ⟨⟨bs.take 64, true⟩ :: front, last, rfl, hend,
      List.forall_mem_cons.mpr ⟨rfl, hmore⟩⟩

theorem Run.missing_indices (hc : Run lib json kind g bs client)
    (hs : Run lib json kind' g (bs ++ more) server) :
    (more.map fun b => b.index.toNat) =
      List.range' (client.tip.index.toNat + 1)
        (server.tip.index.toNat - client.tip.index.toNat) := by
  obtain ⟨-, -, -, -, hclient⟩ := hc.stored
  obtain ⟨-, -, -, hindexed, hserver⟩ := hs.stored
  rw [hclient, hserver, List.length_append, Nat.add_sub_cancel_left]
  refine List.ext_getElem? fun i => ?_
  rw [List.getElem?_map]
  by_cases hi : i < more.length
  · have hget : more[i]? = some more[i] := List.getElem?_eq_getElem hi
    have hindex := hindexed (bs.length + i) more[i] (by
      rw [List.getElem?_append_right (Nat.le_add_right _ _), Nat.add_sub_cancel_left, hget])
    rw [hget, Option.map_some, hindex, List.getElem?_range' hi]
    congr 1
    omega
  · rw [List.getElem?_eq_none (by omega), List.getElem?_eq_none (by rw [List.length_range']; omega)]
    rfl

theorem requestSync_pagesOf (hc : Run lib json kind g bs client)
    (hs : Run lib json kind' g (bs ++ more) server) (hcompact : ∀ b ∈ more, b.Compact)
    (hcap : more.length ≤ syncMaxBlocks) :
    ((requestSync lib json client (pagesOf more)).1.tip = server.tip ∧
        (requestSync lib json client (pagesOf more)).1.kv = server.kv) ↔
      wireSize (pagesOf more) ≤ syncMaxResponseSize + 1 := by
  rcases eq_or_ne more [] with rfl | hne
  · rw [List.append_nil] at hs
    obtain ⟨hkv, htip⟩ := hs.same hc
    have hsize : wireSize (pagesOf []) ≤ syncMaxResponseSize + 1 := by
      rw [pagesOf_nil]
      decide +kernel
    have hleft : (requestSync lib json client (pagesOf [])).1 = client := by
      rw [pagesOf_nil, requestSync, requestLoop]
      split_ifs <;> rfl
    rw [hleft]
    exact iff_of_true ⟨htip, hkv⟩ hsize
  · obtain ⟨n, hn, hrun, hiff⟩ :=
      requestLoop_pagesOf syncMaxResponseSize 0 hc hs hcompact (by omega) hne
    rw [← hiff]
    refine ⟨fun hleft => ?_, fun hall => ?_⟩
    · -- the tips have different indices unless all blocks have arrived
      have hindex := hrun.stored.2.2.2.2
      have hserver := hs.stored.2.2.2.2
      rw [show (requestLoop lib json syncMaxResponseSize (pagesOf more) (client, 0)).1.tip =
        server.tip from hleft.1, hserver, List.length_append, List.length_append,
        List.length_take] at hindex
      omega
    · rw [hall, List.take_length] at hrun
      exact (hs.same hrun).symm

/-- The answer reaches the client: its tip has an index that the request can carry (or it is up to
date below the last index of all), and the missing blocks, written in pages of 64, are not longer
than what the client reads. -/
def Deliverable (client : Chain) (more : List Block) : Prop :=
  (client.tip.index.toNat < 2 ^ 63 ∨ (more = [] ∧ client.tip.index.toNat + 1 < 2 ^ 64)) ∧
    wireSize (pagesOf more) ≤ syncMaxResponseSize + 1

/-- **One exchange brings the client to the server's tip** exactly when the answer is not longer
than what the client reads, and the index of its tip is not negative in the request. -/
theorem statechain_sync_iff (hc : Run lib json kind g bs client)
    (hs : Run lib json kind' g (bs ++ more) server) (hcompact : ∀ b ∈ more, b.Compact)
    (hcap : more.length ≤ syncMaxBlocks) :
    (∃ responses,
      (∃ passes, ∀ fuel, passes ≤ fuel →
        handleSyncStream json server client.tipIndex fuel = some responses) ∧
      Exchanged client server responses (requestSync lib json client responses).1) ↔
      Deliverable client more := by
  have hclient := hc.stored.2.2.2.2
  have hserver := hs.stored.2.2.2.2
  have hbound := server.tip.index.toNat_lt
  rw [List.length_append] at hserver
  have hindices := hc.missing_indices hs
  have hleft := requestSync_pagesOf hc hs hcompact hcap
  unfold Deliverable
  rw [hclient]
  constructor
  · rintro ⟨responses, ⟨passes, hanswer⟩, hex⟩
    by_cases hsmall : bs.length < 2 ^ 63
    · have heq := hanswer (passes + more.length + 1) (by omega)
      rw [handleSyncStream_eq hc hs hcompact hcap hsmall (by omega)] at heq
      obtain rfl := Option.some.inj heq
      exact ⟨.inl hsmall, hleft.mp ⟨hex.tip, hex.kv⟩⟩
    · have hnil : (∀ r ∈ responses, r.blocks = []) → more = [] := by
        intro hempty
        have hsent := hex.sent
        rw [← hindices, List.flatMap_eq_nil_iff.mpr fun r hr => by rw [hempty r hr]; rfl] at hsent
        exact List.map_eq_nil_iff.mp hsent.symm
      by_cases hlast : bs.length + 1 < 2 ^ 64
      · have heq := hanswer passes le_rfl
        rw [handleSyncStream_negative hc (by omega) hlast] at heq
        obtain rfl := Option.some.inj heq
        obtain rfl := hnil (by simp)
        refine ⟨.inr ⟨rfl, hlast⟩, ?_⟩
        rw [pagesOf_nil]
        decide +kernel
      · obtain rfl : more = [] := List.length_eq_zero_iff.mp (by omega)
        rw [List.append_nil] at hs
        rcases handleSyncStream_last hc hs (by omega) (hanswer passes le_rfl) with
          rfl | ⟨r, rest, rfl, hblocks⟩
        · obtain ⟨front, last, he, -⟩ := hex.ended
          simp at he
        · have hsent := congrArg List.length hex.sent
          rw [← hindices, List.flatMap_cons, List.length_append, List.length_map, hblocks] at hsent
          simp at hsent
  · rintro ⟨hindex, hsize⟩
    obtain ⟨htip, hkv⟩ := hleft.mpr hsize
    have hexchanged : Exchanged client server (pagesOf more)
        (requestSync lib json client (pagesOf more)).1 :=
      ⟨by rw [flatMap_blocks_pagesOf, hindices], pagesOf_ended more, htip, hkv⟩
    refine ⟨pagesOf more, ⟨more.length + 1, fun fuel hfuel => ?_⟩, hexchanged⟩
    rcases Nat.lt_or_ge bs.length (2 ^ 63) with hsmall | hlarge
    · exact handleSyncStream_eq hc hs hcompact hcap hsmall hfuel
    · obtain ⟨rfl, hlast⟩ := hindex.resolve_left (not_lt.mpr hlarge)
      rw [handleSyncStream_negative hc hlarge hlast, pagesOf_nil]

end Exchange

/-! ## Blocks that do not fit -/

section Lengths

theorem length_commaSeparated (pieces : List Str) :
    (commaSeparated pieces).length = (pieces.map List.length).sum + (pieces.length - 1) := by
  unfold commaSeparated
  induction pieces with
  | nil => rfl
  | cons p pieces ih =>
    cases pieces with
    | nil => simp
    | cons q pieces =>
      have hcomma : (str ",").length = 1 := rfl
      simp only [List.intersperse_cons_cons, List.flatten_cons, List.length_append, List.map_cons,
        List.sum_cons, List.length_cons, hcomma] at ih ⊢
      omega

theorem length_jsonObject (fields : List Str) : (jsonObject fields).length =
    (fields.map List.length).sum + (fields.length - 1) + 2 := by
  simp only [jsonObject, List.length_append, List.length_singleton, length_commaSeparated]
  omega

theorem length_jsonArray (elems : List Str) : (jsonArray elems).length =
    (elems.map List.length).sum + (elems.length - 1) + 2 := by
  have hopen : (str "[").length = 1 := rfl
  have hclose : (str "]").length = 1 := rfl
  simp only [jsonArray, List.length_append, length_commaSeparated, hopen, hclose]
  omega

theorem length_jsonField (name : String) (text : Str) :
    (jsonField name text).length = (quoteJSON (str name)).length + 1 + text.length := by
  simp only [jsonField, List.length_append]
  rfl

theorem sum_length_le_page (r : SyncResponse) :
    (r.blocks.map fun b => b.toJSON.length).sum ≤ r.toJSON.length := by
  rcases eq_or_ne r.blocks [] with hnil | hne
  · rw [hnil]
    exact Nat.zero_le _
  · have harray := length_jsonArray (r.blocks.map Block.toJSON)
    rw [List.map_map] at harray
    rw [SyncResponse.toJSON, if_neg hne, length_jsonObject, List.map_cons, List.sum_cons,
      length_jsonField, harray]
    exact le_add_right (le_add_right (le_add_right (le_add_left (le_add_right (le_add_right le_rfl)))))

end Lengths

theorem sum_length_le_wireSize (bs : List Block) :
    (bs.map fun b => b.toJSON.length).sum ≤ wireSize (pagesOf bs) := by
  induction bs using pagesOf.induct with
  | case1 bs hlast =>
    have hpage : (bs.map fun b => b.toJSON.length).sum ≤ (SyncResponse.toJSON ⟨bs, false⟩).length :=
      sum_length_le_page ⟨bs, false⟩
    rw [pagesOf, if_pos hlast, wireSize_cons]
    omega
  | case2 bs hlong ih =>
    have hpage : ((bs.take 64).map fun b => b.toJSON.length).sum ≤
        (SyncResponse.toJSON ⟨bs.take 64, true⟩).length := sum_length_le_page ⟨bs.take 64, true⟩
    rw [pagesOf, if_neg hlong, wireSize_cons, ← List.take_append_drop 64 bs, List.map_append,
      List.sum_append, List.take_append_drop]
    omega

namespace SampleExchange

open Xe.Sample (lib signature)
open SampleNet

/-- A long value. -/
def payload : Str :=
  List.replicate 60000 49

theorem length_payload : payload.length = 60000 :=
  List.length_replicate

theorem compactFrom_digits (n : ℕ) :
    compactFrom 0 .outside (List.replicate n 49) = List.replicate n 49 := by
  induction n with
  | zero => rfl
  | succ n ih =>
    have hsep : isSeparator (49 :: List.replicate n 49) = false := by
      simp [isSeparator]
    rw [List.replicate_succ, compactFrom, hsep]
    exact congrArg (49 :: ·) ih

theorem compact_payload : compact payload = payload :=
  compactFrom_digits 60000

/-- A block behind another that writes the note, signed by both keys of the genesis block. -/
def heavyNext (prev : Block) : Block := hashed
  { index := prev.index + 1
    prevHash := prev.hash
    ops := [⟨.set, str "note", payload⟩]
    signatures := keyset.keys.map fun k => { publicKey := k, sig := signature }
    timestamp := prev.timestamp }

/-- The genesis block and the blocks with notes behind it. -/
def heavy : ℕ → Block
  | 0 => genesis
  | n + 1 => heavyNext (heavy n)

/-- Blocks that fill a response. -/
def heavyBlocks (n : ℕ) : List Block :=
  (List.range n).map fun i => heavy (i + 1)

/-- The hash of a block is written as 32 bytes are. -/
def Hashed (b : Block) : Prop :=
  ∃ d, d.length = 32 ∧ b.hash = hexEncode d

theorem hashed_ok {b : Block} {data : Str} (h : marshalCanonical lib b = .ok data) :
    Hashed (hashed b) ∧ verifyBlockHash lib (hashed b) = .ok () := by
  have hhash : hashBlock lib b = .ok (hexEncode (lib.sha256 data)) := by
    rw [hashBlock, h]
    rfl
  have hfield : (hashed b).hash = hexEncode (lib.sha256 data) := by
    unfold hashed
    rw [hhash]
  have hagain : hashBlock lib (hashed b) = hashBlock lib b := rfl
  refine ⟨⟨_, lib.length_sha256 data, hfield⟩, ?_⟩
  unfold verifyBlockHash
  rw [hagain, hhash, hfield]
  exact guardErr_eq_ok.mpr (by simp)

theorem heavyNext_ok {prev : Block} (h : Hashed prev) :
    Hashed (heavyNext prev) ∧ verifyBlockHash lib (heavyNext prev) = .ok () := by
  obtain ⟨d, hd, hhash⟩ := h
  apply hashed_ok
  · unfold marshalCanonical
    rw [hhash, hexDecode_hexEncode]
    exact bind_eq_ok.mpr ⟨(), guardErr_eq_ok.mpr (not_not.mpr hd), rfl⟩

theorem hashed_heavy (n : ℕ) : Hashed (heavy n) := by
  induction n with
  | zero => exact ⟨(hexDecode genesis.hash).toOption.getD [], by decide +kernel, by decide +kernel⟩
  | succ n ih => exact (heavyNext_ok ih).1

theorem index_heavy {n : ℕ} (h : n < 2 ^ 64) : (heavy n).index.toNat = n := by
  induction n with
  | zero => rfl
  | succ n ih =>
    show ((heavy n).index + 1).toNat = n + 1
    rw [UInt64.toNat_add, ih (by omega), UInt64.toNat_one]
    omega

theorem prevHash_heavy (n : ℕ) : (heavy (n + 1)).prevHash = (heavy n).hash := rfl

theorem ops_heavy (n : ℕ) : (heavy (n + 1)).ops = [⟨.set, str "note", payload⟩] := rfl

theorem signatures_heavy (n : ℕ) : (heavy (n + 1)).signatures =
    keyset.keys.map fun k => { publicKey := k, sig := signature } := rfl

theorem timestamp_heavy (n : ℕ) : (heavy n).timestamp = 0 := by
  induction n with
  | zero => rfl
  | succ n ih => exact ih

/-! ### Sizes -/

theorem length_quoteJSON_le {s : Str} (h : s.all isAscii = true) :
    (quoteJSON s).length ≤ 6 * s.length + 2 := by
  have hrune : ∀ b : UInt8, (quoteRune (some [b])).length ≤ 6 := by
    intro b
    have hescape : (escapeByte b).length = 6 := rfl
    unfold quoteRune
    dsimp only
    split_ifs
    all_goals first | exact hescape.le | exact Nat.le_of_ble_eq_true rfl
  have hsum : ((runes s).flatMap quoteRune).length ≤ 6 * s.length := by
    rw [runes_ascii h, List.flatMap_map]
    induction s with
    | nil => exact le_rfl
    | cons b s ih =>
      rw [List.all_cons, Bool.and_eq_true] at h
      have := hrune b
      have := ih h.2
      rw [List.flatMap_cons, List.length_append, List.length_cons]
      omega
  simp only [quoteJSON, List.length_append, List.length_singleton]
  omega

theorem length_quoteJSON_hash {b : Block} (h : Hashed b) : (quoteJSON b.hash).length ≤ 386 := by
  obtain ⟨d, hd, hhash⟩ := h
  rw [hhash]
  refine (length_quoteJSON_le (isAscii_of_hexDecode (hexDecode_hexEncode d))).trans ?_
  rw [length_hexEncode, hd]

theorem payload_ne_nil : payload ≠ [] :=
  List.length_pos_iff.mp (length_payload ▸ by decide)

theorem length_toJSON (b : Block) : b.toJSON.length = (dec b.index.toNat).length +
    (quoteJSON b.prevHash).length + (jsonArray (b.ops.map Op.toJSON)).length +
    (jsonArray (b.signatures.map signatureJSON)).length + (quoteJSON b.hash).length +
    (decInt b.timestamp.toInt).length + 65 := by
  have hnames : ["index", "prev_hash", "ops", "signatures", "hash", "timestamp"].map
      (fun name => (quoteJSON (str name)).length) = [7, 11, 5, 12, 6, 11] := by decide +kernel
  simp only [List.map_cons, List.map_nil, List.cons.injEq, and_true] at hnames
  obtain ⟨h₁, h₂, h₃, h₄, h₅, h₆⟩ := hnames
  simp only [Block.toJSON, length_jsonObject, List.map_cons, List.map_nil, List.sum_cons,
    List.sum_nil, List.length_cons, List.length_nil, length_jsonField, h₁, h₂, h₃, h₄, h₅, h₆]
  omega

theorem length_noteJSON {v : Str} (hv : v ≠ []) :
    (Op.toJSON ⟨.set, str "note", v⟩).length = (compact v).length + 38 := by
  have haction : (jsonField "action" (quoteJSON (str "set"))).length = 14 := by decide +kernel
  have hkey : (jsonField "key" (quoteJSON (str "note"))).length = 12 := by decide +kernel
  have hname : (quoteJSON (str "value")).length = 7 := by decide +kernel
  simp only [Op.toJSON, Action.word, if_neg hv, length_jsonObject, List.cons_append,
    List.nil_append, List.map_cons, List.map_nil, List.sum_cons, List.sum_nil, List.length_cons,
    List.length_nil, haction, hkey, length_jsonField "value", hname]
  omega

theorem length_ops_heavy (n : ℕ) :
    (jsonArray ((heavy (n + 1)).ops.map Op.toJSON)).length = 60040 := by
  rw [ops_heavy, length_jsonArray, List.map_singleton, List.map_singleton, List.sum_singleton,
    length_noteJSON payload_ne_nil, compact_payload, length_payload, List.length_singleton]

theorem length_heavy_le {n : ℕ} (hn : n < 200) :
    (heavy (n + 1)).toJSON.length ≤ maxBlockSize := by
  have hindex : (dec (heavy (n + 1)).index.toNat).length ≤ 3 := by
    rw [index_heavy (by omega)]
    have hdec : ∀ m < 200, (dec (m + 1)).length ≤ 3 := by decide +kernel
    exact hdec n hn
  have hprev := length_quoteJSON_hash (hashed_heavy n)
  rw [← prevHash_heavy] at hprev
  have hops := length_ops_heavy n
  have hsigs : (jsonArray ((heavy (n + 1)).signatures.map signatureJSON)).length ≤ 1000 := by
    rw [signatures_heavy]
    decide +kernel
  have hhash := length_quoteJSON_hash (hashed_heavy (n + 1))
  have htime : (decInt (heavy (n + 1)).timestamp.toInt).length = 1 := by
    rw [timestamp_heavy]
    decide +kernel
  have htext := length_toJSON (heavy (n + 1))
  have hmax : maxBlockSize = 262144 := rfl
  omega

/-! ### The run -/

theorem verifyMultisig_heavy {prev : Block} (h : Hashed (heavyNext prev)) :
    verifyMultisig lib (heavyNext prev) keyset = .ok () := by
  obtain ⟨d, hd, hhash⟩ := h
  have hdecode : decodeHash (heavyNext prev).hash = .ok d := by
    rw [decodeHash, decodeSized, hhash, hexDecode_hexEncode]
    exact if_pos hd
  have hsig : ∀ k ∈ keyset.keys,
      verifySignature lib (heavyNext prev).hash { publicKey := k, sig := signature } = .ok () := by
    intro k hk
    have hparts : ∀ k ∈ keyset.keys, (decodePublicKey k).isOk = true ∧
        (decodeSignature signature).isOk = true := by decide
    obtain ⟨hpub, hsig⟩ := hparts k hk
    rw [verifySignature, hdecode]
    show verifyHexSignature lib k signature d = .ok ()
    unfold verifyHexSignature
    cases hp : decodePublicKey k with
    | error e => rw [hp] at hpub; cases hpub
    | ok p =>
      cases hs : decodeSignature signature with
      | error e => rw [hs] at hsig; cases hsig
      | ok sig => rfl
  have hcount : countSigners lib "keyset" keyset.keys (heavyNext prev).hash []
      (heavyNext prev).signatures = .ok 2 := by
    show countSigners lib "keyset" [key 1, key 2] (heavyNext prev).hash []
      [{ publicKey := key 1, sig := signature }, { publicKey := key 2, sig := signature }] = .ok 2
    have hne : key 2 ∉ [key 1] := by decide
    rw [countSigners, if_neg List.not_mem_nil, if_neg (by simp), hsig (key 1) (by simp [keyset])]
    dsimp only
    rw [countSigners, if_neg hne, if_neg (by simp), hsig (key 2) (by simp [keyset])]
    rfl
  unfold verifyMultisig verifyThreshold
  rw [hcount]
  rfl

theorem addBlock_heavy {c : Chain} {n : ℕ} (hn : n < 200) (htip : c.tip = heavy n)
    (hdao : c.kv.get daoKeysetKey = some (keysetText keyset.keys 2))
    (horacle : c.kv.get oracleKey = none) :
    c.tip.index < (heavy (n + 1)).index ∧
      addBlock lib json c (heavy (n + 1)) = .ok (c.appended (heavy (n + 1))) := by
  have hnew : c.tip.index < (heavy (n + 1)).index := by
    rw [htip, UInt64.lt_iff_toNat_lt, index_heavy (by omega), index_heavy (by omega)]
    omega
  refine ⟨hnew, ?_⟩
  obtain ⟨hhashed, hverify⟩ := heavyNext_ok (hashed_heavy n)
  have hvalid : validateOp lib json ⟨.set, str "note", payload⟩ = .ok () := by
    have hkey : validateKey (str "note") = .ok () := rfl
    have hsys : validateSysKeyValue lib json (str "note") payload = .ok () := by
      unfold validateSysKeyValue
      simp only [show str "note" ≠ daoKeysetKey by decide, show str "note" ≠ oracleKey by decide,
        show str "note" ≠ phaseKey by decide, show str "note" ≠ tokenomicsKey by decide,
        show str "note" ≠ activationsKey by decide,
        show str "note" ≠ minProtocolVersionKey by decide,
        show str "note" ≠ str "sys.timekeepers" by decide,
        show str "note" ≠ str "sys.minter" by decide,
        show str "note" ≠ str "sys.representatives" by decide, if_false]
    unfold validateOp
    rw [hkey, hsys]
    refine bind_eq_ok.mpr ⟨(), rfl, bind_eq_ok.mpr ⟨(), guardErr_eq_ok.mpr payload_ne_nil,
      bind_eq_ok.mpr ⟨(), guardErr_eq_ok.mpr ?_, rfl⟩⟩⟩
    rw [length_payload]
    decide
  have hauth : authorise lib json c (heavy (n + 1)) = .ok () := by
    have hnone : oracleInForce json c.kv = none := by
      unfold oracleInForce oracleConfig
      rw [horacle]
    have hkeyset : daoKeyset json c.kv = .ok keyset := by
      unfold daoKeyset
      rw [hdao]
      decide +kernel
    unfold authorise authoriseDAO
    rw [hnone, hkeyset]
    exact bind_eq_ok.mpr ⟨keyset, rfl, bind_eq_ok.mpr ⟨(), verifyMultisig_heavy hhashed, rfl⟩⟩
  have hvalues : checkValues json [⟨.set, str "note", payload⟩] = .ok () := by
    rw [checkValues, if_neg payload_ne_nil]
    rfl
  refine Admitted.addBlock ⟨hverify, hnew, htip ▸ rfl, htip ▸ rfl, ?_, List.cons_ne_nil _ _, hvalues,
    length_heavy_le hn, fun op hop => ?_, fun op hop => ?_, hauth⟩
  · rw [htip, timestamp_heavy, timestamp_heavy]
    exact Int64.le_refl 0
  · obtain rfl : op = ⟨.set, str "note", payload⟩ := List.mem_singleton.mp hop
    exact hvalid
  · obtain rfl : op = ⟨.set, str "note", payload⟩ := List.mem_singleton.mp hop
    unfold validateTransition
    simp only [show str "note" ≠ activationsKey by decide,
      show str "note" ≠ minProtocolVersionKey by decide, show str "note" ≠ phaseKey by decide,
      ne_eq, not_true_eq_false, if_false]

theorem heavy_run {n : ℕ} (hn : n ≤ 200) : ∃ c, Run lib json .badger genesis (heavyBlocks n) c ∧
    c.tip = heavy n ∧ c.kv.get daoKeysetKey = some (keysetText keyset.keys 2) ∧
    c.kv.get oracleKey = none := by
  induction n with
  | zero =>
    have hrun : (runBlocks lib json .badger genesis []).toOption.any (fun c =>
        decide (c.tip = genesis ∧ c.kv.get daoKeysetKey = some (keysetText keyset.keys 2) ∧
          c.kv.get oracleKey = none)) = true := by decide +kernel
    obtain ⟨c, hc, hp⟩ := exists_run _ hrun
    exact ⟨c, hc, of_decide_eq_true hp⟩
  | succ n ih =>
    obtain ⟨c, hc, htip, hdao, horacle⟩ := ih (by omega)
    obtain ⟨hnew, hadd⟩ := addBlock_heavy (by omega) htip hdao horacle
    refine ⟨c.appended (heavy (n + 1)), ?_, rfl, ?_, ?_⟩
    · rw [heavyBlocks, List.range_succ, List.map_append]
      exact hc.add hnew hadd
    · exact (applyOps_get_of_ne (by
        intro op hop
        obtain rfl : op = ⟨.set, str "note", payload⟩ := List.mem_singleton.mp hop
        decide)).trans hdao
    · exact (applyOps_get_of_ne (by
        intro op hop
        obtain rfl : op = ⟨.set, str "note", payload⟩ := List.mem_singleton.mp hop
        decide)).trans horacle

theorem mem_heavyBlocks {n : ℕ} {b : Block} (hb : b ∈ heavyBlocks n) :
    b.Compact ∧ 60000 ≤ b.toJSON.length := by
  obtain ⟨i, -, rfl⟩ := List.mem_map.mp hb
  constructor
  · intro op hop
    obtain rfl : op = ⟨.set, str "note", payload⟩ := List.mem_singleton.mp hop
    exact compact_payload
  · rw [length_toJSON, length_ops_heavy]
    omega

end SampleExchange

section Samples

open Xe.Sample (lib)
open SampleNet SampleExchange

/-- A node with the genesis block gets a note. -/
theorem statechain_sync_note : ∃ client server,
    Run lib json .badger genesis [] client ∧ Run lib json .mem genesis [noted genesis "1"] server ∧
      ∃ responses, (∃ passes, ∀ fuel, passes ≤ fuel →
          handleSyncStream json server client.tipIndex fuel = some responses) ∧
        Exchanged client server responses (requestSync lib json client responses).1 := by
  have hserver : (runBlocks lib json .mem genesis [noted genesis "1"]).toOption.any
      (fun _ => true) = true := by
    decide +kernel
  obtain ⟨server, hs, -⟩ := exists_run _ hserver
  obtain ⟨client, hc, htip, -⟩ := heavy_run (Nat.zero_le 200)
  refine ⟨client, server, hc, hs, (statechain_sync_iff hc hs ?_ (by decide)).mpr ⟨.inl ?_, ?_⟩⟩
  · intro b hb
    obtain rfl := List.mem_singleton.mp hb
    unfold Block.Compact
    decide +kernel
  · rw [htip]
    decide +kernel
  · rw [pagesOf, if_pos (by decide)]
    decide +kernel

/-- **180 blocks that the client cannot read**: each has 60000 bytes and more, and all of them are
behind one limit of ten mebibytes. -/
theorem statechain_sync_cut_off : ∃ client server,
    Run lib json .badger genesis [] client ∧ Run lib json .badger genesis (heavyBlocks 180) server ∧
      (∀ b ∈ heavyBlocks 180, b.Compact) ∧ (heavyBlocks 180).length ≤ syncMaxBlocks ∧
      ¬ ∃ responses, (∃ passes, ∀ fuel, passes ≤ fuel →
          handleSyncStream json server client.tipIndex fuel = some responses) ∧
        Exchanged client server responses (requestSync lib json client responses).1 := by
  obtain ⟨client, hc, htip, -⟩ := heavy_run (Nat.zero_le 200)
  obtain ⟨server, hs, -⟩ := heavy_run (show 180 ≤ 200 by decide)
  have hfrom : Run lib json .badger genesis [] client := hc
  have hto : Run lib json .badger genesis ([] ++ heavyBlocks 180) server := hs
  have hlen : (heavyBlocks 180).length = 180 := by
    rw [heavyBlocks, List.length_map, List.length_range]
  have hcap : (heavyBlocks 180).length ≤ syncMaxBlocks := by
    rw [hlen]
    decide
  have hcompact : ∀ b ∈ heavyBlocks 180, b.Compact := fun b hb => (mem_heavyBlocks hb).1
  refine ⟨client, server, hc, hs, hcompact, hcap, ?_⟩
  rintro ⟨responses, ⟨passes, hanswer⟩, hex⟩
  have heq := hanswer (passes + 181) (Nat.le_add_right _ _)
  rw [handleSyncStream_eq hfrom hto hcompact hcap (by decide) (by rw [hlen]; omega)] at heq
  obtain rfl := Option.some.inj heq
  have hsize := (requestSync_pagesOf hfrom hto hcompact hcap).mp ⟨hex.tip, hex.kv⟩
  have hsum := List.card_nsmul_le_sum ((heavyBlocks 180).map fun b => b.toJSON.length) 60000
    fun m hm => by
      obtain ⟨b, hb, rfl⟩ := List.mem_map.mp hm
      exact (mem_heavyBlocks hb).2
  rw [List.length_map, hlen, nsmul_eq_mul] at hsum
  have hwire := sum_length_le_wireSize (heavyBlocks 180)
  have hlimit : syncMaxResponseSize = 10485760 := rfl
  omega

end Samples

end Xe.StateChain
