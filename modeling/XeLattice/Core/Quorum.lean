import XeLattice.Core.Ledger

/-!
# Tallying and confirming

`core/quorum.go`: which block of a position holds a quorum of final votes (`finalTally`), and how it
is put on the chain and made final (`confirmConflict`).  The vote records of the two stores are
keyed differently: the memory store by the strings of a vote, badger by the bytes they spell.
-/

set_option autoImplicit false

namespace Xe

/-! ## Stored votes -/

/-- A field that spells 32 bytes, as `where_` reads it. -/
def decodeField (where_ name : String) (s : Str) : Except GoError Str :=
  match hexDecode s with
  | .error e => .error (errorf (str where_ ++ str ": invalid " ++ str name ++ str " hex: " ++ e))
  | .ok bytes =>
    if bytes.length ≠ 32 then
      .error (errorf (str where_ ++ str ": " ++ str name ++ str " must be 32 bytes, got " ++
        dec bytes.length))
    else .ok bytes

/-- The previous hash of a position, where `"0"` stands for 32 zero bytes. -/
def decodePrev (where_ name : String) (s : Str) : Except GoError Str :=
  if s = zeroPrev then .ok zero32 else decodeField where_ name s

/-- `voteConflictPrefix`. -/
def voteConflictKey (kind : StoreKind) (account prev : Str) : Except GoError (Str × Str) :=
  match kind with
  | .mem => .ok (account, prev)
  | .badger => do
    let a ← decodeField "voteConflictPrefix" "conflictAccount" account
    let p ← decodePrev "voteConflictPrefix" "conflictPrev" prev
    .ok (a, p)

/-- `voteKey`. -/
def voteKey (kind : StoreKind) (account prev rep : Str) : Except GoError (Str × Str × Str) :=
  match kind with
  | .mem => .ok (account, prev, rep)
  | .badger => do
    let a ← decodeField "voteKey" "conflictAccount" account
    let p ← decodePrev "voteKey" "conflictPrev" prev
    let r ← decodeField "voteKey" "repPubKey" rep
    .ok (a, p, r)

/-- The key under which a store keeps a vote. -/
def Vote.key (kind : StoreKind) (v : Vote) : Option (Str × Str × Str) :=
  (voteKey kind v.conflictAccount v.conflictPrev v.repPubKey).toOption

/-- Whether a store lists the vote for a position. -/
def Vote.isAt (kind : StoreKind) (position : Str × Str) (v : Vote) : Bool :=
  (v.key kind).map (fun k => (k.1, k.2.1)) = some position

namespace Store

/-- `PutVote`. -/
def putVote (v : Vote) (st : Store) : Except GoError Store := do
  let key ← voteKey st.kind v.conflictAccount v.conflictPrev v.repPubKey
  .ok { st with votes := st.votes.filter (fun w => w.key st.kind ≠ some key) ++ [v] }

/-- `GetVote`. -/
def getVote (account prev rep : Str) (st : Store) : Except GoError (Option Vote) := do
  let key ← voteKey st.kind account prev rep
  .ok (st.votes.find? (fun w => w.key st.kind = some key))

/-- `GetVotesByConflict`. -/
def votesByConflict (account prev : Str) (st : Store) : Except GoError (List Vote) := do
  let position ← voteConflictKey st.kind account prev
  .ok (st.votes.filter (Vote.isAt st.kind position))

/-- `GetVotesByConflict` where the caller drops the error. -/
def votesAt (account prev : Str) (st : Store) : List Vote :=
  (st.votesByConflict account prev).toOption.getD []

/-- `DeleteVotesForConflict`, whose error its callers drop. -/
def deleteVotesForConflict (account prev : Str) (st : Store) : Store :=
  match voteConflictKey st.kind account prev with
  | .error _ => st
  | .ok position => { st with votes := st.votes.filter (fun v => !Vote.isAt st.kind position v) }

/-- `SetBlockStatus`. -/
def setBlockStatus (hash : Str) (status : BlockStatus) (st : Store) : Store :=
  { st with blockStatus := st.blockStatus.set hash status }

/-- `DeleteStagedBlock`. -/
def deleteStagedBlock (hash : Str) (st : Store) : Store :=
  { st with staged := st.staged.del hash }

/-- `DeleteConflict`. -/
def deleteConflict (account prev : Str) (st : Store) : Store :=
  { st with conflicts := st.conflicts.del (account, prev) }

end Store

/-- `electionTotalWeight`, as `finalTally` computes it too. -/
def electionTotalWeight (c : Ctx) (account prev : Str) : M ℕ := do
  let total := readMem (·.totalDelegatedWeight c.representatives)
  match ← getConflict account prev with
  | none => total
  | some cf => if cf.totalWeight > 0 then pure cf.totalWeight.toNat else total

/-! ## The tally -/

/-- `quorumNumerator` and `quorumDenominator`: 67 of 100. -/
def quorumMet (weight total : ℕ) : Prop :=
  total * 67 ≤ weight * 100

instance (weight total : ℕ) : Decidable (quorumMet weight total) :=
  inferInstanceAs (Decidable (_ ≤ _))

/-- `failedPromotionTTL` in nanoseconds. -/
def failedPromotionTTL : ℤ := 30000000000

/-- The weight of the votes that name a block. -/
def weightOn (votes : List Vote) (hash : Str) : ℕ :=
  ((votes.filter (fun v => v.blockHash = hash)).map (fun v => v.weight.toNat)).sum

/-- The final votes that name a block known at the position. -/
def countedVotes (account previous : Str) : List Vote → M (List Vote)
  | [] => pure []
  | v :: vs => do
    let counted ← if v.final = false then pure false else do
      let b ← getBlockOrStaged v.blockHash
      pure (b.any (fun b => decide (b.account = account ∧ b.previous = previous)))
    let rest ← countedVotes account previous vs
    pure (if counted then v :: rest else rest)

/-- `GetAssetBalanceAtBlock`, zero before the first block. -/
def getAssetBalanceAtBlock (account asset previous : Str) : M UInt64 := do
  if previous = zeroPrev then pure 0
  else
    match ← getAccountChain account with
    | none => pure 0
    | some chain => readStore (fun st => assetBalanceAtBlock st.leases asset previous 0 chain)

/-- `promotable`: an on-chain block at the height of the position, or a staged block that is not
quarantined and passes its checks. -/
def promotable (c : Ctx) (account previous hash : Str) : M Bool := do
  match ← getBlockHeight account hash with
  | some h =>
    if previous = zeroPrev then pure (h == 1)
    else do
      let ph ← getBlockHeight account previous
      pure (ph.any (fun p => h == p + 1))
  | none => do
    let key := (account, previous, hash)
    let recordedAt ← Prog.rd (fun s : State => s.qm.failedPromotions.get key)
    if recordedAt.any (fun t => decide (c.now.toInt - t.toInt < failedPromotionTTL)) then pure false
    else do
      Prog.wr (fun s : State => { s with qm := ⟨s.qm.failedPromotions.del key⟩ })
      match ← readStore (·.staged.get hash) with
      | none => pure false
      | some staged => do
        let parentBal ← getAssetBalanceAtBlock account (assetOrXE staged.asset) previous
        (validateStagedBlock c staged parentBal).handle (fun
          | .ok _ => pure true
          | .error .panic => Prog.fail .panic
          | .error (.err _) => pure false)

/-- The lowest promotable hash among the candidates, empty when there is none. -/
def lowestPromotable (c : Ctx) (account previous : Str) : List Str → Str → M Str
  | [], best => pure best
  | h :: hs, best => do
    let ok ← promotable c account previous h
    lowestPromotable c account previous hs
      (if ok = true ∧ (best = [] ∨ strLt h best = true) then h else best)

/-- `pickWinner`: the block with the quorum, or a substitute when it cannot be promoted. -/
def pickWinner (c : Ctx) (account previous : Str) (prevFinalized : Bool) (candidates : List Str)
    (winner : Str) : M Str := do
  if winner = [] ∨ prevFinalized = false then pure winner
  else do
    let ok ← promotable c account previous winner
    if ok then pure winner
    else lowestPromotable c account previous (c.mapOrder candidates) []

/-- The winner for the first of the hashes whose votes meet the quorum and that has one. -/
def firstWinner (c : Ctx) (account previous : Str) (prevFinalized : Bool)
    (candidates : List Str) (counted : List Vote) (total : ℕ) : List Str → M (Option Str)
  | [] => pure none
  | h :: hs => do
    if quorumMet (weightOn counted h) total then do
      let w ← pickWinner c account previous prevFinalized candidates h
      if w ≠ [] then pure (some w)
      else firstWinner c account previous prevFinalized candidates counted total hs
    else firstWinner c account previous prevFinalized candidates counted total hs

/-- `quorumResult`, without the two weights that are never set. -/
structure QuorumResult where
  conflictAccount : Str
  conflictPrev : Str
  winnerHash : Str
  loserHashes : List Str

/-- `buildResultFrom`. -/
def buildResultFrom (c : Ctx) (account previous winner : Str) (candidates : List Str) :
    QuorumResult where
  conflictAccount := account
  conflictPrev := previous
  winnerHash := winner
  loserHashes := c.mapOrder (candidates.filter (· ≠ winner))

/-- Everything that is voted for at a position or recorded in its conflict. -/
def candidateSet (votes : List Vote) (conflict : Option Conflict) : List Str :=
  (votes.map (·.blockHash) ++ (conflict.map (·.blockHashes)).getD []).dedup

/-- `finalTally`: `none` where the source answers no result or an error. -/
def finalTally (c : Ctx) (account previous : Str) : M (Option QuorumResult) := do
  match ← readStore (·.votesByConflict account previous) with
  | .error _ => pure none
  | .ok votes => do
    let counted ← countedVotes account previous votes
    let conflict ← getConflict account previous
    let total ← match conflict.map (·.totalWeight) with
      | some w => if w > 0 then pure w.toNat else readMem (·.totalDelegatedWeight c.representatives)
      | none => readMem (·.totalDelegatedWeight c.representatives)
    if total = 0 then pure none
    else do
      let candidates := candidateSet votes conflict
      let prevFinalized ← if previous = zeroPrev then pure true else isFinalized account previous
      let winner ← firstWinner c account previous prevFinalized candidates counted total
        (sortStrings (counted.map (·.blockHash)).dedup)
      pure (winner.map (fun w => buildResultFrom c account previous w candidates))

/-! ## Confirming a winner -/

/-- `cleanupResolvedConflict`. -/
def cleanupResolvedConflict (r : QuorumResult) : M Unit := do
  writeStore (Store.deleteStagedBlock r.winnerHash)
  Prog.forEach r.loserHashes (fun h => writeStore (Store.setBlockStatus h .rejected))
  Prog.forEach r.loserHashes (fun h => writeStore (Store.deleteStagedBlock h))
  writeStore (Store.deleteVotesForConflict r.conflictAccount r.conflictPrev)
  writeStore (Store.deleteConflict r.conflictAccount r.conflictPrev)

/-- `appendStagedWinner`. -/
def appendStagedWinner (c : Ctx) (r : QuorumResult) (winnerBlock : Block) : M Bool := do
  let chain ← getAccountChain r.conflictAccount
  if winnerBlock.previous ≠ frontier (chain.getD []) then pure false
  else
    (dispatchValidateAndAdd c winnerBlock true).handle (fun
      | .ok _ => pure true
      | .error .panic => Prog.fail .panic
      | .error (.err e) => if isRetryableError e then pure false else Prog.fail (.err e))

/-- The quarantine of a winner that failed for good. -/
def quarantine (c : Ctx) (r : QuorumResult) (e : GoError) : M Unit :=
  if Sentinel.errWinnerFullValidation ∈ e.sentinels ∧ isRetryableError e = false then
    Prog.wr (fun s : State => { s with qm := ⟨s.qm.failedPromotions.set
      (r.conflictAccount, r.conflictPrev, r.winnerHash) c.now⟩ })
  else pure ()

/-- The first loser that stands on the chain is swapped for the winner; whether there was one. -/
def swapLoser (c : Ctx) (r : QuorumResult) (winnerBlock : Block) : List Str → M Bool
  | [] => pure false
  | loserHash :: rest => do
    match ← getBlockHeight r.conflictAccount loserHash with
    | none => swapLoser c r winnerBlock rest
    | some _ => do
      match ← getBlock loserHash with
      | none => swapLoser c r winnerBlock rest
      | some mainBlock => do
        writeStore (Store.saveStagedBlock mainBlock)
        (swapBlockLocked c r.conflictAccount loserHash r.winnerHash winnerBlock).handle (fun
          | .ok _ => pure true
          | .error .panic => Prog.fail .panic
          | .error (.err e) => do
            quarantine c r e
            Prog.fail (.err (e.wrap (str "confirmConflict: SwapBlock: "))))

/-- The checks of a staged winner before it is promoted. -/
def checkWinner (c : Ctx) (r : QuorumResult) (winnerBlock : Block) : M Unit := do
  liftErr (str "confirmConflict: verify winner: ") (verifyBlock c.lib winnerBlock)
  if c.node.difficulty > 0 then
    match hexDecode winnerBlock.hash with
    | .error e => throwErr (str "confirmConflict: decode winner hash: " ++ e)
    | .ok hashBytes =>
      failIf (¬ c.lib.powHash winnerBlock.powNonce hashBytes ≥ c.node.difficulty)
        (str "confirmConflict: winner block " ++ shortHash r.winnerHash ++
          str " failed PoW validation")
  let parentBal ← getAssetBalanceAtBlock r.conflictAccount (assetOrXE winnerBlock.asset)
    r.conflictPrev
  wrapErr (str "confirmConflict: invalid staged winner: ")
    (validateStagedBlock c winnerBlock parentBal)

/-- A staged winner that is not on the chain is put there; whether the confirmation goes on. -/
def promoteWinner (c : Ctx) (r : QuorumResult) : M Bool := do
  match ← readStore (·.staged.get r.winnerHash) with
  | none => pure true
  | some winnerBlock => do
    match ← getBlockHeight r.conflictAccount r.winnerHash with
    | some _ => pure true
    | none => do
      checkWinner c r winnerBlock
      let swapped ← swapLoser c r winnerBlock r.loserHashes
      if swapped then pure true
      else wrapErr (str "confirmConflict: append winner: ") (appendStagedWinner c r winnerBlock)

/-- The final height moves up to the winner, if it is on the chain. -/
def advanceFinalHeight (r : QuorumResult) : M Unit := do
  match ← getBlockHeight r.conflictAccount r.winnerHash with
  | none => pure ()
  | some height => do
    let cur ← finalHeight r.conflictAccount
    if height > cur then writeStore (Store.setFinalHeight r.conflictAccount height)

/-- `confirmConflict`. -/
def confirmConflict (c : Ctx) (r : QuorumResult) : M Unit := do
  let final ← isFinalized r.conflictAccount r.winnerHash
  withLock c.tid (.account r.conflictAccount)
    (if final then cleanupResolvedConflict r
    else do
      let goOn ← promoteWinner c r
      if goOn then do
        advanceFinalHeight r
        writeStore (Store.setBlockStatus r.winnerHash .finalized)
        cleanupResolvedConflict r)

/-- Runs `p` and drops the error it may return. -/
def dropError (p : M Unit) : M Unit :=
  p.handle (fun
    | .error .panic => Prog.fail .panic
    | _ => pure ())

/-- The tally and the confirmation of its result; whether there was a result. -/
def tallyAndConfirm (c : Ctx) (account previous : Str) : M Bool := do
  match ← finalTally c account previous with
  | none => pure false
  | some r => do
    dropError (confirmConflict c r)
    pure true

/-- `Retally`. -/
def retally (c : Ctx) (account previous : Str) : M Unit :=
  withLock c.tid .quorum (do let _ ← tallyAndConfirm c account previous)

end Xe
