import XeLattice.Core.Quorum

/-!
# Voting

`core/vote.go` and `core/finalization.go`: how a node receives votes and casts its own, and the
sweeps over open positions.  A final vote is signed in three places: when the node locks a position
(`emitFinalLocked`), when it repeats its vote (`castVoteLocked`), and when it answers for a position
that is already final (`reaffirmFromState`, `votesForPosition`).  Writes reach the disk, so that a
restart finds the store as it was left.
-/

set_option autoImplicit false

namespace Xe

/-! ## Votes -/

/-- `voteSigningBytes`. -/
def voteSigningBytes (v : Vote) : Except GoError Str := do
  let rep ← decodeField "voteSigningBytes" "RepPubKey" v.repPubKey
  let hash ← decodeField "voteSigningBytes" "BlockHash" v.blockHash
  let account ← decodeField "voteSigningBytes" "ConflictAccount" v.conflictAccount
  let prev ← decodePrev "voteSigningBytes" "ConflictPrev" v.conflictPrev
  .ok ([0x02] ++ rep ++ hash ++ account ++ prev ++ be64 v.timestamp.toUInt64 ++
    [if v.final then 1 else 0])

/-- `RepAccount`. -/
def Vote.repAccount (lib : Lib) (v : Vote) : Str :=
  (deriveAddress lib v.repPubKey).toOption.getD []

/-- `voteWindowNanos`. -/
def voteWindowNanos : Int64 := 300000000000

/-- The weight, zero beyond 64 bits. -/
def clampWeight (w : ℕ) : UInt64 :=
  if w < 2 ^ 64 then UInt64.ofNat w else 0

/-- The weight a vote counts with: that of the conflict's snapshot, or the current one. -/
def electionWeight (c : Ctx) (account prev rep : Str) : M UInt64 := do
  let conflict ← getConflict account prev
  match conflict.bind (·.weightSnapshot) with
  | some snap => pure ((snap.get rep).getD 0)
  | none => do
    let w ← readMem (·.voteWeight c.representatives rep)
    pure (clampWeight w)

/-- `buildVote`: `none` when the position or the hash cannot be encoded. A final vote is logged. -/
def buildVote (c : Ctx) (kp : KeyPair) (account prev blockHash : Str) (final : Bool) :
    M (Option Vote) := do
  let w ← electionWeight c account prev (c.node.address kp)
  let v : Vote :=
    { repPubKey := kp.pubKeyHex
      blockHash := blockHash
      conflictAccount := account
      conflictPrev := prev
      timestamp := c.now
      final := final
      signature := []
      weight := w }
  match voteSigningBytes v with
  | .error _ => pure none
  | .ok sb => do
    let v := { v with signature := kp.sign sb }
    if final then Prog.wr (fun s : State => { s with signed := s.signed ++ [v] })
    pure (some v)

/-! ## Positions -/

/-- `positionResolved`. -/
def positionResolved (account prev : Str) : M Bool := do
  if prev = [] ∨ prev = zeroPrev then do
    let fh ← finalHeight account
    pure (decide (fh > 0))
  else
    match ← getBlockHeight account prev with
    | none => pure false
    | some h => do
      let fh ← finalHeight account
      pure (decide (fh > h))

/-- The index of the child of `prev` on a chain. -/
def childIdx (chain : AccountChain) (prev : Str) : Option ℕ :=
  if prev = [] ∨ prev = zeroPrev then (if chain = [] then none else some 0)
  else chain.findIdx? (fun b => b.previous == prev)

/-- `finalizedChildAt` and `FinalizedChildHash`: empty when the position has no final block. -/
def finalizedChildAt (account prev : Str) : M Str := do
  let chain ← getAccountChain account
  let chain := chain.getD []
  match childIdx chain prev with
  | none => pure []
  | some i => do
    let fh ← finalHeight account
    pure (if i + 1 ≤ fh then ((chain[i]?).map (·.hash)).getD [] else [])

/-- The types whose source must be final first. -/
def dependsOnSource : BlockType → Bool
  | .receive | .leaseAccept | .leaseSettle | .leaseCancel | .leaseForceSettle | .leaseRenew => true
  | _ => false

/-- `blockDependencies`: the blocks, with their accounts, that must be final before `b`. -/
def blockDependencies (b : Block) : M (List (Str × Str)) := do
  let prev := if b.previous ≠ [] ∧ b.previous ≠ zeroPrev then [(b.account, b.previous)] else []
  match b.type with
  | .other name => pure (prev ++ [([], str "unknown-type:" ++ name)])
  | t =>
    if dependsOnSource t = true ∧ b.source ≠ [] ∧ b.source ≠ zeroPrev then do
      let src ← getBlock b.source
      pure (prev ++ [((src.map (·.account)).getD [], b.source)])
    else pure prev

/-- Whether all of the blocks are final; one without an account never is. -/
def allFinalized : List (Str × Str) → M Bool
  | [] => pure true
  | (account, hash) :: deps => do
    if account = [] then pure false
    else do
      let final ← isFinalized account hash
      if final then allFinalized deps else pure false

/-- `depsFinalized`. -/
def depsFinalized (b : Block) : M Bool := do
  allFinalized (← blockDependencies b)

/-! ## Casting votes -/

/-- `revoteBackoff` and `lockStabilityWindow` in nanoseconds. -/
def revoteBackoff : ℤ := 15000000000

/-- `lockStabilityWindow`. -/
def lockStabilityWindow : ℤ := 3000000000

/-- Whether the position was last voted on long enough ago. -/
def mayRevote (c : Ctx) (account prev : Str) : M Bool := do
  let last ← Prog.rd (fun s : State => (s.vm.lastRevoteNanos.get (account, prev)).getD 0)
  pure (decide (last = 0 ∨ revoteBackoff ≤ c.now.toInt - last.toInt))

/-- The time of the last repeated vote. -/
def stampRevote (c : Ctx) (account prev : Str) : M Unit :=
  Prog.wr (fun s : State => { s with
    vm := { s.vm with lastRevoteNanos := s.vm.lastRevoteNanos.set (account, prev) c.now } })

/-- The node's own vote, where the caller drops the error. -/
def ownVote (kp : KeyPair) (account prev : Str) : M (Option Vote) :=
  readStore (fun st => (st.getVote account prev kp.pubKeyHex).toOption.join)

/-- `PutVote`, and whether it succeeded. -/
def putVote (v : Vote) : M (Except GoError Unit) :=
  Prog.act (fun s : State => match s.store.putVote v with
    | .ok st => some (.ok (), { s with store := st })
    | .error e => some (.error e, s)) pure

/-- `PutFinalVoteIfAbsent`: the hash that is locked at the position. -/
def putFinalVoteIfAbsent (account prev hash : Str) : M Str :=
  Prog.act (fun s : State => match s.store.finalVotes.get (account, prev) with
    | some stored => some (stored, s)
    | none => some (hash, { s with store :=
        { s.store with finalVotes := s.store.finalVotes.set (account, prev) hash } })) pure

/-- `emitFinalLocked`: signs for the hash that is locked. -/
def emitFinalLocked (c : Ctx) (kp : KeyPair) (account prev lockTarget : Str) : M Unit := do
  let locked ← putFinalVoteIfAbsent account prev lockTarget
  match ← getBlockOrStaged locked with
  | none => pure ()
  | some lockedBlock => do
    if ← depsFinalized lockedBlock then do
      let existing ← ownVote kp account prev
      if existing.any (fun v => v.final && v.blockHash == locked) then pure ()
      else
        match ← buildVote c kp account prev locked true with
        | none => pure ()
        | some v => do
          match ← putVote v with
          | .error _ => pure ()
          | .ok _ => retally c v.conflictAccount v.conflictPrev

/-- `gatherCandidates`. -/
def gatherCandidates (account prev : Str) (seed : List Str) : M (List Str) := do
  let votes ← readStore (·.votesAt account prev)
  let conflict ← getConflict account prev
  pure (seed.filter (· ≠ []) ++ candidateSet votes conflict).dedup

/-- `noteHeldCandidatesLocked`. -/
def noteHeldCandidates (c : Ctx) (account prev : Str) (candidates : List Str) : M Unit :=
  Prog.forEach candidates (fun h => do
    let seen ← Prog.rd (fun s : State => (s.vm.seenCandidates.get (account, prev)).getD [])
    if h ∈ seen then pure ()
    else
      match ← getBlockOrStaged h with
      | none => pure ()
      | some _ => Prog.wr (fun s : State => { s with vm := { s.vm with
          seenCandidates := s.vm.seenCandidates.set (account, prev)
            (h :: (s.vm.seenCandidates.get (account, prev)).getD [])
          lastNewCandidateNanos := s.vm.lastNewCandidateNanos.set (account, prev) c.now } }))

/-- The candidates that are held or recorded. -/
def eligibleCandidates (conflict : Option Conflict) : List Str → M (List Str)
  | [] => pure []
  | h :: hs => do
    let b ← getBlockOrStaged h
    let rest ← eligibleCandidates conflict hs
    pure (if b.isSome ∨ (conflict.any (fun cf => decide (h ∈ cf.blockHashes))) = true
      then h :: rest else rest)

/-- `lowestHash`, empty for an empty list. -/
def lowestHash : List Str → Str
  | [] => []
  | h :: hs => hs.foldl (fun lowest x => if strLt x lowest then x else lowest) h

/-- `maybeLockLocked`: locks the position once its votes converge and its candidates are stable. -/
def maybeLock (c : Ctx) (kp : KeyPair) (account prev pref : Str) : M Unit := do
  let votes ← readStore (·.votesAt account prev)
  let total ← electionTotalWeight c account prev
  if total ≠ 0 ∧ quorumMet (weightOn votes pref) total then do
    let stamp ← Prog.rd (fun s : State => (s.vm.lastNewCandidateNanos.get (account, prev)).getD 0)
    if stamp ≠ 0 ∧ lockStabilityWindow ≤ c.now.toInt - stamp.toInt then
      emitFinalLocked c kp account prev pref

/-- The vote for the preferred block, unless it was cast recently. -/
def emitPreference (c : Ctx) (kp : KeyPair) (account prev pref : Str) : M Unit := do
  let existing ← ownVote kp account prev
  let prefChanged := existing.all (fun v => v.blockHash != pref || v.final)
  let emit ← if prefChanged then pure true else mayRevote c account prev
  if emit then do
    match ← buildVote c kp account prev pref false with
    | none => pure ()
    | some v => do
      let _ ← putVote v
      retally c v.conflictAccount v.conflictPrev
      stampRevote c account prev

/-- The vote on a position that the node has no lock on. -/
def castPreference (c : Ctx) (kp : KeyPair) (account prev : Str) (seed : List Str) : M Unit := do
  let candidates ← gatherCandidates account prev seed
  noteHeldCandidates c account prev candidates
  let conflict ← getConflict account prev
  let eligible ← eligibleCandidates conflict candidates
  if eligible = [] then pure ()
  else do
    let pref := lowestHash eligible
    match ← getBlockOrStaged pref with
    | none => pure ()
    | some prefBlock => do
      if ← depsFinalized prefBlock then do
        emitPreference c kp account prev pref
        maybeLock c kp account prev pref

/-- `castVoteLocked` for a position that is locked. -/
def repeatFinal (c : Ctx) (kp : KeyPair) (account prev hash : Str) : M Unit := do
  if ← mayRevote c account prev then do
    stampRevote c account prev
    let _ ← buildVote c kp account prev hash true

/-- `castVoteLocked`. -/
def castVoteLocked (c : Ctx) (account prev : Str) (seed : List Str) : M Unit :=
  match c.node.keyPair with
  | none => pure ()
  | some kp => do
    let w ← readMem (·.voteWeight c.representatives (c.node.address kp))
    let resolved ← if w = 0 then pure true else positionResolved account prev
    if resolved then pure ()
    else do
      match (← ownVote kp account prev).filter (·.final) with
      | some existing => repeatFinal c kp account prev existing.blockHash
      | none => do
        match ← readStore (·.finalVotes.get (account, prev)) with
        | some locked => emitFinalLocked c kp account prev locked
        | none => castPreference c kp account prev seed

/-- `CastVote`. -/
def castVote (c : Ctx) (account prev : Str) (seed : List Str) : M Unit :=
  withLock c.tid (.position account prev) (castVoteLocked c account prev seed)

/-- `OnBlockAdded`. -/
def onBlockAdded (c : Ctx) (b : Block) : M Unit :=
  if b.type = .genesis then pure () else castVote c b.account b.previous [b.hash]

/-! ## Answers for final positions -/

/-- `reaffirmFromState`: signs for the block that is final on the chain. -/
def reaffirmFromState (c : Ctx) (account prev : Str) : M Unit :=
  match c.node.keyPair with
  | none => pure ()
  | some kp => do
    let w ← readMem (·.voteWeight c.representatives (c.node.address kp))
    if w = 0 then pure ()
    else do
      -- the check and the stamp are one critical section
      let emit ← Prog.act (fun s : State =>
        let last := (s.vm.lastRevoteNanos.get (account, prev)).getD 0
        if last = 0 ∨ revoteBackoff ≤ c.now.toInt - last.toInt then
          some (true, { s with vm := { s.vm with
            lastRevoteNanos := s.vm.lastRevoteNanos.set (account, prev) c.now } })
        else some (false, s)) pure
      if emit then do
        let winner ← finalizedChildAt account prev
        if winner ≠ [] then do
          let _ ← buildVote c kp account prev winner true

/-- `VotesForPosition`: the stored votes, and the node's own for a final block. -/
def votesForPosition (c : Ctx) (account prev : Str) : M (List Vote) := do
  let out ← readStore (·.votesAt account prev)
  match c.node.keyPair with
  | none => pure out
  | some kp => do
    let w ← readMem (·.voteWeight c.representatives (c.node.address kp))
    if w = 0 then pure out
    else do
      let winner ← finalizedChildAt account prev
      if winner = [] ∨ out.any (fun v => v.repPubKey == kp.pubKeyHex && v.final) = true then pure out
      else do
        let fresh ← buildVote c kp account prev winner true
        pure (out ++ fresh.toList)

/-! ## Receiving votes -/

/-- `VerifyVoteSignature`. -/
def checkVoteSignature (lib : Lib) (v : Vote) : Except GoError Unit := do
  let pub ← (decodePublicKey v.repPubKey).mapError (GoError.wrap (str "ValidateVote: "))
  let sb ← (voteSigningBytes v).mapError (GoError.wrap (str "ValidateVote: "))
  guardErr (lib.ed25519Verify pub sb v.signature = false)
    (errorf (str "ValidateVote: signature verification failed"))

/-- The distance of a vote's timestamp from the clock, in wrapping arithmetic. -/
def voteDelta (c : Ctx) (v : Vote) : Int64 :=
  if v.timestamp > c.now then v.timestamp - c.now else c.now - v.timestamp

/-- `ValidateVote`. -/
def validateVote (c : Ctx) (v : Vote) : M Unit := do
  liftErr [] (checkVoteSignature c.lib v)
  let w ← readMem (·.voteWeight c.representatives (v.repAccount c.lib))
  failIf (w = 0) (str "ValidateVote: representative " ++ v.repPubKey.take 8 ++
    str " has zero vote weight")
  failIf (v.timestamp < 0) (str "ValidateVote: timestamp must not be negative")
  failIf (voteDelta c v > voteWindowNanos)
    (str "ValidateVote: timestamp out of range: delta=" ++ c.lib.durationString (voteDelta c v))

/-- `isConflictNotFound`: the checks of `ValidateVote` once more, and no conflict record. -/
def isConflictNotFound (c : Ctx) (v : Vote) : M Bool := do
  if (checkVoteSignature c.lib v).isOk = false then pure false
  else do
    let w ← readMem (·.voteWeight c.representatives (v.repAccount c.lib))
    if w = 0 ∨ v.timestamp < 0 ∨ voteDelta c v > voteWindowNanos then pure false
    else do
      let conflict ← getConflict v.conflictAccount v.conflictPrev
      pure conflict.isNone

/-- `maxPendingVotesPerConflict`. -/
def maxPendingVotesPerConflict : ℕ := 10

/-- `bufferVote`. -/
def bufferVote (v : Vote) : M Unit :=
  Prog.wr (fun s : State =>
    let key := (v.conflictAccount, v.conflictPrev)
    let pending := (s.vm.pendingVotes.get key).getD []
    if pending.length ≥ maxPendingVotesPerConflict then s
    else { s with vm := { s.vm with pendingVotes := s.vm.pendingVotes.set key (pending ++ [v]) } })

/-- `receiveVoteInner`: a stored final vote is never replaced. -/
def receiveVoteInner (c : Ctx) (v : Vote) : M Unit := do
  match ← readStore (·.getVote v.conflictAccount v.conflictPrev v.repPubKey) with
  | .error e => Prog.fail (.err (e.wrap (str "ReceiveVote: GetVote: ")))
  | .ok existing =>
    if existing.any (·.final) then pure ()
    else do
      let w ← electionWeight c v.conflictAccount v.conflictPrev (v.repAccount c.lib)
      match ← putVote { v with weight := w } with
      | .error e => Prog.fail (.err e)
      | .ok _ => do
        Prog.wr (fun s : State => { s with vm := { s.vm with
          lastRevoteNanos := s.vm.lastRevoteNanos.del (v.conflictAccount, v.conflictPrev) } })
        retally c v.conflictAccount v.conflictPrev

/-- `flushPendingVotes`. -/
def flushPendingVotes (c : Ctx) (account prev : Str) : M Unit := do
  let pending ← Prog.act (fun s : State =>
    some ((s.vm.pendingVotes.get (account, prev)).getD [], { s with vm := { s.vm with
      pendingVotes := s.vm.pendingVotes.del (account, prev) } })) pure
  Prog.forEach pending (fun v => dropError (do
    validateVote c v
    receiveVoteInner c v))

/-- `OnConflict`. -/
def onConflict (c : Ctx) (cf : Conflict) : M Unit :=
  if cf.blockHashes = [] then pure ()
  else withLock c.tid (.position cf.accountAddress cf.previousHash) (do
    flushPendingVotes c cf.accountAddress cf.previousHash
    castVoteLocked c cf.accountAddress cf.previousHash cf.blockHashes)

/-- `ReceiveVote` of a vote that passed its checks. -/
def acceptVote (c : Ctx) (v : Vote) : M Unit :=
  withLock c.tid (.position v.conflictAccount v.conflictPrev) (do
    if ← positionResolved v.conflictAccount v.conflictPrev then
      reaffirmFromState c v.conflictAccount v.conflictPrev
    else do
      receiveVoteInner c v
      castVoteLocked c v.conflictAccount v.conflictPrev [])

/-- `ReceiveVote`. -/
def receiveVote (c : Ctx) (v : Vote) : M Unit :=
  (validateVote c v).handle (fun
    | .ok _ => acceptVote c v
    | .error e => do
      if ← isConflictNotFound c v then bufferVote v else Prog.fail e)

/-! ## Sweeps -/

/-- The votes of `sweepFrontiersOnce` on the open positions of one account. -/
def sweepAccount (c : Ctx) (account : Str) : M Unit := do
  let fh ← finalHeight account
  let chain ← getAccountChain account
  Prog.forEach ((chain.getD []).drop fh) (fun b =>
    if b.type = .genesis then pure () else castVote c account b.previous [b.hash])

/-- `sweepFrontiersOnce` of a node with vote weight, over the accounts in the order they are
listed. A node without weight only asks its peers for votes. -/
def sweepFrontiersOnce (c : Ctx) (accounts : List Str) : M Unit :=
  match c.node.keyPair with
  | none => pure ()
  | some kp => do
    let w ← readMem (·.voteWeight c.representatives (c.node.address kp))
    if w = 0 then pure () else Prog.forEach accounts (sweepAccount c)

/-- `conflictOrphanedByRollback`. -/
def conflictOrphanedByRollback (cf : Conflict) : M Bool := do
  let chain ← getAccountChain cf.accountAddress
  let onChain := (chain.getD []).map (·.hash)
  let positionDead :=
    if cf.previousHash = zeroPrev then onChain = [] else cf.previousHash ∉ onChain
  if ¬ positionDead ∨ ∃ h ∈ cf.blockHashes, h ∈ onChain then pure false
  else readStore (fun st => cf.blockHashes.any (fun h => st.blockStatus.get h = some .rejected))

/-- `dropConflictIfOrphaned`. -/
def dropConflictIfOrphaned (c : Ctx) (cf : Conflict) : M Bool :=
  withLock c.tid (.account cf.accountAddress) (do
    if ← conflictOrphanedByRollback cf then do
      writeStore (Store.deleteVotesForConflict cf.accountAddress cf.previousHash)
      writeStore (Store.deleteConflict cf.accountAddress cf.previousHash)
      pure true
    else pure false)

/-- `dropConflictIfResolved`. -/
def dropConflictIfResolved (c : Ctx) (cf : Conflict) : M Bool := do
  let winner ← finalizedChildAt cf.accountAddress cf.previousHash
  if winner = [] then pure false
  else do
    withLock c.tid .quorum (withLock c.tid (.account cf.accountAddress)
      (cleanupResolvedConflict
        { conflictAccount := cf.accountAddress
          conflictPrev := cf.previousHash
          winnerHash := winner
          loserHashes := cf.blockHashes.filter (· ≠ winner) }))
    pure true

/-- `staleConflictAge`, `phantomEvictionDelay` and `phantomUnretrievableTimeout` in
nanoseconds. -/
def staleConflictAge : ℤ := 10000000000

/-- `phantomEvictionDelay`. -/
def phantomEvictionDelay : ℤ := 30000000000

/-- `phantomUnretrievableTimeout`. -/
def phantomUnretrievableTimeout : ℤ := 600000000000

/-- Splits the recorded hashes into those with a body and those without. -/
def splitPhantoms : List Str → M (List Str × List Str)
  | [] => pure ([], [])
  | h :: hs => do
    let b ← getBlockOrStaged h
    let (real, phantoms) ← splitPhantoms hs
    pure (if b.isSome then (h :: real, phantoms) else (real, h :: phantoms))

/-- The record without its dead hashes. -/
def trimPhantoms (cf : Conflict) (dead kept : List Str) : M Unit :=
  if dead = [] then pure ()
  else writeStore (Store.saveConflict { cf with blockHashes := kept })

/-- What `evictPhantomsAndResolve` does once the phantoms are split into live and dead ones:
whether all recorded bodies are held. -/
def resolvePhantoms (c : Ctx) (cf : Conflict) (real live dead : List Str) : M Bool :=
  match real with
  | [] => do
    if live = [] then writeStore (Store.deleteConflict cf.accountAddress cf.previousHash)
    else trimPhantoms cf dead live
    pure false
  | [h] => do
    if ← isFinalized cf.accountAddress h then do
      writeStore (Store.deleteVotesForConflict cf.accountAddress cf.previousHash)
      writeStore (Store.deleteConflict cf.accountAddress cf.previousHash)
      pure false
    else do
      trimPhantoms cf dead (real ++ live)
      let _ ← tallyAndConfirm c cf.accountAddress cf.previousHash
      pure false
  | _ => do
    trimPhantoms cf dead (real ++ live)
    pure (decide (live = []))

/-- `evictPhantomsAndResolve`. A phantom is live while some stored vote with weight names it. -/
def evictPhantomsAndResolve (c : Ctx) (cf : Conflict) : M Bool := do
  let (real, phantoms) ← splitPhantoms cf.blockHashes
  if phantoms = [] then pure true
  else do
    let votes ← readStore (·.votesAt cf.accountAddress cf.previousHash)
    let isLive := fun h => votes.any (fun v => decide (v.weight > 0) && v.blockHash == h)
    let live := phantoms.filter isLive
    let dead := phantoms.filter (fun h => !isLive h)
    if real ≠ [] ∧ live ≠ [] ∧
        phantomUnretrievableTimeout ≤ c.now.toInt - cf.detectedAt.toInt then
      resolvePhantoms c cf real [] (dead ++ live)
    else resolvePhantoms c cf real live dead

/-- The part of a sweep that revotes on a conflict and tallies it. -/
def revoteAndTally (c : Ctx) (cf : Conflict) : M Unit := do
  castVote c cf.accountAddress cf.previousHash []
  withLock c.tid .quorum (do let _ ← tallyAndConfirm c cf.accountAddress cf.previousHash)

/-- The body of `sweepStaleConflicts` for one record. -/
def sweepConflict (c : Ctx) (cf : Conflict) : M Unit := do
  let resolved ← dropConflictIfResolved c cf
  let orphaned ← if resolved then pure true else dropConflictIfOrphaned c cf
  if orphaned then pure ()
  else do
    let age := c.now.toInt - cf.detectedAt.toInt
    if phantomEvictionDelay ≤ age then do
      let fullyLoaded ← withLock c.tid .quorum (evictPhantomsAndResolve c cf)
      if fullyLoaded then revoteAndTally c cf
    else if age < staleConflictAge then pure ()
    else revoteAndTally c cf

/-- `sweepStaleConflicts`, over the records of the positions in the order they are listed. -/
def sweepStaleConflicts (c : Ctx) (positions : List (Str × Str)) : M Unit := do
  let conflicts ← readStore (fun st => positions.filterMap st.conflicts.get)
  Prog.forEach conflicts (sweepConflict c)

/-- `pruneOrphanedConflicts`. -/
def pruneOrphanedConflicts (c : Ctx) (positions : List (Str × Str)) : M Unit := do
  let conflicts ← readStore (fun st => positions.filterMap st.conflicts.get)
  Prog.forEach conflicts (fun cf => do let _ ← dropConflictIfOrphaned c cf)

end Xe
