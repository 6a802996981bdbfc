import XeLattice.Inv.Notes
import XeLattice.Prog.Pool
import XeLattice.Sample

/-!
# One representative, one vote

A store keeps one vote for each key it derives from a vote.  Badger derives the key from the bytes
that the fields spell, the memory store from the strings themselves, so that there the upper-case
spelling of a public key is another voter.

* **`votes_once`**: a position has one vote of each account, if their keys are spelled in one way.
-/

set_option autoImplicit false
set_option maxRecDepth 100000

namespace Xe

open Prog

/-! ## The invariant -/

/-- The spelling of a representative that a store tells from all others: the address is computed
from an input of `D`, and the memory store is given no upper-case letters. -/
def RepKey (kind : StoreKind) (D : Set Str) (rep : Str) : Prop :=
  (∃ pub, decodePublicKey rep = .ok pub ∧ accountAddressDomain ++ pub ∈ D) ∧
    (kind = .badger ∨ Lower rep)

/-- Stored and buffered votes are spelled well, and no two stored ones have the same key. -/
structure VotesOK (kind : StoreKind) (D : Set Str) (s : State) : Prop where
  sort : s.store.kind = kind
  stored : ∀ v ∈ s.store.votes, RepKey kind D v.repPubKey
  buffered : ∀ k vs, s.vm.pendingVotes.get k = some vs → ∀ v ∈ vs, RepKey kind D v.repPubKey
  once : (s.store.votes.map (Vote.key kind)).Nodup

section Votes

variable {kind : StoreKind} {D : Set Str} {s s' : State}

theorem VotesOK.congr (h : VotesOK kind D s) (hk : s'.store.kind = s.store.kind)
    (hv : s'.store.votes = s.store.votes) (hp : s'.vm.pendingVotes = s.vm.pendingVotes) :
    VotesOK kind D s' where
  sort := hk.trans h.sort
  stored := hv ▸ h.stored
  buffered := hp ▸ h.buffered
  once := hv ▸ h.once

theorem VotesOK.sameNotes (h : VotesOK kind D s) (hs : SameNotes s s') : VotesOK kind D s' :=
  h.congr (congrArg Notes.kind hs.notes) (congrArg Notes.votes hs.notes)
    (congrArg VoteMem.pendingVotes hs.vm)

theorem VotesOK.filter (h : VotesOK kind D s) (p : Vote → Bool) :
    VotesOK kind D { s with store := { s.store with votes := s.store.votes.filter p } } where
  sort := h.sort
  stored v hv := h.stored v (List.mem_filter.mp hv).1
  buffered := h.buffered
  once := h.once.sublist ((List.filter_sublist).map _)

theorem VotesOK.dropVotes (h : VotesOK kind D s) (a p : Str) :
    VotesOK kind D { s with store := s.store.deleteVotesForConflict a p } := by
  unfold Store.deleteVotesForConflict
  split
  · exact h
  · exact h.filter _

theorem VotesOK.put (h : VotesOK kind D s) {v : Vote} {st : Store}
    (hv : RepKey kind D v.repPubKey) (hst : s.store.putVote v = .ok st) :
    VotesOK kind D { s with store := st } := by
  obtain ⟨key, hkey, hst⟩ := bind_eq_ok.mp hst
  cases hst
  rw [h.sort] at hkey
  have hvkey : v.key kind = some key := by
    rw [Vote.key, hkey]
    rfl
  refine ⟨h.sort, ?_, h.buffered, ?_⟩
  · intro w hw
    rcases List.mem_append.mp hw with hw | hw
    · exact h.stored w (List.mem_filter.mp hw).1
    · rw [List.mem_singleton.mp hw]
      exact hv
  · have hrest : ((s.store.votes.filter
        (fun w => w.key s.store.kind ≠ some key)).map (Vote.key kind)).Nodup :=
      h.once.sublist ((List.filter_sublist).map _)
    have hnew : v.key kind ∉ (s.store.votes.filter
        (fun w => w.key s.store.kind ≠ some key)).map (Vote.key kind) := by
      intro hmem
      obtain ⟨w, hw, hwv⟩ := List.mem_map.mp hmem
      have hne := (List.mem_filter.mp hw).2
      rw [h.sort, hwv, hvkey] at hne
      simp at hne
    rw [List.map_append, List.map_singleton]
    exact List.nodup_append_comm.mp (List.nodup_cons.mpr ⟨hnew, hrest⟩)

theorem nodeWrites_votesOK : NodeWrites (fun s s' => VotesOK kind D s → VotesOK kind D s') where
  refl _ := id
  lock _ _ _ h := h.congr rfl rfl rfl
  keyset _ _ _ h := h.congr rfl rfl rfl
  accountKey _ _ _ h := h.congr rfl rfl rfl
  mem _ _ h := h.congr rfl rfl rfl
  reputation s s' hs h := h.sameNotes (ledgerWrites_sameNotes.reputation s s' hs)
  commitBlock s c h := h.sameNotes (ledgerWrites_sameNotes.commitBlock s c)
  commitUndo s u h := h.sameNotes (ledgerWrites_sameNotes.commitUndo s u)
  commitCascade s us c h := h.sameNotes (ledgerWrites_sameNotes.commitCascade s us c)
  qm _ _ h := h.congr rfl rfl rfl
  staged _ _ h := h.congr rfl rfl rfl
  blockStatus _ _ h := h.congr rfl rfl rfl
  finalHeight _ _ _ h := h.congr rfl rfl rfl
  dropVotes _ a p h := h.dropVotes a p
  dropConflict _ _ _ h := h.congr rfl rfl rfl
  conflict _ _ h := h.congr rfl rfl rfl
  finalVotes _ _ h := h.congr rfl rfl rfl
  revoted _ _ h := h.congr rfl rfl rfl
  seen _ _ _ h := h.congr rfl rfl rfl
  signed _ _ h := h.congr rfl rfl rfl

theorem maintains_votesOK {α : Type} {p : M α}
    (hp : p.Keeps (fun s s' => VotesOK kind D s → VotesOK kind D s')) :
    p.Maintains (VotesOK kind D) :=
  hp.maintains fun _ _ h => h

theorem maintains_readOnly {α : Type} {p : M α} (hp : p.ReadOnly) :
    p.Maintains (VotesOK kind D) :=
  maintains_votesOK (nodeWrites_votesOK.of_readOnly hp)

theorem maintains_withLock {α : Type} {p : M α} (tid : ℕ) (l : Lock)
    (hp : p.Maintains (VotesOK kind D)) : (withLock tid l p).Maintains (VotesOK kind D) := by
  refine ensures_bind (maintains_votesOK (keeps_await fun s s' h => ?_)) fun _ _ =>
    ensures_deferring hp fun s h => nodeWrites_votesOK.lock s l none h
  split_ifs at h
  cases h
  exact nodeWrites_votesOK.lock s _ _

/-! ## Storing a vote -/

theorem lower_hexEncode (x : Str) : Lower (hexEncode x) := by
  intro b hb
  have hlow := List.all_eq_true.mp (isLowerHex_hexEncode x) b hb
  unfold isLowerHex at hlow
  simp only [Bool.or_eq_true, Bool.and_eq_true, decide_eq_true_eq] at hlow
  unfold lowerByte
  grind

theorem decodePublicKey_eq_ok {x bs : Str} :
    decodePublicKey x = .ok bs ↔ hexDecode x = .ok bs ∧ bs.length = 32 := by
  unfold decodePublicKey decodeSized
  cases hexDecode x with
  | error e => simp
  | ok bytes =>
    by_cases hlen : bytes.length = 32
    · simp only [if_pos hlen, Except.ok.injEq]
      exact ⟨fun h => ⟨h, h ▸ hlen⟩, And.left⟩
    · simp only [if_neg hlen, Except.ok.injEq, reduceCtorEq, false_iff]
      rintro ⟨rfl, h⟩
      exact hlen h

theorem decodeField_eq_ok {loc name : String} {x bs : Str} :
    decodeField loc name x = .ok bs ↔ hexDecode x = .ok bs ∧ bs.length = 32 := by
  unfold decodeField
  cases hexDecode x with
  | error e => simp
  | ok bytes =>
    by_cases hlen : bytes.length = 32
    · simp only [hlen, ne_eq, not_true, if_false, Except.ok.injEq]
      exact ⟨fun h => ⟨h, h ▸ hlen⟩, And.left⟩
    · simp only [ne_eq, hlen, not_false_eq_true, if_true, Except.ok.injEq, reduceCtorEq, false_iff]
      rintro ⟨rfl, h⟩
      exact hlen h

theorem maintains_putVote {v : Vote} (hv : RepKey kind D v.repPubKey) :
    (putVote v).Maintains (VotesOK kind D) := by
  intro s b s' hs h
  dsimp only at h
  split at h
  · next st hst =>
    cases h
    exact ⟨hs.put hv hst, trivial⟩
  · cases h
    exact ⟨hs, trivial⟩

theorem ensures_buildVote {c : Ctx} {kp : KeyPair} (hkp : accountAddressDomain ++ kp.pub ∈ D)
    (a p h : Str) (final : Bool) : (buildVote c kp a p h final).Ensures (VotesOK kind D)
      (fun o => ∀ v, o = some v → RepKey kind D v.repPubKey) := by
  refine ensures_bind (maintains_readOnly (readOnly_electionWeight _ _ _ _)) fun w _ => ?_
  dsimp only
  split
  · intro v hv
    cases hv
  · next sb hsb =>
    have hkey : RepKey kind D kp.pubKeyHex := by
      obtain ⟨rep, hrep, -⟩ := bind_eq_ok.mp hsb
      obtain ⟨hdec, hlen⟩ := decodeField_eq_ok.mp hrep
      change hexDecode (hexEncode kp.pub) = .ok rep at hdec
      rw [hexDecode_hexEncode] at hdec
      cases hdec
      exact ⟨⟨kp.pub, decodePublicKey_eq_ok.mpr ⟨hexDecode_hexEncode _, hlen⟩, hkp⟩,
        .inr (lower_hexEncode _)⟩
    cases final with
    | false =>
      intro v hv
      cases hv
      exact hkey
    | true =>
      refine ensures_bind (maintains_wr fun s hs => nodeWrites_votesOK.signed s _ hs) fun _ _ => ?_
      intro v hv
      cases hv
      exact hkey

section Casting

variable {c : Ctx} (hkey : ∀ kp, c.node.keyPair = some kp → accountAddressDomain ++ kp.pub ∈ D)
variable {kp : KeyPair} (hkp : accountAddressDomain ++ kp.pub ∈ D) (a p : Str)

theorem maintains_retally : (retally c a p).Maintains (VotesOK kind D) :=
  maintains_votesOK (nodeWrites_votesOK.keeps_retally c a p)

include hkp in
theorem maintains_emitFinalLocked (h : Str) :
    (emitFinalLocked c kp a p h).Maintains (VotesOK kind D) := by
  refine ensures_bind (maintains_votesOK (nodeWrites_votesOK.keeps_putFinalVoteIfAbsent a p h))
    fun locked _ => ensures_bind (maintains_readOnly (readOnly_getBlockOrStaged _)) fun o _ => ?_
  cases o with
  | none => trivial
  | some b =>
    refine ensures_bind (maintains_readOnly (readOnly_depsFinalized b)) fun _ _ =>
      ensures_ite (ensures_bind (maintains_readOnly (readOnly_readStore _)) fun _ _ =>
        ensures_ite trivial (ensures_bind (ensures_buildVote hkp a p locked true) fun o ho => ?_))
        trivial
    cases o with
    | none => trivial
    | some v =>
      refine ensures_bind (maintains_putVote (ho v rfl)) fun r _ => ?_
      cases r with
      | error e => trivial
      | ok _ => exact maintains_retally _ _

include hkp in
theorem maintains_emitPreference (pref : Str) :
    (emitPreference c kp a p pref).Maintains (VotesOK kind D) := by
  refine ensures_bind (maintains_readOnly (readOnly_readStore _)) fun existing _ => ?_
  refine maintains_orElse (a := true) (fun emit => ?_)
    (maintains_votesOK (nodeWrites_votesOK.keeps_mayRevote c a p))
  refine ensures_ite (ensures_bind (ensures_buildVote hkp a p pref false) fun o ho => ?_) trivial
  cases o with
  | none => trivial
  | some v =>
    exact ensures_bind (maintains_putVote (ho v rfl)) fun _ _ =>
      ensures_bind (maintains_retally _ _) fun _ _ =>
        maintains_wr fun s hs => nodeWrites_votesOK.revoted s _ hs

include hkp in
theorem maintains_maybeLock (pref : Str) :
    (maybeLock c kp a p pref).Maintains (VotesOK kind D) := by
  refine ensures_bind (maintains_readOnly (readOnly_readStore _)) fun _ _ =>
    ensures_bind (maintains_readOnly ?_) fun _ _ => ensures_ite
      (ensures_bind (maintains_readOnly (readOnly_rd _)) fun _ _ =>
        ensures_ite (maintains_emitFinalLocked hkp a p pref) trivial) trivial
  refine each_bind (readOnly_readStore _) fun o => ?_
  cases o with
  | none => exact readOnly_readMem _
  | some cf => exact each_ite (each_pure _) (readOnly_readMem _)

include hkp in
theorem maintains_castPreference (seed : List Str) :
    (castPreference c kp a p seed).Maintains (VotesOK kind D) := by
  refine ensures_bind (maintains_readOnly (readOnly_gatherCandidates a p seed)) fun hs _ =>
    ensures_bind (maintains_votesOK (nodeWrites_votesOK.keeps_noteHeldCandidates c a p hs))
      fun _ _ => ensures_bind (maintains_readOnly (readOnly_readStore _)) fun cf _ =>
        ensures_bind (maintains_readOnly (readOnly_eligibleCandidates cf hs)) fun _ _ =>
          ensures_ite trivial (ensures_bind (maintains_readOnly (readOnly_getBlockOrStaged _))
            fun o _ => ?_)
  cases o with
  | none => trivial
  | some b =>
    exact ensures_bind (maintains_readOnly (readOnly_depsFinalized b)) fun _ _ => ensures_ite
      (ensures_bind (maintains_emitPreference hkp a p _) fun _ _ => maintains_maybeLock hkp a p _)
      trivial

include hkey in
theorem maintains_castVoteLocked (seed : List Str) :
    (castVoteLocked c a p seed).Maintains (VotesOK kind D) := by
  unfold castVoteLocked
  split
  · trivial
  · next kp hkp =>
    refine ensures_bind (maintains_readOnly (readOnly_readMem _)) fun w _ => ?_
    refine maintains_orElse (a := true) (fun resolved => ?_)
      (maintains_readOnly (readOnly_positionResolved a p))
    refine ensures_ite trivial
      (ensures_bind (maintains_readOnly (readOnly_readStore _)) fun own _ => ?_)
    cases own.filter (·.final) with
    | some existing =>
      exact maintains_votesOK (nodeWrites_votesOK.keeps_repeatFinal c kp a p _)
    | none =>
      refine ensures_bind (maintains_readOnly (readOnly_readStore _)) fun o _ => ?_
      cases o with
      | some locked => exact maintains_emitFinalLocked (hkey kp hkp) a p locked
      | none => exact maintains_castPreference (hkey kp hkp) a p seed

include hkey in
theorem maintains_castVote (seed : List Str) :
    (castVote c a p seed).Maintains (VotesOK kind D) :=
  maintains_withLock _ _ (maintains_castVoteLocked hkey a p seed)

end Casting

/-! ## Receiving votes -/

/-- What the input of a call must satisfy: the address of a vote's representative is computed from
an input of `D`, and the memory store gets its key without upper-case letters; one spelling in upper
case, used throughout, would do as well. -/
def Vote.Spelled (kind : StoreKind) (D : Set Str) (v : Vote) : Prop :=
  (∀ pub, decodePublicKey v.repPubKey = .ok pub → accountAddressDomain ++ pub ∈ D) ∧
    (kind = .badger ∨ Lower v.repPubKey)

theorem Vote.Spelled.repKey (lib : Lib) {v : Vote} (h : v.Spelled kind D)
    (hsig : (checkVoteSignature lib v).isOk = true) : RepKey kind D v.repPubKey := by
  obtain ⟨u, hcheck⟩ := exists_of_isOk hsig
  obtain ⟨pub, hpub, -⟩ := bind_eq_ok.mp hcheck
  have hdec := mapError_eq_ok.mp hpub
  exact ⟨⟨pub, hdec, h.1 pub hdec⟩, h.2⟩

section Receiving

variable {c : Ctx} (hkey : ∀ kp, c.node.keyPair = some kp → accountAddressDomain ++ kp.pub ∈ D)
variable {v : Vote}

theorem maintains_receiveVoteInner (hv : RepKey kind D v.repPubKey) :
    (receiveVoteInner c v).Maintains (VotesOK kind D) := by
  refine ensures_bind (maintains_readOnly (readOnly_readStore _)) fun r _ => ?_
  cases r with
  | error e => trivial
  | ok existing =>
    refine ensures_ite trivial (ensures_bind
      (maintains_readOnly (readOnly_electionWeight _ _ _ _)) fun w _ =>
        ensures_bind (maintains_putVote hv) fun r _ => ?_)
    cases r with
    | error e => trivial
    | ok _ =>
      exact ensures_bind (maintains_wr fun s hs => nodeWrites_votesOK.revoted s _ hs) fun _ _ =>
        maintains_retally _ _

include hkey in
theorem maintains_acceptVote (hv : RepKey kind D v.repPubKey) :
    (acceptVote c v).Maintains (VotesOK kind D) :=
  maintains_withLock _ _ (ensures_bind (maintains_readOnly (readOnly_positionResolved _ _))
    fun _ _ => ensures_ite (maintains_votesOK (nodeWrites_votesOK.keeps_reaffirmFromState c _ _))
      (ensures_bind (maintains_receiveVoteInner hv) fun _ _ =>
        maintains_castVoteLocked hkey _ _ _))

theorem maintains_bufferVote (hv : RepKey kind D v.repPubKey) :
    (bufferVote v).Maintains (VotesOK kind D) := by
  refine maintains_wr fun s hs => ?_
  dsimp only
  split_ifs
  · exact hs
  · refine ⟨hs.sort, hs.stored, fun k vs hk w hw => ?_, hs.once⟩
    change (s.vm.pendingVotes.set _ _).get k = some vs at hk
    rw [Table.get_set] at hk
    split_ifs at hk
    · cases hk
      rcases List.mem_append.mp hw with hw | hw
      · cases hold : s.vm.pendingVotes.get (v.conflictAccount, v.conflictPrev) with
        | none =>
          rw [hold] at hw
          cases hw
        | some old =>
          rw [hold] at hw
          exact hs.buffered _ old hold w hw
      · rw [List.mem_singleton.mp hw]
        exact hv
    · exact hs.buffered k vs hk w hw

include hkey in
theorem maintains_receiveVote (hv : v.Spelled kind D) :
    (receiveVote c v).Maintains (VotesOK kind D) := by
  cases hcheck : checkVoteSignature c.lib v with
  | error e =>
    -- a vote without a valid signature is dropped before anything is read
    have hfail : (receiveVote c v) = Prog.fail (.err (e.wrap [])) := by
      unfold receiveVote validateVote isConflictNotFound
      rw [hcheck]
      rfl
    rw [hfail]
    trivial
  | ok u =>
    have hrep := hv.repKey c.lib (by rw [hcheck]; rfl)
    refine maintains_handle (maintains_readOnly (readOnly_validateVote c v)) fun r => ?_
    cases r with
    | ok _ => exact maintains_acceptVote hkey hrep
    | error e =>
      refine ensures_bind (maintains_readOnly ?_) fun _ _ =>
        ensures_ite (maintains_bufferVote hrep) trivial
      exact each_ite (each_pure _) (each_bind (readOnly_readMem _) fun _ =>
        each_ite (each_pure _) (each_bind (readOnly_readStore _) fun _ => each_pure _))

theorem maintains_flushPendingVotes (a p : Str) :
    (flushPendingVotes c a p).Maintains (VotesOK kind D) := by
  have htake : (Prog.act (fun s : State => some ((s.vm.pendingVotes.get (a, p)).getD [],
      { s with vm := { s.vm with pendingVotes := s.vm.pendingVotes.del (a, p) } })) pure :
        M (List Vote)).Ensures (VotesOK kind D)
        (fun vs => ∀ v ∈ vs, RepKey kind D v.repPubKey) := by
    intro s b s' hs h
    cases h
    refine ⟨⟨hs.sort, hs.stored, fun k vs hk => ?_, hs.once⟩, ?_⟩
    · change (s.vm.pendingVotes.del (a, p)).get k = some vs at hk
      rw [Table.get_del] at hk
      split_ifs at hk
      exact hs.buffered k vs hk
    · intro v hv
      cases hold : s.vm.pendingVotes.get (a, p) with
      | none =>
        rw [hold] at hv
        cases hv
      | some old =>
        rw [hold] at hv
        exact hs.buffered _ old hold v hv
  refine ensures_bind htake fun vs hvs => maintains_forEach fun v hv => ?_
  refine maintains_handle (ensures_bind (maintains_readOnly (readOnly_validateVote c v))
    fun _ _ => maintains_receiveVoteInner (hvs v hv)) fun r => ?_
  rcases r with e | _
  · cases e <;> trivial
  · trivial

include hkey in
theorem maintains_onConflict (cf : Conflict) : (onConflict c cf).Maintains (VotesOK kind D) :=
  ensures_ite trivial (maintains_withLock _ _ (ensures_bind (maintains_flushPendingVotes _ _)
    fun _ _ => maintains_castVoteLocked hkey _ _ _))

end Receiving

/-! ## Sweeps -/

section Sweeps

variable {c : Ctx} (hkey : ∀ kp, c.node.keyPair = some kp → accountAddressDomain ++ kp.pub ∈ D)
include hkey

theorem maintains_sweepFrontiersOnce (accounts : List Str) :
    (sweepFrontiersOnce c accounts).Maintains (VotesOK kind D) := by
  unfold sweepFrontiersOnce
  split
  · trivial
  · exact ensures_bind (maintains_readOnly (readOnly_readMem _)) fun _ _ => ensures_ite trivial
      (maintains_forEach fun a _ => ensures_bind (maintains_readOnly (readOnly_readStore _))
        fun _ _ => ensures_bind (maintains_readOnly (readOnly_readStore _)) fun _ _ =>
          maintains_forEach fun b _ => ensures_ite trivial (maintains_castVote hkey _ _ _))

theorem maintains_sweepConflict (cf : Conflict) :
    (sweepConflict c cf).Maintains (VotesOK kind D) := by
  have hrevote : (revoteAndTally c cf).Maintains (VotesOK kind D) :=
    ensures_bind (maintains_castVote hkey _ _ _) fun _ _ =>
      maintains_votesOK (nodeWrites_votesOK.keeps_withLock _ _
        (each_bind (nodeWrites_votesOK.keeps_tallyAndConfirm c _ _) fun _ => each_pure _))
  have hevict : (withLock c.tid .quorum (evictPhantomsAndResolve c cf)).Maintains
      (VotesOK kind D) :=
    maintains_withLock _ _
      (maintains_votesOK (nodeWrites_votesOK.keeps_evictPhantomsAndResolve c cf))
  have hrest : ∀ orphaned : Bool, (if orphaned then pure () else do
      let age := c.now.toInt - cf.detectedAt.toInt
      if phantomEvictionDelay ≤ age then do
        let fullyLoaded ← withLock c.tid .quorum (evictPhantomsAndResolve c cf)
        if fullyLoaded then revoteAndTally c cf
      else if age < staleConflictAge then pure ()
      else revoteAndTally c cf : M Unit).Maintains (VotesOK kind D) := fun orphaned =>
    ensures_ite trivial (ensures_ite
      (ensures_bind hevict fun _ _ => ensures_ite hrevote trivial) (ensures_ite trivial hrevote))
  refine ensures_bind (maintains_votesOK (nodeWrites_votesOK.keeps_dropConflictIfResolved c cf))
    fun resolved _ => ?_
  dsimp only
  by_cases hres : resolved = true
  · rw [if_pos hres]
    exact hrest true
  · rw [if_neg hres]
    exact ensures_bind
      (maintains_votesOK (nodeWrites_votesOK.keeps_dropConflictIfOrphaned c cf))
      fun _ _ => hrest _

end Sweeps

end Votes

/-! ## Calls -/

/-- The calls of a node that have to do with blocks and votes. -/
inductive Call
  | receiveVote (v : Vote)
  | castVote (account prev : Str) (seed : List Str)
  | onBlockAdded (b : Block)
  | onConflict (cf : Conflict)
  | votesForPosition (account prev : Str)
  | addBlock (b : Block)
  | addSyncedBlock (b : Block)
  | swapBlock (account oldHash newHash : Str) (newBlock : Block)
  | sweepFrontiersOnce (accounts : List Str)
  | sweepStaleConflicts (positions : List (Str × Str))
  | pruneOrphanedConflicts (positions : List (Str × Str))

/-- The call of the source. -/
def Call.prog (c : Ctx) : Call → M Unit
  | .receiveVote v => Xe.receiveVote c v
  | .castVote account prev seed => Xe.castVote c account prev seed
  | .onBlockAdded b => Xe.onBlockAdded c b
  | .onConflict cf => Xe.onConflict c cf
  | .votesForPosition account prev => do let _ ← Xe.votesForPosition c account prev
  | .addBlock b => addNewBlock c b
  | .addSyncedBlock b => Xe.addSyncedBlock c b
  | .swapBlock account oldHash newHash newBlock => Xe.swapBlock c account oldHash newHash newBlock
  | .sweepFrontiersOnce accounts => Xe.sweepFrontiersOnce c accounts
  | .sweepStaleConflicts positions => Xe.sweepStaleConflicts c positions
  | .pruneOrphanedConflicts positions => Xe.pruneOrphanedConflicts c positions

/-- The condition on a call's input: only votes that are received matter. -/
def Call.Spelled (kind : StoreKind) (D : Set Str) : Call → Prop
  | .receiveVote v => v.Spelled kind D
  | _ => True

/-- The programs of all calls of a node whose votes are spelled in one way. -/
def spelledCalls (node : Node) (D : Set Str) : Set (M Unit) :=
  {p | ∃ c call, c.node = node ∧ Call.Spelled node.storeKind D call ∧ p = call.prog c}

section Calls

variable {kind : StoreKind} {D : Set Str} {c : Ctx}

theorem Call.maintains (hkey : ∀ kp, c.node.keyPair = some kp → accountAddressDomain ++ kp.pub ∈ D)
    {call : Call} (h : call.Spelled kind D) : (call.prog c).Maintains (VotesOK kind D) := by
  cases call with
  | receiveVote v => exact maintains_receiveVote hkey h
  | castVote a p seed => exact maintains_castVote hkey a p seed
  | onBlockAdded b => exact ensures_ite trivial (maintains_castVote hkey _ _ _)
  | onConflict cf => exact maintains_onConflict hkey cf
  | votesForPosition a p =>
    exact ensures_bind (maintains_votesOK (nodeWrites_votesOK.keeps_votesForPosition c a p))
      fun _ _ => trivial
  | addBlock b => exact maintains_votesOK (nodeWrites_votesOK.keeps_addBlock c b false)
  | addSyncedBlock b => exact maintains_votesOK (nodeWrites_votesOK.keeps_addBlock c b true)
  | swapBlock a old new b =>
    exact maintains_votesOK (nodeWrites_votesOK.keeps_swapBlock c a old new b)
  | sweepFrontiersOnce accounts => exact maintains_sweepFrontiersOnce hkey accounts
  | sweepStaleConflicts positions =>
    exact ensures_bind (maintains_readOnly (readOnly_readStore _)) fun _ _ =>
      maintains_forEach fun cf _ => maintains_sweepConflict hkey cf
  | pruneOrphanedConflicts positions =>
    exact ensures_bind (maintains_readOnly (readOnly_readStore _)) fun _ _ =>
      maintains_forEach fun cf _ => ensures_bind
        (maintains_votesOK (nodeWrites_votesOK.keeps_dropConflictIfOrphaned c cf))
        fun _ _ => trivial

end Calls

/-! ## Counting -/

/-- No representative account has two of the votes. -/
def CountedOnce (lib : Lib) (votes : List Vote) : Prop :=
  (votes.map (Vote.repAccount lib)).Nodup

instance (lib : Lib) (votes : List Vote) : Decidable (CountedOnce lib votes) :=
  inferInstanceAs (Decidable (List.Nodup _))

section Counting

variable {kind : StoreKind} {D : Set Str} {lib : Lib} {s : State}

theorem repAccount_of_decode {v : Vote} {pub : Str} (h : decodePublicKey v.repPubKey = .ok pub) :
    v.repAccount lib = deriveAddressFromKey lib pub := by
  unfold Vote.repAccount deriveAddress
  rw [h]
  rfl

theorem decode_eq_of_repAccount (hD : Set.InjOn lib.sha256 D) {v w : Vote} {x y : Str}
    (hx : decodePublicKey v.repPubKey = .ok x) (hxD : accountAddressDomain ++ x ∈ D)
    (hy : decodePublicKey w.repPubKey = .ok y) (hyD : accountAddressDomain ++ y ∈ D)
    (h : v.repAccount lib = w.repAccount lib) : x = y := by
  rw [repAccount_of_decode hx, repAccount_of_decode hy] at h
  exact List.append_cancel_left (hD hxD hyD (hexEncode_inj h))

theorem isAt_eq_true {position : Str × Str} {v : Vote} (h : v.isAt kind position = true) :
    ∃ rep, v.key kind = some (position.1, position.2, rep) ∧
      (kind = .mem → rep = v.repPubKey) ∧
      (kind = .badger → decodePublicKey v.repPubKey = .ok rep) := by
  unfold Vote.isAt at h
  obtain ⟨⟨a, p, rep⟩, hkey, rfl⟩ := Option.map_eq_some_iff.mp (of_decide_eq_true h)
  refine ⟨rep, hkey, ?_⟩
  unfold Vote.key at hkey
  cases hk : voteKey kind v.conflictAccount v.conflictPrev v.repPubKey with
  | error e =>
    rw [hk] at hkey
    cases hkey
  | ok key =>
    rw [hk] at hkey
    cases hkey
    cases kind with
    | mem =>
      cases hk
      refine ⟨fun _ => rfl, fun hne => ?_⟩
      cases hne
    | badger =>
      obtain ⟨_, -, hk⟩ := bind_eq_ok.mp hk
      obtain ⟨_, -, hk⟩ := bind_eq_ok.mp hk
      obtain ⟨rep', hrep, hk⟩ := bind_eq_ok.mp hk
      cases hk
      refine ⟨fun hne => ?_, fun _ => decodePublicKey_eq_ok.mpr (decodeField_eq_ok.mp hrep)⟩
      cases hne

theorem key_eq_of_repAccount (hD : Set.InjOn lib.sha256 D) {position : Str × Str} {v w : Vote}
    (hv : RepKey kind D v.repPubKey) (hw : RepKey kind D w.repPubKey)
    (hva : v.isAt kind position = true) (hwa : w.isAt kind position = true)
    (h : v.repAccount lib = w.repAccount lib) : v.key kind = w.key kind := by
  obtain ⟨⟨x, hx, hxD⟩, hvs⟩ := hv
  obtain ⟨⟨y, hy, hyD⟩, hws⟩ := hw
  obtain rfl := decode_eq_of_repAccount hD hx hxD hy hyD h
  obtain ⟨r, hvk, hrm, hrb⟩ := isAt_eq_true hva
  obtain ⟨t, hwk, htm, htb⟩ := isAt_eq_true hwa
  have hrt : r = t := by
    cases kind with
    | mem =>
      -- both strings spell the same bytes without upper-case letters
      have hv' := hexEncode_hexDecode (decodePublicKey_eq_ok.mp hx).1 (hvs.resolve_left (by decide))
      have hw' := hexEncode_hexDecode (decodePublicKey_eq_ok.mp hy).1 (hws.resolve_left (by decide))
      rw [hrm rfl, htm rfl, ← hv', ← hw']
    | badger =>
      have hok := (hrb rfl).symm.trans (hx.trans (hy.symm.trans (htb rfl)))
      exact Except.ok.inj hok
  rw [hvk, hwk, hrt]

theorem VotesOK.countedOnce (h : VotesOK kind D s) (hD : Set.InjOn lib.sha256 D)
    {account prev : Str} {votes : List Vote}
    (hvotes : s.store.votesByConflict account prev = .ok votes) :
    CountedOnce lib votes := by
  obtain ⟨position, -, hv⟩ := bind_eq_ok.mp hvotes
  cases hv
  rw [h.sort]
  have hpair : s.store.votes.Pairwise (fun v w => v.key kind ≠ w.key kind) :=
    List.pairwise_map.mp h.once
  refine List.pairwise_map.mpr ((hpair.sublist List.filter_sublist).imp_of_mem ?_)
  intro v w hv hw hne heq
  obtain ⟨hvm, hva⟩ := List.mem_filter.mp hv
  obtain ⟨hwm, hwa⟩ := List.mem_filter.mp hw
  exact hne (key_eq_of_repAccount hD (h.stored v hvm) (h.stored w hwm) hva hwa heq)

theorem countedVotes_sublist_final {account prev : Str} {votes counted : List Vote} {s' : State}
    (h : (countedVotes account prev votes).run s = some (.ok counted, s')) :
    counted.Sublist (votes.filter (·.final)) := by
  obtain rfl := run_readOnly (readOnly_countedVotes account prev votes) h
  induction votes generalizing counted with
  | nil =>
    cases h
    exact .slnil
  | cons v votes ih =>
    have hrest : ∀ x : Bool, (do
        let rest ← countedVotes account prev votes
        pure (if x then v :: rest else rest) : M (List Vote)).run s' = some (.ok counted, s') →
          (x = true → v.final = true) → counted.Sublist ((v :: votes).filter (·.final)) := by
      intro x hx hfinal
      obtain ⟨rest, hr, hx⟩ := (readOnly_countedVotes account prev votes).of_bind_ok hx
      cases hx
      have hv : (votes.filter (·.final)).Sublist ((v :: votes).filter (·.final)) :=
        (List.sublist_cons_self v votes).filter _
      split_ifs with hx
      · rw [List.filter_cons_of_pos (hfinal hx)]
        exact (ih hr).cons_cons v
      · exact (ih hr).trans hv
    unfold countedVotes at h
    dsimp only at h
    split_ifs at h with hv
    · exact hrest false h fun hx => absurd hx Bool.false_ne_true
    · obtain ⟨_, -, h⟩ := (readOnly_getBlockOrStaged _).of_bind_ok h
      exact hrest _ h fun _ => by simpa using hv

theorem countedVotes_sublist {account prev : Str} {votes counted : List Vote} {s' : State}
    (h : (countedVotes account prev votes).run s = some (.ok counted, s')) :
    counted.Sublist votes :=
  (countedVotes_sublist_final h).trans List.filter_sublist

end Counting

/-! ## Every interleaving -/

/-- **One representative, one vote.** In every interleaving of calls, from a state without votes, if
the store is badger or every vote received spells its representative without upper-case letters,
then no account has two votes at a position, nor two of those a tally counts there. -/
theorem votes_once {node : Node} {D : Set Str} (hD : Set.InjOn node.lib.sha256 D)
    (hkey : ∀ kp, node.keyPair = some kp → accountAddressDomain ++ kp.pub ∈ D) {s₀ s : State}
    (hkind : s₀.store.kind = node.storeKind) (hstored : s₀.store.votes = [])
    (hbuffered : s₀.vm.pendingVotes = .empty) (hrun : Pool.Reaches (spelledCalls node D) s₀ s)
    {account prev : Str} {votes : List Vote}
    (hvotes : s.store.votesByConflict account prev = .ok votes) :
    CountedOnce node.lib votes ∧
      ∀ counted s', (countedVotes account prev votes).run s = some (.ok counted, s') →
        CountedOnce node.lib counted := by
  have h₀ : VotesOK node.storeKind D s₀ := by
    refine ⟨hkind, ?_, ?_, ?_⟩
    · rw [hstored]
      simp
    · rw [hbuffered]
      simp
    · rw [hstored]
      simp
  have hs : VotesOK node.storeKind D s := by
    refine Pool.invariant ?_ h₀ hrun
    rintro p ⟨c, call, rfl, hcall, rfl⟩
    exact Call.maintains hkey hcall
  have honce := hs.countedOnce hD hvotes
  refine ⟨honce, fun counted s' hcounted => ?_⟩
  exact List.Nodup.sublist ((countedVotes_sublist hcounted).map _) honce

/-! ## Two spellings of one key -/

theorem exists_runAll (c : Ctx) (kind : StoreKind) (ps : List (M Unit))
    {P : State → State → Prop} [DecidableRel P]
    (h : ((newLedger c).run (.empty kind)).any (fun x => x.1.isOk &&
      (Pool.runAll ps x.2).any (fun s => decide (P x.2 s))) = true) :
    ∃ s₀ s, (newLedger c).run (.empty kind) = some (.ok (), s₀) ∧ Pool.runAll ps s₀ = some s ∧
      P s₀ s := by
  rcases hnew : (newLedger c).run (.empty kind) with - | ⟨e | u, s₀⟩
  · simp [hnew] at h
  · rw [hnew] at h
    cases h
  · rw [hnew] at h
    change (Pool.runAll ps s₀).any (fun s => decide (P s₀ s)) = true at h
    cases hs : Pool.runAll ps s₀ with
    | none => simp [hs] at h
    | some s =>
      rw [hs] at h
      exact ⟨s₀, s, rfl, hs, of_decide_eq_true h⟩

namespace SampleVotes

open Sample

/-- A genesis account whose key is spelled with letters. -/
def genesis : Block := hashed
  { Sample.genesis with
    account := address 171
    representative := address 171
    pubKey := pub 171 }

/-- A node with one of the stores. -/
def node (kind : StoreKind) : Node :=
  { Sample.node with genesis := genesis, storeKind := kind }

/-- What the calls see. -/
def ctx (kind : StoreKind) : Ctx :=
  { Sample.ctx with node := node kind }

/-- A vote of the genesis account, under a spelling of its key. -/
def vote (rep : Str) : Vote where
  repPubKey := rep
  blockHash := pub 1
  conflictAccount := address 171
  conflictPrev := genesis.hash
  timestamp := 0
  final := false
  signature := []
  weight := 0

/-- The key in upper case. -/
def upperKey : Str :=
  (List.replicate 32 [65, 66]).flatten

/-- Two votes of one key. -/
def calls (kind : StoreKind) : List (M Unit) :=
  [receiveVote (ctx kind) (vote (pub 171)), receiveVote (ctx kind) (vote upperKey)]

/-- The key, as its address hashes it. -/
def inputs : Set Str :=
  {accountAddressDomain ++ List.replicate 32 171}

end SampleVotes

section Respelled

open SampleVotes

theorem spelled_calls : ∀ p ∈ calls .badger, p ∈ spelledCalls (node .badger) inputs := by
  have hdec : decodePublicKey (Sample.pub 171) = .ok (List.replicate 32 171) := by decide +kernel
  have hdec' : decodePublicKey upperKey = .ok (List.replicate 32 171) := by decide +kernel
  have hspelled : ∀ rep, decodePublicKey rep = .ok (List.replicate 32 171) →
      (vote rep).Spelled .badger inputs := by
    refine fun rep hrep => ⟨fun pub hpub => ?_, .inl rfl⟩
    cases hrep.symm.trans hpub
    rfl
  intro p hp
  rcases List.mem_cons.mp hp with rfl | hp
  · exact ⟨ctx .badger, .receiveVote (vote (Sample.pub 171)), rfl, hspelled _ hdec, rfl⟩
  · rw [List.mem_singleton.mp hp]
    exact ⟨ctx .badger, .receiveVote (vote upperKey), rfl, hspelled _ hdec', rfl⟩

/-- With badger the second spelling replaces the first vote. -/
theorem votes_once_respelled : ∃ s₀ s : State,
    (newLedger (ctx .badger)).run (.empty .badger) = some (.ok (), s₀) ∧
      Pool.Reaches (spelledCalls (node .badger) inputs) s₀ s ∧ s.store.votes.length = 1 ∧
        ∀ votes, s.store.votesByConflict (Sample.address 171) genesis.hash = .ok votes →
          CountedOnce Sample.lib votes := by
  obtain ⟨s₀, s, hnew, hrun, ⟨hkind, hstored, hbuffered⟩, hlen⟩ := exists_runAll (ctx .badger)
    .badger (calls .badger)
    (P := fun s₀ s => (s₀.store.kind = .badger ∧ s₀.store.votes = [] ∧
      s₀.vm.pendingVotes = .empty) ∧ s.store.votes.length = 1) (by decide +kernel)
  have hreach := (Pool.Reaches.refl s₀).runAll spelled_calls hrun
  have hD : Set.InjOn (node .badger).lib.sha256 inputs := Set.injOn_singleton _ _
  refine ⟨s₀, s, hnew, hreach, hlen, fun votes hvotes => ?_⟩
  exact (votes_once hD (fun kp h => nomatch h) hkind hstored hbuffered hreach hvotes).1

/-- **The memory store counts the account twice**, and more than all the weight there is. -/
theorem votes_twice : ∃ s₀ s : State,
    (newLedger (ctx .mem)).run (.empty .mem) = some (.ok (), s₀) ∧ s₀.store.votes = [] ∧
      s₀.vm.pendingVotes = .empty ∧ Pool.runAll (calls .mem) s₀ = some s ∧
        ∃ votes, s.store.votesByConflict (Sample.address 171) genesis.hash = .ok votes ∧
          ¬ CountedOnce Sample.lib votes ∧
            s.mem.totalDelegatedWeight none < weightOn votes (Sample.pub 1) := by
  obtain ⟨s₀, s, hnew, hrun, hstored, hbuffered, hvotes⟩ := exists_runAll (ctx .mem)
    .mem (calls .mem)
    (P := fun s₀ s => s₀.store.votes = [] ∧ s₀.vm.pendingVotes = .empty ∧
      ∃ votes ∈ (s.store.votesByConflict (Sample.address 171) genesis.hash).toOption,
        ¬ CountedOnce Sample.lib votes ∧
          s.mem.totalDelegatedWeight none < weightOn votes (Sample.pub 1)) (by decide +kernel)
  obtain ⟨votes, hmem, hwrong⟩ := hvotes
  refine ⟨s₀, s, hnew, hstored, hbuffered, hrun, votes, ?_, hwrong⟩
  cases hv : s.store.votesByConflict (Sample.address 171) genesis.hash with
  | error e =>
    rw [hv] at hmem
    cases hmem
  | ok vs =>
    rw [hv] at hmem
    cases hmem
    rfl

end Respelled

end Xe
