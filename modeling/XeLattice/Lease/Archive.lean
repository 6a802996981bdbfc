import XeLattice.Lease.Settling

/-!
# Archiving expired leases

`node/node.go`: a node takes an accepted lease that nobody has settled out of its books once its own
clock is past the end of the escrow and a gap.  No block says so, and a settlement that is delivered
afterwards is refused, whatever time it is attested for.

* **`archive_commutes_iff`**: archiving and delivering commute exactly for late live blocks.
-/

set_option autoImplicit false
set_option maxRecDepth 100000

namespace Xe

open Prog

/-! ## The archiver -/

/-- `shouldArchiveExpiredLease`. -/
def shouldArchiveExpiredLease (c : Ctx) (lease : Lease) : Bool :=
  if lease.settled = true ∨ lease.state ≠ .accepted then false
  else decide (c.now ≥ lease.effectiveExpiry + c.timing.escrowExpiry + c.timing.archiveGap)

/-- `DeletePendingSend`, which does not mind a missing entry. -/
def Store.deletePendingSend (h : Str) (st : Store) : Store :=
  { st with pending := st.pending.del h }

/-- `PutLease`. -/
def Store.saveLease (l : Lease) (st : Store) : Store :=
  { st with leases := st.leases.set l.leaseHash l }

/-- `archiveExpiredLease`. -/
def archiveExpiredLease (lease : Lease) : M Unit := do
  writeStore (Store.deletePendingSend lease.leaseHash)
  writeStore (Store.saveLease { lease with state := .expired, settled := true })

/-- `tryArchiveExpiredLeases`, over the leases in the order they are listed. -/
def tryArchiveExpiredLeases (c : Ctx) (hashes : List Str) : M Unit := do
  let leases ← readStore (fun st =>
    (hashes.filterMap st.leases.get).filter (fun l => l.state = .accepted))
  Prog.forEach leases (fun lease =>
    if shouldArchiveExpiredLease c lease = true then archiveExpiredLease lease else pure ())

/-- The state in which a lease is archived. -/
def State.archived (s : State) (lease : Lease) : State :=
  { s with
    store := (s.store.deletePendingSend lease.leaseHash).saveLease
      { lease with state := .expired, settled := true } }

section Archive

variable {c : Ctx} {s s' : State} {h : Str} {lease : Lease}

theorem shouldArchiveExpiredLease_eq_true (hs : shouldArchiveExpiredLease c lease = true) :
    lease.settled = false ∧ lease.state = .accepted := by
  unfold shouldArchiveExpiredLease at hs
  split_ifs at hs with hcase
  push Not at hcase
  exact ⟨by simpa using hcase.1, hcase.2⟩

theorem run_tryArchive (hl : s.store.leases.get h = some lease)
    (hs : shouldArchiveExpiredLease c lease = true) :
    (tryArchiveExpiredLeases c [h]).run s = some (.ok (), s.archived lease) := by
  have hstate := (shouldArchiveExpiredLease_eq_true hs).2
  have hread : (readStore (fun st => ([h].filterMap st.leases.get).filter
      (fun l => l.state = .accepted)) : M (List Lease)).run s = some (.ok [lease], s) := by
    rw [run_readStore]
    simp [hl, hstate]
  unfold tryArchiveExpiredLeases
  rw [run_bind_of_ok hread]
  simp only [forEach, hs, if_true]
  rfl

end Archive

/-! ## Archiving and delivering -/

/-- Acceptance, leases, balances and pending entries are the same. -/
structure SameOutcome (r₁ r₂ : Except Fault Unit) (s₁ s₂ : State) : Prop where
  accepted : r₁.isOk = r₂.isOk
  leases : s₁.store.leases = s₂.store.leases
  balances : ∀ a x, s₁.mem.getAssetBalance a x = s₂.mem.getAssetBalance a x
  pending : s₁.store.pending = s₂.store.pending

section Commutes

variable (c : Ctx) (b : Block) (skip : Bool) (s : State)

/-- Archiving the lease of the block and then delivering the block comes to the same as delivering it
and then archiving. -/
def Commutes : Prop :=
  ∃ s₁ r₁ s₁' s₂ r₂ s₂',
    (tryArchiveExpiredLeases c [(submitted c.lib b).source]).run s = some (.ok (), s₁) ∧
    (addBlock c b skip).run s₁ = some (r₁, s₁') ∧
    (addBlock c b skip).run s = some (r₂, s₂) ∧
    (tryArchiveExpiredLeases c [(submitted c.lib b).source]).run s₂ = some (.ok (), s₂') ∧
    SameOutcome r₁ r₂ s₁' s₂'

/-- The block is new, its position is free, and the time it is attested for is the only thing that
could keep the node from taking it: `AddSyncedBlock` does not compare that time with the clock. -/
structure ValidByAttestedTime : Prop where
  lone : Lone s (submitted c.lib b)
  synced : ∃ s', (addSyncedBlock c b).run s = some (.ok (), s')

/-- The timestamp of the block is near enough to the clock. -/
def TimestampNear : Prop :=
  c.node.timestampWindow > 0 → ¬ b.timestamp < 0 ∧
    ¬ (if b.timestamp > c.now then b.timestamp - c.now else c.now - b.timestamp) >
      c.node.timestampWindow

instance : Decidable (TimestampNear c b) :=
  inferInstanceAs (Decidable (_ → _))

end Commutes

section Delivery

variable {c : Ctx} {s s' : State} {b : Block} {lease : Lease} {skip : Bool}

theorem checkForm_live_iff :
    (checkForm c b false).run s = some (.ok (), s) ↔
      (checkForm c b true).run s = some (.ok (), s) ∧ TimestampNear c b := by
  have hwindow : (if c.node.timestampWindow > 0 then do
      failIf (b.timestamp < 0) (str "block timestamp must not be negative")
      failIf ((if b.timestamp > c.now then b.timestamp - c.now else c.now - b.timestamp) >
          c.node.timestampWindow) (str "block timestamp out of range: delta=" ++
        c.lib.durationString
          (if b.timestamp > c.now then b.timestamp - c.now else c.now - b.timestamp))
      else pure () : M Unit).run s = some (.ok (), s) ↔ TimestampNear c b := by
    unfold TimestampNear
    by_cases hw : c.node.timestampWindow > 0
    · rw [if_pos hw, run_failIf_bind_ok, run_failIf_ok]
      simp [hw]
    · rw [if_neg hw]
      simp [hw]
  unfold checkForm
  simp only [run_failIf_bind_ok, run_liftErr_bind_ok, true_and, Bool.true_eq_false, false_and,
    if_false]
  by_cases hd : c.node.difficulty > 0
  · simp only [if_pos hd]
    cases hexDecode b.hash with
    | error e => simp [throwErr]
    | ok hashBytes =>
      by_cases hpow : ¬ c.lib.powHash b.powNonce hashBytes ≥ c.node.difficulty
      · simp only [if_pos hpow, run_fail_bind]
        simp
      · simp only [if_neg hpow, hwindow, run_pure, and_true]
        tauto
  · simp only [if_neg hd, hwindow, run_pure, and_true]
    tauto

theorem addBlock_archived (skip : Bool) (ht : SettlesLease (submitted c.lib b)) (hq : s.quiet)
    (hk : s.book.Keyed) (hlone : Lone s (submitted c.lib b))
    (haccount : s.locks (.account (submitted c.lib b).account) = none)
    (hlease : (submitted c.lib b).source ≠ [] →
      s.locks (.lease (submitted c.lib b).source) = none)
    (hkey : lease.leaseHash = (submitted c.lib b).source) :
    ∃ e, (addBlock c b skip).run (s.archived lease) = some (.error e, s.archived lease) := by
  rcases addBlock_settlement (s := s.archived lease) skip ht hq
    ⟨hk.keyset, hk.pubKey⟩ ⟨hlone.fresh, hlone.alone⟩ haccount hlease with ⟨p, -, hp, -⟩ | ⟨-, hrun⟩
  · obtain ⟨l, hset, -⟩ := hp.handler
    have hrecord := hset.accepted.record
    change (s.archived lease).leaseOf _ = some l at hrecord
    have hq' : (s.archived lease).quiet := hq
    rw [hq'.leaseOf, ← hkey] at hrecord
    have hexpired : (s.archived lease).store.leases.get lease.leaseHash =
        some { lease with state := .expired, settled := true } := by
      simp [State.archived, Store.saveLease]
    rw [hexpired] at hrecord
    cases hrecord
    exact absurd hset.accepted.settled (by simp)
  · exact hrun

section Valid

variable (hvalid : ValidByAttestedTime c b s) (ht : SettlesLease (submitted c.lib b))
  (hq : s.quiet) (hk : s.book.Keyed)

include hvalid ht

theorem ValidByAttestedTime.locks :
    s.locks (.account (submitted c.lib b).account) = none ∧
      ((submitted c.lib b).source ≠ [] → s.locks (.lease (submitted c.lib b).source) = none) := by
  obtain ⟨s', hrun⟩ := hvalid.synced
  exact addBlock_locks ht (addBlock_ok hrun).1 hrun

include hq hk

theorem ValidByAttestedTime.passes :
    ∃ p, (checkForm c (submitted c.lib b) true).run s = some (.ok (), s) ∧
      Passes c (submitted c.lib b) true s p := by
  obtain ⟨haccount, hlease⟩ := hvalid.locks ht
  obtain ⟨s', hrun⟩ := hvalid.synced
  rcases addBlock_settlement true ht hq hk hvalid.lone haccount hlease with
    ⟨p, hform, hp, -⟩ | ⟨-, e, herr⟩
  · exact ⟨p, hform, hp⟩
  · have hok : (addBlock c b true).run s = some (.ok (), s') := hrun
    rw [herr] at hok
    cases hok

theorem ValidByAttestedTime.passes_live_iff
    (hl : s.store.leases.get (submitted c.lib b).source = some lease) :
    (∃ p, (checkForm c (submitted c.lib b) false).run s = some (.ok (), s) ∧
        Passes c (submitted c.lib b) false s p) ↔
      TimestampNear c (submitted c.lib b) ∧ InTime c (submitted c.lib b) lease false := by
  obtain ⟨p, hform, hp⟩ := hvalid.passes ht hq hk
  have hrecord : ∀ {l p}, Settlement s.reads (submitted c.lib b) l p → l = lease := by
    intro l p hset
    have h := hset.accepted.record
    change s.leaseOf _ = some l at h
    rw [hq.leaseOf, hl] at h
    exact (Option.some.inj h).symm
  rw [checkForm_live_iff]
  constructor
  · rintro ⟨p', ⟨-, hnear⟩, hp'⟩
    obtain ⟨l, hset, hin⟩ := hp'.handler
    exact ⟨hnear, hrecord hset ▸ hin⟩
  · rintro ⟨hnear, hin⟩
    obtain ⟨l, hset, -⟩ := hp.handler
    exact ⟨p, ⟨hform, hnear⟩, hp.credential, hp.uncontested, l, hset, (hrecord hset).symm ▸ hin⟩

end Valid

/-- **Archiving and delivering a settlement that is valid by its attested time commute** exactly when
it is delivered live and then is not in time any more. -/
theorem archive_commutes_iff (hvalid : ValidByAttestedTime c b s)
    (ht : SettlesLease (submitted c.lib b)) (hq : s.quiet) (hk : s.book.Keyed)
    (hl : s.store.leases.get (submitted c.lib b).source = some lease)
    (hkey : lease.leaseHash = (submitted c.lib b).source)
    (hexpired : shouldArchiveExpiredLease c lease = true) :
    Commutes c b skip s ↔ skip = false ∧
      ¬ (TimestampNear c (submitted c.lib b) ∧ InTime c (submitted c.lib b) lease false) := by
  obtain ⟨haccount, hlease⟩ := hvalid.locks ht
  obtain ⟨e₁, harchived⟩ := addBlock_archived skip ht hq hk hvalid.lone haccount hlease
    hkey
  have harchive := run_tryArchive hl hexpired
  rw [← hvalid.passes_live_iff ht hq hk hl]
  rcases addBlock_settlement skip ht hq hk hvalid.lone haccount hlease with
    ⟨p, hform, hp, hrun⟩ | ⟨hno, e₂, hrun⟩
  · -- the block is taken before the lease is archived, and refused afterwards
    refine iff_of_false ?_ ?_
    · rintro ⟨s₁, r₁, s₁', s₂, r₂, s₂', h₁, h₂, h₃, -, hsame⟩
      rw [harchive] at h₁
      cases h₁
      rw [harchived] at h₂
      cases h₂
      rw [hrun] at h₃
      cases h₃
      cases hsame.accepted
    · rintro ⟨rfl, hnot⟩
      exact hnot ⟨p, hform, hp⟩
  · -- the block is refused both times
    refine iff_of_true ?_ ?_
    · exact ⟨_, _, _, _, _, _, harchive, harchived, hrun, harchive, rfl, rfl, fun _ _ => rfl, rfl⟩
    · cases skip with
      | true => exact absurd (hvalid.passes ht hq hk) hno
      | false => exact ⟨rfl, hno⟩

end Delivery

/-! ## A lease that is archived -/

section Results

variable {c : Ctx} {s : State} {b : Block} {skip : Bool}

theorem not_commutes_of_results
    (harchived : (((tryArchiveExpiredLeases c [(submitted c.lib b).source]).run s).bind
      fun x => (addBlock c b skip).run x.2).map (fun x => x.1.isOk) = some false)
    (htaken : ((addBlock c b skip).run s).map (fun x => x.1.isOk) = some true) :
    ¬ Commutes c b skip s := by
  rintro ⟨s₁, r₁, s₁', s₂, r₂, s₂', h₁, h₂, h₃, -, hsame⟩
  rw [h₁, Option.bind_some, h₂] at harchived
  rw [h₃] at htaken
  have hrefused : r₁.isOk = false := Option.some.inj harchived
  have haccepted : r₂.isOk = true := Option.some.inj htaken
  rw [hsame.accepted, haccepted] at hrefused
  cases hrefused

theorem validByAttestedTime_of_result (hlone : Lone s (submitted c.lib b))
    (hok : ((addSyncedBlock c b).run s).map (fun x => x.1.isOk) = some true) :
    ValidByAttestedTime c b s := by
  refine ⟨hlone, ?_⟩
  obtain ⟨⟨r, s'⟩, hrun, hr⟩ := Option.map_eq_some_iff.mp hok
  cases r with
  | ok u => exact ⟨s', hrun⟩
  | error e => cases hr

end Results

namespace SampleArchive

open Sample

/-- The calls more than a year after the lease. -/
def late : Ctx :=
  { leaseCtx with now := 31540000000000000 }

/-- The settlement of the sample lease at its end. -/
def settle : Block := hashed
  { type := .leaseSettle
    account := address 4
    previous := (accept 0).hash
    balance := 1
    asset := assetXE
    amount := 1
    source := Sample.lease.hash
    attestations := attestedAt 60000000000
    signature := signature }

/-- A lease and its acceptance. -/
def blocks : List Block := [mint 3 1000, mint 4 1, Sample.lease, accept 0]

/-- The record of the lease. -/
def record : Lease := acceptedRecord (accept 0) Sample.lease 0

theorem blocks_ideal : IdealHash lib (domain blocks) :=
  idealHash_of_nodup (by decide +kernel) (by decide +kernel)

theorem accepted_reachable :
    ∃ s, Reachable node (domain blocks) (fun _ _ => true = true) s ∧
      s.store.leases.get Sample.lease.hash = some record ∧ Lone s (submitted lib settle) ∧
      ((addSyncedBlock late settle).run s).map (fun x => x.1.isOk) = some true ∧
      (((tryArchiveExpiredLeases late [(submitted lib settle).source]).run s).bind
        fun x => (addBlock late settle true).run x.2).map (fun x => x.1.isOk) = some false :=
  exists_reachable_adds leaseCtx rfl _ blocks (fun _ h => h) (by decide +kernel)

end SampleArchive

open Sample SampleArchive in
/-- A live delivery so late is refused, before and after the lease is archived. -/
theorem archive_commutes_late :
    ∃ s lease, Reachable node (domain blocks) (fun _ _ => true = true) s ∧
      s.store.leases.get (submitted lib settle).source = some lease ∧
      shouldArchiveExpiredLease late lease = true ∧ ValidByAttestedTime late settle s ∧
      Commutes late settle false s := by
  obtain ⟨s, hs, hl, hlone, hok, -⟩ := accepted_reachable
  have hinv := hs.inv blocks_ideal (genesis_domain blocks)
  have hsource : (submitted lib settle).source = Sample.lease.hash := by decide +kernel
  have hkey : record.leaseHash = (submitted lib settle).source := by decide +kernel
  have hexpired : shouldArchiveExpiredLease late record = true := by decide +kernel
  have htype : SettlesLease (submitted lib settle) := .inl (by decide +kernel)
  have hvalid : ValidByAttestedTime late settle s := validByAttestedTime_of_result hlone hok
  have hnone : attestedTime late (submitted lib settle) false = none := by decide +kernel
  rw [← hsource] at hl
  refine ⟨s, record, hs, hl, hexpired, hvalid,
    (archive_commutes_iff hvalid htype hinv.quiet hinv.caches.keyed hl hkey hexpired).mpr
      ⟨rfl, fun ⟨_, t, ht, _⟩ => ?_⟩⟩
  cases hnone.symm.trans ht

open Sample SampleArchive in
/-- A settlement at the end of the lease, which reaches a node by sync more than a year later: the node
takes it, unless its archiver has run in between. -/
theorem archive_before_sync :
    ∃ s lease, Reachable node (domain blocks) (fun _ _ => true = true) s ∧
      s.store.leases.get (submitted lib settle).source = some lease ∧
      shouldArchiveExpiredLease late lease = true ∧ ValidByAttestedTime late settle s ∧
      ¬ Commutes late settle true s := by
  obtain ⟨s, hs, hl, hlone, hok, harchived⟩ := accepted_reachable
  have hsource : (submitted lib settle).source = Sample.lease.hash := by decide +kernel
  have hexpired : shouldArchiveExpiredLease late record = true := by decide +kernel
  rw [← hsource] at hl
  exact ⟨s, record, hs, hl, hexpired, validByAttestedTime_of_result hlone hok,
    not_commutes_of_results harchived hok⟩

end Xe
