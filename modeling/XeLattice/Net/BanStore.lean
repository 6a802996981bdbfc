import XeLattice.Go.Bytes
import XeLattice.Table
import Mathlib.Data.List.Induction

/-!
# The ban table

`net/banstore.go` keeps the peers that are banned, with the time at which each ban ends, and a queue
from which a full table is relieved.  A peer leaves the table without leaving the queue, and a new
peer enters the queue, which is then compacted, before it enters the table.

* **`bans_fair`**: a run whose bans find the table ready is fair throughout.
-/

set_option autoImplicit false

namespace Xe

/-! ## The operations of the source -/

/-- `maxBannedPeers`. -/
def maxBannedPeers : ℕ := 4096

/-- `inlineSweepInterval`, in nanoseconds. -/
def inlineSweepInterval : ℤ := 1000000000

/-- The zero `time.Time`, in nanoseconds from the Unix epoch. -/
def zeroTime : ℤ := -62135596800000000000

/-- `banStore`. -/
structure BanStore (Peer : Type) where
  entries : Table Peer ℤ
  order : List Peer
  max : ℕ
  lastSweep : ℤ
  evicted : UInt64
  swept : UInt64
  dirty : Bool

/-- `newBanStore`. -/
def newBanStore {Peer : Type} [DecidableEq Peer] (max : ℤ) : BanStore Peer :=
  { entries := .empty, order := [], max := if max ≤ 0 then maxBannedPeers else max.toNat
    lastSweep := zeroTime, evicted := 0, swept := 0, dirty := false }

namespace BanStore

variable {Peer : Type} [DecidableEq Peer]

/-- `compactLocked`. -/
def compactLocked (s : BanStore Peer) : BanStore Peer :=
  if s.order.length ≤ 2 * s.max then s
  else { s with order := s.order.filter fun p => (s.entries.get p).isSome }

/-- The bans that have not run out. -/
def unexpired (now : ℤ) (entries : Table Peer ℤ) : Table Peer ℤ :=
  entries.filterMap fun _ exp => if now > exp then none else some exp

/-- `sweepLocked`. -/
def sweepLocked (now : ℤ) (s : BanStore Peer) : ℕ × BanStore Peer :=
  let live := unexpired now s.entries
  let removed := s.entries.keys.card - live.keys.card
  let s := { s with entries := live }
  if removed > 0 then
    (removed, { s with swept := s.swept + UInt64.ofNat removed, dirty := true }.compactLocked)
  else (removed, s)

/-- The first peer of a queue that has an entry, and the queue behind it. -/
def popLive (entries : Table Peer ℤ) : List Peer → Option (Peer × List Peer)
  | [] => none
  | p :: rest => if (entries.get p).isSome then some (p, rest) else popLive entries rest

/-- `evictOldestLocked`, with the peer it evicts. -/
def evictOldestLocked (s : BanStore Peer) : Option Peer × BanStore Peer :=
  match popLive s.entries s.order with
  | none => (none, { s with order := [] })
  | some (p, rest) =>
    (some p, { s with
      order := rest, entries := s.entries.del p, evicted := s.evicted + 1, dirty := true })

/-- The loop of `ban` over `evictOldestLocked`, with what it evicts and from which table.  Every
round shortens the queue, whose length bounds the rounds. -/
def evictLoop : ℕ → BanStore Peer → List (Peer × BanStore Peer) × BanStore Peer
  | 0, s => ([], s)
  | rounds + 1, s =>
    if s.entries.keys.card < s.max then ([], s)
    else
      match s.evictOldestLocked with
      | (none, s') => ([], s')
      | (some p, s') => ((p, s) :: (evictLoop rounds s').1, (evictLoop rounds s').2)

/-- The inline sweep of `ban`. -/
def inlineSweep (now : ℤ) (s : BanStore Peer) : BanStore Peer :=
  if s.entries.keys.card ≥ s.max ∧ now - s.lastSweep ≥ inlineSweepInterval then
    (sweepLocked now { s with lastSweep := now }).2
  else s

/-- What `ban` does for a peer without an entry, up to the entry itself. -/
def enqueue (p : Peer) (s : BanStore Peer) : BanStore Peer :=
  { s with order := s.order ++ [p] }.compactLocked

/-- The entry that `ban` writes. -/
def putEntry (p : Peer) (expiry : ℤ) (s : BanStore Peer) : BanStore Peer :=
  { s with entries := s.entries.set p expiry, dirty := true }

/-- The table of `ban` once it has room, and what was evicted for that. -/
def makeRoom (now : ℤ) (s : BanStore Peer) : List (Peer × BanStore Peer) × BanStore Peer :=
  evictLoop ((s.inlineSweep now).order.length + 1) (s.inlineSweep now)

/-- `ban`, with what it evicts. -/
def ban (p : Peer) (expiry now : ℤ) (s : BanStore Peer) :
    List (Peer × BanStore Peer) × BanStore Peer :=
  if (s.entries.get p).isSome then ([], s.putEntry p expiry)
  else ((s.makeRoom now).1, ((s.makeRoom now).2.enqueue p).putEntry p expiry)

/-- `clear`. -/
def clear (p : Peer) (s : BanStore Peer) : BanStore Peer :=
  if (s.entries.get p).isSome then { s with entries := s.entries.del p, dirty := true } else s

/-- Whether the ban has run out. -/
def expired (p : Peer) (now : ℤ) (s : BanStore Peer) : Bool :=
  match s.entries.get p with
  | none => false
  | some exp => now > exp

/-- `banned`: the answer and the table, with the readings of the clock before and under the lock. -/
def banned (p : Peer) (now now' : ℤ) (s : BanStore Peer) : Bool × BanStore Peer :=
  if (s.entries.get p).isNone then (false, s)
  else if s.expired p now then (false, if s.expired p now' then s.clear p else s)
  else (true, s)

/-- `sweep`. -/
def sweep (now : ℤ) (s : BanStore Peer) : ℕ × BanStore Peer :=
  s.sweepLocked now

end BanStore

/-- `banSnapshotItm`. -/
structure BanItem where
  peer : Str
  expiryNs : Int64

/-- What `load` finds in its file. -/
inductive BanFile
  | missing
  | unreadable (e : Str)
  | malformed (e : Str)
  | snapshot (version : ℤ) (entries : List BanItem)

section Load

variable {Peer : Type} (decode : Str → Option Peer) (max : ℕ) (now : ℤ)

/-- The bans that the loop of `load` makes after `restored` others: the entries that have not ended
and name a peer, until the table's size is reached. -/
def loadBans (restored : ℕ) : List BanItem → List (Peer × ℤ)
  | [] => []
  | e :: rest =>
    if now > e.expiryNs.toInt then loadBans restored rest
    else
      match decode e.peer with
      | none => loadBans restored rest
      | some p =>
        (p, e.expiryNs.toInt) :: if restored + 1 ≥ max then [] else loadBans (restored + 1) rest

/-- The bans of `load`, or its error. -/
def loadFile : BanFile → Except Str (List (Peer × ℤ))
  | .missing => .ok []
  | .unreadable e => .error (str "read bans: " ++ e)
  | .malformed e => .error (str "decode bans: " ++ e)
  | .snapshot version entries =>
    if version ≠ 1 then .error (str "unsupported ban snapshot version " ++ decInt version)
    else .ok (loadBans decode max now 0 entries)

end Load

/-! ## Runs -/

/-- A peer that `ban` evicted, the peers that were banned then, and the bans started before. -/
structure Eviction (Peer : Type) where
  peer : Peer
  live : Finset Peer
  log : List Peer
  deriving DecidableEq

/-- A table, the bans that were started, the latest first, and what was evicted. -/
structure BanTrace (Peer : Type) where
  store : BanStore Peer
  log : List Peer
  evictions : List (Eviction Peer)

/-- One operation, with its readings of the clock. -/
inductive BanOp (Peer : Type)
  | ban (p : Peer) (expiry now : ℤ)
  | clear (p : Peer)
  | banned (p : Peer) (now now' : ℤ)
  | sweep (now : ℤ)
  | load (file : BanFile) (now : ℤ) (clock : ℕ → ℤ)

section Runs

variable {Peer : Type} [DecidableEq Peer]

namespace BanTrace

/-- The table changes and nothing is started. -/
def become (t : BanTrace Peer) (s : BanStore Peer) : BanTrace Peer :=
  { t with store := s }

/-- `Ban`, with its log. -/
def ban (p : Peer) (expiry now : ℤ) (t : BanTrace Peer) : BanTrace Peer :=
  { store := (t.store.ban p expiry now).2
    log := if (t.store.entries.get p).isSome then t.log else p :: t.log
    evictions := t.evictions ++
      (t.store.ban p expiry now).1.map fun e => ⟨e.1, e.2.entries.keys, t.log⟩ }

/-- The bans of `load`, the `i`-th at its own reading of the clock. -/
def banAll (clock : ℕ → ℤ) : ℕ → List (Peer × ℤ) → BanTrace Peer → BanTrace Peer
  | _, [], t => { t with store := { t.store with dirty := false } }
  | i, (p, expiry) :: rest, t => banAll clock (i + 1) rest (t.ban p expiry (clock i))

/-- One operation. -/
def step (decode : Str → Option Peer) (t : BanTrace Peer) : BanOp Peer → BanTrace Peer
  | .ban p expiry now => t.ban p expiry now
  | .clear p => t.become (t.store.clear p)
  | .banned p now now' => t.become (t.store.banned p now now').2
  | .sweep now => t.become (t.store.sweep now).2
  | .load file now clock =>
    match loadFile decode t.store.max now file with
    | .error _ => t
    | .ok bans => if file matches .missing then t else t.banAll clock 0 bans

end BanTrace

/-- The traces of the runs from an empty table whose operations meet a condition. -/
inductive BanRun (decode : Str → Option Peer) (max : ℤ) (ok : BanTrace Peer → BanOp Peer → Prop) :
    BanTrace Peer → Prop
  | new : BanRun decode max ok ⟨newBanStore max, [], []⟩
  | step {t : BanTrace Peer} (op : BanOp Peer) (h : BanRun decode max ok t) (hop : ok t op) :
      BanRun decode max ok (t.step decode op)

/-- The current ban of the evicted peer was started before those of all others. -/
def Eviction.Oldest (e : Eviction Peer) : Prop :=
  ∀ q ∈ e.live, e.log.idxOf q ≤ e.log.idxOf e.peer

/-- **The table is bounded, its peers are queued, and evictions hit the oldest ban.** -/
structure BanTrace.Fair (t : BanTrace Peer) : Prop where
  bounded : t.store.entries.keys.card ≤ t.store.max
  queued : ∀ p ∈ t.store.entries.keys, p ∈ t.store.order
  oldest : ∀ e ∈ t.evictions, e.Oldest

/-- The peer is banned already, or it has left the queue and the queue has room. A stale place in the
queue is left out even where no eviction comes to it. -/
def BanStore.Ready (s : BanStore Peer) (p : Peer) : Prop :=
  p ∈ s.entries.keys ∨ p ∉ s.order ∧ s.order.length < 2 * s.max

instance (s : BanStore Peer) (p : Peer) : Decidable (s.Ready p) :=
  inferInstanceAs (Decidable (p ∈ s.entries.keys ∨ p ∉ s.order ∧ s.order.length < 2 * s.max))

/-- Every ban of a list finds the table ready for it. -/
def BanTrace.AllReady (clock : ℕ → ℤ) : ℕ → List (Peer × ℤ) → BanTrace Peer → Prop
  | _, [], _ => True
  | i, (p, expiry) :: rest, t =>
    t.store.Ready p ∧ AllReady clock (i + 1) rest (t.ban p expiry (clock i))

/-- **The bans of an operation find the table ready.** -/
def BanOp.Orderly (decode : Str → Option Peer) (t : BanTrace Peer) : BanOp Peer → Prop
  | .ban p _ _ => t.store.Ready p
  | .load file now clock =>
    ∀ bans, loadFile decode t.store.max now file = .ok bans → t.AllReady clock 0 bans
  | _ => True

end Runs

/-! ## What leaves the table and the queue -/

section Proofs

variable {Peer : Type} {s s' s'' : BanStore Peer} {p : Peer}

/-- **All that an operation can do short of starting a ban**: peers leave the table, and the queue
loses only peers that have left the table. -/
structure Shrinks (s s' : BanStore Peer) : Prop where
  max_eq : s'.max = s.max
  order : s'.order.Sublist s.order
  keys : s'.entries.keys ⊆ s.entries.keys
  queued : ∀ p ∈ s'.entries.keys, p ∈ s.order → p ∈ s'.order

theorem Shrinks.trans (h : Shrinks s s') (h' : Shrinks s' s'') : Shrinks s s'' where
  max_eq := h'.max_eq.trans h.max_eq
  order := h'.order.trans h.order
  keys := h'.keys.trans h.keys
  queued := fun p hp hs => h'.queued p hp (h.queued p (h'.keys hp) hs)

theorem shrinks_of_keys (hmax : s'.max = s.max) (horder : s'.order = s.order)
    (hkeys : s'.entries.keys ⊆ s.entries.keys) : Shrinks s s' where
  max_eq := hmax
  order := by rw [horder]
  keys := hkeys
  queued := fun p _ hp => by rwa [horder]

variable [DecidableEq Peer]

theorem isSome_get_iff {t : Table Peer ℤ} : (t.get p).isSome ↔ p ∈ t.keys := by
  rw [Table.mem_keys, Option.isSome_iff_exists]

theorem shrinks_compactLocked (s : BanStore Peer) : Shrinks s s.compactLocked := by
  unfold BanStore.compactLocked
  split_ifs
  · exact shrinks_of_keys rfl rfl (Finset.Subset.refl _)
  · exact {
      max_eq := rfl
      order := List.filter_sublist
      keys := Finset.Subset.refl _
      queued := fun p hp hs => List.mem_filter.mpr ⟨hs, isSome_get_iff.mpr hp⟩ }

theorem keys_unexpired_subset (now : ℤ) (t : Table Peer ℤ) :
    (BanStore.unexpired now t).keys ⊆ t.keys := by
  intro p hp
  obtain ⟨v, hv⟩ := Table.mem_keys.mp hp
  rw [BanStore.unexpired, Table.get_filterMap, Option.bind_eq_some_iff] at hv
  obtain ⟨exp, hexp, -⟩ := hv
  exact Table.mem_keys.mpr ⟨exp, hexp⟩

theorem shrinks_sweepLocked (now : ℤ) (s : BanStore Peer) : Shrinks s (s.sweepLocked now).2 := by
  have hlive : ∀ swept dirty, Shrinks s
      { s with entries := BanStore.unexpired now s.entries, swept := swept, dirty := dirty } :=
    fun _ _ => shrinks_of_keys rfl rfl (keys_unexpired_subset now s.entries)
  unfold BanStore.sweepLocked
  dsimp only
  split_ifs
  · exact (hlive _ _).trans (shrinks_compactLocked _)
  · exact hlive _ _

theorem shrinks_inlineSweep (now : ℤ) (s : BanStore Peer) : Shrinks s (s.inlineSweep now) := by
  unfold BanStore.inlineSweep
  split_ifs
  · have hstamp : Shrinks s { s with lastSweep := now } :=
      shrinks_of_keys rfl rfl (Finset.Subset.refl _)
    exact hstamp.trans (shrinks_sweepLocked now _)
  · exact shrinks_of_keys rfl rfl (Finset.Subset.refl _)

theorem shrinks_clear (p : Peer) (s : BanStore Peer) : Shrinks s (s.clear p) := by
  unfold BanStore.clear
  split_ifs
  · exact shrinks_of_keys rfl rfl (by rw [Table.keys_del]; exact Finset.erase_subset _ _)
  · exact shrinks_of_keys rfl rfl (Finset.Subset.refl _)

theorem shrinks_banned (p : Peer) (now now' : ℤ) (s : BanStore Peer) :
    Shrinks s (s.banned p now now').2 := by
  unfold BanStore.banned
  split_ifs
  · exact shrinks_of_keys rfl rfl (Finset.Subset.refl _)
  · exact shrinks_clear p s
  · exact shrinks_of_keys rfl rfl (Finset.Subset.refl _)
  · exact shrinks_of_keys rfl rfl (Finset.Subset.refl _)

/-! ## Evictions -/

theorem popLive_eq_some {entries : Table Peer ℤ} {order rest : List Peer}
    (h : BanStore.popLive entries order = some (p, rest)) :
    p ∈ entries.keys ∧
      ∃ stale, order = stale ++ p :: rest ∧ ∀ q ∈ stale, q ∉ entries.keys := by
  induction order with
  | nil => cases h
  | cons q order ih =>
    unfold BanStore.popLive at h
    split_ifs at h with hq
    · cases h
      exact ⟨isSome_get_iff.mp hq, [], rfl, by simp⟩
    · obtain ⟨hp, stale, rfl, hstale⟩ := ih h
      refine ⟨hp, q :: stale, rfl, fun r hr => ?_⟩
      rcases List.mem_cons.mp hr with rfl | hr
      · exact fun hmem => hq (isSome_get_iff.mpr hmem)
      · exact hstale r hr

theorem popLive_eq_none {entries : Table Peer ℤ} {order : List Peer}
    (h : BanStore.popLive entries order = none) : ∀ q ∈ order, q ∉ entries.keys := by
  induction order with
  | nil => simp
  | cons q order ih =>
    unfold BanStore.popLive at h
    split_ifs at h with hq
    intro r hr
    rcases List.mem_cons.mp hr with rfl | hr
    · exact fun hmem => hq (isSome_get_iff.mpr hmem)
    · exact ih h r hr

theorem evictOldestLocked_cases (s : BanStore Peer) :
    (s.evictOldestLocked.1 = none ∧ Shrinks s s.evictOldestLocked.2 ∧
        ∀ q ∈ s.order, q ∉ s.entries.keys) ∨
      ∃ p stale, s.evictOldestLocked.1 = some p ∧ Shrinks s s.evictOldestLocked.2 ∧
        s.order = stale ++ p :: s.evictOldestLocked.2.order ∧ ∀ q ∈ stale, q ∉ s.entries.keys := by
  unfold BanStore.evictOldestLocked
  cases hpop : BanStore.popLive s.entries s.order with
  | none =>
    have hnone := popLive_eq_none hpop
    refine .inl ⟨rfl, ⟨rfl, List.nil_sublist _, Finset.Subset.refl _, fun p hp hs => ?_⟩, hnone⟩
    exact absurd hp (hnone p hs)
  | some r =>
    obtain ⟨p, rest⟩ := r
    obtain ⟨hp, stale, horder, hstale⟩ := popLive_eq_some hpop
    refine .inr ⟨p, stale, rfl, ⟨rfl, ?_, ?_, fun q hq hs => ?_⟩, horder, hstale⟩
    · rw [horder]
      exact ((List.sublist_cons_self p rest).trans (List.sublist_append_right stale _))
    · exact (Table.keys_del s.entries p).symm ▸ Finset.erase_subset p _
    · rw [Table.keys_del, Finset.mem_erase] at hq
      rw [horder, List.mem_append, List.mem_cons] at hs
      rcases hs with hs | rfl | hs
      · exact absurd hq.2 (hstale q hs)
      · exact absurd rfl hq.1
      · exact hs

/-- The queue has the oldest ban in front. -/
def Aged (log order : List Peer) : Prop :=
  order.Pairwise fun a b => log.idxOf b < log.idxOf a

/-- What every table of an orderly run is like. -/
structure Queued (log : List Peer) (s : BanStore Peer) : Prop where
  pos : 1 ≤ s.max
  queued : ∀ p ∈ s.entries.keys, p ∈ s.order
  aged : Aged log s.order

theorem Queued.shrink {log : List Peer} (h : Queued log s) (hs : Shrinks s s') :
    Queued log s' where
  pos := by rw [hs.max_eq]; exact h.pos
  queued := fun p hp => hs.queued p hp (h.queued p (hs.keys hp))
  aged := h.aged.sublist hs.order

theorem Queued.oldest {log stale rest : List Peer} (h : Queued log s)
    (horder : s.order = stale ++ p :: rest) (hstale : ∀ q ∈ stale, q ∉ s.entries.keys) :
    ∀ q ∈ s.entries.keys, log.idxOf q ≤ log.idxOf p := by
  intro q hq
  have hmem := h.queued q hq
  have haged := h.aged
  rw [horder, List.mem_append, List.mem_cons] at hmem
  rw [horder, Aged, List.pairwise_append, List.pairwise_cons] at haged
  rcases hmem with hmem | rfl | hmem
  · exact absurd hq (hstale q hmem)
  · exact Nat.le_refl _
  · exact (haged.2.1.1 q hmem).le

/-- **The loop makes room, and evicts the oldest bans.** -/
theorem evictLoop_spec {log : List Peer} (rounds : ℕ) (h : Queued log s)
    (hrounds : s.order.length < rounds) :
    Shrinks s (BanStore.evictLoop rounds s).2 ∧
      (BanStore.evictLoop rounds s).2.entries.keys.card < s.max ∧
      ∀ e ∈ (BanStore.evictLoop rounds s).1,
        ∀ q ∈ e.2.entries.keys, log.idxOf q ≤ log.idxOf e.1 := by
  induction rounds generalizing s with
  | zero => omega
  | succ rounds ih =>
    unfold BanStore.evictLoop
    split_ifs with hroom
    · exact ⟨shrinks_of_keys rfl rfl (Finset.Subset.refl _), hroom, by simp⟩
    · rcases evictOldestLocked_cases s with ⟨hnone, hshrink, hstale⟩ | ⟨p, stale, hsome, hshrink,
        horder, hstale⟩
      · -- An exhausted queue means an empty table, which has room.
        have hempty : s.entries.keys = ∅ := Finset.eq_empty_of_forall_notMem fun p hp =>
          hstale p (h.queued p hp) hp
        rw [hempty, Finset.card_empty] at hroom
        exact absurd h.pos (by omega)
      · rcases hev : s.evictOldestLocked with ⟨o, s'⟩
        rw [hev] at hsome hshrink horder
        obtain rfl : o = some p := hsome
        have hlen := congrArg List.length horder
        rw [List.length_append, List.length_cons] at hlen
        obtain ⟨hrest, hcard, hevents⟩ := ih (h.shrink hshrink) (by dsimp only at hlen ⊢; omega)
        refine ⟨hshrink.trans hrest, by rw [← hshrink.max_eq]; exact hcard, fun e he => ?_⟩
        rcases List.mem_cons.mp he with rfl | he
        · exact h.oldest horder hstale
        · exact hevents e he

/-! ## Whole runs -/

/-- What holds of every trace of an orderly run. -/
structure BanTrace.Inv (t : BanTrace Peer) : Prop where
  queued : Queued t.log t.store
  bounded : t.store.entries.keys.card ≤ t.store.max
  oldest : ∀ e ∈ t.evictions, e.Oldest

theorem BanTrace.Inv.fair {t : BanTrace Peer} (h : t.Inv) : t.Fair :=
  ⟨h.bounded, h.queued.queued, h.oldest⟩

theorem BanTrace.Inv.become {t : BanTrace Peer} (h : t.Inv) (hs : Shrinks t.store s) :
    (t.become s).Inv where
  queued := h.queued.shrink hs
  bounded := (Finset.card_le_card hs.keys).trans (hs.max_eq ▸ h.bounded)
  oldest := h.oldest

/-- A peer that is not in the queue joins it as the one whose ban is the latest. -/
theorem Aged.concat {log order : List Peer} (h : Aged log order) (hp : p ∉ order) :
    Aged (p :: log) (order ++ [p]) := by
  have hidx : ∀ q ∈ order, (p :: log).idxOf q = log.idxOf q + 1 := fun q hq =>
    List.idxOf_cons_ne log (fun heq => hp (heq ▸ hq))
  refine List.pairwise_append.mpr ⟨?_, List.pairwise_singleton _ _, fun q hq r hr => ?_⟩
  · exact h.imp_of_mem fun ha hb hab => by rw [hidx _ ha, hidx _ hb]; omega
  · rw [List.mem_singleton.mp hr, List.idxOf_cons_self, hidx q hq]
    omega

theorem BanTrace.Inv.ban {t : BanTrace Peer} (h : t.Inv) (hp : t.store.Ready p)
    (expiry now : ℤ) : (t.ban p expiry now).Inv := by
  unfold BanTrace.ban BanStore.ban
  by_cases hin : (t.store.entries.get p).isSome
  · -- The ban goes on, and keeps its place.
    have hkeys : (t.store.putEntry p expiry).entries.keys = t.store.entries.keys := by
      show (t.store.entries.set p expiry).keys = _
      rw [Table.keys_set, Finset.insert_eq_of_mem (isSome_get_iff.mp hin)]
    simp only [hin, if_true, List.map_nil, List.append_nil]
    refine ⟨⟨h.queued.pos, ?_, h.queued.aged⟩, ?_, h.oldest⟩
    · rw [hkeys]
      exact h.queued.queued
    · rw [hkeys]
      exact h.bounded
  · have hfresh : p ∉ t.store.order ∧ t.store.order.length < 2 * t.store.max :=
      hp.resolve_left fun hmem => hin (isSome_get_iff.mpr hmem)
    have hsweep := shrinks_inlineSweep now t.store
    obtain ⟨hloop, hcard, hevents⟩ := evictLoop_spec _ (h.queued.shrink hsweep) (Nat.lt_succ_self _)
    have hshrink : Shrinks t.store (t.store.makeRoom now).2 := hsweep.trans hloop
    rw [hsweep.max_eq] at hcard
    have hroom := h.queued.shrink hshrink
    -- The queue is not compacted, for it has room.
    have henqueue : ((t.store.makeRoom now).2.enqueue p).order =
        (t.store.makeRoom now).2.order ++ [p] := by
      have hlen := hshrink.order.length_le
      rw [BanStore.enqueue, BanStore.compactLocked, if_pos]
      dsimp only
      rw [List.length_append, List.length_singleton, hshrink.max_eq]
      omega
    have hsame : ((t.store.makeRoom now).2.enqueue p).entries = (t.store.makeRoom now).2.entries ∧
        ((t.store.makeRoom now).2.enqueue p).max = (t.store.makeRoom now).2.max := by
      unfold BanStore.enqueue BanStore.compactLocked
      split_ifs <;> exact ⟨rfl, rfl⟩
    simp only [hin, if_false, Bool.false_eq_true]
    refine ⟨⟨?_, fun q hq => ?_, ?_⟩, ?_, fun e he => ?_⟩
    · show 1 ≤ ((t.store.makeRoom now).2.enqueue p).max
      rw [hsame.2]
      exact hroom.pos
    · show q ∈ ((t.store.makeRoom now).2.enqueue p).order
      have hq' : q ∈ (((t.store.makeRoom now).2.enqueue p).entries.set p expiry).keys := hq
      rw [hsame.1, Table.keys_set, Finset.mem_insert] at hq'
      rw [henqueue, List.mem_append, List.mem_singleton]
      exact hq'.symm.imp (hroom.queued q) id
    · show Aged (p :: t.log) ((t.store.makeRoom now).2.enqueue p).order
      rw [henqueue]
      exact hroom.aged.concat fun hmem => hfresh.1 (hshrink.order.subset hmem)
    · show (((t.store.makeRoom now).2.enqueue p).entries.set p expiry).keys.card ≤
        ((t.store.makeRoom now).2.enqueue p).max
      rw [hsame.1, hsame.2, hshrink.max_eq, Table.keys_set]
      exact (Finset.card_insert_le _ _).trans hcard
    · rcases List.mem_append.mp he with he | he
      · exact h.oldest e he
      · obtain ⟨ev, hev, rfl⟩ := List.mem_map.mp he
        exact hevents ev hev

theorem BanTrace.Inv.banAll {t : BanTrace Peer} (clock : ℕ → ℤ) (bans : List (Peer × ℤ)) (i : ℕ)
    (h : t.Inv) (hb : t.AllReady clock i bans) : (t.banAll clock i bans).Inv := by
  induction bans generalizing i t with
  | nil => exact h.become (shrinks_of_keys rfl rfl (Finset.Subset.refl _))
  | cons b bans ih => exact ih (i + 1) (h.ban hb.1 b.2 (clock i)) hb.2

theorem BanTrace.Inv.step {decode : Str → Option Peer} {t : BanTrace Peer} {op : BanOp Peer}
    (h : t.Inv) (hop : op.Orderly decode t) : (t.step decode op).Inv := by
  cases op with
  | ban p expiry now => exact h.ban hop expiry now
  | clear p => exact h.become (shrinks_clear p t.store)
  | banned p now now' => exact h.become (shrinks_banned p now now' t.store)
  | sweep now => exact h.become (shrinks_sweepLocked now t.store)
  | load file now clock =>
    unfold BanTrace.step
    dsimp only
    cases hload : loadFile decode t.store.max now file with
    | error e => exact h
    | ok bans =>
      dsimp only
      split_ifs
      · exact h
      · exact h.banAll clock bans 0 (hop bans hload)

theorem inv_newBanStore {max : ℤ} (hmax : 1 ≤ max) :
    (⟨newBanStore max, [], []⟩ : BanTrace Peer).Inv where
  queued := {
    pos := by
      show 1 ≤ if max ≤ 0 then maxBannedPeers else max.toNat
      rw [if_neg (by omega)]
      omega
    queued := fun p hp => by
      obtain ⟨v, hv⟩ := Table.mem_keys.mp hp
      cases hv.symm.trans (Table.get_empty p)
    aged := List.Pairwise.nil }
  bounded := Nat.zero_le _
  oldest := by simp

/-- **A run whose bans find the table ready is fair throughout.** -/
theorem bans_fair (decode : Str → Option Peer) (max : ℤ) (hmax : 1 ≤ max) (t : BanTrace Peer)
    (h : BanRun decode max (BanOp.Orderly decode) t) : t.Fair := by
  have hinv : t.Inv := by
    induction h with
    | new => exact inv_newBanStore hmax
    | step _ _ hop ih => exact ih.step hop
  exact hinv.fair

end Proofs

/-! ## Three runs -/

namespace SampleBans

/-- No text names a peer. -/
def decode (_ : Str) : Option ℕ := none

/-- What some operations leave. -/
def trace (max : ℤ) (ops : List (BanOp ℕ)) : BanTrace ℕ :=
  ops.foldl (BanTrace.step decode) ⟨newBanStore max, [], []⟩

/-- A ban of an hour. -/
def ban (p : ℕ) : BanOp ℕ :=
  .ban p 3600000000000 0

theorem banRun_trace (max : ℤ) (ops : List (BanOp ℕ)) :
    BanRun decode max (fun _ _ => True) (trace max ops) := by
  induction ops using List.reverseRecOn with
  | nil => exact .new
  | append_singleton ops op ih =>
    have hstep := BanRun.step op ih trivial
    rwa [trace, List.foldl_append, List.foldl_cons, List.foldl_nil]

end SampleBans

open SampleBans in
/-- A table for one peer ends up with two of them, and the queue lacks one; and a table for two
evicts the peer that was banned last, since the queue still has the ban that was lifted. -/
theorem bans_unfair :
    (∃ t, BanRun decode 1 (fun _ _ => True) t ∧ t.store.max = 1 ∧ t.store.entries.keys.card = 2 ∧
        3 ∈ t.store.entries.keys ∧ 3 ∉ t.store.order) ∧
      ∃ t, BanRun decode 2 (fun _ _ => True) t ∧ ∃ e ∈ t.evictions, ¬e.Oldest := by
  refine ⟨⟨_, banRun_trace 1 [ban 1, .clear 1, ban 2, .clear 2, ban 3, ban 4], ?_⟩,
    ⟨_, banRun_trace 2 [ban 1, ban 2, .clear 1, ban 1, ban 3], ⟨1, {1, 2}, [1, 2, 1]⟩, ?_, ?_⟩⟩
  · decide +kernel
  · decide +kernel
  · exact fun h => absurd (h 2 (by decide)) (by decide)

open SampleBans in
/-- A table for one peer, and a second ban that evicts the first. -/
theorem bans_fair_evicting :
    ∃ t, BanRun decode 1 (BanOp.Orderly decode) t ∧ t.evictions ≠ [] ∧ t.Fair := by
  have hfirst : (newBanStore 1 : BanStore ℕ).Ready 1 := by decide +kernel
  have hsecond : (trace 1 [ban 1]).store.Ready 2 := by decide +kernel
  have hone : BanRun decode 1 (BanOp.Orderly decode) (trace 1 [ban 1]) :=
    BanRun.step (ban 1) .new hfirst
  have hrun : BanRun decode 1 (BanOp.Orderly decode) (trace 1 [ban 1, ban 2]) :=
    BanRun.step (ban 2) hone hsecond
  exact ⟨_, hrun, by decide +kernel, bans_fair decode 1 (by decide) _ hrun⟩

end Xe
