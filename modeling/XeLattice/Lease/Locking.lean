import XeLattice.StateChain.Epochs
import XeLattice.Sample

/-!
# Locking the emission of a lease

The node that builds a `lease_accept` or a `lease_renew` locks the parameters of an epoch into it,
and the ledger compares them with the newest epochs that have begun at the attested time.  The
builder of an acceptance takes the first of these; the builder of a renewal takes the newest epoch
of all, whether it has begun or not, in three lookups of their own, and puts a default in the place
of a rate of zero.

* **`locked_emission_iff`**: when every block that a node builds is accepted.
-/

set_option autoImplicit false
set_option maxRecDepth 100000

namespace Xe

open StateChain Ranking Prog

/-! ## The builders -/

/-- `RFallback`. -/
def rFallback : UInt64 := 2000

section Builders

variable (sort : Sorter EpochValue.number) (json : Json) (kv : KVStore)

/-- A field of the latest epoch, zero without one: `epochRFn`, `epochPayoutCapFn` and
`epochTWAPFn`. -/
def ofLatest (field : EpochValue → UInt64) (order : List Str) : UInt64 :=
  match latestEpoch json kv order with
  | none => 0
  | some ev => field ev

/-- `CurrentR`. -/
def currentR (order : List Str) : UInt64 :=
  let r := ofLatest json kv EpochValue.rEffective order
  if r > 0 then r else rFallback

/-- `CurrentPayoutCap`. -/
def currentPayoutCap (order : List Str) : UInt64 :=
  ofLatest json kv EpochValue.payoutCap order

/-- `CurrentTWAP`. -/
def currentTWAP (order : List Str) : UInt64 :=
  ofLatest json kv EpochValue.twapMilliUSD order

/-- `EpochParamsAt`. -/
def epochParamsAt (order : List Str) (ns : Int64) : Option EpochParams :=
  (epochAtFn sort json kv order ns).head?

/-- The parameters that `RenewLease` locks; each lookup walks through the map in an order of its
own. -/
def renewLockedEmission (o₁ o₂ o₃ : List Str) : EpochParams :=
  ⟨currentR json kv o₁, currentPayoutCap json kv o₂, currentTWAP json kv o₃⟩

/-- `acceptLockedEmission`. -/
def acceptLockedEmission (o o₁ o₂ o₃ : List Str) (startTime : Int64) : EpochParams :=
  match epochParamsAt sort json kv o startTime with
  | some ep => ep
  | none => renewLockedEmission json kv o₁ o₂ o₃

end Builders

/-! ## What the ledger accepts -/

/-- The parameters that a block locks. -/
def Block.locked (b : Block) : EpochParams :=
  ⟨b.lockedR, b.lockedPayoutCap, b.lockedTWAP⟩

theorem validateLockedEmissionAt_run_iff (c : Ctx) (epochAt : Int64 → List EpochParams) (ns : Int64)
    (b : Block) (skipSkew : Bool) (op : String) (s : State) :
    (validateLockedEmissionAt { c with epochAt := some epochAt } ns b skipSkew op).run s =
        some (.ok (), s) ↔ b.locked ∈ epochAt ns := by
  unfold validateLockedEmissionAt
  dsimp only
  cases hcand : epochAt ns with
  | nil =>
    refine iff_of_false (fun h => ?_) List.not_mem_nil
    cases h
  | cons cur rest =>
    dsimp only
    rw [run_failIf_ok, not_not, and_iff_left rfl]
    constructor
    · rintro ⟨e, he, hr, hcap, htwap⟩
      rwa [Block.locked, hr, hcap, htwap]
    · intro h
      exact ⟨_, h, rfl, rfl, rfl⟩

section Valid

variable (c : Ctx) (sort : Sorter EpochValue.number) (json : Json) (kv : KVStore) (ns : Int64)

/-- A block with these parameters is accepted: the rate is set, and the check of the parameters
succeeds in whatever order it meets the epochs. -/
def LockAccepted (ep : EpochParams) : Prop :=
  ∀ b : Block, b.locked = ep → b.lockedR ≠ 0 ∧
    ∀ o, IsOrder kv o → ∀ (skipSkew : Bool) (op : String) (s : State),
      (validateLockedEmissionAt { c with epochAt := some (epochAtFn sort json kv o) } ns b skipSkew
        op).run s = some (.ok (), s)

/-- **Node-built parameters are valid**, in whatever order the builders meet the epochs. -/
structure EmissionValid : Prop where
  accept : ∀ o o₁ o₂ o₃, IsOrder kv o → IsOrder kv o₁ → IsOrder kv o₂ → IsOrder kv o₃ →
    LockAccepted c sort json kv ns (acceptLockedEmission sort json kv o o₁ o₂ o₃ ns)
  renew : ∀ o₁ o₂ o₃, IsOrder kv o₁ → IsOrder kv o₂ → IsOrder kv o₃ →
    LockAccepted c sort json kv ns (renewLockedEmission json kv o₁ o₂ o₃)

/-- An epoch that can be read under a key of the epochs. -/
def Published (ev : EpochValue) : Prop :=
  ∃ k, startsWith k epochPrefix = true ∧ epochUnder json kv k = some ev

/-- An epoch that has begun. -/
def Started (ev : EpochValue) : Prop :=
  ∃ k, startsWith k epochPrefix = true ∧ activeUnder json kv ns k = some ev

/-- The keys of the epochs with other parameters that have begun and may stand in front of one with
the number `n`. -/
def rivalKeys (ep : EpochParams) (n : ℕ) : Finset Str :=
  kv.keys.filter fun k => startsWith k epochPrefix = true ∧
    (activeUnder json kv ns k).any (fun ev => decide (ev.params ≠ ep ∧ n ≤ ev.number)) = true

/-- An epoch that has begun has the parameters, and at most three others that differ can stand in
front of it. -/
def Offered (ep : EpochParams) : Prop :=
  ∃ ev, Started json kv ns ev ∧ ev.params = ep ∧
    (rivalKeys json kv ns ep ev.number).card ≤ epochLockTolerance

/-- When the builders lock what the ledger accepts: the newest epochs that have begun have a rate
and are offered, and so is whatever three lookups of the newest epoch of all can bring together. -/
structure Lockable : Prop where
  accept : ∀ ev, Started json kv ns ev → (∀ ev', Started json kv ns ev' → ev'.epoch ≤ ev.epoch) →
    ev.rEffective ≠ 0 ∧ Offered json kv ns ev.params
  renew : ∀ e₁ e₂ e₃, Published json kv e₁ → Published json kv e₂ → Published json kv e₃ →
    (∀ ev, Published json kv ev → ev.epoch ≤ e₁.epoch ∧ ev.epoch ≤ e₂.epoch ∧
      ev.epoch ≤ e₃.epoch) →
    Offered json kv ns
      ⟨if e₁.rEffective > 0 then e₁.rEffective else rFallback, e₂.payoutCap, e₃.twapMilliUSD⟩

end Valid

/-! ## Orders -/

section Orders

variable {sort : Sorter EpochValue.number} {json : Json} {kv : KVStore} {ns : Int64}
  {o : List Str} {ep : EpochParams}

/-- What holds of the entries in every order of the keys holds in every order of the entries. -/
theorem forall_isOrder_iff (h : IsOrder kv o) (f : Str → Option EpochValue)
    (P : List EpochValue → Prop) :
    (∀ o', IsOrder kv o' → P (o'.filterMap f)) ↔ ∀ l, l.Perm (o.filterMap f) → P l := by
  constructor
  · intro hall l hl
    obtain ⟨o', hp, rfl⟩ := exists_perm_filterMap f hl
    exact hall o' (h.of_perm hp)
  · intro hall o' ho'
    exact hall _ ((h.perm ho').filterMap f)

theorem exists_isOrder_iff (h : IsOrder kv o) (f : Str → Option EpochValue)
    (P : List EpochValue → Prop) :
    (∃ o', IsOrder kv o' ∧ P (o'.filterMap f)) ↔ ∃ l, l.Perm (o.filterMap f) ∧ P l := by
  have hiff := not_congr (forall_isOrder_iff h f fun l => ¬ P l)
  simpa only [not_forall, not_not, exists_prop] using hiff

theorem mem_started (h : IsOrder kv o) (ev : EpochValue) :
    ev ∈ o.filterMap (activeUnder json kv ns) ↔ Started json kv ns ev :=
  h.mem_filterMap fun _ _ => epochUnder_of_activeUnder

theorem mem_published (h : IsOrder kv o) (ev : EpochValue) :
    ev ∈ o.filterMap (epochUnder json kv) ↔ Published json kv ev :=
  h.mem_filterMap fun _ _ he => he

theorem rivals_eq_card (h : IsOrder kv o) (ev : EpochValue) :
    rivals EpochValue.number EpochValue.params (o.filterMap (activeUnder json kv ns)) ev =
      (rivalKeys json kv ns ev.params ev.number).card := by
  have hset : (o.filter fun k => (activeUnder json kv ns k).any
      (fun x => decide (x.params ≠ ev.params ∧ ev.number ≤ x.number))).toFinset =
        rivalKeys json kv ns ev.params ev.number := by
    ext k
    rw [List.mem_toFinset, List.mem_filter, h.2, rivalKeys, Finset.mem_filter, and_assoc]
  rw [← hset, List.toFinset_card_of_nodup (h.1.filter _), ← List.countP_eq_length_filter, rivals,
    List.countP_filterMap]
  congr 1
  funext k
  cases activeUnder json kv ns k <;> rfl

/-- **What every candidate list has** is what is offered. -/
theorem forall_mem_epochAtFn_iff (sort : Sorter EpochValue.number) (ep : EpochParams) :
    (∀ o, IsOrder kv o → ep ∈ epochAtFn sort json kv o ns) ↔ Offered json kv ns ep := by
  obtain ⟨o, ho⟩ := exists_isOrder kv
  refine (forall_isOrder_iff ho (activeUnder json kv ns)
    fun l => ep ∈ top sort (epochLockTolerance + 1) EpochValue.params l).trans
    ((mem_top_iff sort _ _ ep).trans (exists_congr fun ev => ?_))
  rw [mem_started ho, rivals_eq_card ho]
  refine and_congr_right fun _ => and_congr_right fun hep => ?_
  rw [hep, Nat.lt_succ_iff]

theorem exists_head_epochAtFn_iff (sort : Sorter EpochValue.number) (ep : EpochParams) :
    (∃ o, IsOrder kv o ∧ epochParamsAt sort json kv o ns = some ep) ↔
      ∃ ev, Started json kv ns ev ∧ (∀ ev', Started json kv ns ev' → ev'.epoch ≤ ev.epoch) ∧
        ev.params = ep := by
  obtain ⟨o, ho⟩ := exists_isOrder kv
  refine (exists_isOrder_iff ho (activeUnder json kv ns)
    fun l => (top sort (epochLockTolerance + 1) EpochValue.params l).head? = some ep).trans
    ((exists_head_top_iff sort _ _ ep).trans (exists_congr fun ev => ?_))
  rw [mem_started ho]
  refine and_congr_right fun _ => and_congr_left fun _ => ?_
  rw [above, List.countP_eq_zero]
  refine forall_congr' fun ev' => ?_
  rw [mem_started ho, decide_eq_true_eq, not_lt]
  exact imp_congr_right fun _ => UInt64.le_iff_toNat_le.symm

theorem exists_latestEpoch_iff (ev : EpochValue) :
    (∃ o, IsOrder kv o ∧ latestEpoch json kv o = some ev) ↔
      Published json kv ev ∧ ∀ ev', Published json kv ev' → ev'.epoch ≤ ev.epoch := by
  obtain ⟨o, ho⟩ := exists_isOrder kv
  refine (exists_isOrder_iff ho (epochUnder json kv)
    fun l => firstMax EpochValue.number l = some ev).trans (exists_firstMax_iff.trans ?_)
  rw [mem_published ho]
  refine and_congr_right fun _ => ?_
  rw [above, List.countP_eq_zero]
  refine forall_congr' fun ev' => ?_
  rw [mem_published ho, decide_eq_true_eq, not_lt]
  exact imp_congr_right fun _ => UInt64.le_iff_toNat_le.symm

theorem lockAccepted_iff (c : Ctx) (sort : Sorter EpochValue.number) (ep : EpochParams) :
    LockAccepted c sort json kv ns ep ↔ ep.r ≠ 0 ∧ Offered json kv ns ep := by
  rw [← forall_mem_epochAtFn_iff sort ep]
  constructor
  · intro h
    let b : Block :=
      { type := .leaseAccept
        account := []
        previous := []
        balance := 0
        asset := []
        lockedR := ep.r
        lockedPayoutCap := ep.payoutCap
        lockedTWAP := ep.twap }
    obtain ⟨hr, hvalid⟩ := h b rfl
    exact ⟨hr, fun o ho => (validateLockedEmissionAt_run_iff c _ ns b false "" (.empty .mem)).mp
      (hvalid o ho false "" _)⟩
  · rintro ⟨hr, hmem⟩ b rfl
    exact ⟨hr, fun o ho skipSkew op s =>
      (validateLockedEmissionAt_run_iff c _ ns b skipSkew op s).mpr (hmem o ho)⟩

end Orders

/-! ## Node-built blocks -/

section Built

variable {json : Json} {kv : KVStore} {ns : Int64}

theorem acceptLockedEmission_eq (sort : Sorter EpochValue.number) {o : List Str}
    (o₁ o₂ o₃ : List Str) (h : IsOrder kv o) (hstarted : ∃ ev, Started json kv ns ev) :
    epochParamsAt sort json kv o ns = some (acceptLockedEmission sort json kv o o₁ o₂ o₃ ns) := by
  obtain ⟨ev, hev⟩ := hstarted
  have hne : epochAtFn sort json kv o ns ≠ [] := by
    intro hnil
    rw [epochAtFn, top, List.map_eq_nil_iff, List.take_eq_nil_iff] at hnil
    have hmem := (sort.perm _).mem_iff.mpr ((mem_started h ev).mpr hev)
    rw [hnil.resolve_left (Nat.succ_ne_zero _)] at hmem
    exact List.not_mem_nil hmem
  obtain ⟨ep, rest, hcons⟩ := List.exists_cons_of_ne_nil hne
  have hhead : epochParamsAt sort json kv o ns = some ep := by
    rw [epochParamsAt, hcons, List.head?_cons]
  rw [acceptLockedEmission, hhead]

theorem exists_ofLatest_iff (hpub : ∃ ev, Published json kv ev) (field : EpochValue → UInt64)
    (x : UInt64) :
    (∃ o, IsOrder kv o ∧ ofLatest json kv field o = x) ↔
      ∃ ev, (Published json kv ev ∧ ∀ ev', Published json kv ev' → ev'.epoch ≤ ev.epoch) ∧
        field ev = x := by
  have hlatest : ∀ o, IsOrder kv o → ∃ ev, latestEpoch json kv o = some ev := by
    intro o ho
    obtain ⟨ev, hev⟩ := hpub
    have hmem := (mem_published ho ev).mpr hev
    unfold latestEpoch
    cases hl : o.filterMap (epochUnder json kv) with
    | nil =>
      rw [hl] at hmem
      cases hmem
    | cons e l => exact ⟨_, firstMax_cons e l⟩
  constructor
  · rintro ⟨o, ho, rfl⟩
    obtain ⟨ev, hev⟩ := hlatest o ho
    exact ⟨ev, (exists_latestEpoch_iff ev).mp ⟨o, ho, hev⟩, by rw [ofLatest, hev]⟩
  · rintro ⟨ev, hnewest, rfl⟩
    obtain ⟨o, ho, hev⟩ := (exists_latestEpoch_iff ev).mpr hnewest
    exact ⟨o, ho, by rw [ofLatest, hev]⟩

/-- **Node-built emission parameters are valid** exactly when the newest epochs that have begun
have a rate and are offered, and so is what a renewal can lock. -/
theorem locked_emission_iff (c : Ctx) (sort : Sorter EpochValue.number)
    (hstarted : ∃ ev, Started json kv ns ev) :
    EmissionValid c sort json kv ns ↔ Lockable json kv ns := by
  have hpub : ∃ ev, Published json kv ev := by
    obtain ⟨ev, k, hk, hev⟩ := hstarted
    exact ⟨ev, k, hk, epochUnder_of_activeUnder hev⟩
  have hrate : ∀ r : UInt64, (if r > 0 then r else rFallback) ≠ 0 := by
    intro r
    split_ifs with hr
    · exact (UInt64.pos_iff_ne_zero).mp hr
    · decide
  constructor
  · intro h
    refine ⟨fun ev hev hmax => ?_, fun e₁ e₂ e₃ h₁ h₂ h₃ hmax => ?_⟩
    · obtain ⟨o, ho, hparams⟩ := (exists_head_epochAtFn_iff sort ev.params).mpr ⟨ev, hev, hmax, rfl⟩
      rw [acceptLockedEmission_eq sort o o o ho hstarted] at hparams
      have hok := (lockAccepted_iff c sort _).mp (h.accept o o o o ho ho ho ho)
      rwa [Option.some.inj hparams] at hok
    · obtain ⟨o₁, ho₁, hr⟩ := (exists_ofLatest_iff hpub EpochValue.rEffective _).mpr
        ⟨e₁, ⟨h₁, fun ev hev => (hmax ev hev).1⟩, rfl⟩
      obtain ⟨o₂, ho₂, hcap⟩ := (exists_ofLatest_iff hpub EpochValue.payoutCap _).mpr
        ⟨e₂, ⟨h₂, fun ev hev => (hmax ev hev).2.1⟩, rfl⟩
      obtain ⟨o₃, ho₃, htwap⟩ := (exists_ofLatest_iff hpub EpochValue.twapMilliUSD _).mpr
        ⟨e₃, ⟨h₃, fun ev hev => (hmax ev hev).2.2⟩, rfl⟩
      have hok := (lockAccepted_iff c sort _).mp (h.renew o₁ o₂ o₃ ho₁ ho₂ ho₃)
      rw [renewLockedEmission, currentR, currentPayoutCap, currentTWAP, hr, hcap, htwap] at hok
      exact hok.2
  · intro h
    refine ⟨fun o o₁ o₂ o₃ ho _ _ _ => ?_, fun o₁ o₂ o₃ ho₁ ho₂ ho₃ => ?_⟩
    · obtain ⟨ev, hev, hmax, hparams⟩ := (exists_head_epochAtFn_iff sort _).mp
        ⟨o, ho, acceptLockedEmission_eq sort o₁ o₂ o₃ ho hstarted⟩
      rw [← hparams, lockAccepted_iff]
      exact h.accept ev hev hmax
    · obtain ⟨e₁, ⟨h₁, hmax₁⟩, hr⟩ := (exists_ofLatest_iff hpub EpochValue.rEffective _).mp
        ⟨o₁, ho₁, rfl⟩
      obtain ⟨e₂, ⟨h₂, hmax₂⟩, hcap⟩ := (exists_ofLatest_iff hpub EpochValue.payoutCap _).mp
        ⟨o₂, ho₂, rfl⟩
      obtain ⟨e₃, ⟨h₃, hmax₃⟩, htwap⟩ := (exists_ofLatest_iff hpub EpochValue.twapMilliUSD _).mp
        ⟨o₃, ho₃, rfl⟩
      rw [renewLockedEmission, currentR, currentPayoutCap, currentTWAP, ← hr, ← hcap, ← htwap,
        lockAccepted_iff]
      exact ⟨hrate _, h.renew e₁ e₂ e₃ h₁ h₂ h₃ fun ev hev =>
        ⟨hmax₁ ev hev, hmax₂ ev hev, hmax₃ ev hev⟩⟩

end Built

/-! ## An epoch in the future, and one without a rate -/

namespace SampleLocking

export SampleEpochs (genesis)

open SampleNet (priced oracle)

/-- An epoch that has begun. -/
def begun : EpochValue :=
  priced 100 0 100 "volume"

/-- An epoch that begins later. -/
def later : EpochValue :=
  { priced 200 0 200 "volume" with epoch := 2, startNS := 100, endNS := 200 }

/-- An epoch without a rate. -/
def free : EpochValue :=
  priced 0 0 0 "tied"

/-- A decoder that knows the three epochs. -/
def json : Json :=
  { SampleEpochs.json with epochValue := readEpochs [begun, later, free] }

/-- The block with which the oracle publishes an epoch under each key. -/
def published (epochs : List (Str × EpochValue)) : StateChain.Block :=
  SampleNet.next genesis (epochs.map fun (k, ev) => ⟨.set, k, epochJSON ev⟩) oracle.keys

theorem isOrder {kv : KVStore} {keys : List Str} (hnodup : keys.Nodup)
    (h : keys.toFinset = kv.keys.filter fun k => startsWith k epochPrefix = true) :
    IsOrder kv keys := by
  refine ⟨hnodup, fun k => ?_⟩
  rw [← List.mem_toFinset, h, Finset.mem_filter]

end SampleLocking

open SampleLocking in
/-- With one epoch that has begun, the builders lock its parameters. -/
theorem locked_emission_single : ∃ c,
    Run Sample.lib json .badger genesis [published [(str "epoch.0", begun)]] c ∧
      (∃ ev, Started json c.kv 5 ev) ∧ EmissionValid Sample.ctx (insertion _) json c.kv 5 := by
  have hrun : (runBlocks Sample.lib json .badger genesis [published
      [(str "epoch.0", begun)]]).toOption.any (fun c =>
        decide ([str "epoch.0"].toFinset =
            c.kv.keys.filter (fun k => startsWith k epochPrefix = true) ∧
          [str "epoch.0"].filterMap (epochUnder json c.kv) = [begun] ∧
          [str "epoch.0"].filterMap (activeUnder json c.kv 5) = [begun])) = true := by
    decide +kernel
  obtain ⟨c, hc, hP⟩ := exists_run _ hrun
  obtain ⟨hkeys, hpub, hact⟩ := of_decide_eq_true hP
  have ho := isOrder (by decide) hkeys
  have hstarted : ∀ ev, Started json c.kv 5 ev ↔ ev = begun := by
    intro ev
    rw [← mem_started ho, hact, List.mem_singleton]
  have hpublished : ∀ ev, Published json c.kv ev ↔ ev = begun := by
    intro ev
    rw [← mem_published ho, hpub, List.mem_singleton]
  have hoffered : Offered json c.kv 5 begun.params := by
    refine ⟨_, (hstarted _).mpr rfl, rfl, ?_⟩
    rw [← rivals_eq_card ho, hact]
    decide
  have hsome : ∃ ev, Started json c.kv 5 ev := ⟨_, (hstarted _).mpr rfl⟩
  refine ⟨c, hc, hsome, (locked_emission_iff Sample.ctx (insertion _) hsome).mpr ⟨?_, ?_⟩⟩
  · intro ev hev _
    rw [(hstarted ev).mp hev]
    exact ⟨by decide, hoffered⟩
  · intro e₁ e₂ e₃ h₁ h₂ h₃ _
    rw [(hpublished e₁).mp h₁, (hpublished e₂).mp h₂, (hpublished e₃).mp h₃]
    exact hoffered

open SampleLocking in
/-- **A renewal locks an epoch that has not begun, and an acceptance a rate of zero**: both are
refused. -/
theorem locked_emission_refused :
    (∃ c, Run Sample.lib json .badger genesis [published
          [(str "epoch.0", begun), (str "epoch.1", later)]] c ∧
        (∃ ev, Started json c.kv 5 ev) ∧
        IsOrder c.kv [str "epoch.0", str "epoch.1"] ∧
        ¬ LockAccepted Sample.ctx (insertion _) json c.kv 5
          (renewLockedEmission json c.kv [str "epoch.0", str "epoch.1"]
            [str "epoch.0", str "epoch.1"] [str "epoch.0", str "epoch.1"])) ∧
    ∃ c, Run Sample.lib json .badger genesis [published [(str "epoch.0", free)]] c ∧
        (∃ ev, Started json c.kv 5 ev) ∧ IsOrder c.kv [str "epoch.0"] ∧
        ¬ LockAccepted Sample.ctx (insertion _) json c.kv 5
          (acceptLockedEmission (insertion _) json c.kv [str "epoch.0"]
            [str "epoch.0"] [str "epoch.0"] [str "epoch.0"] 5) := by
  constructor
  · have hrun : (runBlocks Sample.lib json .badger genesis [published
        [(str "epoch.0", begun), (str "epoch.1", later)]]).toOption.any (fun c =>
          decide ([str "epoch.0", str "epoch.1"].toFinset =
              c.kv.keys.filter (fun k => startsWith k epochPrefix = true) ∧
            activeUnder json c.kv 5 (str "epoch.0") = some begun ∧
            renewLockedEmission json c.kv [str "epoch.0", str "epoch.1"]
              [str "epoch.0", str "epoch.1"] [str "epoch.0", str "epoch.1"] ∉
              epochAtFn (insertion _) json c.kv [str "epoch.0", str "epoch.1"] 5)) =
        true := by
      decide +kernel
    obtain ⟨c, hc, hP⟩ := exists_run _ hrun
    obtain ⟨hkeys, hact, hnot⟩ := of_decide_eq_true hP
    have ho := isOrder (by decide) hkeys
    refine ⟨c, hc, ⟨_, _, by decide, hact⟩, ho, fun hok => hnot ?_⟩
    exact (forall_mem_epochAtFn_iff _ _).mpr ((lockAccepted_iff _ _ _).mp hok).2 _ ho
  · have hrun : (runBlocks Sample.lib json .badger genesis [published
        [(str "epoch.0", free)]]).toOption.any (fun c =>
          decide ([str "epoch.0"].toFinset =
              c.kv.keys.filter (fun k => startsWith k epochPrefix = true) ∧
            activeUnder json c.kv 5 (str "epoch.0") = some free ∧
            (acceptLockedEmission (insertion _) json c.kv [str "epoch.0"]
              [str "epoch.0"] [str "epoch.0"] [str "epoch.0"] 5).r = 0)) = true := by
      decide +kernel
    obtain ⟨c, hc, hP⟩ := exists_run _ hrun
    obtain ⟨hkeys, hact, hzero⟩ := of_decide_eq_true hP
    refine ⟨c, hc, ⟨_, _, by decide, hact⟩, isOrder (by decide) hkeys, fun hok => ?_⟩
    exact ((lockAccepted_iff _ _ _).mp hok).1 hzero

end Xe
