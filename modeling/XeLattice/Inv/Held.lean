import XeLattice.Inv.Steps
import XeLattice.Sample

/-!
# What becomes of an accepted block

`AddBlock` returns without an error for a block that it appends, for one that it stages next to a
sibling, and for one whose hash the store knows.  The store knows a hash for good: the undo of a
block leaves it in the table of blocks, and a block that came off its chain is then taken for one
that is there.  In a run whose calls spare a hash, what the store knows under it is on a chain.

* **`accepted_held_iff`**: when an accepted block is held.
-/

set_option autoImplicit false
set_option maxRecDepth 100000

namespace Xe

open Prog

/-- The block is on its account's chain, or it is listed in the conflict record of its position and
its body is staged. -/
def State.Holds (s : State) (b : Block) : Prop :=
  b.hash ∈ (s.book.chain b.account).map (·.hash) ∨
    (s.store.conflicts.get (b.account, b.previous)).any (fun cf => decide (b.hash ∈ cf.blockHashes)) =
      true ∧ (s.store.staged.get b.hash).isSome = true

instance (s : State) (b : Block) : Decidable (s.Holds b) :=
  inferInstanceAs (Decidable (_ ∨ _))

/-- The conflict record of the block's position lists it, or has room for it. -/
def State.HasRoom (s : State) (b : Block) : Prop :=
  (s.store.conflicts.get (b.account, b.previous)).all (fun cf =>
    decide (b.hash ∈ cf.blockHashes ∨ cf.blockHashes.length < maxConflictHashes)) = true

instance (s : State) (b : Block) : Decidable (s.HasRoom b) :=
  inferInstanceAs (Decidable (_ = _))

theorem exists_run_ok {p : M Unit} {s : State} (P : State → Prop) [DecidablePred P]
    (h : (p.run s).any (fun x => x.1.isOk && decide (P x.2)) = true) :
    ∃ s', p.run s = some (.ok (), s') ∧ P s' := by
  rcases hrun : p.run s with - | ⟨e | u, s'⟩
  · simp [hrun] at h
  · simp [hrun, Except.isOk, Except.toBool] at h
  · rw [hrun, Option.any_some, Bool.and_eq_true, decide_eq_true_eq] at h
    exact ⟨s', rfl, h.2⟩

section Held

variable {s s' : State} {b : Block}

theorem Outcome.no_sibling {lib : Lib} {stale : Str → Prop} (hk : s.book.Wf)
    (h : Outcome lib stale s b [] (.ok ()) s') :
    detectConflictSibling (s.store.chains.get b.account) b = none ∧
      b.hash ∈ (s'.book.chain b.account).map (·.hash) := by
  cases h with
  | @written s₁ s₂ p forced undone receivers commits type authorised =>
    obtain rfl := undone.eq_of_nil
    have hchain : s₂.book.chain b.account = s.book.chain b.account := by
      cases forced with
      | same => rfl
      | accept a u ht hat hsrc other hf undo =>
        obtain ⟨rest, -, hch⟩ := (undo.removed hk).chain_eq
        rw [hch, if_neg other.symm]
    have hprev := commits.appended.previous
    rw [hchain] at hprev
    constructor
    · rw [detectConflictSibling, Option.map_eq_none_iff, List.find?_eq_none]
      intro x hx
      simpa using hk.no_sibling hprev x hx
    · rw [commits.appended.chain, if_pos rfl]
      simp

theorem mem_recordHashes_iff (sibling : Str) :
    b.hash ∈ recordHashes (s.store.conflicts.get (b.account, b.previous)) sibling b.hash ↔
      s.HasRoom b := by
  unfold recordHashes State.HasRoom
  cases s.store.conflicts.get (b.account, b.previous) with
  | none => simp
  | some cf =>
    rw [Option.all_some, decide_eq_true_eq]
    dsimp only
    by_cases hin : b.hash ∈ cf.blockHashes
    · simp [hin]
    · by_cases hfull : cf.blockHashes.length ≥ maxConflictHashes
      · rw [if_pos (.inr hfull)]
        simp only [hin, false_or, false_iff]
        omega
      · rw [if_neg (by tauto)]
        simp only [List.mem_append, List.mem_singleton, or_true, true_iff]
        omega

theorem holds_contested_iff (hk : s.book.Wf) (hfresh : s.store.blocks.get b.hash = none)
    (cf : Conflict) : (s.contested b cf).Holds b ↔ b.hash ∈ cf.blockHashes := by
  have hoff : b.hash ∉ (s.book.chain b.account).map (·.hash) := by
    intro hmem
    obtain ⟨x, hx, hxh⟩ := List.mem_map.mp hmem
    have hknown : s.store.blocks.get x.hash = some x := hk.known x (Book.On.of_mem hk hx)
    rw [hxh, hfresh] at hknown
    cases hknown
  have hstore : (s.contested b cf).store.conflicts.get (b.account, b.previous) = some cf :=
    Table.get_set_self _ _ _
  unfold State.Holds
  rw [show (s.contested b cf).book = s.book from rfl, hstore]
  simp only [hoff, false_or, Option.any_some, decide_eq_true_eq]
  constructor
  · exact And.left
  · intro hin
    refine ⟨hin, ?_⟩
    have hstaged : (s.contested b cf).store.staged = s.store.staged.set b.hash b := if_pos hin
    rw [hstaged, Table.get_set_self]
    rfl

end Held

/-! ## What the store knows -/

/-- An undo that starts from `x` leaves the block of this hash where it is. -/
def Book.Spares (hash : Str) (k : Book) (x : Block) : Prop :=
  ∀ y, k.Hangs x y → y.hash ≠ hash

/-- What the store knows under the hash is on a chain. -/
def Book.Attached (hash : Str) (k : Book) : Prop :=
  ∀ x, k.blocks.get hash = some x → k.On x

section Known

variable {node : Node} {D : Set Str} {hash : Str}

theorem Removed.attached {k k' : Book} {b : Block} (hk : k.Wf) (h : Removed k b k')
    (hb : b.hash ≠ hash) (ha : k.Attached hash) : k'.Attached hash := by
  intro x hx
  rw [h.blocks] at hx
  refine (h.on_iff hk x).mpr ⟨ha x hx, ?_⟩
  rintro rfl
  exact hb (hk.hash hash x hx).1

theorem Appended.attached {stale : Str → Prop} {k k' : Book} {b : Block}
    (h : Appended stale k b k') (ha : k.Attached hash) : k'.Attached hash := by
  intro x hx
  rw [h.blocks, Table.get_set] at hx
  split_ifs at hx
  · exact (h.on_iff x).mpr (.inr (Option.some.inj hx).symm)
  · exact (h.on_iff x).mpr (.inl (ha x hx))

theorem FirstBook.attached {g : Block} {k : Book} (h : FirstBook g k) : k.Attached hash := by
  intro x hx
  rw [h.blocks, Table.get_set] at hx
  split_ifs at hx
  · obtain rfl := Option.some.inj hx
    unfold Book.On
    rw [h.chain, if_pos rfl]
    exact List.mem_cons_self
  · cases hx

theorem kept_attached :
    KeptIf node D (fun _ x => x.hash ≠ hash) (fun s => s.book.Attached hash) where
  undo hi hs h _ hb := (h.removed hi.wf).attached hi.wf hb hs
  commit _ hs h _ _ := h.appended.attached hs
  note _ hs h := by
    rw [h.book]
    exact hs
  anti _ hb := hb

/-- **What the store knows under a hash is on a chain**, as long as no call takes it off. -/
theorem Reachable.attached {s : State} (hD : IdealHash node.lib D)
    (hg : GenesisSealed node.lib D node.genesis)
    (h : Reachable node D (fun s op => op.Detaches (Book.Spares hash) node.lib s) s) :
    s.book.Attached hash := by
  refine h.keptIf hD hg kept_attached (fun hspares hhangs _ => hspares _ hhangs)
    (fun c kind s _ hrun => ?_) fun _ _ hop => hop
  obtain rfl := newLedger_ok hrun
  exact (genesis_book c kind).attached

end Known

/-- **When an accepted block is held.**  No call of the run took the block off its chain, and a
record that is full of others has no room for it.  `AddBlock` and `AddSyncedBlock` differ in
`skip`. -/
theorem accepted_held_iff {node : Node} {D : Set Str} {s s' : State} (hD : IdealHash node.lib D)
    (hg : GenesisSealed node.lib D node.genesis) (hgl : Lower node.genesis.account) {b : Block}
    (h : Reachable node D
      (fun s op => op.Detaches (Book.Spares (submitted node.lib b).hash) node.lib s) s)
    {c : Ctx} (hc : c.node = node) {skip : Bool} (ho : (Op.addBlock b).Offered node.lib D)
    (hrun : (addBlock c b skip).run s = some (.ok (), s')) :
    s'.Holds (submitted node.lib b) ↔
      (s.store.blocks.get (submitted node.lib b).hash = none →
        detectConflictSibling (s.store.chains.get (submitted node.lib b).account)
            (submitted node.lib b) ≠ none →
          s.HasRoom (submitted node.lib b)) := by
  subst hc
  rw [show c.node.lib = c.lib from rfl]
  have hi := h.inv hD hg
  generalize hr : (Except.ok () : Except Fault Unit) = r at hrun
  cases addBlock_cases hD hg hi ho hrun with
  | refused e => cases hr
  | known x known verified =>
    refine ⟨fun _ hnone => ?_, fun _ => .inl ?_⟩
    · exact absurd (hnone.symm.trans known) (Option.some_ne_none x).symm
    · have hx := h.attached hD hg x known
      have hhash := (hi.wf.hash _ _ known).1
      have hacc := (hi.filed _ _ known).account_eq hD hg hgl (hashed_of_verified verified ho)
        (submitted_lower c.lib b).1 hhash.symm
      rw [hacc]
      exact List.mem_map.mpr ⟨x, hx, hhash⟩
  | staged sibling cf fresh verified asset type found account previous hashes =>
    refine (holds_contested_iff hi.wf fresh cf).trans ?_
    rw [hashes]
    refine (mem_recordHashes_iff sibling).trans ⟨fun h _ _ => h, fun h => h fresh ?_⟩
    rw [found]
    exact Option.some_ne_none sibling
  | handled fresh verified asset outcome =>
    subst hr
    obtain ⟨hsib, hon⟩ := outcome.no_sibling hi.wf
    exact ⟨fun _ _ hne => absurd hsib hne, fun _ => .inl hon⟩

open Sample in
/-- A payment that is added once more: the store knows it, and it is on its chain. -/
theorem accepted_held_payment : ∃ s s',
    Reachable node (domain [payment])
        (fun s op => op.Detaches (Book.Spares (submitted lib payment).hash) lib s) s ∧
      (addBlock ctx payment false).run s = some (.ok (), s') ∧
      s.store.blocks.get (submitted lib payment).hash ≠ none ∧
      s'.Holds (submitted lib payment) := by
  obtain ⟨s, h, hknown, hadds⟩ := exists_reachable_detaches ctx rfl [payment]
    (P := fun s => s.store.blocks.get (submitted lib payment).hash ≠ none ∧
      ((addBlock ctx payment false).run s).any (fun x => x.1.isOk && decide True) = true)
    (by decide +kernel)
  obtain ⟨s', hrun, -⟩ := exists_run_ok (fun _ => True) hadds
  have hideal : IdealHash lib (domain [payment]) :=
    idealHash_of_nodup (by decide +kernel) (by decide +kernel)
  have hlower : Lower node.genesis.account := by
    unfold Lower
    decide +kernel
  have hheld := accepted_held_iff hideal (genesis_domain _) hlower h rfl
    (offered_add List.mem_cons_self) hrun
  exact ⟨s, s', h, hrun, hknown, hheld.mpr fun hnone => absurd hnone hknown⟩

open Sample in
/-- A provider accepts a lease, and a cancel with a wrong balance takes the accept off before it
fails. The accept is then accepted once more, and dropped. -/
theorem accepted_not_held :
    ∃ s s', Reachable node
        (domain [mint 3 1000, mint 4 1, lease, accept 0, badCancel lease.hash])
        (fun _ _ => true = true) s ∧
      (addBlock leaseCtx (accept 0) false).run s = some (.ok (), s') ∧
      ¬ s'.Holds (submitted lib (accept 0)) := by
  obtain ⟨s, h, hadds⟩ := exists_reachable_adds leaseCtx rfl _
    [mint 3 1000, mint 4 1, lease, accept 0, badCancel lease.hash] (fun _ hb => hb)
    (P := fun s => ((addBlock leaseCtx (accept 0) false).run s).any
      (fun x => x.1.isOk && decide (¬ x.2.Holds (submitted lib (accept 0)))) = true)
    (by decide +kernel)
  obtain ⟨s', hrun, hnot⟩ :=
    exists_run_ok (fun s' => ¬ s'.Holds (submitted lib (accept 0))) hadds
  exact ⟨s, s', h, hrun, hnot⟩

end Xe
