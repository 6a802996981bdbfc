import XeLattice.Inv.Hashes
import XeLattice.Inv.Keys

/-!
# What a handler leaves

The outcome of a block's handler in a state that keeps the ledger's invariants, outside a promotion
and inside one: whatever a cancel has unwound, the blocks of the promotion come off, and the block
is committed; or nothing but that unwinding has happened.

* **`dispatch_outcome`**, **`swap_outcome`**: the handler of a block, and the swap of a block.
-/

set_option autoImplicit false

namespace Xe

open Prog

/-! ## The request of a handler -/

section Request

variable {c : Ctx} {v : Reads} {b : Block} {p : Prepared}

/-- The parts of a request that all handlers fill in one way. -/
structure Prepared.Plain (v : Reads) (b : Block) (p : Prepared) : Prop where
  frontier : p.commit.frontierHash = b.hash
  delegates : p.commit.deleteDelegation = false
  pubKey : p.commit.putAccountKey = b.pubKey
  keyset : p.commit.putKeyset = b.keyset
  declares : b.type = .multisigOpen ∨ b.type = .multisigUpdate → b.msKeyset ≠ none
  balance : p.prevBalance = v.balanceOf b.account assetXE
  exclusive : p.commit.deletePendingID = [] ∨ p.commit.topUpPendingID = []

theorem Checked.plain (h : Checked c v b p) : p.Plain v b := by
  have declares : ∀ {t : BlockType}, b.type = t → t ≠ .multisigOpen → t ≠ .multisigUpdate →
      b.keyset = none ∧ (b.type = .multisigOpen ∨ b.type = .multisigUpdate → b.msKeyset ≠ none) := by
    rintro t ht ho hu
    have hno : ¬ (b.type = .multisigOpen ∨ b.type = .multisigUpdate) := by
      rw [ht]
      exact fun h => h.elim ho hu
    exact ⟨if_neg hno, fun h => absurd h hno⟩
  cases h with
  | send type | burn type | mint type | genesis type | lease _ _ type =>
    obtain ⟨hks, hd⟩ := declares type BlockType.noConfusion BlockType.noConfusion
    exact ⟨rfl, rfl, rfl, hks.symm, hd, rfl, .inl rfl⟩
  | receive _ type | leaseAccept _ _ type | leaseCancel _ _ type | leaseForceSettle _ _ _ type
  | leaseSettle _ _ type =>
    obtain ⟨hks, hd⟩ := declares type BlockType.noConfusion BlockType.noConfusion
    exact ⟨rfl, rfl, rfl, hks.symm, hd, rfl, .inr rfl⟩
  | leaseRenew _ _ _ type =>
    obtain ⟨hks, hd⟩ := declares type BlockType.noConfusion BlockType.noConfusion
    exact ⟨rfl, rfl, rfl, hks.symm, hd, rfl, .inl rfl⟩
  | multisigOpen ks type keyset =>
    refine ⟨rfl, rfl, rfl, ?_, fun _ => by rw [keyset]; exact Option.some_ne_none _, rfl, .inl rfl⟩
    rw [Block.keyset, if_pos (.inl type), keyset]
    rfl
  | multisigUpdate ks type keyset =>
    refine ⟨rfl, rfl, rfl, ?_, fun _ => by rw [keyset]; exact Option.some_ne_none _, rfl, .inl rfl⟩
    rw [Block.keyset, if_pos (.inr type), keyset]
    rfl

theorem withDelegation_exclusive {rep : Str} (p : BlockCommit)
    (h : p.deletePendingID = [] ∨ p.topUpPendingID = []) :
    (p.withDelegation rep).deletePendingID = [] ∨ (p.withDelegation rep).topUpPendingID = [] := by
  unfold BlockCommit.withDelegation
  dsimp only
  split_ifs <;> exact h

theorem casLease_withDelegation {before rep : Str} {lease : Table Str Lease} {p : BlockCommit}
    (h : Store.casLease before (lease.get (p.withDelegation rep).expectLeaseHash)
      (p.withDelegation rep) = .ok ()) :
    Store.casLease before (lease.get p.expectLeaseHash) p = .ok () := by
  unfold BlockCommit.withDelegation at h
  dsimp only at h
  split_ifs at h <;> exact h

end Request

/-- What the checks of a block establish of the commit in the state that they see. -/
theorem commits_of_checked {c : Ctx} {v : Reads} {s : State} {b : Block} {p : Prepared}
    {stale : Str → Prop} (hk : s.book.Wf) (hv : Shows v s.book stale) (hc : Checked c v b p)
    (hkey : validatePubKeyDeclaration c.lib b = .ok ()) (hext : Extends v b)
    (hg : b.type ≠ .genesis) (ha : isValidAsset b.asset = true) (hlen : b.hash.length = 64)
    (hfresh : ∀ x, s.book.On x → x.hash ≠ b.hash)
    (hcas : Store.casLease (str "CommitBlock: ") (s.book.leases.get p.commit.expectLeaseHash)
      p.commit = .ok ()) : Commits c.lib stale s b p where
  appended := by
    rw [committed_book]
    exact appended_of_checked hk hv hc hext.previous hg ha hlen hfresh hcas
  notOlder := hv.chain b.account ▸ hext.notOlder
  key := hkey
  block := hc.base.1
  account := hc.base.2.1
  frontier := hc.plain.frontier
  delegates := hc.plain.delegates
  pubKey := hc.plain.pubKey
  keyset := hc.plain.keyset
  declares := hc.plain.declares
  balance := hc.plain.balance.trans (hv.balance b.account assetXE assetXE_ne)
  credit d hd := hc.credit hk hv hd
  event := by
    rw [committed_book]
    exact hc.event hv
  attested ht _ hev := hc.attested ht hev

theorem Writes.alone {c : Ctx} {s s' : State} {b : Block} {p : Prepared} (h : Writes c s b p s')
    (hq : s.quiet) : Store.casLease (str "CommitBlock: ")
      (s.book.leases.get p.commit.expectLeaseHash) p.commit = .ok () ∧ s' = s.committed p := by
  have hw := h.write
  have hquiet : ∀ cb, s.mem.activeCascade = some cb → cb.winnerHash ≠ p.commit.block.hash := by
    intro cb hcb
    rw [State.quiet] at hq
    rw [hq] at hcb
    cases hcb
  rw [run_finishWrite_alone hquiet] at hw
  cases hst : s.store.applyCommit (p.request s) with
  | error e =>
    rw [hst] at hw
    cases hw
  | ok st =>
    rw [hst] at hw
    obtain ⟨hcas, rfl⟩ := Store.applyCommit_ok
      (withDelegation_exclusive _ h.checked.plain.exclusive) hst
    cases hw
    exact ⟨casLease_withDelegation hcas, rfl⟩

theorem Writes.promoted {c : Ctx} {s s' : State} {b : Block} {p : Prepared} (h : Writes c s b p s')
    {k : Book} {L : Table Str Lease} {w : Str} {steps : List (Str × Block)} {cb : CascadeBuild}
    {us : List (BlockUndo × MemUndo)} (hc : Cascade k L w steps cb us)
    (hcb : s.mem.activeCascade = some cb) (hw : w = b.hash) :
    Store.casLease (str "CommitBlock: ")
      ((s.book.undoAll us).leases.get p.commit.expectLeaseHash) p.commit = .ok () ∧
        s' = ((us.foldl State.undone s).dress s.locks none).committed p := by
  have hrun := h.write
  have hwin : cb.winnerHash = p.commit.block.hash := by
    rw [hc.winnerHash, hw, h.checked.base.1]
  rw [run_finishWrite_cascade hcb p hwin] at hrun
  obtain ⟨r, st, hst⟩ : ∃ r st, Store.commitCascade cb.undos (p.request s) s.store = (r, st) :=
    ⟨_, _, rfl⟩
  rw [hst] at hrun
  cases r with
  | error e => cases hrun
  | ok u =>
    obtain ⟨hcas, rfl⟩ := commitCascade_ok
      (withDelegation_exclusive _ h.checked.plain.exclusive) hst
    refine ⟨?_, ?_⟩
    · have hcas' := casLease_withDelegation hcas
      have hbook := foldl_undone_book us s
      rw [foldl_undone, ← hc.undos] at hbook
      have hl : (cb.undos.foldl (fun st u => st.afterUndo u) s.store).leases =
          (s.book.undoAll us).leases := by
        rw [← hbook, foldl_applied_book]
        generalize hX : s.mapStore (fun st => cb.undos.foldl (fun st u => st.afterUndo u) st) = X
        have hmem : ∀ (ms : List MemUndo) (k : Book),
            (ms.foldl (fun k u => k.undoMem u) k).leases = k.leases := by
          intro ms
          induction ms with
          | nil => exact fun _ => rfl
          | cons m ms ih => exact fun k => ih _
        rw [hmem, ← hX]
        rfl
      rwa [hl] at hcas'
    · cases hrun
      exact hc.promoted hcb p

/-! ## The invariants of every call -/

section Filed

variable {lib : Lib} {D : Set Str} {g b b' : Block}

theorem Filed.type_eq (hD : IdealHash lib D) (hg : GenesisSealed lib D g) (hb : Filed lib D g b)
    (hb' : Filed lib D g b') (h : b.hash = b'.hash) : b.type = b'.type := by
  rcases hb with rfl | ⟨ht, hs⟩
  · rcases hb' with rfl | ⟨ht', hs'⟩
    · rfl
    · exact absurd h.symm (hg.hash_ne hD hs' ht')
  · rcases hb' with rfl | ⟨ht', hs'⟩
    · exact absurd h (hg.hash_ne hD hs ht)
    · exact (hs.position hD hs' h).1

theorem Filed.account_ne (hg : GenesisSealed lib D g) (hb : Filed lib D g b) : b.account ≠ [] := by
  obtain ⟨data, hdata⟩ : ∃ data, preimage lib b = .ok data := by
    rcases hb with rfl | ⟨-, hs⟩
    · obtain ⟨-, data, hdata, -⟩ := hg.encoded
      exact ⟨data, hdata⟩
    · obtain ⟨data, hdata, -⟩ := hs.hash
      exact ⟨data, hdata⟩
  obtain ⟨tb, acc, prev, tail, rep, timing, he, -⟩ := preimage_ok hdata
  intro hnil
  have hacc := he.account
  rw [hnil] at hacc
  cases hacc

theorem Sealed.length (h : Sealed lib D b) : b.hash.length = 64 := by
  obtain ⟨data, -, -, hhash⟩ := h.hash
  rw [hhash, length_hexEncode, lib.length_sha256]

end Filed

/-- **What every call keeps**, whatever blocks it is given. -/
structure State.Inv (node : Node) (D : Set Str) (s : State) : Prop where
  quiet : s.quiet
  wf : s.book.Wf
  caches : s.book.Caches
  sends : s.book.SendSound
  filed : ∀ h b, s.store.blocks.get h = some b → Filed node.lib D node.genesis b
  opened : s.store.blocks.keys ≠ ∅
  genesis : ∀ a, ∀ b ∈ s.book.chain a, b.type = .genesis →
    (∃ rest, s.book.chain a = b :: rest) ∧ 1 ≤ s.store.finalHeightOf a
  staged : ∀ h b, s.store.staged.get h = some b → b.hash = h ∧ Filed node.lib D node.genesis b
  conflicts : ∀ a p cf, s.store.conflicts.get (a, p) = some cf →
    cf.accountAddress = a ∧ cf.previousHash = p

section Steps

variable {node : Node} {D : Set Str} {s : State} {b : Block}

theorem State.Inv.on_filed (hi : s.Inv node D) {x : Block} (hx : s.book.On x) :
    Filed node.lib D node.genesis x :=
  hi.filed x.hash x (hi.wf.known x hx)

/-- Taking off a block keeps the invariants, unless it is a send that was received. -/
theorem UndoOf.inv (hg : GenesisSealed node.lib D node.genesis) (hi : s.Inv node D)
    {u : BlockUndo × MemUndo} (h : UndoOf s b u)
    (hf : b.type = .send → s.book.pending.get b.hash ≠ none) : (s.undone u).Inv node D := by
  have hr := h.removed hi.wf
  have hfr := undone_frame s u
  obtain ⟨rest, hrest, hchain⟩ := hr.chain_eq
  refine ⟨(undone_activeCascade s u).trans hi.quiet, hr.wf hi.wf,
    h.caches hi.wf hi.caches ((hi.on_filed hr.on).account_ne hg), hr.sendSound hi.wf hi.sends hf,
    ?_, ?_, ?_, ?_, ?_⟩
  · rw [undone_blocks]
    exact hi.filed
  · rw [undone_blocks]
    exact hi.opened
  · intro a x hx ht
    have hfh : (s.undone u).store.finalHeightOf a = s.store.finalHeightOf a :=
      congrArg (fun f : Frame => (f.finalHeight.get a).getD 0) hfr
    rw [hfh, hchain]
    rw [hchain] at hx
    split_ifs with ha
    · rw [if_pos ha] at hx
      subst ha
      obtain ⟨⟨tail, htail⟩, hfin⟩ := hi.genesis b.account x
        (by rw [hrest]; exact List.mem_append_left _ hx) ht
      refine ⟨?_, hfin⟩
      cases rest with
      | nil => cases hx
      | cons y ys =>
        rw [hrest, List.cons_append] at htail
        exact ⟨ys, by rw [(List.cons.inj htail).1]⟩
    · rw [if_neg ha] at hx
      exact hi.genesis a x hx ht
  · rw [show (s.undone u).store.staged = s.store.staged from congrArg Frame.staged hfr]
    exact hi.staged
  · rw [show (s.undone u).store.conflicts = s.store.conflicts from congrArg Frame.conflicts hfr]
    exact hi.conflicts

/-- So do several blocks, when the receivers come off before their sends. -/
theorem Undone.inv (hg : GenesisSealed node.lib D node.genesis) (hi : s.Inv node D) {s' : State}
    {bs : List Block} (h : Undone s bs s') (hr : ReceiversFirst s.book bs) : s'.Inv node D := by
  induction h with
  | nil => exact hi
  | @snoc bs s₁ x u before undo ih =>
    have hi₁ := ih hr.init
    refine undo.inv hg hi₁ fun ht => ?_
    exact hr.pending hi₁.wf hi₁.sends (undo.removed hi₁.wf).on
      ((before.unwinds hi.wf).wf hi.wf).2 ht

theorem Commits.inv (hD : IdealHash node.lib D) (hg : GenesisSealed node.lib D node.genesis)
    (hi : s.Inv node D) {stale : Str → Prop} {p : Prepared} (h : Commits node.lib stale s b p)
    (hb : Sealed node.lib D b) (ht : b.type ≠ .genesis) : (s.committed p).Inv node D := by
  have hfr := committed_frame s p
  have hblocks : (s.committed p).store.blocks = s.store.blocks.set b.hash b := h.appended.blocks
  have hfiled : Filed node.lib D node.genesis b := .inr ⟨ht, hb⟩
  refine ⟨(committed_activeCascade s p).trans hi.quiet, h.appended.wf hi.wf,
    h.caches hi.wf hi.caches, h.appended.sendSound hi.wf hi.sends ?_, ?_, ?_, ?_, ?_, ?_⟩
  · intro x hx
    exact (hi.filed _ x hx).type_eq hD hg hfiled (hi.wf.hash _ x hx).1
  · intro x y hy
    rw [hblocks, Table.get_set] at hy
    split_ifs at hy
    · cases hy
      exact hfiled
    · exact hi.filed x y hy
  · rw [hblocks, Table.keys_set]
    exact Finset.insert_ne_empty _ _
  · intro a x hx hxt
    have hfh : (s.committed p).store.finalHeightOf a = s.store.finalHeightOf a :=
      congrArg (fun f : Frame => (f.finalHeight.get a).getD 0) hfr
    rw [hfh, h.appended.chain]
    rw [h.appended.chain] at hx
    have old : x ∈ s.book.chain a := by
      split_ifs at hx with ha
      · rcases List.mem_append.mp hx with hx | hx
        · exact hx
        · obtain rfl := List.mem_singleton.mp hx
          exact absurd hxt ht
      · exact hx
    obtain ⟨⟨rest, hrest⟩, hfin⟩ := hi.genesis a x old hxt
    refine ⟨?_, hfin⟩
    rw [hrest]
    split_ifs
    · exact ⟨rest ++ [b], rfl⟩
    · exact ⟨rest, rfl⟩
  · rw [show (s.committed p).store.staged = s.store.staged from congrArg Frame.staged hfr]
    exact hi.staged
  · rw [show (s.committed p).store.conflicts = s.store.conflicts from congrArg Frame.conflicts hfr]
    exact hi.conflicts

end Steps

/-! ## Outcomes -/

/-- What a cancel may have unwound when its own checks go on or fail. -/
inductive Forced (s : State) (b : Block) : State → Prop
  | same : Forced s b s
  | accept (a : Block) (u : BlockUndo × MemUndo) (type : b.type = .leaseCancel)
      (acceptType : a.type = .leaseAccept) (source : a.source = b.source)
      (other : a.account ≠ b.account)
      (notFinal : s.store.finalHeightOf a.account < (s.book.chain a.account).length)
      (undo : UndoOf s a u) : Forced s b (s.undone u)

/-- What the handler of `b` may leave when it first takes the blocks `olds` off. -/
inductive Outcome (lib : Lib) (stale : Str → Prop) (s : State) (b : Block) (olds : List Block) :
    Except Fault Unit → State → Prop
  | refused {e : Fault} {s₁ : State} (forced : Forced s b s₁) :
      Outcome lib stale s b olds (.error e) s₁
  | written {s₁ s₂ : State} {p : Prepared} (forced : Forced s b s₁) (undone : Undone s₁ olds s₂)
      (receivers : ReceiversFirst s₁.book olds) (commits : Commits lib stale s₂ b p)
      (type : b.type ≠ .genesis) (authorised : Authorised lib s.book b) :
      Outcome lib stale s b olds (.ok ()) (s₂.committed p)

section Preserve

variable {node : Node} {D : Set Str} {s s' : State} {b : Block}

theorem Forced.inv (hg : GenesisSealed node.lib D node.genesis) (hi : s.Inv node D)
    (h : Forced s b s') : s'.Inv node D := by
  cases h with
  | same => exact hi
  | accept a u type acceptType source other notFinal undo =>
    refine undo.inv hg hi fun hs => ?_
    rw [acceptType] at hs
    cases hs

/-- **Whatever a handler leaves keeps the invariants.** -/
theorem Outcome.inv (hD : IdealHash node.lib D) (hg : GenesisSealed node.lib D node.genesis)
    (hi : s.Inv node D) (hb : Sealed node.lib D b) {stale : Str → Prop} {olds : List Block}
    {r : Except Fault Unit} (h : Outcome node.lib stale s b olds r s') : s'.Inv node D := by
  cases h with
  | refused forced => exact forced.inv hg hi
  | written forced undone receivers commits type authorised =>
    exact commits.inv hD hg (undone.inv hg (forced.inv hg hi) receivers) hb type

end Preserve

/-! ## Locks -/

section Dress

variable {s s' : State} {b : Block}

theorem dress_self (s : State) : s.dress s.locks s.mem.activeCascade = s := rfl

theorem dress_dress (s : State) (L L' : Lock → Option ℕ) (A A' : Option CascadeBuild) :
    (s.dress L A).dress L' A' = s.dress L' A' := rfl

theorem dress_quiet (hq : s.quiet) : s.dress s.locks none = s := by
  rw [State.quiet] at hq
  rw [← hq]
  exact dress_self s

theorem moveDelegation_withCascade (a rep : Str) (x y : UInt64) (m : Memory)
    (A : Option CascadeBuild) : Memory.moveDelegation a rep x y (m.withCascade A) =
      (Memory.moveDelegation a rep x y m).withCascade A := by
  have hrep : (m.withCascade A).repOf a = m.repOf a := rfl
  have hweight : (m.withCascade A).weightOf (m.repOf a) = m.weightOf (m.repOf a) := rfl
  unfold Memory.moveDelegation
  dsimp only
  rw [hrep, hweight]
  split_ifs <;> rfl

theorem afterCommit_withCascade (c : BlockCommit) (pb : UInt64) (m : Memory)
    (A : Option CascadeBuild) :
    (m.withCascade A).afterCommit c pb = (m.afterCommit c pb).withCascade A := by
  by_cases hk : c.putAccountKey ≠ []
  · cases hd : c.assetCredit <;>
      simp only [Memory.afterCommit, if_pos hk, hd, ← moveDelegation_withCascade] <;> rfl
  · cases hd : c.assetCredit <;>
      simp only [Memory.afterCommit, if_neg hk, hd, ← moveDelegation_withCascade] <;> rfl

theorem written_dress (p : Prepared) (s : State) (L : Lock → Option ℕ) (A : Option CascadeBuild) :
    p.written (s.dress L A) = (p.written s).dress L A := by
  have hmem : State.mapMem (fun m => m.afterCommit p.commit p.prevBalance) (s.dress L A) =
      (s.mapMem (fun m => m.afterCommit p.commit p.prevBalance)).dress L A :=
    congrArg (fun m => { s with locks := L, mem := m })
      (afterCommit_withCascade p.commit p.prevBalance s.mem A)
  have hevent := onSome_comm (blind_dress L A).apply p.event
    (s.mapMem (fun m => m.afterCommit p.commit p.prevBalance))
  have hkeyset := onSome_comm (g := fun s => s.dress L A)
    (f := fun ks s => { s with mem := s.mem.setKeyset p.commit.account ks }) (fun _ _ => rfl)
    p.commit.putKeyset (onSome State.applyReputation p.event
      (s.mapMem (fun m => m.afterCommit p.commit p.prevBalance)))
  rw [← hevent, ← hmem] at hkeyset
  exact hkeyset

theorem committed_dress (hq : s.quiet) (p : Prepared) (L : Lock → Option ℕ) :
    (s.dress L none).committed p = (s.committed p).dress L none := by
  have hreq : p.request (s.dress L none) = p.request s := by
    rw [State.quiet] at hq
    unfold Prepared.request State.repBefore
    rw [hq]
    rfl
  unfold State.committed
  rw [hreq]
  exact written_dress p (s.mapStore (fun st => st.afterCommit (p.request s))) L none

theorem Commits.dress {lib : Lib} {stale : Str → Prop} {p : Prepared} (hq : s.quiet)
    (h : Commits lib stale s b p) (L : Lock → Option ℕ) :
    Commits lib stale (s.dress L none) b p where
  appended := by
    rw [committed_dress hq]
    exact h.appended
  notOlder := h.notOlder
  key := h.key
  block := h.block
  account := h.account
  frontier := h.frontier
  delegates := h.delegates
  pubKey := h.pubKey
  keyset := h.keyset
  declares := h.declares
  balance := h.balance
  credit := h.credit
  event := by
    rw [committed_dress hq]
    exact h.event
  attested := h.attested

theorem Forced.dress (h : Forced s b s') (L : Lock → Option ℕ) (A : Option CascadeBuild) :
    Forced (s.dress L A) b (s'.dress L A) := by
  cases h with
  | same => exact .same
  | accept a u type acceptType source other notFinal undo =>
    rw [← undone_dress]
    exact .accept a u type acceptType source other notFinal (undo.dress L A)

theorem Forced.frame (h : Forced s b s') :
    s'.frame = s.frame ∧ s'.mem.activeCascade = s.mem.activeCascade := by
  cases h with
  | same => exact ⟨rfl, rfl⟩
  | accept a u type acceptType source other notFinal undo =>
    exact ⟨undone_frame s u, undone_activeCascade s u⟩

theorem State.Inv.dress {node : Node} {D : Set Str} (hi : s.Inv node D) (L : Lock → Option ℕ) :
    (s.dress L none).Inv node D :=
  ⟨rfl, hi.wf, hi.caches, hi.sends, hi.filed, hi.opened, hi.genesis, hi.staged, hi.conflicts⟩

theorem Outcome.dress {lib : Lib} {stale : Str → Prop} {olds : List Block} {r : Except Fault Unit}
    (hq : s.quiet) (h : Outcome lib stale s b olds r s') (L : Lock → Option ℕ) :
    Outcome lib stale (s.dress L none) b olds r (s'.dress L none) := by
  cases h with
  | refused forced => exact .refused (forced.dress L none)
  | @written s₁ s₂ p forced undone receivers commits type authorised =>
    have hq₂ : s₂.quiet := undone.frame.2.trans (forced.frame.2.trans hq)
    rw [← committed_dress hq₂]
    exact .written (forced.dress L none) (undone.dress L none) receivers (commits.dress hq₂ L) type
      authorised

theorem Outcome.frame {lib : Lib} {stale : Str → Prop} {olds : List Block} {r : Except Fault Unit}
    (h : Outcome lib stale s b olds r s') :
    s'.frame = s.frame ∧ s'.mem.activeCascade = s.mem.activeCascade := by
  cases h with
  | refused forced => exact forced.frame
  | @written s₁ s₂ p forced undone =>
    exact ⟨(committed_frame s₂ p).trans (undone.frame.1.trans forced.frame.1),
      (committed_activeCascade s₂ p).trans (undone.frame.2.trans forced.frame.2)⟩

end Dress

/-! ## A handler outside a promotion -/

section Dispatch

variable {node : Node} {D : Set Str} {c : Ctx} {s s' : State} {b : Block}

/-- A cancel that finds its lease accepted takes the accept off the end of its chain. -/
theorem CancelWins.undo (hk : s.book.Wf) {u : BlockUndo × MemUndo} (h : CancelWins s b u) :
    ∃ a, b.type = .leaseCancel ∧ a.type = .leaseAccept ∧ a.source = b.source ∧
      a.account ≠ b.account ∧ s.store.finalHeightOf a.account < (s.book.chain a.account).length ∧
        s.locks (.account a.account) = none ∧ UndoOf s a u := by
  cases h with
  | intro l a rest e type record state other chain acceptType source notFinal free effect =>
    have hch : s.book.chain l.provider = rest ++ [a] := Book.chain_of_get chain
    have hacc : a.account = l.provider :=
      hk.owner _ _ (by rw [hch]; exact List.mem_concat_self)
    refine ⟨a, type, acceptType, source, hacc ▸ other, ?_, by rw [hacc]; exact free, ?_⟩
    · rw [hacc, hch, List.length_append]
      exact Nat.lt_succ_of_le notFinal
    · rw [← hacc]
      refine .intro rest e (by rw [hacc]; exact chain) ?_ effect
      rw [acceptType]
      exact BlockType.noConfusion

theorem Unwound.forced (hk : s.book.Wf) (h : Unwound s b s') : Forced s b s' := by
  cases h with
  | same => exact .same
  | cancelWins u hu =>
    obtain ⟨a, type, acceptType, source, other, notFinal, -, undo⟩ := hu.undo hk
    exact .accept a u type acceptType source other notFinal undo

theorem Writes.type_ne {p : Prepared} (h : Writes c s b p s') (ho : s.store.blocks.keys ≠ ∅) :
    b.type ≠ .genesis := by
  intro ht
  cases h.checked with
  | genesis type empty hash => exact ho empty
  | send type | burn type | mint type | lease _ _ type | receive _ type | leaseAccept _ _ type
  | leaseCancel _ _ type | leaseForceSettle _ _ _ type | leaseSettle _ _ type
  | leaseRenew _ _ _ type | multisigOpen _ type | multisigUpdate _ type =>
    rw [ht] at type
    cases type

theorem Writes.commits (hD : IdealHash c.lib D) (hg : GenesisSealed c.lib D c.node.genesis)
    (hi : s.Inv c.node D) (hb : Sealed c.lib D b) {p : Prepared} (h : Writes c s b p s') :
    Commits c.lib (fun _ => False) s b p ∧ b.type ≠ .genesis ∧ s' = s.committed p := by
  have ht := h.type_ne hi.opened
  obtain ⟨hcas, hs'⟩ := h.alone hi.quiet
  have hshows := hi.quiet.shows
  have hext := h.extends_ ht
  refine ⟨?_, ht, hs'⟩
  refine commits_of_checked hi.wf hshows h.checked h.key hext ht hb.asset hb.length ?_ hcas
  refine Sealed.fresh hD hg hi.wf (fun x hx => hi.on_filed hx) hb ht ?_
  rw [← hshows.chain]
  exact hext.previous

/-- **The handler of a block outside a promotion.** -/
theorem dispatch_outcome (hD : IdealHash c.lib D) (hg : GenesisSealed c.lib D c.node.genesis)
    (hi : s.Inv c.node D) (hb : Sealed c.lib D b) {skip : Bool} {r : Except Fault Unit}
    (h : (dispatchValidateAndAdd c b skip).run s = some (r, s')) :
    Outcome c.lib (fun _ => False) s b [] r s' := by
  obtain ⟨s₁, hun, ⟨e, rfl, rfl⟩ | ⟨rfl, p, hw⟩⟩ := dispatch_cases hi.caches.keyed h
  · exact .refused (hun.forced hi.wf)
  · have hf := hun.forced hi.wf
    obtain ⟨hcommits, ht, rfl⟩ := hw.commits hD hg (hf.inv hg hi) hb
    exact .written hf .nil (ReceiversFirst.nil _) hcommits ht
      (dispatch_authorised hi.caches (fun hm => hcommits.declares (.inl hm)) h)

end Dispatch

end Xe
