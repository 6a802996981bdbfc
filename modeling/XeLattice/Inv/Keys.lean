import XeLattice.Inv.Promotion

/-!
# The caches of keys

A ledger keeps the keyset and the public key of every account in memory.  They are exactly what the
account's chain declares, although neither cache goes through the overlay of a promotion: a keyset
is never taken back but with the block that opened the account, and a public key is declared by an
opening block alone.

* **`Commits.caches`**, **`UndoOf.caches`**: both writes keep them;
* `Authorised`, **`dispatch_authorised`**: who has signed a block that is taken up.
-/

set_option autoImplicit false

namespace Xe

open Prog

/-! ## What a chain declares -/

/-- The keyset that a block declares. -/
def Block.keyset (b : Block) : Option Keyset :=
  if b.type = .multisigOpen ∨ b.type = .multisigUpdate then b.msKeyset else none

theorem lastKeyset_concat (ch : AccountChain) (b : Block) :
    lastKeyset (ch ++ [b]) = b.keyset.or (lastKeyset ch) := by
  unfold lastKeyset Block.keyset
  rw [List.foldl_append, List.foldl_cons, List.foldl_nil]
  by_cases ht : b.type = .multisigOpen ∨ b.type = .multisigUpdate
  · cases hk : b.msKeyset with
    | none => simp
    | some ks => simp [ht]
  · simp [ht]

theorem lastPubKey_concat (ch : AccountChain) (b : Block) :
    lastPubKey (ch ++ [b]) = if b.pubKey ≠ [] then b.pubKey else lastPubKey ch := by
  unfold lastPubKey
  rw [List.foldl_append, List.foldl_cons, List.foldl_nil]

/-- **The caches of keys are what the chains declare**, and only opening blocks open accounts. -/
structure Book.Caches (k : Book) : Prop where
  keyset : ∀ a, k.keysets.get a = lastKeyset (k.chain a)
  pubKey : ∀ a, k.accountKeys.get a =
    if lastPubKey (k.chain a) = [] then none else some (lastPubKey (k.chain a))
  opens : ∀ a pre b post, k.chain a = pre ++ b :: post →
    b.type = .multisigOpen ∨ b.pubKey ≠ [] → pre = []

theorem Book.Caches.keyed {k : Book} (h : k.Caches) : k.Keyed where
  keyset a ch ks hc hks := by
    rw [h.keyset, Book.chain_of_get hc, hks]
  pubKey a ch hc hne := by
    rw [h.pubKey, Book.chain_of_get hc, if_neg hne]
    exact Option.some_ne_none _

/-! ## Commits -/

/-- What the handler of `b` has established of the request that it commits in `s`; entries that are
`stale` are those whose amount it has not seen. -/
structure Commits (lib : Lib) (stale : Str → Prop) (s : State) (b : Block) (p : Prepared) : Prop where
  appended : Appended stale s.book b (s.committed p).book
  notOlder : NotOlder b (s.book.chain b.account)
  key : validatePubKeyDeclaration lib b = .ok ()
  block : p.commit.block = b
  account : p.commit.account = b.account
  frontier : p.commit.frontierHash = b.hash
  delegates : p.commit.deleteDelegation = false
  pubKey : p.commit.putAccountKey = b.pubKey
  keyset : p.commit.putKeyset = b.keyset
  declares : b.type = .multisigOpen ∨ b.type = .multisigUpdate → b.msKeyset ≠ none
  balance : p.prevBalance = s.mem.getAssetBalance b.account assetXE
  credit : ∀ d, p.commit.assetCredit = some d → d.amount = 0
  event : p.event = eventOf s.book.blocks (s.committed p).book.leases b
  attested : b.type = .leaseAccept → ∀ ev, p.event = some ev →
    ∃ a ∈ b.attestations, a.timestamp = ev.timestamp

theorem previous_of_pubKey {lib : Lib} {b : Block} (h : validatePubKeyDeclaration lib b = .ok ())
    (hb : b.pubKey ≠ []) : b.previous = zeroPrev := by
  unfold validatePubKeyDeclaration at h
  by_cases hs : b.signatures ≠ []
  · rw [if_pos hs, guardErr_eq_ok] at h
    exact absurd hb h
  · rw [if_neg hs] at h
    by_contra hp
    rw [if_neg hp, guardErr_eq_ok] at h
    exact h hb

theorem Commits.caches {lib : Lib} {stale : Str → Prop} {s : State} {b : Block} {p : Prepared}
    (h : Commits lib stale s b p) (hk : s.book.Wf) (hc : s.book.Caches) :
    (s.committed p).book.Caches := by
  have hchain := h.appended.chain
  have hks : (s.committed p).book.keysets =
      Table.putSome (fun _ => b.account) b.keyset s.book.keysets := by
    rw [committed_book, ← h.account, ← h.keyset]
    rfl
  have hkeys : (s.committed p).book.accountKeys =
      unlessEmpty b.pubKey (·.set b.account b.pubKey) s.book.accountKeys := by
    rw [committed_book, ← h.account, ← h.pubKey]
    rfl
  refine ⟨fun a => ?_, fun a => ?_, fun a pre x post he hx => ?_⟩
  · rw [hks, hchain]
    cases hb : b.keyset with
    | none =>
      rw [Table.putSome_none, hc.keyset]
      split_ifs
      · rw [lastKeyset_concat, hb]
        rfl
      · rfl
    | some ks =>
      rw [Table.putSome_some, Table.get_set]
      split_ifs
      · rw [lastKeyset_concat, hb]
        rfl
      · exact hc.keyset a
  · rw [hkeys, hchain]
    unfold unlessEmpty
    by_cases hp : b.pubKey = []
    · rw [if_pos hp, hc.pubKey]
      split_ifs <;> simp_all [lastPubKey_concat]
    · rw [if_neg hp, Table.get_set]
      split_ifs <;> simp_all [lastPubKey_concat, hc.pubKey]
  · rw [hchain] at he
    split_ifs at he with ha
    · rcases concat_eq_cases he with ⟨rfl, rfl, -⟩ | ⟨post', -, he'⟩
      · -- the new block opens its account
        subst ha
        rcases hx with hx | hx
        · have hent := h.appended.entry
          generalize (s.committed p).book.pending = pending at hent
          generalize (s.committed p).book.leases = leases at hent
          cases hent with
          | multisigOpen type unopened => exact unopened
          | send type | burn type | receive _ _ type | mint type | multisigUpdate type | lease type
          | leaseAccept _ _ _ type | leaseCancel _ _ _ type | leaseForceSettle _ _ _ _ type
          | leaseSettle _ _ type | leaseRenew _ _ _ type =>
            rw [hx] at type
            cases type
        · exact hk.nil_of_frontier (fun y hy => Book.On.of_mem hk hy)
            (h.appended.previous.symm.trans (previous_of_pubKey h.key hx))
      · exact hc.opens a pre x post' he' hx
    · exact hc.opens a pre x post he hx

/-! ## Undos -/

theorem Undoes.keyset {blocks : Table Str Block} {leases : Table Str Lease} {b : Block}
    {e : UndoEffect} (h : Undoes blocks leases b e) : b.type ≠ .multisigUpdate ∧
      e.deleteKeysetAccount = if b.type = .multisigOpen then b.account else [] := by
  cases h with
  | send type | receive type | lease type | leaseAccept _ type | leaseSettle _ type
  | leaseForceSettle _ type | leaseCancel _ type | leaseRenew _ _ type | multisigOpen type
  | burn type | mint type | genesis type | other _ type => simp [type]

theorem get_delNonempty {V : Type} {k : Str} (hk : k ≠ []) (c : Prop) [Decidable c] (t : Table Str V)
    (a : Str) : (delNonempty (if c then k else []) t).get a =
      if c ∧ a = k then none else t.get a := by
  by_cases hc : c
  · rw [if_pos hc, delNonempty_of_ne hk, Table.get_del]
    simp [hc]
  · rw [if_neg hc, delNonempty_nil]
    simp [hc]

theorem UndoOf.caches {s : State} {b : Block} {u : BlockUndo × MemUndo} (h : UndoOf s b u)
    (hk : s.book.Wf) (hc : s.book.Caches) (hb : b.account ≠ []) : (s.undone u).book.Caches := by
  obtain ⟨rest, hrest, hchain⟩ := (h.removed hk).chain_eq
  obtain ⟨rest', e, hget, type, effect⟩ := h
  obtain ⟨hupd, hdel⟩ := effect.keyset
  generalize hu : (undoRequest b.account b rest' e,
    undoMemory s.store.leases b.account b rest' b e) = u at hchain
  have hks : (s.undone u).book.keysets =
      delNonempty (if b.type = .multisigOpen then b.account else []) s.book.keysets := by
    rw [undone_book, ← hdel, ← hu]
    rfl
  have hkeys : (s.undone u).book.accountKeys =
      delNonempty (if b.pubKey ≠ [] then b.account else []) s.book.accountKeys := by
    rw [undone_book, ← hu]
    rfl
  have opening : b.type = .multisigOpen ∨ b.pubKey ≠ [] → rest = [] :=
    hc.opens b.account rest b [] hrest
  refine ⟨fun a => ?_, fun a => ?_, fun a pre x post he hx => ?_⟩
  · rw [hks, get_delNonempty hb, hchain]
    by_cases ha : a = b.account
    · subst ha
      rw [if_pos rfl, hc.keyset, hrest]
      by_cases ht : b.type = .multisigOpen
      · rw [if_pos ⟨ht, rfl⟩, opening (.inl ht)]
        rfl
      · rw [if_neg (fun h => ht h.1), lastKeyset_concat, Block.keyset,
          if_neg (fun h => h.elim ht hupd)]
        rfl
    · rw [if_neg ha, if_neg (fun h => ha h.2)]
      exact hc.keyset a
  · rw [hkeys, get_delNonempty hb, hchain]
    by_cases ha : a = b.account
    · subst ha
      rw [if_pos rfl, hc.pubKey, hrest]
      by_cases ht : b.pubKey ≠ []
      · rw [if_pos ⟨ht, rfl⟩, opening (.inr ht)]
        rfl
      · rw [if_neg (fun h => ht h.1), lastPubKey_concat, if_neg ht]
    · rw [if_neg ha, if_neg (fun h => ha h.2)]
      exact hc.pubKey a
  · rw [hchain] at he
    split_ifs at he with ha
    · subst ha
      exact hc.opens b.account pre x (post ++ [b]) (by rw [hrest, he]; simp) hx
    · exact hc.opens a pre x post he hx

/-! ## Credentials -/

/-- The block is signed by the keyset of its account, or by its key. -/
inductive Authorised (lib : Lib) (k : Book) (b : Block) : Prop
  | multisig (ks : Keyset) (signed : b.signatures ≠ [])
      (keyset : (if b.type = .multisigOpen then b.msKeyset else k.keysets.get b.account) = some ks)
      (valid : verifyKeyset lib b ks = .ok ())
  | single (key : Str) (unsigned : b.signatures = []) (keyset : k.keysets.get b.account = none)
      (declared : if b.previous = zeroPrev then key = b.pubKey
        else k.accountKeys.get b.account = some key)
      (valid : verifyBlockSignatureWith lib b key = .ok ())

theorem signingKeyset_ok {s s' : State} {b : Block} {ks : Keyset} (hc : s.book.Caches)
    (hm : b.type = .multisigOpen → b.msKeyset ≠ none)
    (h : (signingKeyset b).run s = some (.ok ks, s')) :
    (if b.type = .multisigOpen then b.msKeyset else s.book.keysets.get b.account) = some ks := by
  have missing : s.book.keysets.get b.account = none →
      (resolveMissingKeyset b.account).run s ≠ some (.ok ks, s') := by
    intro hn hrun
    unfold resolveMissingKeyset at hrun
    rw [run_getAccountChain_bind, run_orErr_bind_ok] at hrun
    obtain ⟨chain, hchain, hrun⟩ := hrun
    rw [run_orErr_bind_ok] at hrun
    obtain ⟨ks', hks', -⟩ := hrun
    have := hc.keyset b.account
    rw [hn, Book.chain_of_get (k := s.book) hchain, hks'] at this
    cases this
  unfold signingKeyset at h
  by_cases ht : b.type = .multisigOpen
  · rw [if_pos ht, run_pure_bind] at h
    rw [if_pos ht]
    cases hks : b.msKeyset with
    | none => exact absurd hks (hm ht)
    | some ks' =>
      simp only [hks] at h
      cases h
      rfl
  · rw [if_neg ht, run_getKeyset_bind] at h
    rw [if_neg ht]
    cases hks : s.mem.keysets.get b.account with
    | none =>
      simp only [hks] at h
      exact absurd h (missing hks)
    | some ks' =>
      simp only [hks] at h
      cases h
      exact hks

theorem getAccountKey_ok {s s' : State} {a key : Str} (hc : s.book.Caches)
    (h : (getAccountKey a).run s = some (.ok key, s')) (hk : key ≠ []) :
    s' = s ∧ s.book.accountKeys.get a = some key := by
  obtain rfl := still_getAccountKey hc.keyed a _ _ h
  refine ⟨rfl, ?_⟩
  unfold getAccountKey at h
  rw [run_readMem_bind] at h
  cases hcache : s'.mem.accountKeys.get a with
  | some pub =>
    simp only [hcache] at h
    cases h
    exact hcache
  | none =>
    -- the chain declares no key either, so that the answer would be empty
    have hnone := hc.pubKey a
    rw [show s'.book.accountKeys.get a = none from hcache] at hnone
    have hempty : lastPubKey (s'.book.chain a) = [] := by
      by_contra hne
      rw [if_neg hne] at hnone
      cases hnone
    simp only [hcache] at h
    rw [run_getAccountChain_bind] at h
    cases hchain : s'.store.chains.get a with
    | none =>
      simp only [hchain] at h
      cases h
      exact absurd rfl hk
    | some chain =>
      simp only [hchain] at h
      rw [Book.chain_of_get (k := s'.book) hchain] at hempty
      rw [if_pos hempty] at h
      cases h
      exact absurd rfl hk

theorem verifyBlockCredential_ok {lib : Lib} {s s' : State} {b : Block} (hc : s.book.Caches)
    (hm : b.type = .multisigOpen → b.msKeyset ≠ none)
    (h : (verifyBlockCredential lib b).run s = some (.ok (), s')) : Authorised lib s.book b := by
  unfold verifyBlockCredential at h
  rw [run_liftErr_bind_ok] at h
  obtain ⟨_, -, h⟩ := h
  by_cases hs : b.signatures ≠ []
  · rw [if_pos hs] at h
    obtain ⟨ks, s₁, hks, hv⟩ := run_bind_eq_ok.mp h
    refine .multisig ks hs (signingKeyset_ok hc hm hks) ?_
    cases hval : verifyKeyset lib b ks with
    | ok u => rfl
    | error e =>
      rw [hval] at hv
      cases hv
  · rw [if_neg hs, run_getKeyset_bind, run_failIf_bind_ok, not_not] at h
    obtain ⟨hnone, h⟩ := h
    by_cases hp : b.previous = zeroPrev
    · rw [if_pos hp, run_pure_bind, run_liftErr_ok] at h
      exact .single b.pubKey (not_not.mp hs) hnone (by rw [if_pos hp]) h.1
    · rw [if_neg hp] at h
      obtain ⟨key, s₁, hkey, h⟩ := run_bind_eq_ok.mp h
      rw [run_failIf_bind_ok] at h
      obtain ⟨hne, h⟩ := h
      rw [run_pure_bind, run_liftErr_ok] at h
      obtain ⟨-, hdecl⟩ := getAccountKey_ok hc hkey hne
      exact .single key (not_not.mp hs) hnone (by rw [if_neg hp]; exact hdecl) h.1

/-- **Who has signed a block that is taken up.** -/
theorem dispatch_authorised {c : Ctx} {s s' : State} {b : Block} {skip : Bool} (hc : s.book.Caches)
    (hm : b.type = .multisigOpen → b.msKeyset ≠ none)
    (h : (dispatchValidateAndAdd c b skip).run s = some (.ok (), s')) :
    Authorised c.lib s.book b := by
  unfold dispatchValidateAndAdd at h
  obtain ⟨_, s₁, hcred, -⟩ := run_bind_eq_ok.mp h
  exact verifyBlockCredential_ok hc hm hcred

end Xe
