import XeLattice.Inv.Moves

/-!
# Promotions

The undos of a promotion are built one after another, each on the chain that the ones before it
leave (`Cascade`, `buildCascade_ok`).  While the promotion runs, the handlers' reads go through the
overlay that these undos amount to; they are the reads of the book that the undos will leave, except
that a renewal taken off does not show in the amount of its lease's entry.

* **`Cascade.unwinds`**: the undos take the planned blocks off, one by one;
* **`Cascade.shows`**: what a handler reads during the promotion.
-/

set_option autoImplicit false

namespace Xe

open Prog

/-! ## Building -/

/-- The undos of a plan, built over some chains, blocks and leases; balances are read with the
leases `L`. -/
inductive Cascade (k : Book) (L : Table Str Lease) (w : Str) :
    List (Str × Block) → CascadeBuild → List (BlockUndo × MemUndo) → Prop
  | nil : Cascade k L w [] (.new w) []
  | snoc {steps : List (Str × Block)} {cb : CascadeBuild} {us : List (BlockUndo × MemUndo)}
      {account : Str} {b last : Block} {rest : AccountChain} {e : UndoEffect}
      (before : Cascade k L w steps cb us)
      (chain : (cb.chains.get account).or (k.chains.get account) = some (rest ++ [last]))
      (hash : last.hash = b.hash) (effect : Undoes k.blocks k.leases b e) :
      Cascade k L w (steps ++ [(account, b)])
        (cb.addUndo (undoRequest account b rest e) (undoMemory L account b rest last e))
        (us ++ [(undoRequest account b rest e, undoMemory L account b rest last e)])

theorem readOnly_buildCascade (steps : List (Str × Block)) (snapshots : Table Str AccountChain)
    (cb : CascadeBuild) : (buildCascade steps snapshots cb).ReadOnly := by
  induction steps generalizing snapshots cb with
  | nil => exact each_pure _
  | cons step steps ih =>
    obtain ⟨account, b⟩ := step
    have tail : ∀ snap,
        (wrapErr (str "SwapBlock: build undo for " ++ shortHash b.hash ++ str ": ")
          (buildBlockUndo account b (some snap)) >>= fun x =>
            buildCascade steps (snapshots.set account x.1.chain) (cb.addUndo x.1 x.2)).ReadOnly :=
      fun snap => each_bind (each_handle (readOnly_buildBlockUndo _ _ _) fun _ => each_done _)
        fun x => ih _ _
    unfold buildCascade
    cases snapshots.get account with
    | some snap => exact tail snap
    | none =>
      exact each_bind (readOnly_rd _) fun _ =>
        each_bind (each_orFail _ _) fun snap => tail snap

/-- **The undos of a plan** are built over the book that the promotion meets. -/
theorem buildCascade_ok {steps : List (Str × Block)} {cb cb' : CascadeBuild} {s s' : State}
    (h : (buildCascade steps cb.chains cb).run s = some (.ok cb', s')) {done : List (Str × Block)}
    {us : List (BlockUndo × MemUndo)} {w : Str}
    (hcb : Cascade s.book s.store.leases w done cb us) :
    ∃ us', Cascade s.book s.store.leases w (done ++ steps) cb' us' := by
  induction steps generalizing cb done us with
  | nil =>
    cases h
    exact ⟨us, by rwa [List.append_nil]⟩
  | cons step steps ih =>
    obtain ⟨account, b⟩ := step
    have tail : ∀ snap, (cb.chains.get account).or (s.store.chains.get account) = some snap →
        (wrapErr (str "SwapBlock: build undo for " ++ shortHash b.hash ++ str ": ")
          (buildBlockUndo account b (some snap)) >>= fun x =>
            buildCascade steps (cb.chains.set account x.1.chain) (cb.addUndo x.1 x.2)).run s =
              some (.ok cb', s') →
        ∃ us', Cascade s.book s.store.leases w (done ++ (account, b) :: steps) cb' us' := by
      intro snap hsnap hrun
      obtain ⟨x, s₁, hx, hrest⟩ := run_bind_eq_ok.mp hrun
      rw [run_wrapErr, Option.map_eq_some_iff] at hx
      obtain ⟨⟨r, s₂⟩, hb, hr⟩ := hx
      cases r with
      | error e => cases hr
      | ok y =>
        cases hr
        obtain ⟨rfl, rest, last, e, hc, hh, hu, rfl⟩ := buildBlockUndo_ok hb
        cases hc
        have hnext := Cascade.snoc hcb hsnap hh hu
        obtain ⟨us', hus⟩ := ih hrest hnext
        refine ⟨us', ?_⟩
        rwa [List.append_assoc, List.singleton_append] at hus
    unfold buildCascade at h
    cases hc : cb.chains.get account with
    | some snap =>
      simp only [hc] at h
      exact tail snap (by rw [hc]; rfl) h
    | none =>
      simp only [hc] at h
      rw [run_getAccountChain_bind, run_orErr_bind_ok] at h
      obtain ⟨snap, hsnap, h⟩ := h
      exact tail snap (by rw [hc, hsnap]; rfl) h

/-! ## The overlay -/

/-- The book after several undos. -/
def Book.undoAll (k : Book) (us : List (BlockUndo × MemUndo)) : Book :=
  us.foldl (fun k u => k.undo u) k

theorem Book.undoAll_concat (k : Book) (us : List (BlockUndo × MemUndo)) (u : BlockUndo × MemUndo) :
    k.undoAll (us ++ [u]) = (k.undoAll us).undo u := by
  unfold Book.undoAll
  rw [List.foldl_append]
  rfl

/-- An entry as the overlay of a cascade shows it. -/
def overlaid {V : Type} (put : Table Str V) (del : Table Str Unit) (base : Option V) (h : Str) :
    Option V :=
  match put.get h with
  | some v => some v
  | none => if (del.get h).isSome then none else base

theorem overlayEntry_getD {V : Type} (put : CascadeBuild → Table Str V)
    (del : CascadeBuild → Table Str Unit) (cb : CascadeBuild) (h : Str) (base : Option V) :
    (overlayEntry put del (some cb) h).getD base = overlaid (put cb) (del cb) base h := by
  unfold overlayEntry overlaid
  simp only
  cases (put cb).get h with
  | some v => rfl
  | none =>
    dsimp only
    split_ifs <;> rfl

theorem overlaid_set {V : Type} (put : Table Str V) (del : Table Str Unit) (base : Option V)
    (x : Str) (v : V) (h : Str) :
    overlaid (put.set x v) (del.del x) base h = if h = x then some v else overlaid put del base h := by
  unfold overlaid
  rw [Table.get_set, Table.get_del]
  split_ifs with hx <;> rfl

theorem overlaid_del {V : Type} (put : Table Str V) (del : Table Str Unit) (base : Option V)
    (x : Str) (h : Str) :
    overlaid (put.del x) (del.set x ()) base h = if h = x then none else overlaid put del base h := by
  unfold overlaid
  rw [Table.get_set, Table.get_del]
  by_cases hx : h = x
  · simp only [hx, if_true, Option.isSome_some]
  · simp only [hx, if_false]

theorem Undoes.add_or_delete {blocks : Table Str Block} {leases : Table Str Lease} {b : Block}
    {e : UndoEffect} (he : Undoes blocks leases b e) :
    e.addPending = none ∨ e.deletePendingID = [] := by
  cases he <;> first | exact Or.inl rfl | exact Or.inr rfl

section Overlay

variable {k : Book} {L : Table Str Lease} {w : Str} {steps : List (Str × Block)}
  {cb : CascadeBuild} {us : List (BlockUndo × MemUndo)}

theorem Cascade.winnerHash (h : Cascade k L w steps cb us) : cb.winnerHash = w := by
  induction h with
  | nil => rfl
  | snoc _ _ _ _ ih => exact ih

theorem Cascade.undos (h : Cascade k L w steps cb us) : cb.undos = us.map Prod.fst := by
  induction h with
  | nil => rfl
  | snoc _ _ _ _ ih =>
    rw [List.map_append, ← ih]
    rfl

theorem Cascade.memApplies (h : Cascade k L w steps cb us) : cb.memApplies = us.map Prod.snd := by
  induction h with
  | nil => rfl
  | snoc _ _ _ _ ih =>
    rw [List.map_append, ← ih]
    rfl

theorem Cascade.blocks (k₁ : Book) : (k₁.undoAll us).blocks = k₁.blocks := by
  induction us using List.reverseRecOn with
  | nil => rfl
  | append_singleton us u ih =>
    rw [Book.undoAll_concat]
    exact ih

theorem get_delNonempty_overlaid {V : Type} {t put : Table Str V} {del : Table Str Unit}
    {base : Option V} {x : Str} (h : t.get x = overlaid put del base x) (d : Str) :
    (delNonempty d t).get x = overlaid (if d = [] then put else put.del d)
      (if d = [] then del else del.set d ()) base x := by
  by_cases hd : d = []
  · rw [if_pos hd, if_pos hd, hd, delNonempty_nil, h]
  · rw [if_neg hd, if_neg hd, delNonempty_of_ne hd, Table.get_del, overlaid_del, h]

theorem Cascade.leases_get (h : Cascade k L w steps cb us) (k₁ : Book) (x : Str) :
    (k₁.undoAll us).leases.get x = overlaid cb.restoreLease cb.deleteLease (k₁.leases.get x) x := by
  induction h with
  | nil => rfl
  | @snoc steps cb us account b last rest e before chain hash effect ih =>
    rw [Book.undoAll_concat]
    have hl : ((k₁.undoAll us).undo (undoRequest account b rest e,
        undoMemory L account b rest last e)).leases =
        delNonempty e.deleteLeaseHash
          (Table.putSome (·.leaseHash) e.restoreLease (k₁.undoAll us).leases) := rfl
    rw [hl]
    cases hr : e.restoreLease with
    | none =>
      simp only [CascadeBuild.addUndo, undoRequest, hr]
      exact get_delNonempty_overlaid ih _
    | some l =>
      have hput : (Table.putSome (·.leaseHash) (some l) (k₁.undoAll us).leases).get x =
          overlaid (cb.restoreLease.set l.leaseHash l) (cb.deleteLease.del l.leaseHash)
            (k₁.leases.get x) x := by
        rw [Table.putSome_some, Table.get_set, overlaid_set, ih]
      simp only [CascadeBuild.addUndo, undoRequest, hr]
      exact get_delNonempty_overlaid hput _

theorem Cascade.chain_eq (h : Cascade k L w steps cb us) (k₁ : Book) (a : Str) :
    (k₁.undoAll us).chain a = (cb.chains.get a).getD (k₁.chain a) := by
  induction h with
  | nil => rfl
  | @snoc steps cb us account b last rest e before chain hash effect ih =>
    rw [Book.undoAll_concat]
    have hset : (cb.addUndo (undoRequest account b rest e)
        (undoMemory L account b rest last e)).chains = cb.chains.set account rest := rfl
    have hc : ((k₁.undoAll us).undo (undoRequest account b rest e,
        undoMemory L account b rest last e)).chains =
        if rest = [] then (k₁.undoAll us).chains.del account
        else (k₁.undoAll us).chains.set account rest := by
      cases rest <;> rfl
    rw [hset, Table.get_set]
    unfold Book.chain
    rw [hc]
    by_cases ha : a = account
    · by_cases hr : rest = []
      · rw [if_pos hr, if_pos ha, ha, Table.get_del_self, hr]
        rfl
      · rw [if_neg hr, if_pos ha, ha, Table.get_set_self]
        rfl
    · rw [if_neg ha]
      by_cases hr : rest = []
      · rw [if_pos hr, Table.get_del_of_ne _ ha]
        exact ih
      · rw [if_neg hr, Table.get_set_of_ne _ ha]
        exact ih

theorem Undoes.reduce {blocks : Table Str Block} {leases : Table Str Lease} {b : Block}
    {e : UndoEffect} (he : Undoes blocks leases b e) :
    e.reducePendingID = [] ∨ b.type = .leaseRenew ∧ e.reducePendingID = b.source := by
  cases he with
  | leaseRenew l l' type => exact Or.inr ⟨type, rfl⟩
  | send | receive | lease | leaseAccept | leaseSettle | leaseForceSettle | leaseCancel
  | multisigOpen | burn | mint | genesis | other => exact Or.inl rfl

/-- An entry without its amount. -/
def PendingSend.terms (ps : PendingSend) : Str × Str :=
  (ps.destination, ps.asset)

theorem addAmount_get_of_ne {i x : Str} (h : i ≠ x) (d : UInt64) (t : Table Str PendingSend) :
    (addAmount i d t).get x = t.get x := by
  unfold addAmount unlessEmpty
  split_ifs
  · rfl
  · exact (Table.get_modify _ _ _ _).trans (if_neg (fun hx => h hx.symm))

theorem addAmount_terms (i x : Str) (d : UInt64) (t : Table Str PendingSend) :
    ((addAmount i d t).get x).map PendingSend.terms = (t.get x).map PendingSend.terms := by
  by_cases h : i = x
  · subst h
    unfold addAmount unlessEmpty
    split_ifs
    · rfl
    · dsimp only
      rw [Table.get_modify, if_pos rfl, Option.map_map]
      rfl
  · rw [addAmount_get_of_ne h]

theorem pending_step {t : Table Str PendingSend} {cb : CascadeBuild} {u : BlockUndo} {m : MemUndo}
    {base : Option PendingSend} {x : Str} {α : Type} (f : PendingSend → α)
    (hu : u.addPending = none ∨ u.deletePendingID = [])
    (ht : (t.get x).map f = (overlaid cb.addPending cb.delPending base x).map f) :
    ((Table.putSome (·.sendHash) u.addPending (delNonempty u.deletePendingID t)).get x).map f =
      (overlaid (cb.addUndo u m).addPending (cb.addUndo u m).delPending base x).map f := by
  rcases hu with hu | hu
  · by_cases hd : u.deletePendingID = []
    · simp only [CascadeBuild.addUndo, hu, hd, if_true, Table.putSome_none, delNonempty_nil]
      exact ht
    · simp only [CascadeBuild.addUndo, hu, hd, if_false, Table.putSome_none, delNonempty_of_ne hd]
      rw [Table.get_del, overlaid_del]
      split_ifs
      · rfl
      · exact ht
  · cases ha : u.addPending with
    | none =>
      simp only [CascadeBuild.addUndo, hu, ha, if_true, Table.putSome_none, delNonempty_nil]
      exact ht
    | some ps =>
      simp only [CascadeBuild.addUndo, hu, ha, if_true, Table.putSome_some, delNonempty_nil]
      rw [Table.get_set, overlaid_set]
      split_ifs
      · rfl
      · exact ht

/-- The entries that the overlay shows are those that the undos leave, but for the amount that a
renewal among them takes back. -/
theorem Cascade.pending_terms (h : Cascade k L w steps cb us) (k₁ : Book) (x : Str) :
    ((k₁.undoAll us).pending.get x).map PendingSend.terms =
      (overlaid cb.addPending cb.delPending (k₁.pending.get x) x).map PendingSend.terms := by
  induction h with
  | nil => rfl
  | @snoc steps cb us account b last rest e before chain hash effect ih =>
    rw [Book.undoAll_concat]
    exact pending_step _ effect.add_or_delete ((addAmount_terms _ _ _ _).trans ih)

theorem Cascade.pending_get (h : Cascade k L w steps cb us) (k₁ : Book) {x : Str}
    (hx : ∀ a b, (a, b) ∈ steps → b.type = .leaseRenew → b.source ≠ x) :
    (k₁.undoAll us).pending.get x = overlaid cb.addPending cb.delPending (k₁.pending.get x) x := by
  induction h with
  | nil => rfl
  | @snoc steps cb us account b last rest e before chain hash effect ih =>
    have ih := ih fun a b' hb => hx a b' (List.mem_append_left _ hb)
    have hadd : (addAmount e.reducePendingID (-e.reducePendingAmount)
        (k₁.undoAll us).pending).get x = (k₁.undoAll us).pending.get x := by
      rcases effect.reduce with hr | ⟨ht, hr⟩
      · rw [hr, addAmount_nil]
      · rw [hr]
        exact addAmount_get_of_ne (hx account b (by simp) ht) _ _
    have hstep := pending_step (u := undoRequest account b rest e)
      (m := undoMemory L account b rest last e) (fun ps => ps) effect.add_or_delete
      (congrArg (Option.map fun ps => ps) (hadd.trans ih))
    rw [Option.map_id', Option.map_id'] at hstep
    rw [Book.undoAll_concat]
    exact hstep

end Overlay

/-! ## The blocks of a plan come off -/

/-- What a plan guarantees: its blocks are on their chains, and all but the last are of the types
that a cascade can reverse. -/
structure PlanOk (k : Book) (steps : List (Str × Block)) : Prop where
  on : ∀ a b, (a, b) ∈ steps → k.On b ∧ b.account = a ∧ b.type ≠ .genesis
  cascadable : ∀ a b, (a, b) ∈ steps.dropLast → cascadable b.type = true

theorem PlanOk.init {k : Book} {steps : List (Str × Block)} {step : Str × Block}
    (h : PlanOk k (steps ++ [step])) :
    PlanOk k steps ∧ ∀ a b, (a, b) ∈ steps → Xe.cascadable b.type = true := by
  have hc : ∀ a b, (a, b) ∈ steps → Xe.cascadable b.type = true := by
    intro a b hb
    exact h.cascadable a b (by rwa [List.dropLast_concat])
  exact ⟨⟨fun a b hb => h.on a b (List.mem_append_left _ hb),
    fun a b hb => hc a b (List.mem_of_mem_dropLast hb)⟩, hc⟩

theorem Undoes.leases_of_cascadable {blocks : Table Str Block} {leases : Table Str Lease} {b : Block}
    {e : UndoEffect} (he : Undoes blocks leases b e) (hb : cascadable b.type = true) :
    e.restoreLease = none ∧ e.deleteLeaseHash = [] := by
  cases he with
  | send | receive | multisigOpen | burn | mint | genesis | other => exact ⟨rfl, rfl⟩
  | lease type | leaseAccept _ type | leaseSettle _ type | leaseForceSettle _ type
  | leaseCancel _ type | leaseRenew _ _ type =>
    rw [type] at hb
    cases hb

section Remove

variable {k : Book} {L : Table Str Lease} {w : Str} {steps : List (Str × Block)}
  {cb : CascadeBuild} {us : List (BlockUndo × MemUndo)}

theorem Cascade.leases_eq (h : Cascade k L w steps cb us)
    (hc : ∀ a b, (a, b) ∈ steps → cascadable b.type = true) (k₁ : Book) :
    (k₁.undoAll us).leases = k₁.leases := by
  induction h with
  | nil => rfl
  | @snoc steps cb us account b last rest e before chain hash effect ih =>
    obtain ⟨h₁, h₂⟩ := effect.leases_of_cascadable (hc account b (by simp))
    have hl : ((k₁.undoAll us).undo (undoRequest account b rest e,
        undoMemory L account b rest last e)).leases =
        delNonempty e.deleteLeaseHash
          (Table.putSome (·.leaseHash) e.restoreLease (k₁.undoAll us).leases) := rfl
    rw [Book.undoAll_concat, hl, h₁, h₂, delNonempty_nil, Table.putSome_none]
    exact ih fun a b' hb => hc a b' (List.mem_append_left _ hb)

theorem Cascade.chain_of_snoc (h : Cascade k L w steps cb us) {account : Str} {ch : AccountChain}
    (hc : (cb.chains.get account).or (k.chains.get account) = some ch) :
    (k.undoAll us).chain account = ch := by
  rw [h.chain_eq k account]
  cases hg : cb.chains.get account with
  | some ch' =>
    rw [hg] at hc
    cases hc
    rfl
  | none =>
    rw [hg] at hc
    exact Book.chain_of_get hc

/-- **The undos take the planned blocks off, one by one.** -/
theorem Cascade.unwinds (hk : k.Wf) (hL : Unstaked L) (h : Cascade k L w steps cb us)
    (hp : PlanOk k steps) : Unwinds k (steps.map Prod.snd) (k.undoAll us) := by
  induction h with
  | nil => exact .nil
  | @snoc steps cb us account b last rest e before chain hash effect ih =>
    obtain ⟨hinit, hcasc⟩ := hp.init
    have hunw := ih hinit
    obtain ⟨hwf, hon⟩ := hunw.wf hk
    obtain ⟨honb, hacc, hgen⟩ := hp.on account b (by simp)
    have hch : (k.undoAll us).chain account = rest ++ [last] := before.chain_of_snoc chain
    have hlast : last = b := by
      have hl : (k.undoAll us).On last := Book.On.of_mem hwf (by rw [hch]; simp)
      exact Book.On.eq_of_hash hk ((hon last).mp hl).1 honb hash
    subst hlast
    subst hacc
    have hundo : Undoes (k.undoAll us).blocks (k.undoAll us).leases last e := by
      rw [Cascade.blocks, before.leases_eq hcasc]
      exact effect
    rw [Book.undoAll_concat, List.map_append]
    exact .snoc hunw (removed_of_undoes hwf hgen hch hL hundo)

end Remove

/-! ## What a handler reads -/

/-- The entries whose amount a plan leaves stale: those that a renewal among its blocks tops up. -/
def staleIn (steps : List (Str × Block)) (h : Str) : Prop :=
  ∃ a b, (a, b) ∈ steps ∧ b.type = .leaseRenew ∧ b.source = h

/-- **During a promotion a handler reads the book that the undos will leave.** -/
theorem Cascade.shows {k : Book} {L : Table Str Lease} {w : Str} {steps : List (Str × Block)}
    {cb : CascadeBuild} {us : List (BlockUndo × MemUndo)} (h : Cascade k L w steps cb us) {s : State}
    (hcb : s.mem.activeCascade = some cb) (hk : s.book.Wf) (hk' : (s.book.undoAll us).Wf) :
    Shows s.reads (s.book.undoAll us) (staleIn steps) where
  blocks := (Cascade.blocks s.book).symm
  chain a := by
    rw [h.chain_eq s.book a]
    have hread : s.reads.chainOf a = (cb.chains.get a).or (s.store.chains.get a) := by
      unfold State.reads State.chainOf State.overlaidChain
      rw [hcb]
      rfl
    rw [hread]
    cases cb.chains.get a <;> rfl
  lease x := by
    rw [h.leases_get s.book x, ← overlayEntry_getD (·.restoreLease) (·.deleteLease)]
    unfold State.reads State.leaseOf
    rw [hcb]
    rfl
  balance a x hx := by
    have hor : assetOrXE x = x := if_neg hx
    rw [Book.bal, hk'.balance, h.chain_eq s.book a]
    unfold State.reads State.balanceOf State.overlaidChain
    rw [hcb]
    simp only [Option.bind_some, hor]
    cases cb.chains.get a with
    | none => exact hk.balance a x
    | some ch =>
      dsimp only [Option.getD_some]
      by_cases hxu : x = assetXUSD
      · rw [if_pos hxu, hxu]
        exact Unstaked.xusdBalanceOnChain hk.unstaked ch
      · rw [if_neg hxu]
  pending x ps hps := by
    have hread : s.reads.pendingOf x =
        overlaid cb.addPending cb.delPending (s.book.pending.get x) x := by
      rw [← overlayEntry_getD (·.addPending) (·.delPending)]
      unfold State.reads State.pendingOf
      rw [hcb]
      rfl
    rw [hread] at hps
    have hterms := h.pending_terms s.book x
    rw [hps, Option.map_some, Option.map_eq_some_iff] at hterms
    obtain ⟨ps', hps', ht⟩ := hterms
    simp only [PendingSend.terms, Prod.mk.injEq] at ht
    obtain ⟨hd, ha⟩ := ht
    refine ⟨ps', hps', hd, ha, fun hst => ?_⟩
    have hget := h.pending_get s.book (x := x) fun a b hb htype hsrc => hst ⟨a, b, hb, htype, hsrc⟩
    rw [hps', hps] at hget
    exact Option.some.inj hget

theorem State.quiet.shows {s : State} (hs : s.quiet) :
    Shows s.reads s.book (fun _ => False) where
  blocks := rfl
  chain a := congrArg (Option.getD · []) (hs.chainOf a)
  lease h := hs.leaseOf h
  balance a x _ := hs.balanceOf a x
  pending h ps hps := ⟨ps, (hs.pendingOf h).symm.trans hps, rfl, rfl, fun _ => rfl⟩

end Xe
