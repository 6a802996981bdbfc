import XeLattice.Inv.Plans

/-!
# A promotion is its undos and then its winner

The transaction of a promotion writes the store for all of its blocks and only then moves the
memory.  The state it leaves is nevertheless the one that physically taking the planned blocks off,
one after another, and then committing the winner would leave: the two sides of a write do not look
at each other, and the reputation records are the only thing both of them touch.

* **`Cascade.undone`**: the undos of a promotion, each as it would be built where it is applied;
* **`Cascade.promoted`**: the state that the winner of a promotion leaves.
-/

set_option autoImplicit false

namespace Xe

open Prog

/-! ## Changes that do not look at reputation -/

/-- The change neither reads nor moves the reputation records. -/
structure Blind (g : State → State) : Prop where
  comm : ∀ s r r', g (s.withReputation r r') = (g s).withReputation r r'
  mem : ∀ s, (g s).mem.reputation = s.mem.reputation
  store : ∀ s, (g s).store.reputation = s.store.reputation

namespace Blind

variable {g : State → State}

theorem put (hg : Blind g) (s : State) (a : Str) (agg : ReputationAggregate) :
    (g s).putReputation a agg = g (s.putReputation a agg) := by
  change (g s).withReputation ((g s).mem.reputation.set a agg) ((g s).store.reputation.set a agg) = _
  rw [hg.mem, hg.store]
  exact (hg.comm s _ _).symm

theorem delete (hg : Blind g) (s : State) (a : Str) :
    (g s).deleteReputation a = g (s.deleteReputation a) := by
  change (g s).withReputation ((g s).mem.reputation.del a) ((g s).store.reputation.del a) = _
  rw [hg.mem, hg.store]
  exact (hg.comm s _ _).symm

theorem foldl {f : State → Str → State} (hf : ∀ s a, f (g s) a = g (f s a)) (l : List Str)
    (s : State) : l.foldl f (g s) = g (l.foldl f s) := by
  induction l generalizing s with
  | nil => rfl
  | cons a l ih => rw [List.foldl_cons, List.foldl_cons, hf, ih]

theorem apply (hg : Blind g) (ev : ReputationEvent) (s : State) :
    (g s).applyReputation ev = g (s.applyReputation ev) := by
  refine foldl (fun s a => ?_) _ s
  rw [State.applyReputationTo, State.applyReputationTo, hg.mem]
  exact hg.put s a _

theorem revert (hg : Blind g) (ev : ReputationEvent) (s : State) :
    (g s).revertReputation ev = g (s.revertReputation ev) := by
  refine foldl (fun s a => ?_) _ s
  rw [State.revertReputationOf, State.revertReputationOf, hg.mem]
  cases s.mem.reputation.get a with
  | none => rfl
  | some agg =>
    dsimp only
    split_ifs
    · exact hg.delete s a
    · exact hg.put s a _

end Blind

theorem onSome_comm {α : Type} {g : State → State} {f : α → State → State}
    (hf : ∀ a s, f a (g s) = g (f a s)) (o : Option α) (s : State) :
    onSome f o (g s) = g (onSome f o s) := by
  cases o with
  | none => rfl
  | some a => exact hf a s

/-- A change of the store. -/
def State.mapStore (f : Store → Store) (s : State) : State :=
  { s with store := f s.store }

/-- A change of the memory. -/
def State.mapMem (f : Memory → Memory) (s : State) : State :=
  { s with mem := f s.mem }

/-- The memory with another promotion running. -/
def Memory.withCascade (m : Memory) (A : Option CascadeBuild) : Memory :=
  { m with activeCascade := A }

/-- The state with other locks and another promotion running. -/
def State.dress (s : State) (L : Lock → Option ℕ) (A : Option CascadeBuild) : State :=
  { s with locks := L, mem := s.mem.withCascade A }

theorem blind_dress (L : Lock → Option ℕ) (A : Option CascadeBuild) :
    Blind (fun s => s.dress L A) :=
  ⟨fun _ _ _ => rfl, fun _ => rfl, fun _ => rfl⟩

/-- A change of the store that does not look at its reputation records. -/
structure Store.Blind (f : Store → Store) : Prop where
  comm : ∀ st r, f { st with reputation := r } = { f st with reputation := r }
  same : ∀ st, (f st).reputation = st.reputation

theorem Store.Blind.state {f : Store → Store} (hf : Store.Blind f) : Xe.Blind (State.mapStore f) where
  comm s r r' := by
    have h := hf.comm s.store r'
    unfold State.mapStore State.withReputation
    rw [h]
  mem _ := rfl
  store s := hf.same s.store

theorem Store.blind_takeBlock (u : BlockUndo) : Store.Blind (fun st => st.takeBlock u) := by
  constructor
  · intro st r
    unfold Store.takeBlock
    split_ifs <;> rfl
  · intro st
    unfold Store.takeBlock
    split_ifs <;> rfl

theorem Store.blind_afterUndo (u : BlockUndo) : Store.Blind (fun st => st.afterUndo u) where
  comm st r := by
    have h := (Store.blind_takeBlock u).comm st r
    unfold Store.afterUndo
    rw [h]
    rfl
  same st := (Store.blind_takeBlock u).same st

theorem Store.blind_foldl_afterUndo (us : List BlockUndo) :
    Store.Blind (fun st => us.foldl (fun st u => st.afterUndo u) st) := by
  induction us with
  | nil => exact ⟨fun _ _ => rfl, fun _ => rfl⟩
  | cons u us ih =>
    constructor
    · intro st r
      rw [List.foldl_cons, List.foldl_cons, (Store.blind_afterUndo u).comm]
      exact ih.comm _ r
    · intro st
      rw [List.foldl_cons]
      exact (ih.same _).trans ((Store.blind_afterUndo u).same st)

theorem Store.blind_afterCommit (c : BlockCommit) : Store.Blind (fun st => st.afterCommit c) :=
  ⟨fun _ _ => rfl, fun _ => rfl⟩

/-! ## Undos and commits beside other changes -/

theorem applied_comm {g : State → State} (hg : Blind g) (u : MemUndo)
    (hm : ∀ s, State.mapMem u.memAfter (g s) = g (State.mapMem u.memAfter s)) (s : State) :
    u.applied (g s) = g (u.applied s) := by
  change onSome State.revertReputation u.repRevert (State.mapMem u.memAfter (g s)) = _
  rw [hm]
  exact onSome_comm (fun ev s => hg.revert ev s) _ _

theorem applied_mapStore {f : Store → Store} (hf : Store.Blind f) (u : MemUndo) (s : State) :
    u.applied (s.mapStore f) = (u.applied s).mapStore f :=
  applied_comm hf.state u (fun _ => rfl) s

theorem unlessEmpty_comm {α : Type} (k : Str) {f g : α → α} (h : ∀ a, f (g a) = g (f a)) (a : α) :
    unlessEmpty k f (g a) = g (unlessEmpty k f a) := by
  unfold unlessEmpty
  split_ifs
  · rfl
  · exact h a

/-- The balances that an undo leaves, apart from the stake it takes back. -/
def MemUndo.dropBalance (u : MemUndo) (m : Memory) : Memory :=
  if u.deleteAccount then m.deleteAccountBalances u.account
  else m.setAssetBalance u.account u.asset u.parentBal

theorem memAfter_eq (u : MemUndo) (m : Memory) :
    u.memAfter m = Memory.restoreDelegation u (onSome Memory.subAssetBalance u.assetDebit
      (u.dropBalance (unlessEmpty u.deleteAccountKeyAccount
        (fun m : Memory => { m with accountKeys := m.accountKeys.del u.deleteAccountKeyAccount })
        (unlessEmpty u.deleteKeysetAccount
          (fun m : Memory => { m with keysets := m.keysets.del u.deleteKeysetAccount }) m)))) := by
  unfold MemUndo.memAfter
  cases u.assetDebit <;> rfl

theorem memAfter_withCascade (u : MemUndo) (m : Memory) (A : Option CascadeBuild) :
    u.memAfter (m.withCascade A) = (u.memAfter m).withCascade A := by
  have hkeys : ∀ (k : Str) (f : Memory → Memory), (∀ m, f (m.withCascade A) = (f m).withCascade A) →
      ∀ m, unlessEmpty k f (m.withCascade A) = (unlessEmpty k f m).withCascade A :=
    fun k f hf m => unlessEmpty_comm k (g := fun m => m.withCascade A) hf m
  have hbal : ∀ m : Memory, u.dropBalance (m.withCascade A) = (u.dropBalance m).withCascade A := by
    intro m
    unfold MemUndo.dropBalance
    split_ifs <;> rfl
  have hdebit : ∀ m : Memory, onSome Memory.subAssetBalance u.assetDebit (m.withCascade A) =
      (onSome Memory.subAssetBalance u.assetDebit m).withCascade A := by
    intro m
    cases u.assetDebit with
    | none => rfl
    | some d =>
      simp only [onSome, subAssetBalance_eq]
      rfl
  have hdel : ∀ m : Memory, Memory.restoreDelegation u (m.withCascade A) =
      (m.restoreDelegation u).withCascade A := by
    intro m
    have hrep : (m.withCascade A).repOf u.account = m.repOf u.account := rfl
    have hw : (m.withCascade A).weights = m.weights := rfl
    unfold Memory.restoreDelegation
    dsimp only
    rw [hrep, hw]
    split_ifs <;> rfl
  rw [memAfter_eq, memAfter_eq, hkeys _ _ (fun _ => rfl), hkeys _ _ (fun _ => rfl), hbal, hdebit,
    hdel]

/-- The undo of a block looks neither at the locks nor at the promotion that is running. -/
theorem undone_dress (s : State) (u : BlockUndo × MemUndo) (L : Lock → Option ℕ)
    (A : Option CascadeBuild) : (s.dress L A).undone u = (s.undone u).dress L A := by
  have hmem : ∀ s : State, State.mapMem u.2.memAfter (s.dress L A) =
      (State.mapMem u.2.memAfter s).dress L A := by
    intro s
    unfold State.mapMem State.dress
    rw [memAfter_withCascade]
  exact applied_comm (blind_dress L A) u.2 hmem (s.mapStore (fun st => st.afterUndo u.1))

theorem foldl_undone_dress (us : List (BlockUndo × MemUndo)) (s : State) (L : Lock → Option ℕ)
    (A : Option CascadeBuild) :
    us.foldl State.undone (s.dress L A) = (us.foldl State.undone s).dress L A := by
  induction us generalizing s with
  | nil => rfl
  | cons u us ih => rw [List.foldl_cons, List.foldl_cons, undone_dress, ih]

/-- The undos of a promotion may write the store first and the memory afterwards. -/
theorem foldl_undone (us : List (BlockUndo × MemUndo)) (s : State) :
    us.foldl State.undone s = (us.map Prod.snd).foldl (fun s u => u.applied s)
      (s.mapStore (fun st => (us.map Prod.fst).foldl (fun st u => st.afterUndo u) st)) := by
  induction us generalizing s with
  | nil => rfl
  | cons u us ih =>
    rw [List.foldl_cons, ih, List.map_cons, List.map_cons, List.foldl_cons]
    have h := applied_mapStore (Store.blind_foldl_afterUndo (us.map Prod.fst)) u.2
      (s.mapStore (fun st => st.afterUndo u.1))
    exact congrArg (fun t => (us.map Prod.snd).foldl (fun s u => u.applied s) t) h.symm

theorem foldl_applied_mapStore {f : Store → Store} (hf : Store.Blind f) (us : List MemUndo)
    (s : State) : us.foldl (fun s u => u.applied s) (s.mapStore f) =
      (us.foldl (fun s u => u.applied s) s).mapStore f := by
  induction us generalizing s with
  | nil => rfl
  | cons u us ih => rw [List.foldl_cons, List.foldl_cons, applied_mapStore hf, ih]

theorem foldl_undone_book (us : List (BlockUndo × MemUndo)) (s : State) :
    (us.foldl State.undone s).book = s.book.undoAll us := by
  induction us generalizing s with
  | nil => rfl
  | cons u us ih =>
    rw [List.foldl_cons, ih, undone_book]
    rfl

theorem foldl_undone_frame (us : List (BlockUndo × MemUndo)) (s : State) :
    (us.foldl State.undone s).frame = s.frame := by
  induction us generalizing s with
  | nil => rfl
  | cons u us ih => rw [List.foldl_cons, ih, undone_frame]

/-! ## Blocks come off -/

/-- The undo of the block that ends its account's chain, built from the state as it is. -/
inductive UndoOf (s : State) (b : Block) : BlockUndo × MemUndo → Prop
  | intro (rest : AccountChain) (e : UndoEffect)
      (chain : s.store.chains.get b.account = some (rest ++ [b])) (type : b.type ≠ .genesis)
      (effect : Undoes s.store.blocks s.store.leases b e) :
      UndoOf s b (undoRequest b.account b rest e,
        undoMemory s.store.leases b.account b rest b e)

/-- The blocks come off their chains, one after another. -/
inductive Undone (s : State) : List Block → State → Prop
  | nil : Undone s [] s
  | snoc {bs : List Block} {s₁ : State} {b : Block} {u : BlockUndo × MemUndo}
      (before : Undone s bs s₁) (undo : UndoOf s₁ b u) : Undone s (bs ++ [b]) (s₁.undone u)

theorem Undone.eq_of_nil {s s' : State} (h : Undone s [] s') : s' = s := by
  generalize hbs : ([] : List Block) = bs at h
  cases h with
  | nil => rfl
  | snoc => simp at hbs

theorem UndoOf.dress {s : State} {b : Block} {u : BlockUndo × MemUndo} (h : UndoOf s b u)
    (L : Lock → Option ℕ) (A : Option CascadeBuild) : UndoOf (s.dress L A) b u := by
  obtain ⟨rest, e, chain, type, effect⟩ := h
  exact .intro rest e chain type effect

theorem Undone.dress {s s' : State} {bs : List Block} (h : Undone s bs s') (L : Lock → Option ℕ)
    (A : Option CascadeBuild) : Undone (s.dress L A) bs (s'.dress L A) := by
  induction h with
  | nil => exact .nil
  | @snoc bs s₁ b u before undo ih =>
    rw [← undone_dress]
    exact .snoc ih (undo.dress L A)

theorem UndoOf.removed {s : State} {b : Block} {u : BlockUndo × MemUndo} (h : UndoOf s b u)
    (hk : s.book.Wf) : Removed s.book b (s.undone u).book := by
  obtain ⟨rest, e, chain, type, effect⟩ := h
  rw [undone_book]
  exact removed_of_undoes hk type (Book.chain_of_get chain) hk.unstaked effect

theorem Undone.unwinds {s s' : State} {bs : List Block} (h : Undone s bs s') (hk : s.book.Wf) :
    Unwinds s.book bs s'.book := by
  induction h with
  | nil => exact .nil
  | @snoc bs s₁ b u before undo ih =>
    exact .snoc ih (undo.removed (ih.wf hk).1)

theorem Undone.frame {s s' : State} {bs : List Block} (h : Undone s bs s') :
    s'.frame = s.frame ∧ s'.mem.activeCascade = s.mem.activeCascade := by
  induction h with
  | nil => exact ⟨rfl, rfl⟩
  | snoc before undo ih =>
    exact ⟨(undone_frame _ _).trans ih.1, (undone_activeCascade _ _).trans ih.2⟩

section Cascade

variable {s : State} {w : Str} {steps : List (Str × Block)} {cb : CascadeBuild}
  {us : List (BlockUndo × MemUndo)}

/-- **The undos of a promotion**, each as it would be built where it is applied. -/
theorem Cascade.undone (hk : s.book.Wf) (h : Cascade s.book s.store.leases w steps cb us)
    (hp : PlanOk s.book steps) : Undone s (steps.map Prod.snd) (us.foldl State.undone s) := by
  induction h with
  | nil => exact .nil
  | @snoc steps cb us account b last rest e before chain hash effect ih =>
    obtain ⟨hinit, hcasc⟩ := hp.init
    have hunw := before.unwinds hk hk.unstaked hinit
    obtain ⟨hwf, hon⟩ := hunw.wf hk
    obtain ⟨honb, hacc, hgen⟩ := hp.on account b (by simp)
    have hch := before.chain_of_snoc chain
    have hlast : last = b := by
      have hl : (s.book.undoAll us).On last := Book.On.of_mem hwf (by rw [hch]; simp)
      exact Book.On.eq_of_hash hk ((hon last).mp hl).1 honb hash
    subst hlast
    subst hacc
    have hbook : (us.foldl State.undone s).book = s.book.undoAll us := foldl_undone_book us s
    have hleases : (us.foldl State.undone s).store.leases = s.store.leases :=
      (congrArg Book.leases hbook).trans (before.leases_eq hcasc s.book)
    have hblocks : (us.foldl State.undone s).store.blocks = s.store.blocks :=
      (congrArg Book.blocks hbook).trans (Cascade.blocks s.book)
    have hget : (us.foldl State.undone s).store.chains.get last.account = some (rest ++ [last]) := by
      have h₁ : (us.foldl State.undone s).book.chain last.account = rest ++ [last] := by
        rw [hbook]
        exact hch
      have h₂ := Book.get_of_chain (k := (us.foldl State.undone s).book) (a := last.account)
        (by rw [h₁]; simp)
      rwa [h₁] at h₂
    rw [List.map_append, List.foldl_append]
    refine .snoc (ih hinit) ?_
    rw [← hleases]
    refine .intro rest e hget hgen ?_
    rw [hleases, hblocks]
    exact effect

theorem restoreDelegation_repOf (u : MemUndo) (m : Memory) (a : Str) :
    (m.restoreDelegation u).repOf a = if a = u.account then u.prevRep else m.repOf a := by
  have hset : ∀ m' : Memory, m'.delegation = m.delegation →
      (m'.setRep u.account u.prevRep).repOf a = if a = u.account then u.prevRep else m.repOf a := by
    intro m' hm'
    unfold Memory.setRep Memory.repOf
    rw [hm']
    by_cases hp : u.prevRep = []
    · rw [if_pos hp, Table.get_del]
      split_ifs with ha
      · rw [hp]
        rfl
      · rfl
    · rw [if_neg hp, Table.get_set]
      split_ifs <;> rfl
  unfold Memory.restoreDelegation
  refine hset _ ?_
  split_ifs <;> rfl

theorem undone_repOf (s : State) (u : BlockUndo × MemUndo) (a : Str) :
    (s.undone u).mem.repOf a = if a = u.2.account then u.2.prevRep else s.mem.repOf a := by
  have hsame : (s.undone u).mem.delegation = (u.2.memAfter s.mem).delegation := by
    obtain ⟨r, r', h⟩ := applied_same u.2 { s with store := s.store.afterUndo u.1 }
    exact congrArg (fun s : State => s.mem.delegation) h
  have hrep : (s.undone u).mem.repOf a = (u.2.memAfter s.mem).repOf a :=
    congrArg (fun t => (t.get a).getD []) hsame
  rw [hrep, memAfter_eq, restoreDelegation_repOf]
  split_ifs
  · rfl
  · unfold MemUndo.dropBalance unlessEmpty
    cases u.2.assetDebit with
    | none =>
      simp only [onSome]
      split_ifs <;> rfl
    | some d =>
      simp only [onSome, subAssetBalance_eq]
      split_ifs <;> rfl

theorem Cascade.repOf {k : Book} {L : Table Str Lease} (h : Cascade k L w steps cb us) (a : Str) :
    (us.foldl State.undone s).mem.repOf a = (cb.delegation.get a).getD (s.mem.repOf a) := by
  induction h with
  | nil => rfl
  | @snoc steps cb us account b last rest e before chain hash effect ih =>
    rw [List.foldl_append, List.foldl_cons, List.foldl_nil, undone_repOf, ih]
    change _ = (Table.get (cb.delegation.set account (lastRep rest)) a).getD _
    rw [Table.get_set]
    change (if a = account then lastRep rest else _) = _
    split_ifs <;> rfl

/-- **The state that the winner of a promotion leaves** is that of the undos, one after another, and
then its own commit. -/
theorem Cascade.promoted {k : Book} {L : Table Str Lease} (h : Cascade k L w steps cb us)
    (hcb : s.mem.activeCascade = some cb) (p : Prepared) :
    p.written (State.unwound { s with
        store := (cb.undos.foldl (fun st u => st.afterUndo u) s.store).afterCommit (p.request s) }
          cb) = ((us.foldl State.undone s).dress s.locks none).committed p := by
  have hreq : p.request ((us.foldl State.undone s).dress s.locks none) = p.request s := by
    unfold Prepared.request
    refine congrArg _ ?_
    change (us.foldl State.undone s).mem.repOf p.commit.account = _
    rw [h.repOf]
    unfold State.repBefore
    rw [hcb]
    rfl
  have hstate : State.unwound { s with
        store := (cb.undos.foldl (fun st u => st.afterUndo u) s.store).afterCommit (p.request s) }
          cb = ((us.foldl State.undone s).dress s.locks none).mapStore
            (fun st => st.afterCommit (p.request s)) := by
    have hfold := foldl_applied_mapStore (Store.blind_afterCommit (p.request s)) cb.memApplies
      (s.mapStore (fun st => cb.undos.foldl (fun st u => st.afterUndo u) st))
    rw [h.undos, h.memApplies, ← foldl_undone, ← h.memApplies, ← h.undos] at hfold
    have hlocks : (us.foldl State.undone s).locks = s.locks :=
      congrArg Frame.locks (foldl_undone_frame us s)
    refine (congrArg (fun t : State => t.dress t.locks none) hfold).trans ?_
    rw [← hlocks]
    rfl
  rw [hstate, State.committed, hreq]
  rfl

end Cascade

end Xe
