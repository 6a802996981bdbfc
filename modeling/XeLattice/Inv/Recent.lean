import Mathlib.Data.Set.Card
import XeLattice.Inv.Restart
import XeLattice.Newest
import XeLattice.Sample

/-!
# Recent blocks

`GetRecentBlocks` of `core/ledger.go` goes over the accounts in the order of a map.  It looks at the
last `limit` blocks of each chain, from the end, and leaves a chain at the first block that is not
later than the least time it remembers.  It remembers one only after it has cut its list; before
that it compares with time zero, which only does no harm if no block is dated before.

* **`Reachable.timed`**: the chains are in the order of time, and the genesis block stays;
* **`recent_blocks_iff`**: the result is right exactly when no block is dated before time zero.
-/

set_option autoImplicit false

namespace Xe

open Ranking

/-! ## The function of the ledger -/

/-- The time of a block, counted from the least one. -/
def Block.stamp (b : Block) : ℕ :=
  (b.timestamp.toInt + 2 ^ 63).toNat

/-- The blocks of one chain: the list so far, and the time that it remembers.  `sort.Slice` may be
any sort by descending time. -/
def visitChain (sorter : Sorter Block.stamp) (limit : ℕ) (acc : List Block × Int64)
    (chain : AccountChain) : List Block × Int64 :=
  let result := Newest.scan limit (fun b => b.timestamp ≤ acc.2) acc.1 (chain.reverse.take limit)
  if result.length > limit then
    let result := (sorter.sort result).take limit
    (result, (result[limit - 1]?.map (·.timestamp)).getD acc.2)
  else (result, acc.2)

/-- `GetRecentBlocks`; `accounts` are those of the stored frontiers in the order of the map. -/
def Store.getRecentBlocks (st : Store) (sorter : Sorter Block.stamp) (accounts : List Str)
    (limit : ℤ) : List Block :=
  if limit ≤ 0 then []
  else
    let acc := accounts.foldl (fun acc a => visitChain sorter limit.toNat acc (st.getChain a))
      ([], 0)
    let result := sorter.sort acc.1
    if result.length > limit.toNat then result.take limit.toNat else result

/-- The result are the latest blocks on the chains. -/
structure RecentBlocks (s : State) (limit : ℤ) (result : List Block) : Prop where
  count : result.length = min limit.toNat (Set.ncard {b | s.book.On b})
  distinct : result.Nodup
  onChain : ∀ b ∈ result, s.book.On b
  ordered : result.Pairwise fun a b => b.timestamp ≤ a.timestamp
  latest : ∀ b ∈ result, ∀ x, s.book.On x → x ∉ result → x.timestamp ≤ b.timestamp

/-! ## Chains in the order of time -/

/-- The handlers refuse a block that is dated before the one it extends, so that the times on a
chain do not decrease; the genesis block is never taken off. -/
structure Book.Timed (g : Block) (k : Book) : Prop where
  ordered : ∀ a, (k.chain a).Pairwise fun x y => x.timestamp ≤ y.timestamp
  genesis : k.On g

section Timed

variable {node : Node} {D : Set Str} {k k' : Book} {g b : Block}

theorem Removed.timed (h : Removed k b k') (hb : b ≠ g) (ht : k.Timed g) : k'.Timed g := by
  obtain ⟨rest, hrest, hchain⟩ := h.chain_eq
  have hone := ht.ordered b.account
  rw [hrest] at hone
  refine ⟨fun a => ?_, ?_⟩
  · rw [hchain]
    split_ifs
    · exact (List.pairwise_append.mp hone).1
    · exact ht.ordered a
  · have hgenesis := ht.genesis
    rw [Book.On, hchain]
    split_ifs with ha
    · rw [Book.On, ha, hrest] at hgenesis
      refine (List.mem_append.mp hgenesis).resolve_right fun hlast => ?_
      exact hb (List.mem_singleton.mp hlast).symm
    · exact hgenesis

theorem Appended.timed {stale : Str → Prop} (h : Appended stale k b k')
    (hn : NotOlder b (k.chain b.account)) (ht : k.Timed g) : k'.Timed g := by
  refine ⟨fun a => ?_, ?_⟩
  · rw [h.chain]
    split_ifs with ha
    · subst ha
      refine List.pairwise_append.mpr
        ⟨ht.ordered _, List.pairwise_singleton _ _, fun x hx y hy => ?_⟩
      rw [List.mem_singleton.mp hy]
      -- The last block is the latest of the chain, and the new one is not older than it.
      obtain ⟨front, z, hchain⟩ := (List.eq_nil_or_concat' _).resolve_left (List.ne_nil_of_mem hx)
      have hz : z.timestamp ≤ b.timestamp := by
        refine Int64.not_lt.mp (hn _ ?_)
        rw [lastTimestamp, hchain, List.getLast?_concat]
        rfl
      have hord := ht.ordered b.account
      rw [hchain] at hord hx
      rcases List.mem_append.mp hx with hx | hx
      · exact Int64.le_trans
          ((List.pairwise_append.mp hord).2.2 x hx z (List.mem_singleton_self z)) hz
      · rwa [List.mem_singleton.mp hx]
    · exact ht.ordered a
  · rw [Book.On, h.chain]
    split_ifs with ha
    · exact List.mem_append_left _ ht.genesis
    · exact ht.genesis

theorem FirstBook.timed (h : FirstBook g k) : k.Timed g := by
  refine ⟨fun a => ?_, ?_⟩
  · rw [h.chain]
    split_ifs
    · exact List.pairwise_singleton _ _
    · exact .nil
  · rw [Book.On, h.chain, if_pos rfl]
    exact List.mem_singleton_self g

theorem kept_timed (hg : GenesisSealed node.lib D node.genesis) :
    Kept node D (fun s => s.book.Timed node.genesis) where
  undo {s b u} hi ht h _ _ := by
    refine (h.removed hi.wf).timed ?_ ht
    obtain ⟨-, -, -, type, -⟩ := h
    rintro rfl
    exact type hg.fields.1
  commit _ ht h _ _ := h.appended.timed h.notOlder ht
  note _ ht h := by
    rw [h.book]
    exact ht

/-- **The chains of a reachable state are in the order of time.** -/
theorem Reachable.timed (hD : IdealHash node.lib D) (hg : GenesisSealed node.lib D node.genesis)
    {ok : State → Op → Prop} {s : State} (h : Reachable node D ok s) :
    s.book.Timed node.genesis := by
  refine h.kept hD hg (kept_timed hg) fun c kind s hc hrun => ?_
  subst hc
  obtain rfl := newLedger_ok hrun
  exact (genesis_book c kind).timed

theorem GenesisSealed.timestamp (hg : GenesisSealed node.lib D g) : g.timestamp = 0 := by
  have hv := hg.valid
  unfold validateGenesisBlock at hv
  simp only [bind_eq_ok, guardErr_eq_ok, mapError_eq_ok, not_not] at hv
  obtain ⟨_, -, _, -, _, htime, -⟩ := hv
  exact htime

theorem nonneg_of_genesis {s : State} (hg : GenesisSealed node.lib D node.genesis)
    (hi : s.Inv node D) (ht : s.book.Timed node.genesis)
    (hb : b ∈ s.book.chain node.genesis.account) : 0 ≤ b.timestamp := by
  obtain ⟨⟨rest, hrest⟩, -⟩ := hi.genesis _ _ ht.genesis hg.fields.1
  have hord := ht.ordered node.genesis.account
  rw [hrest] at hb hord
  rw [← hg.timestamp]
  rcases List.mem_cons.mp hb with rfl | hb
  · exact Int64.le_refl _
  · exact (List.pairwise_cons.mp hord).1 b hb

end Timed

/-! ## The scan -/

theorem stamp_le_iff {a b : Block} : a.stamp ≤ b.stamp ↔ a.timestamp ≤ b.timestamp := by
  have ha := a.timestamp.le_toInt
  have hb := b.timestamp.le_toInt
  rw [Int64.le_iff_toInt_le, Block.stamp, Block.stamp]
  omega

section Scan

variable {s : State} (sorter : Sorter Block.stamp) {limit : ℕ} {seen : Set Block}
  {acc : List Block × Int64}

/-- What the list and the remembered time are like when some chains have been visited. -/
structure Visited (limit : ℕ) (seen : Set Block) (acc : List Block × Int64) : Prop where
  holds : Newest.Holds Block.stamp limit seen acc.1
  length_le : acc.1.length ≤ limit
  bound : ∀ b ∈ acc.1, acc.2 ≤ b.timestamp
  fresh : acc.2 = 0 ∨ acc.1.length = limit

theorem le_of_getElem? {l : List Block} (h : Ranked Block.stamp l) {i : ℕ} {z : Block}
    (hi : i + 1 = l.length) (hz : l[i]? = some z) {b : Block} (hb : b ∈ l) :
    z.timestamp ≤ b.timestamp := by
  obtain ⟨j, hj, rfl⟩ := List.getElem_of_mem hb
  obtain ⟨hlt, rfl⟩ := List.getElem?_eq_some_iff.mp hz
  rcases Nat.lt_or_ge j i with hji | hij
  · exact stamp_le_iff.mp (List.pairwise_iff_getElem.mp h j i hj hlt hji)
  · obtain rfl : j = i := by omega
    exact Int64.le_refl _

/-- **One chain.** -/
theorem Visited.visitChain (h : Visited limit seen acc) (hpos : 0 < limit) {chain : AccountChain}
    (hordered : chain.Pairwise fun x y => x.timestamp ≤ y.timestamp)
    (hnonneg : ∀ b ∈ chain, 0 ≤ b.timestamp) (hnodup : chain.Nodup) (hnew : ∀ b ∈ chain, b ∉ seen) :
    Visited limit (seen ∪ {b | b ∈ chain}) (Xe.visitChain sorter limit acc chain) := by
  have hranked : Ranked Block.stamp chain.reverse :=
    List.pairwise_reverse.mpr (hordered.imp fun hab => stamp_le_iff.mpr hab)
  have hlow : ∀ x : Block, decide (x.timestamp ≤ acc.2) = true → ∀ y ∈ acc.1, x.stamp ≤ y.stamp :=
    fun x hx y hy => stamp_le_iff.mpr (Int64.le_trans (of_decide_eq_true hx) (h.bound y hy))
  have hscan := h.holds.scan hlow hranked (List.nodup_reverse.mpr hnodup)
    fun y hy => hnew y (List.mem_reverse.mp hy)
  simp only [List.mem_reverse] at hscan
  obtain ⟨taken, rest, htake, hresult, -⟩ := Newest.scan_cases limit
    (fun b => decide (b.timestamp ≤ acc.2)) acc.1 (chain.reverse.take limit)
  unfold Xe.visitChain
  rw [hresult] at hscan ⊢
  dsimp only
  split_ifs with hlong
  · have hsorted := hscan.perm (sorter.perm _).symm
    have hlen : limit ≤ (sorter.sort (acc.1 ++ taken)).length := by
      rw [(sorter.perm _).length_eq]
      omega
    have hcut : ((sorter.sort (acc.1 ++ taken)).take limit).length = limit := by
      rw [List.length_take, min_eq_left hlen]
    refine ⟨hsorted.take (sorter.ranked _) hlen, hcut.le, fun b hb => ?_, .inr hcut⟩
    have hlast : limit - 1 < ((sorter.sort (acc.1 ++ taken)).take limit).length := by omega
    rw [List.getElem?_eq_getElem hlast]
    exact le_of_getElem? ((sorter.ranked _).sublist (List.take_sublist _ _)) (by omega)
      (List.getElem?_eq_getElem hlast) hb
  · refine ⟨hscan, Nat.le_of_not_lt hlong, fun b hb => ?_, ?_⟩
    · rcases List.mem_append.mp hb with hb | hb
      · exact h.bound b hb
      · rcases h.fresh with hzero | hfull
        · have hbc : b ∈ chain.reverse := List.mem_of_mem_take (htake ▸ List.mem_append_left _ hb)
          rw [hzero]
          exact hnonneg b (List.mem_reverse.mp hbc)
        · have := List.length_pos_of_mem hb
          rw [List.length_append] at hlong
          omega
    · refine h.fresh.imp_right fun hfull => ?_
      rw [List.length_append] at hlong ⊢
      omega

/-- The blocks of some accounts. -/
def State.blocksOf (s : State) (accounts : List Str) : Set Block :=
  {b | b.account ∈ accounts ∧ s.book.On b}

/-- **All chains.** -/
theorem Visited.foldl {g : Block} (hk : s.book.Wf) (ht : s.book.Timed g)
    (hnonneg : ∀ b, s.book.On b → 0 ≤ b.timestamp) (hpos : 0 < limit)
    {done accounts : List Str} (hnodup : (done ++ accounts).Nodup)
    (h : Visited limit (s.blocksOf done) acc) :
    Visited limit (s.blocksOf (done ++ accounts)) (accounts.foldl
      (fun acc a => Xe.visitChain sorter limit acc (s.store.getChain a)) acc) := by
  induction accounts generalizing done acc with
  | nil => rwa [List.append_nil]
  | cons a accounts ih =>
    have hmem : ∀ b, b ∈ s.book.chain a ↔ b.account = a ∧ s.book.On b := fun b => by
      refine ⟨fun hb => ⟨hk.owner a b hb, .of_mem hk hb⟩, ?_⟩
      rintro ⟨rfl, hb⟩
      exact hb
    have hout : a ∉ done := fun ha =>
      (List.nodup_append.mp hnodup).2.2 a ha a List.mem_cons_self rfl
    have hstep := h.visitChain sorter hpos (ht.ordered a)
      (fun b hb => hnonneg b ((hmem b).mp hb).2) (hk.nodup a)
      fun b hb hin => hout (((hmem b).mp hb).1 ▸ hin.1)
    have hseen : s.blocksOf done ∪ {b | b ∈ s.book.chain a} = s.blocksOf (done ++ [a]) := by
      ext b
      simp only [State.blocksOf, Set.mem_union, Set.mem_ofPred_eq, hmem, List.mem_append,
        List.mem_singleton]
      tauto
    rw [hseen] at hstep
    rw [List.append_cons, List.foldl_cons]
    rw [List.append_cons] at hnodup
    exact ih hnodup hstep

/-- **Without negative times the result is right.** -/
theorem recentBlocks_of_nonneg {g : Block} (hk : s.book.Wf) (ht : s.book.Timed g)
    (hd : s.Delegates) {accounts : List Str} (hl : Lists accounts s.store.frontiers) {limit : ℤ}
    (hlimit : 1 ≤ limit) (hnonneg : ∀ b, s.book.On b → 0 ≤ b.timestamp) :
    RecentBlocks s limit (s.store.getRecentBlocks sorter accounts limit) := by
  have hnil : Visited limit.toNat (s.blocksOf []) ([], 0) :=
    ⟨⟨List.nodup_nil, by simp, by simp [State.blocksOf]⟩, by simp, by simp, .inl rfl⟩
  have hall := hnil.foldl sorter hk ht hnonneg (by omega) (by rw [List.nil_append]; exact hl.1)
  have hmem : ∀ b, s.book.On b → b.account ∈ accounts := fun b hb =>
    (mem_frontiers hd hl _).mpr (List.ne_nil_of_mem hb)
  have hon : s.blocksOf ([] ++ accounts) = {b | s.book.On b} := by
    ext b
    simpa only [State.blocksOf, List.nil_append, Set.mem_ofPred_eq, and_iff_right_iff_imp]
      using hmem b
  rw [hon] at hall
  have hholds := hall.holds.perm (sorter.perm _).symm
  have hlen := (sorter.perm _).length_eq.le.trans hall.length_le
  rw [Store.getRecentBlocks, if_neg (by omega), if_neg (by omega)]
  exact
    { count := by
        have hfin : {b | s.book.On b} = ((accounts.flatMap s.book.chain).toFinset : Set Block) := by
          ext b
          rw [Set.mem_ofPred_eq, Finset.mem_coe, List.mem_toFinset, List.mem_flatMap]
          exact ⟨fun hb => ⟨_, hmem b hb, hb⟩, fun ⟨_, _, hb⟩ => .of_mem hk hb⟩
        rw [hfin] at hholds ⊢
        rw [Set.ncard_coe_finset]
        exact hholds.length_eq hlen
      distinct := hholds.nodup
      onChain := hholds.mem
      ordered := (sorter.ranked _).imp fun hab => stamp_le_iff.mp hab
      latest := fun b hb x hx hxr => stamp_le_iff.mp (hholds.le hlen hx hxr hb) }

/-! ### Negative times -/

theorem visitChain_of_fits {chain : AccountChain} (h : acc.1.length + chain.length ≤ limit) :
    Xe.visitChain sorter limit acc chain = (acc.1 ++ chain.reverse, acc.2) := by
  have htake : chain.reverse.take limit = chain.reverse ++ [] := by
    rw [List.append_nil]
    exact List.take_of_length_le (by rw [List.length_reverse]; omega)
  have hlen : ¬ (acc.1 ++ chain.reverse).length > limit := by
    rw [List.length_append, List.length_reverse]
    omega
  simp only [Xe.visitChain, htake]
  rw [Newest.scan_append [] (by rwa [List.length_reverse]), Newest.scan, if_neg hlen]

theorem foldl_of_fits {accounts : List Str}
    (h : acc.1.length + (accounts.flatMap s.book.chain).length ≤ limit) :
    accounts.foldl (fun acc a => Xe.visitChain sorter limit acc (s.store.getChain a)) acc =
      (acc.1 ++ accounts.flatMap fun a => (s.book.chain a).reverse, acc.2) := by
  induction accounts generalizing acc with
  | nil => simp
  | cons a accounts ih =>
    rw [List.flatMap_cons, List.length_append] at h
    have hfits : acc.1.length + (s.book.chain a).length ≤ limit := by omega
    rw [List.foldl_cons, show s.store.getChain a = s.book.chain a from rfl,
      visitChain_of_fits sorter hfits, ih]
    · rw [List.flatMap_cons, List.append_assoc]
    · rw [List.length_append, List.length_reverse]
      omega

/-- The scan of a list that is just full stops at the first block that is not later. -/
theorem visitChain_of_full {chain late early : AccountChain} {y : Block}
    (hchain : chain.reverse = late ++ y :: early) (hlow : y.timestamp ≤ acc.2) (hne : acc.1 ≠ [])
    (hfull : acc.1.length + late.length = limit) :
    (Xe.visitChain sorter limit acc chain).1 = acc.1 ++ late := by
  have hpos := List.length_pos_of_ne_nil hne
  have htake : chain.reverse.take limit = late ++ y :: early.take (limit - late.length - 1) := by
    rw [hchain, List.take_append, List.take_of_length_le (by omega),
      List.take_cons (by omega)]
  have hlen : (acc.1 ++ late).length = limit := by rw [List.length_append, hfull]
  have hscan : Newest.scan limit (fun b => decide (b.timestamp ≤ acc.2)) acc.1
      (chain.reverse.take limit) = acc.1 ++ late := by
    rw [htake, Newest.scan_append _ hfull.le, Newest.scan, if_pos ⟨hlen.ge, decide_eq_true hlow⟩]
  rw [Xe.visitChain, hscan, if_neg (by omega)]

end Scan

theorem exists_lists_last {V : Type} {t : Table Str V} {a : Str} (h : t.get a ≠ none) :
    ∃ others, Lists (others ++ [a]) t ∧ a ∉ others := by
  have hout : a ∉ (t.keys.erase a).toList := by
    rw [Finset.mem_toList]
    exact Finset.notMem_erase a t.keys
  refine ⟨(t.keys.erase a).toList, lists_of_keys ?_ ?_, hout⟩
  · refine List.nodup_append.mpr ⟨Finset.nodup_toList _, List.nodup_singleton a, ?_⟩
    rintro x hx y hy rfl
    rw [List.mem_singleton.mp hy] at hx
    exact hout hx
  · rw [List.toFinset_append, Finset.toList_toFinset, List.toFinset_cons, List.toFinset_nil,
      insert_empty_eq, Finset.union_singleton, Finset.insert_erase]
    rwa [ne_eq, ← Table.notMem_keys, not_not] at h

/-- What the function returns when the accounts but the last fit, and the last fills the list. -/
theorem getRecentBlocks_of_full {s : State} (sorter : Sorter Block.stamp) {others : List Str}
    {a : Str} {taken late early : List Block} {y : Block}
    (htaken : taken = others.flatMap fun a => (s.book.chain a).reverse) (hne : taken ≠ [])
    (hchain : (s.book.chain a).reverse = late ++ y :: early) (hlow : y.timestamp ≤ 0) :
    s.store.getRecentBlocks sorter (others ++ [a]) ((taken.length + late.length : ℕ) : ℤ) =
      sorter.sort (taken ++ late) := by
  have hpos := List.length_pos_of_ne_nil hne
  have hlen : (others.flatMap s.book.chain).length = taken.length := by
    simp [htaken, List.length_flatMap]
  have hfold : others.foldl (fun acc a => visitChain sorter (taken.length + late.length) acc
      (s.store.getChain a)) ([], 0) = (taken, 0) := by
    rw [htaken] at hlen ⊢
    exact foldl_of_fits sorter (by simp only [List.length_nil]; omega)
  have hlast : (visitChain sorter (taken.length + late.length) (taken, 0) (s.book.chain a)).1 =
      taken ++ late := visitChain_of_full sorter hchain hlow hne rfl
  rw [Store.getRecentBlocks, if_neg (by omega), Int.toNat_natCast, List.foldl_append, hfold,
    List.foldl_cons, List.foldl_nil, show s.store.getChain a = s.book.chain a from rfl]
  dsimp only
  rw [hlast, if_neg]
  rw [(sorter.perm _).length_eq, List.length_append]
  omega

/-- **The recent blocks are the latest exactly when no block is dated before time zero**, in every
reachable state: for every limit, every order of the accounts and every sort. -/
theorem recent_blocks_iff {node : Node} {D : Set Str} (hD : IdealHash node.lib D)
    (hg : GenesisSealed node.lib D node.genesis) {ok : State → Op → Prop} {s : State}
    (h : Reachable node D ok s) :
    (∀ (sorter : Sorter Block.stamp) (accounts : List Str), Lists accounts s.store.frontiers →
      ∀ limit : ℤ, 1 ≤ limit →
        RecentBlocks s limit (s.store.getRecentBlocks sorter accounts limit)) ↔
      ∀ b, s.book.On b → 0 ≤ b.timestamp := by
  have hi := h.inv hD hg
  have ht := h.timed hD hg
  have hd := h.delegates hD hg
  refine ⟨fun hall x hx => ?_, fun hnonneg sorter accounts hl limit hlimit =>
    recentBlocks_of_nonneg sorter hi.wf ht hd hl hlimit hnonneg⟩
  by_contra hneg
  set g := node.genesis
  have hother : x.account ≠ g.account := fun hsame =>
    hneg (nonneg_of_genesis hg hi ht (hsame ▸ hx))
  -- The genesis chain comes last, when its blocks after time zero just fill the list.
  have hgchain : s.book.chain g.account ≠ [] := List.ne_nil_of_mem ht.genesis
  obtain ⟨others, hl, hgo⟩ := exists_lists_last (a := g.account) (t := s.store.frontiers) (by
    rw [hd.frontiers, if_neg hgchain]
    exact Option.some_ne_none _)
  have hxo : x.account ∈ others := by
    have hxl := (mem_frontiers hd hl _).mpr (List.ne_nil_of_mem hx)
    exact (List.mem_append.mp hxl).resolve_right (mt List.mem_singleton.mp hother)
  have hzero : ∃ z ∈ (s.book.chain g.account).reverse, decide (z.timestamp ≤ 0) = true :=
    ⟨g, List.mem_reverse.mpr ht.genesis, decide_eq_true (Int64.le_of_eq hg.timestamp)⟩
  obtain ⟨y, hy⟩ := Option.isSome_iff_exists.mp (List.find?_isSome.mpr hzero)
  obtain ⟨hlow, late, early, hchain, hlate⟩ := List.find?_eq_some_iff_append.mp hy
  set taken := others.flatMap fun a => (s.book.chain a).reverse with htaken
  have hxt : x ∈ taken := List.mem_flatMap.mpr ⟨_, hxo, List.mem_reverse.mpr hx⟩
  have hgt : g ∉ taken ++ late := fun hmem => by
    rcases List.mem_append.mp hmem with hmem | hmem
    · obtain ⟨a, ha, hga⟩ := List.mem_flatMap.mp hmem
      exact hgo (hi.wf.owner a g (List.mem_reverse.mp hga) ▸ ha)
    · have := hlate g hmem
      simp [hg.timestamp] at this
  have hpos := List.length_pos_of_mem hxt
  have hresult := hall (insertion Block.stamp) _ hl ((taken.length + late.length : ℕ) : ℤ) (by omega)
  rw [getRecentBlocks_of_full _ htaken (List.ne_nil_of_mem hxt) hchain (of_decide_eq_true hlow)]
    at hresult
  have hmem : ∀ b, b ∈ (insertion Block.stamp).sort (taken ++ late) ↔ b ∈ taken ++ late :=
    fun _ => ((insertion Block.stamp).perm _).mem_iff
  refine hneg (hg.timestamp ▸ hresult.latest x ((hmem x).mpr ?_) g ht.genesis (mt (hmem g).mp hgt))
  exact List.mem_append_left _ hxt

namespace SampleRecent

/-- The accounts, as they are scanned. -/
def accounts : List Str := [Sample.address 2, Sample.address 1]

/-- The receiver dates its block before time zero. -/
def early : Block :=
  Sample.hashed { Sample.receipt with timestamp := -5 }

end SampleRecent

open SampleRecent Sample in
/-- After a payment at time zero the result is right for all arguments. -/
theorem recent_blocks_payment : ∃ s,
    Reachable node (domain [payment, receipt]) (fun _ _ => true = true) s ∧
      s.store.frontiers.keys = accounts.toFinset ∧
      RecentBlocks s 2 (s.store.getRecentBlocks (insertion Block.stamp) accounts 2) := by
  obtain ⟨s, h, hkeys, hnonneg⟩ := exists_reachable_adds ctx rfl _
    [payment, receipt] (fun _ h => h)
    (P := fun s => s.store.frontiers.keys = accounts.toFinset ∧
      ∀ a ∈ accounts, ∀ b ∈ s.book.chain a, 0 ≤ b.timestamp) (by decide +kernel)
  have hg := genesis_domain [payment, receipt]
  have hl : Lists accounts s.store.frontiers := lists_of_keys (by decide +kernel) hkeys
  refine ⟨s, h, hkeys, (recent_blocks_iff payment_ideal hg h).mpr (fun b hb => ?_) _ _ hl 2
    (by decide)⟩
  have hd := h.delegates payment_ideal hg
  exact hnonneg _ ((mem_frontiers hd hl _).mpr (List.ne_nil_of_mem hb)) b hb

open SampleRecent Sample in
/-- A synced block of time -5 fills the list, and the payment of time zero is left out. -/
theorem recent_blocks_before_zero : ∃ s,
    Reachable node (domain [payment, early]) (fun _ _ => true = true) s ∧
      Lists accounts s.store.frontiers ∧
      ¬ RecentBlocks s 1 (s.store.getRecentBlocks (insertion Block.stamp) accounts 1) := by
  have hoffered : ∀ x ∈ [(ctx, Op.addBlock payment),
      (ctx, .addSyncedBlock early)],
      x.1.node = node ∧ x.2.Offered lib (domain [payment, early]) := by
    simp only [List.mem_cons, List.not_mem_nil, or_false]
    rintro x (rfl | rfl) <;> exact ⟨rfl, offered_add (by simp)⟩
  have hrun : ∃ s, Reachable node (domain [payment, early])
      (fun _ _ => true = true) s ∧ s.store.frontiers.keys = accounts.toFinset ∧
        payment ∈ s.book.chain payment.account ∧
        s.store.getRecentBlocks (insertion Block.stamp) accounts 1 = [early] :=
    exists_reachable ctx .badger _ rfl hoffered (by decide +kernel)
  obtain ⟨s, h, hkeys, hon, hresult⟩ := hrun
  refine ⟨s, h, lists_of_keys (by decide +kernel) hkeys, fun hrecent => ?_⟩
  rw [hresult] at hrecent
  have hne : payment ∉ [early] := by decide +kernel
  have hlater : ¬ payment.timestamp ≤ early.timestamp := by decide +kernel
  exact hlater (hrecent.latest _ (List.mem_singleton_self _) payment hon hne)

end Xe
