import XeLattice.Inv.Steps

/-!
# The order in which blocks came

Every block on a chain came after the ones before it, and every receive after its send.  No clock of
the ledger says so, but there always is a ranking that does: a block that goes on is ranked above all
others, and one that comes off leaves the rest as it was.

* **`Reachable.ranked`**: every reachable state has one.
-/

set_option autoImplicit false

namespace Xe

open Prog

/-- A ranking of the blocks on chains: along a chain it grows, and from a send to its receive. -/
structure Book.Ranks (k : Book) (rank : Block → ℕ) (bound : ℕ) : Prop where
  below : ∀ b, k.On b → rank b < bound
  chain : ∀ a pre b post, k.chain a = pre ++ b :: post → ∀ x ∈ post, rank b < rank x
  receive : ∀ b r, k.On b → b.type = .send → k.On r → r.type = .receive → r.source = b.hash →
    rank b < rank r

/-- The blocks have a ranking. -/
def Book.Ranked (k : Book) : Prop :=
  ∃ rank bound, k.Ranks rank bound

section Steps

variable {k k' : Book} {b : Block}

theorem Removed.ranked (h : Removed k b k') (hk : k.Wf) (hr : k.Ranked) : k'.Ranked := by
  obtain ⟨rank, bound, hr⟩ := hr
  obtain ⟨rest, hrest, hchain⟩ := h.chain_eq
  have hon : ∀ x, k'.On x → k.On x := fun x hx => ((h.on_iff hk x).mp hx).1
  refine ⟨rank, bound, fun x hx => hr.below x (hon x hx), ?_, ?_⟩
  · intro a pre x post hc y hy
    rw [hchain] at hc
    split_ifs at hc with ha
    · refine hr.chain a pre x (post ++ [b]) ?_ y (List.mem_append_left _ hy)
      rw [ha, hrest, hc, List.append_assoc, List.cons_append]
    · exact hr.chain a pre x post hc y hy
  · intro x r hx ht hrx
    exact hr.receive x r (hon x hx) ht (hon r hrx)

theorem Book.SendSound.source_ne (hs : k.SendSound) (hfresh : ∀ x, k.On x → x.hash ≠ b.hash)
    (hlease : ∀ lb, k.blocks.get b.hash = some lb → lb.type ≠ .lease) {r : Block} (hr : k.On r)
    (ht : r.type = .receive) : r.source ≠ b.hash := by
  intro hsrc
  have hnames : (k.slot b.hash).names r := ⟨hr, hsrc, by rw [ht]; rfl⟩
  have absent : ∀ x, ¬ (k.slot b.hash).issued x := fun x hx => hfresh x hx.1 hx.2.1
  rcases hs b.hash with hok | ⟨lb, hlb, hlt⟩
  · cases hok with
    | unused _ _ _ names => exact names r hnames
    | unspent _ _ _ _ _ _ _ names => exact names r hnames
    | spent s _ issued => exact absent s ((issued s).mpr rfl)
    | lease lb _ issued => exact absent lb ((issued lb).mpr rfl)
  · exact hlease lb hlb hlt

theorem Appended.ranked {stale : Str → Prop} (h : Appended stale k b k') (hk : k.Wf)
    (hs : k.SendSound) (hlease : b.type = .send → ∀ lb, k.blocks.get b.hash = some lb →
      lb.type ≠ .lease) (hr : k.Ranked) : k'.Ranked := by
  obtain ⟨rank, bound, hr⟩ := hr
  have hne : ∀ x, k.On x → x ≠ b := fun x hx he => h.fresh x hx (congrArg Block.hash he)
  have hold : ∀ x, k.On x → (if x = b then bound else rank x) = rank x :=
    fun x hx => if_neg (hne x hx)
  refine ⟨fun x => if x = b then bound else rank x, bound + 1, ?_, ?_, ?_⟩
  · intro x hx
    split_ifs with hxb
    · exact Nat.lt_succ_self bound
    · have := hr.below x (((h.on_iff x).mp hx).resolve_right hxb)
      omega
  · intro a pre x post hc y hy
    rw [h.chain] at hc
    split_ifs at hc with ha
    · -- the new block is the last of its chain
      obtain ⟨rfl, rfl, rfl⟩ | ⟨post', rfl, hc'⟩ := concat_eq_cases hc
      · cases hy
      · have hx : k.On x := Book.On.of_mem hk (a := a) (by rw [hc']; simp)
        rw [hold x hx]
        rcases List.mem_append.mp hy with hy' | hy'
        · rw [hold y (Book.On.of_mem hk (a := a) (by rw [hc']; simp [hy']))]
          exact hr.chain a pre x post' hc' y hy'
        · rw [if_pos (List.mem_singleton.mp hy')]
          exact hr.below x hx
    · have hmem : ∀ z ∈ x :: post, k.On z := fun z hz =>
        Book.On.of_mem hk (a := a) (by rw [hc]; exact List.mem_append_right _ hz)
      rw [hold x (hmem x List.mem_cons_self), hold y (hmem y (List.mem_cons_of_mem _ hy))]
      exact hr.chain a pre x post hc y hy
  · intro x r hx ht hrx hrt hsrc
    rcases (h.on_iff r).mp hrx with hrk | rfl
    · rcases (h.on_iff x).mp hx with hxk | rfl
      · rw [hold x hxk, hold r hrk]
        exact hr.receive x r hxk ht hrk hrt hsrc
      · exact absurd hsrc (hs.source_ne h.fresh (hlease ht) hrk hrt)
    · rcases (h.on_iff x).mp hx with hxk | rfl
      · rw [hold x hxk, if_pos rfl]
        exact hr.below x hxk
      · rw [ht] at hrt
        cases hrt

theorem FirstBook.ranked {lib : Lib} {D : Set Str} {g : Block} (h : FirstBook g k)
    (hg : GenesisSealed lib D g) : k.Ranked := by
  refine ⟨fun _ => 0, 1, fun _ _ => Nat.one_pos, ?_, ?_⟩
  · intro a pre x post hc y hy
    rw [h.chain] at hc
    split_ifs at hc
    · cases pre with
      | nil =>
        cases hc
        cases hy
      | cons z zs => simp at hc
    · simp at hc
  · intro x r hx ht
    rw [(h.mem_chain hx).1, hg.fields.1] at ht
    cases ht

end Steps

section Run

variable {node : Node} {D : Set Str} {s : State}

theorem kept_ranked (hD : IdealHash node.lib D) (hg : GenesisSealed node.lib D node.genesis) :
    Kept node D (fun s => s.book.Ranked) where
  undo hi hr h _ _ := (h.removed hi.wf).ranked hi.wf hr
  commit {s b p stale} hi hr h hb ht := by
    refine h.appended.ranked hi.wf hi.sends (fun hsend lb hlb hlt => ?_) hr
    have hsame := (hi.filed _ lb hlb).type_eq hD hg (.inr ⟨ht, hb⟩) (hi.wf.hash _ lb hlb).1
    rw [hlt, hsend] at hsame
    cases hsame
  note hi hr h := by
    rw [h.book]
    exact hr

/-- **The blocks of a reachable state can be ranked.** -/
theorem Reachable.ranked (hD : IdealHash node.lib D) (hg : GenesisSealed node.lib D node.genesis)
    {ok : State → Op → Prop} (h : Reachable node D ok s) : s.book.Ranked := by
  refine h.kept hD hg (kept_ranked hD hg) fun c kind s hc hrun => ?_
  subst hc
  obtain rfl := newLedger_ok hrun
  exact (genesis_book c kind).ranked hg

end Run

end Xe
