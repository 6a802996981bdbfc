import XeLattice.Inv.Ranks
import XeLattice.Sample

/-!
# The order of a plan

Planning follows a spent send to the chain of its receiver and plans that chain from its end; there
it may meet further spent sends, and chains that are being planned already.  Blocks that it meets
while it follows a send are ranked above the send.  So what is marked but not listed yet is never
met again, every chain is planned from its end without a gap, and the depth is bounded.

* **`plan_sound`**: the plan of a swap.
-/

set_option autoImplicit false

namespace Xe

open Prog

/-- A plan that lists the latest blocks of each chain, latest first and each of them once, none of
them final. -/
structure Plan.Listed (s : State) (p : Plan) : Prop where
  tail : ∀ a, ∃ pre suf, s.book.chain a = pre ++ suf ∧
    (p.steps.filter (·.1 = a)).map Prod.snd = suf.reverse
  nodup : p.steps.Nodup
  notFinal : ∀ a b, (a, b) ∈ p.steps → ∃ pre post, s.book.chain a = pre ++ b :: post ∧
    s.store.finalHeightOf a ≤ pre.length

/-- A plan while it grows: the marked blocks that are ranked above `β` are all listed. -/
structure Plan.Ordered (s : State) (rank : Block → ℕ) (β : ℕ) (p : Plan) : Prop
    extends p.Listed s where
  marked : ∀ a b, (a, b) ∈ p.steps → b.hash ∈ p.planned
  done : ∀ b, s.book.On b → b.hash ∈ p.planned → β < rank b → (b.account, b) ∈ p.steps

/-- What planning adds to a plan. -/
structure Plan.Grows (s : State) (rank : Block → ℕ) (β : ℕ) (p p' : Plan) : Prop where
  ordered : p'.Ordered s rank β
  planned : p.planned ⊆ p'.planned
  steps : ∃ new, p'.steps = p.steps ++ new ∧ (∀ x ∈ new, β < rank x.2) ∧
    ∀ b, s.book.On b → b.hash ∈ p'.planned → b.hash ∈ p.planned ∨ (b.account, b) ∈ new

section Grow

variable {s : State} {rank : Block → ℕ} {β : ℕ} {p q r : Plan}

theorem Plan.Grows.refl (h : p.Ordered s rank β) : p.Grows s rank β p :=
  ⟨h, fun _ hx => hx, [], (List.append_nil _).symm, fun _ hx => absurd hx List.not_mem_nil,
    fun _ _ hx => .inl hx⟩

theorem Plan.Grows.trans (h : p.Grows s rank β q) (h' : q.Grows s rank β r) : p.Grows s rank β r := by
  obtain ⟨new, hnew, hrank, hplanned⟩ := h.steps
  obtain ⟨new', hnew', hrank', hplanned'⟩ := h'.steps
  refine ⟨h'.ordered, fun x hx => h'.planned (h.planned hx), new ++ new', ?_, ?_, ?_⟩
  · rw [hnew', hnew, List.append_assoc]
  · intro x hx
    rcases List.mem_append.mp hx with hx | hx
    · exact hrank x hx
    · exact hrank' x hx
  · intro b hb hbr
    rcases hplanned' b hb hbr with hbq | hb'
    · exact (hplanned b hb hbq).imp_right (List.mem_append_left _)
    · exact .inr (List.mem_append_right _ hb')

theorem Plan.Grows.subset (h : p.Grows s rank β q) : p.steps ⊆ q.steps := by
  obtain ⟨new, hnew, -⟩ := h.steps
  rw [hnew]
  exact List.subset_append_left _ _

theorem Plan.Ordered.new (s : State) (rank : Block → ℕ) (β : ℕ) : Plan.new.Ordered s rank β where
  tail a := ⟨s.book.chain a, [], (List.append_nil _).symm, rfl⟩
  nodup := List.nodup_nil
  marked _ _ h := absurd h List.not_mem_nil
  done _ _ h := absurd h List.not_mem_nil
  notFinal _ _ h := absurd h List.not_mem_nil

theorem Plan.Listed.tail_eq (h : p.Listed s) (hk : s.book.Wf) {a : Str} {b : Block}
    {pre later : AccountChain} (hc : s.book.chain a = pre ++ b :: later) (hb : (a, b) ∉ p.steps)
    (hl : ∀ x ∈ later, (a, x) ∈ p.steps) :
    (p.steps.filter (·.1 = a)).map Prod.snd = later.reverse := by
  obtain ⟨pre', suf, hc', htail⟩ := h.tail a
  have hmem : ∀ x, x ∈ suf ↔ (a, x) ∈ p.steps := by
    intro x
    rw [← List.mem_reverse, ← htail, List.mem_map]
    constructor
    · rintro ⟨⟨a', x'⟩, hx, rfl⟩
      obtain ⟨hstep, ha⟩ := List.mem_filter.mp hx
      obtain rfl : a' = a := by simpa using ha
      exact hstep
    · intro hx
      exact ⟨(a, x), List.mem_filter.mpr ⟨hx, by simp⟩, rfl⟩
  have hsuf : suf = later := by
    have hnodup := hk.nodup a
    rw [hc] at hc' hnodup
    rcases List.append_eq_append_iff.mp hc' with ⟨mid, -, hmid⟩ | ⟨mid, -, hmid⟩
    · cases mid with
      | nil =>
        rw [List.nil_append] at hmid
        exact absurd ((hmem b).mp (by rw [← hmid]; simp)) hb
      | cons y mid =>
        obtain ⟨rfl, rfl⟩ := List.cons.inj hmid
        cases mid with
        | nil => rfl
        | cons z mid =>
          -- a later block would stand on the chain twice
          have hz : z ∈ suf := (hmem z).mpr (hl z (by simp))
          exact absurd hnodup (by
            intro h
            have := (List.nodup_append.mp h).2.1
            simp [hz] at this)
    · exact absurd ((hmem b).mp (by rw [hmid]; simp)) hb
  rw [htail, hsuf]

theorem Plan.Listed.add (h : p.Listed s) (hk : s.book.Wf) {a : Str} {b : Block}
    {pre later : AccountChain} (hc : s.book.chain a = pre ++ b :: later) (hb : (a, b) ∉ p.steps)
    (hl : ∀ x ∈ later, (a, x) ∈ p.steps) (hf : s.store.finalHeightOf a ≤ pre.length) :
    (p.add a b).Listed s where
  tail a' := by
    by_cases ha : a' = a
    · subst ha
      refine ⟨pre, b :: later, hc, ?_⟩
      simp only [Plan.add, List.filter_append, List.map_append, h.tail_eq hk hc hb hl]
      simp
    · obtain ⟨pre', suf, hc', ht⟩ := h.tail a'
      refine ⟨pre', suf, hc', ?_⟩
      simp only [Plan.add, List.filter_append, List.map_append, ht]
      simp [Ne.symm ha]
  nodup := List.nodup_append.mpr ⟨h.nodup, List.nodup_singleton _, fun x hx y hy hxy =>
    hb (List.mem_singleton.mp hy ▸ hxy ▸ hx)⟩
  notFinal a' x hx := by
    rcases List.mem_append.mp hx with hx | hx
    · exact h.notFinal a' x hx
    · cases List.mem_singleton.mp hx
      exact ⟨pre, later, hc, hf⟩

/-- A block that is marked while it is followed is not ranked above itself. -/
theorem Plan.Ordered.mark (h : p.Ordered s rank β) (hk : s.book.Wf) {b : Block} (hb : s.book.On b)
    (hβ : β < rank b) : (p.mark b.hash).Ordered s rank (rank b) where
  tail := h.tail
  nodup := h.nodup
  marked a x hx := List.mem_cons_of_mem _ (h.marked a x hx)
  done x hx hxp hr := by
    rcases List.mem_cons.mp hxp with hh | hh
    · obtain rfl := hx.eq_of_hash hk hb hh
      omega
    · exact h.done x hx hh (by omega)
  notFinal := h.notFinal

/-- **A followed block is added** to the plan: on its chain it comes next. -/
theorem Plan.Ordered.grows_add (h : p.Ordered s rank β) (hk : s.book.Wf) {a : Str} {b : Block}
    {pre later : AccountChain} (hc : s.book.chain a = pre ++ b :: later)
    (hl : ∀ x ∈ later, (a, x) ∈ p.steps) (hf : s.store.finalHeightOf a ≤ pre.length)
    (hβ : β < rank b) (hnew : b.hash ∉ p.planned)
    (hq : (p.mark b.hash).Grows s rank (rank b) q) : p.Grows s rank β (q.add a b) := by
  obtain ⟨new, hsteps, hrank, hplanned⟩ := hq.steps
  have hmem : b ∈ s.book.chain a := by
    rw [hc]
    simp
  have hon : s.book.On b := Book.On.of_mem hk hmem
  have hacc : b.account = a := hk.owner a b hmem
  have hbq : (a, b) ∉ q.steps := by
    rw [hsteps, List.mem_append]
    rintro (hb | hb)
    · exact hnew (h.marked a b hb)
    · exact lt_irrefl _ (hrank _ hb)
  have hsub : ∀ x ∈ p.steps, x ∈ q.steps := fun x hx => hq.subset hx
  have hlisted := hq.ordered.toListed.add hk hc hbq (fun x hx => hsub _ (hl x hx)) hf
  refine ⟨⟨hlisted, ?_, ?_⟩, ?_, new ++ [(a, b)], ?_, ?_, ?_⟩
  · intro a' x hx
    rcases List.mem_append.mp hx with hx | hx
    · exact hq.ordered.marked a' x hx
    · cases List.mem_singleton.mp hx
      exact hq.planned List.mem_cons_self
  · intro x hx hxp hr
    rcases hplanned x hx hxp with hxm | hxn
    · rcases List.mem_cons.mp hxm with hh | hh
      · obtain rfl := hx.eq_of_hash hk hon hh
        simp [Plan.add, hacc]
      · exact List.mem_append_left _ (hsub _ (h.done x hx hh hr))
    · refine List.mem_append_left _ ?_
      rw [hsteps]
      exact List.mem_append_right _ hxn
  · exact fun x hx => hq.planned (List.mem_cons_of_mem _ hx)
  · change q.steps ++ [(a, b)] = _
    rw [hsteps, List.append_assoc]
    rfl
  · intro x hx
    rcases List.mem_append.mp hx with hx | hx
    · exact hβ.trans (hrank x hx)
    · cases List.mem_singleton.mp hx
      exact hβ
  · intro x hx hxp
    rcases hplanned x hx hxp with hxm | hxn
    · rcases List.mem_cons.mp hxm with hh | hh
      · obtain rfl := hx.eq_of_hash hk hon hh
        exact .inr (by simp [hacc])
      · exact .inl hh
    · exact .inr (List.mem_append_left _ hxn)

end Grow

section Follow

variable {s : State} {rank : Block → ℕ} {rollback : Str → Plan → M Plan}

/-- What following a send on a chain does to a plan. -/
def Follows (s : State) (rank : Block → ℕ) (rollback : Str → Plan → M Plan) : Prop :=
  ∀ b p p' s', s.book.On b → b.type = .send → p.Ordered s rank (rank b) →
    (rollback b.hash p).run s = some (.ok p', s') → s' = s ∧ p.Grows s rank (rank b) p'

theorem planBlocks_grows (hk : s.book.Wf) (hroll : Follows s rank rollback) {refuse : Block → Str}
    {a : Str} {bs : List Block} (pre later : AccountChain) {β : ℕ} {p p' : Plan} {s' : State}
    (hc : s.book.chain a = pre ++ (bs.reverse ++ later)) (hl : ∀ x ∈ later, (a, x) ∈ p.steps)
    (hf : s.store.finalHeightOf a ≤ pre.length) (hβ : ∀ x ∈ bs, β < rank x)
    (hp : p.Ordered s rank β)
    (h : (planBlocks rollback refuse a bs p).run s = some (.ok p', s')) :
    s' = s ∧ p.Grows s rank β p' ∧ ∀ x ∈ bs, (a, x) ∈ p'.steps := by
  induction bs generalizing p later with
  | nil =>
    cases h
    exact ⟨rfl, .refl hp, fun x hx => absurd hx List.not_mem_nil⟩
  | cons b bs ih =>
    have hc' : s.book.chain a = pre ++ (bs.reverse ++ b :: later) := by
      rw [hc]
      simp
    have hsplit : s.book.chain a = (pre ++ bs.reverse) ++ b :: later := by
      rw [hc', List.append_assoc]
    have hmem : b ∈ s.book.chain a := by
      rw [hsplit]
      simp
    have hon : s.book.On b := Book.On.of_mem hk hmem
    have hacc : b.account = a := hk.owner a b hmem
    have hrest : ∀ x ∈ bs, β < rank x := fun x hx => hβ x (List.mem_cons_of_mem _ hx)
    have hb := hβ b List.mem_cons_self
    rcases planBlocks_cons h with ⟨hin, hrun⟩ | ⟨hnew, -, q, s₁, hq, hrun⟩
    · -- what is marked and ranked above the bound is listed
      have hstep : (a, b) ∈ p.steps := hacc ▸ hp.done b hon hin hb
      obtain ⟨hs', hgrows, hall⟩ := ih (b :: later) hc'
        (List.forall_mem_cons.mpr ⟨hstep, hl⟩) hrest hp hrun
      exact ⟨hs', hgrows, List.forall_mem_cons.mpr ⟨hgrows.subset hstep, hall⟩⟩
    · have follow : s₁ = s ∧ (p.mark b.hash).Grows s rank (rank b) q := by
        rcases hq with ⟨rfl, rfl, -⟩ | ⟨ht, hq⟩
        · exact ⟨rfl, .refl (hp.mark hk hon hb)⟩
        · exact hroll b _ q s₁ hon ht (hp.mark hk hon hb) hq
      obtain ⟨rfl, hgrow⟩ := follow
      have hadd := hp.grows_add hk hsplit hl (hf.trans (by simp)) hb hnew hgrow
      have hstep : (a, b) ∈ (q.add a b).steps := by simp [Plan.add]
      obtain ⟨hs', hgrows, hall⟩ := ih (b :: later) hc'
        (List.forall_mem_cons.mpr ⟨hstep, fun x hx => hadd.subset (hl x hx)⟩) hrest hadd.ordered hrun
      exact ⟨hs', hadd.trans hgrows, List.forall_mem_cons.mpr ⟨hgrows.subset hstep, hall⟩⟩

/-- The blocks from the receive of a send on are ranked above the send. -/
theorem Book.Ranks.above {k : Book} {bound : ℕ} (hr : k.Ranks rank bound) (hk : k.Wf) {a : Str}
    {pre post : AccountChain} {b r : Block} (hb : k.On b) (ht : b.type = .send)
    (hc : k.chain a = pre ++ r :: post) (hrt : r.type = .receive) (hsrc : r.source = b.hash) :
    ∀ x ∈ r :: post, rank b < rank x := by
  have hbr : rank b < rank r :=
    hr.receive b r hb ht (Book.On.of_mem hk (a := a) (by rw [hc]; simp)) hrt hsrc
  intro x hx
  rcases List.mem_cons.mp hx with rfl | hx
  · exact hbr
  · exact hbr.trans (hr.chain a pre r post hc x hx)

/-- **Following a send** grows a plan by blocks that are ranked above it. -/
theorem planRollbackOfSend_grows (hk : s.book.Wf) {bound : ℕ} (hr : s.book.Ranks rank bound)
    (quote : Str → Str) (fuel : ℕ) : Follows s rank (planRollbackOfSend quote fuel) := by
  induction fuel with
  | zero =>
    intro b p p' s' _ _ _ hrun
    cases hrun
  | succ fuel ih =>
    intro b p p' s' hb ht hp hrun
    rcases planRollbackOfSend_cases hrun with ⟨rfl, rfl, -⟩ | ⟨n, send, hn, hsend, hfrom⟩
    · exact ⟨rfl, .refl hp⟩
    · cases hn
      have hknown : s.store.blocks.get b.hash = some b := hk.known b hb
      rw [hknown] at hsend
      cases hsend
      rcases planRollbackFrom_cases hfrom with
        ⟨rfl, rfl, -⟩ | ⟨pre, r, post, hc, hrt, hsrc, hf, hblocks⟩
      · exact ⟨rfl, .refl hp⟩
      · have habove := hr.above hk hb ht hc hrt hsrc
        obtain ⟨hs', hgrows, -⟩ := planBlocks_grows hk ih pre []
          (by rw [hc, List.reverse_reverse, List.append_nil])
          (fun x hx => absurd hx List.not_mem_nil) hf
          (fun x hx => habove x (List.mem_reverse.mp hx)) hp hblocks
        exact ⟨hs', hgrows⟩

end Follow

/-! ## Planning ends -/

section End

variable {s : State} {rank : Block → ℕ} {rollback : Str → Plan → M Plan}

theorem planBlocks_ends {refuse : Block → Str} {a : Str} {bs : List Block} {p : Plan}
    (hro : ∀ h p, (rollback h p).Inert)
    (hroll : ∀ b ∈ bs, b.type = .send → ∀ p, (rollback b.hash p).run s ≠ none) :
    (planBlocks rollback refuse a bs p).run s ≠ none := by
  induction bs generalizing p with
  | nil => exact Option.some_ne_none _
  | cons b bs ih =>
    have hrest : ∀ x ∈ bs, x.type = .send → ∀ p, (rollback x.hash p).run s ≠ none :=
      fun x hx => hroll x (List.mem_cons_of_mem _ hx)
    unfold planBlocks
    split_ifs with hin hc ht
    · exact ih hrest
    · exact Option.some_ne_none _
    · rw [run_readStore_bind]
      cases s.store.pending.get b.hash with
      | some ps => exact ih hrest
      | none =>
        refine run_bind_ne_none (hroll b List.mem_cons_self ht _) fun q s₁ hq => ?_
        obtain rfl := (hro _ _).still s _ _ hq
        exact ih hrest
    · exact ih hrest

theorem planRollbackFrom_ends {quote : Str → Str} {a h : Str} {p : Plan}
    (hro : ∀ h p, (rollback h p).Inert)
    (hroll : ∀ pre r post, s.book.chain a = pre ++ r :: post → r.type = .receive → r.source = h →
      ∀ x ∈ r :: post, x.type = .send → ∀ p, (rollback x.hash p).run s ≠ none) :
    (planRollbackFrom quote rollback a h p).run s ≠ none := by
  unfold planRollbackFrom
  rw [run_getAccountChain_bind]
  cases hc : s.store.chains.get a with
  | none => exact Option.some_ne_none _
  | some chain =>
    dsimp only
    cases hidx : chain.findIdx? (fun b => b.type == .receive && b.source == h) with
    | none => exact Option.some_ne_none _
    | some i =>
      obtain ⟨hi, hpi, -⟩ := List.findIdx?_eq_some_iff_getElem.mp hidx
      simp only [Bool.and_eq_true, beq_iff_eq] at hpi
      have hdrop : chain.drop i = chain[i] :: chain.drop (i + 1) := List.drop_eq_getElem_cons hi
      have hsplit : s.book.chain a = chain.take i ++ chain[i] :: chain.drop (i + 1) := by
        rw [Book.chain_of_get (k := s.book) hc, ← hdrop, List.take_append_drop]
      simp only [run_finalHeight_bind]
      refine run_bind_ne_none ?_ fun _ s₁ hs₁ => ?_
      · rw [failIf, run_failIf]
        split_ifs <;> exact Option.some_ne_none _
      · obtain ⟨-, rfl⟩ := run_failIf_ok.mp hs₁
        refine planBlocks_ends hro fun x hx => ?_
        rw [hdrop, List.mem_reverse] at hx
        exact hroll _ _ _ hsplit hpi.1 hpi.2 x hx

/-- **Following a send ends**, if the depth that is left reaches the top of the ranking. -/
theorem planRollbackOfSend_ends (hk : s.book.Wf) {bound : ℕ} (hr : s.book.Ranks rank bound)
    (quote : Str → Str) {fuel : ℕ} {b : Block} (hb : s.book.On b) (ht : b.type = .send)
    (hfuel : bound ≤ fuel + rank b) (p : Plan) :
    (planRollbackOfSend quote fuel b.hash p).run s ≠ none := by
  induction fuel generalizing b p with
  | zero =>
    have := hr.below b hb
    omega
  | succ fuel ih =>
    have hknown : s.store.blocks.get b.hash = some b := hk.known b hb
    unfold planRollbackOfSend
    rw [run_readStore_bind]
    cases s.store.pending.get b.hash with
    | some ps => exact Option.some_ne_none _
    | none =>
      simp only [run_getBlock_bind, hknown]
      split_ifs
      · exact Option.some_ne_none _
      · refine planRollbackFrom_ends (inert_planRollbackOfSend fuel) ?_
        intro pre r post hc hrt hsrc x hx hxt q
        have habove := hr.above hk hb ht hc hrt hsrc x hx
        have hxon : s.book.On x :=
          Book.On.of_mem hk (a := b.destination) (by rw [hc]; exact List.mem_append_right _ hx)
        exact ih hxon hxt (by omega) q

end End

/-! ## The plan of a swap -/

section Swap

variable {s : State} {rank : Block → ℕ} {bound : ℕ} {account : Str} {old : Block}
  {before after : AccountChain}

theorem Follows.wrapErr {rollback : Str → Plan → M Plan} (h : Follows s rank rollback)
    (message : Str) : Follows s rank (fun x p => Xe.wrapErr message (rollback x p)) :=
  fun b p p' s' hb ht hp hrun => h b p p' s' hb ht hp (run_wrapErr_ok.mp hrun)

theorem planSwap_listed (hk : s.book.Wf) (hr : s.book.Ranks rank bound)
    (hc : s.book.chain account = before ++ old :: after)
    (hf : s.store.finalHeightOf account ≤ before.length) {c : Ctx} {plan : Plan} {s' : State}
    (h : (planSwap c account old after).run s = some (.ok plan, s')) :
    plan.Listed s ∧ ∀ x ∈ old :: after, (account, x) ∈ plan.steps := by
  have hroll := (planRollbackOfSend_grows hk hr c.lib.quote c.fuel).wrapErr (str "SwapBlock: ")
  have hon : s.book.On old := Book.On.of_mem hk (a := account) (by rw [hc]; simp)
  obtain ⟨p₁, s₁, hp₁, h₁⟩ := run_bind_eq_ok.mp h
  obtain ⟨rfl, hgrow₁, hall⟩ := planBlocks_grows hk hroll (before ++ [old]) []
    (by rw [hc]; simp) (fun x hx => absurd hx List.not_mem_nil) (hf.trans (by simp))
    (fun x hx => hr.chain account before old after hc x (List.mem_reverse.mp hx))
    (Plan.Ordered.new _ rank (rank old)) hp₁
  -- what is listed is ranked above the replaced block
  have finish : ∀ p₂, Plan.new.Grows s₁ rank (rank old) p₂ → p₁.steps ⊆ p₂.steps →
      (p₂.add account old).Listed s₁ ∧
        ∀ x ∈ old :: after, (account, x) ∈ (p₂.add account old).steps := by
    intro p₂ hgrow hsub
    obtain ⟨new, hnew, hrank, -⟩ := hgrow.steps
    have hafter : ∀ x ∈ after, (account, x) ∈ p₂.steps :=
      fun x hx => hsub (hall x (List.mem_reverse.mpr hx))
    refine ⟨hgrow.ordered.toListed.add hk hc ?_ hafter hf, List.forall_mem_cons.mpr ⟨?_, ?_⟩⟩
    · intro hold
      rw [hnew] at hold
      exact lt_irrefl _ (hrank _ hold)
    · exact List.mem_concat_self
    · exact fun x hx => List.mem_append_left _ (hafter x hx)
  dsimp only at h₁
  by_cases ht : old.type = .send
  · rw [if_pos ht, run_readStore_bind] at h₁
    cases hpend : s₁.store.pending.get old.hash with
    | some ps =>
      simp only [hpend] at h₁
      cases h₁
      exact finish p₁ hgrow₁ fun _ hx => hx
    | none =>
      simp only [hpend] at h₁
      obtain ⟨p₂, s₂, hp₂, h₂⟩ := run_bind_eq_ok.mp h₁
      cases h₂
      obtain ⟨rfl, hgrow₂⟩ := hroll old p₁ p₂ _ hon ht hgrow₁.ordered hp₂
      exact finish p₂ (hgrow₁.trans hgrow₂) hgrow₂.subset
  · rw [if_neg ht] at h₁
    cases h₁
    exact finish p₁ hgrow₁ fun _ hx => hx

/-- **Planning a swap ends**, if the depth reaches the top of the ranking. -/
theorem planSwap_ends (hk : s.book.Wf) (hr : s.book.Ranks rank bound)
    (hc : s.book.chain account = before ++ old :: after) {c : Ctx} (hfuel : bound ≤ c.fuel) :
    (planSwap c account old after).run s ≠ none := by
  have hon : ∀ x ∈ old :: after, s.book.On x := fun x hx =>
    Book.On.of_mem hk (a := account) (by rw [hc]; exact List.mem_append_right _ hx)
  have hro : ∀ h p, (wrapErr (str "SwapBlock: ")
      (planRollbackOfSend c.lib.quote c.fuel h p)).Inert :=
    fun h p => each_wrapErr _ (inert_planRollbackOfSend _ h p)
  have hends : ∀ x ∈ old :: after, x.type = .send → ∀ p, (wrapErr (str "SwapBlock: ")
      (planRollbackOfSend c.lib.quote c.fuel x.hash p)).run s ≠ none := by
    intro x hx ht p
    rw [run_wrapErr, ne_eq, Option.map_eq_none_iff]
    exact planRollbackOfSend_ends hk hr _ (hon x hx) ht (by omega) p
  refine run_bind_ne_none (planBlocks_ends hro fun x hx =>
    hends x (List.mem_cons_of_mem _ (List.mem_reverse.mp hx))) fun p₁ s₁ hp₁ => ?_
  obtain rfl := (inert_planBlocks hro _ _ _).still s _ _ hp₁
  dsimp only
  split_ifs with ht
  · rw [run_readStore_bind]
    cases s₁.store.pending.get old.hash with
    | some ps => exact Option.some_ne_none _
    | none =>
      refine run_bind_ne_none (hends old List.mem_cons_self ht p₁) fun p₂ s₂ _ => ?_
      exact Option.some_ne_none _
  · exact Option.some_ne_none _

end Swap

/-! ## Building the undos -/

section Build

variable {s s' : State}

theorem buildBlockUndo_error {account : Str} {b last : Block} {rest : AccountChain} {f : Fault}
    (hl : last.hash = b.hash)
    (h : (buildBlockUndo account b (some (rest ++ [last]))).run s = some (.error f, s')) :
    (undoEffect b).run s = some (.error f, s) := by
  unfold buildBlockUndo at h
  have hlast : ((some (rest ++ [last])).bind List.getLast?).map (·.hash) = some b.hash := by
    simp [hl]
  rw [failIf, run_failIf_bind, if_neg (not_not.mpr hlast)] at h
  rcases run_bind_eq_some.mp h with ⟨e, he, hr⟩ | ⟨e, s₁, he, hrest⟩
  · cases hr
    obtain rfl := (readOnly_undoEffect b).still s _ _ he
    exact he
  · -- what is left reads balances
    dsimp only at hrest
    by_cases hz : b.previous = zeroPrev
    · rw [if_pos hz] at hrest
      cases hrest
    · by_cases hx : assetOrXE b.asset = assetXUSD
      · rw [if_neg hz, if_pos hx] at hrest
        cases hrest
      · rw [if_neg hz, if_neg hx] at hrest
        cases hrest

theorem Plan.Listed.next {p : Plan} (h : p.Listed s) {done rest : List (Str × Block)} {a : Str}
    {b : Block} (hp : p.steps = done ++ (a, b) :: rest) {rem : AccountChain}
    (hrem : s.book.chain a = rem ++ ((done.filter (·.1 = a)).map Prod.snd).reverse) :
    ∃ init, rem = init ++ [b] := by
  obtain ⟨pre, suf, hc, htail⟩ := h.tail a
  rw [hp] at htail
  simp only [List.filter_append, List.filter_cons, decide_true, if_true, List.map_append,
    List.map_cons] at htail
  have hsuf : suf = (((rest.filter (·.1 = a)).map Prod.snd).reverse ++ [b]) ++
      ((done.filter (·.1 = a)).map Prod.snd).reverse := by
    rw [← List.reverse_reverse suf, ← htail]
    simp
  rw [hrem, hsuf, ← List.append_assoc, ← List.append_assoc] at hc
  exact ⟨_, List.append_cancel_right hc⟩

/-- **The undos of a plan are built**, each on the last block of what is left of its chain: a failure
is that of undoing the effect of a listed block. -/
theorem buildCascade_error {p : Plan} (hl : p.Listed s) (done : List (Str × Block))
    {steps : List (Str × Block)} (hp : p.steps = done ++ steps)
    {snapshots : Table Str AccountChain} {cb : CascadeBuild}
    (hsnap : ∀ a, s.book.chain a = (snapshots.get a).getD (s.book.chain a) ++
      ((done.filter (·.1 = a)).map Prod.snd).reverse)
    {f : Fault} (h : (buildCascade steps snapshots cb).run s = some (.error f, s')) :
    ∃ a b e, (a, b) ∈ steps ∧ (undoEffect b).run s = some (.error e, s) ∧
      f = Store.wrapFault (str "SwapBlock: build undo for " ++ shortHash b.hash ++ str ": ") e := by
  induction steps generalizing done snapshots cb with
  | nil => cases h
  | cons step steps ih =>
    obtain ⟨a, b⟩ := step
    obtain ⟨init, hinit⟩ := hl.next hp (hsnap a)
    -- the undo of the block, and the rest of the plan on what it leaves
    have tail : (wrapErr (str "SwapBlock: build undo for " ++ shortHash b.hash ++ str ": ")
        (buildBlockUndo a b (some (init ++ [b]))) >>= fun x =>
          buildCascade steps (snapshots.set a x.1.chain) (cb.addUndo x.1 x.2)).run s =
            some (.error f, s') →
        ∃ a' b' e, (a', b') ∈ (a, b) :: steps ∧ (undoEffect b').run s = some (.error e, s) ∧
          f = Store.wrapFault (str "SwapBlock: build undo for " ++ shortHash b'.hash ++ str ": ")
            e := by
      intro hrun
      rcases run_bind_eq_some.mp hrun with ⟨f', hf', hr⟩ | ⟨x, s₁, hx, hrest⟩
      · cases hr
        rw [run_wrapErr, Option.map_eq_some_iff] at hf'
        obtain ⟨⟨r, s₁⟩, hb, hr⟩ := hf'
        cases r with
        | ok y => cases hr
        | error e =>
          cases hr
          exact ⟨a, b, e, List.mem_cons_self, buildBlockUndo_error rfl hb, rfl⟩
      · obtain ⟨rfl, newChain, last, e, hch, -, -, rfl⟩ := buildBlockUndo_ok (run_wrapErr_ok.mp hx)
        obtain ⟨rfl, -⟩ := List.append_inj' (Option.some.inj hch) rfl
        have hp' : p.steps = (done ++ [(a, b)]) ++ steps := by
          rw [hp, List.append_assoc]
          rfl
        have hsnap' : ∀ a', s₁.book.chain a' =
            ((snapshots.set a init).get a').getD (s₁.book.chain a') ++
              (((done ++ [(a, b)]).filter (·.1 = a')).map Prod.snd).reverse := by
          intro a'
          rw [Table.get_set]
          by_cases ha : a' = a
          · subst ha
            have hc := hsnap a'
            rw [hinit] at hc
            simpa using hc
          · simpa [ha, Ne.symm ha] using hsnap a'
        obtain ⟨a', b', e', hmem, he', hf'⟩ := ih _ hp' hsnap' hrest
        exact ⟨a', b', e', List.mem_cons_of_mem _ hmem, he', hf'⟩
    unfold buildCascade at h
    cases hs : snapshots.get a with
    | some snap =>
      rw [hs, Option.getD_some] at hinit
      simp only [hs, hinit] at h
      exact tail h
    | none =>
      rw [hs, Option.getD_none] at hinit
      simp only [hs] at h
      rw [run_getAccountChain_bind] at h
      cases hc : s.store.chains.get a with
      | none =>
        rw [Book.chain_of_none (k := s.book) hc] at hinit
        simp at hinit
      | some chain =>
        rw [Book.chain_of_get (k := s.book) hc] at hinit
        rw [hc, hinit] at h
        exact tail h

end Build

/-- **The plan of a swap** of a block above the final height.  Planning ends, and what it comes to
lists the block and those after it, each block once, of each chain its latest blocks and these from
the end, every send after its receive, and no final block; the undos can then be built in this
order, unless the effect of one of the blocks cannot be undone. -/
theorem plan_sound {node : Node} {D : Set Str} {ok : State → Op → Prop} {s : State}
    (hD : IdealHash node.lib D) (hg : GenesisSealed node.lib D node.genesis)
    (h : Reachable node D ok s) {account : Str} {before after : AccountChain} {old : Block}
    (hc : s.book.chain account = before ++ old :: after)
    (hf : s.store.finalHeightOf account ≤ before.length) :
    (∃ n, ∀ c : Ctx, n ≤ c.fuel → ∃ r, (planSwap c account old after).run s = some (r, s)) ∧
    ∀ (c : Ctx) plan s', (planSwap c account old after).run s = some (.ok plan, s') →
      (∀ x ∈ old :: after, (account, x) ∈ plan.steps) ∧ plan.steps.Nodup ∧
      (∀ a, ∃ pre suf, s.book.chain a = pre ++ suf ∧
        (plan.steps.filter (·.1 = a)).map Prod.snd = suf.reverse) ∧
      (∀ pre a b post, plan.steps = pre ++ (a, b) :: post → b.type = .send →
        ∀ r, s.book.On r → r.type = .receive → r.source = b.hash → (r.account, r) ∈ pre) ∧
      (∀ a b, (a, b) ∈ plan.steps → ∃ pre post, s.book.chain a = pre ++ b :: post ∧
        s.store.finalHeightOf a ≤ pre.length) ∧
      ∀ w f s'', (buildCascade plan.steps .empty (.new w)).run s = some (.error f, s'') →
        ∃ a b e, (a, b) ∈ plan.steps ∧ (undoEffect b).run s = some (.error e, s) ∧
          f = Store.wrapFault (str "SwapBlock: build undo for " ++ shortHash b.hash ++ str ": ")
            e := by
  have hi := h.inv hD hg
  obtain ⟨rank, bound, hr⟩ := h.ranked hD hg
  refine ⟨⟨bound, fun c hfuel => ?_⟩, fun c plan s' hplan => ?_⟩
  · obtain ⟨⟨r, s'⟩, hrun⟩ := Option.ne_none_iff_exists'.mp (planSwap_ends hi.wf hr hc hfuel)
    obtain rfl := (inert_planSwap c account old after).still s _ _ hrun
    exact ⟨r, hrun⟩
  · obtain ⟨hlisted, hall⟩ := planSwap_listed hi.wf hr hc hf hplan
    obtain ⟨-, hready, -⟩ := hi.planReady hc hf hplan
    refine ⟨hall, hlisted.nodup, hlisted.tail, ?_, hlisted.notFinal, ?_⟩
    · intro pre a b post hsteps ht r hron hrt hsrc
      have hmem := hready.receivers (pre.map Prod.snd) b (post.map Prod.snd)
        (by rw [hsteps, List.map_append, List.map_cons]) ht r ⟨hron, hsrc, by rw [hrt]; rfl⟩
      obtain ⟨⟨a', r'⟩, hx, rfl⟩ := List.mem_map.mp hmem
      have hacc := (hready.ok.on a' r' (by rw [hsteps]; exact List.mem_append_left _ hx)).2.1
      exact hacc ▸ hx
    · intro w f s'' hbuild
      refine buildCascade_error hlisted [] rfl (fun a => ?_) hbuild
      simp [Table.get_empty]

open Sample in
theorem plan_sound_payment :
    ∃ s plan, Reachable node (domain [payment, receipt])
        (fun _ _ => true = true) s ∧
      (planSwap ctx (address 1) payment []).run s = some (.ok plan, s) ∧
      plan.steps = [(address 2, receipt), (address 1, payment)] ∧
      plan.steps.Nodup := by
  obtain ⟨s, h, hc, hf, hplan⟩ := exists_reachable_adds ctx rfl _
    [payment, receipt] (fun _ h => h)
    (P := fun s => s.book.chain (address 1) = [genesis, payment] ∧
      s.store.finalHeightOf (address 1) = 1 ∧
      ((planSwap ctx (address 1) payment []).run s).map
          (fun x => x.1.toOption.map Plan.steps) =
        some (some [(address 2, receipt), (address 1, payment)]))
    (by decide +kernel)
  have hsplit : s.book.chain (address 1) = [genesis] ++ payment :: [] := hc
  have hsound := (plan_sound payment_ideal (genesis_domain _) h hsplit hf.le).2
  obtain ⟨⟨r, s'⟩, hrun, hr⟩ := Option.map_eq_some_iff.mp hplan
  obtain rfl := (inert_planSwap _ _ _ _).still s _ _ hrun
  cases r with
  | error e => cases hr
  | ok plan =>
    have hsteps : plan.steps =
        [(address 2, receipt), (address 1, payment)] :=
      Option.some.inj hr
    exact ⟨s', plan, h, hrun, hsteps, (hsound _ plan s' hrun).2.1⟩

end Xe
