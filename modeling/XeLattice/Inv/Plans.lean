import XeLattice.Inv.Cascade

/-!
# Plans

What `planSwap` puts into a plan: blocks on chains, of types that a cascade can reverse, and, in a
sound book, a send only after the receive that consumed it.  All of it hangs on the replaced block
(`Book.Hangs`).  The recursion marks a send as planned before it follows it to its receiver, so that
at any moment a planned hash is that of a block in the plan or of a send whose receivers are still
being collected (`Plan.Ok`).

* **`planSwap_ok`**: the plan of a swap.
-/

set_option autoImplicit false

namespace Xe

open Prog

/-- **What hangs on a block**: the block itself, the later blocks of the chain of one that does, and
the receive of one that does. -/
inductive Book.Hangs (k : Book) (old : Block) : Block → Prop
  | self : k.Hangs old old
  | later {a : Str} {pre post : AccountChain} {x y : Block} (before : k.Hangs old x)
      (chain : k.chain a = pre ++ x :: post) (mem : y ∈ post) : k.Hangs old y
  | receive {x r : Block} (send : k.Hangs old x) (on : k.On r) (type : r.type = .receive)
      (source : r.source = x.hash) : k.Hangs old r

/-- What holds of a plan while it grows. -/
structure Plan.Ok (k : Book) (old : Block) (p : Plan) : Prop where
  on : ∀ a b, (a, b) ∈ p.steps → k.On b ∧ b.account = a ∧ cascadable b.type = true
  hangs : ∀ x ∈ p.steps, k.Hangs old x.2
  receivers : k.SendSound → ReceiversFirst k (p.steps.map Prod.snd)
  planned : ∀ b, k.On b → b.hash ∈ p.planned → b.type ≠ .send → (b.account, b) ∈ p.steps

theorem Plan.ok_new (k : Book) (old : Block) : Plan.new.Ok k old where
  on a b hb := by cases hb
  hangs x hx := by cases hx
  receivers _ := ReceiversFirst.nil k
  planned b _ hb := by cases hb

theorem ReceiversFirst.concat {k : Book} {bs : List Block} {b : Block} (h : ReceiversFirst k bs)
    (hb : b.type = .send → ∀ r, (k.slot b.hash).names r → r ∈ bs) :
    ReceiversFirst k (bs ++ [b]) := by
  intro pre x post he hx r hr
  rcases concat_eq_cases he with ⟨rfl, rfl, -⟩ | ⟨post', -, hbs⟩
  · exact hb hx r hr
  · exact h pre x post' hbs hx r hr

theorem Plan.Ok.concat {k : Book} {old : Block} {p : Plan} (h : p.Ok k old) {b : Block}
    (hb : k.On b) (hc : cascadable b.type = true) (hh : k.Hangs old b)
    (hr : k.SendSound → b.type = .send → ∀ r, (k.slot b.hash).names r → r ∈ p.steps.map Prod.snd) :
    Plan.Ok k old { p with steps := p.steps ++ [(b.account, b)] } where
  on a x hx := by
    rcases List.mem_append.mp hx with hx | hx
    · exact h.on a x hx
    · obtain ⟨rfl, rfl⟩ := Prod.mk.inj (List.mem_singleton.mp hx)
      exact ⟨hb, rfl, hc⟩
  hangs x hx := by
    rcases List.mem_append.mp hx with hx | hx
    · exact h.hangs x hx
    · obtain rfl := List.mem_singleton.mp hx
      exact hh
  receivers hs := by
    rw [List.map_append]
    exact (h.receivers hs).concat (hr hs)
  planned x hx hp ht := List.mem_append_left _ (h.planned x hx hp ht)

/-- What following a send to its receiver adds to a plan. -/
def RollsBack (k : Book) (old : Block) (s : State) (rollback : Str → Plan → M Plan) : Prop :=
  ∀ h p p' s', (rollback h p).run s = some (.ok p', s') → p.Ok k old →
    (∃ x, k.Hangs old x ∧ x.hash = h) →
    s' = s ∧ p'.Ok k old ∧ p.steps ⊆ p'.steps ∧ (k.SendSound → ∀ b, k.On b → b.hash = h →
      b.type = .send → ∀ r, (k.slot h).names r → r ∈ p'.steps.map Prod.snd)

section Plan

variable {s : State} {rollback : Str → Plan → M Plan} {refuse : Block → Str} {account : Str}
  {old : Block}

theorem Book.SendSound.send {k : Book} (hk : k.Wf) (hs : k.SendSound) {b : Block} (hb : k.On b)
    (ht : b.type = .send) : (k.slot b.hash).Ok := by
  refine (hs b.hash).resolve_right ?_
  rintro ⟨lb, hlb, hlt⟩
  rw [hk.known b hb] at hlb
  cases hlb
  rw [ht] at hlt
  cases hlt

theorem Book.SendSound.not_names_of_pending {k : Book} (hk : k.Wf) (hs : k.SendSound) {b : Block}
    (hb : k.On b) (ht : b.type = .send) {ps : PendingSend}
    (hp : k.pending.get b.hash = some ps) (r : Block) : ¬ (k.slot b.hash).names r := by
  have hiss : (k.slot b.hash).issued b := ⟨hb, rfl, by rw [ht]; rfl⟩
  cases hs.send hk hb ht with
  | unused issued => exact absurd hiss (issued b)
  | unspent _ _ _ _ _ _ _ names => exact names r
  | spent _ _ _ _ pending =>
    have : k.pending.get b.hash = none := pending
    rw [hp] at this
    cases this
  | lease lb l issued type =>
    obtain rfl := (issued b).mp hiss
    rw [ht] at type
    cases type

/-- The plan with a further hash that is being planned. -/
def Plan.mark (p : Plan) (h : Str) : Plan :=
  { p with planned := h :: p.planned }

/-- One block more. -/
def Plan.add (p : Plan) (account : Str) (b : Block) : Plan :=
  { p with steps := p.steps ++ [(account, b)] }

/-- One round of the loop: a block is planned already, or it is added once the receiver of a spent
send has been followed. -/
theorem planBlocks_cons {b : Block} {bs : List Block} {p p' : Plan} {s' : State}
    (h : (planBlocks rollback refuse account (b :: bs) p).run s = some (.ok p', s')) :
    (b.hash ∈ p.planned ∧ (planBlocks rollback refuse account bs p).run s = some (.ok p', s')) ∨
    b.hash ∉ p.planned ∧ cascadable b.type = true ∧ ∃ q s₁,
      (q = p.mark b.hash ∧ s₁ = s ∧ (b.type = .send → s.store.pending.get b.hash ≠ none) ∨
        b.type = .send ∧ (rollback b.hash (p.mark b.hash)).run s = some (.ok q, s₁)) ∧
      (planBlocks rollback refuse account bs (q.add account b)).run s₁ = some (.ok p', s') := by
  unfold planBlocks at h
  by_cases hin : b.hash ∈ p.planned
  · rw [if_pos hin] at h
    exact .inl ⟨hin, h⟩
  · by_cases hc : cascadable b.type = false
    · rw [if_neg hin, if_pos hc] at h
      cases h
    · rw [if_neg hin, if_neg hc] at h
      refine .inr ⟨hin, by simpa using hc, ?_⟩
      by_cases ht : b.type = .send
      · rw [if_pos ht, run_readStore_bind] at h
        cases hpend : s.store.pending.get b.hash with
        | some ps =>
          simp only [hpend] at h
          exact ⟨_, s, .inl ⟨rfl, rfl, fun _ => Option.some_ne_none ps⟩, h⟩
        | none =>
          simp only [hpend] at h
          obtain ⟨q, s₁, hq, hrest⟩ := run_bind_eq_ok.mp h
          exact ⟨q, s₁, .inr ⟨ht, hq⟩, hrest⟩
      · rw [if_neg ht] at h
        exact ⟨_, s, .inl ⟨rfl, rfl, fun ht' => absurd ht' ht⟩, h⟩

theorem planBlocks_ok (hk : s.book.Wf) (hroll : RollsBack s.book old s rollback)
    {bs : List Block} (hbs : ∀ b ∈ bs, b ∈ s.book.chain account ∧ s.book.Hangs old b)
    {p p' : Plan} {s' : State}
    (h : (planBlocks rollback refuse account bs p).run s = some (.ok p', s'))
    (hp : p.Ok s.book old) :
    s' = s ∧ p'.Ok s.book old ∧ p.steps ⊆ p'.steps ∧
      ∀ b ∈ bs, b.type ≠ .send → (account, b) ∈ p'.steps := by
  induction bs generalizing p with
  | nil =>
    cases h
    exact ⟨rfl, hp, fun _ hx => hx, fun b hb => by cases hb⟩
  | cons b bs ih =>
    obtain ⟨hmem, hhangs⟩ := hbs b List.mem_cons_self
    have hon : s.book.On b := Book.On.of_mem hk hmem
    have hacc : b.account = account := hk.owner account b hmem
    have ih := @ih fun x hx => hbs x (.tail _ hx)
    rcases planBlocks_cons h with ⟨hin, hrun⟩ | ⟨-, hc, q, s₁, hq, hrun⟩
    · obtain ⟨rfl, hok, hsub, hrest⟩ := ih hrun hp
      refine ⟨rfl, hok, hsub, fun x hx ht => ?_⟩
      rcases List.mem_cons.mp hx with rfl | hx
      · exact hsub (hacc ▸ hp.planned x hon hin ht)
      · exact hrest x hx ht
    · -- marking a send as planned keeps the plan as it should be
      have mark : b.type = .send → (p.mark b.hash).Ok s.book old := by
        intro ht
        refine ⟨hp.on, hp.hangs, hp.receivers, fun x hx hxp hxt => ?_⟩
        rcases List.mem_cons.mp hxp with hh | hh
        · exact absurd (Book.On.eq_of_hash hk hx hon hh ▸ ht) hxt
        · exact hp.planned x hx hh hxt
      have follow : s₁ = s ∧ p.steps ⊆ q.steps ∧ (q.add account b).Ok s.book old := by
        rcases hq with ⟨rfl, rfl, hpend⟩ | ⟨ht, hq⟩
        · refine ⟨rfl, fun _ hx => hx, ?_⟩
          have hcat := hp.concat hon hc hhangs fun hs ht r hr => by
            obtain ⟨ps, hps⟩ := Option.ne_none_iff_exists'.mp (hpend ht)
            exact absurd hr (hs.not_names_of_pending hk hon ht hps r)
          rw [hacc] at hcat
          refine ⟨hcat.on, hcat.hangs, hcat.receivers, fun x hx hxp hxt => ?_⟩
          rcases List.mem_cons.mp hxp with hh | hh
          · obtain rfl := Book.On.eq_of_hash hk hx hon hh
            simp [Plan.add, hacc]
          · exact List.mem_append_left _ (hp.planned x hx hh hxt)
        · obtain ⟨rfl, hqok, hqsub, hqr⟩ := hroll _ _ _ _ hq (mark ht) ⟨b, hhangs, rfl⟩
          have hcat := hqok.concat hon hc hhangs fun hs _ => hqr hs b hon rfl ht
          rw [hacc] at hcat
          exact ⟨rfl, hqsub, hcat.on, hcat.hangs, hcat.receivers,
            fun x hx hxp hxt => List.mem_append_left _ (hqok.planned x hx hxp hxt)⟩
      obtain ⟨rfl, hsub, hadd⟩ := follow
      obtain ⟨hs', hok, hsub', hrest⟩ := ih hrun hadd
      refine ⟨hs', hok, fun x hx => hsub' (List.mem_append_left _ (hsub hx)), fun x hx ht => ?_⟩
      rcases List.mem_cons.mp hx with rfl | hx
      · exact hsub' (by simp [Plan.add])
      · exact hrest x hx ht

theorem Book.SendSound.receiver {k : Book} (hk : k.Wf) (hs : k.SendSound) {b r : Block} (hb : k.On b)
    (ht : b.type = .send) (hr : (k.slot b.hash).names r) :
    r.type = .receive ∧ r.account = b.destination ∧ ∀ x, (k.slot b.hash).names x → x = r := by
  have hiss : (k.slot b.hash).issued b := ⟨hb, rfl, by rw [ht]; rfl⟩
  cases hs.send hk hb ht with
  | unused _ _ _ names => exact absurd hr (names r)
  | unspent _ _ _ _ _ _ _ names => exact absurd hr (names r)
  | spent s r' issued _ _ _ names receive account =>
    obtain rfl := (names r).mp hr
    obtain rfl := (issued b).mp hiss
    exact ⟨receive, account, fun x hx => (names x).mp hx⟩
  | lease lb l issued type =>
    obtain rfl := (issued b).mp hiss
    rw [ht] at type
    cases type

/-- What `planRollbackFrom` does: the chain has no receive of the send, or the blocks from its first
receive on are planned. -/
theorem planRollbackFrom_cases {quote : Str → Str} {sendHash : Str} {p p' : Plan} {s' : State}
    (h : (planRollbackFrom quote rollback account sendHash p).run s = some (.ok p', s')) :
    (p' = p ∧ s' = s ∧ ∀ r ∈ s.book.chain account, r.type = .receive → r.source ≠ sendHash) ∨
    ∃ pre r post, s.book.chain account = pre ++ r :: post ∧ r.type = .receive ∧
      r.source = sendHash ∧ s.store.finalHeightOf account ≤ pre.length ∧
      (planBlocks rollback (refuseCascade quote account) account (r :: post).reverse p).run s =
        some (.ok p', s') := by
  unfold planRollbackFrom at h
  rw [run_getAccountChain_bind] at h
  cases hc : s.store.chains.get account with
  | none =>
    simp only [hc] at h
    cases h
    refine .inl ⟨rfl, rfl, fun r hr => ?_⟩
    rw [Book.chain_of_none (k := s.book) hc] at hr
    cases hr
  | some chain =>
    have hchain : s.book.chain account = chain := Book.chain_of_get hc
    rw [hchain]
    simp only [hc] at h
    cases hidx : chain.findIdx? (fun b => b.type == .receive && b.source == sendHash) with
    | none =>
      simp only [hidx] at h
      cases h
      refine .inl ⟨rfl, rfl, fun r hr ht hsrc => ?_⟩
      have := List.findIdx?_eq_none_iff.mp hidx r hr
      simp [ht, hsrc] at this
    | some i =>
      simp only [hidx, run_finalHeight_bind, run_failIf_bind_ok] at h
      obtain ⟨hi, hpi, -⟩ := List.findIdx?_eq_some_iff_getElem.mp hidx
      simp only [Bool.and_eq_true, beq_iff_eq] at hpi
      have hdrop : chain[i] :: chain.drop (i + 1) = chain.drop i := (List.drop_eq_getElem_cons hi).symm
      refine .inr ⟨chain.take i, chain[i], chain.drop (i + 1), ?_, hpi.1, hpi.2, ?_, ?_⟩
      · rw [hdrop, List.take_append_drop]
      · rw [List.length_take_of_le hi.le]
        omega
      · rw [hdrop]
        exact h.2

theorem planRollbackFrom_ok (hk : s.book.Wf) (hroll : RollsBack s.book old s rollback)
    {quote : Str → Str} {sendHash : Str} {p p' : Plan} {s' : State}
    (h : (planRollbackFrom quote rollback account sendHash p).run s = some (.ok p', s'))
    (hp : p.Ok s.book old) (hsend : ∃ x, s.book.Hangs old x ∧ x.hash = sendHash) :
    s' = s ∧ p'.Ok s.book old ∧ p.steps ⊆ p'.steps ∧
      ∀ r ∈ s.book.chain account, r.type = .receive → r.source = sendHash →
        (∀ x ∈ s.book.chain account, x.type = .receive → x.source = sendHash → x = r) →
          (account, r) ∈ p'.steps := by
  rcases planRollbackFrom_cases h with ⟨rfl, rfl, hnone⟩ | ⟨pre, r₀, post, hc, ht₀, hsrc₀, -, hrun⟩
  · exact ⟨rfl, hp, fun _ hx => hx, fun r hr ht hsrc => absurd hsrc (hnone r hr ht)⟩
  · obtain ⟨x, hx, rfl⟩ := hsend
    have hr₀ : s.book.Hangs old r₀ :=
      hx.receive (Book.On.of_mem hk (a := account) (by rw [hc]; simp)) ht₀ hsrc₀
    have hsub : ∀ b ∈ (r₀ :: post).reverse, b ∈ s.book.chain account ∧ s.book.Hangs old b := by
      intro b hb
      have hb := List.mem_reverse.mp hb
      refine ⟨hc ▸ List.mem_append_right _ hb, ?_⟩
      rcases List.mem_cons.mp hb with rfl | hb
      · exact hr₀
      · exact hr₀.later hc hb
    obtain ⟨hs', hok, hst, hrest⟩ := planBlocks_ok hk hroll hsub hrun hp
    refine ⟨hs', hok, hst, fun r hr ht hsrc huniq => ?_⟩
    -- the receive found first is the receive
    obtain rfl : r₀ = r := huniq r₀ (by rw [hc]; simp) ht₀ hsrc₀
    exact hrest r₀ (by simp) (by rw [ht]; exact BlockType.noConfusion)

/-- What `planRollbackOfSend` does: nothing for a send that is pending or unknown, and otherwise it
plans the chain of the receiver. -/
theorem planRollbackOfSend_cases {quote : Str → Str} {fuel : ℕ} {h : Str} {p p' : Plan} {s' : State}
    (hrun : (planRollbackOfSend quote fuel h p).run s = some (.ok p', s')) :
    (p' = p ∧ s' = s ∧ (s.store.pending.get h ≠ none ∨ s.store.blocks.get h = none ∨
      ∃ send, s.store.blocks.get h = some send ∧ send.destination = [])) ∨
    ∃ n send, fuel = n + 1 ∧ s.store.blocks.get h = some send ∧
      (planRollbackFrom quote (planRollbackOfSend quote n) send.destination h p).run s =
        some (.ok p', s') := by
  cases fuel with
  | zero => cases hrun
  | succ n =>
    unfold planRollbackOfSend at hrun
    rw [run_readStore_bind] at hrun
    cases hpend : s.store.pending.get h with
    | some ps =>
      simp only [hpend] at hrun
      cases hrun
      exact .inl ⟨rfl, rfl, .inl (Option.some_ne_none ps)⟩
    | none =>
      simp only [hpend, run_getBlock_bind] at hrun
      cases hblk : s.store.blocks.get h with
      | none =>
        simp only [hblk] at hrun
        cases hrun
        exact .inl ⟨rfl, rfl, .inr (.inl rfl)⟩
      | some send =>
        simp only [hblk] at hrun
        by_cases hd : send.destination = []
        · rw [if_pos hd] at hrun
          cases hrun
          exact .inl ⟨rfl, rfl, .inr (.inr ⟨send, rfl, hd⟩)⟩
        · rw [if_neg hd] at hrun
          exact .inr ⟨n, send, rfl, rfl, hrun⟩

theorem planRollbackOfSend_rollsBack (hk : s.book.Wf) (old : Block) (quote : Str → Str) (fuel : ℕ) :
    RollsBack s.book old s (planRollbackOfSend quote fuel) := by
  induction fuel with
  | zero =>
    intro h p p' s' hrun
    cases hrun
  | succ fuel ih =>
    intro h p p' s' hrun hp hfollow
    -- a send on a chain is the block that the store knows under its hash
    have hknown : ∀ b, s.book.On b → b.hash = h → s.store.blocks.get h = some b := by
      rintro b hb rfl
      exact hk.known b hb
    rcases planRollbackOfSend_cases hrun with ⟨rfl, rfl, hidle⟩ | ⟨n, send, hn, hsend, hfrom⟩
    · refine ⟨rfl, hp, fun _ hx => hx, fun hs b hb hh ht r hr => ?_⟩
      rcases hidle with hpend | hblk | ⟨send, hblk, hd⟩
      · obtain ⟨ps, hps⟩ := Option.ne_none_iff_exists'.mp hpend
        subst hh
        exact absurd hr (hs.not_names_of_pending hk hb ht hps r)
      · rw [hknown b hb hh] at hblk
        cases hblk
      · rw [hknown b hb hh] at hblk
        cases hblk
        exact absurd hd (hk.addressed b hb ht)
    · cases hn
      obtain ⟨hs', hok, hsub, hrest⟩ := planRollbackFrom_ok hk ih hfrom hp hfollow
      refine ⟨hs', hok, hsub, fun hs b hb hh ht r hr => ?_⟩
      rw [hknown b hb hh] at hsend
      cases hsend
      subst hh
      obtain ⟨hrt, hacc, huniq⟩ := hs.receiver hk hb ht hr
      obtain ⟨hron, hrsrc, -⟩ := hr
      refine List.mem_map_of_mem (f := Prod.snd) (hrest r (hacc ▸ hron) hrt hrsrc ?_)
      intro x hx hxt hxs
      exact huniq x ⟨Book.On.of_mem hk hx, hxs, by rw [hxt]; rfl⟩

theorem RollsBack.wrapErr {k : Book} (h : RollsBack k old s rollback) (before : Str) :
    RollsBack k old s (fun x p => Xe.wrapErr before (rollback x p)) :=
  fun x p p' s' hrun => h x p p' s' (run_wrapErr_ok.mp hrun)

/-- **The plan of a swap** ends with the replaced block, on which all of it hangs; what stands before
it is reversible, and in a sound book a send comes after its receive. -/
theorem planSwap_ok (hk : s.book.Wf) {c : Ctx} {before after : List Block}
    (hc : s.book.chain account = before ++ old :: after) (hg : old.type ≠ .genesis) {p : Plan}
    {s' : State} (h : (planSwap c account old after).run s = some (.ok p, s')) :
    s' = s ∧ PlanOk s.book p.steps ∧ (∀ x ∈ p.steps, s.book.Hangs old x.2) ∧
      (∃ steps, p.steps = steps ++ [(account, old)]) ∧
      (s.book.SendSound → ReceiversFirst s.book (p.steps.map Prod.snd)) := by
  have hroll :=
    (planRollbackOfSend_rollsBack hk old c.lib.quote c.fuel).wrapErr (str "SwapBlock: ")
  have hmem : old ∈ s.book.chain account := by rw [hc]; simp
  have hon : s.book.On old := Book.On.of_mem hk hmem
  have hacc : old.account = account := hk.owner account old hmem
  -- the last step of the plan
  have last : ∀ q : Plan, q.Ok s.book old → (s.book.SendSound →
      old.type = .send → ∀ r, (s.book.slot old.hash).names r → r ∈ q.steps.map Prod.snd) →
      PlanOk s.book (q.steps ++ [(account, old)]) ∧
        (∀ x ∈ q.steps ++ [(account, old)], s.book.Hangs old x.2) ∧
        (∃ steps, q.steps ++ [(account, old)] = steps ++ [(account, old)]) ∧
          (s.book.SendSound →
            ReceiversFirst s.book ((q.steps ++ [(account, old)]).map Prod.snd)) := by
    intro q hq hr
    refine ⟨⟨?_, ?_⟩, ?_, ⟨q.steps, rfl⟩, fun hs => ?_⟩
    · intro a b hb
      rcases List.mem_append.mp hb with hb | hb
      · obtain ⟨hbon, hba, hbc⟩ := hq.on a b hb
        exact ⟨hbon, hba, fun ht => by rw [ht] at hbc; cases hbc⟩
      · obtain ⟨rfl, rfl⟩ := Prod.mk.inj (List.mem_singleton.mp hb)
        exact ⟨hon, hacc, hg⟩
    · intro a b hb
      rw [List.dropLast_concat] at hb
      exact (hq.on a b hb).2.2
    · exact List.forall_mem_append.mpr ⟨hq.hangs, List.forall_mem_singleton.mpr .self⟩
    · rw [List.map_append]
      exact (hq.receivers hs).concat (hr hs)
  unfold planSwap at h
  obtain ⟨p₁, s₁, hp₁, hrest⟩ := run_bind_eq_ok.mp h
  have hsub : ∀ b ∈ after.reverse, b ∈ s.book.chain account ∧ s.book.Hangs old b := by
    intro b hb
    have hb := List.mem_reverse.mp hb
    exact ⟨by simp [hc, hb], .later .self hc hb⟩
  obtain ⟨rfl, hok, -, -⟩ := planBlocks_ok hk hroll hsub hp₁ (Plan.ok_new _ _)
  dsimp only at hrest
  by_cases ht : old.type = .send
  · rw [if_pos ht, run_readStore_bind] at hrest
    cases hpend : s₁.store.pending.get old.hash with
    | some ps =>
      simp only [hpend] at hrest
      cases hrest
      exact ⟨rfl, last p₁ hok fun hs _ r hr => absurd hr (hs.not_names_of_pending hk hon ht hpend r)⟩
    | none =>
      simp only [hpend] at hrest
      obtain ⟨p₂, s₂, hp₂, hend⟩ := run_bind_eq_ok.mp hrest
      obtain ⟨rfl, hok₂, -, hrec⟩ := hroll _ _ _ _ hp₂ hok ⟨old, .self, rfl⟩
      cases hend
      exact ⟨rfl, last p₂ hok₂ fun hs _ => hrec hs old hon rfl ht⟩
  · rw [if_neg ht] at hrest
    cases hrest
    exact ⟨rfl, last p₁ hok fun _ h => absurd h ht⟩

end Plan

end Xe
