import XeLattice.Inv.Chains

/-!
# What a send or a lease has become

Everything a book says about one hash: the send or the lease issued under it, its pending entry, its
lease record, and the blocks on chains that name it as their source.  In a sound book (`Book.Sound`)
every hash is unused, or a send that is pending or received once, or a lease in one of the stages of
its life.

* **`Appended.sound`**: appending a block keeps a book sound;
* **`Removed.sound`**: so does taking off a block that nothing on a chain depends on.
-/

set_option autoImplicit false

namespace Xe

/-! ## Kinds of blocks -/

/-- Blocks that leave a pending entry under their hash. -/
def isIssue : BlockType → Bool
  | .send | .lease => true
  | _ => false

/-- The types that name a lease. -/
def isLeaseOp : BlockType → Bool
  | .leaseAccept | .leaseRenew | .leaseSettle | .leaseCancel | .leaseForceSettle => true
  | _ => false

/-- Blocks that name a send or a lease as their source. -/
def isNaming (t : BlockType) : Bool :=
  t == .receive || isLeaseOp t

theorem not_isIssue_of_isNaming {t : BlockType} (h : isNaming t = true) : isIssue t = false := by
  cases t <;> first | rfl | cases h

/-! ## The stages of a lease -/

/-- How far a lease with the record `l`, the entry `p` and the blocks `N` that name it has come. -/
inductive LeaseStage (l : Lease) (p : Option PendingSend) (N : Block → Prop) : Prop
  | created (state : l.state = .created) (pending : p ≠ none) (names : ∀ x, ¬ N x)
  | accepted (a : Block) (state : l.state = .accepted) (pending : p ≠ none)
      (accept : a.type = .leaseAccept) (named : N a)
      (names : ∀ x, N x → x = a ∨ x.type = .leaseRenew)
  | cancelled (e : Block) (state : l.state = .cancelled) (pending : p = none)
      (cancel : e.type = .leaseCancel) (names : ∀ x, N x ↔ x = e)
  | ended (a e : Block) (state : l.state = .settled ∨ l.state = .unfulfilled) (pending : p = none)
      (accept : a.type = .leaseAccept) (named : N a)
      (finish : e.type = .leaseSettle ∨ e.type = .leaseForceSettle) (last : N e)
      (names : ∀ x, N x → x = a ∨ x = e ∨ x.type = .leaseRenew)

namespace LeaseStage

variable {l l' : Lease} {p p' : Option PendingSend} {N N' : Block → Prop} {b x y : Block}

theorem ops (h : LeaseStage l p N) (hx : N x) : isLeaseOp x.type = true := by
  cases h with
  | created _ _ names => exact absurd hx (names x)
  | accepted a _ _ accept _ names =>
    rcases names x hx with rfl | ht
    · rw [accept]
      rfl
    · rw [ht]
      rfl
  | cancelled e _ _ cancel names =>
    rw [(names x).mp hx, cancel]
    rfl
  | ended a e _ _ accept _ finish _ names =>
    rcases names x hx with rfl | rfl | ht
    · rw [accept]
      rfl
    · rcases finish with ht | ht <;> rw [ht] <;> rfl
    · rw [ht]
      rfl

theorem accept (h : LeaseStage l p N) (hl : l.state = .created) (hb : b.type = .leaseAccept)
    (hN : ∀ x, N' x ↔ N x ∨ x = b) (hl' : l'.state = .accepted) : LeaseStage l' p N' := by
  cases h with
  | created _ pending names =>
    refine .accepted b hl' pending hb ((hN b).mpr (.inr rfl)) fun x hx => .inl ?_
    exact ((hN x).mp hx).resolve_left (names x)
  | accepted _ state | cancelled _ state | ended _ _ state => simp [hl] at state

theorem renew (h : LeaseStage l p N) (hl : l.state = .accepted) (hb : b.type = .leaseRenew)
    (hN : ∀ x, N' x ↔ N x ∨ x = b) (hl' : l'.state = .accepted) (hp' : p' ≠ none) :
    LeaseStage l' p' N' := by
  cases h with
  | accepted a _ _ accept named names =>
    refine .accepted a hl' hp' accept ((hN a).mpr (.inl named)) fun x hx => ?_
    rcases (hN x).mp hx with hx | rfl
    · exact names x hx
    · exact .inr hb
  | created state | cancelled _ state | ended _ _ state => simp [hl] at state

theorem cancel (h : LeaseStage l p N) (hl : l.state = .created) (hb : b.type = .leaseCancel)
    (hN : ∀ x, N' x ↔ N x ∨ x = b) (hl' : l'.state = .cancelled) : LeaseStage l' none N' := by
  cases h with
  | created _ _ names =>
    refine .cancelled b hl' rfl hb fun x => (hN x).trans ?_
    exact or_iff_right (names x)
  | accepted _ state | cancelled _ state | ended _ _ state => simp [hl] at state

theorem finish (h : LeaseStage l p N) (hl : l.state = .accepted)
    (hb : b.type = .leaseSettle ∨ b.type = .leaseForceSettle) (hN : ∀ x, N' x ↔ N x ∨ x = b)
    (hl' : l'.state = .settled ∨ l'.state = .unfulfilled) : LeaseStage l' none N' := by
  cases h with
  | accepted a _ _ accept named names =>
    refine .ended a b hl' rfl accept ((hN a).mpr (.inl named)) hb ((hN b).mpr (.inr rfl))
      fun x hx => ?_
    rcases (hN x).mp hx with hx | rfl
    · exact (names x hx).imp_right .inr
    · exact .inr (.inl rfl)
  | created state | cancelled _ state | ended _ _ state => simp [hl] at state

theorem undoAccept (h : LeaseStage l p N) (hbN : N b) (hb : b.type = .leaseAccept)
    (honly : ∀ x, N x → x = b) (hN : ∀ x, N' x ↔ N x ∧ x ≠ b) (hl' : l'.state = .created) :
    LeaseStage l' p N' := by
  have hnone : ∀ x, ¬ N' x := fun x hx => ((hN x).mp hx).2 (honly x ((hN x).mp hx).1)
  cases h with
  | created _ _ names => exact absurd hbN (names b)
  | accepted _ _ pending => exact .created hl' pending hnone
  | cancelled e _ _ cancel names =>
    rw [← (names b).mp hbN, hb] at cancel
    cases cancel
  | ended _ e _ _ _ _ finish last =>
    rw [honly e last, hb] at finish
    rcases finish with hf | hf <;> cases hf

theorem undoCancel (h : LeaseStage l p N) (hbN : N b) (hb : b.type = .leaseCancel)
    (hN : ∀ x, N' x ↔ N x ∧ x ≠ b) (hl' : l'.state = .created) (hp' : p' ≠ none) :
    LeaseStage l' p' N' := by
  have other : (∃ a, a.type = .leaseAccept ∧ (b = a ∨ b.type = .leaseSettle ∨
      b.type = .leaseForceSettle ∨ b.type = .leaseRenew)) → False := by
    rintro ⟨a, ha, rfl | ht | ht | ht⟩
    · rw [hb] at ha
      cases ha
    all_goals rw [hb] at ht; cases ht
  cases h with
  | created _ _ names => exact absurd hbN (names b)
  | accepted a _ _ accept _ names =>
    exact absurd ⟨a, accept, (names b hbN).imp_right (.inr ∘ .inr)⟩ other
  | cancelled e _ _ _ names =>
    refine .created hl' hp' fun x hx => ((hN x).mp hx).2 ?_
    rw [(names x).mp ((hN x).mp hx).1, (names b).mp hbN]
  | ended a e _ _ accept _ finish _ names =>
    rcases names b hbN with hba | rfl | ht
    · exact absurd ⟨a, accept, .inl hba⟩ other
    · exact absurd ⟨a, accept, .inr (finish.imp_right .inl)⟩ other
    · exact absurd ⟨a, accept, .inr (.inr (.inr ht))⟩ other

theorem undoFinish (h : LeaseStage l p N) (hbN : N b)
    (hb : b.type = .leaseSettle ∨ b.type = .leaseForceSettle) (hN : ∀ x, N' x ↔ N x ∧ x ≠ b)
    (hl' : l'.state = .accepted) (hp' : p' ≠ none) : LeaseStage l' p' N' := by
  have hne : ∀ {t}, b.type = t → t ≠ .leaseAccept ∧ t ≠ .leaseRenew ∧ t ≠ .leaseCancel := by
    rintro t rfl
    rcases hb with ht | ht <;> rw [ht] <;> simp
  cases h with
  | created _ _ names => exact absurd hbN (names b)
  | accepted a _ _ accept _ names =>
    rcases names b hbN with rfl | ht
    · exact absurd accept (hne rfl).1
    · exact absurd rfl (hne ht).2.1
  | cancelled e _ _ cancel names =>
    rw [← (names b).mp hbN] at cancel
    exact absurd cancel (hne rfl).2.2
  | ended a e _ _ accept named _ _ names =>
    have hab : a ≠ b := by
      rintro rfl
      exact (hne rfl).1 accept
    have heb : b = e := by
      rcases names b hbN with rfl | rfl | ht
      · exact absurd rfl hab
      · rfl
      · exact absurd rfl (hne ht).2.1
    refine .accepted a hl' hp' accept ((hN a).mpr ⟨named, hab⟩) fun x hx => ?_
    obtain ⟨hx, hxb⟩ := (hN x).mp hx
    exact (names x hx).imp_right fun h => h.resolve_left fun hxe => hxb (hxe.trans heb.symm)

theorem undoRenew (h : LeaseStage l p N) (hb : b.type = .leaseRenew)
    (hN : ∀ x, N' x ↔ N x ∧ x ≠ b) (hl' : l'.state = l.state) (hp' : p' = none ↔ p = none) :
    LeaseStage l' p' N' := by
  have keep : ∀ {x}, N x → x.type ≠ .leaseRenew → N' x := by
    refine fun {x} hx ht => (hN x).mpr ⟨hx, ?_⟩
    rintro rfl
    exact ht hb
  cases h with
  | created state pending names =>
    exact .created (hl'.trans state) (fun h => pending (hp'.mp h)) fun x hx =>
      names x ((hN x).mp hx).1
  | accepted a state pending accept named names =>
    exact .accepted a (hl'.trans state) (fun h => pending (hp'.mp h)) accept
      (keep named (by simp [accept])) fun x hx => names x ((hN x).mp hx).1
  | cancelled e state pending cancel names =>
    refine .cancelled e (hl'.trans state) (hp'.mpr pending) cancel fun x =>
      ⟨fun hx => (names x).mp ((hN x).mp hx).1, ?_⟩
    rintro rfl
    exact keep ((names x).mpr rfl) (by simp [cancel])
  | ended a e state pending accept named finish last names =>
    rw [← hl'] at state
    refine .ended a e state (hp'.mpr pending) accept (keep named (by simp [accept])) finish
      (keep last ?_) fun x hx => names x ((hN x).mp hx).1
    rcases finish with ht | ht <;> simp [ht]

end LeaseStage

/-! ## Slots -/

/-- What a book says about one hash. -/
@[ext]
structure Slot where
  issued : Block → Prop
  pending : Option PendingSend
  record : Option Lease
  names : Block → Prop

/-- What the book has under a hash. -/
def Book.slot (k : Book) (h : Str) : Slot where
  issued x := k.On x ∧ x.hash = h ∧ isIssue x.type = true
  pending := k.pending.get h
  record := k.leases.get h
  names x := k.On x ∧ x.source = h ∧ isNaming x.type = true

/-- The pending entry of a send, up to the spelling of its asset. -/
structure EntryOf (s : Block) (ps : PendingSend) : Prop where
  sendHash : ps.sendHash = s.hash
  destination : ps.destination = s.destination
  amount : ps.amount = s.amount
  asset : assetOrXE ps.asset = assetOrXE s.asset

/-- The parties and the cost of a lease are those of its block. -/
structure Lease.Of (l : Lease) (lb : Block) : Prop where
  consumer : l.consumer = lb.account
  provider : l.provider = lb.destination
  cost : l.cost = lb.amount

/-- **A sound slot.** -/
inductive Slot.Ok (σ : Slot) : Prop
  | unused (issued : ∀ x, ¬ σ.issued x) (pending : σ.pending = none) (record : σ.record = none)
      (names : ∀ x, ¬ σ.names x)
  | unspent (s : Block) (ps : PendingSend) (issued : ∀ x, σ.issued x ↔ x = s)
      (type : s.type = .send) (pending : σ.pending = some ps) (entry : EntryOf s ps)
      (record : σ.record = none) (names : ∀ x, ¬ σ.names x)
  | spent (s r : Block) (issued : ∀ x, σ.issued x ↔ x = s) (type : s.type = .send)
      (pending : σ.pending = none) (record : σ.record = none) (names : ∀ x, σ.names x ↔ x = r)
      (receive : r.type = .receive) (account : r.account = s.destination)
  | lease (lb : Block) (l : Lease) (issued : ∀ x, σ.issued x ↔ x = lb) (type : lb.type = .lease)
      (record : σ.record = some l) (terms : l.Of lb)
      (stage : LeaseStage l σ.pending σ.names)

/-- **A sound book**: every slot is. -/
def Book.Sound (k : Book) : Prop :=
  ∀ h, (k.slot h).Ok

/-- Every slot but those of leases is sound. -/
def Book.SendSound (k : Book) : Prop :=
  ∀ h, (k.slot h).Ok ∨ ∃ lb, k.blocks.get h = some lb ∧ lb.type = .lease

theorem Book.Sound.sends {k : Book} (hs : k.Sound) : k.SendSound :=
  fun h => .inl (hs h)

theorem Slot.Ok.of_record {σ : Slot} (hs : σ.Ok) {l : Lease} (hl : σ.record = some l) :
    ∃ lb, (∀ x, σ.issued x ↔ x = lb) ∧ lb.type = .lease ∧ l.Of lb ∧
      LeaseStage l σ.pending σ.names := by
  cases hs with
  | unused _ _ record | unspent _ _ _ _ _ _ record | spent _ _ _ _ _ record =>
    rw [hl] at record
    cases record
  | lease lb l' issued type record terms stage =>
    rw [hl] at record
    cases record
    exact ⟨lb, issued, type, terms, stage⟩

theorem Slot.Ok.of_leaseOp {σ : Slot} (hs : σ.Ok) {b : Block} (hb : σ.names b)
    (ht : isLeaseOp b.type = true) : ∃ lb l, (∀ x, σ.issued x ↔ x = lb) ∧ lb.type = .lease ∧
      l.Of lb ∧ LeaseStage l σ.pending σ.names := by
  cases hs with
  | unused _ _ _ names | unspent _ _ _ _ _ _ _ names => exact absurd hb (names b)
  | spent s r _ _ _ _ names receive =>
    rw [(names b).mp hb, receive] at ht
    cases ht
  | lease lb l issued type _ terms stage => exact ⟨lb, l, issued, type, terms, stage⟩

theorem Slot.Ok.move {σ σ' : Slot} (hs : σ.Ok) {l l' : Lease} (hl : σ.record = some l)
    (hiss : ∀ x, σ'.issued x ↔ σ.issued x) (hl' : σ'.record = some l')
    (hterms : ∀ lb, σ.issued lb → l.Of lb → l'.Of lb)
    (hstage : LeaseStage l σ.pending σ.names → LeaseStage l' σ'.pending σ'.names) : σ'.Ok := by
  obtain ⟨lb, issued, type, terms, stage⟩ := hs.of_record hl
  exact .lease lb l' (fun x => (hiss x).trans (issued x)) type hl'
    (hterms lb ((issued lb).mpr rfl) terms) (hstage stage)

/-! ## Appending -/

section Append

variable {stale : Str → Prop} {k k' : Book} {b : Block}

theorem Entry.get_of_ne {pending : Table Str PendingSend} {leases : Table Str Lease}
    (h : Entry k stale b pending leases) {x : Str} (hi : isIssue b.type = true → x ≠ b.hash)
    (hn : isNaming b.type = true → x ≠ b.source) :
    pending.get x = k.pending.get x ∧ leases.get x = k.leases.get x := by
  cases h with
  | burn | mint | multisigOpen | multisigUpdate => exact ⟨rfl, rfl⟩
  | send type =>
    have hx : x ≠ b.hash := hi (by rw [type]; rfl)
    exact ⟨Table.get_set_of_ne _ hx _, rfl⟩
  | lease type =>
    have hx : x ≠ b.hash := hi (by rw [type]; rfl)
    exact ⟨Table.get_set_of_ne _ hx _, Table.get_set_of_ne _ hx _⟩
  | receive ps paid type =>
    have hx : x ≠ b.source := hn (by rw [type]; rfl)
    exact ⟨Table.get_del_of_ne _ hx, rfl⟩
  | leaseAccept lb l t type =>
    have hx : x ≠ b.source := hn (by rw [type]; rfl)
    exact ⟨rfl, Table.get_set_of_ne _ hx _⟩
  | leaseCancel lb l ps type | leaseForceSettle lb l ps paid type | leaseSettle l ps type =>
    have hx : x ≠ b.source := hn (by rw [type]; rfl)
    exact ⟨Table.get_del_of_ne _ hx, Table.get_set_of_ne _ hx _⟩
  | leaseRenew l ps t type =>
    have hx : x ≠ b.source := hn (by rw [type]; rfl)
    exact ⟨Table.get_set_of_ne _ hx _, Table.get_set_of_ne _ hx _⟩

namespace Appended

theorem issued_iff (h : Appended stale k b k') (y : Str) (x : Block) : (k'.slot y).issued x ↔
    (k.slot y).issued x ∨ x = b ∧ b.hash = y ∧ isIssue b.type = true := by
  refine (and_congr_left' (h.on_iff x)).trans (or_and_right.trans (or_congr_right ?_))
  exact and_congr_right fun hx => by rw [hx]

theorem names_iff (h : Appended stale k b k') (y : Str) (x : Block) : (k'.slot y).names x ↔
    (k.slot y).names x ∨ x = b ∧ b.source = y ∧ isNaming b.type = true := by
  refine (and_congr_left' (h.on_iff x)).trans (or_and_right.trans (or_congr_right ?_))
  exact and_congr_right fun hx => by rw [hx]

theorem slot_of_ne (h : Appended stale k b k') {x : Str} (hi : isIssue b.type = true → x ≠ b.hash)
    (hn : isNaming b.type = true → x ≠ b.source) : k'.slot x = k.slot x := by
  obtain ⟨hp, hl⟩ := h.entry.get_of_ne hi hn
  refine Slot.ext (funext fun y => propext ?_) hp hl (funext fun y => propext ?_)
  · rw [h.issued_iff]
    exact or_iff_left fun hy => hi hy.2.2 hy.2.1.symm
  · rw [h.names_iff]
    exact or_iff_left fun hy => hn hy.2.2 hy.2.1.symm

theorem slot_fresh (hs : (k.slot b.hash).Ok) (h : Appended stale k b k') :
    k.pending.get b.hash = none ∧ k.leases.get b.hash = none ∧ ∀ x, ¬ (k.slot b.hash).names x := by
  have hno : ∀ x, ¬ (k.slot b.hash).issued x := fun x hx => h.fresh x hx.1 hx.2.1
  cases hs with
  | unused _ pending record names => exact ⟨pending, record, names⟩
  | unspent s ps issued => exact absurd ((issued s).mpr rfl) (hno s)
  | spent s r issued => exact absurd ((issued s).mpr rfl) (hno s)
  | lease lb l issued => exact absurd ((issued lb).mpr rfl) (hno lb)

theorem slot_issue (hs : (k.slot b.hash).Ok) (h : Appended stale k b k')
    (ht : isIssue b.type = true) : (k'.slot b.hash).Ok := by
  obtain ⟨-, hfresh, hnames⟩ := h.slot_fresh hs
  have hiss : ∀ x, (k'.slot b.hash).issued x ↔ x = b := fun x => by
    rw [h.issued_iff, or_iff_right fun hx => h.fresh x hx.1 hx.2.1]
    exact and_iff_left ⟨rfl, ht⟩
  have hnn : ∀ x, ¬ (k'.slot b.hash).names x := by
    intro x hx
    rcases (h.names_iff _ _).mp hx with hx | ⟨-, -, hn⟩
    · exact hnames x hx
    · rw [not_isIssue_of_isNaming hn] at ht
      cases ht
  have hent := h.entry
  generalize hp : k'.pending = pending at hent
  generalize hl : k'.leases = leases at hent
  have slotP : k'.pending.get b.hash = pending.get b.hash := congrArg (·.get b.hash) hp
  have slotL : k'.leases.get b.hash = leases.get b.hash := congrArg (·.get b.hash) hl
  cases hent with
  | send type =>
    rw [Table.get_set_self] at slotP
    exact .unspent b _ hiss type slotP ⟨rfl, rfl, rfl, rfl⟩ (slotL.trans hfresh) hnn
  | lease type =>
    rw [Table.get_set_self] at slotP slotL
    refine .lease b (leaseRecord b) hiss type slotL ⟨rfl, rfl, rfl⟩ (.created rfl ?_ hnn)
    exact fun hnone => Option.some_ne_none _ (slotP.symm.trans hnone)
  | burn type | mint type | multisigOpen type | multisigUpdate type | receive _ _ type
  | leaseAccept _ _ _ type | leaseCancel _ _ _ type | leaseForceSettle _ _ _ _ type
  | leaseSettle _ _ type | leaseRenew _ _ _ type =>
    rw [type] at ht
    cases ht

theorem slot_source (hk : k.Wf) (hs : (k.slot b.source).Ok) (h : Appended stale k b k')
    (ht : isNaming b.type = true) : (k'.slot b.source).Ok := by
  have hN : ∀ x, (k'.slot b.source).names x ↔ (k.slot b.source).names x ∨ x = b := fun x => by
    rw [h.names_iff]
    exact or_congr_right (and_iff_left ⟨rfl, ht⟩)
  have hiss : ∀ x, (k'.slot b.source).issued x ↔ (k.slot b.source).issued x := fun x => by
    rw [h.issued_iff, not_isIssue_of_isNaming ht]
    exact or_iff_left fun hx => nomatch hx.2.2
  have hent := h.entry
  generalize hp : k'.pending = pending at hent
  generalize hl : k'.leases = leases at hent
  have slotP : (k'.slot b.source).pending = pending.get b.source := congrArg (·.get b.source) hp
  have slotL : (k'.slot b.source).record = leases.get b.source := congrArg (·.get b.source) hl
  cases hent with
  | send type | burn type | mint type | multisigOpen type | multisigUpdate type | lease type =>
    rw [type] at ht
    cases ht
  | receive ps paid type pending destination notLive =>
    rw [Table.get_del_self] at slotP
    have hpend : (k.slot b.source).pending = some ps := pending
    cases hs with
    | unused _ hpn | spent _ _ _ _ hpn =>
      rw [hpn] at hpend
      cases hpend
    | unspent s ps' issued stype hps entry record names =>
      rw [hps] at hpend
      cases hpend
      refine .spent s b (fun x => (hiss x).trans (issued x)) stype slotP (slotL.trans record)
        (fun x => ?_) type (destination.symm.trans entry.destination)
      rw [hN]
      exact or_iff_right (names x)
    | lease lb l _ _ record _ stage =>
      -- the escrow of a lease that has not ended cannot be received
      have hrec : k.leases.get b.source = some l := record
      rw [hrec] at notLive
      cases stage with
      | created state | accepted _ state => simp [isLive, state] at notLive
      | cancelled _ _ hpn | ended _ _ _ hpn =>
        rw [hpn] at hpend
        cases hpend
  | leaseAccept lb l t type asset block blockType provider record state =>
    rw [Table.get_set_self] at slotL
    refine hs.move record hiss slotL (fun lb' hlb' _ => ?_) fun hstage => ?_
    · have hknown := hk.known lb' hlb'.1
      rw [hlb'.2.1, block] at hknown
      cases hknown
      exact ⟨rfl, provider.symm, rfl⟩
    · rw [slotP]
      exact hstage.accept state type hN rfl
  | leaseCancel lb l ps type asset block blockType consumer record state =>
    rw [Table.get_set_self] at slotL
    rw [Table.get_del_self] at slotP
    refine hs.move record hiss slotL (fun _ _ h => ⟨h.1, h.2, h.3⟩) fun hstage => ?_
    rw [slotP]
    exact hstage.cancel state type hN rfl
  | leaseForceSettle lb l ps paid type asset block blockType consumer record state =>
    rw [Table.get_set_self] at slotL
    rw [Table.get_del_self] at slotP
    refine hs.move record hiss slotL (fun _ _ h => ⟨h.1, h.2, h.3⟩) fun hstage => ?_
    rw [slotP]
    exact hstage.finish state (.inr type) hN (.inr rfl)
  | leaseSettle l ps type asset record state =>
    rw [Table.get_set_self] at slotL
    rw [Table.get_del_self] at slotP
    refine hs.move record hiss slotL (fun _ _ h => ⟨h.1, h.2, h.3⟩) fun hstage => ?_
    rw [slotP]
    exact hstage.finish state (.inl type) hN (.inl rfl)
  | leaseRenew l ps t type asset record state =>
    rw [Table.get_set_self] at slotL slotP
    refine hs.move record hiss slotL (fun _ _ h => ⟨h.1, h.2, h.3⟩) fun hstage => ?_
    rw [slotP]
    exact hstage.renew state type hN state (Option.some_ne_none _)

theorem slot_ok (hk : k.Wf) (h : Appended stale k b k') {x : Str} (hs : (k.slot x).Ok) :
    (k'.slot x).Ok := by
  by_cases hi : isIssue b.type = true ∧ x = b.hash
  · obtain ⟨ht, rfl⟩ := hi
    exact h.slot_issue hs ht
  · by_cases hn : isNaming b.type = true ∧ x = b.source
    · obtain ⟨ht, rfl⟩ := hn
      exact h.slot_source hk hs ht
    · rw [h.slot_of_ne (fun ht hx => hi ⟨ht, hx⟩) (fun ht hx => hn ⟨ht, hx⟩)]
      exact hs

/-- **Appending a block keeps a book sound.** -/
theorem sound (hk : k.Wf) (hs : k.Sound) (h : Appended stale k b k') : k'.Sound :=
  fun x => h.slot_ok hk (hs x)

/-- Appending a block keeps the slots of sends sound, when its hash does not become or cease to be
that of a lease. -/
theorem sendSound (hk : k.Wf) (hs : k.SendSound) (h : Appended stale k b k')
    (ht : ∀ x, k.blocks.get b.hash = some x → x.type = b.type) : k'.SendSound := by
  intro x
  rcases hs x with hx | ⟨lb, hlb, hlt⟩
  · exact .inl (h.slot_ok hk hx)
  · refine .inr ?_
    rw [h.blocks, Table.get_set]
    split_ifs with hx
    · subst hx
      exact ⟨b, rfl, (ht lb hlb).symm.trans hlt⟩
    · exact ⟨lb, hlb, hlt⟩

end Appended

end Append

/-! ## Taking off -/

section Remove

variable {k k' : Book} {b : Block}

/-- Nothing on a chain that names `h` depends on the block. -/
structure Book.Free (k : Book) (b : Block) (h : Str) : Prop where
  send : b.type = .send → b.hash = h → k.pending.get h ≠ none
  lease : b.type = .lease → b.hash = h → ∀ x, ¬ (k.slot h).names x
  accept : b.type = .leaseAccept → b.source = h → ∀ x, (k.slot h).names x → x = b

theorem Book.Wf.escrowOf (hk : k.Wf) {h : Str} {ps : PendingSend}
    (hps : escrowOf k.blocks k.leases h = some ps) : ps.sendHash = h := by
  obtain ⟨lb, hlb, rfl⟩ := Option.map_eq_some_iff.mp hps
  exact (hk.hash h lb (Option.filter_eq_some_iff.mp hlb).1).1

theorem get_putSome_of_ne {p : Option PendingSend} {t : Table Str PendingSend} {x y : Str}
    (hp : ∀ ps, p = some ps → ps.sendHash = y) (hx : x ≠ y) :
    (Table.putSome (·.sendHash) p t).get x = t.get x := by
  cases p with
  | none => rfl
  | some ps =>
    rw [Table.putSome_some, hp ps rfl]
    exact Table.get_set_of_ne _ hx _

theorem Exit.get_of_ne (hk : k.Wf) {pending : Table Str PendingSend} {leases : Table Str Lease}
    (h : Exit k b pending leases) {x : Str} (hi : isIssue b.type = true → x ≠ b.hash)
    (hn : isNaming b.type = true → x ≠ b.source) :
    pending.get x = k.pending.get x ∧ leases.get x = k.leases.get x := by
  have escrow : x ≠ b.source →
      (Table.putSome (·.sendHash) (escrowOf k.blocks k.leases b.source) k.pending).get x =
        k.pending.get x := get_putSome_of_ne (fun ps hps => hk.escrowOf hps)
  cases h with
  | rest => exact ⟨rfl, rfl⟩
  | send type => exact ⟨Table.get_del_of_ne _ (hi (by rw [type]; rfl)), rfl⟩
  | lease type =>
    have hx : x ≠ b.hash := hi (by rw [type]; rfl)
    exact ⟨Table.get_del_of_ne _ hx, Table.get_del_of_ne _ hx⟩
  | receive type =>
    have hx : x ≠ b.source := hn (by rw [type]; rfl)
    refine ⟨get_putSome_of_ne (fun ps hps => ?_) hx, rfl⟩
    obtain ⟨src, hsrc, rfl⟩ := Option.map_eq_some_iff.mp hps
    exact (hk.hash _ src (Option.filter_eq_some_iff.mp hsrc).1).1
  | leaseAccept l type => exact ⟨rfl, Table.get_set_of_ne _ (hn (by rw [type]; rfl)) _⟩
  | leaseSettle l type | leaseForceSettle l type | leaseCancel l type =>
    have hx : x ≠ b.source := hn (by rw [type]; rfl)
    exact ⟨escrow hx, Table.get_set_of_ne _ hx _⟩
  | leaseRenew l l' type =>
    have hx : x ≠ b.source := hn (by rw [type]; rfl)
    exact ⟨by rw [Table.get_modify, if_neg hx], Table.get_set_of_ne _ hx _⟩

namespace Removed

theorem issued_iff (hk : k.Wf) (h : Removed k b k') (y : Str) (x : Block) :
    (k'.slot y).issued x ↔ (k.slot y).issued x ∧ x ≠ b :=
  (and_congr_left' (h.on_iff hk x)).trans and_right_comm

theorem names_iff (hk : k.Wf) (h : Removed k b k') (y : Str) (x : Block) :
    (k'.slot y).names x ↔ (k.slot y).names x ∧ x ≠ b :=
  (and_congr_left' (h.on_iff hk x)).trans and_right_comm

theorem slot_of_ne (hk : k.Wf) (h : Removed k b k') {x : Str}
    (hi : isIssue b.type = true → x ≠ b.hash) (hn : isNaming b.type = true → x ≠ b.source) :
    k'.slot x = k.slot x := by
  obtain ⟨hp, hl⟩ := h.exit.get_of_ne hk hi hn
  refine Slot.ext (funext fun y => propext ?_) hp hl (funext fun y => propext ?_)
  · rw [h.issued_iff hk, and_iff_left_iff_imp]
    rintro ⟨-, hx, ht⟩ rfl
    exact hi ht hx.symm
  · rw [h.names_iff hk, and_iff_left_iff_imp]
    rintro ⟨-, hx, ht⟩ rfl
    exact hn ht hx.symm

theorem slot_hash (hk : k.Wf) (hs : (k.slot b.hash).Ok) (h : Removed k b k')
    (hf : k.Free b b.hash) (ht : isIssue b.type = true) : (k'.slot b.hash).Ok := by
  have hb : (k.slot b.hash).issued b := ⟨h.on, rfl, ht⟩
  have hexit := h.exit
  generalize hp : k'.pending = pending at hexit
  generalize hl : k'.leases = leases at hexit
  have slotP : k'.pending.get b.hash = pending.get b.hash := congrArg (·.get b.hash) hp
  have slotL : k'.leases.get b.hash = leases.get b.hash := congrArg (·.get b.hash) hl
  have unused : (∀ x, (k.slot b.hash).issued x ↔ x = b) → (∀ x, ¬ (k.slot b.hash).names x) →
      k'.pending.get b.hash = none → k'.leases.get b.hash = none → (k'.slot b.hash).Ok := by
    intro hiss hnames hpn hln
    refine .unused (fun x hx => ?_) hpn hln fun x hx => ?_
    · obtain ⟨hx, hne⟩ := (h.issued_iff hk b.hash x).mp hx
      exact hne ((hiss x).mp hx)
    · exact hnames x ((h.names_iff hk b.hash x).mp hx).1
  cases hexit with
  | send type =>
    rw [Table.get_del_self] at slotP
    cases hs with
    | unused issued => exact absurd hb (issued b)
    | spent s r _ _ hpn => exact absurd hpn (hf.send type rfl)
    | unspent s ps issued _ _ _ record names =>
      obtain rfl := (issued b).mp hb
      exact unused issued names slotP (slotL.trans record)
    | lease lb l issued ltype =>
      obtain rfl := (issued b).mp hb
      rw [type] at ltype
      cases ltype
  | lease type =>
    rw [Table.get_del_self] at slotP slotL
    have hiss : ∀ x, (k.slot b.hash).issued x ↔ x = b := by
      intro x
      refine ⟨fun hx => Book.On.eq_of_hash hk hx.1 h.on hx.2.1, ?_⟩
      rintro rfl
      exact hb
    exact unused hiss (hf.lease type rfl) slotP slotL
  | rest type =>
    rcases type with type | type | type <;> (rw [type] at ht; cases ht)
  | receive type | leaseAccept _ type | leaseSettle _ type | leaseForceSettle _ type
  | leaseCancel _ type | leaseRenew _ _ type =>
    rw [type] at ht
    cases ht

theorem escrow_get (hk : k.Wf) {lb : Block} (hon : k.On lb) (hhash : lb.hash = b.source)
    (hlt : lb.type = .lease) :
    (Table.putSome (·.sendHash) (escrowOf k.blocks k.leases b.source) k.pending).get b.source ≠
      none := by
  have hget : k.blocks.get b.source = some lb := hhash ▸ hk.known lb hon
  unfold escrowOf
  rw [hget, Option.filter_some, if_pos (by simpa using hlt), Option.map_some,
    Table.putSome_some, hhash, Table.get_set_self]
  exact Option.some_ne_none _

theorem slot_source (hk : k.Wf) (hs : (k.slot b.source).Ok) (h : Removed k b k')
    (hf : k.Free b b.source) (ht : isNaming b.type = true) : (k'.slot b.source).Ok := by
  have hb : (k.slot b.source).names b := ⟨h.on, rfl, ht⟩
  have hN := h.names_iff hk b.source
  have hiss : ∀ x, (k'.slot b.source).issued x ↔ (k.slot b.source).issued x := by
    intro x
    rw [h.issued_iff hk, and_iff_left_iff_imp]
    rintro ⟨-, -, hx⟩ rfl
    rw [not_isIssue_of_isNaming ht] at hx
    cases hx
  have hexit := h.exit
  generalize hp : k'.pending = pending at hexit
  generalize hl : k'.leases = leases at hexit
  have slotP : (k'.slot b.source).pending = pending.get b.source := congrArg (·.get b.source) hp
  have slotL : (k'.slot b.source).record = leases.get b.source := congrArg (·.get b.source) hl
  -- the escrow of a lease on a chain is put back
  have escrow : ∀ {l}, k.leases.get b.source = some l → (Table.putSome (·.sendHash)
      (escrowOf k.blocks k.leases b.source) k.pending).get b.source ≠ none := by
    intro l record
    obtain ⟨lb, issued, type, -, -⟩ := hs.of_record record
    obtain ⟨hon, hhash, -⟩ := (issued lb).mpr rfl
    exact escrow_get hk hon hhash type
  cases hexit with
  | send type | lease type =>
    rw [type] at ht
    cases ht
  | rest type =>
    rcases type with type | type | type <;> (rw [type] at ht; cases ht)
  | receive type =>
    cases hs with
    | unused _ _ _ names => exact absurd hb (names b)
    | unspent s ps _ _ _ _ _ names => exact absurd hb (names b)
    | lease lb l _ _ _ _ stage =>
      have hop := stage.ops hb
      rw [type] at hop
      cases hop
    | spent s r issued stype _ record names _ account =>
      obtain rfl := (names b).mp hb
      obtain ⟨hon, hhash, -⟩ := (issued s).mpr rfl
      have hget : k.blocks.get b.source = some s := hhash ▸ hk.known s hon
      rw [hget, Option.filter_some, if_pos (by simpa using stype), Option.map_some,
        Table.putSome_some, show (pendingOfSend s).sendHash = b.source from hhash,
        Table.get_set_self] at slotP
      refine .unspent s (pendingOfSend s) (fun x => (hiss x).trans (issued x)) stype slotP
        ⟨rfl, rfl, rfl, ?_⟩ (slotL.trans record) fun x hx => ?_
      · unfold pendingOfSend assetOrXE
        split_ifs <;> simp_all
      · obtain ⟨hx, hne⟩ := (hN x).mp hx
        exact hne ((names x).mp hx)
  | leaseAccept l type record =>
    rw [Table.get_set_self] at slotL
    refine hs.move record hiss slotL (fun _ _ h => ⟨h.1, h.2, h.3⟩) fun hstage => ?_
    rw [slotP]
    exact hstage.undoAccept hb type (hf.accept type rfl) hN rfl
  | leaseSettle l type record =>
    rw [Table.get_set_self] at slotL
    refine hs.move record hiss slotL (fun _ _ h => ⟨h.1, h.2, h.3⟩) fun hstage => ?_
    rw [slotP]
    exact hstage.undoFinish hb (.inl type) hN rfl (escrow record)
  | leaseForceSettle l type record =>
    rw [Table.get_set_self] at slotL
    refine hs.move record hiss slotL (fun _ _ h => ⟨h.1, h.2, h.3⟩) fun hstage => ?_
    rw [slotP]
    exact hstage.undoFinish hb (.inr type) hN rfl (escrow record)
  | leaseCancel l type record =>
    rw [Table.get_set_self] at slotL
    refine hs.move record hiss slotL (fun _ _ h => ⟨h.1, h.2, h.3⟩) fun hstage => ?_
    rw [slotP]
    exact hstage.undoCancel hb type hN rfl (escrow record)
  | leaseRenew l l' type record popped =>
    rw [Table.get_set_self] at slotL
    rw [Table.get_modify, if_pos rfl] at slotP
    unfold popRenewal at popped
    split_ifs at popped
    cases popped
    refine hs.move record hiss slotL (fun _ _ h => ⟨h.1, h.2, h.3⟩) fun hstage => ?_
    rw [slotP]
    exact hstage.undoRenew type hN rfl Option.map_eq_none_iff

theorem slot_ok (hk : k.Wf) (h : Removed k b k') {x : Str} (hs : (k.slot x).Ok)
    (hf : k.Free b x) : (k'.slot x).Ok := by
  by_cases hi : isIssue b.type = true ∧ x = b.hash
  · obtain ⟨ht, rfl⟩ := hi
    exact h.slot_hash hk hs hf ht
  · by_cases hn : isNaming b.type = true ∧ x = b.source
    · obtain ⟨ht, rfl⟩ := hn
      exact h.slot_source hk hs hf ht
    · rw [h.slot_of_ne hk (fun ht hx => hi ⟨ht, hx⟩) (fun ht hx => hn ⟨ht, hx⟩)]
      exact hs

/-- **Taking off a block that nothing depends on keeps a book sound.** -/
theorem sound (hk : k.Wf) (hs : k.Sound) (h : Removed k b k') (hf : ∀ x, k.Free b x) : k'.Sound :=
  fun x => h.slot_ok hk (hs x) (hf x)

/-- Taking off a block keeps the slots of sends sound, unless it is a send that was received. -/
theorem sendSound (hk : k.Wf) (hs : k.SendSound) (h : Removed k b k')
    (hf : b.type = .send → k.pending.get b.hash ≠ none) : k'.SendSound := by
  intro x
  by_cases hx : ∃ lb, k.blocks.get x = some lb ∧ lb.type = .lease
  · rw [h.blocks]
    exact .inr hx
  · have hok := (hs x).resolve_right hx
    refine .inl (h.slot_ok hk hok ⟨fun ht he => he ▸ hf ht, fun ht he => ?_, fun ht he => ?_⟩)
    · exact absurd ⟨b, he ▸ hk.known b h.on, ht⟩ hx
    · obtain ⟨lb, l, hlb, type, -⟩ := hok.of_leaseOp ⟨h.on, he, by rw [ht]; rfl⟩ (by rw [ht]; rfl)
      obtain ⟨hon, hhash, -⟩ := (hlb lb).mpr rfl
      exact absurd ⟨lb, hhash ▸ hk.known lb hon, type⟩ hx

end Removed

end Remove

/-! ## Several blocks -/

/-- The blocks come off one after another. -/
inductive Unwinds (k : Book) : List Block → Book → Prop
  | nil : Unwinds k [] k
  | snoc {bs : List Block} {k₁ k₂ : Book} {b : Block} (before : Unwinds k bs k₁)
      (removed : Removed k₁ b k₂) : Unwinds k (bs ++ [b]) k₂

theorem Unwinds.wf {k k' : Book} {bs : List Block} (hk : k.Wf) (h : Unwinds k bs k') :
    k'.Wf ∧ ∀ x, k'.On x ↔ k.On x ∧ x ∉ bs := by
  induction h with
  | nil => exact ⟨hk, fun x => by simp⟩
  | @snoc bs k₁ k₂ b before removed ih =>
    obtain ⟨hwf, hon⟩ := ih
    refine ⟨removed.wf hwf, fun x => ?_⟩
    rw [removed.on_iff hwf, hon, List.mem_append, List.mem_singleton, not_or, and_assoc]

/-- Every send of the list comes after the blocks that name it. -/
def ReceiversFirst (k : Book) (bs : List Block) : Prop :=
  ∀ pre b post, bs = pre ++ b :: post → b.type = .send → ∀ r, (k.slot b.hash).names r → r ∈ pre

theorem ReceiversFirst.nil (k : Book) : ReceiversFirst k [] := by
  intro pre b post he
  cases pre <;> cases he

theorem ReceiversFirst.init {k : Book} {bs : List Block} {b : Block}
    (h : ReceiversFirst k (bs ++ [b])) : ReceiversFirst k bs :=
  fun pre x post he => h pre x (post ++ [b]) (by rw [he]; simp)

theorem ReceiversFirst.pending {k k₁ : Book} {bs : List Block} {b : Block}
    (h : ReceiversFirst k (bs ++ [b])) (hk : k₁.Wf) (hs : k₁.SendSound) (hb : k₁.On b)
    (hon : ∀ x, k₁.On x ↔ k.On x ∧ x ∉ bs) (ht : b.type = .send) :
    k₁.pending.get b.hash ≠ none := by
  intro hn
  have hiss : (k₁.slot b.hash).issued b := ⟨hb, rfl, by rw [ht]; rfl⟩
  rcases hs b.hash with hok | ⟨lb, hlb, hlt⟩
  · cases hok with
    | unused issued => exact issued b hiss
    | unspent s ps issued _ pending =>
      have : k₁.pending.get b.hash = some ps := pending
      rw [hn] at this
      cases this
    | spent s r _ _ _ _ names =>
      -- the receive stands before the send, and has come off already
      obtain ⟨hr, hsrc, hty⟩ := (names r).mpr rfl
      obtain ⟨hr, hrest⟩ := (hon r).mp hr
      exact hrest (h bs b [] rfl ht r ⟨hr, hsrc, hty⟩)
    | lease lb l issued type =>
      obtain rfl := (issued b).mp hiss
      rw [ht] at type
      cases type
  · rw [hk.known b hb] at hlb
    cases hlb
    rw [ht] at hlt
    cases hlt

end Xe
