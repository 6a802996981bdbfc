import XeLattice.Inv.Elections

/-!
# Votes that arrive in another order

A representative signs votes for what it prefers, with growing timestamps, and at last a final one.
A node keeps one vote of each representative at a position: a final one for good, and any other until
the next one arrives, whether that is newer or not.

* **`votes_converge`**: nodes that get the votes in order store and count the same.
-/

set_option autoImplicit false
set_option maxRecDepth 100000

namespace Xe

open Prog

/-! ## Tallies without a quorum -/

section Weights

theorem weightOn_le_of_sublist {l l' : List Vote} (h : l.Sublist l') (x : Str) :
    weightOn l x ≤ weightOn l' x := by
  unfold weightOn
  exact ((h.filter _).map _).sum_le_sum fun _ _ => Nat.zero_le _

theorem weightOn_append (l l' : List Vote) (x : Str) :
    weightOn (l ++ l') x = weightOn l x + weightOn l' x := by
  unfold weightOn
  rw [List.filter_append, List.map_append, List.sum_append]

/-- No block has a quorum of the final votes among these, even with `more` weight. -/
def Below (votes : List Vote) (more : Str → ℕ) (total : ℕ) : Prop :=
  total = 0 ∨ ∀ h, ¬ quorumMet (weightOn (votes.filter (·.final)) h + more h) total

end Weights

section Tally

variable (c : Ctx) {a p : Str} {s s' : State}

theorem run_firstWinner_of_below {final : Bool} {candidates : List Str} {counted : List Vote}
    {total : ℕ} (hno : ∀ h, ¬ quorumMet (weightOn counted h) total) (hs : List Str) :
    firstWinner c a p final candidates counted total hs = pure none := by
  induction hs with
  | nil => rfl
  | cons h hs ih =>
    unfold firstWinner
    rw [if_neg (hno h)]
    exact ih

/-- **A tally below the quorum has no result.** -/
theorem run_finalTally_of_below {r : Except Fault (Option QuorumResult)}
    (hno : Below (s.store.votesAt a p) (fun _ => 0) (s.electionTotal c.representatives (a, p)))
    (hrun : (finalTally c a p).run s = some (r, s')) : s' = s ∧ ∀ x, r = .ok x → x = none := by
  have hnone : r = .ok none → ∀ x, r = .ok x → x = none := by
    rintro rfl x hx
    exact (Except.ok.inj hx).symm
  rcases run_finalTally hrun with ⟨hr, rfl⟩ | ⟨⟨e, rfl⟩, rfl⟩ | ⟨votes, counted, hvotes, hcounted, h⟩
  · exact ⟨rfl, hnone hr⟩
  · exact ⟨rfl, fun x hx => nomatch hx⟩
  have hat : s.store.votesAt a p = votes := by
    unfold Store.votesAt
    rw [hvotes]
    rfl
  unfold tallyCounted at h
  by_cases hzero : s.electionTotal c.representatives (a, p) = 0
  · rw [if_pos hzero] at h
    cases h
    exact ⟨rfl, hnone rfl⟩
  have hlow : ∀ h, ¬ quorumMet (weightOn counted h)
      (s.electionTotal c.representatives (a, p)) := by
    intro h hq
    refine hno.resolve_left hzero h (le_trans hq (Nat.mul_le_mul_right _ ?_))
    rw [hat]
    exact weightOn_le_of_sublist (countedVotes_sublist_final hcounted) h
  simp only [if_neg hzero, run_firstWinner_of_below c hlow] at h
  by_cases hp : p = zeroPrev
  · rw [if_pos hp] at h
    cases h
    exact ⟨rfl, hnone rfl⟩
  · rw [if_neg hp] at h
    rcases ((readOnly_isFinalized a p).still s).bind_cases h with ⟨e, rfl, rfl⟩ | ⟨final, -, h⟩
    · exact ⟨rfl, fun x hx => nomatch hx⟩
    · cases h
      exact ⟨rfl, hnone rfl⟩

theorem run_tallyAndConfirm_of_below {r : Except Fault Bool}
    (hno : Below (s.store.votesAt a p) (fun _ => 0) (s.electionTotal c.representatives (a, p)))
    (hrun : (tallyAndConfirm c a p).run s = some (r, s')) : s' = s := by
  rcases run_bind_eq_some.mp hrun with ⟨e, he, -⟩ | ⟨o, s₁, ho, hrest⟩
  · exact (run_finalTally_of_below c hno he).1
  · obtain ⟨rfl, hnone⟩ := run_finalTally_of_below c hno ho
    obtain rfl := hnone o rfl
    cases hrest
    rfl

theorem run_retally_of_below {r : Except Fault Unit}
    (hno : Below (s.store.votesAt a p) (fun _ => 0) (s.electionTotal c.representatives (a, p)))
    (hrun : (retally c a p).run s = some (r, s')) : s' = s := by
  obtain ⟨hfree, s₁, hin, rfl⟩ := run_withLock_eq_some.mp hrun
  have hsame : s₁ = s.setLock .quorum (some c.tid) := by
    rcases run_bind_eq_some.mp hin with ⟨e, he, -⟩ | ⟨x, s₂, hx, hdone⟩
    · exact run_tallyAndConfirm_of_below c (s := s.setLock .quorum (some c.tid)) hno he
    · cases hdone
      exact run_tallyAndConfirm_of_below c (s := s.setLock .quorum (some c.tid)) hno hx
  rw [hsame]
  exact s.setLock_same hfree _

end Tally

/-! ## The votes stored at a position -/

section Stored

variable {kind : StoreKind} {st st' : Store} {a p r : Str} {v w x : Vote} {position : Str × Str}

theorem key_eq_iff_of_isAt (hv : v.isAt kind position = true) (hw : w.isAt kind position = true)
    (hlv : Lower v.repPubKey) (hlw : Lower w.repPubKey) :
    v.key kind = w.key kind ↔ v.repPubKey = w.repPubKey := by
  obtain ⟨x, hvk, hxm, hxb⟩ := isAt_eq_true hv
  obtain ⟨y, hwk, hym, hyb⟩ := isAt_eq_true hw
  rw [hvk, hwk]
  simp only [Option.some.injEq, Prod.mk.injEq, true_and]
  cases kind with
  | mem => rw [hxm rfl, hym rfl]
  | badger =>
    have hv' := decodePublicKey_eq_ok.mp (hxb rfl)
    have hw' := decodePublicKey_eq_ok.mp (hyb rfl)
    constructor
    · rintro rfl
      exact (hexEncode_hexDecode hv'.1 hlv).symm.trans (hexEncode_hexDecode hw'.1 hlw)
    · intro h
      have hx := hv'.1
      rw [h, hw'.1] at hx
      exact (Except.ok.inj hx).symm

theorem exists_position {key : Str × Str × Str} (hkey : voteKey kind a p r = .ok key)
    (hr : Lower r) : ∃ position, voteConflictKey kind a p = .ok position ∧
      (∀ x : Vote, x.key kind = some key → x.isAt kind position = true) ∧
      ∀ x : Vote, x.isAt kind position = true → Lower x.repPubKey →
        (x.key kind = some key ↔ x.repPubKey = r) := by
  let w : Vote := { (default : Vote) with repPubKey := r, conflictAccount := a, conflictPrev := p }
  have hw : w.key kind = some key := by
    change (voteKey kind a p r).toOption = some key
    rw [hkey]
    rfl
  obtain ⟨position, hpos, hat⟩ := isAt_position (v := w) (by rw [hw]; rfl)
  refine ⟨position, hpos, fun x h => ?_, fun x hxat hx => ?_⟩
  · unfold Vote.isAt at hat ⊢
    rw [h]
    rw [hw] at hat
    exact hat
  · rw [← hw]
    exact key_eq_iff_of_isAt hxat hat hx hr

theorem votesAt_eq (hpos : voteConflictKey st.kind a p = .ok position) :
    st.votesAt a p = st.votes.filter (Vote.isAt st.kind position) := by
  unfold Store.votesAt Store.votesByConflict
  rw [hpos]
  rfl

theorem getVote_eq_ok {o : Option Vote} (hlow : ∀ x ∈ st.votesAt a p, Lower x.repPubKey)
    (hr : Lower r) (h : st.getVote a p r = .ok o) :
    (∀ x, o = some x → x ∈ st.votesAt a p ∧ x.repPubKey = r) ∧
      (o = none → ∀ x ∈ st.votesAt a p, x.repPubKey ≠ r) := by
  obtain ⟨key, hkey, h⟩ := bind_eq_ok.mp h
  cases h
  obtain ⟨position, hpos, hat, hiff⟩ := exists_position hkey hr
  rw [votesAt_eq hpos] at hlow ⊢
  constructor
  · intro x hx
    have hk : x.key st.kind = some key := by simpa using List.find?_some hx
    have hmem := List.mem_filter.mpr ⟨List.mem_of_find?_eq_some hx, hat x hk⟩
    exact ⟨hmem, (hiff x (hat x hk) (hlow x hmem)).mp hk⟩
  · intro hnone x hmem hrep
    obtain ⟨hx, hxat⟩ := List.mem_filter.mp hmem
    have hne := List.find?_eq_none.mp hnone x hx
    exact hne (decide_eq_true ((hiff x hxat (hlow x hmem)).mpr hrep))

theorem exists_getVote (hx : x ∈ st.votesAt a p) (hposition : x.position = (a, p)) :
    ∃ o, st.getVote a p x.repPubKey = .ok o := by
  cases hposition
  cases hpos : voteConflictKey st.kind x.conflictAccount x.conflictPrev with
  | error e =>
    unfold Store.votesAt Store.votesByConflict at hx
    rw [hpos] at hx
    cases hx
  | ok position =>
    rw [votesAt_eq hpos] at hx
    obtain ⟨r, hkey, -⟩ := isAt_eq_true (List.mem_filter.mp hx).2
    unfold Store.getVote
    rw [toOption_eq_some.mp hkey]
    exact ⟨_, rfl⟩

theorem votesAt_putVote (hlow : ∀ x ∈ st.votesAt a p, Lower x.repPubKey) (hv : Lower v.repPubKey)
    (hposition : v.position = (a, p)) (h : st.putVote v = .ok st') :
    st'.votesAt a p = (st.votesAt a p).filter (fun x => x.repPubKey ≠ v.repPubKey) ++ [v] := by
  cases hposition
  obtain ⟨key, hkey, h⟩ := bind_eq_ok.mp h
  cases h
  obtain ⟨position, hpos, hat, hiff⟩ := exists_position hkey hv
  have hvkey : v.key st.kind = some key := by
    rw [Vote.key, hkey]
    rfl
  have hlist : ∀ votes, Store.votesAt v.conflictAccount v.conflictPrev { st with votes := votes } =
      votes.filter (Vote.isAt st.kind position) := fun votes => votesAt_eq hpos
  rw [votesAt_eq hpos] at hlow ⊢
  rw [hlist, List.filter_append, List.filter_cons_of_pos (hat v hvkey), List.filter_nil,
    List.filter_filter, List.filter_filter]
  congr 1
  refine List.filter_congr fun x hx => ?_
  cases hxat : x.isAt st.kind position with
  | false => simp
  | true =>
    have hiffx := hiff x hxat (hlow x (List.mem_filter.mpr ⟨hx, hxat⟩))
    simp [hiffx]

end Stored

/-! ## What the representatives sign -/

/-- A vote as it is signed, without the weight that a node gives it. -/
def Vote.bare (v : Vote) : Vote :=
  { v with weight := 0 }

/-- Votes with growing timestamps, and at most one final vote after them. -/
def Succession (l : List Vote) : Prop :=
  l.Pairwise fun v w => v.final = false ∧ (w.final = true ∨ v.timestamp < w.timestamp)

/-- The vote is not newer than `w`. -/
def Vote.UpTo (v w : Vote) : Prop :=
  w.final = true ∨ v.final = false ∧ v.timestamp ≤ w.timestamp

theorem Vote.UpTo.refl (v : Vote) : v.UpTo v := by
  cases h : v.final with
  | true => exact .inl h
  | false => exact .inr ⟨h, Int64.le_refl _⟩

theorem Vote.UpTo.trans {u v w : Vote} (h : u.UpTo v) (h' : v.UpTo w) : u.UpTo w := by
  rcases h' with hw | ⟨hv, hvw⟩
  · exact .inl hw
  · rcases h with hv' | ⟨hu, huv⟩
    · rw [hv] at hv'
      cases hv'
    · exact .inr ⟨hu, Int64.le_trans huv hvw⟩

theorem Succession.eq_last {l : List Vote} (hl : Succession l) {v w : Vote}
    (hlast : l.getLast? = some v) (hw : w ∈ l) (h : v.UpTo w) : w = v := by
  obtain ⟨init, rfl⟩ := List.getLast?_eq_some_iff.mp hlast
  rcases List.mem_append.mp hw with hw | hw
  · obtain ⟨hnot, hbefore⟩ := (List.pairwise_append.mp hl).2.2 w hw v (List.mem_singleton.mpr rfl)
    rcases h with hfinal | ⟨hv, hle⟩
    · rw [hnot] at hfinal
      cases hfinal
    · rcases hbefore with hfinal | hlt
      · rw [hv] at hfinal
        cases hfinal
      · exact absurd hle (Int64.not_le.mpr hlt)
  · exact List.mem_singleton.mp hw

/-- **The votes that the representatives sign at a position**, by their keys, and their weights. -/
structure Ballots where
  position : Str × Str
  votes : Str → List Vote
  weight : Str → UInt64
  rep : ∀ r, ∀ v ∈ votes r, v.repPubKey = r
  lower : ∀ r, ∀ v ∈ votes r, Lower v.repPubKey
  placed : ∀ r, ∀ v ∈ votes r, v.position = position
  succession : ∀ r, Succession (votes r)

/-! ## What a node has stored -/

/-- The votes that are stored at the position. -/
def Ballots.stored (e : Ballots) (s : State) : List Vote :=
  s.store.votesAt e.position.1 e.position.2

/-- The votes that wait for a record of the position. -/
def Ballots.waiting (e : Ballots) (s : State) : List Vote :=
  (s.vm.pendingVotes.get e.position).getD []

/-- The key of a node, as its votes spell it. -/
def Node.repKey (node : Node) : Option Str :=
  node.keyPair.map KeyPair.pubKeyHex

/-- The weight of the node itself. -/
def Ballots.ownWeight (e : Ballots) (node : Node) : ℕ :=
  node.repKey.elim 0 fun r => (e.weight r).toNat

/-- The stored votes of others. -/
def Ballots.others (e : Ballots) (node : Node) (s : State) : List Vote :=
  (e.stored s).filter fun x => node.repKey ≠ some x.repPubKey

/-- The store has one vote of each representative, as new as those in `arrived`, and none waits. The
votes of the node itself need not be known. -/
structure Tracks (e : Ballots) (node : Node) (arrived : List Vote) (s : State) : Prop where
  placed : ∀ x ∈ e.stored s, x.position = e.position
  lower : ∀ x ∈ e.stored s, Lower x.repPubKey
  weight : ∀ x ∈ e.stored s, x.weight = e.weight x.repPubKey
  signed : ∀ x ∈ e.others node s, x.bare ∈ e.votes x.repPubKey
  once : ((e.stored s).map (·.repPubKey)).Nodup
  newest : ∀ v ∈ arrived, ∃ x ∈ e.stored s, x.repPubKey = v.repPubKey ∧ v.UpTo x
  unbuffered : e.waiting s = []

section Tracks

variable {e : Ballots} {node : Node} {A : List Vote} {s s' : State} {v : Vote} {st : Store}

theorem Tracks.congr (h : Tracks e node A s) (hs : e.stored s' = e.stored s)
    (hnone : e.waiting s' = []) : Tracks e node A s' := by
  have hothers : e.others node s' = e.others node s := by
    unfold Ballots.others
    rw [hs]
  exact ⟨hs ▸ h.placed, hs ▸ h.lower, hs ▸ h.weight, hothers ▸ h.signed, hs ▸ h.once,
    hs ▸ h.newest, hnone⟩

theorem Tracks.setLock (h : Tracks e node A s) (l : Lock) (o : Option ℕ) :
    Tracks e node A (s.setLock l o) :=
  h.congr rfl h.unbuffered

theorem Tracks.mono (h : Tracks e node A s) {A' : List Vote} (hA : ∀ v ∈ A', v ∈ A) :
    Tracks e node A' s :=
  ⟨h.placed, h.lower, h.weight, h.signed, h.once, fun v hv => h.newest v (hA v hv), h.unbuffered⟩

theorem Tracks.unique (h : Tracks e node A s) {x y : Vote} (hx : x ∈ e.stored s)
    (hy : y ∈ e.stored s) (hrep : x.repPubKey = y.repPubKey) : x = y :=
  List.inj_on_of_nodup_map h.once hx hy hrep

theorem Tracks.getVote (h : Tracks e node A s) {x : Vote} (hx : x ∈ e.stored s) :
    s.store.getVote e.position.1 e.position.2 x.repPubKey = .ok (some x) := by
  obtain ⟨o, ho⟩ := exists_getVote hx (h.placed x hx)
  obtain ⟨hsome, hnone⟩ := getVote_eq_ok h.lower (h.lower x hx) ho
  cases o with
  | none => exact absurd rfl (hnone rfl x hx)
  | some y =>
    obtain ⟨hy, hrep⟩ := hsome y rfl
    rw [ho, h.unique hy hx hrep]

theorem stored_putVote (h : Tracks e node A s) (hpos : v.position = e.position)
    (hlow : Lower v.repPubKey) (hput : s.store.putVote v = .ok st) :
    e.stored { s with store := st } =
      (e.stored s).filter (fun x => x.repPubKey ≠ v.repPubKey) ++ [v] :=
  votesAt_putVote h.lower hlow hpos hput

/-- **A vote that is not older than the one in its place is put there.** -/
theorem Tracks.put (h : Tracks e node A s) (hpos : v.position = e.position)
    (hlow : Lower v.repPubKey) (hweight : v.weight = e.weight v.repPubKey)
    (hsigned : node.repKey ≠ some v.repPubKey → v.bare ∈ e.votes v.repPubKey)
    (hnew : ∀ x ∈ e.stored s, x.repPubKey = v.repPubKey → x.UpTo v)
    (hput : s.store.putVote v = .ok st) : Tracks e node (v :: A) { s with store := st } := by
  have hst := stored_putVote h hpos hlow hput
  have hcases : ∀ x ∈ e.stored { s with store := st }, x ∈ e.stored s ∨ x = v := by
    intro x hx
    rw [hst] at hx
    rcases List.mem_append.mp hx with hx | hx
    · exact .inl (List.mem_filter.mp hx).1
    · exact .inr (List.mem_singleton.mp hx)
  have hall : ∀ {P : Vote → Prop}, (∀ x ∈ e.stored s, P x) → P v →
      ∀ x ∈ e.stored { s with store := st }, P x := by
    intro P hold hv x hx
    rcases hcases x hx with hx | rfl
    · exact hold x hx
    · exact hv
  have hmem : v ∈ e.stored { s with store := st } := by
    rw [hst]
    simp
  refine ⟨hall h.placed hpos, hall h.lower hlow, hall h.weight hweight, ?_, ?_, ?_, h.unbuffered⟩
  · intro x hx
    obtain ⟨hx, hother⟩ := List.mem_filter.mp hx
    rcases hcases x hx with hx | rfl
    · exact h.signed x (List.mem_filter.mpr ⟨hx, hother⟩)
    · exact hsigned (of_decide_eq_true hother)
  · rw [hst, List.map_append, List.map_singleton]
    refine List.nodup_append_comm.mp (List.nodup_cons.mpr ⟨?_, ?_⟩)
    · intro hv
      obtain ⟨x, hx, hxv⟩ := List.mem_map.mp hv
      exact absurd hxv (of_decide_eq_true (List.mem_filter.mp hx).2)
    · exact h.once.sublist (List.filter_sublist.map _)
  · intro u hu
    rcases List.mem_cons.mp hu with rfl | hu
    · exact ⟨u, hmem, rfl, .refl u⟩
    · obtain ⟨x, hx, hrep, hup⟩ := h.newest u hu
      by_cases hxv : x.repPubKey = v.repPubKey
      · exact ⟨v, hmem, hxv.symm.trans hrep, hup.trans (hnew x hx hxv)⟩
      · refine ⟨x, ?_, hrep, hup⟩
        rw [hst]
        exact List.mem_append_left _ (List.mem_filter.mpr ⟨hx, decide_eq_true hxv⟩)

theorem weightOn_le_add {W : Str → UInt64} (r : Str) (q : Vote → Bool) (h : Str) {l : List Vote}
    (hw : ∀ x ∈ l, x.weight = W x.repPubKey) (hnd : (l.map (·.repPubKey)).Nodup) :
    weightOn (l.filter q) h ≤
      weightOn ((l.filter fun x => some r ≠ some x.repPubKey).filter q) h + (W r).toNat := by
  induction l with
  | nil => exact Nat.zero_le _
  | cons x l ih =>
    obtain ⟨hnew, hrest⟩ := List.nodup_cons.mp hnd
    have hl := ih (fun y hy => hw y (List.mem_cons_of_mem x hy)) hrest
    have hx := hw x List.mem_cons_self
    by_cases hr : r = x.repPubKey
    · -- no other vote of `r` follows
      have hsame : (l.filter fun y => some r ≠ some y.repPubKey) = l := by
        refine List.filter_eq_self.mpr fun y hy => decide_eq_true fun hry => hnew ?_
        exact List.mem_map.mpr ⟨y, hy, ((Option.some.inj hry).symm.trans hr)⟩
      have hdrop : ((x :: l).filter fun y => some r ≠ some y.repPubKey) = l := by
        rw [List.filter_cons_of_neg (by simp [hr]), hsame]
      rw [hdrop, hr, ← hx, List.filter_cons]
      split_ifs with hq
      · rw [weightOn_cons]
        split_ifs <;> omega
      · exact Nat.le_add_right _ _
    · have hkeep : ((x :: l).filter fun y => some r ≠ some y.repPubKey) =
          x :: l.filter fun y => some r ≠ some y.repPubKey :=
        List.filter_cons_of_pos (by simp [hr])
      rw [hkeep, List.filter_cons, List.filter_cons]
      split_ifs with hq
      · rw [weightOn_cons, weightOn_cons]
        omega
      · exact hl

theorem Tracks.below (h : Tracks e node A s) {total : ℕ}
    (hb : Below (e.others node s) (fun _ => e.ownWeight node) total) :
    Below (e.stored s) (fun _ => 0) total := by
  refine hb.imp_right fun hno x hq => hno x (le_trans hq (Nat.mul_le_mul_right _ ?_))
  unfold Ballots.others Ballots.ownWeight
  cases node.repKey with
  | none => simp
  | some r => exact weightOn_le_add r _ x h.weight h.once

end Tracks

/-! ## Casting the node's own vote -/

/-- What must hold so that the node's own votes keep to the order, and so that none of them completes
a quorum. -/
structure MayCast (c : Ctx) (e : Ballots) (s : State) : Prop where
  weight : ∀ kp, c.node.keyPair = some kp →
    s.electionWeight c.representatives e.position (c.node.address kp) = e.weight kp.pubKeyHex
  clock : ∀ x ∈ e.stored s, c.node.repKey = some x.repPubKey → x.final = false →
    x.timestamp ≤ c.now
  below : Below (e.others c.node s) (fun _ => e.ownWeight c.node)
    (s.electionTotal c.representatives e.position)

/-- The node has signed no final vote. -/
def Undecided (c : Ctx) (e : Ballots) (s : State) : Prop :=
  ∀ x ∈ e.stored s, c.node.repKey = some x.repPubKey → x.final = false

section Cast

variable {c : Ctx} {e : Ballots} {A : List Vote} {s s' : State} {kp : KeyPair} {v : Vote}
  {st : Store}

theorem Calm.stored (h : Calm s s') : e.stored s' = e.stored s := by
  unfold Ballots.stored Store.votesAt Store.votesByConflict
  rw [h.kind, h.votes]

theorem Calm.waiting (h : Calm s s') : e.waiting s' = e.waiting s := by
  unfold Ballots.waiting
  rw [h.buffered]

theorem MayCast.congr (h : MayCast c e s) (hs : e.stored s' = e.stored s)
    (hc : s'.store.conflicts = s.store.conflicts) (hw : s'.mem.weights = s.mem.weights) :
    MayCast c e s' := by
  refine ⟨fun kp hkp => ?_, hs ▸ h.clock, ?_⟩
  · rw [electionWeight_congr hc hw]
    exact h.weight kp hkp
  · unfold Ballots.others
    rw [hs, electionTotal_congr hc hw]
    exact h.below

/-- A vote of its own changes neither what the others say nor what the node may do. -/
theorem MayCast.put (h : MayCast c e s) (ht : Tracks e c.node A s)
    (hkp : c.node.keyPair = some kp) {final : Bool} (hv : OwnVote c kp e.position final s v)
    (hput : s.store.putVote v = .ok st) : MayCast c e { s with store := st } := by
  have hlow : Lower v.repPubKey := hv.rep ▸ lower_hexEncode _
  have hst := stored_putVote ht hv.position hlow hput
  have hown : c.node.repKey = some v.repPubKey := by
    rw [Node.repKey, hkp, hv.rep]
    rfl
  obtain ⟨key, -, hst'⟩ := bind_eq_ok.mp hput
  have hothers : e.others c.node { s with store := st } = e.others c.node s := by
    unfold Ballots.others
    rw [hst, List.filter_append, List.filter_filter, hown]
    simp only [ne_eq, not_true_eq_false, decide_false, Bool.false_eq_true, not_false_eq_true,
      List.filter_cons_of_neg, List.filter_nil, List.append_nil]
    refine List.filter_congr fun x _ => ?_
    by_cases hx : x.repPubKey = v.repPubKey <;> simp [hx]
  cases hst'
  refine ⟨h.weight, ?_, ?_⟩
  · intro x hx hrep hnot
    rw [hst] at hx
    rcases List.mem_append.mp hx with hx | hx
    · exact h.clock x (List.mem_filter.mp hx).1 hrep hnot
    · rw [List.mem_singleton.mp hx, hv.timestamp]
      exact Int64.le_refl _
  · rw [hothers]
    exact h.below

theorem Tracks.putOwn (h : Tracks e c.node A s) (hmay : MayCast c e s) (hopen : Undecided c e s)
    (hkp : c.node.keyPair = some kp) {final : Bool} (hv : OwnVote c kp e.position final s v)
    (hput : s.store.putVote v = .ok st) : Tracks e c.node A { s with store := st } := by
  have hown : c.node.repKey = some v.repPubKey := by
    rw [Node.repKey, hkp, hv.rep]
    rfl
  refine (h.put hv.position (hv.rep ▸ lower_hexEncode _) ?_ (fun hne => absurd hown hne) ?_
    hput).mono fun u hu => List.mem_cons_of_mem v hu
  · rw [hv.weight, hv.rep]
    exact hmay.weight kp hkp
  · intro x hx hrep
    have hx' : c.node.repKey = some x.repPubKey := hown.trans (congrArg some hrep.symm)
    have hnot := hopen x hx hx'
    exact .inr ⟨hnot, hv.timestamp ▸ hmay.clock x hx hx' hnot⟩

/-- **Casting a vote keeps the store as new as it was.** -/
theorem castRule_tracks (c : Ctx) (e : Ballots) (A : List Vote) :
    CastRule c e.position.1 e.position.2 (fun s => Tracks e c.node A s ∧ MayCast c e s)
      (fun s => (Tracks e c.node A s ∧ MayCast c e s) ∧ Undecided c e s)
      (fun s => Tracks e c.node A s ∧ MayCast c e s) := by
  have hcalm : ∀ s s', Calm s s' → Tracks e c.node A s ∧ MayCast c e s →
      Tracks e c.node A s' ∧ MayCast c e s' := fun s s' hc h =>
    ⟨h.1.congr hc.stored (hc.waiting.trans h.1.unbuffered),
      h.2.congr hc.stored hc.conflicts hc.weights⟩
  have htally : ∀ {r : Except Fault Unit} {s s' : State}, Tracks e c.node A s ∧ MayCast c e s →
      (retally c e.position.1 e.position.2).run s = some (r, s') → s' = s := by
    intro r s s' h hrun
    exact run_retally_of_below c (h.1.below h.2.below) hrun
  refine ⟨hcalm, ?_, fun _ => id, fun _ => And.left, ?_, ?_, ?_, ?_, ?_⟩
  · rintro s s' hc ⟨h, hopen⟩
    exact ⟨hcalm s s' hc h, by unfold Undecided; rw [hc.stored]; exact hopen⟩
  · rintro kp s hkp h hnone
    refine ⟨h, fun x hx hrep => ?_⟩
    have hx' : x.repPubKey = kp.pubKeyHex := by
      rw [Node.repKey, hkp] at hrep
      exact (Option.some.inj hrep).symm
    rw [← hx', h.1.getVote hx] at hnone
    cases hfinal : x.final with
    | false => rfl
    | true =>
      change (some x).filter (·.final) = none at hnone
      rw [Option.filter_some, if_pos hfinal] at hnone
      cases hnone
  · rintro kp s v st hkp ⟨h, hopen⟩ hv hput
    refine ⟨⟨h.1.putOwn h.2 hopen hkp hv hput, h.2.put h.1 hkp hv hput⟩, fun x hx hrep => ?_⟩
    rw [stored_putVote h.1 hv.position (hv.rep ▸ lower_hexEncode _) hput] at hx
    rcases List.mem_append.mp hx with hx | hx
    · exact hopen x (List.mem_filter.mp hx).1 hrep
    · rw [List.mem_singleton.mp hx]
      exact hv.final
  · rintro kp s v st hkp ⟨h, hopen⟩ hv hput
    exact ⟨h.1.putOwn h.2 hopen hkp hv hput, h.2.put h.1 hkp hv hput⟩
  · rintro s r s' h hrun
    obtain rfl := htally h.1 hrun
    exact h
  · rintro s r s' h hrun
    obtain rfl := htally h hrun
    exact h

theorem run_castVoteLocked (ht : Tracks e c.node A s) (hmay : MayCast c e s) {seed : List Str}
    {s₁ : State} {r : Except Fault Unit}
    (hrun : (castVoteLocked c e.position.1 e.position.2 seed).run s₁ = some (r, s'))
    (hs : e.stored s₁ = e.stored s) (hc : s₁.store.conflicts = s.store.conflicts)
    (hw : s₁.mem.weights = s.mem.weights) (hnone : e.waiting s₁ = []) : Tracks e c.node A s' :=
  ((castRule_tracks c e A).triple_castVoteLocked seed s₁ r s'
    ⟨ht.congr hs hnone, hmay.congr hs hc hw⟩ hrun).1

theorem run_flushPendingVotes {a p : Str} (hnone : (s.vm.pendingVotes.get (a, p)).getD [] = []) :
    (flushPendingVotes c a p).run s = some (.ok (), { s with vm := { s.vm with
      pendingVotes := s.vm.pendingVotes.del (a, p) } }) := by
  unfold flushPendingVotes
  rw [run_bind, run_act]
  dsimp only [run_pure]
  rw [hnone]
  rfl

theorem run_onConflict (ht : Tracks e c.node A s) (hmay : MayCast c e s) {cf : Conflict}
    {r : Except Fault Unit} (hat : (cf.accountAddress, cf.previousHash) = e.position)
    (hrun : (onConflict c cf).run s = some (r, s')) : Tracks e c.node A s' := by
  unfold onConflict at hrun
  split_ifs at hrun
  · cases hrun
    exact ht
  · obtain ⟨-, s₁, hin, rfl⟩ := run_withLock_eq_some.mp hrun
    rw [run_bind_of_ok (run_flushPendingVotes (by rw [hat]; exact ht.unbuffered)),
      show cf.accountAddress = e.position.1 from congrArg Prod.fst hat,
      show cf.previousHash = e.position.2 from congrArg Prod.snd hat] at hin
    refine (run_castVoteLocked ht hmay hin rfl rfl rfl ?_).setLock _ _
    unfold Ballots.waiting
    dsimp only
    rw [Table.get_del_self]
    rfl

end Cast

/-! ## Receiving a vote -/

/-- A vote that one of the representatives signed reaches the node while it is valid, and the node
gives the representatives the weights they have. -/
structure Delivered (c : Ctx) (e : Ballots) (s : State) (v : Vote) : Prop where
  signed : v.bare ∈ e.votes v.repPubKey
  valid : (validateVote c v).run s = some (.ok (), s)
  weight : s.electionWeight c.representatives e.position (v.repAccount c.lib) =
    e.weight v.repPubKey
  own : ∀ kp, c.node.keyPair = some kp →
    s.electionWeight c.representatives e.position (c.node.address kp) = e.weight kp.pubKeyHex

/-- The vote with the weight that its representative has. -/
def Ballots.weigh (e : Ballots) (v : Vote) : Vote :=
  { v with weight := e.weight v.repPubKey }

/-- What a final vote of another representative adds to a block. -/
def Ballots.added (e : Ballots) (node : Node) (v : Vote) (h : Str) : ℕ :=
  if node.repKey ≠ some v.repPubKey ∧ v.final = true ∧ v.blockHash = h then
    (e.weight v.repPubKey).toNat
  else 0

/-- **The vote comes in order**: the position is open, no newer vote of its representative is stored,
the clock is not behind the node's own votes, and there is no quorum yet. An older vote is left out
even if a newer one follows. -/
structure InOrder (c : Ctx) (e : Ballots) (s : State) (v : Vote) : Prop where
  isOpen : (positionResolved e.position.1 e.position.2).run s = some (.ok false, s)
  newer : ∀ x ∈ e.stored s, x.repPubKey = v.repPubKey → x.final = false → x.UpTo v
  clock : ∀ x ∈ v :: e.stored s, c.node.repKey = some x.repPubKey → x.final = false →
    x.timestamp ≤ c.now
  below : Below (e.others c.node s) (fun h => e.added c.node v h + e.ownWeight c.node)
    (s.electionTotal c.representatives e.position)

section Receive

variable {c : Ctx} {e : Ballots} {A : List Vote} {s s' : State} {v : Vote} {st : Store}

theorem exists_voteKey {lib : Lib} (kind : StoreKind) (h : checkVoteSignature lib v = .ok ()) :
    ∃ key, voteKey kind v.conflictAccount v.conflictPrev v.repPubKey = .ok key := by
  cases kind with
  | mem => exact ⟨_, rfl⟩
  | badger =>
    obtain ⟨pub, -, h⟩ := bind_eq_ok.mp h
    obtain ⟨sb, hsb, -⟩ := bind_eq_ok.mp h
    obtain ⟨rep, hrep, hsb⟩ := bind_eq_ok.mp (mapError_eq_ok.mp hsb)
    obtain ⟨hash, -, hsb⟩ := bind_eq_ok.mp hsb
    obtain ⟨account, haccount, hsb⟩ := bind_eq_ok.mp hsb
    obtain ⟨prev, hprev, -⟩ := bind_eq_ok.mp hsb
    refine ⟨(account, prev, rep), bind_eq_ok.mpr ⟨account, ?_, bind_eq_ok.mpr ⟨prev, ?_,
      bind_eq_ok.mpr ⟨rep, ?_, rfl⟩⟩⟩⟩
    · exact decodeField_eq_ok.mpr (decodeField_eq_ok.mp haccount)
    · unfold decodePrev at hprev ⊢
      split_ifs at hprev ⊢ with hzero
      · exact hprev
      · exact decodeField_eq_ok.mpr (decodeField_eq_ok.mp hprev)
    · exact decodeField_eq_ok.mpr (decodeField_eq_ok.mp hrep)

theorem Delivered.placed (hv : Delivered c e s v) : v.position = e.position :=
  e.placed v.repPubKey v.bare hv.signed

theorem Delivered.lower (hv : Delivered c e s v) : Lower v.repPubKey :=
  e.lower v.repPubKey v.bare hv.signed

theorem Below.mono {votes : List Vote} {more more' : Str → ℕ} {total : ℕ}
    (h : Below votes more total) (hle : ∀ x, more' x ≤ more x) : Below votes more' total := by
  refine h.imp_right fun hno x hq => hno x (le_trans hq ?_)
  exact Nat.mul_le_mul_right _ (Nat.add_le_add_left (hle x) _)

theorem Below.of_none {votes : List Vote} {more : Str → ℕ} {total : ℕ}
    (hnone : votes.filter (·.final) = []) (hmore : ∀ x, more x = 0) : Below votes more total := by
  refine or_iff_not_imp_left.mpr fun hzero x hq => ?_
  rw [hnone, hmore] at hq
  change total * 67 ≤ 0 at hq
  omega

theorem InOrder.mayCast (h : InOrder c e s v) (hv : Delivered c e s v) : MayCast c e s :=
  ⟨hv.own, fun x hx => h.clock x (List.mem_cons_of_mem v hx),
    h.below.mono fun _ => Nat.le_add_left _ _⟩

theorem weightOn_weigh_le (x : Str) :
    weightOn (([e.weigh v].filter fun y => c.node.repKey ≠ some y.repPubKey).filter (·.final)) x ≤
      e.added c.node v x := by
  unfold Ballots.added
  rw [List.filter_filter, List.filter_cons, List.filter_nil]
  split_ifs with hq hx hx
  · rw [weightOn_cons]
    exact (if_pos (c := v.blockHash = x) hx.2.2).le
  · obtain ⟨hfinal, hother⟩ := Bool.and_eq_true_iff.mp hq
    rw [weightOn_cons]
    exact (if_neg (c := v.blockHash = x) fun h => hx ⟨of_decide_eq_true hother, hfinal, h⟩).le
  · exact Nat.zero_le _
  · exact Nat.zero_le _

theorem InOrder.mayCast_put (h : InOrder c e s v) (ht : Tracks e c.node A s)
    (hv : Delivered c e s v) (hput : s.store.putVote (e.weigh v) = .ok st) :
    MayCast c e { s with store := st } := by
  have hst := stored_putVote (v := e.weigh v) ht hv.placed hv.lower hput
  obtain ⟨key, -, hst'⟩ := bind_eq_ok.mp hput
  have hbelow : ∀ x, weightOn ((e.others c.node { s with store := st }).filter (·.final)) x ≤
      weightOn ((e.others c.node s).filter (·.final)) x + e.added c.node v x := by
    intro x
    unfold Ballots.others
    rw [hst, List.filter_append, List.filter_append, weightOn_append]
    refine Nat.add_le_add (weightOn_le_of_sublist ((List.filter_sublist.filter _).filter _) x) ?_
    exact weightOn_weigh_le x
  cases hst'
  refine ⟨hv.own, ?_, ?_⟩
  · intro x hx hrep hnot
    rw [hst] at hx
    rcases List.mem_append.mp hx with hx | hx
    · exact h.clock x (List.mem_cons_of_mem v (List.mem_filter.mp hx).1) hrep hnot
    · cases List.mem_singleton.mp hx
      exact h.clock v List.mem_cons_self hrep hnot
  · refine h.below.imp_right fun hno x hq => hno x (le_trans hq ?_)
    refine Nat.mul_le_mul_right _ ?_
    calc _ ≤ weightOn ((e.others c.node s).filter (·.final)) x + e.added c.node v x +
          e.ownWeight c.node := Nat.add_le_add_right (hbelow x) _
      _ = _ := Nat.add_assoc _ _ _

/-- **A vote that comes in order is the newest one that is stored.** -/
theorem run_receiveVoteInner (ht : Tracks e c.node A s) (hv : Delivered c e s v)
    (h : InOrder c e s v) {r : Except Fault Unit}
    (hrun : (receiveVoteInner c v).run s = some (r, s')) :
    Tracks e c.node (v :: A) s' ∧ MayCast c e s' := by
  have hposition : (v.conflictAccount, v.conflictPrev) = e.position := hv.placed
  have hstored : s.store.votesAt v.conflictAccount v.conflictPrev = e.stored s := by
    unfold Ballots.stored
    rw [← hposition]
  have hsig : checkVoteSignature c.lib v = .ok () := (run_liftErr_bind_ok.mp hv.valid).choose_spec.1
  obtain ⟨key, hkey⟩ := exists_voteKey s.store.kind hsig
  obtain ⟨o, hget⟩ : ∃ o, s.store.getVote v.conflictAccount v.conflictPrev v.repPubKey = .ok o :=
    ⟨_, bind_eq_ok.mpr ⟨key, hkey, rfl⟩⟩
  obtain ⟨hsome, hnone⟩ := getVote_eq_ok (hstored ▸ ht.lower) hv.lower hget
  unfold receiveVoteInner at hrun
  rw [run_readStore_bind, hget] at hrun
  dsimp only at hrun
  by_cases hfinal : o.any (·.final) = true
  · -- a final vote stays
    rw [if_pos hfinal] at hrun
    cases hrun
    cases o with
    | none => cases hfinal
    | some x =>
      obtain ⟨hmem, hrep⟩ := hsome x rfl
      refine ⟨⟨ht.placed, ht.lower, ht.weight, ht.signed, ht.once, fun u hu => ?_, ht.unbuffered⟩,
        h.mayCast hv⟩
      rcases List.mem_cons.mp hu with rfl | hu
      · exact ⟨x, hstored ▸ hmem, hrep, .inl hfinal⟩
      · exact ht.newest u hu
  · have hnew : ∀ x ∈ e.stored s, x.repPubKey = v.repPubKey → x.UpTo (e.weigh v) := by
      intro x hx hrep
      refine h.newer x hx hrep (Bool.eq_false_iff.mpr fun hxfinal => hfinal ?_)
      have hgetx := ht.getVote hx
      rw [hrep, ← hposition, hget] at hgetx
      cases hgetx
      exact hxfinal
    obtain ⟨st, hput⟩ : ∃ st, s.store.putVote (e.weigh v) = .ok st :=
      ⟨_, bind_eq_ok.mpr ⟨key, hkey, rfl⟩⟩
    have hrunput : (putVote (e.weigh v)).run s = some (.ok (.ok ()), { s with store := st }) := by
      simp only [putVote, run_act, hput]
      rfl
    have hcalm := quietWrites_calm.revoted { s with store := st }
      (s.vm.lastRevoteNanos.del e.position)
    have htracks := (ht.put (v := e.weigh v) hv.placed hv.lower rfl (fun _ => hv.signed) hnew
      hput).congr hcalm.stored ht.unbuffered
    have hmay := (h.mayCast_put ht hv hput).congr hcalm.stored hcalm.conflicts hcalm.weights
    unfold Ballots.weigh at hrunput
    rw [if_neg hfinal, run_bind_of_ok (run_electionWeight c _ _ _ s), hposition, hv.weight,
      run_bind_of_ok hrunput, show v.conflictAccount = e.position.1 from congrArg Prod.fst hposition,
      show v.conflictPrev = e.position.2 from congrArg Prod.snd hposition] at hrun
    rw [run_retally_of_below c (htracks.below hmay.below) hrun]
    refine ⟨⟨htracks.placed, htracks.lower, htracks.weight, htracks.signed, htracks.once,
      fun u hu => ?_, htracks.unbuffered⟩, hmay⟩
    rcases List.mem_cons.mp hu with rfl | hu
    · exact htracks.newest (e.weigh u) List.mem_cons_self
    · exact htracks.newest u (List.mem_cons_of_mem _ hu)

theorem run_positionResolved_setLock {a p : Str} {b : Bool} (l : Lock) (o : Option ℕ)
    (h : (positionResolved a p).run s = some (.ok b, s)) :
    (positionResolved a p).run (s.setLock l o) = some (.ok b, s.setLock l o) := by
  have hheight : ∀ s : State, (getBlockHeight a p).run s =
      some (.ok ((s.store.chains.get a).bind (heightOn · p)), s) := fun _ => rfl
  unfold positionResolved at h ⊢
  by_cases hp : p = [] ∨ p = zeroPrev
  · rw [if_pos hp] at h ⊢
    cases h
    rfl
  · rw [if_neg hp, run_bind_of_ok (hheight _)] at h ⊢
    rw [show (s.setLock l o).store.chains = s.store.chains from rfl]
    cases hn : (s.store.chains.get a).bind (heightOn · p) with
    | none =>
      rw [hn] at h
      cases h
      rfl
    | some n =>
      rw [hn] at h
      cases h
      rfl

theorem Delivered.setLock (hv : Delivered c e s v) (l : Lock) (o : Option ℕ) :
    Delivered c e (s.setLock l o) v := by
  refine ⟨hv.signed, ?_, hv.weight, hv.own⟩
  have hvalid := hv.valid
  unfold validateVote at hvalid ⊢
  simp only [run_liftErr_bind_ok, run_readMem_bind, run_failIf_bind_ok, run_failIf_ok,
    and_true] at hvalid ⊢
  exact hvalid

theorem InOrder.setLock (h : InOrder c e s v) (l : Lock) (o : Option ℕ) :
    InOrder c e (s.setLock l o) v :=
  ⟨run_positionResolved_setLock l o h.isOpen, h.newer, h.clock, h.below⟩

/-- **A node that receives a vote in order stores it, and is as new as before.** -/
theorem run_receiveVote (ht : Tracks e c.node A s) (hv : Delivered c e s v) (h : InOrder c e s v)
    {r : Except Fault Unit} (hrun : (receiveVote c v).run s = some (r, s')) :
    Tracks e c.node (v :: A) s' := by
  obtain ⟨r₁, s₁, hvalid, hrun⟩ := run_handle_eq_some.mp hrun
  rw [hv.valid] at hvalid
  cases hvalid
  obtain ⟨-, s₂, hin, rfl⟩ := run_withLock_eq_some.mp hrun
  have hopen := (h.setLock (.position v.conflictAccount v.conflictPrev) (some c.tid)).isOpen
  rw [← hv.placed] at hopen
  change (positionResolved v.conflictAccount v.conflictPrev).run _ = _ at hopen
  rw [run_bind_of_ok hopen, if_neg Bool.false_ne_true] at hin
  have hinner : ∀ {r s₁}, (receiveVoteInner c v).run (s.setLock
      (.position v.conflictAccount v.conflictPrev) (some c.tid)) = some (r, s₁) →
      Tracks e c.node (v :: A) s₁ ∧ MayCast c e s₁ := fun hr =>
    run_receiveVoteInner (ht.setLock _ _) (hv.setLock _ _) (h.setLock _ _) hr
  refine Tracks.setLock (s := s₂) ?_ _ _
  rcases run_bind_eq_some.mp hin with ⟨err, herr, -⟩ | ⟨u, s₁, hok, hcast⟩
  · exact (hinner herr).1
  · rw [show v.conflictAccount = e.position.1 from congrArg Prod.fst hv.placed,
      show v.conflictPrev = e.position.2 from congrArg Prod.snd hv.placed] at hcast
    exact ((castRule_tracks c e (v :: A)).triple_castVoteLocked [] s₁ _ s₂ (hinner hok) hcast).1

/-- A vote that is not valid changes nothing: `isConflictNotFound` repeats the checks that it has
failed, so that it is never buffered. -/
theorem run_receiveVote_of_invalid {f : Fault} {r : Except Fault Unit}
    (hinvalid : (validateVote c v).run s = some (.error f, s))
    (hrun : (receiveVote c v).run s = some (r, s')) : s' = s := by
  have hnot : (isConflictNotFound c v).run s = some (.ok false, s) := by
    unfold isConflictNotFound
    cases hsig : checkVoteSignature c.lib v with
    | error e => rfl
    | ok u =>
      rw [if_neg Bool.noConfusion, run_readMem_bind]
      split_ifs with hfails
      · rfl
      · -- the checks cannot all succeed
        push Not at hfails
        have hvalid : (validateVote c v).run s = some (.ok (), s) := by
          unfold validateVote
          simp only [run_liftErr_bind_ok, run_readMem_bind, run_failIf_bind_ok, run_failIf_ok,
            and_true]
          exact ⟨u, hsig, hfails.1, hfails.2.1, hfails.2.2⟩
        rw [hvalid] at hinvalid
        cases hinvalid
  obtain ⟨r₁, s₁, hvalid, hrun⟩ := run_handle_eq_some.mp hrun
  rw [hinvalid] at hvalid
  cases hvalid
  dsimp only at hrun
  rw [run_bind_of_ok hnot] at hrun
  cases hrun
  rfl

end Receive

/-! ## Runs -/

/-- Runs of a node that receives votes of the representatives, with the votes that have arrived: those
that were received, and those of the node itself that are stored. What else happens leaves the votes
at the position alone. -/
inductive Receives (node : Node) (e : Ballots) : State → List Vote → Prop
  | start {s : State} : e.stored s = [] → e.waiting s = [] → Receives node e s []
  | receive {c : Ctx} {s s' : State} {A : List Vote} {v : Vote} {r : Except Fault Unit} :
    Receives node e s A → c.node = node → Delivered c e s v → InOrder c e s v →
    (receiveVote c v).run s = some (r, s') →
    (∀ x ∈ e.stored s', node.repKey = some x.repPubKey → x.bare ∈ e.votes x.repPubKey) →
    Receives node e s' (((e.stored s').filter fun x => node.repKey = some x.repPubKey) ++ v :: A)
  | refused {c : Ctx} {s s' : State} {A : List Vote} {v : Vote} {f : Fault}
      {r : Except Fault Unit} :
    Receives node e s A → (validateVote c v).run s = some (.error f, s) →
    (receiveVote c v).run s = some (r, s') → Receives node e s' A
  | cast {c : Ctx} {s s' : State} {A : List Vote} {seed : List Str} {r : Except Fault Unit} :
    Receives node e s A → c.node = node → MayCast c e s →
    (castVote c e.position.1 e.position.2 seed).run s = some (r, s') →
    (∀ x ∈ e.stored s', node.repKey = some x.repPubKey → x.bare ∈ e.votes x.repPubKey) →
    Receives node e s' (((e.stored s').filter fun x => node.repKey = some x.repPubKey) ++ A)
  | conflict {c : Ctx} {s s' : State} {A : List Vote} {cf : Conflict} {r : Except Fault Unit} :
    Receives node e s A → c.node = node → MayCast c e s →
    (cf.accountAddress, cf.previousHash) = e.position →
    (onConflict c cf).run s = some (r, s') →
    (∀ x ∈ e.stored s', node.repKey = some x.repPubKey → x.bare ∈ e.votes x.repPubKey) →
    Receives node e s' (((e.stored s').filter fun x => node.repKey = some x.repPubKey) ++ A)
  | other {s s' : State} {A : List Vote} :
    Receives node e s A → e.stored s' = e.stored s → e.waiting s' = e.waiting s →
    Receives node e s' A

section Run

variable {node : Node} {e : Ballots} {A : List Vote} {s s' : State}

theorem Tracks.arrive (h : Tracks e node A s) {q : Vote → Bool} :
    Tracks e node ((e.stored s).filter q ++ A) s := by
  refine ⟨h.placed, h.lower, h.weight, h.signed, h.once, fun v hv => ?_, h.unbuffered⟩
  rcases List.mem_append.mp hv with hv | hv
  · exact ⟨v, (List.mem_filter.mp hv).1, rfl, .refl v⟩
  · exact h.newest v hv

theorem Receives.tracks (h : Receives node e s A) : Tracks e node A s := by
  induction h with
  | start hnone hempty =>
    refine ⟨?_, ?_, ?_, ?_, ?_, ?_, hempty⟩
    all_goals simp [Ballots.others, hnone]
  | receive _ hnode hv horder hrun _ ih =>
    cases hnode
    exact (run_receiveVote ih hv horder hrun).arrive
  | refused _ hinvalid hrun ih =>
    rw [run_receiveVote_of_invalid hinvalid hrun]
    exact ih
  | cast _ hnode hmay hrun _ ih =>
    cases hnode
    obtain ⟨-, s₁, hin, rfl⟩ := run_withLock_eq_some.mp hrun
    exact ((run_castVoteLocked ih hmay hin rfl rfl rfl ih.unbuffered).setLock _ _).arrive
  | conflict _ hnode hmay hat hrun _ ih =>
    cases hnode
    exact (run_onConflict ih hmay hat hrun).arrive
  | other _ hsame hwaiting ih => exact ih.congr hsame (hwaiting.trans ih.unbuffered)

theorem Receives.signed (h : Receives node e s A) :
    ∀ x ∈ e.stored s, x.bare ∈ e.votes x.repPubKey := by
  intro x hx
  by_cases hown : node.repKey = some x.repPubKey
  · induction h with
    | start hnone =>
      rw [hnone] at hx
      cases hx
    | receive _ _ _ _ _ hsigned _ => exact hsigned x hx hown
    | refused _ hinvalid hrun ih => exact ih (run_receiveVote_of_invalid hinvalid hrun ▸ hx)
    | cast _ _ _ _ hsigned _ => exact hsigned x hx hown
    | conflict _ _ _ _ _ hsigned _ => exact hsigned x hx hown
    | other _ hsame _ ih => exact ih (hsame ▸ hx)
  · exact h.tracks.signed x (List.mem_filter.mpr ⟨hx, decide_eq_true hown⟩)

/-- The last vote of each representative is among those that arrived. -/
def Ballots.Complete (e : Ballots) (arrived : List Vote) : Prop :=
  ∀ r v, (e.votes r).getLast? = some v → ∃ u ∈ arrived, u.bare = v

/-- **The last vote of a representative is the one that is stored.** -/
theorem Receives.last_mem (h : Receives node e s A) (hall : e.Complete A) {r : Str} {v : Vote}
    (hlast : (e.votes r).getLast? = some v) : e.weigh v ∈ e.stored s := by
  obtain ⟨u, hu, rfl⟩ := hall r v hlast
  obtain ⟨x, hx, hrep, hup⟩ := h.tracks.newest u hu
  have hr : u.repPubKey = r := e.rep r u.bare (List.mem_of_getLast? hlast)
  have hsigned : x.bare ∈ e.votes r := hr ▸ hrep ▸ h.signed x hx
  have hbare : x.bare = u.bare := (e.succession r).eq_last hlast hsigned hup
  have hweigh : e.weigh u.bare = x := by
    rw [← hbare]
    unfold Ballots.weigh Vote.bare
    rw [← h.tracks.weight x hx]
  rw [hweigh]
  exact hx

theorem Receives.mem_stored_iff (h : Receives node e s A) (hall : e.Complete A) {x : Vote} :
    x ∈ e.stored s ↔ ∃ r v, (e.votes r).getLast? = some v ∧ x = e.weigh v := by
  constructor
  · intro hx
    have hne : e.votes x.repPubKey ≠ [] := List.ne_nil_of_mem (h.signed x hx)
    have hlast := List.getLast?_eq_some_getLast hne
    refine ⟨x.repPubKey, _, hlast, ?_⟩
    refine h.tracks.unique hx (h.last_mem hall hlast) ?_
    exact (e.rep _ _ (List.getLast_mem hne)).symm
  · rintro ⟨r, v, hlast, rfl⟩
    exact h.last_mem hall hlast

theorem weightOn_perm {l l' : List Vote} (h : l.Perm l') (x : Str) :
    weightOn l x = weightOn l' x :=
  ((h.filter _).map _).sum_eq

variable {node' : Node} {A' : List Vote}

/-- **Two nodes that receive the votes in order store the same ones**: the last vote of each
representative, with its weight. Then both count the same weights. -/
theorem votes_converge (h : Receives node e s A) (h' : Receives node' e s' A')
    (hall : e.Complete A) (hall' : e.Complete A') :
    (∀ r v, (e.votes r).getLast? = some v →
      s.store.getVote e.position.1 e.position.2 r = .ok (some (e.weigh v)) ∧
      s'.store.getVote e.position.1 e.position.2 r = .ok (some (e.weigh v))) ∧
    (e.stored s).Perm (e.stored s') ∧
    ∀ x, weightOn (e.stored s) x = weightOn (e.stored s') x ∧
      weightOn ((e.stored s).filter (·.final)) x =
        weightOn ((e.stored s').filter (·.final)) x := by
  have hperm : (e.stored s).Perm (e.stored s') := by
    refine (List.perm_ext_iff_of_nodup h.tracks.once.of_map h'.tracks.once.of_map).mpr fun x => ?_
    exact (h.mem_stored_iff hall).trans (h'.mem_stored_iff hall').symm
  refine ⟨fun r v hlast => ?_, hperm, fun x =>
    ⟨weightOn_perm hperm x, weightOn_perm (hperm.filter _) x⟩⟩
  have hr : (e.weigh v).repPubKey = r := e.rep r v (List.mem_of_getLast? hlast)
  have hget := h.tracks.getVote (h.last_mem hall hlast)
  have hget' := h'.tracks.getVote (h'.last_mem hall' hlast)
  rw [hr] at hget hget'
  exact ⟨hget, hget'⟩

end Run

/-! ## Two votes, in order and not -/

namespace SampleConvergence

open SampleVotes Sample

/-- A vote of the genesis account at a time. -/
def voteAt (time : Int64) (hash : Str) : Vote :=
  { vote (pub 171) with timestamp := time, blockHash := hash }

/-- The earlier vote. -/
def older : Vote := voteAt 1 (pub 2)

/-- The later vote. -/
def newer : Vote := voteAt 2 (pub 1)

/-- The genesis account signs two votes after the genesis block. -/
def ballots : Ballots where
  position := (address 171, SampleVotes.genesis.hash)
  votes r := if r = pub 171 then [older, newer] else []
  weight _ := genesisSupply
  rep r v hv := by
    split_ifs at hv with hr
    · rw [hr]
      rcases List.mem_pair.mp hv with rfl | rfl <;> rfl
    · cases hv
  lower r v hv := by
    split_ifs at hv
    · rcases List.mem_pair.mp hv with rfl | rfl <;> exact lower_hexEncode _
    · cases hv
  placed r v hv := by
    split_ifs at hv
    · rcases List.mem_pair.mp hv with rfl | rfl <;> rfl
    · cases hv
  succession r := by
    unfold Succession
    split_ifs
    · exact List.pairwise_pair.mpr ⟨rfl, .inr (by decide)⟩
    · exact .nil

/-- The vote can be delivered, and comes in order. -/
def Ready (s : State) (v : Vote) : Prop :=
  v ∈ [older, newer] ∧ ((validateVote (ctx .badger) v).run s).any (·.1.isOk) = true ∧
    s.electionWeight none ballots.position (v.repAccount Sample.lib) = genesisSupply ∧
    ((positionResolved ballots.position.1 ballots.position.2).run s).any
      (fun x => x.1.toOption == some false) = true ∧
    ∀ x ∈ ballots.stored s, x.final = false ∧ x.timestamp ≤ v.timestamp

instance (s : State) (v : Vote) : Decidable (Ready s v) :=
  inferInstanceAs (Decidable (_ ∧ _))

/-- Receives the votes one after the other, each of them in order. -/
def deliver : List Vote → State → Option State
  | [], s => some s
  | v :: vs, s =>
    if Ready s v then ((receiveVote (ctx .badger) v).run s).bind fun x => deliver vs x.2 else none

end SampleConvergence

section Sample

open SampleConvergence SampleVotes

variable {s s' : State} {A : List Vote} {v : Vote}

theorem run_readOnly_of_any {α : Type} {p : M α} (hp : p.ReadOnly)
    {q : Except Fault α × State → Bool} (h : (p.run s).any q = true) :
    ∃ r, p.run s = some (r, s) ∧ q (r, s) = true := by
  cases hrun : p.run s with
  | none =>
    rw [hrun] at h
    cases h
  | some x =>
    obtain ⟨r, s₁⟩ := x
    rw [hrun] at h
    cases run_readOnly hp hrun
    exact ⟨r, rfl, h⟩

theorem run_validateVote_of_any {c : Ctx} (h : ((validateVote c v).run s).any (·.1.isOk) = true) :
    (validateVote c v).run s = some (.ok (), s) := by
  obtain ⟨r, hrun, hok⟩ := run_readOnly_of_any (readOnly_validateVote c v) h
  cases r with
  | error e => cases hok
  | ok u => exact hrun

theorem SampleConvergence.Ready.delivered (h : Ready s v) : Delivered (ctx .badger) ballots s v := by
  obtain ⟨hv, hvalid, hweight, -, -⟩ := h
  refine ⟨?_, ?_, hweight, fun kp hkp => nomatch hkp⟩
  · rcases List.mem_pair.mp hv with rfl | rfl
    · exact List.mem_pair.mpr (.inl rfl)
    · exact List.mem_pair.mpr (.inr rfl)
  · exact run_validateVote_of_any hvalid

theorem SampleConvergence.Ready.inOrder (h : Ready s v) : InOrder (ctx .badger) ballots s v := by
  obtain ⟨hv, -, -, hopen, hstored⟩ := h
  have hfinal : v.final = false := by
    rcases List.mem_pair.mp hv with rfl | rfl <;> rfl
  refine ⟨?_, fun x hx _ hnot => .inr ⟨hnot, (hstored x hx).2⟩, fun x _ hown => (nomatch hown), ?_⟩
  · obtain ⟨r, hrun, hr⟩ := run_readOnly_of_any (readOnly_positionResolved _ _) hopen
    have hfalse : r = .ok false := toOption_eq_some.mp (eq_of_beq hr)
    rw [hrun, hfalse]
  · refine Below.of_none ?_ fun x => ?_
    · refine List.filter_eq_nil_iff.mpr fun x hx => ?_
      rw [(hstored x (List.mem_filter.mp hx).1).1]
      exact Bool.false_ne_true
    · unfold Ballots.added
      rw [hfinal]
      simp only [Bool.false_eq_true, false_and, and_false, if_false]
      rfl

theorem receives_deliver {vs : List Vote} (h : Receives (node .badger) ballots s A)
    (hd : deliver vs s = some s') :
    ∃ A', Receives (node .badger) ballots s' A' ∧ ∀ v ∈ A ++ vs, v ∈ A' := by
  induction vs generalizing s A with
  | nil =>
    cases hd
    exact ⟨A, h, by simp⟩
  | cons v vs ih =>
    unfold deliver at hd
    split_ifs at hd with hready
    obtain ⟨⟨r, s₁⟩, hrun, hd⟩ := Option.bind_eq_some_iff.mp hd
    obtain ⟨A', hA', hmem⟩ := ih (h.receive rfl hready.delivered hready.inOrder hrun
      fun x _ hown => nomatch hown) hd
    refine ⟨A', hA', fun w hw => hmem w ?_⟩
    simp only [List.mem_append, List.mem_cons] at hw ⊢
    tauto

open Sample in
/-- One node gets each vote once, and the other gets the older one again before the newer. -/
theorem votes_converge_resent : ∃ s s' A A', Receives (node .badger) ballots s A ∧
    Receives (node .badger) ballots s' A' ∧ ballots.Complete A ∧ ballots.Complete A' ∧
      s.store.getVote (address 171) SampleVotes.genesis.hash (pub 171) =
        .ok (some (ballots.weigh newer)) ∧ (ballots.stored s).Perm (ballots.stored s') := by
  obtain ⟨s₀, -, -, -, hnone, hin, hagain⟩ := exists_runAll (ctx .badger) .badger []
    (P := fun s₀ _ => (ballots.stored s₀ = [] ∧ ballots.waiting s₀ = []) ∧
      (deliver [older, newer] s₀).isSome = true ∧
      (deliver [older, older, newer] s₀).isSome = true) (by decide +kernel)
  obtain ⟨s, hs⟩ := Option.isSome_iff_exists.mp hin
  obtain ⟨s', hs'⟩ := Option.isSome_iff_exists.mp hagain
  obtain ⟨A, hA, hmem⟩ := receives_deliver (.start hnone.1 hnone.2) hs
  obtain ⟨A', hA', hmem'⟩ := receives_deliver (.start hnone.1 hnone.2) hs'
  have hall : ∀ {B : List Vote}, newer ∈ B → ballots.Complete B := by
    intro B hB r v hlast
    refine ⟨newer, hB, ?_⟩
    change (if r = _ then [older, newer] else []).getLast? = _ at hlast
    split_ifs at hlast
    · exact Option.some.inj hlast
    · cases hlast
  have hc := hall (hmem newer (by simp))
  have hc' := hall (hmem' newer (by simp))
  obtain ⟨hlast, hperm, -⟩ := votes_converge hA hA' hc hc'
  exact ⟨s, s', A, A', hA, hA', hc, hc', (hlast (pub 171) newer rfl).1, hperm⟩

open Sample in
/-- **A vote that is overtaken on its way replaces the newer one.** -/
theorem votes_diverge : ∃ s₀ s s' : State,
    (newLedger (ctx .badger)).run (.empty .badger) = some (.ok (), s₀) ∧
      ballots.stored s₀ = [] ∧
      (∀ v ∈ [older, newer], (validateVote (ctx .badger) v).run s₀ = some (.ok (), s₀)) ∧
      Pool.runAll ([older, newer].map (receiveVote (ctx .badger))) s₀ = some s ∧
      Pool.runAll ([newer, older].map (receiveVote (ctx .badger))) s₀ = some s' ∧
      older.timestamp < newer.timestamp ∧
      s.store.getVote (address 171) SampleVotes.genesis.hash (pub 171) =
        .ok (some (ballots.weigh newer)) ∧
      s'.store.getVote (address 171) SampleVotes.genesis.hash (pub 171) =
        .ok (some (ballots.weigh older)) := by
  obtain ⟨s₀, s, hnew, hrun, hnone, hvalid, hother, hget⟩ := exists_runAll (ctx .badger) .badger
    ([older, newer].map (receiveVote (ctx .badger)))
    (P := fun s₀ s => ballots.stored s₀ = [] ∧ (∀ v ∈ [older, newer],
      ((validateVote (ctx .badger) v).run s₀).any (·.1.isOk) = true) ∧
      (Pool.runAll ([newer, older].map (receiveVote (ctx .badger))) s₀).any (fun s' => decide
        (s'.store.getVote (address 171) SampleVotes.genesis.hash (pub 171) =
          .ok (some (ballots.weigh older)))) = true ∧
      s.store.getVote (address 171) SampleVotes.genesis.hash (pub 171) =
        .ok (some (ballots.weigh newer))) (by decide +kernel)
  cases hs' : Pool.runAll ([newer, older].map (receiveVote (ctx .badger))) s₀ with
  | none =>
    rw [hs'] at hother
    cases hother
  | some s' =>
    rw [hs'] at hother
    exact ⟨s₀, s, s', hnew, hnone, fun v hv => run_validateVote_of_any (hvalid v hv), hrun, hs',
      by decide, hget, of_decide_eq_true hother⟩

end Sample

end Xe
