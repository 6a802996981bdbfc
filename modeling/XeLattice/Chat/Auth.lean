import XeLattice.Chat.Store
import XeLattice.Go.Slices

/-!
# Challenges for reading chats

Whoever reads an account's chats signs a challenge of the node.  A challenge carries its expiry and
a nonce under a MAC, and `verifyProof` checks all of that at the caller's reading of the clock, then
takes a lock, purges the nonces that have expired at that reading and marks its own as used.

* **`challenges_singleUse`**: in a timely run no nonce is accepted twice, or after its expiry.
-/

set_option autoImplicit false

namespace Xe

/-! ## The calls of the source -/

/-- `chatAuthDomain`. -/
def chatAuthDomain : Str :=
  str "xe/chat-read-auth/v1" ++ [0]

/-- `chatChallengeTTLNs`. -/
def chatChallengeTTLNs : Int64 := 120000000000

/-- `chatChPayload`. -/
def chatChPayload : ℕ := 24

/-- `chatChTotal`. -/
def chatChTotal : ℕ := 56

/-- The bytes of a challenge under its MAC. -/
def challengePayload (expiry : Int64) (nonce : Str) : Str :=
  be64 expiry.toUInt64 ++ nonce

/-- The expiry in a challenge. -/
def payloadExpiry (payload : Str) : Int64 :=
  (UInt64.ofNat (beNat (payload.take 8))).toInt64

/-- The nonce in a challenge. -/
def payloadNonce (payload : Str) : Str :=
  payload.drop 8

section Source

variable (lib : Lib) (mac : Str → Str)

/-- `issueChallenge`, with the nonce that it draws: the challenge and its expiry. -/
def issueChallenge (now : Int64) (nonce : Str) : Str × Int64 :=
  let expiry := now + chatChallengeTTLNs
  let payload := challengePayload expiry nonce
  (hexEncode (payload ++ mac payload), expiry)

/-- `chatSignTarget`. -/
def chatSignTarget (tokenBytes : Str) : Str :=
  lib.sha256 (chatAuthDomain ++ tokenBytes)

/-- The bytes of a challenge that has the MAC of the node. -/
def openChallenge (challenge : Str) : Except GoError Str := do
  let tokenBytes ← (hexDecode challenge).mapError fun _ => errorf (str "malformed challenge")
  guardErr (tokenBytes.length ≠ chatChTotal) (errorf (str "malformed challenge"))
  guardErr (tokenBytes.drop chatChPayload ≠ mac (tokenBytes.take chatChPayload))
    (errorf (str "challenge not issued by this node"))
  return tokenBytes

/-- One call of `verifyProof`, with its reading of the clock. -/
structure ProofCall where
  account : Str
  pubKey : Str
  challenge : Str
  sig : Str
  now : Int64
  deriving DecidableEq

/-- `verifyProof` up to the lock: the payload of the challenge. -/
def checkProof (c : ProofCall) : Except GoError Str := do
  let tokenBytes ← openChallenge mac c.challenge
  let payload := tokenBytes.take chatChPayload
  guardErr (c.now > payloadExpiry payload) (errorf (str "challenge expired"))
  (verifyPayloadKey lib c.pubKey c.account).mapError
    (GoError.wrap (str "ownership proof key: "))
  (verifyHexSignature lib c.pubKey c.sig (chatSignTarget lib tokenBytes)).mapError
    (GoError.wrap (str "ownership proof failed: "))
  return payload

end Source

/-- `chatAuthState`, without its key. -/
structure ChatAuth where
  seen : Table Str Int64

namespace ChatAuth

/-- The loop of `verifyProof` that forgets expired nonces. -/
def purge (now : Int64) (s : ChatAuth) : ChatAuth :=
  { seen := s.seen.filterMap fun _ exp => if now > exp then none else some exp }

/-- `verifyProof` under the lock. -/
def useNonce (now : Int64) (payload : Str) (s : ChatAuth) : Except GoError Unit × ChatAuth :=
  let s := s.purge now
  let nonceKey := hexEncode (payloadNonce payload)
  if (s.seen.get nonceKey).isSome then (.error (errorf (str "challenge already used")), s)
  else (.ok (), { s with seen := s.seen.set nonceKey (payloadExpiry payload) })

end ChatAuth

/-! ## Runs -/

/-- A challenge that was accepted, and the reading of the clock of its caller. -/
structure Acceptance where
  nonce : Str
  expiry : Int64
  now : Int64
  deriving DecidableEq

/-- The node: its table of nonces, the clock, the challenges it has issued, the calls that have read
the clock and wait, the readings of those that have been under the lock, and what was accepted. -/
structure AuthTrace where
  auth : ChatAuth
  clock : Int64
  issued : List (Int64 × Str)
  waiting : List ProofCall
  entered : List Int64
  accepted : List Acceptance

section Runs

variable (lib : Lib) (mac : Str → Str)

/-- A call goes on to its end, with the other calls that wait. -/
def AuthTrace.finish (t : AuthTrace) (c : ProofCall) (others : List ProofCall) : AuthTrace :=
  match checkProof lib mac c with
  | .error _ => { t with waiting := others }
  | .ok payload =>
    { t with
      auth := (t.auth.useNonce c.now payload).2
      waiting := others
      entered := c.now :: t.entered
      accepted :=
        match (t.auth.useNonce c.now payload).1 with
        | .ok _ => ⟨payloadNonce payload, payloadExpiry payload, c.now⟩ :: t.accepted
        | .error _ => t.accepted }

/-- The MAC cannot be forged: a challenge that has it was issued. -/
def AuthTrace.Unforged (t : AuthTrace) (c : ProofCall) : Prop :=
  ∀ tokenBytes, openChallenge mac c.challenge = .ok tokenBytes →
    ∃ x ∈ t.issued, tokenBytes.take chatChPayload = challengePayload x.1 x.2

/-- The interleavings of challenges and calls, in which every call that goes on to its end meets a
condition. -/
inductive AuthRun (ok : AuthTrace → ProofCall → Prop) : AuthTrace → Prop
  | new (clock : Int64) : AuthRun ok ⟨⟨.empty⟩, clock, [], [], [], []⟩
  | tick {t : AuthTrace} (now : Int64) (h : AuthRun ok t) (later : t.clock ≤ now) :
      AuthRun ok { t with clock := now }
  | issue {t : AuthTrace} (nonce : Str) (h : AuthRun ok t)
      (distinct : nonce ∉ t.issued.map Prod.snd) :
      AuthRun ok { t with issued := ((issueChallenge mac t.clock nonce).2, nonce) :: t.issued }
  | call {t : AuthTrace} (c : ProofCall) (h : AuthRun ok t) (reading : c.now = t.clock)
      (unforged : t.Unforged mac c) : AuthRun ok { t with waiting := c :: t.waiting }
  | enter {t : AuthTrace} (c : ProofCall) (before after : List ProofCall) (h : AuthRun ok t)
      (waits : t.waiting = before ++ c :: after) (hok : ok t c) :
      AuthRun ok (t.finish lib mac c (before ++ after))

/-- **No nonce is accepted twice, and none after its expiry.** -/
structure AuthTrace.SingleUse (t : AuthTrace) : Prop where
  once : (t.accepted.map Acceptance.nonce).Nodup
  unexpired : ∀ a ∈ t.accepted, a.now ≤ a.expiry

/-- **When the call gets to the lock, no call that was under it had read a time past the expiry of
the challenge.** -/
def AuthTrace.Timely (t : AuthTrace) (c : ProofCall) : Prop :=
  ∀ payload, checkProof lib mac c = .ok payload → ∀ r ∈ t.entered, r ≤ payloadExpiry payload

end Runs

/-! ## One call -/

section Steps

variable {lib : Lib} {mac : Str → Str} {t : AuthTrace} {c : ProofCall} {payload : Str}

theorem payloadExpiry_challengePayload (expiry : Int64) (nonce : Str) :
    payloadExpiry (challengePayload expiry nonce) = expiry := by
  rw [payloadExpiry, challengePayload, List.take_left' (length_be64 _), beNat_be64,
    UInt64.ofNat_toNat, Int64.toInt64_toUInt64]

theorem payloadNonce_challengePayload (expiry : Int64) (nonce : Str) :
    payloadNonce (challengePayload expiry nonce) = nonce :=
  List.drop_left' (length_be64 _)

theorem checkProof_eq_ok (h : checkProof lib mac c = .ok payload) :
    ∃ tokenBytes, openChallenge mac c.challenge = .ok tokenBytes ∧
      payload = tokenBytes.take chatChPayload ∧ c.now ≤ payloadExpiry payload := by
  obtain ⟨tokenBytes, hopen, h⟩ := bind_eq_ok.mp h
  obtain ⟨_, hexpiry, h⟩ := bind_eq_ok.mp h
  obtain ⟨_, _, h⟩ := bind_eq_ok.mp h
  obtain ⟨_, _, h⟩ := bind_eq_ok.mp h
  obtain rfl := Except.ok.inj h
  exact ⟨tokenBytes, hopen, rfl, Int64.not_lt.mp (guardErr_eq_ok.mp hexpiry)⟩

theorem get_purge (now : Int64) (s : ChatAuth) (k : Str) :
    (s.purge now).seen.get k =
      (s.seen.get k).bind fun exp => if now > exp then none else some exp :=
  Table.get_filterMap _ _ _

theorem get_purge_of_some {now : Int64} {s : ChatAuth} {k : Str} {exp : Int64}
    (h : s.seen.get k = some exp) : (s.purge now).seen.get k = some exp ∨ now > exp := by
  rw [get_purge, h, Option.bind_some]
  split_ifs with hnow
  · exact .inr hnow
  · exact .inl rfl

theorem useNonce_cases (now : Int64) (payload : Str) (s : ChatAuth) :
    ((∃ e, (s.useNonce now payload).1 = .error e) ∧ (s.useNonce now payload).2 = s.purge now) ∨
      ((s.useNonce now payload).1 = .ok () ∧
        (s.purge now).seen.get (hexEncode (payloadNonce payload)) = none ∧
        (s.useNonce now payload).2.seen = (s.purge now).seen.set
          (hexEncode (payloadNonce payload)) (payloadExpiry payload)) := by
  unfold ChatAuth.useNonce
  dsimp only
  split_ifs with hused
  · exact .inl ⟨⟨_, rfl⟩, rfl⟩
  · exact .inr ⟨rfl, Option.not_isSome_iff_eq_none.mp hused, rfl⟩

end Steps

/-! ## Whole runs -/

/-- What holds of every trace. -/
structure AuthTrace.Inv (mac : Str → Str) (t : AuthTrace) : Prop where
  distinct : (t.issued.map Prod.snd).Nodup
  unforged : ∀ c ∈ t.waiting, t.Unforged mac c
  issued : ∀ a ∈ t.accepted, (a.expiry, a.nonce) ∈ t.issued
  unexpired : ∀ a ∈ t.accepted, a.now ≤ a.expiry

/-- What holds as long as the calls are timely: a nonce that was accepted is remembered, or a call
under the lock has read a time past its expiry. -/
structure AuthTrace.Used (t : AuthTrace) : Prop where
  known : ∀ a ∈ t.accepted, t.auth.seen.get (hexEncode a.nonce) = some a.expiry ∨
    ∃ r ∈ t.entered, r > a.expiry
  once : (t.accepted.map Acceptance.nonce).Nodup

section Runs

variable {lib : Lib} {mac : Str → Str} {t : AuthTrace} {ok : AuthTrace → ProofCall → Prop}

theorem AuthTrace.Unforged.mono {c : ProofCall} (h : t.Unforged mac c) {x : Int64 × Str} :
    AuthTrace.Unforged mac { t with issued := x :: t.issued } c := by
  intro tokenBytes hopen
  obtain ⟨y, hy, heq⟩ := h tokenBytes hopen
  exact ⟨y, List.mem_cons_of_mem x hy, heq⟩

theorem AuthTrace.Inv.issued_of_check (h : t.Inv mac) {c : ProofCall} (hc : c ∈ t.waiting)
    {payload : Str} (hcheck : checkProof lib mac c = .ok payload) :
    (payloadExpiry payload, payloadNonce payload) ∈ t.issued := by
  obtain ⟨tokenBytes, hopen, rfl, -⟩ := checkProof_eq_ok hcheck
  obtain ⟨x, hx, heq⟩ := h.unforged c hc tokenBytes hopen
  rw [heq, payloadExpiry_challengePayload, payloadNonce_challengePayload]
  exact hx

theorem AuthTrace.Inv.expiry_eq (h : t.Inv mac) {e e' : Int64} {nonce : Str}
    (hx : (e, nonce) ∈ t.issued) (hx' : (e', nonce) ∈ t.issued) : e = e' :=
  congrArg Prod.fst (List.inj_on_of_nodup_map h.distinct hx hx' rfl)

theorem AuthTrace.Inv.finish (h : t.Inv mac) {c : ProofCall} {before after : List ProofCall}
    (hwaits : t.waiting = before ++ c :: after) :
    (t.finish lib mac c (before ++ after)).Inv mac := by
  have hc : c ∈ t.waiting := hwaits ▸ List.mem_append_right _ List.mem_cons_self
  have hothers : ∀ x ∈ before ++ after, t.Unforged mac x := by
    intro x hx
    refine h.unforged x (hwaits ▸ ?_)
    simp only [List.mem_append, List.mem_cons] at hx ⊢
    tauto
  unfold AuthTrace.finish
  cases hcheck : checkProof lib mac c with
  | error e => exact ⟨h.distinct, hothers, h.issued, h.unexpired⟩
  | ok payload =>
    obtain ⟨-, -, -, hexpiry⟩ := checkProof_eq_ok hcheck
    dsimp only
    cases (t.auth.useNonce c.now payload).1 with
    | error e => exact ⟨h.distinct, hothers, h.issued, h.unexpired⟩
    | ok u =>
      refine ⟨h.distinct, hothers, fun a ha => ?_, fun a ha => ?_⟩ <;>
        rcases List.mem_cons.mp ha with rfl | ha
      · exact h.issued_of_check hc hcheck
      · exact h.issued a ha
      · exact hexpiry
      · exact h.unexpired a ha

theorem AuthRun.inv (h : AuthRun lib mac ok t) : t.Inv mac := by
  induction h with
  | new clock => exact ⟨List.nodup_nil, by simp, by simp, by simp⟩
  | tick now _ _ ih => exact ⟨ih.distinct, ih.unforged, ih.issued, ih.unexpired⟩
  | issue nonce _ hdistinct ih =>
    exact ⟨List.nodup_cons.mpr ⟨hdistinct, ih.distinct⟩, fun c hc => (ih.unforged c hc).mono,
      fun a ha => List.mem_cons_of_mem _ (ih.issued a ha), ih.unexpired⟩
  | call c _ _ hunforged ih =>
    exact ⟨ih.distinct, List.forall_mem_cons.mpr ⟨hunforged, ih.unforged⟩, ih.issued, ih.unexpired⟩
  | enter c before after _ hwaits _ ih => exact ih.finish hwaits

/-- A nonce that was accepted is kept by the purge of a call, or the call's reading is past it. -/
theorem AuthTrace.Used.known_purge (h : t.Used) (now : Int64) :
    ∀ a ∈ t.accepted, (t.auth.purge now).seen.get (hexEncode a.nonce) = some a.expiry ∨
      ∃ r ∈ now :: t.entered, r > a.expiry := by
  intro a ha
  rcases h.known a ha with hseen | ⟨r, hr, hlate⟩
  · exact (get_purge_of_some hseen).imp id fun hnow => ⟨now, List.mem_cons_self, hnow⟩
  · exact .inr ⟨r, List.mem_cons_of_mem _ hr, hlate⟩

theorem AuthTrace.Used.fresh (h : t.Used) (hi : t.Inv mac) {c : ProofCall} (hc : c ∈ t.waiting)
    (htimely : t.Timely lib mac c) {payload : Str} (hcheck : checkProof lib mac c = .ok payload)
    (hnone : (t.auth.purge c.now).seen.get (hexEncode (payloadNonce payload)) = none) :
    payloadNonce payload ∉ t.accepted.map Acceptance.nonce := by
  intro hin
  obtain ⟨a, ha, hnonce⟩ := List.mem_map.mp hin
  obtain ⟨-, -, -, hexpiry⟩ := checkProof_eq_ok hcheck
  have hissued := hi.issued a ha
  rw [hnonce] at hissued
  have hsame : a.expiry = payloadExpiry payload :=
    hi.expiry_eq hissued (hi.issued_of_check hc hcheck)
  rcases h.known_purge c.now a ha with hseen | ⟨r, hr, hlate⟩
  · rw [hnonce, hnone] at hseen
    cases hseen
  · -- Neither this call nor one before it has read a time past the expiry.
    have hle : r ≤ payloadExpiry payload := by
      rcases List.mem_cons.mp hr with rfl | hr
      · exact hexpiry
      · exact htimely payload hcheck r hr
    rw [hsame] at hlate
    exact absurd hlate (Int64.not_lt.mpr hle)

theorem AuthTrace.Used.finish (h : t.Used) (hi : t.Inv mac) {c : ProofCall}
    {before after : List ProofCall} (hwaits : t.waiting = before ++ c :: after)
    (htimely : t.Timely lib mac c) : (t.finish lib mac c (before ++ after)).Used := by
  have hc : c ∈ t.waiting := hwaits ▸ List.mem_append_right _ List.mem_cons_self
  unfold AuthTrace.finish
  cases hcheck : checkProof lib mac c with
  | error e => exact ⟨h.known, h.once⟩
  | ok payload =>
    dsimp only
    rcases useNonce_cases c.now payload t.auth with ⟨⟨e, herr⟩, hauth⟩ | ⟨hok, hnone, hauth⟩
    · rw [herr, hauth]
      exact ⟨h.known_purge c.now, h.once⟩
    · have hfresh := h.fresh hi hc htimely hcheck hnone
      rw [hok]
      refine ⟨fun a ha => ?_, List.nodup_cons.mpr ⟨hfresh, h.once⟩⟩
      dsimp only
      rw [hauth]
      rcases List.mem_cons.mp ha with rfl | ha
      · exact .inl (Table.get_set_self _ _ _)
      · have hne : hexEncode a.nonce ≠ hexEncode (payloadNonce payload) := fun heq =>
          hfresh (List.mem_map.mpr ⟨a, ha, hexEncode_inj heq⟩)
        rw [Table.get_set_of_ne _ hne]
        exact h.known_purge c.now a ha

/-- **In every interleaving whose calls are timely no nonce is accepted twice, and none after its
expiry.** -/
theorem challenges_singleUse (lib : Lib) (mac : Str → Str) (t : AuthTrace)
    (h : AuthRun lib mac (AuthTrace.Timely lib mac) t) : t.SingleUse := by
  have hused : t.Used := by
    induction h with
    | new clock => exact ⟨by simp, List.nodup_nil⟩
    | tick now _ _ ih => exact ⟨ih.known, ih.once⟩
    | issue nonce _ _ ih => exact ⟨ih.known, ih.once⟩
    | call c _ _ _ ih => exact ⟨ih.known, ih.once⟩
    | enter c before after hrun hwaits htimely ih => exact ih.finish hrun.inv hwaits htimely
  exact ⟨hused.once, h.inv.unexpired⟩

end Runs

/-! ## A call that waits -/

theorem length_challengePayload (expiry : Int64) {nonce : Str} (h : nonce.length = 16) :
    (challengePayload expiry nonce).length = chatChPayload := by
  rw [challengePayload, List.length_append, length_be64, h]
  rfl

theorem openChallenge_issueChallenge {mac : Str → Str} (hmac : ∀ s, (mac s).length = 32)
    (now : Int64) {nonce : Str} (hnonce : nonce.length = 16) :
    openChallenge mac (issueChallenge mac now nonce).1 =
      .ok (challengePayload (now + chatChallengeTTLNs) nonce ++
        mac (challengePayload (now + chatChallengeTTLNs) nonce)) := by
  have hlen := length_challengePayload (now + chatChallengeTTLNs) hnonce
  unfold issueChallenge openChallenge
  dsimp only
  rw [hexDecode_hexEncode]
  refine bind_eq_ok.mpr ⟨_, rfl, bind_eq_ok.mpr ⟨(), guardErr_eq_ok.mpr ?_, ?_⟩⟩
  · rw [List.length_append, hlen, hmac]
    exact not_not.mpr rfl
  · refine bind_eq_ok.mpr ⟨(), guardErr_eq_ok.mpr ?_, rfl⟩
    rw [List.drop_left' hlen, List.take_left' hlen]
    exact not_not.mpr rfl

/-- A call that ends leaves the other calls, the clock and the challenges alone. -/
theorem AuthTrace.finish_frame (lib : Lib) (mac : Str → Str) (t : AuthTrace) (c : ProofCall)
    (others : List ProofCall) :
    (t.finish lib mac c others).waiting = others ∧ (t.finish lib mac c others).clock = t.clock ∧
      (t.finish lib mac c others).issued = t.issued := by
  unfold AuthTrace.finish
  cases checkProof lib mac c <;> exact ⟨rfl, rfl, rfl⟩

namespace SampleAuth

/-- A constant MAC. -/
def mac (_ : Str) : Str := List.replicate 32 7

/-- A nonce. -/
def nonceOf (n : UInt8) : Str := List.replicate 16 n

theorem length_nonceOf (n : UInt8) : (nonceOf n).length = 16 := List.length_replicate

/-- The account that the key owns. -/
def account : Str :=
  deriveAddressFromKey Sample.lib (List.replicate 32 1)

/-- A reader's call with the challenge that was issued at a time with a nonce. -/
def proof (issuedAt : Int64) (nonce : UInt8) (now : Int64) : ProofCall :=
  { account := account, pubKey := Sample.pub 1
    challenge := (issueChallenge mac issuedAt (nonceOf nonce)).1
    sig := Sample.signature, now := now }

theorem openChallenge_proof (issuedAt : Int64) (nonce : UInt8) (now : Int64) :
    openChallenge mac (proof issuedAt nonce now).challenge =
      .ok (challengePayload (issuedAt + chatChallengeTTLNs) (nonceOf nonce) ++
        mac (challengePayload (issuedAt + chatChallengeTTLNs) (nonceOf nonce))) :=
  openChallenge_issueChallenge (fun _ => List.length_replicate) issuedAt (length_nonceOf nonce)

theorem take_of_openChallenge {issuedAt : Int64} {nonce : UInt8} {now : Int64} {tokenBytes : Str}
    (h : openChallenge mac (proof issuedAt nonce now).challenge = .ok tokenBytes) :
    tokenBytes.take chatChPayload =
      challengePayload (issuedAt + chatChallengeTTLNs) (nonceOf nonce) := by
  obtain rfl := Except.ok.inj ((openChallenge_proof issuedAt nonce now).symm.trans h)
  exact List.take_left' (length_challengePayload _ (length_nonceOf nonce))

theorem unforged_proof {t : AuthTrace} {issuedAt : Int64} {nonce : UInt8} {now : Int64}
    (h : (issuedAt + chatChallengeTTLNs, nonceOf nonce) ∈ t.issued) :
    t.Unforged mac (proof issuedAt nonce now) :=
  fun _ hopen => ⟨_, h, take_of_openChallenge hopen⟩

/-- The first challenge, and two calls that carry it. -/
def twoWaiting : AuthTrace :=
  ⟨⟨.empty⟩, 0, [(0 + chatChallengeTTLNs, nonceOf 1)], [proof 0 1 0, proof 0 1 0], [], []⟩

theorem authRun_twoWaiting {ok : AuthTrace → ProofCall → Prop} :
    AuthRun Sample.lib mac ok twoWaiting := by
  have hissue : AuthRun Sample.lib mac ok _ :=
    .issue (nonceOf 1) (.new 0) List.not_mem_nil
  have hfirst : AuthRun Sample.lib mac ok _ :=
    .call (proof 0 1 0) hissue rfl (unforged_proof List.mem_cons_self)
  exact .call (proof 0 1 0) hfirst rfl (unforged_proof List.mem_cons_self)

/-- The first of the two calls has ended. -/
def oneWaiting : AuthTrace :=
  twoWaiting.finish Sample.lib mac (proof 0 1 0) [proof 0 1 0]

theorem oneWaiting_frame : oneWaiting.waiting = [proof 0 1 0] ∧ oneWaiting.clock = 0 ∧
    oneWaiting.issued = [(0 + chatChallengeTTLNs, nonceOf 1)] :=
  AuthTrace.finish_frame _ _ _ _ _

/-- A second challenge is issued, and more than two minutes after the first another call reads the
clock. -/
def late (t : AuthTrace) : AuthTrace :=
  { t with
    clock := 130000000000
    issued := (100000000000 + chatChallengeTTLNs, nonceOf 2) :: t.issued
    waiting := proof 100000000000 2 130000000000 :: t.waiting }

theorem authRun_late {ok : AuthTrace → ProofCall → Prop} {t : AuthTrace}
    (h : AuthRun Sample.lib mac ok t) (hclock : t.clock = 0)
    (hissued : t.issued = [(0 + chatChallengeTTLNs, nonceOf 1)]) :
    AuthRun Sample.lib mac ok (late t) := by
  have htick := AuthRun.tick 100000000000 h (by rw [hclock]; decide)
  have hdistinct : nonceOf 2 ∉ t.issued.map Prod.snd := by
    rw [hissued]
    decide +kernel
  have hissue := AuthRun.issue (nonceOf 2) htick hdistinct
  have hread := AuthRun.tick 130000000000 hissue
    (show (100000000000 : Int64) ≤ 130000000000 by decide)
  exact .call (proof 100000000000 2 130000000000) hread rfl (unforged_proof List.mem_cons_self)

end SampleAuth

open SampleAuth in
/-- A call reads the clock and waits while another one uses its challenge, and a third purges the
nonce with a reading past the expiry: the challenge is accepted a second time. -/
theorem challenge_accepted_twice :
    ∃ t, AuthRun Sample.lib mac (fun _ _ => True) t ∧
      ¬(t.accepted.map Acceptance.nonce).Nodup := by
  have hone : AuthRun Sample.lib mac (fun _ _ => True) oneWaiting :=
    .enter (proof 0 1 0) [] [proof 0 1 0] authRun_twoWaiting rfl trivial
  obtain ⟨hwaiting, hclock, hissued⟩ := oneWaiting_frame
  have hthird := AuthRun.enter (proof 100000000000 2 130000000000) [] oneWaiting.waiting
    (authRun_late hone hclock hissued) rfl trivial
  have hwaits : ((late oneWaiting).finish Sample.lib mac (proof 100000000000 2 130000000000)
      ([] ++ oneWaiting.waiting)).waiting = [] ++ proof 0 1 0 :: [] := by
    rw [(AuthTrace.finish_frame _ _ _ _ _).1, List.nil_append, List.nil_append, hwaiting]
  exact ⟨_, .enter (proof 0 1 0) [] [] hthird hwaits trivial, by decide +kernel⟩

open SampleAuth in
/-- Two calls with one challenge in time: one of them is accepted. -/
theorem challenges_singleUse_pair :
    ∃ t, AuthRun Sample.lib mac (AuthTrace.Timely Sample.lib mac) t ∧ t.entered.length = 2 ∧
      t.accepted.length = 1 ∧ t.SingleUse := by
  have htimely : ∀ t : AuthTrace, (∀ r ∈ t.entered, r ≤ 120000000000) →
      t.Timely Sample.lib mac (proof 0 1 0) := by
    intro t ht payload hcheck r hr
    obtain ⟨tokenBytes, hopen, rfl, -⟩ := checkProof_eq_ok hcheck
    rw [take_of_openChallenge hopen, payloadExpiry_challengePayload]
    exact ht r hr
  have hone : AuthRun Sample.lib mac (AuthTrace.Timely Sample.lib mac) oneWaiting :=
    .enter (proof 0 1 0) [] [proof 0 1 0] authRun_twoWaiting rfl
      (htimely _ (fun r hr => absurd hr List.not_mem_nil))
  have hentered : oneWaiting.entered = [0] := by decide +kernel
  have hrun := AuthRun.enter (proof 0 1 0) [] [] hone oneWaiting_frame.1
    (htimely _ (fun r hr => by
      rw [hentered] at hr
      rw [List.mem_singleton.mp hr]
      exact Int64.le_iff_toInt_le.mpr (by decide)))
  exact ⟨_, hrun, by decide +kernel, by decide +kernel, challenges_singleUse _ _ _ hrun⟩

end Xe
