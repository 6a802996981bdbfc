import XeLattice.Go.Slices
import XeLattice.Inv.Hashes
import XeLattice.SampleLib

/-!
# Chat messages

An envelope is checked by `VerifyFull`, which wants a time close to the clock, and then handed to
the `ChatStore`, which remembers the identifiers it has stored.  When the table of identifiers is
full, those of old envelopes are forgotten.

* **`chat_atMostOnce`**: no identifier is stored twice, away from the ends of the clock's range.
-/

set_option autoImplicit false

namespace Xe

/-! ## Envelopes -/

/-- `MaxMessageBytes`. -/
def maxMessageBytes : ℕ := 8192

/-- `MaxEnvelopeSkew`, five minutes in nanoseconds. -/
def maxEnvelopeSkew : Int64 := 300000000000

/-- `Envelope`. -/
structure Envelope where
  id : Str
  fromAddr : Str
  pubKey : Str
  toAddr : Str
  message : Str
  timestamp : Int64
  signature : Str
  powNonce : UInt64
  deriving DecidableEq

/-- `appendField`. -/
def appendField (data : Str) : Str :=
  be32 (UInt32.ofNat data.length) ++ data

/-- `envelopeCanonical`. -/
def envelopeCanonical (fromAddr pubKey toAddr message : Str) (timestamp : Int64) : Str :=
  appendField fromAddr ++ appendField pubKey ++ appendField toAddr ++ appendField message ++
    be64 timestamp.toUInt64

/-- The bytes that the identifier commits to. -/
def Envelope.canonical (e : Envelope) : Str :=
  envelopeCanonical e.fromAddr e.pubKey e.toAddr e.message e.timestamp

section Verify

variable (lib : Lib)

/-- `ComputeEnvelopeID`. -/
def computeEnvelopeID (e : Envelope) : Str :=
  hexEncode (lib.sha256 e.canonical)

/-- `VerifyPayloadKey`. -/
def verifyPayloadKey (pubKeyHex account : Str) : Except GoError Unit := do
  guardErr (pubKeyHex = []) (errorf (str "missing public key"))
  guardErr (account = []) (errorf (str "missing account"))
  let derived ← deriveAddress lib pubKeyHex
  guardErr (derived ≠ account)
    (errorf (str "public key does not derive account " ++ account))

/-- The time of the envelope is too far from the clock. -/
def outsideWindow (now timestamp : Int64) : Prop :=
  now - timestamp > maxEnvelopeSkew ∨ now - timestamp < -maxEnvelopeSkew

instance (now timestamp : Int64) : Decidable (outsideWindow now timestamp) :=
  inferInstanceAs (Decidable (_ ∨ _))

/-- `VerifyFull`, at a reading of the clock. -/
def Envelope.verifyFull (difficulty : UInt64) (now : Int64) (e : Envelope) :
    Except GoError Unit := do
  guardErr (e.fromAddr = [] ∨ e.pubKey = [] ∨ e.toAddr = [] ∨ e.message = [] ∨ e.timestamp = 0 ∨
    e.signature = []) (errorf (str "missing required fields"))
  guardErr (e.message.length > maxMessageBytes)
    (errorf (str "message exceeds maximum length of " ++ dec maxMessageBytes ++ str " bytes"))
  guardErr (outsideWindow now e.timestamp)
    (errorf (str "envelope timestamp outside freshness window"))
  guardErr (e.id ≠ computeEnvelopeID lib e) (errorf (str "envelope ID mismatch"))
  -- The identifier is hexadecimal by now, so the error that the source drops cannot occur.
  let idBytes := ((hexDecode e.id).toOption).getD []
  guardErr (difficulty > 0 ∧ ¬lib.powHash e.powNonce idBytes ≥ difficulty)
    (errorf (str "insufficient proof of work"))
  (verifyPayloadKey lib e.pubKey e.fromAddr).mapError (GoError.wrap (str "envelope key: "))
  verifyHexSignature lib e.pubKey e.signature idBytes

end Verify

/-! ## The store -/

/-- `maxSeenIDs`. -/
def maxSeenIDs : ℕ := 100000

/-- `ChatStore`, without its listeners. -/
structure ChatStore where
  messages : Table Str (List Envelope)
  seen : Table Str Int64
  maxPerAccount : ℤ

/-- `NewChatStore`. -/
def newChatStore (maxPerAccount : ℤ) : ChatStore :=
  { messages := .empty, seen := .empty, maxPerAccount := maxPerAccount }

namespace ChatStore

/-- `pruneSeenLocked`, at a reading of the clock. -/
def pruneSeenLocked (now : Int64) (s : ChatStore) : ChatStore :=
  { s with seen := s.seen.filterMap fun _ ts =>
      if ts < now - 2 * maxEnvelopeSkew then none else some ts }

/-- `storeFor`, which crashes when the store may hold no message. -/
def storeFor (account : Str) (env : Envelope) (s : ChatStore) : Option ChatStore :=
  let msgs := (s.messages.get account).getD []
  if (msgs.length : ℤ) ≥ s.maxPerAccount then
    if s.maxPerAccount ≤ 0 then none
    else
      let newMsgs := (msgs.drop 1).take (s.maxPerAccount.toNat - 1) ++ [env]
      some { s with messages := s.messages.set account newMsgs }
  else some { s with messages := s.messages.set account (msgs ++ [env]) }

/-- `Store` files the envelope with both parties. -/
def storeForBoth (env : Envelope) (s : ChatStore) : Option ChatStore :=
  (s.storeFor env.toAddr env).bind fun s =>
    if env.fromAddr ≠ env.toAddr then s.storeFor env.fromAddr env else some s

/-- `Store` enters the identifier. -/
def remember (env : Envelope) (s : ChatStore) : ChatStore :=
  { s with seen := s.seen.set env.id env.timestamp }

/-- The table of identifiers once it has room, if it can be given any. -/
def makeRoom (now : Int64) (s : ChatStore) : ChatStore :=
  if s.seen.keys.card ≥ maxSeenIDs then s.pruneSeenLocked now else s

/-- `Store`: whether the envelope was stored, unless the call crashes.  The clock is read when the
table is pruned. -/
def store (now : Int64) (env : Envelope) (s : ChatStore) : Option (Bool × ChatStore) :=
  if (s.seen.get env.id).isSome then some (false, s)
  else if (s.makeRoom now).seen.keys.card ≥ maxSeenIDs then some (false, s.makeRoom now)
  else (((s.makeRoom now).remember env).storeForBoth env).map fun s => (true, s)

end ChatStore

/-! ## Runs -/

/-- A store, the last reading of the clock, and the envelopes that were stored. -/
structure ChatTrace where
  store : ChatStore
  clock : Int64
  stored : List Envelope

/-- An envelope arrives: the readings of the clock at its verification and at its storing. -/
structure Arrival where
  env : Envelope
  now : Int64
  now' : Int64

/-- The traces of the runs in which envelopes with encodings in `D` are stored right after they were
verified, under a clock that does not go back, and every arrival meets a condition. -/
inductive ChatRun (lib : Lib) (difficulty : UInt64) (maxPerAccount : ℤ) (D : Set Str)
    (ok : Arrival → Prop) : ChatTrace → Prop
  | new (clock : Int64) : ChatRun lib difficulty maxPerAccount D ok
      ⟨newChatStore maxPerAccount, clock, []⟩
  | arrive {t : ChatTrace} (a : Arrival) {isNew : Bool} {s' : ChatStore}
      (h : ChatRun lib difficulty maxPerAccount D ok t) (hok : ok a)
      (mem : a.env.canonical ∈ D) (later : t.clock ≤ a.now) (later' : a.now ≤ a.now')
      (verified : a.env.verifyFull lib difficulty a.now = .ok ())
      (run : t.store.store a.now' a.env = some (isNew, s')) :
      ChatRun lib difficulty maxPerAccount D ok
        ⟨s', a.now', if isNew then a.env :: t.stored else t.stored⟩

/-- **No identifier is stored twice, and the table of identifiers is bounded.** -/
structure ChatTrace.AtMostOnce (t : ChatTrace) : Prop where
  once : (t.stored.map Envelope.id).Nodup
  bounded : t.store.seen.keys.card ≤ maxSeenIDs

/-- **The clock keeps away from the ends of its range**: by the window of the pruning from the
lowest time, and by that of the verification from the highest. -/
def Arrival.Steady (a : Arrival) : Prop :=
  -2 ^ 63 + 600000000000 ≤ a.now.toInt ∧ a.now.toInt ≤ 2 ^ 63 - 1 - 300000000000

/-! ## Times -/

theorem toInt_maxEnvelopeSkew : maxEnvelopeSkew.toInt = 300000000000 := by decide

theorem toInt_neg_maxEnvelopeSkew : (-maxEnvelopeSkew).toInt = -300000000000 := by decide

theorem toInt_two_mul_maxEnvelopeSkew : (2 * maxEnvelopeSkew).toInt = 600000000000 := by decide

/-- A fresh envelope is at most five minutes old, away from the ends of the range. -/
theorem timestamp_of_window {now ts : Int64} (h : ¬outsideWindow now ts)
    (hlo : -2 ^ 63 + 600000000000 ≤ now.toInt) (hhi : now.toInt ≤ 2 ^ 63 - 1 - 300000000000) :
    now.toInt - 300000000000 ≤ ts.toInt := by
  have hmin := Int64.le_toInt ts
  have hmax := Int64.toInt_lt ts
  simp only [outsideWindow, not_or, gt_iff_lt, Int64.lt_iff_toInt_lt, toInt_maxEnvelopeSkew,
    toInt_neg_maxEnvelopeSkew, Int64.toInt_sub, Int.bmod_def] at h
  omega

theorem timestamp_of_pruned {now ts : Int64} (h : ts < now - 2 * maxEnvelopeSkew)
    (hlo : -2 ^ 63 + 600000000000 ≤ now.toInt) : ts.toInt < now.toInt - 600000000000 := by
  have hmax := Int64.toInt_lt now
  rw [Int64.lt_iff_toInt_lt, Int64.toInt_sub, toInt_two_mul_maxEnvelopeSkew, Int.bmod_def] at h
  omega

/-! ## One arrival -/

section Steps

variable {lib : Lib} {difficulty : UInt64} {s s' : ChatStore} {e : Envelope} {now : Int64}

theorem verifyFull_eq_ok (h : e.verifyFull lib difficulty now = .ok ()) :
    ¬outsideWindow now e.timestamp ∧ e.id = computeEnvelopeID lib e := by
  obtain ⟨_, _, h⟩ := bind_eq_ok.mp h
  obtain ⟨_, _, h⟩ := bind_eq_ok.mp h
  obtain ⟨_, hwindow, h⟩ := bind_eq_ok.mp h
  obtain ⟨_, hid, _⟩ := bind_eq_ok.mp h
  exact ⟨guardErr_eq_ok.mp hwindow, not_not.mp (guardErr_eq_ok.mp hid)⟩

theorem seen_storeFor {account : Str} (h : s.storeFor account e = some s') : s'.seen = s.seen := by
  unfold ChatStore.storeFor at h
  dsimp only at h
  split_ifs at h <;> cases h <;> rfl

theorem seen_storeForBoth (h : s.storeForBoth e = some s') : s'.seen = s.seen := by
  obtain ⟨s₁, hto, hfrom⟩ := Option.bind_eq_some_iff.mp h
  rw [← seen_storeFor hto]
  split_ifs at hfrom
  · exact seen_storeFor hfrom
  · cases hfrom
    rfl

/-- The three outcomes of `Store`, by what they leave of the table of identifiers. -/
theorem store_cases {isNew : Bool} (h : s.store now e = some (isNew, s')) :
    (isNew = false ∧ (s.seen.get e.id).isSome ∧ s' = s) ∨
      (isNew = false ∧ s.seen.get e.id = none ∧ s' = s.makeRoom now) ∨
      (isNew = true ∧ s.seen.get e.id = none ∧ (s.makeRoom now).seen.keys.card < maxSeenIDs ∧
        s'.seen = (s.makeRoom now).seen.set e.id e.timestamp) := by
  unfold ChatStore.store at h
  split_ifs at h with hdup hfull
  · cases h
    exact .inl ⟨rfl, hdup, rfl⟩
  · cases h
    exact .inr (.inl ⟨rfl, Option.not_isSome_iff_eq_none.mp hdup, rfl⟩)
  · obtain ⟨s₁, hboth, h⟩ := Option.map_eq_some_iff.mp h
    cases h
    exact .inr (.inr ⟨rfl, Option.not_isSome_iff_eq_none.mp hdup, Nat.lt_of_not_ge hfull,
      seen_storeForBoth hboth⟩)

theorem get_pruneSeenLocked (now : Int64) (s : ChatStore) (id : Str) :
    (s.pruneSeenLocked now).seen.get id =
      (s.seen.get id).bind fun ts =>
        if ts < now - 2 * maxEnvelopeSkew then none else some ts :=
  Table.get_filterMap _ _ _

theorem get_makeRoom {id : Str} {ts : Int64} (h : s.seen.get id = some ts) :
    (s.makeRoom now).seen.get id = some ts ∨ ts < now - 2 * maxEnvelopeSkew := by
  unfold ChatStore.makeRoom
  split_ifs
  · rw [get_pruneSeenLocked, h, Option.bind_some]
    split_ifs with hold
    · exact .inr hold
    · exact .inl rfl
  · exact .inl h

theorem card_makeRoom_le (now : Int64) (s : ChatStore) :
    (s.makeRoom now).seen.keys.card ≤ s.seen.keys.card := by
  refine Finset.card_le_card fun id hid => ?_
  obtain ⟨ts, hts⟩ := Table.mem_keys.mp hid
  unfold ChatStore.makeRoom at hts
  split_ifs at hts
  · rw [get_pruneSeenLocked, Option.bind_eq_some_iff] at hts
    obtain ⟨ts', hts', -⟩ := hts
    exact Table.mem_keys.mpr ⟨ts', hts'⟩
  · exact Table.mem_keys.mpr ⟨ts, hts⟩

end Steps

theorem timestamp_of_canonical {e e' : Envelope} (h : e.canonical = e'.canonical) :
    e.timestamp = e'.timestamp := by
  have hbytes := List.append_inj_right' h (by rw [length_be64, length_be64])
  have hword := congrArg UInt64.toInt64 (be64_inj hbytes)
  rwa [Int64.toInt64_toUInt64, Int64.toInt64_toUInt64] at hword

/-! ## Whole runs -/

/-- What holds of every trace of a run with a steady clock. -/
structure ChatTrace.Inv (lib : Lib) (D : Set Str) (t : ChatTrace) : Prop where
  named : ∀ e ∈ t.stored, e.id = computeEnvelopeID lib e ∧ e.canonical ∈ D
  known : ∀ e ∈ t.stored, t.store.seen.get e.id = some e.timestamp ∨
    e.timestamp.toInt < t.clock.toInt - 600000000000
  once : (t.stored.map Envelope.id).Nodup

section Runs

variable {lib : Lib} {difficulty : UInt64} {maxPerAccount : ℤ} {D : Set Str} {t : ChatTrace}

/-- An identifier that is not in the table was not stored within the last ten minutes, and a fresh
envelope cannot have it. -/
theorem ChatTrace.Inv.fresh (h : t.Inv lib D) (hinj : Set.InjOn lib.sha256 D) {a : Arrival}
    (hsteady : a.Steady) (hmem : a.env.canonical ∈ D) (hlater : t.clock ≤ a.now)
    (hverified : a.env.verifyFull lib difficulty a.now = .ok ())
    (hnone : t.store.seen.get a.env.id = none) : a.env.id ∉ t.stored.map Envelope.id := by
  intro hin
  obtain ⟨e, he, hid⟩ := List.mem_map.mp hin
  obtain ⟨hwindow, hname⟩ := verifyFull_eq_ok hverified
  obtain ⟨hename, heD⟩ := h.named e he
  have hdigest : lib.sha256 e.canonical = lib.sha256 a.env.canonical :=
    hexEncode_inj (hename.symm.trans (hid.trans hname))
  have hts := timestamp_of_canonical (hinj heD hmem hdigest)
  have hfresh := timestamp_of_window hwindow hsteady.1 hsteady.2
  rcases h.known e he with hseen | hold
  · rw [hid, hnone] at hseen
    cases hseen
  · rw [hts] at hold
    have := Int64.le_iff_toInt_le.mp hlater
    omega

theorem ChatTrace.Inv.known_makeRoom (h : t.Inv lib D) {a : Arrival} (hsteady : a.Steady)
    (hlater : t.clock ≤ a.now) (hlater' : a.now ≤ a.now') :
    ∀ e ∈ t.stored, (t.store.makeRoom a.now').seen.get e.id = some e.timestamp ∨
      e.timestamp.toInt < a.now'.toInt - 600000000000 := by
  have hclock := Int64.le_iff_toInt_le.mp hlater
  have hclock' := Int64.le_iff_toInt_le.mp hlater'
  have hlow := hsteady.1
  intro e he
  rcases h.known e he with hseen | hold
  · exact (get_makeRoom hseen).imp id fun hp => timestamp_of_pruned hp (by omega)
  · exact .inr (by omega)

theorem ChatTrace.Inv.arrive (h : t.Inv lib D) (hinj : Set.InjOn lib.sha256 D) {a : Arrival}
    {isNew : Bool} {s' : ChatStore} (hsteady : a.Steady) (hmem : a.env.canonical ∈ D)
    (hlater : t.clock ≤ a.now) (hlater' : a.now ≤ a.now')
    (hverified : a.env.verifyFull lib difficulty a.now = .ok ())
    (hrun : t.store.store a.now' a.env = some (isNew, s')) :
    ChatTrace.Inv lib D ⟨s', a.now', if isNew then a.env :: t.stored else t.stored⟩ := by
  have hroom := h.known_makeRoom hsteady hlater hlater'
  rcases store_cases hrun with ⟨rfl, -, rfl⟩ | ⟨rfl, -, rfl⟩ | ⟨rfl, hnone, -, hseen⟩
  · refine ⟨h.named, fun e he => (h.known e he).imp_right fun hold => ?_, h.once⟩
    have hclock := Int64.le_iff_toInt_le.mp (Int64.le_trans hlater hlater')
    dsimp only
    omega
  · exact ⟨h.named, hroom, h.once⟩
  · have hfresh := h.fresh hinj hsteady hmem hlater hverified hnone
    refine ⟨fun e he => ?_, fun e he => ?_, List.nodup_cons.mpr ⟨hfresh, h.once⟩⟩
    · rcases List.mem_cons.mp he with rfl | he
      · exact ⟨(verifyFull_eq_ok hverified).2, hmem⟩
      · exact h.named e he
    · rw [hseen]
      rcases List.mem_cons.mp he with rfl | he
      · exact .inl (Table.get_set_self _ _ _)
      · have hne : e.id ≠ a.env.id := fun heq =>
          hfresh (List.mem_map.mpr ⟨e, he, heq⟩)
        rw [Table.get_set_of_ne _ hne]
        exact hroom e he

theorem card_seen_le {ok : Arrival → Prop} (h : ChatRun lib difficulty maxPerAccount D ok t) :
    t.store.seen.keys.card ≤ maxSeenIDs := by
  induction h with
  | new clock => exact Nat.zero_le _
  | arrive a _ _ _ _ _ _ hrun ih =>
    rcases store_cases hrun with ⟨-, -, rfl⟩ | ⟨-, -, rfl⟩ | ⟨-, -, hcard, hseen⟩
    · exact ih
    · exact (card_makeRoom_le _ _).trans ih
    · rw [hseen, Table.keys_set]
      exact (Finset.card_insert_le _ _).trans hcard

/-- **In every run with a steady clock no identifier is stored twice, and the table is bounded.** -/
theorem chat_atMostOnce (lib : Lib) (difficulty : UInt64) (maxPerAccount : ℤ) (D : Set Str)
    (hinj : Set.InjOn lib.sha256 D) (t : ChatTrace)
    (h : ChatRun lib difficulty maxPerAccount D Arrival.Steady t) : t.AtMostOnce := by
  have hinv : t.Inv lib D := by
    induction h with
    | new clock => exact ⟨by simp, by simp, List.nodup_nil⟩
    | arrive a _ hok hmem hlater hlater' hverified hrun ih =>
      exact ih.arrive hinj hok hmem hlater hlater' hverified hrun
  exact ⟨hinv.once, card_seen_le h⟩

end Runs

/-! ## Envelopes at the end of the clock's range -/

section Room

variable {s : ChatStore} {e : Envelope} {now : Int64}

theorem exists_storeFor (h : 0 < s.maxPerAccount) (account : Str) (e : Envelope) :
    ∃ s', s.storeFor account e = some s' ∧ s'.maxPerAccount = s.maxPerAccount := by
  unfold ChatStore.storeFor
  dsimp only
  split_ifs with hfull hnone
  · omega
  · exact ⟨_, rfl, rfl⟩
  · exact ⟨_, rfl, rfl⟩

theorem exists_store (now : Int64) (h : 0 < s.maxPerAccount) (hnone : s.seen.get e.id = none)
    (hroom : (s.makeRoom now).seen.keys.card < maxSeenIDs) :
    ∃ s', s.store now e = some (true, s') ∧ s'.maxPerAccount = s.maxPerAccount ∧
      s'.seen = (s.makeRoom now).seen.set e.id e.timestamp := by
  have hper : ((s.makeRoom now).remember e).maxPerAccount = s.maxPerAccount := by
    unfold ChatStore.makeRoom
    split_ifs <;> rfl
  obtain ⟨s₁, hto, hper₁⟩ := exists_storeFor (hper ▸ h) e.toAddr e
  have hboth : ∃ s', ((s.makeRoom now).remember e).storeForBoth e = some s' ∧
      s'.maxPerAccount = s.maxPerAccount := by
    rw [ChatStore.storeForBoth, hto, Option.bind_some]
    split_ifs
    · obtain ⟨s₂, hfrom, hper₂⟩ := exists_storeFor (by rw [hper₁, hper]; exact h) e.fromAddr e
      exact ⟨s₂, hfrom, hper₂.trans (hper₁.trans hper)⟩
    · exact ⟨s₁, rfl, hper₁.trans hper⟩
  obtain ⟨s', hs', hper'⟩ := hboth
  refine ⟨s', ?_, hper', seen_storeForBoth hs'⟩
  rw [ChatStore.store, if_neg (by rw [hnone]; decide), if_neg (Nat.not_le.mpr hroom), hs']
  rfl

theorem makeRoom_of_lt (h : s.seen.keys.card < maxSeenIDs) : s.makeRoom now = s :=
  if_neg (Nat.not_le.mpr h)

end Room

namespace SampleChat

/-- The last bytes, the last first. -/
def tailDigest (s : Str) : Str :=
  (s.reverse ++ List.replicate 32 0).take 32

/-- A library with the injective digest. -/
def lib : Lib :=
  { Sample.lib with
    sha256 := tailDigest
    length_sha256 := fun s => by simp [tailDigest] }

/-- A message without its identifier. -/
def draft (timestamp : Int64) : Envelope :=
  { id := [], fromAddr := Sample.pub 1, pubKey := Sample.pub 1, toAddr := Sample.pub 2
    message := str "hi", timestamp := timestamp, signature := Sample.signature, powNonce := 0 }

/-- A message with its identifier. -/
def greeting (timestamp : Int64) : Envelope :=
  { draft timestamp with id := computeEnvelopeID lib (draft timestamp) }

/-- The inputs of the digest. -/
def D : Set Str :=
  Set.range fun ts => (greeting ts).canonical

theorem tailDigest_inj {x y p : Str} (hx : x.length = 8) (hy : y.length = 8)
    (h : tailDigest (p ++ x) = tailDigest (p ++ y)) : x = y := by
  have htail : ∀ z : Str, z.length = 8 → (tailDigest (p ++ z)).take 8 = z.reverse := by
    intro z hz
    rw [tailDigest, List.reverse_append, List.append_assoc, List.take_take,
      List.take_append_of_le_length (by simp [hz])]
    exact List.take_of_length_le (by simp [hz])
  have hrev := congrArg (List.take 8) h
  rw [htail x hx, htail y hy] at hrev
  exact List.reverse_injective hrev

theorem timestamp_of_digest {ts ts' : Int64}
    (h : lib.sha256 (greeting ts).canonical = lib.sha256 (greeting ts').canonical) : ts = ts' := by
  have hword := congrArg UInt64.toInt64
    (be64_inj (tailDigest_inj (length_be64 _) (length_be64 _) h))
  rwa [Int64.toInt64_toUInt64, Int64.toInt64_toUInt64] at hword

theorem injOn_D : Set.InjOn lib.sha256 D := by
  rintro _ ⟨ts, rfl⟩ _ ⟨ts', rfl⟩ h
  rw [timestamp_of_digest h]

theorem id_inj {ts ts' : Int64} (h : (greeting ts).id = (greeting ts').id) : ts = ts' :=
  timestamp_of_digest (hexEncode_inj h)

theorem verifyFull_greeting {now ts : Int64} (hzero : ts ≠ 0) (hwindow : ¬outsideWindow now ts) :
    (greeting ts).verifyFull lib 0 now = .ok () := by
  have hkey : verifyPayloadKey lib (Sample.pub 1) (Sample.pub 1) = .ok () := by decide +kernel
  have hpub : ∃ k, decodePublicKey (Sample.pub 1) = .ok k :=
    ⟨List.replicate 32 1, by decide +kernel⟩
  have hsig : ∃ k, decodeSignature Sample.signature = .ok k :=
    ⟨List.replicate 64 0, by decide +kernel⟩
  obtain ⟨pub, hpub⟩ := hpub
  obtain ⟨sig, hsig⟩ := hsig
  have hverify : ∀ m, verifyHexSignature lib (Sample.pub 1) Sample.signature m = .ok () := by
    intro m
    rw [verifyHexSignature, hpub, hsig]
    rfl
  have hfields : ¬((greeting ts).fromAddr = [] ∨ (greeting ts).pubKey = [] ∨
      (greeting ts).toAddr = [] ∨ (greeting ts).message = [] ∨ (greeting ts).timestamp = 0 ∨
        (greeting ts).signature = []) := by
    have hpubs : Sample.pub 1 ≠ [] ∧ Sample.pub 2 ≠ [] ∧ str "hi" ≠ [] ∧
        Sample.signature ≠ [] := by decide +kernel
    simp [greeting, draft, hpubs, hzero]
  have hlength : ¬(greeting ts).message.length > maxMessageBytes :=
    show ¬(str "hi").length > maxMessageBytes by decide
  have hwork : ∀ q : Prop, ¬((0 : UInt64) > 0 ∧ q) := fun _ h => absurd h.1 (by decide)
  refine bind_eq_ok.mpr ⟨(), guardErr_eq_ok.mpr hfields, ?_⟩
  refine bind_eq_ok.mpr ⟨(), guardErr_eq_ok.mpr hlength, ?_⟩
  refine bind_eq_ok.mpr ⟨(), guardErr_eq_ok.mpr hwindow, ?_⟩
  refine bind_eq_ok.mpr ⟨(), guardErr_eq_ok.mpr (not_not.mpr rfl), ?_⟩
  refine bind_eq_ok.mpr ⟨(), guardErr_eq_ok.mpr (hwork _), ?_⟩
  exact bind_eq_ok.mpr ⟨(), mapError_eq_ok.mpr hkey, hverify _⟩

/-- The last reading of a clock. -/
def lastNow : Int64 := Int64.maxValue

/-- Times behind the end of the range, which wrap to its beginning. -/
def stamp (i : ℕ) : Int64 :=
  Int64.ofInt (-2 ^ 63 + i)

theorem toInt_stamp {i : ℕ} (h : i ≤ maxSeenIDs) : (stamp i).toInt = -2 ^ 63 + i := by
  have hmax : maxSeenIDs = 100000 := rfl
  exact Int64.toInt_ofInt_of_le (by omega) (by omega)

theorem stamp_inj {i j : ℕ} (hi : i ≤ maxSeenIDs) (hj : j ≤ maxSeenIDs)
    (h : stamp i = stamp j) : i = j := by
  have hint := congrArg Int64.toInt h
  rw [toInt_stamp hi, toInt_stamp hj] at hint
  omega

theorem toInt_lastNow : lastNow.toInt = 2 ^ 63 - 1 := by decide

theorem verifyFull_stamp {i : ℕ} (h : i ≤ maxSeenIDs) :
    (greeting (stamp i)).verifyFull lib 0 lastNow = .ok () := by
  have hmax : maxSeenIDs = 100000 := rfl
  have hint := toInt_stamp h
  have hzero : (0 : Int64).toInt = 0 := rfl
  refine verifyFull_greeting (fun h0 => ?_) ?_
  · rw [h0] at hint
    omega
  · simp only [outsideWindow, not_or, gt_iff_lt, Int64.lt_iff_toInt_lt, toInt_maxEnvelopeSkew,
      toInt_neg_maxEnvelopeSkew, Int64.toInt_sub, Int.bmod_def, hint, toInt_lastNow]
    omega

theorem stamp_pruned {i : ℕ} (h : i ≤ maxSeenIDs) : stamp i < lastNow - 2 * maxEnvelopeSkew := by
  have hmax : maxSeenIDs = 100000 := rfl
  rw [Int64.lt_iff_toInt_lt, Int64.toInt_sub, toInt_two_mul_maxEnvelopeSkew, toInt_lastNow,
    toInt_stamp h, Int.bmod_def]
  omega

/-- The runs of the samples, under any condition that their arrivals meet. -/
abbrev Run (ok : Arrival → Prop) (t : ChatTrace) : Prop :=
  ChatRun lib 0 1000 D ok t

/-- The trace after the first `n` greetings. -/
structure Filled (n : ℕ) (t : ChatTrace) : Prop where
  run : Run (fun _ => True) t
  clock : t.clock = lastNow
  per : t.store.maxPerAccount = 1000
  keys : t.store.seen.keys = (Finset.range n).image fun i => (greeting (stamp i)).id
  old : ∀ id ts, t.store.seen.get id = some ts → ts < lastNow - 2 * maxEnvelopeSkew
  first : 0 < n → greeting (stamp 0) ∈ t.stored

theorem exists_arrive {t : ChatTrace} {i : ℕ} (hrun : Run (fun _ => True) t)
    (hclock : t.clock = lastNow) (hper : t.store.maxPerAccount = 1000) (hi : i ≤ maxSeenIDs)
    (hnone : t.store.seen.get (greeting (stamp i)).id = none)
    (hroom : (t.store.makeRoom lastNow).seen.keys.card < maxSeenIDs) :
    ∃ s', Run (fun _ => True) ⟨s', lastNow, greeting (stamp i) :: t.stored⟩ ∧
      s'.maxPerAccount = 1000 ∧
      s'.seen = (t.store.makeRoom lastNow).seen.set (greeting (stamp i)).id (stamp i) := by
  obtain ⟨s', hs', hper', hseen⟩ := exists_store lastNow (by rw [hper]; decide) hnone hroom
  refine ⟨s', ?_, hper'.trans hper, hseen⟩
  exact ChatRun.arrive ⟨greeting (stamp i), lastNow, lastNow⟩ hrun trivial ⟨stamp i, rfl⟩
    (by rw [hclock]; exact Int64.le_refl _) (Int64.le_refl _) (verifyFull_stamp hi) hs'

theorem card_keys {n : ℕ} {t : ChatTrace} (h : Filled n t) (hn : n ≤ maxSeenIDs + 1) :
    t.store.seen.keys.card = n := by
  rw [h.keys, Finset.card_image_of_injOn, Finset.card_range]
  intro i hi j hj hij
  have hi' := Finset.mem_range.mp hi
  have hj' := Finset.mem_range.mp hj
  exact stamp_inj (by omega) (by omega) (id_inj hij)

theorem exists_filled (n : ℕ) (hn : n ≤ maxSeenIDs) : ∃ t, Filled n t := by
  induction n with
  | zero =>
    exact ⟨_, .new lastNow, rfl, rfl, rfl, fun id ts h => (by cases h), fun h => (by cases h)⟩
  | succ n ih =>
    obtain ⟨t, h⟩ := ih (by omega)
    have hlt : t.store.seen.keys.card < maxSeenIDs := by rw [card_keys h (by omega)]; omega
    have hnone : t.store.seen.get (greeting (stamp n)).id = none := by
      rw [← Table.notMem_keys, h.keys, Finset.mem_image]
      rintro ⟨j, hj, hid⟩
      have hj' := Finset.mem_range.mp hj
      have := stamp_inj (by omega) (by omega) (id_inj hid)
      omega
    obtain ⟨s', hrun, hper, hseen⟩ := exists_arrive h.run h.clock h.per (by omega : n ≤ maxSeenIDs)
      hnone (by rw [makeRoom_of_lt hlt]; exact hlt)
    rw [makeRoom_of_lt hlt] at hseen
    refine ⟨_, hrun, rfl, hper, ?_, fun id ts hts => ?_, fun _ => ?_⟩
    · rw [hseen, Table.keys_set, h.keys, Finset.range_add_one, Finset.image_insert]
    · rw [hseen, Table.get_set] at hts
      split_ifs at hts with hid
      · cases hts
        exact stamp_pruned (by omega)
      · exact h.old id ts hts
    · rcases n.eq_zero_or_pos with rfl | hpos
      · exact List.mem_cons_self
      · exact List.mem_cons_of_mem _ (h.first hpos)

end SampleChat

open SampleChat in
/-- With the clock at the end of its range, a hundred thousand greetings from behind that end fill
the table; the next one empties it, and the first is stored a second time. -/
theorem chat_stored_twice :
    Set.InjOn lib.sha256 D ∧
      ∃ t, ChatRun lib 0 1000 D (fun _ => True) t ∧ ¬(t.stored.map Envelope.id).Nodup := by
  refine ⟨injOn_D, ?_⟩
  have hpos : 0 < maxSeenIDs := by decide
  obtain ⟨t, h⟩ := exists_filled maxSeenIDs (Nat.le_refl _)
  have hcard := card_keys h (Nat.le_succ _)
  have hne : (greeting (stamp 0)).id ≠ (greeting (stamp maxSeenIDs)).id := fun hid =>
    absurd (stamp_inj hpos.le (Nat.le_refl _) (id_inj hid)) hpos.ne
  -- The pruning forgets all of them.
  have hempty : (t.store.makeRoom lastNow).seen = .empty := by
    refine Table.ext fun id => ?_
    rw [ChatStore.makeRoom, if_pos hcard.ge, get_pruneSeenLocked, Table.get_empty,
      Option.bind_eq_none_iff]
    exact fun ts hts => if_pos (h.old id ts hts)
  have hnone : t.store.seen.get (greeting (stamp maxSeenIDs)).id = none := by
    rw [← Table.notMem_keys, h.keys, Finset.mem_image]
    rintro ⟨j, hj, hid⟩
    have hj' := Finset.mem_range.mp hj
    exact absurd (stamp_inj hj'.le (Nat.le_refl _) (id_inj hid)) hj'.ne
  obtain ⟨s₁, hrun₁, hper₁, hseen₁⟩ := exists_arrive h.run h.clock h.per (Nat.le_refl _) hnone
    (by rw [hempty]; exact hpos)
  rw [hempty] at hseen₁
  -- There is one identifier now, and not that of the first greeting.
  have hroom : s₁.seen.keys.card < maxSeenIDs := by
    rw [hseen₁, Table.keys_set]
    exact lt_of_le_of_lt (Finset.card_insert_le _ _) (by decide)
  have hgone : s₁.seen.get (greeting (stamp 0)).id = none := by
    rw [hseen₁, Table.get_set_of_ne _ hne, Table.get_empty]
  obtain ⟨s₂, hrun₂, -⟩ := exists_arrive hrun₁ rfl hper₁ hpos.le hgone
    (by rw [makeRoom_of_lt hroom]; exact hroom)
  refine ⟨_, hrun₂, fun hnodup => ?_⟩
  have hfirst := List.mem_map_of_mem (f := Envelope.id) (h.first hpos)
  exact (List.nodup_cons.mp hnodup).1 (List.mem_cons_of_mem _ hfirst)

open SampleChat in
/-- A greeting in the year 2001 is stored, and its replay a minute later is not. -/
theorem chat_atMostOnce_replay :
    ∃ t, ChatRun lib 0 1000 D Arrival.Steady t ∧ t.stored = [greeting 1000000000000000000] ∧
      t.AtMostOnce := by
  have hfirst : (greeting 1000000000000000000).verifyFull lib 0 1000000000000000000 = .ok () :=
    verifyFull_greeting (by decide) (by decide)
  have hagain : (greeting 1000000000000000000).verifyFull lib 0 1000000060000000000 = .ok () :=
    verifyFull_greeting (by decide) (by decide)
  have hempty : (newChatStore 1000).seen.keys.card < maxSeenIDs := by decide
  obtain ⟨s₁, hs₁, -, hseen⟩ := exists_store (s := newChatStore 1000)
    (e := greeting 1000000000000000000) 1000000000000000000 (by decide)
    (Table.get_empty _) (by rw [makeRoom_of_lt hempty]; exact hempty)
  have hdup : s₁.store 1000000060000000000 (greeting 1000000000000000000) = some (false, s₁) := by
    rw [ChatStore.store, hseen, if_pos (by rw [Table.get_set_self]; rfl)]
  have hone : ChatRun lib 0 1000 D Arrival.Steady ⟨s₁, 1000000000000000000, _⟩ :=
    .arrive ⟨greeting 1000000000000000000, 1000000000000000000, 1000000000000000000⟩
      (.new 0) (by unfold Arrival.Steady; decide) ⟨_, rfl⟩ (by decide) (by decide) hfirst hs₁
  have hrun : ChatRun lib 0 1000 D Arrival.Steady ⟨s₁, 1000000060000000000, _⟩ :=
    .arrive ⟨greeting 1000000000000000000, 1000000060000000000, 1000000060000000000⟩
      hone (by unfold Arrival.Steady; decide) ⟨_, rfl⟩
      (show (1000000000000000000 : Int64) ≤ 1000000060000000000 by decide) (by decide) hagain hdup
  exact ⟨_, hrun, rfl, chat_atMostOnce lib 0 1000 D injOn_D _ hrun⟩

end Xe
