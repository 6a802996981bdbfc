import XeLattice.Inv.Chains

/-!
# Hashes tell blocks apart

Hashes are ideal on the inputs `D` of a run: no two of them collide and none hashes to zero bytes.
A block is `Sealed` when its hash is the hash of its own encoding, and it is spelled in lower case.
The encoding fixes the type, the account and the previous block, so that a sealed block which
extends a chain has a hash that no block on a chain has.

* **`Sealed.fresh`**: a sealed block that extends its chain is new.
-/

set_option autoImplicit false

namespace Xe

variable {lib : Lib} {D : Set Str}

/-! ## The head of an encoding -/

/-- The parts of an encoded block. -/
structure Encoded (b : Block) (tb : UInt8) (account previous tail rep timing : Str) : Prop where
  type : typeByte b.type = some tb
  memo : b.memo = [] ∨ b.type = .send ∨ b.type = .burn
  memoText : validateMemo b.memo = .ok ()
  asset : b.asset.length ≤ 8
  account : marshalField "account" b.account = .ok account
  previous : marshalFieldOr "previous" zeroPrev b.previous = .ok previous
  tail : marshalTail b = .ok tail
  rep : marshalFieldOr "representative" [] b.representative = .ok rep
  timing : marshalTiming b = .ok timing

theorem preimage_ok {b : Block} {data : Str} (h : preimage lib b = .ok data) :
    ∃ tb account previous tail rep timing, Encoded b tb account previous tail rep timing ∧
      data = 2 :: tb :: (assetBytes b.asset ++ (account ++ (previous ++ (be64 b.balance ++
        (be64 b.timestamp.toUInt64 ++ (tail ++ (rep ++ (timing ++
          (memoBytes b ++ marshalBlockAux b)))))))))  := by
  unfold preimage marshalBlockCanonical at h
  cases ht : typeByte b.type with
  | none =>
    simp only [ht] at h
    cases h
  | some tb =>
    simp only [ht, bind_eq_ok, guardErr_eq_ok, mapError_eq_ok, Except.ok.injEq] at h
    obtain ⟨_, ⟨_, rfl, _, hmemo, _, htext, _, hasset, account, hacc, previous, hprev, tail, htail,
      rep, hrep, timing, htiming, rfl⟩, rfl⟩ := h
    refine ⟨tb, account, previous, tail, rep, timing,
      ⟨ht, by tauto, htext, by omega, hacc, hprev, htail, hrep, htiming⟩, ?_⟩
    simp only [List.cons_append, List.append_assoc, List.nil_append]

theorem length_assetBytes {x : Str} (h : x.length ≤ 8) : (assetBytes x).length = 8 := by
  unfold assetBytes
  rw [List.length_append, List.length_replicate]
  omega

theorem length_marshalField {name : String} {s bs : Str} (h : marshalField name s = .ok bs) :
    hexDecode s = .ok bs ∧ bs.length = 32 := by
  unfold marshalField at h
  cases hd : hexDecode s with
  | error e => simp [hd] at h
  | ok x =>
    simp only [hd] at h
    split_ifs at h with hl
    cases h
    exact ⟨rfl, hl⟩

theorem length_marshalFieldOr {name : String} {d s bs : Str}
    (h : marshalFieldOr name d s = .ok bs) : bs.length = 32 := by
  unfold marshalFieldOr at h
  split_ifs at h
  · cases h
    rfl
  · exact (length_marshalField h).2

theorem typeByte_inj {t t' : BlockType} {x : UInt8} (h : typeByte t = some x)
    (h' : typeByte t' = some x) : t = t' := by
  cases t <;> cases h <;> cases t' <;> first | rfl | cases h'

theorem preimage_position {b b' : Block} {data : Str} (h : preimage lib b = .ok data)
    (h' : preimage lib b' = .ok data) : b.type = b'.type ∧
      marshalField "account" b.account = marshalField "account" b'.account ∧
        marshalFieldOr "previous" zeroPrev b.previous =
          marshalFieldOr "previous" zeroPrev b'.previous := by
  obtain ⟨tb, acc, prev, tail, rep, timing, he, rfl⟩ := preimage_ok h
  obtain ⟨tb', acc', prev', tail', rep', timing', he', hdata⟩ := preimage_ok h'
  obtain ⟨-, hbody⟩ := List.cons.inj hdata
  obtain ⟨rfl, hasset⟩ := List.cons.inj hbody
  obtain ⟨-, haccount⟩ := List.append_inj hasset
    ((length_assetBytes he.asset).trans (length_assetBytes he'.asset).symm)
  obtain ⟨rfl, hprevious⟩ := List.append_inj haccount
    ((length_marshalField he.account).2.trans (length_marshalField he'.account).2.symm)
  obtain ⟨rfl, -⟩ := List.append_inj hprevious
    ((length_marshalFieldOr he.previous).trans (length_marshalFieldOr he'.previous).symm)
  exact ⟨typeByte_inj he.type he'.type, he.account.trans he'.account.symm,
    he.previous.trans he'.previous.symm⟩

theorem marshalField_inj {name : String} {s s' bs : Str} (h : marshalField name s = .ok bs)
    (h' : marshalField name s' = .ok bs) (hs : Lower s) (hs' : Lower s') : s = s' := by
  rw [← hexEncode_hexDecode (length_marshalField h).1 hs,
    ← hexEncode_hexDecode (length_marshalField h').1 hs']

/-! ## Ideal hashes -/

/-- No two inputs of `D` collide, none hashes to the bytes that stand for an absent previous block,
and the network identifier is not mistaken for the first byte of an encoding. -/
structure IdealHash (lib : Lib) (D : Set Str) : Prop where
  inj : Set.InjOn lib.sha256 D
  nonzero : ∀ x ∈ D, lib.sha256 x ≠ zero32
  network : lib.networkID.head? ≠ some 2

/-- The block's hash is that of its encoding, and its spelling is the one the ledger uses. -/
structure Sealed (lib : Lib) (D : Set Str) (b : Block) : Prop where
  verified : verifyBlock lib b = .ok ()
  hashed : ∀ data, preimage lib b = .ok data → lib.networkID ++ data ∈ D
  account : Lower b.account
  previous : Lower b.previous
  asset : isValidAsset b.asset = true

/-- The genesis block, whose hash does not depend on the network. -/
structure GenesisSealed (lib : Lib) (D : Set Str) (g : Block) : Prop where
  valid : validateGenesisBlock lib g = .ok ()
  hashed : ∀ data, preimage lib g = .ok data → data ∈ D

theorem verifyBlockOn_ok {networkID : Str} {b : Block}
    (h : verifyBlockOn lib networkID b = .ok ()) :
    (∃ data, preimage lib b = .ok data ∧ b.hash = hexEncode (lib.sha256 (networkID ++ data))) ∧
      validatePubKeyDeclaration lib b = .ok () := by
  unfold verifyBlockOn at h
  simp only [bind_eq_ok, mapError_eq_ok, guardErr_eq_ok, not_not] at h
  obtain ⟨expected, hexp, _, hhash, _, hkey, -⟩ := h
  unfold hashBlockOn at hexp
  simp only [bind_eq_ok, mapError_eq_ok, Except.ok.injEq] at hexp
  obtain ⟨data, hdata, rfl⟩ := hexp
  exact ⟨⟨data, hdata, hhash⟩, hkey⟩

/-- The block's hash is that of its encoding, an input of the run. -/
def Hashed (lib : Lib) (D : Set Str) (b : Block) : Prop :=
  ∃ data, preimage lib b = .ok data ∧ lib.networkID ++ data ∈ D ∧
    b.hash = hexEncode (lib.sha256 (lib.networkID ++ data))

theorem hashed_of_verified {b : Block} (h : verifyBlock lib b = .ok ())
    (hin : ∀ data, preimage lib b = .ok data → lib.networkID ++ data ∈ D) : Hashed lib D b := by
  obtain ⟨⟨data, hdata, hhash⟩, -⟩ := verifyBlockOn_ok h
  exact ⟨data, hdata, hin data hdata, hhash⟩

theorem Sealed.hash {b : Block} (h : Sealed lib D b) : Hashed lib D b :=
  hashed_of_verified h.verified h.hashed

theorem Hashed.position (hD : IdealHash lib D) {b b' : Block} (h : Hashed lib D b)
    (h' : Hashed lib D b') (ha : Lower b.account) (ha' : Lower b'.account)
    (hh : b.hash = b'.hash) : b.type = b'.type ∧ b.account = b'.account ∧
      marshalFieldOr "previous" zeroPrev b.previous =
        marshalFieldOr "previous" zeroPrev b'.previous := by
  obtain ⟨data, hdata, hin, hhash⟩ := h
  obtain ⟨data', hdata', hin', hhash'⟩ := h'
  have hinput := hD.inj hin hin' (hexEncode_inj (by rw [← hhash, hh, hhash']))
  obtain rfl := List.append_cancel_left hinput
  obtain ⟨ht, hacc, hprev⟩ := preimage_position hdata hdata'
  refine ⟨ht, ?_, hprev⟩
  obtain ⟨tb, acc, prev, tail, rep, timing, he, -⟩ := preimage_ok hdata
  exact marshalField_inj he.account (hacc ▸ he.account) ha ha'

theorem Sealed.position (hD : IdealHash lib D) {b b' : Block} (h : Sealed lib D b)
    (h' : Sealed lib D b') (hh : b.hash = b'.hash) : b.type = b'.type ∧ b.account = b'.account ∧
      marshalFieldOr "previous" zeroPrev b.previous =
        marshalFieldOr "previous" zeroPrev b'.previous :=
  h.hash.position hD h'.hash h.account h'.account hh

theorem GenesisSealed.encoded {g : Block} (h : GenesisSealed lib D g) : g.type = .genesis ∧
    ∃ data, preimage lib g = .ok data ∧ data ∈ D ∧ g.hash = hexEncode (lib.sha256 data) := by
  have hv := h.valid
  unfold validateGenesisBlock at hv
  simp only [bind_eq_ok, guardErr_eq_ok, mapError_eq_ok, not_not] at hv
  obtain ⟨_, ht, _, -, _, -, _, -, _, -, _, -, _, -, _, -, hver⟩ := hv
  obtain ⟨⟨data, hdata, hhash⟩, -⟩ := verifyBlockOn_ok hver
  exact ⟨ht, data, hdata, h.hashed data hdata, hhash⟩

theorem GenesisSealed.position (hD : IdealHash lib D) {g b : Block} (hg : GenesisSealed lib D g)
    (hb : Hashed lib D b) (hh : b.hash = g.hash) : b.type = .genesis ∧
      ∃ bytes, marshalField "account" b.account = .ok bytes ∧
        marshalField "account" g.account = .ok bytes := by
  obtain ⟨hgt, data, hdata, hin, hhash⟩ := hg.encoded
  obtain ⟨data', hdata', hin', hhash'⟩ := hb
  have hinput := hD.inj hin hin' (hexEncode_inj (by rw [← hhash, ← hh, hhash']))
  obtain ⟨tb, acc, prev, tail, rep, timing, he, hcons⟩ := preimage_ok hdata
  cases hn : lib.networkID with
  | nil =>
    rw [hn, List.nil_append] at hinput
    subst hinput
    obtain ⟨ht, hacc, -⟩ := preimage_position hdata' hdata
    exact ⟨ht.trans hgt, acc, hacc.trans he.account, he.account⟩
  | cons c rest =>
    -- the first byte of the genesis encoding would be that of the network identifier
    rw [hn, List.cons_append, hcons] at hinput
    exact absurd (by rw [hn, ← (List.cons.inj hinput).1]; rfl) hD.network

theorem GenesisSealed.hash_ne (hD : IdealHash lib D) {g b : Block} (hg : GenesisSealed lib D g)
    (hb : Sealed lib D b) (ht : b.type ≠ .genesis) : b.hash ≠ g.hash :=
  fun hh => ht (hg.position hD hb.hash hh).1

/-! ## New blocks -/

/-- A block that a ledger has taken up: the genesis block, or a sealed one. -/
def Filed (lib : Lib) (D : Set Str) (g b : Block) : Prop :=
  b = g ∨ b.type ≠ .genesis ∧ Sealed lib D b

theorem Filed.account_eq (hD : IdealHash lib D) {g x b : Block} (hg : GenesisSealed lib D g)
    (hgl : Lower g.account) (hx : Filed lib D g x) (hb : Hashed lib D b) (hl : Lower b.account)
    (hh : b.hash = x.hash) : b.account = x.account := by
  rcases hx with rfl | ⟨-, hx⟩
  · obtain ⟨-, bytes, hacc, hacc'⟩ := hg.position hD hb hh
    exact marshalField_inj hacc hacc' hl hgl
  · exact (hb.position hD hx.hash hl hx.account hh).2.1

theorem Filed.hash {g b : Block} (hg : GenesisSealed lib D g) (h : Filed lib D g b) :
    ∃ input ∈ D, b.hash = hexEncode (lib.sha256 input) := by
  rcases h with rfl | ⟨-, hb⟩
  · obtain ⟨-, data, -, hin, hhash⟩ := hg.encoded
    exact ⟨data, hin, hhash⟩
  · obtain ⟨data, -, hin, hhash⟩ := hb.hash
    exact ⟨_, hin, hhash⟩

theorem Filed.length {g b : Block} (hg : GenesisSealed lib D g) (h : Filed lib D g b) :
    b.hash.length = 64 := by
  obtain ⟨input, -, hhash⟩ := h.hash hg
  rw [hhash, length_hexEncode, lib.length_sha256]

theorem Filed.marshal (hD : IdealHash lib D) {g x : Block} (hg : GenesisSealed lib D g)
    (hx : Filed lib D g x) : ∃ bytes, marshalFieldOr "previous" zeroPrev x.hash = .ok bytes ∧
      bytes ≠ zero32 ∧ x.hash = hexEncode bytes := by
  obtain ⟨input, hin, hhash⟩ := hx.hash hg
  refine ⟨lib.sha256 input, ?_, hD.nonzero input hin, hhash⟩
  have hne : x.hash ≠ zeroPrev := by
    intro h0
    have hlen := hx.length hg
    rw [h0] at hlen
    cases hlen
  unfold marshalFieldOr marshalField
  rw [if_neg hne, hhash, hexDecode_hexEncode]
  exact if_pos (lib.length_sha256 input)

/-- **The previous block that an encoding shows** is told apart from other frontiers. -/
theorem frontier_eq_of_marshal (hD : IdealHash lib D) {g : Block} (hg : GenesisSealed lib D g)
    {p q : AccountChain} (hp : ∀ x ∈ p, Filed lib D g x) (hq : ∀ x ∈ q, Filed lib D g x)
    (h : marshalFieldOr "previous" zeroPrev (frontier p) =
      marshalFieldOr "previous" zeroPrev (frontier q)) : frontier p = frontier q := by
  have hzero : marshalFieldOr "previous" zeroPrev zeroPrev = .ok zero32 := if_pos rfl
  rcases List.eq_nil_or_concat p with rfl | ⟨p', x, rfl⟩ <;>
    rcases List.eq_nil_or_concat q with rfl | ⟨q', y, rfl⟩
  · rfl
  · rw [List.concat_eq_append] at hq h
    obtain ⟨bytes, hbytes, hne, -⟩ := (hq y (by simp)).marshal hD hg
    rw [frontier_nil, frontier_concat, hzero, hbytes] at h
    exact absurd (Except.ok.inj h).symm hne
  · rw [List.concat_eq_append] at hp h
    obtain ⟨bytes, hbytes, hne, -⟩ := (hp x (by simp)).marshal hD hg
    rw [frontier_nil, frontier_concat, hzero, hbytes] at h
    exact absurd (Except.ok.inj h) hne
  · simp only [List.concat_eq_append] at hp hq h ⊢
    rw [frontier_concat, frontier_concat]
    obtain ⟨bytes, hbytes, -, hx⟩ := (hp x (by simp)).marshal hD hg
    obtain ⟨bytes', hbytes', -, hy⟩ := (hq y (by simp)).marshal hD hg
    rw [frontier_concat, frontier_concat, hbytes, hbytes'] at h
    rw [hx, hy, Except.ok.inj h]

/-- **A sealed block that extends its chain is new**: no block on a chain has its hash. -/
theorem Sealed.fresh (hD : IdealHash lib D) {g : Block} (hg : GenesisSealed lib D g) {k : Book}
    (hk : k.Wf) (hfiled : ∀ x, k.On x → Filed lib D g x) {b : Block} (hb : Sealed lib D b)
    (ht : b.type ≠ .genesis) (hprev : b.previous = frontier (k.chain b.account)) (x : Block)
    (hx : k.On x) : x.hash ≠ b.hash := by
  intro hh
  rcases hfiled x hx with rfl | ⟨-, hxs⟩
  · exact hg.hash_ne hD hb ht hh.symm
  obtain ⟨-, hacc, hmar⟩ := hxs.position hD hb hh
  have hmem : x ∈ k.chain b.account := hacc ▸ hx
  obtain ⟨pre, post, hc⟩ := List.append_of_mem hmem
  have hxprev : x.previous = frontier pre := hk.linked b.account pre x post hc
  have on : ∀ y ∈ k.chain b.account, Filed lib D g y := fun y hy =>
    hfiled y (Book.On.of_mem hk hy)
  rw [hxprev, hprev] at hmar
  have hfront := frontier_eq_of_marshal hD hg (fun y hy => on y (by rw [hc]; simp [hy])) on hmar
  exact hk.no_sibling rfl x hmem (hxprev.trans hfront)

end Xe
