import XeLattice.StateChain.Signers
import XeLattice.StateChain.Canonical

/-!
# Restarting the state chain

The hash of a block covers the bytes of its values, and both stores keep a block as JSON text, in
which raw values are written without blanks and with the characters of HTML escaped.  A chain opens
again over its store exactly when no value changes on the way.

* **`statechain_restart_iff`**: when the chain opens again, with the same tip and contents.
-/

set_option autoImplicit false
set_option maxRecDepth 100000

namespace Xe.StateChain

/-! ## Blocks that no rule tells apart -/

/-- Two operations that have the same effect: the value of a deletion is not looked at. -/
structure Op.Agrees (op op' : Op) : Prop where
  action : op'.action = op.action
  key : op'.key = op.key
  value : op.action = .set → op'.value = op.value

/-- Two blocks whose operations have the same effects and that are equal otherwise. -/
structure Block.Agrees (b b' : Block) : Prop where
  index : b'.index = b.index
  prevHash : b'.prevHash = b.prevHash
  ops : List.Forall₂ Op.Agrees b.ops b'.ops
  signatures : b'.signatures = b.signatures
  hash : b'.hash = b.hash
  timestamp : b'.timestamp = b.timestamp

section Agrees

variable {lib : Lib} {json : Json} {b b' : Block} {ops ops' : List Op}

theorem marshalOps_agrees (h : List.Forall₂ Op.Agrees ops ops') (i : ℕ) :
    marshalOps lib i ops' = marshalOps lib i ops := by
  induction h generalizing i with
  | nil => rfl
  | @cons op op' ops ops' hop _ ih =>
    rw [marshalOps, marshalOps, hop.action, hop.key, ih]
    cases ha : op.action with
    | set => simp only [hop.value ha]
    | delete => rfl
    | other w => rfl

theorem Block.Agrees.verifyBlockHash (h : b.Agrees b') :
    verifyBlockHash lib b' = verifyBlockHash lib b := by
  unfold StateChain.verifyBlockHash hashBlock marshalCanonical
  rw [h.prevHash, h.index, h.timestamp, h.hash, marshalOps_agrees h.ops, h.ops.length_eq]

theorem applyOps_agrees (h : List.Forall₂ Op.Agrees ops ops') (kv : KVStore) :
    applyOps kv ops' = applyOps kv ops := by
  induction h generalizing kv with
  | nil => rfl
  | @cons op op' ops ops' hop _ ih =>
    have hstep : applyOp kv op' = applyOp kv op := by
      unfold applyOp
      rw [hop.action, hop.key]
      cases ha : op.action with
      | set => rw [hop.value ha]
      | delete => rfl
      | other w => rfl
    rw [applyOps_cons, applyOps_cons, hstep, ih]

theorem opsMatchPrefix_agrees (h : List.Forall₂ Op.Agrees ops ops') (start : Str) :
    opsMatchPrefix ops' start = opsMatchPrefix ops start := by
  have hall : ops'.all (fun op => startsWith op.key start) =
      ops.all (fun op => startsWith op.key start) := by
    induction h with
    | nil => rfl
    | cons hop _ ih => rw [List.all_cons, List.all_cons, hop.key, ih]
  have hnil : (ops' ≠ []) = (ops ≠ []) := by
    cases h <;> simp
  simp only [opsMatchPrefix, hall, hnil]

theorem Block.Agrees.verifyBlockSignatures (h : b.Agrees b') (kv : KVStore) :
    verifyBlockSignatures lib json kv b' = verifyBlockSignatures lib json kv b := by
  unfold StateChain.verifyBlockSignatures verifyMultisig verifyOracleMultisig verifyThreshold
  simp only [h.signatures, h.hash, opsMatchPrefix_agrees h.ops]

end Agrees

/-! ## What a store gives back -/

/-- A value as it is read back. -/
def keptValue : StoreKind → Str → Str
  | .mem, v => compact (compact v)
  | .badger, v => compact v

/-- A block as it is read back. -/
def keptBlock (kind : StoreKind) (b : Block) : Block :=
  handOut kind b.copied

/-- **A value comes back unchanged from either store exactly when it is compact.** -/
theorem keptValue_eq_iff {kind : StoreKind} {v : Str} : keptValue kind v = v ↔ compact v = v := by
  cases kind with
  | mem =>
    constructor
    · exact compact_of_compact_compact
    · intro h
      rw [keptValue, h, h]
  | badger => rfl

theorem length_compactFrom_le (skip : ℕ) (p : Place) (s : Str) :
    (compactFrom skip p s).length ≤ 6 * s.length := by
  induction s generalizing skip p with
  | nil => cases skip <;> simp [compactFrom]
  | cons c s ih =>
    cases skip with
    | succ skip =>
      have := ih skip (p.next c)
      rw [compactFrom, List.length_cons]
      omega
    | zero =>
      have h0 := ih 0 (p.next c)
      have h2 := ih 2 (p.next c)
      have hbyte : (writeByte p c).length ≤ 6 := by
        unfold writeByte
        split_ifs
        · exact le_of_eq rfl
        · exact Nat.zero_le _
        · exact Nat.one_le_iff_ne_zero.mpr (by decide)
      have h28 : (str "\\u2028").length = 6 := by decide +kernel
      have h29 : (str "\\u2029").length = 6 := by decide +kernel
      rw [compactFrom, List.length_cons]
      split_ifs <;> rw [List.length_append] <;> omega

theorem length_keptValue_le (kind : StoreKind) (v : Str) :
    (keptValue kind v).length ≤ 36 * v.length := by
  have h₁ := length_compactFrom_le 0 .outside v
  have h₂ := length_compactFrom_le 0 .outside (compact v)
  change (compact v).length ≤ 6 * v.length at h₁
  change (compact (compact v)).length ≤ 6 * (compact v).length at h₂
  cases kind with
  | mem =>
    rw [keptValue]
    omega
  | badger =>
    rw [keptValue]
    omega

/-- A block whose texts are made of ASCII characters. -/
structure Block.Plain (b : Block) : Prop where
  prevHash : b.prevHash.all isAscii = true
  hash : b.hash.all isAscii = true
  action : ∀ op ∈ b.ops, ∀ w, op.action ≠ .other w
  key : ∀ op ∈ b.ops, op.key.all isAscii = true
  publicKey : ∀ sig ∈ b.signatures, sig.publicKey.all isAscii = true
  sig : ∀ sig ∈ b.signatures, sig.sig.all isAscii = true

/-- An operation with a changed value. -/
def Op.withValue (f : Str → Str) (op : Op) : Op :=
  { op with value := f op.value }

theorem Block.Plain.copied_eq {b : Block} (h : b.Plain) :
    b.copied = { b with ops := b.ops.map (Op.withValue compact) } := by
  have hops : b.ops.map Op.copied = b.ops.map (Op.withValue compact) := by
    apply List.map_congr_left
    intro op hop
    have hkey := cleanString_ascii (h.key op hop)
    have haction := h.action op hop
    unfold Op.copied Op.withValue
    rw [hkey]
    cases ha : op.action with
    | set => rfl
    | delete => rfl
    | other w => exact absurd ha (haction w)
  have hsigs : (b.signatures.map fun sig =>
      ({ publicKey := cleanString sig.publicKey, sig := cleanString sig.sig } : BlockSignature)) =
      b.signatures := by
    conv_rhs => rw [← List.map_id b.signatures]
    apply List.map_congr_left
    intro sig hsig
    rw [cleanString_ascii (h.publicKey sig hsig), cleanString_ascii (h.sig sig hsig)]
    rfl
  unfold Block.copied
  rw [hops, hsigs, cleanString_ascii h.prevHash, cleanString_ascii h.hash]

theorem Block.Plain.withValue {b : Block} (h : b.Plain) (f : Str → Str) :
    ({ b with ops := b.ops.map (Op.withValue f) } : Block).Plain where
  prevHash := h.prevHash
  hash := h.hash
  action op hop := by
    obtain ⟨op', hop', rfl⟩ := List.mem_map.mp hop
    exact h.action op' hop'
  key op hop := by
    obtain ⟨op', hop', rfl⟩ := List.mem_map.mp hop
    exact h.key op' hop'
  publicKey := h.publicKey
  sig := h.sig

theorem Block.Plain.keptBlock_eq {b : Block} (h : b.Plain) (kind : StoreKind) :
    keptBlock kind b = { b with ops := b.ops.map (Op.withValue (keptValue kind)) } := by
  cases kind with
  | badger => exact h.copied_eq
  | mem =>
    rw [keptBlock, handOut, h.copied_eq, (h.withValue compact).copied_eq]
    simp only [List.map_map]
    rfl

/-! ## Accepted blocks are plain -/

section Plain

variable {lib : Lib} {json : Json} {c : Chain} {b : Block}

theorem isAscii_of_isKeyByte {c : UInt8} (h : isKeyByte c = true) : isAscii c = true := by
  simp only [isKeyByte, isLowerLetter, isDigit, Bool.or_eq_true, Bool.and_eq_true,
    decide_eq_true_eq, beq_iff_eq] at h
  simp only [isAscii, decide_eq_true_eq]
  grind

theorem validateOp_plain {op : Op} (h : validateOp lib json op = .ok ()) :
    op.key.all isAscii = true ∧ ∀ w, op.action ≠ .other w := by
  unfold validateOp at h
  obtain ⟨⟨⟩, hkey, h⟩ := bind_eq_ok.mp h
  have hkey' := mapError_eq_ok.mp hkey
  unfold validateKey at hkey'
  obtain ⟨_, _, hkey'⟩ := bind_eq_ok.mp hkey'
  obtain ⟨_, _, hkey'⟩ := bind_eq_ok.mp hkey'
  have hbytes := guardErr_eq_ok.mp hkey'
  rw [Bool.not_eq_false, List.all_eq_true] at hbytes
  constructor
  · exact List.all_eq_true.mpr fun c hc => isAscii_of_isKeyByte (hbytes c hc)
  · intro w hw
    rw [hw] at h
    cases h

theorem isAscii_of_decodeSized {what : String} {size : ℕ} {s bytes : Str}
    (h : decodeSized what size s = .ok bytes) : s.all isAscii = true := by
  unfold decodeSized at h
  cases hs : hexDecode s with
  | error e => simp [hs] at h
  | ok bs => exact isAscii_of_hexDecode hs

theorem verifySignature_plain {hash : Str} {sig : BlockSignature}
    (h : verifySignature lib hash sig = .ok ()) :
    sig.publicKey.all isAscii = true ∧ sig.sig.all isAscii = true := by
  unfold verifySignature at h
  obtain ⟨_, _, h⟩ := bind_eq_ok.mp h
  unfold verifyHexSignature at h
  obtain ⟨_, hpub, h⟩ := bind_eq_ok.mp h
  obtain ⟨_, hsig, -⟩ := bind_eq_ok.mp h
  exact ⟨isAscii_of_decodeSized hpub, isAscii_of_decodeSized hsig⟩

theorem verifyBlockHash_ok (h : verifyBlockHash lib b = .ok ()) :
    ∃ data, marshalCanonical lib b = .ok data ∧ b.hash = hexEncode (lib.sha256 data) := by
  unfold verifyBlockHash at h
  obtain ⟨expected, hexp, h⟩ := bind_eq_ok.mp h
  have hhash := mapError_eq_ok.mp hexp
  unfold hashBlock at hhash
  obtain ⟨data, hdata, heq⟩ := bind_eq_ok.mp hhash
  cases heq
  exact ⟨data, mapError_eq_ok.mp hdata, not_not.mp (guardErr_eq_ok.mp h)⟩

/-- The signatures that `authorise` has checked are checked on the same keys when the chain is
replayed. -/
theorem authorise_replay (h : authorise lib json c b = .ok ()) :
    verifyBlockSignatures lib json c.kv b = .ok () := by
  obtain ⟨hdao, horacle⟩ := authorise_signed h
  have byDAO : ¬UnderOracle json c.kv b → (do
      let keyset ← (daoKeyset json c.kv).mapError (GoError.wrap (str "cannot load keyset: "))
      verifyMultisig lib b keyset) = .ok () := by
    intro hnot
    obtain ⟨ks, hks, hsig⟩ := hdao hnot
    rw [hks]
    exact hsig
  unfold verifyBlockSignatures
  dsimp only
  cases hconfig : oracleInForce json c.kv with
  | none =>
    apply byDAO
    rintro ⟨config, hforce, -⟩
    rw [hconfig] at hforce
    cases hforce
  | some config =>
    dsimp only
    split_ifs with hmatch
    · exact horacle config hconfig hmatch
    · apply byDAO
      rintro ⟨config', hforce, hmatch'⟩
      rw [hconfig] at hforce
      cases hforce
      exact hmatch hmatch'

theorem authorise_valid (h : authorise lib json c b = .ok ()) :
    ∀ sig ∈ b.signatures, verifySignature lib b.hash sig = .ok () := by
  have valid : ∀ where_ few keys threshold,
      verifyThreshold lib where_ few keys threshold b = .ok () →
        ∀ sig ∈ b.signatures, verifySignature lib b.hash sig = .ok () := by
    intro where_ few keys threshold hverify sig hsig
    unfold verifyThreshold at hverify
    obtain ⟨_, _, hverify⟩ := bind_eq_ok.mp hverify
    obtain ⟨n, hcount, -⟩ := bind_eq_ok.mp hverify
    exact ((countSigners_ok hcount).2.2 sig hsig).2.2
  obtain ⟨hdao, horacle⟩ := authorise_signed h
  by_cases hunder : UnderOracle json c.kv b
  · obtain ⟨config, hconfig, hmatch⟩ := hunder
    exact valid _ _ _ _ (horacle config hconfig hmatch)
  · obtain ⟨ks, -, hsig⟩ := hdao hunder
    exact valid _ _ _ _ hsig

/-- **Accepted blocks are plain.** -/
theorem Admitted.plain (h : Admitted lib json c b) : b.Plain := by
  obtain ⟨data, hdata, hhash⟩ := verifyBlockHash_ok h.hash
  obtain ⟨prev, ops, hprev, -, -, -⟩ := marshalCanonical_ok hdata
  have hsigs := authorise_valid h.authorised
  exact {
    prevHash := isAscii_of_hexDecode hprev
    hash := by
      rw [hhash]
      exact isAscii_of_hexDecode (hexDecode_hexEncode _)
    action := fun op hop => (validateOp_plain (h.valid op hop)).2
    key := fun op hop => (validateOp_plain (h.valid op hop)).1
    publicKey := fun sig hsig => (verifySignature_plain (hsigs sig hsig)).1
    sig := fun sig hsig => (verifySignature_plain (hsigs sig hsig)).2 }

theorem Admitted.kept_eq (h : Admitted lib json c b) (kind : StoreKind) :
    keptBlock kind b = { b with ops := b.ops.map (Op.withValue (keptValue kind)) } :=
  h.plain.keptBlock_eq kind

/-- A block whose values are compact comes back as one that no rule tells apart. -/
theorem Admitted.kept_agrees (h : Admitted lib json c b) (kind : StoreKind)
    (hvalues : ∀ op ∈ b.ops, op.action = .set → compact op.value = op.value) :
    b.Agrees (keptBlock kind b) := by
  rw [h.kept_eq kind]
  refine ⟨rfl, rfl, ?_, rfl, rfl, rfl⟩
  rw [List.forall₂_map_right_iff, List.forall₂_same]
  intro op hop
  exact ⟨rfl, rfl, fun ha => keptValue_eq_iff.mpr (hvalues op hop ha)⟩

/-- What is kept of the values of an accepted block is not longer than the encoding of their lengths
allows. -/
theorem Admitted.fits_kept (h : Admitted lib json c b) (kind : StoreKind) {op : Op}
    (hop : op ∈ b.ops) : (op.withValue (keptValue kind)).Fits := by
  obtain ⟨-, hvalue⟩ := validateOp_lengths (h.valid op hop)
  refine ⟨(Op.fits_of_validateOp (h.valid op hop)).key, fun ha => ?_⟩
  have hle := hvalue ha
  have hkept := length_keptValue_le kind op.value
  rw [maxValueSize] at hle
  change (keptValue kind op.value).length < 2 ^ 32
  omega

/-- No collision between the encoding of a block and that of what a store gives back of it. -/
def NoCollision (lib : Lib) (kind : StoreKind) (b : Block) : Prop :=
  ∀ data data', marshalCanonical lib b = .ok data →
    marshalCanonical lib (keptBlock kind b) = .ok data' →
    lib.sha256 data = lib.sha256 data' → data = data'

/-- **A kept block whose hash is still right has kept its values.** -/
theorem Admitted.values_of_hash (h : Admitted lib json c b) {kind : StoreKind}
    (hcoll : NoCollision lib kind b)
    (hkept : verifyBlockHash lib (keptBlock kind b) = .ok ()) :
    ∀ op ∈ b.ops, op.action = .set → compact op.value = op.value := by
  obtain ⟨data, hdata, hhash⟩ := verifyBlockHash_ok h.hash
  obtain ⟨data', hdata', hhash'⟩ := verifyBlockHash_ok hkept
  have hsame : (keptBlock kind b).hash = b.hash := by rw [h.kept_eq kind]
  have hsum : lib.sha256 data = lib.sha256 data' := by
    rw [hsame, hhash] at hhash'
    have hbytes := congrArg hexDecode hhash'
    rw [hexDecode_hexEncode, hexDecode_hexEncode] at hbytes
    exact Except.ok.inj hbytes
  have heq := hcoll data data' hdata hdata' hsum
  obtain ⟨prev, ops, hprev, -, hops, hform⟩ := marshalCanonical_ok hdata
  obtain ⟨prev', ops', hprev', -, hops', hform'⟩ := marshalCanonical_ok hdata'
  rw [h.kept_eq kind] at hprev' hops' hform'
  dsimp only at hprev' hops' hform'
  rw [hprev] at hprev'
  cases hprev'
  rw [heq, hform', List.length_map] at hform
  have hops_eq : ops' = ops := List.append_cancel_left (List.append_cancel_right hform)
  obtain ⟨hcarried, -⟩ := marshalOps_inj (fun op hop => Op.fits_of_validateOp (h.valid op hop))
    (List.forall_mem_map.mpr fun op hop => h.fits_kept kind hop) hops hops' rfl
    (congrArg (· ++ []) hops_eq.symm)
  intro op hop ha
  rw [List.map_map, List.map_inj_left] at hcarried
  have hsame := hcarried op hop
  simp only [Op.carried, Function.comp, Op.withValue, ha, if_true, Prod.mk.injEq,
    Option.some.injEq] at hsame
  exact keptValue_eq_iff.mp hsame.2.2.symm

end Plain

/-! ## What a restart reads -/

theorem filterMap_range_eq {α : Type} (l : List α) (f : ℕ → Option α)
    (h : ∀ i, i < l.length → f i = l[i]?) : (List.range l.length).filterMap f = l := by
  induction l using List.reverseRecOn with
  | nil => rfl
  | append_singleton l a ih =>
    have hl : ∀ i, i < l.length → f i = l[i]? := by
      intro i hi
      rw [h i (by simp; omega), List.getElem?_append_left hi]
    have ha : f l.length = some a := by
      rw [h l.length (by simp), List.getElem?_concat_length]
    rw [List.length_append, List.length_singleton, List.range_succ, List.filterMap_append, ih hl]
    simp [ha]

/-- The blocks have the indices from one on. -/
def Indexed (bs : List Block) : Prop :=
  ∀ i b, bs[i]? = some b → b.index.toNat = i + 1

/-- The store after a list of blocks was put. -/
def storeOf (bs : List Block) : StateBlocks :=
  bs.foldl putStateBlock Table.empty

theorem storeOf_concat (bs : List Block) (b : Block) :
    storeOf (bs ++ [b]) = putStateBlock (storeOf bs) b := by
  rw [storeOf, List.foldl_append]
  rfl

section Store

variable {bs : List Block} {b : Block}

theorem Indexed.left (h : Indexed (bs ++ [b])) : Indexed bs := by
  intro i b' hb'
  have hi : i < bs.length := (List.getElem?_eq_some_iff.mp hb').1
  exact h i b' (by rw [List.getElem?_append_left hi, hb'])

theorem Indexed.last (h : Indexed (bs ++ [b])) : b.index.toNat = bs.length + 1 :=
  h bs.length b List.getElem?_concat_length

theorem storeOf_get (h : Indexed bs) (k : UInt64) :
    (storeOf bs).get k = if k.toNat = 0 then none else (bs[k.toNat - 1]?).map Block.copied := by
  induction bs using List.reverseRecOn with
  | nil => simp [storeOf]
  | append_singleton bs b ih =>
    have hlast := h.last
    rw [storeOf_concat, putStateBlock, Table.get_set, ih h.left]
    by_cases hk : k = b.index
    · subst hk
      rw [if_pos rfl, if_neg (by omega), hlast, Nat.add_sub_cancel, List.getElem?_concat_length]
      rfl
    · have hne : k.toNat ≠ bs.length + 1 := by
        intro heq
        exact hk (UInt64.toNat_inj.mp (heq.trans hlast.symm))
      rw [if_neg hk]
      split_ifs with hz
      · rfl
      · by_cases hlt : k.toNat - 1 < bs.length
        · rw [List.getElem?_append_left hlt]
        · rw [List.getElem?_eq_none (by omega), List.getElem?_eq_none]
          rw [List.length_append, List.length_singleton]
          omega

theorem image_keys_storeOf (h : Indexed bs) :
    (storeOf bs).keys.image UInt64.toNat = (List.range' 1 bs.length).toFinset := by
  ext m
  rw [Finset.mem_image, List.mem_toFinset, List.mem_range'_1]
  constructor
  · rintro ⟨k, hk, rfl⟩
    obtain ⟨v, hv⟩ := Table.mem_keys.mp hk
    rw [storeOf_get h] at hv
    split_ifs at hv with hz
    obtain ⟨b, hb, -⟩ := Option.map_eq_some_iff.mp hv
    have hlt := (List.getElem?_eq_some_iff.mp hb).1
    omega
  · rintro ⟨hone, hle⟩
    have hlt : m - 1 < bs.length := by omega
    have hb : bs[m - 1]? = some bs[m - 1] := List.getElem?_eq_getElem hlt
    have hindex : bs[m - 1].index.toNat = m := by
      rw [h _ _ hb]
      omega
    refine ⟨bs[m - 1].index, Table.mem_keys.mpr ⟨bs[m - 1].copied, ?_⟩, hindex⟩
    rw [storeOf_get h, hindex, if_neg (by omega), hb]
    rfl

theorem stateBlockCount_storeOf (h : Indexed bs) : stateBlockCount (storeOf bs) = bs.length := by
  have hinj : Function.Injective UInt64.toNat := fun _ _ => UInt64.toNat_inj.mp
  rw [stateBlockCount, ← Finset.card_image_of_injective _ hinj, image_keys_storeOf h,
    List.toFinset_card_of_nodup List.nodup_range', List.length_range']

/-- **The blocks from an index on**, as either store reads them. -/
theorem getStateBlockRange_slice (h : Indexed bs) (kind : StoreKind) {start : UInt64} {i n : ℕ}
    (hstart : start.toNat = i + 1) (hle : i + n ≤ bs.length) :
    getStateBlockRange kind (storeOf bs) start n =
      ((bs.drop i).take n).map (keptBlock kind) := by
  set l := ((bs.drop i).take n).map (keptBlock kind) with hl
  have hlen : l.length = n := by
    rw [hl, List.length_map, List.length_take, List.length_drop]
    omega
  have hget : ∀ j, j < n → ∀ k : UInt64, k.toNat = i + j + 1 →
      getStateBlock kind (storeOf bs) k = l[j]? := by
    intro j hj k hk
    rw [getStateBlock, storeOf_get h, hk, if_neg (Nat.succ_ne_zero _), Nat.add_sub_cancel, hl,
      List.getElem?_map, List.getElem?_take_of_lt hj, List.getElem?_drop, Option.map_map]
    rfl
  have hsmall : bs.length < 2 ^ 64 := by
    rcases Nat.eq_zero_or_pos bs.length with hz | hpos
    · omega
    · have hlast := h (bs.length - 1) bs[bs.length - 1] (List.getElem?_eq_getElem (by omega))
      have := (bs[bs.length - 1]).index.toNat_lt
      omega
  have hread := filterMap_range_eq l
  rw [hlen] at hread
  cases kind with
  | mem =>
    refine hread _ fun j hj => hget j hj _ ?_
    rw [UInt64.toNat_add, UInt64.toNat_ofNat', hstart]
    omega
  | badger =>
    have hkeys : ((storeOf bs).keys.filter (start ≤ ·)).image UInt64.toNat =
        (List.range' (i + 1) (bs.length - i)).toFinset := by
      ext m
      have hm := Finset.ext_iff.mp (image_keys_storeOf h) m
      simp only [Finset.mem_image, List.mem_toFinset, List.mem_range'_1, Finset.mem_filter] at hm ⊢
      constructor
      · rintro ⟨k, ⟨hk, hge⟩, rfl⟩
        have := hm.mp ⟨k, hk, rfl⟩
        have := UInt64.le_iff_toNat_le.mp hge
        omega
      · intro hrange
        obtain ⟨k, hk, rfl⟩ := hm.mpr (by omega)
        exact ⟨k, ⟨hk, UInt64.le_iff_toNat_le.mpr (by omega)⟩, rfl⟩
    have hsort : (List.range' (i + 1) (bs.length - i)).toFinset.sort =
        List.range' (i + 1) (bs.length - i) :=
      (List.toFinset_sort _ List.nodup_range').mpr List.pairwise_le_range'
    have htake : (List.range' (i + 1) (bs.length - i)).take n = List.range' (i + 1) n := by
      obtain ⟨k, hk⟩ := Nat.exists_eq_add_of_le (show n ≤ bs.length - i by omega)
      rw [hk, ← List.range'_append_1, List.take_left' List.length_range']
    rw [getStateBlockRange, hkeys, hsort, htake, List.range'_eq_map_range, List.filterMap_map]
    refine hread _ fun j hj => hget j hj _ ?_
    show (UInt64.ofNat (i + 1 + j)).toNat = i + j + 1
    rw [UInt64.toNat_ofNat']
    omega

/-- **A restart reads what is kept of every block, in order.** -/
theorem getStateBlockRange_storeOf (h : Indexed bs) (kind : StoreKind) :
    getStateBlockRange kind (storeOf bs) 1 bs.length = bs.map (keptBlock kind) := by
  have hstart : (1 : UInt64).toNat = 0 + 1 := rfl
  rw [getStateBlockRange_slice h kind hstart (by omega), List.drop_zero, List.take_length]

end Store

/-! ## Replay -/

section Replay

variable {lib : Lib} {json : Json} {kind : StoreKind} {g : Block} {bs : List Block} {c : Chain}

theorem Run.stored (h : Run lib json kind g bs c) :
    c.kind = kind ∧ c.genesis = g ∧ c.store = storeOf bs ∧ Indexed bs ∧
      c.tip.index.toNat = bs.length := by
  induction h with
  | start hnew =>
    obtain ⟨hvalid, rfl⟩ := newChain_empty hnew
    unfold validateGenesis at hvalid
    obtain ⟨_, hindex, -⟩ := bind_eq_ok.mp hvalid
    have hzero : g.index = 0 := not_not.mp (guardErr_eq_ok.mp hindex)
    refine ⟨rfl, rfl, rfl, ?_, ?_⟩
    · intro i b hb
      simp at hb
    · change g.index.toNat = 0
      rw [hzero]
      rfl
  | @add bs c c' b _ hnew hadd ih =>
    obtain ⟨hkind, hgen, hstore, hindexed, htip⟩ := ih
    obtain ⟨hadm, rfl⟩ := addBlock_new hadd hnew
    have hnext : b.index.toNat = bs.length + 1 := by
      have hlt := UInt64.lt_iff_toNat_lt.mp hnew
      have hsucc := congrArg UInt64.toNat hadm.index
      have hbound := c.tip.index.toNat_lt
      rw [UInt64.toNat_add] at hsucc
      simp only [UInt64.reduceToNat] at hsucc
      omega
    refine ⟨hkind, hgen, ?_, ?_, ?_⟩
    · rw [storeOf_concat, ← hstore]
      rfl
    · intro i b' hb'
      by_cases hi : i < bs.length
      · rw [List.getElem?_append_left hi] at hb'
        exact hindexed i b' hb'
      · have hlen := (List.getElem?_eq_some_iff.mp hb').1
        rw [List.length_append, List.length_singleton] at hlen
        obtain rfl : i = bs.length := by omega
        rw [List.getElem?_concat_length] at hb'
        cases hb'
        exact hnext
    · rw [List.length_append, List.length_singleton]
      exact hnext

theorem Run.validGenesis (h : Run lib json kind g bs c) : validateGenesis lib json g = .ok () := by
  induction h with
  | start hnew => exact (newChain_empty hnew).1
  | add _ _ _ ih => exact ih

theorem Run.admitted (h : Run lib json kind g bs c) :
    ∀ b ∈ bs, ∃ c₁, Admitted lib json c₁ b := by
  induction h with
  | start => simp
  | @add bs c c' b _ hnew hadd ih =>
    intro b' hb'
    obtain hb' | hb' := List.mem_append.mp hb'
    · exact ih b' hb'
    · rw [List.mem_singleton] at hb'
      subst hb'
      exact ⟨c, (addBlock_new hadd hnew).1⟩

theorem Run.daoKeyset (h : Run lib json kind g bs c) : ∃ ks, daoKeyset json c.kv = .ok ks := by
  induction h with
  | start hnew =>
    unfold newChain at hnew
    obtain ⟨_, _, hnew⟩ := bind_eq_ok.mp hnew
    obtain ⟨_, _, hnew⟩ := bind_eq_ok.mp hnew
    obtain ⟨ks, hks, hnew⟩ := bind_eq_ok.mp hnew
    cases hnew
    exact ⟨ks, mapError_eq_ok.mp hks⟩
  | @add bs c c' b _ hnew hadd ih =>
    obtain ⟨hadm, rfl⟩ := addBlock_new hadd hnew
    obtain hkeep | ⟨v, hget, -, hvalue, -⟩ := hadm.get_cases (k := daoKeysetKey) (by decide)
    · obtain ⟨ks, hks⟩ := ih
      refine ⟨ks, ?_⟩
      unfold StateChain.daoKeyset at hks ⊢
      rwa [hkeep]
    · have hvalue' : validateDAOKeyset json v = .ok () := hvalue
      unfold validateDAOKeyset at hvalue'
      cases hks : json.daoKeyset v with
      | error e => simp [hks] at hvalue'
      | ok ks =>
        simp only [hks] at hvalue'
        obtain ⟨_, hkeys, hvalue'⟩ := bind_eq_ok.mp hvalue'
        obtain ⟨_, hmin, hvalue'⟩ := bind_eq_ok.mp hvalue'
        obtain ⟨_, hmax, -⟩ := bind_eq_ok.mp hvalue'
        refine ⟨ks, ?_⟩
        unfold StateChain.daoKeyset
        simp only [hget, hks]
        rw [bind_eq_ok]
        refine ⟨(), guardErr_eq_ok.mpr (guardErr_eq_ok.mp hkeys), ?_⟩
        rw [bind_eq_ok]
        refine ⟨(), guardErr_eq_ok.mpr ?_, rfl⟩
        rw [not_or]
        exact ⟨guardErr_eq_ok.mp hmin, guardErr_eq_ok.mp hmax⟩

theorem replayBlocks_append (c : Chain) (n : ℕ) (l l' : List Block) :
    replayBlocks lib json c n (l ++ l') =
      replayBlocks lib json c n l >>= fun r => replayBlocks lib json r.1 r.2 l' := by
  induction l generalizing c n with
  | nil => rfl
  | cons b l ih =>
    rw [List.cons_append, replayBlocks, replayBlocks]
    cases replayBlock lib json c n b with
    | error e => rfl
    | ok c₁ => exact ih c₁ (n + 1)

theorem replayBlocks_hash {c c' : Chain} {n m : ℕ} {l : List Block}
    (h : replayBlocks lib json c n l = .ok (c', m)) : ∀ b ∈ l, verifyBlockHash lib b = .ok () := by
  induction l generalizing c n with
  | nil => simp
  | cons b l ih =>
    rw [replayBlocks] at h
    obtain ⟨c₁, hblock, h⟩ := bind_eq_ok.mp h
    refine List.forall_mem_cons.mpr ⟨?_, ih h⟩
    unfold replayBlock at hblock
    dsimp only at hblock
    obtain ⟨_, _, hblock⟩ := bind_eq_ok.mp hblock
    obtain ⟨⟨⟩, hhash, -⟩ := bind_eq_ok.mp hblock
    exact mapError_eq_ok.mp hhash

/-- The chain with a stored tip. -/
def reopened (c : Chain) (store : StateBlocks) (tip : Block) : Chain :=
  { c with store := store, tip := tip }

/-- **Replaying compact blocks leads to the same contents.** -/
theorem Run.replayed (h : Run lib json kind g bs c)
    (hvalues : ∀ b ∈ bs, ∀ op ∈ b.ops, op.action = .set → compact op.value = op.value)
    (store : StateBlocks) :
    ∃ tip, replayBlocks lib json ⟨kind, store, applyOps Table.empty g.ops, g, g⟩ 1
        (bs.map (keptBlock kind)) = .ok (reopened c store tip, bs.length + 1) ∧
      tip.hash = c.tip.hash := by
  induction h with
  | start hnew =>
    rw [(newChain_empty hnew).2]
    exact ⟨g, rfl, rfl⟩
  | @add bs c c' b hrun hnew hadd ih =>
    obtain ⟨hadm, rfl⟩ := addBlock_new hadd hnew
    obtain ⟨tip, hreplay, htip⟩ := ih fun b' hb' => hvalues b' (List.mem_append_left _ hb')
    have hagree := hadm.kept_agrees kind
      (hvalues b (List.mem_append_right _ List.mem_cons_self))
    have hindex : (keptBlock kind b).index.toNat = bs.length + 1 := by
      rw [hagree.index]
      exact (Run.add hrun hnew hadd).stored.2.2.2.1.last
    have hblock : replayBlock lib json (reopened c store tip) (bs.length + 1) (keptBlock kind b) =
        .ok (reopened (c.appended b) store (keptBlock kind b)) := by
      unfold replayBlock
      dsimp only
      rw [hagree.verifyBlockHash, hadm.hash, hagree.verifyBlockSignatures, hagree.prevHash]
      have hprev : b.prevHash = (reopened c store tip).tip.hash := hadm.prevHash.trans htip.symm
      have hsigs : verifyBlockSignatures lib json (reopened c store tip).kv b = .ok () :=
        authorise_replay hadm.authorised
      rw [hsigs]
      simp only [guardErr, hindex, hprev, ne_eq, not_true_eq_false, if_false]
      change Except.ok ((reopened c store tip).applyValidated (keptBlock kind b)) = _
      simp only [Chain.applyValidated, reopened, Chain.appended, applyOps_agrees hagree.ops]
    refine ⟨keptBlock kind b, ?_, hagree.hash⟩
    rw [List.map_append, replayBlocks_append, hreplay]
    change replayBlocks lib json (reopened c store tip) (bs.length + 1) [keptBlock kind b] = _
    rw [replayBlocks, hblock, List.length_append]
    rfl

/-- **When the state chain survives a restart.** After any run, over either store, `NewChain` opens
over the same store with the same tip hash and the same contents exactly when every value that an
accepted block sets is already in the form in which `encoding/json` writes it. -/
theorem statechain_restart_iff (h : Run lib json kind g bs c)
    (hcoll : ∀ b ∈ bs, NoCollision lib kind b) :
    (∃ c', newChain lib json kind c.store g = .ok c' ∧ c'.tip.hash = c.tip.hash ∧ c'.kv = c.kv) ↔
      ∀ b ∈ bs, ∀ op ∈ b.ops, op.action = .set → compact op.value = op.value := by
  obtain ⟨-, -, hstore, hindexed, -⟩ := h.stored
  have hread : getStateBlockRange kind c.store 1 (stateBlockCount c.store) =
      bs.map (keptBlock kind) := by
    rw [hstore, stateBlockCount_storeOf hindexed, getStateBlockRange_storeOf hindexed kind]
  constructor
  · rintro ⟨c', hnew, -, -⟩ b hb
    obtain ⟨c₁, hadm⟩ := h.admitted b hb
    apply hadm.values_of_hash (hcoll b hb)
    unfold newChain at hnew
    obtain ⟨_, _, hnew⟩ := bind_eq_ok.mp hnew
    obtain ⟨c₂, hreplay, -⟩ := bind_eq_ok.mp hnew
    have hreplay' := mapError_eq_ok.mp hreplay
    unfold replay at hreplay'
    simp only [hread] at hreplay'
    obtain ⟨⟨c₃, n⟩, hblocks, -⟩ := bind_eq_ok.mp hreplay'
    exact replayBlocks_hash hblocks _ (List.mem_map_of_mem hb)
  · intro hvalues
    obtain ⟨tip, hreplay, htip⟩ := h.replayed hvalues c.store
    obtain ⟨ks, hks⟩ := h.daoKeyset
    have hcount : stateBlockCount c.store = bs.length := by
      rw [hstore, stateBlockCount_storeOf hindexed]
    have hopen : replay lib json ⟨kind, c.store, applyOps Table.empty g.ops, g, g⟩ =
        .ok (reopened c c.store tip) := by
      unfold replay
      dsimp only
      rw [hread, hreplay, bind_eq_ok]
      refine ⟨_, rfl, ?_⟩
      dsimp only
      rw [bind_eq_ok]
      exact ⟨(), guardErr_eq_ok.mpr (by rw [hcount]; simp), rfl⟩
    refine ⟨reopened c c.store tip, ?_, htip, rfl⟩
    have hks' : daoKeyset json (reopened c c.store tip).kv = .ok ks := hks
    rw [newChain, h.validGenesis, hopen, bind_eq_ok]
    refine ⟨(), rfl, ?_⟩
    rw [bind_eq_ok]
    refine ⟨_, rfl, ?_⟩
    rw [hks']
    rfl

end Replay

section Runs

open SampleNet

theorem noCollision_of_kept {lib : Lib} {kind : StoreKind} {b : Block} (h : keptBlock kind b = b) :
    NoCollision lib kind b := by
  intro data data' hdata hdata' _
  rw [h, hdata] at hdata'
  exact Except.ok.inj hdata'

open Xe.Sample in
/-- A chain whose only note is compact opens again. -/
theorem statechain_restart_note :
    ∃ c, Run lib json .badger genesis [noted genesis "1"] c ∧
      ∃ c', newChain lib json .badger c.store genesis = .ok c' ∧
        c'.tip.hash = c.tip.hash ∧ c'.kv = c.kv := by
  have hrun : (runBlocks lib json .badger genesis [noted genesis "1"]).toOption.any
      (fun _ => true) = true := by
    decide +kernel
  obtain ⟨c, hc, -⟩ := exists_run _ hrun
  have hkept : keptBlock .badger (noted genesis "1") = noted genesis "1" := by decide +kernel
  refine ⟨c, hc, (statechain_restart_iff hc ?_).mpr ?_⟩
  · intro b hb
    rw [List.mem_singleton] at hb
    subst hb
    exact noCollision_of_kept hkept
  · intro b hb
    rw [List.mem_singleton] at hb
    subst hb
    decide +kernel

open Xe.Sample in
/-- **A blank in a value keeps the chain from opening again**, over either store. -/
theorem statechain_lost_by_blank :
    (∃ c, Run lib json .mem genesis [noted genesis "[1, 2]"] c ∧
      ∀ c', newChain lib json .mem c.store genesis ≠ .ok c') ∧
    ∃ c, Run lib json .badger genesis [noted genesis "[1, 2]"] c ∧
      ∀ c', newChain lib json .badger c.store genesis ≠ .ok c' := by
  have lost : ∀ kind, (runBlocks lib json kind genesis
      [noted genesis "[1, 2]"]).toOption.any
        (fun c => !(newChain lib json kind c.store genesis).isOk) = true →
      ∃ c, Run lib json kind genesis [noted genesis "[1, 2]"] c ∧
        ∀ c', newChain lib json kind c.store genesis ≠ .ok c' := by
    intro kind hrun
    obtain ⟨c, hc, hfail⟩ := exists_run _ hrun
    refine ⟨c, hc, ?_⟩
    intro c' hnew
    rw [hnew] at hfail
    cases hfail
  exact ⟨lost .mem (by decide +kernel), lost .badger (by decide +kernel)⟩

end Runs

end Xe.StateChain
