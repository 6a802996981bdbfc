import XeLattice.StateChain.Sample

/-!
# Who signs the blocks of the state chain

A keyset is a list of texts.  The checks of signatures compare texts, so a key that a keyset lists
under two spellings signs twice.

* **`statechain_authorisation`**: who has signed an accepted block, and what it cannot touch.
-/

set_option autoImplicit false
set_option maxRecDepth 100000

namespace Xe.StateChain

section Signatures

variable {lib : Lib} {keys : List Str} {hash : Str} {where_ : String}

theorem countSigners_ok {seen : List Str} {sigs : List BlockSignature} {n : ℕ}
    (h : countSigners lib where_ keys hash seen sigs = .ok n) :
    n = sigs.length ∧ (sigs.map BlockSignature.publicKey).Nodup ∧
      ∀ sig ∈ sigs, sig.publicKey ∉ seen ∧ sig.publicKey ∈ keys ∧
        verifySignature lib hash sig = .ok () := by
  induction sigs generalizing seen n with
  | nil =>
    cases h
    simp
  | cons sig sigs ih =>
    rw [countSigners] at h
    split_ifs at h with hseen hkeys
    cases hverify : verifySignature lib hash sig with
    | error e => simp [hverify] at h
    | ok u =>
      simp only [hverify] at h
      obtain ⟨m, hm, hn⟩ := bind_eq_ok.mp h
      cases hn
      obtain ⟨rfl, hnodup, hall⟩ := ih hm
      refine ⟨rfl, ?_, ?_⟩
      · rw [List.map_cons, List.nodup_cons]
        refine ⟨?_, hnodup⟩
        rintro hmem
        obtain ⟨sig', hsig', heq⟩ := List.mem_map.mp hmem
        exact (hall sig' hsig').1 (heq ▸ List.mem_cons_self)
      · intro sig' hsig'
        obtain rfl | hsig' := List.mem_cons.mp hsig'
        · exact ⟨hseen, hkeys, hverify⟩
        · obtain ⟨hnot, hrest⟩ := hall sig' hsig'
          exact ⟨fun hmem => hnot (List.mem_cons_of_mem _ hmem), hrest⟩

theorem decodePublicKey_of_verify {sig : BlockSignature}
    (h : verifySignature lib hash sig = .ok ()) :
    ∃ k, decodePublicKey sig.publicKey = .ok k := by
  unfold verifySignature at h
  obtain ⟨_, _, h⟩ := bind_eq_ok.mp h
  unfold verifyHexSignature at h
  obtain ⟨k, hk, -⟩ := bind_eq_ok.mp h
  exact ⟨k, hk⟩

/-- No key stands in the list under two spellings. -/
def SpelledOnce (keys : List Str) : Prop :=
  ∀ k ∈ keys, ∀ k' ∈ keys, ∀ bytes, decodePublicKey k = .ok bytes →
    decodePublicKey k' = .ok bytes → k = k'

/-- The block carries valid signatures under the public keys `signers`, given as bytes and pairwise
distinct, each of which the list spells. -/
structure SignedBy (lib : Lib) (b : Block) (keys : List Str) (signers : List Str) : Prop where
  nodup : signers.Nodup
  signed : ∀ k ∈ signers, ∃ sig ∈ b.signatures, sig.publicKey ∈ keys ∧
    decodePublicKey sig.publicKey = .ok k ∧ verifySignature lib b.hash sig = .ok ()

/-- The bytes of a text that spells a key, and nothing otherwise. -/
def keyBytes (k : Str) : Str :=
  (decodePublicKey k).toOption.getD []

theorem keyBytes_of_decode {k bytes : Str} (h : decodePublicKey k = .ok bytes) :
    keyBytes k = bytes := by
  rw [keyBytes, h]
  rfl

theorem spelledOnce_of_nodup (h : (keys.map keyBytes).Nodup) : SpelledOnce keys := by
  intro k hk k' hk' bytes hdecode hdecode'
  apply List.inj_on_of_nodup_map h hk hk'
  rw [keyBytes_of_decode hdecode, keyBytes_of_decode hdecode']

/-- **Different texts are different keys** when the list spells each key once: a block that passed
the check is signed by as many keys as the threshold asks for. -/
theorem SpelledOnce.signedBy {few : String} {threshold : ℤ} {b : Block} (hkeys : SpelledOnce keys)
    (h : verifyThreshold lib where_ few keys threshold b = .ok ()) :
    ∃ signers, SignedBy lib b keys signers ∧ threshold ≤ signers.length := by
  unfold verifyThreshold at h
  obtain ⟨_, _, h⟩ := bind_eq_ok.mp h
  obtain ⟨n, hcount, h⟩ := bind_eq_ok.mp h
  obtain ⟨hn, hnodup, hall⟩ := countSigners_ok hcount
  have hdecode : ∀ sig ∈ b.signatures, decodePublicKey sig.publicKey = .ok (keyBytes sig.publicKey) := by
    intro sig hsig
    obtain ⟨k, hk⟩ := decodePublicKey_of_verify (hall sig hsig).2.2
    rw [hk, keyBytes_of_decode hk]
  refine ⟨b.signatures.map fun sig => keyBytes sig.publicKey, ⟨?_, ?_⟩, ?_⟩
  · refine List.Nodup.map_on ?_ (List.Nodup.of_map _ hnodup)
    intro sig hsig sig' hsig' heq
    have htext : sig.publicKey = sig'.publicKey :=
      hkeys _ (hall sig hsig).2.1 _ (hall sig' hsig').2.1 _ (hdecode sig hsig)
        (heq ▸ hdecode sig' hsig')
    exact List.inj_on_of_nodup_map hnodup hsig hsig' htext
  · intro k hk
    obtain ⟨sig, hsig, rfl⟩ := List.mem_map.mp hk
    exact ⟨sig, hsig, (hall sig hsig).2.1, hdecode sig hsig, (hall sig hsig).2.2⟩
  · have hle := guardErr_eq_ok.mp h
    rw [List.length_map, ← hn]
    omega

end Signatures

/-! ## The keysets in force -/

section Keysets

variable {lib : Lib} {json : Json}

/-- An operation that writes a keyset spells each of its keys once. -/
structure Op.SpelledOnce (json : Json) (op : Op) : Prop where
  dao : op.action = .set → op.key = daoKeysetKey → ∀ ks, json.daoKeyset op.value = .ok ks →
    StateChain.SpelledOnce ks.keys
  oracle : op.action = .set → op.key = oracleKey → ∀ oc, json.oracleConfig op.value = .ok oc →
    StateChain.SpelledOnce oc.keys

/-- The keysets that a state of the contents holds spell each key once. -/
structure KeysetsOnce (json : Json) (kv : KVStore) : Prop where
  dao : ∀ raw, kv.get daoKeysetKey = some raw → ∀ ks, json.daoKeyset raw = .ok ks →
    SpelledOnce ks.keys
  oracle : ∀ raw, kv.get oracleKey = some raw → ∀ oc, json.oracleConfig raw = .ok oc →
    SpelledOnce oc.keys

theorem keysetsOnce_empty : KeysetsOnce json Table.empty where
  dao raw h := by simp at h
  oracle raw h := by simp at h

theorem applyOp_get_some {kv : KVStore} {op : Op} {k raw : Str}
    (h : (applyOp kv op).get k = some raw) :
    kv.get k = some raw ∨ (op.action = .set ∧ op.key = k ∧ op.value = raw) := by
  by_cases hk : op.key = k
  · subst hk
    unfold applyOp at h
    cases ha : op.action with
    | set =>
      simp only [ha, Table.get_set_self, Option.some.injEq] at h
      exact .inr ⟨rfl, rfl, h⟩
    | delete => simp [ha] at h
    | other w =>
      simp only [ha] at h
      exact .inl h
  · rw [applyOp_get_of_ne hk] at h
    exact .inl h

theorem KeysetsOnce.applyOp {kv : KVStore} {op : Op} (h : KeysetsOnce json kv)
    (hop : op.SpelledOnce json) : KeysetsOnce json (applyOp kv op) where
  dao raw hget ks hks := by
    obtain hold | ⟨ha, hk, rfl⟩ := applyOp_get_some hget
    · exact h.dao raw hold ks hks
    · exact hop.dao ha hk ks hks
  oracle raw hget oc hoc := by
    obtain hold | ⟨ha, hk, rfl⟩ := applyOp_get_some hget
    · exact h.oracle raw hold oc hoc
    · exact hop.oracle ha hk oc hoc

theorem KeysetsOnce.applyOps {kv : KVStore} {ops : List Op} (h : KeysetsOnce json kv)
    (hops : ∀ op ∈ ops, op.SpelledOnce json) : KeysetsOnce json (applyOps kv ops) := by
  induction ops generalizing kv with
  | nil => exact h
  | cons op ops ih =>
    obtain ⟨hop, hops⟩ := List.forall_mem_cons.mp hops
    exact ih (h.applyOp hop) hops

theorem newChain_empty {kind : StoreKind} {g : Block} {c : Chain}
    (h : newChain lib json kind Table.empty g = .ok c) :
    validateGenesis lib json g = .ok () ∧
      c = ⟨kind, Table.empty, applyOps Table.empty g.ops, g, g⟩ := by
  unfold newChain at h
  obtain ⟨⟨⟩, hvalid, h⟩ := bind_eq_ok.mp h
  obtain ⟨c₁, hreplay, h⟩ := bind_eq_ok.mp h
  obtain ⟨_, _, h⟩ := bind_eq_ok.mp h
  cases h
  refine ⟨mapError_eq_ok.mp hvalid, ?_⟩
  have hrange : ∀ kind, getStateBlockRange kind Table.empty 1 (stateBlockCount Table.empty) = [] := by
    intro kind
    have hcount : stateBlockCount Table.empty = 0 := rfl
    cases kind <;> simp [getStateBlockRange, hcount]
  have hreplay' := mapError_eq_ok.mp hreplay
  unfold replay at hreplay'
  simp only [hrange, replayBlocks] at hreplay'
  obtain ⟨_, hpair, hreplay'⟩ := bind_eq_ok.mp hreplay'
  cases hpair
  obtain ⟨_, _, hreplay'⟩ := bind_eq_ok.mp hreplay'
  cases hreplay'
  rfl

/-- Along a run, the keysets in force are among those that were written. -/
theorem Run.keysets {kind : StoreKind} {g : Block} {bs : List Block} {c : Chain}
    (h : Run lib json kind g bs c) (hg : ∀ op ∈ g.ops, op.SpelledOnce json)
    (hbs : ∀ b ∈ bs, ∀ op ∈ b.ops, op.SpelledOnce json) : KeysetsOnce json c.kv := by
  induction h with
  | start hnew =>
    rw [(newChain_empty hnew).2]
    exact keysetsOnce_empty.applyOps hg
  | @add bs c c' b _ hnew hadd ih =>
    obtain ⟨-, rfl⟩ := addBlock_new hadd hnew
    have hkv := ih fun b' hb' => hbs b' (List.mem_append_left _ hb')
    exact hkv.applyOps (hbs b (List.mem_append_right _ List.mem_cons_self))

theorem daoKeyset_ok {kv : KVStore} {ks : DAOKeyset} (h : daoKeyset json kv = .ok ks) :
    (∃ raw, kv.get daoKeysetKey = some raw ∧ json.daoKeyset raw = .ok ks) ∧ 2 ≤ ks.threshold := by
  unfold daoKeyset at h
  cases hget : kv.get daoKeysetKey with
  | none => simp [hget] at h
  | some raw =>
    simp only [hget] at h
    cases hks : json.daoKeyset raw with
    | error e => simp [hks] at h
    | ok ks' =>
      simp only [hks] at h
      obtain ⟨_, _, h⟩ := bind_eq_ok.mp h
      obtain ⟨_, hrange, h⟩ := bind_eq_ok.mp h
      cases h
      have hthreshold := guardErr_eq_ok.mp hrange
      rw [minDAOThreshold] at hthreshold
      exact ⟨⟨raw, rfl, hks⟩, by omega⟩

theorem oracleInForce_some {kv : KVStore} {oc : OracleConfig} (h : oracleInForce json kv = some oc) :
    ∃ raw, kv.get oracleKey = some raw ∧ json.oracleConfig raw = .ok oc := by
  have hok : oracleConfig json kv = .ok (some oc) := by
    unfold oracleInForce at h
    cases hx : oracleConfig json kv with
    | error e => simp [hx] at h
    | ok x =>
      simp only [hx] at h
      rw [h]
  unfold oracleConfig at hok
  cases hget : kv.get oracleKey with
  | none => simp [hget] at hok
  | some raw =>
    simp only [hget] at hok
    cases hoc : json.oracleConfig raw with
    | error e => simp [hoc] at hok
    | ok oc' =>
      simp only [hoc] at hok
      obtain ⟨_, _, hok⟩ := bind_eq_ok.mp hok
      obtain ⟨_, _, hok⟩ := bind_eq_ok.mp hok
      obtain ⟨_, _, hok⟩ := bind_eq_ok.mp hok
      cases hok
      exact ⟨raw, rfl, hoc⟩

end Keysets

/-! ## Authorisation -/

section Authorisation

variable {lib : Lib} {json : Json} {c : Chain} {b : Block}

/-- The keys of the block are all under the oracle prefix in force. -/
def UnderOracle (json : Json) (kv : KVStore) (b : Block) : Prop :=
  ∃ config, oracleInForce json kv = some config ∧ opsMatchPrefix b.ops config.allowedPrefix = true

theorem authorise_signed (h : authorise lib json c b = .ok ()) :
    (¬UnderOracle json c.kv b → ∃ ks, daoKeyset json c.kv = .ok ks ∧
        verifyMultisig lib b ks = .ok ()) ∧
      ∀ config, oracleInForce json c.kv = some config →
        opsMatchPrefix b.ops config.allowedPrefix = true →
        verifyOracleMultisig lib b config = .ok () := by
  have hdao : ∀ oracle, authoriseDAO lib json c oracle b = .ok () →
      ∃ ks, daoKeyset json c.kv = .ok ks ∧ verifyMultisig lib b ks = .ok () := by
    intro oracle hauth
    unfold authoriseDAO at hauth
    obtain ⟨ks, hks, hauth⟩ := bind_eq_ok.mp hauth
    obtain ⟨⟨⟩, hsig, -⟩ := bind_eq_ok.mp hauth
    exact ⟨ks, mapError_eq_ok.mp hks, hsig⟩
  unfold authorise at h
  cases horacle : oracleInForce json c.kv with
  | none =>
    simp only [horacle] at h
    exact ⟨fun _ => hdao none h, fun config hconfig => by cases hconfig⟩
  | some config =>
    simp only [horacle] at h
    split_ifs at h with hmatch
    · refine ⟨fun hnot => absurd ⟨config, horacle, hmatch⟩ hnot, ?_⟩
      intro config' hconfig _
      cases hconfig
      unfold authoriseOracle at h
      obtain ⟨⟨⟩, -, hsig⟩ := bind_eq_ok.mp h
      exact hsig
    · refine ⟨fun _ => hdao (some config) h, ?_⟩
      intro config' hconfig hmatch'
      cases hconfig
      exact absurd hmatch' hmatch

/-- **Keys under the oracle prefix are written once**: an operation of an authorised block is on a
key that does not exist, or on a key outside of the prefix. -/
theorem authorise_fresh (h : authorise lib json c b = .ok ()) {config : OracleConfig}
    (hconfig : oracleInForce json c.kv = some config) {op : Op} (hop : op ∈ b.ops)
    (hpre : startsWith op.key config.allowedPrefix = true) : c.kv.get op.key = none := by
  unfold authorise at h
  simp only [hconfig] at h
  split_ifs at h
  · unfold authoriseOracle at h
    obtain ⟨⟨⟩, hall, -⟩ := bind_eq_ok.mp h
    have hcheck := checkAll_eq_ok.mp hall op hop
    obtain ⟨⟨⟩, -, hfree⟩ := bind_eq_ok.mp hcheck
    have hnot := guardErr_eq_ok.mp hfree
    rwa [Option.not_isSome_iff_eq_none] at hnot
  · unfold authoriseDAO at h
    obtain ⟨_, _, h⟩ := bind_eq_ok.mp h
    obtain ⟨_, _, h⟩ := bind_eq_ok.mp h
    exact absurd hpre (guardErr_eq_ok.mp (checkAll_eq_ok.mp h op hop))

/-- **Authorisation on the state chain.** In a run in which no keyset is written that spells a key
twice, every block that is accepted above the tip and not wholly under the oracle prefix in force is
signed by enough different keys of the DAO keyset in force, at least two; a block under the prefix is
signed by enough different keys of the oracle; and no accepted block touches an existing key under
the prefix. -/
theorem statechain_authorisation {kind : StoreKind} {g : Block} {bs : List Block} {c' : Chain}
    (hrun : Run lib json kind g bs c) (hg : ∀ op ∈ g.ops, op.SpelledOnce json)
    (hbs : ∀ b ∈ bs, ∀ op ∈ b.ops, op.SpelledOnce json) (hadd : addBlock lib json c b = .ok c') :
    (c.tip.index < b.index → ¬UnderOracle json c.kv b →
      ∃ ks, daoKeyset json c.kv = .ok ks ∧ ∃ signers, SignedBy lib b ks.keys signers ∧
        ks.threshold ≤ signers.length ∧ 2 ≤ signers.length) ∧
    (c.tip.index < b.index → ∀ config, oracleInForce json c.kv = some config →
      opsMatchPrefix b.ops config.allowedPrefix = true →
      ∃ signers, SignedBy lib b config.keys signers ∧ config.threshold ≤ signers.length) ∧
    (∀ config, oracleInForce json c.kv = some config → ∀ k v,
      startsWith k config.allowedPrefix = true → c.kv.get k = some v → c'.kv.get k = some v) := by
  have honce := hrun.keysets hg hbs
  refine ⟨?_, ?_, ?_⟩
  · intro hnew hnot
    obtain ⟨hadm, -⟩ := addBlock_new hadd hnew
    obtain ⟨ks, hks, hsig⟩ := (authorise_signed hadm.authorised).1 hnot
    obtain ⟨⟨raw, hget, hdecode⟩, htwo⟩ := daoKeyset_ok hks
    obtain ⟨signers, hsigned, hle⟩ := (honce.dao raw hget ks hdecode).signedBy hsig
    exact ⟨ks, hks, signers, hsigned, hle, by omega⟩
  · intro hnew config hconfig hmatch
    obtain ⟨hadm, -⟩ := addBlock_new hadd hnew
    obtain ⟨raw, hget, hdecode⟩ := oracleInForce_some hconfig
    exact (honce.oracle raw hget config hdecode).signedBy
      ((authorise_signed hadm.authorised).2 config hconfig hmatch)
  · intro config hconfig k v hk hv
    obtain ⟨-, rfl⟩ | ⟨hadm, rfl⟩ := addBlock_cases hadd
    · exact hv
    · have hother : ∀ op ∈ b.ops, op.key ≠ k := by
        rintro op hop rfl
        rw [authorise_fresh hadm.authorised hconfig hop hk] at hv
        cases hv
      change (applyOps c.kv b.ops).get k = some v
      rw [applyOps_get_of_ne hother, hv]

end Authorisation

section Runs

open SampleNet

theorem spelledOnce_genesis : ∀ op ∈ genesis.ops, op.SpelledOnce json := by
  have hkeys : SpelledOnce keyset.keys := spelledOnce_of_nodup (by decide +kernel)
  have hread : json.daoKeyset (keysetText keyset.keys 2) = .ok keyset := by decide +kernel
  intro op hop
  have hops : genesis.ops = [⟨.set, daoKeysetKey, keysetText keyset.keys 2⟩,
      ⟨.set, activationsKey, scheduleText "fast" 1⟩] := rfl
  rw [hops, List.mem_cons, List.mem_singleton] at hop
  obtain rfl | rfl := hop
  · refine ⟨fun _ _ ks hks => ?_, fun _ hkey => absurd hkey (by decide +kernel)⟩
    rw [hread] at hks
    cases hks
    exact hkeys
  · exact ⟨fun _ hkey => absurd hkey (by decide +kernel),
      fun _ hkey => absurd hkey (by decide +kernel)⟩

/-- The block with which the DAO names the oracle. -/
def enabling : Block :=
  next genesis [⟨.set, oracleKey, oracleText oracle⟩] keyset.keys

/-- The first epoch of the oracle. -/
def firstEpoch : Block :=
  next enabling [⟨.set, str "epoch.1", epochJSON capped⟩] oracle.keys

theorem spelledOnce_enabling : ∀ op ∈ enabling.ops, op.SpelledOnce json := by
  have hread : json.oracleConfig (oracleText oracle) = .ok oracle := by decide +kernel
  intro op hop
  have hops : enabling.ops = [⟨.set, oracleKey, oracleText oracle⟩] := rfl
  rw [hops, List.mem_singleton] at hop
  subst hop
  refine ⟨fun _ hkey => absurd hkey (by decide +kernel), fun _ _ oc hoc => ?_⟩
  rw [hread] at hoc
  cases hoc
  exact spelledOnce_of_nodup (by decide +kernel)

open Xe.Sample in
/-- With an oracle in force, its epoch is signed by its key, and a note by two keys of the DAO. -/
theorem statechain_authorisation_note :
    ∃ c, Run lib json .badger genesis [enabling] c ∧
      (∃ signers, SignedBy lib firstEpoch oracle.keys signers ∧ 1 ≤ signers.length) ∧
      ∃ ks, daoKeyset json c.kv = .ok ks ∧ ∃ signers,
        SignedBy lib (noted enabling "1") ks.keys signers ∧ 2 ≤ signers.length := by
  have hrun : (runBlocks lib json .badger genesis [enabling]).toOption.any
      (fun c => decide (oracleInForce json c.kv = some oracle ∧
        (c.tip.index < firstEpoch.index ∧ (addBlock lib json c firstEpoch).isOk = true) ∧
        c.tip.index < (noted enabling "1").index ∧
        (addBlock lib json c (noted enabling "1")).isOk = true)) = true := by
    decide +kernel
  obtain ⟨c, hc, hP⟩ := exists_run _ hrun
  obtain ⟨hforce, ⟨hnew₁, hepoch⟩, hnew₂, hnote⟩ := of_decide_eq_true hP
  obtain ⟨c₁, hadd₁⟩ := exists_of_isOk hepoch
  obtain ⟨c₂, hadd₂⟩ := exists_of_isOk hnote
  have hbs : ∀ b ∈ [enabling], ∀ op ∈ b.ops, op.SpelledOnce json :=
    List.forall_mem_singleton.mpr spelledOnce_enabling
  have hunder : ¬UnderOracle json c.kv (noted enabling "1") := by
    rintro ⟨config, hconfig, hmatch⟩
    rw [hforce] at hconfig
    cases hconfig
    exact absurd hmatch (by decide +kernel)
  obtain ⟨signers, hsigned, hone⟩ :=
    (statechain_authorisation hc spelledOnce_genesis hbs hadd₁).2.1 hnew₁ oracle hforce
      (by decide +kernel)
  obtain ⟨ks, hks, signers', hsigned', -, htwo⟩ :=
    (statechain_authorisation hc spelledOnce_genesis hbs hadd₂).1 hnew₂ hunder
  exact ⟨c, hc, ⟨signers, hsigned, Int.ofNat_le.mp hone⟩, ks, hks, signers', hsigned', htwo⟩

/-- The block that replaces the keyset by one with a single key under two spellings. -/
def doubling : Block :=
  next genesis [⟨.set, daoKeysetKey, keysetText doubled.keys 2⟩] keyset.keys

/-- A note signed with both spellings. -/
def signedTwice : Block :=
  next doubling [⟨.set, str "note", str "1"⟩] doubled.keys

open Xe.Sample in
/-- **One key is enough.** The chain accepts a keyset of one key in two spellings with threshold
two, and then a block that is signed by this key only. -/
theorem statechain_single_signer :
    ∃ c c', Run lib json .badger genesis [doubling] c ∧
      addBlock lib json c signedTwice = .ok c' ∧ c.tip.index < signedTwice.index ∧
      ¬UnderOracle json c.kv signedTwice ∧
      ∀ ks, daoKeyset json c.kv = .ok ks → ks.threshold = 2 ∧
        ∀ signers, SignedBy lib signedTwice ks.keys signers → signers.length ≤ 1 := by
  have hrun : (runBlocks lib json .badger genesis [doubling]).toOption.any
      (fun c => (oracleInForce json c.kv).isNone && decide (c.tip.index < signedTwice.index) &&
        decide ((daoKeyset json c.kv).toOption = some doubled) &&
        (addBlock lib json c signedTwice).isOk) = true := by
    decide +kernel
  obtain ⟨c, hc, hP⟩ := exists_run _ hrun
  rw [Bool.and_eq_true, Bool.and_eq_true, Bool.and_eq_true, decide_eq_true_eq, decide_eq_true_eq,
    Option.isNone_iff_eq_none] at hP
  obtain ⟨⟨⟨hnone, hnew⟩, hdoubled⟩, hok⟩ := hP
  have hbytes : ∀ k ∈ doubled.keys, decodePublicKey k = .ok (List.replicate 32 0xA1) := by
    decide +kernel
  obtain ⟨c', hadd⟩ := exists_of_isOk hok
  refine ⟨c, c', hc, hadd, hnew, ?_, ?_⟩
  · rintro ⟨config, hconfig, -⟩
    rw [hnone] at hconfig
    cases hconfig
  · intro ks hks
    rw [hks] at hdoubled
    cases hdoubled
    refine ⟨rfl, ?_⟩
    intro signers hsigned
    have hsub : signers ⊆ [List.replicate 32 0xA1] := by
      intro k hk
      obtain ⟨sig, -, hmem, hdecode, -⟩ := hsigned.signed k hk
      rw [hbytes _ hmem] at hdecode
      cases hdecode
      exact List.mem_cons_self
    exact (hsigned.nodup.subperm hsub).length_le

end Runs

end Xe.StateChain
