import XeLattice.StateChain.Steps
import XeLattice.SampleLib

/-!
# Sample runs of the state chain

Decoders for a few configuration texts, a genesis block, and blocks with their hash and signatures.
-/

set_option autoImplicit false
set_option maxRecDepth 100000

namespace Xe.StateChain

open Xe.Sample (lib pub signature)

/-! ## Evaluating runs -/

/-- Adds new blocks. -/
def addNew (lib : Lib) (json : Json) (c : Chain) : List Block → Except GoError Chain
  | [] => .ok c
  | b :: bs =>
    if c.tip.index < b.index then do
      let c' ← addBlock lib json c b
      addNew lib json c' bs
    else .error (errorf (str "known"))

/-- The chain after a genesis block and a list of new blocks. -/
def runBlocks (lib : Lib) (json : Json) (kind : StoreKind) (g : Block) (bs : List Block) :
    Except GoError Chain := do
  let c ← newChain lib json kind Table.empty g
  addNew lib json c bs

theorem Run.addNew {lib : Lib} {json : Json} {kind : StoreKind} {g : Block} {bs bs' : List Block}
    {c c' : Chain} (h : Run lib json kind g bs c) (hadd : addNew lib json c bs' = .ok c') :
    Run lib json kind g (bs ++ bs') c' := by
  induction bs' generalizing bs c with
  | nil =>
    cases hadd
    rwa [List.append_nil]
  | cons b bs' ih =>
    rw [StateChain.addNew] at hadd
    split_ifs at hadd with hnew
    obtain ⟨c₁, hb, hrest⟩ := bind_eq_ok.mp hadd
    rw [List.append_cons]
    exact ih (h.add hnew hb) hrest

/-- **What a list of blocks leads to is reached by a run.** -/
theorem exists_run {lib : Lib} {json : Json} {kind : StoreKind} {g : Block} {bs : List Block}
    (P : Chain → Bool) (h : (runBlocks lib json kind g bs).toOption.any P = true) :
    ∃ c, Run lib json kind g bs c ∧ P c = true := by
  cases hc : runBlocks lib json kind g bs with
  | error e =>
    rw [hc] at h
    cases h
  | ok c =>
    rw [hc] at h
    obtain ⟨c₀, hnew, hadd⟩ := bind_eq_ok.mp hc
    exact ⟨c, (Run.start hnew).addNew hadd, h⟩

/-! ## Texts -/

/-- A text as `encoding/json` writes a keyset. -/
def keysetText (keys : List Str) (threshold : ℕ) : Str :=
  jsonObject [jsonField "keys" (jsonArray (keys.map quoteJSON)),
    jsonField "threshold" (dec threshold)]

/-- A text of an oracle. -/
def oracleText (oc : OracleConfig) : Str :=
  jsonObject [jsonField "keys" (jsonArray (oc.keys.map quoteJSON)),
    jsonField "threshold" (decInt oc.threshold),
    jsonField "allowed_prefix" (quoteJSON oc.allowedPrefix)]

/-- A text of a schedule. -/
def scheduleText (feature : String) (atIndex : ℕ) : Str :=
  jsonObject [jsonField "features" (jsonObject [jsonField feature
    (jsonObject [jsonField "at_index" (dec atIndex)])])]

/-- Reads the given texts. -/
def readAs {α : Type} (texts : List (Str × α)) (text : Str) : Except Str α :=
  match texts.lookup text with
  | some a => .ok a
  | none => .error (str "unexpected end of JSON input")

/-- A text of an epoch, without the fields that are zero in the samples. -/
def epochJSON (ev : EpochValue) : Str :=
  jsonObject [jsonField "epoch" (dec ev.epoch.toNat), jsonField "start_ns" (decInt ev.startNS.toInt),
    jsonField "end_ns" (decInt ev.endNS.toInt),
    jsonField "twap_milli_usd" (dec ev.twapMilliUSD.toNat),
    jsonField "r_volume" (dec ev.rVolume.toNat), jsonField "r_collusion" (dec ev.rCollusion.toNat),
    jsonField "r_effective" (dec ev.rEffective.toNat), jsonField "r_source" (quoteJSON ev.rSource),
    jsonField "phase" (dec ev.phase.toNat)]

/-- Reads the texts of the given epochs. -/
def readEpochs (epochs : List EpochValue) : Str → Except Str EpochValue :=
  readAs (epochs.map fun ev => (epochJSON ev, ev))

namespace SampleNet

/-- A public key. -/
def key (n : UInt8) : Str :=
  pub (0xA0 + n)

/-- The key in upper case. -/
def upperKey (n : UInt8) : Str :=
  (key n).map fun c => if 97 ≤ c then c - 32 else c

/-- Two keys that both have to sign. -/
def keyset : DAOKeyset :=
  ⟨[key 1, key 2], 2⟩

/-- A keyset that lists one key under two spellings. -/
def doubled : DAOKeyset :=
  ⟨[key 1, upperKey 1], 2⟩

/-- The oracle, which publishes epochs under its prefix. -/
def oracle : OracleConfig :=
  ⟨[key 3], 1, str "epoch."⟩

/-- An epoch at one dollar with the given rate. -/
def priced (rVolume rCollusion rEffective : UInt64) (rSource : String) : EpochValue where
  epoch := 1
  startNS := 0
  endNS := 10
  twapMilliUSD := 1000
  twavMilliUSD := 0
  rVolume := rVolume
  rPriceFloor := 0
  rCollusion := rCollusion
  rEffective := rEffective
  rSource := str rSource
  phase := 1
  sMilli := 0
  volumeTriggerMet := false
  twapTriggerMet := false
  payoutCap := 0

/-- An epoch that publishes its collusion rate. -/
def capped : EpochValue :=
  priced 2000 950 950 "collusion"

/-- A feature. -/
def feature : Str :=
  str "fast"

/-- The feature from the first block on. -/
def schedule : Activations :=
  ⟨[(feature, ⟨1, 0⟩)], by decide⟩

/-- A decoder that knows the texts. -/
def json : Json where
  checkValid _ := .ok ()
  daoKeyset := readAs [(keysetText keyset.keys 2, keyset), (keysetText doubled.keys 2, doubled)]
  timekeepers := readAs []
  minter := readAs []
  oracleConfig := readAs [(oracleText oracle, oracle)]
  phase := readAs []
  tokenomics := readAs []
  tokenomicsStrict := readAs []
  activations := readAs [(scheduleText "fast" 1, schedule)]
  string := readAs []
  representatives := readAs []
  epochValue := readEpochs [capped]

/-! ## Blocks -/

/-- A block with its hash. -/
def hashed (b : Block) : Block :=
  { b with hash := match hashBlock lib b with
    | .ok h => h
    | .error _ => [] }

/-- The genesis block: two keys of which both have to sign, and a feature for the first block. -/
def genesis : Block := hashed
  { index := 0
    prevHash := List.replicate 64 48
    ops := [⟨.set, daoKeysetKey, keysetText keyset.keys 2⟩,
      ⟨.set, activationsKey, scheduleText "fast" 1⟩]
    signatures := []
    timestamp := 0 }

/-- A block behind another, signed with the given texts of keys. -/
def next (prev : Block) (ops : List Op) (keys : List Str) : Block := hashed
  { index := prev.index + 1
    prevHash := prev.hash
    ops := ops
    signatures := keys.map fun k => { publicKey := k, sig := signature }
    timestamp := prev.timestamp + 1 }

/-- A block that writes a note, signed by both keys of the genesis block. -/
def noted (prev : Block) (text : String) : Block :=
  next prev [⟨.set, str "note", str text⟩] keyset.keys

end SampleNet

end Xe.StateChain
