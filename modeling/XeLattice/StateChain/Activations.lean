import XeLattice.StateChain.Encoding

/-!
# Activations and protocol versions

`statechain/activations.go`: the schedule of features, which may only be changed towards the future,
and the lowest protocol version, which may only rise.
-/

set_option autoImplicit false

namespace Xe.StateChain

/-- The key-value contents of the chain. -/
abbrev KVStore := Table Str Str

/-- `ActivationsKey`. -/
def activationsKey : Str :=
  str "sys.activations"

/-- `MinProtocolVersionKey`. -/
def minProtocolVersionKey : Str :=
  str "sys.min_protocol_version"

/-- `MaxActivationFeatures`. -/
def maxActivationFeatures : ℕ := 64

/-- `minSaneActivationNS`. -/
def minSaneActivationNS : Int64 := 1600000000000000000

/-- `ActiveAt`. -/
def ActivationRecord.activeAt (r : ActivationRecord) (index : UInt64) (ns : Int64) : Bool :=
  r.atIndex ≤ index && r.notBeforeNS ≤ ns

/-- `ActiveAt`. -/
def Activations.activeAt (a : Activations) (feature : Str) (index : UInt64) (ns : Int64) : Bool :=
  match a.record feature with
  | none => false
  | some rec => rec.activeAt index ns

/-- `ParseActivations`. -/
def parseActivations (json : Json) (raw : Str) : Except GoError Activations :=
  if raw = [] then .ok noActivations
  else
    match json.activations raw with
    | .error e => .error (errorf (str "invalid activations JSON: " ++ e))
    | .ok a => .ok a

/-- A lower-case letter. -/
def isLowerLetter (c : UInt8) : Bool :=
  97 ≤ c && c ≤ 122

/-- A decimal digit. -/
def isDigit (c : UInt8) : Bool :=
  48 ≤ c && c ≤ 57

/-- `^[a-z][a-z0-9_]{0,31}$`. -/
def isFeatureName : Str → Bool
  | [] => false
  | c :: s =>
    isLowerLetter c && s.length ≤ 31 && s.all (fun c => isLowerLetter c || isDigit c || c == 95)

/-- One record of `validateActivations`. -/
def validateFeature (lib : Lib) (name : Str) (rec : ActivationRecord) : Except GoError Unit := do
  guardErr (isFeatureName name = false)
    (errorf (str "activations: feature name " ++ lib.quote name ++
      str " invalid (must match ^[a-z][a-z0-9_]\x7b0,31\x7d$)"))
  guardErr (rec.atIndex = 0 ∧ rec.notBeforeNS = 0)
    (errorf (str "activations: feature " ++ lib.quote name ++
      str (" must set at_index or not_before_ns (both zero would mean active immediately)")))
  guardErr (rec.notBeforeNS < 0)
    (errorf (str "activations: feature " ++ lib.quote name ++
      str " not_before_ns must not be negative"))
  guardErr (rec.notBeforeNS ≠ 0 ∧ rec.notBeforeNS < minSaneActivationNS)
    (errorf (str "activations: feature " ++ lib.quote name ++ str " not_before_ns " ++
      decInt rec.notBeforeNS.toInt ++ str " is implausibly small — unix NANOSECONDS expected"))

/-- Runs a check on every entry, up to the first that fails it. -/
def checkAll {α : Type} (check : α → Except GoError Unit) : List α → Except GoError Unit
  | [] => .ok ()
  | a :: l => do
    check a
    checkAll check l

/-- `validateActivations`. -/
def validateActivations (lib : Lib) (json : Json) (value : Str) : Except GoError Unit := do
  let a ← parseActivations json value
  guardErr (a.features.length > maxActivationFeatures)
    (errorf (str "activations: " ++ dec a.features.length ++ str " features exceeds maximum " ++
      dec maxActivationFeatures))
  checkAll (fun f => validateFeature lib f.1 f.2) a.features

/-- `requireFuture`. -/
def requireFuture (lib : Lib) (name : Str) (rec : ActivationRecord) (b : Block) :
    Except GoError Unit := do
  guardErr (rec.atIndex ≠ 0 ∧ rec.atIndex ≤ b.index)
    (errorf (str "activations: feature " ++ lib.quote name ++ str " at_index " ++
      dec rec.atIndex.toNat ++ str " is not in the future (this block is index " ++
      dec b.index.toNat ++ str ")"))
  guardErr (rec.notBeforeNS ≠ 0 ∧ rec.notBeforeNS ≤ b.timestamp)
    (errorf (str "activations: feature " ++ lib.quote name ++ str " not_before_ns " ++
      decInt rec.notBeforeNS.toInt ++ str " is not in the future (this block is stamped " ++
      decInt b.timestamp.toInt ++ str ")"))

/-- What a new schedule must do with a feature of the old one. -/
def validateKept (lib : Lib) (next : Activations) (tip b : Block) (name : Str)
    (oldRec : ActivationRecord) : Except GoError Unit :=
  match next.record name with
  | none =>
    .error (errorf (str "activations: feature " ++ lib.quote name ++
      str " cannot be removed (activations are one-directional)"))
  | some newRec =>
    if oldRec.activeAt tip.index tip.timestamp then
      guardErr (newRec ≠ oldRec)
        (errorf (str "activations: feature " ++ lib.quote name ++
          str " is already active; its trigger is frozen (at_index " ++
          dec oldRec.atIndex.toNat ++ str ", not_before_ns " ++
          decInt oldRec.notBeforeNS.toInt ++ str ")"))
    else if newRec = oldRec then .ok ()
    else requireFuture lib name newRec b

/-- The schedule that a transition starts from. -/
def previousActivations (json : Json) (kv : KVStore) : Except GoError Activations :=
  match kv.get activationsKey with
  | none => .ok noActivations
  | some raw =>
    (parseActivations json raw).mapError (GoError.wrap (str "existing sys.activations unreadable: "))

/-- `validateActivationsTransition`. -/
def validateActivationsTransition (lib : Lib) (json : Json) (kv : KVStore) (tip b : Block)
    (value : Str) : Except GoError Unit := do
  let next ← parseActivations json value
  let prev ← previousActivations json kv
  checkAll (fun f => validateKept lib next tip b f.1 f.2) prev.features
  checkAll (fun f => if (prev.record f.1).isSome then .ok () else requireFuture lib f.1 f.2 b)
    next.features

/-! ## Protocol versions -/

/-- `strings.Split(s, ".")`. -/
def splitDots : Str → List Str
  | [] => [[]]
  | c :: s =>
    if c = 46 then [] :: splitDots s
    else
      match splitDots s with
      | [] => [[c]]
      | part :: parts => (c :: part) :: parts

/-- `^\d{1,4}\.\d{1,4}\.\d{1,4}$`. -/
def isProtocolVersion (s : Str) : Bool :=
  let parts := splitDots s
  parts.length == 3 &&
    parts.all (fun p => 1 ≤ p.length && p.length ≤ 4 && p.all isDigit)

/-- The number that digits spell. -/
def digitsValue (s : Str) : ℕ :=
  s.foldl (fun n c => n * 10 + (c.toNat - 48)) 0

/-- `strconv.Atoi`: a sign, digits, and the range of 64 bits. -/
def atoi (s : Str) : Option ℤ :=
  let negative := s.head? = some 45
  let digits := if s.head? = some 45 ∨ s.head? = some 43 then s.tail else s
  if digits = [] ∨ digits.all isDigit = false then none
  else if negative then
    if digitsValue digits ≤ 2 ^ 63 then some (-digitsValue digits) else none
  else if digitsValue digits < 2 ^ 63 then some (digitsValue digits)
  else none

/-- One part of `parseProtocolVersion`. -/
def versionPart (s : Str) : Option ℕ :=
  match atoi s with
  | none => none
  | some n => if n < 0 then none else some n.toNat

/-- `parseProtocolVersion`. -/
def parseProtocolVersion (s : Str) : Option (ℕ × ℕ × ℕ) :=
  match splitDots s with
  | [a, b, c] => do
    let major ← versionPart a
    let minor ← versionPart b
    let patch ← versionPart c
    some (major, minor, patch)
  | _ => none

/-- The order of two readable versions, part by part. -/
def compareParts (a b : ℕ × ℕ × ℕ) : Ordering :=
  (compare a.1 b.1).then ((compare a.2.1 b.2.1).then (compare a.2.2 b.2.2))

/-- `CompareProtocolVersion`: an unreadable version is below every readable one. -/
def compareProtocolVersion (a b : Str) : Ordering :=
  match parseProtocolVersion a, parseProtocolVersion b with
  | none, none => .eq
  | none, some _ => .lt
  | some _, none => .gt
  | some av, some bv => compareParts av bv

/-- `validateMinProtocolVersion`. -/
def validateMinProtocolVersion (lib : Lib) (json : Json) (value : Str) : Except GoError Unit :=
  match json.string value with
  | .error e =>
    .error (errorf (str "invalid min_protocol_version JSON (expected a string): " ++ e))
  | .ok v =>
    guardErr (isProtocolVersion v = false)
      (errorf (str "min_protocol_version " ++ lib.quote v ++ str " must be MAJOR.MINOR.PATCH"))

/-- `validateMinProtocolVersionTransition`. -/
def validateMinProtocolVersionTransition (json : Json) (kv : KVStore) (value : Str) :
    Except GoError Unit :=
  match kv.get minProtocolVersionKey with
  | none => .ok ()
  | some raw =>
    match json.string raw with
    | .error e => .error (errorf (str "existing sys.min_protocol_version unreadable: " ++ e))
    | .ok oldV =>
      match json.string value with
      | .error e => .error (errorf (str "incoming sys.min_protocol_version unreadable: " ++ e))
      | .ok newV =>
        guardErr (compareProtocolVersion newV oldV = .lt)
          (errorf (str "sys.min_protocol_version " ++ oldV ++ str " → " ++ newV ++
            str " not permitted (the floor only rises)"))

end Xe.StateChain
