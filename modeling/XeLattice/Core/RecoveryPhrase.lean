import XeLattice.Bits
import XeLattice.Core.Encoding

/-!
# Recovery phrases

`core/recovery_phrase.go` and `web/assets/recovery-phrase.js` spell entropy as words of eleven bits
each, with a checksum of one bit for four bytes, and check such phrases.  Texts are sequences of
code points here; lower case and the normal form NFKD are parameters.

* **`recovery_phrases`**: both spell alike and accept exactly the phrases of entropies.
-/

set_option autoImplicit false

namespace Xe.Phrase

open Bits

/-! ## Texts -/

/-- A text by its code points. -/
abbrev Text := List Char

/-- `unicode.IsSpace`. -/
def isSpace (c : Char) : Bool :=
  (9 ≤ c.toNat && c.toNat ≤ 13) || c.toNat == 0x20 || c.toNat == 0x85 || c.toNat == 0xA0 ||
    c.toNat == 0x1680 || (0x2000 ≤ c.toNat && c.toNat ≤ 0x200A) || c.toNat == 0x2028 ||
    c.toNat == 0x2029 || c.toNat == 0x202F || c.toNat == 0x205F || c.toNat == 0x3000

/-- The parts of a text between white space: `strings.Fields`, and what the page keeps of
`split(/\p{White_Space}+/u)`. -/
def fields (s : Text) : List Text :=
  (s.splitOnP isSpace).filter (· ≠ [])

/-- `strings.Join(words, " ")`. -/
def join (words : List Text) : Text :=
  [' '].intercalate words

/-- Not empty, and without spaces. -/
def IsWord (w : Text) : Prop :=
  w ≠ [] ∧ ∀ c ∈ w, isSpace c = false

/-- The words of the embedded list. -/
structure WordList where
  words : List Text
  length_eq : words.length = 2048
  nodup : words.Nodup
  isWord : ∀ w ∈ words, IsWord w

/-- What the two programs take from their libraries. -/
structure Texts where
  sha256 : Str → Str
  toLower : Text → Text
  toLowerCase : Text → Text
  nfkd : Text → Text

/-- `phraseIndex[word]`: the words are distinct, so that the last of a word is the first. -/
def WordList.index (W : WordList) (word : Text) : Option ℕ :=
  W.words.idxOf? word

/-! ## The ledger -/

section Ledger

variable (W : WordList) (T : Texts)

/-- `NormalizePhrase`. -/
def normalizePhrase (phrase : Text) : Text :=
  T.nfkd (join (fields (T.toLower phrase)))

/-- The entropy with the first byte of its digest. -/
def checked (entropy : Str) : Str :=
  entropy ++ [(T.sha256 entropy).headD 0]

/-- `phraseFromEntropy`.  An index has eleven bits, so that the list has a word for it. -/
def phraseFromEntropy (entropy : Str) : Text :=
  join ((List.range ((entropy.length * 8 + entropy.length / 4) / 11)).map fun i =>
    W.words.getD (group (checked T entropy) (i * 11) 11) [])

/-- `ErrPhraseWordCount`. -/
def errPhraseWordCount : Str := str "recovery phrase must have 12, 15, 18, 21 or 24 words"
/-- `ErrPhraseUnknownWord`. -/
def errPhraseUnknownWord : Str := str "unknown recovery phrase word"
/-- `ErrPhraseChecksum`. -/
def errPhraseChecksum : Str := str "recovery phrase checksum does not match"

/-- The loop over the words, from the `i`-th on. -/
def packWords (i : ℕ) (data : Str) : List Text → Except Str Str
  | [] => .ok data
  | word :: words =>
    match W.index word with
    | none => .error (errPhraseUnknownWord ++ str " at position " ++ dec (i + 1))
    | some index => packWords (i + 1) (packWord 11 data i index) words

/-- `ValidatePhrase`. -/
def validatePhrase (phrase : Text) : Except Str Unit := do
  let words := fields (normalizePhrase T phrase)
  guardErr (words.length < 12 ∨ words.length > 24 ∨ words.length % 3 ≠ 0)
    (errPhraseWordCount ++ str ", got " ++ dec words.length)
  let data ← packWords W 0 (List.replicate ((words.length * 11 + 7) / 8) 0) words
  let entropyBytes := words.length * 11 / 33 * 4
  let checksumBits := entropyBytes / 4
  let sum := T.sha256 (data.take entropyBytes)
  guardErr ((data.getD entropyBytes 0).toNat >>> (8 - checksumBits) ≠
    (sum.headD 0).toNat >>> (8 - checksumBits)) errPhraseChecksum

end Ledger

/-! ## The page -/

namespace Page

variable (W : WordList) (T : Texts)

/-- `PhraseError`, and the plain error of `phraseFromEntropy`. -/
inductive Error where
  | phrase (code message : Str) (position : Option ℕ)
  | plain (message : Str)
  deriving DecidableEq

/-- `normalizePhrase`. -/
def normalizePhrase (phrase : Text) : Text :=
  T.nfkd (join (fields (T.toLowerCase phrase)))

/-- The inner loop of `phraseFromEntropy`. -/
def group (data : Str) (i : ℕ) : ℕ :=
  (List.range' (i * 11) 11).foldl (fun index bit =>
    index <<< 1 ||| ((data.getD (bit >>> 3) 0).toNat >>> (7 - bit % 8) &&& 1)) 0

/-- `phraseFromEntropy`. -/
def phraseFromEntropy (entropy : Str) : Except Error Text :=
  if entropy.length ∉ [16, 20, 24, 28, 32] then .error (.plain (str "invalid BIP39 entropy length"))
  else
    let data := entropy ++ [(T.sha256 entropy).headD 0]
    .ok (join ((List.range ((entropy.length * 8 + entropy.length / 4) / 11)).map fun i =>
      W.words.getD (group data i) []))

/-- The inner loop of `validatePhrase`. -/
def setBits (data : Str) (i index : ℕ) : Str :=
  (List.range 11).foldl (fun data j =>
    data.modify ((i * 11 + j) >>> 3) fun x =>
      x ||| UInt8.ofNat ((index >>> (10 - j) &&& 1) <<< (7 - (i * 11 + j) % 8))) data

/-- The loop over the words, from the `i`-th on. -/
def packWords (i : ℕ) (data : Str) : List Text → Except Error Str
  | [] => .ok data
  | word :: words =>
    match W.index word with
    | none => .error (.phrase (str "unknown_word")
        (str "unknown recovery phrase word at position " ++ dec (i + 1)) (some (i + 1)))
    | some index => packWords (i + 1) (setBits data i index) words

/-- `validatePhrase`. -/
def validatePhrase (phrase : Text) : Except Error Text := do
  let normalized := normalizePhrase T phrase
  let words := if normalized = [] then [] else normalized.splitOn ' '
  guardErr (words.length ∉ [12, 15, 18, 21, 24]) (.phrase (str "word_count")
    (str "recovery phrase must have 12, 15, 18, 21 or 24 words") none)
  -- The number of bytes is rounded up.
  let data ← packWords W 0 (List.replicate ((words.length * 11 + 7) / 8) 0) words
  let entropyBytes := words.length * 4 / 3
  let shift := 8 - entropyBytes / 4
  let checksum := T.sha256 (data.take entropyBytes)
  guardErr ((data.getD entropyBytes 0).toNat >>> shift ≠ (checksum.headD 0).toNat >>> shift)
    (.phrase (str "checksum") (str "recovery phrase checksum does not match") none)
  .ok normalized

end Page

/-! ## Words -/

section Words

variable (W : WordList)

theorem isSpace_blank : isSpace ' ' = true := by decide

/-- **Words survive their phrase.** -/
theorem fields_join {ws : List Text} (h : ∀ w ∈ ws, IsWord w) : fields (join ws) = ws := by
  induction ws with
  | nil => rfl
  | cons w rest ih =>
    obtain ⟨hne, hw⟩ := h w (by simp)
    have hrest := ih fun v hv => h v (by simp [hv])
    cases rest with
    | nil =>
      have hjoin : join [w] = w := by simp [join]
      rw [hjoin, fields, List.splitOnP_eq_singleton hw]
      simp [hne]
    | cons v rest =>
      have hjoin : join (w :: v :: rest) = w ++ ' ' :: join (v :: rest) := by
        simp [join, List.intercalate_cons_cons]
      rw [hjoin, fields, List.splitOnP_append_cons_of_forall_mem hw ' ' isSpace_blank,
        List.filter_cons_of_pos (by simpa using hne)]
      exact congrArg _ hrest

theorem split_join {ws : List Text} (h : ∀ w ∈ ws, IsWord w) :
    (if join ws = [] then [] else (join ws).splitOn ' ') = ws := by
  by_cases hws : ws = []
  · rw [hws]
    rfl
  · have hne : join ws ≠ [] := fun hnil => hws (by rw [← fields_join h, hnil]; rfl)
    rw [if_neg hne]
    refine List.splitOn_intercalate ' ' (fun w hw hc => ?_) hws
    exact absurd isSpace_blank (by rw [(h w hw).2 _ hc]; decide)

/-- The word of an index. -/
def WordList.word (i : ℕ) : Text :=
  W.words.getD i []

theorem WordList.word_mem {i : ℕ} (hi : i < 2 ^ 11) : W.word i ∈ W.words := by
  have hlt : i < W.words.length := by rwa [W.length_eq]
  rw [WordList.word, List.getD_eq_getElem _ _ hlt]
  exact List.getElem_mem hlt

theorem WordList.index_eq_some {w : Text} {i : ℕ} :
    W.index w = some i ↔ i < 2 ^ 11 ∧ W.word i = w := by
  have hlen : W.words.length = 2 ^ 11 := W.length_eq
  rw [WordList.index, List.idxOf?_eq_some_iff]
  constructor
  · rintro ⟨hi, hw, -⟩
    exact ⟨hlen ▸ hi, by rw [WordList.word, List.getD_eq_getElem _ _ hi, hw]⟩
  · rintro ⟨hi, hw⟩
    have hlt : i < W.words.length := by rwa [hlen]
    rw [WordList.word, List.getD_eq_getElem _ _ hlt] at hw
    refine ⟨hlt, hw, fun j hj hjw => ?_⟩
    have hij := W.nodup.getElem_inj_iff.mp (hjw.trans hw.symm)
    omega

theorem WordList.word_inj {i j : ℕ} (hi : i < 2 ^ 11) (hj : j < 2 ^ 11)
    (h : W.word i = W.word j) : i = j := by
  have hindex := W.index_eq_some.mpr ⟨hi, h⟩
  rw [W.index_eq_some.mpr ⟨hj, rfl⟩] at hindex
  exact (Option.some.inj hindex).symm

theorem WordList.map_word_inj {l l' : List ℕ} (hl : ∀ x ∈ l, x < 2 ^ 11)
    (hl' : ∀ x ∈ l', x < 2 ^ 11) (h : l.map W.word = l'.map W.word) : l = l' := by
  have hback : ∀ l : List ℕ, (∀ x ∈ l, x < 2 ^ 11) → (l.map W.word).map W.index = l.map some :=
    fun l hl => by
      rw [List.map_map]
      exact List.map_congr_left fun x hx => W.index_eq_some.mpr ⟨hl x hx, rfl⟩
  refine List.map_injective_iff.mpr (Option.some_injective ℕ) ?_
  rw [← hback l hl, h, hback l' hl']

theorem packWords_eq_ok {i : ℕ} {d data : Str} {ws : List Text} :
    packWords W i d ws = .ok data ↔
      ∃ idx, (∀ x ∈ idx, x < 2 ^ 11) ∧ idx.map W.word = ws ∧ pack 11 i d idx = data := by
  induction ws generalizing i d with
  | nil =>
    constructor
    · intro h
      exact ⟨[], by simp, rfl, Except.ok.inj h⟩
    · rintro ⟨idx, -, hidx, rfl⟩
      rw [List.map_eq_nil_iff.mp hidx]
      rfl
  | cons w ws ih =>
    rw [packWords]
    cases hw : W.index w with
    | none =>
      simp only [reduceCtorEq, false_iff, not_exists, not_and]
      rintro (- | ⟨x, idx⟩) hlt hmap
      · cases hmap
      · obtain ⟨hx, -⟩ := List.cons.inj hmap
        rw [W.index_eq_some.mpr ⟨hlt x (by simp), hx⟩] at hw
        cases hw
    | some x =>
      obtain ⟨hx, hword⟩ := W.index_eq_some.mp hw
      dsimp only
      rw [ih]
      constructor
      · rintro ⟨idx, hlt, rfl, hdata⟩
        exact ⟨x :: idx, by simpa using ⟨hx, hlt⟩, by rw [List.map_cons, hword], hdata⟩
      · rintro ⟨- | ⟨y, idx⟩, hlt, hmap, hdata⟩
        · cases hmap
        · obtain ⟨hy, hidx⟩ := List.cons.inj hmap
          rw [W.word_inj (hlt y (by simp)) hx (hy.trans hword.symm)] at hdata
          exact ⟨idx, fun z hz => hlt z (by simp [hz]), hidx, hdata⟩

theorem Page.group_eq (data : Str) (i : ℕ) : Page.group data i = Bits.group data (i * 11) 11 := by
  simp only [Page.group, Bits.group, readBit, Nat.shiftRight_eq_div_pow, Nat.reducePow]

theorem Page.setBits_eq (data : Str) (i index : ℕ) :
    Page.setBits data i index = packWord 11 data i index := by
  simp only [Page.setBits, packWord, orBit, Nat.shiftRight_eq_div_pow, Nat.reducePow,
    Nat.add_one_sub_one]

theorem Page.packWords_eq_ok {i : ℕ} {d data : Str} {ws : List Text} :
    Page.packWords W i d ws = .ok data ↔ Phrase.packWords W i d ws = .ok data := by
  induction ws generalizing i d with
  | nil => simp [Page.packWords, Phrase.packWords]
  | cons w ws ih =>
    rw [Page.packWords, Phrase.packWords]
    cases W.index w with
    | none => simp
    | some x =>
      dsimp only
      rw [Page.setBits_eq, ih]

end Words

/-! ## Entropies -/

/-- The lengths of an entropy, by the number of its checksum bits. -/
def Entropy (e : Str) : Prop :=
  e.length ∈ [16, 20, 24, 28, 32]

section Entropies

variable (W : WordList) (T : Texts)

/-- The indices of the words of an entropy. -/
def indices (e : Str) : List ℕ :=
  (List.range ((e.length * 8 + e.length / 4) / 11)).map fun i => group (checked T e) (i * 11) 11

theorem phraseFromEntropy_eq (e : Str) :
    phraseFromEntropy W T e = join ((indices T e).map W.word) := by
  rw [phraseFromEntropy, indices, List.map_map]
  rfl

theorem entropy_iff {e : Str} : Entropy e ↔ ∃ q, 4 ≤ q ∧ q ≤ 8 ∧ e.length = 4 * q := by
  simp only [Entropy, List.mem_cons, List.not_mem_nil, or_false]
  constructor
  · intro h
    exact ⟨e.length / 4, by omega, by omega, by omega⟩
  · rintro ⟨q, hq, hq', h⟩
    omega

variable {q : ℕ} {idx : List ℕ} {e : Str}

theorem indices_lt {x : ℕ} (hx : x ∈ indices T e) : x < 2 ^ 11 := by
  obtain ⟨i, -, rfl⟩ := List.mem_map.mp hx
  exact group_lt ..

theorem length_indices (he : e.length = 4 * q) : (indices T e).length = 3 * q := by
  rw [indices, List.length_map, List.length_range, he]
  omega

theorem indices_eq_iff (he : e.length = 4 * q) (hlen : idx.length = 3 * q)
    (hidx : ∀ x ∈ idx, x < 2 ^ 11) :
    indices T e = idx ↔
      ∀ m < 33 * q, bitAt (checked T e) m = (idx.getD (m / 11) 0).testBit (10 - m % 11) := by
  have hcount : (e.length * 8 + e.length / 4) / 11 = idx.length := by omega
  have hbits : 33 * q = idx.length * 11 := by omega
  rw [indices, hcount, groups_eq_iff _ hidx, hbits]

/-- **The checksum of words fits exactly when they are those of some entropy.** -/
theorem checksum_iff (hq : q ≤ 8) (hlen : idx.length = 3 * q) (hidx : ∀ x ∈ idx, x < 2 ^ 11) :
    let data := pack 11 0 (List.replicate (4 * q + 1) 0) idx
    (data.getD (4 * q) 0).toNat >>> (8 - q) =
        ((T.sha256 (data.take (4 * q))).headD 0).toNat >>> (8 - q) ↔
      ∃ e, e.length = 4 * q ∧ indices T e = idx := by
  obtain ⟨hdata, hbits⟩ := bitAt_pack (w := 11) (n := 4 * q + 1) (by decide) idx (by omega)
  generalize pack 11 0 (List.replicate (4 * q + 1) 0) idx = data at hdata hbits
  dsimp only
  rw [shiftRight_eq_iff hq]
  constructor
  · intro hsum
    have htake : (data.take (4 * q)).length = 4 * q := by rw [List.length_take]; omega
    refine ⟨data.take (4 * q), htake, (indices_eq_iff T htake hlen hidx).mpr fun m hm => ?_⟩
    rw [← hbits]
    rcases Nat.lt_or_ge m (8 * (4 * q)) with hlt | hge
    · rw [checked, bitAt_append_left (by rwa [htake]), bitAt_take hlt]
    · obtain ⟨t, rfl⟩ := Nat.exists_eq_add_of_le hge
      have hright := bitAt_append_right (data.take (4 * q))
        [(T.sha256 (data.take (4 * q))).headD 0] t
      rw [htake] at hright
      rw [checked, hright, ← hsum t (by omega), bitAt_getD _ _ (by omega)]
  · rintro ⟨e, he, hindices⟩ t ht
    have hsame : ∀ m < 33 * q, bitAt (checked T e) m = bitAt data m := fun m hm => by
      rw [hbits]
      exact (indices_eq_iff T he hlen hidx).mp hindices m hm
    have htake : data.take (4 * q) = e := by
      refine ext_bitAt (by rw [List.length_take]; omega) fun k hk => ?_
      rw [List.length_take, Nat.min_eq_left (by omega)] at hk
      rw [bitAt_take hk, ← hsame k (by omega), checked, bitAt_append_left (by rwa [he])]
    have hright := bitAt_append_right e [(T.sha256 e).headD 0] t
    rw [he] at hright
    rw [htake, bitAt_getD _ _ (by omega), ← hsame _ (by omega), ← hright]
    rfl

theorem indices_inj {e' : Str} (he : e.length = 4 * q) (he' : e'.length = 4 * q)
    (h : indices T e = indices T e') : e = e' := by
  have hlen := length_indices T he'
  have hlt : ∀ x ∈ indices T e', x < 2 ^ 11 := fun x => indices_lt T
  refine ext_bitAt (he.trans he'.symm) fun k hk => ?_
  rw [he] at hk
  have hbit := (indices_eq_iff T he hlen hlt).mp h k (by omega)
  rw [← (indices_eq_iff T he' hlen hlt).mp rfl k (by omega), checked, checked,
    bitAt_append_left (by rwa [he]), bitAt_append_left (by rwa [he'])] at hbit
  exact hbit

/-! ## Accepted phrases -/

/-- The checks that words have to pass, in terms of the number of their checksum bits. -/
def Accepted (ws : List Text) : Prop :=
  ∃ q data, 4 ≤ q ∧ q ≤ 8 ∧ ws.length = 3 * q ∧
    packWords W 0 (List.replicate (4 * q + 1) 0) ws = .ok data ∧
    (data.getD (4 * q) 0).toNat >>> (8 - q) =
      ((T.sha256 (data.take (4 * q))).headD 0).toNat >>> (8 - q)

theorem accepted_iff (ws : List Text) :
    Accepted W T ws ↔ ∃ e, Entropy e ∧ (indices T e).map W.word = ws := by
  constructor
  · rintro ⟨q, data, hq, hq', hlen, hpack, hsum⟩
    obtain ⟨idx, hidx, rfl, rfl⟩ := (packWords_eq_ok W).mp hpack
    rw [List.length_map] at hlen
    obtain ⟨e, he, rfl⟩ := (checksum_iff T hq' hlen hidx).mp hsum
    exact ⟨e, entropy_iff.mpr ⟨q, hq, hq', he⟩, rfl⟩
  · rintro ⟨e, hentropy, rfl⟩
    obtain ⟨q, hq, hq', he⟩ := entropy_iff.mp hentropy
    have hlen := length_indices T he
    have hidx : ∀ x ∈ indices T e, x < 2 ^ 11 := fun x => indices_lt T
    exact ⟨q, _, hq, hq', by rw [List.length_map, hlen],
      (packWords_eq_ok W).mpr ⟨_, hidx, rfl, rfl⟩, (checksum_iff T hq' hlen hidx).mpr ⟨e, he, rfl⟩⟩

variable {ws : List Text} {phrase : Text}

theorem validatePhrase_eq_ok (hws : fields (normalizePhrase T phrase) = ws) :
    validatePhrase W T phrase = .ok () ↔ Accepted W T ws := by
  simp only [validatePhrase, hws, bind_eq_ok, guardErr_eq_ok, not_not]
  constructor
  · rintro ⟨-, hcount, data, hpack, hsum⟩
    have hthird : ws.length = 3 * (ws.length / 3) := by omega
    have hbytes : (ws.length * 11 + 7) / 8 = 4 * (ws.length / 3) + 1 := by omega
    have hentropy : ws.length * 11 / 33 * 4 = 4 * (ws.length / 3) := by omega
    have hbits : 4 * (ws.length / 3) / 4 = ws.length / 3 := by omega
    rw [hbytes] at hpack
    rw [hentropy, hbits] at hsum
    exact ⟨ws.length / 3, data, by omega, by omega, hthird, hpack, hsum⟩
  · rintro ⟨q, data, hq, hq', hlen, hpack, hsum⟩
    have hbytes : (ws.length * 11 + 7) / 8 = 4 * q + 1 := by omega
    have hentropy : ws.length * 11 / 33 * 4 = 4 * q := by omega
    have hbits : 4 * q / 4 = q := by omega
    rw [hbytes, hentropy, hbits]
    exact ⟨(), by omega, data, hpack, hsum⟩

theorem Page.validatePhrase_eq_ok (hws : ∀ w ∈ ws, IsWord w)
    (hphrase : Page.normalizePhrase T phrase = join ws) :
    Page.validatePhrase W T phrase = .ok (join ws) ↔ Accepted W T ws := by
  simp only [Page.validatePhrase, hphrase, split_join hws, bind_eq_ok, guardErr_eq_ok, not_not,
    Page.packWords_eq_ok, List.mem_cons, List.not_mem_nil, or_false]
  constructor
  · rintro ⟨-, hcount, data, hpack, -, hsum, -⟩
    have hthird : ws.length = 3 * (ws.length / 3) := by omega
    have hbytes : (ws.length * 11 + 7) / 8 = 4 * (ws.length / 3) + 1 := by omega
    have hentropy : ws.length * 4 / 3 = 4 * (ws.length / 3) := by omega
    have hbits : 4 * (ws.length / 3) / 4 = ws.length / 3 := by omega
    rw [hbytes] at hpack
    rw [hentropy, hbits] at hsum
    exact ⟨ws.length / 3, data, by omega, by omega, hthird, hpack, hsum⟩
  · rintro ⟨q, data, hq, hq', hlen, hpack, hsum⟩
    have hbytes : (ws.length * 11 + 7) / 8 = 4 * q + 1 := by omega
    have hentropy : ws.length * 4 / 3 = 4 * q := by omega
    have hbits : 4 * q / 4 = q := by omega
    rw [hbytes, hentropy, hbits]
    exact ⟨(), by omega, data, hpack, (), hsum, trivial⟩

/-- Words in their normal form: the phrase is in lower case and in the normal form NFKD. -/
structure Texts.Normalised (ws : List Text) : Prop where
  isWord : ∀ w ∈ ws, IsWord w
  toLower : T.toLower (join ws) = join ws
  toLowerCase : T.toLowerCase (join ws) = join ws
  nfkd : T.nfkd (join ws) = join ws

theorem isWord_indices {w : Text} (hw : w ∈ (indices T e).map W.word) : IsWord w := by
  obtain ⟨i, hi, rfl⟩ := List.mem_map.mp hw
  exact W.isWord _ (W.word_mem (indices_lt T hi))

theorem phraseFromEntropy_eq_join (hws : ∀ w ∈ ws, IsWord w) :
    phraseFromEntropy W T e = join ws ↔ (indices T e).map W.word = ws := by
  rw [phraseFromEntropy_eq]
  refine ⟨fun h => ?_, congrArg join⟩
  have hfields := congrArg fields h
  rwa [fields_join fun w => isWord_indices W T, fields_join hws] at hfields

/-- **No two entropies have one phrase.** -/
theorem phraseFromEntropy_inj {e' : Str} (he : Entropy e) (he' : Entropy e')
    (h : phraseFromEntropy W T e = phraseFromEntropy W T e') : e = e' := by
  obtain ⟨q, -, -, hq⟩ := entropy_iff.mp he
  obtain ⟨q', -, -, hq'⟩ := entropy_iff.mp he'
  rw [phraseFromEntropy_eq W T e', phraseFromEntropy_eq_join W T fun w => isWord_indices W T] at h
  have hlen := congrArg List.length h
  rw [List.length_map, List.length_map, length_indices T hq, length_indices T hq'] at hlen
  obtain rfl : q = q' := by omega
  exact indices_inj T hq hq' (W.map_word_inj (fun x => indices_lt T) (fun x => indices_lt T) h)

/-- **Both programs spell an entropy alike, accept the words of entropies and no others, and no two
entropies have one phrase.** -/
theorem recovery_phrases :
    (∀ e, Entropy e → Page.phraseFromEntropy W T e = .ok (phraseFromEntropy W T e)) ∧
    (∀ ws, T.Normalised ws →
      (validatePhrase W T (join ws) = .ok () ↔
        ∃ e, Entropy e ∧ phraseFromEntropy W T e = join ws) ∧
      (Page.validatePhrase W T (join ws) = .ok (join ws) ↔
        ∃ e, Entropy e ∧ phraseFromEntropy W T e = join ws)) ∧
    ∀ e e', Entropy e → Entropy e' →
      phraseFromEntropy W T e = phraseFromEntropy W T e' → e = e' := by
  refine ⟨fun e he => ?_, fun ws hws => ?_, fun e e' => phraseFromEntropy_inj W T⟩
  · have hlength : ¬e.length ∉ [16, 20, 24, 28, 32] := not_not.mpr he
    rw [Page.phraseFromEntropy, if_neg hlength, phraseFromEntropy]
    simp only [Page.group_eq]
    rfl
  · have hledger : fields (normalizePhrase T (join ws)) = ws := by
      rw [normalizePhrase, hws.toLower, fields_join hws.isWord, hws.nfkd, fields_join hws.isWord]
    have hpage : Page.normalizePhrase T (join ws) = join ws := by
      rw [Page.normalizePhrase, hws.toLowerCase, fields_join hws.isWord, hws.nfkd]
    simp only [validatePhrase_eq_ok W T hledger, Page.validatePhrase_eq_ok W T hws.isWord hpage,
      accepted_iff, phraseFromEntropy_eq_join W T hws.isWord, and_self]

end Entropies

/-! ## A sample list -/

/-- The bits of an index, spelled with two letters. -/
def letters (i : ℕ) : Text :=
  (List.range 11).map fun j => if i.testBit j then 'b' else 'a'

theorem letters_inj {i j : ℕ} (hi : i < 2 ^ 11) (hj : j < 2 ^ 11) (h : letters i = letters j) :
    i = j := by
  refine Nat.eq_of_testBit_eq fun k => ?_
  by_cases hk : k < 11
  · have hget := congrArg (·[k]?) h
    simp only [letters, List.getElem?_map, List.getElem?_range hk, Option.map_some,
      Option.some.injEq] at hget
    cases hik : i.testBit k <;> cases hjk : j.testBit k <;> simp [hik, hjk] at hget ⊢
  · have hpow : 2 ^ 11 ≤ 2 ^ k := Nat.pow_le_pow_right (by decide) (Nat.le_of_not_lt hk)
    rw [Nat.testBit_lt_two_pow (hi.trans_le hpow), Nat.testBit_lt_two_pow (hj.trans_le hpow)]

/-- A list of words of letters. -/
def sampleWords : WordList where
  words := (List.range 2048).map letters
  length_eq := by rw [List.length_map, List.length_range]
  nodup := by
    refine List.Nodup.map_on (fun i hi j hj => ?_) List.nodup_range
    exact letters_inj (List.mem_range.mp hi) (List.mem_range.mp hj)
  isWord := by
    intro w hw
    obtain ⟨i, -, rfl⟩ := List.mem_map.mp hw
    refine ⟨fun h => absurd (congrArg List.length h) (by simp [letters]), fun c hc => ?_⟩
    obtain ⟨j, -, rfl⟩ := List.mem_map.mp hc
    split_ifs <;> rfl

/-- Texts with a constant digest. -/
def sampleTexts : Texts where
  sha256 := fun _ => [0xA5]
  toLower := id
  toLowerCase := id
  nfkd := id

theorem normalised_sample {ws : List Text} (h : ∀ w ∈ ws, IsWord w) : sampleTexts.Normalised ws :=
  ⟨h, rfl, rfl, rfl⟩

theorem recovery_phrases_zeros :
    Entropy (List.replicate 16 0) ∧
      validatePhrase sampleWords sampleTexts
        (phraseFromEntropy sampleWords sampleTexts (List.replicate 16 0)) = .ok () ∧
      Page.validatePhrase sampleWords sampleTexts
          (phraseFromEntropy sampleWords sampleTexts (List.replicate 16 0)) =
        Page.phraseFromEntropy sampleWords sampleTexts (List.replicate 16 0) := by
  have hentropy : Entropy (List.replicate 16 0) := by simp [Entropy]
  obtain ⟨hspell, haccept, -⟩ := recovery_phrases sampleWords sampleTexts
  obtain ⟨hledger, hpage⟩ := haccept ((indices sampleTexts (List.replicate 16 0)).map
    sampleWords.word) (normalised_sample fun w => isWord_indices sampleWords sampleTexts)
  have hphrase := phraseFromEntropy_eq sampleWords sampleTexts (List.replicate 16 0)
  have hexists : ∃ e, Entropy e ∧ phraseFromEntropy sampleWords sampleTexts e =
      join ((indices sampleTexts (List.replicate 16 0)).map sampleWords.word) :=
    ⟨List.replicate 16 0, hentropy, hphrase⟩
  rw [hspell _ hentropy, hphrase]
  exact ⟨hentropy, hledger.mpr hexists, hpage.mpr hexists⟩

end Xe.Phrase
