import Mathlib.Data.List.TakeWhile
import XeLattice.Inv.Restart
import XeLattice.Paging

/-!
# Sync pages

A peer that asks for blocks names the last block it has of every account, and
`findMissingBlocksPaginated` of `net/sync.go` answers with pages: account by account the blocks
behind the one that was named, at most `maxServerBlocks` of them.  A page leaves as soon as it is
full and then announces another one; the page that ends the answer is sent only if blocks are left
over or accounts have to be reported, so that an answer that fills its pages has no end.

* **`sync_pages_iff`**: the answer is right unless it fills its pages and reports no account.
-/

set_option autoImplicit false

namespace Xe

/-! ## The answer of the source -/

/-- `defaultPageSize`. -/
def defaultPageSize : ℕ := 64

/-- `maxPageSize`. -/
def maxPageSize : ℕ := 256

/-- `maxServerBlocks`. -/
def maxServerBlocks : ℕ := 10000

/-- One page of an answer. -/
structure SyncResponse where
  blocks : List Block
  hasMore : Bool
  cursor : Str
  rejected : List Str
  deriving DecidableEq

/-- The page size that a request amounts to. -/
def effectivePageSize (pageSize : ℤ) : ℕ :=
  let pageSize := if pageSize ≤ 0 then (defaultPageSize : ℤ) else pageSize
  (if maxPageSize < pageSize then (maxPageSize : ℤ) else pageSize).toNat

/-- The hash of the last block. -/
def cursorOf (blocks : List Block) : Str :=
  (blocks.getLast?.map Block.hash).getD []

/-- The variables of the goroutine, and the pages it has sent. -/
structure Sender where
  sent : List SyncResponse
  pending : List Block
  rejected : List Str
  totalSent : ℕ
  capHit : Bool

namespace Sender

/-- Nothing sent. -/
def new : Sender := ⟨[], [], [], 0, false⟩

/-- `flushIntermediate`. -/
def flushIntermediate (s : Sender) : Sender :=
  if s.pending = [] then s
  else
    { s with
      sent := s.sent ++ [⟨s.pending, true, cursorOf s.pending, []⟩]
      totalSent := s.totalSent + s.pending.length
      pending := [] }

/-- One block more to send. -/
def append (pageSize : ℕ) (s : Sender) (b : Block) : Sender :=
  let s := { s with pending := s.pending ++ [b] }
  if s.pending.length = pageSize then s.flushIntermediate else s

/-- The loop over the blocks of an account. -/
def sendBlocks (pageSize : ℕ) : List Block → Sender → Sender
  | [], s => s
  | b :: toSend, s =>
    if s.totalSent + s.pending.length ≥ maxServerBlocks then { s with capHit := true }
    else sendBlocks pageSize toSend (s.append pageSize b)

end Sender

/-- The loop over a chain for the blocks behind the remote frontier, and whether that was met. -/
def collectAfter (remoteFrontier : Str) (chain : List Block) : Bool × List Block :=
  chain.foldl (fun (sending, toSend) b =>
    if sending then (true, toSend ++ [b])
    else (decide (b.hash = remoteFrontier), toSend)) (false, [])

section Source

variable (remoteFrontiers : Table Str Str) (st : Store) (pageSize : ℕ)

/-- One pass of the loop over the accounts, behind the check of the cap. -/
def Sender.visit (account : Str) (s : Sender) : Sender :=
  match remoteFrontiers.get account with
  | none => s.sendBlocks pageSize (st.getChain account)
  | some remoteFrontier =>
    if remoteFrontier = (st.frontiers.get account).getD [] then s
    else
      let (sending, toSend) := collectAfter remoteFrontier (st.getChain account)
      if !sending then { s with rejected := s.rejected ++ [account] }
      else s.sendBlocks pageSize toSend

/-- The loop over the accounts. -/
def Sender.visitAll : List Str → Sender → Sender
  | [], s => s
  | account :: accounts, s =>
    if s.totalSent + s.pending.length ≥ maxServerBlocks then { s with capHit := true }
    else
      let s := s.visit remoteFrontiers st pageSize account
      if s.capHit then s else visitAll accounts s

/-- The response behind the loop. -/
def Sender.last (s : Sender) : List SyncResponse :=
  if 0 < s.pending.length ∨ 0 < s.rejected.length then
    [⟨s.pending, false, cursorOf s.pending, s.rejected⟩]
  else []

end Source

/-- `findMissingBlocksPaginated`: the pages sent over the channel.  The accounts are the keys of
`Frontiers` in the order in which the source meets them in the map. -/
def findMissingBlocksPaginated (remoteFrontiers : Table Str Str) (st : Store) (accounts : List Str)
    (pageSize : ℤ) : List SyncResponse :=
  let s := Sender.new.visitAll remoteFrontiers st (effectivePageSize pageSize) accounts
  s.sent ++ s.last

/-! ## What an answer should be -/

section Answer

variable (remote : Table Str Str) (st : Store)

/-- The blocks that the peer lacks of an account: all of them if it does not know the account, and
none if it is up to date or names a block that we do not have. -/
def Store.missing (a : Str) : List Block :=
  match remote.get a with
  | none => st.getChain a
  | some f => ((st.getChain a).dropWhile fun b => decide (b.hash ≠ f)).tail

/-- The peer names a block that is not on our chain. -/
def Store.Unknown (a : Str) : Prop :=
  ∃ f, remote.get a = some f ∧ ∀ b ∈ st.getChain a, b.hash ≠ f

/-- What is missing of some accounts. -/
def Store.lacks (accounts : List Str) : List Block :=
  accounts.flatMap (st.missing remote)

/-- The blocks of the pages. -/
def blocksOf (pages : List SyncResponse) : List Block :=
  pages.flatMap SyncResponse.blocks

/-- **A complete and well terminated answer.**  The cap cuts off what lies behind the first
`maxServerBlocks` missing blocks. -/
structure Answers (n : ℕ) (accounts : List Str) (pages : List SyncResponse) : Prop where
  complete : ∀ pre a post, accounts = pre ++ a :: post →
    (st.lacks remote (pre ++ [a])).length ≤ maxServerBlocks →
    (blocksOf pages).filter (fun b => decide (b.account = a)) = st.missing remote a
  only : ∀ b ∈ blocksOf pages, b.account ∈ accounts ∧ b ∈ st.missing remote b.account
  reported : ∀ pre a post, accounts = pre ++ a :: post →
    (st.lacks remote pre).length < maxServerBlocks →
    (a ∈ pages.flatMap SyncResponse.rejected ↔ st.Unknown remote a)
  once : ((blocksOf pages).map Block.hash).Nodup
  capped : (blocksOf pages).length ≤ maxServerBlocks
  paged : ∀ page ∈ pages, page.blocks.length ≤ n
  ended : ∀ front last, pages = front ++ [last] →
    last.hasMore = false ∧ ∀ page ∈ front, page.hasMore = true

/-- An account that has to be reported is met before the cap. -/
def Store.Reports (accounts : List Str) (a : Str) : Prop :=
  ∃ pre post, accounts = pre ++ a :: post ∧ (st.lacks remote pre).length < maxServerBlocks ∧
    st.Unknown remote a

/-- If the blocks fill their pages, an account is left to be reported. -/
def Store.LeavesOver (n : ℕ) (accounts : List Str) : Prop :=
  min (st.lacks remote accounts).length maxServerBlocks ≠ 0 →
    n ∣ min (st.lacks remote accounts).length maxServerBlocks → ∃ a, st.Reports remote accounts a

end Answer

/-! ## The blocks behind a frontier -/

theorem foldl_collect_true (f : Str) (chain toSend : List Block) :
    chain.foldl (fun (p : Bool × List Block) b =>
      if p.1 then (true, p.2 ++ [b]) else (decide (b.hash = f), p.2)) (true, toSend) =
      (true, toSend ++ chain) := by
  induction chain generalizing toSend with
  | nil => simp
  | cons b chain ih => simpa using ih (toSend ++ [b])

theorem collectAfter_cons (f : Str) (b : Block) (chain : List Block) :
    collectAfter f (b :: chain) = if b.hash = f then (true, chain) else collectAfter f chain := by
  unfold collectAfter
  split_ifs with h
  · simpa [h] using foldl_collect_true f chain []
  · simp [h]

theorem collectAfter_eq (f : Str) (chain : List Block) :
    collectAfter f chain = (decide (∃ b ∈ chain, b.hash = f),
      (chain.dropWhile fun b => decide (b.hash ≠ f)).tail) := by
  induction chain with
  | nil => rfl
  | cons b chain ih =>
    rw [collectAfter_cons]
    by_cases h : b.hash = f
    · simp [h]
    · simp [h, ih]

section Visit

variable {remote : Table Str Str} {st : Store} {a : Str} {n : ℕ}

/-- The frontier of an account is the hash of its last block and of no other. -/
def Store.Fronted (st : Store) (a : Str) : Prop :=
  ∃ init b, st.getChain a = init ++ [b] ∧ st.frontiers.get a = some b.hash ∧
    ∀ x ∈ init, x.hash ≠ b.hash

theorem missing_eq_nil {f : Str} (hf : remote.get a = some f)
    (hne : ∀ b ∈ st.getChain a, b.hash ≠ f) : st.missing remote a = [] := by
  have hdrop : (st.getChain a).dropWhile (fun b => decide (b.hash ≠ f)) = [] :=
    List.dropWhile_eq_nil_iff.mpr fun b hb => decide_eq_true (hne b hb)
  rw [Store.missing, hf]
  show ((st.getChain a).dropWhile _).tail = []
  rw [hdrop, List.tail_nil]

theorem not_unknown {f : Str} (hf : remote.get a = some f)
    (hmet : ∃ b ∈ st.getChain a, b.hash = f) : ¬ st.Unknown remote a := by
  rintro ⟨f', hf', hne⟩
  obtain ⟨b, hb, he⟩ := hmet
  rw [hf] at hf'
  exact hne b hb (he.trans (Option.some.inj hf'))

theorem Store.Fronted.missing_eq_nil (h : st.Fronted a) {f : Str} (hf : remote.get a = some f)
    (he : f = (st.frontiers.get a).getD []) : st.missing remote a = [] ∧ ¬ st.Unknown remote a := by
  obtain ⟨init, b, hchain, hget, hinit⟩ := h
  rw [hget, Option.getD_some] at he
  subst he
  refine ⟨?_, not_unknown hf ⟨b, by simp [hchain], rfl⟩⟩
  have hdrop : init.dropWhile (fun x => decide (x.hash ≠ b.hash)) = [] :=
    List.dropWhile_eq_nil_iff.mpr fun x hx => decide_eq_true (hinit x hx)
  rw [Store.missing, hf, hchain]
  show ((init ++ [b]).dropWhile _).tail = []
  rw [List.dropWhile_append, hdrop]
  simp

/-- What one pass of the loop does: it sends what is missing, or it reports the account. -/
theorem visit_cases (h : st.Fronted a) (s : Sender) :
    (¬ st.Unknown remote a ∧
        s.visit remote st n a = s.sendBlocks n (st.missing remote a)) ∨
      (st.Unknown remote a ∧ st.missing remote a = [] ∧
        s.visit remote st n a = { s with rejected := s.rejected ++ [a] }) := by
  unfold Sender.visit
  cases hf : remote.get a with
  | none =>
    refine .inl ⟨?_, by rw [Store.missing, hf]⟩
    rintro ⟨f, hf', -⟩
    rw [hf] at hf'
    cases hf'
  | some f =>
    dsimp only
    rw [collectAfter_eq]
    by_cases hfront : f = (st.frontiers.get a).getD []
    · obtain ⟨hnil, hknown⟩ := h.missing_eq_nil hf hfront
      rw [if_pos hfront, hnil]
      exact .inl ⟨hknown, rfl⟩
    rw [if_neg hfront]
    by_cases hmet : ∃ b ∈ st.getChain a, b.hash = f
    · refine .inl ⟨not_unknown hf hmet, ?_⟩
      rw [Store.missing, hf]
      simp [hmet]
    · have hne : ∀ b ∈ st.getChain a, b.hash ≠ f := fun b hb he => hmet ⟨b, hb, he⟩
      exact .inr ⟨⟨f, hf, hne⟩, missing_eq_nil hf hne, by simp [hmet]⟩

end Visit

/-! ## The loop over the blocks -/

namespace Sender

variable {s : Sender} {n : ℕ}

/-- The blocks as pages. -/
def pager (s : Sender) : Pager Block :=
  ⟨s.sent.map SyncResponse.blocks, s.pending⟩

/-- Every page that was sent announces another one, and the counter is right. -/
structure Sound (n : ℕ) (s : Sender) : Prop where
  announced : ∀ page ∈ s.sent, page.hasMore = true ∧ page.rejected = []
  counted : s.totalSent = (s.sent.map SyncResponse.blocks).flatten.length
  filled : s.pager.Filled n

theorem Sound.count (h : s.Sound n) :
    s.totalSent + s.pending.length = s.pager.items.length := by
  rw [h.counted, Pager.items, List.length_append]
  rfl

theorem append_cases (n : ℕ) (s : Sender) (b : Block) :
    ((s.pending ++ [b]).length = n ∧ s.append n b = { s with
        sent := s.sent ++ [⟨s.pending ++ [b], true, cursorOf (s.pending ++ [b]), []⟩]
        totalSent := s.totalSent + (s.pending ++ [b]).length
        pending := [] }) ∨
      ((s.pending ++ [b]).length ≠ n ∧ s.append n b = { s with pending := s.pending ++ [b] }) := by
  by_cases hn : (s.pending ++ [b]).length = n
  · refine .inl ⟨hn, ?_⟩
    have hne : s.pending ++ [b] ≠ [] := by simp
    rw [append, if_pos hn, flushIntermediate, if_neg hne]
  · exact .inr ⟨hn, if_neg hn⟩

theorem append_keeps (b : Block) :
    (s.append n b).rejected = s.rejected ∧ (s.append n b).capHit = s.capHit := by
  rcases append_cases n s b with ⟨-, he⟩ | ⟨-, he⟩ <;> exact he ▸ ⟨rfl, rfl⟩

theorem pager_append (b : Block) : (s.append n b).pager = s.pager.push n b := by
  rcases append_cases n s b with ⟨hn, he⟩ | ⟨hn, he⟩
  · rw [he, Pager.push, pager, pager, if_pos hn, List.map_append]
    rfl
  · rw [he, Pager.push, pager, pager, if_neg hn]

theorem Sound.append (h : s.Sound n) (b : Block) : (s.append n b).Sound n := by
  have hfilled : (s.append n b).pager.Filled n := pager_append b ▸ h.filled.push b
  rcases append_cases n s b with ⟨-, he⟩ | ⟨-, he⟩
  · rw [he] at hfilled ⊢
    refine ⟨fun page hpage => ?_, by simp [h.counted], hfilled⟩
    rcases List.mem_append.mp hpage with hold | hnew
    · exact h.announced page hold
    · rw [List.mem_singleton.mp hnew]
      exact ⟨rfl, rfl⟩
  · rw [he] at hfilled ⊢
    exact ⟨h.announced, h.counted, hfilled⟩

theorem sendBlocks_spec (h : s.Sound n) (hc : s.capHit = false) (toSend : List Block) :
    (s.sendBlocks n toSend).Sound n ∧
      (s.sendBlocks n toSend).pager = Pager.pushAll n maxServerBlocks toSend s.pager ∧
      (s.sendBlocks n toSend).rejected = s.rejected ∧
      ((s.sendBlocks n toSend).capHit = true →
        maxServerBlocks ≤ (s.sendBlocks n toSend).pager.items.length) := by
  induction toSend generalizing s with
  | nil => exact ⟨h, rfl, rfl, fun hhit => absurd (hc.symm.trans hhit) Bool.false_ne_true⟩
  | cons b toSend ih =>
    rw [sendBlocks, Pager.pushAll, ← h.count]
    split_ifs with hcap
    · exact ⟨⟨h.announced, h.counted, h.filled⟩, rfl, rfl, fun _ => h.count ▸ hcap⟩
    · have hstep := ih (h.append b) ((append_keeps b).2.trans hc)
      rw [pager_append, (append_keeps b).1] at hstep
      exact hstep

end Sender

/-! ## The loop over the accounts -/

section Walk

variable {remote : Table Str Str} {st : Store} {n : ℕ} {s : Sender} {done accounts : List Str}
  {a : Str}

theorem lacks_append (xs ys : List Str) :
    st.lacks remote (xs ++ ys) = st.lacks remote xs ++ st.lacks remote ys :=
  List.flatMap_append

theorem lacks_singleton (a : Str) : st.lacks remote [a] = st.missing remote a :=
  List.flatMap_singleton _ _

/-- **Where the loop stands**: behind the accounts `done`, as far as the cap let it come. -/
structure Walked (remote : Table Str Str) (st : Store) (n : ℕ) (done : List Str) (s : Sender) :
    Prop where
  sound : s.Sound n
  items : s.pager.items = (st.lacks remote done).take maxServerBlocks
  rejected : ∀ a, a ∈ s.rejected ↔ st.Reports remote done a

theorem reports_concat (x : Str) : st.Reports remote (done ++ [a]) x ↔
    st.Reports remote done x ∨
      (x = a ∧ (st.lacks remote done).length < maxServerBlocks ∧ st.Unknown remote a) := by
  constructor
  · rintro ⟨pre, post, he, hlt, hx⟩
    rcases concat_eq_cases he with ⟨rfl, rfl, -⟩ | ⟨post', -, hdone⟩
    · exact .inr ⟨rfl, hlt, hx⟩
    · exact .inl ⟨pre, post', hdone, hlt, hx⟩
  · rintro (⟨pre, post, rfl, hlt, hx⟩ | ⟨rfl, hlt, hx⟩)
    · exact ⟨pre, post ++ [a], by simp, hlt, hx⟩
    · exact ⟨done, [], rfl, hlt, hx⟩

/-- One account more that the cap does not let the loop come to. -/
theorem Walked.skip (h : Walked remote st n done s)
    (hcap : maxServerBlocks ≤ (st.lacks remote done).length) (a : Str) :
    Walked remote st n (done ++ [a]) s where
  sound := h.sound
  items := by rw [h.items, lacks_append, List.take_append_of_le_length hcap]
  rejected x := by
    rw [h.rejected, reports_concat]
    exact ⟨.inl, fun hx => hx.resolve_right fun ⟨_, hlt, _⟩ => absurd hlt (not_lt.mpr hcap)⟩

theorem Walked.skipAll (h : Walked remote st n done s)
    (hcap : maxServerBlocks ≤ (st.lacks remote done).length) (accounts : List Str) :
    Walked remote st n (done ++ accounts) s := by
  induction accounts generalizing done with
  | nil => rwa [List.append_nil]
  | cons a accounts ih =>
    have hcap' : maxServerBlocks ≤ (st.lacks remote (done ++ [a])).length := by
      rw [lacks_append, List.length_append]
      omega
    simpa using ih (h.skip hcap a) hcap'

theorem Walked.capped_iff (h : Walked remote st n done s) :
    maxServerBlocks ≤ s.pager.items.length ↔ maxServerBlocks ≤ (st.lacks remote done).length := by
  rw [h.items, List.length_take]
  omega

theorem Walked.visit (h : Walked remote st n done s) (hfront : st.Fronted a)
    (hc : s.capHit = false) (hlt : (st.lacks remote done).length < maxServerBlocks) :
    Walked remote st n (done ++ [a]) (s.visit remote st n a) ∧
      ((s.visit remote st n a).capHit = true →
        maxServerBlocks ≤ (s.visit remote st n a).pager.items.length) := by
  have hitems : s.pager.items = st.lacks remote done := by
    rw [h.items, List.take_of_length_le hlt.le]
  rcases visit_cases (n := n) hfront s with ⟨hknown, he⟩ | ⟨hunknown, hnil, he⟩
  · obtain ⟨hsound, hpager, hrej, hhit⟩ :=
      Sender.sendBlocks_spec h.sound hc (st.missing remote a)
    rw [he]
    refine ⟨⟨hsound, ?_, fun x => ?_⟩, hhit⟩
    · have hle : s.pager.items.length ≤ maxServerBlocks := hitems ▸ hlt.le
      rw [hpager, Pager.items_pushAll _ hle, hitems, lacks_append, lacks_singleton]
    · rw [hrej, h.rejected, reports_concat]
      exact ⟨.inl, fun hx => hx.resolve_right fun ⟨_, _, hu⟩ => hknown hu⟩
  · rw [he]
    refine ⟨⟨⟨h.sound.announced, h.sound.counted, h.sound.filled⟩, ?_, fun x => ?_⟩,
      fun hhit => absurd (hc.symm.trans hhit) Bool.false_ne_true⟩
    · rw [lacks_append, lacks_singleton, hnil, List.append_nil]
      exact h.items
    · rw [reports_concat, List.mem_append, h.rejected, List.mem_singleton]
      exact or_congr_right ⟨fun hx => ⟨hx, hlt, hunknown⟩, fun hx => hx.1⟩

theorem Walked.visitAll (h : Walked remote st n done s) (hc : s.capHit = false)
    (hfront : ∀ a ∈ accounts, st.Fronted a) :
    Walked remote st n (done ++ accounts) (s.visitAll remote st n accounts) := by
  induction accounts generalizing done s with
  | nil => rwa [List.append_nil]
  | cons a accounts ih =>
    rw [Sender.visitAll, h.sound.count]
    split_ifs with hcap
    · have hstop : Walked remote st n done { s with capHit := true } :=
        ⟨⟨h.sound.announced, h.sound.counted, h.sound.filled⟩, h.items, h.rejected⟩
      exact hstop.skipAll (h.capped_iff.mp hcap) _
    have hlt : (st.lacks remote done).length < maxServerBlocks :=
      not_le.mp fun hle => hcap (h.capped_iff.mpr hle)
    obtain ⟨hwalked, hhit⟩ := h.visit (hfront a List.mem_cons_self) hc hlt
    dsimp only
    split_ifs with hstop
    · simpa using hwalked.skipAll (hwalked.capped_iff.mp (hhit hstop)) accounts
    · have hrest := ih hwalked (Bool.eq_false_iff.mpr hstop) fun x hx =>
        hfront x (List.mem_cons_of_mem a hx)
      simpa using hrest

theorem walked_new (hn : 0 < n) : Walked remote st n [] Sender.new where
  sound := ⟨by simp [Sender.new], rfl, ⟨by simp [Sender.pager, Sender.new], hn⟩⟩
  items := rfl
  rejected a := by simp [Sender.new, Store.Reports]

end Walk

/-! ## The answer -/

theorem effectivePageSize_pos (pageSize : ℤ) : 0 < effectivePageSize pageSize := by
  unfold effectivePageSize defaultPageSize maxPageSize
  dsimp only
  split_ifs <;> omega

section Answering

variable {remote : Table Str Str} {st : Store} {n : ℕ} {s : Sender} {accounts : List Str}

theorem blocksOf_answer (s : Sender) : blocksOf (s.sent ++ s.last) = s.pager.items := by
  have hlast : s.last.flatMap SyncResponse.blocks = s.pending := by
    unfold Sender.last
    split_ifs with h
    · simp
    · have hnil : s.pending = [] := by
        rw [← List.length_eq_zero_iff]
        omega
      rw [hnil, List.flatMap_nil]
  rw [blocksOf, List.flatMap_append, hlast, List.flatMap_def]
  rfl

theorem rejected_answer (h : s.Sound n) :
    (s.sent ++ s.last).flatMap SyncResponse.rejected = s.rejected := by
  have hsent : s.sent.flatMap SyncResponse.rejected = [] :=
    List.flatMap_eq_nil_iff.mpr fun page hpage => (h.announced page hpage).2
  rw [List.flatMap_append, hsent, List.nil_append]
  unfold Sender.last
  split_ifs with hlast
  · simp
  · have hnil : s.rejected = [] := by
      rw [← List.length_eq_zero_iff]
      omega
    rw [hnil, List.flatMap_nil]

theorem paged_answer (h : s.Sound n) : ∀ page ∈ s.sent ++ s.last, page.blocks.length ≤ n := by
  intro page hpage
  rcases List.mem_append.mp hpage with hsent | hlast
  · exact (h.filled.full _ (List.mem_map_of_mem hsent)).le
  · unfold Sender.last at hlast
    split_ifs at hlast with hl
    · rw [List.mem_singleton.mp hlast]
      exact h.filled.room.le
    · cases hlast

theorem ended_iff (h : s.Sound n) :
    (∀ front last, s.sent ++ s.last = front ++ [last] →
      last.hasMore = false ∧ ∀ page ∈ front, page.hasMore = true) ↔
      (s.pager.items ≠ [] → n ∣ s.pager.items.length → s.rejected ≠ []) := by
  rw [← h.filled.pending_eq_nil_iff]
  unfold Sender.last
  split_ifs with hlast
  · refine ⟨fun _ _ hpend hrej => ?_, fun _ front last he => ?_⟩
    · rw [show s.pending = [] from hpend, hrej] at hlast
      simp at hlast
    · obtain ⟨rfl, rfl⟩ := List.append_inj' he rfl |>.imp id List.singleton_inj.mp
      exact ⟨rfl, fun page hpage => (h.announced page hpage).1⟩
  · have hpend : s.pending = [] := by
      rw [← List.length_eq_zero_iff]
      omega
    have hrej : s.rejected = [] := by
      rw [← List.length_eq_zero_iff]
      omega
    rw [List.append_nil, hrej]
    constructor
    · intro hend hne
      rcases List.eq_nil_or_concat s.sent with hnil | ⟨front, last, he⟩
      · exact absurd (by simp [Pager.items, Sender.pager, hnil, hpend]) hne
      · rw [List.concat_eq_append] at he
        have hlast' := (h.announced last (by rw [he]; simp)).1
        exact absurd (hlast'.symm.trans (hend front last he).1) Bool.noConfusion
    · -- a page was sent, so that the pages are full of blocks and none is left over
      intro hfull front last he
      have hne : s.pager.items ≠ [] := by
        have hlen := (h.filled.full _ (List.mem_map_of_mem (he ▸ by simp : last ∈ s.sent)))
        have hpos := Nat.zero_lt_of_lt h.filled.room
        intro hnil
        have hmem : last.blocks ∈ s.pager.pages := List.mem_map_of_mem (he ▸ by simp : last ∈ s.sent)
        have hflat : s.pager.pages.flatten = [] := (List.append_eq_nil_iff.mp hnil).1
        rw [List.flatten_eq_nil_iff.mp hflat _ hmem] at hlen
        exact absurd hlen hpos.ne
      exact absurd rfl (hfull hne hpend)

end Answering

/-! ## Ledgers -/

section Ledger

variable {s : State} {remote : Table Str Str} {accounts : List Str} {a : Str}

theorem hash_injOn (hk : s.book.Wf) {b b' : Block} {a a' : Str} (hb : b ∈ s.store.getChain a)
    (hb' : b' ∈ s.store.getChain a') (he : b.hash = b'.hash) : b = b' :=
  (Book.On.of_mem hk hb).eq_of_hash hk (Book.On.of_mem hk hb') he

theorem fronted (hk : s.book.Wf) (hd : s.Delegates) (hl : Lists accounts s.store.frontiers)
    (ha : a ∈ accounts) : s.store.Fronted a := by
  have hne : s.book.chain a ≠ [] := (mem_frontiers hd hl a).mp ha
  obtain ⟨init, b, hchain⟩ : ∃ init b, s.book.chain a = init ++ [b] := by
    rcases List.eq_nil_or_concat (s.book.chain a) with hnil | ⟨init, b, hcat⟩
    · exact absurd hnil hne
    · exact ⟨init, b, hcat.trans List.concat_eq_append⟩
  have hget : s.store.getChain a = init ++ [b] := hchain
  refine ⟨init, b, hget, ?_, fun x hx he => ?_⟩
  · rw [hd.frontiers, if_neg hne, hchain, frontier_concat]
  · have hmem : ∀ y ∈ init ++ [b], y ∈ s.store.getChain a := fun y hy => hget ▸ hy
    obtain rfl := hash_injOn hk (hmem x (by simp [hx])) (hmem b (by simp)) he
    have hnodup := hk.nodup a
    rw [hchain, List.nodup_append] at hnodup
    exact hnodup.2.2 x hx x (List.mem_singleton_self x) rfl

theorem missing_suffix (a : Str) : s.store.missing remote a <:+ s.store.getChain a := by
  unfold Store.missing
  cases remote.get a with
  | none => exact List.suffix_rfl
  | some f => exact (List.tail_suffix _).trans (List.dropWhile_suffix _)

theorem mem_chain_of_missing {b : Block} (hb : b ∈ s.store.missing remote a) :
    b ∈ s.store.getChain a :=
  (missing_suffix a).subset hb

theorem account_of_missing (hk : s.book.Wf) {b : Block} (hb : b ∈ s.store.missing remote a) :
    b.account = a :=
  hk.owner a b (mem_chain_of_missing hb)

theorem mem_lacks (hk : s.book.Wf) {b : Block} (hb : b ∈ s.store.lacks remote accounts) :
    b.account ∈ accounts ∧ b ∈ s.store.missing remote b.account := by
  obtain ⟨a, ha, hb⟩ := List.mem_flatMap.mp hb
  rw [account_of_missing hk hb]
  exact ⟨ha, hb⟩

theorem lacks_nodup (hk : s.book.Wf) (hnodup : accounts.Nodup) :
    ((s.store.lacks remote accounts).map Block.hash).Nodup := by
  refine List.Nodup.map_on (fun b hb b' hb' he => ?_) (List.nodup_flatMap.mpr ⟨fun a _ => ?_, ?_⟩)
  · exact hash_injOn hk (mem_chain_of_missing (mem_lacks hk hb).2)
      (mem_chain_of_missing (mem_lacks hk hb').2) he
  · exact (hk.nodup a).sublist (missing_suffix a).sublist
  · refine hnodup.imp fun {a a'} hne b hb hb' => hne ?_
    rw [← account_of_missing hk hb, account_of_missing hk hb']

theorem filter_lacks (hk : s.book.Wf) {xs : List Block}
    (hsub : ∀ b ∈ xs, b ∈ s.store.lacks remote accounts) (ha : a ∉ accounts) :
    xs.filter (fun b => decide (b.account = a)) = [] := by
  refine List.filter_eq_nil_iff.mpr fun b hb he => ha ?_
  rw [← of_decide_eq_true he]
  exact (mem_lacks hk (hsub b hb)).1

/-- Up to the cap, all that is missing of an account is among what is missing. -/
theorem filter_take_lacks (hk : s.book.Wf) {pre post : List Str}
    (hnodup : (pre ++ a :: post).Nodup)
    (hle : (s.store.lacks remote (pre ++ [a])).length ≤ maxServerBlocks) :
    ((s.store.lacks remote (pre ++ a :: post)).take maxServerBlocks).filter
      (fun b => decide (b.account = a)) = s.store.missing remote a := by
  have hsplit : pre ++ a :: post = (pre ++ [a]) ++ post := by simp
  obtain ⟨-, hpost, hdisj⟩ := List.nodup_append.mp hnodup
  have hpre : a ∉ pre := fun h => hdisj a h a List.mem_cons_self rfl
  have hown : ∀ b ∈ s.store.missing remote a, decide (b.account = a) = true :=
    fun b hb => decide_eq_true (account_of_missing hk hb)
  rw [hsplit, lacks_append, List.take_append, List.take_of_length_le hle, lacks_append,
    lacks_singleton, List.filter_append, List.filter_append, List.filter_eq_self.mpr hown,
    filter_lacks hk (fun _ hb => hb) hpre,
    filter_lacks hk (fun _ hb => List.mem_of_mem_take hb) (List.nodup_cons.mp hpost).1,
    List.nil_append, List.append_nil]

/-- **Sync pages** are complete and well terminated exactly when the blocks to send do not fill
their pages, or an account with an unknown frontier is reported. -/
theorem sync_pages_iff {node : Node} {D : Set Str} {ok : State → Op → Prop}
    (hD : IdealHash node.lib D) (hg : GenesisSealed node.lib D node.genesis)
    (h : Reachable node D ok s) (hl : Lists accounts s.store.frontiers)
    (remote : Table Str Str) (pageSize : ℤ) :
    Answers remote s.store (effectivePageSize pageSize) accounts
        (findMissingBlocksPaginated remote s.store accounts pageSize) ↔
      s.store.LeavesOver remote (effectivePageSize pageSize) accounts := by
  have hk := (h.inv hD hg).wf
  have hd := h.delegates hD hg
  have hw : Walked remote s.store (effectivePageSize pageSize) accounts
      (Sender.new.visitAll remote s.store (effectivePageSize pageSize) accounts) := by
    simpa using (walked_new (effectivePageSize_pos pageSize)).visitAll rfl
      fun a ha => fronted hk hd hl ha
  unfold findMissingBlocksPaginated
  dsimp only
  generalize Sender.new.visitAll remote s.store (effectivePageSize pageSize) accounts = sender at hw
  have hlen : sender.pager.items.length =
      min (s.store.lacks remote accounts).length maxServerBlocks := by
    rw [hw.items, List.length_take, min_comm]
  have hreports : sender.rejected ≠ [] ↔ ∃ a, s.store.Reports remote accounts a := by
    refine ⟨fun hne => ?_, fun ⟨a, ha⟩ => List.ne_nil_of_mem ((hw.rejected a).mpr ha)⟩
    obtain ⟨a, ha⟩ := List.exists_mem_of_ne_nil _ hne
    exact ⟨a, (hw.rejected a).mp ha⟩
  have hleaves : (sender.pager.items ≠ [] →
      effectivePageSize pageSize ∣ sender.pager.items.length → sender.rejected ≠ []) ↔
      s.store.LeavesOver remote (effectivePageSize pageSize) accounts := by
    rw [hreports, ← List.length_pos_iff, Nat.pos_iff_ne_zero, hlen]
    rfl
  rw [← hleaves, ← ended_iff hw.sound]
  refine ⟨fun hans => hans.ended, fun hend => ⟨?_, ?_, ?_, ?_, ?_, paged_answer hw.sound, hend⟩⟩
  · rintro pre a post rfl hle
    rw [blocksOf_answer, hw.items, filter_take_lacks hk hl.1 hle]
  · intro b hb
    rw [blocksOf_answer, hw.items] at hb
    exact mem_lacks hk (List.mem_of_mem_take hb)
  · rintro pre a post rfl hlt
    rw [rejected_answer hw.sound, hw.rejected]
    exact ⟨fun ⟨_, _, _, _, hu⟩ => hu, fun hu => ⟨pre, post, rfl, hlt, hu⟩⟩
  · rw [blocksOf_answer, hw.items, List.map_take]
    exact (lacks_nodup hk hl.1).sublist (List.take_sublist _ _)
  · rw [blocksOf_answer, hw.items]
    exact List.length_take_le _ _

end Ledger

/-! ## An answer that fills its pages -/

namespace SampleSync

/-- The accounts of the store. -/
def accounts : List Str := [Sample.address 1, Sample.address 2]

open Sample in
theorem reachable : ∃ s,
    Reachable node (domain [payment, receipt]) (fun _ _ => true = true) s ∧
      s.store.frontiers.keys = accounts.toFinset ∧
      (s.store.lacks .empty accounts).length = 3 ∧
      (findMissingBlocksPaginated .empty s.store accounts 3).map SyncResponse.hasMore = [true] :=
  exists_reachable_adds ctx rfl _ [payment, receipt] (fun _ h => h)
    (by decide +kernel)

theorem lists {s : State} (h : s.store.frontiers.keys = accounts.toFinset) :
    Lists accounts s.store.frontiers :=
  lists_of_keys (by decide +kernel) h

end SampleSync

open SampleSync Sample in
/-- Three blocks leave in a page of two and a page of one. -/
theorem sync_pages_payment : ∃ s,
    Reachable node (domain [payment, receipt]) (fun _ _ => true = true) s ∧
      Lists accounts s.store.frontiers ∧ (s.store.lacks .empty accounts).length = 3 ∧
      Answers .empty s.store 2 accounts (findMissingBlocksPaginated .empty s.store accounts 2) := by
  obtain ⟨s, h, hkeys, hthree, -⟩ := reachable
  refine ⟨s, h, lists hkeys, hthree, (sync_pages_iff payment_ideal (genesis_domain _)
    h (lists hkeys) .empty 2).mpr ?_⟩
  unfold Store.LeavesOver
  rw [hthree]
  exact fun _ hdvd => absurd hdvd (by decide)

open SampleSync Sample in
/-- Three blocks leave in one page of three, which announces another one. -/
theorem sync_pages_unended : ∃ s,
    Reachable node (domain [payment, receipt]) (fun _ _ => true = true) s ∧
      Lists accounts s.store.frontiers ∧
      (findMissingBlocksPaginated .empty s.store accounts 3).map SyncResponse.hasMore = [true] ∧
      ¬ Answers .empty s.store 3 accounts (findMissingBlocksPaginated .empty s.store accounts 3) := by
  obtain ⟨s, h, hkeys, -, hmore⟩ := reachable
  refine ⟨s, h, lists hkeys, hmore, fun hans => ?_⟩
  obtain ⟨page, hpages, hpage⟩ := List.map_eq_singleton_iff.mp hmore
  have hended := (hans.ended [] page hpages).1
  exact absurd (hended.symm.trans hpage) Bool.noConfusion

end Xe
