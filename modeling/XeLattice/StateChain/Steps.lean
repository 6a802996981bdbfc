import XeLattice.StateChain.Chain
import Mathlib.Logic.Relation

/-!
# What a call of `AddBlock` does

An accepted call leaves the chain as it is or appends its block; an appended block has passed every
check against the contents before it.

* **`addBlock_cases`**: the two ways in which a call succeeds.
-/

set_option autoImplicit false

namespace Xe.StateChain

/-! ## Checks on lists -/

theorem checkAll_eq_ok {α : Type} {check : α → Except GoError Unit} {l : List α} :
    checkAll check l = .ok () ↔ ∀ a ∈ l, check a = .ok () := by
  induction l with
  | nil => simp [checkAll]
  | cons a l ih =>
    rw [checkAll, bind_eq_ok, List.forall_mem_cons, ← ih]
    constructor
    · rintro ⟨⟨⟩, ha, hl⟩
      exact ⟨ha, hl⟩
    · rintro ⟨ha, hl⟩
      exact ⟨(), ha, hl⟩

/-! ## Operations and values -/

section Ops

variable {kv : KVStore} {ops : List Op} {k : Str}

theorem applyOps_cons (kv : KVStore) (op : Op) (ops : List Op) :
    applyOps kv (op :: ops) = applyOps (applyOp kv op) ops := rfl

theorem applyOp_get_of_ne {op : Op} (h : op.key ≠ k) : (applyOp kv op).get k = kv.get k := by
  unfold applyOp
  cases op.action with
  | set => exact Table.get_set_of_ne kv (Ne.symm h) op.value
  | delete => exact Table.get_del_of_ne kv (Ne.symm h)
  | other w => rfl

theorem applyOps_get_of_ne (h : ∀ op ∈ ops, op.key ≠ k) : (applyOps kv ops).get k = kv.get k := by
  induction ops generalizing kv with
  | nil => rfl
  | cons op ops ih =>
    obtain ⟨hop, hops⟩ := List.forall_mem_cons.mp h
    rw [applyOps_cons, ih hops, applyOp_get_of_ne hop]

/-- **Where a value comes from.** A key that no operation deletes keeps its value, or has that of an
operation of the list. -/
theorem applyOps_get_cases (kv : KVStore) (h : ∀ op ∈ ops, op.key = k → op.action ≠ .delete) :
    (applyOps kv ops).get k = kv.get k ∨
      ∃ op ∈ ops, op.action = .set ∧ op.key = k ∧ (applyOps kv ops).get k = some op.value := by
  induction ops generalizing kv with
  | nil => exact .inl rfl
  | cons op ops ih =>
    obtain ⟨hop, hops⟩ := List.forall_mem_cons.mp h
    rw [applyOps_cons]
    obtain hkeep | ⟨op', hmem, hrest⟩ := ih (applyOp kv op) hops
    · by_cases hk : op.key = k
      · cases ha : op.action with
        | set =>
          right
          refine ⟨op, List.mem_cons_self, ha, hk, ?_⟩
          rw [hkeep, ← hk]
          simp [applyOp, ha]
        | delete => exact absurd ha (hop hk)
        | other w =>
          left
          rw [hkeep]
          simp [applyOp, ha]
      · left
        rw [hkeep, applyOp_get_of_ne hk]
    · exact .inr ⟨op', List.mem_cons_of_mem _ hmem, hrest⟩

end Ops

/-! ## Accepted calls -/

section Accepted

variable (lib : Lib) (json : Json)

/-- The chain with one block more. -/
def Chain.appended (c : Chain) (b : Block) : Chain :=
  { c with store := putStateBlock c.store b, kv := applyOps c.kv b.ops, tip := b }

/-- The checks that a new block has passed. -/
structure Admitted (c : Chain) (b : Block) : Prop where
  hash : verifyBlockHash lib b = .ok ()
  above : c.tip.index < b.index
  index : b.index = c.tip.index + 1
  prevHash : b.prevHash = c.tip.hash
  timestamp : c.tip.timestamp ≤ b.timestamp
  ops : b.ops ≠ []
  values : checkValues json b.ops = .ok ()
  size : b.toJSON.length ≤ maxBlockSize
  valid : ∀ op ∈ b.ops, validateOp lib json op = .ok ()
  transition : ∀ op ∈ b.ops, validateTransition lib json c.kv c.tip b op = .ok ()
  authorised : authorise lib json c b = .ok ()

variable {lib json} {c c' : Chain} {b : Block}

theorem addKnown_eq_ok (h : addKnown c b = .ok c') : c' = c := by
  unfold addKnown at h
  dsimp only at h
  split at h
  · cases h
    rfl
  · split_ifs at h
    cases h
    rfl

/-- **An accepted block was known already, or it has passed every check and is appended.** -/
theorem addBlock_cases (h : addBlock lib json c b = .ok c') :
    (b.index ≤ c.tip.index ∧ c' = c) ∨ (Admitted lib json c b ∧ c' = c.appended b) := by
  unfold addBlock at h
  obtain ⟨⟨⟩, hhash, h⟩ := bind_eq_ok.mp h
  split_ifs at h with hle
  · exact .inl ⟨hle, addKnown_eq_ok h⟩
  · obtain ⟨_, hindex, h⟩ := bind_eq_ok.mp h
    obtain ⟨_, hprev, h⟩ := bind_eq_ok.mp h
    obtain ⟨_, htime, h⟩ := bind_eq_ok.mp h
    obtain ⟨_, hops, h⟩ := bind_eq_ok.mp h
    obtain ⟨text, htext, h⟩ := bind_eq_ok.mp h
    obtain ⟨_, hsize, h⟩ := bind_eq_ok.mp h
    obtain ⟨⟨⟩, hvalid, h⟩ := bind_eq_ok.mp h
    obtain ⟨⟨⟩, hauth, h⟩ := bind_eq_ok.mp h
    cases h
    obtain ⟨⟨⟩, hvalues, htext⟩ := bind_eq_ok.mp (mapError_eq_ok.mp htext)
    cases htext
    have hcheck : ∀ op ∈ b.ops, validateOp lib json op = .ok () ∧
        validateTransition lib json c.kv c.tip b op = .ok () := by
      intro op hop
      obtain ⟨⟨⟩, hv, ht⟩ := bind_eq_ok.mp (checkAll_eq_ok.mp hvalid op hop)
      exact ⟨hv, ht⟩
    exact .inr ⟨{
      hash := hhash
      above := by simpa using hle
      index := by simpa using hindex
      prevHash := by simpa using hprev
      timestamp := by simpa using htime
      ops := by simpa using hops
      values := hvalues
      size := by simpa using hsize
      valid := fun op hop => (hcheck op hop).1
      transition := fun op hop => (hcheck op hop).2
      authorised := hauth }, rfl⟩

/-- **A block that passes every check is appended.** -/
theorem Admitted.addBlock (h : Admitted lib json c b) :
    addBlock lib json c b = .ok (c.appended b) := by
  have htext : marshalJSON json b = .ok b.toJSON := bind_eq_ok.mpr ⟨(), h.values, rfl⟩
  have hops : validateOps lib json c b = .ok () := checkAll_eq_ok.mpr fun op hop =>
    bind_eq_ok.mpr ⟨(), h.valid op hop, h.transition op hop⟩
  unfold StateChain.addBlock
  rw [if_neg (UInt64.not_le.mpr h.above), htext, hops, h.authorised]
  exact bind_eq_ok.mpr ⟨(), h.hash, bind_eq_ok.mpr ⟨(), guardErr_eq_ok.mpr (not_not.mpr h.index),
    bind_eq_ok.mpr ⟨(), guardErr_eq_ok.mpr (not_not.mpr h.prevHash),
      bind_eq_ok.mpr ⟨(), guardErr_eq_ok.mpr (Int64.not_lt.mpr h.timestamp),
        bind_eq_ok.mpr ⟨(), guardErr_eq_ok.mpr h.ops, bind_eq_ok.mpr ⟨_, rfl,
          bind_eq_ok.mpr ⟨(), guardErr_eq_ok.mpr (not_lt.mpr h.size), rfl⟩⟩⟩⟩⟩⟩⟩

/-! ## The configuration keys -/

theorem validateOp_not_deleted {op : Op} (h : validateOp lib json op = .ok ())
    (hsys : startsWith op.key (str "sys.") = true) : op.action ≠ .delete := by
  intro ha
  unfold validateOp at h
  obtain ⟨_, _, h⟩ := bind_eq_ok.mp h
  rw [ha] at h
  exact guardErr_eq_ok.mp h hsys

theorem validateOp_value {op : Op} (h : validateOp lib json op = .ok ()) (ha : op.action = .set) :
    op.value ≠ [] ∧ validateSysKeyValue lib json op.key op.value = .ok () := by
  unfold validateOp at h
  obtain ⟨_, _, h⟩ := bind_eq_ok.mp h
  rw [ha] at h
  obtain ⟨_, hne, h⟩ := bind_eq_ok.mp h
  obtain ⟨_, _, h⟩ := bind_eq_ok.mp h
  obtain ⟨_, _, h⟩ := bind_eq_ok.mp h
  exact ⟨guardErr_eq_ok.mp hne, mapError_eq_ok.mp h⟩

/-- A configuration key keeps its value over a block, or has one that the block sets and that has
passed the checks against the contents before the block. -/
theorem Admitted.get_cases (h : Admitted lib json c b) {k : Str}
    (hsys : startsWith k (str "sys.") = true) :
    (c.appended b).kv.get k = c.kv.get k ∨
      ∃ v, (c.appended b).kv.get k = some v ∧ v ≠ [] ∧ validateSysKeyValue lib json k v = .ok () ∧
        validateTransition lib json c.kv c.tip b ⟨.set, k, v⟩ = .ok () := by
  have hdel : ∀ op ∈ b.ops, op.key = k → op.action ≠ .delete := by
    intro op hop hk
    exact validateOp_not_deleted (h.valid op hop) (hk ▸ hsys)
  obtain hkeep | ⟨op, hop, ha, rfl, hget⟩ := applyOps_get_cases c.kv hdel
  · exact .inl hkeep
  · right
    obtain ⟨hne, hvalue⟩ := validateOp_value (h.valid op hop) ha
    have htrans := h.transition op hop
    rw [show op = ⟨.set, op.key, op.value⟩ by rw [← ha]] at htrans
    exact ⟨op.value, hget, hne, hvalue, htrans⟩

/-! ## Runs -/

variable (lib json) in
/-- The chain after a list of blocks was accepted, one after the other, from a genesis block. Calls
that fail or repeat a known block leave the chain as it is. -/
inductive Run (kind : StoreKind) (g : Block) : List Block → Chain → Prop
  | start {c : Chain} (h : newChain lib json kind Table.empty g = .ok c) : Run kind g [] c
  | add {bs : List Block} {c c' : Chain} {b : Block} (h : Run kind g bs c)
      (hnew : c.tip.index < b.index) (hadd : addBlock lib json c b = .ok c') :
      Run kind g (bs ++ [b]) c'

variable (lib json) in
/-- Reached by further calls. -/
def Later : Chain → Chain → Prop :=
  Relation.ReflTransGen fun c c' => ∃ b, addBlock lib json c b = .ok c'

theorem addBlock_new (h : addBlock lib json c b = .ok c') (hnew : c.tip.index < b.index) :
    Admitted lib json c b ∧ c' = c.appended b := by
  obtain ⟨hle, -⟩ | happ := addBlock_cases h
  · exact absurd hle (UInt64.not_le.mpr hnew)
  · exact happ

end Accepted

end Xe.StateChain
