import XeLattice.SampleLib
import XeLattice.Fairness
import XeLattice.Go.Slices
import Mathlib.Algebra.BigOperators.Group.Finset.Basic

/-!
# The benchmark

A provider solves a chain of puzzles and hashes a memory phase.  Each puzzle is raced for by as many
workers as there are processors; they share a flag, a mutex and the place for the winner.

* **`Race.Inv.step`**: a winner that the flag announces has solved the puzzle;
* **`Race.ends`**: under a fair schedule the race for a puzzle with a solution ends;
* **`benchmark_verifies`**: what the benchmark returns is what the verifier computes.
-/

set_option autoImplicit false

namespace Xe

section Benchmark

variable (lib : Lib)

/-- `puzzleHash`. -/
def puzzleHash (state : Str) (index nonce : UInt64) : Str :=
  lib.sha256 (state ++ be64 index ++ be64 nonce)

/-- `binary.BigEndian.Uint64` of the first bytes of a digest. -/
def digestWord (h : Str) : UInt64 :=
  (uint64BE h).getD 0

/-- A puzzle of the chain. -/
structure Puzzle where
  state : Str
  index : UInt64
  target : UInt64

/-- The nonce solves the puzzle, with this hash. -/
def Puzzle.Solves (p : Puzzle) (nonce : UInt64) (h : Str) : Prop :=
  h = puzzleHash lib p.state p.index nonce ∧ digestWord h ≤ p.target

/-! ## The race for a puzzle -/

/-- Where a worker of `solvePuzzle` is. -/
inductive Race.Phase where
  /-- At the head of the loop. -/
  | search (nonce : UInt64)
  /-- At `mu.Lock()`. -/
  | lock (nonce : UInt64) (h : Str)
  /-- At the second look at the flag. -/
  | test (nonce : UInt64) (h : Str)
  | putNonce (nonce : UInt64) (h : Str)
  | putHash (h : Str)
  | setDone
  | unlock
  | exited
  deriving DecidableEq

/-- The worker has the mutex. -/
def Race.Phase.critical : Race.Phase → Bool
  | .search _ | .lock _ _ | .exited => false
  | _ => true

/-- The variables of `solvePuzzle`, with the worker that has the mutex. -/
structure Race (workers : ℕ) where
  done : Bool
  mu : Option (Fin workers)
  winNonce : UInt64
  winHash : Str
  phase : Fin workers → Race.Phase

namespace Race

variable {workers : ℕ}

/-- A worker goes on to a phase. -/
def goto (r : Race workers) (i : Fin workers) (p : Phase) : Race workers :=
  { r with phase := Function.update r.phase i p }

/-- The start of `solvePuzzle`. -/
def start (workers : ℕ) : Race workers where
  done := false
  mu := none
  winNonce := 0
  winHash := List.replicate 32 0
  phase w := .search (UInt64.ofNat w)

/-- One action of a worker, which may have to wait for the mutex. -/
def step (p : Puzzle) (i : Fin workers) (r : Race workers) : Race workers :=
  match r.phase i with
  | .search nonce =>
    if r.done then r.goto i .exited
    else
      let h := puzzleHash lib p.state p.index nonce
      if digestWord h ≤ p.target then r.goto i (.lock nonce h)
      else r.goto i (.search (nonce + UInt64.ofNat workers))
  | .lock nonce h => if r.mu = none then { r with mu := some i }.goto i (.test nonce h) else r
  | .test nonce h => r.goto i (if r.done then .unlock else .putNonce nonce h)
  | .putNonce nonce h => { r with winNonce := nonce }.goto i (.putHash h)
  | .putHash h => { r with winHash := h }.goto i .setDone
  | .setDone => { r with done := true }.goto i .unlock
  | .unlock => { r with mu := none }.goto i .exited
  | .exited => r

/-- `wg.Wait()` returns. -/
def Ended (r : Race workers) : Prop :=
  ∀ i, r.phase i = .exited

instance (r : Race workers) : Decidable r.Ended :=
  inferInstanceAs (Decidable (∀ _, _))

end Race

/-- `solvePuzzle` returns the nonce and the hash, when its workers are scheduled like this. -/
def SolvePuzzle (p : Puzzle) {workers : ℕ} (schedule : ℕ → Fin workers) (nonce : UInt64) (h : Str) :
    Prop :=
  ∃ t, let r := statesOf (Race.step lib p) (Race.start workers) schedule t
    r.Ended ∧ r.winNonce = nonce ∧ r.winHash = h

/-! ## The chain and its verification -/

/-- `runCPUChain` has come to a state and these nonces after some puzzles. -/
inductive RunCPUChain (seed : Str) (target : UInt64) {workers : ℕ}
    (schedules : ℕ → ℕ → Fin workers) : ℕ → Str → List UInt64 → Prop
  | start : RunCPUChain seed target schedules 0 seed []
  | solve {i : ℕ} {state h : Str} {nonces : List UInt64} {nonce : UInt64} :
      RunCPUChain seed target schedules i state nonces →
      SolvePuzzle lib ⟨state, UInt64.ofNat i, target⟩ (schedules i) nonce h →
      RunCPUChain seed target schedules (i + 1) h (nonces ++ [nonce])

/-- The loop of `verifyCPUChain`. -/
def verifyPuzzles (target : UInt64) : UInt64 → Str → List UInt64 → Except Str Str
  | _, state, [] => .ok state
  | i, state, nonce :: nonces =>
    let h := puzzleHash lib state i nonce
    if target < digestWord h then
      .error (str "puzzle " ++ dec i.toNat ++ str ": nonce " ++ dec nonce.toNat ++
        str " does not meet target")
    else verifyPuzzles target (i + 1) h nonces

/-- `verifyCPUChain`. -/
def verifyCPUChain (seed : Str) (nonces : List UInt64) (puzzles target : UInt64) :
    Except Str Str :=
  if UInt64.ofNat nonces.length ≠ puzzles then
    .error (str "nonce count mismatch: got " ++ dec nonces.length ++ str ", want " ++
      dec puzzles.toNat)
  else verifyPuzzles lib target 0 seed nonces

/-- `PoWTarget`. -/
def powTarget : UInt64 :=
  (0xFFFFFFFFFFFFFFFF : UInt64) >>> 19

/-- `buildMemoryTable`, from the entry behind `prev` on. -/
def buildMemoryTable (prev : Str) (i : UInt64) : ℕ → List Str
  | 0 => []
  | n + 1 =>
    let entry := lib.sha256 (prev ++ be64 i)
    entry :: buildMemoryTable entry (i + 1) n

/-- The bytes that `randomReads` hashes. -/
def readEntries (table : List Str) (idx : ℕ) : ℕ → Str
  | 0 => []
  | n + 1 =>
    let entry := table.getD idx []
    entry ++ readEntries table ((digestWord entry).toNat % table.length) n

/-- `randomReads`. -/
def randomReads (table : List Str) (seed : Str) (reads : ℕ) : Str :=
  lib.sha256 (readEntries table ((digestWord seed).toNat % table.length) reads)

/-- `MemoryPhase`, with `MemoryTableSize` and `MemoryReads`. -/
def memoryPhase (seed : Str) : Str :=
  randomReads lib (buildMemoryTable lib seed 0 8388608) seed 10000000

/-- The part of the result that is certified. -/
structure BenchmarkResult where
  cpuHash : Str
  memoryProof : Str
  finalHash : Str
  nonces : List UInt64

/-- `RunBenchmark` returns the result. -/
def RunBenchmark (seed : Str) (puzzles : UInt64) {workers : ℕ} (schedules : ℕ → ℕ → Fin workers)
    (r : BenchmarkResult) : Prop :=
  RunCPUChain lib seed powTarget schedules puzzles.toNat r.cpuHash r.nonces ∧
    r.memoryProof = memoryPhase lib r.cpuHash ∧
    r.finalHash = lib.sha256 (r.cpuHash ++ r.memoryProof)

/-- `VerifyWork`. -/
def verifyWork (seed : Str) (nonces : List UInt64) (puzzles : UInt64) : Except Str (Str × Str) := do
  let cpuHash ← verifyCPUChain lib seed nonces puzzles powTarget
  return (cpuHash, lib.sha256 (cpuHash ++ memoryPhase lib cpuHash))

end Benchmark

/-! ## The winner has solved the puzzle -/

namespace Race

variable {lib : Lib} {p : Puzzle} {workers : ℕ} {r r' : Race workers} {i w : Fin workers}
  {q : Phase} {goal : UInt64}

/-- What a worker knows in a phase. -/
def Knows (lib : Lib) (p : Puzzle) (r : Race workers) : Phase → Prop
  | .search _ => True
  | .lock nonce h | .test nonce h => p.Solves lib nonce h
  | .putNonce nonce h => r.done = false ∧ p.Solves lib nonce h
  | .putHash h => r.done = false ∧ p.Solves lib r.winNonce h
  | .setDone => r.done = false ∧ p.Solves lib r.winNonce r.winHash
  | .unlock | .exited => r.done = true

/-- The invariant of the race. -/
structure Inv (lib : Lib) (p : Puzzle) (r : Race workers) : Prop where
  won : r.done = true → p.Solves lib r.winNonce r.winHash
  holder : ∀ i, (r.phase i).critical = true ↔ r.mu = some i
  knows : ∀ i, r.Knows lib p (r.phase i)

theorem inv_start : (start workers).Inv lib p where
  won h := Bool.noConfusion h
  holder i := iff_of_false Bool.false_ne_true (Option.some_ne_none i).symm
  knows _ := trivial

/-- Without the mutex, a worker relies on nothing but a flag that is set. -/
theorem Knows.frame (h : r.Knows lib p q) (hq : q.critical = false)
    (hdone : r.done = true → r'.done = true) : r'.Knows lib p q := by
  cases q with
  | search | lock => exact h
  | exited => exact hdone h
  | _ => cases hq

/-- One worker moves; only with the mutex it touches the variables. -/
theorem Inv.move (h : r.Inv lib p) (hphase : r'.phase = Function.update r.phase i q)
    (hmu : ∀ j, j ≠ i → (r'.mu = some j ↔ r.mu = some j)) (hq : q.critical = true ↔ r'.mu = some i)
    (hvars : r'.done = r.done ∧ r'.winNonce = r.winNonce ∧ r'.winHash = r.winHash ∨
      r.mu = some i ∧ (r.done = true → r'.done = true))
    (hwon : r'.done = true → p.Solves lib r'.winNonce r'.winHash) (hknows : r'.Knows lib p q) :
    r'.Inv lib p := by
  refine ⟨hwon, fun j => ?_, fun j => ?_⟩
  · rw [hphase]
    rcases eq_or_ne j i with rfl | hj
    · rw [Function.update_self, hq]
    · rw [Function.update_of_ne hj, h.holder, hmu j hj]
  · rw [hphase]
    rcases eq_or_ne j i with rfl | hj
    · rwa [Function.update_self]
    · rw [Function.update_of_ne hj]
      rcases hvars with ⟨hdone, hnonce, hhash⟩ | ⟨hi, hdone⟩
      · have hk := h.knows j
        unfold Knows at hk ⊢
        rwa [hdone, hnonce, hhash]
      · refine (h.knows j).frame (Bool.eq_false_iff.mpr fun hc => hj ?_) hdone
        exact (Option.some.inj (hi.symm.trans ((h.holder j).mp hc))).symm

theorem Inv.jump (h : r.Inv lib p) (hq : q.critical = (r.phase i).critical)
    (hknows : r.Knows lib p q) : (r.goto i q).Inv lib p :=
  h.move rfl (fun _ _ => .rfl) (by rw [hq]; exact h.holder i) (.inl ⟨rfl, rfl, rfl⟩) h.won
    (by cases q <;> exact hknows)

/-- **Every action keeps the invariant.** -/
theorem Inv.step (h : r.Inv lib p) (i : Fin workers) : (r.step lib p i).Inv lib p := by
  have hknows := h.knows i
  have hholds : (r.phase i).critical = true → r.mu = some i := (h.holder i).mp
  unfold Race.step
  split <;> rename_i hphase <;> rw [hphase] at hknows hholds
  · dsimp only
    split_ifs with hdone hmeets
    · exact h.jump (by rw [hphase]; rfl) hdone
    · exact h.jump (by rw [hphase]; rfl) ⟨rfl, hmeets⟩
    · exact h.jump (by rw [hphase]; rfl) trivial
  · split_ifs with hmu
    · refine h.move rfl (fun j hj => ?_) (iff_of_true rfl rfl) (.inl ⟨rfl, rfl, rfl⟩) h.won hknows
      rw [hmu]
      simpa [goto] using hj.symm
    · exact h
  · refine h.jump ?_ ?_
    · rw [hphase]
      split_ifs <;> rfl
    · split_ifs with hdone
      · exact hdone
      · exact ⟨Bool.eq_false_iff.mpr hdone, hknows⟩
  · exact h.move rfl (fun _ _ => .rfl) (iff_of_true rfl (hholds rfl)) (.inr ⟨hholds rfl, id⟩)
      (fun hdone => absurd hdone (Bool.eq_false_iff.mp hknows.1)) hknows
  · exact h.move rfl (fun _ _ => .rfl) (iff_of_true rfl (hholds rfl)) (.inr ⟨hholds rfl, id⟩)
      (fun hdone => absurd hdone (Bool.eq_false_iff.mp hknows.1)) hknows
  · exact h.move rfl (fun _ _ => .rfl) (iff_of_true rfl (hholds rfl))
      (.inr ⟨hholds rfl, fun _ => rfl⟩) (fun _ => hknows.2) rfl
  · refine h.move rfl (fun j hj => ?_) (iff_of_false Bool.noConfusion nofun)
      (.inl ⟨rfl, rfl, rfl⟩) h.won hknows
    rw [hholds rfl]
    simpa [goto] using hj.symm
  · exact h

theorem Inv.solves (h : r.Inv lib p) (hended : r.Ended) (i : Fin workers) :
    p.Solves lib r.winNonce r.winHash :=
  h.won (by have hk := h.knows i; rwa [hended i] at hk)

/-! ## The race ends -/

/-- How many actions a worker is away from its end, apart from its search. -/
def Phase.weight : Phase → ℕ
  | .search _ => 7
  | .lock _ _ => 6
  | .test _ _ => 5
  | .putNonce _ _ => 4
  | .putHash _ => 3
  | .setDone => 2
  | .unlock => 1
  | .exited => 0

/-- How far the search is from `goal`. -/
def Phase.distance (goal : UInt64) : Phase → ℕ
  | .search nonce => goal.toNat - nonce.toNat
  | _ => 0

/-- The search of `w` counts, that of the others need not come to an end by itself. -/
def cost (goal : UInt64) (w i : Fin workers) (q : Phase) : ℕ :=
  q.weight + if i = w then q.distance goal else 0

/-- What is left to do. -/
def rank (goal : UInt64) (w : Fin workers) (r : Race workers) : ℕ :=
  ∑ i, cost goal w i (r.phase i)

/-- The worker `w` searches towards `goal`. -/
def Heading (goal : UInt64) (w : Fin workers) (r : Race workers) : Prop :=
  ∀ nonce, r.phase w = .search nonce →
    nonce.toNat ≤ goal.toNat ∧ nonce.toNat % workers = goal.toNat % workers

open Classical in
/-- The worker that has the mutex, or one that finds the flag set, or the one with the solution. -/
noncomputable def due (r : Race workers) (w : Fin workers) : Fin workers :=
  match r.mu with
  | some i => i
  | none => if h : r.done = true ∧ ∃ i, r.phase i ≠ .exited then h.2.choose else w

theorem rank_update (goal : UInt64) (w : Fin workers)
    (hphase : r'.phase = Function.update r.phase i q) :
    r'.rank goal w + cost goal w i (r.phase i) = r.rank goal w + cost goal w i q := by
  have herase : ∑ j ∈ Finset.univ.erase i, cost goal w j (r'.phase j) =
      ∑ j ∈ Finset.univ.erase i, cost goal w j (r.phase j) :=
    Finset.sum_congr rfl fun j hj => by
      rw [hphase, Function.update_of_ne (Finset.ne_of_mem_erase hj)]
  unfold rank
  rw [← Finset.add_sum_erase _ _ (Finset.mem_univ i), herase,
    ← Finset.add_sum_erase _ (fun j => cost goal w j (r.phase j)) (Finset.mem_univ i), hphase,
    Function.update_self]
  omega

theorem rank_lt {q₀ : Phase} (hphase : r'.phase = Function.update r.phase i q)
    (hold : r.phase i = q₀) (hq : q.weight < q₀.weight) (hd : q.distance goal = 0) :
    r'.rank goal w < r.rank goal w := by
  subst hold
  have hrank := rank_update goal w hphase
  have hcost : cost goal w i q < cost goal w i (r.phase i) := by
    unfold cost
    split_ifs <;> omega
  omega

theorem next_nonce {nonce : UInt64} (hle : nonce.toNat ≤ goal.toNat) (hne : nonce ≠ goal)
    (hmod : nonce.toNat % workers = goal.toNat % workers) :
    (nonce + UInt64.ofNat workers).toNat = nonce.toNat + workers ∧
      nonce.toNat + workers ≤ goal.toNat := by
  have hlt : nonce.toNat < goal.toNat :=
    lt_of_le_of_ne hle fun h => hne (UInt64.toNat_inj.mp h)
  have hdvd : workers ∣ goal.toNat - nonce.toNat :=
    Nat.dvd_of_mod_eq_zero (Nat.sub_mod_eq_zero_of_mod_eq hmod.symm)
  have hstep := Nat.le_of_dvd (by omega) hdvd
  have hgoal := goal.toNat_lt
  refine ⟨?_, by omega⟩
  rw [UInt64.toNat_add, UInt64.toNat_ofNat', Nat.mod_eq_of_lt (by omega : workers < 2 ^ 64)]
  exact Nat.mod_eq_of_lt (by omega)

/-- What an action does to the rank: it lowers it, or the worker has to wait, has exited, or is
another one than `w` that searches on. -/
theorem rank_step (hgoal : digestWord (puzzleHash lib p.state p.index goal) ≤ p.target)
    (hh : r.Heading goal w) (i : Fin workers) :
    (r.step lib p i).rank goal w < r.rank goal w ∨
      (r.phase i).critical = false ∧ r.step lib p i = r ∧ (r.mu ≠ none ∨ r.phase i = .exited) ∨
      i ≠ w ∧ r.done = false ∧ ∃ nonce nonce', r.phase i = .search nonce ∧
        r.step lib p i = r.goto i (.search nonce') := by
  unfold Race.step
  split <;> rename_i hphase
  · rename_i nonce
    dsimp only
    split_ifs with hdone hmeets
    · exact .inl (rank_lt rfl hphase (by simp [Phase.weight]) rfl)
    · exact .inl (rank_lt rfl hphase (by simp [Phase.weight]) rfl)
    · rcases eq_or_ne i w with rfl | hi
      · left
        obtain ⟨hle, hmod⟩ := hh nonce hphase
        have hnext := next_nonce hle (fun h => hmeets (h ▸ hgoal)) hmod
        have hrank : (r.goto i (.search (nonce + UInt64.ofNat workers))).rank goal i +
            cost goal i i (r.phase i) =
              r.rank goal i + cost goal i i (.search (nonce + UInt64.ofNat workers)) :=
          rank_update goal i rfl
        have hpos := i.pos
        simp only [hphase, cost, Phase.weight, Phase.distance, if_pos, hnext.1] at hrank
        omega
      · exact .inr (.inr ⟨hi, Bool.eq_false_iff.mpr hdone, _, _, hphase, rfl⟩)
  · split_ifs with hmu
    · exact .inl (rank_lt rfl hphase (by simp [Phase.weight]) rfl)
    · exact .inr (.inl ⟨by rw [hphase]; rfl, rfl, .inl hmu⟩)
  · refine .inl (rank_lt rfl hphase ?_ ?_)
    · split_ifs <;> simp [Phase.weight]
    · split_ifs <;> rfl
  · exact .inl (rank_lt rfl hphase (by simp [Phase.weight]) rfl)
  · exact .inl (rank_lt rfl hphase (by simp [Phase.weight]) rfl)
  · exact .inl (rank_lt rfl hphase (by simp [Phase.weight]) rfl)
  · exact .inl (rank_lt rfl hphase (by simp [Phase.weight]) rfl)
  · exact .inr (.inl ⟨by rw [hphase]; rfl, rfl, .inr hphase⟩)

theorem heading_start (hw : w.val = goal.toNat % workers) : (start workers).Heading goal w := by
  rintro nonce h
  cases h
  have hle := Nat.mod_le goal.toNat workers
  have hnonce : (UInt64.ofNat w).toNat = goal.toNat % workers := by
    rw [UInt64.toNat_ofNat', hw]
    exact Nat.mod_eq_of_lt (lt_of_le_of_lt hle goal.toNat_lt)
  rw [hnonce, Nat.mod_mod]
  exact ⟨hle, rfl⟩

theorem Heading.move (hh : r.Heading goal w) (hphase : r'.phase = Function.update r.phase i q)
    (hq : ∀ nonce, i = w → q = .search nonce →
      nonce.toNat ≤ goal.toNat ∧ nonce.toNat % workers = goal.toNat % workers) :
    r'.Heading goal w := by
  intro nonce h
  rw [hphase] at h
  rcases eq_or_ne w i with rfl | hi
  · rw [Function.update_self] at h
    exact hq nonce rfl h
  · rw [Function.update_of_ne hi] at h
    exact hh nonce h

theorem Heading.step (hgoal : digestWord (puzzleHash lib p.state p.index goal) ≤ p.target)
    (hh : r.Heading goal w) (i : Fin workers) : (r.step lib p i).Heading goal w := by
  unfold Race.step
  split <;> rename_i hphase
  · rename_i nonce
    dsimp only
    split_ifs with hdone hmeets
    · exact hh.move rfl nofun
    · exact hh.move rfl nofun
    · refine hh.move rfl fun nonce' hi hq => ?_
      cases hq
      obtain ⟨hle, hmod⟩ := hh nonce (hi ▸ hphase)
      have hnext := next_nonce hle (fun h => hmeets (h ▸ hgoal)) hmod
      rw [hnext.1, Nat.add_mod_right]
      exact ⟨hnext.2, hmod⟩
  · split_ifs with hmu
    · exact hh.move rfl nofun
    · exact hh
  · exact hh.move rfl fun nonce _ hq => by split_ifs at hq
  · exact hh.move rfl nofun
  · exact hh.move rfl nofun
  · exact hh.move rfl nofun
  · exact hh.move rfl nofun
  · exact hh

theorem Inv.due_cases (h : r.Inv lib p) (w : Fin workers) :
    (r.phase (r.due w)).critical = true ∨ r.mu = none ∧ r.phase (r.due w) ≠ .exited ∨
      r.mu = none ∧ r.due w = w ∧ ¬ (r.done = true ∧ ∃ i, r.phase i ≠ .exited) := by
  unfold due
  split
  · next i hmu => exact .inl ((h.holder i).mpr hmu)
  · next hmu =>
    split_ifs with hdone
    · exact .inr (.inl ⟨hmu, hdone.2.choose_spec⟩)
    · exact .inr (.inr ⟨hmu, rfl, hdone⟩)

/-- **The race ends** under a fair schedule, if the puzzle has a solution. -/
theorem ends {schedule : ℕ → Fin workers} (hfair : Fair schedule)
    (hgoal : digestWord (puzzleHash lib p.state p.index goal) ≤ p.target) :
    ∃ t, (statesOf (Race.step lib p) (start workers) schedule t).Ended := by
  -- The worker that comes to the solution, if nobody has found another one before.
  let w : Fin workers := ⟨goal.toNat % workers, Nat.mod_lt _ (schedule 0).pos⟩
  refine Fair.eventually (I := fun r => r.Inv lib p ∧ r.Heading goal w) (rank goal w) (due · w) hfair
    ⟨inv_start, heading_start rfl⟩ (fun i r h => ⟨h.1.step i, h.2.step hgoal i⟩) ?_ ?_
  · rintro r ⟨h, hh⟩ hended
    rcases rank_step hgoal hh (r.due w) with hlow | ⟨hfree, -, hwait⟩ | ⟨hw, hdone, _, _, hphase, -⟩
    · exact hlow
    · rcases h.due_cases w with hc | ⟨hmu, hne⟩ | ⟨hmu, hw, hnot⟩
      · exact absurd hc (Bool.eq_false_iff.mp hfree)
      · exact absurd (hwait.resolve_left (absurd hmu)) hne
      · have hexit := hwait.resolve_left (absurd hmu)
        have hdone := h.knows (r.due w)
        rw [hexit] at hdone
        exact absurd ⟨hdone, not_forall.mp hended⟩ hnot
    · -- Nobody else than `w` is due while it searches and the flag is not set.
      refine absurd ?_ hw
      unfold due at hphase ⊢
      split at hphase
      · next i hmu =>
        have hc := (h.holder i).mpr hmu
        rw [hphase] at hc
        cases hc
      · rw [dif_neg fun hc => absurd hc.1 (Bool.eq_false_iff.mp hdone)]
  · rintro i r ⟨h, hh⟩
    rcases rank_step hgoal hh i with hlow | ⟨-, hsame, -⟩ | ⟨hi, hdone, nonce, nonce', hphase, hnext⟩
    · exact .inl hlow
    · exact .inr ⟨congrArg _ hsame, congrArg (due · w) hsame⟩
    · have hrank : (r.goto i (.search nonce')).rank goal w + cost goal w i (r.phase i) =
          r.rank goal w + cost goal w i (.search nonce') := rank_update goal w rfl
      simp only [hphase, cost, Phase.weight, if_neg hi] at hrank
      rw [hnext]
      refine .inr ⟨by omega, ?_⟩
      simp only [due, goto, hdone, Bool.false_eq_true, false_and, dite_false]

end Race

/-! ## The verifier agrees -/

section Agreement

variable {lib : Lib} {seed state h : Str} {target : UInt64} {workers i : ℕ}
  {schedules : ℕ → ℕ → Fin workers} {nonces : List UInt64}

theorem SolvePuzzle.solves {p : Puzzle} {schedule : ℕ → Fin workers} {nonce : UInt64}
    (hsolve : SolvePuzzle lib p schedule nonce h) : p.Solves lib nonce h := by
  obtain ⟨t, hended, rfl, rfl⟩ := hsolve
  exact (statesOf_invariant Race.inv_start (fun i _ hr => hr.step i) schedule t).solves hended
    (schedule 0)

theorem verifyPuzzles_concat {nonce : UInt64} {j : UInt64} {s : Str}
    (hrest : verifyPuzzles lib target j s nonces = .ok state)
    (hsolve : Puzzle.Solves lib ⟨state, j + UInt64.ofNat nonces.length, target⟩ nonce h) :
    verifyPuzzles lib target j s (nonces ++ [nonce]) = .ok h := by
  induction nonces generalizing j s with
  | nil =>
    cases hrest
    have hj : j + UInt64.ofNat 0 = j := UInt64.add_zero j
    rw [List.length_nil, hj] at hsolve
    obtain ⟨rfl, hmeets⟩ := hsolve
    exact if_neg (UInt64.not_lt.mpr hmeets)
  | cons n nonces ih =>
    simp only [verifyPuzzles] at hrest
    split_ifs at hrest with hlow
    have hj : j + UInt64.ofNat (nonces.length + 1) = j + 1 + UInt64.ofNat nonces.length := by
      rw [UInt64.ofNat_add, UInt64.add_comm (UInt64.ofNat _), ← UInt64.add_assoc]
      rfl
    rw [List.length_cons, hj] at hsolve
    rw [List.cons_append, verifyPuzzles, if_neg hlow]
    exact ih hrest hsolve

theorem RunCPUChain.verifies (hrun : RunCPUChain lib seed target schedules i state nonces) :
    nonces.length = i ∧ verifyPuzzles lib target 0 seed nonces = .ok state := by
  induction hrun with
  | start => exact ⟨rfl, rfl⟩
  | solve _ hsolve ih =>
    obtain ⟨hlen, hverify⟩ := ih
    refine ⟨by rw [List.length_append, hlen]; rfl, verifyPuzzles_concat hverify ?_⟩
    rw [hlen, UInt64.zero_add]
    exact hsolve.solves

theorem verifyCPUChain_of_run {puzzles : UInt64}
    (hrun : RunCPUChain lib seed target schedules puzzles.toNat state nonces) :
    verifyCPUChain lib seed nonces puzzles target = .ok state := by
  obtain ⟨hlen, hverify⟩ := hrun.verifies
  rw [verifyCPUChain, if_neg (by rw [hlen, UInt64.ofNat_toNat]; exact fun hne => hne rfl), hverify]

theorem exists_runCPUChain (hfair : ∀ i, Fair (schedules i)) (n : ℕ)
    (hsolvable : ∀ i < n, ∀ state nonces, RunCPUChain lib seed target schedules i state nonces →
      ∃ nonce h, Puzzle.Solves lib ⟨state, UInt64.ofNat i, target⟩ nonce h) :
    ∃ state nonces, RunCPUChain lib seed target schedules n state nonces := by
  induction n with
  | zero => exact ⟨seed, [], .start⟩
  | succ n ih =>
    obtain ⟨state, nonces, hrun⟩ := ih fun i hi => hsolvable i (by omega)
    obtain ⟨goal, _, rfl, hgoal⟩ := hsolvable n (by omega) state nonces hrun
    obtain ⟨t, hended⟩ := Race.ends (hfair n) hgoal
    exact ⟨_, _, hrun.solve ⟨t, hended, rfl, rfl⟩⟩

/-- **The verifier agrees with the benchmark**: however the workers are scheduled, the nonces that
it returns are accepted and lead to its hashes; and it returns, if the schedules are fair and the
puzzles that it comes to have solutions. -/
theorem benchmark_verifies (lib : Lib) (seed : Str) (puzzles target : UInt64) {workers : ℕ}
    (schedules : ℕ → ℕ → Fin workers) :
    (∀ state nonces, RunCPUChain lib seed target schedules puzzles.toNat state nonces →
      verifyCPUChain lib seed nonces puzzles target = .ok state) ∧
    (∀ r, RunBenchmark lib seed puzzles schedules r →
      verifyWork lib seed r.nonces puzzles = .ok (r.cpuHash, r.finalHash)) ∧
    ((∀ i, Fair (schedules i)) →
      (∀ i < puzzles.toNat, ∀ state nonces,
        RunCPUChain lib seed target schedules i state nonces →
          ∃ nonce h, Puzzle.Solves lib ⟨state, UInt64.ofNat i, target⟩ nonce h) →
      ∃ state nonces, RunCPUChain lib seed target schedules puzzles.toNat state nonces) := by
  refine ⟨fun state nonces => verifyCPUChain_of_run, fun r ⟨hrun, hmem, hfinal⟩ => ?_,
    fun hfair => exists_runCPUChain hfair puzzles.toNat⟩
  rw [verifyWork, verifyCPUChain_of_run hrun, hfinal, hmem]
  rfl

/-- Two workers in turn. -/
def inTurn (_ t : ℕ) : Fin 2 :=
  ⟨t % 2, Nat.mod_lt t Nat.two_pos⟩

theorem fair_inTurn (i : ℕ) : Fair (inTurn i) := by
  refine fun w t => ⟨2 * t + w, by omega, Fin.ext ?_⟩
  change (2 * t + w.val) % 2 = w.val
  omega

/-- Both workers come to a solution, the verifier accepts the first, and the race has to end. -/
theorem benchmark_verifies_inTurn :
    (∃ state, RunCPUChain Sample.lib (str "xe") 0x4000000000000000 inTurn 1 state [16] ∧
      verifyCPUChain Sample.lib (str "xe") [16] 1 0x4000000000000000 = .ok state) ∧
    ∃ state nonces, RunCPUChain Sample.lib (str "xe") 0x4000000000000000 inTurn 1 state nonces := by
  have hrun : RunCPUChain Sample.lib (str "xe") 0x4000000000000000 inTurn 1 _ [16] :=
    .solve .start ⟨34, by decide +kernel, by decide +kernel, rfl⟩
  obtain ⟨haccepts, -, hends⟩ :=
    benchmark_verifies Sample.lib (str "xe") 1 0x4000000000000000 inTurn
  refine ⟨⟨_, hrun, haccepts _ _ hrun⟩, hends fair_inTurn fun i hi state nonces hstart => ?_⟩
  cases Nat.lt_one_iff.mp hi
  cases hstart
  exact ⟨16, _, rfl, by decide +kernel⟩

end Agreement

end Xe
