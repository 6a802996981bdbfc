import XeLattice.Prog.Basic

/-!
# Interleaved programs

Calls that run at the same time take turns, one atomic action after the other, over one state.

* **`Pool.invariant`**: what every call ensures holds in every state of every interleaving.
-/

set_option autoImplicit false

namespace Prog

variable {σ φ α β : Type}

/-- From any state of the invariant, every action leads back into it, and the program answers a
value of `Q` or fails. The state may move inside the invariant between two actions. -/
def Ensures (I : σ → Prop) (Q : α → Prop) : Prog σ φ α → Prop
  | done (.ok a) => Q a
  | done (.error _) => True
  | act f k => ∀ s b s', I s → f s = some (b, s') → I s' ∧ (k b).Ensures I Q

/-- Every action of the program keeps the invariant. -/
abbrev Maintains (I : σ → Prop) (p : Prog σ φ α) : Prop :=
  p.Ensures I (fun _ => True)

section Ensures

variable {I : σ → Prop} {Q : α → Prop} {p : Prog σ φ α}

theorem Keeps.maintains {R : σ → σ → Prop} (hR : ∀ s s', R s s' → I s → I s') (hp : p.Keeps R) :
    p.Maintains I := by
  induction p with
  | done r => cases r <;> trivial
  | act f k ih => exact fun s b s' hs hf => ⟨hR s s' (hp.1 s b s' hf) hs, ih b (hp.2 b)⟩

theorem ensures_bind {Q' : β → Prop} {k : α → Prog σ φ β} (hp : p.Ensures I Q)
    (hk : ∀ a, Q a → (k a).Ensures I Q') : (p >>= k).Ensures I Q' := by
  rw [bind_eq]
  induction p with
  | done r =>
    cases r with
    | ok a => exact hk a hp
    | error e => trivial
  | act f c ih =>
    intro s b s' hs hf
    obtain ⟨hs', hc⟩ := hp s b s' hs hf
    exact ⟨hs', ih b hc⟩

theorem ensures_ite {c : Prop} [Decidable c] {q : Prog σ φ α} (hp : p.Ensures I Q)
    (hq : q.Ensures I Q) : (if c then p else q).Ensures I Q := by
  split_ifs
  · exact hp
  · exact hq

theorem maintains_orElse {c : Prop} [Decidable c] {a : α} {k : α → Prog σ φ β}
    (hk : ∀ a, (k a).Maintains I) (hp : p.Maintains I) :
    (if c then k a else p >>= k).Maintains I :=
  ensures_ite (hk a) (ensures_bind hp fun a _ => hk a)

theorem maintains_wr {f : σ → σ} (hf : ∀ s, I s → I (f s)) :
    (wr f : Prog σ φ Unit).Maintains I := by
  intro s b s' hs h
  cases h
  exact ⟨hf s hs, trivial⟩

theorem maintains_handle {h : Except φ α → Prog σ φ β} (hp : p.Maintains I)
    (hh : ∀ r, (h r).Maintains I) : (p.handle h).Maintains I := by
  induction p with
  | done r => exact hh r
  | act f c ih =>
    intro s b s' hs hf
    obtain ⟨hs', hc⟩ := hp s b s' hs hf
    exact ⟨hs', ih b hc⟩

theorem maintains_forEach {l : List α} {body : α → Prog σ φ Unit}
    (hb : ∀ a ∈ l, (body a).Maintains I) : (forEach l body).Maintains I := by
  induction l with
  | nil => trivial
  | cons a l ih =>
    exact ensures_bind (hb a List.mem_cons_self) fun _ _ => ih fun x hx => hb x (.tail _ hx)

theorem ensures_deferring {f : σ → σ} (hp : p.Ensures I Q) (hf : ∀ s, I s → I (f s)) :
    (p.deferring f).Ensures I Q := by
  induction p with
  | done r =>
    intro s b s' hs h
    cases h
    exact ⟨hf s hs, hp⟩
  | act g c ih =>
    intro s b s' hs hg
    obtain ⟨hs', hc⟩ := hp s b s' hs hg
    exact ⟨hs', ih b hc⟩

end Ensures

end Prog

namespace Pool

open Prog

variable {σ φ : Type}

/-- One of the calls starts, or a running one takes its next action. -/
inductive Step (calls : Set (Prog σ φ Unit)) :
    List (Prog σ φ Unit) × σ → List (Prog σ φ Unit) × σ → Prop
  | call {p : Prog σ φ Unit} {ps : List (Prog σ φ Unit)} {s : σ} (h : p ∈ calls) :
      Step calls (ps, s) (p :: ps, s)
  | act {β : Type} {l r : List (Prog σ φ Unit)} {f : σ → Option (β × σ)} {k : β → Prog σ φ Unit}
      {s s' : σ} {b : β} (h : f s = some (b, s')) :
      Step calls (l ++ Prog.act f k :: r, s) (l ++ k b :: r, s')

/-- The interleavings of calls, from a state in which nothing runs. -/
def Reaches (calls : Set (Prog σ φ Unit)) (s₀ s : σ) : Prop :=
  ∃ ps, Relation.ReflTransGen (Step calls) ([], s₀) (ps, s)

variable {calls : Set (Prog σ φ Unit)}

theorem Step.invariant {I : σ → Prop} (hcalls : ∀ p ∈ calls, p.Maintains I)
    {x y : List (Prog σ φ Unit) × σ} (hx : I x.2 ∧ ∀ p ∈ x.1, p.Maintains I)
    (h : Step calls x y) : I y.2 ∧ ∀ p ∈ y.1, p.Maintains I := by
  obtain ⟨hs, hps⟩ := hx
  cases h with
  | call hp => exact ⟨hs, List.forall_mem_cons.mpr ⟨hcalls _ hp, hps⟩⟩
  | act hf =>
    simp only [List.forall_mem_append, List.forall_mem_cons] at hps ⊢
    obtain ⟨hl, hact, hr⟩ := hps
    obtain ⟨hs', hk⟩ := hact _ _ _ hs hf
    exact ⟨hs', hl, hk, hr⟩

theorem steps_invariant {I : σ → Prop} (hcalls : ∀ p ∈ calls, p.Maintains I)
    {x y : List (Prog σ φ Unit) × σ} (hx : I x.2 ∧ ∀ p ∈ x.1, p.Maintains I)
    (h : Relation.ReflTransGen (Step calls) x y) : I y.2 ∧ ∀ p ∈ y.1, p.Maintains I := by
  induction h with
  | refl => exact hx
  | tail _ hstep ih => exact hstep.invariant hcalls ih

/-- **What every call maintains holds in every state of every interleaving.** -/
theorem invariant {I : σ → Prop} (hcalls : ∀ p ∈ calls, p.Maintains I) {s₀ s : σ} (h₀ : I s₀)
    (h : Reaches calls s₀ s) : I s := by
  obtain ⟨ps, h⟩ := h
  exact (steps_invariant hcalls ⟨h₀, by simp⟩ h).1

theorem steps_of_run {p : Prog σ φ Unit} (ps : List (Prog σ φ Unit)) {s s' : σ}
    {r : Except φ Unit} (h : p.run s = some (r, s')) :
    Relation.ReflTransGen (Step calls) (p :: ps, s) (done r :: ps, s') := by
  induction p generalizing s with
  | done r₁ =>
    cases h
    exact .refl
  | act f k ih =>
    rw [run_act] at h
    rcases hf : f s with - | ⟨b, s₁⟩
    · simp [hf] at h
    · simp only [hf] at h
      exact .head (Step.act (l := []) hf) (ih b h)

/-- A call may run from its start to its end while nothing else does. -/
theorem Reaches.run {p : Prog σ φ Unit} {s₀ s s' : σ} {r : Except φ Unit} (h : Reaches calls s₀ s)
    (hp : p ∈ calls) (hrun : p.run s = some (r, s')) : Reaches calls s₀ s' := by
  obtain ⟨ps, h⟩ := h
  exact ⟨done r :: ps, (h.tail (.call hp)).trans (steps_of_run ps hrun)⟩

/-- Calls that run one after the other, each to its end. -/
def runAll : List (Prog σ φ Unit) → σ → Option σ
  | [], s => some s
  | p :: ps, s => (p.run s).bind fun x => runAll ps x.2

theorem Reaches.runAll {ps : List (Prog σ φ Unit)} {s₀ s s' : σ} (h : Reaches calls s₀ s)
    (hps : ∀ p ∈ ps, p ∈ calls) (hrun : runAll ps s = some s') : Reaches calls s₀ s' := by
  induction ps generalizing s with
  | nil =>
    cases hrun
    exact h
  | cons p ps ih =>
    obtain ⟨⟨r, s₁⟩, hp, hrest⟩ := Option.bind_eq_some_iff.mp hrun
    exact ih (h.run (hps p List.mem_cons_self) hp) (fun q hq => hps q (.tail _ hq)) hrest

theorem Reaches.refl (s : σ) : Reaches calls s s :=
  ⟨[], .refl⟩

end Pool
