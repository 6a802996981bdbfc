import XeLattice.Prog.Pool

/-!
# Pre- and postconditions of runs

What a program run alone makes of a state: a run that starts in `P` and ends with the outcome `r`
ends in `Q r`.

* the rules for the constructs of the language, where what was read is known of the state until the
  next write: **`triple_bind`**, `triple_rd_bind`, `ReadOnly.triple_bind`;
* **`Keeps.preserves`**, `Maintains.preserves`: what every action keeps, a run preserves.
-/

set_option autoImplicit false

namespace Prog

variable {σ φ α β : Type}

/-- A run from a state of `P` ends in a state of `Q`, by its outcome. -/
def Triple (P : σ → Prop) (p : Prog σ φ α) (Q : Except φ α → σ → Prop) : Prop :=
  ∀ s r s', P s → p.run s = some (r, s') → Q r s'

/-- A run from a state of `I` ends in one. -/
abbrev Preserves (I : σ → Prop) (p : Prog σ φ α) : Prop :=
  Triple I p (fun _ => I)

section Rules

variable {I P : σ → Prop} {p : Prog σ φ α} {k : α → Prog σ φ β} {Q : Except φ α → σ → Prop}
  {Q' : Except φ β → σ → Prop}

theorem triple_done {r : Except φ α} (h : ∀ s, P s → Q r s) :
    Triple P (done r : Prog σ φ α) Q := by
  intro s r' s' hs hrun
  cases hrun
  exact h s hs

theorem preserves_pure (a : α) : Preserves I (pure a : Prog σ φ α) :=
  triple_done fun _ => id

theorem preserves_fail (e : φ) : Preserves I (fail e : Prog σ φ α) :=
  triple_done fun _ => id

theorem Triple.mono {P' : σ → Prop} {Q₁ : Except φ α → σ → Prop} (h : Triple P p Q)
    (hP : ∀ s, P' s → P s) (hQ : ∀ r s, Q r s → Q₁ r s) : Triple P' p Q₁ :=
  fun s r s' hs hrun => hQ r s' (h s r s' (hP s hs) hrun)

theorem triple_of_fact {F : Prop} (hF : ∀ s, P s → F) (h : F → Triple P p Q) : Triple P p Q :=
  fun s r s' hs hrun => h (hF s hs) s r s' hs hrun

theorem triple_bind (hp : Triple P p Q) (herr : ∀ e s, Q (.error e) s → Q' (.error e) s)
    (hk : ∀ a, Triple (Q (.ok a)) (k a) Q') : Triple P (p >>= k) Q' := by
  intro s r s' hs hrun
  rcases run_bind_eq_some.mp hrun with ⟨e, he, rfl⟩ | ⟨a, s₁, ha, hrest⟩
  · exact herr e s' (hp s _ s' hs he)
  · exact hk a s₁ r s' (hp s _ s₁ hs ha) hrest

theorem preserves_bind (hp : Preserves I p) (hk : ∀ a, Preserves I (k a)) :
    Preserves I (p >>= k) :=
  triple_bind hp (fun _ _ => id) hk

theorem triple_rd_bind {f : σ → α} (hk : ∀ a, Triple (fun s => P s ∧ f s = a) (k a) Q') :
    Triple P (rd f >>= k) Q' :=
  fun s r s' hs hrun => hk (f s) s r s' ⟨hs, rfl⟩ hrun

theorem ReadOnly.triple_bind (hp : p.ReadOnly) (herr : ∀ e s, P s → Q' (.error e) s)
    (hk : ∀ a, Triple (fun s => P s ∧ p.run s = some (.ok a, s)) (k a) Q') :
    Triple P (p >>= k) Q' := by
  intro s r s' hs hrun
  rcases (hp.still s).bind_cases hrun with ⟨e, rfl, rfl⟩ | ⟨a, ha, hrest⟩
  · exact herr e s' hs
  · exact hk a s r s' ⟨hs, ha⟩ hrest

theorem triple_ite {c : Prop} [Decidable c] {q : Prog σ φ α} (hp : c → Triple P p Q)
    (hq : ¬ c → Triple P q Q) : Triple P (if c then p else q) Q := by
  by_cases h : c
  · rw [if_pos h]
    exact hp h
  · rw [if_neg h]
    exact hq h

theorem triple_orElse {c : Prop} [Decidable c] {a : α} (hk : ∀ a, Triple P (k a) Q')
    (hp : Preserves P p) (herr : ∀ e s, P s → Q' (.error e) s) :
    Triple P (if c then k a else p >>= k) Q' :=
  triple_ite (fun _ => hk a) fun _ => triple_bind hp herr hk

theorem preserves_orElse {c : Prop} [Decidable c] {a : α} (hk : ∀ a, Preserves I (k a))
    (hp : Preserves I p) : Preserves I (if c then k a else p >>= k) :=
  triple_orElse hk hp fun _ _ => id

theorem preserves_wr {f : σ → σ} (hf : ∀ s, I s → I (f s)) :
    Preserves I (wr f : Prog σ φ Unit) := by
  intro s r s' hs hrun
  cases hrun
  exact hf s hs

theorem triple_wr_bind {f : σ → σ} {q : Prog σ φ β} (hf : ∀ s, P s → I (f s))
    (hq : Triple I q Q') : Triple P ((wr f : Prog σ φ Unit) >>= fun _ => q) Q' :=
  fun s r s' hs hrun => hq (f s) r s' (hf s hs) hrun

theorem triple_forEach_wr_bind {l : List α} {f : α → σ → σ} {q : Prog σ φ β}
    (hf : ∀ a s, I s → I (f a s)) (hq : Triple I q Q') :
    Triple I (forEach l (fun a => (wr (f a) : Prog σ φ Unit)) >>= fun _ => q) Q' := by
  induction l with
  | nil => exact hq
  | cons a l ih => exact fun s r s' hs hrun => ih (f a s) r s' (hf a s hs) hrun

theorem triple_handle {h : Except φ α → Prog σ φ β} (hp : Triple P p Q)
    (hh : ∀ r, Triple (Q r) (h r) Q') : Triple P (p.handle h) Q' := by
  intro s r s' hs hrun
  obtain ⟨r₁, s₁, h₁, h₂⟩ := run_handle_eq_some.mp hrun
  exact hh r₁ s₁ r s' (hp s r₁ s₁ hs h₁) h₂

theorem preserves_forEach {l : List α} {body : α → Prog σ φ Unit}
    (hb : ∀ a ∈ l, Preserves I (body a)) : Preserves I (forEach l body) := by
  induction l with
  | nil => exact preserves_pure ()
  | cons a l ih =>
    exact preserves_bind (hb a List.mem_cons_self) fun _ => ih fun x hx => hb x (.tail _ hx)

theorem triple_deferring {f : σ → σ} (hp : Triple P p fun r s => Q r (f s)) :
    Triple P (p.deferring f) Q := by
  intro s r s' hs hrun
  obtain ⟨s₁, h₁, rfl⟩ := run_deferring_eq_some.mp hrun
  exact hp s r s₁ hs h₁

theorem triple_await_bind {f : σ → Option σ} {q : Prog σ φ β}
    (h : ∀ s s₁, P s → f s = some s₁ → I s₁) (hq : Triple I q Q') :
    Triple P ((await f : Prog σ φ Unit) >>= fun _ => q) Q' := by
  intro s r s' hs hrun
  rcases hf : f s with - | s₁
  · rw [run_bind, run_await, hf] at hrun
    cases hrun
  · have hstart : (await f : Prog σ φ Unit).run s = some (.ok (), s₁) := by
      rw [run_await, hf]
      rfl
    rw [run_bind_of_ok hstart] at hrun
    exact hq s₁ r s' (h s s₁ hs hf) hrun

/-- **What every action keeps, a run preserves.** -/
theorem Keeps.preserves {R : σ → σ → Prop} (hp : p.Keeps R) (hR : ∀ s s', R s s' → I s → I s') :
    Preserves I p := by
  have hinv : p.Keeps (fun s s' => I s → I s') := hp.mono hR
  intro s r s' hs hrun
  exact run_keeps (fun _ => id) (fun _ _ _ h₁ h₂ h => h₂ (h₁ h)) hinv hrun hs

theorem Inert.preserves (hp : p.Inert) : Preserves I p :=
  Keeps.preserves hp fun _ _ h hs => h ▸ hs

theorem ReadOnly.preserves (hp : p.ReadOnly) : Preserves I p :=
  hp.inert.preserves

theorem Maintains.preserves (hp : p.Maintains I) : Preserves I p := by
  intro s r s' hs hrun
  induction p generalizing s with
  | done r₁ =>
    cases hrun
    exact hs
  | act f c ih =>
    rw [run_act] at hrun
    rcases hf : f s with - | ⟨b, s₁⟩
    · simp [hf] at hrun
    · simp only [hf] at hrun
      obtain ⟨hs₁, hc⟩ := hp s b s₁ hs hf
      exact ih b hc s₁ hs₁ hrun

end Rules

end Prog
