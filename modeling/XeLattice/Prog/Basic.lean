import Mathlib.Logic.Relation
import Mathlib.Tactic.Common

/-!
# Programs of atomic actions

A program is a tree of atomic actions on a shared state: each action either is blocked in the
current state or answers a value and moves the state, and the rest of the program continues from
the answer.  The same program is executed alone (`Prog.run`) and interleaved with others
(`Pool.Step`).

* `Prog.Keeps R`: every single action of the program stays inside the relation `R`, whatever the
  other programs do; **`Prog.run_keeps`** turns it into a statement about whole runs.
-/

set_option autoImplicit false

/-- A program over states `σ` that ends with a value of `α` or fails with `φ`. -/
inductive Prog (σ φ α : Type) : Type 1
  | done (r : Except φ α)
  | act {β : Type} (f : σ → Option (β × σ)) (k : β → Prog σ φ α)

namespace Prog

variable {σ φ α β γ : Type}

/-- Sequential composition: `k` is not reached when `p` fails. -/
def bind (p : Prog σ φ α) (k : α → Prog σ φ β) : Prog σ φ β :=
  match p with
  | done (.ok a) => k a
  | done (.error e) => done (.error e)
  | act f c => act f (fun b => (c b).bind k)

instance : Monad (Prog σ φ) where
  pure a := done (.ok a)
  bind := bind

/-- Ends with an error. -/
def fail (e : φ) : Prog σ φ α :=
  done (.error e)

/-- Reads the state. -/
def rd (f : σ → α) : Prog σ φ α :=
  act (fun s => some (f s, s)) (fun a => done (.ok a))

/-- Writes the state. -/
def wr (f : σ → σ) : Prog σ φ Unit :=
  act (fun s => some ((), f s)) (fun _ => done (.ok ()))

/-- An atomic transaction: it fails without effect, or answers and moves the state. -/
def txn (f : σ → Except φ (α × σ)) : Prog σ φ α :=
  act (fun s => match f s with
    | .ok (a, s') => some (.ok a, s')
    | .error e => some (.error e, s)) done

/-- A step that waits until `f` answers. -/
def await (f : σ → Option σ) : Prog σ φ Unit :=
  act (fun s => (f s).map (fun s' => ((), s'))) (fun _ => done (.ok ()))

/-- Fails with `e` when `c` holds. -/
def failIf (c : Prop) [Decidable c] (e : φ) : Prog σ φ Unit :=
  if c then fail e else done (.ok ())

/-- The value of `x`, or failure with `e`. -/
def orFail (x : Option α) (e : φ) : Prog σ φ α :=
  match x with
  | some a => done (.ok a)
  | none => fail e

/-- Runs the cleanup `f` once `p` is done, however it ended. -/
def deferring (p : Prog σ φ α) (f : σ → σ) : Prog σ φ α :=
  match p with
  | done r => act (fun s => some ((), f s)) (fun _ => done r)
  | act g k => act g (fun b => (k b).deferring f)

/-- Continues with `h` on the outcome of `p`, failures included. -/
def handle (p : Prog σ φ α) (h : Except φ α → Prog σ φ β) : Prog σ φ β :=
  match p with
  | done r => h r
  | act f k => act f (fun b => (k b).handle h)

/-- The loop over a list, one body after the other. -/
def forEach (l : List α) (body : α → Prog σ φ Unit) : Prog σ φ Unit :=
  match l with
  | [] => done (.ok ())
  | a :: l => (body a).bind (fun _ => forEach l body)

/-! ## Running a program alone -/

/-- The run of a program alone: `none` when an action is blocked. -/
def run (p : Prog σ φ α) (s : σ) : Option (Except φ α × σ) :=
  match p with
  | done r => some (r, s)
  | act f k =>
    match f s with
    | none => none
    | some (b, s') => (k b).run s'

section Run

variable {p : Prog σ φ α} {k : α → Prog σ φ β} {s s' : σ}

@[simp] theorem run_done (r : Except φ α) (s : σ) : (done r : Prog σ φ α).run s = some (r, s) := rfl

@[simp] theorem run_pure (a : α) (s : σ) :
    (pure a : Prog σ φ α).run s = some (.ok a, s) := rfl

@[simp] theorem run_fail (e : φ) (s : σ) :
    (fail e : Prog σ φ α).run s = some (.error e, s) := rfl

@[simp] theorem run_rd (f : σ → α) (s : σ) :
    (rd f : Prog σ φ α).run s = some (.ok (f s), s) := rfl

@[simp] theorem run_wr (f : σ → σ) (s : σ) :
    (wr f : Prog σ φ Unit).run s = some (.ok (), f s) := rfl

theorem run_act (f : σ → Option (γ × σ)) (c : γ → Prog σ φ α) (s : σ) :
    (act f c).run s = match f s with
      | none => none
      | some (b, s') => (c b).run s' := by
  rw [run]

theorem run_await (f : σ → Option σ) (s : σ) :
    (await f : Prog σ φ Unit).run s = (f s).map (fun s' => (.ok (), s')) := by
  unfold await
  cases h : f s <;> simp [run_act, h]

@[simp] theorem run_failIf (c : Prop) [Decidable c] (e : φ) (s : σ) :
    (failIf c e : Prog σ φ Unit).run s = some (if c then .error e else .ok (), s) := by
  unfold failIf
  split_ifs <;> rfl

theorem bind_eq (p : Prog σ φ α) (k : α → Prog σ φ β) : p >>= k = p.bind k := rfl

theorem bind_assoc (p : Prog σ φ α) (f : α → Prog σ φ β) (g : β → Prog σ φ γ) :
    p >>= f >>= g = p >>= fun a => f a >>= g := by
  simp only [bind_eq]
  induction p with
  | done r => cases r <;> rfl
  | act h c ih => exact congrArg (act h) (funext fun b => ih b)

theorem run_bind (p : Prog σ φ α) (k : α → Prog σ φ β) (s : σ) :
    (p >>= k).run s = match p.run s with
      | none => none
      | some (.ok a, s') => (k a).run s'
      | some (.error e, s') => some (.error e, s') := by
  rw [bind_eq]
  induction p generalizing s with
  | done r => cases r <;> rfl
  | act f c ih =>
    simp only [bind, run_act]
    cases f s with
    | none => rfl
    | some x => exact ih x.1 x.2

theorem run_bind_of_ok {a : α} (h : p.run s = some (.ok a, s')) :
    (p >>= k).run s = (k a).run s' := by
  rw [run_bind, h]

theorem run_bind_of_error {e : φ} (h : p.run s = some (.error e, s')) :
    (p >>= k).run s = some (.error e, s') := by
  rw [run_bind, h]

@[simp] theorem run_rd_bind (f : σ → α) (k : α → Prog σ φ β) (s : σ) :
    (rd f >>= k).run s = (k (f s)).run s := rfl

@[simp] theorem run_wr_bind (f : σ → σ) (k : Unit → Prog σ φ β) (s : σ) :
    (wr f >>= k).run s = (k ()).run (f s) := rfl

@[simp] theorem run_pure_bind (a : α) (k : α → Prog σ φ β) (s : σ) :
    ((pure a : Prog σ φ α) >>= k).run s = (k a).run s := rfl

@[simp] theorem run_fail_bind (e : φ) (k : α → Prog σ φ β) (s : σ) :
    ((fail e : Prog σ φ α) >>= k).run s = some (.error e, s) := rfl

theorem run_failIf_bind (c : Prop) [Decidable c] (e : φ) (k : Unit → Prog σ φ β) (s : σ) :
    (failIf c e >>= k).run s = if c then some (.error e, s) else (k ()).run s := by
  unfold failIf
  split_ifs <;> rfl

theorem run_bind_eq_ok {b : β} :
    (p >>= k).run s = some (.ok b, s') ↔
      ∃ a s₁, p.run s = some (.ok a, s₁) ∧ (k a).run s₁ = some (.ok b, s') := by
  rw [run_bind]
  rcases p.run s with - | ⟨- | a, s₁⟩ <;> simp [and_assoc]

theorem run_bind_ne_none (hp : p.run s ≠ none)
    (hk : ∀ a s', p.run s = some (.ok a, s') → (k a).run s' ≠ none) : (p >>= k).run s ≠ none := by
  rw [run_bind]
  rcases hrun : p.run s with - | ⟨e | a, s₁⟩
  · exact absurd hrun hp
  · exact Option.some_ne_none _
  · exact hk a s₁ hrun

theorem run_bind_eq_some {r : Except φ β} :
    (p >>= k).run s = some (r, s') ↔
      (∃ e, p.run s = some (.error e, s') ∧ r = .error e) ∨
        ∃ a s₁, p.run s = some (.ok a, s₁) ∧ (k a).run s₁ = some (r, s') := by
  rw [run_bind]
  rcases p.run s with - | ⟨- | a, s₁⟩
  · simp
  · simp only [Option.some.injEq, Prod.mk.injEq, reduceCtorEq, false_and, exists_false, or_false,
      Except.error.injEq]
    constructor
    · rintro ⟨rfl, rfl⟩
      exact ⟨_, ⟨rfl, rfl⟩, rfl⟩
    · rintro ⟨e, ⟨rfl, rfl⟩, rfl⟩
      exact ⟨rfl, rfl⟩
  · simp [and_assoc]

theorem run_failIf_bind_eq_ok {c : Prop} [Decidable c] {e : φ} {k : Unit → Prog σ φ β} {b : β} :
    (failIf c e >>= k).run s = some (.ok b, s') ↔ ¬c ∧ (k ()).run s = some (.ok b, s') := by
  rw [run_failIf_bind]
  split_ifs with h <;> simp [h]

theorem run_orFail_bind_eq_ok {x : Option α} {e : φ} {b : β} :
    (orFail x e >>= k).run s = some (.ok b, s') ↔
      ∃ a, x = some a ∧ (k a).run s = some (.ok b, s') := by
  cases x with
  | none => simp [orFail, run_bind]
  | some a => simp [orFail, run_bind]

theorem run_deferring (p : Prog σ φ α) (f : σ → σ) (s : σ) :
    (p.deferring f).run s = (p.run s).map (fun x => (x.1, f x.2)) := by
  induction p generalizing s with
  | done r => rfl
  | act g c ih =>
    simp only [deferring, run_act]
    cases g s with
    | none => rfl
    | some x => exact ih x.1 x.2

theorem run_deferring_eq_some {f : σ → σ} {r : Except φ α} :
    (p.deferring f).run s = some (r, s') ↔ ∃ s₁, p.run s = some (r, s₁) ∧ f s₁ = s' := by
  rw [run_deferring]
  rcases p.run s with - | ⟨r₁, s₁⟩ <;> simp [and_assoc]

theorem run_handle (p : Prog σ φ α) (h : Except φ α → Prog σ φ β) (s : σ) :
    (p.handle h).run s = match p.run s with
      | none => none
      | some (r, s') => (h r).run s' := by
  induction p generalizing s with
  | done r => rfl
  | act g c ih =>
    simp only [handle, run_act]
    cases g s with
    | none => rfl
    | some x => exact ih x.1 x.2

theorem run_handle_eq_some {h : Except φ α → Prog σ φ β} {r : Except φ β} :
    (p.handle h).run s = some (r, s') ↔
      ∃ r₁ s₁, p.run s = some (r₁, s₁) ∧ (h r₁).run s₁ = some (r, s') := by
  rw [run_handle]
  rcases p.run s with - | ⟨r₁, s₁⟩ <;> simp [and_assoc]

end Run

/-! ## What every action satisfies -/

/-- Every action of the program satisfies `A`. -/
def Each (A : (β : Type) → (σ → Option (β × σ)) → Prop) : Prog σ φ α → Prop
  | done _ => True
  | act f k => A _ f ∧ ∀ b, (k b).Each A

section Each

variable {A : (β : Type) → (σ → Option (β × σ)) → Prop} {p : Prog σ φ α}

@[simp] theorem each_done (r : Except φ α) : (done r : Prog σ φ α).Each A := trivial

@[simp] theorem each_pure (a : α) : (pure a : Prog σ φ α).Each A := trivial

@[simp] theorem each_fail (e : φ) : (fail e : Prog σ φ α).Each A := trivial

@[simp] theorem each_failIf (c : Prop) [Decidable c] (e : φ) :
    (failIf c e : Prog σ φ Unit).Each A := by
  unfold failIf
  split_ifs <;> trivial

@[simp] theorem each_orFail (x : Option α) (e : φ) : (orFail x e : Prog σ φ α).Each A := by
  cases x <;> trivial

theorem each_ite {c : Prop} [Decidable c] {q : Prog σ φ α} (hp : p.Each A) (hq : q.Each A) :
    (if c then p else q).Each A := by
  split_ifs
  · exact hp
  · exact hq

/-- The answers that a program may give. -/
def Returns : Prog σ φ α → α → Prop
  | done (.ok a), x => a = x
  | done (.error _), _ => False
  | act _ k, x => ∃ b, (k b).Returns x

/-- The actions of a sequence, in a form that lets `simp` go through a program. -/
@[simp] theorem each_bind_iff {k : α → Prog σ φ β} :
    (p >>= k).Each A ↔ p.Each A ∧ ∀ a, p.Returns a → (k a).Each A := by
  rw [bind_eq]
  induction p with
  | done r => cases r <;> simp [Each, Returns, Prog.bind]
  | act f c ih =>
    simp only [Prog.bind, Each, ih, Returns]
    constructor
    · rintro ⟨h, hk⟩
      refine ⟨⟨h, fun b => (hk b).1⟩, ?_⟩
      rintro a ⟨b, hb⟩
      exact (hk b).2 a hb
    · rintro ⟨⟨h, hk⟩, hr⟩
      exact ⟨h, fun b => ⟨hk b, fun a ha => hr a ⟨b, ha⟩⟩⟩

theorem each_bind {k : α → Prog σ φ β} (hp : p.Each A) (hk : ∀ a, (k a).Each A) :
    (p >>= k).Each A :=
  each_bind_iff.mpr ⟨hp, fun a _ => hk a⟩

theorem each_guard {c : Prop} [Decidable c] {e : φ} (hp : p.Each A) :
    (failIf c e >>= fun _ => p).Each A :=
  each_bind (each_failIf c e) fun _ => hp

theorem each_when {c : Prop} [Decidable c] {rest : Prog σ φ β} (hrest : rest.Each A)
    (hp : p.Each A) : (if c then p >>= fun _ => rest else rest).Each A :=
  each_ite (each_bind hp fun _ => hrest) hrest

theorem each_orElse {c : Prop} [Decidable c] {a : α} {k : α → Prog σ φ β}
    (hk : ∀ a, (k a).Each A) (hp : p.Each A) : (if c then k a else p >>= k).Each A :=
  each_ite (hk a) (each_bind hp hk)

theorem each_handle {h : Except φ α → Prog σ φ β} (hp : p.Each A) (hh : ∀ r, (h r).Each A) :
    (p.handle h).Each A := by
  induction p with
  | done r => exact hh r
  | act g c ih => exact ⟨hp.1, fun b => ih b (hp.2 b)⟩

theorem each_forEach {l : List α} {body : α → Prog σ φ Unit}
    (hb : ∀ a ∈ l, (body a).Each A) : (forEach l body).Each A := by
  induction l with
  | nil => trivial
  | cons a l ih =>
    exact each_bind (hb a List.mem_cons_self) (fun _ => ih (fun x hx => hb x (.tail _ hx)))

theorem Each.mono {A' : (β : Type) → (σ → Option (β × σ)) → Prop} (h : ∀ β f, A β f → A' β f)
    (hp : p.Each A) : p.Each A' := by
  induction p with
  | done r => trivial
  | act f c ih => exact ⟨h _ f hp.1, fun b => ih b (hp.2 b)⟩

end Each

/-! ## Relations kept by every action -/

/-- Every action of the program, from any state, moves the state inside `R`. -/
abbrev Keeps (R : σ → σ → Prop) (p : Prog σ φ α) : Prop :=
  p.Each fun _ f => ∀ s b s', f s = some (b, s') → R s s'

section Keeps

variable {R : σ → σ → Prop} {p : Prog σ φ α}

theorem keeps_wr {f : σ → σ} (hf : ∀ s, R s (f s)) : (wr f : Prog σ φ Unit).Keeps R := by
  refine ⟨fun s b s' h => ?_, fun _ => trivial⟩
  cases h
  exact hf s

theorem keeps_txn {f : σ → Except φ (α × σ)} (hR : ∀ s, R s s)
    (hf : ∀ s a s', f s = .ok (a, s') → R s s') : (txn f).Keeps R := by
  refine ⟨fun s b s' h => ?_, fun _ => trivial⟩
  cases hfs : f s with
  | ok x =>
    simp only [hfs, Option.some.injEq, Prod.mk.injEq] at h
    exact h.2 ▸ hf s x.1 x.2 hfs
  | error e =>
    simp only [hfs, Option.some.injEq, Prod.mk.injEq] at h
    exact h.2 ▸ hR s

theorem keeps_await {f : σ → Option σ} (hf : ∀ s s', f s = some s' → R s s') :
    (await f : Prog σ φ Unit).Keeps R := by
  refine ⟨fun s b s' h => ?_, fun _ => trivial⟩
  obtain ⟨s₁, h₁, h₂⟩ := Option.map_eq_some_iff.mp h
  cases h₂
  exact hf s _ h₁

theorem keeps_deferring {f : σ → σ} (hp : p.Keeps R) (hf : ∀ s, R s (f s)) :
    (p.deferring f).Keeps R := by
  induction p with
  | done r =>
    refine ⟨fun s b s' h => ?_, fun _ => trivial⟩
    cases h
    exact hf s
  | act g c ih => exact ⟨hp.1, fun b => ih b (hp.2 b)⟩

theorem Keeps.mono {R' : σ → σ → Prop} (hRR' : ∀ s s', R s s' → R' s s') (hp : p.Keeps R) :
    p.Keeps R' :=
  Each.mono (fun _ _ hf s b s' h => hRR' s s' (hf s b s' h)) hp

/-- **A run of a program that keeps `R` ends in a state related to where it started.** -/
theorem run_keeps (hrefl : ∀ s, R s s) (htrans : ∀ s₁ s₂ s₃, R s₁ s₂ → R s₂ s₃ → R s₁ s₃)
    (hp : p.Keeps R) {s s' : σ} {r : Except φ α} (h : p.run s = some (r, s')) : R s s' := by
  induction p generalizing s with
  | done r₁ =>
    cases h
    exact hrefl _
  | act f c ih =>
    rw [run_act] at h
    rcases hf : f s with - | ⟨b, s₁⟩
    · simp [hf] at h
    · simp only [hf] at h
      exact htrans _ _ _ (hp.1 s b s₁ hf) (ih b (hp.2 b) h)

end Keeps

/-- Every action of the program that answers leaves the state as it is. -/
abbrev Inert (p : Prog σ φ α) : Prop :=
  p.Keeps Eq

theorem Inert.keeps {R : σ → σ → Prop} (hR : ∀ s, R s s) {p : Prog σ φ α} (hp : p.Inert) :
    p.Keeps R :=
  Keeps.mono (fun s _ h => Eq.subst h (hR s)) hp

theorem run_inert {p : Prog σ φ α} (hp : p.Inert) {s s' : σ} {r : Except φ α}
    (h : p.run s = some (r, s')) : s' = s :=
  (run_keeps (fun _ => rfl) (fun _ _ _ => Eq.trans) hp h).symm

/-- Every action of the program answers, and leaves the state as it is. -/
abbrev ReadOnly (p : Prog σ φ α) : Prop :=
  p.Each fun _ f => ∀ s, ∃ b, f s = some (b, s)

theorem ReadOnly.inert {p : Prog σ φ α} (hp : p.ReadOnly) : p.Inert :=
  Each.mono (fun _ f hf s b s' h => by
    obtain ⟨b', hb⟩ := hf s
    rw [hb] at h
    cases h
    rfl) hp

theorem run_readOnly {p : Prog σ φ α} (hp : p.ReadOnly) {s s' : σ} {r : Except φ α}
    (h : p.run s = some (r, s')) : s' = s :=
  run_inert hp.inert h

@[simp] theorem readOnly_rd (f : σ → α) : (rd f : Prog σ φ α).ReadOnly :=
  ⟨fun s => ⟨f s, rfl⟩, fun _ => trivial⟩

theorem ReadOnly.of_bind_ok {p : Prog σ φ α} {k : α → Prog σ φ β} {s s' : σ} {b : β}
    (hp : p.ReadOnly) (h : (p >>= k).run s = some (.ok b, s')) :
    ∃ a, p.run s = some (.ok a, s) ∧ (k a).run s = some (.ok b, s') := by
  obtain ⟨a, s₁, h₁, h₂⟩ := run_bind_eq_ok.mp h
  obtain rfl := run_readOnly hp h₁
  exact ⟨a, h₁, h₂⟩

/-- Run from `s`, the program ends in `s`. -/
def Still (p : Prog σ φ α) (s : σ) : Prop :=
  ∀ r s', p.run s = some (r, s') → s' = s

theorem Inert.still {p : Prog σ φ α} (hp : p.Inert) (s : σ) : p.Still s :=
  fun _ _ h => run_inert hp h

theorem ReadOnly.still {p : Prog σ φ α} (hp : p.ReadOnly) (s : σ) : p.Still s :=
  hp.inert.still s

theorem Still.bind_cases {p : Prog σ φ α} {k : α → Prog σ φ β} {s s' : σ} {r : Except φ β}
    (hp : p.Still s) (h : (p >>= k).run s = some (r, s')) :
    (∃ e, r = .error e ∧ s' = s) ∨
      ∃ a, p.run s = some (.ok a, s) ∧ (k a).run s = some (r, s') := by
  rcases run_bind_eq_some.mp h with ⟨e, he, rfl⟩ | ⟨a, s₁, ha, hrest⟩
  · exact .inl ⟨e, rfl, hp _ _ he⟩
  · obtain rfl := hp _ _ ha
    exact .inr ⟨a, ha, hrest⟩

theorem still_bind {p : Prog σ φ α} {k : α → Prog σ φ β} {s : σ} (hp : p.Still s)
    (hk : ∀ a, p.run s = some (.ok a, s) → (k a).Still s) : (p >>= k).Still s := by
  intro r s' h
  rcases run_bind_eq_some.mp h with ⟨e, he, -⟩ | ⟨a, s₁, ha, hrest⟩
  · exact hp _ _ he
  · obtain rfl := hp _ _ ha
    exact hk a ha r s' hrest

theorem still_handle {p : Prog σ φ α} {h : Except φ α → Prog σ φ β} {s : σ} (hp : p.Still s)
    (hh : ∀ r, (h r).Still s) : (p.handle h).Still s := by
  intro r s' hr
  obtain ⟨r₁, s₁, h₁, h₂⟩ := run_handle_eq_some.mp hr
  obtain rfl := hp _ _ h₁
  exact hh r₁ r s' h₂

/-! ## Programs that never wait -/

/-- No action of the program is ever blocked. -/
abbrev NeverBlocks (p : Prog σ φ α) : Prop :=
  p.Each fun _ f => ∀ s, f s ≠ none

theorem NeverBlocks.exists_run {p : Prog σ φ α} (hp : p.NeverBlocks) (s : σ) :
    ∃ r s', p.run s = some (r, s') := by
  induction p generalizing s with
  | done r => exact ⟨r, s, rfl⟩
  | act f k ih =>
    obtain ⟨⟨b, s₁⟩, hf⟩ := Option.ne_none_iff_exists'.mp (hp.1 s)
    obtain ⟨r, s', hrun⟩ := ih b (hp.2 b) s₁
    exact ⟨r, s', by simp only [run_act, hf, hrun]⟩

/-- A program that only reads always ends, in the state it started from. -/
theorem ReadOnly.exists_run {p : Prog σ φ α} (hp : p.ReadOnly) (s : σ) :
    ∃ r, p.run s = some (r, s) := by
  have hblocks : p.NeverBlocks := Each.mono (fun _ f hf s h => by
    obtain ⟨b, hb⟩ := hf s
    rw [hb] at h
    cases h) hp
  obtain ⟨r, s', hrun⟩ := hblocks.exists_run s
  obtain rfl := run_readOnly hp hrun
  exact ⟨r, hrun⟩

/-! ## Programs that do not see a change -/

/-- Every action answers the same whether `g` has changed the state or not, and keeps the change. -/
abbrev Ignores (g : σ → σ) (p : Prog σ φ α) : Prop :=
  p.Each fun _ f => ∀ s, f (g s) = (f s).map fun x => (x.1, g x.2)

theorem Ignores.run {g : σ → σ} {p : Prog σ φ α} (hp : p.Ignores g) (s : σ) :
    p.run (g s) = (p.run s).map fun x => (x.1, g x.2) := by
  induction p generalizing s with
  | done r => rfl
  | act f k ih =>
    simp only [run_act, hp.1 s]
    cases f s with
    | none => rfl
    | some x => exact ih x.1 (hp.2 x.1) x.2

end Prog
