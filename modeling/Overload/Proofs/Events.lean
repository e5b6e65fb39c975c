import Overload.Proofs.CallSteps
import Overload.Proofs.Runs

/-!
# Nothing reads the events

A session reports what it does, and nobody looks at the reports. So it makes no difference what had
been reported before: the same run behind other events ends with the same value or fault, on the
same machine, and reports the same (`Run.Built.unread`). Each part of a run commutes with putting
events in front (`Commutes`), and there is one rule for each way of putting parts together.
-/

namespace Overload

/-! ## Runs that commute with changes of the state -/

/-- The outcome, with the state that it ends in changed. -/
def withState (f : σ → σ) : EStateM.Result ε σ α → EStateM.Result ε σ α
  | .ok a s => .ok a (f s)
  | .error e s => .error e (f s)

/-- To change the state before the run is to change it afterwards. -/
def Commutes (f : ι → σ → σ) (x : EStateM ε σ α) : Prop :=
  ∀ i s, x (f i s) = withState (f i) (x s)

namespace Commutes

variable {ι ε σ α : Type} {f : ι → σ → σ}

theorem pure (a : α) : Commutes f (pure a : EStateM ε σ α) := fun _ _ => rfl

theorem throw (e : ε) : Commutes f (throw e : EStateM ε σ α) := fun _ _ => rfl

theorem bind {β : Type} {x : EStateM ε σ α} {g : α → EStateM ε σ β} (hx : Commutes f x)
    (hg : ∀ a, Commutes f (g a)) : Commutes f (x >>= g) := by
  intro i s
  show EStateM.bind x g (f i s) = withState (f i) (EStateM.bind x g s)
  rw [EStateM.bind, EStateM.bind, hx i s]
  cases x s with
  | ok a s' => exact hg a i s'
  | error e s' => rfl

/-- A part that reads the state goes on as it would from the changed one. -/
theorem get_bind {g : σ → EStateM ε σ α} (hsame : ∀ i s, g (f i s) = g s)
    (hg : ∀ s, Commutes f (g s)) : Commutes f (get >>= g) := by
  intro i s
  show g (f i s) (f i s) = withState (f i) (g s s)
  rw [hsame]
  exact hg s i s

theorem modify {g : σ → σ} (hg : ∀ i s, g (f i s) = f i (g s)) :
    Commutes f (modify g : EStateM ε σ Unit) := by
  intro i s
  show EStateM.Result.ok () (g (f i s)) = .ok () (f i (g s))
  rw [hg]

/-- Let `p` forget what the changes make. From states that are alike then, a run ends alike. -/
theorem withState_eq {p : σ → σ} {x : EStateM ε σ α} (hx : Commutes f x)
    (hforget : ∀ i s, p (f i s) = p s) (hrestore : ∀ s, ∃ i, f i (p s) = s) {s t : σ}
    (h : p s = p t) : withState p (x s) = withState p (x t) := by
  have hp : ∀ s, withState p (x s) = withState p (x (p s)) := by
    intro s
    obtain ⟨i, hi⟩ := hrestore s
    have hs := hx i (p s)
    rw [hi] at hs
    rw [hs]
    cases x (p s) with
    | ok a s' => exact congrArg (EStateM.Result.ok a) (hforget i s')
    | error e s' => exact congrArg (EStateM.Result.error e) (hforget i s')
  rw [hp s, h, ← hp t]

end Commutes

/-! ## Earlier events -/

/-- The session as it would be had these events been reported before. -/
def Session.behind (earlier : Array Event) (σ : Session) : Session :=
  { σ with trace.events := earlier ++ σ.trace.events }

def Machine.behind (earlier : Array Event) (m : Machine) : Machine :=
  { m with session := m.session.behind earlier }

theorem Session.emit_behind (earlier : Array Event) (σ : Session) (e : Event) :
    (σ.behind earlier).emit e = (σ.emit e).behind earlier := by
  simp [emit, behind, Trace.push]

/-- What is computed does not depend on the events so far, which stay in front. -/
abbrev Infer.Unread (x : Infer α) : Prop := Commutes Session.behind x

abbrev Run.Unread (x : Run α) : Prop := Commutes Machine.behind x

/-! ## Inference -/

theorem Commutes.store (x : StoreM α) : Infer.Unread (liftM x) := fun _ _ => rfl

theorem announce_unread (l r : Ty) : Infer.Unread (announce l r) := by
  refine .get_bind (fun _ _ => rfl) fun σ => ?_
  split
  · refine .bind (.store l.display) fun left => .bind (.store r.display) fun right => ?_
    exact .modify fun earlier σ => σ.emit_behind earlier _
  · exact .pure ()

theorem Infer.Built.unread {p : SupplyId} {α : Type} {x : Infer α} (hx : Built p x) :
    Infer.Unread x := by
  induction hx with
  | pure a => exact .pure a
  | throw e => exact .throw e
  | store _ => exact .store _
  | announce l r => exact announce_unread l r
  | bind _ _ ihx ihf => exact .bind ihx ihf
  | measure _ ih => exact .get_bind (fun _ _ => rfl) fun σ => ih σ.store

/-! ## Runs -/

theorem Engine.occupied_eq (e : Engine) (act : Run α) (m : Machine) :
    e.occupied act m = withState (fun m' => { m' with running := m.running })
      (act { m with running := e.name :: m.running }) := by
  rw [Engine.occupied]
  cases act { m with running := e.name :: m.running } with
  | ok a m' => rfl
  | error f m' => rfl

namespace Commutes

theorem infer {x : Infer α} (hx : Infer.Unread x) : Run.Unread (liftM x) := by
  intro earlier m
  rw [Run.infer_eq, Run.infer_eq, Machine.behind, hx earlier m.session]
  cases x m.session with
  | ok a σ => rfl
  | error e σ => rfl

theorem report (c : Concern) (e : Event) : Run.Unread (Run.report c e) := by
  refine .modify fun earlier m => ?_
  have hemit := m.session.emit_behind earlier e
  show (if m.enabled c then { m with session := (m.session.behind earlier).emit e } else _)
    = Machine.behind earlier (if m.enabled c then _ else _)
  split
  · rw [hemit]
    rfl
  · rfl

theorem logCall (name : String) : Run.Unread (Run.logCall name) := .modify fun _ _ => rfl

section scopes

variable {ι : Type} {f : ι → Machine → Machine} {x : Run α}

theorem observe (hx : Commutes f x) : Commutes f (Run.observe x) := by
  intro i m
  simp only [Run.observe, hx i m]
  cases x m with
  | ok a m' => rfl
  | error f m' => rfl

/-- If the change leaves the switches in force alone. -/
theorem traced (hx : Commutes f x)
    (hactive : ∀ i m, (f i m).session.trace.active = m.session.trace.active)
    (hset : ∀ i m active, (f i m).setActive active = f i (m.setActive active)) (e : Engine) :
    Commutes f (e.traced x) := by
  intro i m
  rw [Engine.traced_eq, Engine.traced_eq, hactive, hset, hx]
  cases x (m.setActive (some e.settings.trace)) with
  | ok a m' => exact congrArg (EStateM.Result.ok a) (hset i m' _)
  | error f m' => exact congrArg (EStateM.Result.error f) (hset i m' _)

/-- If it leaves alone which engines are busy. -/
theorem occupied (hx : Commutes f x) (hrunning : ∀ i m, (f i m).running = m.running)
    (hset : ∀ i (m : Machine) running,
      { f i m with running := running } = f i { m with running := running }) (e : Engine) :
    Commutes f (e.occupied x) := by
  intro i m
  rw [Engine.occupied_eq, Engine.occupied_eq, hrunning, hset, hx]
  cases x { m with running := e.name :: m.running } with
  | ok a m' => exact congrArg (EStateM.Result.ok a) (hset i m' _)
  | error f m' => exact congrArg (EStateM.Result.error f) (hset i m' _)

end scopes

end Commutes

theorem Engine.announceResult_unread (name : String) (ret : Ty) :
    Run.Unread (announceResult name ret) := by
  refine .get_bind (fun _ _ => rfl) fun m => ?_
  split
  · exact .bind (.infer (.store ret.display)) fun _ => .report _ _
  · exact .pure ()

theorem Run.Built.unread {α : Type} {x : Run α} (hx : Built x) : Run.Unread x := by
  induction hx with
  | pure a => exact .pure a
  | throw f => exact .throw f
  | infer hx => exact .infer hx.unread
  | report ev => exact .report _ ev
  | announceResult name ret => exact Engine.announceResult_unread name ret
  | logCall name => exact .logCall name
  | bind _ _ ihx ihf => exact .bind ihx ihf
  | observe _ ih => exact .observe ih
  | @operation _ _ _ e _ _ hx _ ih =>
      rw [hx]
      exact .traced ih (fun _ _ => rfl) (fun _ _ _ => rfl) e
  | occupied _ e ih => exact .occupied ih (fun _ _ => rfl) (fun _ _ _ => rfl) e
  | running _ ih => exact .get_bind (fun _ _ => rfl) fun m => ih m.running

end Overload
