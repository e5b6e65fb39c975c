import Overload.Proofs.Currying
import Overload.Proofs.Moments

/-!
# Runs that come to the same

Two programs of a host can do the same and still differ in what they leave in the records: a call
more or less is an event more or less, and a host function more or less is an entry of the log.
`Run.Same` compares runs up to such records, for a way `p` to strip a machine of them. Since no run
reads the records, every run is the same as itself in this sense (`Run.Built.same`), and from there
on it is a congruence.

The switches in force are a matter of records too, but they are put in force by calls, and calls
inside of calls put the same ones in force again. So there is nothing to strip: a run that is made
of calls is left as it is by a call around it (`Engine.Steady`).
-/

namespace Overload

/-! ## Earlier log entries -/

/-- The machine as it would be had these runs been logged before. -/
def Machine.recorded (earlier : Array Invocation) (m : Machine) : Machine :=
  { m with log := earlier ++ m.log }

/-- What is computed does not depend on the log so far, which stays in front. -/
abbrev Run.Unlogged (x : Run α) : Prop := Commutes Machine.recorded x

theorem Run.Built.unlogged {α : Type} {x : Run α} (hx : Built x) : Run.Unlogged x := by
  have hinfer : ∀ {β : Type} (x : Infer β), Run.Unlogged (liftM x) := by
    intro β x earlier m
    rw [Run.infer_eq, Run.infer_eq, Machine.recorded]
    dsimp only
    cases x m.session with
    | ok a σ => rfl
    | error e σ => rfl
  have hreport : ∀ c ev, Run.Unlogged (Run.report c ev) := by
    intro c ev
    refine .modify fun earlier m => ?_
    show (if m.enabled c then _ else _) = Machine.recorded earlier (if m.enabled c then _ else _)
    split
    · rfl
    · rfl
  induction hx with
  | pure a => exact .pure a
  | throw f => exact .throw f
  | infer _ => exact hinfer _
  | report ev => exact hreport _ ev
  | announceResult name ret =>
      refine .get_bind (fun _ _ => rfl) fun m => ?_
      split
      · exact .bind (hinfer _) fun _ => hreport _ _
      · exact .pure ()
  | logCall name => exact .modify fun earlier m => by simp [Machine.recorded]
  | bind _ _ ihx ihf => exact .bind ihx ihf
  | observe _ ih => exact .observe ih
  | @operation _ _ _ e _ _ hx _ ih =>
      rw [hx]
      exact .traced ih (fun _ _ => rfl) (fun _ _ _ => rfl) e
  | occupied _ e ih => exact .occupied ih (fun _ _ => rfl) (fun _ _ _ => rfl) e
  | running _ ih => exact .get_bind (fun _ _ => rfl) fun m => ih m.running

/-- The machine without events and log. -/
def Machine.bare (m : Machine) : Machine := { m.forget with log := #[] }

/-! ## Sameness -/

/-- From machines that are alike under `p`, both runs end with one value or fault, on machines that
are alike again. -/
def Run.Same (p : Machine → Machine) (x y : Run α) : Prop :=
  ∀ m₁ m₂, p m₁ = p m₂ → withState p (x m₁) = withState p (y m₂)

/-- The part of a machine that stays does not include events, and with `bare` neither the log. -/
inductive Machine.Strips : (Machine → Machine) → Prop
  | events : Strips forget
  | records : Strips bare

theorem Machine.Strips.running_eq {p : Machine → Machine} (hp : Strips p) {m₁ m₂ : Machine}
    (h : p m₁ = p m₂) : m₁.running = m₂.running := by
  have hrunning := congrArg Machine.running h
  cases hp with
  | events => exact hrunning
  | records => exact hrunning

theorem Machine.Strips.setRunning {p : Machine → Machine} (hp : Strips p) (m : Machine)
    (running : List String) :
    p { m with running := running } = { p m with running := running } := by
  cases hp with
  | events => rfl
  | records => rfl

namespace Run.Same

variable {p : Machine → Machine} {x y z : Run α}

theorem symm (h : Same p x y) : Same p y x := fun m₁ m₂ hm => (h m₂ m₁ hm.symm).symm

theorem trans (h : Same p x y) (h' : Same p y z) : Same p x z :=
  fun m₁ m₂ hm => (h m₁ m₂ hm).trans (h' m₂ m₂ rfl)

/-- Where one ends with a value, the other one does. -/
theorem exists_ok (h : Same p x y) {m₁ m₂ m₂' : Machine} (hm : p m₁ = p m₂) {a : α}
    (hy : y m₂ = .ok a m₂') : ∃ m₁', x m₁ = .ok a m₁' ∧ p m₁' = p m₂' := by
  have hxy := h m₁ m₂ hm
  rw [hy] at hxy
  cases hx : x m₁ with
  | ok b m₁' =>
      rw [hx] at hxy
      injection hxy with hba hm'
      exact ⟨m₁', by rw [hba], hm'⟩
  | error f m₁' =>
      rw [hx] at hxy
      cases hxy

theorem pure (a : α) : Same p (pure a) (pure a) := by
  intro m₁ m₂ hm
  exact congrArg (EStateM.Result.ok a) hm

theorem bind {f g : α → Run β} (hx : Same p x y) (hf : ∀ a, Same p (f a) (g a)) :
    Same p (x >>= f) (y >>= g) := by
  intro m₁ m₂ hm
  have hxy := hx m₁ m₂ hm
  cases hx₁ : x m₁ with
  | ok a m₁' =>
      cases hy₂ : y m₂ with
      | ok b m₂' =>
          rw [hx₁, hy₂] at hxy
          injection hxy with hab hm'
          rw [bind_of_ok hx₁, bind_of_ok hy₂, hab]
          exact hf b m₁' m₂' hm'
      | error e m₂' =>
          rw [hx₁, hy₂] at hxy
          cases hxy
  | error e m₁' =>
      cases hy₂ : y m₂ with
      | ok b m₂' =>
          rw [hx₁, hy₂] at hxy
          cases hxy
      | error e' m₂' =>
          rw [hx₁, hy₂] at hxy
          rw [bind_of_error hx₁, bind_of_error hy₂]
          injection hxy with he hm'
          exact congrArg₂ EStateM.Result.error he hm'

theorem mapM {f g : β → Run α} {bs : List β} (h : ∀ b ∈ bs, Same p (f b) (g b)) :
    Same p (bs.mapM f) (bs.mapM g) := by
  induction bs with
  | nil => exact .pure []
  | cons b bs ih =>
      rw [List.forall_mem_cons] at h
      rw [List.mapM_cons, List.mapM_cons]
      exact .bind h.1 fun a => .bind (ih h.2) fun as => .pure (a :: as)

theorem occupied (hp : Machine.Strips p) (h : Same p x y) (e : Engine) :
    Same p (e.occupied x) (e.occupied y) := by
  intro m₁ m₂ hm
  have hrunning := hp.running_eq hm
  have hentered : p { m₁ with running := e.name :: m₁.running }
      = p { m₂ with running := e.name :: m₂.running } := by
    rw [hp.setRunning m₁, hp.setRunning m₂, hm, hrunning]
  have hlift : ∀ (r : List String) (o : EStateM.Result Fault Machine α),
      withState p (withState (fun m => { m with running := r }) o)
        = withState (fun m => { m with running := r }) (withState p o) := by
    intro r o
    cases o with
    | ok a m => exact congrArg (EStateM.Result.ok a) (hp.setRunning m r)
    | error f m => exact congrArg (EStateM.Result.error f) (hp.setRunning m r)
  rw [Engine.occupied_eq, Engine.occupied_eq, hlift, hlift, h _ _ hentered, hrunning]

end Run.Same

theorem Commutes.comp {ι κ ε σ α : Type} {f : ι → σ → σ} {g : κ → σ → σ} {x : EStateM ε σ α}
    (hf : Commutes f x) (hg : Commutes g x) :
    Commutes (fun (q : ι × κ) s => f q.1 (g q.2 s)) x := by
  intro q s
  rw [hf, hg]
  cases x s with
  | ok a s' => rfl
  | error e s' => rfl

/-- No run reads the records. -/
theorem Run.Built.same {x : Run α} (hx : Run.Built x) {p : Machine → Machine}
    (hp : Machine.Strips p) : Run.Same p x x := by
  intro m₁ m₂ hm
  cases hp with
  | events => exact hx.unread.forget_eq hm
  | records =>
      refine (hx.unread.comp hx.unlogged).withState_eq (fun _ _ => rfl) (fun m => ?_) hm
      refine ⟨(m.session.trace.events, m.log), ?_⟩
      simp [Machine.bare, Machine.forget, Machine.behind, Session.behind, Machine.recorded]

/-- What is the same up to events is the same without the log. -/
theorem Run.Same.records {x y : Run α} (h : Run.Same .forget x y) (hy : Run.Built y) :
    Run.Same .bare x y := by
  have hbare : ∀ o : EStateM.Result Fault Machine α,
      withState Machine.bare o = withState Machine.bare (withState Machine.forget o) := by
    intro o
    cases o with
    | ok a m => rfl
    | error f m => rfl
  intro m₁ m₂ hm
  rw [hbare, h m₁ m₁ rfl, ← hbare]
  exact hy.same .records m₁ m₂ hm

/-- A run that starts with events only, whatever they are. -/
theorem Run.Same.of_event {x y : Run α} (hy : Run.Built y)
    (h : ∀ m, ∃ m', m'.forget = m.forget ∧ x m = y m') : Run.Same .forget x y := by
  intro m₁ m₂ hm
  obtain ⟨m', hm', hx⟩ := h m₁
  rw [hx]
  exact hy.same .events m' m₂ (hm'.trans hm)

/-- An entry in the log makes no difference to what follows. -/
theorem Run.Built.same_logged {x : Run α} (hx : Run.Built x) (name : String) :
    Run.Same .bare x (do
      Run.logCall name
      x) := by
  intro m₁ m₂ hm
  have hlog : Run.logCall name m₂ = .ok () { m₂ with log := m₂.log.push (.call name) } := rfl
  rw [bind_of_ok hlog]
  exact hx.same .records m₁ _ hm

/-! ## Steady runs -/

/-- To put the switches of the engine in force around the run changes nothing. -/
def Engine.Steady (e : Engine) (x : Run α) : Prop := e.traced x = x

namespace Engine.Steady

variable {e : Engine} {x : Run α}

theorem pure (a : α) : e.Steady (pure a : Run α) := rfl

theorem throw (f : Fault) : e.Steady (throw f : Run α) := rfl

theorem logCall (name : String) : e.Steady (Run.logCall name) := rfl

theorem ofFault (o : Except Fault α) : e.Steady (liftM o : Run α) := by
  cases o with
  | ok a => exact .pure a
  | error f => exact .throw f

/-- A steady run leaves the switches as it finds them, so the next part finds those in force. -/
theorem bind {f : α → Run β} (hx : e.Steady x) (hf : ∀ a, e.Steady (f a)) :
    e.Steady (x >>= f) := by
  let inner := some e.settings.trace
  have hrun : ∀ m, x m = Run.restore m.session.trace.active (x (m.setActive inner)) := by
    intro m
    rw [← Engine.traced_eq, hx]
  funext m
  have hm := hrun m
  have hinner : x (m.setActive inner) = Run.restore inner (x (m.setActive inner)) :=
    hrun (m.setActive inner)
  rw [Engine.traced_eq]
  cases h : x (m.setActive inner) with
  | error fault m' =>
      rw [h] at hm
      rw [bind_of_error h, bind_of_error hm]
      rfl
  | ok a m' =>
      rw [h] at hm hinner
      injection hinner with _ hm'
      rw [bind_of_ok h, bind_of_ok hm]
      calc Run.restore m.session.trace.active (f a m')
          = Run.restore m.session.trace.active (f a (m'.setActive inner)) := by rw [← hm']
        _ = e.traced (f a) (m'.setActive m.session.trace.active) :=
          (e.traced_eq (f a) (m'.setActive m.session.trace.active)).symm
        _ = f a (m'.setActive m.session.trace.active) := congrFun (hf a) _

theorem mapM {f : β → Run α} (hf : ∀ b, e.Steady (f b)) (bs : List β) : e.Steady (bs.mapM f) := by
  induction bs with
  | nil => exact .pure []
  | cons b bs ih =>
      rw [List.mapM_cons]
      exact .bind (hf b) fun _ => .bind ih fun _ => .pure _

end Engine.Steady

/-! ## Runs without effects -/

/-- With enough room for nested calls the run ends with the value, and all that it changes are the
records. -/
def Run.Settles (x : Nat → Run α) (a : α) : Prop :=
  ∀ m, ∃ room, ∀ n, room ≤ n → ∃ m', x n m = .ok a m' ∧ m'.bare = m.bare

namespace Run.Settles

variable {α β γ : Type} {x y : Nat → Run α} {a : α}

theorem pure (a : α) : Settles (fun _ => pure a) a := fun m => ⟨0, fun _ _ => ⟨m, rfl, rfl⟩⟩

theorem bind {f : Nat → α → Run β} {b : β} (hx : Settles x a) (hf : Settles (fun n => f n a) b)
    (hbuilt : ∀ n, Run.Built (f n a)) : Settles (fun n => x n >>= f n) b := by
  intro m
  obtain ⟨room₁, h₁⟩ := hx m
  obtain ⟨room₂, h₂⟩ := hf m
  refine ⟨max room₁ room₂, fun n hn => ?_⟩
  obtain ⟨m₁, hfirst, hm₁⟩ := h₁ n (by omega)
  obtain ⟨m₂, hnext, hm₂⟩ := h₂ n (by omega)
  -- the second part starts where the first one ends, which makes no difference to it
  obtain ⟨m₃, hnext, hm₃⟩ := ((hbuilt n).same .records).exists_ok hm₁ hnext
  exact ⟨m₃, (bind_of_ok hfirst).trans hnext, hm₃.trans hm₂⟩

theorem mapM {f : Nat → γ → Run α} {φ : γ → α} (h : ∀ c, Settles (fun n => f n c) (φ c))
    (hbuilt : ∀ n c, Run.Built (f n c)) (cs : List γ) :
    Settles (fun n => cs.mapM (f n)) (cs.map φ) := by
  induction cs with
  | nil => exact .pure []
  | cons c cs ih =>
      simp only [List.mapM_cons]
      refine .bind (h c) (.bind ih (.pure _) fun n => .pure _) fun n => ?_
      exact .bind (.mapM (hbuilt n) cs) fun _ => .pure _

/-- A run that needs more room. -/
theorem of_same (k : Nat) (hx : Settles x a) (h : ∀ n, Same .bare (y (n + k)) (x n)) :
    Settles y a := by
  intro m
  obtain ⟨room, hroom⟩ := hx m
  refine ⟨room + k, fun n hn => ?_⟩
  obtain ⟨n, rfl⟩ := Nat.exists_eq_add_of_le' (Nat.le_trans (Nat.le_add_left k room) hn)
  obtain ⟨m₁, hrun, hm₁⟩ := hroom n (by omega)
  obtain ⟨m₂, hrun, hm₂⟩ := (h n).exists_ok rfl hrun
  exact ⟨m₂, hrun, hm₂.trans hm₁⟩

theorem traced (hx : Settles x a) (e : Engine) : Settles (fun n => e.traced (x n)) a := by
  intro m
  obtain ⟨room, hroom⟩ := hx (m.setActive (some e.settings.trace))
  refine ⟨room, fun n hn => ?_⟩
  obtain ⟨m', hrun, hm'⟩ := hroom n hn
  refine ⟨m'.setActive m.session.trace.active, ?_, ?_⟩
  · show e.traced (x n) m = _
    rw [Engine.traced_eq, hrun]
    rfl
  · exact congrArg (Machine.setActive · m.session.trace.active) hm'

theorem occupied (hx : Settles x a) (e : Engine) : Settles (fun n => e.occupied (x n)) a := by
  intro m
  obtain ⟨room, hroom⟩ := hx { m with running := e.name :: m.running }
  refine ⟨room, fun n hn => ?_⟩
  obtain ⟨m', hrun, hm'⟩ := hroom n hn
  refine ⟨{ m' with running := m.running }, ?_, ?_⟩
  · show e.occupied (x n) m = _
    rw [Engine.occupied_eq, hrun]
    rfl
  · exact congrArg (fun m'' : Machine => { m'' with running := m.running }) hm'

end Run.Settles

end Overload
