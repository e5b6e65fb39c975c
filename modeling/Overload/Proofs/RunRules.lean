import Overload.Proofs.CallSteps
import Overload.Proofs.Untouched
import Overload.Proofs.ValueSoundness

/-!
# Runs within confines

A machine runs many inferences one after another, and code decides in between what comes next. Each
of them is confined to variables that were shown to the code before. `Run.Ends` and `Run.Keeps` say
of a whole run what `Ends` and `Keeps` say of one inference, with a rule for each way of putting
runs together. `Run.Keeps.infer` takes over what is known of one inference: it may be confined to
any variables whose values are not decided outside the confines of the run (`Store.Shows`).
-/

namespace Overload

abbrev Machine.store (m : Machine) : Store := m.session.store

namespace Store

/-- The variables are in scope, and their values are not decided outside the confines. -/
def Shows (s : Store) (fixed : List Var) (s' : Store) (vs : List Var) : Prop :=
  ∀ w ∈ vs, s.Owns fixed s' (.var w)

theorem Shows.extend {s₁ s₂ s₃ : Store} {fixed vs : List Var} (h : s₁.Shows fixed s₂ vs)
    (h' : s₂.Extends s₃) : s₁.Shows fixed s₃ vs := fun w hw => (h w hw).extend h'

theorem Shows.mono {s s' : Store} {fixed vs ws : List Var} (h : s.Shows fixed s' vs)
    (hsub : ws ⊆ vs) : s.Shows fixed s' ws := fun w hw => h w (hsub hw)

theorem Shows.append {s s' : Store} {fixed vs ws : List Var} (hv : s.Shows fixed s' vs)
    (hw : s.Shows fixed s' ws) : s.Shows fixed s' (vs ++ ws) :=
  fun w hmem => (List.mem_append.mp hmem).elim (hv w) (hw w)

theorem Shows.lt_size {s s' : Store} {fixed vs : List Var} (h : s.Shows fixed s' vs) :
    ∀ w ∈ vs, w.index < s'.size := fun w hw => covers_var.mp (h w hw).covers

theorem shows_nil (s : Store) (fixed : List Var) (s' : Store) : s.Shows fixed s' [] :=
  fun _ hw => nomatch hw

theorem Confined.shows {s s' : Store} {fixed : List Var} (h : s.Confined fixed s')
    (hfixed : ∀ f ∈ fixed, f.index < s.size) : s.Shows fixed s' fixed := by
  intro f hf
  refine ⟨covers_var.mpr (Nat.lt_of_lt_of_le (hfixed f hf) h.size_le), fun θ φ _ _ hag => ?_⟩
  rw [Ty.subst_var, Ty.subst_var, Subst.patch_of_lt (hfixed f hf), hag f hf]

/-- A type that is known shows its variables. -/
theorem Owns.shows {s s' : Store} {fixed : List Var} {t : Ty} (h : s.Owns fixed s' t) :
    s.Shows fixed s' t.vars := by
  refine fun w hw => ⟨covers_var.mpr (h.covers w hw), fun θ φ hθ hφ hag => ?_⟩
  simpa using Ty.eq_of_subst_eq (h.stable θ φ hθ hφ hag) w hw

theorem Owns.trans {s₁ s₂ s₃ : Store} {fixed later : List Var} {t : Ty}
    (ht : s₂.Owns later s₃ t) (h : s₁.Confined fixed s₂) (h' : s₂.Extends s₃)
    (hlater : s₁.Shows fixed s₂ later) : s₁.Owns fixed s₃ t :=
  ⟨ht.covers, ht.stable.trans h h' fun f hf => (hlater f hf).stable⟩

end Store

/-- Run from `m`, the computation ends with a value and machine in `P` or with a fault and machine
in `E`. -/
def Run.Ends (x : Run α) (m : Machine) (P : α → Machine → Prop) (E : Fault → Machine → Prop) :
    Prop :=
  match x m with
  | .ok a m' => P a m'
  | .error f m' => E f m'

namespace Run.Ends

variable {α β : Type} {m : Machine} {P : α → Machine → Prop} {Q : β → Machine → Prop}
  {E : Fault → Machine → Prop}

theorem of_ok {x : Run α} {a : α} {m' : Machine} (h : Run.Ends x m P E) (hx : x m = .ok a m') :
    P a m' := by
  rwa [Run.Ends, hx] at h

theorem of_error {x : Run α} {f : Fault} {m' : Machine} (h : Run.Ends x m P E)
    (hx : x m = .error f m') : E f m' := by
  rwa [Run.Ends, hx] at h

theorem mono {P' : α → Machine → Prop} {E' : Fault → Machine → Prop} {x : Run α}
    (h : Run.Ends x m P E) (hP : ∀ a m', P a m' → P' a m') (hE : ∀ f m', E f m' → E' f m') :
    Run.Ends x m P' E' := by
  rw [Run.Ends] at h ⊢
  cases hx : x m with
  | ok a m' => exact hP a m' (by rwa [hx] at h)
  | error f m' => exact hE f m' (by rwa [hx] at h)

theorem bind {x : Run α} {f : α → Run β} (hx : Run.Ends x m P E)
    (hf : ∀ a m', P a m' → Run.Ends (f a) m' Q E) : Run.Ends (x >>= f) m Q E := by
  have hbind : (x >>= f) m = EStateM.bind x f m := rfl
  rw [Run.Ends] at hx
  rw [Run.Ends, hbind, EStateM.bind]
  cases h : x m with
  | ok a m' =>
      rw [h] at hx
      exact hf a m' hx
  | error e m' => rwa [h] at hx

theorem discard {x : Run α} {A : Machine → Prop} (hx : Run.Ends x m (fun _ => A) E) :
    Run.Ends (discard x) m (fun _ => A) E := by
  rw [Functor.discard, LawfulFunctor.map_const, Function.comp, map_eq_pure_bind]
  exact hx.bind fun _ _ h => h

theorem infer {x : Infer α}
    (h : Overload.Ends x m.session (fun a session => P a { m with session })
      fun e session => E (.type e) { m with session }) : Run.Ends (liftM x) m P E := by
  rw [Overload.Ends] at h
  rw [Run.Ends, Run.infer_eq]
  cases hx : x m.session with
  | ok a σ => rwa [hx] at h
  | error e σ => rwa [hx] at h

/-- What a reader answers is known in terms of any store that the present one was read from. -/
theorem reads {s : Store} {x : StoreM α} {A : α → Prop} (hx : s.Reads x A)
    (hm : s.Quiet m.store) : Run.Ends (liftM x) m (fun a m' => s.Quiet m'.store ∧ A a) E := by
  obtain ⟨ha, hq⟩ := hx m.store hm
  exact ⟨hq, ha⟩

end Run.Ends

/-- Run from `m`, the computation stays within the confines, also if it ends with a fault, and a
value that it ends with is in `P`. -/
def Run.Keeps (x : Run α) (s : Store) (fixed : List Var) (m : Machine)
    (P : α → Store → Prop) : Prop :=
  Run.Ends x m
    (fun a m' => (s.Confined fixed m'.store ∧ m.store.Extends m'.store) ∧ P a m'.store)
    fun _ m' => s.Confined fixed m'.store ∧ m.store.Extends m'.store

namespace Run.Keeps

variable {α β : Type} {s : Store} {fixed : List Var} {m : Machine} {P : α → Store → Prop}
  {Q : β → Store → Prop}

theorem pure (h : s.Confined fixed m.store) {a : α} (ha : P a m.store) :
    Run.Keeps (pure a) s fixed m P :=
  ⟨⟨h, .refl h.wellFormed⟩, ha⟩

theorem throw (h : s.Confined fixed m.store) (f : Fault) :
    Run.Keeps (throw f : Run α) s fixed m P :=
  ⟨h, .refl h.wellFormed⟩

theorem mono {P' : α → Store → Prop} {x : Run α} (h : Run.Keeps x s fixed m P)
    (hP : ∀ a s', m.store.Extends s' → P a s' → P' a s') : Run.Keeps x s fixed m P' :=
  Run.Ends.mono h (fun a _ h' => ⟨h'.1, hP a _ h'.1.2 h'.2⟩) fun _ _ h' => h'

theorem bind {x : Run α} {f : α → Run β} (hx : Run.Keeps x s fixed m P)
    (hf : ∀ a m', s.Confined fixed m'.store → m.store.Extends m'.store → P a m'.store →
      Run.Keeps (f a) s fixed m' Q) : Run.Keeps (x >>= f) s fixed m Q :=
  Run.Ends.bind hx fun a m' h => Run.Ends.mono (hf a m' h.1.1 h.1.2 h.2)
    (fun _ _ h' => ⟨⟨h'.1.1, h.1.2.trans h'.1.2⟩, h'.2⟩) fun _ _ h' => ⟨h'.1, h.1.2.trans h'.2⟩

theorem discard {x : Run α} (hx : Run.Keeps x s fixed m P) :
    Run.Keeps (discard x) s fixed m fun _ _ => True :=
  Run.Ends.discard (hx.mono fun _ _ _ _ => trivial)

theorem forM {f : β → Run Unit} (xs : List β) (h : s.Confined fixed m.store)
    (hf : ∀ x ∈ xs, ∀ m', s.Confined fixed m'.store → Run.Keeps (f x) s fixed m' fun _ _ => True) :
    Run.Keeps (xs.forM f) s fixed m fun _ _ => True := by
  induction xs generalizing m with
  | nil => exact .pure h trivial
  | cons x xs ih =>
      obtain ⟨hx, hxs⟩ := List.forall_mem_cons.mp hf
      exact (hx m h).bind fun _ m₁ h₁ _ _ => ih h₁ hxs

theorem mapM {f : β → Run α} (xs : List β) (h : s.Confined fixed m.store)
    (hP : ∀ a s₁ s₂, P a s₁ → s₁.Extends s₂ → P a s₂)
    (hf : ∀ x ∈ xs, ∀ m', s.Confined fixed m'.store → m.store.Extends m'.store →
      Run.Keeps (f x) s fixed m' P) :
    Run.Keeps (xs.mapM f) s fixed m fun as s' => ∀ a ∈ as, P a s' := by
  induction xs generalizing m with
  | nil => exact .pure h fun _ ha => nomatch ha
  | cons x xs ih =>
      rw [List.mapM_cons]
      obtain ⟨hx, hxs⟩ := List.forall_mem_cons.mp hf
      refine (hx m h (.refl h.wellFormed)).bind fun a m₁ h₁ hext₁ ha => ?_
      refine (ih h₁ fun y hy m' h' hext' => hxs y hy m' h' (hext₁.trans hext')).bind
        fun as m₂ h₂ hext₂ has => .pure h₂ ?_
      exact List.forall_mem_cons.mpr ⟨hP a _ _ ha hext₂, has⟩

/-! ## What a run is made of -/

/-- The store is all that counts. -/
theorem modify (h : s.Confined fixed m.store) {g : Machine → Machine}
    (hg : ∀ m, (g m).store = m.store) : Run.Keeps (modify g) s fixed m fun _ _ => True := by
  have hstore := hg m
  refine ⟨⟨?_, ?_⟩, trivial⟩
  · rwa [hstore]
  · rw [hstore]
    exact .refl h.wellFormed

theorem report (h : s.Confined fixed m.store) (c : Concern) (e : Event) :
    Run.Keeps (Run.report c e) s fixed m fun _ _ => True :=
  .modify h fun m => by split <;> rfl

theorem logCall (h : s.Confined fixed m.store) (name : String) :
    Run.Keeps (Run.logCall name) s fixed m fun _ _ => True :=
  .modify h fun _ => rfl

theorem ofClassError (h : s.Confined fixed m.store) (x : Except ClassError α) :
    Run.Keeps (liftM x) s fixed m fun a _ => x = .ok a := by
  cases x with
  | ok a => exact .pure h rfl
  | error e => exact .throw h _

theorem ofFault (h : s.Confined fixed m.store) (x : Except Fault α) :
    Run.Keeps (liftM x) s fixed m fun a _ => x = .ok a := by
  cases x with
  | ok a => exact .pure h rfl
  | error e => exact .throw h _

theorem reads (h : s.Confined fixed m.store) {x : StoreM α} {A : α → Prop}
    (hx : m.store.Reads x A) : Run.Keeps (liftM x) s fixed m fun a _ => A a :=
  Run.Ends.mono (Run.Ends.reads hx (.refl h.wellFormed))
    (fun _ _ h' => ⟨⟨h.alike h'.1.toAlike, h'.1.toAlike.extends⟩, h'.2⟩) fun _ _ h' => h'

theorem infer {x : Infer α} {later : List Var} {R : α → Store → Prop}
    (h : s.Confined fixed m.store) (hlater : s.Shows fixed m.store later)
    (hx : Overload.Keeps x m.store later m.session R)
    (hR : ∀ a s', m.store.Extends s' → R a s' → P a s') :
    Run.Keeps (liftM x) s fixed m P := by
  have hstable : ∀ f ∈ later, s.Stable fixed m.store (.var f) := fun f hf => (hlater f hf).stable
  exact Run.Ends.infer (Overload.Ends.mono hx
    (fun a σ hσ => ⟨⟨h.trans hσ.1.1 hstable, hσ.1.2⟩, hR a _ hσ.1.2 hσ.2⟩)
    fun _ σ hσ => ⟨h.trans hσ hstable, hσ.toExtends⟩)

theorem unify {l r : Ty} (h : s.Confined fixed m.store) (hl : s.Owns fixed m.store l)
    (hr : s.Owns fixed m.store r) :
    Run.Keeps (liftM (Overload.unify l r)) s fixed m fun _ _ => True :=
  Run.Ends.infer (Overload.Ends.mono (unify_spec h.wellFormed hl.covers hr.covers)
    (fun _ _ hσ => ⟨⟨h.adds hl.stable hr.stable hσ, hσ.toExtends⟩, trivial⟩)
    fun _ _ hσ => ⟨h.rejects hl.stable hr.stable hσ, hσ.toExtends⟩)

theorem traced {e : Engine} {x : Run α}
    (hx : Run.Keeps x s fixed (m.setActive (some e.settings.trace)) P) :
    Run.Keeps (e.traced x) s fixed m P := by
  rw [Run.Keeps, Run.Ends] at hx
  rw [Run.Keeps, Run.Ends, Engine.traced]
  cases h : x (m.setActive (some e.settings.trace)) with
  | ok a m' =>
      rw [h] at hx
      exact hx
  | error f m' =>
      rw [h] at hx
      exact hx

theorem occupied {e : Engine} {x : Run α}
    (hx : Run.Keeps x s fixed { m with running := e.name :: m.running } P) :
    Run.Keeps (e.occupied x) s fixed m P := by
  rw [Run.Keeps, Run.Ends] at hx
  rw [Run.Keeps, Run.Ends, Engine.occupied]
  cases h : x { m with running := e.name :: m.running } with
  | ok a m' =>
      rw [h] at hx
      exact hx
  | error f m' =>
      rw [h] at hx
      exact hx

/-- A fault is a value for whoever observes it. -/
theorem observe {x : Run α} (hx : Run.Keeps x s fixed m P) :
    Run.Keeps (Run.observe x) s fixed m fun r s' => ∀ a, r = .ok a → P a s' := by
  rw [Run.Keeps, Run.Ends] at hx
  rw [Run.Keeps, Run.Ends, Run.observe]
  cases h : x m with
  | ok a m' =>
      rw [h] at hx
      exact ⟨hx.1, fun b hb => Except.ok.inj hb ▸ hx.2⟩
  | error f m' =>
      rw [h] at hx
      exact ⟨hx, fun b hb => nomatch hb⟩

end Run.Keeps

end Overload
