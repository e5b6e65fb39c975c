import Overload.Proofs.Moments
import Overload.Proofs.Naming

/-!
# Names in all runs

Names are handed out in many places: where a type is displayed, and so wherever an error or a report
shows one. They are all drawn from the same sequence, one for each supply, and whatever is done to
the variables of a machine comes down to steps of its store (`Host.Program.stepwise`). So what one
step keeps is kept by every run, from the moment that a supply is created (`Machine.Leads.keeps`):
its names are the first ones of the sequence, each belongs to one variable, and to the same one for
ever (`names_identify_variables`).
-/

namespace Overload

namespace Store

variable {s s' : Store} {p : SupplyId} {v : Var} {i : Nat}

/-- Any number of changes, with variables from any supplies. -/
abbrev AnySteps : Store → Store → Prop := Relation.ReflTransGen fun s s' => ∃ p, Step p s s'

theorem Steps.any (h : Steps p s s') : AnySteps s s' :=
  Relation.ReflTransGen.mono (fun _ _ hstep => ⟨p, hstep⟩) _ _ h

/-- A name is kept, whatever becomes of the variable. -/
theorem Step.label? (h : Step p s s') (hi : s.label? v = some i) : s'.label? v = some i := by
  cases h with
  | link w t => rwa [label?_setLink]
  | name w =>
      rcases s.name_spec w with heq | ⟨q, -, hnone, -, -, hlabel, -⟩
      · rwa [heq]
      · have hne : v ≠ w := by
          rintro rfl
          cases hnone.symm.trans hi
        rwa [hlabel, if_neg hne]
  | fresh =>
      obtain ⟨cell, hcell, -⟩ := Option.bind_eq_some_iff.mp hi
      have hlt : v.index < s.size := (Array.getElem?_eq_some_iff.mp hcell).1
      rwa [label?_fresh, if_neg (Nat.ne_of_lt hlt)]

/-- Asking for a name that has been given changes nothing. -/
theorem name_of_label? (hi : s.label? v = some i) : v.name s = (letterName i, s) := by
  obtain ⟨cell, hcell, hlabel⟩ := Option.bind_eq_some_iff.mp hi
  simp only [Var.name, modifyGet, MonadStateOf.modifyGet, StateT.modifyGet, hcell, hlabel, pure]

end Store

/-! ## Runs as steps -/

/-- However it ends, the run gets to the store it leaves by steps. -/
def Run.Stepwise (x : Run α) : Prop :=
  ∀ m : Machine, m.session.store.AnySteps (m.after x).session.store

namespace Run.Stepwise

variable {α β : Type}

theorem report (c : Concern) (ev : Event) : Stepwise (Run.report c ev) := by
  intro m
  have hstore : (m.after (Run.report c ev)).session.store = m.session.store := by
    show (if m.enabled c then { m with session := m.session.emit ev } else m).session.store = _
    split <;> rfl
  rw [hstore]

theorem infer {p : SupplyId} {x : Infer α} (hx : Infer.Built p x) : Stepwise (liftM x) := by
  intro m
  rw [Machine.after, Run.infer_eq]
  cases h : x m.session with
  | ok a σ => exact ((hx.steps m.session).of_ok h).store.any
  | error e σ => exact ((hx.steps m.session).of_error h).store.any

theorem bind {x : Run α} {f : α → Run β} (hx : Stepwise x) (hf : ∀ a, Stepwise (f a)) :
    Stepwise (x >>= f) := by
  intro m
  have hfirst := hx m
  cases h : x m with
  | ok a m' =>
      rw [Machine.after_of_ok h] at hfirst
      rw [Machine.after_bind h]
      exact hfirst.trans (hf a m')
  | error fault m' =>
      rw [Machine.after_bind_error h]
      exact hfirst

theorem announceResult (name : String) (ret : Ty) :
    Stepwise (Engine.announceResult name ret) := by
  intro m
  have hrun : m.after (Engine.announceResult name ret) = m.after (if m.enabled .calls then
      liftM ret.display >>= fun text => Run.report .calls (.applied name text)
    else pure () : Run Unit) := rfl
  rw [hrun]
  split
  · exact bind (infer (.store (.display (p := 0) ret))) (fun _ => report _ _) m
  · exact .refl

theorem observe {x : Run α} (hx : Stepwise x) : Stepwise (Run.observe x) := by
  intro m
  rw [Machine.after_observe]
  exact hx m

theorem traced {x : Run α} (hx : Stepwise x) (e : Engine) : Stepwise (e.traced x) := by
  intro m
  rw [Machine.after_traced]
  exact hx (m.setActive (some e.settings.trace))

theorem occupied {x : Run α} (hx : Stepwise x) (e : Engine) : Stepwise (e.occupied x) := by
  intro m
  rw [Machine.after_occupied]
  exact hx { m with running := e.name :: m.running }

end Run.Stepwise

theorem Run.Built.stepwise {α : Type} {x : Run α} (hx : Built x) : Run.Stepwise x := by
  induction hx with
  | pure a => exact fun _ => .refl
  | throw f => exact fun _ => .refl
  | infer hx => exact .infer hx
  | report ev => exact .report _ ev
  | announceResult name ret => exact .announceResult name ret
  | logCall name => exact fun _ => .refl
  | bind _ _ ihx ihf => exact ihx.bind ihf
  | observe _ ih => exact ih.observe
  | @operation _ _ _ e _ _ hx _ ih =>
      rw [hx]
      exact ih.traced e
  | occupied _ e ih => exact ih.occupied e
  | running _ ih => exact fun m => ih m.running m

/-- Whatever the functions of the host do. -/
theorem Host.Program.stepwise {h : Host} {α : Type} {x : Run α} (hx : h.Program x) :
    Run.Stepwise x := by
  have happly : Apply.Built h.nested := h.applyWithin_built depthLimit
  induction hx with
  | pure a => exact fun _ => .refl
  | throw f => exact fun _ => .refl
  | bind _ _ ihx ihf => exact ihx.bind ihf
  | observe _ ih => exact ih.observe
  | apply e func args => exact (happly e func args).stepwise.occupied e
  | call e name sig code bound args =>
      exact (h.callTyped_built happly e name sig code bound args).stepwise.occupied e
  | callMethod e cls name dispatchOn args =>
      exact (e.callMethod_built happly cls name dispatchOn args).stepwise.occupied e
  | callInstance e cls ty name args =>
      exact (e.callInstance_built happly cls ty name args).stepwise.occupied e
  | typeOf e v => exact (e.typeOf_built h.nested v).stepwise
  | analyze e x Γ => exact (e.analyze_built h.nested x Γ).stepwise
  | infer hx => exact .infer hx
  | retrace forced setting => exact fun _ => .refl

/-! ## Everything that can be done -/

namespace Machine

/-- The machine after a computation over its store. -/
def afterStore (m : Machine) (x : StoreM α) : Machine :=
  { m with session.store := (x m.session.store).2 }

/-- What can be done to a machine: supplies are created, variables are allocated and named, types
are displayed, and programs of any host are run, with any outcome. What a program shows of types in
its errors and reports is displayed on the way. -/
inductive Moves (m : Machine) : Machine → Prop
  | create : Moves m (m.afterStore SupplyId.create)
  | allocate (p : SupplyId) : Moves m (m.afterStore p.fresh)
  | name (v : Var) : Moves m (m.afterStore v.name)
  | display (t : Ty) : Moves m (m.afterStore t.display)
  | run {h : Host} {α : Type} {x : Run α} : h.Program x → Moves m (m.after x)
  /-- Code may be run as it is as well, without a call. -/
  | code (h : Host) (e : Engine) (name : String) (code : Code) (args : List Value) :
      Moves m (m.after (h.callCode e name code args))

/-- Any number of these, in any order. -/
abbrev Leads : Machine → Machine → Prop := Relation.ReflTransGen Moves

variable {m m' : Machine}

theorem Moves.cases_store (h : m.Moves m') :
    m'.session.store = (SupplyId.create m.session.store).2
      ∨ m.session.store.AnySteps m'.session.store := by
  cases h with
  | create => exact .inl rfl
  | allocate p => exact .inr (.single ⟨p, .fresh⟩)
  | name v => exact .inr (.single ⟨0, .name v⟩)
  | display t => exact .inr (Stepwise.display (p := 0) t _).any
  | run hx => exact .inr (hx.stepwise m)
  | code h e name code args =>
      have happly : Apply.Built h.nested := h.applyWithin_built Host.depthLimit
      exact .inr ((h.runCode_built happly e name code args).stepwise.occupied e m)

/-- What is kept when a supply is created and at each step of the store is kept for good. -/
theorem Leads.keeps (h : m.Leads m') {P : Store → Prop}
    (hcreate : ∀ {s}, P s → P (SupplyId.create s).2)
    (hstep : ∀ {p s s'}, Store.Step p s s' → P s → P s') (hm : P m.session.store) :
    P m'.session.store := by
  have hsteps : ∀ {s s'}, Store.AnySteps s s' → P s → P s' := by
    intro s s' h hs
    induction h with
    | refl => exact hs
    | tail _ hlast ih =>
        obtain ⟨p, hlast⟩ := hlast
        exact hstep hlast ih
  induction h with
  | refl => exact hm
  | tail _ hmove ih =>
      rcases hmove.cases_store with heq | h
      · exact heq ▸ hcreate ih
      · exact hsteps h ih

end Machine

/-- From the moment that a supply is created, and until then no variable belongs to it, whatever is
done: the names that it has handed out are the first ones of the sequence, as many as it has
counted, and each is the name of one of its variables. A variable keeps its name, also when it is
bound, and two variables of the supply have different names, as all names of the sequence are
different. -/
theorem names_identify_variables {m₀ m : Machine}
    (hnew : ∀ v, m₀.session.store.supply? v ≠ some (SupplyId.create m₀.session.store).1)
    (h : (m₀.afterStore SupplyId.create).Leads m) :
    let p := (SupplyId.create m₀.session.store).1
    let s := m.session.store
    (∀ x, (∃ v, s.supply? v = some p ∧ s.nameOf? v = some x)
        ↔ ∃ i < s.labelled p, letterName i = x)
      ∧ (∀ i < s.labelled p, ∃! v, s.supply? v = some p ∧ s.nameOf? v = some (letterName i))
      ∧ (∀ v x, s.supply? v = some p → s.nameOf? v = some x →
          ∀ m', m.Leads m' → v.name m'.session.store = (x, m'.session.store))
      ∧ (∀ v w, s.supply? v = some p → s.supply? w = some p → v ≠ w →
          (v.name s).1 ≠ (w.name (v.name s).2).1)
      ∧ Function.Injective letterName := by
  intro p s
  have hseq : s.Sequenced p := h.keeps (P := (·.Sequenced p)) (·.create)
    (fun hstep hs => hs.step hstep) (Store.sequenced_create hnew)
  have hlabel : ∀ {v x}, s.supply? v = some p →
      (s.nameOf? v = some x ↔ ∃ i, s.label? v = some i ∧ letterName i = x) := by
    intro v x hv
    rw [Store.nameOf?_eq hv, Option.map_eq_some_iff]
  have hnamed : ∀ i < s.labelled p,
      ∃ v, s.supply? v = some p ∧ s.nameOf? v = some (letterName i) := by
    intro i hi
    obtain ⟨v, hv, hvi⟩ := hseq.exists_label hi
    exact ⟨v, hv, (hlabel hv).mpr ⟨i, hvi, rfl⟩⟩
  refine ⟨fun x => ⟨?_, ?_⟩, fun i hi => ?_, fun v x hv hx m' hm' => ?_,
    fun v w hv hw hne heq => ?_, fun _ _ => letterName_inj⟩
  · rintro ⟨v, hv, hx⟩
    obtain ⟨i, hi, rfl⟩ := (hlabel hv).mp hx
    exact ⟨i, hseq.label_lt hv hi, rfl⟩
  · rintro ⟨i, hi, rfl⟩
    exact hnamed i hi
  · obtain ⟨v, hv, hvi⟩ := hnamed i hi
    refine ⟨v, ⟨hv, hvi⟩, ?_⟩
    rintro w ⟨hw, hwi⟩
    exact hseq.eq_of_nameOf? hw hv hwi hvi
  · obtain ⟨i, hi, rfl⟩ := (hlabel hv).mp hx
    have hkept := hm'.keeps (P := (·.label? v = some i)) (fun hs => hs)
      (fun hstep hs => hstep.label? hs) hi
    exact Store.name_of_label? hkept
  · -- in the store where both have been named, the names belong to one variable
    obtain ⟨hretv, hnamev⟩ := s.retains_name v
    obtain ⟨hretw, hnamew⟩ := (v.name s).2.retains_name w
    have hseq' := (hseq.name v).name w
    have hsupply : ∀ {u}, s.supply? u = some p →
        (w.name (v.name s).2).2.supply? u = some p := fun hu =>
      (Store.Step.name (p := p) w).supply? ((Store.Step.name (p := p) v).supply? hu)
    refine hne (hseq'.eq_of_nameOf? (hsupply hv) (hsupply hw) (hretw v _ hnamev) ?_)
    rw [heq]
    exact hnamew

/-- The second of two variables is named first. The unification then binds it, and fails on the
other one, which is named for the error. -/
theorem names_identify_variables_bound :
    let m₀ : Machine := {}
    let m := (((m₀.afterStore SupplyId.create).afterStore (SupplyId.fresh 0)).afterStore
      (SupplyId.fresh 0)).afterStore (Var.name ⟨1⟩)
    let x : Infer Unit :=
      unify (.fn (.var ⟨1⟩) (.var ⟨0⟩)) (.fn (.nullary .int) (.list (.var ⟨0⟩)))
    let m' := m.after (liftM x)
    (∀ v, m₀.session.store.supply? v ≠ some (SupplyId.create m₀.session.store).1)
      ∧ (m₀.afterStore SupplyId.create).Leads m ∧ m.Leads m'
      ∧ m.session.store.labelled 0 = 1 ∧ m'.session.store.labelled 0 = 2
      ∧ m'.session.store.isBound ⟨1⟩ = true
      ∧ Var.name ⟨1⟩ m'.session.store = ("a", m'.session.store)
      ∧ Var.name ⟨0⟩ m'.session.store = ("b", m'.session.store) := by
  intro m₀ m x m'
  have hnew : ∀ v, m₀.session.store.supply? v ≠ some (SupplyId.create m₀.session.store).1 := by
    simp [m₀, Store.supply?]
  have hm : (m₀.afterStore SupplyId.create).Leads m :=
    .tail (.tail (.single (.allocate 0)) (.allocate 0)) (.name ⟨1⟩)
  have hm' : m.Leads m' := .single (.run (h := {}) (.infer (.unify (p := 0) _ _)))
  obtain ⟨-, -, hkept, -, -⟩ := names_identify_variables hnew hm
  obtain ⟨-, -, hkept', -, -⟩ := names_identify_variables hnew (hm.trans hm')
  refine ⟨hnew, hm, hm', by decide +kernel, by decide +kernel, by decide +kernel, ?_, ?_⟩
  · exact hkept ⟨1⟩ "a" (by decide +kernel) (by decide +kernel) m' hm'
  · exact hkept' ⟨0⟩ "b" (by decide +kernel) (by decide +kernel) m' .refl

end Overload
